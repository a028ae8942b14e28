import Mos.Fs.Path
import Mos.Fs.Truncate
import Mathlib.Data.List.Find

/-!
# What a path leads to

The names in a directory are what `strcmp` compares; a lookup is the first file with the name.
-/

namespace Mos

namespace View

/-- The characters of `f_name`. -/
def nameChars (v : View) (f : FilePtr) : List Byte :=
  (List.range MAXNAMELEN).map fun i => byteOf (v.get f.blk (f.off + i / 4)) (i % 4)

/-- The name as a string. -/
def fname (v : View) (f : FilePtr) : List Byte := (v.nameChars f).takeWhile (· ≠ 0)

/-- The files in some blocks of a directory, in the order of the search; where there is no block, there are none. -/
def entriesIn (v : View) (d : FilePtr) (is : List Nat) : List FilePtr :=
  is.flatMap fun i => if v.ptr d (.data i) = 0 then [] else (List.range FILE2BLK).map (.entry (v.ptr d (.data i)))

def entries (v : View) (d : FilePtr) : List FilePtr := v.entriesIn d (List.range (v.size d / BY2BLK))

/-- The first file in a directory that has the name. -/
def lookup (v : View) (d : FilePtr) (name : List Byte) : Option FilePtr := (v.entries d).find? fun g => v.fname g = name

/-- Where the components of a path lead to, from a file on. -/
def walk (v : View) : FilePtr → List (List Byte) → Except Word FilePtr
  | f, [] => .ok f
  | f, name :: names =>
    if MAXNAMELEN ≤ name.length then .error (-E_BAD_PATH)
    else if v.IsDir f then match v.lookup f name with
      | some g => v.walk g names
      | none => .error (-E_NOT_FOUND)
    else .error (-E_NOT_FOUND)

/-- What a path leads to. -/
def resolve (v : View) (path : List Byte) : Except Word FilePtr := v.walk .root (pathElems path)

/-! ### Comparing names -/

/-- A string is what comes before the first 0. -/
theorem takeWhile_eq_iff {l name : List Byte} (h0 : 0 ∉ name) (hlen : name.length < l.length) :
    l.takeWhile (· ≠ 0) = name ↔ name ++ [0] <+: l := by
  induction l generalizing name with
  | nil => exact absurd hlen (Nat.not_lt_zero _)
  | cons c l ih =>
    cases name with
    | nil =>
      rw [List.takeWhile_cons]
      by_cases hc : c = 0
      · simp [hc]
      · simp only [hc, ne_eq, not_false_eq_true, decide_true, if_true, reduceCtorEq, List.nil_append, false_iff]
        rintro ⟨r, hr⟩
        exact hc (List.cons.inj hr).1.symm
    | cons a name =>
      rw [List.mem_cons, not_or] at h0
      rw [List.takeWhile_cons, List.cons_append, List.cons_prefix_cons, ← ih h0.2 (by simpa using hlen)]
      by_cases hc : c = 0
      · have hne : a ≠ c := fun heq => h0.1 (hc.symm.trans heq.symm)
        rw [if_neg (by simpa using hc)]
        exact iff_of_false nofun fun h => hne h.1
      · rw [if_pos (decide_eq_true hc), List.cons.injEq]
        exact and_congr_left fun _ => eq_comm

variable {v : View} {b j : Nat} {name : List Byte}

/-- `strcmp` on a `struct File` of a block. -/
theorem nameIs_iff (hj : j < FILE2BLK) (h0 : 0 ∉ name) (hlen : name.length < MAXNAMELEN) :
    nameIs (v b) (64 * j) name = true ↔ v.fname (.entry b j) = name := by
  have hlength : (v.nameChars (.entry b j)).length = MAXNAMELEN := by
    unfold nameChars
    rw [List.length_map, List.length_range]
  unfold fname
  rw [takeWhile_eq_iff h0 (by omega), List.prefix_iff_getElem?]
  unfold nameIs
  rw [List.all_eq_true]
  unfold FILE2BLK at hj
  have hchar : ∀ i, i < MAXNAMELEN → (v.nameChars (.entry b j))[i]? =
      some (byteOf (v b (Fin.ofNat 1024 (64 * j + i / 4))) (i % 4)) := by
    intro i hi
    unfold MAXNAMELEN at hi
    have hlt : 64 * j + i / 4 < 1024 := by omega
    have hfin : Fin.ofNat 1024 (64 * j + i / 4) = ⟨64 * j + i / 4, hlt⟩ := Fin.ext (Nat.mod_eq_of_lt hlt)
    unfold nameChars FilePtr.entry View.get
    rw [List.getElem?_map, List.getElem?_range (show i < MAXNAMELEN from hi), Option.map_some, dif_pos hlt, hfin]
  constructor
  · intro hall i hi
    rw [List.length_append, List.length_singleton] at hi
    rw [hchar i (by omega)]
    have hlt : i < (name ++ [0]).length := by simpa using hi
    have hmem : ((name ++ [0])[i], i) ∈ (name ++ [0]).zipIdx := by
      rw [List.mem_zipIdx_iff_getElem?]
      exact List.getElem?_eq_getElem _
    have heq := hall _ hmem
    rw [beq_iff_eq] at heq
    exact congrArg some heq
  · rintro hall ⟨c, i⟩ hmem
    rw [List.mem_zipIdx_iff_getElem?] at hmem
    dsimp only at hmem ⊢
    obtain ⟨hi, hc⟩ := List.getElem?_eq_some_iff.1 hmem
    have heq := hall i hi
    rw [List.length_append, List.length_singleton] at hi
    rw [hchar i (by omega)] at heq
    rw [beq_iff_eq, Option.some.inj heq, hc]

theorem mem_entries {d g : FilePtr} : g ∈ v.entries d ↔
    ∃ i j, i < v.size d / BY2BLK ∧ v.ptr d (.data i) ≠ 0 ∧ j < FILE2BLK ∧ g = .entry (v.ptr d (.data i)) j := by
  unfold entries entriesIn
  rw [List.mem_flatMap]
  constructor
  · rintro ⟨i, hi, hg⟩
    rw [List.mem_range] at hi
    split at hg
    · cases hg
    · next h0 =>
      obtain ⟨j, hj, rfl⟩ := List.mem_map.1 hg
      exact ⟨i, j, hi, h0, List.mem_range.1 hj, rfl⟩
  · rintro ⟨i, j, hi, h0, hj, rfl⟩
    refine ⟨i, List.mem_range.2 hi, ?_⟩
    rw [if_neg h0]
    exact List.mem_map_of_mem (List.mem_range.2 hj)

/-! ### Setting `f_dir` -/

/-- `u` differs from `v` in the fields `f_dir` of live files at most. -/
def Redirs (O : FilePtr → Prop) (v u : View) : Prop :=
  ∀ b off, (∀ g, v.Live O g → (b, off) ≠ (g.blk, g.off + 45)) → u.get b off = v.get b off

theorem Redirs.refl (O : FilePtr → Prop) (v : View) : Redirs O v v := fun _ _ _ => rfl

variable {nb : Nat} {M : Nat → Prop} {O : FilePtr → Prop} {u w : View} {d f g : FilePtr} {k : FileSlot} {i off : Nat}
  {a : Word}

theorem Redirs.set (hg : v.Live O g) : Redirs O v (v.set g.blk (g.off + 45) a) :=
  fun _ _ hne => get_set_of_ne (hne g hg)

section

variable (hr : Redirs O v u) (h : Good nb M O v)

include hr h

private theorem Redirs.get_struct (hf : v.Live O f) {x : Nat} (hx : x < 64) (hne : x ≠ 45) :
    u.get f.blk (f.off + x) = v.get f.blk (f.off + x) :=
  hr _ _ fun _ hg => h.disjoint hg hf (by omega) hx (.inr hne)

theorem Redirs.ptr (hf : v.Live O f) : u.ptr f k = v.ptr f k := by
  refine ptr_congr (hr.get_struct h hf (by omega) (by omega)) (fun i hi => ?_) (fun i _ _ => ?_) k
  · rw [Nat.add_assoc]
    unfold NDIRECT at hi
    exact hr.get_struct h hf (by omega) (by omega)
  · exact hr _ _ fun g hg heq => h.ind_ne_blk hf hg (congrArg Prod.fst heq)

theorem Redirs.size (hf : v.Live O f) : u.size f = v.size f := by
  unfold View.size
  rw [hr.get_struct h hf (by omega) (by omega)]

theorem Redirs.isDir (hf : v.Live O f) : u.IsDir f ↔ v.IsDir f := by
  unfold IsDir
  rw [hr.get_struct h hf (by omega) (by omega)]

theorem Redirs.isFree (hb : b < nb) : u.IsFree b ↔ v.IsFree b := by
  unfold IsFree
  rw [hr]
  intro g hg heq
  have hblk : 2 + b / 32 / 1024 = g.blk := congrArg Prod.fst heq
  exact h.unused_bitmap.blk g hg (hblk ▸ isBitmap_of_le (.inl hb))

/-- The words of the files in a directory. -/
theorem Redirs.get_entry (hd : v.Live O d) {x : Nat} (hx : x < 45) :
    u.get (v.ptr d (.data i)) (64 * j + x) = v.get (v.ptr d (.data i)) (64 * j + x) := by
  refine hr _ _ fun g hg heq => ?_
  have hblk : v.ptr d (.data i) = g.blk := congrArg Prod.fst heq
  have hoff : 64 * j + x = g.off + 45 := congrArg Prod.snd heq
  have hlast := two_le_lastMeta nb
  rcases h.place hg with rfl | ⟨-, j', -, hgo⟩
  · have hroot : FilePtr.root.blk = 1 := rfl
    have hown := h.own d (.data i) hd (by omega)
    omega
  · omega

theorem Redirs.fname_entry (hd : v.Live O d) :
    u.fname (.entry (v.ptr d (.data i)) j) = v.fname (.entry (v.ptr d (.data i)) j) := by
  have hchars : u.nameChars (.entry (v.ptr d (.data i)) j) = v.nameChars (.entry (v.ptr d (.data i)) j) := by
    refine List.map_congr_left fun x hx => ?_
    rw [List.mem_range] at hx
    unfold MAXNAMELEN at hx
    have hget := hr.get_entry h hd (i := i) (j := j) (x := x / 4) (by omega)
    unfold FilePtr.entry
    rw [hget]
  unfold fname
  rw [hchars]

theorem Redirs.named_entry (hd : v.Live O d) :
    u.Named (.entry (v.ptr d (.data i)) j) ↔ v.Named (.entry (v.ptr d (.data i)) j) := by
  have hget := hr.get_entry h hd (i := i) (j := j) (x := 0) (by omega)
  rw [Nat.add_zero] at hget
  unfold Named FilePtr.entry
  rw [hget]

theorem Redirs.live : u.Live O f ↔ v.Live O f := by
  constructor
  · intro hf
    induction hf with
    | root => exact .root
    | opened hO => exact .opened hO
    | @entry d i j hd hdir hi hj hname ih =>
      rw [hr.ptr h ih] at hi hname ⊢
      exact .entry ih ((hr.isDir h ih).1 hdir) hi hj ((hr.named_entry h ih).1 hname)
  · intro hf
    induction hf with
    | root => exact .root
    | opened hO => exact .opened hO
    | @entry d i j hd hdir hi hj hname ih =>
      have hname' := (hr.named_entry h hd).2 hname
      rw [← hr.ptr h hd] at hi hname' ⊢
      exact .entry ih ((hr.isDir h hd).2 hdir) hi hj hname'

theorem Redirs.entries (hd : v.Live O d) : u.entries d = v.entries d := by
  unfold View.entries entriesIn
  rw [hr.size h hd]
  simp only [hr.ptr h hd]

theorem Redirs.lookup (hd : v.Live O d) : u.lookup d name = v.lookup d name := by
  unfold View.lookup
  rw [hr.entries h hd]
  refine List.find?_congr fun g hg => ?_
  obtain ⟨i, j, -, -, -, rfl⟩ := mem_entries.1 hg
  rw [hr.fname_entry h hd]

theorem Redirs.trans (hr' : Redirs O u w) : Redirs O v w := by
  intro b off hne
  rw [hr' b off fun g hg => hne g ((hr.live h).1 hg), hr b off hne]

end

/-! ### What is found -/

theorem lookup_fname (h : v.lookup d name = some g) : v.fname g = name := by
  have hfound := List.find?_some h
  exact of_decide_eq_true hfound

/-- A file with a name is not a free slot. -/
theorem named_of_fname (hname : name ≠ []) (h : v.fname g = name) : v.Named g := by
  intro h0
  refine hname ?_
  rw [← h]
  have hzero : byteOf (v.get g.blk (g.off + 0 / 4)) (0 % 4) = 0 := h0
  unfold fname nameChars MAXNAMELEN
  rw [show (128 : Nat) = 127 + 1 from rfl, List.range_succ_eq_map, List.map_cons, List.takeWhile_cons]
  simp only [hzero]
  rfl

/-- A lookup finds a live file. -/
theorem lookup_live (hd : v.Live O d) (hdir : v.IsDir d) (hname : name ≠ []) (h : v.lookup d name = some g) :
    v.Live O g := by
  obtain ⟨i, j, -, h0, hj, rfl⟩ := mem_entries.1 (List.mem_of_find?_eq_some h)
  exact .entry hd hdir h0 hj (named_of_fname hname (lookup_fname h))

/-! ### Walks -/

variable {names : List (List Byte)}

/-- One component that a path gets over. -/
theorem walk_cons (h : v.walk f (name :: names) = .ok g) : ¬ MAXNAMELEN ≤ name.length ∧ v.IsDir f ∧
    ∃ g', v.lookup f name = some g' ∧ v.walk g' names = .ok g := by
  unfold walk at h
  split at h
  · cases h
  · next hlen =>
    split at h
    · next hdir =>
      split at h
      · next g' hfound => exact ⟨hlen, hdir, g', hfound, h⟩
      · cases h
    · cases h

theorem walk_of_cons {g' : FilePtr} (hlen : ¬ MAXNAMELEN ≤ name.length) (hdir : v.IsDir f) (h : v.lookup f name = some g') :
    v.walk f (name :: names) = v.walk g' names := by
  rw [walk, if_neg hlen, if_pos hdir, h]

theorem walk_live (hf : v.Live O f) (hnames : ∀ name ∈ names, name ≠ []) (h : v.walk f names = .ok g) : v.Live O g := by
  induction names generalizing f with
  | nil =>
    cases h
    exact hf
  | cons name names ih =>
    obtain ⟨-, hdir, g', hfound, hrest⟩ := walk_cons h
    have hlive := lookup_live hf hdir (hnames name List.mem_cons_self) hfound
    exact ih hlive (fun n hn => hnames n (List.mem_cons_of_mem _ hn)) hrest

end View

end Mos
