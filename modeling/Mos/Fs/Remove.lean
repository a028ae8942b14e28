import Mos.Fs.WalkSpec

/-!
# Removing a file (`file_remove` of `fs/fs.c`)

The file is made empty and loses its name.  In a good view, a file has one path, so that other paths do not lead to it.
-/

namespace Mos

namespace View

variable {nb : Nat} {M : Nat → Prop} {O : FilePtr → Prop} {v u w : View} {d e f g : FilePtr} {k : FileSlot} {i j : Nat}
  {name : List Byte} {names : List (List Byte)}

/-- Nothing changes but the bitmap, `f`, its indirect block and the fields `f_dir`. -/
def Beside (nb : Nat) (O : FilePtr → Prop) (v : View) (f : FilePtr) (u : View) : Prop :=
  ∀ b off, ¬ IsBitmap nb b → ¬ v.Own f b off → (∀ g, v.Live O g → (b, off) ≠ (g.blk, g.off + 45)) →
    u.get b off = v.get b off

private theorem Beside.of_cut {D : Nat → Prop} {I : Prop} (hr : Redirs O v w) (h : Good nb M O v) (hf : v.Live O f)
    (hc : Cut nb w f D I u) : Beside nb O v f u := by
  intro b off hb hown hdir
  have hown' : ¬ w.Own f b off := by
    unfold Own at hown ⊢
    rwa [hr.ptr h hf]
  rw [hc.frame b off hb hown', hr b off hdir]

/-- The words of a file that is in a directory, and of another file, do not overlap. -/
theorem Good.entry_ne (h : Good nb M O v) (hd : v.Live O d) (hi : v.ptr d (.data i) ≠ 0) (hf : v.Live O f) {x y : Nat}
    (hx : x < 64) (hy : y < 64) (hne : y ≠ x ∨ f ≠ .entry (v.ptr d (.data i)) j) :
    (v.ptr d (.data i), 64 * j + y) ≠ (f.blk, f.off + x) := by
  intro heq
  have hblk : v.ptr d (.data i) = f.blk := congrArg Prod.fst heq
  have hoff : 64 * j + y = f.off + x := congrArg Prod.snd heq
  have hlast := two_le_lastMeta nb
  have hown := h.own d _ hd hi
  rcases h.place hf with rfl | ⟨-, j', -, hfo⟩
  · have hroot : FilePtr.root.blk = 1 := rfl
    omega
  · rcases hne with hne | hne
    · omega
    · refine hne ?_
      have hj : f.off = 64 * j := by omega
      cases f
      simp only [FilePtr.entry, FilePtr.mk.injEq]
      exact ⟨hblk.symm, hj⟩

section

variable (hb : Beside nb O v f u) (h : Good nb M O v) (hf : v.Live O f)

include hb h hf

private theorem Beside.get_struct (hg : v.Live O g) (hne : g ≠ f) {x : Nat} (hx : x < 64) (h45 : x ≠ 45) :
    u.get g.blk (g.off + x) = v.get g.blk (g.off + x) := by
  refine hb _ _ (h.unused_bitmap.blk g hg) ?_ fun g' hg' => h.disjoint hg' hg (by omega) hx (.inr h45)
  rintro (⟨hblk, hlo, hhi⟩ | ⟨h0, hblk⟩)
  · refine h.disjoint hf hg (x := g.off + x - f.off) (by omega) hx (.inl hne) ?_
    rw [hblk]
    congr 1
    omega
  · exact h.ind_ne_blk hf hg hblk.symm

private theorem Beside.ptr (hg : v.Live O g) (hne : g ≠ f) : u.ptr g k = v.ptr g k := by
  refine ptr_congr (hb.get_struct h hf hg hne (by omega) (by omega)) (fun i hi => ?_) (fun i h0 _ => ?_) k
  · rw [Nat.add_assoc]
    unfold NDIRECT at hi
    exact hb.get_struct h hf hg hne (by omega) (by omega)
  · refine hb _ _ (h.not_bitmap hg h0) ?_ fun g' hg' heq => h.ind_ne_blk hg hg' (congrArg Prod.fst heq)
    rintro (⟨hblk, -⟩ | ⟨-, heq⟩)
    · exact h.ind_ne_blk hg hf hblk
    · exact hne (h.inj g f .indirect .indirect hg hf h0 heq).1

private theorem Beside.size (hg : v.Live O g) (hne : g ≠ f) : u.size g = v.size g := by
  unfold View.size
  rw [hb.get_struct h hf hg hne (by omega) (by omega)]

theorem Beside.isDir (hg : v.Live O g) (hne : g ≠ f) : u.IsDir g ↔ v.IsDir g := by
  unfold IsDir
  rw [hb.get_struct h hf hg hne (by omega) (by omega)]

theorem Beside.entries (hd : v.Live O d) (hne : d ≠ f) : u.entries d = v.entries d := by
  unfold View.entries entriesIn
  rw [hb.size h hf hd hne]
  simp only [hb.ptr h hf hd hne]

/-- The names in other directories, and of other files in the same. -/
theorem Beside.fname (hd : v.Live O d) (hg : g ∈ v.entries d) (hne : g ≠ f) : u.fname g = v.fname g := by
  obtain ⟨i, j, -, h0, hj, rfl⟩ := mem_entries.1 hg
  have hword : ∀ x, x < 32 → u.get (v.ptr d (.data i)) (64 * j + x) = v.get (v.ptr d (.data i)) (64 * j + x) := by
    intro x hx
    refine hb _ _ (h.not_bitmap hd h0) ?_ fun g' hg' => h.entry_ne hd h0 hg' (by omega) (by omega) (.inl (by omega))
    rintro (⟨hblk, hlo, hhi⟩ | ⟨hind, heq⟩)
    · refine h.entry_ne hd h0 hf (x := 64 * j + x - f.off) (y := x) (j := j) (by omega) (by omega) (.inr hne.symm) ?_
      rw [hblk]
      congr 1
      omega
    · have hsame := (h.inj d f (.data i) .indirect hd hf h0 heq).2
      cases hsame
  have hchars : u.nameChars (.entry (v.ptr d (.data i)) j) = v.nameChars (.entry (v.ptr d (.data i)) j) := by
    refine List.map_congr_left fun x hx => ?_
    rw [List.mem_range] at hx
    unfold MAXNAMELEN at hx
    have hget := hword (x / 4) (by omega)
    unfold FilePtr.entry
    rw [hget]
  unfold View.fname
  rw [hchars]

/-- The contents of files that are no directories. -/
private theorem Beside.byteAt (hg : v.Live O g) (hne : g ≠ f) (hdir : ¬ v.IsDir g) (pos : Nat) : u.byteAt g pos =
    v.byteAt g pos := by
  refine byteAt_congr (hb.ptr h hf hg hne) fun h0 => ?_
  have hother (g' : FilePtr) (hg' : v.Live O g') : v.ptr g (.data (pos / BY2BLK)) ≠ g'.blk :=
    fun hblk => hdir (h.dirs hg hg' hblk).1
  refine hb _ _ (h.not_bitmap hg h0) ?_ fun g' hg' heq => hother g' hg' (congrArg Prod.fst heq)
  rintro (⟨hblk, -⟩ | ⟨-, heq⟩)
  · exact hother f hf hblk
  · have hsame := (h.inj g f _ .indirect hg hf h0 heq).2
    cases hsame

end

/-! ### A file has one path -/

/-- A path with one component more. -/
theorem walk_append (front : List (List Byte)) : v.walk f (front ++ [name]) = .ok g ↔
    ∃ d, v.walk f front = .ok d ∧ ¬ MAXNAMELEN ≤ name.length ∧ v.IsDir d ∧ v.lookup d name = some g := by
  induction front generalizing f with
  | nil =>
    constructor
    · intro hw
      obtain ⟨hlen, hdir, g', hfound, hrest⟩ := walk_cons hw
      cases hrest
      exact ⟨f, rfl, hlen, hdir, hfound⟩
    · rintro ⟨d, ⟨⟩, hlen, hdir, hfound⟩
      exact walk_of_cons hlen hdir hfound
  | cons n front ih =>
    constructor
    · intro hw
      obtain ⟨hlen, hdir, g', hfound, hrest⟩ := walk_cons hw
      obtain ⟨d, hd, hrest⟩ := ih.1 hrest
      exact ⟨d, (walk_of_cons hlen hdir hfound).trans hd, hrest⟩
    · rintro ⟨d, hd, hrest⟩
      obtain ⟨hlen, hdir, g', hfound, hw⟩ := walk_cons hd
      exact (walk_of_cons hlen hdir hfound).trans (ih.2 ⟨d, hw, hrest⟩)

/-- The root is in no directory. -/
theorem Good.root_notMem (h : Good nb M O v) (hd : v.Live O d) : .root ∉ v.entries d := by
  intro hmem
  obtain ⟨i, j, -, h0, -, heq⟩ := mem_entries.1 hmem
  have hown := h.own d _ hd h0
  have hlast := two_le_lastMeta nb
  have hblk : 1 = v.ptr d (.data i) := congrArg FilePtr.blk heq
  omega

/-- A file is in one directory. -/
theorem Good.entries_inj (h : Good nb M O v) {d' : FilePtr} (hd : v.Live O d) (hd' : v.Live O d') (hg : g ∈ v.entries d)
    (hg' : g ∈ v.entries d') : d = d' := by
  obtain ⟨i, j, -, h0, -, rfl⟩ := mem_entries.1 hg
  obtain ⟨i', j', -, -, -, heq⟩ := mem_entries.1 hg'
  have hptr : v.ptr d (.data i) = v.ptr d' (.data i') := congrArg FilePtr.blk heq
  exact (h.inj d d' _ _ hd hd' h0 hptr).1

theorem Good.walk_inj (h : Good nb M O v) (names : List (List Byte)) : ∀ {names' : List (List Byte)} {g : FilePtr},
    (∀ n ∈ names, n ≠ []) → (∀ n ∈ names', n ≠ []) → v.walk .root names = .ok g → v.walk .root names' = .ok g →
    names = names' := by
  induction names using List.reverseRecOn with
  | nil =>
    rintro names' g - hne ⟨⟩ hw'
    rcases List.eq_nil_or_concat names' with rfl | ⟨front, n, rfl⟩
    · rfl
    rw [List.concat_eq_append] at hne hw'
    obtain ⟨d, hd, -, -, hfound⟩ := (walk_append front).1 hw'
    have hlive := walk_live (O := O) .root (fun n hn => hne n (List.mem_append_left _ hn)) hd
    exact absurd (List.mem_of_find?_eq_some hfound) (h.root_notMem hlive)
  | append_singleton front n ih =>
    intro names' g hne hne' hw hw'
    obtain ⟨d, hd, -, -, hfound⟩ := (walk_append front).1 hw
    have hlive := walk_live (O := O) .root (fun n hn => hne n (List.mem_append_left _ hn)) hd
    rcases List.eq_nil_or_concat names' with rfl | ⟨front', n', rfl⟩
    · cases hw'
      exact absurd (List.mem_of_find?_eq_some hfound) (h.root_notMem hlive)
    rw [List.concat_eq_append] at hne' hw' ⊢
    obtain ⟨d', hd', -, -, hfound'⟩ := (walk_append front').1 hw'
    have hlive' := walk_live (O := O) .root (fun n hn => hne' n (List.mem_append_left _ hn)) hd'
    obtain rfl := h.entries_inj hlive hlive' (List.mem_of_find?_eq_some hfound) (List.mem_of_find?_eq_some hfound')
    have hname : n = n' := (lookup_fname hfound).symm.trans (lookup_fname hfound')
    rw [ih (fun n hn => hne n (List.mem_append_left _ hn)) (fun n hn => hne' n (List.mem_append_left _ hn)) hd hd', hname]

/-! ### What a removal does to paths -/

/-- A path in two parts. -/
theorem walk_front {front : List (List Byte)} (names : List (List Byte)) (hw : v.walk f front = .ok d) :
    v.walk f (front ++ names) = v.walk d names := by
  induction front generalizing f with
  | nil =>
    cases hw
    rfl
  | cons n front ih =>
    obtain ⟨hlen, hdir, g', hfound, hrest⟩ := walk_cons hw
    exact (walk_of_cons hlen hdir hfound).trans (ih hrest)

/-- A search for something else than an element that is to be passed over. -/
theorem find?_pass {α : Type} {l : List α} {p q : α → Bool} {a : α} (hpq : ∀ x ∈ l, x ≠ a → q x = p x) (hq : q a = false)
    (hne : l.find? p ≠ some a) : l.find? q = l.find? p := by
  induction l with
  | nil => rfl
  | cons x l ih =>
    have hrest := fun y hy => hpq y (List.mem_cons_of_mem x hy)
    cases hp : p x with
    | true =>
      have hx : x ≠ a := by
        rintro rfl
        exact hne (List.find?_cons_of_pos hp)
      rw [List.find?_cons_of_pos hp, List.find?_cons_of_pos ((hpq x List.mem_cons_self hx).trans hp)]
    | false =>
      have hnot : ¬ p x = true := by simp [hp]
      have hqx : ¬ q x = true := by
        by_cases hx : x = a
        · simp [hx, hq]
        · simp [hpq x List.mem_cons_self hx, hp]
      rw [List.find?_cons_of_neg hnot] at hne ⊢
      rw [List.find?_cons_of_neg hqx]
      exact ih hrest hne

/-- A free slot has no name. -/
theorem fname_of_not_named (h : ¬ v.Named f) : v.fname f = [] := by
  by_contra hne
  exact h (named_of_fname hne rfl)

section

variable (hb : Beside nb O v f u) (h : Good nb M O v) (hf : v.Live O f) (hgone : ¬ u.Named f)

include hb h hf hgone

/-- Paths that do not come to the file. -/
theorem Beside.walk : ∀ {names : List (List Byte)} {c : FilePtr}, v.Live O c → (∀ n ∈ names, n ≠ []) →
    (∀ front, front <+: names → v.walk c front ≠ .ok f) → u.walk c names = v.walk c names := by
  intro names
  induction names with
  | nil => exact fun _ _ _ => rfl
  | cons n names ih =>
    intro c hc hne hnot
    have hcf : c ≠ f := fun heq => hnot [] List.nil_prefix (congrArg _ heq)
    unfold View.walk
    by_cases hlen : MAXNAMELEN ≤ n.length
    · rw [if_pos hlen, if_pos hlen]
    rw [if_neg hlen, if_neg hlen]
    by_cases hdir : v.IsDir c
    case neg => rw [if_neg hdir, if_neg fun hu => hdir ((hb.isDir h hf hc hcf).1 hu)]
    rw [if_pos hdir, if_pos ((hb.isDir h hf hc hcf).2 hdir)]
    have hn := hne n List.mem_cons_self
    have hlook : v.lookup c n ≠ some f := by
      intro hfound
      have hwalk : v.walk c [n] = v.walk f [] := walk_of_cons hlen hdir hfound
      exact hnot [n] (List.prefix_append [n] names) hwalk
    have hsame : u.lookup c n = v.lookup c n := by
      unfold View.lookup at hlook ⊢
      rw [hb.entries h hf hc hcf]
      refine find?_pass (a := f) (fun g hg hgf => ?_) ?_ hlook
      · rw [hb.fname h hf hc hg hgf]
      · rw [fname_of_not_named hgone]
        exact decide_eq_false hn.symm
    rw [hsame]
    cases hfound : v.lookup c n with
    | none => rfl
    | some g =>
      refine ih (lookup_live hc hdir hn hfound) (fun m hm => hne m (List.mem_cons_of_mem _ hm)) fun front hfront hw => ?_
      exact hnot (n :: front) (List.cons_prefix_cons.2 ⟨rfl, hfront⟩) ((walk_of_cons hlen hdir hfound).trans hw)

/-- Afterwards, the path leads to another file of the same name in the directory, if there is one. -/
private theorem Beside.gone_iff {front : List (List Byte)} (hne : ∀ n ∈ front ++ [name], n ≠ [])
    (hd : v.walk .root front = .ok d)
    (hw : v.walk .root (front ++ [name]) = .ok f) : u.walk .root (front ++ [name]) = .error (-E_NOT_FOUND) ↔
      ∀ g ∈ v.entries d, v.fname g = name → g = f := by
  have hfront : ∀ n ∈ front, n ≠ [] := fun n hn => hne n (List.mem_append_left _ hn)
  have hn : name ≠ [] := hne name (List.mem_append_right _ (List.mem_singleton_self _))
  have hlive : v.Live O d := walk_live .root hfront hd
  obtain ⟨d', hd', hlen, hdir, -⟩ := (walk_append front).1 hw
  obtain rfl : d = d' := Except.ok.inj (hd.symm.trans hd')
  have hshort (l : List (List Byte)) (hl : l <+: front) : v.walk .root l ≠ .ok f := by
    intro hlf
    have heq := h.walk_inj l (fun n hn => hfront n (hl.subset hn)) hne hlf hw
    have hlength := hl.length_le
    rw [heq, List.length_append, List.length_singleton] at hlength
    omega
  have hdf : d ≠ f := fun heq => hshort front (List.prefix_refl _) (heq ▸ hd)
  have hud : u.walk .root front = .ok d := (hb.walk h hf hgone .root hfront hshort).trans hd
  have hudir : u.IsDir d := (hb.isDir h hf hlive hdf).2 hdir
  have hnone : u.walk d [name] = .error (-E_NOT_FOUND) ↔ u.lookup d name = none := by
    unfold View.walk
    rw [if_neg hlen, if_pos hudir]
    cases u.lookup d name with
    | none => exact iff_of_true rfl rfl
    | some g => exact iff_of_false (fun h => by cases h) fun h => by cases h
  rw [walk_front [name] hud, hnone]
  unfold View.lookup
  rw [hb.entries h hf hlive hdf, List.find?_eq_none]
  constructor
  · intro hall g hg hname
    by_contra hgf
    refine hall g hg (decide_eq_true ?_)
    rw [hb.fname h hf hlive hg hgf, hname]
  · intro hall g hg hname
    have hname' : u.fname g = name := of_decide_eq_true hname
    by_cases hgf : g = f
    · rw [hgf, fname_of_not_named hgone] at hname'
      exact hn hname'.symm
    · rw [hb.fname h hf hlive hg hgf] at hname'
      exact hgf (hall g hg hname')

end

/-! ### What a removal is to do -/

/-- From `v`, the blocks of `f` up to its size and its indirect block have been freed, and it has no name. -/
def Emptied (nb : Nat) (v : View) (f : FilePtr) (u : View) : Prop :=
  Cut nb v f (fun i => newNblocks 0 ≤ i ∧ i < oldNblocks v f) (newNblocks 0 ≤ NDIRECT) u ∧ ¬ u.Named f

/-- A file and, if it is a directory, the files in the tree below it. -/
inductive Below (v : View) (f : FilePtr) : FilePtr → Prop
  | self : Below v f f
  | entry {d g : FilePtr} (hd : Below v f d) (hdir : v.IsDir d) (hg : g ∈ v.entries d) (hname : v.Named g) : Below v f g

private theorem Below.live (hf : v.Live O f) (h : v.Below f g) : v.Live O g := by
  induction h with
  | self => exact hf
  | entry hd hdir hg hname ih =>
    obtain ⟨i, j, -, h0, hj, rfl⟩ := mem_entries.1 hg
    exact .entry ih hdir h0 hj hname

/-- A file has the size, the type, the blocks and, unless it is a directory, the bytes that it had. -/
structure SameFile (v u : View) (g : FilePtr) : Prop where
  size : u.size g = v.size g
  isDir : u.IsDir g ↔ v.IsDir g
  ptr : ∀ k, u.ptr g k = v.ptr g k
  byteAt : ¬ v.IsDir g → ∀ pos, u.byteAt g pos = v.byteAt g pos

/-- What `file_remove` is to do, from its result and the views before and after it; the fields `f_dir`, which every lookup
sets, are left out. -/
structure Removed (O : FilePtr → Prop) (v : View) (path : List Byte) (r : Except Word Unit) (u : View) : Prop where
  gone : r = .ok () → u.resolve path = .error (-E_NOT_FOUND)
  others : r = .ok () → ∀ path', ¬ pathElems path <+: pathElems path' →
    u.resolve path' = v.resolve path' ∧ ∀ g, v.resolve path' = .ok g → SameFile v u g
  freed : r = .ok () → ∀ f g k, v.resolve path = .ok f → v.Below f g → v.ptr g k ≠ 0 → u.IsFree (v.ptr g k)
  failed : ∀ e, r = .error e → Redirs O v u

/-- Where `file_remove` gets it right: the path is not that of the root, the name is there once, no block is behind the size,
and no file below has a block. -/
def Removable (v : View) (path : List Byte) : Prop :=
  ∀ f, v.resolve path = .ok f → pathElems path ≠ [] ∧
    (∀ front name d, pathElems path = front ++ [name] → v.walk .root front = .ok d →
      ∀ g ∈ v.entries d, v.fname g = name → g = f) ∧
    (∀ i, oldNblocks v f ≤ i → v.ptr f (.data i) = 0) ∧
    ∀ g, v.Below f g → g ≠ f → ∀ k, v.ptr g k = 0

theorem pathElems_ne_nil {path : List Byte} : ∀ n ∈ pathElems path, n ≠ [] := fun _ hn => (FsProc.pathElems_names hn).1

section

variable {M' : Nat → Prop} {path : List Byte} (h : Good nb M O v) (hfound : v.resolve path = .ok f) (hr : Redirs O v w)
  (hw : Good nb M' O w) (hc : Cut nb w f (fun i => newNblocks 0 ≤ i ∧ i < oldNblocks w f) (newNblocks 0 ≤ NDIRECT) u)

include h hfound hr hw hc

/-- The blocks that are free afterwards are those of the file up to its size. -/
private theorem freed_iff : (∀ g k, v.Below f g → v.ptr g k ≠ 0 → u.IsFree (v.ptr g k)) ↔
    (∀ i, oldNblocks v f ≤ i → v.ptr f (.data i) = 0) ∧ ∀ g, v.Below f g → g ≠ f → ∀ k, v.ptr g k = 0 := by
  have hf : v.Live O f := walk_live .root pathElems_ne_nil hfound
  have hf' : w.Live O f := (hr.live h).2 hf
  have hptr (g : FilePtr) (k : FileSlot) (hg : v.Live O g) : w.ptr g k = v.ptr g k := hr.ptr h hg
  have hold : oldNblocks w f = oldNblocks v f := by
    unfold oldNblocks
    rw [hr.size h hf]
  constructor
  · intro hall
    refine ⟨fun i hi => ?_, fun g hg hgf k => ?_⟩
    · by_contra h0
      have hfree := hall f (.data i) .self h0
      rw [← hptr f _ hf] at hfree h0
      refine hc.not_free_self hw hf' h0 (fun j hj hD => ?_) nofun hfree
      cases hj
      omega
    · by_contra h0
      have hlive := hg.live hf
      have hfree := hall g k hg h0
      rw [← hptr g _ hlive] at hfree h0
      exact hc.not_free_other hw hf' ((hr.live h).2 hlive) hgf h0 hfree
  · rintro ⟨hself, hbelow⟩ g k hg h0
    by_cases hgf : g = f
    case neg => exact absurd (hbelow g hg hgf k) h0
    subst hgf
    have hown := h.own g k hf h0
    refine (hc.free _ hown.2.1).2 (.inr ⟨h0, ?_⟩)
    cases k with
    | indirect => exact .inr ⟨Nat.zero_le _, hptr g _ hf⟩
    | data i =>
      have hlt : i < oldNblocks v g := Nat.lt_of_not_le fun hi => h0 (hself i hi)
      exact .inl ⟨i, ⟨Nat.zero_le _, hold ▸ hlt⟩, hptr g _ hf⟩

/-- A removal is right just where the path and the file are as `Removable` says. -/
private theorem removed_iff (hgone : ¬ u.Named f) : Removed O v path (.ok ()) u ↔ v.Removable path := by
  have hf : v.Live O f := walk_live .root pathElems_ne_nil hfound
  have hb : Beside nb O v f u := .of_cut hr h hf hc
  have hblocks := freed_iff h hfound hr hw hc
  rcases List.eq_nil_or_concat (pathElems path) with hnil | ⟨front, name, hpath⟩
  · -- the root has no name that could be cleared
    have hroot (v : View) : v.resolve path = .ok .root := by
      unfold resolve
      rw [hnil]
      rfl
    constructor
    · intro hrem
      have hnot := hrem.gone rfl
      rw [hroot u] at hnot
      cases hnot
    · exact fun hcond => absurd hnil (hcond f hfound).1
  rw [List.concat_eq_append] at hpath
  have hw' : v.walk .root (front ++ [name]) = .ok f := hpath ▸ hfound
  have hne : ∀ n ∈ front ++ [name], n ≠ [] := hpath ▸ pathElems_ne_nil
  obtain ⟨d, hd, -, hdir, hlook⟩ := (walk_append front).1 hw'
  have hgone_iff := hb.gone_iff h hf hgone hne hd hw'
  constructor
  · intro hrem f' hfound'
    obtain rfl : f = f' := Except.ok.inj (hfound.symm.trans hfound')
    refine ⟨by simp [hpath], fun front' name' d' hpath' hd' => ?_, hblocks.1 fun g k => hrem.freed rfl f g k hfound⟩
    obtain ⟨rfl, hname⟩ := List.append_inj' (hpath.symm.trans hpath') rfl
    obtain rfl := (List.cons.inj hname).1
    obtain rfl : d = d' := Except.ok.inj (hd.symm.trans hd')
    refine hgone_iff.1 ?_
    rw [← hpath]
    exact hrem.gone rfl
  · intro hcond
    obtain ⟨-, honce, hfree⟩ := hcond f hfound
    refine ⟨fun _ => ?_, fun _ path' hnot => ?_, fun _ f' g k hfound' => ?_, nofun⟩
    · unfold resolve
      rw [hpath]
      exact hgone_iff.2 (honce front name d hpath hd)
    · have hshort (l : List (List Byte)) (hl : l <+: pathElems path') : v.walk .root l ≠ .ok f := by
        intro hlf
        have heq := h.walk_inj l (fun n hn => pathElems_ne_nil n (hl.subset hn)) pathElems_ne_nil hlf hfound
        exact hnot (heq ▸ hl)
      refine ⟨hb.walk h hf hgone .root pathElems_ne_nil hshort, fun g hg => ?_⟩
      have hgf : g ≠ f := fun heq => hshort _ (List.prefix_refl _) (heq ▸ hg)
      have hlive : v.Live O g := walk_live .root pathElems_ne_nil hg
      exact ⟨hb.size h hf hlive hgf, hb.isDir h hf hlive hgf, fun k => hb.ptr h hf hlive hgf,
        fun hdir => hb.byteAt h hf hlive hgf hdir⟩
    · obtain rfl : f = f' := Except.ok.inj (hfound.symm.trans hfound')
      exact hblocks.2 hfree g k

end

end View

namespace FsProc

open Proc View

variable {nb : Nat} {O : FilePtr → Prop} {X : Fs.Extra} {s t : Fs} {l : List FsLog} {f : FilePtr} {ok : FsLog → Prop}
  {v : View} {D : Nat → Prop} {I : Prop} {path : List Byte}

private theorem result_walked (v : View) (names : List (List Byte)) :
    result (.ok (v.walked none .root names)) = v.walk .root names := by
  obtain ⟨hok, herror⟩ := walked_result (v := v) names none .root
  rcases hw : v.walked none .root names with ⟨r, pdir, pfile, lastelem⟩
  rw [hw] at hok herror
  cases hres : v.walk .root names with
  | ok g =>
    obtain ⟨-, hfile⟩ := hok g hres
    dsimp only at hfile
    rw [hfile]
    rfl
  | error e =>
    obtain ⟨hr, hfile⟩ := herror e hres
    dsimp only at hr hfile
    rw [hfile, hr]
    rfl

/-- Where all blocks of the directories on the path are there, `walk_path` returns what the path leads to. -/
theorem walkPath_some {r : Except Word FilePtr} (hX : Fs.Closed nb X) (hs : s.Ok nb O X)
    (hwhole : s.view.WholeOn .root (pathElems path)) (h : walkPath path s = some (l, r, t)) :
    r = s.view.resolve path ∧ t.Ok nb O X ∧ Redirs O s.view t.view ∧ ∀ g, r = .ok g → t.Mapped g.blk := by
  rw [walkPath_eq] at h
  obtain ⟨⟨l', q, t'⟩, hq, heq⟩ := Option.map_eq_some_iff.1 h
  cases heq
  obtain ⟨rfl, hok, hr, hmap⟩ := (walkPathFull_runs hX hs hwhole).post _ _ _ hq
  rw [result_walked]
  exact ⟨rfl, hok, hr, hmap⟩

/-- The name of a file whose blocks have been freed. -/
private theorem clearName_cut (hX : Fs.Closed nb X) (hO : O f) :
    Spec ok (fun s => s.Ok nb O X ∧ Cut nb v f D I s.view) (clearName f)
      (Ends (fun _ s => s.Ok nb O X ∧ Cut nb v f D I s.view ∧ ¬ s.view.Named f) fun _ => False) := by
  refine .bind (word_spec _ _) fun w => ?_
  rintro s l r t ⟨⟨hok, hcut⟩, -⟩ h _
  obtain ⟨rfl, hview, hmap⟩ := setIn_view (p := (f.blk, f.off)) h
  have hoff : f.off < 1024 := by
    rcases hok.good.place (.opened hO) with rfl | ⟨-, j, hj, hoff⟩
    · decide
    · unfold FILE2BLK at hj
      omega
  refine ⟨hok.change hX ?_ fun b hb => (hmap b).2 hb, ?_, fun hname => hname ?_⟩
  · rw [hview]
    exact .field (y := 0) (.opened hO) (.inl (by decide)) fun _ => byteOf_clear w
  · rw [hview]
    exact hcut.field (y := 0) hok.good (.opened hO) (.inl (by decide))
  · rw [hview, get_set hoff, if_pos ⟨rfl, rfl⟩]
    exact byteOf_clear w

/-- What `file_remove` does with the file that it finds. -/
private theorem emptied_spec (hX : Fs.Closed nb X) (hO : O f) : Spec ok (fun s => s.Ok nb O X ∧ s.view = v) (do
      fileTruncate f 0
      clearName f
      fileFlush f
      flushDir f) (Ends (fun _ s => s.Ok nb O X ∧ Emptied nb v f s.view) fun _ => False) := by
  refine .bind (fileTruncate_cut hX hO 0) fun _ => .bind (clearName_cut hX hO) fun _ => ?_
  have hsteady : Steady fun s => s.Ok nb O X ∧ Emptied nb v f s.view := steady_ok_and hX _
  exact .bind (fileFlush_look hsteady f) fun _ => flushDir_look hsteady f

/-- What `file_remove` does: a walk that fails, or a walk, a file cut off, and its name gone. -/
theorem fileRemove_some {r : Except Word Unit} (hs : s.Ok nb O Fs.Plain) (hwhole : s.view.WholeOn .root (pathElems path))
    (h : fileRemove path s = some (l, r, t)) :
    t.Ok nb O Fs.Plain ∧ ((∃ e, s.view.resolve path = .error e ∧ r = .error e ∧ Redirs O s.view t.view) ∨
      ∃ f w M, s.view.resolve path = .ok f ∧ r = .ok () ∧ Redirs O s.view w ∧ w.Good nb M O ∧ Emptied nb w f t.view) := by
  rcases bind_some h with ⟨e, hx, rfl⟩ | ⟨l₁, f, s', l₂, hx, hrest, rfl⟩
  · obtain ⟨hres, hok, hr, -⟩ := walkPath_some Fs.closed_plain hs hwhole hx
    exact ⟨hok, .inl ⟨e, hres.symm, rfl, hr⟩⟩
  · obtain ⟨hres, hok, hr, hmap⟩ := walkPath_some Fs.closed_plain hs hwhole hx
    have hf : s.view.Live O f := walk_live .root pathElems_ne_nil hres.symm
    have hopen := hok.open Fs.closed_plain ((hr.live hs.good).2 hf) (hmap f rfl)
    have hspec : Spec (fun _ => True) (fun t : Fs => t.Ok nb (View.With O f) Fs.Plain ∧ t.view = s'.view) _ _ :=
      emptied_spec Fs.closed_plain (.inr rfl)
    have hend := hspec s' l₂ r t ⟨hopen, rfl⟩ hrest fun _ _ => trivial
    cases r with
    | error e => exact hend.elim
    | ok a =>
      exact ⟨hend.1.anti Fs.closed_plain fun _ h => .inl h, .inr ⟨f, s'.view, _, hres.symm, rfl, hr, hok.good, hend.2⟩⟩

end FsProc

/-- Where all blocks of the directories on the path are there, a removal is right if and only if the path is not that of
the root, the name is there once, no block is behind the size, and no file below has a block. -/
theorem FsProc.fileRemove_removed_iff {nb : Nat} {O : FilePtr → Prop} {s t : Fs} {path : List Byte} {l : List FsLog}
    {r : Except Word Unit} (hs : s.Ok nb O Fs.Plain) (hwhole : s.view.WholeOn .root (pathElems path))
    (h : fileRemove path s = some (l, r, t)) : View.Removed O s.view path r t.view ↔ s.view.Removable path := by
  rcases (fileRemove_some hs hwhole h).2 with ⟨e, hres, rfl, hr⟩ | ⟨f, w, M, hres, rfl, hr, hw, hgone⟩
  · have hnot : ∀ f, s.view.resolve path ≠ .ok f := by
      rw [hres]
      exact nofun
    exact iff_of_true ⟨nofun, nofun, nofun, fun _ _ => hr⟩ fun f hf => absurd hf (hnot f)
  · exact View.removed_iff hs.good hres hr hw hgone.1 hgone.2

namespace FileSys

theorem removed_iff_small : ∃ (nb : Nat) (s t : Fs) (l : List FsLog), s.Ok nb (fun _ => False) Fs.Plain ∧
    FsProc.fileRemove [47, 97] s = some (l, .ok (), t) ∧
      (View.Removed (fun _ => False) s.view [47, 97] (.ok ()) t.view ↔ s.view.Removable [47, 97]) := by
  have hI := inv_start (ι := Fin 3) wellFormed_small 10
  have hok : (Fs.mount smallDisk 10).Ok (smallDisk.get 1 1).toNat (fun _ => False) Fs.Plain :=
    (hI.imp fun _ => trivial).anti Fs.closed_plain fun _ h => h.elim
  have hrun : (FsProc.fileRemove [47, 97] (Fs.mount smallDisk 10)).any (fun p => p.2.1.toOption.isSome) = true := by
    decide +kernel
  obtain ⟨⟨l, r, t⟩, h, hr⟩ := (Option.any_eq_true _ _).1 hrun
  cases r with
  | error e => cases hr
  | ok a => exact ⟨_, _, t, l, hok, h, FsProc.fileRemove_removed_iff hok (whole_mount.on _) h⟩

/-- Client 2 opens `b`, which is empty, and maps a block behind its size. -/
def mapBehindB : List (FileEvent (Fin 3)) := openB ++ [.request 2 (.map 1024 4096) none]

/-- A block behind the size of `b` stays in use when `b` is removed. -/
theorem exists_not_removed : ∃ (s : FileSys (Fin 3)) (t : Fs) (l : List FsLog),
    (fileSys (Fin 3)).Reach (fun s ev => s.sound? ev) s ∧ FsProc.fileRemove [98] s.serv.fs = some (l, .ok (), t) ∧
      s.serv.fs.view.resolve [98] = .ok fileB ∧ s.serv.fs.view.ptr fileB (.data 1) = 5 ∧ ¬ t.view.IsFree 5 ∧
      ¬ View.Removed s.serv.Opened s.serv.fs.view [98] (.ok ()) t.view := by
  have hrun : ((fileSys (Fin 3)).run sound? (.start smallDisk 10) mapBehindB).map (fun s =>
      decide ((s.serv.fs.view.resolve [98]).toOption = some fileB ∧ s.serv.fs.view.ptr fileB (.data 1) = 5) &&
        (FsProc.fileRemove [98] s.serv.fs).any fun p => p.2.1.toOption.isSome && !decide (p.2.2.view.IsFree 5)) =
          some true := by decide +kernel
  obtain ⟨s, hs, hfound⟩ := reach_of_run hrun
  obtain ⟨hstate, hany⟩ := Bool.and_eq_true_iff.1 hfound
  obtain ⟨hres, h5⟩ := of_decide_eq_true hstate
  obtain ⟨⟨l, r, t⟩, h, hend⟩ := (Option.any_eq_true _ _).1 hany
  obtain ⟨hr, hused⟩ := Bool.and_eq_true_iff.1 hend
  have hused' : ¬ t.view.IsFree 5 := by simpa using hused
  have hres' : s.serv.fs.view.resolve [98] = .ok fileB := by
    cases hw : s.serv.fs.view.resolve [98] with
    | ok f =>
      rw [hw] at hres
      exact congrArg _ (Option.some.inj hres)
    | error e =>
      rw [hw] at hres
      cases hres
  cases r with
  | error e => cases hr
  | ok a =>
    refine ⟨s, t, l, hs, h, hres', h5, hused', fun hrem => hused' ?_⟩
    rw [← h5]
    exact hrem.freed rfl fileB fileB (.data 1) hres' .self (by omega)

end FileSys

end Mos
