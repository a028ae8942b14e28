import Mos.Fs.Remove

/-!
# Creating a file (`file_create` and `dir_alloc_file` of `fs/fs.c`)

A free slot of the directory gets the name, and nothing else of it is written.  So the new file is as its slot was left, and
it is an empty file where the slot was left clean.
-/

namespace Mos

def E_FILE_EXISTS : Word := 12

namespace FsProc

/-- The first free slot in a block of a directory. -/
def findFree (b : Nat) : FsProc (Option FilePtr) :=
  .read fun s => (s.cache b).map fun pg =>
    ((List.range FILE2BLK).find? fun j => byteOf (pg.data (Fin.ofNat 1024 (64 * j))) 0 = 0).map (FilePtr.entry b)

/-- The loop of `dir_alloc_file`, over the blocks of the directory. -/
def freeSlotIn (dir : FilePtr) : List Nat → FsProc (Option FilePtr)
  | [] => pure none
  | i :: is => do
    let b ← fileGetBlock dir i
    let found ← findFree b
    match found with
    | some f => pure (some f)
    | none => freeSlotIn dir is

def dirAllocFile (dir : FilePtr) : FsProc FilePtr := do
  let size ← fSize dir
  let nblock := size.toNat / BY2BLK
  let found ← freeSlotIn dir (List.range nblock)
  match found with
  | some f => pure f
  | none => do
    -- the directory grows by a block before there is one
    let size ← fSize dir
    setFSize dir (size + BitVec.ofNat 32 BY2BLK)
    let b ← fileGetBlock dir nblock
    pure (.entry b 0)

/-- A byte of the name. -/
def setNameByte (f : FilePtr) (i : Nat) (c : Byte) : FsProc Unit := do
  let w ← word f.blk (f.off + i / 4)
  setIn f f.blk (f.off + i / 4) (setByte w (i % 4) c)

/-- `strcpy` to the name, from a place of it on. -/
def strcpyName (f : FilePtr) (i : Nat) : List Byte → FsProc Unit
  | [] => setNameByte f i 0
  | c :: cs => do
    setNameByte f i c
    strcpyName f (i + 1) cs

/-- `file_create` after its walk. -/
def createAt (w : Walked) : FsProc FilePtr :=
  if w.r = 0 then .fail (-E_FILE_EXISTS)
  else match w.pdir, w.lastelem with
    | some dir, some name =>
      if w.r ≠ -E_NOT_FOUND then .fail w.r
      else do
        let q ← .attempt (dirAllocFile dir)
        match q with
        | .error _ => .fail w.r
        | .ok f => do
          strcpyName f 0 name
          pure f
    | _, _ => .fail w.r

def fileCreate (path : List Byte) : FsProc FilePtr := do
  let w ← walkPathFull path
  createAt w

private theorem fileCreate_eq (path : List Byte) : fileCreate path =
    walkElems none .root (pathElems path) >>= createAt := by
  unfold fileCreate
  rw [walkPathFull_eq]

end FsProc

namespace View

variable {nb : Nat} {M : Nat → Prop} {O : FilePtr → Prop} {v u w : View} {d f g : FilePtr} {k : FileSlot} {i j : Nat}
  {name : List Byte} {names : List (List Byte)}

/-- The first free slot of a directory. -/
def freeSlot (v : View) (d : FilePtr) : Option FilePtr := (v.entries d).find? fun g => ¬ v.Named g

/-- An empty regular file in a directory. -/
structure Empty (v : View) (d f : FilePtr) : Prop where
  size : v.size f = 0
  regular : v.get f.blk (f.off + 33) = 0
  ptr : ∀ k, v.ptr f k = 0
  dir : v.get f.blk (f.off + 45) = d.addr

/-- `u` differs from `v` in the name of `f` at most. -/
def Renames (v : View) (f : FilePtr) (u : View) : Prop :=
  ∀ b off, ¬ (b = f.blk ∧ f.off ≤ off ∧ off < f.off + 32) → u.get b off = v.get b off

/-! ### A slot gets a name -/

/-- A free slot in a block of a directory. -/
structure FreeAt (O : FilePtr → Prop) (v : View) (d : FilePtr) (i j : Nat) : Prop where
  dir : v.Live O d
  isDir : v.IsDir d
  ptr : v.ptr d (.data i) ≠ 0
  lt : j < FILE2BLK
  free : ¬ v.Live O (.entry (v.ptr d (.data i)) j)
  empty : ∀ k, v.ptr (.entry (v.ptr d (.data i)) j) k = 0
  regular : ¬ v.IsDir (.entry (v.ptr d (.data i)) j)

section

variable (h : Good nb M O v) (hs : v.FreeAt O d i j) (hr : v.Renames (.entry (v.ptr d (.data i)) j) u)

include h hs hr

/-- Live files are not touched. -/
private theorem Renames.get_struct (hg : v.Live O g) {x : Nat} (hx : x < 64) : u.get g.blk (g.off + x) =
    v.get g.blk (g.off + x) := by
  refine hr _ _ ?_
  rintro ⟨hblk, hlo, hhi⟩
  have hlo' : 64 * j ≤ g.off + x := hlo
  have hhi' : g.off + x < 64 * j + 32 := hhi
  have hne : g ≠ .entry (v.ptr d (.data i)) j := fun heq => hs.free (heq ▸ hg)
  refine h.entry_ne hs.dir hs.ptr hg (x := x) (y := g.off + x - 64 * j) (j := j) hx (by omega) (.inr hne) ?_
  rw [hblk]
  congr 1
  omega

private theorem Renames.ptr (hg : v.Live O g) : u.ptr g k = v.ptr g k := by
  refine ptr_congr (hr.get_struct h hs hg (by omega)) (fun i' hi' => ?_) (fun i' h0 _ => hr _ _ ?_) k
  · rw [Nat.add_assoc]
    unfold NDIRECT at hi'
    exact hr.get_struct h hs hg (by omega)
  · rintro ⟨hblk, -⟩
    have hsame := (h.inj g d .indirect (.data i) hg hs.dir h0 hblk).2
    cases hsame

omit h in
private theorem Renames.ptr_self : u.ptr (.entry (v.ptr d (.data i)) j) k = 0 := by
  have hget : ∀ x, 32 ≤ x → u.get (v.ptr d (.data i)) (64 * j + x) = v.get (v.ptr d (.data i)) (64 * j + x) := by
    intro x hx
    refine hr _ _ ?_
    rintro ⟨-, -, hhi⟩
    have hhi' : 64 * j + x < 64 * j + 32 := hhi
    omega
  rw [ptr_congr (v := v) (hget 44 (by omega)) (fun i' _ => ?_) (fun i' h0 _ => absurd (hs.empty .indirect) h0) k, hs.empty]
  have hoff : (FilePtr.entry (v.ptr d (.data i)) j).off + 34 + i' = 64 * j + (34 + i') := Nat.add_assoc ..
  rw [hoff]
  exact hget _ (by omega)

omit h in
private theorem Renames.isDir_self : ¬ u.IsDir (.entry (v.ptr d (.data i)) j) := by
  have hget : u.get (v.ptr d (.data i)) (64 * j + 33) = v.get (v.ptr d (.data i)) (64 * j + 33) := by
    refine hr _ _ ?_
    rintro ⟨-, -, hhi⟩
    have hhi' : 64 * j + 33 < 64 * j + 32 := hhi
    omega
  intro hdir
  exact hs.regular (hget.symm.trans hdir)

private theorem Renames.isDir (hg : v.Live O g) : u.IsDir g ↔ v.IsDir g := by
  unfold IsDir
  rw [hr.get_struct h hs hg (by omega)]

omit h hs in
/-- Other slots have the name that they had. -/
private theorem Renames.named {b' j' : Nat} (hne : FilePtr.entry b' j' ≠ .entry (v.ptr d (.data i)) j) :
    u.Named (.entry b' j') ↔ v.Named (.entry b' j') := by
  have hget : u.get b' (64 * j') = v.get b' (64 * j') := by
    refine hr _ _ ?_
    rintro ⟨rfl, hlo, hhi⟩
    have hlo' : 64 * j ≤ 64 * j' := hlo
    have hhi' : 64 * j' < 64 * j + 32 := hhi
    refine hne ?_
    rw [show j' = j by omega]
    rfl
  unfold Named FilePtr.entry
  rw [hget]

/-- The live files are those that there were, and the new one. -/
private theorem Renames.live_cases (hg : u.Live O g) : v.Live O g ∨ g = .entry (v.ptr d (.data i)) j := by
  induction hg with
  | root => exact .inl .root
  | opened hO => exact .inl (.opened hO)
  | @entry d' i' j' hd hdir h0 hj hname ih =>
    rcases ih with hlive | rfl
    · have hptr := hr.ptr h hs hlive (k := .data i')
      rw [hptr] at h0 hname ⊢
      by_cases heq : FilePtr.entry (v.ptr d' (.data i')) j' = .entry (v.ptr d (.data i)) j
      · exact .inr heq
      · exact .inl (.entry hlive ((hr.isDir h hs hlive).1 hdir) h0 hj ((hr.named heq).1 hname))
    · exact absurd hdir (hr.isDir_self hs)

/-- Live files stay live. -/
private theorem Renames.live (hg : v.Live O g) : u.Live O g := by
  induction hg with
  | root => exact .root
  | opened hO => exact .opened hO
  | @entry d' i' j' hd hdir h0 hj hname ih =>
    have hne : FilePtr.entry (v.ptr d' (.data i')) j' ≠ .entry (v.ptr d (.data i)) j :=
      fun heq => hs.free (heq ▸ .entry hd hdir h0 hj hname)
    have hname' := (hr.named hne).2 hname
    rw [← hr.ptr h hs hd] at h0 hname' ⊢
    exact .entry ih ((hr.isDir h hs hd).2 hdir) h0 hj hname'

private theorem Renames.isFree {b : Nat} (hb : b < nb ∨ b ≤ lastMeta nb) : u.IsFree b ↔ v.IsFree b := by
  unfold IsFree
  rw [hr]
  rintro ⟨hblk, -⟩
  have hmeta : IsBitmap nb (2 + b / 32 / 1024) := isBitmap_of_le hb
  rw [hblk] at hmeta
  exact h.not_bitmap hs.dir hs.ptr hmeta

private theorem Good.renamed : Good nb M O u := by
  have hptr {g : FilePtr} {k : FileSlot} (hg : u.Live O g) (h0 : u.ptr g k ≠ 0) : v.Live O g ∧ u.ptr g k = v.ptr g k := by
    rcases hr.live_cases h hs hg with hlive | rfl
    · exact ⟨hlive, hr.ptr h hs hlive⟩
    · exact absurd (hr.ptr_self hs) h0
  refine ⟨fun b hb hfree => h.used b hb ((hr.isFree h hs (.inr hb)).1 hfree), fun f k hf h0 => ?_,
    fun f g k k' hf hg h0 heq => ?_, fun g hO => ?_⟩
  · obtain ⟨hlive, hsame⟩ := hptr hf h0
    rw [hsame] at h0 ⊢
    obtain ⟨hlo, hhi, hused⟩ := h.own f k hlive h0
    exact ⟨hlo, hhi, fun hfree => hused ((hr.isFree h hs (.inl hhi)).1 hfree)⟩
  · obtain ⟨hlive, hsame⟩ := hptr hf h0
    obtain ⟨hlive', hsame'⟩ := hptr hg (heq ▸ h0)
    rw [hsame] at h0 heq
    rw [hsame'] at heq
    exact h.inj f g k k' hlive hlive' h0 heq
  · refine (h.opened g hO).imp_right fun ⟨hm, hlt, hplace, hdirs⟩ => ⟨hm, hlt, hplace, fun f k hf heq => ?_⟩
    obtain ⟨hlive, hsame⟩ := hptr hf (k := k) (by omega)
    rw [hsame] at heq
    exact (hdirs f k hlive heq).imp_left (hr.isDir h hs hlive).2

end

/-! ### What paths lead to afterwards -/

/-- A search for what only one element is. -/
private theorem find?_only {α : Type} {l : List α} {p : α → Bool} {a : α} (ha : a ∈ l) (hp : p a = true)
    (hother : ∀ x ∈ l, x ≠ a → p x = false) : l.find? p = some a := by
  cases hfind : l.find? p with
  | none => exact absurd hp (List.find?_eq_none.1 hfind a ha)
  | some b =>
    have hb := List.find?_some hfind
    by_cases hba : b = a
    · rw [hba]
    · rw [hother b (List.mem_of_find?_eq_some hfind) hba] at hb
      cases hb

/-- Setting `f_dir` and writing to the name of a new file, seen from the end. -/
private theorem Beside.of_renames (h : Good nb M O v) (hr : Redirs O v w) {M' : Nat → Prop} (hw : Good nb M' O w)
    (hs : w.FreeAt O d i j) (hren : w.Renames (.entry (w.ptr d (.data i)) j) u) :
    Beside nb O u (.entry (w.ptr d (.data i)) j) v := by
  intro b off _ hown hdir
  have hname : u.get b off = w.get b off := hren b off fun ⟨hblk, hlo, hhi⟩ => hown (.inl ⟨hblk, hlo, by omega⟩)
  rw [hname]
  exact (hr b off fun g hg => hdir g (hren.live hw hs ((hr.live h).2 hg))).symm

section

variable (hb : Beside nb O u f v) (hu : Good nb M O u) (hf : u.Live O f) (hgone : ¬ v.Named f) (hd : u.Live O d)
  (hmem : f ∈ u.entries d) (hnone : v.lookup d (u.fname f) = none)

include hb hu hf hgone hd hmem hnone

/-- A name that was in a directory still stands for the same file. -/
private theorem Beside.lookup_keep {c : FilePtr} (hc : u.Live O c) (hcf : c ≠ f) (hne : name ≠ [])
    (hfound : v.lookup c name = some g) :
    u.lookup c name = some g := by
  have hpq : ∀ x ∈ u.entries c, x ≠ f → decide (u.fname x = name) = decide (v.fname x = name) := by
    intro x hx hxf
    rw [hb.fname hu hf hc hx hxf]
  unfold View.lookup at hfound ⊢
  rw [hb.entries hu hf hc hcf] at hfound
  rw [← hfound]
  by_cases hin : f ∈ u.entries c
  · have hcd : c = d := hu.entries_inj hc hd hin hmem
    refine find?_pass hpq (decide_eq_false fun heq => ?_) fun hfind => ?_
    · unfold View.lookup at hnone
      rw [heq, ← hcd, hb.entries hu hf hc hcf, hfound] at hnone
      cases hnone
    · have hp := List.find?_some hfind
      have hname : v.fname f = name := of_decide_eq_true hp
      rw [fname_of_not_named hgone] at hname
      exact hne hname.symm
  · exact List.find?_congr fun x hx => hpq x hx fun heq => hin (heq ▸ hx)

/-- Paths still lead to where they led. -/
private theorem Beside.walk_keep : ∀ {names : List (List Byte)} {c : FilePtr}, v.Live O c →
    (∀ c, v.Live O c → u.Live O c ∧ c ≠ f) →
    (∀ n ∈ names, n ≠ []) → v.walk c names = .ok g → u.walk c names = .ok g := by
  intro names
  induction names with
  | nil =>
    rintro c - - - ⟨⟩
    rfl
  | cons n names ih =>
    intro c hc hlive hne hw
    obtain ⟨hlen, hdir, g', hfound, hrest⟩ := walk_cons hw
    obtain ⟨hcu, hcf⟩ := hlive c hc
    have hn := hne n List.mem_cons_self
    have hfound' := hb.lookup_keep hu hf hgone hd hmem hnone hcu hcf hn hfound
    rw [walk_of_cons hlen ((hb.isDir hu hf hcu hcf).1 hdir) hfound']
    exact ih (lookup_live hc hdir hn hfound) hlive (fun m hm => hne m (List.mem_cons_of_mem _ hm)) hrest

end

/-! ### What a creation is to do -/

/-- What `file_create` is to do with a path whose last component is not in the directory `d`, from its result and the views
before and after it. -/
structure Created (nb : Nat) (v : View) (path : List Byte) (d : FilePtr) (r : Except Word FilePtr) (u : View) : Prop where
  created : ∀ f, r = .ok f → u.resolve path = .ok f ∧ u.Empty d f
  others : ∀ f, r = .ok f → ∀ path', pathElems path' ≠ pathElems path →
    ∀ g, u.resolve path' = .ok g ↔ v.resolve path' = .ok g
  failed : ∀ e, r = .error e → e.msb = true ∧ u.size d = v.size d ∧ u.entries d = v.entries d ∧
    (∀ g ∈ v.entries d, u.fname g = v.fname g) ∧ ∀ b, b < nb → (u.IsFree b ↔ v.IsFree b)

private theorem freeSlot_some (h : v.freeSlot d = some f) : f ∈ v.entries d ∧ ¬ v.Named f := by
  refine ⟨List.mem_of_find?_eq_some h, ?_⟩
  have hfree := List.find?_some h
  exact of_decide_eq_true hfree

/-- A slot without a name is no live file. -/
private theorem not_live_of_slot (h : Good nb M O v) (hd : v.Live O d) (hO : ¬ O f) (hmem : f ∈ v.entries d)
    (hfree : ¬ v.Named f) :
    ¬ v.Live O f := by
  intro hf
  cases hf with
  | root => exact h.root_notMem hd hmem
  | opened hf => exact hO hf
  | entry _ _ _ _ hname => exact hfree hname

section

variable {M' : Nat → Prop} (h : Good nb M O v) (hr : Redirs O v w) (hd : v.Live O d) (hdir : v.IsDir d) (hO : ¬ O f)
  (hslot : v.freeSlot d = some f) (hempty : v.Empty d f)

include h hr hd hdir hO hslot hempty

/-- The slot after the walk, which does not come to it. -/
private theorem freeAt_redirs : w.Empty d f ∧ ∃ i j, f = .entry (w.ptr d (.data i)) j ∧ w.FreeAt O d i j := by
  obtain ⟨hmem, hfree⟩ := freeSlot_some hslot
  have hnot := not_live_of_slot h hd hO hmem hfree
  obtain ⟨i, j, -, h0, hj, rfl⟩ := mem_entries.1 hmem
  have hptr : w.ptr d (.data i) = v.ptr d (.data i) := hr.ptr h hd
  have hget (x : Nat) (hx : x < 45) := hr.get_entry h hd (i := i) (j := j) hx
  have hslots (k : FileSlot) : w.ptr (.entry (v.ptr d (.data i)) j) k = 0 := by
    rw [ptr_congr (v := v) (hget 44 (by omega)) (fun i' hi' => ?_) (fun i' h0' _ => absurd (hempty.ptr .indirect) h0') k,
      hempty.ptr]
    unfold NDIRECT at hi'
    have hoff : (FilePtr.entry (v.ptr d (.data i)) j).off + 34 + i' = 64 * j + (34 + i') := Nat.add_assoc ..
    rw [hoff]
    exact hget _ (by omega)
  have htype : w.get (v.ptr d (.data i)) (64 * j + 33) = 0 := (hget 33 (by omega)).trans hempty.regular
  have hback : w.get (v.ptr d (.data i)) (64 * j + 45) = d.addr := by
    rw [hr _ _ fun g hg heq => ?_]
    · exact hempty.dir
    · have hblk : v.ptr d (.data i) = g.blk := congrArg Prod.fst heq
      have hoff : 64 * j + 45 = g.off + 45 := congrArg Prod.snd heq
      refine hnot ?_
      have hg' : g = .entry (v.ptr d (.data i)) j := by
        cases g
        simp only [FilePtr.entry, FilePtr.mk.injEq]
        exact ⟨hblk.symm, by simpa using hoff.symm⟩
      exact hg' ▸ hg
  refine ⟨⟨?_, htype, hslots, hback⟩, i, j, by rw [hptr], (hr.live h).2 hd, (hr.isDir h hd).2 hdir, by rwa [hptr], hj, ?_, ?_, ?_⟩
  · unfold View.size
    exact (congrArg BitVec.toNat (hget 32 (by omega))).trans hempty.size
  · rw [hptr]
    exact fun hlive => hnot ((hr.live h).1 hlive)
  · rw [hptr]
    exact hslots
  · rw [hptr]
    intro hisdir
    have hone : (0 : Word) = FTYPE_DIR := htype.symm.trans hisdir
    exact absurd hone (by decide)

/-- Where the first free slot is clean, giving it the name is a creation. -/
private theorem created_of_renames {path : List Byte} {front : List (List Byte)} (hw : Good nb M' O w)
    (hpath : pathElems path = front ++ [name]) (hfront : v.walk .root front = .ok d) (hlen : ¬ MAXNAMELEN ≤ name.length)
    (hnone : v.lookup d name = none) (hren : w.Renames f u) (hname : u.fname f = name) :
    Created nb v path d (.ok f) u ∧ Good nb M' O u := by
  obtain ⟨hmem, hfree⟩ := freeSlot_some hslot
  have hnot := not_live_of_slot h hd hO hmem hfree
  obtain ⟨hempty', i, j, rfl, hs⟩ := freeAt_redirs h hr hd hdir hO hslot hempty
  have hu := hw.renamed hs hren
  have hb : Beside nb O u (.entry (w.ptr d (.data i)) j) v := .of_renames h hr hw hs hren
  have hlive (c : FilePtr) (hc : v.Live O c) : u.Live O c ∧ c ≠ .entry (w.ptr d (.data i)) j :=
    ⟨hren.live hw hs ((hr.live h).2 hc), fun heq => hnot (heq ▸ hc)⟩
  have hnames (path : List Byte) : ∀ n ∈ pathElems path, n ≠ [] := pathElems_ne_nil
  have hne : name ≠ [] := hnames path name (by simp [hpath])
  have hud := hlive d hd
  have hptr : u.ptr d (.data i) = w.ptr d (.data i) := hren.ptr hw hs hs.dir
  have hudir : u.IsDir d := (hren.isDir hw hs hs.dir).2 hs.isDir
  have hf : u.Live O (.entry (w.ptr d (.data i)) j) := by
    have hlast := Live.entry hud.1 hudir (i := i) (j := j)
    rw [hptr] at hlast
    exact hlast hs.ptr hs.lt (named_of_fname hne hname)
  have hentries := hb.entries hu hf hud.1 hud.2
  have humem : .entry (w.ptr d (.data i)) j ∈ u.entries d := hentries ▸ hmem
  have hkeep {names : List (List Byte)} {g : FilePtr} (hn : ∀ n ∈ names, n ≠ []) (hv : v.walk .root names = .ok g) :
      u.walk .root names = .ok g :=
    hb.walk_keep hu hf hfree hud.1 humem (hname ▸ hnone) .root hlive hn hv
  have hfound : u.walk .root (front ++ [name]) = .ok (.entry (w.ptr d (.data i)) j) := by
    have hfn : ∀ n ∈ front, n ≠ [] := fun n hn => hnames path n (by simp [hpath, hn])
    refine (walk_append front).2 ⟨d, hkeep hfn hfront, hlen, hudir, ?_⟩
    refine find?_only humem (decide_eq_true hname) fun x hx hxf => decide_eq_false ?_
    rw [← hb.fname hu hf hud.1 hx hxf]
    unfold View.lookup at hnone
    have hall := List.find?_eq_none.1 hnone x (hentries ▸ hx)
    simpa using hall
  have hget (x : Nat) (hx : 32 ≤ x) :
      u.get (w.ptr d (.data i)) (64 * j + x) = w.get (w.ptr d (.data i)) (64 * j + x) := by
    refine hren _ _ ?_
    rintro ⟨-, -, hhi⟩
    have hhi' : 64 * j + x < 64 * j + 32 := hhi
    omega
  -- The new file is found and is empty, and every other path leads where it led.
  refine ⟨⟨?_, ?_, nofun⟩, hu⟩
  · rintro f ⟨⟩
    refine ⟨by unfold resolve; rw [hpath]; exact hfound, ?_, ?_, fun k => hren.ptr_self hs, ?_⟩
    · exact (congrArg BitVec.toNat (hget 32 (by omega))).trans hempty'.size
    · exact (hget 33 (by omega)).trans hempty'.regular
    · exact (hget 45 (by omega)).trans hempty'.dir
  · rintro f ⟨⟩ path' hother g
    refine ⟨fun hug => ?_, hkeep (hnames path')⟩
    by_cases hhit : ∃ l, l <+: pathElems path' ∧ u.walk .root l = .ok (.entry (w.ptr d (.data i)) j)
    · -- below the new file, which is no directory, there is nothing
      obtain ⟨l, hl, hlf⟩ := hhit
      have heq := hu.walk_inj l (fun n hn => hnames path' n (hl.subset hn)) (hpath ▸ hnames path) hlf hfound
      obtain ⟨more, hmore⟩ := hl
      unfold resolve at hug
      rw [← hmore, walk_front more hlf] at hug
      cases more with
      | nil =>
        rw [List.append_nil] at hmore
        exact absurd (hmore.symm.trans (heq.trans hpath.symm)) hother
      | cons n more => exact absurd (walk_cons hug).2.1 (hren.isDir_self hs)
    · have hsame := hb.walk hu hf hfree .root (hnames path') fun l hl hlf => hhit ⟨l, hl, hlf⟩
      exact hsame.trans hug

end

end View

namespace FsProc

open Proc View

variable {nb : Nat} {O : FilePtr → Prop} {X : Fs.Extra} {s t : Fs} {l : List FsLog} {d f : FilePtr} {v : View}
  {path : List Byte}

/-! ### Looking for a free slot -/

private theorem findFree_runs {b : Nat} (hb : s.Mapped b) : Ends? s (findFree b) fun r t =>
    r = .ok (((List.range FILE2BLK).map (FilePtr.entry b)).find? fun g => ¬ s.view.Named g) ∧ t = s := by
  refine .read (fun r hr => ⟨?_, rfl⟩) fun _ => ?_
  · obtain ⟨pg, hpg, rfl⟩ := Option.map_eq_some_iff.1 hr
    rw [List.find?_map]
    congr 2
    refine List.find?_congr fun j hj => ?_
    have hlt : 64 * j < 1024 := by
      rw [List.mem_range] at hj
      unfold FILE2BLK at hj
      omega
    have hword : s.view.get b (64 * j) = pg.data (Fin.ofNat 1024 (64 * j)) := by
      unfold View.get
      rw [dif_pos hlt, Fs.view_of_cache hpg]
      congr 1
      exact Fin.ext (Nat.mod_eq_of_lt hlt).symm
    have hnamed : (¬ s.view.Named (.entry b j)) ↔ byteOf (pg.data (Fin.ofNat 1024 (64 * j))) 0 = 0 := by
      rw [← hword]
      exact not_not
    exact (decide_eq_decide.2 hnamed).symm
  · obtain ⟨pg, hpg⟩ := Option.isSome_iff_exists.1 hb
    exact ⟨_, by rw [hpg]; rfl⟩

private theorem freeSlotIn_runs (hX : Fs.Closed nb X) (is : List Nat) : ∀ {s : Fs}, s.Ok nb O X → s.view.Live O d →
    s.Mapped d.blk → (∀ i ∈ is, s.view.ptr d (.data i) ≠ 0) → Ends? s (freeSlotIn d is) fun r t =>
      r = .ok ((s.view.entriesIn d is).find? fun g => ¬ s.view.Named g) ∧ Seen nb O X s t ∧
        ∀ f, r = .ok (some f) → t.Mapped f.blk := by
  induction is with
  | nil => exact fun hs _ _ _ => .pure ⟨rfl, .refl hs, nofun⟩
  | cons i is ih =>
    intro s hs hd hmap hall
    have h0 := hall i List.mem_cons_self
    refine (fileGetBlock_runs hX hs hd hmap h0).bind_value fun t ht => ?_
    obtain ⟨hseen, hm⟩ := ht
    refine (findFree_runs hm).bind_value ?_
    rintro _ rfl
    rename_i t
    have hsplit : s.view.entriesIn d (i :: is) =
        (List.range FILE2BLK).map (FilePtr.entry (s.view.ptr d (.data i))) ++ s.view.entriesIn d is := by
      unfold View.entriesIn
      rw [List.flatMap_cons, if_neg h0]
    rw [hsplit, List.find?_append, hseen.view]
    cases hfound : ((List.range FILE2BLK).map (FilePtr.entry (s.view.ptr d (.data i)))).find? fun g => ¬ s.view.Named g with
    | none =>
      rw [Option.none_or]
      rw [← hseen.view] at hd hall
      refine (ih hseen.ok hd (hseen.mapped _ hmap) fun j hj => hall j (List.mem_cons_of_mem _ hj)).weaken fun r u hr => ?_
      rw [hseen.view] at hr
      exact ⟨hr.1, hseen.trans hr.2.1, hr.2.2⟩
    | some g =>
      refine .pure ⟨rfl, hseen, ?_⟩
      rintro f ⟨⟩
      obtain ⟨j, -, rfl⟩ := List.mem_map.1 (List.mem_of_find?_eq_some hfound)
      exact hm

/-- A directory with a free slot does not grow. -/
private theorem dirAllocFile_runs (hX : Fs.Closed nb X) (hs : s.Ok nb O X) (hd : s.view.Live O d) (hmap : s.Mapped d.blk)
    (hall : ∀ i, i < s.view.size d / BY2BLK → s.view.ptr d (.data i) ≠ 0) (hslot : s.view.freeSlot d = some f) :
    Ends? s (dirAllocFile d) fun r t => r = .ok f ∧ Seen nb O X s t ∧ t.Mapped f.blk := by
  refine (struct_runs hs hd hmap (x := 32) (by omega)).bind_value ?_
  rintro _ rfl
  rename_i s
  have hfind : (s.view.entriesIn d (List.range (s.view.size d / BY2BLK))).find? (fun g => ¬ s.view.Named g) = some f := hslot
  have hruns := freeSlotIn_runs hX (List.range (s.view.size d / BY2BLK)) hs hd hmap fun i hi => hall i (List.mem_range.1 hi)
  rw [hfind] at hruns
  refine Runs.bind_value (a := some f) (P := fun t => Seen nb O X s t ∧ t.Mapped f.blk) ?_ fun t ht => ?_
  · refine hruns.weaken fun r t hr => ?_
    obtain ⟨rfl, hseen, hm⟩ := hr
    exact ⟨rfl, hseen, hm f rfl⟩
  · exact .pure ⟨rfl, ht⟩

/-! ### Writing the name -/

/-- The `i`-th character of a name. -/
def nameByte (v : View) (f : FilePtr) (i : Nat) : Byte := byteOf (v.get f.blk (f.off + i / 4)) (i % 4)

private theorem setNameByte_some {i : Nat} {c : Byte} {r : Except Word Unit} (hoff : f.off + i / 4 < 1024)
    (h : setNameByte f i c s = some (l, r, t)) : r = .ok () ∧ (∀ b, t.Mapped b ↔ s.Mapped b) ∧
      (∀ j, nameByte t.view f j = if j = i then c else nameByte s.view f j) ∧
      ∀ b off, (b, off) ≠ (f.blk, f.off + i / 4) → t.view.get b off = s.view.get b off := by
  obtain ⟨w, hw, hset⟩ := read_bind_some h
  obtain ⟨rfl, hview, hmap⟩ := setIn_view (p := (f.blk, f.off + i / 4)) hset
  have hword : s.view.get f.blk (f.off + i / 4) = w := Fs.word?_view hw
  refine ⟨rfl, hmap, fun j => ?_, fun b off hne => by rw [hview, get_set_of_ne hne]⟩
  unfold nameByte
  rw [hview, get_set hoff]
  have hmod (n : Nat) : n % 4 < 4 := Nat.mod_lt _ (by decide)
  by_cases hdiv : j / 4 = i / 4
  · rw [if_pos ⟨rfl, by rw [hdiv]⟩, byteOf_setByte (hmod i) (hmod j), hdiv, hword]
    by_cases hji : j = i
    · rw [if_pos hji, if_pos (by rw [hji])]
    · rw [if_neg hji, if_neg (by omega)]
  · have hji : j ≠ i := fun heq => hdiv (by rw [heq])
    rw [if_neg hji, if_neg]
    rintro ⟨-, hoff'⟩
    omega

/-- The characters from `i` on, then a 0; what is before stays as it is. -/
private theorem strcpyName_some (cs : List Byte) : ∀ {i : Nat} {s t : Fs} {l : List FsLog} {r : Except Word Unit},
    f.off + 31 < 1024 → i + cs.length < MAXNAMELEN → strcpyName f i cs s = some (l, r, t) →
    r = .ok () ∧ (∀ b, t.Mapped b ↔ s.Mapped b) ∧ s.view.Renames f t.view ∧
      (∀ j, j < i → nameByte t.view f j = nameByte s.view f j) ∧
      ∀ j, j ≤ cs.length → some (nameByte t.view f (i + j)) = (cs ++ [0])[j]? := by
  induction cs with
  | nil =>
    intro i s t l r hoff hlen h
    unfold MAXNAMELEN at hlen
    rw [List.length_nil] at hlen
    obtain ⟨rfl, hmap, hbyte, hframe⟩ := setNameByte_some (by omega) h
    refine ⟨rfl, hmap, fun b off hne => hframe b off fun heq => hne ?_, fun j hj => ?_, fun j hj => ?_⟩
    · have hblk : b = f.blk := congrArg Prod.fst heq
      have hoff' : off = f.off + i / 4 := congrArg Prod.snd heq
      exact ⟨hblk, by omega, by omega⟩
    · rw [hbyte, if_neg (by omega)]
    · obtain rfl : j = 0 := by simpa using hj
      rw [hbyte, if_pos (Nat.add_zero i)]
      rfl
  | cons c cs ih =>
    intro i s t l r hoff hlen h
    unfold MAXNAMELEN at hlen
    rw [List.length_cons] at hlen
    rcases bind_some h with ⟨e, hx, -⟩ | ⟨l₁, a, u, l₂, hx, hrest, rfl⟩
    · obtain ⟨hr, -⟩ := setNameByte_some (by omega) hx
      cases hr
    obtain ⟨-, hmap, hbyte, hframe⟩ := setNameByte_some (by omega) hx
    obtain ⟨rfl, hmap', hren, hbefore, hchars⟩ := ih hoff (by unfold MAXNAMELEN; omega) hrest
    refine ⟨rfl, fun b => (hmap' b).trans (hmap b), fun b off hne => ?_, fun j hj => ?_, fun j hj => ?_⟩
    · refine (hren b off hne).trans (hframe b off fun heq => hne ?_)
      have hblk : b = f.blk := congrArg Prod.fst heq
      have hoff' : off = f.off + i / 4 := congrArg Prod.snd heq
      exact ⟨hblk, by omega, by omega⟩
    · rw [hbefore j (by omega), hbyte, if_neg (by omega)]
    · cases j with
      | zero =>
        rw [Nat.add_zero, hbefore i (Nat.lt_succ_self i), hbyte, if_pos rfl]
        rfl
      | succ j =>
        rw [List.length_cons] at hj
        have hnext := hchars j (by omega)
        rw [List.cons_append, List.getElem?_cons_succ, ← hnext]
        congr 2
        omega

/-- The name is the string that was copied. -/
private theorem fname_of_chars {name : List Byte} (h0 : 0 ∉ name) (hlen : name.length < MAXNAMELEN)
    (h : ∀ j, j ≤ name.length → some (nameByte v f j) = (name ++ [0])[j]?) : v.fname f = name := by
  have hlength : (v.nameChars f).length = MAXNAMELEN := by
    unfold nameChars
    rw [List.length_map, List.length_range]
  unfold fname
  rw [takeWhile_eq_iff h0 (by omega), List.prefix_iff_getElem?]
  intro j hj
  rw [List.length_append, List.length_singleton] at hj
  have hchar : (v.nameChars f)[j]? = some (nameByte v f j) := by
    unfold nameChars
    rw [List.getElem?_map, List.getElem?_range (by omega)]
    rfl
  rw [hchar, h j (by omega)]
  exact List.getElem?_eq_getElem _

/-! ### The creation -/

end FsProc

namespace View

variable {v : View} {d f : FilePtr} {names : List (List Byte)}

private theorem walked_r (names : List (List Byte)) : ∀ (dir : Option FilePtr) (f : FilePtr), (v.walked dir f names).r = 0 ∨
    (v.walked dir f names).r = -E_BAD_PATH ∨ (v.walked dir f names).r = -E_NOT_FOUND := by
  induction names with
  | nil => exact fun _ _ => .inl rfl
  | cons n names ih =>
    intro dir f
    unfold walked
    split
    · exact .inr (.inl rfl)
    · split
      · split
        · exact ih _ _
        · split
          · exact .inr (.inr rfl)
          · exact .inr (.inr rfl)
      · exact .inr (.inr rfl)

/-- The walk gives a directory and a name where only the last component is missing. -/
private theorem walked_missing {name : List Byte} (names : List (List Byte)) : ∀ (dir : Option FilePtr) (f : FilePtr),
    (v.walked dir f names).pdir = some d → (v.walked dir f names).lastelem = some name →
      ∃ front, names = front ++ [name] ∧ v.walk f front = .ok d ∧ v.IsDir d ∧ ¬ MAXNAMELEN ≤ name.length ∧
        v.lookup d name = none := by
  induction names with
  | nil => exact fun _ _ _ h => nomatch h
  | cons n names ih =>
    intro dir f hdir hlast
    unfold walked at hdir hlast
    by_cases hlen : MAXNAMELEN ≤ n.length
    · rw [if_pos hlen] at hdir
      cases hdir
    rw [if_neg hlen] at hdir hlast
    by_cases hisdir : v.IsDir f
    case neg =>
      rw [if_neg hisdir] at hdir
      cases hdir
    rw [if_pos hisdir] at hdir hlast
    cases hfound : v.lookup f n with
    | some g =>
      rw [hfound] at hdir hlast
      obtain ⟨front, rfl, hw, hrest⟩ := ih _ _ hdir hlast
      exact ⟨n :: front, rfl, (walk_of_cons hlen hisdir hfound).trans hw, hrest⟩
    | none =>
      rw [hfound] at hdir hlast
      dsimp only at hdir hlast
      by_cases hnil : names = []
      · rw [if_pos hnil] at hdir hlast
        cases hdir
        cases hlast
        subst hnil
        exact ⟨[], rfl, rfl, hisdir, hlen, hfound⟩
      · rw [if_neg hnil] at hdir
        cases hdir

/-- Where `file_create` gets it right: there is a free slot in the blocks of the directory, and the first one is that of an
empty regular file of this directory. -/
def Creatable (v : View) (path : List Byte) : Prop :=
  ∀ front name d, pathElems path = front ++ [name] → v.walk .root front = .ok d → v.IsDir d → ¬ MAXNAMELEN ≤ name.length →
    v.lookup d name = none → ∃ f, v.freeSlot d = some f ∧ v.Empty d f

end View

namespace FsProc

open Proc View

variable {nb : Nat} {O : FilePtr → Prop} {s t : Fs} {l : List FsLog} {f : FilePtr} {path : List Byte}

/-- A new name does not do any harm. -/
private theorem ok_renamed (hs : s.Ok nb O Fs.Plain) (hgood : Good nb s.Mapped O t.view) (hren : s.view.Renames f t.view)
    (hf : f.blk ≠ 1) (hmap : ∀ b, t.Mapped b ↔ s.Mapped b) : t.Ok nb O Fs.Plain where
  nblocks := by
    rw [hren _ _ fun ⟨hblk, _⟩ => hf hblk.symm]
    exact hs.nblocks
  mapped b h1 hb := (hmap b).2 (hs.mapped b h1 hb)
  good := hgood.mono fun b hb => (hmap b).2 hb
  extra := trivial

/-- What `file_create` does where a creation is possible: nothing but a walk, or a walk and a name in the first free slot. -/
private theorem fileCreate_some {r : Except Word FilePtr} (hO : ∀ f, ¬ O f) (hs : s.Ok nb O Fs.Plain)
    (hwhole : s.view.WholeOn .root (pathElems path)) (hcan : s.view.Creatable path)
    (h : fileCreate path s = some (l, r, t)) :
    t.Ok nb O Fs.Plain ∧ ((∃ e, r = .error e ∧ e.msb = true ∧ Redirs O s.view t.view) ∨
      ∃ front name d, pathElems path = front ++ [name] ∧ s.view.walk .root front = .ok d ∧
        Created nb s.view path d r t.view) := by
  rcases bind_some h with ⟨e, hx, -⟩ | ⟨l₁, w, s', l₂, hx, hrest, rfl⟩
  · obtain ⟨hr, -⟩ := (walkPathFull_runs Fs.closed_plain hs hwhole).post _ _ _ hx
    cases hr
  obtain ⟨hw, hok, hr, -⟩ := (walkPathFull_runs Fs.closed_plain hs hwhole).post _ _ _ hx
  obtain rfl := Except.ok.inj hw
  unfold createAt at hrest
  have hfail {e : Word} (he : e.msb = true) (hrest : (Proc.fail e : FsProc FilePtr) s' = some (l₂, r, t)) :
      t.Ok nb O Fs.Plain ∧ ((∃ e, r = .error e ∧ e.msb = true ∧ Redirs O s.view t.view) ∨
        ∃ front name d, pathElems path = front ++ [name] ∧ s.view.walk .root front = .ok d ∧
          Created nb s.view path d r t.view) := by
    cases hrest
    exact ⟨hok, .inl ⟨e, rfl, he, hr⟩⟩
  have hneg : (s.view.walked none .root (pathElems path)).r ≠ 0 →
      (s.view.walked none .root (pathElems path)).r.msb = true := by
    intro h0
    rcases walked_r (v := s.view) (pathElems path) none .root with heq | heq | heq
    · exact absurd heq h0
    · rw [heq]
      decide
    · rw [heq]
      decide
  -- Unless only the last element is missing and its directory is there, nothing is done.
  by_cases h0 : (s.view.walked none .root (pathElems path)).r = 0
  · rw [if_pos h0] at hrest
    exact hfail (by decide) hrest
  rw [if_neg h0] at hrest
  rcases hdir : (s.view.walked none .root (pathElems path)).pdir with _ | d
  · rw [hdir] at hrest
    exact hfail (hneg h0) hrest
  rcases hlast : (s.view.walked none .root (pathElems path)).lastelem with _ | name
  · rw [hdir, hlast] at hrest
    exact hfail (hneg h0) hrest
  rw [hdir, hlast] at hrest
  dsimp only at hrest
  by_cases hnot : (s.view.walked none .root (pathElems path)).r ≠ -E_NOT_FOUND
  · rw [if_pos hnot] at hrest
    exact hfail (hneg h0) hrest
  rw [if_neg hnot] at hrest
  -- The first free slot of the directory is the one that was free before the walk, which has only set fields `f_dir`.
  obtain ⟨l₃, q, s'', l₄, halloc, hrest, rfl⟩ := attempt_bind_some hrest
  obtain ⟨front, hpath, hfront, hisdir, hlen, hnone⟩ := walked_missing _ _ _ hdir hlast
  obtain ⟨f, hslot, hempty⟩ := hcan front name d hpath hfront hisdir hlen hnone
  have hnames : ∀ n ∈ front, n ≠ [] := fun n hn =>
      pathElems_ne_nil n (show n ∈ pathElems path by simp [hpath, hn])
  have hlive : s.view.Live O d := walk_live .root hnames hfront
  have hall : ∀ i, i < s'.view.size d / BY2BLK → s'.view.ptr d (.data i) ≠ 0 := by
    intro i hi
    rw [hr.size hs.good hlive] at hi
    rw [hr.ptr hs.good hlive]
    exact hwhole front d (hpath ▸ List.prefix_append front [name]) hfront hisdir i hi
  have hslot' : s'.view.freeSlot d = some f := by
    rw [← hslot]
    unfold View.freeSlot
    rw [hr.entries hs.good hlive]
    refine List.find?_congr fun g hg => ?_
    obtain ⟨i, j, -, -, -, rfl⟩ := mem_entries.1 hg
    exact decide_eq_decide.2 (not_congr (hr.named_entry hs.good hlive))
  have hlive' := (hr.live hs.good).2 hlive
  obtain ⟨rfl, hseen, hm⟩ := (dirAllocFile_runs Fs.closed_plain hok hlive' (mapped_of_word halloc) hall hslot').post _ _ _ halloc
  have hoff : f.off + 31 < 1024 := by
    obtain ⟨i, j, -, -, hj, rfl⟩ := mem_entries.1 (freeSlot_some hslot).1
    unfold FILE2BLK at hj
    show 64 * j + 31 < 1024
    omega
  have hone : f.blk ≠ 1 := by
    obtain ⟨i, j, -, hi, -, rfl⟩ := mem_entries.1 (freeSlot_some hslot).1
    have hown := hs.good.own d _ hlive hi
    have hlast := two_le_lastMeta nb
    show s.view.ptr d (.data i) ≠ 1
    omega
  have hnul : 0 ∉ name := (pathElems_names (show name ∈ pathElems path by simp [hpath])).2
  rcases bind_some hrest with ⟨e, hx, -⟩ | ⟨l₅, a, u, l₆, hx, hpure, rfl⟩
  · obtain ⟨hr, -⟩ := strcpyName_some name hoff (by omega) hx
    cases hr
  cases hpure
  obtain ⟨-, hmap, hren, -, hchars⟩ := strcpyName_some name hoff (by omega) hx
  have hfname : t.view.fname f = name := fname_of_chars hnul (by omega) fun j hj => by
    rw [← hchars j hj, Nat.zero_add]
  have hren' : s'.view.Renames f t.view := hseen.view ▸ hren
  have hgood : s'.view.Good nb s''.Mapped O := hseen.view ▸ hseen.ok.good
  obtain ⟨hcreated, hgood'⟩ := created_of_renames hs.good hr hlive hisdir (hO f) hslot hempty hgood hpath hfront hlen hnone
    hren' hfname
  exact ⟨ok_renamed hseen.ok hgood' hren hone hmap, .inr ⟨front, name, d, hpath, hfront, hcreated⟩⟩

end FsProc

/-! ### Runs of creations, removals and size changes -/

inductive FsOp where
  | create (path : List Byte)
  | remove (path : List Byte)
  | resize (path : List Byte) (newsize : Word)
  /-- The kernel gives out and takes back pages. -/
  | memory (mem : Nat)

namespace FsOp

open View

def exec (s : Fs) : FsOp → Option Fs
  | create path => (FsProc.fileCreate path s).map fun p => p.2.2
  | remove path => (FsProc.fileRemove path s).map fun p => p.2.2
  | resize path newsize => ((do
      let f ← FsProc.fileOpen path
      FsProc.fileSetSize f newsize : FsProc Unit) s).map fun p => p.2.2
  | memory mem => some { s with mem := mem }

/-- The condition on an operation: the directories on its path have all their blocks, and a creation is possible. -/
def Clean (s : Fs) : FsOp → Prop
  | create path => s.view.WholeOn .root (pathElems path) ∧ s.view.Creatable path
  | remove path => s.view.WholeOn .root (pathElems path)
  | resize path _ => s.view.WholeOn .root (pathElems path)
  | memory _ => True

/-- A file system that is made from a well formed image. -/
def system : System Fs FsOp := ⟨fun s => ∃ disk mem, WellFormed disk ∧ s = .mount disk mem, exec⟩

variable {nb : Nat} {s t : Fs} {op : FsOp} {path : List Byte}

theorem ok_mount {disk : View} (hd : WellFormed disk) (mem : Nat) :
    (Fs.mount disk mem).Ok (disk.get 1 1).toNat (fun _ => False) Fs.Plain := by
  have hI := FileSys.inv_start (ι := Unit) hd mem
  exact (hI.imp fun _ => trivial).anti Fs.closed_plain fun _ h => h.elim

/-- What one operation preserves. -/
private theorem ok_exec (hs : s.Ok nb (fun _ => False) Fs.Plain) (hclean : op.Clean s) (h : op.exec s = some t) :
    t.Ok nb (fun _ => False) Fs.Plain := by
  cases op with
  | create path =>
    obtain ⟨⟨l, r, t⟩, hp, rfl⟩ := Option.map_eq_some_iff.1 h
    exact (FsProc.fileCreate_some (fun _ h => h) hs hclean.1 hclean.2 hp).1
  | remove path =>
    obtain ⟨⟨l, r, t⟩, hp, rfl⟩ := Option.map_eq_some_iff.1 h
    exact (FsProc.fileRemove_some hs hclean hp).1
  | resize path newsize =>
    obtain ⟨⟨l, r, t⟩, hp, rfl⟩ := Option.map_eq_some_iff.1 h
    rcases Proc.bind_some hp with ⟨e, hx, -⟩ | ⟨l₁, f, s', l₂, hx, hrest, -⟩
    · exact (FsProc.walkPath_some Fs.closed_plain hs hclean hx).2.1
    · obtain ⟨hres, hok, hr, hmap⟩ := FsProc.walkPath_some Fs.closed_plain hs hclean hx
      have hf : s.view.Live (fun _ => False) f := walk_live .root pathElems_ne_nil hres.symm
      have hopen := hok.open Fs.closed_plain ((hr.live hs.good).2 hf) (hmap f rfl)
      have hspec : Proc.Spec (fun _ => True) (fun t : Fs => t.Ok nb (With (fun _ => False) f) Fs.Plain ∧ t.view = s'.view) _ _ :=
        FsProc.fileSetSize_ok Fs.closed_plain (.inr rfl) newsize
      have hend := hspec s' l₂ r t ⟨hopen, rfl⟩ hrest fun _ _ => trivial
      cases r with
      | ok a => exact Fs.Ok.anti hend Fs.closed_plain fun _ h => .inl h
      | error e => exact hend.elim
  | memory mem =>
    cases h
    exact ⟨hs.nblocks, hs.mapped, hs.good, trivial⟩

/-- What a run preserves. -/
private theorem ok_of_reach (hs : system.Reach (fun s op => op.Clean s) s) : ∃ nb, s.Ok nb (fun _ => False) Fs.Plain := by
  refine hs.invariant (I := fun s => ∃ nb, s.Ok nb (fun _ => False) Fs.Plain) ?_ ?_
  · rintro s ⟨disk, mem, hd, rfl⟩
    exact ⟨_, ok_mount hd mem⟩
  · rintro s op t ⟨nb, hok⟩ hclean h
    exact ⟨nb, ok_exec hok hclean h⟩

/-- In a run whose operations all meet the condition, every creation that meets it does what it is to do. -/
theorem created_of_reach (hs : system.Reach (fun s op => op.Clean s) s) (hclean : (create path).Clean s)
    {front : List (List Byte)} {name : List Byte} {d : FilePtr} (hpath : pathElems path = front ++ [name])
    (hd : s.view.walk .root front = .ok d) {l : List FsLog} {r : Except Word FilePtr}
    (h : FsProc.fileCreate path s = some (l, r, t)) :
    Created (s.view.get 1 1).toNat s.view path d r t.view := by
  obtain ⟨nb, hok⟩ := ok_of_reach hs
  rw [hok.nblocks]
  rcases (FsProc.fileCreate_some (fun _ h => h) hok hclean.1 hclean.2 h).2 with
    ⟨e, rfl, he, hr⟩ | ⟨front', name', d', hpath', hd', hcreated⟩
  · have hnames : ∀ n ∈ front, n ≠ [] := fun n hn =>
      pathElems_ne_nil n (show n ∈ pathElems path by simp [hpath, hn])
    have hlive : s.view.Live (fun _ => False) d := walk_live .root hnames hd
    refine ⟨nofun, nofun, ?_⟩
    rintro _ ⟨⟩
    refine ⟨he, hr.size hok.good hlive, hr.entries hok.good hlive, fun g hg => ?_, fun b hb => hr.isFree hok.good hb⟩
    obtain ⟨i, j, -, -, -, rfl⟩ := mem_entries.1 hg
    exact hr.fname_entry hok.good hlive
  · obtain ⟨rfl, hname⟩ := List.append_inj' (hpath.symm.trans hpath') rfl
    obtain rfl : d = d' := Except.ok.inj (hd.symm.trans hd')
    exact hcreated

/-! ### The small disk -/

open FileSys (smallDisk fileA fileB)

/-- A slot without direct blocks and without an indirect one. -/
private theorem ptr_eq_zero {v : View} {f : FilePtr} (hind : v.ptr f .indirect = 0)
    (hdirect : ∀ i, i < NDIRECT → v.ptr f (.data i) = 0) (k : FileSlot) : v.ptr f k = 0 := by
  cases k with
  | indirect => exact hind
  | data i =>
    by_cases hi : i < NDIRECT
    · exact hdirect i hi
    · simp only [View.ptr] at hind
      simp only [View.ptr, if_neg hi, if_pos hind]

/-- `a` is removed, and `c` is created in its place. -/
theorem created_small : ∃ (s t : Fs) (l : List FsLog) (f : FilePtr), system.Reach (fun s op => op.Clean s) s ∧
    FsProc.fileCreate [99] s = some (l, .ok f, t) ∧
      Created (s.view.get 1 1).toNat s.view [99] .root (.ok f) t.view := by
  have hrun : (system.step (Fs.mount smallDisk 10) (.remove [97])).any (fun s =>
      decide (s.view.size .root = 4096 ∧ s.view.ptr .root (.data 0) ≠ 0 ∧
        s.view.lookup .root [99] = none ∧ s.view.freeSlot .root = some fileA ∧ s.view.size fileA = 0 ∧
        s.view.get fileA.blk (fileA.off + 33) = 0 ∧ s.view.ptr fileA .indirect = 0 ∧
        (∀ i, i < NDIRECT → s.view.ptr fileA (.data i) = 0) ∧
        s.view.get fileA.blk (fileA.off + 45) = FilePtr.root.addr) &&
      (FsProc.fileCreate [99] s).any fun p => p.2.1.toOption.isSome) = true := by
    rw [FsProc.fileCreate_eq]
    decide +kernel
  obtain ⟨s, hstep, hfound⟩ := (Option.any_eq_true _ _).1 hrun
  obtain ⟨hstate, hany⟩ := Bool.and_eq_true_iff.1 hfound
  obtain ⟨hsize, h0, hnone, hslot, hempty, hreg, hind, hdirect, hback⟩ := of_decide_eq_true hstate
  have hreach : system.Reach (fun s op => op.Clean s) s :=
    .next (e := .remove [97]) (.start ⟨smallDisk, 10, FileSys.wellFormed_small, rfl⟩) (FileSys.whole_mount.on _) hstep
  have hclean : (create [99]).Clean s := by
    constructor
    · rintro front d hfront hw - i hi
      have hpath : pathElems [99] = [[99]] := by decide
      rw [hpath] at hfront
      cases front with
      | nil =>
        cases hw
        rw [hsize] at hi
        obtain rfl : i = 0 := by
          unfold BY2BLK at hi
          omega
        exact h0
      | cons n front =>
        obtain ⟨rfl, -⟩ := List.cons_prefix_cons.1 hfront
        obtain ⟨-, -, g, hg, -⟩ := walk_cons hw
        rw [hnone] at hg
        cases hg
    · rintro front name d hpath hd - - -
      have hpath' : pathElems [99] = [] ++ [[99]] := by decide
      obtain ⟨rfl, -⟩ := List.append_inj' (hpath'.symm.trans hpath) rfl
      cases hd
      exact ⟨fileA, hslot, hempty, hreg, ptr_eq_zero hind hdirect, hback⟩
  obtain ⟨⟨l, r, t⟩, h, hr⟩ := (Option.any_eq_true _ _).1 hany
  cases r with
  | error e => cases hr
  | ok f =>
    exact ⟨s, t, l, f, hreach, h, created_of_reach hreach hclean (show pathElems [99] = [] ++ [[99]] by decide) rfl h⟩

/-- `b` is looked up, and the root directory is cut to nothing. -/
def cutRoot : List FsOp := [.resize [98] 0, .resize [47] 0]

/-- The first file that is then created gets the block that the directory had, with the block of `a`, and `b` is there
again. -/
theorem exists_not_created : ∃ (s t : Fs) (l : List FsLog) (f : FilePtr),
    system.Reach (fun _ _ => True) s ∧ s.view.lookup .root [99] = none ∧ FsProc.fileCreate [99] s = some (l, .ok f, t) ∧
      t.view.size f = 4096 ∧ t.view.ptr f (.data 0) = 4 ∧ s.view.lookup .root [98] = none ∧
      t.view.lookup .root [98] = some fileB ∧ ¬ Created (s.view.get 1 1).toNat s.view [99] .root (.ok f) t.view := by
  have hrun : (system.run (fun _ _ => true) (Fs.mount smallDisk 10) cutRoot).any (fun s =>
      decide (s.view.lookup .root [99] = none ∧ s.view.lookup .root [98] = none) &&
      (FsProc.fileCreate [99] s).any fun p => p.2.1.toOption.any fun f =>
        decide (p.2.2.view.size f = 4096 ∧ p.2.2.view.ptr f (.data 0) = 4 ∧
          p.2.2.view.lookup .root [98] = some fileB)) = true := by
    rw [FsProc.fileCreate_eq]
    decide +kernel
  obtain ⟨s, hstep, hfound⟩ := (Option.any_eq_true _ _).1 hrun
  obtain ⟨hstate, hany⟩ := Bool.and_eq_true_iff.1 hfound
  obtain ⟨hnone, hnone'⟩ := of_decide_eq_true hstate
  obtain ⟨⟨l, r, t⟩, h, hr⟩ := (Option.any_eq_true _ _).1 hany
  obtain ⟨f, hf, hend⟩ := (Option.any_eq_true _ _).1 hr
  obtain ⟨hsize, h4, hfound⟩ := of_decide_eq_true hend
  cases r with
  | error e => cases hf
  | ok f' =>
    obtain rfl : f' = f := Option.some.inj hf
    have hreach : system.Reach (fun _ _ => true = true) s :=
      .run (p := fun _ _ => true) (.start ⟨smallDisk, 10, FileSys.wellFormed_small, rfl⟩) hstep
    refine ⟨s, t, l, f', hreach.mono fun _ _ _ => trivial, hnone, h, hsize, h4, hnone', hfound, fun hcreated => ?_⟩
    have hzero := (hcreated.created f' rfl).2.size
    dsimp only at hsize
    omega

end FsOp

end Mos
