import Mos.Fs.OwnerSpec

/-!
# The functions for files keep the blocks apart

`O` has the file that a function is called for; the functions of `fs.c` keep the invariant, and `file_get_block` gives
the block that the pointer of the file says.
-/

namespace Mos

open View (With)

namespace FsProc

open Proc

variable {α : Type} {nb : Nat} {O : FilePtr → Prop} {X : Fs.Extra} {P E : Fs → Prop} {s t : Fs} {l : List FsLog}
  {f : FilePtr} {k : FileSlot} {ok : FsLog → Prop}

theorem steady_ok (hX : Fs.Closed nb X) : Steady (Fs.Ok nb O X) := fun _ _ h hview hmap => h.congr hX hview hmap

theorem steady_ok_and (hX : Fs.Closed nb X) (Q : View → Prop) : Steady fun s => s.Ok nb O X ∧ Q s.view :=
  fun _ _ h hview hmap => ⟨h.1.congr hX hview hmap, hview ▸ h.2⟩

/-- A function that keeps the invariant. -/
abbrev Keeps (nb : Nat) (O : FilePtr → Prop) (X : Fs.Extra) (x : FsProc α) : Prop :=
  Spec NotStale (Fs.Ok nb O X) x (Ends (fun _ => Fs.Ok nb O X) (Fs.Ok nb O X))

theorem ptr_eq_get {v : View} (hk : v.HasSlot f k) : v.ptr f k = (v.get (v.loc f k).1 (v.loc f k).2).toNat := by
  cases k with
  | indirect => rfl
  | data i =>
    by_cases hi : i < NDIRECT
    · simp only [View.ptr, View.loc, if_pos hi]
    · have h0 := hk.2 (by omega)
      simp only [View.ptr] at h0
      simp only [View.ptr, View.loc, if_neg hi, if_neg h0]

theorem byteOf_clear (w : Word) : byteOf (w &&& ~~~0xff#32) 0 = 0 := by
  have hmask : (~~~0xff#32).setWidth 8 = 0#8 := by decide
  unfold byteOf
  rw [Nat.mul_zero, BitVec.ushiftRight_zero, BitVec.setWidth_and, hmask, BitVec.and_zero]
  rfl

/-! ### Looking only -/

private theorem indirectBlock_look (hP : Steady P) (f : FilePtr) :
    Spec ok P (indirectBlock f false) (Ends (fun _ => P) P) := by
  refine .bind ((word_spec _ _).post fun _ _ h => h.1) fun ind => ?_
  split
  · exact .fail fun _ h => h
  · exact .bind ((readBlock_spec hP _).post fun _ _ h => h.1) fun _ => .pure fun _ h => h

private theorem fileBlockWalk_look (hP : Steady P) (f : FilePtr) (filebno : Nat) :
    Spec ok P (fileBlockWalk f filebno false) (Ends (fun _ => P) P) := by
  unfold fileBlockWalk
  split
  · exact .pure fun _ h => h
  · split
    · exact .bind (indirectBlock_look hP f) fun b => .pure fun _ h => h
    · exact .fail fun _ h => h

private theorem fileMapBlock_look (hP : Steady P) (f : FilePtr) (filebno : Nat) :
    Spec ok P (fileMapBlock f filebno false) (Ends (fun _ => P) P) := by
  refine .bind (fileBlockWalk_look hP f filebno) fun p => ?_
  refine .bind ((word_spec _ _).post fun _ _ h => h.1) fun w => ?_
  split
  · exact .fail fun _ h => h
  · exact .pure fun _ h => h

private theorem blockIsDirty_spec (b : Nat) : Spec ok P (blockIsDirty b) (Ends (fun _ => P) E) := by
  refine .bind ((blockIsMapped_spec b).post fun _ _ h => h.1) fun m => ?_
  split
  · exact .read fun _ _ h _ => h
  · exact .pure fun _ h => h

private theorem flushBlock_look (hP : Steady P) (f : FilePtr) (bno : Nat) :
    Spec ok P (flushBlock f bno) (Ends (fun _ => P) E) := by
  refine .bind (.attempt (fileMapBlock_look hP f bno)) fun r => ?_
  cases r with
  | error e => exact .pure fun _ h => h
  | ok b =>
    refine .bind (blockIsDirty_spec b) fun d => ?_
    split
    · exact writeBlock_spec hP b
    · exact .pure fun _ h => h

theorem fileFlush_look (hP : Steady P) (f : FilePtr) : Spec ok P (fileFlush f) (Ends (fun _ => P) E) :=
  .bind ((word_spec _ _).post fun _ _ h => h.1) fun _ => .each (fun bno => flushBlock_look hP f bno) _

theorem flushDir_look (hP : Steady P) (f : FilePtr) : Spec ok P (flushDir f) (Ends (fun _ => P) E) := by
  refine .bind ((word_spec _ _).post fun _ _ h => h.1) fun w => ?_
  split
  · exact .pure fun _ h => h
  · split
    · exact fileFlush_look hP _
    · exact .stop

theorem fileDirty_look (hP : Steady P) (f : FilePtr) (offset : Word) :
    Spec ok P (fileDirty f offset) (Ends (fun _ => P) P) :=
  .bind (fileMapBlock_look hP f _) fun b => dirtyBlock_spec hP b

theorem fsSync_look (hP : Steady P) : Spec ok P fsSync (Ends (fun _ => P) P) := by
  refine .bind (nblocks_spec.post fun _ _ h => h.1) fun n => .each (fun b => ?_) _
  refine .bind (blockIsDirty_spec b) fun d => ?_
  split
  · exact writeBlock_spec hP b
  · exact .pure fun _ h => h

/-! ### Blocks of a file -/

section File

variable (hX : Fs.Closed nb X) (hO : O f)

include hX hO

/-- `alloc_block` for a pointer, and the pointer is set. -/
private theorem extend_spec {β : Type} {p : Nat × Nat} {g : Nat → FsProc β} {R : β → Fs → Prop}
    (hg : ∀ b, Spec NotStale (fun s => s.Ok nb O X ∧ s.view.ptr f k = b ∧ b ≠ 0) (g b) (Ends R (Fs.Ok nb O X))) :
    Spec NotStale (fun s => s.Ok nb O X ∧ SlotAt f k p s.view) (do
      let b ← allocBlock
      setIn f p.1 p.2 (BitVec.ofNat 32 b)
      g b) (Ends R (Fs.Ok nb O X)) :=
  .bind (allocBlock_spec hX _) fun b => .bind (setIn_given hX (fun _ => .opened hO) p b) fun _ => hg b

private theorem indirectBlock_spec (alloc : Bool) : Spec NotStale (Fs.Ok nb O X) (indirectBlock f alloc)
    (Ends (fun b s => s.Ok nb O X ∧ s.view.ptr f .indirect = b ∧ b ≠ 0) (Fs.Ok nb O X)) := by
  refine .bind (word_spec _ _) fun ind => ?_
  split
  · split
    · refine Spec.pre (P := fun s => s.Ok nb O X ∧ SlotAt f .indirect (f.blk, f.off + 44) s.view) ?_
        fun s hs => ⟨hs.1, trivial, rfl⟩
      refine extend_spec hX hO fun b => ?_
      exact .bind ((readBlock_spec (steady_ok_and hX fun v => v.ptr f .indirect = b ∧ b ≠ 0) b).post fun _ _ h => h.1)
        fun _ => .pure fun _ h => h
    · exact .fail fun _ h => h.1
  · next h0 =>
    refine .bind ((readBlock_spec (E := Fs.Ok nb O X)
      (steady_ok_and hX fun v => v.get f.blk (f.off + 44) = ind) _).post fun _ _ h => h.1) fun _ => .pure fun s hs => ?_
    refine ⟨hs.1, ?_, fun h => h0 (BitVec.eq_of_toNat_eq h)⟩
    rw [← hs.2]
    rfl

private theorem fileBlockWalk_spec (filebno : Nat) (alloc : Bool) : Spec NotStale (Fs.Ok nb O X)
    (fileBlockWalk f filebno alloc)
    (Ends (fun p s => s.Ok nb O X ∧ SlotAt f (.data filebno) p s.view) (Fs.Ok nb O X)) := by
  unfold fileBlockWalk
  split
  · next hd =>
    refine .pure fun s hs => ⟨hs, ⟨?_, fun h => by omega⟩, ?_⟩
    · unfold NDIRECT at hd
      unfold NINDIRECT
      omega
    · simp only [View.loc, if_pos hd]
  · next hd =>
    split
    · next hi =>
      refine .bind (indirectBlock_spec hX hO alloc) fun b => .pure fun s hs => ⟨hs.1, ⟨hi, fun _ => ?_⟩, ?_⟩
      · rw [hs.2.1]
        exact hs.2.2
      · simp only [View.loc, if_neg hd]
        rw [← hs.2.1]
        rfl
    · exact .fail fun _ h => h

private theorem fileMapBlock_spec (filebno : Nat) (alloc : Bool) : Spec NotStale (Fs.Ok nb O X)
    (fileMapBlock f filebno alloc)
    (Ends (fun b s => s.Ok nb O X ∧ s.view.ptr f (.data filebno) = b ∧ b ≠ 0) (Fs.Ok nb O X)) := by
  refine .bind (fileBlockWalk_spec hX hO filebno alloc) fun p => .bind (word_spec _ _) fun w => ?_
  split
  · split
    · refine .pre ?_ fun s hs => hs.1
      exact extend_spec hX hO fun b => .pure fun _ h => h
    · exact .fail fun _ h => h.1.1
  · next h0 =>
    refine .pure fun s hs => ⟨hs.1.1, ?_, fun h => h0 (BitVec.eq_of_toNat_eq h)⟩
    obtain ⟨⟨hok, hk, rfl⟩, hw⟩ := hs
    rw [ptr_eq_get hk, hw]

theorem fileGetBlock_spec (filebno : Nat) : Spec NotStale (Fs.Ok nb O X) (fileGetBlock f filebno)
    (Ends (fun b s => s.Ok nb O X ∧ (s.view.ptr f (.data filebno) = b ∧ b ≠ 0) ∧ s.Mapped b) (Fs.Ok nb O X)) := by
  refine .bind (fileMapBlock_spec hX hO filebno true) fun b => ?_
  refine .bind (readBlock_spec (steady_ok_and hX fun v => v.ptr f (.data filebno) = b ∧ b ≠ 0) b) fun _ => ?_
  exact .pure fun s hs => ⟨hs.1.1, hs.1.2, hs.2⟩

/-- A block is freed and its pointer cleared. -/
private theorem drop_spec {p : Nat × Nat} {w : Word} (h0 : w ≠ 0) :
    Spec ok (fun s => s.Ok nb O X ∧ SlotAt f k p s.view ∧ s.view.get p.1 p.2 = w) (do
      freeBlock w.toNat
      setIn f p.1 p.2 0) (Ends (fun _ => Fs.Ok nb O X) (Fs.Ok nb O X)) := by
  rintro s l r t ⟨hok, ⟨hk, rfl⟩, hw⟩ h _
  have hptr : s.view.ptr f k = w.toNat := by rw [ptr_eq_get hk, hw]
  have hne : s.view.ptr f k ≠ 0 := by
    rw [hptr]
    exact fun h => h0 (BitVec.eq_of_toNat_eq h)
  have hown := hok.good.own f k (.opened hO) hne
  rw [← hptr] at h
  rcases bind_some h with ⟨e, hx, -⟩ | ⟨l₁, a, u, l₂, hx, hset, rfl⟩
  · obtain ⟨hr, -⟩ := freeBlock_view (by rw [hok.nblocks]; exact hown.2.1) hne hx
    cases hr
  · obtain ⟨-, hview, hmap⟩ := freeBlock_view (by rw [hok.nblocks]; exact hown.2.1) hne hx
    obtain ⟨rfl, hview', hmap'⟩ := setIn_view hset
    refine hok.change hX ?_ fun b' hb' => (hmap' b').2 ((hmap b').2 hb')
    rw [hview', hview]
    exact .drop (.opened hO) hk hne

private theorem fileClearBlock_spec (filebno : Nat) : Keeps nb O X (fileClearBlock f filebno) := by
  refine .bind (fileBlockWalk_spec hX hO filebno false) fun p => .bind (word_spec _ _) fun w => ?_
  split
  · exact .pure fun s hs => hs.1.1
  · next h0 => exact .pre (drop_spec hX hO h0) fun s hs => ⟨hs.1.1, hs.1.2, hs.2⟩

/-- A field is written to. -/
private theorem setField_spec {y : Nat} {w : Word} (hy : y < 33 ∨ 45 ≤ y ∧ y < 64) (hname : y = 0 → byteOf w 0 = 0) :
    Keeps nb O X (setIn f f.blk (f.off + y) w) := by
  intro s l r t hok h _
  obtain ⟨rfl, hview, hmap⟩ := setIn_view (p := (f.blk, f.off + y)) h
  refine hok.change hX ?_ fun b hb => (hmap b).2 hb
  rw [hview]
  exact .field (.opened hO) hy hname

private theorem setFSize_spec (w : Word) : Keeps nb O X (setFSize f w) :=
  setField_spec hX hO (.inl (by decide)) fun h => absurd h (by decide)

private theorem setFDir_spec (w : Word) : Keeps nb O X (setFDir f w) :=
  setField_spec hX hO (.inr (by decide)) fun h => absurd h (by decide)

private theorem clearName_spec : Keeps nb O X (clearName f) := by
  refine .bind ((word_spec _ _).post fun _ _ h => h.1) fun w => ?_
  exact setField_spec hX hO (y := 0) (.inl (by decide)) fun _ => byteOf_clear w

private theorem clearIndirect_spec : Keeps nb O X (clearIndirect f) := by
  refine .bind (word_spec _ _) fun ind => ?_
  split
  · exact .pure fun s hs => hs.1
  · next h0 => exact .pre (drop_spec hX hO (k := .indirect) (p := (f.blk, f.off + 44)) h0) fun s hs =>
      ⟨hs.1, ⟨trivial, rfl⟩, hs.2⟩

private theorem fileTruncate_spec (newsize : Word) : Keeps nb O X (fileTruncate f newsize) := by
  refine .bind ((word_spec _ _).post fun _ _ h => h.1) fun size => ?_
  refine .bind (.each (fun bno => ?_) _) fun _ => ?_
  · refine .bind (.attempt (fileClearBlock_spec hX hO bno)) fun r => .pure fun s hs => ?_
    cases r with
    | ok a => exact hs
    | error e => exact hs
  · exact .bind (.when fun _ => clearIndirect_spec hX hO) fun _ => setFSize_spec hX hO newsize

theorem fileSetSize_spec (newsize : Word) : Keeps nb O X (fileSetSize f newsize) := by
  refine .bind ((word_spec _ _).post fun _ _ h => h.1) fun size => ?_
  refine .bind (.when fun _ => fileTruncate_spec hX hO newsize) fun _ => ?_
  exact .bind (setFSize_spec hX hO newsize) fun _ => flushDir_look (steady_ok hX) f

end File

/-! ### Paths -/

/-- A component of a path: a string that is not empty. -/
def IsName (name : List Byte) : Prop := ∃ c rest, name = c :: rest ∧ c ≠ 0

private theorem mem_of_mem_splitOn {l name : List Byte} {a c : Byte} (hname : name ∈ l.splitOn a) (hc : c ∈ name) :
    c ∈ l := by
  induction l generalizing name with
  | nil =>
    simp only [List.splitOn_nil, List.mem_singleton] at hname
    rw [hname] at hc
    exact hc
  | cons x l ih =>
    rw [List.splitOn_cons_eq_if_modifyHead] at hname
    split at hname
    · rcases List.mem_cons.1 hname with rfl | hname
      · cases hc
      · exact List.mem_cons_of_mem _ (ih hname hc)
    · cases hl : l.splitOn a with
      | nil => exact absurd hl (List.splitOn_ne_nil a l)
      | cons first rest =>
        rw [hl] at hname
        rcases List.mem_cons.1 hname with rfl | hname
        · rcases List.mem_cons.1 hc with rfl | hc
          · exact List.mem_cons_self
          · exact List.mem_cons_of_mem _ (ih (hl ▸ List.mem_cons_self) hc)
        · exact List.mem_cons_of_mem _ (ih (hl ▸ List.mem_cons_of_mem _ hname) hc)

theorem nul_notMem_of_mem {path name : List Byte} (h : name ∈ pathElems path) : 0 ∉ name := by
  intro h0
  have hmem := mem_of_mem_splitOn (List.mem_filter.1 h).1 h0
  have hne := List.all_eq_true.1 List.all_takeWhile _ hmem
  exact absurd rfl (of_decide_eq_true hne)

theorem isName_of_mem {path name : List Byte} (h : name ∈ pathElems path) : IsName name := by
  unfold pathElems at h
  obtain ⟨hmem, hne⟩ := List.mem_filter.1 h
  cases name with
  | nil => simp at hne
  | cons c rest =>
    refine ⟨c, rest, rfl, ?_⟩
    have hc := List.all_eq_true.1 List.all_takeWhile _ (mem_of_mem_splitOn hmem List.mem_cons_self)
    exact of_decide_eq_true hc

private theorem named_of_nameIs {v : View} {data : Block} {b j : Nat} {name : List Byte} (hdata : v b = data)
    (hj : j < FILE2BLK) (hname : IsName name) (h : nameIs data (64 * j) name = true) : v.Named (.entry b j) := by
  obtain ⟨c, rest, rfl, hc⟩ := hname
  have hlt : 64 * j < 1024 := by
    unfold FILE2BLK at hj
    omega
  unfold nameIs at h
  simp only [List.cons_append, List.zipIdx_cons, List.all_cons, Bool.and_eq_true, beq_iff_eq] at h
  have hbyte : byteOf (data ⟨64 * j, hlt⟩) 0 = c := by
    have hfin : (Fin.ofNat 1024 (64 * j + 0 / 4) : Fin 1024) = ⟨64 * j, hlt⟩ := by
      apply Fin.ext
      simp only [Fin.ofNat, Nat.zero_div, Nat.add_zero]
      exact Nat.mod_eq_of_lt hlt
    rw [← hfin]
    exact h.1
  have hget : v.get b (64 * j) = data ⟨64 * j, hlt⟩ := by
    unfold View.get
    rw [dif_pos hlt, hdata]
  unfold View.Named FilePtr.entry
  rw [hget, hbyte]
  exact hc

/-- What `dir_lookup` finds in a block. -/
theorem findName_spec (b : Nat) {name : List Byte} (hname : IsName name) : Spec ok P (findName b name)
    (Ends (fun r s => P s ∧ ∀ g, r = some g → ∃ j, j < FILE2BLK ∧ g = .entry b j ∧ s.view.Named g) E) := by
  refine .read fun s r hs hr => ⟨hs, ?_⟩
  obtain ⟨pg, hpg, rfl⟩ := Option.map_eq_some_iff.1 hr
  intro g hg
  obtain ⟨j, hj, rfl⟩ := Option.map_eq_some_iff.1 hg
  have hmem := List.mem_range.1 (List.mem_of_find?_eq_some hj)
  have hfound := List.find?_some (p := fun j => nameIs pg.data (64 * j) name) hj
  exact ⟨j, hmem, rfl, named_of_nameIs (Fs.view_of_cache hpg) hmem hname hfound⟩

/-- A file that is open and a directory stays one. -/
def DirToo (X : Fs.Extra) (dir : FilePtr) : Fs.Extra := fun L M v => X L M v ∧ (L dir → v.IsDir dir)

section Walk

variable (hX : Fs.Closed nb X)

include hX

theorem closed_dirToo (dir : FilePtr) : Fs.Closed nb (DirToo X dir) where
  mono h hL hM := ⟨hX.mono h.1 hL hM, fun hd => h.2 (hL dir hd)⟩
  change hgood hnb h hc := by
    refine ⟨hX.change hgood hnb h.1 hc, fun hd => ?_⟩
    have hlive := hc.live hgood hnb hd
    exact (hc.isDir hgood hlive).2 (h.2 hlive)

/-- The search opens the file that it finds. -/
private theorem lookupIn_spec {dir : FilePtr} {name : List Byte} (hname : IsName name) : ∀ is : List Nat,
    Spec NotStale (Fs.Ok nb (With O dir) (DirToo X dir)) (lookupIn dir name is)
      (Ends (fun g s => s.Ok nb (With O g) X) (Fs.Ok nb (With O dir) (DirToo X dir)))
  | [] => .fail fun _ h => h
  | i :: is => by
    have hX' := closed_dirToo hX dir
    refine .bind (fileGetBlock_spec hX' (.inr rfl) i) fun b => .bind (findName_spec b hname) fun found => ?_
    cases found with
    | none => exact (lookupIn_spec hname is).pre fun s hs => hs.1.1
    | some g =>
      -- the file is live: it has a name in a block of the directory
      have hopen (s : Fs) (hs : (s.Ok nb (With O dir) (DirToo X dir) ∧ (s.view.ptr dir (.data i) = b ∧ b ≠ 0) ∧ s.Mapped b) ∧
          ∀ g', some g = some g' → ∃ j, j < FILE2BLK ∧ g' = .entry b j ∧ s.view.Named g') :
          s.Ok nb (With (With O dir) g) (DirToo X dir) := by
        obtain ⟨⟨hok, ⟨hptr, hb⟩, hmap⟩, hfound⟩ := hs
        obtain ⟨j, hj, rfl, hnamed⟩ := hfound g rfl
        have hdir : s.view.Live (With O dir) dir := .opened (.inr rfl)
        subst hptr
        exact hok.open hX' (.entry hdir (hok.extra.2 hdir) hb hj hnamed) hmap
      refine .bind (.pre ((setFDir_spec hX' (.inr rfl) dir.addr).err fun s hs => ?_) hopen) fun _ => .pure fun s hs => ?_
      · exact hs.anti hX' fun _ h => .inl h
      · refine (hs.imp fun h => h.1).anti hX ?_
        rintro g' (h | rfl)
        · exact .inl (.inl h)
        · exact .inr rfl

theorem walkStep_spec {name : List Byte} (hname : IsName name) :
    Spec NotStale (Fs.Ok nb (With O f) X) (walkStep f name) (Ends (fun g s => s.Ok nb (With O g) X) (Fs.Ok nb O X)) := by
  have hclose {s : Fs} {g : FilePtr} (hs : s.Ok nb (With O g) X) : s.Ok nb O X := hs.anti hX fun _ h => .inl h
  unfold walkStep
  split
  · exact .fail fun s hs => hclose hs
  · refine .bind (word_spec _ _) fun w => ?_
    split
    · exact .fail fun s hs => hclose hs.1
    · next hdir =>
      refine .bind (R := fun _ s => s.Ok nb (With O f) (DirToo X f)) ((word_spec _ _).post fun _ s hs => ?_) fun size => ?_
      · exact hs.1.1.imp fun h => ⟨h, fun _ => hs.1.2.trans (not_not.1 hdir)⟩
      · exact (lookupIn_spec hX hname _).err fun s hs => hclose (hs.imp fun h => h.1)

/-- `walk_path` opens the file that it gets to. -/
private theorem walkFrom_spec : ∀ {names : List (List Byte)} {f : FilePtr}, (∀ name ∈ names, IsName name) →
    Spec NotStale (Fs.Ok nb (With O f) X) (walkFrom f names) (Ends (fun g s => s.Ok nb (With O g) X) (Fs.Ok nb O X))
  | [], _, _ => .pure fun _ h => h
  | name :: names, f, hnames => by
    refine .bind (walkStep_spec hX (hnames name List.mem_cons_self)) fun g => ?_
    exact walkFrom_spec fun name' hname' => hnames name' (List.mem_cons_of_mem _ hname')

theorem walkPath_spec (path : List Byte) :
    Spec NotStale (Fs.Ok nb O X) (walkPath path) (Ends (fun g s => s.Ok nb (With O g) X) (Fs.Ok nb O X)) := by
  refine .pre (walkFrom_spec hX fun name hname => isName_of_mem hname) fun s hs => ?_
  have hlast := View.two_le_lastMeta nb
  exact hs.open hX .root (hs.mapped 1 (by omega) (by omega))

theorem fileRemove_spec (path : List Byte) :
    Spec NotStale (Fs.Ok nb O X) (fileRemove path) (Ends (fun _ => Fs.Ok nb O X) (Fs.Ok nb O X)) := by
  have hclose {s : Fs} {g : FilePtr} (hs : s.Ok nb (With O g) X) : s.Ok nb O X := hs.anti hX fun _ h => .inl h
  refine .bind (walkPath_spec hX path) fun g => ?_
  have hkeeps : Keeps nb (With O g) X (do
      fileTruncate g 0
      clearName g
      fileFlush g
      flushDir g) :=
    .bind (fileTruncate_spec hX (.inr rfl) 0) fun _ => .bind (clearName_spec hX (.inr rfl)) fun _ =>
      .bind (fileFlush_look (steady_ok hX) g) fun _ => flushDir_look (steady_ok hX) g
  exact (hkeeps.err fun s hs => hclose hs).post fun _ s hs => hclose hs

end Walk

end FsProc

end Mos
