import Mos.Fs.File

/-!
# What the file server writes to

A function of `fs.c` changes the cache and the disk in a few ways only.  Apart from single bits of the bitmap, it writes
words of the `struct File` it is called for and of the indirect block of that; `walk_path` writes to the files on the
path.
-/

namespace Mos

namespace Fs

variable {s t u : Fs}

/-- The bit of a block in the bitmap is set. -/
def FreeBit (s : Fs) (b : Nat) : Prop :=
  ∃ w, s.word? (2 + b / 32 / 1024) (b / 32 % 1024) = some w ∧ w.getLsbD (b % 32) = true

/-- `f_indirect` is the number of a block. -/
def HasIndirect (s : Fs) (f : FilePtr) (b : Nat) : Prop := s.word? f.blk (f.off + 44) = some (BitVec.ofNat 32 b)

/-- What becomes of the cache and the disk, change by change, if only files that are `P` are written to. -/
inductive Changes (P : FilePtr → Prop) : Fs → Fs → Prop
  | refl (s : Fs) : Changes P s s
  | trans {s t u : Fs} (h : Changes P s t) (h' : Changes P t u) : Changes P s u
  /-- Pages that the kernel has left. -/
  | mem (s : Fs) (m : Nat) : Changes P s { s with mem := m }
  | flag {s : Fs} {b : Nat} {pg : CachePage} (hpg : s.cache b = some pg) (d : Bool) :
      Changes P s (s.setPage b { pg with dirty := d })
  /-- A page of the cache is written to its block. -/
  | flush {s : Fs} {b : Nat} {pg : CachePage} (hpg : s.cache b = some pg) :
      Changes P s { s with disk := Function.update s.disk b pg.data }
  | load {s t : Fs} {b : Nat} (hb : s.cache b = none) (h : s.memAlloc b (s.disk b) = some t) : Changes P s t
  /-- A block that was free before gets a page of zeros, if it has none. -/
  | zero {s t u : Fs} {b : Nat} (hfree : s.FreeBit b) (h : Changes P s t) (hb : t.cache b = none)
      (h' : t.memAlloc b (fun _ => 0) = some u) : Changes P s u
  /-- The bit of a block in the bitmap. -/
  | bit {s t : Fs} {b : Nat} {n w w' : Word} (hn : s.word? 1 1 = some n) (hb : b < n.toNat)
      (hw : s.word? (2 + b / 32 / 1024) (b / 32 % 1024) = some w)
      (hsame : ∀ i, i ≠ b % 32 → w'.getLsbD i = w.getLsbD i)
      (h : s.setWord? (2 + b / 32 / 1024) (b / 32 % 1024) w' = some t) : Changes P s t
  /-- A word of the `struct File`. -/
  | struct {s t : Fs} {f : FilePtr} {i : Nat} {w : Word} (hf : P f) (hi : i < 64)
      (h : s.setWord? f.blk (f.off + i) w = some t) : Changes P s t
  /-- A word of the indirect block, as `f_indirect` gave it before. -/
  | indirect {s t u : Fs} {f : FilePtr} {b off : Nat} {w : Word} (hf : P f) (hind : s.HasIndirect f b)
      (h : Changes P s t) (h' : t.setWord? b off w = some u) : Changes P s u

private theorem Changes.mono {P Q : FilePtr → Prop} (h : Changes P s t) (hPQ : ∀ f, P f → Q f) : Changes Q s t := by
  induction h with
  | refl s => exact .refl s
  | trans _ _ ih ih' => exact .trans ih ih'
  | mem s m => exact .mem s m
  | flag hpg d => exact .flag hpg d
  | flush hpg => exact .flush hpg
  | load hb h => exact .load hb h
  | zero hfree _ hb h' ih => exact .zero hfree ih hb h'
  | bit hn hb hw hsame h => exact .bit hn hb hw hsame h
  | struct hf hi h => exact .struct (hPQ _ hf) hi h
  | indirect hf hind _ h' ih => exact .indirect (hPQ _ hf) hind ih h'

/-- A place that belongs to a file: in its `struct File`, or in the block that was its indirect block on the way. -/
def PlaceSeen (P : FilePtr → Prop) (s t : Fs) (f : FilePtr) (p : Nat × Nat) : Prop :=
  (∃ i, i < 64 ∧ p = (f.blk, f.off + i)) ∨ ∃ v, Changes P s v ∧ v.HasIndirect f p.1 ∧ Changes P v t

private theorem PlaceSeen.trans {P : FilePtr → Prop} {f : FilePtr} {p : Nat × Nat} (h : PlaceSeen P s t f p)
    (htu : Changes P t u) : PlaceSeen P s u f p := by
  rcases h with h | ⟨v, hsv, hind, hvt⟩
  · exact .inl h
  · exact .inr ⟨v, hsv, hind, hvt.trans htu⟩

/-- A place that belongs to a file may be written to. -/
private theorem PlaceSeen.set {P : FilePtr → Prop} {f : FilePtr} {p : Nat × Nat} {w : Word} (h : PlaceSeen P s t f p)
    (hf : P f) (hst : Changes P s t) (hset : t.setWord? p.1 p.2 w = some u) : Changes P s u := by
  rcases h with ⟨i, hi, rfl⟩ | ⟨v, hsv, hind, hvt⟩
  · exact hst.trans (.struct hf hi hset)
  · exact hsv.trans (.indirect hf hind hvt hset)

theorem word?_some {b off : Nat} {w : Word} (h : s.word? b off = some w) :
    ∃ pg, s.cache b = some pg ∧ ∃ h : off < 1024, pg.data ⟨off, h⟩ = w := by
  obtain ⟨pg, hpg, h⟩ := Option.bind_eq_some_iff.1 h
  split at h
  · next hoff => exact ⟨pg, hpg, hoff, Option.some.inj h⟩
  · cases h

/-- A word that is written is read back. -/
private theorem setWord?_self {b off : Nat} {w : Word} (h : s.setWord? b off w = some t) : t.word? b off = some w := by
  obtain ⟨pg, -, h⟩ := Option.bind_eq_some_iff.1 h
  split at h
  case isFalse => cases h
  case isTrue hoff =>
  cases h
  simp [word?, setPage, hoff]

end Fs

/-- Only files that are `P` are written to, whatever is in the log. -/
def Wrote (P : FilePtr → Prop) (s : Fs) (_ : List FsLog) (t : Fs) : Prop := s.Changes P t

private theorem Wrote.composes (P : FilePtr → Prop) : Proc.Composes (Wrote P) := ⟨.refl, .trans⟩

namespace FsProc

open Proc Wrote Fs

variable {P : FilePtr → Prop} {f : FilePtr} {s t u : Fs} {l : List FsLog}

private theorem word_wrote (b off : Nat) : Does (Wrote P) (word b off) := .read (composes P) _

private theorem blockIsMapped_wrote (b : Nat) : Does (Wrote P) (blockIsMapped b) := .read (composes P) _

private theorem nblocks_wrote : Does (Wrote P) nblocks := .bind (composes P) (word_wrote _ _) fun _ => .pure (composes P) _

private theorem setIn_some {b off : Nat} {w : Word} {r : Except Word Unit} (h : setIn f b off w s = some (l, r, t)) :
    r = .ok () ∧ s.setWord? b off w = some t := by
  obtain ⟨l₁, a, u, l₂, hx, h, rfl⟩ := bind_ok h nofun
  cases hx
  obtain ⟨v, hv, h⟩ := Option.map_eq_some_iff.1 h
  cases h
  exact ⟨rfl, hv⟩

private theorem setIn_bind_some {α : Type} {b off : Nat} {w : Word} {x : Unit → FsProc α} {r : Except Word α}
    (h : (setIn f b off w >>= x) s = some (l, r, t)) :
    ∃ u, s.setWord? b off w = some u ∧ ∃ l', x () u = some (l', r, t) := by
  rcases bind_some h with ⟨e, hx, -⟩ | ⟨l₁, a, u, l₂, hx, hrest, -⟩
  · cases (setIn_some hx).1
  · exact ⟨u, (setIn_some hx).2, l₂, hrest⟩

/-- A write to the `struct File`. -/
private theorem setIn_wrote (hf : P f) {i : Nat} (hi : i < 64) (w : Word) : Does (Wrote P) (setIn f f.blk (f.off + i) w) :=
  fun _ _ _ _ h => .struct hf hi (setIn_some h).2

private theorem dirtyBlock_wrote (b : Nat) : Does (Wrote P) (dirtyBlock b) := by
  refine .bind (composes P) (blockIsMapped_wrote b) fun m => ?_
  split
  · refine .update fun s t h => ?_
    obtain ⟨pg, hpg, rfl⟩ := Option.map_eq_some_iff.1 h
    exact .flag hpg true
  · exact .fail (composes P) _

private theorem writeBlock_wrote (b : Nat) : Does (Wrote P) (writeBlock b) := by
  refine .bind (composes P) (blockIsMapped_wrote b) fun m => ?_
  split
  · refine .update fun s t h => ?_
    obtain ⟨pg, hpg, rfl⟩ := Option.map_eq_some_iff.1 h
    exact .flush hpg
  · exact .stop

private theorem bitmapWord_wrote (b : Nat) : Does (Wrote P) (bitmapWord b) := word_wrote _ _

private theorem blockIsFree_wrote (b : Nat) : Does (Wrote P) (blockIsFree b) := by
  refine .bind (composes P) nblocks_wrote fun n => ?_
  split
  · exact .pure (composes P) _
  · exact .bind (composes P) (bitmapWord_wrote b) fun w => .pure (composes P) _

/-- A block that is not mapped has no page. -/
theorem isMapped?_none {b : Nat} (h : s.isMapped? b = some false) : s.cache b = none := by
  unfold Fs.isMapped? at h
  split at h
  · simpa using Option.some.inj h
  · cases h

private theorem readBlock_wrote (b : Nat) : Does (Wrote P) (readBlock b) := by
  refine .bind (composes P) nblocks_wrote fun n => ?_
  split
  · exact .stop
  · refine .bind (composes P) (blockIsFree_wrote b) fun free => ?_
    split
    · exact .stop
    · intro s l r t h
      obtain ⟨m, hm, h⟩ := read_bind_some h
      cases m with
      | true =>
        cases h
        exact .refl s
      | false =>
        obtain ⟨u, hu, h⟩ := Option.map_eq_some_iff.1 h
        cases h
        exact .load (isMapped?_none hm) hu

/-- The page of a block that was free. -/
private theorem mapBlock_some {b : Nat} {r : Except Word Unit} (hfree : s.FreeBit b) (hst : s.Changes P t)
    (h : mapBlock b t = some (l, r, u)) : s.Changes P u := by
  obtain ⟨m, hm, h⟩ := read_bind_some h
  cases m with
  | true =>
    cases h
    exact hst
  | false =>
    obtain ⟨full, -, h⟩ := read_bind_some h
    cases full with
    | true =>
      cases h
      exact hst
    | false =>
      obtain ⟨v, hv, h⟩ := Option.map_eq_some_iff.1 h
      cases h
      exact .zero hfree hst (isMapped?_none hm) hv

private theorem or_bit (w : Word) {b i : Nat} (hi : i ≠ b % 32) : (w ||| 1#32 <<< (b % 32)).getLsbD i = w.getLsbD i := by
  have hbit : (1#32 <<< (b % 32)).getLsbD i = false := by
    simp only [BitVec.getLsbD_shiftLeft, BitVec.getLsbD_one]
    grind
  rw [BitVec.getLsbD_or, hbit, Bool.or_false]

private theorem and_not_bit (w : Word) {b i : Nat} (hi : i ≠ b % 32) :
    (w &&& ~~~(1#32 <<< (b % 32))).getLsbD i = w.getLsbD i := by
  by_cases hlt : i < 32
  · have hbit : (1#32 <<< (b % 32)).getLsbD i = false := by
      simp only [BitVec.getLsbD_shiftLeft, BitVec.getLsbD_one]
      grind
    rw [BitVec.getLsbD_and, BitVec.getLsbD_not, hbit]
    simp [hlt]
  · rw [BitVec.getLsbD_of_ge _ _ (by omega), BitVec.getLsbD_of_ge _ _ (by omega)]

private theorem freeBlock_wrote (b : Nat) : Does (Wrote P) (freeBlock b) := by
  intro s l r t h
  obtain ⟨l₁, k, u, l₂, hn, hrest, rfl⟩ := bind_ok h fun l e t h => by
    obtain ⟨w, -, h⟩ := read_bind_some h
    cases h
  obtain ⟨n, hsuper, hk⟩ := read_bind_some hn
  cases hk
  split at hrest
  · cases hrest
    exact .refl s
  · next hb =>
    obtain ⟨w, hw, hrest⟩ := read_bind_some hrest
    obtain ⟨v, hv, hrest⟩ := update_bind_some hrest
    cases hrest
    exact .bit hsuper (by omega) hw (fun i hi => or_bit w hi) hv

/-- The search takes the bit of the block that it finds. -/
private theorem allocFrom_some {n : Word} : ∀ {bs : List Nat} {s t : Fs} {l : List FsLog} {r : Except Word Nat},
    s.word? 1 1 = some n → (∀ b ∈ bs, b < n.toNat) → allocFrom bs s = some (l, r, t) →
    s.Changes P t ∧ ∀ b, r = .ok b → s.FreeBit b := by
  intro bs
  induction bs with
  | nil =>
    intro s t l r hn hbs h
    cases h
    exact ⟨.refl s, nofun⟩
  | cons b bs ih =>
    intro s t l r hn hbs h
    obtain ⟨w, hw, h⟩ := read_bind_some h
    split at h
    · next hbit =>
      obtain ⟨u, hu, h⟩ := update_bind_some h
      have hchange : s.Changes P u :=
        .bit hn (hbs b List.mem_cons_self) hw (fun i hi => and_not_bit w hi) hu
      rcases bind_some h with ⟨e, hx, rfl⟩ | ⟨l₁, a, v, l₂, hx, hpure, rfl⟩
      · exact ⟨hchange.trans (writeBlock_wrote _ u _ _ t hx), nofun⟩
      · cases hpure
        refine ⟨hchange.trans (writeBlock_wrote _ u _ _ t hx), ?_⟩
        rintro c ⟨⟩
        exact ⟨w, hw, hbit⟩
    · exact ih hn (fun c hc => hbs c (List.mem_cons_of_mem b hc)) h

private theorem allocBlockNum_some {r : Except Word Nat} (h : allocBlockNum s = some (l, r, t)) :
    s.Changes P t ∧ ∀ b, r = .ok b → s.FreeBit b := by
  obtain ⟨l₁, k, u, l₂, hk, h, rfl⟩ := bind_ok h fun l e t h => by
    obtain ⟨w, -, h⟩ := read_bind_some h
    cases h
  obtain ⟨n, hn, hk⟩ := read_bind_some hk
  cases hk
  refine allocFrom_some hn (fun b hb => ?_) h
  rw [List.mem_range'_1] at hb
  omega

private theorem allocBlock_wrote : Does (Wrote P) allocBlock := by
  intro s l r t h
  rcases bind_some h with ⟨e, hn, rfl⟩ | ⟨l₁, b, u, l₂, hn, hrest, rfl⟩
  · exact (allocBlockNum_some hn).1
  · obtain ⟨hsu, hfree⟩ := allocBlockNum_some (P := P) hn
    obtain ⟨m, -, hrest⟩ := read_bind_some hrest
    obtain ⟨l₁, a, v, l₃, hx, hrest, rfl⟩ := bind_ok hrest nofun
    cases hx
    obtain ⟨l₁, q, v, l₄, hx, hend, rfl⟩ := attempt_bind_some hrest
    have hsv := mapBlock_some (hfree b rfl) hsu hx
    cases q with
    | ok a =>
      cases hend
      exact hsv
    | error e =>
      have hdoes : Does (Wrote P) (do
          freeBlock b
          (.fail e : FsProc Nat)) := .bind (composes P) (freeBlock_wrote b) fun _ => .fail (composes P) e
      exact hsv.trans (hdoes v l₄ r t hend)

theorem fsSync_wrote : Does (Wrote P) fsSync := by
  refine .bind (composes P) nblocks_wrote fun n => .each (composes P) (fun b => ?_) _
  refine .bind (composes P) (.bind (composes P) (blockIsMapped_wrote b) fun m => ?_) fun d => ?_
  · split
    · exact .read (composes P) _
    · exact .pure (composes P) _
  · split
    · exact writeBlock_wrote b
    · exact .pure (composes P) _

/-! ### Files -/

/-- What is found as the indirect block is that, at that time. -/
private theorem indirectBlock_some {alloc : Bool} {r : Except Word Nat} (hf : alloc = true → P f)
    (h : indirectBlock f alloc s = some (l, r, t)) :
    s.Changes P t ∧ ∀ b, r = .ok b → ∃ v, s.Changes P v ∧ v.HasIndirect f b ∧ v.Changes P t := by
  obtain ⟨ind, hind, h⟩ := read_bind_some h
  split at h
  · split at h
    · next ha =>
      rcases bind_some h with ⟨e, hx, rfl⟩ | ⟨l₁, b, u, l₂, hx, hrest, rfl⟩
      · exact ⟨allocBlock_wrote s l _ t hx, nofun⟩
      have hsu : s.Changes P u := allocBlock_wrote s _ _ u hx
      obtain ⟨v, hset, l₃, hrest⟩ := setIn_bind_some hrest
      have hsv : s.Changes P v := hsu.trans (.struct (hf ha) (by decide) hset)
      rcases bind_some hrest with ⟨e, hx, rfl⟩ | ⟨l₁, c, x, l₄, hx, hpure, rfl⟩
      · exact ⟨hsv.trans (readBlock_wrote b v _ _ t hx), nofun⟩
      · cases hpure
        have hvt : v.Changes P t := readBlock_wrote b v _ _ t hx
        refine ⟨hsv.trans hvt, ?_⟩
        rintro c ⟨⟩
        exact ⟨v, hsv, setWord?_self hset, hvt⟩
    · cases h
      exact ⟨.refl s, nofun⟩
  · rcases bind_some h with ⟨e, hx, rfl⟩ | ⟨l₁, c, x, l₂, hx, hpure, rfl⟩
    · exact ⟨readBlock_wrote _ s _ _ t hx, nofun⟩
    · cases hpure
      have hst : s.Changes P t := readBlock_wrote _ s _ _ t hx
      refine ⟨hst, ?_⟩
      rintro c ⟨⟩
      refine ⟨s, .refl s, ?_, hst⟩
      unfold HasIndirect
      rw [hind, BitVec.ofNat_toNat, BitVec.setWidth_eq]

private theorem fileBlockWalk_some {alloc : Bool} {filebno : Nat} {r : Except Word (Nat × Nat)} (hf : alloc = true → P f)
    (h : fileBlockWalk f filebno alloc s = some (l, r, t)) :
    s.Changes P t ∧ ∀ p, r = .ok p → PlaceSeen P s t f p := by
  unfold fileBlockWalk at h
  split at h
  · next hlt =>
    cases h
    refine ⟨.refl s, ?_⟩
    rintro p ⟨⟩
    have hlt : filebno < 10 := hlt
    exact .inl ⟨34 + filebno, by omega, by rw [Nat.add_assoc]⟩
  · split at h
    · rcases bind_some h with ⟨e, hx, rfl⟩ | ⟨l₁, b, u, l₂, hx, hpure, rfl⟩
      · exact ⟨(indirectBlock_some hf hx).1, nofun⟩
      · cases hpure
        obtain ⟨hst, hseen⟩ := indirectBlock_some hf hx
        refine ⟨hst, ?_⟩
        rintro p ⟨⟩
        exact .inr (hseen b rfl)
    · cases h
      exact ⟨.refl s, nofun⟩

private theorem fileMapBlock_wrote {alloc : Bool} (hf : alloc = true → P f) (filebno : Nat) :
    Does (Wrote P) (fileMapBlock f filebno alloc) := by
  intro s l r t h
  rcases bind_some h with ⟨e, hx, -⟩ | ⟨l₁, p, u, l₂, hx, hrest, rfl⟩
  · exact (fileBlockWalk_some hf hx).1
  obtain ⟨hsu, hseen⟩ := fileBlockWalk_some hf hx
  have hseen := hseen p rfl
  obtain ⟨w, -, hrest⟩ := read_bind_some hrest
  split at hrest
  · split at hrest
    · next ha =>
      rcases bind_some hrest with ⟨e, hx, -⟩ | ⟨l₁, b, v, l₃, hx, hend, rfl⟩
      · exact hsu.trans (allocBlock_wrote u _ _ t hx)
      have huv : u.Changes P v := allocBlock_wrote u _ _ v hx
      obtain ⟨x, hset, l₄, hend⟩ := setIn_bind_some hend
      cases hend
      exact (hseen.trans huv).set (hf ha) (hsu.trans huv) hset
    · cases hrest
      exact hsu
  · cases hrest
    exact hsu

private theorem fileClearBlock_wrote (hf : P f) (filebno : Nat) : Does (Wrote P) (fileClearBlock f filebno) := by
  intro s l r t h
  have hnot : false = true → P f := nofun
  rcases bind_some h with ⟨e, hx, -⟩ | ⟨l₁, p, u, l₂, hx, hrest, rfl⟩
  · exact (fileBlockWalk_some hnot hx).1
  obtain ⟨hsu, hseen⟩ := fileBlockWalk_some hnot hx
  have hseen := hseen p rfl
  obtain ⟨w, -, hrest⟩ := read_bind_some hrest
  split at hrest
  · cases hrest
    exact hsu
  · rcases bind_some hrest with ⟨e, hx, -⟩ | ⟨l₁, a, v, l₃, hx, hset, rfl⟩
    · exact hsu.trans (freeBlock_wrote _ u _ _ t hx)
    have huv : u.Changes P v := freeBlock_wrote _ u _ _ v hx
    exact (hseen.trans huv).set hf (hsu.trans huv) (setIn_some hset).2

theorem fileGetBlock_wrote (hf : P f) (filebno : Nat) : Does (Wrote P) (fileGetBlock f filebno) :=
  .bind (composes P) (fileMapBlock_wrote (fun _ => hf) filebno) fun b =>
    .bind (composes P) (readBlock_wrote b) fun _ => .pure (composes P) b

theorem fileDirty_wrote (f : FilePtr) (offset : Word) : Does (Wrote P) (fileDirty f offset) :=
  .bind (composes P) (fileMapBlock_wrote nofun _) fun b => dirtyBlock_wrote b

private theorem fileTruncate_wrote (hf : P f) (newsize : Word) : Does (Wrote P) (fileTruncate f newsize) := by
  refine .bind (composes P) (word_wrote _ _) fun size => ?_
  refine .bind (composes P) (.each (composes P) (fun bno => ?_) _) fun _ => ?_
  · exact .bind (composes P) (.attempt (fileClearBlock_wrote hf bno)) fun _ => .pure (composes P) _
  refine .bind (composes P) (.when (composes P) fun _ => ?_) fun _ => setIn_wrote hf (by decide) _
  refine .bind (composes P) (word_wrote _ _) fun ind => ?_
  split
  · exact .pure (composes P) _
  · exact .bind (composes P) (freeBlock_wrote _) fun _ => setIn_wrote hf (by decide) _

private theorem blockIsDirty_wrote (b : Nat) : Does (Wrote P) (blockIsDirty b) := by
  refine .bind (composes P) (blockIsMapped_wrote b) fun m => ?_
  split
  · exact .read (composes P) _
  · exact .pure (composes P) _

private theorem fileFlush_wrote (f : FilePtr) : Does (Wrote P) (fileFlush f) := by
  refine .bind (composes P) (word_wrote _ _) fun size => .each (composes P) (fun bno => ?_) _
  refine .bind (composes P) (.attempt (fileMapBlock_wrote nofun bno)) fun r => ?_
  cases r with
  | error e => exact .pure (composes P) _
  | ok b =>
    refine .bind (composes P) (blockIsDirty_wrote b) fun d => ?_
    split
    · exact writeBlock_wrote b
    · exact .pure (composes P) _

private theorem flushDir_wrote (f : FilePtr) : Does (Wrote P) (flushDir f) := by
  refine .bind (composes P) (word_wrote _ _) fun w => ?_
  split
  · exact .pure (composes P) _
  · split
    · exact fileFlush_wrote _
    · exact .stop

theorem fileSetSize_wrote (hf : P f) (newsize : Word) : Does (Wrote P) (fileSetSize f newsize) := by
  refine .bind (composes P) (word_wrote _ _) fun size => ?_
  refine .bind (composes P) (.when (composes P) fun _ => fileTruncate_wrote hf newsize) fun _ => ?_
  exact .bind (composes P) (setIn_wrote hf (by decide) _) fun _ => flushDir_wrote f

theorem fileClose_wrote (f : FilePtr) : Does (Wrote P) (fileClose f) :=
  .bind (composes P) (fileFlush_wrote f) fun _ => flushDir_wrote f

private theorem clearName_wrote (hf : P f) : Does (Wrote P) (clearName f) :=
  .bind (composes P) (word_wrote _ _) fun _ => setIn_wrote hf (i := 0) (by decide) _

/-! ### Paths -/

/-- A search writes to the directory, and to the file that it finds. -/
private theorem lookupIn_wrote {dir : FilePtr} {name : List Byte} : ∀ {is : List Nat} {s t : Fs} {l : List FsLog}
    {r : Except Word FilePtr}, lookupIn dir name is s = some (l, r, t) → Wrote (fun g => g = dir ∨ r = .ok g) s l t := by
  intro is
  induction is with
  | nil =>
    intro s t l r h
    cases h
    exact (composes _).nil s
  | cons i is ih =>
    intro s t l r h
    rcases bind_some h with ⟨e, hx, -⟩ | ⟨l₁, b, u, l₂, hx, hfind, rfl⟩
    · exact fileGetBlock_wrote (.inl rfl) i s l _ t hx
    refine (composes _).append (fileGetBlock_wrote (.inl rfl) i s l₁ _ u hx) ?_
    obtain ⟨found, -, hfound⟩ := read_bind_some hfind
    cases found with
    | none => exact ih hfound
    | some g =>
      obtain ⟨v, hset, l₃, hpure⟩ := setIn_bind_some hfound
      cases hpure
      exact .struct (.inr rfl) (by decide) hset

private theorem dirLookup_wrote {dir : FilePtr} {name : List Byte} {r : Except Word FilePtr}
    (h : dirLookup dir name s = some (l, r, t)) : Wrote (fun g => g = dir ∨ r = .ok g) s l t := by
  obtain ⟨size, -, h⟩ := read_bind_some h
  exact lookupIn_wrote h

private theorem walkStep_wrote {name : List Byte} {r : Except Word FilePtr} (h : walkStep f name s = some (l, r, t)) :
    Wrote (fun g => g = f ∨ r = .ok g) s l t := by
  unfold walkStep at h
  split at h
  · cases h
    exact (composes _).nil s
  · obtain ⟨w, -, hdir⟩ := read_bind_some h
    split at hdir
    · cases hdir
      exact (composes _).nil s
    · exact dirLookup_wrote hdir

/-- What `walk_path` reaches on the way. -/
def OnWalk (s : Fs) (f : FilePtr) (names : List (List Byte)) (g : FilePtr) : Prop :=
  ∃ front l u, front <+: names ∧ walkFrom f front s = some (l, .ok g, u)

private theorem OnWalk.refl (s : Fs) (f : FilePtr) (names : List (List Byte)) : OnWalk s f names f :=
  ⟨[], [], s, List.nil_prefix, rfl⟩

/-- A walk after its first step. -/
private theorem OnWalk.cons {name : List Byte} {names : List (List Byte)} {g g' : FilePtr}
    (h : walkStep f name s = some (l, .ok g, t)) (hg : OnWalk t g names g') : OnWalk s f (name :: names) g' := by
  obtain ⟨front, l', u, hfront, hwalk⟩ := hg
  exact ⟨name :: front, l ++ l', u, List.cons_prefix_cons.2 ⟨rfl, hfront⟩, bind_of_ok h hwalk⟩

/-- A walk writes to what it reaches. -/
theorem walkFrom_wrote : ∀ {names : List (List Byte)} {f : FilePtr} {s t : Fs} {l : List FsLog}
    {r : Except Word FilePtr}, walkFrom f names s = some (l, r, t) → Wrote (OnWalk s f names) s l t := by
  intro names
  induction names with
  | nil =>
    intro f s t l r h
    cases h
    exact (composes _).nil s
  | cons name names ih =>
    intro f s t l r h
    rcases bind_some h with ⟨e, hstep, -⟩ | ⟨l₁, g, u, l₂, hstep, hwalk, rfl⟩
    · refine (walkStep_wrote hstep).mono ?_
      rintro g (rfl | hg)
      · exact .refl ..
      · cases hg
    · refine (composes _).append ((walkStep_wrote hstep).mono ?_) ((ih hwalk).mono fun g' => .cons hstep)
      rintro g' (rfl | hg)
      · exact .refl ..
      · cases hg
        exact .cons hstep (.refl ..)

theorem fileRemove_wrote {path : List Byte} {r : Except Word Unit} (h : fileRemove path s = some (l, r, t)) :
    Wrote (OnWalk s .root (pathElems path)) s l t := by
  rcases bind_some h with ⟨e, hwalk, -⟩ | ⟨l₁, f, u, l₂, hwalk, hrest, rfl⟩
  · exact walkFrom_wrote hwalk
  · refine (composes _).append (walkFrom_wrote hwalk) ?_
    have hf : OnWalk s .root (pathElems path) f := ⟨_, _, _, List.prefix_rfl, hwalk⟩
    have hdoes : Does (Wrote (OnWalk s .root (pathElems path))) (do
        fileTruncate f 0
        clearName f
        fileFlush f
        flushDir f) :=
      .bind (composes _) (fileTruncate_wrote hf 0) fun _ => .bind (composes _) (clearName_wrote hf) fun _ =>
        .bind (composes _) (fileFlush_wrote f) fun _ => flushDir_wrote f
    exact hdoes u l₂ r t hrest

end FsProc

end Mos
