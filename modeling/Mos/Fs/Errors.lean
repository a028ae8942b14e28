import Mos.Fs.ServSpec

/-!
# What the file server answers

An error has a negative number, and no page comes with it; there is a page with the reply to `open`, that of the
descriptor, and with the one to a request for a block.
-/

namespace Mos

/-- The errors of a function are negative. -/
def FsProc.Negative {α : Type} (x : FsProc α) : Prop := Proc.Fails (fun e => e.slt 0 = true) x

namespace FsProc

open Proc (Fails)

variable {E : Word → Prop} {i : Nat}

/-! ### Functions without errors -/

private theorem word_fails (b off : Nat) : Fails E (word b off) := .read _

private theorem nblocks_fails : Fails E nblocks := .bind (word_fails 1 1) fun _ => .pure _

private theorem blockIsMapped_fails (b : Nat) : Fails E (blockIsMapped b) := .read _

private theorem bitmapWord_fails (b : Nat) : Fails E (bitmapWord b) := word_fails _ _

private theorem blockIsFree_fails (b : Nat) : Fails E (blockIsFree b) := by
  refine .bind nblocks_fails fun n => ?_
  split
  · exact .pure _
  · exact .bind (bitmapWord_fails b) fun _ => .pure _

private theorem writeBlock_fails (b : Nat) : Fails E (writeBlock b) := by
  refine .bind (blockIsMapped_fails b) fun m => ?_
  split
  · exact .update _
  · exact .stop

private theorem readBlock_fails (b : Nat) : Fails E (readBlock b) := by
  refine .bind nblocks_fails fun n => ?_
  split
  · exact .stop
  · refine .bind (blockIsFree_fails b) fun free => ?_
    split
    · exact .stop
    · refine .bind (blockIsMapped_fails b) fun m => ?_
      split
      · exact .pure _
      · exact .update _

private theorem freeBlock_fails (b : Nat) : Fails E (freeBlock b) := by
  refine .bind nblocks_fails fun n => ?_
  split
  · exact .pure _
  · exact .bind (bitmapWord_fails b) fun _ => .bind (.update _) fun _ => .write _

private theorem setIn_fails (f : FilePtr) (b off : Nat) (w : Word) : Fails E (setIn f b off w) :=
  .bind (.write _) fun _ => .update _

private theorem flushBlock_fails (f : FilePtr) (i : Nat) : Fails E (flushBlock f i) := by
  refine .attempt_bind (.any _) (fun b => ?_) fun _ _ => .pure _
  refine .bind (.bind (blockIsMapped_fails b) fun m => ?_) fun d => ?_
  · split
    · exact .read _
    · exact .pure _
  · split
    · exact writeBlock_fails b
    · exact .pure _

private theorem fileFlush_fails (f : FilePtr) : Fails E (fileFlush f) :=
  .bind (word_fails _ _) fun _ => .each (flushBlock_fails f) _

private theorem flushDir_fails (f : FilePtr) : Fails E (flushDir f) := by
  refine .bind (word_fails _ _) fun w => ?_
  split
  · exact .pure _
  · cases FilePtr.ofAddr w with
    | some dir => exact fileFlush_fails dir
    | none => exact .stop

theorem fileSetSize_fails (f : FilePtr) (newsize : Word) : Fails E (fileSetSize f newsize) := by
  refine .bind (word_fails _ _) fun size => .bind (.when ?_) fun _ => .bind (setIn_fails _ _ _ _) fun _ => flushDir_fails f
  refine .bind (word_fails _ _) fun _ => .bind (.each (fun i => ?_) _) fun _ => .bind (.when ?_) fun _ =>
    setIn_fails _ _ _ _
  · exact .attempt_bind (.any _) (fun _ => .pure _) fun _ _ => .pure _
  · refine .bind (word_fails _ _) fun ind => ?_
    split
    · exact .pure _
    · exact .bind (freeBlock_fails _) fun _ => setIn_fails _ _ _ _

/-! ### Functions with negative errors -/

private theorem mapBlock_negative (b : Nat) : Negative (mapBlock b) := by
  refine .bind (blockIsMapped_fails b) fun m => ?_
  split
  · exact .pure _
  · refine .bind (.read _) fun full => ?_
    split
    · exact .fail (show (-E_NO_MEM).slt 0 = true by decide)
    · exact .update _

private theorem allocFrom_negative (bs : List Nat) : Negative (allocFrom bs) := by
  induction bs with
  | nil => exact .fail (show (-E_NO_DISK).slt 0 = true by decide)
  | cons b bs ih =>
    refine .bind (bitmapWord_fails b) fun w => ?_
    split
    · exact .bind (.update _) fun _ => .bind (writeBlock_fails _) fun _ => .pure _
    · exact ih

private theorem allocBlock_negative : Negative allocBlock := by
  refine .bind (.bind nblocks_fails fun n => allocFrom_negative _) fun b => ?_
  refine .bind (blockIsMapped_fails b) fun m => .bind (.write _) fun _ => ?_
  refine .attempt_bind (mapBlock_negative b) (fun _ => .pure _) fun e he => ?_
  exact .bind (freeBlock_fails b) fun _ => .fail he

private theorem indirectBlock_negative (f : FilePtr) (alloc : Bool) : Negative (indirectBlock f alloc) := by
  refine .bind (word_fails _ _) fun ind => ?_
  split
  · split
    · exact .bind allocBlock_negative fun b => .bind (setIn_fails _ _ _ _) fun _ => .bind (readBlock_fails b) fun _ => .pure _
    · exact .fail (show (-E_NOT_FOUND).slt 0 = true by decide)
  · exact .bind (readBlock_fails _) fun _ => .pure _

private theorem fileBlockWalk_negative (f : FilePtr) (i : Nat) (alloc : Bool) : Negative (fileBlockWalk f i alloc) := by
  unfold fileBlockWalk
  split
  · exact .pure _
  · split
    · exact .bind (indirectBlock_negative f alloc) fun _ => .pure _
    · exact .fail (show (-E_INVAL).slt 0 = true by decide)

private theorem fileMapBlock_negative (f : FilePtr) (i : Nat) (alloc : Bool) : Negative (fileMapBlock f i alloc) := by
  refine .bind (fileBlockWalk_negative f i alloc) fun p => .bind (word_fails _ _) fun w => ?_
  split
  · split
    · exact .bind allocBlock_negative fun b => .bind (setIn_fails _ _ _ _) fun _ => .pure _
    · exact .fail (show (-E_NOT_FOUND).slt 0 = true by decide)
  · exact .pure _

private theorem fileGetBlock_negative (f : FilePtr) (i : Nat) : Negative (fileGetBlock f i) :=
  .bind (fileMapBlock_negative f i true) fun b => .bind (readBlock_fails b) fun _ => .pure _

/-- There is no such block. -/
private theorem fileGetBlock_high {s t : Fs} {l : List FsLog} (hi : NINDIRECT ≤ i)
    (h : fileGetBlock f i s = some (l, .ok b, t)) :
    False := by
  obtain ⟨l₁, c, u, l₂, hmap, -⟩ := (Proc.bind_some h).resolve_left fun ⟨e, _, he⟩ => by cases he
  obtain ⟨l₃, p, v, l₄, hwalk, -⟩ := (Proc.bind_some hmap).resolve_left fun ⟨e, _, he⟩ => by cases he
  have hdirect : NDIRECT ≤ NINDIRECT := by decide
  unfold fileBlockWalk at hwalk
  rw [if_neg (by omega), if_neg (by omega)] at hwalk
  cases hwalk

private theorem lookupIn_negative (dir : FilePtr) (name : List Byte) (is : List Nat) : Negative (lookupIn dir name is) := by
  induction is with
  | nil => exact .fail (show (-E_NOT_FOUND).slt 0 = true by decide)
  | cons i is ih =>
    refine .bind (fileGetBlock_negative dir i) fun b => .bind (.read _) fun found => ?_
    cases found with
    | some f => exact .bind (setIn_fails _ _ _ _) fun _ => .pure _
    | none => exact ih

private theorem walkStep_negative (f : FilePtr) (name : List Byte) : Negative (walkStep f name) := by
  unfold walkStep
  split
  · exact .fail (show (-E_BAD_PATH).slt 0 = true by decide)
  · refine .bind (word_fails _ _) fun t => ?_
    split
    · exact .fail (show (-E_NOT_FOUND).slt 0 = true by decide)
    · exact .bind (word_fails _ _) fun _ => lookupIn_negative _ _ _

private theorem fileOpen_negative (path : List Byte) : Negative (fileOpen path) := by
  have hwalk (names : List (List Byte)) : ∀ f, Negative (walkFrom f names) := by
    induction names with
    | nil => exact fun f => .pure _
    | cons name names ih => exact fun f => .bind (walkStep_negative f name) ih
  exact hwalk _ _

end FsProc

/-- What is sent for a request. -/
def ServLog.answer : ServLog → Option (Word × Option ReplyPage)
  | .reply r page => some (r, page)
  | .fs _ => none

namespace ServProc

variable {α : Type} {s t : Serv} {l : List ServLog} {r : Except Word Unit} {a : Word × Option ReplyPage}

theorem answer_fs (l₀ : List FsLog) (l : List ServLog) :
    (l₀.map ServLog.fs ++ l).findSome? ServLog.answer = l.findSome? ServLog.answer := by
  induction l₀ with
  | nil => rfl
  | cons o l₀ ih => exact ih

/-- The reply after a function of `fs.c` that has negative errors. -/
private theorem replyTo_reply {x : FsProc α} {page : α → Option ReplyPage} (hx : FsProc.Negative x)
    (h : replyTo x page s = some (l, r, t)) (ha : l.findSome? ServLog.answer = some a) :
    (a.1.slt 0 = true ∧ a.2 = none) ∨ ∃ l₀ v, x s.fs = some (l₀, .ok v, t.fs) ∧ a = (0, page v) := by
  obtain ⟨l₀, q, u, hq, rfl, rfl⟩ := replyTo_some h
  rw [answer_fs] at ha
  cases q with
  | error e =>
    cases ha
    exact .inl ⟨hx _ _ _ _ hq, rfl⟩
  | ok v =>
    cases ha
    exact .inr ⟨l₀, v, hq, rfl⟩

private theorem withOpen_reply {fileid : Word} {x : FilePtr → FsProc α} {page : α → Option ReplyPage}
    (hx : ∀ f, FsProc.Negative (x f)) (h : withOpen fileid x page s = some (l, r, t))
    (ha : l.findSome? ServLog.answer = some a) : (a.1.slt 0 = true ∧ a.2 = none) ∨
      ∃ i f l₀ v, s.openLookup fileid = some i ∧ (s.opentab i).oFile = some f ∧ x f s.fs = some (l₀, .ok v, t.fs) ∧
        a = (0, page v) := by
  rcases withOpen_some h with ⟨-, rfl, rfl⟩ | ⟨i, f, hi, hf, h⟩
  · cases ha
    exact .inl ⟨show (-E_INVAL).slt 0 = true by decide, rfl⟩
  · rcases replyTo_reply (hx f) h ha with hneg | ⟨l₀, v, hv, ha⟩
    · exact .inl hneg
    · exact .inr ⟨i, f, l₀, v, hi, hf, hv, ha⟩

/-- The reply to a request for a block. -/
theorem serveMap_reply {fileid offset : Word} (h : serveMap fileid offset s = some (l, r, t))
    (ha : l.findSome? ServLog.answer = some a) : (a.1.slt 0 = true ∧ a.2 = none) ∨
      ∃ b, a = (0, some (.block b)) ∧ offset.toNat / BY2BLK < NINDIRECT := by
  rcases withOpen_reply (fun f => FsProc.fileGetBlock_negative f _) h ha with hneg | ⟨i, f, l₀, b, -, -, hb, ha⟩
  · exact .inl hneg
  · refine .inr ⟨b, ha, ?_⟩
    by_contra hge
    exact FsProc.fileGetBlock_high (Nat.le_of_not_lt hge) hb

/-- The reply to a request for a descriptor. -/
theorem serveOpen_reply {path : List Byte} {omode : Word} {junk : Option (Fin MAXOPEN)}
    (h : serveOpen path omode junk s = some (l, r, t)) (ha : l.findSome? ServLog.answer = some a) :
    (a.1.slt 0 = true ∧ a.2 = none) ∨ ∃ i, a = (0, some (.desc i)) ∧ s.openAlloc.2.1 = some i ∧
      (t.ff i).fdDevId = 102 ∧ (t.ff i).fdOmode = omode ∧ ∃ f, (t.opentab i).oFile = some f := by
  obtain ⟨l₀, q, u, hopen, h⟩ := serveOpen_some h
  by_cases hneg : s.openAlloc.1.slt 0 = true
  · have hfirst : a = (s.openAlloc.1, none) := by
      have hreply : allocReply s.openAlloc.1 = [.reply s.openAlloc.1 none] := if_pos hneg
      rcases h with ⟨e, -, -, rfl⟩ | ⟨f, i, ws, -, -, -, -, rfl⟩
      · rw [hreply] at ha
        cases ha
        rfl
      · rw [hreply] at ha
        cases ha
        rfl
    rw [hfirst]
    exact .inl ⟨hneg, rfl⟩
  · have hreply : allocReply s.openAlloc.1 = [] := if_neg hneg
    rcases h with ⟨e, rfl, -, rfl⟩ | ⟨f, i, ws, -, hi, -, rfl, rfl⟩
    · rw [hreply, List.nil_append, answer_fs] at ha
      cases ha
      exact .inl ⟨FsProc.fileOpen_negative path _ _ _ _ hopen, rfl⟩
    · rw [hreply, List.nil_append, answer_fs] at ha
      cases ha
      refine .inr ⟨i, rfl, ?_, ?_, ?_, f, ?_⟩
      · rcases Serv.openAlloc_cases s with ⟨hneg', -⟩ | ⟨j, mem, -, h⟩
        · exact absurd hneg' hneg
        · rw [h] at hi ⊢
          exact hi
      · simp [filled, Serv.setFf]
      · simp [filled, Serv.setFf]
      · simp [filled, Serv.setFf, Serv.setOpen]

/-- Every other request only concerns the files. -/
theorem serve_fs {junk : Option (Fin MAXOPEN)} {req : FsReq} (hreq : ∀ path omode, req ≠ .open path omode)
    (h : serve junk req s = some (l, r, t)) : ∃ u, t = { s with fs := u } := by
  have hreply {β : Type} {x : FsProc β} {page : β → Option ReplyPage} (h : replyTo x page s = some (l, r, t)) :
      ∃ u, t = { s with fs := u } := by
    obtain ⟨l₀, q, u, -, rfl, -⟩ := replyTo_some h
    exact ⟨u, rfl⟩
  have hopen {β : Type} {fileid : Word} {x : FilePtr → FsProc β} {page : β → Option ReplyPage}
      (h : withOpen fileid x page s = some (l, r, t)) : ∃ u, t = { s with fs := u } := by
    rcases withOpen_some h with ⟨-, rfl, -⟩ | ⟨i, f, -, -, h⟩
    · exact ⟨t.fs, rfl⟩
    · exact hreply h
  cases req with
  | «open» path omode => exact absurd rfl (hreq path omode)
  | map fileid offset => exact hopen h
  | setSize fileid size => exact hopen h
  | close fileid => exact hopen h
  | dirty fileid offset => exact hopen h
  | remove path => exact hreply h
  | sync => exact hreply h
  | other code =>
    cases h
    exact ⟨s.fs, rfl⟩

end ServProc

end Mos
