import Mos.Fs.Frame
import Mos.Fs.OpenTab

/-!
# A request and its reply

A request that the server handles is answered once, and only the entry and the files that it stands for are written to.
-/

namespace Mos

def ServLog.isReply : ServLog → Bool
  | .reply _ _ => true
  | .fs _ => false

namespace Serv

/-- The entry that a request stands for: what `open_alloc` gives, or the one with the id. -/
def ResolvesEntry (s : Serv) : FsReq → Fin MAXOPEN → Prop
  | .open _ _, i => s.openAlloc.2.1 = some i
  | .map fileid _, i => s.openLookup fileid = some i
  | .setSize fileid _, i => s.openLookup fileid = some i
  | .close fileid, i => s.openLookup fileid = some i
  | .dirty fileid _, i => s.openLookup fileid = some i
  | .remove _, _ => False
  | .sync, _ => False
  | .other _, _ => False

/-- The file of the entry with an id. -/
def FileOf (s : Serv) (fileid : Word) (f : FilePtr) : Prop :=
  ∃ i, s.openLookup fileid = some i ∧ (s.opentab i).oFile = some f

/-- The files that a request stands for: those on its path, or the one of its entry. -/
def ResolvesFile (s : Serv) : FsReq → FilePtr → Prop
  | .open path _, f => FsProc.OnWalk s.openAlloc.2.2.fs .root (pathElems path) f
  | .map fileid _, f => s.FileOf fileid f
  | .setSize fileid _, f => s.FileOf fileid f
  | .close fileid, f => s.FileOf fileid f
  | .dirty fileid _, f => s.FileOf fileid f
  | .remove path, f => FsProc.OnWalk s.fs .root (pathElems path) f
  | .sync, _ => False
  | .other _, _ => False

/-- One reply, and only what the request stands for is written to: no other entry, descriptor page or file changes. -/
structure Answered (s : Serv) (req : FsReq) (l : List ServLog) (t : Serv) : Prop where
  reply : l.countP ServLog.isReply = 1
  entry : ∀ i, t.opentab i ≠ s.opentab i ∨ t.ff i ≠ s.ff i → s.ResolvesEntry req i
  file : s.fs.Changes (s.ResolvesFile req) t.fs

end Serv

namespace ServProc

variable {α : Type} {s t : Serv} {l : List ServLog} {r : Except Word Unit} {req : FsReq}

private theorem isReply_answer (page : α → Option ReplyPage) (q : Except Word α) : (answer page q).isReply := by
  cases q <;> rfl

private theorem countP_map_fs (l₀ : List FsLog) : (l₀.map ServLog.fs).countP ServLog.isReply = 0 := by
  rw [List.countP_eq_zero]
  intro o ho
  obtain ⟨o, -, rfl⟩ := List.mem_map.1 ho
  simp [ServLog.isReply]

/-- The reply after a function that only writes to some files. -/
private theorem replyTo_answered {x : FsProc α} {page : α → Option ReplyPage}
    (hx : ∀ l₀ q u, x s.fs = some (l₀, q, u) → s.fs.Changes (s.ResolvesFile req) u)
    (h : replyTo x page s = some (l, r, t)) : s.Answered req l t := by
  obtain ⟨l₀, q, u, hq, rfl, rfl⟩ := replyTo_some h
  have hreply := isReply_answer page q
  constructor
  · rw [List.countP_append, countP_map_fs]
    simp [hreply]
  · rintro i (hi | hi)
    · exact absurd rfl hi
    · exact absurd rfl hi
  · exact hx l₀ q u hq

private theorem withOpen_answered {fileid : Word} {x : FilePtr → FsProc α} {page : α → Option ReplyPage}
    (hx : ∀ f, s.FileOf fileid f → Proc.Does (Wrote (s.ResolvesFile req)) (x f))
    (h : withOpen fileid x page s = some (l, r, t)) : s.Answered req l t := by
  rcases withOpen_some h with ⟨-, rfl, rfl⟩ | ⟨i, f, hi, hf, h⟩
  · constructor
    · rfl
    · rintro i (hi | hi)
      · exact absurd rfl hi
      · exact absurd rfl hi
    · exact .refl t.fs
  · exact replyTo_answered (fun l₀ q u hq => hx f ⟨i, hi, hf⟩ s.fs l₀ q u hq) h

/-- The table after `open_alloc`, apart from its slot. -/
private theorem openAlloc_entry {i : Fin MAXOPEN} (s : Serv)
    (hi : s.openAlloc.2.2.opentab i ≠ s.opentab i ∨ s.openAlloc.2.2.ff i ≠ s.ff i) : s.openAlloc.2.1 = some i := by
  rcases Serv.openAlloc_cases s with ⟨-, h⟩ | ⟨j, mem, -, h⟩
  · rw [h] at hi
    rcases hi with hi | hi
    · exact absurd rfl hi
    · exact absurd rfl hi
  · rw [h] at hi ⊢
    rcases eq_or_ne i j with rfl | hij
    · rfl
    · simp [Serv.taken, Serv.takeSlot, Serv.setOpen, Serv.setFf, Serv.setRef, Function.update_of_ne hij] at hi

/-- `open_alloc` takes memory at most. -/
private theorem openAlloc_changes {P : FilePtr → Prop} (s : Serv) : s.fs.Changes P s.openAlloc.2.2.fs := by
  rcases Serv.openAlloc_cases s with ⟨-, h⟩ | ⟨j, mem, -, h⟩
  · rw [h]
    exact .refl s.fs
  · rw [h]
    exact .mem s.fs mem

private theorem filled_entry {i j : Fin MAXOPEN} {f : FilePtr} {omode : Word} {ws : Fin 64 → Word} {fs : Fs}
    (h : (filled { s with fs := fs } j f omode ws).opentab i ≠ s.opentab i ∨
      (filled { s with fs := fs } j f omode ws).ff i ≠ s.ff i) : i = j := by
  by_contra hij
  simp [filled, Serv.setOpen, Serv.setFf, Function.update_of_ne hij] at h

/-- The opening of a file, if `open_alloc` gives a slot. -/
private theorem serveOpen_answered {path : List Byte} {omode : Word} {junk : Option (Fin MAXOPEN)}
    (halloc : ¬ s.openAlloc.1.slt 0) (h : serveOpen path omode junk s = some (l, r, t)) :
    s.Answered (.open path omode) l t := by
  obtain ⟨l₀, q, u, hwalk, h⟩ := serveOpen_some h
  have hchanges := (openAlloc_changes s).trans (FsProc.walkFrom_wrote hwalk)
  have hnil : allocReply s.openAlloc.1 = [] := if_neg halloc
  rw [hnil] at h
  have hcount (o : ServLog) (ho : o.isReply) : ([] ++ (l₀.map ServLog.fs ++ [o])).countP ServLog.isReply = 1 := by
    rw [List.nil_append, List.countP_append, countP_map_fs]
    simp [ho]
  rcases h with ⟨e, -, rfl, rfl⟩ | ⟨f, i, ws, -, hi, -, rfl, rfl⟩
  · exact ⟨hcount _ rfl, fun i hi => openAlloc_entry s hi, hchanges⟩
  · refine ⟨hcount _ rfl, fun j hj => ?_, hchanges⟩
    by_cases hsame : s.openAlloc.2.2.opentab j ≠ s.opentab j ∨ s.openAlloc.2.2.ff j ≠ s.ff j
    · exact openAlloc_entry s hsame
    · -- an entry that `open_alloc` has left alone is filled in: it is the one that it gave
      push Not at hsame
      rw [← hsame.1, ← hsame.2] at hj
      obtain rfl := filled_entry hj
      rcases Serv.openAlloc_cases s with ⟨hneg, -⟩ | ⟨k, mem, -, hk⟩
      · exact absurd hneg halloc
      · rw [hk] at hi
        show s.openAlloc.2.1 = some j
        rw [hk]
        exact hi

/-- A server on the small disk that has opened `b` for a client, with the root directory in the cache. -/
def servOfB : Serv :=
  ((Serv.init ((Fs.mount FileSys.smallDisk 10).setPage 3 ⟨FileSys.smallDir, false⟩)).setOpen (Serv.slot 1024)
    ⟨some FileSys.fileB, 1024, 1⟩).setRef (Serv.slot 1024) 2

/-- If `open_alloc` gives a negative result, there are two replies. -/
theorem serveOpen_twice {path : List Byte} {omode : Word} {junk : Option (Fin MAXOPEN)} (hneg : s.openAlloc.1.slt 0)
    (h : serveOpen path omode junk s = some (l, r, t)) : l.countP ServLog.isReply = 2 := by
  obtain ⟨l₀, q, u, -, h⟩ := serveOpen_some h
  have hone : allocReply s.openAlloc.1 = [.reply s.openAlloc.1 none] := if_pos hneg
  rw [hone] at h
  have hcount (o o' : ServLog) (ho : o.isReply) (ho' : o'.isReply) :
      ([o] ++ (l₀.map ServLog.fs ++ [o'])).countP ServLog.isReply = 2 := by
    rw [List.countP_append, List.countP_append, countP_map_fs]
    simp [ho, ho']
  rcases h with ⟨e, -, -, rfl⟩ | ⟨f, i, ws, -, -, -, -, rfl⟩
  · exact hcount _ _ rfl rfl
  · exact hcount _ _ rfl rfl

end ServProc

end Mos
