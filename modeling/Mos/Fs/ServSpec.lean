import Mos.Fs.Serv

/-!
# What the handlers of the file server do

One lemma for each kind of handler: what it does to the server, and what it replies.
-/

namespace Mos

namespace Serv

private theorem freeSlot_ref {s : Serv} {i : Fin MAXOPEN} (h : s.freeSlot = some i) : s.ref i ≤ 1 := by
  unfold freeSlot at h
  have hi := List.find?_some h
  exact of_decide_eq_true hi

/-- The server after `open_alloc` of a slot, with some memory left. -/
def taken (s : Serv) (i : Fin MAXOPEN) (mem : Nat) : Serv :=
  ({ s with fs := { s.fs with mem := mem } }.setRef i 1).takeSlot i

/-- `open_alloc` gives an error, or it takes a slot that no client has. -/
theorem openAlloc_cases (s : Serv) :
    (s.openAlloc.1.slt 0 ∧ s.openAlloc.2 = (none, s)) ∨
      ∃ i mem, s.ref i ≤ 1 ∧
        s.openAlloc = ((s.opentab i).oFileid + BitVec.ofNat 32 MAXOPEN, some i, s.taken i mem) := by
  unfold openAlloc
  cases hi : s.freeSlot with
  | none => exact .inl ⟨show (-E_MAX_OPEN).slt 0 by decide, rfl⟩
  | some i =>
    have hle := freeSlot_ref hi
    have hid (u : Serv) : ((u.takeSlot i).opentab i).oFileid = (u.opentab i).oFileid + BitVec.ofNat 32 MAXOPEN := by
      simp [takeSlot, setOpen, setFf]
    dsimp only
    split_ifs with h0 hm
    · exact .inl ⟨show (-E_NO_MEM).slt 0 by decide, rfl⟩
    · exact .inr ⟨i, _, hle, by rw [hid]; rfl⟩
    · -- the page is there already, and its count stays 1
      have h1 : s.ref i = 1 := by omega
      have hs : s.setRef i 1 = s := by
        unfold setRef
        rw [← h1, Function.update_eq_self]
      refine .inr ⟨i, s.fs.mem, hle, ?_⟩
      rw [hid]
      show _ = (_, some i, (s.setRef i 1).takeSlot i)
      rw [hs]

end Serv

/-- The words of a file in the cache. -/
def Fs.HasWords (s : Fs) (f : FilePtr) (ws : Fin 64 → Word) : Prop :=
  ∃ pg, s.cache f.blk = some pg ∧ ws = fun k : Fin 64 => pg.data (Fin.ofNat 1024 (f.off + k))

namespace ServProc

variable {α : Type} {s t u : Serv} {l : List ServLog} {r : Except Word Unit}

private theorem ofFs_some {x : FsProc α} {q : Except Word α} (h : ofFs x s = some (l, q, t)) :
    ∃ l₀ u, x s.fs = some (l₀, q, u) ∧ t = { s with fs := u } ∧ l = l₀.map .fs := by
  obtain ⟨⟨l₀, q', u⟩, hx, h⟩ := Option.map_eq_some_iff.1 h
  simp only [Prod.mk.injEq] at h
  obtain ⟨rfl, rfl, rfl⟩ := h
  exact ⟨l₀, u, hx, rfl, rfl⟩

private theorem reply_some {w : Word} {page : Option ReplyPage} (h : reply w page s = some (l, r, t)) :
    l = [.reply w page] ∧ t = s := by
  cases h
  exact ⟨rfl, rfl⟩

/-- What is replied after a function of `fs.c`. -/
def answer (page : α → Option ReplyPage) : Except Word α → ServLog
  | .error e => .reply e none
  | .ok a => .reply 0 (page a)

theorem replyTo_some {x : FsProc α} {page : α → Option ReplyPage} (h : replyTo x page s = some (l, r, t)) :
    ∃ l₀ q u, x s.fs = some (l₀, q, u) ∧ t = { s with fs := u } ∧ l = l₀.map .fs ++ [answer page q] := by
  obtain ⟨l₁, q, u, l₂, hx, hr, rfl⟩ := Proc.attempt_bind_some h
  obtain ⟨l₀, v, hx₀, rfl, rfl⟩ := ofFs_some hx
  refine ⟨l₀, q, v, hx₀, ?_⟩
  cases q with
  | error e =>
    obtain ⟨rfl, rfl⟩ := reply_some hr
    exact ⟨rfl, rfl⟩
  | ok a =>
    obtain ⟨rfl, rfl⟩ := reply_some hr
    exact ⟨rfl, rfl⟩

theorem withOpen_some {fileid : Word} {x : FilePtr → FsProc α} {page : α → Option ReplyPage}
    (h : withOpen fileid x page s = some (l, r, t)) :
    (s.openLookup fileid = none ∧ t = s ∧ l = [.reply (-E_INVAL) none]) ∨
      ∃ i f, s.openLookup fileid = some i ∧ (s.opentab i).oFile = some f ∧ replyTo (x f) page s = some (l, r, t) := by
  obtain ⟨l₁, q, u, l₂, hx, hr, rfl⟩ := Proc.attempt_bind_some h
  unfold openLookup at hx
  cases hi : s.openLookup fileid with
  | none =>
    rw [hi] at hx
    cases hx
    obtain ⟨rfl, rfl⟩ := reply_some hr
    exact .inl ⟨rfl, rfl, rfl⟩
  | some i =>
    rw [hi] at hx
    cases hx
    obtain ⟨f, hf, hr⟩ := Proc.read_bind_some hr
    exact .inr ⟨i, f, rfl, hf, hr⟩

/-- The server after the descriptor of a slot is filled in. -/
def filled (s : Serv) (i : Fin MAXOPEN) (f : FilePtr) (omode : Word) (ws : Fin 64 → Word) : Serv :=
  (s.setOpen i { s.opentab i with oFile := some f, oMode := omode }).setFf i ⟨102, omode, (s.opentab i).oFileid, ws⟩

private theorem fillOpen_some {i : Fin MAXOPEN} {f : FilePtr} {omode : Word} (h : fillOpen i f omode s = some (l, r, t)) :
    s.ref i ≠ 0 ∧ (∃ ws, t = filled s i f omode ws ∧ s.fs.HasWords f ws) ∧ l = [.reply 0 (some (.desc i))] := by
  obtain ⟨ws, hws, hrest⟩ := Proc.read_bind_some h
  obtain ⟨v, hv, hreply⟩ := Proc.update_bind_some hrest
  obtain ⟨rfl, rfl⟩ := reply_some hreply
  dsimp only at hv
  split_ifs at hv with h0
  cases hv
  obtain ⟨pg, hpg, rfl⟩ := Option.map_eq_some_iff.1 hws
  exact ⟨h0, ⟨_, rfl, pg, hpg, rfl⟩, rfl⟩

/-- The reply to an error of `open_alloc`. -/
def allocReply (w : Word) : List ServLog := if w.slt 0 then [.reply w none] else []

private theorem openAlloc_some {q : Except Word (Word × Option (Fin MAXOPEN))} (h : openAlloc s = some (l, q, t)) :
    l = [] ∧ q = .ok (s.openAlloc.1, s.openAlloc.2.1) ∧ t = s.openAlloc.2.2 := by
  unfold openAlloc at h
  simp only [Option.some.injEq, Prod.mk.injEq] at h
  exact ⟨h.1.symm, h.2.1.symm, h.2.2.symm⟩

private theorem allocError_some {w : Word} (h : allocError w t = some (l, r, u)) :
    l = allocReply w ∧ r = .ok () ∧ u = t := by
  unfold allocError at h
  unfold allocReply
  split at h
  · next hlt =>
    rw [if_pos hlt]
    cases h
    exact ⟨rfl, rfl, rfl⟩
  · next hlt =>
    rw [if_neg hlt]
    cases h
    exact ⟨rfl, rfl, rfl⟩

theorem serveOpen_some {path : List Byte} {omode : Word} {junk : Option (Fin MAXOPEN)}
    (h : serveOpen path omode junk s = some (l, r, t)) :
    ∃ l₀ q u, FsProc.fileOpen path s.openAlloc.2.2.fs = some (l₀, q, u) ∧
      ((∃ e, q = .error e ∧ t = { s.openAlloc.2.2 with fs := u } ∧
          l = allocReply s.openAlloc.1 ++ (l₀.map .fs ++ [.reply e none])) ∨
        ∃ f i ws, q = .ok f ∧ s.openAlloc.2.1.or junk = some i ∧ (s.openAlloc.2.2.ref i ≠ 0 ∧ u.HasWords f ws) ∧
          t = filled { s.openAlloc.2.2 with fs := u } i f omode ws ∧
          l = allocReply s.openAlloc.1 ++ (l₀.map .fs ++ [.reply 0 (some (.desc i))])) := by
  unfold serveOpen at h
  obtain ⟨l₁, a, v, l₂, ha, hrest, rfl⟩ := Proc.bind_ok h fun l e t h => by
    have hq := (openAlloc_some h).2.1
    cases hq
  have ha := openAlloc_some ha
  generalize s.openAlloc = p at ha ⊢
  obtain ⟨rfl, hq, rfl⟩ := ha
  obtain rfl := Except.ok.inj hq
  obtain ⟨l₁, ⟨⟩, v, l₃, hr, hrest, rfl⟩ := Proc.bind_ok hrest fun l e t h => by
    have hq := (allocError_some h).2.1
    cases hq
  obtain ⟨rfl, -, rfl⟩ := allocError_some hr
  obtain ⟨l₄, q, u, l₅, hx, hend, rfl⟩ := Proc.attempt_bind_some hrest
  obtain ⟨l₀, w, hx₀, rfl, rfl⟩ := ofFs_some hx
  refine ⟨l₀, q, w, hx₀, ?_⟩
  cases q with
  | error e =>
    obtain ⟨rfl, rfl⟩ := reply_some hend
    exact .inl ⟨e, rfl, rfl, rfl⟩
  | ok f =>
    dsimp only at hend
    cases hi : p.2.1.or junk with
    | none =>
      rw [hi] at hend
      cases hend
    | some i =>
      rw [hi] at hend
      obtain ⟨h0, ⟨ws, rfl, hws⟩, rfl⟩ := fillOpen_some hend
      exact .inr ⟨f, i, ws, rfl, rfl, ⟨h0, hws⟩, rfl, rfl⟩

end ServProc

end Mos
