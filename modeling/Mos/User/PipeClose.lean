import Mos.User.Pipe
import Mathlib.Data.Fintype.Card

/-!
# The end of the bytes in a pipe

A reader and some writers, which write and then close their ends.  The tests of the loops, `_pipe_is_closed`, the
transfers and the closes are all steps of their own.  `pipe_read` finds the pipe empty in one step and closed in a later
one; in between the last writer may have written and left.
-/

namespace Mos

/-- A pipe in use and the ends that are open. -/
structure PipeEnds (ι : Type) extends PipeState ι where
  rOpen : Bool
  wOpen : ι → Bool

namespace PipeEnds

open PipeState

variable {ι : Type} [Fintype ι]

/-- `pageref(fd)` for the end that reads. -/
def rRef (s : PipeEnds ι) : Nat := s.rOpen.toNat

/-- `pageref(fd)` for the end that writes. -/
def wRef (s : PipeEnds ι) : Nat := (Finset.univ.filter fun w => s.wOpen w = true).card

/-- `pageref(p)`: every open end maps the pipe. -/
def pipeRef (s : PipeEnds ι) : Nat := s.rRef + s.wRef

/-- `_pipe_is_closed` in `pipe_read`. -/
def rClosed (s : PipeEnds ι) : Bool := s.rRef == s.pipeRef

/-- `_pipe_is_closed` in `pipe_write`. -/
def wClosed (s : PipeEnds ι) : Bool := s.wRef == s.pipeRef

end PipeEnds

/-- What the reader and the writers can do. -/
inductive PipeEvent (ι : Type) where
  | readCall (n : Word)
  | read
  | closeRead
  | writeCall (w : ι) (vbuf : List Byte)
  | write (w : ι)
  | closeWrite (w : ι)

section System

variable {ι : Type} [Fintype ι] [DecidableEq ι]

def PipeEvent.step (s : PipeEnds ι) : PipeEvent ι → Option (PipeEnds ι)
  | .readCall n => if s.rOpen then (s.readCall n).map ({ s with toPipeState := · }) else none
  | .read => (s.readStep s.rClosed).map fun t => { s with toPipeState := t.1 }
  | .closeRead => if s.rOpen ∧ s.reader.isNone then some { s with rOpen := false } else none
  | .writeCall w vbuf => if s.wOpen w then (s.writeCall w vbuf).map ({ s with toPipeState := · }) else none
  | .write w => (s.writeStep w s.wClosed).map ({ s with toPipeState := · })
  | .closeWrite w =>
    if s.wOpen w ∧ (s.writer w).isNone then some { s with wOpen := Function.update s.wOpen w false } else none

/-- A pipe whose ends are all open at first. -/
def pipeClose (ι : Type) [Fintype ι] [DecidableEq ι] : System (PipeEnds ι) (PipeEvent ι) :=
  ⟨(· = ⟨.start, true, fun _ => true⟩), PipeEvent.step⟩

end System

namespace PipeEnds

variable {ι : Type}

/-- What is expected when `pipe_read` returns 0 next. -/
def ReturnOk [Fintype ι] (s : PipeEnds ι) : Prop :=
  ∀ c t, s.reader = some c → c.n ≠ 0 → s.readStep s.rClosed = some (t, some 0) →
    (∀ w, s.wOpen w = false) ∧ s.read = s.written

/-- When `_pipe_is_closed` is about to find the pipe closed, the pipe is still empty. -/
def StillEmpty [Fintype ι] (s : PipeEnds ι) : Prop :=
  ∀ c, s.reader = some c → c.pc = .closed → s.rClosed = true → s.pipe.empty = true

/-- A byte is only written to a pipe that is not full (no other writer has filled it since the test), and `p_wpos` does
not wrap around. -/
def admits (s : PipeEnds ι) : PipeEvent ι → Bool
  | .write w => (s.writer w).any (·.pc == .transfer) → s.pipe.full = false ∧ s.pipe.pWpos + 1 ≠ 0
  | _ => true

/-- `_pipe_is_closed` is right. -/
private theorem rClosed_iff [Fintype ι] {s : PipeEnds ι} : s.rClosed = true ↔ ∀ w, s.wOpen w = false := by
  rw [rClosed, beq_iff_eq, pipeRef]
  constructor
  · intro h w
    have hzero : s.wRef = 0 := by omega
    have hempty := Finset.card_eq_zero.1 hzero
    have hw := Finset.filter_eq_empty_iff.1 hempty (Finset.mem_univ w)
    exact Bool.eq_false_iff.2 hw
  · intro h
    have hzero : s.wRef = 0 := by
      apply Finset.card_eq_zero.2
      exact Finset.filter_eq_empty_iff.2 fun w _ => Bool.eq_false_iff.1 (h w)
    omega

end PipeEnds

/-! ### What the reader knows -/

namespace PipeState

variable {ι : Type}

/-- `pipe_read` goes on to a transfer if there is a byte, and to `_pipe_is_closed` with nothing read. -/
structure CloseInv (s : PipeState ι) : Prop where
  ring : Ring s
  early : s.written.length < 2 ^ 32
  transfer : ∀ c, s.reader = some c → c.pc = .transfer → s.read.length < s.written.length
  closed : ∀ c, s.reader = some c → c.pc = .closed → c.vbuf = [] ∧ c.n ≠ 0

namespace CloseInv

variable {s s' : PipeState ι} {w : ι} {n : Word} {vbuf : List Byte} {closed : Bool} {r : Option Nat}

private theorem start : CloseInv (PipeState.start : PipeState ι) := ⟨.start, Nat.two_pow_pos 32, nofun, nofun⟩

/-- A call that ends or goes back to its test. -/
private theorem setReader_test (h : CloseInv s) {c : Option ReadCall} (hc : ∀ x, c = some x → x.pc = .test) :
    CloseInv (s.setReader c) := by
  refine ⟨h.ring.setReader c, h.early, ?_, ?_⟩
  · intro x hx hpc
    rw [hc x hx] at hpc
    cases hpc
  · intro x hx hpc
    rw [hc x hx] at hpc
    cases hpc

private theorem setWriter [DecidableEq ι] (h : CloseInv s) (c : Option WriteCall) : CloseInv (s.setWriter w c) :=
  ⟨h.ring.setWriter w c, h.early, h.transfer, h.closed⟩

private theorem readCall (h : CloseInv s) (hs : s.readCall n = some s') : CloseInv s' := by
  unfold PipeState.readCall at hs
  split at hs
  · obtain rfl := Option.some.inj hs
    exact h.setReader_test fun x hx => by rw [← Option.some.inj hx]
  · cases hs

private theorem writeCall [DecidableEq ι] (h : CloseInv s) (hs : s.writeCall w vbuf = some s') : CloseInv s' := by
  unfold PipeState.writeCall at hs
  split at hs
  · obtain rfl := Option.some.inj hs
    exact h.setWriter _
  · cases hs

private theorem getByte (h : CloseInv s) (hlt : s.read.length < s.written.length) {c : ReadCall} (hc : c.pc = .test) :
    CloseInv (s.getByte.setReader (some c)) := by
  refine ⟨(h.ring.getByte hlt h.early).setReader _, h.early, ?_, ?_⟩
  · intro x hx hpc
    rw [← Option.some.inj hx, hc] at hpc
    cases hpc
  · intro x hx hpc
    rw [← Option.some.inj hx, hc] at hpc
    cases hpc

private theorem putByte (h : CloseInv s) (hf : s.pipe.full = false) (hwrap : s.pipe.pWpos + 1 ≠ 0) (b : Byte) :
    CloseInv (s.putByte b) := by
  have hlen : (s.putByte b).written.length = s.written.length + 1 := List.length_append
  have hroom := h.ring.room
  have hne : s.written.length ≠ s.read.length + BY2PIPE := by
    intro heq
    rw [h.ring.full_iff.2 heq] at hf
    cases hf
  refine ⟨h.ring.putByte (by omega) b, ?_, ?_, h.closed⟩
  · rw [hlen]
    have hearly := h.early
    have hw := h.ring.wpos
    by_contra hge
    apply hwrap
    apply BitVec.eq_of_toNat_eq
    rw [BitVec.toNat_add, hw]
    show (_ + 1) % 2 ^ 32 = 0
    omega
  · intro c hc hpc
    have hlt := h.transfer c hc hpc
    rw [hlen]
    exact Nat.lt_succ_of_lt hlt

private theorem readStep (h : CloseInv s) (hs : s.readStep closed = some (s', r)) : CloseInv s' := by
  cases readStep_cases hs with
  | wait hc _ hbuf hn =>
    refine ⟨h.ring.setReader _, h.early, ?_, ?_⟩
    · intro x hx hpc
      rw [← Option.some.inj hx] at hpc
      cases hpc
    · intro x hx _
      rw [← Option.some.inj hx]
      exact ⟨hbuf, hn⟩
  | ready hc _ he =>
    refine ⟨h.ring.setReader _, h.early, fun _ _ _ => (h.ring.nonempty he).1, ?_⟩
    intro x hx hpc
    rw [← Option.some.inj hx] at hpc
    cases hpc
  | stop => exact h.setReader_test nofun
  | eof => exact h.setReader_test nofun
  | yield => exact h.setReader_test fun x hx => by rw [← Option.some.inj hx]
  | transfer hc hpc => exact h.getByte (h.transfer _ hc hpc) rfl

private theorem writeStep [DecidableEq ι] (h : CloseInv s) (hs : s.writeStep w closed = some s')
    (hok : (s.writer w).any (·.pc == .transfer) → s.pipe.full = false ∧ s.pipe.pWpos + 1 ≠ 0) : CloseInv s' := by
  cases writeStep_cases hs with
  | ready => exact h.setWriter _
  | other => exact h.setWriter _
  | stuck => exact h
  | @transfer c b rest hc hpc =>
    have hany : (s.writer w).any (·.pc == .transfer) = true := by
      rw [hc]
      simp [hpc]
    exact (h.putByte (hok hany).1 (hok hany).2 b).setWriter _

end CloseInv

end PipeState

namespace PipeEnds

open PipeState (CloseInv)

variable {ι : Type} [Fintype ι] [DecidableEq ι] {s s' : PipeEnds ι}

private theorem closeInv_step {e : PipeEvent ι} (h : CloseInv s.toPipeState) (hok : s.admits e)
    (hs : (pipeClose ι).step s e = some s') : CloseInv s'.toPipeState := by
  change PipeEvent.step s e = some s' at hs
  cases e with
  | readCall n =>
    obtain ⟨_, hs⟩ := Option.ite_none_right_eq_some.1 hs
    obtain ⟨t, ht, rfl⟩ := Option.map_eq_some_iff.1 hs
    exact h.readCall ht
  | read =>
    obtain ⟨t, ht, rfl⟩ := Option.map_eq_some_iff.1 hs
    exact h.readStep ht
  | closeRead =>
    obtain ⟨_, hs⟩ := Option.ite_none_right_eq_some.1 hs
    obtain rfl := Option.some.inj hs
    exact h
  | writeCall w vbuf =>
    obtain ⟨_, hs⟩ := Option.ite_none_right_eq_some.1 hs
    obtain ⟨t, ht, rfl⟩ := Option.map_eq_some_iff.1 hs
    exact h.writeCall ht
  | write w =>
    obtain ⟨t, ht, rfl⟩ := Option.map_eq_some_iff.1 hs
    exact h.writeStep ht (of_decide_eq_true hok)
  | closeWrite w =>
    obtain ⟨_, hs⟩ := Option.ite_none_right_eq_some.1 hs
    obtain rfl := Option.some.inj hs
    exact h

private theorem closeInv (h : (pipeClose ι).Reach (fun s e => s.admits e) s) : CloseInv s.toPipeState := by
  induction h with
  | start h => rw [h]; exact .start
  | next _ hok hs ih => exact closeInv_step ih hok hs

/-- `pipe_read` returns 0 only at the end of the bytes, exactly if a pipe that it finds closed is still empty. -/
theorem returnOk_iff (h : (pipeClose ι).Reach (fun s e => s.admits e) s) : s.ReturnOk ↔ s.StillEmpty := by
  have hinv := closeInv h
  constructor
  · intro hok c hc hpc hcl
    obtain ⟨hbuf, hn⟩ := hinv.closed c hc hpc
    have hstep : s.readStep s.rClosed = some (s.setReader none, some 0) := by
      simp [PipeState.readStep, hc, hpc, ReadCall.isClosed, hcl, hbuf]
    have hall := (hok c _ hc hn hstep).2
    apply (hinv.ring.empty_iff hinv.early).2
    rw [hall]
  · intro hempty c t hc hn hstep
    generalize hr : some 0 = r at hstep
    cases PipeState.readStep_cases hstep with
    | wait => cases hr
    | ready => cases hr
    | yield => cases hr
    | transfer => cases hr
    | @stop c' hc' _ hbuf =>
      obtain rfl := Option.some.inj (hc.symm.trans hc')
      have hnil : c.vbuf = [] := List.eq_nil_of_length_eq_zero (Option.some.inj hr).symm
      rcases hbuf with hbuf | hbuf
      · exact absurd hnil hbuf
      · exact absurd hbuf hn
    | @eof c' hc' hpc hcl =>
      have hlen := (hinv.ring.empty_iff hinv.early).1 (hempty c' hc' hpc hcl)
      exact ⟨rClosed_iff.1 hcl, hinv.ring.isPrefix.eq_of_length hlen.symm⟩

/-- The only writer has left, the byte that it wrote is read, and the reader comes back. -/
theorem returnOk_iff_byte : ∃ s : PipeEnds Unit, s.read = [7] ∧ s.rClosed = true ∧ (s.ReturnOk ↔ s.StillEmpty) := by
  have h : (pipeClose Unit).Reach (fun s e => s.admits e) _ :=
    (System.Reach.start rfl).run (T := pipeClose Unit) (p := admits) (s := ⟨.start, true, fun _ => true⟩)
      (l := [.writeCall () [7], .write (), .write (), .write (), .closeWrite (), .readCall 4, .read, .read, .read,
        .readCall 4, .read]) rfl
  exact ⟨_, rfl, rfl, returnOk_iff h⟩

/-- The writer writes and leaves after the pipe was found empty: the byte is lost. -/
theorem exists_return_early : ∃ s : PipeEnds Unit, (pipeClose Unit).Reach (fun _ _ => True) s ∧ ¬ s.ReturnOk := by
  have h : (pipeClose Unit).Reach (fun _ _ => True) _ :=
    ((System.Reach.start rfl).run (T := pipeClose Unit) (p := fun _ _ => true)
      (s := ⟨.start, true, fun _ => true⟩)
      (l := [.readCall 1, .read, .writeCall () [7], .write (), .write (), .write (), .closeWrite ()]) rfl).mono
        fun _ _ _ => trivial
  refine ⟨_, h, fun hok => ?_⟩
  have hall := (hok ⟨1, [], .closed⟩ _ rfl (by decide) rfl).2
  cases hall

end PipeEnds

end Mos
