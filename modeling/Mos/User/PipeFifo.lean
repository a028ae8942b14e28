import Mos.User.Pipe

/-!
# First in, first out

One reader and one writer.  A step is one evaluation of a loop test and, if that passes, the transfer of a byte.  The
bytes come out in order; but the test of `pipe_read` compares the positions, and once `p_wpos` has wrapped around it
finds the pipe empty for ever.
-/

namespace Mos

namespace PipeState

variable {ι : Type}

/-- A step of `pipe_read`: a test that passes goes on to the transfer. -/
def readOnce (s : PipeState ι) (closed : Bool) : Option (PipeState ι) :=
  (s.readStep closed).bind fun t =>
    if t.1.reader.any (·.pc == .transfer) then (t.1.readStep closed).map (·.1) else some t.1

/-- A step of `pipe_write`. -/
def writeOnce [DecidableEq ι] (s : PipeState ι) (w : ι) (closed : Bool) : Option (PipeState ι) :=
  (s.writeStep w closed).bind fun t =>
    if (t.writer w).any (·.pc == .transfer) then t.writeStep w closed else some t

end PipeState

/-- What a reader and a writer can do. -/
inductive FifoEvent where
  | readCall (n : Word)
  | read (closed : Bool)
  | writeCall (vbuf : List Byte)
  | write (closed : Bool)

def FifoEvent.step (s : PipeState Unit) : FifoEvent → Option (PipeState Unit)
  | .readCall n => s.readCall n
  | .read closed => s.readOnce closed
  | .writeCall vbuf => s.writeCall () vbuf
  | .write closed => s.writeOnce () closed

/-- A pipe with one reader and one writer. -/
def pipeFifo : System (PipeState Unit) FifoEvent := ⟨(· = .start), FifoEvent.step⟩

/-- What is expected of a pipe. -/
structure FifoOk (s : PipeState Unit) : Prop where
  le : s.read.length ≤ s.written.length
  bound : s.written.length ≤ s.read.length + BY2PIPE
  isPrefix : s.read <+: s.written
  nonempty : s.read.length < s.written.length → s.pipe.empty = false
  room : s.written.length < s.read.length + BY2PIPE → s.pipe.full = false

namespace PipeState

variable {ι : Type} {s s' : PipeState ι} {closed : Bool} {w : ι}

/-! ### One step -/

private theorem any_eq_false {c : Option ReadCall} (h : ∀ x, c = some x → x.pc ≠ .transfer) :
    c.any (·.pc == .transfer) = false := by
  cases c with
  | none => rfl
  | some x => simpa using h x rfl

private theorem any_eq_false' {c : Option WriteCall} (h : ∀ x, c = some x → x.pc ≠ .transfer) :
    c.any (·.pc == .transfer) = false := by
  cases c with
  | none => rfl
  | some x => simpa using h x rfl

/-- A step of `pipe_read` leaves the bytes alone, or takes one out of a pipe that is not empty. -/
private theorem readOnce_cases (hpc : ∀ c, s.reader = some c → c.pc ≠ .transfer) (h : s.readOnce closed = some s') :
    (∃ c, s' = s.setReader c ∧ ∀ x, c = some x → x.pc ≠ .transfer) ∨
      ∃ c, s.pipe.empty = false ∧ s' = s.getByte.setReader (some c) ∧ c.pc = .test := by
  obtain ⟨⟨t, r⟩, ht, h⟩ := Option.bind_eq_some_iff.1 h
  have hidle : ∀ c, t = s.setReader c → (∀ x, c = some x → x.pc ≠ .transfer) → s' = s.setReader c := by
    intro c htc hx
    have hany : t.reader.any (·.pc == .transfer) = false := by
      rw [htc]
      exact any_eq_false hx
    rw [hany, if_neg Bool.false_ne_true] at h
    exact (Option.some.inj h).symm.trans htc
  have hone : ∀ c : ReadCall, c.pc ≠ .transfer → ∀ x, some c = some x → x.pc ≠ .transfer := by
    intro c hne x hx
    rw [← Option.some.inj hx]
    exact hne
  cases readStep_cases ht with
  | wait => exact .inl ⟨_, hidle _ rfl (hone _ nofun), hone _ nofun⟩
  | stop => exact .inl ⟨_, hidle _ rfl nofun, nofun⟩
  | eof => exact .inl ⟨_, hidle _ rfl nofun, nofun⟩
  | yield => exact .inl ⟨_, hidle _ rfl (hone _ nofun), hone _ nofun⟩
  | @ready c hc _ he =>
    right
    have hst : (s.setReader (some { c with pc := .transfer })).readStep closed =
        some (s.getByte.setReader (some ⟨c.n, c.vbuf ++ [s.pipe.head], .test⟩), none) := rfl
    change (if true = true then _ else _) = _ at h
    rw [if_pos rfl] at h
    dsimp only at h
    rw [hst] at h
    exact ⟨_, he, (Option.some.inj h).symm, rfl⟩
  | transfer hc hpc' => exact absurd hpc' (hpc _ hc)

private theorem setWriter_setWriter [DecidableEq ι] (c c' : Option WriteCall) :
    (s.setWriter w c).setWriter w c' = s.setWriter w c' := by
  unfold setWriter
  rw [Function.update_idem]

/-- A step of `pipe_write` leaves the bytes alone, or puts one into a pipe that is not full. -/
private theorem writeOnce_cases [DecidableEq ι] (hpc : ∀ c, s.writer w = some c → c.pc ≠ .transfer)
    (h : s.writeOnce w closed = some s') :
    (∃ c, s' = s.setWriter w c ∧ ∀ x, c = some x → x.pc ≠ .transfer) ∨
      ∃ b c, s.pipe.full = false ∧ s' = (s.putByte b).setWriter w (some c) ∧ c.pc = .test := by
  obtain ⟨t, ht, h⟩ := Option.bind_eq_some_iff.1 h
  cases writeStep_cases ht with
  | @other c c' _ _ hpc' =>
    have hany : ((s.setWriter w c').writer w).any (·.pc == .transfer) = false := by
      show (Function.update s.writer w c' w).any _ = _
      rw [Function.update_self]
      exact any_eq_false' hpc'
    rw [hany, if_neg Bool.false_ne_true] at h
    exact .inl ⟨_, (Option.some.inj h).symm, hpc'⟩
  | @ready c hc _ hbuf hf =>
    have hw : (s.setWriter w (some { c with pc := .transfer })).writer w = some { c with pc := .transfer } :=
      Function.update_self ..
    rw [if_pos (by rw [hw]; rfl)] at h
    have hpc' : ∀ x, some { c with pc := Pc.transfer } = some x → x.pc = .transfer := by
      intro x hx
      rw [← Option.some.inj hx]
    cases writeStep_cases h with
    | ready hx hpcx => exact absurd (hpc' _ (hw.symm.trans hx)) (by rw [hpcx]; exact nofun)
    | other hx hpcx => exact absurd (hpc' _ (hw.symm.trans hx)) hpcx
    | stuck hx _ hnil =>
      rw [hw] at hx
      obtain rfl := Option.some.inj hx
      exact absurd hnil hbuf
    | @transfer x b rest hx _ hcons =>
      right
      refine ⟨b, ⟨x.n, rest, .test⟩, hf, ?_, rfl⟩
      exact setWriter_setWriter (s := s.putByte b) ..
  | stuck hc hpc' => exact absurd hpc' (hpc _ hc)
  | transfer hc hpc' => exact absurd hpc' (hpc _ hc)

/-! ### Steps that are sure -/

private theorem readOnce_byte {n : Word} {vbuf : List Byte} (hr : s.reader = some ⟨n, vbuf, .test⟩)
    (hn : vbuf.length < n.toNat) (he : s.pipe.empty = false) :
    s.readOnce closed = some (s.getByte.setReader (some ⟨n, vbuf ++ [s.pipe.head], .test⟩)) := by
  simp [readOnce, readStep, ReadCall.test, ReadCall.transfer, PipeState.setReader, PipeState.getByte, hr, hn, he]

private theorem readOnce_stop {n : Word} {vbuf : List Byte} (hr : s.reader = some ⟨n, vbuf, .test⟩)
    (hn : n.toNat ≤ vbuf.length) : s.readOnce closed = some (s.setReader none) := by
  simp [readOnce, readStep, ReadCall.test, PipeState.setReader, hr, Nat.not_lt.2 hn]

private theorem writeOnce_byte [DecidableEq ι] {n : Nat} {b : Byte} {rest : List Byte}
    (hw : s.writer w = some ⟨n, b :: rest, .test⟩) (hf : s.pipe.full = false) :
    s.writeOnce w closed = some ((s.putByte b).setWriter w (some ⟨n, rest, .test⟩)) := by
  simp [writeOnce, writeStep, WriteCall.test, PipeState.setWriter, PipeState.putByte, hw, hf]

private theorem writeOnce_stop [DecidableEq ι] {n : Nat} (hw : s.writer w = some ⟨n, [], .test⟩) :
    s.writeOnce w closed = some (s.setWriter w none) := by
  simp [writeOnce, writeStep, WriteCall.test, PipeState.setWriter, hw]

/-! ### Every run -/

/-- No call is between the test and the transfer when a step is over. -/
structure FifoInv (s : PipeState Unit) : Prop where
  ring : Ring s
  reader : ∀ c, s.reader = some c → c.pc ≠ .transfer
  writer : ∀ c, s.writer () = some c → c.pc ≠ .transfer

namespace FifoInv

variable {s s' : PipeState Unit} {n : Word} {vbuf : List Byte}

private theorem start : FifoInv PipeState.start := ⟨.start, nofun, nofun⟩

private theorem setReader (h : FifoInv s) {c : Option ReadCall} (hc : ∀ x, c = some x → x.pc ≠ .transfer) :
    FifoInv (s.setReader c) := ⟨h.ring.setReader c, hc, h.writer⟩

private theorem setWriter (h : FifoInv s) {c : Option WriteCall} (hc : ∀ x, c = some x → x.pc ≠ .transfer) :
    FifoInv (s.setWriter () c) := by
  refine ⟨h.ring.setWriter () c, h.reader, fun x hx => hc x ?_⟩
  change Function.update s.writer () c () = some x at hx
  rw [Function.update_self] at hx
  exact hx

private theorem getByte (h : FifoInv s) (he : s.pipe.empty = false) : FifoInv s.getByte := by
  have hne := h.ring.nonempty he
  exact ⟨h.ring.getByte hne.1 hne.2, h.reader, h.writer⟩

private theorem putByte (h : FifoInv s) (hf : s.pipe.full = false) (b : Byte) : FifoInv (s.putByte b) := by
  refine ⟨h.ring.putByte ?_ b, h.reader, h.writer⟩
  have hroom := h.ring.room
  have hne : s.written.length ≠ s.read.length + BY2PIPE := by
    intro heq
    rw [h.ring.full_iff.2 heq] at hf
    cases hf
  omega

private theorem readCall (h : FifoInv s) (hs : s.readCall n = some s') : FifoInv s' := by
  unfold PipeState.readCall at hs
  split at hs
  · obtain rfl := Option.some.inj hs
    exact h.setReader fun x hx => by rw [← Option.some.inj hx]; exact nofun
  · cases hs

private theorem writeCall (h : FifoInv s) (hs : s.writeCall () vbuf = some s') : FifoInv s' := by
  unfold PipeState.writeCall at hs
  split at hs
  · obtain rfl := Option.some.inj hs
    exact h.setWriter fun x hx => by rw [← Option.some.inj hx]; exact nofun
  · cases hs

private theorem step {e : FifoEvent} (h : FifoInv s) (hs : pipeFifo.step s e = some s') : FifoInv s' := by
  cases e with
  | readCall n => exact h.readCall hs
  | writeCall vbuf => exact h.writeCall hs
  | read closed =>
    rcases readOnce_cases h.reader hs with ⟨c, rfl, hc⟩ | ⟨c, he, rfl, hc⟩
    · exact h.setReader hc
    · exact (h.getByte he).setReader fun x hx => by rw [← Option.some.inj hx, hc]; exact nofun
  | write closed =>
    rcases writeOnce_cases h.writer hs with ⟨c, rfl, hc⟩ | ⟨b, c, hf, rfl, hc⟩
    · exact h.setWriter hc
    · exact (h.putByte hf b).setWriter fun x hx => by rw [← Option.some.inj hx, hc]; exact nofun

end FifoInv

private theorem fifoInv {s : PipeState Unit} (h : pipeFifo.Reach (fun _ _ => True) s) : FifoInv s := by
  induction h with
  | start h => rw [h]; exact .start
  | next _ _ hs ih => exact ih.step hs

end PipeState

open PipeState

/-- A pipe is a queue as long as `p_wpos` has not wrapped around, and no longer. -/
theorem fifo_iff {s : PipeState Unit} (h : pipeFifo.Reach (fun _ _ => True) s) :
    FifoOk s ↔ s.written.length < 2 ^ 32 := by
  have hr := (fifoInv h).ring
  constructor
  · intro hok
    by_contra hge
    have hearly := hr.early
    have hne := hok.nonempty (by omega)
    rw [hr.empty_late (by omega)] at hne
    cases hne
  · intro hlt
    refine ⟨hr.le, hr.room, hr.isPrefix, ?_, ?_⟩
    · intro hlen
      rw [Bool.eq_false_iff]
      intro he
      rw [(hr.empty_iff hlt).1 he] at hlen
      exact Nat.lt_irrefl _ hlen
    · intro hlen
      rw [Bool.eq_false_iff]
      intro hf
      rw [hr.full_iff.1 hf] at hlen
      exact Nat.lt_irrefl _ hlen

/-- One byte passes. -/
theorem fifo_iff_byte : ∃ s : PipeState Unit, s.read = [7] ∧ (FifoOk s ↔ s.written.length < 2 ^ 32) := by
  have h : pipeFifo.Reach (fun _ _ => True) _ :=
    ((System.Reach.start rfl).run (T := pipeFifo) (p := fun _ _ => true) (s := .start)
      (l := [.writeCall [7], .write false, .readCall 4, .read false]) rfl).mono fun _ _ _ => trivial
  exact ⟨_, rfl, fifo_iff h⟩

/-! ### A long run -/

namespace PipeState

variable {s : PipeState Unit} {k : Nat}

/-- Nothing is in the pipe after `k` bytes, and nobody uses it. -/
structure Idle (k : Nat) (s : PipeState Unit) : Prop where
  reached : pipeFifo.Reach (fun _ _ => True) s
  reader : s.reader = none
  writer : s.writer () = none
  read : s.read.length = k
  written : s.written.length = k

private theorem Idle.start : Idle 0 PipeState.start := ⟨.start rfl, rfl, rfl, rfl, rfl⟩

/-- A byte can be written to an idle pipe. -/
private theorem Idle.write (h : Idle k s) (b : Byte) :
    pipeFifo.Reach (fun _ _ => True) ((s.putByte b).setWriter () (some ⟨1, [], .test⟩)) := by
  have hf : s.pipe.full = false := by
    rw [Bool.eq_false_iff]
    intro hf
    have hlen := (fifoInv h.reached).ring.full_iff.1 hf
    rw [h.read, h.written] at hlen
    simp only [BY2PIPE] at hlen
    omega
  have hcall : pipeFifo.step s (.writeCall [b]) = some (s.setWriter () (some ⟨1, [b], .test⟩)) := by
    change s.writeCall () [b] = _
    unfold PipeState.writeCall
    rw [h.writer]
    rfl
  have hbyte : (s.setWriter () (some ⟨1, [b], .test⟩)).writeOnce () false = _ := writeOnce_byte rfl hf
  exact .next (e := .write false) (.next h.reached trivial hcall) trivial hbyte

/-- And it can be read again. -/
private theorem Idle.next (h : Idle k s) (hk : k + 1 < 2 ^ 32) (b : Byte) : ∃ s', Idle (k + 1) s' := by
  have hstop : ((s.putByte b).setWriter () (some ⟨1, [], .test⟩)).writeOnce () false = _ := writeOnce_stop rfl
  rw [setWriter_setWriter] at hstop
  have ht := System.Reach.next (e := FifoEvent.write false) (h.write b) trivial hstop
  have hcall : pipeFifo.step ((s.putByte b).setWriter () none) (.readCall 1) =
      some (((s.putByte b).setWriter () none).setReader (some ⟨1, [], .test⟩)) := by
    change PipeState.readCall _ _ = _
    unfold PipeState.readCall
    rw [if_pos]
    show s.reader.isNone = true
    rw [h.reader]
    rfl
  have hu := System.Reach.next ht trivial hcall
  have hread : s.read.length = k := h.read
  have hwritten : (s.putByte b).written.length = k + 1 := by
    rw [← h.written]
    exact List.length_append
  have he : (s.putByte b).pipe.empty = false := by
    rw [Bool.eq_false_iff]
    intro he
    have hlen : (s.putByte b).written.length = s.read.length :=
      ((fifoInv hu).ring.empty_iff (lt_of_eq_of_lt hwritten hk)).1 he
    omega
  have hbyte : (((s.putByte b).setWriter () none).setReader (some ⟨1, [], .test⟩)).readOnce false = _ :=
    readOnce_byte rfl (by decide) he
  have hv := System.Reach.next (e := FifoEvent.read false) hu trivial hbyte
  have hend : ∀ (t : PipeState Unit) (x : Byte), t.reader = some ⟨1, [x], .test⟩ →
      pipeFifo.step t (.read false) = some (t.setReader none) := fun t x ht => readOnce_stop ht (Nat.le_refl 1)
  have hlast := System.Reach.next hv trivial (hend _ _ rfl)
  refine ⟨_, hlast, rfl, rfl, ?_, hwritten⟩
  show (s.read ++ [_]).length = _
  rw [List.length_append, hread]
  rfl

private theorem exists_idle (hk : k < 2 ^ 32) : ∃ s, Idle k s := by
  induction k with
  | zero => exact ⟨_, .start⟩
  | succ k ih =>
    obtain ⟨s, hs⟩ := ih (by omega)
    exact hs.next hk 0

end PipeState

/-- After `2 ^ 32` bytes the last of them stays in the pipe. -/
theorem exists_fifo_stuck : ∃ s, pipeFifo.Reach (fun _ _ => True) s ∧ ¬ FifoOk s := by
  obtain ⟨s, hs⟩ := exists_idle (k := 2 ^ 32 - 1) (by decide)
  refine ⟨_, hs.write 0, fun hok => ?_⟩
  have hwritten : (s.putByte 0).written.length = 2 ^ 32 := by
    have hlen : (s.putByte 0).written.length = s.written.length + 1 := List.length_append
    rw [hlen, hs.written]
    rfl
  have hread : (s.putByte 0).read.length = 2 ^ 32 - 1 := hs.read
  have hne : (s.putByte 0).pipe.empty = false := hok.nonempty (by
    show (s.putByte 0).read.length < (s.putByte 0).written.length
    rw [hread, hwritten]
    decide)
  have he : (s.putByte 0).pipe.empty = true :=
    (fifoInv (hs.write 0)).ring.empty_late (Nat.le_of_eq hwritten.symm)
  rw [he] at hne
  cases hne

end Mos
