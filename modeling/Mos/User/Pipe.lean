import Mos.Kern.Mmu
import Mos.Lib.Ring
import Mos.Lib.Run

/-!
# Pipes (`user/lib/pipe.c`)

The page of a pipe is shared by the environments that read and write it, which run `pipe_read` and `pipe_write` step by
step.  `_pipe_is_closed` is a step of its own; here its result comes from outside.
-/

namespace Mos

def BY2PIPE : Nat := 32

instance : NeZero BY2PIPE := ⟨by decide⟩

/-- `struct Pipe`. -/
structure Pipe where
  pRpos : Word
  pWpos : Word
  pBuf : Fin BY2PIPE → Byte

namespace Pipe

/-- `p_rpos >= p_wpos`, the test of `pipe_read`. -/
def empty (p : Pipe) : Bool := p.pWpos ≤ p.pRpos

/-- `p_wpos - p_rpos >= BY2PIPE`, the test of `pipe_write`. -/
def full (p : Pipe) : Bool := BitVec.ofNat 32 BY2PIPE ≤ p.pWpos - p.pRpos

/-- Where the byte at a position is. -/
def place (pos : Word) : Fin BY2PIPE := Fin.ofNat BY2PIPE pos.toNat

/-- The byte at `p_rpos`. -/
def head (p : Pipe) : Byte := p.pBuf (place p.pRpos)

/-- `p_rpos++`. -/
def get (p : Pipe) : Pipe := { p with pRpos := p.pRpos + 1 }

/-- `p_buf[(p_wpos++) % BY2PIPE] = b`. -/
def put (p : Pipe) (b : Byte) : Pipe :=
  { p with pWpos := p.pWpos + 1, pBuf := Function.update p.pBuf (place p.pWpos) b }

end Pipe

/-! ### The loops -/

/-- What comes next in a loop: its test, `_pipe_is_closed`, or the transfer of a byte. -/
inductive Pc where
  | test
  | closed
  | transfer
  deriving DecidableEq

/-- A call of `pipe_read`: `n`, and `vbuf` up to `i`. -/
structure ReadCall where
  n : Word
  vbuf : List Byte
  pc : Pc

/-- A call of `pipe_write`: `n`, and `vbuf` from `i` on. -/
structure WriteCall where
  n : Nat
  vbuf : List Byte
  pc : Pc

/-- `while (i < n)`, and the test of the inner loop. -/
def ReadCall.test (c : ReadCall) (p : Pipe) : ReadCall ⊕ Nat :=
  if c.vbuf.length < c.n.toNat then
    if p.empty then
      if c.vbuf.length ≠ 0 then .inr c.vbuf.length else .inl { c with pc := .closed }
    else .inl { c with pc := .transfer }
  else .inr c.vbuf.length

/-- `_pipe_is_closed`, and `syscall_yield` if it is not. -/
def ReadCall.isClosed (c : ReadCall) (closed : Bool) : ReadCall ⊕ Nat :=
  if closed then .inr c.vbuf.length else .inl { c with pc := .test }

def ReadCall.transfer (c : ReadCall) (p : Pipe) : ReadCall := { c with vbuf := c.vbuf ++ [p.head], pc := .test }

def WriteCall.test (c : WriteCall) (p : Pipe) : WriteCall ⊕ Nat :=
  if c.vbuf = [] then .inr c.n
  else if p.full then .inl { c with pc := .closed }
  else .inl { c with pc := .transfer }

def WriteCall.isClosed (c : WriteCall) (closed : Bool) : WriteCall ⊕ Nat :=
  if closed then .inr (c.n - c.vbuf.length) else .inl { c with pc := .test }

/-! ### A pipe in use -/

/-- A pipe with one reader and the writers `ι`: the calls that they are in, and all bytes moved so far. -/
structure PipeState (ι : Type) where
  pipe : Pipe
  reader : Option ReadCall
  writer : ι → Option WriteCall
  read : List Byte
  written : List Byte

namespace PipeState

variable {ι : Type}

/-- A new pipe. -/
def start : PipeState ι := ⟨⟨0, 0, fun _ => 0⟩, none, fun _ => none, [], []⟩

def setReader (s : PipeState ι) (c : Option ReadCall) : PipeState ι := { s with reader := c }

def setWriter [DecidableEq ι] (s : PipeState ι) (w : ι) (c : Option WriteCall) : PipeState ι :=
  { s with writer := Function.update s.writer w c }

/-- A byte leaves the pipe. -/
def getByte (s : PipeState ι) : PipeState ι := { s with pipe := s.pipe.get, read := s.read ++ [s.pipe.head] }

/-- A byte enters the pipe. -/
def putByte (s : PipeState ι) (b : Byte) : PipeState ι := { s with pipe := s.pipe.put b, written := s.written ++ [b] }

/-- The next step of `pipe_read`, and what the call returns, if it does. -/
def readStep (s : PipeState ι) (closed : Bool) : Option (PipeState ι × Option Nat) :=
  s.reader.map fun c => match c.pc with
    | .test => match c.test s.pipe with
      | .inl c => (s.setReader (some c), none)
      | .inr r => (s.setReader none, some r)
    | .closed => match c.isClosed closed with
      | .inl c => (s.setReader (some c), none)
      | .inr r => (s.setReader none, some r)
    | .transfer => (s.getByte.setReader (some (c.transfer s.pipe)), none)

/-- The next step of `pipe_write` of `w`. -/
def writeStep [DecidableEq ι] (s : PipeState ι) (w : ι) (closed : Bool) : Option (PipeState ι) :=
  (s.writer w).map fun c => match c.pc with
    | .test => s.setWriter w (c.test s.pipe).getLeft?
    | .closed => s.setWriter w (c.isClosed closed).getLeft?
    | .transfer => match c.vbuf with
      | [] => s
      | b :: rest => (s.putByte b).setWriter w (some ⟨c.n, rest, .test⟩)

/-- A call of `pipe_read`. -/
def readCall (s : PipeState ι) (n : Word) : Option (PipeState ι) :=
  if s.reader.isNone then some (s.setReader (some ⟨n, [], .test⟩)) else none

/-- A call of `pipe_write`, whose `n` is a `u_int`. -/
def writeCall [DecidableEq ι] (s : PipeState ι) (w : ι) (vbuf : List Byte) : Option (PipeState ι) :=
  if (s.writer w).isNone ∧ vbuf.length < 2 ^ 32 then some (s.setWriter w (some ⟨vbuf.length, vbuf, .test⟩)) else none

/-! ### What a step can do -/

/-- What a step of `pipe_read` can do. -/
inductive ReadStep (s : PipeState ι) (closed : Bool) : PipeState ι → Option Nat → Prop
  | wait {c : ReadCall} (hc : s.reader = some c) (hpc : c.pc = .test) (hbuf : c.vbuf = []) (hn : c.n ≠ 0)
      (he : s.pipe.empty = true) : ReadStep s closed (s.setReader (some { c with pc := .closed })) none
  | ready {c : ReadCall} (hc : s.reader = some c) (hpc : c.pc = .test) (he : s.pipe.empty = false) :
      ReadStep s closed (s.setReader (some { c with pc := .transfer })) none
  | stop {c : ReadCall} (hc : s.reader = some c) (hpc : c.pc = .test) (hbuf : c.vbuf ≠ [] ∨ c.n = 0) :
      ReadStep s closed (s.setReader none) (some c.vbuf.length)
  | eof {c : ReadCall} (hc : s.reader = some c) (hpc : c.pc = .closed) (hcl : closed = true) :
      ReadStep s closed (s.setReader none) (some c.vbuf.length)
  | yield {c : ReadCall} (hc : s.reader = some c) (hpc : c.pc = .closed) (hcl : closed = false) :
      ReadStep s closed (s.setReader (some { c with pc := .test })) none
  | transfer {c : ReadCall} (hc : s.reader = some c) (hpc : c.pc = .transfer) :
      ReadStep s closed (s.getByte.setReader (some (c.transfer s.pipe))) none

/-- What a step of `pipe_write` can do. -/
inductive WriteStep [DecidableEq ι] (s : PipeState ι) (w : ι) (closed : Bool) : PipeState ι → Prop
  | ready {c : WriteCall} (hc : s.writer w = some c) (hpc : c.pc = .test) (hbuf : c.vbuf ≠ [])
      (hf : s.pipe.full = false) : WriteStep s w closed (s.setWriter w (some { c with pc := .transfer }))
  | other {c : WriteCall} {c' : Option WriteCall} (hc : s.writer w = some c) (hpc : c.pc ≠ .transfer)
      (hpc' : ∀ x, c' = some x → x.pc ≠ .transfer) : WriteStep s w closed (s.setWriter w c')
  | stuck {c : WriteCall} (hc : s.writer w = some c) (hpc : c.pc = .transfer) (hbuf : c.vbuf = []) : WriteStep s w closed s
  | transfer {c : WriteCall} {b : Byte} {rest : List Byte} (hc : s.writer w = some c) (hpc : c.pc = .transfer)
      (hbuf : c.vbuf = b :: rest) : WriteStep s w closed ((s.putByte b).setWriter w (some ⟨c.n, rest, .test⟩))

variable {s s' : PipeState ι} {closed : Bool} {r : Option Nat} {w : ι}

theorem readStep_cases (h : s.readStep closed = some (s', r)) : ReadStep s closed s' r := by
  obtain ⟨c, hc, h⟩ := Option.map_eq_some_iff.1 h
  cases hpc : c.pc with
  | test =>
    rw [hpc] at h
    dsimp only at h
    unfold ReadCall.test at h
    by_cases hn : c.vbuf.length < c.n.toNat
    · rw [if_pos hn] at h
      cases he : s.pipe.empty with
      | true =>
        rw [he, if_pos rfl] at h
        by_cases hbuf : c.vbuf.length ≠ 0
        · rw [if_pos hbuf] at h
          simp only [Prod.mk.injEq] at h
          obtain ⟨rfl, rfl⟩ := h
          exact .stop hc hpc (.inl fun hnil => hbuf (by rw [hnil]; rfl))
        · rw [if_neg hbuf] at h
          simp only [Prod.mk.injEq] at h
          obtain ⟨rfl, rfl⟩ := h
          have hzero : c.n ≠ 0 := by
            intro hzero
            rw [hzero] at hn
            exact Nat.not_lt_zero _ hn
          exact .wait hc hpc (List.eq_nil_of_length_eq_zero (not_not.1 hbuf)) hzero he
      | false =>
        rw [he, if_neg Bool.false_ne_true] at h
        simp only [Prod.mk.injEq] at h
        obtain ⟨rfl, rfl⟩ := h
        exact .ready hc hpc he
    · rw [if_neg hn] at h
      simp only [Prod.mk.injEq] at h
      obtain ⟨rfl, rfl⟩ := h
      refine .stop hc hpc ?_
      by_cases hbuf : c.vbuf = []
      · right
        rw [hbuf, List.length_nil] at hn
        apply BitVec.eq_of_toNat_eq
        show c.n.toNat = 0
        omega
      · exact .inl hbuf
  | closed =>
    rw [hpc] at h
    dsimp only at h
    unfold ReadCall.isClosed at h
    cases hcl : closed with
    | true =>
      rw [hcl, if_pos rfl] at h
      simp only [Prod.mk.injEq] at h
      obtain ⟨rfl, rfl⟩ := h
      exact .eof hc hpc rfl
    | false =>
      rw [hcl, if_neg Bool.false_ne_true] at h
      simp only [Prod.mk.injEq] at h
      obtain ⟨rfl, rfl⟩ := h
      exact .yield hc hpc rfl
  | transfer =>
    rw [hpc] at h
    simp only [Prod.mk.injEq] at h
    obtain ⟨rfl, rfl⟩ := h
    exact .transfer hc hpc

theorem writeStep_cases [DecidableEq ι] (h : s.writeStep w closed = some s') : WriteStep s w closed s' := by
  obtain ⟨c, hc, h⟩ := Option.map_eq_some_iff.1 h
  cases hpc : c.pc with
  | test =>
    have hne : c.pc ≠ .transfer := by
      rw [hpc]
      exact nofun
    rw [hpc] at h
    dsimp only at h
    obtain rfl := h
    unfold WriteCall.test
    by_cases hbuf : c.vbuf = []
    · rw [if_pos hbuf]
      exact .other hc hne nofun
    · rw [if_neg hbuf]
      cases hf : s.pipe.full with
      | true => exact .other hc hne fun x hx => by obtain rfl := Option.some.inj hx; exact nofun
      | false => exact .ready hc hpc hbuf hf
  | closed =>
    have hne : c.pc ≠ .transfer := by
      rw [hpc]
      exact nofun
    rw [hpc] at h
    dsimp only at h
    obtain rfl := h
    unfold WriteCall.isClosed
    split
    · exact .other hc hne nofun
    · exact .other hc hne fun x hx => by obtain rfl := Option.some.inj hx; exact nofun
  | transfer =>
    rw [hpc] at h
    dsimp only at h
    split at h
    case h_1 hbuf =>
      obtain rfl := h
      exact .stuck hc hpc hbuf
    case h_2 b rest hbuf =>
      obtain rfl := h
      exact .transfer hc hpc hbuf

/-! ### The bytes in the buffer -/

/-- The positions count the bytes that were read and written, modulo `2 ^ 32`, and the buffer has what is in between. -/
structure Ring (s : PipeState ι) : Prop where
  rpos : s.pipe.pRpos.toNat = s.read.length % 2 ^ 32
  wpos : s.pipe.pWpos.toNat = s.written.length % 2 ^ 32
  le : s.read.length ≤ s.written.length
  room : s.written.length ≤ s.read.length + BY2PIPE
  early : s.read.length < 2 ^ 32
  holds : RingHolds s.pipe.pBuf s.read.length s.written.length s.written
  isPrefix : s.read <+: s.written

private theorem place_eq {pos : Word} {k : Nat} (h : pos.toNat = k % 2 ^ 32) : Pipe.place pos = Fin.ofNat BY2PIPE k := by
  apply Fin.ext
  show pos.toNat % 32 = k % 32
  omega

namespace Ring

theorem setReader (h : Ring s) (c : Option ReadCall) : Ring (s.setReader c) :=
  ⟨h.rpos, h.wpos, h.le, h.room, h.early, h.holds, h.isPrefix⟩

theorem setWriter [DecidableEq ι] (h : Ring s) (w : ι) (c : Option WriteCall) : Ring (s.setWriter w c) :=
  ⟨h.rpos, h.wpos, h.le, h.room, h.early, h.holds, h.isPrefix⟩

theorem start : Ring (PipeState.start : PipeState ι) :=
  ⟨rfl, rfl, Nat.le_refl 0, Nat.zero_le _, Nat.two_pow_pos 32, .empty _ _ _, List.nil_prefix⟩

/-- The test of `pipe_write` is exact. -/
theorem full_iff (h : Ring s) : s.pipe.full = true ↔ s.written.length = s.read.length + BY2PIPE := by
  have hw := h.wpos
  have hr := h.rpos
  have hle := h.le
  have hroom := h.room
  have hsub : (s.pipe.pWpos - s.pipe.pRpos).toNat = s.written.length - s.read.length := by
    rw [BitVec.toNat_sub, hw, hr]
    simp only [BY2PIPE] at hroom
    omega
  rw [Pipe.full, decide_eq_true_eq, BitVec.le_def, hsub]
  simp only [BY2PIPE, BitVec.toNat_ofNat] at hroom ⊢
  omega

/-- The test of `pipe_read` is exact before the position for writing wraps around. -/
theorem empty_iff (h : Ring s) (hlt : s.written.length < 2 ^ 32) :
    s.pipe.empty = true ↔ s.written.length = s.read.length := by
  have hw := h.wpos
  have hr := h.rpos
  have hle := h.le
  have he := h.early
  rw [Pipe.empty, decide_eq_true_eq, BitVec.le_def, hw, hr]
  omega

/-- After that the pipe looks empty. -/
theorem empty_late (h : Ring s) (hlt : 2 ^ 32 ≤ s.written.length) : s.pipe.empty = true := by
  have hw := h.wpos
  have hr := h.rpos
  have hroom := h.room
  have he := h.early
  rw [Pipe.empty, decide_eq_true_eq, BitVec.le_def, hw, hr]
  simp only [BY2PIPE] at hroom
  omega

theorem nonempty (h : Ring s) (he : s.pipe.empty = false) :
    s.read.length < s.written.length ∧ s.written.length < 2 ^ 32 := by
  have hlt : s.written.length < 2 ^ 32 := by
    by_contra hge
    rw [h.empty_late (Nat.not_lt.1 hge)] at he
    cases he
  have hle := h.le
  have hne : s.written.length ≠ s.read.length := by
    intro heq
    rw [(h.empty_iff hlt).2 heq] at he
    cases he
  omega

/-- Reading a byte. -/
theorem getByte (h : Ring s) (hlt : s.read.length < s.written.length) (hlate : s.written.length < 2 ^ 32) :
    Ring s.getByte := by
  have hr := h.rpos
  have hlen : s.getByte.read.length = s.read.length + 1 := List.length_append
  have hroom := h.room
  refine ⟨?_, h.wpos, ?_, ?_, ?_, ?_, ?_⟩
  · show (s.pipe.pRpos + 1).toNat = _
    rw [hlen, BitVec.toNat_add, hr]
    simp
  · rw [hlen]
    exact hlt
  · rw [hlen]
    exact le_trans hroom (by omega)
  · rw [hlen]
    omega
  · rw [hlen]
    exact h.holds.get
  · have hhead : s.pipe.head = s.pipe.pBuf (Fin.ofNat BY2PIPE s.read.length) := by
      rw [Pipe.head, place_eq hr]
    show s.read ++ [s.pipe.head] <+: s.written
    rw [hhead]
    exact h.holds.snoc_prefix h.isPrefix rfl hlt

/-- Writing a byte. -/
theorem putByte (h : Ring s) (hf : s.written.length < s.read.length + BY2PIPE) (b : Byte) : Ring (s.putByte b) := by
  have hw := h.wpos
  have hlen : (s.putByte b).written.length = s.written.length + 1 := List.length_append
  have hle := h.le
  refine ⟨h.rpos, ?_, ?_, ?_, h.early, ?_, ?_⟩
  · show (s.pipe.pWpos + 1).toNat = _
    rw [hlen, BitVec.toNat_add, hw]
    simp
  · rw [hlen]
    exact Nat.le_succ_of_le hle
  · rw [hlen]
    exact hf
  · show RingHolds (Function.update s.pipe.pBuf (Pipe.place s.pipe.pWpos) b) _ _ _
    rw [place_eq hw, hlen]
    exact h.holds.put rfl hf
  · exact h.isPrefix.trans (List.prefix_append ..)

end Ring

end PipeState

end Mos
