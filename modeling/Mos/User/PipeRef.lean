import Mos.Kern.State
import Mos.Lib.Run
import Mathlib.Data.Fintype.Prod
import Mathlib.Data.List.FinRange

/-!
# When a pipe looks closed (`user/lib/pipe.c`, `fd.c`, `fork.c`, `spawn.c`)

An open end of a pipe is a descriptor: its `Fd` page is shared by all descriptors for this end, and its first page of
data, the pipe, by those for both ends.  `_pipe_is_closed` compares the reference counts of the two pages.  `close`,
`dup`, `fork` and `spawn` change the counts with one system call after the other.
-/

namespace Mos

abbrev MAXFD : Nat := 32
def FILEBASE : Word := 0x60000000
def FDTABLE : Word := FILEBASE - PDMAP

/-- A page of a descriptor: the one at `INDEX2FD`, or the first one at `INDEX2DATA`. -/
inductive FdVa where
  | fd (i : Fin MAXFD)
  | data (i : Fin MAXFD)
  deriving DecidableEq

/-- The addresses of the pages in the order of `fork` and `spawn`: `FDTABLE` is below `FILEBASE`. -/
def FdVa.all : List FdVa := (List.finRange MAXFD).map .fd ++ (List.finRange MAXFD).map .data

/-- The ends of the pipe. -/
inductive PipeEnd where
  | rd
  | wr
  deriving DecidableEq

def PipeEnd.opposite : PipeEnd → PipeEnd
  | .rd => .wr
  | .wr => .rd

/-- A page that is mapped: the `Fd` page of an end, the pipe, or some other one. -/
inductive FdPage where
  | fd (side : PipeEnd)
  | pipe
  | other (n : Nat)
  deriving DecidableEq

/-- What an environment is doing; the next step is a system call. -/
inductive FdOp (ι : Type) where
  /-- `close`: `pipe_close` is about to unmap the `Fd` page, and then the data; `dup` goes on with the old descriptor. -/
  | closeFd (i : Fin MAXFD) (old : Option (Fin MAXFD))
  | closeData (i : Fin MAXFD) (old : Option (Fin MAXFD))
  /-- `dup` is about to map the data, and then the `Fd` page. -/
  | dupData (old new : Fin MAXFD)
  | dupFd (old new : Fin MAXFD)
  /-- `fork` or `spawn`, with the pages that the child does not have yet. -/
  | copy (spawn : Bool) (child : ι) (left : List FdVa)

/-- The descriptors of all environments. -/
structure FdState (ι : Type) where
  map : ι → FdVa → Option FdPage
  status : ι → EnvStatus
  op : ι → Option (FdOp ι)

/-- A call of one of the functions, or the next system call of one; `ok` is false if there is no memory for it. -/
inductive FdEvent (ι : Type) where
  | close (e : ι) (i : Fin MAXFD)
  | dup (e : ι) (old new : Fin MAXFD)
  | copy (e : ι) (spawn : Bool) (child : ι)
  | syscall (e : ι) (ok : Bool)

namespace FdState

variable {ι : Type} [DecidableEq ι]

def setMap (s : FdState ι) (e : ι) (va : FdVa) (p : Option FdPage) : FdState ι :=
  { s with map := Function.update s.map e (Function.update (s.map e) va p) }

def setOp (s : FdState ι) (e : ι) (o : Option (FdOp ι)) : FdState ι := { s with op := Function.update s.op e o }

def setStatus (s : FdState ι) (e : ι) (st : EnvStatus) : FdState ι :=
  { s with status := Function.update s.status e st }

/-- `sys_env_destroy`. -/
def destroy (s : FdState ι) (e : ι) : FdState ι :=
  { s with map := Function.update s.map e fun _ => none, status := Function.update s.status e .FREE }

/-- `e` runs and is in none of the functions. -/
def idle (s : FdState ι) (e : ι) : Bool := s.status e == .RUNNABLE && (s.op e).isNone

/-- `close`, if `fd_lookup` finds the descriptor. -/
def close (s : FdState ι) (e : ι) (i : Fin MAXFD) : Option (FdState ι) :=
  if s.idle e ∧ (s.map e (.fd i)).isSome then some (s.setOp e (some (.closeFd i none))) else none

/-- `dup`, if `fd_lookup` finds the old descriptor; `close` of the new one does nothing if that is not open. -/
def dup (s : FdState ι) (e : ι) (old new : Fin MAXFD) : Option (FdState ι) :=
  if s.idle e ∧ (s.map e (.fd old)).isSome then
    some (s.setOp e (some (if (s.map e (.fd new)).isSome then .closeFd new (some old) else .dupData old new)))
  else none

/-- `syscall_exofork`, in `fork` or `spawn`. -/
def copy (s : FdState ι) (e : ι) (spawn : Bool) (c : ι) : Option (FdState ι) :=
  if s.idle e ∧ s.status c = .FREE then
    some ((s.setStatus c .NOT_RUNNABLE).setOp e (some (.copy spawn c FdVa.all)))
  else none

/-- The next page for a child.  `duppage` does not look at the result of `syscall_mem_map`; `spawn` destroys the child if
that fails. -/
def share (s : FdState ι) (e : ι) (spawn : Bool) (c : ι) (va : FdVa) (left : List FdVa) (ok : Bool) : FdState ι :=
  match s.map e va with
  | none => s.setOp e (some (.copy spawn c left))
  | some p =>
    if ok then (s.setMap c va (some p)).setOp e (some (.copy spawn c left))
    else if spawn then (s.destroy c).setOp e none
    else s.setOp e (some (.copy spawn c left))

/-- The next system call of `e`.  In `dup` a failed one is followed by the unmapping of both pages. -/
def syscall (s : FdState ι) (e : ι) (ok : Bool) : Option (FdState ι) :=
  (s.op e).map fun
    | .closeFd i old => (s.setMap e (.fd i) none).setOp e (some (.closeData i old))
    | .closeData i old => (s.setMap e (.data i) none).setOp e (old.map (.dupData · i))
    | .dupData old new => match s.map e (.data old) with
      | none => s.setOp e (some (.dupFd old new))
      | some p =>
        if ok then (s.setMap e (.data new) (some p)).setOp e (some (.dupFd old new))
        else s.setOp e (some (.closeFd new none))
    | .dupFd old new => match s.map e (.fd old) with
      | none => s.setOp e (some (.closeFd new none))
      | some p =>
        if ok then (s.setMap e (.fd new) (some p)).setOp e none else s.setOp e (some (.closeFd new none))
    | .copy _ c [] => (s.setStatus c .RUNNABLE).setOp e none
    | .copy spawn c (va :: left) => s.share e spawn c va left ok

def step (s : FdState ι) : FdEvent ι → Option (FdState ι)
  | .close e i => s.close e i
  | .dup e old new => s.dup e old new
  | .copy e spawn c => s.copy e spawn c
  | .syscall e ok => s.syscall e ok

/-- `e` has called `pipe`, and has its ends at `i` and `j`; there may be other environments and other descriptors. -/
def start (others : ι → FdVa → Option Nat) (alive : ι → Bool) (e : ι) (i j : Fin MAXFD) : FdState ι where
  map e' va :=
    if e' = e ∧ va = .fd i then some (.fd .rd)
    else if e' = e ∧ va = .fd j then some (.fd .wr)
    else if e' = e ∧ (va = .data i ∨ va = .data j) then some .pipe
    else if alive e' then (others e' va).map .other else none
  status e' := if alive e' then .RUNNABLE else .FREE
  op _ := none

/-! ### Reference counts -/

variable [Fintype ι]

/-- `pageref`. -/
def pageref (s : FdState ι) (p : FdPage) : Nat :=
  (Finset.univ.filter fun x : ι × Fin MAXFD => s.map x.1 (.fd x.2) = some p).card +
    (Finset.univ.filter fun x : ι × Fin MAXFD => s.map x.1 (.data x.2) = some p).card

/-- `_pipe_is_closed`, for a descriptor of the end. -/
def pipeIsClosed (s : FdState ι) (side : PipeEnd) : Bool := s.pageref (.fd side) == s.pageref .pipe

/-- Some environment has the end open. -/
def IsOpen (s : FdState ι) (side : PipeEnd) : Prop := ∃ e i, s.map e (.fd i) = some (.fd side)

/-- What is expected: a pipe whose opposite end is open does not look closed. -/
def EofOk (s : FdState ι) (side : PipeEnd) : Prop :=
  s.IsOpen side.opposite → s.pageref (.fd side) < s.pageref .pipe ∧ s.pipeIsClosed side = false

/-- A descriptor of a parent, for the end, whose `Fd` page the child in its `fork` or `spawn` has but whose data it does
not have yet. -/
def halfway (s : FdState ι) (side : PipeEnd) (x : ι × Fin MAXFD) : Bool :=
  match s.op x.1 with
  | some (.copy _ _ left) => FdVa.data x.2 ∈ left && FdVa.fd x.2 ∉ left && s.map x.1 (.fd x.2) = some (.fd side)
  | _ => false

/-- The pipe is mapped here, but not for a descriptor of the end. -/
def beside (s : FdState ι) (side : PipeEnd) (x : ι × Fin MAXFD) : Bool :=
  s.map x.1 (.data x.2) = some .pipe && s.map x.1 (.fd x.2) ≠ some (.fd side)

end FdState

/-- The environments that share a pipe. -/
def pipeRef (ι : Type) [DecidableEq ι] : System (FdState ι) (FdEvent ι) :=
  ⟨fun s => ∃ others alive e i j, i ≠ j ∧ alive e = true ∧ s = .start others alive e i j, FdState.step⟩

end Mos
