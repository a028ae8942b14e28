import Mos.Kern.Step

/-!
# The signal library (`user/lib/signal.c`) on top of the kernel

A library function looks at `env->do_signal_entry` and then makes one or two system calls; between these steps the
environment can be interrupted.  The system below is the kernel with user code that makes the system calls for
signals through the library only, and all the other ones as it likes: `fork` is `sys_exofork` and calls that have
nothing to do with signals.
-/

namespace Mos

/-- The address of the function `do_signal` of a program. -/
abbrev SignalEntry := { w : Word // w ≠ 0 }

inductive LibCall where
  | sigaction (signo act oldact : Word)
  | kill (envid signo : Word)
  | sigprocmask (how set oldset : Word)
  deriving DecidableEq

/-- `signo < 1 || 64 < signo`, on an `int`. -/
def badSigno (signo : Word) : Bool := signo.toInt < 1 || 64 < signo.toInt

/-- The call that installs `do_signal` in `envid`, where the caller finds another entry in its own environment. -/
def install (doSignal entry envid : Word) : List Call := if entry ≠ doSignal then [.setSigEntry envid doSignal] else []

/-- The system calls that a library function makes when it finds `entry` in `env->do_signal_entry`. -/
def LibCall.calls (doSignal entry : Word) : LibCall → List Call
  | .sigaction signo act oldact =>
    if badSigno signo then [] else install doSignal entry 0 ++ [.sigaction signo act oldact]
  | .kill envid signo =>
    if badSigno signo then [] else install doSignal entry envid ++ [.kill envid signo]
  | .sigprocmask how set oldset =>
    if how ≠ SIG_BLOCK ∧ how ≠ SIG_UNBLOCK ∧ how ≠ SIG_SETMASK then []
    else install doSignal entry 0 ++ [.sigprocmask how set oldset]

/-- The calls that user code makes in these functions only. -/
def Call.ofLibrary : Call → Bool
  | .setSigEntry .. | .sigaction .. | .kill .. | .sigprocmask .. => true
  | _ => false

structure LibState where
  sys : State
  /-- `do_signal` in the program of each environment. -/
  doSignal : EnvPtr → SignalEntry
  /-- What the variable `env` of each environment points to. -/
  envVar : EnvPtr → EnvPtr
  /-- What is left to do in the library functions that each environment is in, the innermost first. -/
  todo : EnvPtr → List (List Call)

inductive LibEvent where
  /-- `env_create`, with a program whose `do_signal` is at `entry`. -/
  | create (binary : Image) (priority : Word) (entry : SignalEntry)
  /-- Any other step of the kernel. -/
  | kern (ev : Event)
  /-- The running environment enters a library function, and leaves it. -/
  | enter (f : LibCall)
  | leave
  /-- It sets `env` to its own entry of `envs`, as `fork` does in the child. -/
  | setEnv

namespace LibState

/-- The next call of the innermost function; calls that are not for the library are free. -/
def take (todo : EnvPtr → List (List Call)) (cur : EnvPtr) (c : Call) : Option (EnvPtr → List (List Call)) :=
  if c.ofLibrary then
    match todo cur with
    | (c' :: fr) :: rest => if c' = c then some (Function.update todo cur (fr :: rest)) else none
    | _ => none
  else some todo

/-- The environment that the next allocation hands out runs a copy of what `cur` runs. -/
def copied (S : LibState) (cur e : EnvPtr) : LibState := { S with
  doSignal := Function.update S.doSignal e (S.doSignal cur)
  envVar := Function.update S.envVar e (S.envVar cur)
  todo := Function.update S.todo e (S.todo cur) }

/-- What `cur` does to the programs by a call: `sys_exofork` copies its own. -/
def forked (S : LibState) (cur : EnvPtr) (c : Call) : LibState :=
  if c = .exofork then S.sys.kern.envFreeList.head?.elim S (S.copied cur) else S

/-- A program in the slot that the next allocation hands out. -/
def loaded (S : LibState) (entry : SignalEntry) : LibState :=
  S.sys.kern.envFreeList.head?.elim S fun e => { S with
    doSignal := Function.update S.doSignal e entry
    envVar := Function.update S.envVar e e
    todo := Function.update S.todo e [] }

/-- The running environment, in user code. -/
def running (S : LibState) : Option EnvPtr :=
  match S.sys.phase with
  | .user => S.sys.kern.curenv
  | _ => none

def step (S : LibState) : LibEvent → Option LibState
  | .create binary priority entry =>
    (S.sys.step (.create binary priority)).map fun s => { S.loaded entry with sys := s }
  | .kern (.create ..) => none
  | .kern ev =>
    match S.sys.call ev with
    | none => (S.sys.step ev).map fun s => { S with sys := s }
    | some (cur, c) => (take S.todo cur c).bind fun todo =>
        let S' : LibState := { S with todo := todo }
        (S.sys.step ev).map fun s => { S'.forked cur c with sys := s }
  | .enter f => S.running.map fun c =>
      let calls := f.calls (S.doSignal c) (S.sys.kern.envs (S.envVar c)).doSignalEntry
      { S with todo := Function.update S.todo c (calls :: S.todo c) }
  | .leave => S.running.bind fun c =>
      match S.todo c with
      | [] :: rest => some { S with todo := Function.update S.todo c rest }
      | _ => none
  | .setEnv => S.running.map fun c => { S with envVar := Function.update S.envVar c c }

end LibState

/-- The kernel under programs that use the library. -/
def library : System LibState LibEvent where
  init S := kernel.init S.sys ∧ ∀ e, S.todo e = []
  step := LibState.step

end Mos
