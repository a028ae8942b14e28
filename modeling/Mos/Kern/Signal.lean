import Mos.Kern.State

/-!
# Signals (`kern/signal.c`, the set macros of `include/signal.h`)

The pending signals of an environment are a singly linked list of nodes from `signos`.  `none` stands for a kernel
panic, for an access outside an array, or for a store to user memory that the kernel cannot do.
-/

namespace Mos

/-! ### Signal sets -/

/-- The bits that `sigset_add` and `sigset_set` clear. -/
def unmaskable : Word := 0x40100

def sigsetAdd (b c : Sigset) : Sigset := ⟨(b.sig0 ||| c.sig0) &&& ~~~unmaskable, b.sig1 ||| c.sig1⟩
def sigsetDel (b c : Sigset) : Sigset := ⟨b.sig0 &&& ~~~c.sig0, b.sig1 &&& ~~~c.sig1⟩
def sigsetSet (b : Sigset) : Sigset := ⟨b.sig0 &&& ~~~unmaskable, b.sig1⟩

/-- `sigset_ctn` of the set whose words are at `word`; the numbers from 64 on read behind the two words. -/
def sigsetCtn (word : Nat → Word) (signo : Nat) : Bool := (word (signo / 32)).getLsbD (signo % 32)

/-- The words from `env_sigprocmask` on, as they lie in `struct Env`: the mask, then the first table entry. -/
def Env.maskWord (e : Env) : Nat → Word
  | 0 => e.envSigprocmask.sig0
  | 1 => e.envSigprocmask.sig1
  | 2 => (e.sighandlerTable 0).saHandler
  | 3 => (e.sighandlerTable 0).saMask.sig0
  | _ => 0

def SIGKILL : Nat := 9
def SIGSEGV : Nat := 11
def SIGTERM : Nat := 15

/-- The number in a node, where it is one of the 64 signals. -/
def SignoNode.signal (n : SignoNode) : Option Nat :=
  if 1 ≤ n.signo.toInt ∧ n.signo.toInt ≤ 64 then some n.signo.toInt.toNat else none

/-- `sighandler_table[signo - 1]`. -/
def Env.handler (e : Env) (signo : Nat) : Sigaction :=
  e.sighandlerTable ⟨(signo - 1) % 64, Nat.mod_lt _ (by decide)⟩

/-- A signal that the test of the mask in `_do_signal` holds back. -/
def Env.blocked (e : Env) (signo : Nat) : Bool := sigsetCtn e.maskWord signo

/-- A signal without handler that does not end the environment. -/
def Env.ignored (e : Env) (signo : Nat) : Bool :=
  (e.handler signo).saHandler = 0 ∧ ¬(signo = SIGKILL ∨ signo = SIGSEGV ∨ signo = SIGTERM)

namespace Kern

/-! ### Nodes -/

/-- `none` is the error code. -/
def signoAlloc (k : Kern) (signo : Word) : Option (SignoPtr × Kern) :=
  k.signoFreeList.map fun n =>
    (n, k.setSignos (Function.update k.signos n { k.signos n with signo := signo.setWidth 8 }) (k.signos n).next)

def setNext (k : Kern) (n : SignoPtr) (next : Option SignoPtr) : Kern :=
  k.setSignos (Function.update k.signos n { k.signos n with next := next }) k.signoFreeList

def signoFree (k : Kern) (n : SignoPtr) : Kern :=
  (k.setNext n k.signoFreeList).setSignos (k.setNext n k.signoFreeList).signos (some n)

/-! ### User memory -/

/-- A word that the kernel reads from user memory.  A misaligned address makes the kernel panic.  Below `UTEMP` it takes
an exception itself, and from `ULIM` on it reads its own memory and goes on: both are left out. -/
def uload (k : Kern) (a : Word) : Option Word :=
  if a.toNat % 4 = 0 ∧ UTEMP ≤ a ∧ a < ULIM then some (k.umem a) else none

/-- A word that the kernel writes to user memory.  From `UTOP` on it would write to the windows, where it takes an
exception, or to its own memory, and go on. -/
def ustore (k : Kern) (a v : Word) : Option Kern :=
  if a.toNat % 4 = 0 ∧ UTEMP ≤ a ∧ a < UTOP then some (k.setUmem (Function.update k.umem a v)) else none

/-- `n` words from `a` on. -/
def ustoreWords (k : Kern) (a : Word) (w : Nat → Word) (n : Nat) : Option Kern :=
  (List.range n).foldlM (fun (k : Kern) i => k.ustore (a + BitVec.ofNat 32 (4 * i)) (w i)) k

def uloadSigset (k : Kern) (a : Word) : Option Sigset :=
  (k.uload a).bind fun s0 => (k.uload (a + 4)).map fun s1 => ⟨s0, s1⟩

def ustoreSigset (k : Kern) (a : Word) (s : Sigset) : Option Kern :=
  (k.ustore a s.sig0).bind fun k => k.ustore (a + 4) s.sig1

/-- `*(struct Trapframe *)a`. -/
def uloadTf (k : Kern) (a : Word) : Option Trapframe :=
  ((List.range 38).mapM fun i => k.uload (a + BitVec.ofNat 32 (4 * i))).map fun _ =>
    .ofWords fun i => k.umem (a + BitVec.ofNat 32 (4 * i))

/-! ### `_do_signal` -/

/-- What the scan of the pending list came to: the state, the signals it threw away, and the signal to deliver. -/
structure Scan where
  kern : Kern
  discarded : List Nat
  found : Option Nat

/-- Takes the node `n` behind `frm` off the list of `c`; a node at the head empties the list. -/
def unlink (k : Kern) (c : EnvPtr) (frm : Option SignoPtr) (n : SignoPtr) : Kern :=
  match frm with
  | some f => k.setNext f (k.signos n).next
  | none => k.setEnv c fun env => { env with signoHeader := none }

/-- The loop of `_do_signal` from the node `ptr` on, with trailing pointer `frm`. -/
def scan (c : EnvPtr) : Nat → Kern → Option SignoPtr → Option SignoPtr → Option Scan
  | 0, _, _, _ => none
  | _ + 1, k, _, none => some ⟨k, [], none⟩
  | fuel + 1, k, frm, some n =>
    (k.signos n).signal.bind fun signo =>
      if (k.envs c).blocked signo then scan c fuel k (some n) (k.signos n).next
      else
        let next := (k.signos n).next
        let k := (k.unlink c frm n).signoFree n
        if (k.envs c).ignored signo then
          (scan c fuel k frm next).map fun s => { s with discarded := signo :: s.discarded }
        else some ⟨k, [], some signo⟩

/-- Pushes the frame and the mask on the user stack and sends the environment to its signal entry. -/
def pushSignal (k : Kern) (c : EnvPtr) (tf : Trapframe) (signo : Nat) : Option (Kern × Trapframe) :=
  let env := k.envs c
  let originMask := env.envSigprocmask
  if env.doSignalEntry = 0 then none
  else
    let k := k.setEnv c fun env => { env with envSigprocmask := (env.handler signo).saMask }
    let sp := tf.regs 29 - TF_SIZE
    (k.ustoreWords sp tf.word 38).bind fun k =>
      (k.ustoreSigset (sp - 8) originMask).map fun k =>
        let tf := ((tf.setReg 4 sp).setReg 7 (sp - 8)).setReg 5 (BitVec.ofNat 32 signo)
        let tf := (tf.setReg 6 (env.handler signo).saHandler).setReg 29 (sp - 8 - 16)
        (k, { tf with cp0Epc := env.doSignalEntry })

/-- `_do_signal` on the frame `tf` of the current environment `c`. -/
def doSignal (k : Kern) (c : EnvPtr) (tf : Trapframe) : Option (Kern × Trapframe) :=
  (scan c (MAX_SIG_NUM + 1) k none (k.envs c).signoHeader).bind fun s =>
    match s.found with
    | none => some (s.kern, tf)
    | some signo => s.kern.pushSignal c tf signo

end Kern

end Mos
