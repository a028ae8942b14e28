import Mos.Kern.Pmap
import Mos.Lib.TailQueue
import Mathlib.Tactic.Simps.Basic

/-!
# The state of the kernel (`include/env.h`, `include/trap.h`, `include/signal.h`)

Pointers into a static array (`envs`, `signos`) are indices, and `NULL` is `none`.  `env_free_list` is kept as a
list; `env_sched_list` is a tail queue in the heap, since what the macros do to an element that is not on the queue
matters.  The words of user memory are the ones that the running environment sees through its page table.
-/

namespace Mos

abbrev NENV : Nat := 1024
abbrev MAX_SIG_NUM : Nat := 1024

/-- A `struct Env *` that is not null. -/
abbrev EnvPtr := Fin NENV

/-- A `signo_node *` that is not null. -/
abbrev SignoPtr := Fin MAX_SIG_NUM

structure Trapframe where
  regs : Fin 32 → Word
  cp0Status : Word
  hi : Word
  lo : Word
  cp0Badvaddr : Word
  cp0Cause : Word
  cp0Epc : Word

def Trapframe.zero : Trapframe := ⟨fun _ => 0, 0, 0, 0, 0, 0, 0⟩

def Trapframe.setReg (tf : Trapframe) (i : Fin 32) (v : Word) : Trapframe :=
  { tf with regs := Function.update tf.regs i v }

def STATUS_CU0 : Word := 0x10000000
def STATUS_IM4 : Word := 0x1000
def STATUS_KUp : Word := 0x8
def STATUS_IEp : Word := 0x4

/-- `sizeof(struct Trapframe)`. -/
def TF_SIZE : Word := 152

/-- The `i`-th of the 38 words of a frame in memory. -/
def Trapframe.word (tf : Trapframe) (i : Nat) : Word :=
  if h : i < 32 then tf.regs ⟨i, h⟩
  else if i = 32 then tf.cp0Status
  else if i = 33 then tf.hi
  else if i = 34 then tf.lo
  else if i = 35 then tf.cp0Badvaddr
  else if i = 36 then tf.cp0Cause
  else tf.cp0Epc

/-- The frame with given words. -/
def Trapframe.ofWords (w : Nat → Word) : Trapframe := ⟨fun i => w i, w 32, w 33, w 34, w 35, w 36, w 37⟩

theorem Trapframe.ofWords_word {tf : Trapframe} {w : Nat → Word} (h : ∀ i < 38, w i = tf.word i) :
    ofWords w = tf := by
  have hregs : (fun i : Fin 32 => w i) = tf.regs := by
    funext i
    rw [h i (by omega)]
    simp [word]
  simp only [ofWords, hregs, h 32 (by decide), h 33 (by decide), h 34 (by decide), h 35 (by decide),
    h 36 (by decide), h 37 (by decide)]
  rfl

/-- `sigset_t`. -/
structure Sigset where
  sig0 : Word
  sig1 : Word
  deriving DecidableEq

def Sigset.empty : Sigset := ⟨0, 0⟩

structure Sigaction where
  saHandler : Word
  saMask : Sigset
  deriving DecidableEq

structure SignoNode where
  /-- `char`, signed on this machine. -/
  signo : BitVec 8
  next : Option SignoPtr

inductive EnvStatus where
  | FREE
  | RUNNABLE
  | NOT_RUNNABLE
  deriving DecidableEq

structure Env where
  envTf : Trapframe
  envId : Word
  envAsid : Asid
  envParentId : Word
  envStatus : EnvStatus
  /-- The frame of the page directory. -/
  envPgdir : Option Nat
  envPri : Word
  envIpcValue : Word
  envIpcFrom : Word
  envIpcRecving : Word
  envIpcDstva : Word
  envIpcPerm : Word
  envUserTlbModEntry : Word
  envRuns : Word
  doSignalEntry : Word
  signoHeader : Option SignoPtr
  envSigprocmask : Sigset
  sighandlerTable : Fin 64 → Sigaction

/-- An entry of `envs` as the loader leaves it. -/
def Env.zero : Env where
  envTf := .zero
  envId := 0
  envAsid := 0
  envParentId := 0
  envStatus := .FREE
  envPgdir := none
  envPri := 0
  envIpcValue := 0
  envIpcFrom := 0
  envIpcRecving := 0
  envIpcDstva := 0
  envIpcPerm := 0
  envUserTlbModEntry := 0
  envRuns := 0
  doSignalEntry := 0
  signoHeader := none
  envSigprocmask := .empty
  sighandlerTable := fun _ => ⟨0, .empty⟩

structure Kern where
  envs : EnvPtr → Env
  curenv : Option EnvPtr
  envFreeList : List EnvPtr
  /-- `env_sched_list` and the `env_sched_link` of every environment. -/
  sched : TailQueue EnvPtr
  asidBitmap : Asid → Bool
  basePgdir : Nat
  pm : Pmap
  /-- The static counter of `mkenvid`. -/
  mkenvidI : Word
  /-- The static counter of `schedule`. -/
  count : Int
  signos : SignoPtr → SignoNode
  signoFreeList : Option SignoPtr
  /-- The frame that `SAVE_ALL` fills below `KSTACKTOP`. -/
  ktf : Trapframe
  /-- The registers that user code runs with. -/
  cpu : Trapframe
  umem : Word → Word

namespace Kern

@[simps] def setCurenv (k : Kern) (e : Option EnvPtr) : Kern := { k with curenv := e }
@[simps] def setFreeList (k : Kern) (l : List EnvPtr) : Kern := { k with envFreeList := l }
@[simps] def setSched (k : Kern) (q : TailQueue EnvPtr) : Kern := { k with sched := q }
@[simps] def setBitmap (k : Kern) (b : Asid → Bool) : Kern := { k with asidBitmap := b }
@[simps] def setPm (k : Kern) (pm : Pmap) : Kern := { k with pm := pm }
@[simps] def setMkenvidI (k : Kern) (i : Word) : Kern := { k with mkenvidI := i }
@[simps] def setCount (k : Kern) (n : Int) : Kern := { k with count := n }
@[simps] def setSignos (k : Kern) (s : SignoPtr → SignoNode) (f : Option SignoPtr) : Kern :=
  { k with signos := s, signoFreeList := f }
@[simps] def setKtf (k : Kern) (tf : Trapframe) : Kern := { k with ktf := tf }
@[simps] def setCpu (k : Kern) (tf : Trapframe) : Kern := { k with cpu := tf }
@[simps] def setUmem (k : Kern) (m : Word → Word) : Kern := { k with umem := m }

/-- Changing one environment. -/
@[simps curenv envFreeList sched asidBitmap basePgdir pm mkenvidI count signos signoFreeList ktf cpu umem]
def setEnv (k : Kern) (e : EnvPtr) (f : Env → Env) : Kern :=
  { k with envs := Function.update k.envs e (f (k.envs e)) }

@[simp] theorem setEnv_self (k : Kern) (e : EnvPtr) (f : Env → Env) : (k.setEnv e f).envs e = f (k.envs e) :=
  Function.update_self ..

theorem setEnv_of_ne {k : Kern} {e e' : EnvPtr} {f : Env → Env} (h : e' ≠ e) :
    (k.setEnv e f).envs e' = k.envs e' :=
  Function.update_of_ne h ..

/-- A field that `f` does not change is unchanged by `setEnv`. -/
theorem setEnv_field {β : Type} (g : Env → β) {k : Kern} {e : EnvPtr} {f : Env → Env}
    (h : g (f (k.envs e)) = g (k.envs e)) (e' : EnvPtr) : g ((k.setEnv e f).envs e') = g (k.envs e') := by
  by_cases he : e' = e
  · rw [he, setEnv_self, h]
  · rw [setEnv_of_ne he]

theorem setEnv_id (k : Kern) (e : EnvPtr) : k.setEnv e (fun env => env) = k := by
  simp [setEnv]

end Kern

end Mos
