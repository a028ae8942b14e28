import Mos.Kern.Tlbex
import Mos.Lib.Run

/-!
# Kernel entries and the whole system (`kern/entry.S`, `kern/genex.S`, `kern/env.c`, `init/init.c`)

What user code did before an exception is arbitrary: the event brings along the registers and the memory it left.
Left out is what happens inside the kernel's own exceptions.  `tlb_miss_entry` copies an entry through the window at
`KSEG2`; here every miss takes the general exception entry.  Where its load misses too, or a system call touches a page
of the user that is not in the TLB, the exception is taken in the kernel, and `ret_from_exception` gives `_do_signal` the
nested frame: a signal that is deliverable at that time would be delivered in kernel mode.
-/

namespace Mos

/-- What a trap finds in the machine: the registers, the cause and the memory that user code left.  `cp0Status` is
what user code wrote to the status register, where it may. -/
structure UserCtx where
  regs : Fin 32 → Word
  hi : Word
  lo : Word
  cp0Status : Word
  cp0Badvaddr : Word
  cp0Cause : Word
  cp0Epc : Word
  umem : Word → Word

/-- The exceptions of user code that the kernel handles. -/
inductive Exception where
  /-- The timer interrupt. -/
  | tick
  /-- A system call; `junk` is what a `void` one leaves in `$v0`. -/
  | syscall (junk : Word)
  /-- A TLB miss at `va`. -/
  | tlbMiss (va : Word)
  /-- A store to a page without `PTE_D`. -/
  | tlbMod
  deriving DecidableEq

/-- `rfe` pops the mode bits. -/
def rfe (status : Word) : Word := (status &&& ~~~0xF#32) ||| ((status >>> 2) &&& 0xF#32)

/-- An exception pushes the mode bits. -/
def pushMode (status : Word) : Word := (status &&& ~~~0x3F#32) ||| ((status <<< 2) &&& 0x3C#32)

namespace Kern

/-- `SAVE_ALL` fills the frame below `KSTACKTOP`, except for `$k0` and `$k1`.  It takes a stack pointer with the sign bit
set for one of the kernel, stores the frame below it, in memory of the kernel, and goes on: no step of this model. -/
def saveAll (k : Kern) (u : UserCtx) : Option Kern :=
  if (u.regs 29).msb then none
  else
    let status := if has k.cpu.cp0Status STATUS_CU0 then u.cp0Status else k.cpu.cp0Status
    some ((k.setUmem u.umem).setKtf {
      regs := fun i => if i = 0 then 0 else if i = 26 ∨ i = 27 then k.ktf.regs i else u.regs i
      cp0Status := pushMode status
      hi := u.hi
      lo := u.lo
      cp0Badvaddr := u.cp0Badvaddr
      cp0Cause := u.cp0Cause
      cp0Epc := u.cp0Epc })

/-- `RESTORE_SOME` and `rfe`. -/
def restore (k : Kern) (tf : Trapframe) : Kern := k.setCpu { tf with cp0Status := rfe tf.cp0Status }

/-- `SAVE_ALL` on the way to the handler; the first tick finds the kernel idle. -/
def save (k : Kern) (u : UserCtx) : Exception → Option Kern
  | .tick => if k.curenv = none then some k else k.saveAll u
  | _ => k.saveAll u

/-- The handler of an exception.  The second component tells whether it returned to the frame below `KSTACKTOP`;
if not, it left through `env_run`, and `env_pop_tf` is given the `env_tf` of the current environment. -/
def handle (k : Kern) : Exception → Option (Kern × Bool)
  | .tick => (k.schedule false).map fun k => (k, false)
  | .syscall junk => k.curenv.bind fun c => k.doSyscall c junk
  | .tlbMiss va => if va < ULIM then k.curenv.bind fun c => (k.tlbRefill c va).map fun k => (k, true) else none
  | .tlbMod => k.curenv.bind fun c => (k.doTlbMod c).map fun k => (k, true)

/-- The frame that `ret_from_exception` finds at `sp`. -/
def retTf (k : Kern) (c : EnvPtr) (returned : Bool) : Trapframe := if returned then k.ktf else (k.envs c).envTf

/-- What `_do_signal` makes of that frame is stored in its place. -/
def storeTf (k : Kern) (c : EnvPtr) (returned : Bool) (tf : Trapframe) : Kern :=
  if returned then k.setKtf tf else k.setEnv c fun e => { e with envTf := tf }

/-- `ret_from_exception`.  `env_pop_tf` comes here with `sp` at the `env_tf` of the environment, so that the stack of
`_do_signal` lies over the end of the handler table of the entry in front of it in `envs`; that is not modelled. -/
def ret (k : Kern) (returned : Bool) : Option Kern :=
  k.curenv.bind fun c =>
    (k.doSignal c (k.retTf c returned)).map fun (k, tf) => (k.storeTf c returned tf).restore tf

end Kern

/-! ### Initialisation -/

/-- Where the kernel lies in memory: the number of frames, the first frame of `envs` and the one of `pages`, which
is allocated last. -/
structure Machine where
  npage : Nat
  envsPpn : Nat
  pagesPpn : Nat
  /-- `KSEG0` shows at most 512 MiB. -/
  kseg0 : npage ≤ 2 ^ 17
  /-- `envs` takes 251 pages: 1024 times 1004 bytes. -/
  envs_le : envsPpn + 251 ≤ pagesPpn
  /-- Memory is left for the template directory and its two tables. -/
  room : pagesPpn + (npage * 12 + 4095) / 4096 + 3 ≤ npage

namespace Machine

/-- The pages of the array `pages`. -/
def pagesLen (mc : Machine) : Nat := (mc.npage * 12 + 4095) / 4096

/-- The pages of the array `envs`. -/
def envsLen : Nat := 251

/-- The frames below are the kernel's. -/
def used (mc : Machine) : Nat := mc.pagesPpn + mc.pagesLen

/-- The memory after the template directory is set up. -/
def initPmap (mc : Machine) : Option (Nat × Pmap) :=
  (Pmap.pageInit mc.npage mc.used).pageAlloc.bind fun (p, m) =>
    ((m.setRef p (m.ppRef p + 1)).mapSegment p 0 mc.pagesPpn UPAGES mc.pagesLen PTE_G).bind fun m =>
      (m.mapSegment p 0 mc.envsPpn UENVS envsLen PTE_G).map fun m => (p, m)

/-- The kernel after `env_init`. -/
def boot (mc : Machine) : Option Kern :=
  mc.initPmap.map fun (p, m) => {
    envs := fun _ => .zero
    curenv := none
    envFreeList := List.finRange NENV
    sched := TailQueue.clear ⟨none, none, fun _ => none, fun _ => none⟩
    asidBitmap := fun _ => false
    basePgdir := p
    pm := m
    mkenvidI := 0
    count := 0
    signos := fun n => ⟨0, if h : (n : Nat) + 1 < MAX_SIG_NUM then some ⟨n + 1, h⟩ else none⟩
    signoFreeList := some 0
    ktf := .zero
    cpu := .zero
    umem := fun _ => 0 }

end Machine

/-! ### The system -/

/-- Where the control is: in user code, at the entry of a handler, or at `ret_from_exception`. -/
inductive Phase where
  | user
  | entered (x : Exception)
  | leaving (returned : Bool)
  deriving DecidableEq

structure State where
  phase : Phase
  kern : Kern

inductive Event where
  /-- `env_create` in the initialisation. -/
  | create (binary : Image) (priority : Word)
  /-- User code runs and is interrupted. -/
  | trap (u : UserCtx) (x : Exception)
  | handle
  | ret
  /-- `tlbwr` overwrites a random entry: the entries that stay. -/
  | evict (keep : TlbEntry → Bool)

/-- A step that the kernel does not survive has no successor, nor has one that leads it to its own memory
(`State.argsInUser`) or in which it takes an exception itself. -/
def State.step (s : State) (ev : Event) : Option State :=
  match s.phase, ev with
  | .user, .create binary priority => (s.kern.envCreate binary priority).map fun k => ⟨.user, k⟩
  | .user, .evict keep => some ⟨.user, s.kern.setPm { s.kern.pm with tlb := s.kern.pm.tlb.filter keep }⟩
  | .user, .trap u x => (s.kern.save u x).map fun k => ⟨.entered x, k⟩
  | .entered x, .handle => (s.kern.handle x).map fun (k, returned) => ⟨.leaving returned, k⟩
  | .leaving returned, .ret => (s.kern.ret returned).map fun k => ⟨.user, k⟩
  | _, _ => none

/-- The kernel with all its environments, from the end of `env_init` on. -/
def kernel : System State Event where
  init s := s.phase = .user ∧ ∃ mc : Machine, mc.boot = some s.kern
  step := State.step

end Mos
