import Mos.Kern.Sched
import Mos.Kern.Signal

/-!
# System calls (`kern/syscall_all.c`)

Every call gets the current environment `cur` and returns the new state together with the value for `$v0`, or with
`none` when it left through `schedule` instead of returning.  The console and the devices are not part of the state;
what `sys_read_dev` stores in user memory shows at the next exception, which hands user memory over as a whole.
-/

namespace Mos

def isIllegalVa (va : Word) : Bool := va < UTEMP || UTOP ≤ va

def isIllegalVaRange (va len : Word) : Bool :=
  if len = 0 then false else va + len < va || va < UTEMP || UTOP < va + len

/-- The console, the disk or the clock. -/
def isDevice (pa len : Word) : Bool :=
  (0x10000000 ≤ pa && pa + len ≤ 0x10000020) || (0x13000000 ≤ pa && pa + len ≤ 0x13004200) ||
    (0x15000000 ≤ pa && pa + len ≤ 0x15000200)

/-- `how` of `sys_sigprocmask`. -/
def SIG_BLOCK : Word := 0
def SIG_UNBLOCK : Word := 1
def SIG_SETMASK : Word := 2

namespace Kern

/-- The state after a call and what it returned. -/
abbrev Ret := Kern × Option Word

def sysGetenvid (k : Kern) (cur : EnvPtr) : Option Ret := some (k, some (k.envs cur).envId)

def sysYield (k : Kern) : Option Ret := (k.schedule true).map fun k => (k, none)

def sysEnvDestroy (k : Kern) (cur : EnvPtr) (envid : Word) : Option Ret :=
  match k.envid2env cur envid true with
  | none => some (k, some (-E_BAD_ENV))
  | some e => (k.envDestroy e).map fun (k, left) => (k, if left then none else some 0)

def sysSetTlbModEntry (k : Kern) (cur : EnvPtr) (envid func : Word) : Option Ret :=
  match k.envid2env cur envid true with
  | none => some (k, some (-E_BAD_ENV))
  | some e => some (k.setEnv e fun env => { env with envUserTlbModEntry := func }, some 0)

/-- `page_insert` into the address space of `e`. -/
def pageInsertEnv (k : Kern) (e : EnvPtr) (pp : Nat) (va perm : Word) : Option (Word × Kern) :=
  (k.envs e).envPgdir.bind fun pgdir =>
    (k.pm.pageInsert pgdir (k.envs e).envAsid pp va perm).map fun (r, pm) => (r, k.setPm pm)

/-- `page_lookup` in the address space of `e`: the page, if one is mapped. -/
def pageLookupEnv (k : Kern) (e : EnvPtr) (va : Word) : Option (Option Nat) :=
  (k.envs e).envPgdir.bind fun pgdir => (k.pm.pageLookup pgdir va).map fun r => r.map (·.1)

def sysMemAlloc (k : Kern) (cur : EnvPtr) (envid va perm : Word) : Option Ret :=
  if isIllegalVa va then some (k, some (-E_INVAL))
  else match k.envid2env cur envid true with
    | none => some (k, some (-E_BAD_ENV))
    | some env =>
      match k.pm.pageAlloc with
      | none => some (k, some (-E_NO_MEM))
      | some (pp, pm) => ((k.setPm pm).pageInsertEnv env pp va perm).map fun (r, k) => (k, some r)

def sysMemMap (k : Kern) (cur : EnvPtr) (srcid srcva dstid dstva perm : Word) : Option Ret :=
  if isIllegalVa srcva || isIllegalVa dstva then some (k, some (-E_INVAL))
  else match k.envid2env cur srcid true with
    | none => some (k, some (-E_BAD_ENV))
    | some srcenv =>
      match k.envid2env cur dstid true with
      | none => some (k, some (-E_BAD_ENV))
      | some dstenv =>
        (k.pageLookupEnv srcenv srcva).bind fun
          | none => some (k, some (-E_INVAL))
          | some pp => (k.pageInsertEnv dstenv pp dstva perm).map fun (r, k) => (k, some r)

def sysMemUnmap (k : Kern) (cur : EnvPtr) (envid va : Word) : Option Ret :=
  if isIllegalVa va then some (k, some (-E_INVAL))
  else match k.envid2env cur envid true with
    | none => some (k, some (-E_BAD_ENV))
    | some e =>
      (k.envs e).envPgdir.bind fun pgdir =>
        (k.pm.pageRemove pgdir (k.envs e).envAsid va).map fun pm => (k.setPm pm, some 0)

/-- What `sys_exofork` copies to the new environment. -/
def forkEnv (k : Kern) (cur : EnvPtr) (env : Env) : Env := { env with
  envTf := k.ktf.setReg 2 0
  envStatus := .NOT_RUNNABLE
  envPri := (k.envs cur).envPri
  envSigprocmask := (k.envs cur).envSigprocmask
  sighandlerTable := (k.envs cur).sighandlerTable }

def sysExofork (k : Kern) (cur : EnvPtr) : Option Ret :=
  match k.envAlloc (k.envs cur).envId with
  | none => some (k, some (-E_NO_FREE_ENV))
  | some (e, k) => some (k.setEnv e (k.forkEnv cur), some (k.envs e).envId)

/-- The values of `env_status` that `sys_set_env_status` takes. -/
def legalStatus (status : Word) : Option EnvStatus :=
  if status = 1 then some .RUNNABLE else if status = 2 then some .NOT_RUNNABLE else none

/-- Steps 3 and 4 of `sys_set_env_status`. -/
def setEnvStatus (k : Kern) (e : EnvPtr) (status : EnvStatus) : Option Kern :=
  let old := (k.envs e).envStatus
  let q :=
    if old = .RUNNABLE ∧ status = .NOT_RUNNABLE then k.sched.remove e
    else if old = .NOT_RUNNABLE ∧ status = .RUNNABLE then k.sched.insertTail e
    else some k.sched
  q.map fun q => (k.setSched q).setEnv e fun env => { env with envStatus := status }

def sysSetEnvStatus (k : Kern) (cur : EnvPtr) (envid status : Word) : Option Ret :=
  match legalStatus status with
  | none => some (k, some (-E_INVAL))
  | some status =>
    match k.envid2env cur envid true with
    | none => some (k, some (-E_BAD_ENV))
    | some e => (k.setEnvStatus e status).map fun k => (k, some 0)

/-- On the caller itself the frame is restored at once, and its `$v0` is the result. -/
def sysSetTrapframe (k : Kern) (cur : EnvPtr) (envid tf : Word) : Option Ret :=
  if isIllegalVaRange tf TF_SIZE then some (k, some (-E_INVAL))
  else match k.envid2env cur envid true with
    | none => some (k, some (-E_BAD_ENV))
    | some env =>
      (k.uloadTf tf).map fun frame =>
        if env = cur then (k.setKtf frame, some (frame.regs 2))
        else (k.setEnv env fun e => { e with envTf := frame }, some 0)

def sysBackDoSignal (k : Kern) (cur : EnvPtr) (envid tf originMask : Word) : Option Ret :=
  if envid ≠ 0 ∧ envid ≠ (k.envs cur).envId then none
  else
    (k.sysSetTrapframe cur envid tf).bind fun
      | (k, none) => some (k, none)
      | (k, some r) =>
        if r.slt 0 then some (k, some r)
        else (k.uloadSigset originMask).map fun mask =>
          (k.setEnv cur fun e => { e with envSigprocmask := mask }, some r)

def sysPutchar (k : Kern) (junk : Word) : Option Ret := some (k, some junk)

/-- The result of `sys_print_cons`. -/
def printConsRet (s num : Word) : Word := if UTOP < s + num ∨ UTOP ≤ s ∨ s + num < s then -E_INVAL else 0

/-- The loop waits until the console has a character; `ch` is the one that it gives. -/
def sysCgetc (k : Kern) (ch : Word) : Option Ret := if ch = 0 then none else some (k, some ch)

/-- `sys_write_dev` and `sys_read_dev`.  Where `pa + len` wraps around, the check of the device passes, and what `memcpy`
then does with addresses of the kernel is outside of the model, like a panic. -/
def sysDev (k : Kern) (va pa len : Word) : Option Ret :=
  if isIllegalVaRange va len then some (k, some (-E_INVAL))
  else if isDevice pa len then
    if pa.toNat + len.toNat < 2 ^ 32 then some (k, some 0) else none
  else some (k, some (-E_INVAL))

/-- The state in which `sys_ipc_recv` gives up the CPU. -/
def ipcWait (k : Kern) (cur : EnvPtr) (dstva : Word) : Kern :=
  (k.setKtf (k.ktf.setReg 2 0)).setEnv cur fun e => { e with
    envIpcRecving := 1, envIpcDstva := dstva, envStatus := .NOT_RUNNABLE }

def sysIpcRecv (k : Kern) (cur : EnvPtr) (dstva : Word) : Option Ret :=
  if dstva ≠ 0 ∧ isIllegalVa dstva then some (k, some (-E_INVAL))
  else ((k.ipcWait cur dstva).schedule true).map fun k => (k, none)

/-- The receiver `e` after steps 4 and 5 of `sys_ipc_try_send`; `q` is the queue with `e` on it. -/
def ipcWake (k : Kern) (cur e : EnvPtr) (value perm : Word) (q : TailQueue EnvPtr) : Kern :=
  (k.setSched q).setEnv e fun env => { env with
    envIpcValue := value
    envIpcFrom := (k.envs cur).envId
    envIpcPerm := PTE_V ||| perm
    envIpcRecving := 0
    envStatus := .RUNNABLE }

/-- The receiver is woken before the page is looked up, and the result of `page_insert` is not looked at. -/
def sysIpcTrySend (k : Kern) (cur : EnvPtr) (envid value srcva perm : Word) : Option Ret :=
  if srcva ≠ 0 ∧ isIllegalVa srcva then some (k, some (-E_INVAL))
  else match k.envid2env cur envid false with
    | none => some (k, some (-E_BAD_ENV))
    | some e =>
      if (k.envs e).envIpcRecving = 0 then some (k, some (-E_IPC_NOT_RECV))
      else
        (k.sched.insertTail e).bind fun q =>
          let k := k.ipcWake cur e value perm q
          if srcva ≠ 0 then
            (k.pageLookupEnv cur srcva).bind fun
              | none => some (k, some (-E_INVAL))
              | some p => (k.pageInsertEnv e p (k.envs e).envIpcDstva perm).map fun (_, k) => (k, some 0)
          else some (k, some 0)

/-- `junk` is what the `void` function leaves in `$v0`.  There is no check of `signo`: outside of the table the function
reads and writes what lies at that distance from it in the memory of the kernel, which is left out. -/
def sysSigaction (k : Kern) (cur : EnvPtr) (signo act oldact junk : Word) : Option Ret :=
  if h : 1 ≤ signo.toNat ∧ signo.toNat ≤ 64 then
    let i : Fin 64 := ⟨signo.toNat - 1, by omega⟩
    let feedback := (k.envs cur).sighandlerTable i
    let k' := if act = 0 then some k else
      (k.uload act).bind fun handler => (k.uloadSigset (act + 4)).map fun mask =>
        k.setEnv cur fun e => { e with sighandlerTable := Function.update e.sighandlerTable i ⟨handler, mask⟩ }
    k'.bind fun k =>
      if oldact = 0 then some (k, some junk)
      else (k.ustore oldact feedback.saHandler).bind fun k =>
        (k.ustoreSigset (oldact + 4) feedback.saMask).map fun k => (k, some junk)
  else none

/-- Running out of nodes panics. -/
def sysKill (k : Kern) (cur : EnvPtr) (envid signo : Word) : Option Ret :=
  match k.envid2env cur envid false with
  | none => some (k, some (-1))
  | some e =>
    (k.signoAlloc signo).map fun (insert, k) =>
      ((k.setNext insert (k.envs e).signoHeader).setEnv e fun env => { env with signoHeader := some insert }, some 0)

/-- The new mask for a legal `how`. -/
def newMask (mask : Sigset) (how : Word) (set : Sigset) : Option Sigset :=
  if how = SIG_BLOCK then some (sigsetAdd mask set)
  else if how = SIG_UNBLOCK then some (sigsetDel mask set)
  else if how = SIG_SETMASK then some (sigsetSet set)
  else none

def sysSigprocmask (k : Kern) (cur : EnvPtr) (how set oldset junk : Word) : Option Ret :=
  let feedback := (k.envs cur).envSigprocmask
  let finish (k : Kern) : Option Ret :=
    if oldset = 0 then some (k, some junk) else (k.ustoreSigset oldset feedback).map fun k => (k, some junk)
  if set = 0 then finish k
  else
    (k.uloadSigset set).bind fun s =>
      match newMask feedback how s with
      | none => some (k, some junk)
      | some mask => finish (k.setEnv cur fun e => { e with envSigprocmask := mask })

def sysSetSigEntry (k : Kern) (cur : EnvPtr) (envid entry : Word) : Option Ret :=
  match k.envid2env cur envid false with
  | none => some (k, some (-E_BAD_ENV))
  | some e => some (k.setEnv e fun env => { env with doSignalEntry := entry }, some 0)

end Kern

/-! ### The table -/

inductive Call where
  | putchar (c : Word)
  | printCons (s num : Word)
  | getenvid
  | yield
  | envDestroy (envid : Word)
  | setTlbModEntry (envid func : Word)
  | memAlloc (envid va perm : Word)
  | memMap (srcid srcva dstid dstva perm : Word)
  | memUnmap (envid va : Word)
  | exofork
  | setEnvStatus (envid status : Word)
  | setTrapframe (envid tf : Word)
  | panic (msg : Word)
  | ipcTrySend (envid value srcva perm : Word)
  | ipcRecv (dstva : Word)
  | cgetc
  | writeDev (va pa len : Word)
  | readDev (va pa len : Word)
  | sigaction (signo act oldact : Word)
  | sigprocmask (how set oldset : Word)
  | kill (envid signo : Word)
  | backDoSignal (envid tf originMask : Word)
  | setSigEntry (envid entry : Word)
  deriving DecidableEq

def MAX_SYSNO : Nat := 23

/-- `syscall_table`, with the arguments that each function takes. -/
def syscallTable (sysno : Nat) (a₁ a₂ a₃ a₄ a₅ : Word) : Option Call :=
  match sysno with
  | 0 => some (.putchar a₁)
  | 1 => some (.printCons a₁ a₂)
  | 2 => some .getenvid
  | 3 => some .yield
  | 4 => some (.envDestroy a₁)
  | 5 => some (.setTlbModEntry a₁ a₂)
  | 6 => some (.memAlloc a₁ a₂ a₃)
  | 7 => some (.memMap a₁ a₂ a₃ a₄ a₅)
  | 8 => some (.memUnmap a₁ a₂)
  | 9 => some .exofork
  | 10 => some (.setEnvStatus a₁ a₂)
  | 11 => some (.setTrapframe a₁ a₂)
  | 12 => some (.panic a₁)
  | 13 => some (.ipcTrySend a₁ a₂ a₃ a₄)
  | 14 => some (.ipcRecv a₁)
  | 15 => some .cgetc
  | 16 => some (.writeDev a₁ a₂ a₃)
  | 17 => some (.readDev a₁ a₂ a₃)
  | 18 => some (.sigaction a₁ a₂ a₃)
  | 19 => some (.sigprocmask a₁ a₂ a₃)
  | 20 => some (.kill a₁ a₂)
  | 21 => some (.backDoSignal a₁ a₂ a₃)
  | 22 => some (.setSigEntry a₁ a₂)
  | _ => none

namespace Kern

/-- The function behind a call; `junk` is the `$v0` of a `void` one, and the character that the console gives. -/
def call (k : Kern) (cur : EnvPtr) (junk : Word) : Call → Option Ret
  | .putchar _ => k.sysPutchar junk
  | .printCons s num => some (k, some (printConsRet s num))
  | .getenvid => k.sysGetenvid cur
  | .yield => k.sysYield
  | .envDestroy envid => k.sysEnvDestroy cur envid
  | .setTlbModEntry envid func => k.sysSetTlbModEntry cur envid func
  | .memAlloc envid va perm => k.sysMemAlloc cur envid va perm
  | .memMap srcid srcva dstid dstva perm => k.sysMemMap cur srcid srcva dstid dstva perm
  | .memUnmap envid va => k.sysMemUnmap cur envid va
  | .exofork => k.sysExofork cur
  | .setEnvStatus envid status => k.sysSetEnvStatus cur envid status
  | .setTrapframe envid tf => k.sysSetTrapframe cur envid tf
  | .panic _ => none
  | .ipcTrySend envid value srcva perm => k.sysIpcTrySend cur envid value srcva perm
  | .ipcRecv dstva => k.sysIpcRecv cur dstva
  | .cgetc => k.sysCgetc junk
  | .writeDev va pa len => k.sysDev va pa len
  | .readDev va pa len => k.sysDev va pa len
  | .sigaction signo act oldact => k.sysSigaction cur signo act oldact junk
  | .sigprocmask how set oldset => k.sysSigprocmask cur how set oldset junk
  | .kill envid signo => k.sysKill cur envid signo
  | .backDoSignal envid tf originMask => k.sysBackDoSignal cur envid tf originMask
  | .setSigEntry envid entry => k.sysSetSigEntry cur envid entry

/-- The call that a frame asks for: the number in `$a0`, three arguments in registers and two on the stack. -/
def decode (k : Kern) (tf : Trapframe) : Option Call :=
  (k.uload (tf.regs 29 + 16)).bind fun a₄ =>
    (k.uload (tf.regs 29 + 20)).bind fun a₅ =>
      syscallTable (tf.regs 4).toNat (tf.regs 5) (tf.regs 6) (tf.regs 7) a₄ a₅

/-- `do_syscall` on the frame below `KSTACKTOP`.  The second component tells whether it returned; if not, the frame
to restore is the `env_tf` of the environment that was scheduled. -/
def doSyscall (k : Kern) (cur : EnvPtr) (junk : Word) : Option (Kern × Bool) :=
  if MAX_SYSNO ≤ (k.ktf.regs 4).toNat then
    some (k.setKtf (k.ktf.setReg 2 (-E_NO_SYS)), true)
  else
    (k.decode k.ktf).bind fun c =>
      ((k.setKtf { k.ktf with cp0Epc := k.ktf.cp0Epc + 4 }).call cur junk c).map fun
        | (k, some r) => (k.setKtf (k.ktf.setReg 2 r), true)
        | (k, none) => (k, false)

end Kern

end Mos
