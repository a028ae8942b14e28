import Mos.Kern.Syscall

/-!
# TLB exceptions (`kern/tlbex.c`)

`cur_pgdir` and the ASID in `EntryHi` are those of the current environment since its `env_run`.
-/

namespace Mos

namespace Kern

/-- The windows of `passive_alloc` in which a page is never allocated. -/
def forbidden (va : Word) : Bool :=
  (USTACKTOP ≤ va && va < USTACKTOP + BY2PG) || (UENVS ≤ va && va < UPAGES) || (UPAGES ≤ va && va < UVPT) ||
    (ULIM ≤ va && va < KSEG2)

/-- Below `UTEMP` the environment is sent `SIGSEGV`, and the page is allocated nevertheless. -/
def passiveAlloc (k : Kern) (cur : EnvPtr) (va : Word) : Option Kern :=
  (if va < UTEMP then (k.sysKill cur 0 (BitVec.ofNat 32 SIGSEGV)).map (·.1) else some k).bind fun k =>
    if forbidden va then none
    else
      k.pm.pageAlloc.bind fun (p, pm) =>
        ((k.setPm pm).pageInsertEnv cur p (PTE_ADDR va) PTE_D).bind fun (r, k) =>
          if r = 0 then some k else none

/-- At most `fuel` rounds of the loop of `_do_tlb_refill`. -/
def refillLoop (cur : EnvPtr) (va : Word) : Nat → Kern → Option (Kern × Word)
  | 0, _ => none
  | fuel + 1, k =>
    (k.envs cur).envPgdir.bind fun pgdir =>
      (k.pm.pageLookup pgdir va).bind fun
        | some (_, pte) => some (k, k.pm.word pte.1 pte.2)
        | none => (k.passiveAlloc cur va).bind (refillLoop cur va fuel)

/-- `_do_tlb_refill`: one allocation is enough. -/
def doTlbRefill (k : Kern) (cur : EnvPtr) (va : Word) : Option (Kern × Word) := refillLoop cur va 2 k

/-- The wrapper of `_do_tlb_refill` writes the entry to the TLB. -/
def tlbRefill (k : Kern) (cur : EnvPtr) (va : Word) : Option Kern :=
  (k.doTlbRefill cur va).map fun (k, pte) =>
    k.setPm { k.pm with tlb := ⟨VPN va, (k.envs cur).envAsid, pte⟩ :: k.pm.tlb }

/-- The stack pointer that `do_tlb_mod` pushes from. -/
def modStack (sp : Word) : Word := if sp < USTACKTOP ∨ UXSTACKTOP ≤ sp then UXSTACKTOP else sp

def doTlbMod (k : Kern) (cur : EnvPtr) : Option Kern :=
  let sp := modStack (k.ktf.regs 29) - TF_SIZE
  (k.ustoreWords sp k.ktf.word 38).bind fun k =>
    if (k.envs cur).envUserTlbModEntry = 0 then none
    else some (k.setKtf { (k.ktf.setReg 4 sp).setReg 29 (sp - 4) with
      cp0Epc := (k.envs cur).envUserTlbModEntry })

end Kern

end Mos
