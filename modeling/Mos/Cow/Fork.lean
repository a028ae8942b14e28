import Mos.Elf.Spawn

/-!
# Copy on write (`user/lib/fork.c`)

Like `spawn`, `fork` and `cow_entry` run between two exceptions: nothing else runs while one of these functions does.  What
they keep on the stack is left out, and so is the way to `cow_entry` and back, where `do_tlb_mod` and `sys_set_trapframe` copy
the registers.  What a store writes is in the frames; `umem` is not used.
-/

namespace Mos

def PTE_COW : Word := 0x0001

/-- Where a word lies in its page. -/
def wordIdx (va : Word) : Idx := ⟨va.toNat / 4 % 1024, Nat.mod_lt _ (by decide)⟩

namespace Kern

/-! ### Stores of user code -/

/-- The frame that `cur` may write at `va`; otherwise there is an exception. -/
def writableAt (k : Kern) (cur : EnvPtr) (va : Word) : Option Nat :=
  if (k.vpt cur (VPN va)).any fun pte => has pte PTE_D then k.frameAt cur va else none

/-- `sw`.  The store goes by the page table; the TLB, which agrees with that in runs that keep it coherent, is left out. -/
def storeWord (cur : EnvPtr) (va w : Word) (k : Kern) : Option Kern :=
  if va.toNat % 4 = 0 then (k.writableAt cur va).map fun p => k.setPm (k.pm.setWord p (wordIdx va) w) else none

/-! ### `cow_entry` -/

/-- `cow_entry`; what the calls return is not looked at. -/
def cowEntry (cur : EnvPtr) (va : Word) (k : Kern) : Option Kern :=
  (k.vpt cur (VPN va)).bind fun pte =>
    let perm := pte &&& 0xFFF
    if has perm PTE_COW then
      let perm := (perm ^^^ PTE_COW) ||| PTE_D
      (returning (k.sysMemAlloc cur 0 UCOW perm)).bind fun (_, k) =>
        (k.writableAt cur UCOW).bind fun dst =>
          (k.frameAt cur (ROUNDDOWN va BY2PG)).bind fun src =>
            let k := k.setPm (k.pm.memcpy (dst * 4096) (frameByte (k.pm.word src)) 4096)
            (returning (k.sysMemMap cur 0 UCOW 0 (ROUNDDOWN va BY2PG) perm)).bind fun (_, k) =>
              (returning (k.sysMemUnmap cur 0 UCOW)).map (·.2)
    else none

/-! ### `fork` -/

/-- `duppage`; what the calls return is not looked at. -/
def duppage (cur : EnvPtr) (envid : Word) (v : Vpn) (k : Kern) : Option Kern :=
  (k.vpt cur v).bind fun pte =>
    let perm := pte &&& 0xFFF
    let addr := pageVa v
    if !has perm PTE_D || has perm PTE_LIBRARY || has perm PTE_COW then
      (returning (k.sysMemMap cur 0 addr envid addr perm)).map (·.2)
    else
      let perm := (perm ^^^ PTE_D) ||| PTE_COW
      (returning (k.sysMemMap cur 0 addr envid addr perm)).bind fun (_, k) =>
        (returning (k.sysMemMap cur 0 addr 0 addr perm)).map (·.2)

/-- One round of the inner loop of `fork`. -/
def forkPage (cur : EnvPtr) (child : Word) (k : Kern) (v : Vpn) : Option Kern :=
  (k.vpt cur v).bind fun pte => if has pte PTE_V then duppage cur child v k else some k

/-- The pages of a table that the inner loop visits. -/
def forkPages (i : Idx) : List Idx := (List.finRange 1024).filter fun j => decide (pageVa (i, j) < USTACKTOP)

/-- The tables that the outer loop visits. -/
def forkTables : List Idx := (List.finRange 1024).filter fun i => decide (pageVa (i, 0) < USTACKTOP)

/-- One round of the outer loop. -/
def forkTable (cur : EnvPtr) (child : Word) (k : Kern) (i : Idx) : Option Kern :=
  if (k.vpt cur (i, 0)).isSome then (forkPages i).foldlM (fun k j => forkPage cur child k (i, j)) k else some k

/-- `fork` in the parent, where `cow_entry` is at `entry`: the child, or the error that `try` returns.  A child that is not
created is visited by the loop like any other. -/
def fork (entry : Word) (cur : EnvPtr) (k : Kern) : Option (Except Word Word × Kern) :=
  let attempt := fun (x : Option (Word × Kern)) (f : Kern → Option (Except Word Word × Kern)) =>
    x.bind fun (r, k) => if r ≠ 0 then some (.error r, k) else f k
  attempt (if (k.envs cur).envUserTlbModEntry ≠ entry then returning (k.sysSetTlbModEntry cur 0 entry) else some (0, k)) fun k =>
    (returning (k.sysExofork cur)).bind fun (child, k) =>
      (forkTables.foldlM (forkTable cur child) k).bind fun k =>
        attempt (returning (k.sysSetTlbModEntry cur child entry)) fun k =>
          attempt (returning (k.sysSetEnvStatus cur child 1)) fun k => some (.ok child, k)

end Kern

end Mos
