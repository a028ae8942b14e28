import Mos.Kern.State

/-!
# Environments (`kern/env.c`)

Allocation, page directories, loading and teardown of environments.  `none` is a kernel panic, except where a
comment says that it is an error code.
-/

namespace Mos

/-- What `elf_load_seg` asks `load_icode_mapper` for, page by page, and the entry point.  The images linked into the
kernel lie below `UTOP`, and `elf_load_seg` passes no permission but `PTE_V` and `PTE_D`. -/
structure Image where
  entry : Word
  pages : List (Word × Word)
  below : ∀ p ∈ pages, p.1 < UTOP
  perms : ∀ p ∈ pages, p.2 = PTE_V ∨ p.2 = PTE_V ||| PTE_D

namespace Pmap

/-- The body of `map_segment`: `n` pages from frame `ppn` on. -/
def mapSegment (m : Pmap) (pgdir : Nat) (asid : Asid) (ppn : Nat) (va : Word) (n : Nat) (perm : Word) :
    Option Pmap :=
  (List.range n).foldlM (fun (m : Pmap) i =>
    (m.pa2page (page2pa (ppn + i))).bind fun pp =>
      (m.pageInsert pgdir asid pp (va + BitVec.ofNat 32 (i * 4096)) (PTE_V ||| perm)).map (·.2)) m

/-- The directory `p` after the `memcpy` of the template entries of `[UTOP, UVPT)`. -/
def withTemplate (m : Pmap) (basePgdir p : Nat) (j : Idx) : Word :=
  if PDX UTOP ≤ j ∧ j < PDX UVPT then m.word basePgdir j else m.word p j

/-- `none` is the error code of `page_alloc`. -/
def envSetupVm (m : Pmap) (basePgdir : Nat) : Option (Nat × Pmap) :=
  m.pageAlloc.map fun (p, m) =>
    let m := m.setRef p (m.ppRef p + 1)
    let m := { m with word := Function.update m.word p (m.withTemplate basePgdir p) }
    let m := m.setWord p (PDX UVPT) (page2pa p ||| PTE_V)
    (p, m.setWord p (PDX KSEG2) (page2pa p ||| PTE_V))

def loadIcodeMapper (m : Pmap) (pgdir : Nat) (asid : Asid) (va perm : Word) : Option Pmap :=
  m.pageAlloc.bind fun (p, m) =>
    (m.pageInsert pgdir asid p va perm).bind fun (r, m) => if r = 0 then some m else none

def loadIcode (m : Pmap) (pgdir : Nat) (asid : Asid) (binary : Image) : Option Pmap :=
  binary.pages.foldlM (fun (m : Pmap) p => m.loadIcodeMapper pgdir asid p.1 p.2) m

/-- The page of the window at `w` that shows the table of index `j`. -/
def vptVa (w : Word) (j : Idx) : Word := w + BitVec.ofNat 32 j <<< 12

/-- One round of the outer loop of `env_free`: the table at `pdeno`, if there is one. -/
def freeTable (m : Pmap) (pgdir : Nat) (asid : Asid) (pdeno : Idx) : Option Pmap :=
  if has (m.word pgdir pdeno) PTE_V then
    (m.pa2page (m.word pgdir pdeno)).bind fun pt =>
      ((List.finRange 1024).foldlM (fun (m : Pmap) pteno =>
        if has (m.word pt pteno) PTE_V then m.pageRemove pgdir asid (pageVa (pdeno, pteno)) else some m) m).bind
      fun m =>
        ((m.setWord pgdir pdeno 0).pageDecref pt).map fun m =>
          (m.tlbInvalidate asid (vptVa UVPT pdeno)).tlbInvalidate asid (vptVa KSEG2 pdeno)
  else some m

/-- The memory side of `env_free`. -/
def freeSpace (m : Pmap) (pgdir : Nat) (asid : Asid) : Option Pmap :=
  (((List.finRange 1024).filter fun j => decide (j < PDX UTOP)).foldlM
    (fun (m : Pmap) pdeno => m.freeTable pgdir asid pdeno) m).bind fun m =>
      (m.pageDecref pgdir).map fun m =>
        (m.tlbInvalidate asid (vptVa UVPT (PDX UVPT))).tlbInvalidate asid (vptVa KSEG2 (PDX UVPT))

end Pmap

namespace Kern

/-- `none` is `-E_NO_FREE_ENV`. -/
def asidAlloc (k : Kern) : Option (Asid × Kern) :=
  ((List.finRange 64).find? fun i => !k.asidBitmap i).map fun i =>
    (i, k.setBitmap (Function.update k.asidBitmap i true))

def asidFree (k : Kern) (i : Asid) : Kern := k.setBitmap (Function.update k.asidBitmap i false)

def mkenvid (k : Kern) (e : EnvPtr) : Word × Kern :=
  (((k.mkenvidI + 1) <<< 11) ||| BitVec.ofNat 32 e, k.setMkenvidI (k.mkenvidI + 1))

def ENVX (envid : Word) : EnvPtr := ⟨envid.toNat % NENV, Nat.mod_lt _ (by decide)⟩

/-- `none` is `-E_BAD_ENV`; `cur` is `curenv`. -/
def envid2env (k : Kern) (cur : EnvPtr) (envid : Word) (checkperm : Bool) : Option EnvPtr :=
  if envid = 0 then some cur
  else
    let e := ENVX envid
    if (k.envs e).envStatus = .FREE ∨ (k.envs e).envId ≠ envid then none
    else if checkperm ∧ e ≠ cur ∧ (k.envs e).envParentId ≠ (k.envs cur).envId then none
    else some e

/-- Step 2 of `env_alloc`.  The result of `env_setup_vm` is not looked at: where it fails, `env_pgdir` keeps what the
previous occupant of the slot left. -/
def setupVm (k : Kern) (e : EnvPtr) : Kern :=
  match k.pm.envSetupVm k.basePgdir with
  | some (p, pm) => (k.setPm pm).setEnv e fun env => { env with envPgdir := some p }
  | none => k

/-- The call of `asid_alloc` in `env_alloc`.  Its result is not looked at: where it fails, `env_asid` keeps what the
previous occupant of the slot left. -/
def setupAsid (k : Kern) (e : EnvPtr) : Kern :=
  match k.asidAlloc with
  | some (asid, k) => k.setEnv e fun env => { env with envAsid := asid }
  | none => k

/-- The rest of steps 3 and 4 of `env_alloc`. -/
def initEnv (id parentId : Word) (env : Env) : Env := { env with
  envUserTlbModEntry := 0
  envRuns := 0
  envParentId := parentId
  envId := id
  envTf := { env.envTf.setReg 29 (USTACKTOP - 8) with cp0Status := STATUS_IM4 ||| STATUS_KUp ||| STATUS_IEp }
  signoHeader := none
  sighandlerTable := fun _ => ⟨0, .empty⟩
  envSigprocmask := .empty }

/-- `none` is `-E_NO_FREE_ENV`. -/
def envAlloc (k : Kern) (parentId : Word) : Option (EnvPtr × Kern) :=
  match k.envFreeList with
  | [] => none
  | e :: rest =>
    let (id, k) := (((k.setFreeList rest).setupVm e).setupAsid e).mkenvid e
    some (e, k.setEnv e (initEnv id parentId))

/-- An image that does not load, like a directory that was never set up, panics. -/
def envCreate (k : Kern) (binary : Image) (priority : Word) : Option Kern :=
  (k.envAlloc 0).bind fun (e, k) =>
    (k.envs e).envPgdir.bind fun pgdir =>
      (k.pm.loadIcode pgdir (k.envs e).envAsid binary).map fun pm =>
        let k := (k.setPm pm).setEnv e fun env => { env with
          envPri := priority
          envStatus := .RUNNABLE
          envTf := { env.envTf with cp0Epc := binary.entry } }
        k.setSched (k.sched.insertHead e)

/-- The queue removal at the end is done whether or not `e` is on the queue. -/
def envFree (k : Kern) (e : EnvPtr) : Option Kern :=
  (k.envs e).envPgdir.bind fun pgdir =>
    (k.pm.freeSpace pgdir (k.envs e).envAsid).bind fun pm =>
      (k.sched.remove e).map fun q =>
        ((((k.setPm pm).asidFree (k.envs e).envAsid).setFreeList (e :: k.envFreeList)).setSched q).setEnv e
          fun env => { env with envStatus := .FREE }

/-- The first step of `env_run`: the environment that ran keeps its frame. -/
def saveTf (k : Kern) : Kern :=
  match k.curenv with
  | some c => k.setEnv c fun env => { env with envTf := k.ktf }
  | none => k

def envRun (k : Kern) (e : EnvPtr) : Option Kern :=
  if (k.envs e).envStatus = .RUNNABLE then
    some ((k.saveTf.setCurenv (some e)).setEnv e fun env => { env with envRuns := env.envRuns + 1 })
  else none

end Kern

end Mos
