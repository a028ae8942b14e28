import Mos.Inv.Core
import Mos.Inv.Space

/-!
# The memory of the whole system

The steps of the system, as seen by the memory: a system call, a fault or the creation of an environment makes small
steps for one environment.  This needs what `page_insert` does not check: that the permission word has no bits in the
frame number, that the count of the page does not overflow, and that `env_alloc` finds memory for the directory.
-/

namespace Mos

open Kern

namespace Kern

/-- The page directories of the live environments. -/
def dirs (k : Kern) : Dirs := fun e => if (k.envs e).envStatus = .FREE then none else (k.envs e).envPgdir

def mem (k : Kern) : Mem := ⟨k.dirs, k.pm⟩

/-- What a system call passes to `page_insert`. -/
structure Insertion where
  env : EnvPtr
  page : Nat
  va : Word
  perm : Word

/-- A table for `va` exists or can be allocated from `free`. -/
def hasRoom (k : Kern) (e : EnvPtr) (va : Word) (free : List Nat) : Bool :=
  (k.envs e).envPgdir.any fun pgdir => has (k.pm.word pgdir (PDX va)) PTE_V || !free.isEmpty

/-- The insertion that a call is going to make, if it does not fail before. -/
def insertion (k : Kern) (cur : EnvPtr) : Call → Option Insertion
  | .memAlloc envid va perm =>
    if isIllegalVa va then none
    else (k.envid2env cur envid true).bind fun e => match k.pm.pageFreeList with
      | [] => none
      | pp :: rest => if k.hasRoom e va rest then some ⟨e, pp, va, perm⟩ else none
  | .memMap srcid srcva dstid dstva perm =>
    if isIllegalVa srcva || isIllegalVa dstva then none
    else (k.envid2env cur srcid true).bind fun srcenv => (k.envid2env cur dstid true).bind fun e =>
      ((k.pageLookupEnv srcenv srcva).bind id).bind fun pp =>
        if k.hasRoom e dstva k.pm.pageFreeList then some ⟨e, pp, dstva, perm⟩ else none
  | .ipcTrySend envid _ srcva perm =>
    if srcva = 0 ∨ isIllegalVa srcva then none
    else (k.envid2env cur envid false).bind fun e =>
      if (k.envs e).envIpcRecving = 0 then none
      else ((k.pageLookupEnv cur srcva).bind id).bind fun pp =>
        if k.hasRoom e (k.envs e).envIpcDstva k.pm.pageFreeList then some ⟨e, pp, (k.envs e).envIpcDstva, perm⟩
        else none
  | _ => none

/-- The insertion can be stored and counted. -/
def insertable (k : Kern) (x : Insertion) : Bool :=
  x.page ||| PPN x.perm = x.page && (k.pm.ppRef x.page ≠ 65535 || k.pageLookupEnv x.env x.va = some (some x.page))

/-- The next environment gets a directory of its own, or none at all. -/
def vmFree (k : Kern) : Bool := match k.envFreeList with
  | [] => true
  | e :: _ => !k.pm.pageFreeList.isEmpty || (k.envs e).envPgdir = none

/-- Calls that keep the tables apart. -/
def callMemAdmits (k : Kern) (cur : EnvPtr) : Call → Bool
  | .exofork => k.vmFree
  | c => (k.insertion cur c).all k.insertable

end Kern

/-- The window of a `sys_ipc_recv` of `e` that does not fail. -/
def Call.recvOf (cur e : EnvPtr) : Call → Option Word
  | .ipcRecv dstva => if cur = e ∧ ¬(dstva ≠ 0 ∧ isIllegalVa dstva) then some dstva else none
  | _ => none

private theorem Call.recvOf_legal {cur e : EnvPtr} {c : Call} {dstva : Word} (h : c.recvOf cur e = some dstva) :
    dstva = 0 ∨ isIllegalVa dstva = false := by
  cases c with
  | ipcRecv d =>
    rw [recvOf] at h
    split at h
    case isFalse => cases h
    case isTrue hd =>
      obtain rfl := Option.some.inj h
      simpa [or_iff_not_imp_left] using hd.2
  | _ => cases h

/-- Steps that keep the tables apart. -/
def memAdmits (s : State) : Event → Bool
  | .create _ _ => s.kern.vmFree
  | .handle => match s.phase with
    | .entered (.syscall _) => s.kern.onCall callMemAdmits
    | _ => true
  | _ => true

theorem memAdmits_eq (s : State) (ev : Event) : memAdmits s ev = s.admits vmFree callMemAdmits ev := by
  cases ev <;> rfl

/-- The invariant of the memory of the system. -/
structure MemOk (mc : Machine) (leak : Nat → Nat) (k : Kern) : Prop where
  live : LiveOk k
  mem : k.mem.Ok mc leak
  base : k.basePgdir = mc.bootPgdir
  dstva : ∀ e, (k.envs e).envIpcDstva < UTOP

namespace Kern

variable {k k' k₁ : Kern} {e : EnvPtr}

/-! ### What changes the directories -/

theorem dirs_of_live (h : (k.envs e).envStatus ≠ .FREE) : k.dirs e = (k.envs e).envPgdir := if_neg h

theorem dirs_of_free (h : (k.envs e).envStatus = .FREE) : k.dirs e = none := if_pos h

/-- Only statuses and directories matter. -/
theorem dirs_congr (hst : ∀ e, (k'.envs e).envStatus = .FREE ↔ (k.envs e).envStatus = .FREE)
    (hdir : ∀ e, (k'.envs e).envPgdir = (k.envs e).envPgdir) : k'.dirs = k.dirs := by
  funext e
  simp only [dirs, hst, hdir]

private theorem dirs_setEnv {f : Env → Env} (hst : (f (k.envs e)).envStatus = .FREE ↔ (k.envs e).envStatus = .FREE)
    (hdir : (f (k.envs e)).envPgdir = (k.envs e).envPgdir) : (k.setEnv e f).dirs = k.dirs := by
  refine dirs_congr (fun e' => ?_) fun e' => setEnv_field Env.envPgdir hdir e'
  by_cases he : e' = e
  · rw [he, setEnv_self]
    exact hst
  · rw [setEnv_of_ne he]

/-- The memory does not see a change of the other fields. -/
theorem mem_setEnv {f : Env → Env} (hst : (f (k.envs e)).envStatus = .FREE ↔ (k.envs e).envStatus = .FREE)
    (hdir : (f (k.envs e)).envPgdir = (k.envs e).envPgdir) : (k.setEnv e f).mem = k.mem := by
  rw [mem, mem, dirs_setEnv hst hdir]
  rfl

theorem mem_schedule {yield : Bool} (h : k.schedule yield = some k') : k'.mem = k.mem := by
  obtain ⟨q, n, e, -, rfl, -⟩ := schedule_cases h
  have hdirs : (k.running q n e).dirs = k.dirs := dirs_congr
    (fun e' => by rw [running_field Env.envStatus (fun _ _ => rfl) (fun _ _ => rfl) k q n e e'])
    fun e' => running_field Env.envPgdir (fun _ _ => rfl) (fun _ _ => rfl) k q n e e'
  have hpm : (k.running q n e).pm = k.pm := by
    unfold running saveTf
    split <;> rfl
  rw [mem, mem, hdirs, hpm]

theorem mem_sigFrame {c : EnvPtr} (h : SigFrame c k k') : k'.mem = k.mem := by
  have hdirs : k'.dirs = k.dirs := dirs_congr (fun e => by rw [h.field Env.envStatus (fun _ _ _ => rfl) e])
    fun e => h.field Env.envPgdir (fun _ _ _ => rfl) e
  obtain ⟨_, _, _, _, _, rfl⟩ := h
  rw [mem, mem, hdirs]
  rfl

theorem mem_setTf (k : Kern) (cur e : EnvPtr) (frame : Trapframe) : (k.setTf cur e frame).mem = k.mem := by
  unfold setTf
  split
  · rfl
  · exact mem_setEnv Iff.rfl rfl

private theorem mem_pended {signo : Word} {n : SignoPtr} (hn : k.signoAlloc signo = some (n, k₁)) (e : EnvPtr) :
    (k₁.pended e n).mem = k.mem := by
  obtain ⟨-, rfl⟩ := signoAlloc_cases hn
  exact mem_setEnv Iff.rfl rfl

theorem mem_storeTf (k : Kern) (c : EnvPtr) (returned : Bool) (tf : Trapframe) :
    (k.storeTf c returned tf).mem = k.mem := by
  unfold storeTf
  split
  · rfl
  · exact mem_setEnv Iff.rfl rfl

private theorem mem_setEnvStatus {st : EnvStatus} (hlive : (k.envs e).envStatus ≠ .FREE) (hst : st ≠ .FREE)
    (h : k.setEnvStatus e st = some k') : k'.mem = k.mem := by
  obtain ⟨q, -, rfl⟩ := Option.map_eq_some_iff.1 h
  exact mem_setEnv ⟨fun heq => absurd heq hst, fun heq => absurd heq hlive⟩ rfl

private theorem mem_segv {c : EnvPtr} {va : Word} (h : k.Segv c va k') : k'.mem = k.mem := by
  cases h with
  | none => rfl
  | sent _ hn => exact mem_pended hn c

theorem dirs_allocated (k : Kern) (e : EnvPtr) (rest : List EnvPtr) (pgdir : Option Nat) (pm : Pmap) (asid : Asid)
    (bitmap : Asid → Bool) (parentId : Word) {f : Env → Env} (hst : ∀ env, (f env).envStatus ≠ .FREE)
    (hdir : ∀ env, (f env).envPgdir = env.envPgdir) :
    ((k.allocated e rest pgdir pm asid bitmap parentId).setEnv e f).dirs = Function.update k.dirs e pgdir := by
  funext e'
  by_cases he : e' = e
  · subst he
    rw [Function.update_self, dirs_of_live (by rw [setEnv_self]; exact hst _), setEnv_self, hdir, allocated,
      setEnv_self]
    rfl
  · rw [Function.update_of_ne he, dirs, dirs, setEnv_of_ne he, allocated, setEnv_of_ne he]
    rfl

/-- The memory after `sys_exofork`. -/
theorem mem_forked (k : Kern) (cur e : EnvPtr) (rest : List EnvPtr) (pgdir : Option Nat) (pm : Pmap) (asid : Asid)
    (bitmap : Asid → Bool) (parentId : Word) :
    ((k.allocated e rest pgdir pm asid bitmap parentId).setEnv e
      ((k.allocated e rest pgdir pm asid bitmap parentId).forkEnv cur)).mem = ⟨Function.update k.dirs e pgdir, pm⟩ := by
  have hdirs := dirs_allocated k e rest pgdir pm asid bitmap parentId
    (f := (k.allocated e rest pgdir pm asid bitmap parentId).forkEnv cur) (fun _ => nofun) fun _ => rfl
  rw [Kern.mem, hdirs]
  rfl

theorem dirs_freed {pm : Pmap} {q : TailQueue EnvPtr} : (k.freed e pm q).dirs = Function.update k.dirs e none := by
  funext e'
  by_cases he : e' = e
  · subst he
    rw [Function.update_self, dirs_of_free]
    rw [freed, setEnv_self]
  · rw [Function.update_of_ne he, dirs, dirs, freed, setEnv_of_ne he]
    rfl

end Kern

/-! ### System calls -/

/-- The calls that may change a page table. -/
def Call.remaps : Call → Bool
  | .envDestroy _ => true
  | .memAlloc _ _ _ => true
  | .memMap _ _ _ _ _ => true
  | .memUnmap _ _ => true
  | .exofork => true
  | .ipcTrySend _ _ _ _ => true
  | _ => false

/-- The environments whose address space a call may change. -/
inductive Acts (k : Kern) (cur : EnvPtr) : Call → EnvPtr → Prop
  | none (c : Call) : Acts k cur c cur
  | memAlloc {envid va perm : Word} {e : EnvPtr} (he : k.envid2env cur envid true = some e) :
      Acts k cur (.memAlloc envid va perm) e
  | memMap {srcid srcva dstid dstva perm : Word} {e : EnvPtr} (he : k.envid2env cur dstid true = some e) :
      Acts k cur (.memMap srcid srcva dstid dstva perm) e
  | memUnmap {envid va : Word} {e : EnvPtr} (he : k.envid2env cur envid true = some e) :
      Acts k cur (.memUnmap envid va) e
  | ipc {envid value srcva perm : Word} {e : EnvPtr} (he : k.envid2env cur envid false = some e)
      (hrecv : (k.envs e).envIpcRecving ≠ 0) : Acts k cur (.ipcTrySend envid value srcva perm) e
  | fork {e : EnvPtr} (hfree : (k.envs e).envStatus = .FREE) : Acts k cur .exofork e
  | destroy {envid : Word} {e : EnvPtr} (he : k.envid2env cur envid true = some e) : Acts k cur (.envDestroy envid) e

/-- A call keeps to a policy. -/
structure CallPolicy (pol : Policy) (k : Kern) (cur : EnvPtr) (c : Call) : Prop where
  ins : ∀ x, k.insertion cur c = some x → pol.perm x.perm ∧ pol.page x.page
  drop : ∀ envid e d, c = .envDestroy envid → k.envid2env cur envid true = some e → k.dirs e = some d →
    pol.drop (k.envs e).envAsid d k.pm

namespace MemOk

variable {mc : Machine} {leak : Nat → Nat} {k k' : Kern} {e cur : EnvPtr} {c : Call} {pol : Policy} {d pp : Nat}
  {va perm r : Word}

theorem lt_of_legal (h : isIllegalVa va = false) : va < UTOP := by
  have hva : ¬UTOP ≤ va := by
    intro hle
    simp [isIllegalVa, hle] at h
  exact BitVec.not_le.1 hva

/-- The lookup in the address space of a live environment. -/
theorem lookup (h : MemOk mc leak k) (hd : k.dirs e = some d) (hlive : (k.envs e).envStatus ≠ .FREE) (hva : va < UTOP) :
    k.pageLookupEnv e va = some (k.mem.target mc (.pte e (PDX va) (PTX va))) := by
  have hdir : (k.envs e).envPgdir = some d := (dirs_of_live hlive).symm.trans hd
  rw [pageLookupEnv, hdir, Option.bind_some]
  rcases h.mem.pageLookup hd (Mem.PDX_lt_of_lt hva) with ⟨hnone, hl⟩ | ⟨t, pp, ht, hpte, hl⟩
  · rw [hl]
    exact congrArg some hnone.symm
  · have htgt : k.mem.target mc (.pte e (PDX va) (PTX va)) = some pp :=
      (target_pte ht (Mem.PDX_lt_of_lt hva)).trans hpte
    rw [hl, htgt]
    rfl

/-- Inserting a page into the address space of `e`, after the memory became `m`. -/
private theorem insert_moves {m : Pmap} {leak' : Nat → Nat} (h : Mem.Ok mc leak' ⟨k.dirs, m⟩) (hd : k.dirs e = some d)
    (hlive : (k.envs e).envStatus ≠ .FREE) (hva : va < UTOP) (hword : m.word d = k.pm.word d)
    (hins : k.hasRoom e va m.pageFreeList = true → Mem.Insertable mc pol k.dirs m pp perm ∧
      (m.ppRef pp ≠ 65535 ∨ target mc k.dirs m.word (.pte e (PDX va) (PTX va)) = some pp))
    (hi : (k.setPm m).pageInsertEnv e pp va perm = some (r, k')) :
    Moves mc pol e (k.envs e).envAsid ⟨k.dirs, m⟩ k'.mem := by
  have hdir : (k.envs e).envPgdir = some d := (dirs_of_live hlive).symm.trans hd
  obtain ⟨pgdir, pm, hp, hpm, rfl⟩ := pageInsertEnv_cases hi
  obtain rfl := Option.some.inj (hdir.symm.trans hp)
  have hmem : Kern.mem ((k.setPm m).setPm pm) = ⟨k.dirs, pm⟩ := rfl
  rw [hmem]
  cases hroom : k.hasRoom e va m.pageFreeList with
  | true =>
    obtain ⟨hins, hmax⟩ := hins hroom
    exact h.pageInsert_moves hd (Mem.PDX_lt_of_lt hva) hins hmax hpm
  | false =>
    rw [hasRoom, hdir, Option.any_some, Bool.or_eq_false_iff, ← hword] at hroom
    have hnil : m.pageFreeList = [] := by simpa using hroom.2
    exact Mem.Ok.pageInsert_full k.dirs hroom.1 hnil hpm

/-- Inserting a page that is mapped somewhere already. -/
private theorem share_moves (h : MemOk mc leak k) (hd : k.dirs e = some d) (hlive : (k.envs e).envStatus ≠ .FREE)
    (hva : va < UTOP) {s : Slot} {i j : Idx} {e' : EnvPtr} (hs : s = .pte e' i j) (hpp : k.mem.target mc s = some pp)
    (hins : k.hasRoom e va k.pm.pageFreeList = true → k.insertable ⟨e, pp, va, perm⟩ = true ∧ pol.perm perm ∧
      pol.page pp)
    (hi : k.pageInsertEnv e pp va perm = some (r, k')) : Moves mc pol e (k.envs e).envAsid k.mem k'.mem := by
  refine insert_moves h.mem hd hlive hva rfl (fun hroom => ?_) hi
  obtain ⟨hst, hperm, hpage⟩ := hins hroom
  simp only [insertable, Bool.and_eq_true, decide_eq_true_eq, Bool.or_eq_true] at hst
  rw [h.lookup hd hlive hva] at hst
  subst hs
  exact ⟨⟨h.mem.tree.data_of_pte hpp, h.mem.refs.notMem_free hpp, hst.1, hperm, .inr hpage⟩,
    hst.2.imp id Option.some.inj⟩

/-- A lookup that succeeds finds a page to which an entry refers. -/
theorem lookup_some (h : MemOk mc leak k) (hlive : (k.envs e).envStatus ≠ .FREE) (hva : va < UTOP)
    (hl : k.pageLookupEnv e va = some (some pp)) : k.mem.target mc (.pte e (PDX va) (PTX va)) = some pp := by
  obtain ⟨pgdir, _, hp, -⟩ := pageLookupEnv_cases hl
  have hd : k.dirs e = some pgdir := (dirs_of_live hlive).trans hp
  rw [h.lookup hd hlive hva] at hl
  exact Option.some.inj hl

/-- The directory of an environment for which `page_insert` does not panic. -/
theorem dir_of_insert {m : Pmap} (hlive : (k.envs e).envStatus ≠ .FREE)
    (hi : (k.setPm m).pageInsertEnv e pp va perm = some (r, k')) : ∃ d, k.dirs e = some d := by
  obtain ⟨pgdir, pm, hp, -⟩ := pageInsertEnv_cases hi
  exact ⟨pgdir, (dirs_of_live hlive).trans hp⟩

/-! ### The insertion that a call makes -/

theorem insertion_memAlloc {envid : Word} {rest : List Nat} (hva : isIllegalVa va = false)
    (he : k.envid2env cur envid true = some e) (hl : k.pm.pageFreeList = pp :: rest) (hroom : k.hasRoom e va rest = true) :
    k.insertion cur (.memAlloc envid va perm) = some ⟨e, pp, va, perm⟩ := by
  simp [insertion, hva, he, hl, hroom]

theorem insertion_memMap {srcid srcva dstid : Word} {srcenv : EnvPtr} (hsrcva : isIllegalVa srcva = false)
    (hva : isIllegalVa va = false) (hs : k.envid2env cur srcid true = some srcenv)
    (he : k.envid2env cur dstid true = some e) (hl : k.pageLookupEnv srcenv srcva = some (some pp))
    (hroom : k.hasRoom e va k.pm.pageFreeList = true) :
    k.insertion cur (.memMap srcid srcva dstid va perm) = some ⟨e, pp, va, perm⟩ := by
  simp [insertion, hva, hsrcva, hs, he, hl, hroom]

theorem insertion_ipcTrySend {envid value srcva : Word} (h0 : srcva ≠ 0) (hva : isIllegalVa srcva = false)
    (he : k.envid2env cur envid false = some e) (hrecv : (k.envs e).envIpcRecving ≠ 0)
    (hl : k.pageLookupEnv cur srcva = some (some pp))
    (hroom : k.hasRoom e (k.envs e).envIpcDstva k.pm.pageFreeList = true) :
    k.insertion cur (.ipcTrySend envid value srcva perm) = some ⟨e, pp, (k.envs e).envIpcDstva, perm⟩ := by
  have h0 : srcva ≠ 0#32 := h0
  have hrecv : (k.envs e).envIpcRecving ≠ 0#32 := hrecv
  simp [insertion, h0, hva, he, hrecv, hl, hroom]

/-- An admitted insertion can be stored and counted. -/
theorem insertable_of_admits {x : Insertion} (ha : callMemAdmits k cur c = true) (hx : k.insertion cur c = some x) :
    k.insertable x = true := by
  have hall : (k.insertion cur c).all k.insertable = true := by
    cases c with
    | exofork => cases hx
    | _ => exact ha
  rwa [hx, Option.all_some] at hall

/-- Without room for a table, `page_insert` fails. -/
theorem hasRoom_of_insert {m : Pmap} (hd : k.dirs e = some d) (hlive : (k.envs e).envStatus ≠ .FREE)
    (hword : m.word d = k.pm.word d) (hi : (k.setPm m).pageInsertEnv e pp va perm = some (0, k')) :
    k.hasRoom e va m.pageFreeList = true := by
  have hdir : (k.envs e).envPgdir = some d := (dirs_of_live hlive).symm.trans hd
  obtain ⟨pgdir, pm, hp, hpm, -⟩ := pageInsertEnv_cases hi
  obtain rfl := Option.some.inj (hdir.symm.trans hp)
  rw [setPm_pm] at hpm
  by_contra hroom
  rw [hasRoom, hdir, Option.any_some, ← hword, Bool.or_eq_true, not_or] at hroom
  have hv : has (m.word d (PDX va)) PTE_V = false := by simpa using hroom.1
  have hnil : m.pageFreeList = [] := by simpa using hroom.2
  rw [Pmap.pageInsert_unmapped (.inl hv), Pmap.pageInsertFresh_full hv hnil] at hpm
  simp only [Option.some.injEq, Prod.mk.injEq] at hpm
  exact absurd hpm.1 (by decide)

theorem memAlloc_moves (h : MemOk mc leak k) {envid : Word} {pm : Pmap} (hcur : (k.envs cur).envStatus ≠ .FREE)
    (hva : isIllegalVa va = false) (he : k.envid2env cur envid true = some e) (hp : k.pm.pageAlloc = some (pp, pm))
    (hi : (k.setPm pm).pageInsertEnv e pp va perm = some (r, k'))
    (ha : callMemAdmits k cur (.memAlloc envid va perm) = true) (hpol : CallPolicy pol k cur (.memAlloc envid va perm)) :
    Moves mc pol e (k.envs e).envAsid k.mem k'.mem := by
  have hlive := envid2env_live hcur he
  obtain ⟨d, hd⟩ := dir_of_insert hlive hi
  obtain ⟨rest, hl, rfl⟩ := Pmap.pageAlloc_cases hp
  have htake : Move mc pol e (k.envs e).envAsid k.mem ⟨k.dirs, k.pm.take pp rest⟩ := .take hl
  have hne : d ≠ pp := fun heq =>
    (h.mem.fresh (by rw [hl]; exact List.mem_cons_self ..)).unused (.dir e) (heq ▸ hd)
  have hword : (k.pm.take pp rest).word d = k.pm.word d := Function.update_of_ne hne ..
  refine (Relation.ReflTransGen.single htake).trans
    (insert_moves (h.mem.take hl) hd hlive (lt_of_legal hva) hword (fun hroom => ?_) hi)
  have hins : k.insertion cur (.memAlloc envid va perm) = some ⟨e, pp, va, perm⟩ := insertion_memAlloc hva he hl hroom
  have hst := insertable_of_admits ha hins
  simp only [insertable, Bool.and_eq_true, decide_eq_true_eq] at hst
  obtain ⟨hins', hmax⟩ := h.mem.insertable hl hst.1 (hpol.ins _ hins).1
  exact ⟨hins', .inl hmax⟩

theorem memMap_moves (h : MemOk mc leak k) {srcid srcva dstid : Word} {srcenv : EnvPtr}
    (hcur : (k.envs cur).envStatus ≠ .FREE) (hsrcva : isIllegalVa srcva = false) (hva : isIllegalVa va = false)
    (hs : k.envid2env cur srcid true = some srcenv) (he : k.envid2env cur dstid true = some e)
    (hl : k.pageLookupEnv srcenv srcva = some (some pp)) (hi : k.pageInsertEnv e pp va perm = some (r, k'))
    (ha : callMemAdmits k cur (.memMap srcid srcva dstid va perm) = true)
    (hpol : CallPolicy pol k cur (.memMap srcid srcva dstid va perm)) :
    Moves mc pol e (k.envs e).envAsid k.mem k'.mem := by
  have hlive := envid2env_live hcur he
  obtain ⟨d, hd⟩ := dir_of_insert (m := k.pm) hlive hi
  have hpp := h.lookup_some (envid2env_live hcur hs) (lt_of_legal hsrcva) hl
  refine h.share_moves hd hlive (lt_of_legal hva) rfl hpp (fun hroom => ?_) hi
  have hins : k.insertion cur (.memMap srcid srcva dstid va perm) = some ⟨e, pp, va, perm⟩ :=
    insertion_memMap hsrcva hva hs he hl hroom
  exact ⟨insertable_of_admits ha hins, hpol.ins _ hins⟩

/-- Waking the receiver does not concern the memory. -/
theorem ipcWake (h : MemOk mc leak k) (hlive : (k.envs e).envStatus ≠ .FREE) (cur : EnvPtr) (value perm : Word)
    (q : TailQueue EnvPtr) : (k.ipcWake cur e value perm q).mem = k.mem ∧ MemOk mc leak (k.ipcWake cur e value perm q) := by
  have hmem : (k.ipcWake cur e value perm q).mem = k.mem := mem_setEnv ⟨nofun, fun heq => absurd heq hlive⟩ rfl
  refine ⟨hmem, h.live.ipcWake hlive value perm q, hmem ▸ h.mem, h.base, fun e' => ?_⟩
  rw [ipcWake_field Env.envIpcDstva fun _ _ _ _ => rfl]
  exact h.dstva e'

theorem ipcPage_moves (h : MemOk mc leak k) {envid value srcva : Word} {q : TailQueue EnvPtr}
    (hcur : (k.envs cur).envStatus ≠ .FREE) (hva : isIllegalVa srcva = false)
    (he : k.envid2env cur envid false = some e) (hrecv : (k.envs e).envIpcRecving ≠ 0) (h0 : srcva ≠ 0)
    (hl : (k.ipcWake cur e value perm q).pageLookupEnv cur srcva = some (some pp))
    (hi : (k.ipcWake cur e value perm q).pageInsertEnv e pp ((k.ipcWake cur e value perm q).envs e).envIpcDstva perm =
      some (r, k'))
    (ha : callMemAdmits k cur (.ipcTrySend envid value srcva perm) = true)
    (hpol : CallPolicy pol k cur (.ipcTrySend envid value srcva perm)) :
    Moves mc pol e (k.envs e).envAsid k.mem k'.mem := by
  have hlive := envid2env_live hcur he
  obtain ⟨hmem, h₁⟩ := h.ipcWake hlive cur value perm q
  have hdst : ((k.ipcWake cur e value perm q).envs e).envIpcDstva = (k.envs e).envIpcDstva :=
    ipcWake_field Env.envIpcDstva (fun _ _ _ _ => rfl) k cur e value perm q e
  have hasid : ((k.ipcWake cur e value perm q).envs e).envAsid = (k.envs e).envAsid :=
    ipcWake_field Env.envAsid (fun _ _ _ _ => rfl) k cur e value perm q e
  have hdir : ((k.ipcWake cur e value perm q).envs e).envPgdir = (k.envs e).envPgdir :=
    ipcWake_field Env.envPgdir (fun _ _ _ _ => rfl) k cur e value perm q e
  have hlive₁ : ((k.ipcWake cur e value perm q).envs e).envStatus ≠ .FREE := by
    rw [Kern.ipcWake, setEnv_self]
    exact nofun
  have hcur₁ : ((k.ipcWake cur e value perm q).envs cur).envStatus ≠ .FREE := by
    by_cases hce : cur = e
    · subst hce
      exact hlive₁
    · rw [Kern.ipcWake, setEnv_of_ne hce]
      exact hcur
  rw [hdst] at hi
  obtain ⟨d, hd⟩ := dir_of_insert (m := (k.ipcWake cur e value perm q).pm) hlive₁ hi
  have hpp := h₁.lookup_some hcur₁ (lt_of_legal hva) hl
  rw [← hmem, ← hasid]
  refine h₁.share_moves hd hlive₁ (h.dstva e) rfl hpp (fun hroom => ?_) hi
  rw [ipcWake_lookup] at hl
  have hroom : k.hasRoom e (k.envs e).envIpcDstva k.pm.pageFreeList = true := by
    rw [hasRoom, hdir] at hroom
    exact hroom
  have hins : k.insertion cur (.ipcTrySend envid value srcva perm) = some ⟨e, pp, (k.envs e).envIpcDstva, perm⟩ :=
    insertion_ipcTrySend h0 hva he hrecv hl hroom
  refine ⟨?_, hpol.ins _ hins⟩
  rw [insertable, ipcWake_lookup]
  exact insertable_of_admits ha hins

/-- Where there is no page for a directory, the slot has none. -/
theorem old_pgdir {rest : List EnvPtr} (hl : k.envFreeList = e :: rest)
    (hfull : k.pm.envSetupVm k.basePgdir = none) (hfree : k.vmFree = true) : (k.envs e).envPgdir = none := by
  have hnil : k.pm.pageFreeList = [] := by
    cases hl : k.pm.pageFreeList with
    | nil => rfl
    | cons q rest =>
      rw [Pmap.envSetupVm, Pmap.pageAlloc, hl] at hfull
      cases hfull
  rw [vmFree, hl, hnil] at hfree
  simpa using hfree

/-- The directory of the new environment, and the tables below it. -/
theorem alloc_moves (h : MemOk mc leak k) {pgdir : Option Nat} {pm : Pmap} {rest : List EnvPtr}
    (hl : k.envFreeList = e :: rest) (hvm : k.VmSetup e pgdir pm) (hfree : k.vmFree = true) (asid : Asid) :
    Moves mc pol e asid k.mem ⟨Function.update k.dirs e pgdir, pm⟩ := by
  have hst : (k.envs e).envStatus = .FREE := h.live.free e (by rw [hl]; exact List.mem_cons_self ..)
  have hnone : k.dirs e = none := dirs_of_free hst
  cases hvm with
  | ok hok =>
    rw [h.base] at hok
    exact .single (.newDir hnone hok)
  | full hfull =>
    have hold := old_pgdir hl hfull hfree
    have hsame : Function.update k.dirs e (k.envs e).envPgdir = k.dirs := by
      rw [hold, ← hnone, Function.update_eq_self]
    rw [hsame]
    exact .refl

/-- The memory after `sys_env_destroy`. -/
theorem mem_envDestroy {left : Bool} (hd : k.envDestroy e = some (k', left)) :
    ∃ pgdir pm, (k.envs e).envPgdir = some pgdir ∧ k.pm.freeSpace pgdir (k.envs e).envAsid = some pm ∧
      k'.mem = ⟨Function.update k.dirs e none, pm⟩ := by
  obtain ⟨k₁, hf, hk'⟩ := envDestroy_cases hd
  obtain ⟨pgdir, pm, q, hp, hpm, -, rfl⟩ := envFree_cases hf
  have hfreed : (k.freed e pm q).mem = ⟨Function.update k.dirs e none, pm⟩ := by
    rw [Kern.mem, dirs_freed]
    rfl
  refine ⟨pgdir, pm, hp, hpm, ?_⟩
  rcases hk' with ⟨-, -, hs⟩ | ⟨-, -, rfl⟩
  · exact (mem_schedule hs).trans hfreed
  · exact hfreed

theorem destroy_moves (h : MemOk mc leak k) {envid : Word} {left : Bool} (hcur : (k.envs cur).envStatus ≠ .FREE)
    (he : k.envid2env cur envid true = some e) (hd : k.envDestroy e = some (k', left))
    (hpol : CallPolicy pol k cur (.envDestroy envid)) : Moves mc pol e (k.envs e).envAsid k.mem k'.mem := by
  obtain ⟨pgdir, pm, hp, hpm, hmem⟩ := mem_envDestroy hd
  have hdir : k.dirs e = some pgdir := (dirs_of_live (envid2env_live hcur he)).trans hp
  rw [hmem]
  exact h.mem.freeSpace_moves hdir (hpol.drop envid e pgdir rfl he hdir) hpm

/-- The other calls leave the memory alone. -/
theorem call_mem {r : Option Word} (hcur : (k.envs cur).envStatus ≠ .FREE) (hs : CallStep k cur c k' r)
    (hc : c.remaps = false) : k'.mem = k.mem := by
  cases hs with
  | unchanged c r hfail => rfl
  | yield hy => exact mem_schedule hy
  | setTlbModEntry he => exact mem_setEnv Iff.rfl rfl
  | setEnvStatus hst he hset =>
    exact mem_setEnvStatus (envid2env_live hcur he) (LiveOk.legalStatus_ne_free hst) hset
  | setTrapframe _ _ _ => exact mem_setTf k cur _ _
  | ipcRecv _ hsch =>
    refine (mem_schedule hsch).trans ?_
    exact mem_setEnv (k := k.setKtf (k.ktf.setReg 2 0)) ⟨nofun, fun heq => absurd heq hcur⟩ rfl
  | sigaction _ => exact mem_setEnv Iff.rfl rfl
  | sigprocmask _ => exact mem_setEnv Iff.rfl rfl
  | kill _ hn => exact mem_pended hn _
  | @backDoSignal _ _ _ _ e frame mask _ _ _ _ =>
    exact (mem_setEnv (k := k.setTf cur e frame) Iff.rfl rfl).trans (mem_setTf k cur e frame)
  | setSigEntry _ => exact mem_setEnv Iff.rfl rfl
  | envDestroy => cases hc
  | memAlloc => cases hc
  | memMap => cases hc
  | memUnmap => cases hc
  | exofork => cases hc
  | ipcWoken => cases hc
  | ipcPage => cases hc

/-- A system call makes small steps for one environment. -/
theorem call_moves (h : MemOk mc leak k) {r : Option Word} (hcur : (k.envs cur).envStatus ≠ .FREE)
    (hs : CallStep k cur c k' r) (ha : callMemAdmits k cur c = true) (hpol : CallPolicy pol k cur c) :
    ∃ e, Acts k cur c e ∧ Moves mc pol e (k'.envs e).envAsid k.mem k'.mem := by
  have hsame : k'.mem = k.mem → ∃ e, Acts k cur c e ∧ Moves mc pol e (k'.envs e).envAsid k.mem k'.mem := by
    intro hmem
    rw [hmem]
    exact ⟨cur, .none c, .refl⟩
  cases hmap : c.remaps with
  | false => exact hsame (call_mem hcur hs hmap)
  | true =>
    cases hs with
    | unchanged => exact hsame rfl
    | @envDestroy envid e _ left he hd =>
      have hasid : (k'.envs e).envAsid = (k.envs e).envAsid := by
        obtain ⟨k₁, hf, hk'⟩ := envDestroy_cases hd
        obtain ⟨pgdir, pm, q, -, -, -, rfl⟩ := envFree_cases hf
        have hfreed : ((k.freed e pm q).envs e).envAsid = (k.envs e).envAsid := by
          rw [Kern.freed, setEnv_self]
          rfl
        rcases hk' with ⟨-, -, hs⟩ | ⟨-, -, rfl⟩
        · obtain ⟨q', n, e', -, rfl, -⟩ := schedule_cases hs
          exact (running_field Env.envAsid (fun _ _ => rfl) (fun _ _ => rfl) _ q' n e' e).trans hfreed
        · exact hfreed
      exact ⟨e, .destroy he, hasid ▸ h.destroy_moves hcur he hd hpol⟩
    | @memAlloc envid va perm r e pp pm _ hva he hp hi =>
      have hasid : (k'.envs e).envAsid = (k.envs e).envAsid := by
        obtain ⟨_, _, -, -, rfl⟩ := pageInsertEnv_cases hi
        rfl
      exact ⟨e, .memAlloc he, hasid ▸ h.memAlloc_moves hcur hva he hp hi ha hpol⟩
    | @memMap srcid srcva dstid dstva perm r srcenv dstenv pp _ hsrcva hdstva hs hd hl hi =>
      have hasid : (k'.envs dstenv).envAsid = (k.envs dstenv).envAsid := by
        obtain ⟨_, _, -, -, rfl⟩ := pageInsertEnv_cases hi
        rfl
      exact ⟨dstenv, .memMap hd, hasid ▸ h.memMap_moves hcur hsrcva hdstva hs hd hl hi ha hpol⟩
    | @memUnmap envid va e pgdir pm hva he hp hr =>
      have hd : k.dirs e = some pgdir := (dirs_of_live (envid2env_live hcur he)).trans hp
      exact ⟨e, .memUnmap he, h.mem.pageRemove_moves hd (Mem.PDX_lt_of_lt (lt_of_legal hva)) hr⟩
    | @exofork e k₁ hal =>
      obtain ⟨rest, pgdir, pm, asid, bitmap, hl, hvm, -, rfl⟩ := envAlloc_cases hal
      have hst : (k.envs e).envStatus = .FREE := h.live.free e (by rw [hl]; exact List.mem_cons_self ..)
      refine ⟨e, .fork hst, ?_⟩
      rw [mem_forked]
      exact h.alloc_moves hl hvm ha _
    | @ipcWoken envid value srcva perm r e q _ he _ _ _ =>
      exact hsame (h.ipcWake (envid2env_live hcur he) cur value perm q).1
    | @ipcPage envid value srcva perm r e q pp _ hva he hrecv _ h0 hl hi =>
      have hasid : (k'.envs e).envAsid = (k.envs e).envAsid := by
        obtain ⟨_, _, -, -, rfl⟩ := pageInsertEnv_cases hi
        exact ipcWake_field Env.envAsid (fun _ _ _ _ => rfl) k cur e value perm q e
      exact ⟨e, .ipc he hrecv, hasid ▸ h.ipcPage_moves hcur hva he hrecv h0 hl hi ha hpol⟩
    | _ => cases hmap

/-! ### Faults and new environments -/

theorem pageLookup_congr {m : Pmap} {va' : Word} (h : VPN va' = VPN va) : m.pageLookup d va' = m.pageLookup d va := by
  have hdx : PDX va' = PDX va := congrArg Prod.fst h
  have htx : PTX va' = PTX va := congrArg Prod.snd h
  simp only [Pmap.pageLookup, Pmap.pgdirWalk, hdx, htx]

theorem PDX_uvpt (hlo : UVPT ≤ va) (hhi : va < ULIM) : PDX va = PDX UVPT := by
  have hnum : UVPT.toNat = 511 * 2 ^ 22 ∧ ULIM.toNat = 512 * 2 ^ 22 := by decide
  have hlo : UVPT.toNat ≤ va.toNat := hlo
  have hhi : va.toNat < ULIM.toNat := hhi
  have h511 : (PDX UVPT : Nat) = 511 := by decide
  apply Fin.ext
  rw [h511, PDX_toNat]
  omega

/-- An address for which `passive_alloc` allocates lies below `UTOP` or in the window of the page tables. -/
theorem window_of_allowed (hva : va < ULIM) (hf : forbidden va = false) : va < UTOP ∨ PDX va = PDX UVPT := by
  by_cases hlt : va < UTOP
  · exact .inl hlt
  · right
    refine PDX_uvpt ?_ hva
    by_contra hne
    have hin : forbidden va = true := by
      have hlow : UENVS ≤ va := BitVec.not_lt.1 hlt
      by_cases hp : va < UPAGES
      · simp [forbidden, hlow, hp]
      · simp [forbidden, BitVec.not_lt.1 hp, BitVec.not_le.1 hne]
    rw [hf] at hin
    cases hin

private theorem passiveAlloc_moves {m : Pmap} {m' : Pmap} {leak : Nat → Nat} {D : Dirs} {asid : Asid}
    (h : Mem.Ok mc leak ⟨D, m⟩) (hd : D e = some d) (hva : va < ULIM) (hf : forbidden va = false)
    (hl : m.pageLookup d va = some none) {m₁ : Pmap} (ha : m.pageAlloc = some (pp, m₁))
    (hp : m₁.pageInsert d asid pp (PTE_ADDR va) PTE_D = some (r, m')) : Moves mc pol e asid ⟨D, m⟩ ⟨D, m'⟩ := by
  have hdx : PDX (PTE_ADDR va) = PDX va := congrArg Prod.fst (VPN_PTE_ADDR va)
  rcases window_of_allowed hva hf with hlt | hwin
  · refine h.alloc_moves hd (by rw [hdx]; exact Mem.PDX_lt_of_lt hlt) ha ?_ pol.own.2.2 hp
    rw [show PPN PTE_D = 0 by decide, Nat.or_zero]
  · rw [← pageLookup_congr (VPN_PTE_ADDR va)] at hl
    exact h.window_moves hd (hdx.trans hwin) hl ha hp

/-- The insertion of a fault. -/
theorem served_insert (hcur : (k.envs cur).envStatus ≠ .FREE) (hp : (k.envs cur).envPgdir = some d)
    (halloc : k.passiveAlloc cur va = some k') : ∃ pp m₁ m', k.dirs cur = some d ∧ forbidden va = false ∧
      k.pm.pageAlloc = some (pp, m₁) ∧ m₁.pageInsert d (k'.envs cur).envAsid pp (PTE_ADDR va) PTE_D = some (0, m') ∧
      k'.mem = ⟨k.dirs, m'⟩ := by
  obtain ⟨k₀, pp, pm, hsegv, hf, ha, hi⟩ := passiveAlloc_cases halloc
  have hmem := mem_segv hsegv
  have hpm : k₀.pm = k.pm := congrArg Mem.pm hmem
  have hdirs : k₀.dirs = k.dirs := congrArg Mem.dirs hmem
  obtain ⟨pgdir', pm', hp', hins, rfl⟩ := pageInsertEnv_cases hi
  have hdir : (k₀.envs cur).envPgdir = (k.envs cur).envPgdir := by
    cases hsegv with
    | none => rfl
    | sent _ hn =>
      obtain ⟨-, rfl⟩ := signoAlloc_cases hn
      exact setEnv_field Env.envPgdir (by rfl) cur
  obtain rfl : d = pgdir' := Option.some.inj (hp.symm.trans (hdir.symm.trans hp'))
  refine ⟨pp, pm, pm', (dirs_of_live hcur).trans hp, hf, hpm ▸ ha, hins, ?_⟩
  rw [← hdirs]
  rfl

theorem served_moves (h : MemOk mc leak k) (hcur : (k.envs cur).envStatus ≠ .FREE) (hva : va < ULIM)
    (hs : k.Served cur va k') : Moves mc pol cur (k'.envs cur).envAsid k.mem k'.mem := by
  cases hs with
  | mapped => exact .refl
  | alloc hp hl halloc =>
    obtain ⟨pp, m₁, m', hd, hf, ha, hins, hmem⟩ := served_insert hcur hp halloc
    rw [hmem]
    exact passiveAlloc_moves h.mem hd hva hf hl ha hins

/-- The memory that a new environment is loaded into, and the one that is left. -/
theorem mem_created {binary : Image} {priority : Word} (hc : k.envCreate binary priority = some k') :
    ∃ e rest pgdir pm₁ pm, k.envFreeList = e :: rest ∧ k.VmSetup e (some pgdir) pm₁ ∧
      pm₁.loadIcode pgdir (k'.envs e).envAsid binary = some pm ∧
      k'.mem = ⟨Function.update k.dirs e (some pgdir), pm⟩ := by
  obtain ⟨e, k₁, pgdir, pm, hal, hp, hload, rfl⟩ := envCreate_cases hc
  obtain ⟨rest, pgdir', pm₁, asid, bitmap, hl, hvm, -, rfl⟩ := envAlloc_cases hal
  rw [allocated, setEnv_self] at hp hload
  obtain rfl : pgdir' = some pgdir := hp
  have hdirs := dirs_allocated k e rest (some pgdir) pm₁ asid bitmap 0 (f := fun env => { env with
    envPri := priority
    envStatus := .RUNNABLE
    envTf := { env.envTf with cp0Epc := binary.entry } }) (fun _ h => by cases h) fun _ => rfl
  have hasid : ((((k.allocated e rest (some pgdir) pm₁ asid bitmap 0).created e pm binary priority).envs e).envAsid) =
      asid := by
    rw [created, setSched_envs, setEnv_self, setPm_envs, allocated, setEnv_self]
    rfl
  refine ⟨e, rest, pgdir, pm₁, pm, hl, hvm, ?_, ?_⟩
  · rw [hasid]
    exact hload
  · rw [← hdirs]
    rfl

theorem create_moves (h : MemOk mc leak k) {binary : Image} {priority : Word} (hfree : k.vmFree = true)
    (hc : k.envCreate binary priority = some k') : ∃ e, k.envFreeList.head? = some e ∧
      Moves mc pol e (k'.envs e).envAsid k.mem k'.mem := by
  obtain ⟨e, rest, pgdir, pm₁, pm, hl, hvm, hload, hmem⟩ := mem_created hc
  refine ⟨e, by rw [hl]; rfl, ?_⟩
  have hmoves : Moves mc pol e (k'.envs e).envAsid k.mem ⟨Function.update k.dirs e (some pgdir), pm₁⟩ :=
    h.alloc_moves hl hvm hfree _
  obtain ⟨leak₁, h₁, -⟩ := h.mem.moves hmoves
  rw [hmem]
  exact hmoves.trans (h₁.loadIcode_moves (Function.update_self ..) hload)

/-! ### The other fields -/

private theorem call_base {r : Option Word} (hs : CallStep k cur c k' r) : k'.basePgdir = k.basePgdir := by
  have hsch : ∀ {k k' : Kern} {yield : Bool}, k.schedule yield = some k' → k'.basePgdir = k.basePgdir := by
    intro k k' yield h
    obtain ⟨q, n, e, -, rfl, -⟩ := schedule_cases h
    unfold running saveTf
    split <;> rfl
  cases hs with
  | yield h => exact hsch h
  | envDestroy _ h =>
    obtain ⟨k₁, hf, hk'⟩ := envDestroy_cases h
    obtain ⟨_, _, _, -, -, -, rfl⟩ := envFree_cases hf
    rcases hk' with ⟨-, -, hs⟩ | ⟨-, -, rfl⟩
    · exact (hsch hs).trans rfl
    · rfl
  | memAlloc _ _ _ hi => obtain ⟨_, _, -, -, rfl⟩ := pageInsertEnv_cases hi; rfl
  | memMap _ _ _ _ _ hi => obtain ⟨_, _, -, -, rfl⟩ := pageInsertEnv_cases hi; rfl
  | exofork h => obtain ⟨_, _, _, _, _, -, -, -, rfl⟩ := envAlloc_cases h; rfl
  | setEnvStatus _ _ h => obtain ⟨_, -, rfl⟩ := Option.map_eq_some_iff.1 h; rfl
  | setTrapframe => unfold setTf; split <;> rfl
  | ipcPage _ _ _ _ _ _ hi => obtain ⟨_, _, -, -, rfl⟩ := pageInsertEnv_cases hi; rfl
  | ipcRecv _ h => exact (hsch h).trans rfl
  | kill _ h => obtain ⟨-, rfl⟩ := signoAlloc_cases h; rfl
  | @backDoSignal _ _ _ _ e frame =>
    have htf : (k.setTf cur e frame).basePgdir = k.basePgdir := by unfold setTf; split <;> rfl
    exact htf
  | _ => rfl

/-- `env_ipc_dstva` is set by `sys_ipc_recv` only. -/
theorem call_dstva_eq {r : Option Word} (hs : CallStep k cur c k' r) (e : EnvPtr) :
    (k'.envs e).envIpcDstva = (c.recvOf cur e).getD (k.envs e).envIpcDstva := by
  have hfield : ∀ (k₁ : Kern) (e₁ : EnvPtr) (f : Env → Env), (f (k₁.envs e₁)).envIpcDstva = (k₁.envs e₁).envIpcDstva →
      ((k₁.setEnv e₁ f).envs e).envIpcDstva = (k₁.envs e).envIpcDstva :=
    fun k₁ e₁ f hf => setEnv_field Env.envIpcDstva hf e
  have hsch : ∀ {k k' : Kern} {yield : Bool}, k.schedule yield = some k' →
      (k'.envs e).envIpcDstva = (k.envs e).envIpcDstva := by
    intro k k' yield h
    obtain ⟨q, n, e', -, rfl, -⟩ := schedule_cases h
    exact running_field Env.envIpcDstva (fun _ _ => rfl) (fun _ _ => rfl) k q n e' e
  -- Every other call stores other fields, and so does `schedule`.
  cases hs with
  | unchanged _ _ hfail =>
    cases c with
    | ipcRecv dstva => rw [Call.recvOf, if_neg fun h => h.2 hfail]; rfl
    | _ => rfl
  | yield hy => exact hsch hy
  | @envDestroy _ e' _ _ _ hd =>
    obtain ⟨k₁, hf, hk'⟩ := envDestroy_cases hd
    obtain ⟨_, pm, q, -, -, -, rfl⟩ := envFree_cases hf
    have hfreed : ((k.freed e' pm q).envs e).envIpcDstva = (k.envs e).envIpcDstva := hfield _ e' _ rfl
    rcases hk' with ⟨-, -, hs⟩ | ⟨-, -, rfl⟩
    · exact (hsch hs).trans hfreed
    · exact hfreed
  | @setTlbModEntry _ _ e' => exact hfield k e' _ rfl
  | memAlloc _ _ _ hi => obtain ⟨_, _, -, -, rfl⟩ := pageInsertEnv_cases hi; rfl
  | memMap _ _ _ _ _ hi => obtain ⟨_, _, -, -, rfl⟩ := pageInsertEnv_cases hi; rfl
  | memUnmap => rfl
  | @exofork e' _ hal =>
    obtain ⟨rest, pgdir, pm, asid, bitmap, -, -, -, rfl⟩ := envAlloc_cases hal
    rw [hfield (k.allocated e' rest pgdir pm asid bitmap (k.envs cur).envId) e' _ (by rfl), allocated,
      hfield ((((k.setFreeList rest).setPm pm).setBitmap bitmap).setMkenvidI (k.mkenvidI + 1)) e' _ (by rfl)]
    rfl
  | @setEnvStatus _ _ _ e' _ _ _ hset =>
    obtain ⟨q, -, rfl⟩ := Option.map_eq_some_iff.1 hset
    exact hfield _ e' _ rfl
  | @setTrapframe _ _ _ e' =>
    unfold setTf
    split
    · rfl
    · exact hfield k e' _ rfl
  | @ipcWoken _ value _ perm _ e' q =>
    exact ipcWake_field Env.envIpcDstva (fun _ _ _ _ => rfl) k cur e' value perm q e
  | @ipcPage _ value _ perm _ e' q _ _ _ _ _ _ _ _ hi =>
    obtain ⟨_, _, -, -, rfl⟩ := pageInsertEnv_cases hi
    exact ipcWake_field Env.envIpcDstva (fun _ _ _ _ => rfl) k cur e' value perm q e
  | @ipcRecv dstva _ hva hs =>
    have hlegal : ¬(dstva ≠ 0 ∧ isIllegalVa dstva = true) := by
      rcases hva with rfl | hva
      · exact fun h => h.1 rfl
      · exact fun h => by rw [hva] at h; cases h.2
    rw [hsch hs, ipcWait, Call.recvOf]
    by_cases he : cur = e
    · rw [if_pos ⟨he, hlegal⟩, he, setEnv_self]
      rfl
    · rw [if_neg fun h => he h.1, setEnv_of_ne (Ne.symm he)]
      rfl
  | sigaction => exact hfield _ cur _ rfl
  | sigprocmask => exact hfield _ cur _ rfl
  | @kill _ _ e' _ _ _ hn =>
    obtain ⟨-, rfl⟩ := signoAlloc_cases hn
    exact hfield _ e' _ rfl
  | @backDoSignal _ _ _ _ e' frame =>
    rw [hfield _ cur _ rfl, setTf]
    split
    · rfl
    · exact hfield k e' _ rfl
  | @setSigEntry _ _ e' => exact hfield k e' _ rfl

private theorem call_dstva {r : Option Word} (h : ∀ e, (k.envs e).envIpcDstva < UTOP) (hs : CallStep k cur c k' r)
    (e : EnvPtr) :
    (k'.envs e).envIpcDstva < UTOP := by
  rw [call_dstva_eq hs e]
  cases hr : c.recvOf cur e with
  | none => exact h e
  | some dstva =>
    rcases Call.recvOf_legal hr with rfl | hva
    · show (0 : Word) < UTOP
      decide
    · exact lt_of_legal hva

private theorem segv_dstva {c : EnvPtr} (hs : k.Segv c va k') (e : EnvPtr) :
    (k'.envs e).envIpcDstva = (k.envs e).envIpcDstva := by
  cases hs with
  | none => rfl
  | sent _ hn =>
    obtain ⟨-, rfl⟩ := signoAlloc_cases hn
    exact setEnv_field Env.envIpcDstva (by rfl) e

theorem served_dstva (hs : k.Served cur va k') (e : EnvPtr) : (k'.envs e).envIpcDstva = (k.envs e).envIpcDstva := by
  cases hs with
  | mapped => rfl
  | alloc _ _ halloc =>
    obtain ⟨k₀, pp, pm, hsegv, -, -, hi⟩ := passiveAlloc_cases halloc
    obtain ⟨_, _, -, -, rfl⟩ := pageInsertEnv_cases hi
    exact segv_dstva hsegv e

theorem create_dstva {binary : Image} {priority : Word} (hc : k.envCreate binary priority = some k') (e : EnvPtr) :
    (k'.envs e).envIpcDstva = (k.envs e).envIpcDstva := by
  obtain ⟨e₁, k₁, pgdir, pm, hal, -, -, rfl⟩ := envCreate_cases hc
  obtain ⟨rest, pgdir', pm₁, asid, bitmap, -, -, -, rfl⟩ := envAlloc_cases hal
  have halloc := setEnv_field (k := (((k.setFreeList rest).setPm pm₁).setBitmap bitmap).setMkenvidI (k.mkenvidI + 1))
    (e := e₁) (f := fun env => initEnv (k.mkenvid e₁).1 0 { env with envPgdir := pgdir', envAsid := asid })
    Env.envIpcDstva rfl e
  have hcreated := setEnv_field (k := (k.allocated e₁ rest pgdir' pm₁ asid bitmap 0).setPm pm) (e := e₁)
    (f := fun env => { env with
      envPri := priority
      envStatus := .RUNNABLE
      envTf := { env.envTf with cp0Epc := binary.entry } }) Env.envIpcDstva rfl e
  exact hcreated.trans halloc

/-! ### Steps of the system -/

/-- The invariant after small steps. -/
private theorem of_moves (h : MemOk mc leak k) {asid : Asid} (hm : Moves mc pol e asid k.mem k'.mem) (hlive : LiveOk k')
    (hbase : k'.basePgdir = k.basePgdir) (hdst : ∀ e, (k'.envs e).envIpcDstva < UTOP) :
    ∃ leak', MemOk mc leak' k' ∧ ((∀ asid d m, pol.drop asid d m → Mem.NoJunk d m) → leak' = leak) := by
  obtain ⟨leak', hok, hleak⟩ := h.mem.moves hm
  exact ⟨leak', ⟨hlive, hok, hbase.trans h.base, hdst⟩, hleak⟩

/-- The invariant where the memory does not change. -/
private theorem of_mem (h : MemOk mc leak k) (hmem : k'.mem = k.mem) (hlive : LiveOk k')
    (hbase : k'.basePgdir = k.basePgdir)
    (hdst : ∀ e, (k'.envs e).envIpcDstva = (k.envs e).envIpcDstva) : MemOk mc leak k' :=
  ⟨hlive, hmem ▸ h.mem, hbase.trans h.base, fun e => by rw [hdst]; exact h.dstva e⟩

/-- A change of the TLB does not matter. -/
theorem setTlb (h : MemOk mc leak k) (tlb : List TlbEntry) : MemOk mc leak (k.setPm { k.pm with tlb := tlb }) := by
  refine ⟨h.live.setPm _, ?_, h.base, h.dstva⟩
  exact ⟨h.mem.tree, h.mem.refs.congr rfl rfl rfl⟩

theorem skipInsn (h : MemOk mc leak k) : MemOk mc leak k.skipInsn := ⟨h.live.setKtf _, h.mem, h.base, h.dstva⟩

theorem call (h : MemOk mc leak k) {r : Option Word} (hcur : k.curenv = some cur) (hs : CallStep k cur c k' r)
    (ha : callMemAdmits k cur c = true) (hpol : CallPolicy pol k cur c) :
    ∃ leak', MemOk mc leak' k' ∧ ((∀ asid d m, pol.drop asid d m → Mem.NoJunk d m) → leak' = leak) := by
  obtain ⟨e, -, hm⟩ := h.call_moves (h.live.cur cur hcur) hs ha hpol
  exact h.of_moves hm (h.live.call hcur hs) (call_base hs) (call_dstva h.dstva hs)

theorem sigFrame {c : EnvPtr} (h : MemOk mc leak k) (hf : SigFrame c k k') : MemOk mc leak k' := by
  refine h.of_mem (mem_sigFrame hf) (h.live.sigFrame hf) ?_ fun e => hf.field Env.envIpcDstva (fun _ _ _ => rfl) e
  obtain ⟨_, _, _, _, _, rfl⟩ := hf
  rfl

theorem segv {c : EnvPtr} (h : MemOk mc leak k) (hlive : LiveOk k') (hs : k.Segv c va k') : MemOk mc leak k' := by
  refine h.of_mem (mem_segv hs) hlive ?_ (segv_dstva hs)
  cases hs with
  | none => rfl
  | sent _ hn => obtain ⟨-, rfl⟩ := signoAlloc_cases hn; rfl

theorem served (h : MemOk mc leak k) (hcur : (k.envs cur).envStatus ≠ .FREE) (hva : va < ULIM)
    (hs : k.Served cur va k') :
    ∃ leak', MemOk mc leak' k' ∧ ((∀ asid d m, pol.drop asid d m → Mem.NoJunk d m) → leak' = leak) := by
  refine h.of_moves (h.served_moves hcur hva hs) (h.live.served hs) ?_ fun e => served_dstva hs e ▸ h.dstva e
  cases hs with
  | mapped => rfl
  | alloc _ _ halloc =>
    obtain ⟨k₀, pp, pm, hsegv, -, -, hi⟩ := passiveAlloc_cases halloc
    obtain ⟨_, _, -, -, rfl⟩ := pageInsertEnv_cases hi
    cases hsegv with
    | none => rfl
    | sent _ hn => obtain ⟨-, rfl⟩ := signoAlloc_cases hn; rfl

theorem create {binary : Image} {priority : Word} (h : MemOk mc leak k) (hfree : k.vmFree = true)
    (hc : k.envCreate binary priority = some k') :
    ∃ leak', MemOk mc leak' k' ∧ ((∀ asid d m, pol.drop asid d m → Mem.NoJunk d m) → leak' = leak) := by
  obtain ⟨e, -, hm⟩ : ∃ e, k.envFreeList.head? = some e ∧ Moves mc pol e (k'.envs e).envAsid k.mem k'.mem :=
    h.create_moves hfree hc
  refine h.of_moves hm (h.live.create hc) ?_ fun e' => create_dstva hc e' ▸ h.dstva e'
  obtain ⟨e, k₁, pgdir, pm, hal, -, -, rfl⟩ := envCreate_cases hc
  obtain ⟨_, _, _, _, _, -, -, -, rfl⟩ := envAlloc_cases hal
  rfl

theorem storeTf_dstva (k : Kern) (c : EnvPtr) (returned : Bool) (tf : Trapframe) (e : EnvPtr) :
    ((k.storeTf c returned tf).envs e).envIpcDstva = (k.envs e).envIpcDstva := by
  unfold storeTf
  split
  · rfl
  · exact setEnv_field Env.envIpcDstva (by rfl) e

end MemOk

/-- A step keeps to a policy. -/
def StepPolicy (pol : Policy) (s : State) (ev : Event) : Prop :=
  ∀ cur c, s.call ev = some (cur, c) → CallPolicy pol s.kern.skipInsn cur c

theorem StepPolicy.any (s : State) (ev : Event) : StepPolicy .any s ev :=
  fun _ _ _ => ⟨fun _ _ => ⟨trivial, trivial⟩, fun _ _ _ _ _ _ => trivial⟩

/-- The policy, at a system call. -/
private theorem StepPolicy.call {pol : Policy} {k : Kern} {cur : EnvPtr} {c : Call} {junk : Word}
    (h : StepPolicy pol ⟨.entered (.syscall junk), k⟩ .handle) (hc : k.curenv = some cur)
    (hd : k.decode k.ktf = some c) : CallPolicy pol k.skipInsn cur c :=
  h cur c (by simp [State.call, hc, hd])

/-- Every admitted step keeps the invariant of the memory. -/
theorem MemOk.step {mc : Machine} {leak : Nat → Nat} {pol : Policy} {s s' : State} {ev : Event}
    (h : MemOk mc leak s.kern) (hs : Step s ev s') (ha : memAdmits s ev = true) (hpol : StepPolicy pol s ev) :
    ∃ leak', MemOk mc leak' s'.kern ∧ ((∀ asid d m, pol.drop asid d m → Mem.NoJunk d m) → leak' = leak) := by
  have hlive := h.live.step hs
  have hsch : ∀ {k k' : Kern} {yield : Bool}, MemOk mc leak k → LiveOk k' → k.schedule yield = some k' →
      MemOk mc leak k' := by
    intro k k' yield h hlive hk
    refine h.of_mem (mem_schedule hk) hlive ?_ fun e => ?_
    · obtain ⟨q, n, e, -, rfl, -⟩ := schedule_cases hk
      unfold running saveTf
      split <;> rfl
    · obtain ⟨q, n, e', -, rfl, -⟩ := schedule_cases hk
      exact running_field Env.envIpcDstva (fun _ _ => rfl) (fun _ _ => rfl) k q n e' e
  cases hs with
  | create hc => exact h.create ha hc
  | evict k keep => exact ⟨leak, h.setTlb _, fun _ => rfl⟩
  | idle u hc => exact ⟨leak, h, fun _ => rfl⟩
  | save x hm => exact ⟨leak, ⟨hlive, h.mem, h.base, h.dstva⟩, fun _ => rfl⟩
  | tick hk => exact ⟨leak, hsch h hlive hk, fun _ => rfl⟩
  | noSys junk hn => exact ⟨leak, ⟨hlive, h.mem, h.base, h.dstva⟩, fun _ => rfl⟩
  | @call k k' cur c r junk hc hd hcall =>
    have ha : callMemAdmits k.skipInsn cur c = true := (onCall_eq hc hd).symm.trans ha
    obtain ⟨leak', h', hleak⟩ := h.skipInsn.call hc hcall ha (hpol.call hc hd)
    exact ⟨leak', ⟨hlive, h'.mem, h'.base, h'.dstva⟩, hleak⟩
  | @left k k' cur c junk hc hd hcall =>
    have ha : callMemAdmits k.skipInsn cur c = true := (onCall_eq hc hd).symm.trans ha
    exact h.skipInsn.call hc hcall ha (hpol.call hc hd)
  | tlbMiss hc hva hserved hp hl =>
    obtain ⟨leak', h', hleak⟩ : ∃ leak', MemOk mc leak' _ ∧
        ((∀ asid d m, pol.drop asid d m → Mem.NoJunk d m) → leak' = leak) := h.served (h.live.cur _ hc) hva hserved
    exact ⟨leak', h'.setTlb _, hleak⟩
  | tlbMod m hc hst => exact ⟨leak, ⟨hlive, h.mem, h.base, h.dstva⟩, fun _ => rfl⟩
  | @ret k k₁ c returned tf hc hd =>
    have h₁ := h.sigFrame (doSignal_frame hd).1
    refine ⟨leak, h₁.of_mem (mem_storeTf k₁ c returned tf) hlive ?_ fun e => ?_, fun _ => rfl⟩
    · show (k₁.storeTf c returned tf).basePgdir = k₁.basePgdir
      unfold storeTf
      split <;> rfl
    · exact storeTf_dstva k₁ c returned tf e

/-! ### The start -/

/-- After the initialisation only the template is in use. -/
theorem MemOk.boot (mc : Machine) : MemOk mc (fun _ => 0) mc.bootKern := by
  have hnone : ∀ e, mc.bootKern.dirs e = none := fun e => dirs_of_free rfl
  -- Nobody has a directory yet, so that the references are those from the template.
  have htgt : ∀ s, target mc mc.bootKern.dirs mc.bootKern.pm.word s = match s with
      | .base b => some (mc.baseFrame b)
      | _ => none := by
    intro s
    cases s with
    | base b => rfl
    | dir e => exact hnone e
    | pde e i => simp [target, hnone]
    | pte e i j => simp [target, hnone]
  have hbase : ∀ s p, target mc mc.bootKern.dirs mc.bootKern.pm.word s = some p → ∃ b, s = .base b ∧ p = mc.baseFrame b := by
    intro s p hs
    rw [htgt] at hs
    cases s with
    | base b => exact ⟨b, rfl, (Option.some.inj hs).symm⟩
    | _ => cases hs
  have hcount : ∀ p, refCount (target mc mc.bootKern.dirs mc.bootKern.pm.word) p =
      if ∃ b, p = mc.baseFrame b then 1 else 0 := by
    intro p
    split
    case isTrue hb =>
      obtain ⟨b, rfl⟩ := hb
      refine refCount_eq_one (x := .base b) rfl fun s hs => ?_
      obtain ⟨b', rfl, hp⟩ := hbase s _ hs
      rw [mc.baseFrame_injective hp]
    case isFalse hb =>
      rw [refCount_eq_zero]
      intro s hs
      obtain ⟨b, -, hp⟩ := hbase s p hs
      exact hb ⟨b, hp⟩
  -- The frames of the template are the last three pages.
  have hframe : ∀ p, mc.used ≤ p → ((∃ b, p = mc.baseFrame b) ↔ mc.npage - 3 ≤ p ∧ p < mc.npage) := by
    intro p hp
    have hr := mc.room
    constructor
    · rintro ⟨b, rfl⟩
      have hb := b.isLt
      rw [mc.baseFrame_eq]
      omega
    · rintro ⟨hlo, hhi⟩
      have hlt : mc.npage - 1 - p < 3 := by omega
      refine ⟨⟨mc.npage - 1 - p, hlt⟩, ?_⟩
      rw [mc.baseFrame_eq]
      dsimp only
      omega
  refine ⟨LiveOk.boot mc, ⟨⟨?_, ?_, ?_, ?_, ?_, ?_⟩, ⟨rfl, ?_, ?_, ?_⟩⟩, rfl, fun e => show (0 : Word) < UTOP by decide⟩
  · intro s s' p hs hp hp'
    obtain ⟨b, rfl, rfl⟩ := hbase s p hp
    obtain ⟨b', rfl, hbb⟩ := hbase s' _ hp'
    rw [mc.baseFrame_injective hbb]
  · intro s p hs
    obtain ⟨b, rfl, rfl⟩ := hbase s p hs
    exact mc.baseFrame_bound b
  · intro e d hd
    rw [show mc.bootKern.mem.dirs e = none from hnone e] at hd
    cases hd
  · intro e d hd
    rw [show mc.bootKern.mem.dirs e = none from hnone e] at hd
    cases hd
  · intro e d i t hd
    rw [show mc.bootKern.mem.dirs e = none from hnone e] at hd
    cases hd
  · exact fun b => rfl
  · intro p hp
    show (mc.bootPmap.ppRef p).toNat = refCount (target mc mc.bootKern.dirs mc.bootKern.pm.word) p + 0
    rw [hcount]
    simp only [Machine.bootPmap, if_pos hp]
    by_cases hb : ∃ b, p = mc.baseFrame b
    · rw [if_pos ((hframe p hp).1 hb), if_pos hb]
      rfl
    · rw [if_neg fun h => hb ((hframe p hp).2 h), if_neg hb]
      rfl
  · exact List.nodup_reverse.2 (List.Nodup.sublist (List.drop_sublist ..) List.nodup_range)
  · intro p hp
    have hp : p ∈ mc.bootFree := hp
    rw [Machine.bootFree, List.mem_reverse, List.mem_iff_getElem] at hp
    obtain ⟨n, hn, rfl⟩ := hp
    simp only [List.length_drop, List.length_range] at hn
    rw [List.getElem_drop, List.getElem_range]
    refine ⟨⟨by omega, by omega⟩, ?_⟩
    show mc.bootPmap.ppRef (mc.used + n) = 0
    simp only [Machine.bootPmap]
    rw [if_pos (by omega), if_neg (by omega)]

theorem MemOk.of_steps {mc : Machine} {l : List (State × Event)} {s : State}
    (h : kernel.Steps (fun s ev => memAdmits s ev = true) ⟨.user, mc.bootKern⟩ l s) : ∃ leak, MemOk mc leak s.kern := by
  refine h.invariant (I := fun _ s => ∃ leak, MemOk mc leak s.kern) ⟨_, MemOk.boot mc⟩ ?_
  rintro l t ev u ⟨leak, hm⟩ ha hs
  obtain ⟨leak', hm', -⟩ := hm.step (State.step_cases hs) ha (.any t ev)
  exact ⟨leak', hm'⟩

end Mos
