import Mos.Inv.Live

/-!
# Identity, status and mailbox of the environments

`CoreStep` lists what a step of the system does to the ids, the statuses and the mailboxes of the environments.  The
results about environment ids and about `sys_ipc_recv` and `sys_ipc_try_send` are shown by cases on it.
-/

namespace Mos

open Kern

/-- The fields of an environment that say who it is, whether it runs and what it has received. -/
structure Core where
  id : Word
  parentId : Word
  status : EnvStatus
  value : Word
  sender : Word
  recving : Word

def Env.core (env : Env) : Core where
  id := env.envId
  parentId := env.envParentId
  status := env.envStatus
  value := env.envIpcValue
  sender := env.envIpcFrom
  recving := env.envIpcRecving

def Kern.cores (k : Kern) (e : EnvPtr) : Core := (k.envs e).core

/-- Neither a core nor anything that names environments changes. -/
structure SameCore (k k' : Kern) : Prop where
  cores : k'.cores = k.cores
  free : k'.envFreeList = k.envFreeList
  counter : k'.mkenvidI = k.mkenvidI

namespace SameCore

variable {k k' k₁ : Kern} {e : EnvPtr}

private theorem refl (k : Kern) : SameCore k k := ⟨rfl, rfl, rfl⟩

private theorem trans (h : SameCore k k₁) (h' : SameCore k₁ k') : SameCore k k' :=
  ⟨h'.cores.trans h.cores, h'.free.trans h.free, h'.counter.trans h.counter⟩

/-- Writing a field that is not part of the core. -/
theorem setEnv {f : Env → Env} (hf : (f (k.envs e)).core = (k.envs e).core) : SameCore k (k.setEnv e f) :=
  ⟨funext (setEnv_field Env.core hf), rfl, rfl⟩

theorem setPm (k : Kern) (pm : Pmap) : SameCore k (k.setPm pm) := ⟨rfl, rfl, rfl⟩
theorem setKtf (k : Kern) (tf : Trapframe) : SameCore k (k.setKtf tf) := ⟨rfl, rfl, rfl⟩
private theorem setCpu (k : Kern) (tf : Trapframe) : SameCore k (k.setCpu tf) := ⟨rfl, rfl, rfl⟩
private theorem setUmem (k : Kern) (m : Word → Word) : SameCore k (k.setUmem m) := ⟨rfl, rfl, rfl⟩

private theorem schedule {yield : Bool} (hs : k.schedule yield = some k') : SameCore k k' := by
  obtain ⟨q, n, e, -, rfl, -⟩ := schedule_cases hs
  refine ⟨funext (running_field Env.core (fun _ _ => rfl) (fun _ _ => rfl) k q n e), LiveOk.running_free k q n e, ?_⟩
  unfold running Kern.saveTf
  split <;> rfl

theorem setTf (k : Kern) (cur e : EnvPtr) (frame : Trapframe) : SameCore k (k.setTf cur e frame) := by
  unfold Kern.setTf
  split
  · exact setKtf k frame
  · exact setEnv rfl

private theorem pended {signo : Word} {n : SignoPtr} (hn : k.signoAlloc signo = some (n, k₁)) (e : EnvPtr) :
    SameCore k (k₁.pended e n) := by
  obtain ⟨-, rfl⟩ := signoAlloc_cases hn
  exact ⟨funext (setEnv_field Env.core rfl), rfl, rfl⟩

private theorem pageInsertEnv {pp : Nat} {va perm r : Word} (hi : k.pageInsertEnv e pp va perm = some (r, k')) :
    SameCore k k' := by
  obtain ⟨_, pm, _, _, rfl⟩ := pageInsertEnv_cases hi
  exact setPm k pm

private theorem sigFrame {c : EnvPtr} (hf : SigFrame c k k') : SameCore k k' := by
  obtain ⟨signos, free, umem, header, mask, rfl⟩ := hf
  exact ⟨funext (setEnv_field Env.core rfl), rfl, rfl⟩

private theorem storeTf (k : Kern) (c : EnvPtr) (returned : Bool) (tf : Trapframe) :
    SameCore k (k.storeTf c returned tf) := by
  unfold Kern.storeTf
  split
  · exact setKtf k tf
  · exact setEnv rfl

theorem served {c : EnvPtr} {va : Word} (hs : k.Served c va k') : SameCore k k' := by
  cases hs with
  | mapped => exact refl k
  | alloc _ _ ha =>
    obtain ⟨k₀, pp, pm, hsegv, -, -, hi⟩ := passiveAlloc_cases ha
    cases hsegv with
    | none => exact (setPm k pm).trans (pageInsertEnv hi)
    | sent _ hn => exact ((pended hn c).trans (setPm _ pm)).trans (pageInsertEnv hi)

end SameCore

/-- The core of `e` alone becomes `c`. -/
structure SetCore (k : Kern) (e : EnvPtr) (c : Core) (k' : Kern) : Prop where
  cores : k'.cores = Function.update k.cores e c
  counter : k'.mkenvidI = k.mkenvidI

namespace SetCore

variable {k k' k₁ : Kern} {e : EnvPtr} {c : Core}

private theorem setEnv (k₁ : Kern) (f : Env → Env) (hk : k₁.cores = k.cores) (hm : k₁.mkenvidI = k.mkenvidI)
    (hf : (f (k₁.envs e)).core = c) : SetCore k e c (k₁.setEnv e f) := by
  refine ⟨funext fun e' => ?_, hm⟩
  by_cases heq : e' = e
  · subst heq
    rw [Function.update_self, Kern.cores, setEnv_self, hf]
  · rw [Function.update_of_ne heq, Kern.cores, setEnv_of_ne heq]
    exact congrFun hk e'

private theorem trans (h : SetCore k e c k₁) (h' : SameCore k₁ k') : SetCore k e c k' :=
  ⟨h'.cores.trans h.cores, h'.counter.trans h.counter⟩

end SetCore

/-- What a system call of `cur` that returns `r` does to the cores.  For `sys_exofork` see `NewCore`. -/
inductive CoreCall (k : Kern) (cur : EnvPtr) : Call → Kern → Option Word → Prop
  | same {k' : Kern} {r : Option Word} (c : Call) (h : SameCore k k')
      (hfail : (∀ envid signo, c ≠ .kill envid signo) → k.Fails cur (r.getD 0) c) : CoreCall k cur c k' r
  | destroyed {envid : Word} {e : EnvPtr} {k' : Kern} {r : Option Word} (he : k.envid2env cur envid true = some e)
      (h : SetCore k e { k.cores e with status := .FREE } k') : CoreCall k cur (.envDestroy envid) k' r
  | status {envid status : Word} {st : EnvStatus} {e : EnvPtr} {k' : Kern} {r : Option Word}
      (hst : legalStatus status = some st) (he : k.envid2env cur envid true = some e)
      (h : SetCore k e { k.cores e with status := st } k') : CoreCall k cur (.setEnvStatus envid status) k' r
  | woken {envid value srcva perm : Word} {e : EnvPtr} {k' : Kern} {r : Option Word}
      (hva : srcva = 0 ∨ isIllegalVa srcva = false) (he : k.envid2env cur envid false = some e)
      (hrecv : (k.cores e).recving ≠ 0)
      (hr : r = some 0 ∨ (srcva ≠ 0 ∧ k.pageLookupEnv cur srcva = some none))
      (h : SetCore k e { k.cores e with status := .RUNNABLE, value := value, sender := (k.cores cur).id, recving := 0 } k') :
      CoreCall k cur (.ipcTrySend envid value srcva perm) k' r
  | waits {dstva : Word} {k' : Kern} {r : Option Word} (hva : dstva = 0 ∨ isIllegalVa dstva = false)
      (h : SetCore k cur { k.cores cur with status := .NOT_RUNNABLE, recving := 1 } k') :
      CoreCall k cur (.ipcRecv dstva) k' r

/-- The core of a new environment `e` after `env_alloc` and the code that called it. -/
structure NewCore (k : Kern) (e : EnvPtr) (parentId : Word) (status : EnvStatus) (k' : Kern) : Prop where
  head : k.envFreeList.head? = some e
  cores : k'.cores = Function.update k.cores e
    { k.cores e with id := (k.mkenvid e).1, parentId := parentId, status := status }
  counter : k'.mkenvidI = k.mkenvidI + 1

namespace NewCore

variable {k k' : Kern} {e : EnvPtr} {parentId : Word}

theorem alloc (ha : k.envAlloc parentId = some (e, k')) :
    NewCore k e parentId (k.envs e).envStatus k' := by
  obtain ⟨rest, pgdir, pm, asid, bitmap, hl, -, -, rfl⟩ := envAlloc_cases ha
  refine ⟨by rw [hl]; rfl, funext fun e' => ?_, rfl⟩
  by_cases heq : e' = e
  · subst heq
    rw [Function.update_self, Kern.cores, allocated, setEnv_self]
    rfl
  · rw [Function.update_of_ne heq, Kern.cores, allocated, setEnv_of_ne heq]
    rfl

/-- The caller of `env_alloc` writes the status. -/
theorem setEnv {status st : EnvStatus} (h : NewCore k e parentId st k') {f : Env → Env}
    (hf : (f (k'.envs e)).core = { k'.cores e with status := status }) : NewCore k e parentId status (k'.setEnv e f) := by
  refine ⟨h.head, funext fun e' => ?_, h.counter⟩
  by_cases heq : e' = e
  · subst heq
    rw [Kern.cores, setEnv_self, hf, h.cores, Function.update_self, Function.update_self]
  · rw [Kern.cores, setEnv_of_ne heq, Function.update_of_ne heq]
    exact (congrFun h.cores e').trans (Function.update_of_ne heq ..)

private theorem create {binary : Image} {priority : Word} (hc : k.envCreate binary priority = some k') :
    ∃ e, NewCore k e 0 .RUNNABLE k' := by
  obtain ⟨e, k₁, pgdir, pm, ha, -, -, rfl⟩ := envCreate_cases hc
  have h := alloc ha
  have hpm : NewCore k e 0 (k.envs e).envStatus (k₁.setPm pm) := ⟨h.head, h.cores, h.counter⟩
  have hset : NewCore k e 0 .RUNNABLE ((k₁.setPm pm).setEnv e fun env => { env with
    envPri := priority, envStatus := .RUNNABLE, envTf := { env.envTf with cp0Epc := binary.entry } }) := hpm.setEnv rfl
  exact ⟨e, hset.head, hset.cores, hset.counter⟩

end NewCore

/-- Waking a receiver touches its status and its mailbox only. -/
theorem ipcWake_field {β : Type} (g : Env → β) (hg : ∀ env value sender perm, g { env with
      envIpcValue := value
      envIpcFrom := sender
      envIpcPerm := perm
      envIpcRecving := 0
      envStatus := .RUNNABLE } = g env) (k : Kern) (cur e : EnvPtr) (value perm : Word) (q : TailQueue EnvPtr)
    (e' : EnvPtr) : g ((k.ipcWake cur e value perm q).envs e') = g (k.envs e') :=
  setEnv_field (k := k.setSched q) g (hg _ _ _ _) e'

/-- Waking a receiver does not change what is mapped. -/
theorem ipcWake_lookup (k : Kern) (cur e : EnvPtr) (value perm : Word) (q : TailQueue EnvPtr) (e' : EnvPtr) (va : Word) :
    (k.ipcWake cur e value perm q).pageLookupEnv e' va = k.pageLookupEnv e' va := by
  have hpgdir : ((k.ipcWake cur e value perm q).envs e').envPgdir = (k.envs e').envPgdir :=
    ipcWake_field Env.envPgdir (fun _ _ _ _ => rfl) k cur e value perm q e'
  rw [pageLookupEnv, pageLookupEnv, hpgdir]
  rfl

/-- A call that returns or reschedules is `sys_exofork`, or it has one of the effects of `CoreCall`. -/
theorem CoreCall.of_step {k k' : Kern} {cur : EnvPtr} {c : Call} {r : Option Word} (hs : CallStep k cur c k' r) :
    CoreCall k cur c k' r ∨ (c = .exofork ∧ ∃ e, NewCore k e (k.envs cur).envId .NOT_RUNNABLE k' ∧
      r = some (k.mkenvid e).1) := by
  cases hs with
  | unchanged _ _ hfail =>
    exact .inl (.same _ (.refl k) fun _ => hfail)
  | yield hs => exact .inl (.same _ (.schedule hs) fun _ => trivial)
  | @envDestroy _ e _ left he hd =>
    refine .inl (.destroyed he ?_)
    obtain ⟨k₁, hk₁, hd⟩ := envDestroy_cases hd
    obtain ⟨pgdir, pm, q, -, -, -, rfl⟩ := envFree_cases hk₁
    have hfreed : SetCore k e { k.cores e with status := .FREE } (k.freed e pm q) :=
      .setEnv ((((k.setPm pm).asidFree (k.envs e).envAsid).setFreeList (e :: k.envFreeList)).setSched q) _ rfl rfl rfl
    rcases hd with ⟨-, -, hs⟩ | ⟨-, -, rfl⟩
    · have hnone : SetCore k e { k.cores e with status := .FREE } ((k.freed e pm q).setCurenv none) :=
        ⟨hfreed.cores, hfreed.counter⟩
      exact hnone.trans (.schedule hs)
    · exact hfreed
  | setTlbModEntry => exact .inl (.same _ (.setEnv rfl) fun _ => trivial)
  | @memAlloc _ _ _ _ _ _ pm _ _ _ _ hi => exact .inl (.same _ ((SameCore.setPm k pm).trans (.pageInsertEnv hi)) fun _ => trivial)
  | memMap _ _ _ _ _ hi => exact .inl (.same _ (.pageInsertEnv hi) fun _ => trivial)
  | memUnmap => exact .inl (.same _ (.setPm k _) fun _ => trivial)
  | @exofork e k₁ ha =>
    have h := NewCore.alloc ha
    have hid : (k₁.envs e).envId = (k.mkenvid e).1 := by
      have hc := congrArg Core.id (congrFun h.cores e)
      rwa [Function.update_self] at hc
    exact .inr ⟨rfl, e, h.setEnv rfl, congrArg some hid⟩
  | setEnvStatus hst he hs =>
    refine .inl (.status hst he ?_)
    obtain ⟨q, -, rfl⟩ := Option.map_eq_some_iff.1 hs
    exact .setEnv (k.setSched q) _ rfl rfl rfl
  | setTrapframe => exact .inl (.same _ (.setTf k _ _ _) fun _ => trivial)
  | @ipcWoken _ value srcva perm _ e q hva he hrecv _ hr =>
    have hr : _ ∨ (srcva ≠ 0 ∧ k.pageLookupEnv cur srcva = some none) :=
      hr.imp (fun h => congrArg some h.2) fun h => ⟨h.1, (ipcWake_lookup k cur e value perm q cur srcva).symm.trans h.2⟩
    exact .inl (.woken hva he hrecv hr (.setEnv (k.setSched q) _ rfl rfl rfl))
  | @ipcPage _ value _ perm _ e q _ _ hva he hrecv _ _ _ hi =>
    have hw : SetCore k e { k.cores e with
        status := .RUNNABLE, value := value, sender := (k.cores cur).id, recving := 0 } (k.ipcWake cur e value perm q) :=
      .setEnv (k.setSched q) _ rfl rfl rfl
    exact .inl (.woken (.inr hva) he hrecv (.inl rfl) (hw.trans (.pageInsertEnv hi)))
  | @ipcRecv dstva _ hva hs =>
    refine .inl (.waits hva ?_)
    have hw : SetCore k cur { k.cores cur with status := .NOT_RUNNABLE, recving := 1 } (k.ipcWait cur dstva) :=
      .setEnv (k.setKtf (k.ktf.setReg 2 0)) _ rfl rfl rfl
    exact hw.trans (.schedule hs)
  | @sigaction _ _ _ _ m => exact .inl (.same _ ((SameCore.setUmem k m).trans (.setEnv rfl)) fun _ => trivial)
  | @sigprocmask _ _ _ _ m => exact .inl (.same _ ((SameCore.setUmem k m).trans (.setEnv rfl)) fun _ => trivial)
  | kill _ hn => exact .inl (.same _ (.pended hn _) fun h => absurd rfl (h _ _))
  | @backDoSignal _ _ _ _ _ frame => exact .inl (.same _ ((SameCore.setTf k cur _ frame).trans (.setEnv rfl)) fun _ => trivial)
  | setSigEntry => exact .inl (.same _ (.setEnv rfl) fun _ => trivial)

/-- What a step of the system does to the cores. -/
inductive CoreStep : State → Event → State → Prop
  | same {s s' : State} {ev : Event} (h : SameCore s.kern s'.kern) (hcall : s.call ev = none)
      (hev : ∀ binary priority, ev ≠ .create binary priority) : CoreStep s ev s'
  | create {k k' : Kern} {binary : Image} {priority : Word} {e : EnvPtr} (h : NewCore k e 0 .RUNNABLE k') :
      CoreStep ⟨.user, k⟩ (.create binary priority) ⟨.user, k'⟩
  | call {k k' : Kern} {cur : EnvPtr} {c : Call} {r : Option Word} {returned : Bool} (junk : Word)
      (hc : k.curenv = some cur) (hd : k.decode k.ktf = some c) (h : CoreCall k.skipInsn cur c k' r) :
      CoreStep ⟨.entered (.syscall junk), k⟩ .handle ⟨.leaving returned, k'⟩
  | fork {k k' : Kern} {cur e : EnvPtr} (junk : Word) (hc : k.curenv = some cur)
      (hd : k.decode k.ktf = some .exofork) (h : NewCore k e (k.envs cur).envId .NOT_RUNNABLE k')
      (hr : k'.ktf.regs 2 = (k.mkenvid e).1) :
      CoreStep ⟨.entered (.syscall junk), k⟩ .handle ⟨.leaving true, k'⟩

private theorem CoreCall.trans {k k₁ k' : Kern} {cur : EnvPtr} {c : Call} {r : Option Word} (h : CoreCall k cur c k₁ r)
    (h' : SameCore k₁ k') : CoreCall k cur c k' r := by
  cases h with
  | same _ h hfail => exact .same _ (h.trans h') hfail
  | destroyed he h => exact .destroyed he (h.trans h')
  | status hst he h => exact .status hst he (h.trans h')
  | woken hva he hrecv hr h => exact .woken hva he hrecv hr (h.trans h')
  | waits hva h => exact .waits hva (h.trans h')

/-- Every step of the system is one of the listed ones. -/
theorem CoreStep.of_step {s s' : State} {ev : Event} (hs : Step s ev s') : CoreStep s ev s' := by
  cases hs with
  | create hc =>
    obtain ⟨e, h⟩ := NewCore.create hc
    exact .create h
  | evict k => exact .same (.setPm k _) rfl nofun
  | @idle k => exact .same (.refl k) rfl nofun
  | @save k u x => exact .same ((SameCore.setUmem k _).trans (.setKtf _ _)) rfl nofun
  | tick hs => exact .same (.schedule hs) rfl nofun
  | @noSys k _ hn => exact .same (.setKtf k _) (by simp [State.call, decode_none hn]) nofun
  | @call k k' cur c r junk hc hd hs =>
    rcases CoreCall.of_step hs with h | ⟨rfl, e, h, hr⟩
    · exact .call junk hc hd (h.trans (.setKtf k' _))
    · refine .fork (e := e) junk hc hd ⟨h.head, h.cores, h.counter⟩ ?_
      have hv0 : (k'.setV0 r).ktf.regs 2 = r := by simp [setV0, Trapframe.setReg]
      exact hv0.trans (Option.some.inj hr)
  | left junk hc hd hs =>
    rcases CoreCall.of_step hs with h | ⟨rfl, e, h, hr⟩
    · exact .call junk hc hd h
    · cases hr
  | tlbMiss _ _ hs => exact .same ((SameCore.served hs).trans (.setPm _ _)) rfl nofun
  | @tlbMod k => exact .same ((SameCore.setUmem k _).trans (.setKtf _ _)) rfl nofun
  | @ret k k₁ c returned tf hc hd =>
    exact .same (((SameCore.sigFrame (doSignal_frame hd).1).trans (.storeTf k₁ c returned tf)).trans (.setCpu _ _)) rfl nofun

end Mos
