import Mos.Kern.Step

/-!
# Free and live environments

The free list holds free environments only, each once, and the current environment is not free.  This holds in every
run and is what the other invariants rest on.
-/

namespace Mos

open Kern

/-- The free list is duplicate free and holds free environments; the current environment is live. -/
structure LiveOk (k : Kern) : Prop where
  nodup : k.envFreeList.Nodup
  free : ∀ e ∈ k.envFreeList, (k.envs e).envStatus = .FREE
  cur : ∀ c, k.curenv = some c → (k.envs c).envStatus ≠ .FREE

namespace LiveOk

variable {k k' : Kern} {e : EnvPtr}

/-- Only the statuses, the free list and the current environment matter. -/
private theorem congr (h : LiveOk k) (hst : ∀ e, (k'.envs e).envStatus = (k.envs e).envStatus)
    (hf : k'.envFreeList = k.envFreeList) (hc : k'.curenv = k.curenv) : LiveOk k' :=
  ⟨hf ▸ h.nodup, fun e he => (hst e).trans (h.free e (hf ▸ he)), fun c hcur => by
    rw [hst]; exact h.cur c (hc ▸ hcur)⟩

theorem setPm (h : LiveOk k) (pm : Pmap) : LiveOk (k.setPm pm) := ⟨h.nodup, h.free, h.cur⟩
private theorem setSched (h : LiveOk k) (q : TailQueue EnvPtr) : LiveOk (k.setSched q) := ⟨h.nodup, h.free, h.cur⟩
theorem setKtf (h : LiveOk k) (tf : Trapframe) : LiveOk (k.setKtf tf) := ⟨h.nodup, h.free, h.cur⟩
private theorem setCpu (h : LiveOk k) (tf : Trapframe) : LiveOk (k.setCpu tf) := ⟨h.nodup, h.free, h.cur⟩
private theorem setUmem (h : LiveOk k) (m : Word → Word) : LiveOk (k.setUmem m) := ⟨h.nodup, h.free, h.cur⟩
private theorem setSignos (h : LiveOk k) (s : SignoPtr → SignoNode) (f : Option SignoPtr) : LiveOk (k.setSignos s f) :=
  ⟨h.nodup, h.free, h.cur⟩

theorem not_mem (h : LiveOk k) (he : (k.envs e).envStatus ≠ .FREE) : e ∉ k.envFreeList :=
  fun hm => he (h.free e hm)

/-- A live status may be given to an environment that is not on the free list. -/
private theorem setEnv (h : LiveOk k) {f : Env → Env} (he : e ∉ k.envFreeList)
    (hf : (f (k.envs e)).envStatus ≠ .FREE) : LiveOk (k.setEnv e f) where
  nodup := h.nodup
  free e' he' := by
    have hne : e' ≠ e := fun heq => he (heq ▸ he')
    rw [setEnv_of_ne hne]
    exact h.free e' he'
  cur c hc := by
    by_cases hce : c = e
    · rw [hce, setEnv_self]; exact hf
    · rw [setEnv_of_ne hce]; exact h.cur c hc

theorem alloc {parentId : Word} (h : LiveOk k) (ha : k.envAlloc parentId = some (e, k')) :
    LiveOk k' ∧ e ∉ k'.envFreeList ∧ (k.envs e).envStatus = .FREE ∧
      ∀ e', (k'.envs e').envStatus = (k.envs e').envStatus := by
  obtain ⟨rest, pgdir, pm, asid, bitmap, hl, -, -, rfl⟩ := envAlloc_cases ha
  have hnd := hl ▸ h.nodup
  have hst : ∀ e', ((k.allocated e rest pgdir pm asid bitmap parentId).envs e').envStatus = (k.envs e').envStatus :=
    fun e' => setEnv_field Env.envStatus (by rfl) e'
  refine ⟨⟨(List.nodup_cons.1 hnd).2, fun e' he' => ?_, fun c hc => ?_⟩, (List.nodup_cons.1 hnd).1, ?_, hst⟩
  · rw [hst]; exact h.free e' (by rw [hl]; exact List.mem_cons_of_mem _ he')
  · rw [hst]; exact h.cur c hc
  · exact h.free e (by rw [hl]; exact List.mem_cons_self ..)

theorem running_status (k : Kern) (q : TailQueue EnvPtr) (n : Int) (e e' : EnvPtr) :
    ((k.running q n e).envs e').envStatus = (k.envs e').envStatus :=
  running_field Env.envStatus (fun _ _ => rfl) (fun _ _ => rfl) k q n e e'

theorem running_free (k : Kern) (q : TailQueue EnvPtr) (n : Int) (e : EnvPtr) :
    (k.running q n e).envFreeList = k.envFreeList := by
  unfold running saveTf; split <;> rfl

private theorem running_curenv (k : Kern) (q : TailQueue EnvPtr) (n : Int) (e : EnvPtr) :
    (k.running q n e).curenv = some e := rfl

/-- Scheduling needs no current environment. -/
private theorem schedule {yield : Bool} (hnd : k.envFreeList.Nodup)
    (hfree : ∀ e ∈ k.envFreeList, (k.envs e).envStatus = .FREE) (hs : k.schedule yield = some k') : LiveOk k' := by
  obtain ⟨q, n, e, hr, rfl, -⟩ := schedule_cases hs
  refine ⟨(running_free k q n e).symm ▸ hnd, fun e' he' => ?_, fun c hc => ?_⟩
  · rw [running_status]; exact hfree e' (running_free k q n e ▸ he')
  · rw [running_curenv, Option.some.injEq] at hc
    rw [running_status, ← hc, hr]; exact nofun

private theorem freed (h : LiveOk k) (he : (k.envs e).envStatus ≠ .FREE) (pm : Pmap) (q : TailQueue EnvPtr) :
    (k.freed e pm q).envFreeList.Nodup ∧ ∀ e' ∈ (k.freed e pm q).envFreeList,
      ((k.freed e pm q).envs e').envStatus = .FREE := by
  refine ⟨List.nodup_cons.2 ⟨h.not_mem he, h.nodup⟩, fun e' he' => ?_⟩
  by_cases heq : e' = e
  · rw [heq, Kern.freed, setEnv_self]
  · rw [Kern.freed, setEnv_of_ne heq]
    exact h.free e' ((List.mem_cons.1 he').resolve_left heq)

private theorem destroy {left : Bool} (h : LiveOk k) (he : (k.envs e).envStatus ≠ .FREE)
    (hd : k.envDestroy e = some (k', left)) : LiveOk k' := by
  obtain ⟨k₁, hk₁, hd⟩ := envDestroy_cases hd
  obtain ⟨pgdir, pm, q, -, -, -, rfl⟩ := envFree_cases hk₁
  have hf := h.freed he pm q
  obtain ⟨-, -, hs⟩ | ⟨hc, -, rfl⟩ := hd
  · exact schedule (k := (k.freed e pm q).setCurenv none) hf.1 hf.2 hs
  · refine ⟨hf.1, hf.2, fun c hcur => ?_⟩
    have hne : c ≠ e := fun heq => hc (heq ▸ hcur)
    rw [Kern.freed, setEnv_of_ne hne]
    exact h.cur c hcur

/-- Writing one environment without touching its status. -/
private theorem setEnv_same (h : LiveOk k) {f : Env → Env} (hf : (f (k.envs e)).envStatus = (k.envs e).envStatus) :
    LiveOk (k.setEnv e f) :=
  h.congr (setEnv_field Env.envStatus hf) rfl rfl

theorem sigFrame {c : EnvPtr} (h : LiveOk k) (hf : SigFrame c k k') : LiveOk k' := by
  obtain ⟨signos, free, umem, header, mask, rfl⟩ := hf
  exact ((h.setSignos signos free).setUmem umem).setEnv_same rfl

private theorem setTf (h : LiveOk k) (cur e : EnvPtr) (frame : Trapframe) : LiveOk (k.setTf cur e frame) := by
  unfold Kern.setTf
  split
  · exact h.setKtf frame
  · exact h.setEnv_same rfl

private theorem pended (h : LiveOk k) {signo : Word} {n : SignoPtr} {k₁ : Kern} (hn : k.signoAlloc signo = some (n, k₁))
    (e : EnvPtr) : LiveOk (k₁.pended e n) := by
  obtain ⟨-, rfl⟩ := signoAlloc_cases hn
  exact ((h.setSignos _ _).setSignos _ _).setEnv_same rfl

private theorem pageInsertEnv (h : LiveOk k) {pp : Nat} {va perm r : Word}
    (hi : k.pageInsertEnv e pp va perm = some (r, k')) : LiveOk k' := by
  obtain ⟨_, pm, _, _, rfl⟩ := pageInsertEnv_cases hi
  exact h.setPm pm

/-- A live environment that is woken stays live. -/
theorem ipcWake {cur : EnvPtr} (h : LiveOk k) (he : (k.envs e).envStatus ≠ .FREE) (value perm : Word)
    (q : TailQueue EnvPtr) : LiveOk (k.ipcWake cur e value perm q) :=
  (h.setSched q).setEnv (h.not_mem he) nofun

theorem legalStatus_ne_free {status : Word} {st : EnvStatus} (h : legalStatus status = some st) : st ≠ .FREE := by
  unfold legalStatus at h
  split at h
  · obtain rfl := Option.some.inj h; exact nofun
  · split at h
    · obtain rfl := Option.some.inj h; exact nofun
    · cases h

theorem call {cur : EnvPtr} {c : Call} {r : Option Word} (h : LiveOk k) (hcur : k.curenv = some cur)
    (hs : CallStep k cur c k' r) : LiveOk k' := by
  have hlive := h.cur cur hcur
  cases hs with
  | unchanged => exact h
  | yield hs => exact schedule h.nodup h.free hs
  | envDestroy he hd => exact h.destroy (envid2env_live hlive he) hd
  | setTlbModEntry => exact h.setEnv_same rfl
  | memAlloc _ _ _ hi => exact (h.setPm _).pageInsertEnv hi
  | memMap _ _ _ _ _ hi => exact h.pageInsertEnv hi
  | memUnmap => exact h.setPm _
  | exofork ha =>
    obtain ⟨h', he, -, -⟩ := h.alloc ha
    exact h'.setEnv he nofun
  | setEnvStatus hst he hs =>
    obtain ⟨q, -, rfl⟩ := Option.map_eq_some_iff.1 hs
    exact (h.setSched q).setEnv (h.not_mem (envid2env_live hlive he)) (legalStatus_ne_free hst)
  | setTrapframe => exact h.setTf _ _ _
  | ipcWoken _ he => exact h.ipcWake (envid2env_live hlive he) _ _ _
  | ipcPage _ he _ _ _ _ hi => exact (h.ipcWake (envid2env_live hlive he) _ _ _).pageInsertEnv hi
  | @ipcRecv dstva _ _ hs =>
    have hw : LiveOk (k.ipcWait cur dstva) := (h.setKtf _).setEnv (h.not_mem hlive) nofun
    exact schedule hw.nodup hw.free hs
  | @sigaction _ _ _ _ m => exact (h.setUmem m).setEnv_same rfl
  | @sigprocmask _ _ _ _ m => exact (h.setUmem m).setEnv_same rfl
  | kill _ hn => exact h.pended hn _
  | backDoSignal => exact (h.setTf cur _ _).setEnv_same rfl
  | setSigEntry => exact h.setEnv_same rfl

private theorem storeTf (h : LiveOk k) (c : EnvPtr) (returned : Bool) (tf : Trapframe) :
    LiveOk (k.storeTf c returned tf) := by
  unfold Kern.storeTf
  split
  · exact h.setKtf tf
  · exact h.setEnv_same rfl

theorem served {c : EnvPtr} {va : Word} (h : LiveOk k) (hs : k.Served c va k') : LiveOk k' := by
  cases hs with
  | mapped => exact h
  | alloc _ _ ha =>
    obtain ⟨k₀, pp, pm, hsegv, -, -, hi⟩ := passiveAlloc_cases ha
    cases hsegv with
    | none => exact (h.setPm pm).pageInsertEnv hi
    | sent _ hn => exact ((h.pended hn c).setPm pm).pageInsertEnv hi

theorem create {binary : Image} {priority : Word} (h : LiveOk k) (hc : k.envCreate binary priority = some k') :
    LiveOk k' := by
  obtain ⟨e, k₁, pgdir, pm, ha, -, -, rfl⟩ := envCreate_cases hc
  obtain ⟨h', he, -, -⟩ := h.alloc ha
  unfold created
  apply LiveOk.setSched
  apply LiveOk.setEnv (h'.setPm pm) he
  exact nofun

/-- Every step of the system keeps the free list and the live environments apart. -/
theorem step {s s' : State} {ev : Event} (h : LiveOk s.kern) (hs : Step s ev s') : LiveOk s'.kern := by
  cases hs with
  | create hc => exact h.create hc
  | evict => exact h.setPm _
  | idle => exact h
  | save => exact (h.setUmem _).setKtf _
  | tick hs => exact schedule h.nodup h.free hs
  | noSys => exact h.setKtf _
  | @call k _ _ _ _ _ hc _ hs => exact (LiveOk.call (k := k.skipInsn) (h.setKtf _) hc hs).setKtf _
  | @left k _ _ _ _ hc _ hs => exact LiveOk.call (k := k.skipInsn) (h.setKtf _) hc hs
  | tlbMiss _ _ hs => exact (h.served hs).setPm _
  | tlbMod => exact (h.setUmem _).setKtf _
  | ret _ hd => exact ((h.sigFrame (doSignal_frame hd).1).storeTf _ _ _).setCpu _

theorem boot (mc : Machine) : LiveOk mc.bootKern := by
  refine ⟨?_, fun e _ => ?_, fun c hc => ?_⟩
  · unfold Machine.bootKern; dsimp only; exact List.nodup_finRange NENV
  · rfl
  · cases hc

end LiveOk

end Mos
