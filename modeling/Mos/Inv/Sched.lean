import Mos.Inv.Live

/-!
# The run list

`env_sched_list` is to hold exactly the runnable environments.  `schedule` takes the current environment off the list
whether it is on it or not, `env_free` does the same with the environment it frees, and `sys_ipc_try_send` inserts the
receiver whether it is on the list or not.  The invariant holds in every run in which none of the three meets an
environment in the wrong status (`schedAdmits`).
-/

namespace Mos

open Kern

/-- The run list is well formed and holds exactly the runnable environments, each once. -/
def SchedOk (k : Kern) : Prop := ∃ l, k.sched.Holds l ∧ ∀ e, e ∈ l ↔ (k.envs e).envStatus = .RUNNABLE

/-- What `schedule` needs: the list may also hold a current environment that has just stopped being runnable. -/
private def SchedPre (k : Kern) : Prop :=
  ∃ l, k.sched.Holds l ∧ ∀ e, e ∈ l ↔ (k.envs e).envStatus = .RUNNABLE ∨ k.curenv = some e

namespace SchedOk

variable {k k' : Kern} {e : EnvPtr}

/-- Only the list and the statuses matter. -/
private theorem congr (h : SchedOk k) (hq : k'.sched = k.sched)
    (hst : ∀ e, (k'.envs e).envStatus = (k.envs e).envStatus) : SchedOk k' := by
  obtain ⟨l, hl, hm⟩ := h
  exact ⟨l, hq ▸ hl, fun e => by rw [hm, hst]⟩

private theorem setPm (h : SchedOk k) (pm : Pmap) : SchedOk (k.setPm pm) := h.congr rfl fun _ => rfl
private theorem setKtf (h : SchedOk k) (tf : Trapframe) : SchedOk (k.setKtf tf) := h.congr rfl fun _ => rfl
private theorem setCpu (h : SchedOk k) (tf : Trapframe) : SchedOk (k.setCpu tf) := h.congr rfl fun _ => rfl
private theorem setUmem (h : SchedOk k) (m : Word → Word) : SchedOk (k.setUmem m) := h.congr rfl fun _ => rfl
private theorem setSignos (h : SchedOk k) (s : SignoPtr → SignoNode) (f : Option SignoPtr) : SchedOk (k.setSignos s f) :=
  h.congr rfl fun _ => rfl

/-- Writing one environment without touching its status. -/
private theorem setEnv_same (h : SchedOk k) {f : Env → Env} (hf : (f (k.envs e)).envStatus = (k.envs e).envStatus) :
    SchedOk (k.setEnv e f) :=
  h.congr rfl (setEnv_field Env.envStatus hf)

/-- An environment that stays off the list may change its status otherwise. -/
private theorem setEnv_idle (h : SchedOk k) {f : Env → Env} (he : (k.envs e).envStatus ≠ .RUNNABLE)
    (hf : (f (k.envs e)).envStatus ≠ .RUNNABLE) : SchedOk (k.setEnv e f) := by
  obtain ⟨l, hl, hm⟩ := h
  refine ⟨l, hl, fun e' => ?_⟩
  by_cases heq : e' = e
  · rw [heq, hm, setEnv_self]; exact iff_of_false he hf
  · rw [hm, setEnv_of_ne heq]

/-- An environment becomes runnable as it is put on the list. -/
private theorem wake {q : TailQueue EnvPtr} {f : Env → Env} {l l' : List EnvPtr} (hm : ∀ e, e ∈ l ↔
    (k.envs e).envStatus = .RUNNABLE) (hq : q.Holds l') (hl' : ∀ e', e' ∈ l' ↔ e' = e ∨ e' ∈ l)
    (hf : (f (k.envs e)).envStatus = .RUNNABLE) : SchedOk ((k.setSched q).setEnv e f) := by
  refine ⟨l', hq, fun e' => ?_⟩
  by_cases heq : e' = e
  · subst heq
    rw [hl', setEnv_self]
    exact iff_of_true (.inl rfl) hf
  · rw [hl', setEnv_of_ne heq, hm]
    exact or_iff_right heq

private theorem insertTail {q : TailQueue EnvPtr} {f : Env → Env} (h : SchedOk k) (he : (k.envs e).envStatus ≠ .RUNNABLE)
    (hq : k.sched.insertTail e = some q) (hf : (f (k.envs e)).envStatus = .RUNNABLE) :
    SchedOk ((k.setSched q).setEnv e f) := by
  obtain ⟨l, hl, hm⟩ := h
  obtain ⟨q', hq', hl'⟩ := hl.insertTail fun hmem => he ((hm e).1 hmem)
  obtain rfl := Option.some.inj (hq.symm.trans hq')
  exact wake hm hl' (fun e' => by simp [or_comm]) hf

private theorem insertHead {f : Env → Env} (h : SchedOk k) (he : (k.envs e).envStatus ≠ .RUNNABLE)
    (hf : (f (k.envs e)).envStatus = .RUNNABLE) : SchedOk ((k.setSched (k.sched.insertHead e)).setEnv e f) := by
  obtain ⟨l, hl, hm⟩ := h
  exact wake hm (hl.insertHead fun hmem => he ((hm e).1 hmem)) (fun e' => List.mem_cons) hf

/-- An environment stops being runnable as it is taken off the list. -/
private theorem remove {q : TailQueue EnvPtr} {f : Env → Env} (h : SchedOk k) (he : (k.envs e).envStatus = .RUNNABLE)
    (hq : k.sched.remove e = some q) (hf : (f (k.envs e)).envStatus ≠ .RUNNABLE) :
    SchedOk ((k.setSched q).setEnv e f) := by
  obtain ⟨l, hl, hm⟩ := h
  obtain ⟨q', hq', hl'⟩ := hl.remove ((hm e).2 he)
  obtain rfl := Option.some.inj (hq.symm.trans hq')
  refine ⟨l.erase e, hl', fun e' => ?_⟩
  rw [hl.nodup.mem_erase_iff]
  by_cases heq : e' = e
  · subst heq
    rw [setEnv_self]
    exact iff_of_false (fun h => h.1 rfl) hf
  · rw [setEnv_of_ne heq]
    exact (and_iff_right heq).trans (hm e')

/-! ### Scheduling -/

private theorem pre (h : SchedOk k) (hc : ∀ c, k.curenv = some c → (k.envs c).envStatus = .RUNNABLE) :
    SchedPre k := by
  obtain ⟨l, hl, hm⟩ := h
  exact ⟨l, hl, fun e => (hm e).trans ⟨.inl, fun h => h.elim id (hc e)⟩⟩

private theorem of_pre (h : SchedPre k) (hc : ∀ c, k.curenv = some c → (k.envs c).envStatus = .RUNNABLE) :
    SchedOk k := by
  obtain ⟨l, hl, hm⟩ := h
  exact ⟨l, hl, fun e => (hm e).trans ⟨fun h => h.elim id (hc e), .inl⟩⟩

/-- The list is right again once the current environment was taken off and put back if it is runnable. -/
private theorem requeue (h : SchedPre k) (hr : k.requeue = some k') : SchedOk k' := by
  obtain ⟨q, rfl, ⟨hc, rfl⟩ | ⟨e, q₁, hc, hq₁, hq⟩⟩ := requeue_cases hr
  · exact of_pre h fun c hcur => absurd (hc.symm.trans hcur) nofun
  · obtain ⟨l, hl, hm⟩ := h
    have hmem : ∀ x, x ∈ l ↔ (k.envs x).envStatus = .RUNNABLE ∨ x = e := fun x => by
      rw [hm, hc, Option.some.injEq, @eq_comm _ e]
    obtain ⟨q', hq', hl'⟩ := hl.remove ((hmem e).2 (.inr rfl))
    obtain rfl := Option.some.inj (hq₁.symm.trans hq')
    have herase : ∀ x, x ∈ l.erase e ↔ x ≠ e ∧ (k.envs x).envStatus = .RUNNABLE := fun x => by
      rw [hl.nodup.mem_erase_iff, hmem]; tauto
    rcases hq with ⟨hrun, hq⟩ | ⟨hrun, rfl⟩
    · obtain ⟨q'', hq'', hl''⟩ := hl'.insertTail fun hmem => ((herase e).1 hmem).1 rfl
      obtain rfl := Option.some.inj (hq.symm.trans hq'')
      refine ⟨_, hl'', fun x => ?_⟩
      rw [List.mem_append, herase, List.mem_singleton]
      by_cases hx : x = e
      · subst hx; exact iff_of_true (.inr rfl) hrun
      · exact ⟨fun h => (h.resolve_right hx).2, fun h => .inl ⟨hx, h⟩⟩
    · refine ⟨_, hl', fun x => (herase x).trans ⟨And.right, fun h => ⟨?_, h⟩⟩⟩
      rintro rfl
      exact hrun h

private theorem schedule_pre {yield : Bool} (h : SchedPre k) (hs : k.schedule yield = some k') : SchedOk k' := by
  obtain ⟨q, n, e, hrun, rfl, hq⟩ := schedule_cases hs
  have hq : SchedOk (k.setSched q) := by
    obtain ⟨k₁, hr, rfl, -⟩ | ⟨rfl, hc⟩ := hq
    · exact requeue h hr
    · exact of_pre h fun c hcur => Option.some.inj (hc.symm.trans hcur) ▸ hrun
  exact hq.congr (by unfold running saveTf; split <;> rfl) (LiveOk.running_status k q n e)

private theorem schedule {yield : Bool} (h : SchedOk k) (hc : ∀ c, k.curenv = some c → (k.envs c).envStatus = .RUNNABLE)
    (hs : k.schedule yield = some k') : SchedOk k' :=
  schedule_pre (h.pre hc) hs

/-! ### The operations -/

private theorem alloc {parentId : Word} (h : SchedOk k) (hlive : LiveOk k) (ha : k.envAlloc parentId = some (e, k')) :
    SchedOk k' ∧ (k'.envs e).envStatus ≠ .RUNNABLE := by
  obtain ⟨-, -, hfree, hst⟩ := hlive.alloc ha
  refine ⟨h.congr ?_ hst, by rw [hst, hfree]; exact nofun⟩
  obtain ⟨rest, pgdir, pm, asid, bitmap, -, -, -, rfl⟩ := envAlloc_cases ha
  rfl

private theorem destroy {left : Bool} (h : SchedOk k) (he : (k.envs e).envStatus = .RUNNABLE)
    (hd : k.envDestroy e = some (k', left)) : SchedOk k' := by
  obtain ⟨k₁, hk₁, hd⟩ := envDestroy_cases hd
  obtain ⟨pgdir, pm, q, -, -, hq, rfl⟩ := envFree_cases hk₁
  have hfreed : SchedOk (k.freed e pm q) := by
    have hr : SchedOk ((k.setSched q).setEnv e fun env => { env with envStatus := .FREE }) := h.remove he hq nofun
    exact hr.congr rfl fun _ => rfl
  obtain ⟨-, -, hs⟩ | ⟨-, -, rfl⟩ := hd
  · have hnone : SchedOk ((k.freed e pm q).setCurenv none) := hfreed.congr rfl fun _ => rfl
    exact hnone.schedule nofun hs
  · exact hfreed

private theorem sigFrame {c : EnvPtr} (h : SchedOk k) (hf : SigFrame c k k') : SchedOk k' := by
  obtain ⟨signos, free, umem, header, mask, rfl⟩ := hf
  exact ((h.setSignos signos free).setUmem umem).setEnv_same rfl

private theorem setTf (h : SchedOk k) (cur e : EnvPtr) (frame : Trapframe) : SchedOk (k.setTf cur e frame) := by
  unfold Kern.setTf
  split
  · exact h.setKtf frame
  · exact h.setEnv_same rfl

private theorem pended (h : SchedOk k) {signo : Word} {n : SignoPtr} {k₁ : Kern} (hn : k.signoAlloc signo = some (n, k₁))
    (e : EnvPtr) : SchedOk (k₁.pended e n) := by
  obtain ⟨-, rfl⟩ := signoAlloc_cases hn
  exact ((h.setSignos _ _).setSignos _ _).setEnv_same rfl

private theorem pageInsertEnv (h : SchedOk k) {pp : Nat} {va perm r : Word}
    (hi : k.pageInsertEnv e pp va perm = some (r, k')) : SchedOk k' := by
  obtain ⟨_, pm, _, _, rfl⟩ := pageInsertEnv_cases hi
  exact h.setPm pm

private theorem served {c : EnvPtr} {va : Word} (h : SchedOk k) (hs : k.Served c va k') : SchedOk k' := by
  cases hs with
  | mapped => exact h
  | alloc _ _ ha =>
    obtain ⟨k₀, pp, pm, hsegv, -, -, hi⟩ := passiveAlloc_cases ha
    cases hsegv with
    | none => exact (h.setPm pm).pageInsertEnv hi
    | sent _ hn => exact ((h.pended hn c).setPm pm).pageInsertEnv hi

private theorem storeTf (h : SchedOk k) (c : EnvPtr) (returned : Bool) (tf : Trapframe) :
    SchedOk (k.storeTf c returned tf) := by
  unfold Kern.storeTf
  split
  · exact h.setKtf tf
  · exact h.setEnv_same rfl

/-- `sys_set_env_status` inserts and removes by the status that it finds. -/
private theorem setEnvStatus {st : EnvStatus} (h : SchedOk k) (hlive : (k.envs e).envStatus ≠ .FREE) (hst : st ≠ .FREE)
    (hs : k.setEnvStatus e st = some k') : SchedOk k' := by
  obtain ⟨q, hq, rfl⟩ := Option.map_eq_some_iff.1 hs
  split at hq
  case isTrue hr => exact h.remove hr.1 hq (by rw [hr.2]; exact nofun)
  case isFalse hr =>
    split at hq
    case isTrue hn => exact h.insertTail (by rw [hn.1]; exact nofun) hq hn.2
    case isFalse hn =>
      obtain rfl := Option.some.inj hq
      have hsame : st = (k.envs e).envStatus := by
        revert hlive hst hr hn
        cases (k.envs e).envStatus <;> cases st <;> simp
      have hq : SchedOk (k.setSched k.sched) := h.congr rfl fun _ => rfl
      exact hq.setEnv_same hsame

end SchedOk

/-! ### Runs -/

/-- The call finds the environments it takes off the list runnable, and the one it wakes not. -/
def callSchedAdmits (k : Kern) (cur : EnvPtr) : Call → Bool
  | .yield => (k.envs cur).envStatus = .RUNNABLE
  | .ipcRecv dstva => decide (dstva ≠ 0 ∧ isIllegalVa dstva) || decide ((k.envs cur).envStatus = .RUNNABLE)
  | .envDestroy envid => (k.envid2env cur envid true).all fun e => (k.envs e).envStatus = .RUNNABLE
  | .ipcTrySend envid _ srcva _ =>
    decide (srcva ≠ 0 ∧ isIllegalVa srcva) || (k.envid2env cur envid false).all fun e =>
      decide ((k.envs e).envIpcRecving = 0 ∨ (k.envs e).envStatus ≠ .RUNNABLE)
  | _ => true

/-- The step does not take an environment off the run list that is not on it, nor put one on it twice. -/
def schedAdmits (s : State) (_ : Event) : Bool :=
  match s.phase with
  | .entered .tick => s.kern.curenv.all fun c => (s.kern.envs c).envStatus = .RUNNABLE
  | .entered (.syscall _) => s.kern.onCall callSchedAdmits
  | _ => true

namespace SchedOk

variable {k k' : Kern}

private theorem call {cur : EnvPtr} {c : Call} {r : Option Word} (h : SchedOk k) (hlive : LiveOk k)
    (hcur : k.curenv = some cur) (hok : callSchedAdmits k cur c) (hs : CallStep k cur c k' r) : SchedOk k' := by
  have hlive_cur := hlive.cur cur hcur
  cases hs with
  | unchanged => exact h
  | yield hs =>
    exact h.schedule (fun c hc => Option.some.inj (hcur.symm.trans hc) ▸ of_decide_eq_true hok) hs
  | envDestroy he hd =>
    simp only [callSchedAdmits, he, Option.all_some, decide_eq_true_eq] at hok
    exact h.destroy hok hd
  | setTlbModEntry => exact h.setEnv_same rfl
  | memAlloc _ _ _ hi => exact (h.setPm _).pageInsertEnv hi
  | memMap _ _ _ _ _ hi => exact h.pageInsertEnv hi
  | memUnmap => exact h.setPm _
  | exofork ha =>
    obtain ⟨h', he⟩ := h.alloc hlive ha
    exact h'.setEnv_idle he nofun
  | setEnvStatus hst he hs =>
    exact h.setEnvStatus (envid2env_live hlive_cur he) (LiveOk.legalStatus_ne_free hst) hs
  | setTrapframe => exact h.setTf _ _ _
  | @ipcWoken _ _ _ _ _ e _ hva he hrecv hq =>
    have hrecv : ¬(k.envs e).envIpcRecving = 0#32 := hrecv
    refine h.insertTail ?_ hq rfl
    rcases hva with hva | hva <;> simpa [callSchedAdmits, he, hva, hrecv] using hok
  | @ipcPage _ _ _ _ _ e _ _ _ hva he hrecv hq _ _ hi =>
    have hrecv : ¬(k.envs e).envIpcRecving = 0#32 := hrecv
    refine SchedOk.pageInsertEnv (h.insertTail ?_ hq rfl) hi
    simpa [callSchedAdmits, he, hva, hrecv] using hok
  | @ipcRecv dstva _ hva hs =>
    have hrun : (k.envs cur).envStatus = .RUNNABLE := by
      rcases hva with hva | hva <;> simpa [callSchedAdmits, hva] using hok
    -- the caller is still on the list when `schedule` starts, although it is not runnable any more
    refine schedule_pre ?_ hs
    obtain ⟨l, hl, hm⟩ := h
    refine ⟨l, hl, fun e => ?_⟩
    rw [hm]
    by_cases heq : e = cur
    · subst heq
      exact iff_of_true hrun (.inr hcur)
    · have hne : (k.ipcWait cur dstva).curenv ≠ some e := fun hc => heq (Option.some.inj (hc.symm.trans hcur))
      rw [or_iff_left hne, ipcWait, setEnv_of_ne heq]
      rfl
  | @sigaction _ _ _ _ m => exact (h.setUmem m).setEnv_same rfl
  | @sigprocmask _ _ _ _ m => exact (h.setUmem m).setEnv_same rfl
  | kill _ hn => exact h.pended hn _
  | backDoSignal => exact (h.setTf cur _ _).setEnv_same rfl
  | setSigEntry => exact h.setEnv_same rfl

private theorem create {binary : Image} {priority : Word} (h : SchedOk k) (hlive : LiveOk k)
    (hc : k.envCreate binary priority = some k') : SchedOk k' := by
  obtain ⟨e, k₁, pgdir, pm, ha, -, -, rfl⟩ := envCreate_cases hc
  obtain ⟨h', he⟩ := h.alloc hlive ha
  have hi := (h'.setPm pm).insertHead (f := fun env => { env with envStatus := .RUNNABLE }) he rfl
  refine hi.congr rfl fun e' => ?_
  unfold created
  by_cases heq : e' = e
  · subst heq; simp
  · simp [setEnv_of_ne heq]

/-- An admitted step keeps the run list right. -/
theorem step {s s' : State} {ev : Event} (h : SchedOk s.kern) (hlive : LiveOk s.kern) (hok : schedAdmits s ev)
    (hs : Step s ev s') : SchedOk s'.kern := by
  cases hs with
  | create hc => exact h.create hlive hc
  | evict => exact h.setPm _
  | idle => exact h
  | save => exact (h.setUmem _).setKtf _
  | @tick k _ hs =>
    refine h.schedule (fun c (hc : k.curenv = some c) => ?_) hs
    simpa [schedAdmits, hc] using hok
  | noSys => exact h.setKtf _
  | @call k _ _ _ _ _ hc hd hs =>
    exact (SchedOk.call (k := k.skipInsn) (h.setKtf _) (hlive.setKtf _) hc ((onCall_eq hc hd).symm.trans hok) hs).setKtf _
  | @left k _ _ _ _ hc hd hs =>
    exact SchedOk.call (k := k.skipInsn) (h.setKtf _) (hlive.setKtf _) hc ((onCall_eq hc hd).symm.trans hok) hs
  | tlbMiss _ _ hs => exact (h.served hs).setPm _
  | tlbMod => exact (h.setUmem _).setKtf _
  | ret _ hd => exact ((h.sigFrame (doSignal_frame hd).1).storeTf _ _ _).setCpu _

theorem boot (mc : Machine) : SchedOk mc.bootKern :=
  ⟨[], TailQueue.holds_clear _, fun _ => iff_of_false List.not_mem_nil nofun⟩

end SchedOk

theorem liveSched_of_reach {s : State} (h : kernel.Reach (fun s ev => schedAdmits s ev) s) :
    LiveOk s.kern ∧ SchedOk s.kern := by
  refine h.invariant (I := fun s => LiveOk s.kern ∧ SchedOk s.kern) ?_ ?_
  · intro s hs
    obtain ⟨mc, rfl⟩ := init_iff.1 hs
    exact ⟨.boot mc, .boot mc⟩
  · rintro s ev s' ⟨hlive, h⟩ hok hs
    exact ⟨hlive.step (State.step_cases hs), h.step hlive hok (State.step_cases hs)⟩

/-- In every run whose steps are all admitted, `env_sched_list` is a well-formed queue of exactly the runnable
environments. -/
theorem schedOk_of_reach {s : State} (h : kernel.Reach (fun s ev => schedAdmits s ev) s) : SchedOk s.kern :=
  (liveSched_of_reach h).2

/-- Two environments, of which one forks a child, starts it and yields. -/
def startChild : List Event :=
  .create .empty 1 :: .create .empty 1 :: tickEvents ++ callEvents 9 0 0 0 ++ callEvents 10 0x1801 1 0 ++
    callEvents 3 0 0 0

private theorem startChild_isSome : (Machine.gxemul.after schedAdmits startChild).isSome := by decide +kernel

theorem schedOk_startChild : SchedOk ((Machine.gxemul.after schedAdmits startChild).get startChild_isSome).kern :=
  schedOk_of_reach (Machine.after_reach (Option.some_get _).symm)

/-- A child waits in `sys_ipc_recv`; its parent makes it runnable and then sends to it. -/
def sendToRunnable : List Event :=
  .create .empty 1 :: tickEvents ++ callEvents 9 0 0 0 ++ callEvents 10 0x1001 1 0 ++ callEvents 3 0 0 0 ++
    callEvents 14 0 0 0 ++ callEvents 10 0x1001 1 0 ++ callEvents 13 0x1001 0 0

/-- The child is put on the list a second time and becomes its own successor. -/
private theorem sendToRunnable_loop : (Machine.gxemul.after (fun _ _ => true) sendToRunnable).any (fun s =>
    s.inUser && decide ((s.kern.envs 1).envStatus = .RUNNABLE) && decide (s.kern.sched.next 1 = some 1)) := by
  decide +kernel

theorem exists_not_schedOk :
    ∃ s, kernel.Reach (fun _ _ => True) s ∧ s.inUser ∧ ¬SchedOk s.kern := by
  obtain ⟨s, hs, hloop⟩ := (Option.any_eq_true _ _).1 sendToRunnable_loop
  simp only [Bool.and_eq_true, decide_eq_true_eq] at hloop
  obtain ⟨⟨huser, hrun⟩, hnext⟩ := hloop
  refine ⟨s, (Machine.after_reach hs).mono fun _ _ _ => trivial, huser, ?_⟩
  rintro ⟨l, hl, hm⟩
  exact hl.next_ne_self ((hm 1).2 hrun) hnext

end Mos
