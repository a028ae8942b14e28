import Mos.Inv.Sched
import Mos.Lib.RoundRobin

/-!
# The turns of the environments

`schedule` keeps the slices that the current environment has left in a static counter, and an environment that blocks
in `sys_ipc_recv` stays on the run list until `schedule` takes it off.  The environments that it runs are nevertheless
those of a weighted round robin: the run list without the current environment is the queue of the tasks that wait, and
the counter is what is left of the turn.
-/

namespace Mos

open Kern

/-- What the kernel is asked to do between two entries: `schedule` by a clock interrupt or `sys_yield`, or a call of the
current environment. -/
inductive SchedEvent where
  | schedule (yield : Bool)
  | ipcRecv (dstva : Word)
  | ipcTrySend (envid value srcva perm : Word)

namespace Kern

/-- The state afterwards, and the environments that were passed to `env_run`. -/
def schedEvent (k : Kern) : SchedEvent → Option (Kern × List EnvPtr)
  | .schedule yield => (k.schedule yield).map fun k => (k, k.curenv.toList)
  | .ipcRecv dstva =>
    k.curenv.bind fun cur => (k.sysIpcRecv cur dstva).map fun
      | (k, some _) => (k, [])
      | (k, none) => (k, k.curenv.toList)
  | .ipcTrySend envid value srcva perm =>
    k.curenv.bind fun cur => (k.sysIpcTrySend cur envid value srcva perm).map fun r => (r.1, [])

/-- The environment that a send wakes, if it gets so far. -/
def receiver (k : Kern) (envid srcva : Word) : Option EnvPtr :=
  k.curenv.bind fun cur =>
    if srcva ≠ 0 ∧ isIllegalVa srcva then none
    else (k.envid2env cur envid false).filter fun e => (k.envs e).envIpcRecving ≠ 0

/-- What an event means for the turns; a call that fails its checks means nothing. -/
def asks (k : Kern) : SchedEvent → List (RoundRobin.Event EnvPtr)
  | .schedule yield => [if yield then .yield else .tick]
  | .ipcRecv dstva => if k.curenv = none ∨ (dstva ≠ 0 ∧ isIllegalVa dstva) then [] else [.block]
  | .ipcTrySend envid _ srcva _ => (k.receiver envid srcva).toList.map .wake

/-- The environments passed to `env_run` in a run. -/
def schedTrace (k : Kern) : List SchedEvent → List EnvPtr
  | [] => []
  | ev :: evs =>
    match k.schedEvent ev with
    | none => []
    | some (k', ran) => ran ++ schedTrace k' evs

/-- What the events of a run mean for the turns. -/
def asked (k : Kern) : List SchedEvent → List (RoundRobin.Event EnvPtr)
  | [] => []
  | ev :: evs =>
    k.asks ev ++
      match k.schedEvent ev with
      | none => []
      | some (k', _) => asked k' evs

/-- The state after a run. -/
def schedEvents (k : Kern) : List SchedEvent → Option Kern
  | [] => some k
  | ev :: evs => (k.schedEvent ev).bind fun r => schedEvents r.1 evs

/-- A send is a wake-up: its receiver is blocked, and is not the environment that sends. -/
def wakes (k : Kern) : SchedEvent → Bool
  | .ipcTrySend envid _ srcva _ =>
    (k.receiver envid srcva).all fun e => decide ((k.envs e).envStatus ≠ .RUNNABLE) && decide (k.curenv ≠ some e)
  | _ => true

/-- Every send of the run that gets through is a wake-up. -/
def wakeUps (k : Kern) : List SchedEvent → Bool
  | [] => true
  | ev :: evs => k.wakes ev && (k.schedEvent ev).all fun r => wakeUps r.1 evs

def weight (k : Kern) (e : EnvPtr) : Nat := (k.envs e).envPri.toNat

/-- The turns as the kernel keeps them, with `l` on the run list. -/
def roundRobin (k : Kern) (l : List EnvPtr) : RoundRobin EnvPtr where
  running := k.curenv.filter fun c => (k.envs c).envStatus = .RUNNABLE
  left := k.count.toNat
  waiting := k.curenv.elim l l.erase

end Kern

/-- The run list is `l`: the runnable environments and, if it has just blocked, the current one.  The priorities are not
negative as numbers of slices, nor is what is left of the counter. -/
structure TurnsOk (k : Kern) (l : List EnvPtr) : Prop where
  holds : k.sched.Holds l
  mem : ∀ e, e ∈ l ↔ (k.envs e).envStatus = .RUNNABLE ∨ k.curenv = some e
  pri : ∀ e, (k.envs e).envPri.toNat < 2 ^ 31
  count : 0 ≤ k.count

namespace TurnsOk

variable {k k' : Kern} {l : List EnvPtr}

/-- Nobody has the processor. -/
private theorem roundRobin_none (hc : k.curenv = none) : k.roundRobin l = ⟨none, k.count.toNat, l⟩ := by
  simp [roundRobin, hc]

private theorem roundRobin_running {c : EnvPtr} (hc : k.curenv = some c) (hrun : (k.envs c).envStatus = .RUNNABLE) :
    k.roundRobin l = ⟨some c, k.count.toNat, l.erase c⟩ := by
  simp [roundRobin, hc, Option.filter, hrun]

private theorem roundRobin_blocked {c : EnvPtr} (hc : k.curenv = some c) (hrun : (k.envs c).envStatus ≠ .RUNNABLE) :
    k.roundRobin l = ⟨none, k.count.toNat, l.erase c⟩ := by
  simp [roundRobin, hc, Option.filter, hrun]

/-- The queue after `schedule` has moved the current environment to the tail. -/
def queue (k : Kern) (l : List EnvPtr) : List EnvPtr :=
  (k.roundRobin l).waiting ++ (k.roundRobin l).running.toList

/-- `schedule` takes the current environment off the list and puts it back at the tail if it is runnable. -/
private theorem requeue (h : TurnsOk k l) : (∃ q, k.requeue = some (k.setSched q) ∧ q.Holds (queue k l)) ∧
    ∀ e, e ∈ queue k l ↔ (k.envs e).envStatus = .RUNNABLE := by
  unfold queue Kern.requeue
  cases hc : k.curenv with
  | none =>
    rw [roundRobin_none hc, Option.toList_none, List.append_nil]
    refine ⟨⟨k.sched, rfl, h.holds⟩, fun e => (h.mem e).trans (or_iff_left ?_)⟩
    rw [hc]
    exact nofun
  | some c =>
    have hmem : ∀ e, e ∈ l.erase c ↔ e ≠ c ∧ (k.envs e).envStatus = .RUNNABLE := fun e => by
      rw [h.holds.nodup.mem_erase_iff, h.mem, hc, Option.some.injEq]
      tauto
    obtain ⟨q, hq, hl⟩ := h.holds.remove ((h.mem c).2 (.inr hc))
    by_cases hrun : (k.envs c).envStatus = .RUNNABLE
    · rw [roundRobin_running hc hrun, Option.toList_some]
      obtain ⟨q', hq', hl'⟩ := hl.insertTail fun hm => ((hmem c).1 hm).1 rfl
      refine ⟨⟨q', by simp [hq, hrun, hq'], hl'⟩, fun e => ?_⟩
      rw [List.mem_append, hmem, List.mem_singleton]
      by_cases hec : e = c
      · rw [hec]; exact iff_of_true (.inr rfl) hrun
      · simp [hec]
    · rw [roundRobin_blocked hc hrun, Option.toList_none, List.append_nil]
      refine ⟨⟨q, by simp [hq, hrun], hl⟩, fun e => (hmem e).trans (and_iff_right_of_imp ?_)⟩
      rintro he rfl
      exact hrun he

private theorem decCount_toNat (n : Nat) : (decCount (n : Int)).toNat = max 1 n - 1 := by
  unfold decCount
  split <;> omega

private theorem decCount_nonneg {n : Int} (h : 0 ≤ n) : 0 ≤ decCount n := by
  unfold decCount
  split <;> omega

private theorem envRun_eq {q : TailQueue EnvPtr} {n : Int} {e : EnvPtr} (he : (k.envs e).envStatus = .RUNNABLE) :
    ((k.setSched q).setCount n).envRun e = some (k.running q n e) := by
  have he' : (((k.setSched q).setCount n).envs e).envStatus = .RUNNABLE := he
  rw [envRun, if_pos he']
  rfl

/-- `schedule` makes a step of the round robin, and panics where that has none. -/
def Follows (k : Kern) (yield : Bool) : Option (RoundRobin EnvPtr) → Prop
  | none => k.schedule yield = none
  | some r => ∃ k' l', k.schedule yield = some k' ∧ TurnsOk k' l' ∧ k'.weight = k.weight ∧ k'.roundRobin l' = r ∧
      k'.curenv = r.running

/-- An environment `e` of the list runs. -/
private theorem follows_run (h : TurnsOk k l) {yield : Bool} {q : TailQueue EnvPtr} {m : List EnvPtr} {n : Int}
    {e : EnvPtr} (hq : q.Holds m) (hm : ∀ x, x ∈ m ↔ (k.envs x).envStatus = .RUNNABLE) (he : e ∈ m) (hn : 0 ≤ n)
    (hs : k.schedule yield = some (k.running q n e)) : Follows k yield (some ⟨some e, n.toNat, m.erase e⟩) := by
  have hst : ∀ x, ((k.running q n e).envs x).envStatus = (k.envs x).envStatus :=
    running_field Env.envStatus (fun _ _ => rfl) (fun _ _ => rfl) k q n e
  have hpri : ∀ x, ((k.running q n e).envs x).envPri = (k.envs x).envPri :=
    running_field Env.envPri (fun _ _ => rfl) (fun _ _ => rfl) k q n e
  have hsched : (k.running q n e).sched = q := by unfold Kern.running saveTf; split <;> rfl
  have hcount : (k.running q n e).count = n := by unfold Kern.running saveTf; split <;> rfl
  have hcur : (k.running q n e).curenv = some e := rfl
  have hrun : ((k.running q n e).envs e).envStatus = .RUNNABLE := (hst e).trans ((hm e).1 he)
  refine ⟨_, m, hs, ⟨by rw [hsched]; exact hq, fun x => ?_, fun x => hpri x ▸ h.pri x, by rw [hcount]; exact hn⟩,
    ?_, ?_, hcur⟩
  · rw [hm, hst, hcur]
    refine ⟨.inl, fun hx => hx.elim id fun heq => ?_⟩
    exact Option.some.inj heq ▸ (hm e).1 he
  · funext x
    rw [weight, hpri]
    rfl
  · rw [roundRobin_running hcur hrun, hcount]

/-- The head of the queue starts its turn. -/
private theorem follows_dispatch (h : TurnsOk k l) {yield : Bool} (hp : k.mustPick yield) :
    Follows k yield (RoundRobin.dispatch k.weight (queue k l)) := by
  obtain ⟨⟨q, hq, hl⟩, hmem⟩ := h.requeue
  have hs : k.schedule yield = (queue k l).head?.bind fun e =>
      ((k.setSched q).setCount (decCount (k.envs e).envPri.toInt)).envRun e := by
    rw [Kern.schedule, if_pos hp, hq, Option.bind_some, ← hl.first_eq]
    rfl
  cases hm : queue k l with
  | nil =>
    rw [hm] at hs
    exact hs
  | cons e m =>
    rw [hm] at hs hl hmem
    have he : e ∈ e :: m := List.mem_cons_self ..
    have hrun : (k.envs e).envStatus = .RUNNABLE := (hmem e).1 he
    have hpri : (k.envs e).envPri.toInt = (k.weight e : Int) :=
      BitVec.toInt_eq_toNat_of_lt (by have := h.pri e; omega)
    rw [List.head?_cons, Option.bind_some, hpri, envRun_eq hrun] at hs
    have hf := h.follows_run hl hmem he (decCount_nonneg (Int.natCast_nonneg _)) hs
    rw [decCount_toNat, List.erase_cons_head] at hf
    exact hf

/-- The current environment goes on with its turn. -/
private theorem follows_tick (h : TurnsOk k l) {c : EnvPtr} (hc : k.curenv = some c)
    (hrun : (k.envs c).envStatus = .RUNNABLE) (hz : k.count ≠ 0) :
    Follows k false (some ⟨some c, k.count.toNat - 1, l.erase c⟩) := by
  have hpos : 0 < k.count := by have := h.count; omega
  have hmem : ∀ x, x ∈ l ↔ (k.envs x).envStatus = .RUNNABLE := fun x => by
    rw [h.mem, hc]
    refine ⟨fun hx => hx.elim id fun heq => ?_, .inl⟩
    exact Option.some.inj heq ▸ hrun
  have hp : k.mustPick false = false := by simp [mustPick, hc, hz, hrun]
  have hs : k.schedule false = some (k.running k.sched (k.count - 1) c) := by
    rw [Kern.schedule, hp, if_neg (by simp), hc, Option.bind_some, decCount, if_pos hpos]
    exact envRun_eq (q := k.sched) hrun
  have hf := h.follows_run h.holds hmem ((hmem c).2 hrun) (by omega) hs
  have hn : (k.count - 1).toNat = k.count.toNat - 1 := by omega
  rw [hn] at hf
  exact hf

private theorem schedule (h : TurnsOk k l) (yield : Bool) :
    Follows k yield ((k.roundRobin l).step k.weight (if yield then .yield else .tick)) := by
  cases yield with
  | true => exact h.follows_dispatch (by unfold mustPick; split <;> simp)
  | false =>
    simp only [Bool.false_eq_true, if_false]
    cases hc : k.curenv with
    | none =>
      have hp : k.mustPick false := by simp [mustPick, hc]
      have hf := h.follows_dispatch hp
      rw [queue, roundRobin_none hc] at hf
      rw [roundRobin_none hc]
      exact hf
    | some c =>
      by_cases hrun : (k.envs c).envStatus = .RUNNABLE
      · rw [roundRobin_running hc hrun]
        by_cases hz : k.count = 0
        · have hp : k.mustPick false := by simp [mustPick, hc, hz]
          have hf := h.follows_dispatch hp
          rw [queue, roundRobin_running hc hrun, hz] at hf
          rw [hz]
          exact hf
        · have hf := h.follows_tick hc hrun hz
          obtain ⟨n, hn⟩ : ∃ n, k.count.toNat = n + 1 := ⟨k.count.toNat - 1, by have := h.count; omega⟩
          rw [hn] at hf ⊢
          exact hf
      · have hp : k.mustPick false := by simp [mustPick, hc, hrun]
        have hf := h.follows_dispatch hp
        rw [queue, roundRobin_blocked hc hrun] at hf
        rw [roundRobin_blocked hc hrun]
        exact hf

/-! ### Events -/

/-- The event does to the turns what it asks for. -/
def Simulates (k : Kern) (l : List EnvPtr) (ev : SchedEvent) : Prop :=
  match k.schedEvent ev with
  | none => (k.roundRobin l).trace k.weight (k.asks ev) = []
  | some (k', ran) => ∃ l', TurnsOk k' l' ∧ k'.weight = k.weight ∧ ∀ evs,
      (k.roundRobin l).trace k.weight (k.asks ev ++ evs) = ran ++ (k'.roundRobin l').trace k.weight evs

/-- An event that runs `schedule` in the state `k₁`, which may differ from `k` by what the call did before. -/
private theorem simulates_of_follows {k₁ : Kern} {yield : Bool} {ev : SchedEvent} {a : RoundRobin.Event EnvPtr}
    (hf : Follows k₁ yield ((k.roundRobin l).step k.weight a)) (hw : k₁.weight = k.weight) (ha : k.asks ev = [a])
    (hwake : a.isWake = false) (hs : k.schedEvent ev = (k₁.schedule yield).map fun k => (k, k.curenv.toList)) :
    Simulates k l ev := by
  unfold Simulates
  rw [hs, ha]
  cases hstep : (k.roundRobin l).step k.weight a with
  | none =>
    rw [hstep] at hf
    have hnone : k₁.schedule yield = none := hf
    rw [hnone]
    exact RoundRobin.trace_stuck hstep []
  | some r =>
    rw [hstep] at hf
    obtain ⟨k', l', hk', hok, hw', rfl, hc⟩ := hf
    rw [hk']
    refine ⟨l', hok, hw'.trans hw, fun evs => ?_⟩
    rw [List.singleton_append, RoundRobin.trace_cons hstep, hwake, if_neg (by simp), ← hc]

private theorem simulates_recv (h : TurnsOk k l) (dstva : Word) : Simulates k l (.ipcRecv dstva) := by
  cases hc : k.curenv with
  | none => simp [Simulates, schedEvent, asks, hc, RoundRobin.trace]
  | some cur =>
    by_cases hva : dstva ≠ 0 ∧ isIllegalVa dstva
    · have hs : k.schedEvent (.ipcRecv dstva) = some (k, []) := by
        simp only [schedEvent, hc, Option.bind_some, sysIpcRecv, if_pos hva, Option.map_some]
      have ha : k.asks (.ipcRecv dstva) = [] := if_pos (.inr hva)
      unfold Simulates
      rw [hs, ha]
      exact ⟨l, h, rfl, fun evs => rfl⟩
    · have hs : k.schedEvent (.ipcRecv dstva) =
          ((k.ipcWait cur dstva).schedule true).map fun k => (k, k.curenv.toList) := by
        simp only [schedEvent, hc, Option.bind_some, sysIpcRecv, if_neg hva, Option.map_map]
        rfl
      have ha : k.asks (.ipcRecv dstva) = [.block] :=
        if_neg (not_or.2 ⟨by simp [hc], hva⟩)
      have hcur : (k.ipcWait cur dstva).curenv = some cur := hc
      have hst : ((k.ipcWait cur dstva).envs cur).envStatus ≠ .RUNNABLE := by
        rw [ipcWait, setEnv_self]
        intro h
        cases h
      have hpri : ∀ e, ((k.ipcWait cur dstva).envs e).envPri = (k.envs e).envPri := setEnv_field Env.envPri rfl
      have hw : (k.ipcWait cur dstva).weight = k.weight := funext fun e => by rw [weight, hpri]; rfl
      -- the caller is still on the list, but it does not have the processor any more
      have hok : TurnsOk (k.ipcWait cur dstva) l := by
        refine ⟨h.holds, fun e => ?_, fun e => hpri e ▸ h.pri e, h.count⟩
        rw [h.mem, hcur, hc]
        by_cases hec : e = cur
        · exact iff_of_true (.inr (hec ▸ rfl)) (.inr (hec ▸ rfl))
        · rw [ipcWait, setEnv_of_ne hec]
          rfl
      have hf := hok.schedule true
      have hstep : ((k.ipcWait cur dstva).roundRobin l).step (k.ipcWait cur dstva).weight .yield =
          (k.roundRobin l).step k.weight .block := by
        rw [roundRobin_blocked hcur hst, hw]
        simp [RoundRobin.step, roundRobin, hc]
      simp only [if_true, hstep] at hf
      exact simulates_of_follows hf hw ha rfl hs

/-- What a send that wakes `e` leaves, apart from the memory. -/
private theorem sysIpcTrySend_cases {k' : Kern} {cur : EnvPtr} {envid value srcva perm : Word} {r : Option Word}
    (h : k.sysIpcTrySend cur envid value srcva perm = some (k', r)) (hc : k.curenv = some cur) :
    (k.receiver envid srcva = none ∧ k' = k) ∨
      ∃ e q pm, k.receiver envid srcva = some e ∧ k.sched.insertTail e = some q ∧
        k' = (k.ipcWake cur e value perm q).setPm pm := by
  unfold sysIpcTrySend at h
  unfold receiver
  rw [hc, Option.bind_some]
  by_cases hva : srcva ≠ 0 ∧ isIllegalVa srcva
  · rw [if_pos hva] at h ⊢
    simp only [Option.some.injEq, Prod.mk.injEq] at h
    exact .inl ⟨rfl, h.1.symm⟩
  · rw [if_neg hva] at h ⊢
    cases he : k.envid2env cur envid false with
    | none =>
      simp only [he, Option.some.injEq, Prod.mk.injEq] at h
      exact .inl ⟨rfl, h.1.symm⟩
    | some e =>
      simp only [he] at h
      by_cases hrecv : (k.envs e).envIpcRecving = 0
      · rw [if_pos hrecv] at h
        simp only [Option.some.injEq, Prod.mk.injEq] at h
        refine .inl ⟨?_, h.1.symm⟩
        rw [Option.filter, if_neg (by simpa using hrecv)]
      · rw [if_neg hrecv] at h
        obtain ⟨q, hq, h⟩ := Option.bind_eq_some_iff.1 h
        have hrcv : (some e).filter (fun e => decide ((k.envs e).envIpcRecving ≠ 0)) = some e := by
          rw [Option.filter, if_pos (by simpa using hrecv)]
        refine .inr ⟨e, q, ?_⟩
        split at h
        · obtain ⟨p, -, h⟩ := Option.bind_eq_some_iff.1 h
          cases p with
          | none =>
            simp only [Option.some.injEq, Prod.mk.injEq] at h
            exact ⟨k.pm, hrcv, hq, h.1.symm⟩
          | some p =>
            obtain ⟨⟨v, k₁⟩, hi, h⟩ := Option.map_eq_some_iff.1 h
            obtain ⟨_, pm, _, _, rfl⟩ := pageInsertEnv_cases hi
            simp only [Prod.mk.injEq] at h
            exact ⟨pm, hrcv, hq, h.1.symm⟩
        · simp only [Option.some.injEq, Prod.mk.injEq] at h
          exact ⟨k.pm, hrcv, hq, h.1.symm⟩

/-- A woken environment goes to the tail of the list. -/
private theorem wake (h : TurnsOk k l) {cur e : EnvPtr} {q : TailQueue EnvPtr} (value perm : Word) (pm : Pmap)
    (hc : k.curenv = some cur) (hst : (k.envs e).envStatus ≠ .RUNNABLE) (hne : e ≠ cur)
    (hq : k.sched.insertTail e = some q) :
    TurnsOk ((k.ipcWake cur e value perm q).setPm pm) (l ++ [e]) ∧
      ((k.ipcWake cur e value perm q).setPm pm).weight = k.weight ∧
      some (((k.ipcWake cur e value perm q).setPm pm).roundRobin (l ++ [e])) =
        (k.roundRobin l).step k.weight (.wake e) := by
  have hel : e ∉ l := fun hm => by
    rcases (h.mem e).1 hm with hrun | hcur
    · exact hst hrun
    · exact hne (Option.some.inj (hcur.symm.trans hc))
  obtain ⟨q', hq', hl'⟩ := h.holds.insertTail hel
  obtain rfl := Option.some.inj (hq.symm.trans hq')
  have hcl : cur ∈ l := (h.mem cur).2 (.inr hc)
  have hself : (((k.ipcWake cur e value perm q).setPm pm).envs e).envStatus = .RUNNABLE := by
    rw [setPm_envs, ipcWake, setEnv_self]
  have hof : ∀ x, x ≠ e → ((k.ipcWake cur e value perm q).setPm pm).envs x = k.envs x := fun x hx => by
    rw [setPm_envs, ipcWake, setEnv_of_ne hx, setSched_envs]
  have hpri : ∀ x, (((k.ipcWake cur e value perm q).setPm pm).envs x).envPri = (k.envs x).envPri := fun x => by
    rw [setPm_envs, ipcWake, setEnv_field Env.envPri rfl, setSched_envs]
  have hcur : ((k.ipcWake cur e value perm q).setPm pm).curenv = some cur := hc
  refine ⟨⟨hl', fun x => ?_, fun x => hpri x ▸ h.pri x, h.count⟩, funext fun x => by rw [weight, hpri]; rfl, ?_⟩
  · rw [List.mem_append, List.mem_singleton, h.mem]
    by_cases hx : x = e
    · subst hx
      exact iff_of_true (.inr rfl) (.inl hself)
    · rw [hof x hx, or_iff_left hx]
      rfl
  · have herase : (l ++ [e]).erase cur = l.erase cur ++ [e] := List.erase_append_left _ hcl
    by_cases hrun : (k.envs cur).envStatus = .RUNNABLE
    · rw [roundRobin_running hcur (by rw [hof cur hne.symm]; exact hrun), roundRobin_running hc hrun, herase]
      rfl
    · rw [roundRobin_blocked hcur (by rw [hof cur hne.symm]; exact hrun), roundRobin_blocked hc hrun, herase]
      rfl

private theorem simulates_send (h : TurnsOk k l) {envid value srcva perm : Word}
    (hwake : k.wakes (.ipcTrySend envid value srcva perm)) : Simulates k l (.ipcTrySend envid value srcva perm) := by
  have ha : k.asks (.ipcTrySend envid value srcva perm) = (k.receiver envid srcva).toList.map .wake := rfl
  unfold Simulates
  cases hs : k.schedEvent (.ipcTrySend envid value srcva perm) with
  | none =>
    rw [ha]
    cases k.receiver envid srcva with
    | none => rfl
    | some e => rfl
  | some r =>
    obtain ⟨cur, hc, hs⟩ := Option.bind_eq_some_iff.1 hs
    obtain ⟨⟨k', v⟩, hk', rfl⟩ := Option.map_eq_some_iff.1 hs
    rcases sysIpcTrySend_cases hk' hc with ⟨hr, rfl⟩ | ⟨e, q, pm, hr, hq, rfl⟩
    · rw [ha, hr]
      exact ⟨l, h, rfl, fun evs => rfl⟩
    · simp only [wakes, hr, Option.all_some, hc, Bool.and_eq_true, decide_eq_true_eq] at hwake
      obtain ⟨hok, hw, hstep⟩ := h.wake value perm pm hc hwake.1
        (fun heq => hwake.2 (heq ▸ rfl)) hq
      rw [ha, hr]
      refine ⟨_, hok, hw, fun evs => ?_⟩
      exact RoundRobin.trace_cons hstep.symm evs

private theorem simulates (h : TurnsOk k l) {ev : SchedEvent} (hwake : k.wakes ev) : Simulates k l ev := by
  cases ev with
  | schedule yield =>
    exact simulates_of_follows (h.schedule yield) rfl rfl (by cases yield <;> rfl) rfl
  | ipcRecv dstva => exact h.simulates_recv dstva
  | ipcTrySend envid value srcva perm => exact h.simulates_send hwake

/-! ### Runs -/

private theorem trace_eq (h : TurnsOk k l) {evs : List SchedEvent} (hwake : k.wakeUps evs) :
    k.schedTrace evs = (k.roundRobin l).trace k.weight (k.asked evs) := by
  induction evs generalizing k l with
  | nil => rfl
  | cons ev evs ih =>
    simp only [wakeUps, Bool.and_eq_true] at hwake
    have hsim := h.simulates hwake.1
    unfold Simulates at hsim
    rw [schedTrace, asked]
    cases hs : k.schedEvent ev with
    | none =>
      rw [hs] at hsim
      rw [List.append_nil]
      exact hsim.symm
    | some r =>
      rw [hs] at hsim
      obtain ⟨l', hok, hw, htrace⟩ := hsim
      simp only [hs, Option.all_some] at hwake
      have hih := ih hok hwake.2
      rw [hw] at hih
      rw [htrace, ← hih]

private theorem events (h : TurnsOk k l) {evs : List SchedEvent} (hwake : k.wakeUps evs)
    (hs : k.schedEvents evs = some k') :
    ∃ l', TurnsOk k' l' := by
  induction evs generalizing k l with
  | nil => exact ⟨l, Option.some.inj hs ▸ h⟩
  | cons ev evs ih =>
    simp only [wakeUps, Bool.and_eq_true] at hwake
    have hsim := h.simulates hwake.1
    obtain ⟨r, hr, hs⟩ := Option.bind_eq_some_iff.1 hs
    rw [Simulates, hr] at hsim
    obtain ⟨l', hok, -, -⟩ := hsim
    simp only [hr, Option.all_some] at hwake
    exact ih hok hwake.2 hs

/-- An environment that `schedule(1)` runs again is the only runnable one. -/
private theorem yield_only (h : TurnsOk k l) {e e' : EnvPtr} (hs : k.schedule true = some k') (hc : k.curenv = some e)
    (hc' : k'.curenv = some e) (he' : (k.envs e').envStatus = .RUNNABLE) : e' = e := by
  have hf := h.schedule true
  rw [if_pos rfl] at hf
  cases hstep : (k.roundRobin l).step k.weight .yield with
  | none =>
    rw [hstep] at hf
    exact absurd (hs.symm.trans hf) nofun
  | some r =>
    rw [hstep] at hf
    obtain ⟨k₁, l', hk₁, -, -, -, hr⟩ := hf
    obtain rfl := Option.some.inj (hs.symm.trans hk₁)
    have hwait : (k.roundRobin l).waiting = l.erase e := by simp [roundRobin, hc]
    have hnil := RoundRobin.yield_same hstep (hr.symm.trans hc') (by
      rw [hwait]
      exact fun hm => (h.holds.nodup.mem_erase_iff.1 hm).1 rfl)
    by_contra hne
    have hmem : e' ∈ l.erase e := h.holds.nodup.mem_erase_iff.2 ⟨hne, (h.mem e').2 (.inl he')⟩
    rw [hwait] at hnil
    rw [hnil] at hmem
    cases hmem

/-- An environment that was picked is run again by every further tick of its turn, whatever is woken meanwhile. -/
theorem slice (h : TurnsOk k l) {yield : Bool} {e : EnvPtr} {evs : List SchedEvent} (hp : k.mustPick yield)
    (hs : k.schedule yield = some k') (hc : k'.curenv = some e) (hwake : k'.wakeUps evs)
    (hevs : ∀ ev ∈ k'.asked evs, ev = .tick ∨ ev.isWake)
    (hn : RoundRobin.ticks (k'.asked evs) < max 1 (k.weight e)) :
    k'.schedTrace evs = List.replicate (RoundRobin.ticks (k'.asked evs)) e := by
  have hf := h.follows_dispatch hp
  cases hm : queue k l with
  | nil =>
    rw [hm] at hf
    exact absurd (hs.symm.trans hf) nofun
  | cons a m =>
    rw [hm] at hf
    obtain ⟨k₁, l', hk₁, hok, hw, hr, hrun⟩ := hf
    obtain rfl := Option.some.inj (hs.symm.trans hk₁)
    obtain rfl : a = e := Option.some.inj (hrun.symm.trans hc)
    have htrace := RoundRobin.trace_slice (w := k.weight) (a := a) (n := max 1 (k.weight a) - 1) (l := m) hevs
      (by omega) []
    rw [List.append_nil] at htrace
    rw [hok.trace_eq hwake, hw, hr, htrace]
    exact List.append_nil _

end TurnsOk

/-- The environments passed to `env_run` are those of the weighted round robin, and one that runs again after
`schedule(1)` is the only runnable one. -/
theorem schedule_roundRobin {k : Kern} {l : List EnvPtr} (h : TurnsOk k l) (evs : List SchedEvent)
    (hwake : k.wakeUps evs) :
    k.schedTrace evs = (k.roundRobin l).trace k.weight (k.asked evs) ∧
      ∀ k₁ k₂ e, k.schedEvents evs = some k₁ → k₁.schedule true = some k₂ → k₁.curenv = some e →
        k₂.curenv = some e → ∀ e', (k₁.envs e').envStatus = .RUNNABLE → e' = e := by
  refine ⟨h.trace_eq hwake, fun k₁ k₂ e hk₁ hk₂ hc hc' e' he' => ?_⟩
  obtain ⟨l', hok⟩ := h.events hwake hk₁
  exact hok.yield_only hk₂ hc hc' he'

/-- Two environments, one of which is to run for two slices, before the first clock interrupt. -/
def twoEnvs : List Event := [.create .empty 1, .create .empty 2]

private theorem twoEnvs_isSome : (Machine.gxemul.after schedAdmits twoEnvs).isSome := by decide +kernel

private theorem turnsOk_twoEnvs : ∃ l, TurnsOk ((Machine.gxemul.after schedAdmits twoEnvs).get twoEnvs_isSome).kern l := by
  obtain ⟨l, hl, hm⟩ := (liveSched_of_reach (Machine.after_reach (Option.some_get twoEnvs_isSome).symm)).2
  refine ⟨l, hl, fun e => (hm e).trans (or_iff_left_of_imp ?_).symm, ?_, ?_⟩
  · intro hc
    have hnone : ((Machine.gxemul.after schedAdmits twoEnvs).get twoEnvs_isSome).kern.curenv = none := by
      decide +kernel
    exact absurd (hnone.symm.trans hc) nofun
  · decide +kernel
  · decide +kernel

/-- The second environment runs for two slices; then the first one waits for a message, and the second one yields and
is chosen again. -/
theorem schedule_roundRobin_twoEnvs : ∃ k l, TurnsOk k l ∧
    k.schedTrace [.schedule false, .schedule false, .schedule false, .ipcRecv 0, .schedule true] = [1, 1, 0, 1, 1] ∧
    k.schedTrace [.schedule false, .schedule false, .schedule false, .ipcRecv 0, .schedule true] =
      (k.roundRobin l).trace k.weight
        (k.asked [.schedule false, .schedule false, .schedule false, .ipcRecv 0, .schedule true]) := by
  obtain ⟨l, hl⟩ := turnsOk_twoEnvs
  exact ⟨_, l, hl, by decide +kernel, (schedule_roundRobin hl _ (by decide +kernel)).1⟩

end Mos
