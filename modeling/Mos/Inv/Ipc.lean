import Mos.Inv.Ids
import Mos.Inv.Sched

/-!
# Messages

A receiver is to stay blocked until a send succeeds, and what it reads afterwards is to be the message of that send.
This holds in every run in which no parent starts a waiting child, no send fails after it has woken the receiver, and
the run list stays right (`ipcAdmits`).
-/

namespace Mos

open Kern

/-! ### Receives and sends -/

/-- A receive, or a send that succeeded: the value and the id of the sender. -/
inductive IpcOp where
  | recv
  | send (value sender : Word)
  deriving DecidableEq

/-- What a call of `cur` is for the mailbox of `e`. -/
def Kern.ipcOps (k : Kern) (cur e : EnvPtr) : Call → List IpcOp
  | .ipcRecv dstva => if cur = e ∧ ¬(dstva ≠ 0 ∧ isIllegalVa dstva) then [.recv] else []
  | .ipcTrySend envid value srcva perm =>
    if k.envid2env cur envid false = some e ∧ (k.sysIpcTrySend cur envid value srcva perm).any fun r => r.2 = some 0 then
      [.send value (k.envs cur).envId]
    else []
  | _ => []

def State.ipcOps (s : State) (ev : Event) (e : EnvPtr) : List IpcOp :=
  match s.call ev with
  | some (cur, c) => s.kern.skipInsn.ipcOps cur e c
  | none => []

/-- All receives of `e` and all successful sends to it, in order. -/
def ipcTrace (l : List (State × Event)) (e : EnvPtr) : List IpcOp := l.flatMap fun p => p.1.ipcOps p.2 e

/-- The environment in slot `e` has called `sys_ipc_recv`, and since then nothing was sent to it and the slot was not
given away. -/
def Called (l : List (State × Event)) (e : EnvPtr) : Prop :=
  ∃ l₁ p l₂, l = l₁ ++ p :: l₂ ∧ p.1.ipcOps p.2 e = [.recv] ∧ ipcTrace l₂ e = [] ∧ ∀ x ∈ assignedIds l₂, x.1 ≠ e

/-- Receives and the sends that complete them. -/
def exchanges (ms : List (Word × Word)) : List IpcOp := ms.flatMap fun m => [.recv, .send m.1 m.2]

/-- After the steps `l`, which end in `s`: an environment with `env_ipc_recving` set has called `sys_ipc_recv` and is
blocked in it; every successful send completed exactly one receive; and the mailbox holds the last message. -/
structure IpcOk (l : List (State × Event)) (s : State) : Prop where
  blocked : ∀ e, (s.kern.envs e).envStatus ≠ .FREE → (s.kern.envs e).envIpcRecving ≠ 0 →
    (s.kern.envs e).envStatus = .NOT_RUNNABLE ∧ (∃ q, s.kern.sched.Holds q ∧ e ∉ q) ∧ Called l e
  matched : ∀ e, ∃ ms, ipcTrace l e = exchanges ms ++ (if (s.kern.envs e).envIpcRecving = 0 then [] else [.recv]) ∧
    ∀ m ∈ ms.getLast?, (s.kern.envs e).envIpcValue = m.1 ∧ (s.kern.envs e).envIpcFrom = m.2

/-! ### Runs -/

/-- The call neither starts a waiting environment nor wakes one in vain. -/
def callIpcAdmits (k : Kern) (cur : EnvPtr) : Call → Bool
  | .setEnvStatus envid status =>
    decide (status ≠ 1) || (k.envid2env cur envid true).all fun e => (k.envs e).envIpcRecving = 0
  | .ipcTrySend envid _ srcva _ =>
    decide (srcva = 0) || isIllegalVa srcva || (k.envid2env cur envid false).all fun e =>
      decide ((k.envs e).envIpcRecving = 0) || decide (k.pageLookupEnv cur srcva ≠ some none)
  | _ => true

/-- The step keeps the run list right, starts no waiting environment and wakes none in vain. -/
def ipcAdmits (s : State) (ev : Event) : Bool :=
  schedAdmits s ev && match s.phase with
    | .entered (.syscall _) => s.kern.onCall callIpcAdmits
    | _ => true

/-- The mailbox of `e` after the steps `l`. -/
structure MailOk (l : List (State × Event)) (e : EnvPtr) (c : Core) : Prop where
  waits : c.recving ≠ 0 → c.status = .NOT_RUNNABLE ∧ Called l e
  matched : ∃ ms, ipcTrace l e = exchanges ms ++ (if c.recving = 0 then [] else [.recv]) ∧
    ∀ m ∈ ms.getLast?, c.value = m.1 ∧ c.sender = m.2

namespace MailOk

variable {l : List (State × Event)} {e : EnvPtr} {c c' : Core} {p : State × Event}

private theorem ipcTrace_snoc (l : List (State × Event)) (p : State × Event) (e : EnvPtr) :
    ipcTrace (l ++ [p]) e = ipcTrace l e ++ p.1.ipcOps p.2 e := by
  simp [ipcTrace]

private theorem assignedIds_snoc (l : List (State × Event)) (p : State × Event) :
    assignedIds (l ++ [p]) = assignedIds l ++ p.1.assigned p.2 := by
  simp [assignedIds]

private theorem Called.snoc (h : Called l e) (hops : p.1.ipcOps p.2 e = []) (hids : ∀ x ∈ p.1.assigned p.2, x.1 ≠ e) :
    Called (l ++ [p]) e := by
  obtain ⟨l₁, q, l₂, rfl, hq, htrace, hassigned⟩ := h
  refine ⟨l₁, q, l₂ ++ [p], by simp, hq, ?_, fun x hx => ?_⟩
  · rw [ipcTrace_snoc, htrace, hops]
    rfl
  · rw [assignedIds_snoc] at hx
    rcases List.mem_append.1 hx with hx | hx
    · exact hassigned x hx
    · exact hids x hx

/-- A step without a receive or a send for `e` may change the core as long as the mailbox stays, and may give the slot
away only if nobody waits there. -/
private theorem quiet (h : MailOk l e c) (hops : p.1.ipcOps p.2 e = []) (hrecv : c'.recving = c.recving)
    (hvalue : c'.value = c.value) (hsender : c'.sender = c.sender)
    (hwait : c.recving ≠ 0 → c'.status = c.status ∧ ∀ x ∈ p.1.assigned p.2, x.1 ≠ e) : MailOk (l ++ [p]) e c' where
  waits hr := by
    have hr : c.recving ≠ 0 := hrecv ▸ hr
    obtain ⟨hst, hids⟩ := hwait hr
    obtain ⟨hnot, hcalled⟩ := h.waits hr
    exact ⟨hst.trans hnot, Called.snoc hcalled hops hids⟩
  matched := by
    rw [ipcTrace_snoc, hops, List.append_nil, hrecv, hvalue, hsender]
    exact h.matched

/-- A receive of an environment that is not waiting. -/
private theorem recv (h : MailOk l e c) (hops : p.1.ipcOps p.2 e = [.recv]) (hnot : c.recving = 0) :
    MailOk (l ++ [p]) e { c with status := .NOT_RUNNABLE, recving := 1 } where
  waits _ := ⟨rfl, l, p, [], rfl, hops, rfl, nofun⟩
  matched := by
    obtain ⟨ms, htrace, hlast⟩ := h.matched
    rw [if_pos hnot, List.append_nil] at htrace
    refine ⟨ms, ?_, hlast⟩
    rw [ipcTrace_snoc, htrace, hops]
    rfl

/-- A successful send to an environment that is waiting. -/
private theorem send {value sender : Word} (h : MailOk l e c) (hops : p.1.ipcOps p.2 e = [.send value sender])
    (hrecv : c.recving ≠ 0) :
    MailOk (l ++ [p]) e { c with status := .RUNNABLE, value := value, sender := sender, recving := 0 } where
  waits hr := absurd rfl hr
  matched := by
    obtain ⟨ms, htrace, -⟩ := h.matched
    rw [if_neg hrecv] at htrace
    refine ⟨ms ++ [(value, sender)], ?_, fun m hm => ?_⟩
    · rw [ipcTrace_snoc, htrace, hops]
      simp [exchanges]
    · rw [List.getLast?_append] at hm
      obtain rfl : (value, sender) = m := by simpa using hm
      exact ⟨rfl, rfl⟩

end MailOk

/-- The slot that a step gives away is free. -/
private theorem assigned_free {s : State} {ev : Event} (hlive : LiveOk s.kern) {x : EnvPtr × Word}
    (hx : x ∈ s.assigned ev) :
    (s.kern.cores x.1).status = .FREE := by
  have hnext : x ∈ s.kern.nextId := by
    unfold State.assigned State.forked at hx
    split at hx
    · exact hx
    · split at hx
      · exact hx
      · exact absurd hx List.not_mem_nil
  rw [Kern.nextId, List.mem_map] at hnext
  obtain ⟨e, he, rfl⟩ := hnext
  exact hlive.free e (List.mem_of_head? (Option.mem_toList.1 he))

/-- A call that fails, like any call that is neither a receive nor a send, is nothing for a mailbox. -/
private theorem ipcOps_nil {k k' : Kern} {cur : EnvPtr} {c : Call} {r : Option Word} {junk : Word}
    (hfail : (∀ envid signo, c ≠ .kill envid signo) → k.Fails cur (r.getD 0) c)
    (hk : k.call cur junk c = some (k', r)) (e : EnvPtr) : k.ipcOps cur e c = [] := by
  cases c with
  | ipcRecv dstva => exact if_neg fun h => h.2 (hfail nofun)
  | ipcTrySend envid value srcva perm =>
    have hsend : k.sysIpcTrySend cur envid value srcva perm = some (k', r) := hk
    have hr : r.getD 0 ≠ 0 := hfail nofun
    refine if_neg fun h => hr ?_
    rw [hsend] at h
    have hr0 : r = some 0 := by simpa using h.2
    rw [hr0]
    rfl
  | _ => rfl

/-- What an admitted call does to the mailboxes. -/
private theorem MailOk.call {k k' : Kern} {cur : EnvPtr} {c : Call} {r : Option Word} {junk : Word}
    {l : List (State × Event)}
    {p : State × Event} (h : ∀ e, MailOk l e (k.cores e)) (hlive : LiveOk k)
    (hops : ∀ e, p.1.ipcOps p.2 e = k.ipcOps cur e c) (hids : ∀ x ∈ p.1.assigned p.2, (k.cores x.1).status = .FREE)
    (hsched : callSchedAdmits k cur c) (hipc : callIpcAdmits k cur c) (hk : k.call cur junk c = some (k', r))
    (e : EnvPtr) : MailOk (l ++ [p]) e (k'.cores e) := by
  have hids : ∀ e', (k.cores e').recving ≠ 0 → ∀ x ∈ p.1.assigned p.2, x.1 ≠ e' := by
    rintro _ hr x hx rfl
    have hnot := ((h x.1).waits hr).1
    rw [hids x hx] at hnot
    cases hnot
  have hquiet : p.1.ipcOps p.2 e = [] → k'.cores e = k.cores e → MailOk (l ++ [p]) e (k'.cores e) := by
    intro hnil hcore
    rw [hcore]
    exact (h e).quiet hnil rfl rfl rfl fun hr => ⟨rfl, hids e hr⟩
  -- a waiting environment has the status of one, so the others do not wait
  have hidle : ∀ e', (k.cores e').status ≠ .NOT_RUNNABLE → (k.cores e').recving = 0 := by
    intro e' hst
    by_contra hr
    exact hst ((h e').waits hr).1
  rcases CoreCall.of_step (call_step hk) with hc | ⟨rfl, e', hn, -⟩
  case inr =>
    by_cases heq : e = e'
    · subst heq
      have hfree : (k.cores e).status = .FREE := hlive.free e (List.mem_of_head? hn.head)
      have hr := hidle e fun hst => by cases hfree.symm.trans hst
      rw [hn.cores, Function.update_self]
      exact (h e).quiet (hops e) rfl rfl rfl fun hr' => absurd hr hr'
    · exact hquiet (hops e) (by rw [hn.cores, Function.update_of_ne heq])
  cases hc with
  | same _ hsame hfail => exact hquiet ((hops e).trans (ipcOps_nil hfail hk e)) (congrFun hsame.cores e)
  | @destroyed envid e' _ _ he hs =>
    by_cases heq : e = e'
    · subst heq
      have hrun : (k.envs e).envStatus = .RUNNABLE := by simpa [callSchedAdmits, he] using hsched
      have hr := hidle e fun hst => by cases hrun.symm.trans hst
      rw [hs.cores, Function.update_self]
      exact (h e).quiet (hops e) rfl rfl rfl fun hr' => absurd hr hr'
    · exact hquiet (hops e) (by rw [hs.cores, Function.update_of_ne heq])
  | @status envid status st e' _ _ hst he hs =>
    by_cases heq : e = e'
    · subst heq
      rw [hs.cores, Function.update_self]
      refine (h e).quiet (hops e) rfl rfl rfl fun hr => ⟨?_, hids e hr⟩
      unfold legalStatus at hst
      split at hst
      case isTrue h1 =>
        have h0 : (k.envs e).envIpcRecving = 0 := by simpa [callIpcAdmits, he, h1] using hipc
        exact absurd h0 hr
      case isFalse =>
        split at hst
        case isTrue => exact (Option.some.inj hst).symm.trans ((h e).waits hr).1.symm
        case isFalse => cases hst
    · exact hquiet (hops e) (by rw [hs.cores, Function.update_of_ne heq])
  | @woken envid value srcva perm e' _ _ hva he hrecv hr hs =>
    have hr : r = some 0 := by
      rcases hr with hr | ⟨h0, hnone⟩
      · exact hr
      · have hva := hva.resolve_left h0
        have hrecv : (k.envs e').envIpcRecving ≠ 0#32 := hrecv
        have h0 : srcva ≠ 0#32 := h0
        simp [callIpcAdmits, he, hva, hrecv, hnone, h0] at hipc
    by_cases heq : e = e'
    · subst heq
      have hsend : k.sysIpcTrySend cur envid value srcva perm = some (k', r) := hk
      have hops : p.1.ipcOps p.2 e = [.send value (k.cores cur).id] := by
        rw [hops, Kern.ipcOps, if_pos ⟨he, by rw [hsend, hr]; rfl⟩]
        rfl
      rw [hs.cores, Function.update_self]
      exact (h e).send hops hrecv
    · refine hquiet ?_ (by rw [hs.cores, Function.update_of_ne heq])
      rw [hops]
      exact if_neg fun h => heq (Option.some.inj (h.1.symm.trans he))
  | @waits dstva _ _ hva hs =>
    by_cases heq : e = cur
    · subst heq
      have hlegal : ¬(dstva ≠ 0 ∧ isIllegalVa dstva = true) := by
        rintro ⟨h0, hill⟩
        rw [hva.resolve_left h0] at hill
        cases hill
      have hrun : (k.envs e).envStatus = .RUNNABLE := by
        rcases hva with hva | hva <;> simpa [callSchedAdmits, hva] using hsched
      have hr := hidle e fun hst => by cases hrun.symm.trans hst
      rw [hs.cores, Function.update_self]
      exact (h e).recv ((hops e).trans (if_pos ⟨rfl, hlegal⟩)) hr
    · refine hquiet ?_ (by rw [hs.cores, Function.update_of_ne heq])
      rw [hops]
      exact if_neg fun h => heq h.1.symm

/-- What an admitted step does to the mailboxes. -/
private theorem MailOk.step {s s' : State} {ev : Event} {l : List (State × Event)} (h : ∀ e, MailOk l e (s.kern.cores e))
    (hlive : LiveOk s.kern) (hok : ipcAdmits s ev) (hs : s.step ev = some s') (e : EnvPtr) :
    MailOk (l ++ [(s, ev)]) e (s'.kern.cores e) := by
  rw [ipcAdmits, Bool.and_eq_true] at hok
  have hfree : ∀ x ∈ s.assigned ev, (s.kern.cores x.1).status = .FREE := fun _ => assigned_free hlive
  cases hcall : s.call ev with
  | some cc =>
    obtain ⟨cur, c⟩ := cc
    obtain ⟨junk, k', r, hphase, hc, hd, hk, hk'⟩ := State.call_cases hcall hs
    have hops : ∀ e, s.ipcOps ev e = s.kern.skipInsn.ipcOps cur e c := fun e => by rw [State.ipcOps, hcall]
    have hsched : callSchedAdmits s.kern.skipInsn cur c := by
      have hok := hok.1
      rw [schedAdmits, hphase] at hok
      exact (onCall_eq hc hd).symm.trans hok
    have hipc : callIpcAdmits s.kern.skipInsn cur c := by
      have hok := hok.2
      rw [hphase] at hok
      exact (onCall_eq hc hd).symm.trans hok
    have hcores : s'.kern.cores = k'.cores := by
      rw [hk']
      cases r <;> rfl
    rw [hcores]
    exact MailOk.call (k := s.kern.skipInsn) (p := (s, ev)) h (hlive.setKtf _) hops (fun x => hfree x) hsched hipc hk e
  | none =>
    have hops : s.ipcOps ev e = [] := by rw [State.ipcOps, hcall]
    have hidle : (s.kern.cores e).recving ≠ 0 → (s.kern.cores e).status = .NOT_RUNNABLE := fun hr => ((h e).waits hr).1
    have hids : (s.kern.cores e).recving ≠ 0 → ∀ x ∈ s.assigned ev, x.1 ≠ e := by
      rintro hr x hx rfl
      have hst := hidle hr
      rw [hfree x hx] at hst
      cases hst
    cases CoreStep.of_step (State.step_cases hs) with
    | same hsame =>
      rw [hsame.cores]
      exact (h e).quiet hops rfl rfl rfl fun hr => ⟨rfl, hids hr⟩
    | @create k k' _ _ e' hn =>
      show MailOk _ e (k'.cores e)
      by_cases heq : e = e'
      · subst heq
        have hst : (k.cores e).status = .FREE := hlive.free e (List.mem_of_head? hn.head)
        rw [hn.cores, Function.update_self]
        exact (h e).quiet hops rfl rfl rfl fun hr => by cases hst.symm.trans (hidle hr)
      · rw [hn.cores, Function.update_of_ne heq]
        exact (h e).quiet hops rfl rfl rfl fun hr => ⟨rfl, hids hr⟩
    | call junk hc hd => simp [State.call, hc, hd] at hcall
    | fork junk hc hd => simp [State.call, hc, hd] at hcall

/-- In every run whose steps are all admitted, waiting environments are blocked in `sys_ipc_recv`, every successful send
completes one receive, and what a mailbox holds is the last message. -/
theorem ipc_ok {mc : Machine} {l : List (State × Event)} {s : State}
    (h : kernel.Steps (fun s ev => ipcAdmits s ev) ⟨.user, mc.bootKern⟩ l s) : IpcOk l s := by
  have hinv : LiveOk s.kern ∧ SchedOk s.kern ∧ ∀ e, MailOk l e (s.kern.cores e) := by
    refine h.invariant (I := fun l s => LiveOk s.kern ∧ SchedOk s.kern ∧ ∀ e, MailOk l e (s.kern.cores e)) ?_ ?_
    · exact ⟨.boot mc, .boot mc, fun e => ⟨fun hr => absurd rfl hr, [], rfl, nofun⟩⟩
    · rintro l t ev u ⟨hlive, hsched, hmail⟩ hok hs
      have hstep := State.step_cases hs
      have hok' : schedAdmits t ev := by
        rw [ipcAdmits, Bool.and_eq_true] at hok
        exact hok.1
      exact ⟨hlive.step hstep, hsched.step hlive hok' hstep, MailOk.step hmail hlive hok hs⟩
  obtain ⟨-, ⟨q, hq, hmem⟩, hmail⟩ := hinv
  refine ⟨fun e hlive hr => ?_, fun e => (hmail e).matched⟩
  obtain ⟨hst, hcalled⟩ := (hmail e).waits hr
  have hst : (s.kern.envs e).envStatus = .NOT_RUNNABLE := hst
  refine ⟨hst, ⟨q, hq, fun hin => ?_⟩, hcalled⟩
  rw [hmem, hst] at hin
  cases hin

/-- A child waits in `sys_ipc_recv`. -/
def waitInRecv : List Event :=
  .create .empty 1 :: tickEvents ++ callEvents 9 0 0 0 ++ callEvents 10 0x1001 1 0 ++ callEvents 3 0 0 0 ++
    callEvents 14 0 0 0

/-- Its parent sends it a value. -/
def sendToWaiting : List Event := waitInRecv ++ callEvents 13 0x1001 7 0

private theorem sendToWaiting_cond : (kernel.trace ipcAdmits ⟨.user, Machine.gxemul.bootKern⟩ sendToWaiting).any fun r =>
    ipcTrace r.1 1 = [.recv, .send 7 0x800] := by decide +kernel

theorem ipc_ok_sendToWaiting : ∃ l t, kernel.trace ipcAdmits ⟨.user, Machine.gxemul.bootKern⟩ sendToWaiting = some (l, t) ∧
    ipcTrace l 1 = [.recv, .send 7 0x800] ∧ IpcOk l t := by
  obtain ⟨⟨l, t⟩, hl, htrace⟩ := (Option.any_eq_true _ _).1 sendToWaiting_cond
  exact ⟨l, t, hl, of_decide_eq_true htrace, ipc_ok (.of_trace hl)⟩

/-- The parent starts the waiting child instead. -/
private theorem startWaiting_cond : (kernel.trace (fun _ _ => true) ⟨.user, Machine.gxemul.bootKern⟩
    (waitInRecv ++ callEvents 10 0x1001 1 0)).any fun r => r.2.inUser ∧
      (r.2.kern.envs 1).envStatus = .RUNNABLE ∧ (r.2.kern.envs 1).envIpcRecving ≠ 0 := by decide +kernel

theorem exists_not_ipcOk : ∃ l s, kernel.Steps (fun _ _ => True) ⟨.user, Machine.gxemul.bootKern⟩ l s ∧ s.inUser ∧
    ¬IpcOk l s := by
  obtain ⟨⟨l, s⟩, hl, hcond⟩ := (Option.any_eq_true _ _).1 startWaiting_cond
  obtain ⟨huser, hst, hr⟩ := of_decide_eq_true hcond
  refine ⟨l, s, (System.Steps.of_trace hl).mono fun _ _ _ => trivial, huser, fun hok => ?_⟩
  obtain ⟨hnot, -⟩ := hok.blocked 1 (by rw [hst]; exact nofun) hr
  rw [hst] at hnot
  cases hnot

end Mos
