import Mos.Inv.Nodes
import Mos.Kern.Args

/-!
# Delivery of signals

`_do_signal` should sift the pending signals: those it meets without handler are thrown away, the first other one
that is not blocked is delivered, and the rest stays.  It does so exactly when it keeps the rest (`keepsRest`) and can
deliver; and over a run whose every return to user code keeps the rest, what was pending or sent is what was delivered,
thrown away or is still pending.
-/

namespace Mos

open Kern

/-- What `_do_signal` should make of the pending signals. -/
def Env.siftSignals (env : Env) (sigs : List (Option Nat)) : Sifted (Option Nat) :=
  sift (fun s => s.any env.blocked) (fun s => s.any env.ignored) sigs

namespace Kern

/-- The signals pending for `e`, in the order of the list; `none` is a number that is no signal. -/
def pendingSignals (k : Kern) (e : EnvPtr) : List (Option Nat) :=
  if (k.envs e).envStatus = .FREE then [] else (k.pendingOf e).map fun n => (k.signos n).signal

/-- The pending signals of `c` as `_do_signal` should sift them. -/
def siftPending (k : Kern) (c : EnvPtr) : Sifted (Option Nat) := (k.envs c).siftSignals (k.pendingSignals c)

/-- The call of `_do_signal` on the frame `tf` that ended in `k'` with the frame `tf'` did what it should. -/
structure Delivers (k : Kern) (c : EnvPtr) (tf : Trapframe) (k' : Kern) (tf' : Trapframe) : Prop where
  kept : k'.pendingSignals c = (k.siftPending c).kept
  others : ∀ e, e ≠ c → k'.pendingSignals e = k.pendingSignals e
  none : (k.siftPending c).found = none → tf' = tf ∧ (k'.envs c).envSigprocmask = (k.envs c).envSigprocmask
  some : ∀ signo, (k.siftPending c).found = some (some signo) → tf' = handlerTf (k.envs c) tf signo ∧
    (k'.envs c).envSigprocmask = ((k.envs c).handler signo).saMask

/-- What is found can be delivered: it is a signal, there is an entry for signals, and the stack has room. -/
def deliverable (env : Env) (tf : Trapframe) : Option (Option Nat) → Bool
  | none => true
  | some none => false
  | some (some _) => env.doSignalEntry ≠ 0 && stackOk (tf.regs 29)

variable {k k' : Kern} {free : List SignoPtr} {pend : EnvPtr → List SignoPtr} {c e : EnvPtr}

theorem pendingSignals_live (hlive : (k.envs e).envStatus ≠ .FREE) :
    k.pendingSignals e = (k.pendingOf e).map fun n => (k.signos n).signal := if_neg hlive

theorem pendingSignals_free (hfree : (k.envs e).envStatus = .FREE) : k.pendingSignals e = [] := if_pos hfree

/-- Sifting the signals is sifting the nodes. -/
private theorem siftPending_eq (hlive : (k.envs c).envStatus ≠ .FREE) : k.siftPending c =
    ⟨(k.sifted c (k.pendingOf c)).kept.map fun n => (k.signos n).signal,
      (k.sifted c (k.pendingOf c)).discarded.map fun n => (k.signos n).signal,
      (k.sifted c (k.pendingOf c)).found.map fun n => (k.signos n).signal⟩ := by
  rw [siftPending, pendingSignals_live hlive]
  exact sift_map (fun n => (k.signos n).signal) (k.pendingOf c)

theorem pendingOf_congr (hs : k'.signos = k.signos) (hh : (k'.envs e).signoHeader = (k.envs e).signoHeader) :
    k'.pendingOf e = k.pendingOf e := by
  have hlinks : k'.links = k.links := by funext n; rw [links, links, hs]
  have hnodes : ∀ fuel p, k'.nodesFrom fuel p = k.nodesFrom fuel p := by
    intro fuel
    induction fuel with
    | zero => intro p; cases p <;> rfl
    | succ fuel ih =>
      intro p
      cases p with
      | none => rfl
      | some n => rw [nodesFrom, nodesFrom, ih, hlinks]
  rw [pendingOf, pendingOf, hnodes, hh]

/-! ### One call of `_do_signal` -/

/-- The lists after `_do_signal`. -/
theorem doSignal_pendingSignals {tf tf' : Trapframe} (h : NodesOk k free pend)
    (hlive : (k.envs c).envStatus ≠ .FREE) (hd : k.doSignal c tf = some (k', tf')) :
    k'.pendingSignals c = (NodesOk.scannedList k c (k.pendingOf c)).map (fun n => (k.signos n).signal) ∧
      ∀ e, e ≠ c → k'.pendingSignals e = k.pendingSignals e := by
  have h' := h.doSignal hlive hd
  have hst : ∀ e, (k'.envs e).envStatus = (k.envs e).envStatus :=
    (doSignal_frame hd).1.field Env.envStatus fun _ _ _ => rfl
  have hsignal : ∀ n, (k'.signos n).signal = (k.signos n).signal := by
    obtain ⟨s, hs, hd⟩ := doSignal_cases hd
    have hsc := h.scanned hlive hs
    intro n
    have hs : (s.kern.signos n).signal = (k.signos n).signal := by
      rw [SignoNode.signal, SignoNode.signal, hsc.signo]
    rcases hd with ⟨-, rfl, -⟩ | ⟨signo, -, hpush⟩
    · exact hs
    · obtain ⟨-, -, m, rfl⟩ := pushSignal_cases hpush
      exact hs
  have hpend : ∀ e, (k.envs e).envStatus ≠ .FREE → k'.pendingOf e =
      Function.update pend c (NodesOk.scannedList k c (pend c)) e := fun e he =>
    pendingOf_eq (h'.pending e (by rwa [hst]))
  constructor
  · rw [pendingSignals_live (by rwa [hst]), hpend c hlive, Function.update_self, pendingOf_eq (h.pending c hlive)]
    exact List.map_congr_left fun n _ => hsignal n
  · intro e he
    by_cases hfree : (k.envs e).envStatus = .FREE
    · rw [pendingSignals_free hfree, pendingSignals_free (by rwa [hst])]
    · rw [pendingSignals_live hfree, pendingSignals_live (by rwa [hst]), hpend e hfree, Function.update_of_ne he,
        pendingOf_eq (h.pending e hfree)]
      exact List.map_congr_left fun n _ => hsignal n

/-- The list is right afterwards exactly if nothing that has to stay was dropped. -/
private theorem scannedList_kept_iff {l : List SignoPtr} : (NodesOk.scannedList k c l).map (fun n => (k.signos n).signal)
    = (k.sifted c l).kept.map (fun n => (k.signos n).signal) ↔ k.keepsRest c l := by
  constructor
  · intro h
    have hlen := congrArg List.length h
    simp only [List.length_map, NodesOk.scannedList] at hlen
    simp only [keepsRest, Bool.or_eq_true, List.isEmpty_iff]
    split at hlen
    case isTrue hb => exact .inl hb
    case isFalse => exact .inr (List.length_eq_zero_iff.1 hlen.symm)
  · intro h
    rw [NodesOk.scannedList_of_keepsRest h]

/-- What taking off a node leaves unchanged, the scan leaves unchanged. -/
private theorem scan_same {β : Type} (g : Kern → β) (hg : ∀ k frm n, g (takeOff k c frm n) = g k) {fuel : Nat}
    {frm ptr : Option SignoPtr} {s : Scan} (h : Kern.scan c fuel k frm ptr = some s) : g s.kern = g k := by
  induction fuel generalizing k frm ptr s with
  | zero => cases h
  | succ fuel ih =>
    cases ptr with
    | none =>
      obtain rfl := Option.some.inj h
      rfl
    | some n =>
      obtain ⟨signo, -, h⟩ := Option.bind_eq_some_iff.1 h
      split at h
      case isTrue => exact ih h
      case isFalse =>
        dsimp only at h
        split at h
        case isTrue =>
          obtain ⟨s', hs', rfl⟩ := Option.map_eq_some_iff.1 h
          exact (ih (s := s') hs').trans (hg k frm n)
        case isFalse =>
          obtain rfl := Option.some.inj h
          exact hg k frm n

/-- The scan changes nothing in the environments but the pending list. -/
private theorem scan_field {β : Type} (g : Env → β) (hg : ∀ env p, g { env with signoHeader := p } = g env) {fuel : Nat}
    {frm ptr : Option SignoPtr} {s : Scan} (h : Kern.scan c fuel k frm ptr = some s) (e : EnvPtr) :
    g (s.kern.envs e) = g (k.envs e) :=
  scan_same (fun k => g (k.envs e)) (fun _ frm n => takeOff_field g hg frm n e) h

private theorem scan_umem {fuel : Nat} {frm ptr : Option SignoPtr} {s : Scan} (h : Kern.scan c fuel k frm ptr = some s) :
    s.kern.umem = k.umem :=
  scan_same Kern.umem (fun _ frm _ => by cases frm <;> rfl) h

/-- What the scan found, in terms of the signals. -/
private theorem scan_found_eq {fuel : Nat} {s : Scan} (h : NodesOk k free pend) (hlive : (k.envs c).envStatus ≠ .FREE)
    (hs : Kern.scan c fuel k none (k.envs c).signoHeader = some s) :
    (k.siftPending c).found = s.found.map some ∧ (k.siftPending c).discarded = s.discarded.map some := by
  have hsc := h.scanned hlive hs
  rw [siftPending_eq hlive, pendingOf_eq (h.pending c hlive)]
  exact ⟨hsc.found, hsc.discarded⟩

private theorem handler_congr {env env' : Env} (ht : env'.sighandlerTable = env.sighandlerTable) (signo : Nat) :
    env'.handler signo = env.handler signo := by
  rw [Env.handler, Env.handler, ht]

private theorem handlerTf_congr {env env' : Env} (ht : env'.sighandlerTable = env.sighandlerTable)
    (he : env'.doSignalEntry = env.doSignalEntry) (tf : Trapframe) (signo : Nat) :
    handlerTf env' tf signo = handlerTf env tf signo := by
  simp only [handlerTf, handler_congr ht, he]

/-- `_do_signal` comes to an end if it can deliver what it finds. -/
private theorem doSignal_isSome {tf : Trapframe} (h : NodesOk k free pend) (hlive : (k.envs c).envStatus ≠ .FREE)
    (hdeliv : deliverable (k.envs c) tf (k.siftPending c).found) : ∃ k' tf', k.doSignal c tf = some (k', tf') := by
  have hsome : ∀ n, (k.sifted c (pend c)).found = some n → (k.signos n).signal.isSome := by
    intro n hn
    rw [siftPending_eq hlive, pendingOf_eq (h.pending c hlive), hn] at hdeliv
    cases hs : (k.signos n).signal with
    | some signo => rfl
    | none => simp [hs, deliverable] at hdeliv
  obtain ⟨s, hs⟩ := h.scan_ends hlive hsome
  have hfound := (scan_found_eq h hlive hs).1
  cases hf : s.found with
  | none => exact ⟨s.kern, tf, by rw [doSignal, hs, Option.bind_some, hf]⟩
  | some signo =>
    have hok : (s.kern.envs c).doSignalEntry ≠ 0 ∧ stackOk (tf.regs 29) = true := by
      rw [hfound, hf] at hdeliv
      rw [scan_field Env.doSignalEntry (fun _ _ => rfl) hs]
      simpa [deliverable] using hdeliv
    have hd : k.doSignal c tf = s.kern.pushSignal c tf signo := by rw [doSignal, hs, Option.bind_some, hf]
    exact ⟨_, _, hd.trans ((pushSignal_eq _ _ _ _).trans (if_pos hok))⟩

/-- What `_do_signal` does to the frame, the mask and user memory once the scan ended in `s`. -/
theorem doSignal_effect {tf tf' : Trapframe} {s : Scan} (hd : k.doSignal c tf = some (k', tf'))
    (hs : Kern.scan c (MAX_SIG_NUM + 1) k none (k.envs c).signoHeader = some s) :
    (s.found = none ∧ tf' = tf ∧ (k'.envs c).envSigprocmask = (k.envs c).envSigprocmask ∧ k'.umem = k.umem) ∨
      ∃ signo, s.found = some signo ∧ (k.envs c).doSignalEntry ≠ 0 ∧ stackOk (tf.regs 29) = true ∧
        tf' = handlerTf (k.envs c) tf signo ∧ (k'.envs c).envSigprocmask = ((k.envs c).handler signo).saMask ∧
        k'.umem = pushed k.umem tf (k.envs c).envSigprocmask := by
  obtain ⟨s', hs', hd⟩ := doSignal_cases hd
  obtain rfl : s' = s := Option.some.inj (hs'.symm.trans hs)
  have htable := scan_field Env.sighandlerTable (fun _ _ => rfl) hs c
  have hentry := scan_field Env.doSignalEntry (fun _ _ => rfl) hs c
  have hmask := scan_field Env.envSigprocmask (fun _ _ => rfl) hs c
  rcases hd with ⟨hn, rfl, rfl⟩ | ⟨signo, hf, hpush⟩
  · exact .inl ⟨hn, rfl, hmask, scan_umem hs⟩
  · rw [pushSignal_eq] at hpush
    split at hpush
    case isFalse => cases hpush
    case isTrue hok =>
      simp only [Option.some.injEq, Prod.mk.injEq] at hpush
      obtain ⟨rfl, rfl⟩ := hpush
      refine .inr ⟨signo, hf, hentry ▸ hok.1, hok.2, handlerTf_congr htable hentry tf signo, ?_, ?_⟩
      · rw [setEnv_self]
        show ((s'.kern.envs c).handler signo).saMask = _
        rw [handler_congr htable]
      · rw [← scan_umem hs, ← hmask]
        rfl

/-- What `_do_signal` does to the frame and the masks. -/
theorem doSignal_found {tf tf' : Trapframe} (h : NodesOk k free pend) (hlive : (k.envs c).envStatus ≠ .FREE)
    (hd : k.doSignal c tf = some (k', tf')) :
    (∀ e, e ≠ c → (k'.envs e).envSigprocmask = (k.envs e).envSigprocmask) ∧
    (((k.siftPending c).found = none ∧ tf' = tf ∧ (k'.envs c).envSigprocmask = (k.envs c).envSigprocmask) ∨
      ∃ signo, (k.siftPending c).found = some (some signo) ∧ (k.envs c).doSignalEntry ≠ 0 ∧
        stackOk (tf.regs 29) = true ∧ tf' = handlerTf (k.envs c) tf signo ∧
        (k'.envs c).envSigprocmask = ((k.envs c).handler signo).saMask) := by
  refine ⟨fun e he => by rw [(doSignal_frame hd).1.envs_of_ne he], ?_⟩
  obtain ⟨s, hs, -⟩ := doSignal_cases hd
  have hfound := (scan_found_eq h hlive hs).1
  rcases doSignal_effect hd hs with ⟨hn, htf, hm, -⟩ | ⟨signo, hf, hentry, hstack, htf, hm, -⟩
  · rw [hn] at hfound
    exact .inl ⟨hfound, htf, hm⟩
  · rw [hf] at hfound
    exact .inr ⟨signo, hfound, hentry, hstack, htf, hm⟩

/-- `_do_signal` does what it should exactly if it keeps what has to stay and can deliver what it finds. -/
private theorem delivers_iff (h : NodesOk k free pend) (hlive : (k.envs c).envStatus ≠ .FREE) (tf : Trapframe) :
    (∃ k' tf', k.doSignal c tf = some (k', tf') ∧ Delivers k c tf k' tf') ↔
      k.keepsRest c (k.pendingOf c) ∧ deliverable (k.envs c) tf (k.siftPending c).found := by
  constructor
  · rintro ⟨k', tf', hd, hdel⟩
    constructor
    · have hkept := hdel.kept
      rw [(doSignal_pendingSignals h hlive hd).1, siftPending_eq hlive] at hkept
      exact scannedList_kept_iff.1 hkept
    · rcases (doSignal_found h hlive hd).2 with ⟨hn, -, -⟩ | ⟨signo, hf, hentry, hstack, -, -⟩
      · rw [hn]
        rfl
      · rw [hf]
        simpa [deliverable, hstack] using hentry
  · rintro ⟨hkeep, hdeliv⟩
    obtain ⟨k', tf', hd⟩ := doSignal_isSome h hlive hdeliv
    obtain ⟨hkept, hothers⟩ := doSignal_pendingSignals h hlive hd
    refine ⟨k', tf', hd, ?_, hothers, fun hn => ?_, fun signo hn => ?_⟩
    · rw [hkept, siftPending_eq hlive]
      exact scannedList_kept_iff.2 hkeep
    · rcases (doSignal_found h hlive hd).2 with ⟨-, htf, hmask⟩ | ⟨signo, hf, -⟩
      · exact ⟨htf, hmask⟩
      · rw [hf] at hn
        cases hn
    · rcases (doSignal_found h hlive hd).2 with ⟨hf, -⟩ | ⟨signo', hf, -, -, htf, hmask⟩
      · rw [hf] at hn
        cases hn
      · rw [hf] at hn
        obtain rfl : signo' = signo := Option.some.inj (Option.some.inj hn)
        exact ⟨htf, hmask⟩

/-! ### Runs -/

/-- The number that `sys_kill` puts in a node. -/
def numberOf (signo : Word) : Option Nat := SignoNode.signal ⟨signo.setWidth 8, none⟩

/-- The signals that a call sends to `e`. -/
def callSent (k : Kern) (cur e : EnvPtr) : Call → List (Option Nat)
  | .kill envid signo => if k.envid2env cur envid false = some e then [numberOf signo] else []
  | _ => []

end Kern

/-- The signals that the step sends to `e`: by `sys_kill`, or by the kernel for an access below `UTEMP`. -/
def State.sent (s : State) (ev : Event) (e : EnvPtr) : List (Option Nat) :=
  match s.phase, ev with
  | .entered (.syscall _), .handle =>
    match s.kern.curenv, s.kern.decode s.kern.ktf with
    | some cur, some c => s.kern.skipInsn.callSent cur e c
    | _, _ => []
  | .entered (.tlbMiss va), .handle =>
    if va < UTEMP ∧ s.kern.curenv = some e ∧ s.kern.pageLookupEnv e va = some none then
      [numberOf (BitVec.ofNat 32 SIGSEGV)] else []
  | _, _ => []

/-- What the scan of the step does if it scans the pending list of `e`. -/
def State.scanOf (s : State) (ev : Event) (e : EnvPtr) : Option Scan :=
  match s.phase, ev with
  | .leaving _, .ret =>
    if s.kern.curenv = some e then scan e (MAX_SIG_NUM + 1) s.kern none (s.kern.envs e).signoHeader else none
  | _, _ => none

/-- The signals of `e` that the step throws away, and the one that it delivers. -/
def State.discarded (s : State) (ev : Event) (e : EnvPtr) : List Nat := ((s.scanOf ev e).map (·.discarded)).getD []
def State.delivered (s : State) (ev : Event) (e : EnvPtr) : List Nat := ((s.scanOf ev e).bind (·.found)).toList

/-- Steps that leave the nodes alone leave the pending signals alone. -/
theorem SameNodes.pendingSignals {k k' : Kern} (h : SameNodes k k') (e : EnvPtr) : k'.pendingSignals e = k.pendingSignals e := by
  by_cases hfree' : (k'.envs e).envStatus = .FREE
  · rw [pendingSignals_free hfree', pendingSignals_free (h.dead e hfree')]
  · rw [pendingSignals_live hfree']
    by_cases hfree : (k.envs e).envStatus = .FREE
    · have hnil : k'.pendingOf e = [] :=
        pendingOf_eq (show SList k'.links (k'.envs e).signoHeader [] from (h.header e hfree').2 hfree)
      rw [pendingSignals_free hfree, hnil, List.map_nil]
    · rw [pendingSignals_live hfree, pendingOf_congr h.signos ((h.header e hfree').1 hfree), h.signos]

namespace NodesOk

variable {k k' : Kern} {free : List SignoPtr} {pend : EnvPtr → List SignoPtr} {c e : EnvPtr}

/-- `sys_kill` puts the signal in front of what is pending. -/
theorem kill_pendingSignals {signo : Word} {n : SignoPtr} {k₁ : Kern} (h : NodesOk k free pend)
    (hlive : (k.envs e).envStatus ≠ .FREE) (hn : k.signoAlloc signo = some (n, k₁)) :
    (k₁.pended e n).pendingSignals e = numberOf signo :: k.pendingSignals e ∧
      ∀ e', e' ≠ e → (k₁.pended e n).pendingSignals e' = k.pendingSignals e' := by
  obtain ⟨free', rfl, h'⟩ := h.kill hlive hn
  have hst : ∀ e', ((k₁.pended e n).envs e').envStatus = (k.envs e').envStatus := by
    obtain ⟨-, rfl⟩ := signoAlloc_cases hn
    exact setEnv_field Env.envStatus (by rfl)
  have hself : ((k₁.pended e n).signos n).signal = numberOf signo := by
    obtain ⟨-, rfl⟩ := signoAlloc_cases hn
    simp [pended, setNext, numberOf, SignoNode.signal]
  have hother : ∀ m, m ≠ n → ((k₁.pended e n).signos m).signal = (k.signos m).signal := by
    obtain ⟨-, rfl⟩ := signoAlloc_cases hn
    intro m hm
    simp [pended, setNext, hm]
  have hnp : ∀ e', ∀ m ∈ pend e', m ≠ n := by
    rintro e' m hm rfl
    exact h.disjoint_free e' m hm (List.mem_cons_self ..)
  constructor
  · rw [pendingSignals_live (by rwa [hst]), pendingSignals_live hlive, pendingOf_eq (h'.pending e (by rwa [hst])),
      Function.update_self, List.map_cons, hself, pendingOf_eq (h.pending e hlive)]
    exact congrArg _ (List.map_congr_left fun m hm => hother m (hnp e m hm))
  · intro e' he'
    by_cases hfree : (k.envs e').envStatus = .FREE
    · rw [pendingSignals_free hfree, pendingSignals_free (by rwa [hst])]
    · rw [pendingSignals_live hfree, pendingSignals_live (by rwa [hst]), pendingOf_eq (h.pending e' hfree),
        pendingOf_eq (h'.pending e' (by rwa [hst])), Function.update_of_ne he']
      exact List.map_congr_left fun m hm => hother m (hnp e' m hm)

/-- Destroying an environment without pending signals leaves all pending signals alone. -/
private theorem destroy_pendingSignals {left : Bool} (hlive : (k.envs c).envStatus ≠ .FREE)
    (hnone : (k.envs c).signoHeader = none) (hd : k.envDestroy c = some (k', left)) (e : EnvPtr) :
    k'.pendingSignals e = k.pendingSignals e := by
  obtain ⟨k₁, hk₁, hd⟩ := envDestroy_cases hd
  obtain ⟨pgdir, pm, q, -, -, -, rfl⟩ := envFree_cases hk₁
  have hfreed : (k.freed c pm q).pendingSignals e = k.pendingSignals e := by
    by_cases heq : e = c
    · subst heq
      have hnil : k.pendingOf e = [] := pendingOf_eq (show SList k.links (k.envs e).signoHeader [] from hnone)
      rw [pendingSignals_free (by rw [freed, setEnv_self]), pendingSignals_live hlive, hnil, List.map_nil]
    · have henv : (k.freed c pm q).envs e = k.envs e := by rw [freed, setEnv_of_ne heq]; rfl
      have hpend : (k.freed c pm q).pendingOf e = k.pendingOf e := pendingOf_congr rfl (by rw [henv])
      rw [Kern.pendingSignals, Kern.pendingSignals, henv, hpend]
      rfl
  rcases hd with ⟨-, -, hs⟩ | ⟨-, -, rfl⟩
  · have hcur : SameNodes (k.freed c pm q) ((k.freed c pm q).setCurenv none) :=
      .of_envs rfl rfl (fun _ => rfl) fun _ => rfl
    rw [(hcur.trans (SameNodes.schedule hs)).pendingSignals, hfreed]
  · exact hfreed

/-- What a call does to the pending signals. -/
private theorem call_pendingSignals {cur : EnvPtr} {c : Call} {r : Option Word} (h : NodesOk k free pend) (hlive : LiveOk k)
    (hcur : k.curenv = some cur) (hadm : callPoolAdmits k cur c) (hs : CallStep k cur c k' r) (e : EnvPtr) :
    k'.pendingSignals e = k.callSent cur e c ++ k.pendingSignals e := by
  rcases SameNodes.call hlive hcur hs with ⟨hsame, hkill⟩ | ⟨envid, signo, e', n, k₁, rfl, he, hn, rfl⟩ |
    ⟨envid, e', left, rfl, he, hd⟩
  · rw [hsame.pendingSignals]
    cases c with
    | kill envid signo => simp only [callSent, hkill envid signo rfl]; rfl
    | _ => rfl
  · have hlive' := envid2env_live (hlive.cur cur hcur) he
    obtain ⟨hself, hother⟩ := h.kill_pendingSignals hlive' hn
    by_cases heq : e = e'
    · subst heq
      simp only [callSent, he, if_true]
      exact hself
    · have hne : some e' ≠ some e := fun h => heq (Option.some.inj h).symm
      simp only [callSent, he, if_neg hne]
      exact hother e heq
  · have hnone : (k.envs e').signoHeader = none := by
      simpa [callPoolAdmits, he, Option.isNone_iff_eq_none] using hadm
    exact destroy_pendingSignals (envid2env_live (hlive.cur cur hcur) he) hnone hd e

theorem served_pendingSignals {pgdir pp : Nat} {ptr : PtePtr} {va : Word} (h : NodesOk k free pend)
    (hlive : (k.envs c).envStatus ≠ .FREE) (hs : k.Served c va k') (hp : (k'.envs c).envPgdir = some pgdir)
    (hl : k'.pm.pageLookup pgdir va = some (some (pp, ptr))) (e : EnvPtr) :
    k'.pendingSignals e = (if va < UTEMP ∧ c = e ∧ k.pageLookupEnv e va = some none then
      [numberOf (BitVec.ofNat 32 SIGSEGV)] else []) ++ k.pendingSignals e := by
  cases hs with
  | mapped =>
    have hmapped : ¬(va < UTEMP ∧ c = e ∧ k.pageLookupEnv e va = some none) := by
      rintro ⟨-, rfl, hn⟩
      rw [pageLookupEnv, hp, Option.bind_some, hl] at hn
      cases hn
    rw [if_neg hmapped, List.nil_append]
  | @alloc pgdir' k₁ hp' hl' ha =>
    have hnone : k.pageLookupEnv c va = some none := by rw [pageLookupEnv, hp', Option.bind_some, hl']; rfl
    obtain ⟨k₀, pp', pm, hsegv, -, -, hi⟩ := passiveAlloc_cases ha
    have hsame := (SameNodes.setPm k₀ pm).trans (SameNodes.pageInsertEnv hi)
    rw [hsame.pendingSignals]
    cases hsegv with
    | none hva =>
      rw [if_neg fun h => BitVec.not_lt.2 hva h.1, List.nil_append]
    | sent hva hn =>
      obtain ⟨hself, hother⟩ := h.kill_pendingSignals hlive hn
      by_cases heq : e = c
      · subst heq
        rw [if_pos ⟨hva, rfl, hnone⟩]
        exact hself
      · rw [if_neg fun h => heq h.2.1.symm]
        exact hother e heq

/-- `_do_signal` splits what is pending into what it delivers, what it throws away and what stays. -/
private theorem doSignal_perm {tf tf' : Trapframe} (h : NodesOk k free pend) (hlive : (k.envs c).envStatus ≠ .FREE)
    (hkeep : k.keepsRest c (k.pendingOf c)) (hd : k.doSignal c tf = some (k', tf')) :
    ∃ r, Kern.scan c (MAX_SIG_NUM + 1) k none (k.envs c).signoHeader = some r ∧
      (k.pendingSignals c).Perm ((r.found.toList ++ r.discarded).map some ++ k'.pendingSignals c) := by
  obtain ⟨r, hr, -⟩ := doSignal_cases hd
  obtain ⟨hf, hdisc⟩ := scan_found_eq h hlive hr
  refine ⟨r, hr, ?_⟩
  have hkept : k'.pendingSignals c = (k.siftPending c).kept := by
    rw [(doSignal_pendingSignals h hlive hd).1, siftPending_eq hlive]
    exact scannedList_kept_iff.2 hkeep
  have hout : ((r.found.toList ++ r.discarded).map some).Perm (k.siftPending c).removed := by
    have hf : (k.siftPending c).found.toList = r.found.toList.map some := by rw [hf]; cases r.found <;> rfl
    rw [Sifted.removed, hf, hdisc, List.map_append]
    exact List.perm_append_comm
  rw [hkept]
  have hperm := sift_perm (fun s => s.any (k.envs c).blocked) (fun s => s.any (k.envs c).ignored) (k.pendingSignals c)
  exact hperm.symm.trans (List.perm_append_comm.trans (hout.symm.append_right _))

/-- What is pending or sent is delivered, thrown away or still pending after the step. -/
private theorem step_perm {s s' : State} {ev : Event} (h : NodesOk s.kern free pend) (hlive : LiveOk s.kern)
    (hok : poolAdmits s ev) (hs : Step s ev s') (e : EnvPtr) : (s.kern.pendingSignals e ++ s.sent ev e).Perm
      ((s.delivered ev e ++ s.discarded ev e).map some ++ s'.kern.pendingSignals e) := by
  -- Most steps do not touch the lists; calls and misses may send a signal, and a return may deliver one.
  have hsame : ∀ {k k' : Kern}, SameNodes k k' → (k.pendingSignals e ++ []).Perm ([] ++ k'.pendingSignals e) := by
    intro k k' hs
    rw [hs.pendingSignals, List.append_nil, List.nil_append]
  cases hs with
  | create hc => exact hsame (.create hlive hc)
  | evict => exact hsame (.setPm _ _)
  | idle => exact hsame (.refl _)
  | save => exact hsame ((SameNodes.setUmem _ _).trans (.setKtf _ _))
  | tick hs => exact hsame (.schedule hs)
  | tlbMod => exact hsame ((SameNodes.setUmem _ _).trans (.setKtf _ _))
  | @noSys k junk hn =>
    have hnil : State.sent ⟨.entered (.syscall junk), k⟩ .handle e = [] := by
      simp only [State.sent, decode_none hn]
      cases k.curenv <;> rfl
    rw [hnil]
    exact hsame (.setKtf _ _)
  | @call k k' cur c r junk hc hd hs =>
    have hsent : State.sent ⟨.entered (.syscall junk), k⟩ .handle e = k.skipInsn.callSent cur e c := by
      simp only [State.sent, hc, hd]
    have hcall := call_pendingSignals (k := k.skipInsn) (h.same (.setKtf _ _)) (hlive.setKtf _) hc
      ((onCall_eq hc hd).symm.trans hok) hs e
    rw [hsent]
    have hk' : (k'.setV0 r).pendingSignals e = k'.pendingSignals e := (SameNodes.setKtf _ _).pendingSignals e
    have hskip : k.skipInsn.pendingSignals e = k.pendingSignals e := (SameNodes.setKtf _ _).pendingSignals e
    show (k.pendingSignals e ++ _).Perm ([] ++ (k'.setV0 r).pendingSignals e)
    rw [hk', hcall, hskip, List.nil_append]
    exact List.perm_append_comm
  | @left k k' cur c junk hc hd hs =>
    have hsent : State.sent ⟨.entered (.syscall junk), k⟩ .handle e = k.skipInsn.callSent cur e c := by
      simp only [State.sent, hc, hd]
    have hcall := call_pendingSignals (k := k.skipInsn) (h.same (.setKtf _ _)) (hlive.setKtf _) hc
      ((onCall_eq hc hd).symm.trans hok) hs e
    have hskip : k.skipInsn.pendingSignals e = k.pendingSignals e := (SameNodes.setKtf _ _).pendingSignals e
    rw [hsent]
    show (k.pendingSignals e ++ _).Perm ([] ++ k'.pendingSignals e)
    rw [hcall, hskip, List.nil_append]
    exact List.perm_append_comm
  | @tlbMiss k k₁ c va pgdir pp ptr hc hva hs hp hl =>
    have hserved := served_pendingSignals h (hlive.cur c hc) hs hp hl e
    have hsent : State.sent ⟨.entered (.tlbMiss va), k⟩ .handle e =
        if va < UTEMP ∧ c = e ∧ k.pageLookupEnv e va = some none then [numberOf (BitVec.ofNat 32 SIGSEGV)] else [] := by
      simp only [State.sent, hc, Option.some.injEq]
    have hwrite : (k₁.tlbWrite c va (k₁.pm.word ptr.1 ptr.2)).pendingSignals e = k₁.pendingSignals e :=
      (SameNodes.setPm k₁ _).pendingSignals e
    rw [hsent]
    show (k.pendingSignals e ++ _).Perm ([] ++ (k₁.tlbWrite c va _).pendingSignals e)
    rw [hwrite, hserved, List.nil_append]
    exact List.perm_append_comm
  | @ret k k₁ c returned tf hc hd =>
    have hlive_c := hlive.cur c hc
    have hkeep : k.keepsRest c (k.pendingOf c) := by
      simpa [poolAdmits, show k.curenv = some c from hc] using hok
    have hstore : SameNodes k₁ ((k₁.storeTf c returned tf).restore tf) := by
      unfold storeTf
      split
      · exact (SameNodes.setKtf k₁ _).trans (.setCpu _ _)
      · exact (SameNodes.setEnv_same rfl rfl).trans (.setCpu _ _)
    show (k.pendingSignals e ++ []).Perm (_ ++ ((k₁.storeTf c returned tf).restore tf).pendingSignals e)
    rw [hstore.pendingSignals, List.append_nil]
    by_cases heq : e = c
    · subst heq
      obtain ⟨r, hr, hperm⟩ := h.doSignal_perm hlive_c hkeep hd
      have hscan : State.scanOf ⟨.leaving returned, k⟩ .ret e = some r := by simp only [State.scanOf, hc, if_true, hr]
      simpa only [State.delivered, State.discarded, hscan, Option.bind_some, Option.map_some, Option.getD_some] using hperm
    · have hscan : State.scanOf ⟨.leaving returned, k⟩ .ret e = none := by
        have hne : some c ≠ some e := fun h => heq (Option.some.inj h).symm
        simp only [State.scanOf, hc, if_neg hne]
      rw [(doSignal_pendingSignals h hlive_c hd).2 e heq]
      simp only [State.delivered, State.discarded, hscan]
      exact .refl _

end NodesOk

/-! ### The results -/

/-- What has to stay is kept, and the kernel is led to no memory of its own. -/
def poolArgsAdmits (s : State) (ev : Event) : Bool := poolAdmits s ev && s.argsInUser ev

/-- `_do_signal` does what it should exactly if it keeps what has to stay and can deliver what it finds; and in every
run from a reached state that keeps what has to stay, the signals that were pending or sent are, one by one, the ones
that were delivered, thrown away or are still pending. -/
theorem signals_delivered {k : Kern} {free : List SignoPtr} {pend : EnvPtr → List SignoPtr} {c : EnvPtr}
    (h : NodesOk k free pend) (hlive : (k.envs c).envStatus ≠ .FREE) (tf : Trapframe) {s t : State}
    {l : List (State × Event)} (hreach : kernel.Reach (fun s ev => s.argsInUser ev) s)
    (hsteps : kernel.Steps (fun s ev => poolArgsAdmits s ev) s l t) (e : EnvPtr) :
    ((∃ k' tf', k.doSignal c tf = some (k', tf') ∧ Delivers k c tf k' tf') ↔
      k.keepsRest c (k.pendingOf c) ∧ deliverable (k.envs c) tf (k.siftPending c).found) ∧
    (s.kern.pendingSignals e ++ l.flatMap fun p => p.1.sent p.2 e).Perm
      ((l.flatMap fun p => (p.1.delivered p.2 e ++ p.1.discarded p.2 e).map some) ++ t.kern.pendingSignals e) := by
  refine ⟨delivers_iff h hlive tf, ?_⟩
  refine (hsteps.account (I := fun s => LiveOk s.kern ∧ ∃ free pend, NodesOk s.kern free pend)
    (C := fun s => s.kern.pendingSignals e) (f := fun p => p.1.sent p.2 e)
    (g := fun p => (p.1.delivered p.2 e ++ p.1.discarded p.2 e).map some) ?_
    (nodesOk_of_reach (hreach.mono fun _ _ _ => trivial))).2
  rintro s ev s' ⟨hlive, free, pend, h⟩ hok hs
  have hstep := State.step_cases hs
  obtain ⟨free', pend', h', -⟩ := h.step hlive hstep
  exact ⟨⟨hlive.step hstep, free', pend', h'⟩, h.step_perm hlive (Bool.and_eq_true_iff.1 hok).1 hstep e⟩

/-- The child of `sendIgnored` before it runs, with the ignored signal 10 pending. -/
private theorem ignoredPending_cond : (Machine.gxemul.after (fun _ _ => true) sendIgnored.dropLast).any fun s =>
    s.kern.curenv = some 1 ∧ s.kern.pendingSignals 1 = [some 10] ∧ s.kern.keepsRest 1 (s.kern.pendingOf 1) ∧
    deliverable (s.kern.envs 1) (s.kern.envs 1).envTf (s.kern.siftPending 1).found := by decide +kernel

/-- The steps of `sendIgnored`. -/
private theorem ignoredTrace_isSome :
    (kernel.trace poolArgsAdmits ⟨.user, Machine.gxemul.bootKern⟩ sendIgnored).isSome := by decide +kernel

theorem signals_delivered_sendIgnored :
    (∃ s, kernel.Reach (fun _ _ => True) s ∧ s.kern.pendingSignals 1 = [some 10] ∧
      ∃ k' tf', s.kern.doSignal 1 (s.kern.envs 1).envTf = some (k', tf') ∧
        Delivers s.kern 1 (s.kern.envs 1).envTf k' tf') ∧
    ∃ l t, kernel.trace poolArgsAdmits ⟨.user, Machine.gxemul.bootKern⟩ sendIgnored = some (l, t) ∧
      (Machine.gxemul.bootKern.pendingSignals 1 ++ l.flatMap fun p => p.1.sent p.2 1).Perm
        ((l.flatMap fun p => (p.1.delivered p.2 1 ++ p.1.discarded p.2 1).map some) ++ t.kern.pendingSignals 1) := by
  obtain ⟨s, hs, hcond⟩ := (Option.any_eq_true _ _).1 ignoredPending_cond
  obtain ⟨hc, hpend, hkeep, hdeliv⟩ := of_decide_eq_true hcond
  have hreach : kernel.Reach (fun _ _ => True) s := (Machine.after_reach hs).mono fun _ _ _ => trivial
  obtain ⟨hlive, free, pend, h⟩ := nodesOk_of_reach hreach
  obtain ⟨⟨l, t⟩, hl⟩ := Option.isSome_iff_exists.1 ignoredTrace_isSome
  have hstart : kernel.Reach (fun s ev => s.argsInUser ev) ⟨.user, Machine.gxemul.bootKern⟩ :=
    .start (init_iff.2 ⟨Machine.gxemul, rfl⟩)
  obtain ⟨hiff, hperm⟩ := signals_delivered h (hlive.cur 1 hc) (s.kern.envs 1).envTf hstart (.of_trace hl) 1
  exact ⟨⟨s, hreach, hpend, hiff.2 ⟨hkeep, hdeliv⟩⟩, l, t, hl, hperm⟩

/-- The child of `sendBlocked` before it runs: the ignored signal 10 is in front of the blocked signal 12. -/
private theorem blockedPending_cond : (Machine.gxemul.after (fun _ _ => true) sendBlocked.dropLast).any fun s =>
    s.kern.curenv = some 1 ∧
    s.kern.pendingSignals 1 = [some 10, some 12] ∧ ¬s.kern.keepsRest 1 (s.kern.pendingOf 1) ∧
    deliverable (s.kern.envs 1) (s.kern.envs 1).envTf (s.kern.siftPending 1).found := by decide +kernel

theorem exists_not_delivers : ∃ s c, kernel.Reach (fun _ _ => True) s ∧ s.kern.curenv = some c ∧
    s.kern.pendingSignals c = [some 10, some 12] ∧
    deliverable (s.kern.envs c) (s.kern.envs c).envTf (s.kern.siftPending c).found ∧
    ¬∃ k' tf', s.kern.doSignal c (s.kern.envs c).envTf = some (k', tf') ∧
      Delivers s.kern c (s.kern.envs c).envTf k' tf' := by
  obtain ⟨s, hs, hcond⟩ := (Option.any_eq_true _ _).1 blockedPending_cond
  obtain ⟨hc, hpend, hkeep, hdeliv⟩ := of_decide_eq_true hcond
  have hreach := (Machine.after_reach hs).mono fun _ _ _ => trivial
  obtain ⟨hlive, free, pend, h⟩ := nodesOk_of_reach hreach
  exact ⟨s, 1, hreach, hc, hpend, hdeliv, fun hex => hkeep ((delivers_iff h (hlive.cur 1 hc) _).1 hex).1⟩

end Mos
