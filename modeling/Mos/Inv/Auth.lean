import Mos.Inv.Insert
import Mos.Kern.Args

/-!
# Who may change an environment

A system call of one environment changes another one only if that is its child, if it waits in `sys_ipc_recv` for the
message that is sent to it, or if a signal is added to its pending list.  `sys_set_sig_entry` does not ask for that.
-/

namespace Mos

open Kern

namespace Kern

/-- `b` is an immediate child of `cur`. -/
def IsChild (k : Kern) (cur b : EnvPtr) : Prop :=
  (k.envs b).envStatus ≠ .FREE ∧ (k.envs b).envParentId = (k.envs cur).envId

/-- Nothing is stored elsewhere in the page table of `b`. -/
def SamePages (k : Kern) (b : EnvPtr) (k' : Kern) : Prop := ∀ v : Vpn, v.1 < PDX ULIM → k'.mem.pte b v = k.mem.pte b v

/-- Only the count of its runs changes. -/
def SameEnv (k : Kern) (b : EnvPtr) (k' : Kern) : Prop := ∃ n, k'.envs b = { k.envs b with envRuns := n }

end Kern

/-- What a system call of `cur` may do to another environment `b`. -/
inductive Authorized (k : Kern) (cur b : EnvPtr) (k' : Kern) : Call → Prop
  | untouched (c : Call) (henv : k.SameEnv b k') (hpages : k.SamePages b k') : Authorized k cur b k' c
  | child (c : Call) (h : k.IsChild cur b) : Authorized k cur b k' c
  | born (hfree : (k.envs b).envStatus = .FREE) (h : k'.IsChild cur b) : Authorized k cur b k' .exofork
  | sent {envid value srcva perm : Word} (he : k.envid2env cur envid false = some b)
      (hrecv : (k.envs b).envIpcRecving ≠ 0)
      (henv : k'.envs b = { k.envs b with
        envIpcValue := value
        envIpcFrom := (k.envs cur).envId
        envIpcPerm := PTE_V ||| perm
        envIpcRecving := 0
        envStatus := .RUNNABLE })
      (hpages : ∀ v : Vpn, v.1 < PDX UTOP → v ≠ VPN (k.envs b).envIpcDstva → k'.mem.user b v = k.mem.user b v) :
      Authorized k cur b k' (.ipcTrySend envid value srcva perm)
  | signalled {envid signo : Word} {n : SignoPtr} (henv : k'.envs b = { k.envs b with signoHeader := some n })
      (hnext : (k'.signos n).next = (k.envs b).signoHeader) (hpages : k.SamePages b k') :
      Authorized k cur b k' (.kill envid signo)

namespace Kern

/-- The target of `sys_set_sig_entry` is the caller or a child. -/
def sigEntryAdmits (k : Kern) (cur : EnvPtr) : Call → Bool
  | .setSigEntry envid _ =>
    (k.envid2env cur envid false).all fun e => e = cur || (k.envs e).envParentId = (k.envs cur).envId
  | _ => true

def callAuthAdmits (k : Kern) (cur : EnvPtr) (c : Call) : Bool := callMemAdmits k cur c && sigEntryAdmits k cur c

variable {k k' k₁ : Kern} {cur b e : EnvPtr} {c : Call}

/-- With `checkperm`, an environment other than the caller is a child. -/
private theorem isChild_of_envid2env {envid : Word} (he : k.envid2env cur envid true = some b) (hb : b ≠ cur) :
    k.IsChild cur b := by
  unfold envid2env at he
  split at he
  case isTrue => exact absurd (Option.some.inj he).symm hb
  case isFalse =>
    dsimp only at he
    split at he
    case isTrue => cases he
    case isFalse hlive =>
      rw [not_or] at hlive
      split at he
      case isTrue => cases he
      case isFalse hperm =>
        obtain rfl := Option.some.inj he
        refine ⟨hlive.1, ?_⟩
        by_contra hp
        exact hperm ⟨rfl, hb, hp⟩

private theorem SameEnv.refl (k : Kern) (b : EnvPtr) : k.SameEnv b k := ⟨_, rfl⟩

private theorem SameEnv.of_eq (h : k'.envs b = k.envs b) : k.SameEnv b k' := ⟨(k.envs b).envRuns, h⟩

private theorem SameEnv.trans (h : k.SameEnv b k₁) (h' : k₁.SameEnv b k') : k.SameEnv b k' := by
  obtain ⟨n, hn⟩ := h
  obtain ⟨n', hn'⟩ := h'
  exact ⟨n', by rw [hn', hn]⟩

/-- The scheduler writes the frame of the environment that ran, and counts a run of the next one. -/
private theorem SameEnv.schedule {yield : Bool} (hs : k.schedule yield = some k') (hb : k.curenv ≠ some b) :
    k.SameEnv b k' := by
  obtain ⟨q, n, e, -, rfl, -⟩ := schedule_cases hs
  have hsave : ((k.setSched q).setCount n).saveTf.envs b = k.envs b := by
    unfold saveTf
    cases hc : k.curenv with
    | none =>
      simp only [setCount_curenv, setSched_curenv, hc]
      rfl
    | some c =>
      have hbc : b ≠ c := fun heq => hb (heq ▸ hc)
      simp only [setCount_curenv, setSched_curenv, hc]
      rw [setEnv_of_ne hbc]
      rfl
  by_cases hbe : b = e
  · subst hbe
    refine ⟨(k.envs b).envRuns + 1, ?_⟩
    rw [running, setEnv_self, setCurenv_envs, hsave]
  · refine .of_eq ?_
    rw [running, setEnv_of_ne hbe, setCurenv_envs, hsave]

private theorem SameEnv.setEnv {f : Env → Env} (hb : b ≠ e) : k.SameEnv b (k.setEnv e f) := .of_eq (setEnv_of_ne hb)

private theorem SameEnv.setTf (frame : Trapframe) (hb : b ≠ e) : k.SameEnv b (k.setTf cur e frame) := by
  unfold Kern.setTf
  split
  · exact .refl ..
  · exact .setEnv hb

private theorem SameEnv.pageInsertEnv {pp : Nat} {va perm r : Word} (hi : k.pageInsertEnv e pp va perm = some (r, k')) :
    k'.envs b = k.envs b := by
  obtain ⟨_, pm, _, _, rfl⟩ := pageInsertEnv_cases hi
  rfl

theorem SamePages.of_mem (h : k'.mem = k.mem) (b : EnvPtr) : k.SamePages b k' := fun v _ => by rw [h]

private theorem SamePages.user (h : k.SamePages b k') {v : Vpn} (hv : v.1 < PDX UTOP) : k'.mem.user b v =
    k.mem.user b v := by
  rw [Mem.user, Mem.user, h v (Mem.lt_ULIM hv)]

/-- A free slot has no page table. -/
private theorem SamePages.of_free (h : (k.envs b).envStatus = .FREE) (h' : (k'.envs b).envStatus = .FREE) :
    k.SamePages b k' := by
  intro v _
  have hd : k.mem.dirs b = none := dirs_of_free h
  have hd' : k'.mem.dirs b = none := dirs_of_free h'
  simp [Mem.pte, hd, hd']

/-- What `sys_exofork` leaves of the slot that it uses, and of the others. -/
private theorem forked_env (hal : k.envAlloc (k.envs cur).envId = some (e, k₁)) (hcur : cur ≠ e) :
    (b = e → (k₁.setEnv e (k₁.forkEnv cur)).IsChild cur b) ∧
      (b ≠ e → (k₁.setEnv e (k₁.forkEnv cur)).envs b = k.envs b) := by
  obtain ⟨rest, pgdir, pm, asid, bitmap, -, -, -, rfl⟩ := envAlloc_cases hal
  have hother : ∀ b', b' ≠ e → ((k.allocated e rest pgdir pm asid bitmap (k.envs cur).envId).setEnv e
      ((k.allocated e rest pgdir pm asid bitmap (k.envs cur).envId).forkEnv cur)).envs b' = k.envs b' := by
    intro b' hb
    rw [setEnv_of_ne hb, allocated, setEnv_of_ne hb]
    rfl
  refine ⟨?_, hother b⟩
  rintro rfl
  constructor
  · rw [setEnv_self]
    intro h
    cases h
  · rw [hother cur hcur, setEnv_self, allocated, setEnv_self]
    rfl

end Kern

namespace MemOk

variable {mc : Machine} {leak : Nat → Nat} {k k' : Kern} {cur b e : EnvPtr} {c : Call}

/-- What `page_insert` stores in the address space of a live environment, after the memory became `m`. -/
theorem insert_stores {m : Pmap} {pp : Nat} {va perm ret : Word} (h : Mem.Ok mc leak ⟨k.dirs, m⟩)
    (hlive : (k.envs e).envStatus ≠ .FREE) (hva : va < UTOP)
    (hi : (k.setPm m).pageInsertEnv e pp va perm = some (ret, k')) :
    ∃ r, Mem.Inserted pp perm ret r ∧ Mem.Stores ⟨k.dirs, m⟩ e (VPN va) r k'.mem := by
  obtain ⟨pgdir, pm, hp, hpm, rfl⟩ := pageInsertEnv_cases hi
  have hd : k.dirs e = some pgdir := (dirs_of_live hlive).trans hp
  exact h.pageInsert_stores hd (Mem.PDX_lt_of_lt hva) hpm

/-- The receiver, with the page that is sent to it. -/
theorem sent_stores (h : MemOk mc leak k) {pp : Nat} {value perm ret : Word} {q : TailQueue EnvPtr}
    (hlive : (k.envs e).envStatus ≠ .FREE)
    (hi : (k.ipcWake cur e value perm q).pageInsertEnv e pp ((k.ipcWake cur e value perm q).envs e).envIpcDstva perm =
      some (ret, k')) :
    ∃ r, Mem.Inserted pp perm ret r ∧ Mem.Stores k.mem e (VPN (k.envs e).envIpcDstva) r k'.mem := by
  obtain ⟨hmem, h₁⟩ := h.ipcWake hlive cur value perm q
  have hdst : ((k.ipcWake cur e value perm q).envs e).envIpcDstva = (k.envs e).envIpcDstva :=
    ipcWake_field Env.envIpcDstva (fun _ _ _ _ => rfl) k cur e value perm q e
  have hlive₁ : ((k.ipcWake cur e value perm q).envs e).envStatus ≠ .FREE := by
    rw [Kern.ipcWake, setEnv_self]
    intro h
    cases h
  rw [hdst] at hi
  obtain ⟨r, hins, hst⟩ := insert_stores (m := (k.ipcWake cur e value perm q).pm) h₁.mem hlive₁ (h.dstva e) hi
  refine ⟨r, hins, ?_⟩
  rw [← hmem]
  exact hst

/-- A system call keeps to what it may do. -/
private theorem authorizedCall (h : MemOk mc leak k) {r : Option Word} (hcur : k.curenv = some cur)
    (hs : CallStep k cur c k' r)
    (ha : callAuthAdmits k cur c = true) (hb : b ≠ cur) : Authorized k cur b k' c := by
  have hlive := h.live.cur cur hcur
  obtain ⟨hmem, hsig⟩ := Bool.and_eq_true_iff.1 ha
  have hpol : CallPolicy .any k cur c := ⟨fun _ _ => ⟨trivial, trivial⟩, fun _ _ _ _ _ _ => trivial⟩
  obtain ⟨e₀, hacts, hm⟩ := h.call_moves hlive hs hmem hpol
  have hpages : b ≠ e₀ → k.SamePages b k' := by
    intro hne v hv
    obtain ⟨hdirs, hframe⟩ := h.mem.moves_frame hm hne
    exact h.mem.pte_congr hv hdirs fun q hq => (hframe q hq).1
  have hcurb : k.curenv ≠ some b := fun heq => hb (Option.some.inj (heq.symm.trans hcur))
  have hchild : ∀ {envid : Word} {e : EnvPtr}, k.envid2env cur envid true = some e →
      (b ≠ e → k.SameEnv b k') → k.SamePages b k' → Authorized k cur b k' c := by
    intro envid e he henv hsp
    by_cases hbe : b = e
    · exact .child c (isChild_of_envid2env (hbe ▸ he) hb)
    · exact .untouched c (henv hbe) hsp
  -- `e₀` is the environment whose pages the call works on; everybody else keeps theirs.
  by_cases hbe : b = e₀
  · subst hbe
    cases hacts with
    | none => exact absurd rfl hb
    | memAlloc he => exact .child _ (isChild_of_envid2env he hb)
    | memMap he => exact .child _ (isChild_of_envid2env he hb)
    | memUnmap he => exact .child _ (isChild_of_envid2env he hb)
    | destroy he => exact .child _ (isChild_of_envid2env he hb)
    | fork hfree =>
      cases hs with
      | unchanged => exact .untouched _ (.refl ..) fun _ _ => rfl
      | @exofork e k₁ hal =>
        have hce : cur ≠ e := by
          rintro rfl
          exact hlive (h.live.alloc hal).2.2.1
        obtain ⟨hself, hother⟩ := forked_env (b := b) hal hce
        by_cases hbe : b = e
        · exact .born hfree (hself hbe)
        · have heq := hother hbe
          exact .untouched _ (.of_eq heq) (.of_free hfree (by rw [heq]; exact hfree))
    | ipc he hrecv =>
      cases hs with
      | unchanged => exact .untouched _ (.refl ..) fun _ _ => rfl
      | @ipcWoken _ value _ perm _ e q _ he' =>
        obtain rfl := Option.some.inj (he.symm.trans he')
        refine .sent he hrecv (setEnv_self ..) fun v hv hne => ?_
        rw [(h.ipcWake (envid2env_live hlive he) cur _ _ q).1]
      | @ipcPage envid value srcva perm _ e q pp _ _ he' _ _ _ _ hi =>
        obtain rfl := Option.some.inj (he.symm.trans he')
        obtain ⟨_, -, hst⟩ := h.sent_stores (envid2env_live hlive he) hi
        refine .sent he hrecv ?_ hst.other
        rw [SameEnv.pageInsertEnv hi]
        exact setEnv_self ..
  · have hsp := hpages hbe
    cases hs with
    | unchanged => exact .untouched _ (.refl ..) hsp
    | yield hs => exact .untouched _ (.schedule hs hcurb) hsp
    | @envDestroy envid e _ left he hd =>
      refine hchild he (fun hbe => ?_) hsp
      obtain ⟨k₁, hf, hk'⟩ := envDestroy_cases hd
      obtain ⟨pgdir, pm, q, -, -, -, rfl⟩ := envFree_cases hf
      have hfreed : k.SameEnv b (k.freed e pm q) := .of_eq (setEnv_of_ne hbe)
      rcases hk' with ⟨-, -, hsch⟩ | ⟨-, -, rfl⟩
      · have hnone : k.SameEnv b ((k.freed e pm q).setCurenv none) := hfreed
        exact hnone.trans (.schedule hsch nofun)
      · exact hfreed
    | setTlbModEntry he => exact hchild he (fun hbe => .setEnv hbe) hsp
    | @memAlloc _ _ _ _ _ _ pm _ _ _ _ hi =>
      have henv : k'.envs b = (k.setPm pm).envs b := SameEnv.pageInsertEnv hi
      exact .untouched _ (.of_eq henv) hsp
    | memMap _ _ _ _ _ hi => exact .untouched _ (.of_eq (SameEnv.pageInsertEnv hi)) hsp
    | memUnmap => exact .untouched _ (.of_eq rfl) hsp
    | @exofork e k₁ hal =>
      have hfree : (k.envs e).envStatus = .FREE := (h.live.alloc hal).2.2.1
      have hce : cur ≠ e := by
        rintro rfl
        exact hlive hfree
      obtain ⟨hself, hother⟩ := forked_env (b := b) hal hce
      by_cases hbe : b = e
      · exact .born (hbe ▸ hfree) (hself hbe)
      · exact .untouched _ (.of_eq (hother hbe)) hsp
    | setEnvStatus _ he hset =>
      refine hchild he (fun hbe => ?_) hsp
      obtain ⟨q, -, rfl⟩ := Option.map_eq_some_iff.1 hset
      exact .of_eq (setEnv_of_ne hbe)
    | @setTrapframe _ _ _ e frame _ he => exact hchild he (fun hbe => .setTf frame hbe) hsp
    | @ipcWoken envid value srcva perm _ e q _ he hrecv =>
      by_cases hbe : b = e
      · subst hbe
        exact .sent he hrecv (setEnv_self ..) fun v hv _ => hsp.user hv
      · exact .untouched _ (.of_eq (setEnv_of_ne hbe)) hsp
    | @ipcPage envid value srcva perm _ e q pp _ _ he hrecv _ _ _ hi =>
      have henv := SameEnv.pageInsertEnv (b := b) hi
      by_cases hbe : b = e
      · subst hbe
        exact .sent he hrecv (henv.trans (setEnv_self ..)) fun v hv _ => hsp.user hv
      · exact .untouched _ (.of_eq (henv.trans (setEnv_of_ne hbe))) hsp
    | @ipcRecv dstva _ _ hs =>
      have hwait : k.SameEnv b (k.ipcWait cur dstva) := .of_eq (setEnv_of_ne hb)
      exact .untouched _ (hwait.trans (.schedule hs hcurb)) hsp
    | sigaction => exact .untouched _ (.of_eq (setEnv_of_ne hb)) hsp
    | sigprocmask => exact .untouched _ (.of_eq (setEnv_of_ne hb)) hsp
    | @kill envid signo e n k₁ he hn =>
      obtain ⟨-, rfl⟩ := signoAlloc_cases hn
      by_cases hbe : b = e
      · subst hbe
        refine .signalled (n := n) (setEnv_self ..) ?_ hsp
        rw [pended, setEnv_signos, setNext, setSignos_signos, Function.update_self]
        rfl
      · exact .untouched _ (.of_eq (setEnv_of_ne hbe)) hsp
    | @backDoSignal _ _ _ _ e frame _ _ he =>
      exact hchild he (fun hbe => (SameEnv.setTf frame hbe).trans (.setEnv hb)) hsp
    | @setSigEntry envid entry e he =>
      -- No permission is checked here: that the caller may do this is what `sigEntryAdmits` says.
      rw [sigEntryAdmits, he, Option.all_some, Bool.or_eq_true, decide_eq_true_eq, decide_eq_true_eq] at hsig
      by_cases hbe : b = e
      · subst hbe
        exact .child _ ⟨envid2env_live hlive he, hsig.resolve_left hb⟩
      · exact .untouched _ (.of_eq (setEnv_of_ne hbe)) hsp

end MemOk

/-- Steps that keep the page tables apart, and in which `sys_set_sig_entry` is called for the caller or a child. -/
def authAdmits (s : State) (ev : Event) : Bool := s.admits vmFree callAuthAdmits ev

/-- These steps, where they lead the kernel to no memory of its own. -/
def authArgsAdmits (s : State) (ev : Event) : Bool := authAdmits s ev && s.argsInUser ev

private theorem memAdmits_of_auth {s : State} {ev : Event} (h : authArgsAdmits s ev = true) : memAdmits s ev = true := by
  rw [memAdmits_eq]
  exact State.admits_mono (Bool.and_eq_true_iff.1 h).1 (fun _ hk => hk) fun _ _ _ hc => (Bool.and_eq_true_iff.1 hc).1

/-- The frame of the exception and the result of the call do not matter. -/
private theorem Authorized.setKtf {k k' : Kern} {cur b : EnvPtr} {c : Call} {tf tf' : Trapframe}
    (h : Authorized (k.setKtf tf) cur b k' c) : Authorized k cur b (k'.setKtf tf') c := by
  cases h with
  | untouched _ henv hpages => exact .untouched _ henv hpages
  | child _ h => exact .child _ h
  | born hfree h => exact .born hfree h
  | sent he hrecv henv hpages => exact .sent he hrecv henv hpages
  | signalled henv hnext hpages => exact .signalled henv hnext hpages

/-- The first environment forks, and asks for the status of its child to be changed. -/
def startsChild : List Event :=
  .create .empty 1 :: tickEvents ++ callEvents 9 0 0 0 ++ (callEvents 10 0x1001 1 0).take 1

private theorem startsChild_cond : (kernel.trace authArgsAdmits ⟨.user, Machine.gxemul.bootKern⟩ startsChild).any fun r =>
    r.2.call .handle = some (0, .setEnvStatus 0x1001 1) ∧ authArgsAdmits r.2 .handle ∧ (r.2.step .handle).isSome := by
  decide +kernel

/-- A child that its parent started asks for the entry of its parent to be changed. -/
def setsEntry : List Event :=
  .create .empty 1 :: tickEvents ++ callEvents 9 0 0 0 ++ callEvents 10 0x1001 1 0 ++ callEvents 3 0 0 0 ++
    (callEvents 22 0x800 0x600000 0).take 1

private theorem setsEntry_cond : (kernel.trace (fun _ _ => true) ⟨.user, Machine.gxemul.bootKern⟩ setsEntry).any fun r =>
    r.2.call .handle = some (1, .setSigEntry 0x800 0x600000) ∧ (r.2.kern.envs 0).envParentId ≠ (r.2.kern.envs 1).envId ∧
      (r.2.step .handle).any fun s' => (s'.kern.envs 0).doSignalEntry ≠ (r.2.kern.envs 0).doSignalEntry := by
  decide +kernel

end Mos
