import Mos.Inv.Live
import Mos.Inv.Scan

/-!
# The pool of signal nodes

The free list and the pending lists of the live environments are disjoint lists that end, in every run.  Together they
hold all the nodes as long as no return to user code takes a node off the front of a list of which something has to
stay, and no environment is freed with signals pending (`poolAdmits`).
-/

namespace Mos

open Kern

/-- The free list is `free` and the pending list of every live environment `e` is `pend e`; no two of them share a
node. -/
structure NodesOk (k : Kern) (free : List SignoPtr) (pend : EnvPtr → List SignoPtr) : Prop where
  free_list : SList k.links k.signoFreeList free
  pending : ∀ e, (k.envs e).envStatus ≠ .FREE → SList k.links (k.envs e).signoHeader (pend e)
  idle : ∀ e, (k.envs e).envStatus = .FREE → pend e = []
  disjoint_free : ∀ e, ∀ n ∈ pend e, n ∉ free
  disjoint : ∀ e e', e ≠ e' → ∀ n ∈ pend e, n ∉ pend e'

/-- No node is missing. -/
def Full (free : List SignoPtr) (pend : EnvPtr → List SignoPtr) : Prop := ∀ n, n ∈ free ∨ ∃ e, n ∈ pend e

/-- Every node is in exactly one place: on the free list, or on the pending list of exactly one live environment. -/
def PoolOk (k : Kern) : Prop := ∃ (free : List SignoPtr) (pend : EnvPtr → List SignoPtr),
  SList k.links k.signoFreeList free ∧
  (∀ e, (k.envs e).envStatus ≠ .FREE → SList k.links (k.envs e).signoHeader (pend e)) ∧
  ∀ n, (n ∈ free ∧ ∀ e, (k.envs e).envStatus ≠ .FREE → n ∉ pend e) ∨
    (n ∉ free ∧ ∃! e, (k.envs e).envStatus ≠ .FREE ∧ n ∈ pend e)

/-! ### Steps that leave the nodes alone -/

/-- Neither the nodes nor the pending lists of live environments change; an environment that becomes live has none. -/
structure SameNodes (k k' : Kern) : Prop where
  signos : k'.signos = k.signos
  free : k'.signoFreeList = k.signoFreeList
  header : ∀ e, (k'.envs e).envStatus ≠ .FREE →
    ((k.envs e).envStatus ≠ .FREE → (k'.envs e).signoHeader = (k.envs e).signoHeader) ∧
    ((k.envs e).envStatus = .FREE → (k'.envs e).signoHeader = none)
  dead : ∀ e, (k'.envs e).envStatus = .FREE → (k.envs e).envStatus = .FREE

namespace SameNodes

variable {k k' k₁ : Kern} {e : EnvPtr}

theorem of_envs (hs : k'.signos = k.signos) (hf : k'.signoFreeList = k.signoFreeList)
    (hh : ∀ e, (k'.envs e).signoHeader = (k.envs e).signoHeader)
    (hst : ∀ e, (k'.envs e).envStatus = (k.envs e).envStatus) : SameNodes k k' where
  signos := hs
  free := hf
  header e he := ⟨fun _ => hh e, fun hfree => absurd ((hst e).trans hfree) he⟩
  dead e he := (hst e).symm.trans he

theorem refl (k : Kern) : SameNodes k k := of_envs rfl rfl (fun _ => rfl) fun _ => rfl

theorem setPm (k : Kern) (pm : Pmap) : SameNodes k (k.setPm pm) := of_envs rfl rfl (fun _ => rfl) fun _ => rfl
private theorem setSched (k : Kern) (q : TailQueue EnvPtr) : SameNodes k (k.setSched q) :=
  of_envs rfl rfl (fun _ => rfl) fun _ => rfl
theorem setKtf (k : Kern) (tf : Trapframe) : SameNodes k (k.setKtf tf) := of_envs rfl rfl (fun _ => rfl) fun _ => rfl
theorem setCpu (k : Kern) (tf : Trapframe) : SameNodes k (k.setCpu tf) := of_envs rfl rfl (fun _ => rfl) fun _ => rfl
theorem setUmem (k : Kern) (m : Word → Word) : SameNodes k (k.setUmem m) :=
  of_envs rfl rfl (fun _ => rfl) fun _ => rfl

theorem trans (h : SameNodes k k₁) (h' : SameNodes k₁ k') : SameNodes k k' where
  signos := h'.signos.trans h.signos
  free := h'.free.trans h.free
  header e he := by
    constructor
    · intro hlive
      have hlive₁ : (k₁.envs e).envStatus ≠ .FREE := fun hfree => hlive (h.dead e hfree)
      exact ((h'.header e he).1 hlive₁).trans ((h.header e hlive₁).1 hlive)
    · intro hfree
      by_cases hlive₁ : (k₁.envs e).envStatus = .FREE
      · exact (h'.header e he).2 hlive₁
      · exact ((h'.header e he).1 hlive₁).trans ((h.header e hlive₁).2 hfree)
  dead e he := h.dead e (h'.dead e he)

/-- Writing a live environment without touching its pending list. -/
private theorem setEnv {f : Env → Env} (hlive : (k.envs e).envStatus ≠ .FREE)
    (hh : (f (k.envs e)).signoHeader = (k.envs e).signoHeader) (hst : (f (k.envs e)).envStatus ≠ .FREE) :
    SameNodes k (k.setEnv e f) where
  signos := rfl
  free := rfl
  header e' he' := ⟨fun _ => setEnv_field Env.signoHeader hh e', fun hfree => by
    by_cases heq : e' = e
    · exact absurd (heq ▸ hfree) hlive
    · rw [setEnv_of_ne heq] at he'
      exact absurd hfree he'⟩
  dead e' he' := by
    by_cases heq : e' = e
    · subst heq
      rw [setEnv_self] at he'
      exact absurd he' hst
    · rwa [setEnv_of_ne heq] at he'

/-- Writing an environment without touching its pending list and its status. -/
theorem setEnv_same {f : Env → Env} (hh : (f (k.envs e)).signoHeader = (k.envs e).signoHeader)
    (hst : (f (k.envs e)).envStatus = (k.envs e).envStatus) : SameNodes k (k.setEnv e f) :=
  of_envs rfl rfl (setEnv_field Env.signoHeader hh) (setEnv_field Env.envStatus hst)

/-- A free environment without pending signals may become live. -/
private theorem revive {f : Env → Env} (hfree : (k.envs e).envStatus = .FREE) (hh : (f (k.envs e)).signoHeader = none) :
    SameNodes k (k.setEnv e f) where
  signos := rfl
  free := rfl
  header e' he' := by
    by_cases heq : e' = e
    · subst heq
      rw [setEnv_self]
      exact ⟨fun hlive => absurd hfree hlive, fun _ => hh⟩
    · rw [setEnv_of_ne heq] at he' ⊢
      exact ⟨fun _ => rfl, fun hf => absurd hf he'⟩
  dead e' he' := by
    by_cases heq : e' = e
    · rw [heq]; exact hfree
    · rwa [setEnv_of_ne heq] at he'

theorem schedule {yield : Bool} (hs : k.schedule yield = some k') : SameNodes k k' := by
  obtain ⟨q, n, e, -, rfl, -⟩ := schedule_cases hs
  refine of_envs ?_ ?_ ?_ (LiveOk.running_status k q n e)
  · unfold running Kern.saveTf; split <;> rfl
  · unfold running Kern.saveTf; split <;> rfl
  · exact running_field Env.signoHeader (fun _ _ => rfl) (fun _ _ => rfl) k q n e

private theorem alloc {parentId : Word} (hlive : LiveOk k) (ha : k.envAlloc parentId = some (e, k')) :
    SameNodes k k' ∧ (k'.envs e).envStatus = .FREE ∧ (k'.envs e).signoHeader = none := by
  obtain ⟨-, -, hfree, hst⟩ := hlive.alloc ha
  obtain ⟨rest, pgdir, pm, asid, bitmap, -, -, -, rfl⟩ := envAlloc_cases ha
  refine ⟨⟨rfl, rfl, fun e' he' => ?_, fun e' he' => (hst e').symm.trans he'⟩, (hst e).trans hfree, ?_⟩
  · by_cases heq : e' = e
    · rw [heq, hst, hfree] at he'
      exact absurd rfl he'
    · rw [hst] at he'
      exact ⟨fun _ => by rw [allocated, setEnv_of_ne heq]; rfl, fun hf => absurd hf he'⟩
  · rw [allocated, setEnv_self]; rfl

private theorem setTf (k : Kern) (cur e : EnvPtr) (frame : Trapframe) : SameNodes k (k.setTf cur e frame) := by
  unfold Kern.setTf
  split
  · exact setKtf k frame
  · exact setEnv_same rfl rfl

theorem pageInsertEnv {pp : Nat} {va perm r : Word} (hi : k.pageInsertEnv e pp va perm = some (r, k')) :
    SameNodes k k' := by
  obtain ⟨_, pm, _, _, rfl⟩ := pageInsertEnv_cases hi
  exact setPm k pm

private theorem ipcWake {cur : EnvPtr} (hlive : (k.envs e).envStatus ≠ .FREE) (value perm : Word) (q : TailQueue EnvPtr) :
    SameNodes k (k.ipcWake cur e value perm q) :=
  (setSched k q).trans (setEnv hlive rfl nofun)

theorem create {binary : Image} {priority : Word} (hlive : LiveOk k) (hc : k.envCreate binary priority = some k') :
    SameNodes k k' := by
  obtain ⟨e, k₁, pgdir, pm, ha, -, -, rfl⟩ := envCreate_cases hc
  obtain ⟨hsame, hfree, hh⟩ := alloc hlive ha
  unfold created
  refine hsame.trans (((setPm k₁ pm).trans ?_).trans (setSched _ _))
  apply revive (k := k₁.setPm pm) hfree
  exact hh

/-- A call that neither kills nor destroys. -/
theorem call {cur : EnvPtr} {c : Call} {r : Option Word} (hlive : LiveOk k) (hcur : k.curenv = some cur)
    (hs : CallStep k cur c k' r) :
    (SameNodes k k' ∧ ∀ envid signo, c = .kill envid signo → k.envid2env cur envid false = none) ∨
      (∃ envid signo e n k₁, c = .kill envid signo ∧ k.envid2env cur envid false = some e ∧
        k.signoAlloc signo = some (n, k₁) ∧ k' = k₁.pended e n) ∨
      ∃ envid e left, c = .envDestroy envid ∧ k.envid2env cur envid true = some e ∧
        k.envDestroy e = some (k', left) := by
  have hlive_cur := hlive.cur cur hcur
  cases hs with
  | unchanged _ _ hfail =>
    refine .inl ⟨refl k, fun envid signo hc => ?_⟩
    subst hc
    exact hfail
  | yield hs => exact .inl ⟨schedule hs, nofun⟩
  | envDestroy he hd => exact .inr (.inr ⟨_, _, _, rfl, he, hd⟩)
  | setTlbModEntry => exact .inl ⟨setEnv_same rfl rfl, nofun⟩
  | memAlloc _ _ _ hi => exact .inl ⟨(setPm k _).trans (pageInsertEnv hi), nofun⟩
  | memMap _ _ _ _ _ hi => exact .inl ⟨pageInsertEnv hi, nofun⟩
  | memUnmap => exact .inl ⟨setPm k _, nofun⟩
  | exofork ha =>
    obtain ⟨hsame, hfree, hh⟩ := alloc hlive ha
    exact .inl ⟨hsame.trans (revive hfree hh), nofun⟩
  | setEnvStatus hst he hs =>
    obtain ⟨q, -, rfl⟩ := Option.map_eq_some_iff.1 hs
    refine .inl ⟨(setSched k q).trans ?_, nofun⟩
    exact setEnv (k := k.setSched q) (envid2env_live hlive_cur he) rfl (LiveOk.legalStatus_ne_free hst)
  | setTrapframe => exact .inl ⟨setTf k cur _ _, nofun⟩
  | ipcWoken _ he => exact .inl ⟨ipcWake (envid2env_live hlive_cur he) _ _ _, nofun⟩
  | ipcPage _ he _ _ _ _ hi =>
    exact .inl ⟨(ipcWake (envid2env_live hlive_cur he) _ _ _).trans (pageInsertEnv hi), nofun⟩
  | @ipcRecv dstva _ _ hs =>
    have hw : SameNodes k (k.ipcWait cur dstva) := (setKtf k _).trans (setEnv hlive_cur rfl nofun)
    exact .inl ⟨hw.trans (schedule hs), nofun⟩
  | @sigaction _ _ _ _ m => exact .inl ⟨(setUmem k m).trans (setEnv_same rfl rfl), nofun⟩
  | @sigprocmask _ _ _ _ m => exact .inl ⟨(setUmem k m).trans (setEnv_same rfl rfl), nofun⟩
  | kill he hn => exact .inr (.inl ⟨_, _, _, _, _, rfl, he, hn, rfl⟩)
  | backDoSignal => exact .inl ⟨(setTf k cur _ _).trans (setEnv_same rfl rfl), nofun⟩
  | setSigEntry => exact .inl ⟨setEnv_same rfl rfl, nofun⟩

end SameNodes

namespace NodesOk

variable {k k' : Kern} {free : List SignoPtr} {pend : EnvPtr → List SignoPtr} {e c : EnvPtr}

theorem same (h : NodesOk k free pend) (hs : SameNodes k k') : NodesOk k' free pend := by
  have hlinks : k'.links = k.links := by funext n; rw [links, links, hs.signos]
  refine ⟨?_, fun e he => ?_, fun e he => h.idle e (hs.dead e he), h.disjoint_free, h.disjoint⟩
  · rw [hlinks, hs.free]; exact h.free_list
  · rw [hlinks]
    by_cases hfree : (k.envs e).envStatus = .FREE
    · rw [(hs.header e he).2 hfree, h.idle e hfree]
      exact SList.nil _
    · rw [(hs.header e he).1 hfree]
      exact h.pending e hfree

/-- A node that is taken off the free list is put at the front of a pending list. -/
theorem kill {signo : Word} {n : SignoPtr} {k₁ : Kern} (h : NodesOk k free pend)
    (hlive : (k.envs e).envStatus ≠ .FREE) (hn : k.signoAlloc signo = some (n, k₁)) :
    ∃ free', free = n :: free' ∧ NodesOk (k₁.pended e n) free' (Function.update pend e (n :: pend e)) := by
  obtain ⟨hfl, rfl⟩ := signoAlloc_cases hn
  cases free with
  | nil => exact absurd (hfl.symm.trans h.free_list) nofun
  | cons n' free' =>
    obtain rfl : n = n' := Option.some.inj (hfl.symm.trans h.free_list.1)
    have hnf : n ∉ free' := (List.nodup_cons.1 h.free_list.nodup).1
    have hnp : ∀ e', n ∉ pend e' := fun e' hm => h.disjoint_free e' n hm (List.mem_cons_self ..)
    refine ⟨free', rfl, ?_⟩
    generalize hk₁ : k.setSignos (Function.update k.signos n { k.signos n with signo := signo.setWidth 8 })
      (k.signos n).next = k₁
    have hlinks₁ : k₁.links = k.links := by
      funext m
      by_cases hm : m = n
      · subst hm; simp [links, ← hk₁]
      · simp [links, ← hk₁, hm]
    have hlinks : (k₁.pended e n).links = Function.update k.links n (k.envs e).signoHeader := by
      rw [← hlinks₁, ← links_setNext, ← hk₁]
      rfl
    have hst : ∀ e', ((k₁.pended e n).envs e').envStatus = (k.envs e').envStatus := by
      rw [← hk₁]
      exact setEnv_field Env.envStatus (by rfl)
    -- The node leaves the free list, and stands in no other list of pending signals.
    refine ⟨?_, fun e' he' => ?_, fun e' he' => ?_, fun e' m hm => ?_, fun e₁ e₂ hne m hm => ?_⟩
    · rw [hlinks]
      have hfree : (k₁.pended e n).signoFreeList = k.links n := by rw [← hk₁]; rfl
      rw [hfree]
      exact h.free_list.2.update hnf
    · rw [hst] at he'
      rw [hlinks]
      by_cases heq : e' = e
      · subst heq
        have hh : ((k₁.pended e' n).envs e').signoHeader = some n := by simp [pended]
        rw [hh, Function.update_self]
        exact (h.pending e' he').push (hnp e')
      · have hh : ((k₁.pended e n).envs e').signoHeader = (k.envs e').signoHeader := by
          rw [pended, setEnv_of_ne heq, ← hk₁]; rfl
        rw [hh, Function.update_of_ne heq]
        exact (h.pending e' he').update (hnp e')
    · rw [hst] at he'
      have heq : e' ≠ e := fun heq => hlive (heq ▸ he')
      rw [Function.update_of_ne heq]
      exact h.idle e' he'
    · by_cases heq : e' = e
      · subst heq
        rw [Function.update_self] at hm
        rcases List.mem_cons.1 hm with rfl | hm
        · exact hnf
        · exact fun hmf => h.disjoint_free e' m hm (List.mem_cons_of_mem _ hmf)
      · rw [Function.update_of_ne heq] at hm
        exact fun hmf => h.disjoint_free e' m hm (List.mem_cons_of_mem _ hmf)
    · by_cases h₁ : e₁ = e
      · subst h₁
        rw [Function.update_self] at hm
        rw [Function.update_of_ne (Ne.symm hne)]
        rcases List.mem_cons.1 hm with rfl | hm
        · exact hnp e₂
        · exact h.disjoint e₁ e₂ hne m hm
      · rw [Function.update_of_ne h₁] at hm
        by_cases h₂ : e₂ = e
        · subst h₂
          rw [Function.update_self]
          intro hm'
          rcases List.mem_cons.1 hm' with rfl | hm'
          · exact hnp e₁ hm
          · exact h.disjoint e₁ e₂ hne m hm hm'
        · rw [Function.update_of_ne h₂]
          exact h.disjoint e₁ e₂ hne m hm

/-- A freed environment loses its pending list. -/
private theorem drop (h : NodesOk k free pend) (hs : k'.signos = k.signos) (hf : k'.signoFreeList = k.signoFreeList)
    (he : (k'.envs e).envStatus = .FREE) (hne : ∀ e', e' ≠ e → k'.envs e' = k.envs e') :
    NodesOk k' free (Function.update pend e []) := by
  have hlinks : k'.links = k.links := by funext n; rw [links, links, hs]
  have hsub : ∀ e' n, n ∈ Function.update pend e [] e' → n ∈ pend e' := by
    intro e' n hn
    by_cases heq : e' = e
    · subst heq
      rw [Function.update_self] at hn
      cases hn
    · rwa [Function.update_of_ne heq] at hn
  refine ⟨?_, fun e' he' => ?_, fun e' he' => ?_, fun e' n hn => h.disjoint_free e' n (hsub e' n hn),
    fun e₁ e₂ h₁₂ n hn hn' => h.disjoint e₁ e₂ h₁₂ n (hsub e₁ n hn) (hsub e₂ n hn')⟩
  · rw [hlinks, hf]; exact h.free_list
  · have heq : e' ≠ e := fun heq => he' (heq ▸ he)
    rw [hne e' heq] at he' ⊢
    rw [hlinks, Function.update_of_ne heq]
    exact h.pending e' he'
  · by_cases heq : e' = e
    · rw [heq, Function.update_self]
    · rw [hne e' heq] at he'
      rw [Function.update_of_ne heq]
      exact h.idle e' he'

/-- The pending list of the environment that was scanned: empty once a node was taken off its front. -/
def scannedList (k : Kern) (c : EnvPtr) (l : List SignoPtr) : List SignoPtr :=
  if l.head?.all (k.nodeBlocked c) then (k.sifted c l).kept else []

theorem scannedList_subset {l : List SignoPtr} {n : SignoPtr} (hn : n ∈ scannedList k c l) :
    n ∈ (k.sifted c l).kept := by
  unfold scannedList at hn
  split at hn
  · exact hn
  · cases hn

theorem scannedList_of_keepsRest {l : List SignoPtr} (hk : k.keepsRest c l) :
    scannedList k c l = (k.sifted c l).kept := by
  unfold scannedList
  split
  case isTrue => rfl
  case isFalse hb =>
    simp only [keepsRest, hb, Bool.false_or, List.isEmpty_iff] at hk
    exact hk.symm

private theorem head_kept {l : List SignoPtr} (hb : l.head?.all (k.nodeBlocked c)) :
    (k.sifted c l).kept.head? = l.head? := by
  cases l with
  | nil => rfl
  | cons n l =>
    have hb : k.nodeBlocked c n = true := by simpa using hb
    rw [sifted, sift_blocked hb]
    rfl

theorem scanned {fuel : Nat} {s : Scan} (h : NodesOk k free pend) (hlive : (k.envs c).envStatus ≠ .FREE)
    (hs : Kern.scan c fuel k none (k.envs c).signoHeader = some s) : Scanned k c none (pend c) free s :=
  (scan_spec (h.pending c hlive) h.free_list (h.disjoint_free c) (by intro f hf; cases hf)).1 s hs

/-- The scan comes to an end if it does not stop at a number that is no signal. -/
theorem scan_ends (h : NodesOk k free pend) (hlive : (k.envs c).envStatus ≠ .FREE)
    (hsome : ∀ n, (k.sifted c (pend c)).found = some n → (k.signos n).signal.isSome) :
    ∃ s, Kern.scan c (MAX_SIG_NUM + 1) k none (k.envs c).signoHeader = some s :=
  (scan_spec (h.pending c hlive) h.free_list (h.disjoint_free c) (by intro f hf; cases hf)).2 hsome
    (Nat.lt_succ_of_le (nodes_length (h.pending c hlive)))

/-- The scan moves the nodes that it takes off to the free list. -/
private theorem scan {fuel : Nat} {s : Scan} (h : NodesOk k free pend) (hlive : (k.envs c).envStatus ≠ .FREE)
    (hs : Kern.scan c fuel k none (k.envs c).signoHeader = some s) :
    NodesOk s.kern ((k.sifted c (pend c)).removed.reverse ++ free)
      (Function.update pend c (scannedList k c (pend c))) := by
  have hl := h.pending c hlive
  have hsc := h.scanned hlive hs
  have hframe := scan_frame hs
  have hst := hframe.field Env.envStatus fun _ _ _ => rfl
  have hperm := sift_perm (k.nodeBlocked c) (k.nodeIgnored c) (pend c)
  have hnd := hperm.nodup_iff.2 hl.nodup
  have hkept : ∀ n, n ∈ (k.sifted c (pend c)).kept → n ∈ pend c ∧ n ∉ (k.sifted c (pend c)).removed := fun n hn =>
    ⟨hperm.mem_iff.1 (List.mem_append_left _ hn), fun hr => (List.nodup_append.1 hnd).2.2 n hn n hr rfl⟩
  have hremoved : ∀ n, n ∈ (k.sifted c (pend c)).removed → n ∈ pend c := fun n hn =>
    hperm.mem_iff.1 (List.mem_append_right _ hn)
  have hsub : ∀ e n, n ∈ Function.update pend c (scannedList k c (pend c)) e → n ∈ pend e := by
    intro e n hn
    by_cases heq : e = c
    · subst heq
      rw [Function.update_self] at hn
      exact (hkept n (scannedList_subset hn)).1
    · rwa [Function.update_of_ne heq] at hn
  -- Where the head is taken off, the header becomes `NULL`, and what was behind it is in no list any more.
  refine ⟨hsc.free, fun e he => ?_, fun e he => ?_, fun e n hn hmem => ?_,
    fun e₁ e₂ h₁₂ n hn hn' => h.disjoint e₁ e₂ h₁₂ n (hsub e₁ n hn) (hsub e₂ n hn')⟩
  · by_cases heq : e = c
    · subst heq
      rw [Function.update_self, hsc.header, scannedList]
      cases hb : (pend e).head?.all (k.nodeBlocked e) with
      | true =>
        have hany : ¬(none = (none : Option SignoPtr) ∧ (pend e).head?.any fun n => !k.nodeBlocked e n) := by
          rintro ⟨-, ha⟩
          cases hhead : (pend e).head? with
          | none => simp [hhead] at ha
          | some n => simp_all
        rw [if_neg hany, if_pos rfl, hl.head_eq, ← head_kept hb]
        exact hsc.kept
      | false =>
        have hany : none = (none : Option SignoPtr) ∧ (pend e).head?.any fun n => !k.nodeBlocked e n := by
          refine ⟨rfl, ?_⟩
          cases hhead : (pend e).head? with
          | none => simp [hhead] at hb
          | some n => simpa [hhead] using hb
        rw [if_pos hany]
        exact SList.nil _
    · rw [hst] at he
      rw [Function.update_of_ne heq, hframe.envs_of_ne heq]
      refine (h.pending e he).congr fun n hn => links_eq_of_signos_eq (hsc.others n ?_ nofun)
      exact h.disjoint e c heq n hn
  · have heq : e ≠ c := fun heq => hlive (heq ▸ (hst e).symm.trans he)
    rw [hst] at he
    rw [Function.update_of_ne heq]
    exact h.idle e he
  · rcases List.mem_append.1 hmem with hr | hf
    · have hr := hremoved n (List.mem_reverse.1 hr)
      by_cases heq : e = c
      · subst heq
        rw [Function.update_self] at hn
        exact (hkept n (scannedList_subset hn)).2 (List.mem_reverse.1 (by assumption))
      · exact h.disjoint e c heq n (hsub e n hn) hr
    · exact h.disjoint_free e n (hsub e n hn) hf

/-- The scan loses no node if it keeps what has to stay. -/
private theorem full_scan (hfull : Full free pend) (hk : k.keepsRest c (pend c)) :
    Full ((k.sifted c (pend c)).removed.reverse ++ free) (Function.update pend c (scannedList k c (pend c))) := by
  intro n
  rcases hfull n with hn | ⟨e, hn⟩
  · exact .inl (List.mem_append_right _ hn)
  · by_cases heq : e = c
    · subst heq
      have hperm := sift_perm (k.nodeBlocked e) (k.nodeIgnored e) (pend e)
      rcases List.mem_append.1 (hperm.mem_iff.2 hn) with hkept | hr
      · exact .inr ⟨e, by rw [Function.update_self, scannedList_of_keepsRest hk]; exact hkept⟩
      · exact .inl (List.mem_append_left _ (List.mem_reverse.2 hr))
    · exact .inr ⟨e, by rwa [Function.update_of_ne heq]⟩

/-- `_do_signal` does to the nodes what its scan does. -/
theorem doSignal {tf tf' : Trapframe} (h : NodesOk k free pend) (hlive : (k.envs c).envStatus ≠ .FREE)
    (hd : k.doSignal c tf = some (k', tf')) :
    NodesOk k' ((k.sifted c (pend c)).removed.reverse ++ free)
      (Function.update pend c (scannedList k c (pend c))) := by
  obtain ⟨s, hs, hd⟩ := doSignal_cases hd
  have hscan := h.scan hlive hs
  rcases hd with ⟨-, rfl, -⟩ | ⟨signo, -, hpush⟩
  · exact hscan
  · obtain ⟨-, -, m, rfl⟩ := pushSignal_cases hpush
    exact hscan.same ((SameNodes.setUmem s.kern m).trans (SameNodes.setEnv_same rfl rfl))

theorem destroy {left : Bool} (h : NodesOk k free pend) (hd : k.envDestroy e = some (k', left)) :
    NodesOk k' free (Function.update pend e []) := by
  obtain ⟨k₁, hk₁, hd⟩ := envDestroy_cases hd
  obtain ⟨pgdir, pm, q, -, -, -, rfl⟩ := envFree_cases hk₁
  have hfreed : NodesOk (k.freed e pm q) free (Function.update pend e []) := by
    refine h.drop rfl rfl ?_ fun e' he' => ?_
    · rw [freed, setEnv_self]
    · rw [freed, setEnv_of_ne he']; rfl
  rcases hd with ⟨-, -, hs⟩ | ⟨-, -, rfl⟩
  · have hcur : SameNodes (k.freed e pm q) ((k.freed e pm q).setCurenv none) :=
      .of_envs rfl rfl (fun _ => rfl) fun _ => rfl
    exact hfreed.same (hcur.trans (SameNodes.schedule hs))
  · exact hfreed

end NodesOk

/-! ### Runs -/

/-- The environment that `sys_env_destroy` frees has no signals pending. -/
def callPoolAdmits (k : Kern) (cur : EnvPtr) : Call → Bool
  | .envDestroy envid => (k.envid2env cur envid true).all fun e => (k.envs e).signoHeader.isNone
  | _ => true

/-- The step loses no node: `_do_signal` keeps what has to stay, and a freed environment has no signals pending. -/
def poolAdmits (s : State) (_ : Event) : Bool :=
  match s.phase with
  | .leaving _ => s.kern.curenv.all fun c => s.kern.keepsRest c (s.kern.pendingOf c)
  | .entered (.syscall _) => s.kern.onCall callPoolAdmits
  | _ => true

namespace NodesOk

variable {k k' : Kern} {free : List SignoPtr} {pend : EnvPtr → List SignoPtr} {e c : EnvPtr}

private theorem full_kill {n : SignoPtr} {free' : List SignoPtr} (hfull : Full (n :: free') pend) :
    Full free' (Function.update pend e (n :: pend e)) := by
  intro m
  rcases hfull m with hm | ⟨e', hm⟩
  · rcases List.mem_cons.1 hm with rfl | hm
    · exact .inr ⟨e, by rw [Function.update_self]; exact List.mem_cons_self ..⟩
    · exact .inl hm
  · refine .inr ⟨e', ?_⟩
    by_cases heq : e' = e
    · subst heq
      rw [Function.update_self]
      exact List.mem_cons_of_mem _ hm
    · rwa [Function.update_of_ne heq]

/-- The lists after a call, and whether they still hold all nodes. -/
private theorem call {cur : EnvPtr} {c : Call} {r : Option Word} (h : NodesOk k free pend) (hlive : LiveOk k)
    (hcur : k.curenv = some cur) (hs : CallStep k cur c k' r) : ∃ free' pend', NodesOk k' free' pend' ∧
      (callPoolAdmits k cur c → Full free pend → Full free' pend') := by
  have hlive_cur := hlive.cur cur hcur
  rcases SameNodes.call hlive hcur hs with ⟨hsame, -⟩ | ⟨envid, signo, e, n, k₁, rfl, he, hn, rfl⟩ |
    ⟨envid, e, left, rfl, he, hd⟩
  · exact ⟨free, pend, h.same hsame, fun _ hfull => hfull⟩
  · obtain ⟨free', rfl, h'⟩ := h.kill (envid2env_live hlive_cur he) hn
    exact ⟨free', _, h', fun _ hfull => full_kill hfull⟩
  · refine ⟨free, _, h.destroy hd, fun hok hfull => ?_⟩
    have hnone : (k.envs e).signoHeader = none := by
      simpa [callPoolAdmits, he, Option.isNone_iff_eq_none] using hok
    have hnil : pend e = [] := by
      have hl := h.pending e (envid2env_live hlive_cur he)
      rw [hnone] at hl
      exact SList.unique hl (SList.nil _)
    rwa [← hnil, Function.update_eq_self]

private theorem served {va : Word} (h : NodesOk k free pend) (hlive : (k.envs c).envStatus ≠ .FREE)
    (hs : k.Served c va k') : ∃ free' pend', NodesOk k' free' pend' ∧ (Full free pend → Full free' pend') := by
  cases hs with
  | mapped => exact ⟨free, pend, h, id⟩
  | alloc _ _ ha =>
    obtain ⟨k₀, pp, pm, hsegv, -, -, hi⟩ := passiveAlloc_cases ha
    have hsame := (SameNodes.setPm k₀ pm).trans (SameNodes.pageInsertEnv hi)
    cases hsegv with
    | none => exact ⟨free, pend, h.same hsame, id⟩
    | sent _ hn =>
      obtain ⟨free', rfl, h'⟩ := h.kill hlive hn
      exact ⟨free', _, h'.same hsame, full_kill⟩

/-- Every step keeps the lists apart; an admitted one loses no node. -/
theorem step {s s' : State} {ev : Event} (h : NodesOk s.kern free pend) (hlive : LiveOk s.kern) (hs : Step s ev s') :
    ∃ free' pend', NodesOk s'.kern free' pend' ∧ (poolAdmits s ev → Full free pend → Full free' pend') := by
  cases hs with
  | create hc => exact ⟨free, pend, h.same (.create hlive hc), fun _ hfull => hfull⟩
  | evict => exact ⟨free, pend, h.same (.setPm _ _), fun _ hfull => hfull⟩
  | idle => exact ⟨free, pend, h, fun _ hfull => hfull⟩
  | save => exact ⟨free, pend, h.same ((SameNodes.setUmem _ _).trans (.setKtf _ _)), fun _ hfull => hfull⟩
  | tick hs => exact ⟨free, pend, h.same (.schedule hs), fun _ hfull => hfull⟩
  | noSys => exact ⟨free, pend, h.same (.setKtf _ _), fun _ hfull => hfull⟩
  | @call k _ _ _ _ _ hc hd hs =>
    obtain ⟨free', pend', h', hfull⟩ := call (k := k.skipInsn) (h.same (.setKtf _ _)) (hlive.setKtf _) hc hs
    exact ⟨free', pend', h'.same (.setKtf _ _), fun hok => hfull ((onCall_eq hc hd).symm.trans hok)⟩
  | @left k _ _ _ _ hc hd hs =>
    obtain ⟨free', pend', h', hfull⟩ := call (k := k.skipInsn) (h.same (.setKtf _ _)) (hlive.setKtf _) hc hs
    exact ⟨free', pend', h', fun hok => hfull ((onCall_eq hc hd).symm.trans hok)⟩
  | tlbMiss hc _ hs =>
    obtain ⟨free', pend', h', hfull⟩ := h.served (hlive.cur _ hc) hs
    exact ⟨free', pend', h'.same (.setPm _ _), fun _ => hfull⟩
  | tlbMod => exact ⟨free, pend, h.same ((SameNodes.setUmem _ _).trans (.setKtf _ _)), fun _ hfull => hfull⟩
  | @ret k k₁ c returned tf hc hd =>
    have hlive_c := hlive.cur c hc
    have hstore : SameNodes k₁ (k₁.storeTf c returned tf) := by
      unfold storeTf
      split
      · exact .setKtf _ _
      · exact .setEnv_same rfl rfl
    refine ⟨_, _, (h.doSignal hlive_c hd).same (hstore.trans (.setCpu _ _)), fun hok hfull => ?_⟩
    have hok : k.keepsRest c (k.pendingOf c) := by
      simpa [poolAdmits, show k.curenv = some c from hc] using hok
    rw [pendingOf_eq (h.pending c hlive_c)] at hok
    exact full_scan hfull hok

/-- After `signo_init` all nodes are free. -/
theorem boot (mc : Machine) {free : List SignoPtr} (hfree : free = List.finRange MAX_SIG_NUM) :
    NodesOk mc.bootKern free (fun _ => []) where
  free_list := SList.of_finRange hfree rfl fun _ => rfl
  pending _ he := absurd rfl he
  idle _ _ := rfl
  disjoint_free _ _ hn := nomatch hn
  disjoint _ _ _ _ hn := nomatch hn

end NodesOk

private theorem PoolOk.of_full {k : Kern} {free : List SignoPtr} {pend : EnvPtr → List SignoPtr} (h : NodesOk k free pend)
    (hfull : Full free pend) : PoolOk k := by
  refine ⟨free, pend, h.free_list, h.pending, fun n => ?_⟩
  rcases hfull n with hn | ⟨e, hn⟩
  · exact .inl ⟨hn, fun e _ hm => h.disjoint_free e n hm hn⟩
  · have hlive : (k.envs e).envStatus ≠ .FREE := fun hfree => by
      rw [h.idle e hfree] at hn
      cases hn
    refine .inr ⟨h.disjoint_free e n hn, e, ⟨hlive, hn⟩, fun e' he' => ?_⟩
    exact Classical.byContradiction fun hne => h.disjoint e' e hne n he'.2 hn

/-- A node that is in its place is found by following the pointers. -/
private theorem PoolOk.mem {k : Kern} (h : PoolOk k) (n : SignoPtr) :
    n ∈ k.freeNodes ∨ ∃ e, n ∈ k.pendingOf e := by
  obtain ⟨free, pend, hfree, hpend, hplace⟩ := h
  rcases hplace n with ⟨hn, -⟩ | ⟨-, e, ⟨hlive, hn⟩, -⟩
  · rw [freeNodes_eq hfree]
    exact .inl hn
  · refine .inr ⟨e, ?_⟩
    rw [pendingOf_eq (hpend e hlive)]
    exact hn

/-- In every run the lists of nodes are apart. -/
theorem nodesOk_of_reach {ok : State → Event → Prop} {s : State} (h : kernel.Reach ok s) :
    LiveOk s.kern ∧ ∃ free pend, NodesOk s.kern free pend := by
  refine h.invariant (I := fun s => LiveOk s.kern ∧ ∃ free pend, NodesOk s.kern free pend) ?_ ?_
  · intro s hs
    obtain ⟨mc, rfl⟩ := init_iff.1 hs
    exact ⟨.boot mc, _, _, .boot mc rfl⟩
  · rintro s ev s' ⟨hlive, free, pend, h⟩ - hs
    obtain ⟨free', pend', h', -⟩ := h.step hlive (State.step_cases hs)
    exact ⟨hlive.step (State.step_cases hs), free', pend', h'⟩

/-- In every run whose steps are all admitted, every node is in exactly one place. -/
theorem poolOk_of_reach {s : State} (h : kernel.Reach (fun s ev => poolAdmits s ev) s) : PoolOk s.kern := by
  have hinv : LiveOk s.kern ∧ ∃ free pend, NodesOk s.kern free pend ∧ Full free pend := by
    refine h.invariant (I := fun s => LiveOk s.kern ∧ ∃ free pend, NodesOk s.kern free pend ∧ Full free pend) ?_ ?_
    · intro s hs
      obtain ⟨mc, rfl⟩ := init_iff.1 hs
      exact ⟨.boot mc, _, _, .boot mc rfl, fun n => .inl (List.mem_finRange n)⟩
    · rintro s ev s' ⟨hlive, free, pend, h, hfull⟩ hok hs
      obtain ⟨free', pend', h', hfull'⟩ := h.step hlive (State.step_cases hs)
      exact ⟨hlive.step (State.step_cases hs), free', pend', h', hfull' hok hfull⟩
  obtain ⟨-, free, pend, hn, hfull⟩ := hinv
  exact .of_full hn hfull

/-- A parent sends its child a signal that the child ignores. -/
def sendIgnored : List Event :=
  .create .empty 1 :: tickEvents ++ callEvents 9 0 0 0 ++ callEvents 10 0x1001 1 0 ++ callEvents 20 0x1001 10 0 ++
    callEvents 3 0 0 0

private theorem sendIgnored_isSome : (Machine.gxemul.after poolAdmits sendIgnored).isSome := by decide +kernel

theorem poolOk_sendIgnored : PoolOk ((Machine.gxemul.after poolAdmits sendIgnored).get sendIgnored_isSome).kern :=
  poolOk_of_reach (Machine.after_reach (Option.some_get _).symm)

/-- A parent blocks signal 12 and sends its child, which inherits the mask, signal 12 and then the ignored 10. -/
def sendBlocked : List Event :=
  .create .empty 1 :: tickEvents ++
    trapEvents (argRegs 19 SIG_BLOCK UTEXT 0) (fun a => if a = UTEXT then 1 <<< 12 else 0) (.syscall 0) ++
    callEvents 9 0 0 0 ++ callEvents 10 0x1001 1 0 ++ callEvents 20 0x1001 12 0 ++ callEvents 20 0x1001 10 0 ++
    callEvents 3 0 0 0

/-- Signal 10 is taken off the front, and the node of signal 12 is nowhere. -/
private theorem sendBlocked_lost : (Machine.gxemul.after (fun _ _ => true) sendBlocked).any (fun s =>
    s.inUser && !s.kern.freeNodes.contains 0 &&
      (List.finRange NENV).all fun e => (s.kern.envs e).signoHeader.isNone) := by
  decide +kernel

theorem exists_not_poolOk : ∃ s, kernel.Reach (fun _ _ => True) s ∧ s.inUser ∧ ¬PoolOk s.kern := by
  obtain ⟨s, hs, hlost⟩ := (Option.any_eq_true _ _).1 sendBlocked_lost
  simp only [Bool.and_eq_true, Bool.not_eq_true', List.all_eq_true, List.mem_finRange, forall_const,
    Option.isNone_iff_eq_none] at hlost
  obtain ⟨⟨huser, hfree⟩, hnone⟩ := hlost
  refine ⟨s, (Machine.after_reach hs).mono fun _ _ _ => trivial, huser, fun hok => ?_⟩
  rcases hok.mem 0 with hn | ⟨e, hn⟩
  · rw [List.contains_eq_mem, decide_eq_false_iff_not] at hfree
    exact hfree hn
  · rw [pendingOf_eq (show SList s.kern.links (s.kern.envs e).signoHeader [] from hnone e)] at hn
    cases hn

end Mos
