import Mos.Inv.Counts
import Mos.Inv.Tlb
import Mos.Inv.Window

/-!
# Coherence of the TLB

The invariant of `Mos.Inv.Tlb` for the whole system: every live environment has a directory and an ASID of its own, and
every entry of the TLB that the running environment hits is the one stored in its page table.
-/

namespace Mos

open Kern

/-! ### Directories and ASIDs -/

/-- No environment gets or loses its directory or its ASID. -/
structure SameSpace (k k' : Kern) : Prop where
  free : ∀ e, (k'.envs e).envStatus = .FREE ↔ (k.envs e).envStatus = .FREE
  pgdir : ∀ e, (k'.envs e).envPgdir = (k.envs e).envPgdir
  asid : ∀ e, (k'.envs e).envAsid = (k.envs e).envAsid
  bitmap : k'.asidBitmap = k.asidBitmap

namespace SameSpace

variable {k k' k₁ : Kern} {e c : EnvPtr}

private theorem refl (k : Kern) : SameSpace k k := ⟨fun _ => Iff.rfl, fun _ => rfl, fun _ => rfl, rfl⟩

private theorem trans (h : SameSpace k k₁) (h' : SameSpace k₁ k') : SameSpace k k' :=
  ⟨fun e => (h'.free e).trans (h.free e), fun e => (h'.pgdir e).trans (h.pgdir e),
    fun e => (h'.asid e).trans (h.asid e), h'.bitmap.trans h.bitmap⟩

private theorem dirs (h : SameSpace k k') : k'.dirs = k.dirs := dirs_congr h.free h.pgdir

/-- Writing other fields of an environment. -/
private theorem setEnv (h : SameSpace k k₁) {f : Env → Env}
    (hst : (f (k₁.envs e)).envStatus = .FREE ↔ (k₁.envs e).envStatus = .FREE)
    (hdir : (f (k₁.envs e)).envPgdir = (k₁.envs e).envPgdir) (hasid : (f (k₁.envs e)).envAsid = (k₁.envs e).envAsid) :
    SameSpace k (k₁.setEnv e f) := by
  refine h.trans ⟨fun e' => ?_, setEnv_field Env.envPgdir hdir, setEnv_field Env.envAsid hasid, rfl⟩
  by_cases he : e' = e
  · rw [he, setEnv_self]
    exact hst
  · rw [setEnv_of_ne he]

private theorem setPm (k : Kern) (pm : Pmap) : SameSpace k (k.setPm pm) :=
  ⟨fun _ => Iff.rfl, fun _ => rfl, fun _ => rfl, rfl⟩

private theorem setSched (k : Kern) (q : TailQueue EnvPtr) : SameSpace k (k.setSched q) :=
  ⟨fun _ => Iff.rfl, fun _ => rfl, fun _ => rfl, rfl⟩

private theorem setKtf (k : Kern) (tf : Trapframe) : SameSpace k (k.setKtf tf) :=
  ⟨fun _ => Iff.rfl, fun _ => rfl, fun _ => rfl, rfl⟩

private theorem setUmem (k : Kern) (m : Word → Word) : SameSpace k (k.setUmem m) :=
  ⟨fun _ => Iff.rfl, fun _ => rfl, fun _ => rfl, rfl⟩

theorem schedule {yield : Bool} (hs : k.schedule yield = some k') : SameSpace k k' := by
  obtain ⟨q, n, e, -, rfl, -⟩ := schedule_cases hs
  refine ⟨fun e' => ?_, running_field Env.envPgdir (fun _ _ => rfl) (fun _ _ => rfl) k q n e,
    running_field Env.envAsid (fun _ _ => rfl) (fun _ _ => rfl) k q n e, ?_⟩
  · rw [running_field Env.envStatus (fun _ _ => rfl) (fun _ _ => rfl) k q n e e']
  · unfold running Kern.saveTf
    split <;> rfl

private theorem setTf (k : Kern) (cur e : EnvPtr) (frame : Trapframe) : SameSpace k (k.setTf cur e frame) := by
  unfold Kern.setTf
  split
  · exact setKtf k frame
  · exact (refl k).setEnv Iff.rfl rfl rfl

private theorem pended {signo : Word} {n : SignoPtr} (hn : k.signoAlloc signo = some (n, k₁)) (e : EnvPtr) :
    SameSpace k (k₁.pended e n) := by
  obtain ⟨-, rfl⟩ := signoAlloc_cases hn
  refine setEnv ?_ Iff.rfl rfl rfl
  exact ⟨fun _ => Iff.rfl, fun _ => rfl, fun _ => rfl, rfl⟩

private theorem pageInsertEnv {pp : Nat} {va perm r : Word} (hi : k.pageInsertEnv e pp va perm = some (r, k')) :
    SameSpace k k' := by
  obtain ⟨_, pm, _, _, rfl⟩ := pageInsertEnv_cases hi
  exact setPm k pm

private theorem ipcWake (hlive : (k.envs e).envStatus ≠ .FREE) (cur : EnvPtr) (value perm : Word) (q : TailQueue EnvPtr) :
    SameSpace k (k.ipcWake cur e value perm q) :=
  (setSched k q).setEnv ⟨nofun, fun h => absurd h hlive⟩ rfl rfl

theorem sigFrame (hf : SigFrame c k k') : SameSpace k k' := by
  refine ⟨fun e => ?_, hf.field Env.envPgdir fun _ _ _ => rfl, hf.field Env.envAsid fun _ _ _ => rfl, ?_⟩
  · rw [hf.field Env.envStatus (fun _ _ _ => rfl) e]
  · obtain ⟨_, _, _, _, _, rfl⟩ := hf
    rfl

theorem storeTf (k : Kern) (c : EnvPtr) (returned : Bool) (tf : Trapframe) : SameSpace k (k.storeTf c returned tf) := by
  unfold Kern.storeTf
  split
  · exact setKtf k tf
  · exact (refl k).setEnv Iff.rfl rfl rfl

theorem served {va : Word} (hs : k.Served c va k') : SameSpace k k' := by
  cases hs with
  | mapped => exact refl k
  | alloc _ _ ha =>
    obtain ⟨k₀, pp, pm, hsegv, -, -, hi⟩ := passiveAlloc_cases ha
    cases hsegv with
    | none => exact (setPm k pm).trans (pageInsertEnv hi)
    | sent _ hn => exact ((pended hn c).trans (setPm _ pm)).trans (pageInsertEnv hi)

/-- Only `sys_exofork` and `sys_env_destroy` concern directories and ASIDs. -/
theorem call {cur : EnvPtr} {call : Call} {r : Option Word} (hs : CallStep k cur call k' r)
    (hcur : (k.envs cur).envStatus ≠ .FREE) (hf : call ≠ .exofork) (hd : ∀ envid, call ≠ .envDestroy envid) :
    SameSpace k k' := by
  cases hs with
  | unchanged => exact refl k
  | yield hs => exact schedule hs
  | @envDestroy envid => exact absurd rfl (hd envid)
  | exofork => exact absurd rfl hf
  | setTlbModEntry => exact (refl k).setEnv Iff.rfl rfl rfl
  | @memAlloc _ _ _ _ _ _ pm _ _ _ _ hi => exact (setPm k pm).trans (pageInsertEnv hi)
  | memMap _ _ _ _ _ hi => exact pageInsertEnv hi
  | memUnmap => exact setPm k _
  | @setEnvStatus _ _ _ e _ hst he hset =>
    obtain ⟨q, -, rfl⟩ := Option.map_eq_some_iff.1 hset
    exact (setSched k q).setEnv
      ⟨fun h => absurd h (LiveOk.legalStatus_ne_free hst), fun h => absurd h (envid2env_live hcur he)⟩ rfl rfl
  | setTrapframe => exact setTf k cur _ _
  | ipcWoken _ he => exact ipcWake (envid2env_live hcur he) ..
  | ipcPage _ he _ _ _ _ hi => exact (ipcWake (envid2env_live hcur he) ..).trans (pageInsertEnv hi)
  | @ipcRecv dstva _ _ hs =>
    have hwait : SameSpace k (k.ipcWait cur dstva) :=
      (setKtf k _).setEnv ⟨nofun, fun h => absurd h hcur⟩ rfl rfl
    exact hwait.trans (schedule hs)
  | @sigaction _ _ _ _ m => exact (setUmem k m).setEnv Iff.rfl rfl rfl
  | @sigprocmask _ _ _ _ m => exact (setUmem k m).setEnv Iff.rfl rfl rfl
  | kill _ hn => exact pended hn _
  | @backDoSignal _ _ _ _ e frame => exact (setTf k cur e frame).setEnv Iff.rfl rfl rfl
  | setSigEntry => exact (refl k).setEnv Iff.rfl rfl rfl

end SameSpace

/-! ### Steps that keep the TLB coherent -/

namespace Kern

/-- The next environment gets a directory and an ASID of its own. -/
def spaceFree (k : Kern) : Bool :=
  k.envFreeList.isEmpty || (!k.pm.pageFreeList.isEmpty && (List.finRange 64).any fun i => !k.asidBitmap i)

/-- The TLB shows nothing of the directory of `e` from index `PDX ULIM` on. -/
def tlbClear (k : Kern) (e : EnvPtr) : Bool :=
  k.pm.tlb.all fun t => !(t.asid = (k.envs e).envAsid && t.vpn.1 = PDX UVPT && PDX ULIM ≤ t.vpn.2)

def callTlbAdmits (k : Kern) (cur : EnvPtr) : Call → Bool
  | .exofork => k.spaceFree
  | .envDestroy envid => (k.envid2env cur envid true).all k.tlbClear
  | c => (k.insertion cur c).all fun x => k.insertable x && !has x.perm PTE_G

theorem spaceFree_cons {k : Kern} {e : EnvPtr} {rest : List EnvPtr} (h : k.spaceFree = true)
    (hl : k.envFreeList = e :: rest) : k.pm.pageFreeList ≠ [] ∧ ∃ i, k.asidBitmap i = false := by
  rw [spaceFree, hl, List.isEmpty_cons, Bool.false_or, Bool.and_eq_true] at h
  obtain ⟨hpage, hasid⟩ := h
  obtain ⟨i, -, hi⟩ := List.any_eq_true.1 hasid
  exact ⟨by simpa using hpage, i, by simpa using hi⟩

theorem vmFree_of_spaceFree {k : Kern} (h : k.spaceFree = true) : k.vmFree = true := by
  cases hl : k.envFreeList with
  | nil => rw [vmFree, hl]
  | cons e rest =>
    have hpage := (spaceFree_cons h hl).1
    rw [vmFree, hl]
    simp [hpage]

private theorem callMemAdmits_of_tlb {k : Kern} {cur : EnvPtr} {c : Call} (h : callTlbAdmits k cur c = true) :
    callMemAdmits k cur c = true := by
  have hins : ∀ c, (k.insertion cur c).all (fun x => k.insertable x && !has x.perm PTE_G) = true →
      (k.insertion cur c).all k.insertable = true := by
    intro c hc
    rw [Option.all_eq_true] at hc ⊢
    intro x hx
    exact (Bool.and_eq_true_iff.1 (hc x hx)).1
  cases c with
  | exofork => exact vmFree_of_spaceFree h
  | memAlloc => exact hins _ h
  | memMap => exact hins _ h
  | ipcTrySend => exact hins _ h
  | _ => rfl

private theorem callPolicy_of_tlb {k : Kern} {cur : EnvPtr} {c : Call} (h : callTlbAdmits k cur c = true) :
    CallPolicy tlbPolicy k cur c := by
  have hins : ∀ c, (k.insertion cur c).all (fun x => k.insertable x && !has x.perm PTE_G) = true →
      ∀ x, k.insertion cur c = some x → has x.perm PTE_G = false := by
    intro c hc x hx
    rw [hx, Option.all_some, Bool.and_eq_true] at hc
    simpa using hc.2
  constructor
  · intro x hx
    refine ⟨?_, trivial⟩
    cases c with
    | memAlloc => exact hins _ h x hx
    | memMap => exact hins _ h x hx
    | ipcTrySend => exact hins _ h x hx
    | _ => cases hx
  · rintro envid e d rfl he - t ht hasid hwin
    have hclear : (k.envid2env cur envid true).all k.tlbClear = true := h
    rw [he, Option.all_some, tlbClear, List.all_eq_true] at hclear
    have ht := hclear t ht
    simpa [hasid, hwin] using ht

end Kern

/-- Steps that keep the TLB coherent: the tables stay apart, no permission has `PTE_G`, a new environment gets a
directory and an ASID, and a directory is given up when the TLB shows nothing of it from index `PDX ULIM` on. -/
def tlbAdmits (s : State) (ev : Event) : Bool := s.admits spaceFree callTlbAdmits ev

private theorem memAdmits_of_tlb {s : State} {ev : Event} (h : tlbAdmits s ev = true) : memAdmits s ev = true := by
  rw [memAdmits_eq]
  exact State.admits_mono h (fun _ => vmFree_of_spaceFree) fun _ _ _ => callMemAdmits_of_tlb

private theorem stepPolicy_of_tlb {s : State} {ev : Event} (h : tlbAdmits s ev = true) : StepPolicy tlbPolicy s ev :=
  fun _ _ hc => callPolicy_of_tlb (State.admits_call h hc).2

/-! ### The invariant -/

/-- The ASIDs of the slots. -/
def Kern.asids (k : Kern) (e : EnvPtr) : Asid := (k.envs e).envAsid

/-- Every live environment has a directory and an ASID of its own, and the TLB agrees with the page tables. -/
structure CohOk (mc : Machine) (k : Kern) : Prop where
  mem : ∃ leak, MemOk mc leak k
  tlb : TlbOk mc k.asids k.mem
  dir : ∀ e, (k.envs e).envStatus ≠ .FREE → k.dirs e ≠ none
  bitmap : ∀ e, (k.envs e).envStatus ≠ .FREE → k.asidBitmap (k.asids e) = true

namespace CohOk

variable {mc : Machine} {k k' : Kern} {e cur : EnvPtr} {c : Call}

private theorem live_of_dirs (h : k.dirs e ≠ none) : (k.envs e).envStatus ≠ .FREE := fun hf => h (dirs_of_free hf)

/-- Another environment with a directory has another ASID. -/
private theorem asid_ne (h : CohOk mc k) (hlive : (k.envs e).envStatus ≠ .FREE) (e' : EnvPtr) (he : e' ≠ e)
    (hd : k.dirs e' ≠ none) : k.asids e' ≠ k.asids e :=
  fun heq => he (h.tlb.asids e' e hd (h.dir e hlive) heq)

/-- Small steps for a live environment, which keep directories and ASIDs. -/
private theorem of_moves (h : CohOk mc k) (hlive : (k.envs e).envStatus ≠ .FREE) (hs : SameSpace k k')
    (hm : Moves mc tlbPolicy e (k'.envs e).envAsid k.mem k'.mem) (hmem : ∃ leak, MemOk mc leak k') : CohOk mc k' := by
  obtain ⟨leak, hk⟩ := h.mem
  have hasids : k'.asids = k.asids := funext hs.asid
  rw [hs.asid e] at hm
  refine ⟨hmem, ?_, fun e' he' => ?_, fun e' he' => ?_⟩
  · rw [hasids]
    exact h.tlb.moves hk.mem hm fun e' he => h.asid_ne hlive e' he
  · rw [hs.dirs]
    exact h.dir e' fun hf => he' ((hs.free e').2 hf)
  · rw [hs.bitmap, hasids]
    exact h.bitmap e' fun hf => he' ((hs.free e').2 hf)

/-- Steps that do not concern the memory. -/
private theorem same (h : CohOk mc k) (hs : SameSpace k k') (hpm : k'.mem = k.mem) (hmem : ∃ leak, MemOk mc leak k') :
    CohOk mc k' := by
  have hasids : k'.asids = k.asids := funext hs.asid
  refine ⟨hmem, ?_, fun e' he' => ?_, fun e' he' => ?_⟩
  · rw [hasids, hpm]
    exact h.tlb
  · rw [hs.dirs]
    exact h.dir e' fun hf => he' ((hs.free e').2 hf)
  · rw [hs.bitmap, hasids]
    exact h.bitmap e' fun hf => he' ((hs.free e').2 hf)

/-- A new environment, with a directory and an ASID that no other environment has. -/
private theorem alloc (h : CohOk mc k) {rest : List EnvPtr} {pgdir : Option Nat} {pm : Pmap} {asid : Asid}
    {bitmap : Asid → Bool} (hfree : k.spaceFree = true) (hl : k.envFreeList = e :: rest) (hvm : k.VmSetup e pgdir pm)
    (has : k.AsidSetup e asid bitmap) (hasid : k'.asids = Function.update k.asids e asid)
    (hother : ∀ e', e' ≠ e → (k'.envs e').envStatus = (k.envs e').envStatus)
    (hdirs : k'.dirs = Function.update k.dirs e pgdir) (hbit : k'.asidBitmap = bitmap)
    (hm : Moves mc tlbPolicy e (k'.asids e) k.mem k'.mem) (hmem : ∃ leak, MemOk mc leak k') : CohOk mc k' := by
  obtain ⟨leak, hk⟩ := h.mem
  obtain ⟨hpage, i, hi⟩ := spaceFree_cons hfree hl
  have hnone : k.dirs e = none := dirs_of_free (hk.live.free e (by rw [hl]; exact List.mem_cons_self ..))
  obtain ⟨p, rfl⟩ : ∃ p, pgdir = some p := by
    cases hvm with
    | ok => exact ⟨_, rfl⟩
    | full hfull =>
      cases hl : k.pm.pageFreeList with
      | nil => exact absurd hl hpage
      | cons q rest =>
        rw [Pmap.envSetupVm, Pmap.pageAlloc, hl] at hfull
        cases hfull
  obtain ⟨hnew, rfl⟩ : k.asidBitmap asid = false ∧ bitmap = Function.update k.asidBitmap asid true := by
    cases has with
    | ok hfree => exact ⟨hfree, rfl⟩
    | full hfull =>
      rw [hfull i] at hi
      cases hi
  -- The ASID is one that no live environment has.
  have hne : ∀ e', (k.envs e').envStatus ≠ .FREE → k.asids e' ≠ asid := by
    rintro e' hlive rfl
    rw [h.bitmap e' hlive] at hnew
    cases hnew
  have hself : k'.asids e = asid := by rw [hasid, Function.update_self]
  refine ⟨hmem, ?_, fun e' he' => ?_, fun e' he' => ?_⟩
  · have hold : TlbOk mc k'.asids k.mem := by
      refine h.tlb.congr fun e' hd => ?_
      have he : e' ≠ e := fun he => hd (he ▸ hnone)
      rw [hasid, Function.update_of_ne he]
    refine hold.moves hk.mem hm fun e' he hd => ?_
    rw [hself, hasid, Function.update_of_ne he]
    exact hne e' (live_of_dirs hd)
  · rw [hdirs]
    by_cases he : e' = e
    · rw [he, Function.update_self]
      intro h
      cases h
    · rw [Function.update_of_ne he]
      rw [hother e' he] at he'
      exact h.dir e' he'
  · rw [hbit]
    by_cases he : e' = e
    · rw [he, hself, Function.update_self]
    · rw [hother e' he] at he'
      rw [hasid, Function.update_of_ne he, Function.update_of_ne (hne e' he')]
      exact h.bitmap e' he'

/-- The ASIDs, the statuses and the directories after `env_alloc` and what its caller writes. -/
private theorem allocated_asids (k : Kern) (e : EnvPtr) (rest : List EnvPtr) (pgdir : Option Nat) (pm : Pmap) (asid : Asid)
    (bitmap : Asid → Bool) (parentId : Word) {f : Env → Env} (hf : ∀ env, (f env).envAsid = env.envAsid) :
    ((k.allocated e rest pgdir pm asid bitmap parentId).setEnv e f).asids = Function.update k.asids e asid := by
  funext e'
  by_cases he : e' = e
  · subst he
    rw [Function.update_self, Kern.asids, setEnv_self, hf, allocated, setEnv_self]
    rfl
  · rw [Function.update_of_ne he, Kern.asids, setEnv_of_ne he, allocated, setEnv_of_ne he]
    rfl

private theorem create {binary : Image} {priority : Word} (h : CohOk mc k) (hfree : k.spaceFree = true)
    (hc : k.envCreate binary priority = some k') : CohOk mc k' := by
  obtain ⟨leak, hk⟩ := h.mem
  have hvm := vmFree_of_spaceFree hfree
  obtain ⟨leak', hk', -⟩ : ∃ leak', MemOk mc leak' k' ∧
      ((∀ asid d m, tlbPolicy.drop asid d m → Mem.NoJunk d m) → leak' = leak) := hk.create hvm hc
  obtain ⟨e, hhead, hm⟩ : ∃ e, k.envFreeList.head? = some e ∧
      Moves mc tlbPolicy e (k'.envs e).envAsid k.mem k'.mem := hk.create_moves hvm hc
  obtain ⟨e', k₁, pgdir, pm, hal, hp, -, rfl⟩ := envCreate_cases hc
  obtain ⟨rest, pgdir', pm₁, asid, bitmap, hl, hvmset, has, rfl⟩ := envAlloc_cases hal
  rw [hl] at hhead
  obtain rfl := Option.some.inj hhead
  have hasids := allocated_asids k e' rest pgdir' pm₁ asid bitmap 0 (f := fun env => { env with
    envPri := priority
    envStatus := .RUNNABLE
    envTf := { env.envTf with cp0Epc := binary.entry } }) fun _ => rfl
  have hdirs := dirs_allocated k e' rest pgdir' pm₁ asid bitmap 0 (f := fun env => { env with
    envPri := priority
    envStatus := .RUNNABLE
    envTf := { env.envTf with cp0Epc := binary.entry } }) (fun _ => nofun) fun _ => rfl
  refine h.alloc hfree hl hvmset has hasids (fun e₁ he => ?_) hdirs rfl hm ⟨leak', hk'⟩
  rw [created, setSched_envs, setEnv_of_ne he, setPm_envs, allocated, setEnv_of_ne he]
  rfl

private theorem fork {r : Option Word} (h : CohOk mc k) (hs : CallStep k cur .exofork k' r)
    (ha : callTlbAdmits k cur .exofork = true) (hmem : ∃ leak, MemOk mc leak k') : CohOk mc k' := by
  obtain ⟨leak, hk⟩ := h.mem
  cases hs with
  | unchanged => exact h
  | @exofork e k₁ hal =>
    obtain ⟨rest, pgdir, pm, asid, bitmap, hl, hvm, has, rfl⟩ := envAlloc_cases hal
    have hm : Moves mc tlbPolicy e asid k.mem ⟨Function.update k.dirs e pgdir, pm⟩ :=
      hk.alloc_moves hl hvm (vmFree_of_spaceFree ha) asid
    have hasids := allocated_asids k e rest pgdir pm asid bitmap (k.envs cur).envId
      (f := (k.allocated e rest pgdir pm asid bitmap (k.envs cur).envId).forkEnv cur) fun _ => rfl
    have hdirs := dirs_allocated k e rest pgdir pm asid bitmap (k.envs cur).envId
      (f := (k.allocated e rest pgdir pm asid bitmap (k.envs cur).envId).forkEnv cur) (fun _ => nofun) fun _ => rfl
    refine h.alloc ha hl hvm has hasids (fun e₁ he => ?_) hdirs rfl ?_ hmem
    · rw [setEnv_of_ne he, allocated, setEnv_of_ne he]
      rfl
    · have hmem : Kern.mem ((k.allocated e rest pgdir pm asid bitmap (k.envs cur).envId).setEnv e
          ((k.allocated e rest pgdir pm asid bitmap (k.envs cur).envId).forkEnv cur)) =
          ⟨Function.update k.dirs e pgdir, pm⟩ := by
        rw [Kern.mem, hdirs]
        rfl
      rw [hasids, Function.update_self, hmem]
      exact hm

/-- Giving up an environment gives up its ASID. -/
private theorem destroy {envid : Word} {r : Option Word} (h : CohOk mc k) (hs : CallStep k cur (.envDestroy envid) k' r)
    (hcur : (k.envs cur).envStatus ≠ .FREE) (ha : callTlbAdmits k cur (.envDestroy envid) = true)
    (hmem : ∃ leak, MemOk mc leak k') : CohOk mc k' := by
  obtain ⟨leak, hk⟩ := h.mem
  cases hs with
  | unchanged => exact h
  | @envDestroy envid e _ left he hd =>
    have hlive := envid2env_live hcur he
    have hm := hk.destroy_moves hcur he hd (callPolicy_of_tlb ha)
    have htlb := h.tlb.moves hk.mem hm fun e' hne => h.asid_ne hlive e' hne
    obtain ⟨k₁, hf, hk'⟩ := envDestroy_cases hd
    obtain ⟨pgdir, pm, q, -, -, -, rfl⟩ := envFree_cases hf
    have hspace : SameSpace (k.freed e pm q) k' := by
      rcases hk' with ⟨-, -, hsch⟩ | ⟨-, -, rfl⟩
      · have hnone : SameSpace (k.freed e pm q) ((k.freed e pm q).setCurenv none) :=
          ⟨fun _ => Iff.rfl, fun _ => rfl, fun _ => rfl, rfl⟩
        exact hnone.trans (.schedule hsch)
      · exact .refl _
    have hasids : k'.asids = k.asids := by
      funext e'
      refine (hspace.asid e').trans (setEnv_field Env.envAsid (by rfl) e')
    have hstay : ∀ e', (k'.envs e').envStatus ≠ .FREE → e' ≠ e ∧ (k.envs e').envStatus ≠ .FREE := by
      intro e' he'
      rw [Ne, hspace.free] at he'
      have hne : e' ≠ e := by
        rintro rfl
        rw [Kern.freed, setEnv_self] at he'
        exact he' rfl
      rw [Kern.freed, setEnv_of_ne hne] at he'
      exact ⟨hne, he'⟩
    refine ⟨hmem, hasids ▸ htlb, fun e' he' => ?_, fun e' he' => ?_⟩
    · obtain ⟨hne, hlive'⟩ := hstay e' he'
      rw [hspace.dirs, dirs_freed, Function.update_of_ne hne]
      exact h.dir e' hlive'
    · obtain ⟨hne, hlive'⟩ := hstay e' he'
      have hbit : k'.asidBitmap = Function.update k.asidBitmap (k.asids e) false := hspace.bitmap
      rw [hbit, hasids, Function.update_of_ne (h.asid_ne hlive e' hne (h.dir e' hlive'))]
      exact h.bitmap e' hlive'

private theorem call {r : Option Word} (h : CohOk mc k) (hs : CallStep k cur c k' r) (hcur : (k.envs cur).envStatus ≠ .FREE)
    (ha : callTlbAdmits k cur c = true) (hmem : ∃ leak, MemOk mc leak k') : CohOk mc k' := by
  by_cases hf : c = .exofork
  · subst hf
    exact h.fork hs ha hmem
  by_cases hd : ∃ envid, c = .envDestroy envid
  · obtain ⟨envid, rfl⟩ := hd
    exact h.destroy hs hcur ha hmem
  · obtain ⟨leak, hk⟩ := h.mem
    have hspace := SameSpace.call hs hcur hf fun envid heq => hd ⟨envid, heq⟩
    obtain ⟨e, hacts, hm⟩ := hk.call_moves hcur hs (callMemAdmits_of_tlb ha) (callPolicy_of_tlb ha)
    have hlive : (k.envs e).envStatus ≠ .FREE := by
      cases hacts with
      | none => exact hcur
      | fork => exact absurd rfl hf
      | destroy => exact absurd ⟨_, rfl⟩ hd
      | memAlloc he => exact envid2env_live hcur he
      | memMap he => exact envid2env_live hcur he
      | memUnmap he => exact envid2env_live hcur he
      | ipc he => exact envid2env_live hcur he
    exact h.of_moves hlive hspace hm hmem

/-- What the refill writes is what is stored. -/
private theorem tlbWrite (h : CohOk mc k) {va : Word} {pgdir pp : Nat} {ptr : PtePtr} (hlive : (k.envs e).envStatus ≠ .FREE)
    (hva : va < ULIM) (hp : (k.envs e).envPgdir = some pgdir) (hl : k.pm.pageLookup pgdir va = some (some (pp, ptr))) :
    CohOk mc (k.tlbWrite e va (k.pm.word ptr.1 ptr.2)) := by
  obtain ⟨leak, hk⟩ := h.mem
  obtain ⟨hv, rfl, hpte, -⟩ := pageLookup_words hl
  have hd : k.dirs e = some pgdir := (dirs_of_live hlive).trans hp
  have hstored : k.mem.pte e (VPN va) = some (k.pm.word (PPN (k.pm.word pgdir (PDX va))) (PTX va)) :=
    Mem.pte_eq_some.2 ⟨pgdir, _, hd, entry_eq_some.2 ⟨hv, rfl⟩, rfl⟩
  have hlt : (VPN va).1 < PDX ULIM := by
    have hnum : ULIM.toNat = 512 * 2 ^ 22 := by decide
    have hlt : va.toNat < ULIM.toNat := hva
    have h512 : (PDX ULIM : Nat) = 512 := by decide
    show PDX va < PDX ULIM
    rw [Fin.lt_def, h512, PDX_toNat]
    omega
  exact ⟨⟨leak, hk.setTlb _⟩, h.tlb.write hk.mem hlt hstored hpte, h.dir, h.bitmap⟩

private theorem boot (mc : Machine) : CohOk mc mc.bootKern := by
  have hnone : ∀ e, mc.bootKern.dirs e = none := fun e => dirs_of_free rfl
  refine ⟨⟨_, MemOk.boot mc⟩, ⟨fun e _ hd => absurd (hnone e) hd, fun t ht => ?_, fun e v w _ hp => ?_⟩,
    fun e he => absurd rfl he, fun e he => absurd rfl he⟩
  · cases ht
  · obtain ⟨d, _, hd, -⟩ := Mem.pte_eq_some.1 hp
    cases (hnone e).symm.trans hd

end CohOk

/-- Every admitted step keeps the TLB coherent. -/
private theorem CohOk.step {mc : Machine} {s s' : State} {ev : Event} (h : CohOk mc s.kern) (hs : Step s ev s')
    (ha : tlbAdmits s ev = true) : CohOk mc s'.kern := by
  obtain ⟨leak, hk⟩ := h.mem
  have hmem : ∃ leak, MemOk mc leak s'.kern := by
    obtain ⟨leak', hk', -⟩ := hk.step hs (memAdmits_of_tlb ha) (stepPolicy_of_tlb ha)
    exact ⟨leak', hk'⟩
  have hcall : ∀ {k k' : Kern} {cur : EnvPtr} {c : Call} {r : Option Word} {junk : Word}, CohOk mc k →
      k.curenv = some cur → k.decode k.ktf = some c → CallStep k.skipInsn cur c k' r →
      tlbAdmits ⟨.entered (.syscall junk), k⟩ .handle = true → CohOk mc k' := by
    intro k k' cur c r junk h hc hd hcall ha
    obtain ⟨leak, hk⟩ := h.mem
    have h₁ : CohOk mc k.skipInsn := ⟨⟨leak, hk.skipInsn⟩, h.tlb, h.dir, h.bitmap⟩
    have ha : callTlbAdmits k.skipInsn cur c = true :=
      (State.admits_call ha (show State.call ⟨_, k⟩ _ = some (cur, c) by simp [State.call, hc, hd])).2
    obtain ⟨leak', hk', -⟩ := hk.skipInsn.call hc hcall (callMemAdmits_of_tlb ha) (callPolicy_of_tlb ha)
    exact h₁.call hcall (hk.live.cur cur hc) ha ⟨leak', hk'⟩
  cases hs with
  | create hc => exact h.create ha hc
  | evict k keep => exact ⟨hmem, h.tlb.evict (List.filter_sublist.subset), h.dir, h.bitmap⟩
  | idle u hc => exact h
  | save x hm => exact ⟨hmem, h.tlb, h.dir, h.bitmap⟩
  | tick hs => exact h.same (.schedule hs) (mem_schedule hs) hmem
  | noSys junk hn => exact ⟨hmem, h.tlb, h.dir, h.bitmap⟩
  | call junk hc hd hs =>
    have h' := hcall h hc hd hs ha
    exact ⟨hmem, h'.tlb, h'.dir, h'.bitmap⟩
  | left junk hc hd hs => exact hcall h hc hd hs ha
  | @tlbMiss k k₁ c va pgdir pp ptr hc hva hserved hp hl =>
    have hlive : (k.envs c).envStatus ≠ .FREE := hk.live.cur c hc
    have hspace := SameSpace.served hserved
    obtain ⟨leak₁, hk₁, -⟩ : ∃ leak', MemOk mc leak' k₁ ∧
        ((∀ asid d m, tlbPolicy.drop asid d m → Mem.NoJunk d m) → leak' = leak) := hk.served hlive hva hserved
    have h₁ : CohOk mc k₁ := h.of_moves hlive hspace (hk.served_moves hlive hva hserved) ⟨leak₁, hk₁⟩
    have hlive₁ : (k₁.envs c).envStatus ≠ .FREE := fun hf => hlive ((hspace.free c).1 hf)
    have hasid : (k.envs c).envAsid = (k₁.envs c).envAsid := (hspace.asid c).symm
    have hw := h₁.tlbWrite hlive₁ hva hp hl
    exact hw
  | tlbMod m hc hst => exact ⟨hmem, h.tlb, h.dir, h.bitmap⟩
  | @ret k k₁ c returned tf hc hd =>
    have hf := (doSignal_frame hd).1
    have h₁ : CohOk mc k₁ := h.same (.sigFrame hf) (mem_sigFrame hf) ⟨leak, hk.sigFrame hf⟩
    obtain ⟨leak', hk'⟩ := hmem
    have h₂ : CohOk mc (k₁.storeTf c returned tf) :=
      h₁.same (.storeTf k₁ c returned tf) (mem_storeTf k₁ c returned tf)
        ⟨leak', ⟨hk'.live.nodup, hk'.live.free, hk'.live.cur⟩, hk'.mem, hk'.base, hk'.dstva⟩
    exact ⟨⟨leak', hk'⟩, h₂.tlb, h₂.dir, h₂.bitmap⟩

/-- What the running environment hits is what is stored in its page table. -/
private theorem CohOk.hit {mc : Machine} {k : Kern} {c : EnvPtr} {t : TlbEntry} {v : Vpn} (h : CohOk mc k)
    (hlive : (k.envs c).envStatus ≠ .FREE) (ht : t ∈ k.pm.tlb) (hhit : t.hits v (k.envs c).envAsid = true) :
    k.mem.pte c v = some t.pte := by
  obtain ⟨leak, hk⟩ := h.mem
  obtain ⟨d, hd⟩ := Option.ne_none_iff_exists'.1 (h.dir c hlive)
  simp only [TlbEntry.hits, Bool.and_eq_true, decide_eq_true_eq, Bool.or_eq_true] at hhit
  obtain ⟨rfl, hasid⟩ := hhit
  obtain ⟨-, -, hown⟩ := h.tlb.own t ht
  rcases hown with hs | ⟨hG, e, he, hp⟩
  · exact hk.mem.shared_pte hd hs
  · have hsame : k.asids e = k.asids c := by
      rcases hasid with hasid | hasid
      · exact he.trans hasid
      · rw [hG] at hasid
        cases hasid
    obtain ⟨d', _, hd', -⟩ := Mem.pte_eq_some.1 hp
    have hce : k.mem.dirs c = some d := hd
    have hec : e = c := h.tlb.asids e c (by simp [hd']) (by simp [hce]) hsame
    rw [← hec]
    exact hp

/-- In every run of admitted steps, what the running environment hits in the TLB is what is stored in its page table. -/
theorem tlb_coherent {mc : Machine} {l : List (State × Event)} {s : State} {c : EnvPtr} {t : TlbEntry} {v : Vpn}
    (h : kernel.Steps (fun s ev => tlbAdmits s ev = true) ⟨.user, mc.bootKern⟩ l s) (hc : s.kern.curenv = some c)
    (ht : t ∈ s.kern.pm.tlb) (hhit : t.hits v (s.kern.envs c).envAsid = true) : s.kern.mem.pte c v = some t.pte := by
  have hinv : CohOk mc s.kern := by
    refine h.invariant (I := fun _ s => CohOk mc s.kern) (CohOk.boot mc) ?_
    intro l s₁ ev s₂ h₁ ha hs
    exact h₁.step (State.step_cases hs) ha
  obtain ⟨leak, hk⟩ := hinv.mem
  exact hinv.hit (hk.live.cur c hc) ht hhit

/-- The first of two environments allocates a page with `perm` and reads from it, and the TLB has an entry for it. -/
def readPage (perm : Word) : List Event :=
  .create .empty 1 :: .create .empty 1 :: tickEvents ++ callEvents 6 0 UTEXT perm ++
    trapEvents (argRegs 0 0 0 0) (fun _ => 0) (.tlbMiss UTEXT)

private theorem readPage_cond : (kernel.trace tlbAdmits ⟨.user, Machine.gxemul.bootKern⟩ (readPage PTE_V)).any fun r =>
    r.2.kern.curenv.any fun c => r.2.kern.pm.tlb.any fun t => t.hits (VPN UTEXT) (r.2.kern.envs c).envAsid := by
  decide +kernel

theorem tlb_coherent_readPage : ∃ l s c t, kernel.trace tlbAdmits ⟨.user, Machine.gxemul.bootKern⟩ (readPage PTE_V) =
    some (l, s) ∧ t ∈ s.kern.pm.tlb ∧ s.kern.mem.pte c (VPN UTEXT) = some t.pte := by
  obtain ⟨⟨l, s⟩, hl, hcond⟩ := (Option.any_eq_true _ _).1 readPage_cond
  obtain ⟨c, hc, hcond⟩ := (Option.any_eq_true _ _).1 hcond
  obtain ⟨t, ht, hhit⟩ := List.any_eq_true.1 hcond
  exact ⟨l, s, c, t, hl, ht, tlb_coherent (.of_trace hl) hc ht hhit⟩

/-- With `PTE_G`, the next environment hits the entry, and has nothing mapped there. -/
private theorem globalPage_cond : (kernel.trace (fun _ _ => true) ⟨.user, Machine.gxemul.bootKern⟩
    (readPage PTE_G ++ tickEvents)).any fun r => r.2.kern.curenv.any fun c => r.2.kern.pm.tlb.any fun t =>
      t.hits (VPN UTEXT) (r.2.kern.envs c).envAsid && r.2.kern.mem.pte c (VPN UTEXT) = none := by decide +kernel

theorem exists_stale_hit : ∃ l s c t v, kernel.Steps (fun _ _ => True) ⟨.user, Machine.gxemul.bootKern⟩ l s ∧
    s.kern.curenv = some c ∧ t ∈ s.kern.pm.tlb ∧ t.hits v (s.kern.envs c).envAsid = true ∧
      s.kern.mem.pte c v ≠ some t.pte := by
  obtain ⟨⟨l, s⟩, hl, hcond⟩ := (Option.any_eq_true _ _).1 globalPage_cond
  obtain ⟨c, hc, hcond⟩ := (Option.any_eq_true _ _).1 hcond
  obtain ⟨t, ht, hcond⟩ := List.any_eq_true.1 hcond
  rw [Bool.and_eq_true, decide_eq_true_eq] at hcond
  obtain ⟨hhit, hnone⟩ := hcond
  refine ⟨l, s, c, t, _, (System.Steps.of_trace hl).mono fun _ _ _ => trivial, hc, ht, hhit, ?_⟩
  rw [hnone]
  exact nofun

end Mos
