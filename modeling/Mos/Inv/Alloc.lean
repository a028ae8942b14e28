import Mos.Inv.Coherence
import Mos.Inv.NoMem

/-!
# What `env_alloc` hands out

A new environment takes a slot, a page for its directory and an ASID.  `env_alloc` looks only at the first of the three:
without a page or without an ASID it goes on, and the new environment has what the previous occupant of its slot left.
In runs in which that never happened, ASIDs and directories are private.
-/

namespace Mos

open Kern

/-! ### Slots, directories and ASIDs -/

/-- The ASIDs of the live environments are in use, one for each. -/
structure AsidOk (k : Kern) : Prop where
  used : ∀ e, (k.envs e).envStatus ≠ .FREE → k.asidBitmap (k.envs e).envAsid = true
  own : ∀ e e', (k.envs e).envStatus ≠ .FREE → (k.envs e').envStatus ≠ .FREE → (k.envs e).envAsid = (k.envs e').envAsid →
    e = e'

/-- A new environment in slot `e`: its directory `p` was a free page and is nobody else's, it has the template entries of
`[UTOP, UVPT)`, the two entries for itself and no other, and its ASID is nobody else's. -/
structure Fresh (k : Kern) (e : EnvPtr) (k' : Kern) : Prop where
  slot : k.envFreeList.head? = some e
  dir : ∃ p ∈ k.pm.pageFreeList, p ∉ k'.pm.pageFreeList ∧ (k'.envs e).envPgdir = some p ∧
    (∀ e', e' ≠ e → (k'.envs e').envStatus ≠ .FREE → (k'.envs e').envPgdir ≠ some p) ∧
    ∀ j, k'.pm.word p j = if j = PDX KSEG2 ∨ j = PDX UVPT then page2pa p ||| PTE_V
      else if PDX UTOP ≤ j ∧ j < PDX UVPT then k.pm.word k.basePgdir j else 0
  asid : ∀ e', e' ≠ e → (k'.envs e').envStatus ≠ .FREE → (k'.envs e').envAsid ≠ (k'.envs e).envAsid

/-- `env_alloc` returns a new environment, or an error where something is missing.  `none` is the error, and leaves
everything as it was. -/
structure AllocOk (k : Kern) (parentId : Word) : Prop where
  fresh : ∀ e k', k.envAlloc parentId = some (e, k') → Fresh k e k'
  error : k.envFreeList = [] ∨ k.pm.pageFreeList = [] ∨ (∀ i, k.asidBitmap i = true) → k.envAlloc parentId = none

namespace AsidOk

variable {k k' : Kern} {e : EnvPtr}

private theorem same (h : AsidOk k) (hs : SameSpace k k') : AsidOk k' := by
  have hlive : ∀ e, (k'.envs e).envStatus ≠ .FREE → (k.envs e).envStatus ≠ .FREE :=
    fun e he hf => he ((hs.free e).2 hf)
  refine ⟨fun e he => ?_, fun e e' he he' heq => ?_⟩
  · rw [hs.bitmap, hs.asid]
    exact h.used e (hlive e he)
  · rw [hs.asid, hs.asid] at heq
    exact h.own e e' (hlive e he) (hlive e' he') heq

/-- A free slot gets a free ASID. -/
private theorem alloc (h : AsidOk k) {i : Asid} (hi : k.asidBitmap i = false) (hasid : (k'.envs e).envAsid = i)
    (hother : ∀ e', e' ≠ e → (k'.envs e').envStatus = (k.envs e').envStatus ∧ (k'.envs e').envAsid = (k.envs e').envAsid)
    (hbit : k'.asidBitmap = Function.update k.asidBitmap i true) : AsidOk k' := by
  have hnew : ∀ e', (k.envs e').envStatus ≠ .FREE → (k.envs e').envAsid ≠ i := by
    rintro e' he' rfl
    rw [h.used e' he'] at hi
    cases hi
  refine ⟨fun e' he' => ?_, fun e₁ e₂ h₁ h₂ heq => ?_⟩
  · rw [hbit]
    by_cases he : e' = e
    · rw [he, hasid, Function.update_self]
    · obtain ⟨hst, has⟩ := hother e' he
      rw [hst] at he'
      rw [has, Function.update_of_ne (hnew e' he')]
      exact h.used e' he'
  · by_cases he₁ : e₁ = e
    · by_cases he₂ : e₂ = e
      · rw [he₁, he₂]
      · obtain ⟨hst, has⟩ := hother e₂ he₂
        rw [he₁, hasid, has] at heq
        exact absurd heq.symm (hnew e₂ (hst ▸ h₂))
    · obtain ⟨hst₁, has₁⟩ := hother e₁ he₁
      by_cases he₂ : e₂ = e
      · rw [he₂, hasid, has₁] at heq
        exact absurd heq (hnew e₁ (hst₁ ▸ h₁))
      · obtain ⟨hst₂, has₂⟩ := hother e₂ he₂
        rw [has₁, has₂] at heq
        exact h.own e₁ e₂ (hst₁ ▸ h₁) (hst₂ ▸ h₂) heq

/-- A live environment gives up its slot and its ASID. -/
private theorem free (h : AsidOk k) (hlive : (k.envs e).envStatus ≠ .FREE) (hfree : (k'.envs e).envStatus = .FREE)
    (hother : ∀ e', e' ≠ e → (k'.envs e').envStatus = (k.envs e').envStatus)
    (hasid : ∀ e', (k'.envs e').envAsid = (k.envs e').envAsid)
    (hbit : k'.asidBitmap = Function.update k.asidBitmap (k.envs e).envAsid false) : AsidOk k' := by
  have hne : ∀ e', (k'.envs e').envStatus ≠ .FREE → e' ≠ e ∧ (k.envs e').envStatus ≠ .FREE := by
    intro e' he'
    have he : e' ≠ e := by
      rintro rfl
      exact he' hfree
    exact ⟨he, hother e' he ▸ he'⟩
  refine ⟨fun e' he' => ?_, fun e₁ e₂ h₁ h₂ heq => ?_⟩
  · obtain ⟨he, hl⟩ := hne e' he'
    have has : (k.envs e').envAsid ≠ (k.envs e).envAsid := fun heq => he (h.own e' e hl hlive heq)
    rw [hbit, hasid, Function.update_of_ne has]
    exact h.used e' hl
  · rw [hasid, hasid] at heq
    exact h.own e₁ e₂ (hne e₁ h₁).2 (hne e₂ h₂).2 heq

end AsidOk

/-! ### Steps of the system -/

namespace Kern

/-- Calls that keep the tables apart, and find a page and an ASID for a new environment. -/
def callAllocAdmits (k : Kern) (cur : EnvPtr) : Call → Bool
  | .exofork => k.spaceFree
  | c => callMemAdmits k cur c

private theorem callMemAdmits_of_alloc {k : Kern} {cur : EnvPtr} {c : Call} (h : callAllocAdmits k cur c = true) :
    callMemAdmits k cur c = true := by
  cases c with
  | exofork => exact vmFree_of_spaceFree h
  | _ => exact h

end Kern

def allocAdmits (s : State) (ev : Event) : Bool := s.admits spaceFree callAllocAdmits ev

private theorem memAdmits_of_alloc {s : State} {ev : Event} (h : allocAdmits s ev = true) : memAdmits s ev = true := by
  rw [memAdmits_eq]
  exact State.admits_mono h (fun _ => vmFree_of_spaceFree) fun _ _ _ => callMemAdmits_of_alloc

namespace AsidOk

variable {k k' : Kern} {e cur : EnvPtr}

/-- A free ASID is found where there is one. -/
private theorem setup_free {asid : Asid} {bitmap : Asid → Bool} (hs : k.AsidSetup e asid bitmap)
    (hi : ∃ i, k.asidBitmap i = false) :
    k.asidBitmap asid = false ∧ bitmap = Function.update k.asidBitmap asid true := by
  cases hs with
  | ok hfree => exact ⟨hfree, rfl⟩
  | full hfull =>
    obtain ⟨i, hi⟩ := hi
    rw [hfull i] at hi
    cases hi

/-- `env_alloc`, followed by what its caller writes to the new environment. -/
private theorem allocated (h : AsidOk k) {rest : List EnvPtr} {pgdir : Option Nat} {pm : Pmap} {asid : Asid}
    {bitmap : Asid → Bool} {parentId : Word} {f : Env → Env} (hfree : k.spaceFree = true)
    (hl : k.envFreeList = e :: rest) (hs : k.AsidSetup e asid bitmap) (hf : ∀ env, (f env).envAsid = env.envAsid) :
    AsidOk ((k.allocated e rest pgdir pm asid bitmap parentId).setEnv e f) := by
  obtain ⟨hi, rfl⟩ := setup_free hs (spaceFree_cons hfree hl).2
  refine h.alloc (e := e) hi ?_ (fun e' he => ?_) rfl
  · rw [setEnv_self, hf, Kern.allocated, setEnv_self]
    rfl
  · rw [setEnv_of_ne he, Kern.allocated, setEnv_of_ne he]
    exact ⟨rfl, rfl⟩

private theorem create {binary : Image} {priority : Word} (h : AsidOk k) (hfree : k.spaceFree = true)
    (hc : k.envCreate binary priority = some k') : AsidOk k' := by
  obtain ⟨e, k₁, pgdir, pm, hal, -, -, rfl⟩ := envCreate_cases hc
  obtain ⟨rest, pgdir', pm₁, asid, bitmap, hl, -, hs, rfl⟩ := envAlloc_cases hal
  have hok : AsidOk ((k.allocated e rest pgdir' pm₁ asid bitmap 0).setEnv e fun env => { env with
      envPri := priority
      envStatus := .RUNNABLE
      envTf := { env.envTf with cp0Epc := binary.entry } }) :=
    h.allocated hfree hl hs fun _ => rfl
  exact ⟨hok.used, hok.own⟩

private theorem call {c : Call} {r : Option Word} (h : AsidOk k) (hlive : LiveOk k) (hcur : k.curenv = some cur)
    (hs : CallStep k cur c k' r) (ha : callAllocAdmits k cur c = true) : AsidOk k' := by
  by_cases hf : c = .exofork
  · subst hf
    cases hs with
    | unchanged => exact h
    | @exofork e k₁ hal =>
      obtain ⟨rest, pgdir, pm, asid, bitmap, hl, -, hs, rfl⟩ := envAlloc_cases hal
      exact h.allocated ha hl hs fun _ => rfl
  by_cases hd : ∃ envid, c = .envDestroy envid
  · obtain ⟨envid, rfl⟩ := hd
    cases hs with
    | unchanged => exact h
    | @envDestroy _ e _ left he hd =>
      have he := envid2env_live (hlive.cur cur hcur) he
      obtain ⟨k₁, hf, hk'⟩ := envDestroy_cases hd
      obtain ⟨pgdir, pm, q, -, -, -, rfl⟩ := envFree_cases hf
      have hfreed : AsidOk (k.freed e pm q) := by
        refine h.free he ?_ (fun e' hne => ?_) (setEnv_field Env.envAsid (by rfl)) rfl
        · rw [Kern.freed, setEnv_self]
        · rw [Kern.freed, setEnv_of_ne hne]
          rfl
      rcases hk' with ⟨-, -, hsch⟩ | ⟨-, -, rfl⟩
      · have hnone : AsidOk ((k.freed e pm q).setCurenv none) := ⟨hfreed.used, hfreed.own⟩
        exact hnone.same (.schedule hsch)
      · exact hfreed
  · exact h.same (SameSpace.call hs (hlive.cur cur hcur) hf fun envid heq => hd ⟨envid, heq⟩)

theorem boot (mc : Machine) : AsidOk mc.bootKern := ⟨fun _ he => absurd rfl he, fun _ _ he => absurd rfl he⟩

end AsidOk

/-- Every admitted step keeps the ASIDs private. -/
theorem AsidOk.step {s s' : State} {ev : Event} (h : AsidOk s.kern) (hlive : LiveOk s.kern) (hs : Step s ev s')
    (ha : allocAdmits s ev = true) : AsidOk s'.kern := by
  have hcall : ∀ {k k' : Kern} {cur : EnvPtr} {c : Call} {r : Option Word} {junk : Word}, AsidOk k → LiveOk k →
      k.curenv = some cur → k.decode k.ktf = some c → CallStep k.skipInsn cur c k' r →
      allocAdmits ⟨.entered (.syscall junk), k⟩ .handle = true → AsidOk k' := by
    intro k k' cur c r junk h hlive hc hd hcall ha
    have h₁ : AsidOk k.skipInsn := ⟨h.used, h.own⟩
    exact h₁.call (hlive.setKtf _) hc hcall
      (State.admits_call ha (show State.call ⟨_, k⟩ _ = some (cur, c) by simp [State.call, hc, hd])).2
  cases hs with
  | create hc => exact h.create ha hc
  | call junk hc hd hs =>
    have h' := hcall h hlive hc hd hs ha
    exact ⟨h'.used, h'.own⟩
  | left junk hc hd hs => exact hcall h hlive hc hd hs ha
  | tick hs => exact h.same (.schedule hs)
  | @tlbMiss k k₁ c va pgdir pp ptr hc hva hserved hp hl =>
    have h₁ := h.same (.served hserved)
    exact ⟨h₁.used, h₁.own⟩
  | @ret k k₁ c returned tf hc hd =>
    have h₁ := (h.same (.sigFrame (doSignal_frame hd).1)).same (.storeTf k₁ c returned tf)
    exact ⟨h₁.used, h₁.own⟩
  | evict => exact ⟨h.used, h.own⟩
  | idle => exact h
  | save => exact ⟨h.used, h.own⟩
  | noSys => exact ⟨h.used, h.own⟩
  | tlbMod => exact ⟨h.used, h.own⟩

/-! ### `env_alloc` -/

/-- Where a page and an ASID are free, `env_alloc` sets up a new environment. -/
private theorem fresh_of_envAlloc {mc : Machine} {leak : Nat → Nat} {k k' : Kern} {e : EnvPtr} {parentId : Word}
    (hm : MemOk mc leak k) (h : AsidOk k) (hpage : k.pm.pageFreeList ≠ []) (hi : ∃ i, k.asidBitmap i = false)
    (hal : k.envAlloc parentId = some (e, k')) : Fresh k e k' := by
  obtain ⟨rest, pgdir, pm, asid, bitmap, hl, hvm, hs, rfl⟩ := envAlloc_cases hal
  obtain ⟨hi, -⟩ := AsidOk.setup_free hs hi
  have hother : ∀ e', e' ≠ e → (k.allocated e rest pgdir pm asid bitmap parentId).envs e' = k.envs e' := by
    intro e' he
    rw [Kern.allocated, setEnv_of_ne he]
    rfl
  have hself : ((k.allocated e rest pgdir pm asid bitmap parentId).envs e).envPgdir = pgdir ∧
      ((k.allocated e rest pgdir pm asid bitmap parentId).envs e).envAsid = asid := by
    rw [Kern.allocated, setEnv_self]
    exact ⟨rfl, rfl⟩
  refine ⟨by rw [hl]; rfl, ?_, fun e' he hlive heq => ?_⟩
  · cases hvm with
    | full hfull =>
      cases hfree : k.pm.pageFreeList with
      | nil => exact absurd hfree hpage
      | cons q rest =>
        rw [Pmap.envSetupVm, Pmap.pageAlloc, hfree] at hfull
        cases hfull
    | @ok p pm hok =>
      obtain ⟨free, hfree, rfl⟩ := Pmap.envSetupVm_cases hok
      obtain ⟨hfresh, hnot, -⟩ := hm.mem.taken hfree
      refine ⟨p, by rw [hfree]; exact List.mem_cons_self .., hnot, hself.1, fun e' he hlive hp => ?_, fun j => ?_⟩
      · rw [hother e' he] at hlive hp
        exact hfresh.unused (.dir e') ((dirs_of_live hlive).trans hp)
      · have hword : ((k.pm.take p free).newDir k.basePgdir p).word p j = (k.pm.take p free).newDirWord k.basePgdir p j :=
          congrFun (Function.update_self ..) j
        have hbase : k.basePgdir ≠ p := fun heq => hfresh.notTree (.base 0) trivial (by rw [← heq, hm.base]; rfl)
        have hold : (k.pm.take p free).word k.basePgdir = k.pm.word k.basePgdir := Function.update_of_ne hbase ..
        rw [← hold]
        exact hword
  · rw [hother e' he] at hlive heq
    rw [hself.2] at heq
    rw [← heq, h.used e' hlive] at hi
    cases hi

/-- In runs in which every new environment got a page and an ASID, `env_alloc` does what it should exactly when it finds
both, or no slot. -/
theorem envAlloc_ok_iff {mc : Machine} {l : List (State × Event)} {s : State} (parentId : Word)
    (h : kernel.Steps (fun s ev => allocAdmits s ev = true) ⟨.user, mc.bootKern⟩ l s) :
    AllocOk s.kern parentId ↔
      s.kern.envFreeList = [] ∨ (s.kern.pm.pageFreeList ≠ [] ∧ ∃ i, s.kern.asidBitmap i = false) := by
  obtain ⟨⟨leak, hm⟩, hasid⟩ : (∃ leak, MemOk mc leak s.kern) ∧ AsidOk s.kern := by
    refine h.invariant (I := fun _ s => (∃ leak, MemOk mc leak s.kern) ∧ AsidOk s.kern) ?_ ?_
    · exact ⟨⟨_, MemOk.boot mc⟩, .boot mc⟩
    · rintro l t ev u ⟨⟨leak, hm⟩, hasid⟩ ha hs
      have hstep := State.step_cases hs
      obtain ⟨leak', hm', -⟩ := hm.step hstep (memAdmits_of_alloc ha) (.any t ev)
      exact ⟨⟨leak', hm'⟩, hasid.step hm.live hstep ha⟩
  generalize s.kern = k at hm hasid ⊢
  cases hl : k.envFreeList with
  | nil =>
    have hnone : k.envAlloc parentId = none := by rw [envAlloc, hl]
    refine iff_of_true ⟨fun e k' hal => ?_, fun _ => hnone⟩ (.inl rfl)
    rw [hnone] at hal
    cases hal
  | cons e rest =>
    obtain ⟨k', hal⟩ : ∃ k', k.envAlloc parentId = some (e, k') := by
      rw [envAlloc, hl]
      exact ⟨_, rfl⟩
    constructor
    · intro hok
      right
      have hsome : ∀ {P : Prop}, k.envAlloc parentId = none → P := by
        intro P hnone
        rw [hal] at hnone
        cases hnone
      constructor
      · intro hnil
        exact hsome (hok.error (.inr (.inl hnil)))
      · by_contra hnot
        exact hsome (hok.error (.inr (.inr fun i => by simpa using not_exists.1 hnot i)))
    · rintro (hnil | ⟨hpage, hi⟩)
      · cases hnil
      · refine ⟨fun e' k'' hal' => fresh_of_envAlloc hm hasid hpage hi hal', ?_⟩
        rintro (hnil | hnil | hfull)
        · rw [hl] at hnil
          cases hnil
        · exact absurd hnil hpage
        · obtain ⟨i, hi⟩ := hi
          rw [hfull i] at hi
          cases hi

/-- After one environment was created, a page and an ASID are left for the next. -/
private theorem createOne_cond : (kernel.trace allocAdmits ⟨.user, Machine.gxemul.bootKern⟩ [.create .empty 1]).any fun r =>
    decide (r.2.kern.pm.pageFreeList.length ≠ 0) && !r.2.kern.asidBitmap 1 := by decide +kernel

theorem envAlloc_ok_iff_createOne : ∃ l s,
    kernel.trace allocAdmits ⟨.user, Machine.gxemul.bootKern⟩ [.create .empty 1] = some (l, s) ∧
    (AllocOk s.kern 0 ↔
      s.kern.envFreeList = [] ∨ (s.kern.pm.pageFreeList ≠ [] ∧ ∃ i, s.kern.asidBitmap i = false)) := by
  obtain ⟨⟨l, s⟩, hl, -⟩ := (Option.any_eq_true _ _).1 createOne_cond
  exact ⟨l, s, hl, envAlloc_ok_iff 0 (.of_trace hl)⟩

/-- With two pages, a first environment forks a second one; the third one would get no directory. -/
def forkOnce : List Event := .create .empty 1 :: tickEvents ++ callEvents 9 0 0 0

private theorem forkOnce_cond : (Machine.small.after (fun _ _ => true) forkOnce).any fun s =>
    s.inUser ∧ s.kern.pm.pageFreeList.length = 0 ∧ (s.kern.envAlloc 0x800).any fun r =>
      (r.2.envs r.1).envPgdir = none := by decide +kernel

theorem exists_no_directory : ∃ s parentId, kernel.Reach (fun _ _ => True) s ∧ s.inUser ∧ ¬AllocOk s.kern parentId := by
  obtain ⟨s, hs, hcond⟩ := (Option.any_eq_true _ _).1 forkOnce_cond
  obtain ⟨huser, -, halloc⟩ := of_decide_eq_true hcond
  obtain ⟨⟨e, k'⟩, hk, hnone⟩ := (Option.any_eq_true _ _).1 halloc
  have hnone := of_decide_eq_true hnone
  refine ⟨s, 0x800, (Machine.after_reach hs).mono fun _ _ _ => trivial, huser, fun hok => ?_⟩
  obtain ⟨p, -, -, hp, -⟩ := (hok.fresh e k' hk).dir
  rw [hnone] at hp
  cases hp

end Mos
