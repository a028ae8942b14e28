import Mos.Kern.Boot

/-!
# What the kernel's operations can do

One inversion lemma for each operation says all that a call which returns can have done, guards included.  The
invariants are derived from these lemmas and do not unfold the operations again.
-/

namespace Mos

namespace Kern

/-! ### Looking up an environment -/

theorem envid2env_cases {k : Kern} {cur e : EnvPtr} {envid : Word} {checkperm : Bool}
    (h : k.envid2env cur envid checkperm = some e) :
    (envid = 0 ∧ e = cur) ∨
    (envid ≠ 0 ∧ e = ENVX envid ∧ (k.envs e).envStatus ≠ .FREE ∧ (k.envs e).envId = envid ∧
      (checkperm → e = cur ∨ (k.envs e).envParentId = (k.envs cur).envId)) := by
  unfold envid2env at h
  split at h
  case isTrue h0 => exact .inl ⟨h0, (Option.some.inj h).symm⟩
  case isFalse h0 =>
    dsimp only at h
    split at h
    case isTrue => cases h
    case isFalse hlive =>
      split at h
      case isTrue => cases h
      case isFalse hperm =>
        obtain rfl := Option.some.inj h
        simp only [not_or, not_not, not_and] at hlive hperm
        exact .inr ⟨h0, rfl, hlive.1, hlive.2, fun hc => or_iff_not_imp_left.2 (hperm hc)⟩

/-- The environment that an id names is live if the current one is. -/
theorem envid2env_live {k : Kern} {cur e : EnvPtr} {envid : Word} {checkperm : Bool}
    (hcur : (k.envs cur).envStatus ≠ .FREE) (h : k.envid2env cur envid checkperm = some e) :
    (k.envs e).envStatus ≠ .FREE := by
  rcases envid2env_cases h with ⟨_, rfl⟩ | ⟨_, _, hl, _⟩
  · exact hcur
  · exact hl

/-! ### Allocating an environment -/

/-- What `env_alloc` leaves in `env_pgdir` and in the memory. -/
inductive VmSetup (k : Kern) (e : EnvPtr) : Option Nat → Pmap → Prop
  | ok {p : Nat} {pm : Pmap} (h : k.pm.envSetupVm k.basePgdir = some (p, pm)) : VmSetup k e (some p) pm
  | full (h : k.pm.envSetupVm k.basePgdir = none) : VmSetup k e (k.envs e).envPgdir k.pm

/-- What `env_alloc` leaves in `env_asid` and in the bitmap. -/
inductive AsidSetup (k : Kern) (e : EnvPtr) : Asid → (Asid → Bool) → Prop
  | ok {i : Asid} (h : k.asidBitmap i = false) : AsidSetup k e i (Function.update k.asidBitmap i true)
  | full (h : ∀ i, k.asidBitmap i = true) : AsidSetup k e (k.envs e).envAsid k.asidBitmap

private theorem setupVm_cases (k : Kern) (e : EnvPtr) : ∃ pgdir pm, k.VmSetup e pgdir pm ∧
    k.setupVm e = (k.setPm pm).setEnv e fun env => { env with envPgdir := pgdir } := by
  cases h : k.pm.envSetupVm k.basePgdir with
  | some r => exact ⟨_, _, .ok h, by simp only [setupVm, h]⟩
  | none => exact ⟨_, _, .full h, by simp [setupVm, h, setPm, setEnv]⟩

private theorem setupAsid_cases (k : Kern) (e : EnvPtr) : ∃ asid bitmap, k.AsidSetup e asid bitmap ∧
    k.setupAsid e = (k.setBitmap bitmap).setEnv e fun env => { env with envAsid := asid } := by
  cases h : (List.finRange 64).find? fun i => !k.asidBitmap i with
  | some i =>
    have hi : k.asidBitmap i = false := by simpa using List.find?_some h
    exact ⟨_, _, .ok hi, by simp only [setupAsid, asidAlloc, h, Option.map_some]⟩
  | none =>
    refine ⟨_, _, .full fun i => ?_, by simp [setupAsid, asidAlloc, h, setBitmap, setEnv]⟩
    simpa using List.find?_eq_none.1 h i (List.mem_finRange i)

/-- The state after `env_alloc` took `e` off the free list. -/
def allocated (k : Kern) (e : EnvPtr) (rest : List EnvPtr) (pgdir : Option Nat) (pm : Pmap) (asid : Asid)
    (bitmap : Asid → Bool) (parentId : Word) : Kern :=
  ((((k.setFreeList rest).setPm pm).setBitmap bitmap).setMkenvidI (k.mkenvidI + 1)).setEnv e fun env =>
    initEnv (k.mkenvid e).1 parentId { env with envPgdir := pgdir, envAsid := asid }

theorem envAlloc_cases {k k' : Kern} {parentId : Word} {e : EnvPtr} (h : k.envAlloc parentId = some (e, k')) :
    ∃ rest pgdir pm asid bitmap, k.envFreeList = e :: rest ∧ k.VmSetup e pgdir pm ∧ k.AsidSetup e asid bitmap ∧
      k' = k.allocated e rest pgdir pm asid bitmap parentId := by
  unfold envAlloc at h
  split at h
  case h_1 => cases h
  case h_2 e₀ rest hl =>
    obtain ⟨pgdir, pm, hvm, hvm'⟩ := setupVm_cases (k.setFreeList rest) e₀
    obtain ⟨asid, bitmap, has, has'⟩ := setupAsid_cases ((k.setFreeList rest).setupVm e₀) e₀
    simp only [Option.some.injEq, Prod.mk.injEq] at h
    obtain ⟨rfl, rfl⟩ := h
    refine ⟨rest, pgdir, pm, asid, bitmap, hl, ?_, ?_, ?_⟩
    · cases hvm with
      | ok h => exact .ok h
      | full h => exact .full h
    · have hb : ((k.setFreeList rest).setupVm e₀).asidBitmap = k.asidBitmap := by rw [hvm']; rfl
      have ha : (((k.setFreeList rest).setupVm e₀).envs e₀).envAsid = (k.envs e₀).envAsid := by
        rw [hvm', setEnv_self]; rfl
      cases has with
      | ok h => rw [hb] at h ⊢; exact .ok h
      | full h => rw [hb] at h ⊢; rw [ha]; exact .full h
    · rw [has', hvm']
      simp [allocated, mkenvid, setEnv, setMkenvidI, setBitmap, setPm, setFreeList]

theorem envAlloc_none {k : Kern} {parentId : Word} (h : k.envAlloc parentId = none) : k.envFreeList = [] := by
  unfold envAlloc at h
  split at h
  case h_1 hl => exact hl
  case h_2 => cases h

/-! ### Scheduling -/

theorem requeue_cases {k k' : Kern} (h : k.requeue = some k') : ∃ q, k' = k.setSched q ∧
    ((k.curenv = none ∧ q = k.sched) ∨
      ∃ e q₁, k.curenv = some e ∧ k.sched.remove e = some q₁ ∧
        (((k.envs e).envStatus = .RUNNABLE ∧ q₁.insertTail e = some q) ∨
          ((k.envs e).envStatus ≠ .RUNNABLE ∧ q = q₁))) := by
  unfold requeue at h
  split at h
  case h_1 hc =>
    obtain rfl := Option.some.inj h
    exact ⟨_, rfl, .inl ⟨hc, rfl⟩⟩
  case h_2 e hc =>
    obtain ⟨q₁, hq₁, h⟩ := Option.bind_eq_some_iff.1 h
    split at h
    case isTrue hr =>
      obtain ⟨q, hq, rfl⟩ := Option.map_eq_some_iff.1 h
      exact ⟨q, rfl, .inr ⟨e, q₁, hc, hq₁, .inl ⟨hr, hq⟩⟩⟩
    case isFalse hr =>
      obtain rfl := Option.some.inj h
      exact ⟨q₁, rfl, .inr ⟨e, q₁, hc, hq₁, .inr ⟨hr, rfl⟩⟩⟩

/-- The state after `env_run` of `e` with the queue `q` and the count `n`. -/
def running (k : Kern) (q : TailQueue EnvPtr) (n : Int) (e : EnvPtr) : Kern :=
  (((k.setSched q).setCount n).saveTf.setCurenv (some e)).setEnv e fun env =>
    { env with envRuns := env.envRuns + 1 }

private theorem saveTf_field {β : Type} (g : Env → β) (hg : ∀ env tf, g { env with envTf := tf } = g env) (k : Kern)
    (e : EnvPtr) : g (k.saveTf.envs e) = g (k.envs e) := by
  unfold saveTf
  split
  · exact setEnv_field g (hg _ _) e
  · rfl

private theorem envRun_cases {k k' : Kern} {e : EnvPtr} (h : k.envRun e = some k') :
    (k.envs e).envStatus = .RUNNABLE ∧
      k' = (k.saveTf.setCurenv (some e)).setEnv e fun env => { env with envRuns := env.envRuns + 1 } := by
  unfold envRun at h
  split at h
  case isTrue hr => exact ⟨hr, (Option.some.inj h).symm⟩
  case isFalse => cases h

/-- `schedule` runs the head of the requeued list, or goes on with the runnable current environment. -/
theorem schedule_cases {k k' : Kern} {yield : Bool} (h : k.schedule yield = some k') :
    ∃ q n e, (k.envs e).envStatus = .RUNNABLE ∧ k' = k.running q n e ∧
      ((∃ k₁, k.requeue = some k₁ ∧ k₁ = k.setSched q ∧ q.first = some e) ∨
        (q = k.sched ∧ k.curenv = some e)) := by
  unfold schedule at h
  split at h
  · obtain ⟨k₁, hk₁, h⟩ := Option.bind_eq_some_iff.1 h
    obtain ⟨e, he, h⟩ := Option.bind_eq_some_iff.1 h
    obtain ⟨q, rfl, -⟩ := requeue_cases hk₁
    obtain ⟨hr, rfl⟩ := envRun_cases h
    exact ⟨q, _, e, hr, rfl, .inl ⟨_, hk₁, rfl, he⟩⟩
  · obtain ⟨e, he, h⟩ := Option.bind_eq_some_iff.1 h
    obtain ⟨hr, rfl⟩ := envRun_cases h
    exact ⟨k.sched, _, e, hr, rfl, .inr ⟨rfl, he⟩⟩

/-- A field of an environment that neither its frame nor its run count touches survives `env_run`. -/
theorem running_field {β : Type} (g : Env → β) (htf : ∀ env tf, g { env with envTf := tf } = g env)
    (hruns : ∀ env n, g { env with envRuns := n } = g env) (k : Kern) (q : TailQueue EnvPtr) (n : Int)
    (e e' : EnvPtr) : g ((k.running q n e).envs e') = g (k.envs e') :=
  (setEnv_field g (hruns _ _) e').trans (saveTf_field g htf ((k.setSched q).setCount n) e')

/-! ### Destroying an environment -/

/-- The state after `env_free`. -/
def freed (k : Kern) (e : EnvPtr) (pm : Pmap) (q : TailQueue EnvPtr) : Kern :=
  ((((k.setPm pm).asidFree (k.envs e).envAsid).setFreeList (e :: k.envFreeList)).setSched q).setEnv e
    fun env => { env with envStatus := .FREE }

theorem envFree_cases {k k' : Kern} {e : EnvPtr} (h : k.envFree e = some k') :
    ∃ pgdir pm q, (k.envs e).envPgdir = some pgdir ∧ k.pm.freeSpace pgdir (k.envs e).envAsid = some pm ∧
      k.sched.remove e = some q ∧ k' = k.freed e pm q := by
  obtain ⟨pgdir, hp, h⟩ := Option.bind_eq_some_iff.1 h
  obtain ⟨pm, hpm, h⟩ := Option.bind_eq_some_iff.1 h
  obtain ⟨q, hq, rfl⟩ := Option.map_eq_some_iff.1 h
  exact ⟨pgdir, pm, q, hp, hpm, hq, rfl⟩

theorem envDestroy_cases {k k' : Kern} {e : EnvPtr} {left : Bool} (h : k.envDestroy e = some (k', left)) :
    ∃ k₁, k.envFree e = some k₁ ∧
      ((k.curenv = some e ∧ left = true ∧ (k₁.setCurenv none).schedule true = some k') ∨
        (k.curenv ≠ some e ∧ left = false ∧ k' = k₁)) := by
  obtain ⟨k₁, hk₁, h⟩ := Option.bind_eq_some_iff.1 h
  have hcur : k₁.curenv = k.curenv := by obtain ⟨_, _, _, _, _, _, rfl⟩ := envFree_cases hk₁; rfl
  refine ⟨k₁, hk₁, ?_⟩
  split at h
  case isTrue hc =>
    obtain ⟨k₂, hk₂, h⟩ := Option.map_eq_some_iff.1 h
    simp only [Prod.mk.injEq] at h
    obtain ⟨rfl, rfl⟩ := h
    exact .inl ⟨hcur ▸ hc, rfl, hk₂⟩
  case isFalse hc =>
    simp only [Option.some.injEq, Prod.mk.injEq] at h
    obtain ⟨rfl, rfl⟩ := h
    exact .inr ⟨hcur ▸ hc, rfl, rfl⟩

/-! ### Creating an environment -/

/-- The state after `env_create` loaded the image of the new environment `e`. -/
def created (k : Kern) (e : EnvPtr) (pm : Pmap) (binary : Image) (priority : Word) : Kern :=
  ((k.setPm pm).setEnv e fun env => { env with
    envPri := priority
    envStatus := .RUNNABLE
    envTf := { env.envTf with cp0Epc := binary.entry } }).setSched (k.sched.insertHead e)

theorem envCreate_cases {k k' : Kern} {binary : Image} {priority : Word} (h : k.envCreate binary priority = some k') :
    ∃ e k₁ pgdir pm, k.envAlloc 0 = some (e, k₁) ∧ (k₁.envs e).envPgdir = some pgdir ∧
      k₁.pm.loadIcode pgdir (k₁.envs e).envAsid binary = some pm ∧ k' = k₁.created e pm binary priority := by
  obtain ⟨⟨e, k₁⟩, hk₁, h⟩ := Option.bind_eq_some_iff.1 h
  obtain ⟨pgdir, hp, h⟩ := Option.bind_eq_some_iff.1 h
  obtain ⟨pm, hpm, rfl⟩ := Option.map_eq_some_iff.1 h
  exact ⟨e, k₁, pgdir, pm, hk₁, hp, hpm, rfl⟩

end Kern

end Mos
