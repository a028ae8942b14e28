import Mos.Inv.Overflow

/-!
# Reusing a slot

What `env_alloc` makes of a slot depends on the previous occupant: it does not set the fields of the messages and the
signal entry, and where no page is left for a directory, the old directory stays.  `Residue` is all that a new
environment inherits.
-/

namespace Mos

open Kern

/-- The entry through which `e` sees the page of `va`, if the page is mapped. -/
def Kern.mapping (k : Kern) (e : EnvPtr) (va : Word) : Option Word :=
  (k.envs e).envPgdir.bind fun pgdir => (k.pm.pageLookup pgdir va).bind fun r => r.map fun q => k.pm.word q.2.1 q.2.2

/-- The mappings below `UTOP`. -/
def Kern.userMapping (k : Kern) (e : EnvPtr) (va : Word) : Option Word := if va < UTOP then k.mapping e va else none

/-- The fields of the messages. -/
structure Mailbox where
  recving : Word
  value : Word
  sender : Word
  dstva : Word
  perm : Word
  deriving DecidableEq

def Env.mailbox (env : Env) : Mailbox :=
  ⟨env.envIpcRecving, env.envIpcValue, env.envIpcFrom, env.envIpcDstva, env.envIpcPerm⟩

/-- What the kernel knows of an environment, apart from its id, its parent, its ASID and how it is scheduled. -/
@[ext] structure EnvView where
  mailbox : Mailbox
  doSignalEntry : Word
  sighandlerTable : Fin 64 → Sigaction
  envSigprocmask : Sigset
  signoHeader : Option SignoPtr
  envUserTlbModEntry : Word
  envRuns : Word
  mappings : Word → Option Word

def Kern.view (k : Kern) (e : EnvPtr) : EnvView where
  mailbox := (k.envs e).mailbox
  doSignalEntry := (k.envs e).doSignalEntry
  sighandlerTable := (k.envs e).sighandlerTable
  envSigprocmask := (k.envs e).envSigprocmask
  signoHeader := (k.envs e).signoHeader
  envUserTlbModEntry := (k.envs e).envUserTlbModEntry
  envRuns := (k.envs e).envRuns
  mappings := k.userMapping e

/-- What is left in a slot for the next environment. -/
@[ext] structure Residue where
  mailbox : Mailbox
  doSignalEntry : Word
  mappings : Word → Option Word

/-- The old mappings are inherited where there is no page for a new directory. -/
def Kern.residue (k : Kern) (e : EnvPtr) : Residue where
  mailbox := (k.envs e).mailbox
  doSignalEntry := (k.envs e).doSignalEntry
  mappings := if k.pm.pageFreeList = [] then k.userMapping e else fun _ => none

/-- A new environment with the residue `r`. -/
def Residue.view (r : Residue) : EnvView where
  mailbox := r.mailbox
  doSignalEntry := r.doSignalEntry
  sighandlerTable := fun _ => ⟨0, .empty⟩
  envSigprocmask := .empty
  signoHeader := none
  envUserTlbModEntry := 0
  envRuns := 0
  mappings := r.mappings

private theorem Residue.view_injective : Function.Injective Residue.view := by
  intro r r' h
  have hbox : r.mailbox = r'.mailbox := congrArg EnvView.mailbox h
  have hentry : r.doSignalEntry = r'.doSignalEntry := congrArg EnvView.doSignalEntry h
  have hmap : r.mappings = r'.mappings := congrArg EnvView.mappings h
  exact Residue.ext hbox hentry hmap

/-- Only the directory and the memory matter for the mappings. -/
private theorem userMapping_congr {k k' : Kern} {e : EnvPtr} (hdir : (k'.envs e).envPgdir = (k.envs e).envPgdir)
    (hpm : k'.pm = k.pm) : k'.userMapping e = k.userMapping e := by
  funext va
  simp only [userMapping, mapping, hdir, hpm]

/-- Nothing is mapped below `UTOP` in a directory without tables there. -/
private theorem userMapping_empty {k : Kern} {e : EnvPtr} {p : Nat} (hdir : (k.envs e).envPgdir = some p)
    (hempty : ∀ j, j < PDX UTOP → k.pm.word p j = 0) : k.userMapping e = fun _ => none := by
  funext va
  unfold userMapping
  split
  case isFalse => rfl
  case isTrue hva =>
    have hpdx : PDX va < PDX UTOP := by
      have htop : (PDX UTOP : Nat) = 509 := by decide
      have hlt : va.toNat < UTOP.toNat := hva
      have hnat : UTOP.toNat = 0x7F400000 := by decide
      rw [Fin.lt_def, PDX_toNat, htop]
      omega
    have hv : has (k.pm.word p (PDX va)) PTE_V = false := by rw [hempty _ hpdx]; exact has_zero _
    have hlookup : k.pm.pageLookup p va = some none := by rw [Pmap.pageLookup, Pmap.pgdirWalk_invalid hv]; rfl
    rw [mapping, hdir, Option.bind_some, hlookup]
    rfl

/-- A new environment is made of the residue of its slot and of nothing else. -/
private theorem view_envAlloc {k k' : Kern} {parentId : Word} {e : EnvPtr} (h : k.envAlloc parentId = some (e, k')) :
    k'.view e = (k.residue e).view := by
  obtain ⟨rest, pgdir, pm, asid, bitmap, -, hvm, -, rfl⟩ := envAlloc_cases h
  have hmap : (k.allocated e rest pgdir pm asid bitmap parentId).userMapping e = (k.residue e).mappings := by
    cases hvm with
    | full hfull =>
      have hnil : k.pm.pageFreeList = [] := by
        cases hl : k.pm.pageFreeList with
        | nil => rfl
        | cons p pages =>
          obtain ⟨m', hm', -⟩ := envSetupVm_empty k.basePgdir hl
          rw [hm'] at hfull
          cases hfull
      rw [residue, if_pos hnil]
      exact userMapping_congr (by simp [allocated, initEnv]) rfl
    | @ok p pm hok =>
      have hcons : k.pm.pageFreeList ≠ [] := by
        intro hnil
        rw [Pmap.envSetupVm, Pmap.pageAlloc, hnil] at hok
        cases hok
      obtain ⟨p', pages, hl⟩ := List.exists_cons_of_ne_nil hcons
      obtain ⟨m', hm', -, -, hempty⟩ := envSetupVm_empty k.basePgdir hl
      have heq := hm'.symm.trans hok
      simp only [Option.some.injEq, Prod.mk.injEq] at heq
      obtain ⟨rfl, rfl⟩ := heq
      rw [residue, if_neg hcons]
      exact userMapping_empty (by simp [allocated, initEnv]) hempty
  refine EnvView.ext ?_ ?_ ?_ ?_ ?_ ?_ ?_ hmap
  all_goals simp [Kern.view, Residue.view, residue, allocated, initEnv, Env.mailbox]

/-- `sys_exofork` adds the mask and the handlers of the parent. -/
theorem view_sysExofork {k k' : Kern} {cur : EnvPtr} {r : Word} (h : k.sysExofork cur = some (k', some r))
    (hcur : (k.envs cur).envStatus ≠ .FREE) (hfree : ∀ e ∈ k.envFreeList, (k.envs e).envStatus = .FREE) :
    k.envFreeList = [] ∨ ∃ e, k.envFreeList.head? = some e ∧ k'.view e = { (k.residue e).view with
      envSigprocmask := (k.envs cur).envSigprocmask, sighandlerTable := (k.envs cur).sighandlerTable } := by
  unfold sysExofork at h
  split at h
  case h_1 hnone => exact .inl (envAlloc_none hnone)
  case h_2 e k₁ ha =>
    simp only [Option.some.injEq, Prod.mk.injEq] at h
    obtain ⟨rfl, -⟩ := h
    have hview := view_envAlloc ha
    obtain ⟨rest, pgdir, pm, asid, bitmap, hl, -, -, rfl⟩ := envAlloc_cases ha
    have hne : cur ≠ e := by
      rintro rfl
      exact hcur (hfree cur (by rw [hl]; exact List.mem_cons_self ..))
    refine .inr ⟨e, by rw [hl]; rfl, ?_⟩
    rw [← hview]
    have hmap : ∀ f : Env → Env, (∀ env, (f env).envPgdir = env.envPgdir) →
        ((k.allocated e rest pgdir pm asid bitmap (k.envs cur).envId).setEnv e f).userMapping e =
          (k.allocated e rest pgdir pm asid bitmap (k.envs cur).envId).userMapping e := fun f hf =>
      userMapping_congr (by rw [setEnv_self, hf]) rfl
    refine EnvView.ext ?_ ?_ ?_ ?_ ?_ ?_ ?_ (hmap _ fun _ => rfl)
    all_goals simp [Kern.view, forkEnv, allocated, Env.mailbox, setEnv_of_ne hne]

/-! ### Two histories -/

/-- The slot is handed out with one and the same id, ASID and parent in the two states. -/
structure SameSlot (k₁ k₂ k₁' k₂' : Kern) (parentId : Word) (e : EnvPtr) : Prop where
  left : k₁.envAlloc parentId = some (e, k₁')
  right : k₂.envAlloc parentId = some (e, k₂')
  id : (k₁'.envs e).envId = (k₂'.envs e).envId
  asid : (k₁'.envs e).envAsid = (k₂'.envs e).envAsid

/-- The new environments are alike if and only if they inherit the same. -/
theorem view_eq_iff {k₁ k₂ k₁' k₂' : Kern} {parentId : Word} {e : EnvPtr} (h : SameSlot k₁ k₂ k₁' k₂' parentId e) :
    k₁'.view e = k₂'.view e ↔ k₁.residue e = k₂.residue e := by
  rw [view_envAlloc h.left, view_envAlloc h.right]
  exact Residue.view_injective.eq_iff

/-- A child that is destroyed after it gave up the CPU, by call `n` with its argument 0. -/
def childCalls (n : Word) : List Event :=
  .create .empty 1 :: tickEvents ++ callEvents 9 0 0 0 ++ callEvents 10 0x1001 1 0 ++ callEvents 3 0 0 0 ++
    callEvents n 0 0 0 ++ callEvents 4 0x1001 0 0

/-- The state after these events, and the one in which the slot has been handed out again. -/
def childGone (n : Word) : Option (State × Kern) :=
  (Machine.gxemul.after (fun _ _ => true) (childCalls n)).bind fun s =>
    (s.kern.envAlloc 0x800).bind fun r => if r.1 = 1 then some (s, r.2) else none

private theorem childGone_cond (n : Word) (hn : n = 3 ∨ n = 14) : (childGone n).any fun r =>
    (r.2.envs 1).envId = 0x1801 ∧ (r.2.envs 1).envAsid = 1 ∧ r.1.kern.curenv = some 0 ∧
      (r.1.kern.envs 0).envId = 0x800 ∧ (r.2.envs 1).envIpcRecving = if n = 14 then 1 else 0 := by
  rcases hn with rfl | rfl <;> decide +kernel

/-- The parent can fork again, with the same id for the child whatever the call was. -/
private theorem exists_childGone (n : Word) (hn : n = 3 ∨ n = 14) : ∃ s k', kernel.Reach (fun _ _ => True) s ∧
    s.kern.envAlloc 0x800 = some (1, k') ∧ (k'.envs 1).envId = 0x1801 ∧ (k'.envs 1).envAsid = 1 ∧
      (k'.envs 1).envIpcRecving = if n = 14 then 1 else 0 := by
  obtain ⟨⟨s, k'⟩, hgone, hcond⟩ := (Option.any_eq_true _ _).1 (childGone_cond n hn)
  obtain ⟨hid, hasid, -, -, hr⟩ := of_decide_eq_true hcond
  obtain ⟨s', hs, hgone⟩ := Option.bind_eq_some_iff.1 hgone
  obtain ⟨⟨e, k₁⟩, ha, hgone⟩ := Option.bind_eq_some_iff.1 hgone
  split at hgone
  case isFalse => cases hgone
  case isTrue he =>
    simp only [Option.some.injEq, Prod.mk.injEq] at hgone
    obtain ⟨rfl, rfl⟩ := hgone
    obtain rfl : e = 1 := he
    exact ⟨s', k₁, (Machine.after_reach hs).mono fun _ _ _ => trivial, ha, hid, hasid, hr⟩

/-- A child that waited for a message leaves the flag to the next one. -/
theorem exists_view_ne : ∃ s₁ s₂ k₁ k₂, kernel.Reach (fun _ _ => True) s₁ ∧ kernel.Reach (fun _ _ => True) s₂ ∧
    SameSlot s₁.kern s₂.kern k₁ k₂ 0x800 1 ∧ k₁.view 1 ≠ k₂.view 1 := by
  obtain ⟨s₁, k₁, hs₁, ha₁, hid₁, hasid₁, hr₁⟩ := exists_childGone 3 (.inl rfl)
  obtain ⟨s₂, k₂, hs₂, ha₂, hid₂, hasid₂, hr₂⟩ := exists_childGone 14 (.inr rfl)
  refine ⟨s₁, s₂, k₁, k₂, hs₁, hs₂, ⟨ha₁, ha₂, hid₁.trans hid₂.symm, hasid₁.trans hasid₂.symm⟩, fun hview => ?_⟩
  have hrecving : (k₁.envs 1).envIpcRecving = (k₂.envs 1).envIpcRecving :=
    congrArg (fun v => v.mailbox.recving) hview
  rw [hr₁, hr₂] at hrecving
  exact absurd hrecving (by decide)

theorem view_eq_iff_childGone : ∃ (s₁ s₂ : State) (k₁ k₂ : Kern), SameSlot s₁.kern s₂.kern k₁ k₂ 0x800 1 ∧
    (k₁.view 1 = k₂.view 1 ↔ s₁.kern.residue 1 = s₂.kern.residue 1) := by
  obtain ⟨s₁, k₁, -, ha₁, hid₁, hasid₁, -⟩ := exists_childGone 3 (.inl rfl)
  obtain ⟨s₂, k₂, -, ha₂, hid₂, hasid₂, -⟩ := exists_childGone 14 (.inr rfl)
  have hslot : SameSlot s₁.kern s₂.kern k₁ k₂ 0x800 1 :=
    ⟨ha₁, ha₂, hid₁.trans hid₂.symm, hasid₁.trans hasid₂.symm⟩
  exact ⟨s₁, s₂, k₁, k₂, hslot, view_eq_iff hslot⟩

end Mos
