import Mos.Inv.Mem
import Mathlib.Data.Fintype.Prod

/-!
# The counts of the pages

In every run in which `page_insert` is asked for nothing that an entry or a count cannot hold, and in which no
environment is destroyed whose directory has a table above `UTOP`, the count of every page is the number of references
to it, and pages on the free list are not used.
-/

namespace Mos

open Kern

namespace Kern

/-- The page that `e` has mapped at index `j` of its table `i`, below `UTOP`. -/
def userMap (k : Kern) (x : EnvPtr × Idx × Idx) : Option Nat :=
  if x.2.1 < PDX UTOP then
    (k.dirs x.1).bind fun d => (entry (k.pm.word d x.2.1)).bind fun t => entry (k.pm.word t x.2.2)
  else none

/-- A page directory or a page table in use: of the template, or of a live environment. -/
def IsTree (mc : Machine) (k : Kern) (p : Nat) : Prop :=
  (∃ b, mc.baseFrame b = p) ∨ (∃ e, k.dirs e = some p) ∨
    ∃ e d i, k.dirs e = some d ∧ userIdx i = true ∧ entry (k.pm.word d i) = some p

/-- The entries of a directory that `env_free` does not look at are empty. -/
def noJunk (m : Pmap) (d : Nat) : Bool :=
  (List.finRange 1024).all fun i => !(PDX ULIM ≤ i && i ≠ PDX KSEG2 && has (m.word d i) PTE_V)

/-- No table is lost with an environment that the call destroys. -/
def dropAdmits (k : Kern) (cur : EnvPtr) : Call → Bool
  | .envDestroy envid => (k.envid2env cur envid true).all fun e => (k.envs e).envPgdir.all fun d => noJunk k.pm d
  | _ => true

/-- Calls that keep the counts. -/
def callCountsAdmits (k : Kern) (cur : EnvPtr) (c : Call) : Bool := callMemAdmits k cur c && dropAdmits k cur c

end Kern

open Classical in
/-- The count of every page that is handed out is the number of entries below `UTOP` that map it, and one more if it is
a directory or a table; a page on the free list is neither. -/
structure CountsOk (mc : Machine) (k : Kern) : Prop where
  refs : ∀ p, mc.used ≤ p → p < mc.npage → p ∉ k.pm.pageFreeList →
    (k.pm.ppRef p).toNat = refCount k.userMap p + if k.IsTree mc p then 1 else 0
  free : ∀ p ∈ k.pm.pageFreeList, (∀ x, k.userMap x ≠ some p) ∧ ¬k.IsTree mc p

/-- Steps that keep the counts. -/
def countsAdmits (s : State) : Event → Bool
  | .create _ _ => s.kern.vmFree
  | .handle => match s.phase with
    | .entered (.syscall _) => s.kern.onCall callCountsAdmits
    | _ => true
  | _ => true

/-- A directory is given up without tables above `UTOP`. -/
def countsPolicy : Policy where
  perm _ := True
  own := Policy.any.own
  page _ := True
  drop _ d m := Mem.NoJunk d m
  drop_mono h hword _ := by
    intro i hi hk
    have hle : PDX UTOP ≤ i := le_trans (by decide) hi
    rw [hword i hle]
    exact h i hi hk

theorem noJunk_iff {m : Pmap} {d : Nat} : noJunk m d = true ↔ Mem.NoJunk d m := by
  rw [noJunk, List.all_eq_true]
  constructor
  · intro hall i hi hk
    simpa [hi, hk] using hall i (List.mem_finRange i)
  · intro hall i _
    by_cases hi : PDX ULIM ≤ i
    · by_cases hk : i = PDX KSEG2
      · simp [hk]
      · simp [hall i hi hk]
    · simp [hi]

/-! ### References and counts -/

section

variable {mc : Machine} {k : Kern} {leak : Nat → Nat} {p : Nat}

theorem userMap_eq (mc : Machine) (k : Kern) (x : EnvPtr × Idx × Idx) :
    k.userMap x = k.mem.target mc (.pte x.1 x.2.1 x.2.2) := rfl

theorem isTree_iff : k.IsTree mc p ↔ ∃ s, s.Structural ∧ k.mem.target mc s = some p := by
  constructor
  · rintro (⟨b, rfl⟩ | ⟨e, hd⟩ | ⟨e, d, i, hd, hi, ht⟩)
    · exact ⟨.base b, trivial, rfl⟩
    · exact ⟨.dir e, trivial, hd⟩
    · exact ⟨.pde e i, trivial, (target_pde hd hi).trans ht⟩
  · rintro ⟨s, hs, hp⟩
    cases s with
    | base b => exact .inl ⟨b, Option.some.inj hp⟩
    | dir e => exact .inr (.inl ⟨e, hp⟩)
    | pde e i =>
      obtain ⟨hi, d, hd, ht⟩ := target_pde_some hp
      exact .inr (.inr ⟨e, d, i, hd, hi, ht⟩)
    | pte e i j => exact hs.elim

open Classical in
/-- The references to a page are the entries below `UTOP` and the place in the tree. -/
private theorem refCount_target (h : TreeLike Slot.Structural (k.mem.target mc)) (p : Nat) :
    refCount (k.mem.target mc) p = refCount k.userMap p + if k.IsTree mc p then 1 else 0 := by
  by_cases ht : k.IsTree mc p
  · obtain ⟨s, hs, hp⟩ := isTree_iff.1 ht
    have hone : refCount (k.mem.target mc) p = 1 := refCount_eq_one hp fun s' hs' => h s s' p hs hp hs'
    have hzero : refCount k.userMap p = 0 := by
      rw [refCount_eq_zero]
      intro x hx
      have hsx := h s (.pte x.1 x.2.1 x.2.2) p hs hp hx
      rw [← hsx] at hs
      exact hs
    rw [hone, hzero, if_pos ht]
  · have hinj : Function.Injective fun x : EnvPtr × Idx × Idx => Slot.pte x.1 x.2.1 x.2.2 := by
      rintro ⟨e, i, j⟩ ⟨e', i', j'⟩ heq
      cases heq
      rfl
    have hcomp := refCount_comp (f := k.mem.target mc) (p := p) hinj fun s hs => by
      have hS : ¬s.Structural := fun hS => ht (isTree_iff.2 ⟨s, hS, hs⟩)
      cases s with
      | pte e i j => exact ⟨(e, i, j), rfl⟩
      | _ => exact absurd trivial hS
    rw [if_neg ht, Nat.add_zero, ← hcomp]
    rfl

private theorem CountsOk.of_memOk (h : MemOk mc (fun _ => 0) k) : CountsOk mc k := by
  refine ⟨fun p hlo _ _ => ?_, fun p hp => ?_⟩
  · rw [← refCount_target h.mem.tree.tree]
    exact (h.mem.refs.refs p hlo).trans (Nat.add_zero _)
  · obtain ⟨⟨hlo, -⟩, h0⟩ := h.mem.refs.free p hp
    have hunused := (h.mem.refs.unused hlo h0).1
    refine ⟨fun x => hunused (.pte x.1 x.2.1 x.2.2), fun ht => ?_⟩
    obtain ⟨s, -, hs⟩ := isTree_iff.1 ht
    exact hunused s hs

end

/-! ### Runs -/

theorem memAdmits_of_counts {s : State} {ev : Event} (h : countsAdmits s ev = true) : memAdmits s ev = true := by
  obtain ⟨phase, k⟩ := s
  cases ev with
  | create => exact h
  | handle =>
    cases phase with
    | entered x =>
      cases x with
      | syscall junk =>
        have h : k.onCall callCountsAdmits = true := h
        show k.onCall callMemAdmits = true
        simp only [onCall, Option.all_eq_true] at h ⊢
        intro cur hc c hd
        have ha := h cur hc c hd
        rw [callCountsAdmits, Bool.and_eq_true] at ha
        exact ha.1
      | _ => rfl
    | _ => rfl
  | _ => rfl

theorem stepPolicy_of_counts {mc : Machine} {leak : Nat → Nat} {s : State} {ev : Event} (hm : MemOk mc leak s.kern)
    (h : countsAdmits s ev = true) : StepPolicy countsPolicy s ev := by
  intro cur c hcall
  refine ⟨fun _ _ => ⟨trivial, trivial⟩, fun envid e d hc he hd => ?_⟩
  subst hc
  unfold State.call at hcall
  split at hcall
  case h_2 => cases hcall
  case h_1 junk hphase =>
    obtain ⟨cur', hcur, hcall⟩ := Option.bind_eq_some_iff.1 hcall
    obtain ⟨c', hdec, hcall⟩ := Option.map_eq_some_iff.1 hcall
    simp only [Prod.mk.injEq] at hcall
    obtain ⟨rfl, rfl⟩ := hcall
    have ha : s.kern.onCall callCountsAdmits = true := by
      unfold countsAdmits at h
      dsimp only at h
      rwa [hphase] at h
    rw [onCall_eq hcur hdec, callCountsAdmits, Bool.and_eq_true] at ha
    have ha : dropAdmits s.kern.skipInsn cur' (.envDestroy envid) = true := ha.2
    have hlive : (s.kern.skipInsn.envs e).envStatus ≠ .FREE := envid2env_live (hm.live.cur _ hcur) he
    have hp : (s.kern.skipInsn.envs e).envPgdir = some d := (dirs_of_live hlive).symm.trans hd
    rw [dropAdmits, he, Option.all_some, hp, Option.all_some] at ha
    exact noJunk_iff.1 ha

/-- The counts are right in every run of admitted steps. -/
theorem counts_ok {mc : Machine} {l : List (State × Event)} {s : State}
    (h : kernel.Steps (fun s ev => countsAdmits s ev = true) ⟨.user, mc.bootKern⟩ l s) : CountsOk mc s.kern := by
  refine CountsOk.of_memOk (h.invariant (I := fun _ s => MemOk mc (fun _ => 0) s.kern) (MemOk.boot mc) ?_)
  intro l t ev u hm ha hs
  obtain ⟨leak', hm', hleak⟩ := hm.step (State.step_cases hs) (memAdmits_of_counts ha) (stepPolicy_of_counts hm ha)
  rwa [hleak fun _ _ _ hd => hd] at hm'

/-- An environment allocates a page with `perm`. -/
def allocWith (perm : Word) : List Event := .create .empty 1 :: tickEvents ++ callEvents 6 0 UTEXT perm

private theorem allocValid_cond : (kernel.trace countsAdmits ⟨.user, Machine.gxemul.bootKern⟩ (allocWith PTE_V)).any fun r =>
    r.2.kern.userMap (0, 1, 0) = some 0x3FFB := by decide +kernel

theorem counts_ok_allocWith : ∃ l s, kernel.trace countsAdmits ⟨.user, Machine.gxemul.bootKern⟩ (allocWith PTE_V) =
    some (l, s) ∧ s.kern.userMap (0, 1, 0) = some 0x3FFB ∧ CountsOk Machine.gxemul s.kern := by
  obtain ⟨⟨l, s⟩, hl, hmap⟩ := (Option.any_eq_true _ _).1 allocValid_cond
  exact ⟨l, s, hl, of_decide_eq_true hmap, counts_ok (.of_trace hl)⟩

/-- With a bit of the frame number set, the entry maps the template directory, and its count is not raised. -/
private theorem allocBits_cond : (kernel.trace (fun _ _ => true) ⟨.user, Machine.gxemul.bootKern⟩ (allocWith 0x4000)).any
    fun r => r.2.kern.userMap (0, 1, 0) = some (Machine.gxemul.baseFrame 0) ∧
      r.2.kern.pm.ppRef (Machine.gxemul.baseFrame 0) = 1 ∧
      Machine.gxemul.baseFrame 0 ∉ r.2.kern.pm.pageFreeList := by decide +kernel

theorem exists_not_countsOk : ∃ l s, kernel.Steps (fun _ _ => True) ⟨.user, Machine.gxemul.bootKern⟩ l s ∧
    ¬CountsOk Machine.gxemul s.kern := by
  obtain ⟨⟨l, s⟩, hl, hcond⟩ := (Option.any_eq_true _ _).1 allocBits_cond
  obtain ⟨hmap, href, hfree⟩ := of_decide_eq_true hcond
  refine ⟨l, s, (System.Steps.of_trace hl).mono fun _ _ _ => trivial, fun hok => ?_⟩
  have hb := Machine.gxemul.baseFrame_bound 0
  have hcount := hok.refs _ hb.1 hb.2 hfree
  have htree : s.kern.IsTree Machine.gxemul (Machine.gxemul.baseFrame 0) := .inl ⟨0, rfl⟩
  have href : s.kern.pm.ppRef (Machine.gxemul.baseFrame 0) = 1 := href
  rw [href, if_pos htree] at hcount
  have hpos := refCount_pos (f := s.kern.userMap) hmap
  have hone : (1 : BitVec 16).toNat = 1 := rfl
  omega

end Mos
