import Mos.Inv.Counts

/-!
# What user code may write from `UTOP` on

The windows `UENVS` and `UPAGES` show the tables of the template, whose entries lack `PTE_D`.  The window `UVPT` shows
the page tables through the directory, and there the entry for a table is the directory entry that `pgdir_walk` wrote,
which has `PTE_D`: user code may write every page table, and only the directory itself is read-only.
-/

namespace Mos

open Kern

variable {mc : Machine} {leak : Nat → Nat} {k k' : Kern} {e : EnvPtr} {va pte : Word}

/-- The addresses in `[UTOP, ULIM)` at which user code gets no right to write. -/
def readOnlyVa (va : Word) : Bool := va < UVPT || PTX va = PDX UVPT || PTX va = PDX KSEG2

/-! ### The entries -/

private theorem tablePde_D (t : Nat) : has (Pmap.tablePde t) PTE_D = true := by
  rw [Pmap.tablePde_eq, entry_D]
  decide

private theorem segmentPte_D (pp : Nat) : has (Pmap.segmentPte pp PTE_G) PTE_D = false := by
  rw [Pmap.segmentPte, entry_D]
  decide

private theorem self_D (d : Nat) : has (page2pa d ||| PTE_V) PTE_D = false := by
  have h0 : page2pa d ||| PTE_V = page2pa d ||| 0 ||| PTE_V := by simp
  rw [h0, entry_D]
  decide

/-- A lookup that succeeds, in terms of the words of the tables. -/
theorem pageLookup_words {m : Pmap} {d pp : Nat} {ptr : PtePtr} (h : m.pageLookup d va = some (some (pp, ptr))) :
    has (m.word d (PDX va)) PTE_V = true ∧ ptr = (PPN (m.word d (PDX va)), PTX va) ∧
      has (m.word ptr.1 ptr.2) PTE_V = true ∧ pp = PPN (m.word ptr.1 ptr.2) := by
  obtain ⟨⟨r, q, m'⟩, hw, h⟩ := Option.bind_eq_some_iff.1 h
  unfold Pmap.pgdirWalk at hw
  dsimp only at hw
  split at hw
  case isFalse =>
    rw [if_neg (by decide)] at hw
    simp only [Option.some.injEq, Prod.mk.injEq] at hw
    obtain ⟨-, rfl, -⟩ := hw
    cases h
  case isTrue hv =>
    obtain ⟨t, ht, hw⟩ := Option.map_eq_some_iff.1 hw
    obtain ⟨rfl, -⟩ := Pmap.pa2page_cases ht
    simp only [Prod.mk.injEq] at hw
    obtain ⟨-, rfl, rfl⟩ := hw
    dsimp only at h
    split at h
    case isFalse => cases h
    case isTrue hpte =>
      obtain ⟨q, hq, h⟩ := Option.map_eq_some_iff.1 h
      simp only [Option.some.injEq, Prod.mk.injEq] at h
      obtain ⟨rfl, rfl⟩ := h
      exact ⟨hv, rfl, hpte, (Pmap.pa2page_cases hq).1⟩

/-- The words of the two shared tables. -/
private theorem Mem.Ok.shared_word {D : Dirs} {m : Pmap} (h : Mem.Ok mc leak ⟨D, m⟩) {t : Nat} {j : Idx}
    (ht : t = mc.envsTable ∨ t = mc.pagesTable) (hv : has (m.word t j) PTE_V = true) :
    ∃ pp, m.word t j = Pmap.segmentPte pp PTE_G := by
  have hbase : ∀ a b : Fin 3, mc.baseFrame a = mc.baseFrame b → a = b := fun a b heq => mc.baseFrame_injective heq
  have hne : mc.envsTable ≠ mc.pagesTable := fun heq => absurd (hbase 2 1 heq) (by decide)
  have hbe : mc.envsTable ≠ mc.bootPgdir := fun heq => absurd (hbase 2 0 heq) (by decide)
  have hbp : mc.pagesTable ≠ mc.bootPgdir := fun heq => absurd (hbase 1 0 heq) (by decide)
  rcases ht with rfl | rfl
  · have hw : m.word mc.envsTable = mc.bootPmap.word mc.envsTable := h.tree.base 2
    rw [hw] at hv ⊢
    simp only [Machine.bootPmap, if_neg hbe, if_neg hne, if_true] at hv ⊢
    split at hv
    case isTrue hlt => exact ⟨_, if_pos hlt⟩
    case isFalse => simp at hv
  · have hw : m.word mc.pagesTable = mc.bootPmap.word mc.pagesTable := h.tree.base 1
    rw [hw] at hv ⊢
    simp only [Machine.bootPmap, if_neg hbp, if_true] at hv ⊢
    split at hv
    case isTrue hlt => exact ⟨_, if_pos hlt⟩
    case isFalse => simp at hv

/-- The entries of a directory: for a table of its own, for a shared one, and the two for itself. -/
private theorem Mem.Ok.pde_D {D : Dirs} {m : Pmap} {d : Nat} {j : Idx} (h : Mem.Ok mc leak ⟨D, m⟩) (hd : D e = some d)
    (hv : has (m.word d j) PTE_V = true) :
    has (m.word d j) PTE_D = !(j = PDX UVPT || j = PDX KSEG2) := by
  by_cases hi : userIdx j = true
  · obtain ⟨ht, -⟩ := h.pde_valid hd hi hv
    have hnot : (decide (j = PDX UVPT) || decide (j = PDX KSEG2)) = false := by
      rw [Bool.or_eq_false_iff, decide_eq_false_iff_not, decide_eq_false_iff_not]
      constructor
      · rintro rfl
        exact absurd hi (by decide)
      · rintro rfl
        exact absurd hi (by decide)
    rw [h.tree.form e d j _ hd ht, tablePde_D, hnot]
    rfl
  · obtain ⟨hu, hp⟩ := h.tree.shared e d hd
    obtain ⟨hs₁, hs₂⟩ := h.tree.self e d hd
    rcases special_idx (by simpa using hi) with rfl | rfl | rfl | rfl
    · rw [hu, tablePde_D]
      decide
    · rw [hp, tablePde_D]
      decide
    · rw [hs₁, self_D]
      decide
    · rw [hs₂, self_D]
      decide

/-- What the refill returns from `UTOP` on. -/
private theorem refill_D (h : MemOk mc leak k) (hlive : (k.envs e).envStatus ≠ .FREE) (hlo : UTOP ≤ va) (hhi : va < ULIM)
    (hr : k.doTlbRefill e va = some (k', pte)) : has pte PTE_D = false ↔ readOnlyVa va = true := by
  obtain ⟨hs, pgdir, pp, ptr, hp, hl, rfl⟩ := doTlbRefill_cases hr
  obtain ⟨leak', h', -⟩ : ∃ leak', MemOk mc leak' k' ∧
      ((∀ asid d m, Policy.any.drop asid d m → Mem.NoJunk d m) → leak' = leak) := h.served hlive hhi hs
  have hst : (k'.envs e).envStatus = (k.envs e).envStatus :=
    congrArg Core.status (congrFun (SameCore.served hs).cores e)
  have hd : k'.dirs e = some pgdir := (dirs_of_live (by rw [hst]; exact hlive)).trans hp
  obtain ⟨hv, rfl, hpte, rfl⟩ := pageLookup_words hl
  have hlo : 509 * 2 ^ 22 ≤ va.toNat := hlo
  have hhi : va.toNat < 512 * 2 ^ 22 := hhi
  have hpdx := PDX_toNat va
  by_cases hwin : va < UVPT
  · -- the two shared tables
    have hwin' : va.toNat < 511 * 2 ^ 22 := hwin
    have hro : readOnlyVa va = true := by simp [readOnlyVa, hwin]
    have htab : PPN (k'.pm.word pgdir (PDX va)) = mc.envsTable ∨ PPN (k'.pm.word pgdir (PDX va)) = mc.pagesTable := by
      obtain ⟨hu, hpg⟩ := h'.mem.tree.shared e pgdir hd
      have h20 : ∀ b, mc.baseFrame b < 2 ^ 20 := fun b => h'.mem.tree.lt (.base b) _ rfl
      rcases (show (PDX va : Nat) = 509 ∨ (PDX va : Nat) = 510 by omega) with heq | heq
      · left
        rw [show PDX va = PDX UENVS from Fin.ext heq]
        exact (congrArg PPN hu).trans (Pmap.PPN_tablePde (h20 2))
      · right
        rw [show PDX va = PDX UPAGES from Fin.ext heq]
        exact (congrArg PPN hpg).trans (Pmap.PPN_tablePde (h20 1))
    obtain ⟨pp, hw⟩ := h'.mem.shared_word htab hpte
    rw [hro]
    dsimp only
    rw [hw, segmentPte_D]
    exact ⟨fun _ => rfl, fun _ => rfl⟩
  · -- the directory
    have hwin' : 511 * 2 ^ 22 ≤ va.toNat := BitVec.not_lt.1 hwin
    have hidx : PDX va = PDX UVPT := Fin.ext (show (PDX va : Nat) = 511 by omega)
    have hself : PPN (k'.pm.word pgdir (PDX va)) = pgdir := by
      rw [hidx]
      exact (congrArg PPN (h'.mem.tree.self e pgdir hd).1).trans (entry_eq_some.1 (entry_self (h'.mem.tree.lt (.dir e) pgdir hd))).2
    dsimp only at hpte ⊢
    rw [hself] at hpte ⊢
    have hro : readOnlyVa va = (decide (PTX va = PDX UVPT) || decide (PTX va = PDX KSEG2)) := by
      have hdec : decide (va < UVPT) = false := decide_eq_false hwin
      rw [readOnlyVa, hdec, Bool.false_or]
    rw [h'.mem.pde_D hd hpte, hro, Bool.not_eq_false']

/-- An environment has a page mapped, and the refill is asked for the first page of `envs`. -/
private theorem window_read_cond : (kernel.trace memAdmits ⟨.user, Machine.gxemul.bootKern⟩ (allocWith PTE_V)).any fun r =>
    (r.2.kern.envs 0).envStatus = .RUNNABLE ∧ (r.2.kern.doTlbRefill 0 UENVS).isSome := by decide +kernel

/-- In the window at `UVPT`, the entry for the table of `UTEXT` has `PTE_D`. -/
private theorem window_write_cond : (kernel.trace memAdmits ⟨.user, Machine.gxemul.bootKern⟩ (allocWith PTE_V)).any fun r =>
    (r.2.kern.envs 0).envStatus = .RUNNABLE ∧
      (r.2.kern.doTlbRefill 0 (Pmap.vptVa UVPT (PDX UTEXT))).any fun x => has x.2 PTE_D := by decide +kernel

end Mos
