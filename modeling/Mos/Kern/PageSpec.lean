import Mos.Kern.Pmap

/-!
# What the page table operations do

One equation for each way through `pgdir_walk`, `page_lookup`, `page_remove` and `page_insert`, in terms of three
updates: linking a new table (`linkTable`), writing an entry and counting it (`fill`), and clearing an entry and
uncounting it (`unmap`).
-/

namespace Mos

namespace Pmap

variable {m m' : Pmap} {pgdir : Nat} {asid : Asid} {va : Word}

/-- The entry that `pgdir_walk` writes for a new table. -/
def tablePde (t : Nat) : Word := page2pa t ||| PTE_V ||| PTE_D

/-- A new table `t`, taken off the free list, becomes entry `j` of `pgdir`. -/
def linkTable (m : Pmap) (pgdir t : Nat) (rest : List Nat) (j : Idx) : Pmap :=
  (({ m with pageFreeList := rest, word := Function.update m.word t fun _ => 0 } : Pmap).setRef t 1).setWord pgdir j
    (tablePde t)

/-- The entry `i` of `t` is set to the page `pp`, which gets one more reference. -/
def fill (m : Pmap) (t : Nat) (i : Idx) (pp : Nat) (perm : Word) : Pmap :=
  (m.setWord t i (page2pa pp ||| perm ||| PTE_V)).setRef pp (m.ppRef pp + 1)

section

variable {d t p q : Nat} {i j : Idx} {rest : List Nat} {perm : Word}

theorem link_word (hd : q ≠ d) (ht : q ≠ t) : (m.linkTable d t rest i).word q = m.word q := by
  simp [linkTable, setWord, setRef, Function.update_of_ne hd, Function.update_of_ne ht]

theorem fill_word (hq : q ≠ t) : (m.fill t j p perm).word q = m.word q := Function.update_of_ne hq ..

theorem fill_table : (m.fill t j p perm).word t = Function.update (m.word t) j (page2pa p ||| perm ||| PTE_V) :=
  Function.update_self ..

end

theorem tablePde_eq (t : Nat) : tablePde t = page2pa t ||| PTE_D ||| PTE_V := by
  simp only [tablePde, BitVec.or_assoc, BitVec.or_comm PTE_V]

theorem PPN_tablePde {t : Nat} (ht : t < 2 ^ 20) : PPN (tablePde t) = t := by
  have hD : PPN PTE_D = 0 := by decide
  rw [tablePde_eq, PPN_entry ht, hD, Nat.or_zero]

@[simp] theorem tablePde_V (t : Nat) : has (tablePde t) PTE_V = true := by
  rw [tablePde_eq, entry_V]

theorem pa2page_page2pa {pp : Nat} (h : pp < m.npage) (h20 : pp < 2 ^ 20) : m.pa2page (page2pa pp) = some pp := by
  rw [pa2page, PPN_page2pa h20, if_pos h]

theorem pa2page_cases {pa : Word} {pp : Nat} (h : m.pa2page pa = some pp) : pp = PPN pa ∧ PPN pa < m.npage := by
  unfold pa2page at h
  split at h
  case isTrue hlt => exact ⟨(Option.some.inj h).symm, hlt⟩
  case isFalse => cases h

theorem tlbInvalidate_nil (h : m.tlb = []) (asid : Asid) (va : Word) : m.tlbInvalidate asid va = m := by
  cases m
  simp only [tlbInvalidate] at h ⊢
  simp [h]

/-! ### The walk -/

/-- The walk finds the table of a valid directory entry. -/
theorem pgdirWalk_valid (create : Bool) (hv : has (m.word pgdir (PDX va)) PTE_V = true)
    (hp : PPN (m.word pgdir (PDX va)) < m.npage) :
    m.pgdirWalk pgdir va create = some (0, some (PPN (m.word pgdir (PDX va)), PTX va), m) := by
  simp only [pgdirWalk, hv, if_true, pa2page, if_pos hp, Option.map_some]

theorem pgdirWalk_invalid (hv : has (m.word pgdir (PDX va)) PTE_V = false) :
    m.pgdirWalk pgdir va false = some (0, none, m) := by
  simp [pgdirWalk, hv]

private theorem pgdirWalk_full (hv : has (m.word pgdir (PDX va)) PTE_V = false) (hfree : m.pageFreeList = []) :
    m.pgdirWalk pgdir va true = some (-E_NO_MEM, none, m) := by
  simp [pgdirWalk, hv, pageAlloc, hfree]

private theorem pgdirWalk_link {t : Nat} {rest : List Nat} (hv : has (m.word pgdir (PDX va)) PTE_V = false)
    (hfree : m.pageFreeList = t :: rest) :
    m.pgdirWalk pgdir va true = some (0, some (t, PTX va), m.linkTable pgdir t rest (PDX va)) := by
  simp [pgdirWalk, hv, pageAlloc, hfree, linkTable, tablePde]

/-! ### Inserting a page -/

theorem pageInsertFresh_valid {pp : Nat} {perm : Word} (hv : has (m.word pgdir (PDX va)) PTE_V = true)
    (hp : PPN (m.word pgdir (PDX va)) < m.npage) :
    m.pageInsertFresh pgdir asid pp va perm =
      some (0, (m.tlbInvalidate asid va).fill (PPN (m.word pgdir (PDX va))) (PTX va) pp perm) := by
  simp only [pageInsertFresh]
  rw [pgdirWalk_valid (m := m.tlbInvalidate asid va) true hv hp]
  rfl

theorem pageInsertFresh_full {pp : Nat} {perm : Word} (hv : has (m.word pgdir (PDX va)) PTE_V = false)
    (hfree : m.pageFreeList = []) :
    m.pageInsertFresh pgdir asid pp va perm = some (-E_NO_MEM, m.tlbInvalidate asid va) := by
  simp only [pageInsertFresh]
  rw [pgdirWalk_full (m := m.tlbInvalidate asid va) hv hfree]
  rfl

theorem pageInsertFresh_link {pp t : Nat} {rest : List Nat} {perm : Word}
    (hv : has (m.word pgdir (PDX va)) PTE_V = false) (hfree : m.pageFreeList = t :: rest) :
    m.pageInsertFresh pgdir asid pp va perm =
      some (0, ((m.tlbInvalidate asid va).linkTable pgdir t rest (PDX va)).fill t (PTX va) pp perm) := by
  simp only [pageInsertFresh]
  rw [pgdirWalk_link (m := m.tlbInvalidate asid va) hv hfree]
  rfl

/-- Without a table, or with an invalid entry, `page_insert` starts at its step 2. -/
theorem pageInsert_unmapped {pp : Nat} {perm : Word}
    (h : has (m.word pgdir (PDX va)) PTE_V = false ∨ (PPN (m.word pgdir (PDX va)) < m.npage ∧
      has (m.word (PPN (m.word pgdir (PDX va))) (PTX va)) PTE_V = false)) :
    m.pageInsert pgdir asid pp va perm = m.pageInsertFresh pgdir asid pp va perm := by
  cases hv : has (m.word pgdir (PDX va)) PTE_V with
  | false => simp only [pageInsert, pgdirWalk_invalid hv, Option.bind_some]
  | true =>
    obtain ⟨hp, hpte⟩ := h.resolve_left (by simp [hv])
    simp only [pageInsert, pgdirWalk_valid _ hv hp, Option.bind_some, hpte]
    rfl

/-! ### Allocating and freeing pages -/

/-- The page `q` is taken off the free list and zeroed. -/
def take (m : Pmap) (q : Nat) (rest : List Nat) : Pmap :=
  { m with pageFreeList := rest, word := Function.update m.word q fun _ => 0 }

theorem pageAlloc_cases {q : Nat} (h : m.pageAlloc = some (q, m')) :
    ∃ rest, m.pageFreeList = q :: rest ∧ m' = m.take q rest := by
  unfold pageAlloc at h
  split at h
  case h_1 => cases h
  case h_2 pp rest hl =>
    simp only [Option.some.injEq, Prod.mk.injEq] at h
    obtain ⟨rfl, rfl⟩ := h
    exact ⟨rest, hl, rfl⟩

theorem pageDecref_eq {pp : Nat} (h : m.ppRef pp ≠ 0) : m.pageDecref pp = some { m.setRef pp (m.ppRef pp - 1) with
    pageFreeList := if m.ppRef pp - 1 = 0 then pp :: m.pageFreeList else m.pageFreeList } := by
  have href : (m.setRef pp (m.ppRef pp - 1)).ppRef pp = m.ppRef pp - 1 := Function.update_self ..
  rw [pageDecref, if_neg h]
  dsimp only
  by_cases h0 : m.ppRef pp - 1 = 0
  · rw [if_pos (href.trans h0), pageFree, if_pos (href.trans h0), if_pos h0]
    rfl
  · have hne : (m.setRef pp (m.ppRef pp - 1)).ppRef pp ≠ 0 := fun heq => h0 (href.symm.trans heq)
    rw [if_neg hne, if_neg h0]
    rfl

/-- A reference less; the last one frees the page. -/
theorem pageDecref_cases {pp : Nat} (h : m.pageDecref pp = some m') : m.ppRef pp ≠ 0 ∧
    m' = { m.setRef pp (m.ppRef pp - 1) with
      pageFreeList := if m.ppRef pp - 1 = 0 then pp :: m.pageFreeList else m.pageFreeList } := by
  by_cases hr : m.ppRef pp = 0
  · rw [pageDecref, if_pos hr] at h
    cases h
  · rw [pageDecref_eq hr] at h
    exact ⟨hr, (Option.some.inj h).symm⟩

end Pmap

end Mos
