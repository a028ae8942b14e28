import Mos.Kern.Boot

/-!
# Memory calls that fail

`sys_mem_alloc` takes a page off the free list before it maps it.  When the mapping needs a page table and that was the
last page, the call returns the error of `page_insert` and the page is lost: it is not free, and nothing refers to it.
`sys_mem_map` takes nothing before it maps.
-/

namespace Mos

namespace Pmap

variable {m m' : Pmap} {d pp : Nat} {asid : Asid} {va perm r : Word}

/-- The directory has no table for `va`. -/
def NoTable (m : Pmap) (d : Nat) (va : Word) : Prop := has (m.word d (PDX va)) PTE_V = false

/-- The directory is its own table for `va`, and the entry of `va` in it is the directory entry itself.  Clearing it,
with a reference to the directory left, leaves no table for `va`. -/
structure Looped (m : Pmap) (d : Nat) (va : Word) : Prop where
  valid : has (m.word d (PDX va)) PTE_V = true
  self : PPN (m.word d (PDX va)) = d
  index : PTX va = PDX va
  bound : d < m.npage
  ref : m.ppRef d ≠ 0 ∧ m.ppRef d ≠ 1

/-- `page_insert` of `pp` needs a page for a table, and none is free. -/
def TableMissing (m : Pmap) (d pp : Nat) (va : Word) : Prop :=
  m.pageFreeList = [] ∧ (m.NoTable d va ∨ m.Looped d va ∧ pp ≠ d)

private theorem pgdirWalk_beyond (create : Bool) (hv : has (m.word d (PDX va)) PTE_V = true)
    (hp : ¬PPN (m.word d (PDX va)) < m.npage) : m.pgdirWalk d va create = none := by
  simp only [pgdirWalk, hv, if_true, pa2page, if_neg hp, Option.map_none]

/-- The two ways in which the steps from the second one on end. -/
private theorem pageInsertFresh_result (h : m.pageInsertFresh d asid pp va perm = some (r, m')) :
    (r = 0 ∧ ¬(m.pageFreeList = [] ∧ m.NoTable d va)) ∨
      (r = -E_NO_MEM ∧ m.pageFreeList = [] ∧ m.NoTable d va ∧ m' = m.tlbInvalidate asid va) := by
  cases hv : has (m.word d (PDX va)) PTE_V with
  | true =>
    have htable : ¬m.NoTable d va := by
      rw [NoTable, hv]
      decide
    by_cases hp : PPN (m.word d (PDX va)) < m.npage
    · rw [pageInsertFresh_valid hv hp] at h
      cases h
      exact .inl ⟨rfl, fun h => htable h.2⟩
    · rw [pageInsertFresh, pgdirWalk_beyond (m := m.tlbInvalidate asid va) true hv hp] at h
      cases h
  | false =>
    cases hl : m.pageFreeList with
    | nil =>
      rw [pageInsertFresh_full hv hl] at h
      cases h
      exact .inr ⟨rfl, rfl, hv, rfl⟩
    | cons t rest =>
      rw [pageInsertFresh_link hv hl] at h
      cases h
      exact .inl ⟨rfl, fun h => by cases h.1⟩

/-- `page_insert` where another page is mapped: it is removed first. -/
private theorem pageInsert_replace (hv : has (m.word d (PDX va)) PTE_V = true) (hp : PPN (m.word d (PDX va)) < m.npage)
    (hpte : has (m.word (PPN (m.word d (PDX va))) (PTX va)) PTE_V = true)
    (hq : PPN (m.word (PPN (m.word d (PDX va))) (PTX va)) < m.npage)
    (hne : PPN (m.word (PPN (m.word d (PDX va))) (PTX va)) ≠ pp) :
    m.pageInsert d asid pp va perm =
      (m.pageDecref (PPN (m.word (PPN (m.word d (PDX va))) (PTX va)))).bind fun n =>
        ((n.setWord (PPN (m.word d (PDX va))) (PTX va) 0).tlbInvalidate asid va).pageInsertFresh d asid pp va perm := by
  simp only [pageInsert, pgdirWalk_valid _ hv hp, Option.bind_some, hpte, if_true, pa2page, if_pos hq, ne_eq, hne,
    not_false_eq_true, pageRemove, pageLookup, Option.map_some]
  cases m.pageDecref (PPN (m.word (PPN (m.word d (PDX va))) (PTX va))) <;> rfl

private theorem pageInsert_same (asid : Asid) (perm : Word) (hv : has (m.word d (PDX va)) PTE_V = true)
    (hp : PPN (m.word d (PDX va)) < m.npage)
    (hpte : has (m.word (PPN (m.word d (PDX va))) (PTX va)) PTE_V = true)
    (hq : PPN (m.word (PPN (m.word d (PDX va))) (PTX va)) < m.npage)
    (heq : PPN (m.word (PPN (m.word d (PDX va))) (PTX va)) = pp) :
    ∃ n, m.pageInsert d asid pp va perm = some (0, n) := by
  subst heq
  simp only [pageInsert, pgdirWalk_valid _ hv hp, Option.bind_some, hpte, if_true, pa2page, if_pos hq, ne_eq,
    not_true_eq_false, if_false]
  exact ⟨_, rfl⟩

/-- What is left of a page table after the entry of another page is cleared. -/
private theorem cleared_pde {n : Pmap} {q : Nat} (h : m.pageDecref q = some n) (asid : Asid) (d t : Nat) (j : Idx)
    (va : Word) :
    ((n.setWord t j 0).tlbInvalidate asid va).word d (PDX va) =
      if t = d ∧ j = PDX va then 0 else m.word d (PDX va) := by
  obtain ⟨-, rfl⟩ := pageDecref_cases h
  simp only [tlbInvalidate, setWord, setRef]
  by_cases ht : t = d
  · subst ht
    rw [Function.update_self]
    by_cases hj : j = PDX va
    · rw [hj, Function.update_self, if_pos ⟨rfl, rfl⟩]
    · rw [Function.update_of_ne (Ne.symm hj), if_neg fun h => hj h.2]
  · rw [Function.update_of_ne (Ne.symm ht), if_neg fun h => ht h.1]

/-- A failed `page_insert` finds a table missing.  It has flushed the entry of the TLB and nothing else, unless the
directory was its own table. -/
structure Failed (m : Pmap) (d pp : Nat) (asid : Asid) (va : Word) (m' : Pmap) : Prop where
  missing : m.TableMissing d pp va
  empty : m'.pageFreeList = []
  flushed : m.NoTable d va → m' = m.tlbInvalidate asid va
  cut : m.Looped d va → m'.word d (PDX va) = 0

/-- The end of `page_insert` after another page was removed. -/
private theorem pageInsert_replaced {n : Pmap} (hv : has (m.word d (PDX va)) PTE_V = true)
    (hp : PPN (m.word d (PDX va)) < m.npage) (hne : PPN (m.word (PPN (m.word d (PDX va))) (PTX va)) ≠ pp)
    (hn : m.pageDecref (PPN (m.word (PPN (m.word d (PDX va))) (PTX va))) = some n)
    (h : ((n.setWord (PPN (m.word d (PDX va))) (PTX va) 0).tlbInvalidate asid va).pageInsertFresh d asid pp va perm =
      some (r, m')) :
    (r = 0 ∧ ¬m.TableMissing d pp va) ∨ (r = -E_NO_MEM ∧ m.Failed d pp asid va m') := by
  have htable : ¬m.NoTable d va := by
    rw [NoTable, hv]
    decide
  have hpde := cleared_pde hn asid d (PPN (m.word d (PDX va))) (PTX va) va
  obtain ⟨href, hn⟩ := pageDecref_cases hn
  by_cases hloop : PPN (m.word d (PDX va)) = d ∧ PTX va = PDX va
  · -- the entry that was cleared is the directory entry
    rw [if_pos hloop] at hpde
    rw [hloop.1, hloop.2, hloop.1] at href hn hne
    have hfree : ((n.setWord (PPN (m.word d (PDX va))) (PTX va) 0).tlbInvalidate asid va).pageFreeList =
        if m.ppRef d - 1 = 0 then d :: m.pageFreeList else m.pageFreeList := by
      rw [hn]
      rfl
    by_cases hone : m.ppRef d - 1 = 0
    · rw [if_pos hone] at hfree
      have hnot : ¬m.Looped d va := fun hl => by
        have h1 : m.ppRef d = 1 := by bv_omega
        exact hl.ref.2 h1
      rcases pageInsertFresh_result h with ⟨hr, -⟩ | ⟨-, hnil, -, -⟩
      · exact .inl ⟨hr, fun hm => hm.2.elim htable fun h => hnot h.1⟩
      · rw [hfree] at hnil
        cases hnil
    · rw [if_neg hone] at hfree
      have hl : m.Looped d va := by
        refine ⟨hv, hloop.1, hloop.2, hloop.1 ▸ hp, href, fun h1 => hone ?_⟩
        rw [h1]
        decide
      have hno : ((n.setWord (PPN (m.word d (PDX va))) (PTX va) 0).tlbInvalidate asid va).NoTable d va := by
        rw [NoTable, hpde]
        decide
      rcases pageInsertFresh_result h with ⟨hr, hsome⟩ | ⟨hr, hnil, -, rfl⟩
      · exact .inl ⟨hr, fun hm => hsome ⟨hfree.trans hm.1, hno⟩⟩
      · exact .inr ⟨hr, ⟨hfree.symm.trans hnil, .inr ⟨hl, hne.symm⟩⟩, hnil, fun h => absurd h htable, fun _ => hpde⟩
  · rw [if_neg hloop] at hpde
    have hnot : ¬m.Looped d va := fun hl => hloop ⟨hl.self, hl.index⟩
    rcases pageInsertFresh_result h with ⟨hr, -⟩ | ⟨-, -, hno, -⟩
    · exact .inl ⟨hr, fun hm => hm.2.elim htable fun h => hnot h.1⟩
    · rw [NoTable, hpde, hv] at hno
      cases hno

/-- `page_insert` fails exactly where a table is missing. -/
theorem pageInsert_result (h : m.pageInsert d asid pp va perm = some (r, m')) :
    (r = 0 ∧ ¬m.TableMissing d pp va) ∨ (r = -E_NO_MEM ∧ m.Failed d pp asid va m') := by
  cases hv : has (m.word d (PDX va)) PTE_V with
  | false =>
    have hloop : ¬m.Looped d va := fun hl => by
      rw [hl.valid] at hv
      cases hv
    rw [pageInsert_unmapped (.inl hv)] at h
    rcases pageInsertFresh_result h with ⟨hr, hnot⟩ | ⟨hr, hl, htable, rfl⟩
    · exact .inl ⟨hr, fun hm => hnot ⟨hm.1, hm.2.resolve_right fun h => hloop h.1⟩⟩
    · exact .inr ⟨hr, ⟨hl, .inl htable⟩, hl, fun _ => rfl, fun h => absurd h hloop⟩
  | true =>
    have htable : ¬m.NoTable d va := by
      rw [NoTable, hv]
      decide
    have hp : PPN (m.word d (PDX va)) < m.npage := by
      by_contra hp
      rw [pageInsert, pgdirWalk_beyond _ hv hp] at h
      cases h
    cases hpte : has (m.word (PPN (m.word d (PDX va))) (PTX va)) PTE_V with
    | false =>
      have hloop : ¬m.Looped d va := fun hl => by
        rw [hl.self, hl.index, hv] at hpte
        cases hpte
      rw [pageInsert_unmapped (.inr ⟨hp, hpte⟩)] at h
      rcases pageInsertFresh_result h with ⟨hr, -⟩ | ⟨-, -, hno, -⟩
      · exact .inl ⟨hr, fun hm => hm.2.elim htable fun h => hloop h.1⟩
      · exact absurd hno htable
    | true =>
      have hq : PPN (m.word (PPN (m.word d (PDX va))) (PTX va)) < m.npage := by
        by_contra hq
        simp only [pageInsert, pgdirWalk_valid _ hv hp, Option.bind_some, hpte, if_true, pa2page, if_neg hq] at h
        cases h
      by_cases heq : PPN (m.word (PPN (m.word d (PDX va))) (PTX va)) = pp
      · obtain ⟨n, hn⟩ := pageInsert_same asid perm hv hp hpte hq heq
        rw [hn] at h
        cases h
        refine .inl ⟨rfl, fun hm => ?_⟩
        rcases hm.2 with hno | ⟨hl, hne⟩
        · exact htable hno
        · rw [hl.self, hl.index, hl.self] at heq
          exact hne heq.symm
      · rw [pageInsert_replace hv hp hpte hq heq] at h
        obtain ⟨n, hn, h⟩ := Option.bind_eq_some_iff.1 h
        exact pageInsert_replaced hv hp heq hn h

/-- Conversely it fails, and does not panic, where a table is missing. -/
private theorem pageInsert_missing (asid : Asid) (perm : Word) (h : m.TableMissing d pp va) :
    ∃ n, m.pageInsert d asid pp va perm = some (-E_NO_MEM, n) ∧ m.Failed d pp asid va n := by
  have hsome : ∃ r n, m.pageInsert d asid pp va perm = some (r, n) := by
    rcases h.2 with hno | ⟨hl, hne⟩
    · exact ⟨_, _, by rw [pageInsert_unmapped (.inl hno), pageInsertFresh_full hno h.1]⟩
    · have hpte : has (m.word (PPN (m.word d (PDX va))) (PTX va)) PTE_V = true := by
        rw [hl.self, hl.index, hl.valid]
      have hq : PPN (m.word (PPN (m.word d (PDX va))) (PTX va)) = d := by
        rw [hl.self, hl.index, hl.self]
      have hdec : ∃ n, m.pageDecref d = some n := by
        have hone : m.ppRef d - 1 ≠ 0 := fun h0 => hl.ref.2 (by bv_omega)
        rw [pageDecref, if_neg hl.ref.1]
        simp only [setRef, Function.update_self]
        rw [if_neg hone]
        exact ⟨_, rfl⟩
      obtain ⟨n, hn⟩ := hdec
      have hpde := cleared_pde hn asid d (PPN (m.word d (PDX va))) (PTX va) va
      rw [if_pos ⟨hl.self, hl.index⟩] at hpde
      have hinv : has (((n.setWord (PPN (m.word d (PDX va))) (PTX va) 0).tlbInvalidate asid va).word d (PDX va))
          PTE_V = false := by
        rw [hpde]
        decide
      have hfresh : ∃ r n', ((n.setWord (PPN (m.word d (PDX va))) (PTX va) 0).tlbInvalidate asid va).pageInsertFresh d
          asid pp va perm = some (r, n') := by
        cases hfree : ((n.setWord (PPN (m.word d (PDX va))) (PTX va) 0).tlbInvalidate asid va).pageFreeList with
        | nil => exact ⟨_, _, pageInsertFresh_full hinv hfree⟩
        | cons t rest => exact ⟨_, _, pageInsertFresh_link hinv hfree⟩
      rw [pageInsert_replace hl.valid (hl.self.symm ▸ hl.bound) hpte (hq.symm ▸ hl.bound) (hq.trans_ne hne.symm), hq,
        hn, Option.bind_some]
      exact hfresh
  obtain ⟨r, n, hn⟩ := hsome
  rcases pageInsert_result hn with ⟨-, hnot⟩ | ⟨rfl, hf⟩
  · exact absurd h hnot
  · exact ⟨n, hn, hf⟩

/-- After `page_alloc` of `pp`: that was the last page, and the walk to `va` needs one. -/
private theorem tableMissing_take {rest : List Nat} :
    (m.take pp rest).TableMissing d pp va ↔ rest = [] ∧ (d = pp ∨ m.NoTable d va ∨ m.Looped d va) := by
  have hfree : (m.take pp rest).pageFreeList = rest := rfl
  unfold TableMissing
  rw [hfree]
  refine and_congr_right fun _ => ?_
  by_cases hd : d = pp
  · subst hd
    have hzero : (m.take d rest).NoTable d va := by
      simp [NoTable, take]
    exact iff_of_true (.inl hzero) (.inl rfl)
  · have hword : (m.take pp rest).word d = m.word d := Function.update_of_ne hd ..
    have hno : (m.take pp rest).NoTable d va ↔ m.NoTable d va := by rw [NoTable, NoTable, hword]
    have hloop : (m.take pp rest).Looped d va ↔ m.Looped d va := by
      constructor
      · intro h
        exact ⟨hword ▸ h.valid, hword ▸ h.self, h.index, h.bound, h.ref⟩
      · intro h
        exact ⟨hword.symm ▸ h.valid, hword.symm ▸ h.self, h.index, h.bound, h.ref⟩
    rw [hno, hloop]
    constructor
    · rintro (h | ⟨h, -⟩)
      · exact .inr (.inl h)
      · exact .inr (.inr h)
    · rintro (h | h | h)
      · exact absurd h hd
      · exact .inl h
      · exact .inr ⟨h, Ne.symm hd⟩

end Pmap

namespace Kern

variable {k k' : Kern} {cur e : EnvPtr} {envid va perm srcid srcva dstid dstva : Word}

/-- The valid entry that the page table of `e` has for `va`. -/
def translation (k : Kern) (e : EnvPtr) (va : Word) : Option Word :=
  (k.envs e).envPgdir.bind fun d =>
    let pde := k.pm.word d (PDX va)
    let pte := k.pm.word (PPN pde) (PTX va)
    if has pde PTE_V && has pte PTE_V then some pte else none

/-- The same free pages, reference counts and translations as before. -/
structure NoOp (k k' : Kern) : Prop where
  free : ∀ p, p ∈ k'.pm.pageFreeList ↔ p ∈ k.pm.pageFreeList
  refs : k'.pm.ppRef = k.pm.ppRef
  translations : ∀ e va, k'.translation e va = k.translation e va

/-- If the call returns an error, it did nothing. -/
def FailsCleanly (k : Kern) (res : Option Ret) : Prop :=
  ∀ k' r, res = some (k', some r) → r ≠ 0 → k.NoOp k'

private theorem NoOp.refl (k : Kern) : k.NoOp k := ⟨fun _ => Iff.rfl, rfl, fun _ _ => rfl⟩

/-- A page that is neither free nor referenced was so before. -/
theorem NoOp.lost {p : Nat} (h : k.NoOp k') (hp : p ∉ k'.pm.pageFreeList ∧ k'.pm.ppRef p = 0) :
    p ∉ k.pm.pageFreeList ∧ k.pm.ppRef p = 0 :=
  ⟨fun hmem => hp.1 ((h.free p).2 hmem), h.refs ▸ hp.2⟩

private theorem NoOp.flush (k : Kern) (asid : Asid) (va : Word) : k.NoOp (k.setPm (k.pm.tlbInvalidate asid va)) :=
  ⟨fun _ => Iff.rfl, rfl, fun _ _ => rfl⟩

private theorem failsCleanly_self (r : Option Word) : k.FailsCleanly (some (k, r)) := by
  intro k' r' h _
  cases h
  exact .refl k

private theorem failsCleanly_none : k.FailsCleanly none := by
  intro k' r h
  cases h

/-! ### The two calls -/

/-- The last free page is taken for a mapping that needs a table. -/
def AllocLeaks (k : Kern) (cur : EnvPtr) (envid va : Word) : Prop :=
  isIllegalVa va = false ∧ ∃ e d pp, k.envid2env cur envid true = some e ∧ (k.envs e).envPgdir = some d ∧
    k.pm.pageFreeList = [pp] ∧ (d = pp ∨ k.pm.NoTable d va ∨ k.pm.Looped d va)

/-- The old page is unmapped, and that unmaps the table. -/
def MapCuts (k : Kern) (cur : EnvPtr) (srcid srcva dstid dstva : Word) : Prop :=
  (isIllegalVa srcva || isIllegalVa dstva) = false ∧ ∃ srcenv dstenv pp d,
    k.envid2env cur srcid true = some srcenv ∧ k.envid2env cur dstid true = some dstenv ∧
    k.pageLookupEnv srcenv srcva = some (some pp) ∧ (k.envs dstenv).envPgdir = some d ∧
    k.pm.pageFreeList = [] ∧ k.pm.Looped d dstva ∧ pp ≠ d

private theorem sysMemAlloc_failsCleanly_iff :
    k.FailsCleanly (k.sysMemAlloc cur envid va perm) ↔ ¬k.AllocLeaks cur envid va := by
  unfold sysMemAlloc
  cases hva : isIllegalVa va with
  | true =>
    rw [if_pos rfl]
    refine iff_of_true (failsCleanly_self _) fun h => ?_
    have hlegal := h.1
    rw [hva] at hlegal
    cases hlegal
  | false =>
    rw [if_neg (by decide)]
    cases he : k.envid2env cur envid true with
    | none =>
      refine iff_of_true (failsCleanly_self _) ?_
      rintro ⟨-, e, _, _, he', -⟩
      rw [he] at he'
      cases he'
    | some e =>
      cases hl : k.pm.pageFreeList with
      | nil =>
        have halloc : k.pm.pageAlloc = none := by rw [Pmap.pageAlloc, hl]
        simp only [halloc]
        refine iff_of_true (failsCleanly_self _) ?_
        rintro ⟨-, _, _, _, -, -, hl', -⟩
        rw [hl] at hl'
        cases hl'
      | cons pp rest =>
        have halloc : k.pm.pageAlloc = some (pp, k.pm.take pp rest) := by rw [Pmap.pageAlloc, hl]; rfl
        simp only [halloc]
        cases hd : (k.envs e).envPgdir with
        | none =>
          have hnone : (k.setPm (k.pm.take pp rest)).pageInsertEnv e pp va perm = none := by
            show (k.envs e).envPgdir.bind _ = none
            rw [hd]
            rfl
          rw [hnone]
          refine iff_of_true failsCleanly_none ?_
          rintro ⟨-, _, _, _, he', hd', -⟩
          rw [he] at he'
          cases he'
          rw [hd] at hd'
          cases hd'
        | some d =>
          have hins : (k.setPm (k.pm.take pp rest)).pageInsertEnv e pp va perm =
              ((k.pm.take pp rest).pageInsert d (k.envs e).envAsid pp va perm).map
                fun x => (x.1, (k.setPm (k.pm.take pp rest)).setPm x.2) := by
            show (k.envs e).envPgdir.bind _ = _
            rw [hd]
            rfl
          have hleak : k.AllocLeaks cur envid va ↔ (k.pm.take pp rest).TableMissing d pp va := by
            rw [Pmap.tableMissing_take]
            constructor
            · rintro ⟨-, e', d', pp', he', hd', hl', h⟩
              rw [he] at he'
              cases he'
              rw [hd] at hd'
              cases hd'
              rw [hl] at hl'
              cases hl'
              exact ⟨rfl, h⟩
            · rintro ⟨rfl, h⟩
              exact ⟨hva, e, d, pp, he, hd, hl, h⟩
          rw [hins, hleak]
          constructor
          · -- the page that was taken is not free any more
            intro hclean hmissing
            obtain ⟨n, hn, hf⟩ := Pmap.pageInsert_missing (k.envs e).envAsid perm hmissing
            rw [hn] at hclean
            have hno := hclean _ (-E_NO_MEM) rfl (by decide)
            have hmem : pp ∈ n.pageFreeList := (hno.free pp).2 (by rw [hl]; exact List.mem_cons_self ..)
            rw [hf.empty] at hmem
            cases hmem
          · intro hnot k' r h hr
            rw [Option.map_map] at h
            obtain ⟨⟨r', n⟩, hn, h⟩ := Option.map_eq_some_iff.1 h
            cases h
            rcases Pmap.pageInsert_result hn with ⟨h0, -⟩ | ⟨-, hf⟩
            · exact absurd h0 hr
            · exact absurd hf.missing hnot

private theorem sysMemMap_failsCleanly_iff :
    k.FailsCleanly (k.sysMemMap cur srcid srcva dstid dstva perm) ↔ ¬k.MapCuts cur srcid srcva dstid dstva := by
  unfold sysMemMap
  cases hva : (isIllegalVa srcva || isIllegalVa dstva) with
  | true =>
    rw [if_pos rfl]
    refine iff_of_true (failsCleanly_self _) fun h => ?_
    have hlegal := h.1
    rw [hva] at hlegal
    cases hlegal
  | false =>
    rw [if_neg (by decide)]
    cases hs : k.envid2env cur srcid true with
    | none =>
      refine iff_of_true (failsCleanly_self _) ?_
      rintro ⟨-, _, _, _, _, hs', -⟩
      rw [hs] at hs'
      cases hs'
    | some srcenv =>
      cases he : k.envid2env cur dstid true with
      | none =>
        refine iff_of_true (failsCleanly_self _) ?_
        rintro ⟨-, _, _, _, _, -, he', -⟩
        rw [he] at he'
        cases he'
      | some dstenv =>
        have hcuts : k.MapCuts cur srcid srcva dstid dstva ↔ ∃ pp d, k.pageLookupEnv srcenv srcva = some (some pp) ∧
            (k.envs dstenv).envPgdir = some d ∧ k.pm.pageFreeList = [] ∧ k.pm.Looped d dstva ∧ pp ≠ d := by
          constructor
          · rintro ⟨-, s, e, pp, d, hs', he', h⟩
            rw [hs] at hs'
            cases hs'
            rw [he] at he'
            cases he'
            exact ⟨pp, d, h⟩
          · rintro ⟨pp, d, h⟩
            exact ⟨hva, srcenv, dstenv, pp, d, hs, he, h⟩
        rw [hcuts]
        dsimp only
        cases hp : k.pageLookupEnv srcenv srcva with
        | none =>
          refine iff_of_true failsCleanly_none ?_
          rintro ⟨_, _, hp', -⟩
          cases hp'
        | some page =>
          cases page with
          | none =>
            refine iff_of_true (failsCleanly_self _) ?_
            rintro ⟨_, _, hp', -⟩
            cases hp'
          | some pp =>
            rw [Option.bind_some]
            dsimp only
            cases hd : (k.envs dstenv).envPgdir with
            | none =>
              have hnone : k.pageInsertEnv dstenv pp dstva perm = none := by
                rw [pageInsertEnv, hd]
                rfl
              rw [hnone]
              refine iff_of_true failsCleanly_none ?_
              rintro ⟨_, _, -, hd', -⟩
              cases hd'
            | some d =>
              have hins : k.pageInsertEnv dstenv pp dstva perm =
                  (k.pm.pageInsert d (k.envs dstenv).envAsid pp dstva perm).map fun x => (x.1, k.setPm x.2) := by
                rw [pageInsertEnv, hd]
                rfl
              rw [hins]
              constructor
              · -- the translation of `dstva` is gone
                rintro hclean ⟨pp', d', hp', hd', hl, hloop, hne⟩
                cases hp'
                cases hd'
                obtain ⟨n, hn, hf⟩ := Pmap.pageInsert_missing (k.envs dstenv).envAsid perm ⟨hl, .inr ⟨hloop, hne⟩⟩
                rw [hn] at hclean
                have hno := hclean _ (-E_NO_MEM) rfl (by decide)
                have htrans := hno.translations dstenv dstva
                have hold : k.translation dstenv dstva = some (k.pm.word d (PDX dstva)) := by
                  simp [translation, hd, hloop.self, hloop.index, hloop.valid]
                have hnew : (k.setPm n).translation dstenv dstva = none := by
                  simp [translation, hd, hf.cut hloop]
                rw [hold, hnew] at htrans
                cases htrans
              · intro hnot k' r h hr
                rw [Option.map_map] at h
                obtain ⟨⟨r', n⟩, hn, h⟩ := Option.map_eq_some_iff.1 h
                cases h
                rcases Pmap.pageInsert_result hn with ⟨h0, -⟩ | ⟨-, hf⟩
                · exact absurd h0 hr
                · rcases hf.missing.2 with hno | ⟨hloop, hne⟩
                  · rw [hf.flushed hno]
                    exact .flush k _ dstva
                  · exact absurd ⟨pp, d, rfl, rfl, hf.missing.1, hloop, hne⟩ hnot

/-- The calls that fail change nothing, but for the page that `sys_mem_alloc` loses. -/
theorem memFailure_iff (k : Kern) (cur : EnvPtr) (envid va perm srcid srcva dstid dstva perm' : Word) :
    (k.FailsCleanly (k.sysMemAlloc cur envid va perm) ↔ ¬k.AllocLeaks cur envid va) ∧
      (k.FailsCleanly (k.sysMemMap cur srcid srcva dstid dstva perm') ↔ ¬k.MapCuts cur srcid srcva dstid dstva) :=
  ⟨sysMemAlloc_failsCleanly_iff, sysMemMap_failsCleanly_iff⟩

end Kern

/-! ### The last page -/

/-- A machine with two pages left after the initialisation. -/
def Machine.small : Machine := ⟨258, 1, 252, by decide, by decide, by decide⟩

/-- An environment that asks for a page. -/
def lastPage : List Event :=
  .create .empty 1 :: tickEvents ++ (callEvents 6 0 UTEMP PTE_D).take 1

private theorem lastPage_cond : (Machine.small.after (fun _ _ => true) lastPage).any fun s =>
    s.phase = .entered (.syscall 0) ∧ s.kern.curenv = some 0 ∧ s.kern.pm.pageFreeList.length = 1 ∧
      (s.kern.sysMemAlloc 0 0 UTEMP PTE_D).any fun r =>
        r.2 = some (-E_NO_MEM) ∧ r.1.pm.pageFreeList.length = 0 := by
  decide +kernel

/-- There it is lost. -/
theorem exists_memFailure_leak : ∃ s cur envid va perm, kernel.Reach (fun _ _ => True) s ∧ s.phase = .entered (.syscall 0) ∧
    s.kern.curenv = some cur ∧ ¬s.kern.FailsCleanly (s.kern.sysMemAlloc cur envid va perm) := by
  obtain ⟨s, hs, hcond⟩ := (Option.any_eq_true _ _).1 lastPage_cond
  obtain ⟨hphase, hcur, hone, hcall⟩ := of_decide_eq_true hcond
  obtain ⟨⟨k', r⟩, hk, hr⟩ := (Option.any_eq_true _ _).1 hcall
  obtain ⟨rfl, hnil⟩ := of_decide_eq_true hr
  refine ⟨s, 0, 0, UTEMP, PTE_D, (Machine.after_reach hs).mono fun _ _ _ => trivial, hphase, hcur, fun hclean => ?_⟩
  have hno := hclean k' (-E_NO_MEM) hk (by decide)
  have hfree : k'.pm.pageFreeList = [] := List.eq_nil_of_length_eq_zero hnil
  obtain ⟨pp, hpp⟩ := List.length_eq_one_iff.1 hone
  have hmem : pp ∈ k'.pm.pageFreeList := (hno.free pp).2 (by rw [hpp]; exact List.mem_singleton_self _)
  rw [hfree] at hmem
  cases hmem

end Mos
