import Mos.Inv.Moves

/-!
# The operations on an address space, in small steps

`page_insert`, `page_remove`, `load_icode` and the teardown in `env_free` are sequences of the steps of
`Mos.Inv.Moves`, as long as what `page_insert` is asked for can be stored in an entry and counted.
-/

namespace Mos

namespace Mem

variable {mc : Machine} {leak : Nat → Nat} {D : Dirs} {m m' : Pmap} {e : EnvPtr} {asid : Asid} {pol : Policy}
  {i j : Idx} {d t q pp : Nat} {perm va r : Word}

/-! ### The walk -/

/-- The walk in the directory of an environment. -/
theorem Ok.pde_valid (h : Ok mc leak ⟨D, m⟩) (hd : D e = some d) (hi : userIdx i = true)
    (hv : has (m.word d i) PTE_V = true) :
    Mos.target mc D m.word (.pde e i) = some (PPN (m.word d i)) ∧ PPN (m.word d i) < m.npage := by
  have ht : Mos.target mc D m.word (.pde e i) = some (PPN (m.word d i)) := by
    rw [target_pde hd hi]
    exact entry_eq_some.2 ⟨hv, rfl⟩
  exact ⟨ht, h.pde_lt ht⟩

/-- The lookup of a page below `UTOP`. -/
theorem Ok.pageLookup (h : Ok mc leak ⟨D, m⟩) (hd : D e = some d) (hi : PDX va < PDX UTOP) :
    (Mos.target mc D m.word (.pte e (PDX va) (PTX va)) = none ∧ m.pageLookup d va = some none) ∨
    ∃ t pp, Mos.target mc D m.word (.pde e (PDX va)) = some t ∧ entry (m.word t (PTX va)) = some pp ∧
      m.pageLookup d va = some (some (pp, (t, PTX va))) := by
  cases hv : has (m.word d (PDX va)) PTE_V with
  | false =>
    left
    have hnone : Mos.target mc D m.word (.pde e (PDX va)) = none := by
      rw [target_pde hd (userIdx_of_lt hi)]
      exact entry_eq_none.2 hv
    exact ⟨target_pte_none hnone, by rw [Pmap.pageLookup, Pmap.pgdirWalk_invalid hv]; rfl⟩
  | true =>
    obtain ⟨ht, hlt⟩ := h.pde_valid hd (userIdx_of_lt hi) hv
    rw [Pmap.pageLookup, Pmap.pgdirWalk_valid false hv hlt, Option.bind_some]
    cases hpte : has (m.word (PPN (m.word d (PDX va))) (PTX va)) PTE_V with
    | false =>
      left
      refine ⟨?_, by simp [hpte]⟩
      rw [target_pte ht hi]
      exact entry_eq_none.2 hpte
    | true =>
      right
      have hent := entry_eq_some.2 ⟨hpte, rfl⟩
      have hpp : PPN (m.word (PPN (m.word d (PDX va))) (PTX va)) < m.npage := by
        refine h.pde_lt (s := .pte e (PDX va) (PTX va)) ?_
        rw [target_pte ht hi, hent]
      exact ⟨_, _, ht, hent, by simp [hpte, Pmap.pa2page, hpp]⟩

/-! ### Removing a page -/

/-- `page_remove` does nothing, or clears the entry. -/
theorem Ok.pageRemove_cases (h : Ok mc leak ⟨D, m⟩) (hd : D e = some d) (hi : PDX va < PDX UTOP)
    (hr : m.pageRemove d asid va = some m') :
    (Mos.target mc D m.word (.pte e (PDX va) (PTX va)) = none ∧ m' = m) ∨
    ∃ t q m₁, Mos.target mc D m.word (.pde e (PDX va)) = some t ∧ entry (m.word t (PTX va)) = some q ∧
      m.pageDecref q = some m₁ ∧ m' = (m₁.setWord t (PTX va) 0).tlbInvalidate asid va := by
  rw [Pmap.pageRemove] at hr
  rcases h.pageLookup hd hi with ⟨hnone, hl⟩ | ⟨t, q, ht, hpte, hl⟩
  · rw [hl, Option.bind_some] at hr
    exact .inl ⟨hnone, (Option.some.inj hr).symm⟩
  · rw [hl, Option.bind_some] at hr
    obtain ⟨m₁, hdec, rfl⟩ := Option.map_eq_some_iff.1 hr
    exact .inr ⟨t, q, m₁, ht, hpte, hdec, rfl⟩

theorem Ok.pageRemove_moves (h : Ok mc leak ⟨D, m⟩) (hd : D e = some d) (hi : PDX va < PDX UTOP)
    (hr : m.pageRemove d asid va = some m') : Moves mc pol e asid ⟨D, m⟩ ⟨D, m'⟩ := by
  rcases h.pageRemove_cases hd hi hr with ⟨-, rfl⟩ | ⟨t, q, m₁, ht, hpte, hdec, rfl⟩
  · exact .refl
  · exact .single (.clear hi ht hpte hdec)

/-! ### Inserting a page -/

/-- What `page_insert` is asked for: a page that may be mapped, with a permission word that has no bits in the frame
number. -/
structure Insertable (mc : Machine) (pol : Policy) (D : Dirs) (m : Pmap) (pp : Nat) (perm : Word) : Prop where
  data : TreeOk.Data mc D m.word pp
  notFree : pp ∉ m.pageFreeList
  bits : pp ||| PPN perm = pp
  perm : pol.perm perm
  page : (∀ s, Mos.target mc D m.word s ≠ some pp) ∨ pol.page pp

/-- References that stay the same or vanish, with the page not freed. -/
private theorem Insertable.mono (h : Insertable mc pol D m pp perm)
    (htgt : ∀ s q, Mos.target mc D m'.word s = some q → Mos.target mc D m.word s = some q)
    (hfree : pp ∉ m'.pageFreeList) : Insertable mc pol D m' pp perm where
  data := ⟨h.data.bound, fun s hs hsp => h.data.notTree s hs (htgt s pp hsp)⟩
  notFree := hfree
  bits := h.bits
  perm := h.perm
  page := h.page.imp (fun hu s hs => hu s (htgt s pp hs)) id

private theorem Ok.pageInsertFresh_moves (h : Ok mc leak ⟨D, m⟩) (hd : D e = some d) (hi : PDX va < PDX UTOP)
    (hnone : Mos.target mc D m.word (.pte e (PDX va) (PTX va)) = none) (hins : Insertable mc pol D m pp perm)
    (hmax : m.ppRef pp ≠ 65535)
    (hp : m.pageInsertFresh d asid pp va perm = some (r, m')) : Moves mc pol e asid ⟨D, m⟩ ⟨D, m'⟩ := by
  have hflush : Move mc pol e asid ⟨D, m⟩ ⟨D, m.tlbInvalidate asid va⟩ := .flush D m va
  have h₁ := h.flush asid va
  cases hv : has (m.word d (PDX va)) PTE_V with
  | true =>
    obtain ⟨ht, hlt⟩ := h.pde_valid hd (userIdx_of_lt hi) hv
    rw [Pmap.pageInsertFresh_valid hv hlt] at hp
    simp only [Option.some.injEq, Prod.mk.injEq] at hp
    obtain ⟨-, rfl⟩ := hp
    rw [target_pte ht hi, entry_eq_none] at hnone
    exact (Relation.ReflTransGen.single hflush).tail
      (.fill (m := m.tlbInvalidate asid va) hi ht hnone hins.data hins.notFree hins.bits hmax hins.perm hins.page)
  | false =>
    cases hl : m.pageFreeList with
    | nil =>
      rw [Pmap.pageInsertFresh_full hv hl] at hp
      simp only [Option.some.injEq, Prod.mk.injEq] at hp
      obtain ⟨-, rfl⟩ := hp
      exact .single hflush
    | cons t rest =>
      rw [Pmap.pageInsertFresh_link hv hl] at hp
      simp only [Option.some.injEq, Prod.mk.injEq] at hp
      obtain ⟨-, rfl⟩ := hp
      have hlink : Move mc pol e asid ⟨D, m.tlbInvalidate asid va⟩
          ⟨D, (m.tlbInvalidate asid va).linkTable d t rest (PDX va)⟩ := .link hd (userIdx_of_lt hi) hv hl
      have h₂ := h₁.link hd (userIdx_of_lt hi) hv hl
      generalize hm₂ : (m.tlbInvalidate asid va).linkTable d t rest (PDX va) = m₂ at hlink h₂
      have htm : t ∈ m.pageFreeList := by
        rw [hl]
        exact List.mem_cons_self ..
      have hfresh := h.fresh htm
      have htd : t ≠ d := fun heq => hfresh.unused (.dir e) (heq ▸ hd)
      have hpt : pp ≠ t := fun heq => hins.notFree (heq ▸ htm)
      have hword : m₂.word = Function.update (Function.update m.word t fun _ => 0) d
          (Function.update ((Function.update m.word t fun _ => 0) d) (PDX va) (Pmap.tablePde t)) := by rw [← hm₂]; rfl
      have ht : Mos.target mc D m₂.word (.pde e (PDX va)) = some t := by
        rw [target_pde hd (userIdx_of_lt hi), hword, Function.update_self, Function.update_self]
        refine entry_tablePde ?_
        have hk := mc.kseg0
        have hlt := hfresh.bound.2
        omega
      have hzero : has (m₂.word t (PTX va)) PTE_V = false := by
        rw [hword, Function.update_of_ne htd, Function.update_self]
        exact has_zero _
      -- the only new reference is the one to the table
      have htgt : ∀ s q, Mos.target mc D m₂.word s = some q →
          Mos.target mc D m.word s = some q ∨ q = t := by
        intro s q hs
        have hzeroed := target_fresh (f := fun _ => 0) hfresh.notTree
        have hpde : Mos.target mc D (Function.update m.word t fun _ => 0) (.pde e (PDX va)) = none := by
          rw [hzeroed, target_pde hd (userIdx_of_lt hi)]
          exact entry_eq_none.2 hv
        have hlinked := target_link (w := Pmap.tablePde t) (t := t)
          (show TreeLike Slot.Structural (Mos.target mc D (Function.update m.word t fun _ => 0)) from
            hzeroed ▸ h.tree.tree) hd (userIdx_of_lt hi) hpde
          (entry_tablePde (by have hk := mc.kseg0; have hlt := hfresh.bound.2; omega)) (fun j => by simp) htd
        rw [hword, hlinked, hzeroed] at hs
        by_cases hsp : s = .pde e (PDX va)
        · rw [hsp, Function.update_self] at hs
          exact .inr (Option.some.inj hs).symm
        · rw [Function.update_of_ne hsp] at hs
          exact .inl hs
      have hdata : TreeOk.Data mc D m₂.word pp := by
        refine ⟨hins.data.bound, fun s hs hsp => ?_⟩
        rcases htgt s pp hsp with hsp | heq
        · exact hins.data.notTree s hs hsp
        · exact hpt heq
      have hpage : (∀ s, Mos.target mc D m₂.word s ≠ some pp) ∨ pol.page pp := by
        refine hins.page.imp (fun hu s hs => ?_) id
        rcases htgt s pp hs with hs | heq
        · exact hu s hs
        · exact hpt heq
      have hnot : pp ∉ m₂.pageFreeList := by
        rw [← hm₂]
        exact fun hmem => hins.notFree (hl ▸ List.mem_cons_of_mem t hmem)
      have href : m₂.ppRef pp = m.ppRef pp := by
        rw [← hm₂]
        exact Function.update_of_ne hpt ..
      exact ((Relation.ReflTransGen.single hflush).tail hlink).tail
        (.fill hi ht hzero hdata hnot hins.bits (by rw [href]; exact hmax) hins.perm hpage)

theorem Ok.pageInsert_moves (h : Ok mc leak ⟨D, m⟩) (hd : D e = some d) (hi : PDX va < PDX UTOP)
    (hins : Insertable mc pol D m pp perm)
    (hmax : m.ppRef pp ≠ 65535 ∨ Mos.target mc D m.word (.pte e (PDX va) (PTX va)) = some pp)
    (hp : m.pageInsert d asid pp va perm = some (r, m')) : Moves mc pol e asid ⟨D, m⟩ ⟨D, m'⟩ := by
  have hunmapped : Mos.target mc D m.word (.pte e (PDX va) (PTX va)) = none →
      m.pageInsert d asid pp va perm = m.pageInsertFresh d asid pp va perm → Moves mc pol e asid ⟨D, m⟩ ⟨D, m'⟩ := by
    intro hnone heq
    have hmax : m.ppRef pp ≠ 65535 := hmax.resolve_right (by rw [hnone]; nofun)
    exact h.pageInsertFresh_moves hd hi hnone hins hmax (heq ▸ hp)
  -- Without a table or without a page at `va` this is `pageInsertFresh`; else the old page stays, or is removed first.
  cases hv : has (m.word d (PDX va)) PTE_V with
  | false =>
    have hnone : Mos.target mc D m.word (.pde e (PDX va)) = none := by
      rw [target_pde hd (userIdx_of_lt hi)]
      exact entry_eq_none.2 hv
    exact hunmapped (target_pte_none hnone) (Pmap.pageInsert_unmapped (.inl hv))
  | true =>
    obtain ⟨ht, hlt⟩ := h.pde_valid hd (userIdx_of_lt hi) hv
    generalize hteq : PPN (m.word d (PDX va)) = t at ht hlt
    cases hpte : has (m.word t (PTX va)) PTE_V with
    | false =>
      refine hunmapped ?_ (Pmap.pageInsert_unmapped (.inr ⟨hteq ▸ hlt, hteq ▸ hpte⟩))
      rw [target_pte ht hi]
      exact entry_eq_none.2 hpte
    | true =>
      have hent : entry (m.word t (PTX va)) = some (PPN (m.word t (PTX va))) := entry_eq_some.2 ⟨hpte, rfl⟩
      have htgt : Mos.target mc D m.word (.pte e (PDX va) (PTX va)) = some (PPN (m.word t (PTX va))) := by
        rw [target_pte ht hi, hent]
      generalize PPN (m.word t (PTX va)) = q at hent htgt
      have hq : m.pa2page (m.word t (PTX va)) = some q := by
        obtain ⟨-, rfl⟩ := entry_eq_some.1 hent
        rw [Pmap.pa2page, if_pos (h.pde_lt htgt)]
      rw [Pmap.pageInsert, Pmap.pgdirWalk_valid false hv (hteq ▸ hlt), Option.bind_some] at hp
      dsimp only at hp
      rw [hteq, if_pos hpte, hq, Option.bind_some] at hp
      by_cases hqp : q = pp
      · subst hqp
        rw [if_neg (not_not.2 rfl)] at hp
        simp only [Option.some.injEq, Prod.mk.injEq] at hp
        obtain ⟨-, rfl⟩ := hp
        exact .single (.reperm hi ht hent hins.bits hins.perm)
      · rw [if_pos hqp] at hp
        obtain ⟨m₁, hr, hp⟩ := Option.bind_eq_some_iff.1 hp
        rcases h.pageRemove_cases hd hi hr with ⟨hnone, -⟩ | ⟨t', q', m₂, ht', hpte', hdec, rfl⟩
        · rw [htgt] at hnone
          cases hnone
        · obtain rfl := Option.some.inj (ht.symm.trans ht')
          obtain rfl := Option.some.inj (hent.symm.trans hpte')
          have hclear : Move mc pol e asid ⟨D, m⟩ ⟨D, (m₂.setWord t (PTX va) 0).tlbInvalidate asid va⟩ :=
            .clear hi ht hent hdec
          have h₂ := (h.clear hi ht hent hdec).flush asid va
          obtain ⟨hw, -, -⟩ := pageDecref_word hdec
          obtain ⟨-, hm₂⟩ := Pmap.pageDecref_cases hdec
          have hcleared : Mos.target mc D (m₂.setWord t (PTX va) 0).word =
              Function.update (Mos.target mc D m.word) (.pte e (PDX va) (PTX va)) none := by
            have hset := target_setPte (j := PTX va) h.tree.tree ht hi 0
            have hzero : entry (0 : Word) = none := entry_zero
            rw [hzero] at hset
            rw [Pmap.setWord, hw]
            exact hset
          have hnone : Mos.target mc D (m₂.setWord t (PTX va) 0).word (.pte e (PDX va) (PTX va)) = none := by
            rw [hcleared, Function.update_self]
          have hle : ∀ s p, Mos.target mc D (m₂.setWord t (PTX va) 0).word s = some p →
              Mos.target mc D m.word s = some p := by
            intro s p hs
            rw [hcleared] at hs
            by_cases hsp : s = .pte e (PDX va) (PTX va)
            · rw [hsp, Function.update_self] at hs
              cases hs
            · rwa [Function.update_of_ne hsp] at hs
          have hnot : pp ∉ m₂.pageFreeList := by
            rw [hm₂]
            intro hmem
            change pp ∈ (if m.ppRef q - 1 = 0 then q :: m.pageFreeList else m.pageFreeList) at hmem
            split at hmem
            · exact hins.notFree ((List.mem_cons.1 hmem).resolve_left (Ne.symm hqp))
            · exact hins.notFree hmem
          have hmax₂ : m₂.ppRef pp ≠ 65535 := by
            have href : m₂.ppRef pp = m.ppRef pp := by
              rw [hm₂]
              exact Function.update_of_ne (Ne.symm hqp) ..
            rw [href]
            exact hmax.resolve_right (by rw [htgt]; exact fun heq => hqp (Option.some.inj heq))
          exact (Relation.ReflTransGen.single hclear).trans
            (h₂.pageInsertFresh_moves (m := (m₂.setWord t (PTX va) 0).tlbInvalidate asid va) hd hi hnone
              (hins.mono hle hnot) hmax₂ hp)

/-- Without a table and without memory for one, `page_insert` only flushes. -/
theorem Ok.pageInsert_full (D : Dirs) (hv : has (m.word d (PDX va)) PTE_V = false) (hl : m.pageFreeList = [])
    (hp : m.pageInsert d asid pp va perm = some (r, m')) : Moves mc pol e asid ⟨D, m⟩ ⟨D, m'⟩ := by
  rw [Pmap.pageInsert_unmapped (.inl hv), Pmap.pageInsertFresh_full hv hl] at hp
  simp only [Option.some.injEq, Prod.mk.injEq] at hp
  obtain ⟨-, rfl⟩ := hp
  exact .single (.flush D m va)

/-! ### Loading an image -/

/-- A page that was just taken may be inserted. -/
theorem Ok.insertable (h : Ok mc leak ⟨D, m⟩) {rest : List Nat} (hl : m.pageFreeList = q :: rest)
    (hperm : q ||| PPN perm = q) (hpol : pol.perm perm) :
    Insertable mc pol D (m.take q rest) q perm ∧ (m.take q rest).ppRef q ≠ 65535 := by
  obtain ⟨hfresh, hnot, h0⟩ := h.taken hl
  exact ⟨⟨hfresh.toData, hnot, hperm, hpol, .inl hfresh.unused⟩, by rw [h0]; decide⟩

/-- Allocating a page and inserting it. -/
theorem Ok.alloc_moves (h : Ok mc leak ⟨D, m⟩) (hd : D e = some d) (hi : PDX va < PDX UTOP) {m₁ : Pmap}
    (ha : m.pageAlloc = some (q, m₁)) (hperm : q ||| PPN perm = q) (hpol : pol.perm perm)
    (hp : m₁.pageInsert d asid q va perm = some (r, m')) : Moves mc pol e asid ⟨D, m⟩ ⟨D, m'⟩ := by
  obtain ⟨rest, hl, rfl⟩ := Pmap.pageAlloc_cases ha
  obtain ⟨hins, hmax⟩ := h.insertable hl hperm hpol
  exact (Relation.ReflTransGen.single (.take hl)).trans ((h.take hl).pageInsert_moves hd hi hins (.inl hmax) hp)

theorem PDX_lt_of_lt {va : Word} (h : va < UTOP) : PDX va < PDX UTOP := by
  have htop : (PDX UTOP : Nat) = 509 := by decide
  have hutop : UTOP.toNat = 509 * 2 ^ 22 := by decide
  have hlt : va.toNat < UTOP.toNat := h
  rw [Fin.lt_def, htop, PDX_toNat]
  omega

theorem Ok.loadIcode_moves (h : Ok mc leak ⟨D, m⟩) (hd : D e = some d) {binary : Image}
    (hp : m.loadIcode d asid binary = some m') :
    Moves mc pol e asid ⟨D, m⟩ ⟨D, m'⟩ := by
  have hall : ∀ l : List (Word × Word), (∀ p ∈ l, p ∈ binary.pages) → ∀ {m : Pmap} {leak : Nat → Nat},
      Ok mc leak ⟨D, m⟩ → l.foldlM (fun (m : Pmap) p => m.loadIcodeMapper d asid p.1 p.2) m = some m' →
      Moves mc pol e asid ⟨D, m⟩ ⟨D, m'⟩ := by
    intro l
    induction l with
    | nil =>
      intro _ m leak _ hl
      obtain rfl := Option.some.inj hl
      exact .refl
    | cons p l ih =>
      intro hmem m leak h hl
      obtain ⟨m₂, hm₂, hl⟩ := Option.bind_eq_some_iff.1 hl
      obtain ⟨⟨q, m₁⟩, ha, hm₂⟩ := Option.bind_eq_some_iff.1 hm₂
      obtain ⟨⟨r, m₃⟩, hins, hm₂⟩ := Option.bind_eq_some_iff.1 hm₂
      dsimp only at hm₂
      split at hm₂
      case isFalse => cases hm₂
      case isTrue =>
        obtain rfl := Option.some.inj hm₂
        have hp := hmem p (List.mem_cons_self ..)
        have hmoves : Moves mc pol e asid ⟨D, m⟩ ⟨D, m₃⟩ := by
          rcases binary.perms p hp with hperm | hperm
          · refine h.alloc_moves hd (PDX_lt_of_lt (binary.below p hp)) ha ?_ (hperm ▸ pol.own.1) hins
            rw [hperm, show PPN PTE_V = 0 by decide, Nat.or_zero]
          · refine h.alloc_moves hd (PDX_lt_of_lt (binary.below p hp)) ha ?_ (hperm ▸ pol.own.2.1) hins
            rw [hperm, show PPN (PTE_V ||| PTE_D) = 0 by decide, Nat.or_zero]
        obtain ⟨leak', h', -⟩ := h.moves hmoves
        exact hmoves.trans (ih (fun p hp => hmem p (List.mem_cons_of_mem _ hp)) h' hl)
  exact hall binary.pages (fun _ hp => hp) h hp

/-! ### Giving up an address space -/

theorem tlbInvalidate_sub (m : Pmap) (asid : Asid) (va : Word) : (m.tlbInvalidate asid va).tlb ⊆ m.tlb :=
  List.filter_subset_self ..

/-- The inner loop of `env_free` clears the entries of one table. -/
theorem Ok.clearTable_moves (pol : Policy) (hd : D e = some d) (hi : i < PDX UTOP) (l : List Idx) :
    ∀ {m : Pmap} {leak : Nat → Nat}, Ok mc leak ⟨D, m⟩ → Mos.target mc D m.word (.pde e i) = some t →
    l.foldlM (fun (m : Pmap) pteno =>
      if has (m.word t pteno) PTE_V then m.pageRemove d asid (pageVa (i, pteno)) else some m) m = some m' →
    Moves mc pol e asid ⟨D, m⟩ ⟨D, m'⟩ ∧ (∀ j, j ∈ l ∨ has (m.word t j) PTE_V = false → has (m'.word t j) PTE_V = false) ∧
      (∀ q, q ≠ t → m'.word q = m.word q) ∧ m'.tlb ⊆ m.tlb := by
  -- By induction on the entries that are left; each removal changes one word of this table.
  induction l with
  | nil =>
    intro m leak _ _ hl
    obtain rfl := Option.some.inj hl
    exact ⟨.refl, fun j hj => hj.resolve_left (List.not_mem_nil), fun _ _ => rfl, fun _ hx => hx⟩
  | cons j₀ l ih =>
    intro m leak h ht hl
    obtain ⟨m₁, hm₁, hl⟩ := Option.bind_eq_some_iff.1 hl
    dsimp only at hm₁
    have hstep : Moves mc pol e asid ⟨D, m⟩ ⟨D, m₁⟩ ∧ has (m₁.word t j₀) PTE_V = false ∧
        (∀ j, has (m.word t j) PTE_V = false → has (m₁.word t j) PTE_V = false) ∧
        (∀ q, q ≠ t → m₁.word q = m.word q) ∧ m₁.tlb ⊆ m.tlb := by
      by_cases hv : has (m.word t j₀) PTE_V = true
      · rw [if_pos hv] at hm₁
        have hpdx : PDX (pageVa (i, j₀)) = i := congrArg Prod.fst (VPN_pageVa (i, j₀))
        have hptx : PTX (pageVa (i, j₀)) = j₀ := congrArg Prod.snd (VPN_pageVa (i, j₀))
        have hi' : PDX (pageVa (i, j₀)) < PDX UTOP := by rw [hpdx]; exact hi
        refine ⟨h.pageRemove_moves hd hi' hm₁, ?_⟩
        rcases h.pageRemove_cases hd hi' hm₁ with ⟨hnone, -⟩ | ⟨t', q, m₂, ht', -, hdec, rfl⟩
        · rw [hpdx, hptx, target_pte ht hi, entry_eq_none, hv] at hnone
          cases hnone
        · rw [hpdx] at ht'
          obtain rfl := Option.some.inj (ht.symm.trans ht')
          obtain ⟨hw, htlb, -⟩ := pageDecref_word hdec
          have hword : ((m₂.setWord t (PTX (pageVa (i, j₀))) 0).tlbInvalidate asid (pageVa (i, j₀))).word =
              Function.update m.word t (Function.update (m.word t) j₀ 0) := by
            rw [hptx, ← hw]
            rfl
          refine ⟨?_, fun j hj => ?_, fun q hq => ?_, ?_⟩
          · rw [hword, Function.update_self, Function.update_self]
            exact has_zero _
          · rw [hword, Function.update_self]
            by_cases hjj : j = j₀
            · rw [hjj, Function.update_self]
              exact has_zero _
            · rwa [Function.update_of_ne hjj]
          · rw [hword, Function.update_of_ne hq]
          · rw [← htlb]
            exact tlbInvalidate_sub (m₂.setWord t (PTX (pageVa (i, j₀))) 0) asid _
      · rw [if_neg hv] at hm₁
        obtain rfl := Option.some.inj hm₁
        exact ⟨.refl, by simpa using hv, fun _ hj => hj, fun _ _ => rfl, fun _ hx => hx⟩
    obtain ⟨hmoves, hj₀, hkeep, hother, htlb⟩ := hstep
    obtain ⟨leak₁, h₁, -⟩ := h.moves hmoves
    have ht₁ : Mos.target mc D m₁.word (.pde e i) = some t := by
      have htd : d ≠ t := by
        rintro rfl
        cases h.tree.tree (.dir e) (.pde e i) d trivial hd ht
      rw [target_pde hd (userIdx_of_lt hi), hother d htd, ← target_pde hd (userIdx_of_lt hi)]
      exact ht
    obtain ⟨hmoves', hinv, hother', htlb'⟩ := ih h₁ ht₁ hl
    refine ⟨hmoves.trans hmoves', fun j hj => hinv j ?_, fun q hq => (hother' q hq).trans (hother q hq),
      List.Subset.trans htlb' htlb⟩
    rcases hj with hj | hj
    · rcases List.mem_cons.1 hj with rfl | hj
      · exact .inr hj₀
      · exact .inl hj
    · exact .inr (hkeep j hj)

/-- One round of the outer loop clears one entry of the directory. -/
theorem Ok.freeTable_moves (pol : Policy) (h : Ok mc leak ⟨D, m⟩) (hd : D e = some d) (hi : i < PDX UTOP)
    (hp : m.freeTable d asid i = some m') :
    Moves mc pol e asid ⟨D, m⟩ ⟨D, m'⟩ ∧ has (m'.word d i) PTE_V = false ∧ (∀ j, j ≠ i → m'.word d j = m.word d j) ∧
      m'.tlb ⊆ m.tlb := by
  rw [Pmap.freeTable] at hp
  by_cases hv : has (m.word d i) PTE_V = true
  · rw [if_pos hv] at hp
    obtain ⟨ht, hlt⟩ := h.pde_valid hd (userIdx_of_lt hi) hv
    generalize hteq : PPN (m.word d i) = t at ht hlt
    rw [Pmap.pa2page, hteq, if_pos hlt, Option.bind_some] at hp
    obtain ⟨m₁, hm₁, hp⟩ := Option.bind_eq_some_iff.1 hp
    obtain ⟨m₂, hdec, rfl⟩ := Option.map_eq_some_iff.1 hp
    obtain ⟨hmoves, hinv, hother, htlb⟩ := Ok.clearTable_moves pol hd hi _ h ht hm₁
    have htd : d ≠ t := by
      rintro rfl
      cases h.tree.tree (.dir e) (.pde e i) d trivial hd ht
    have ht₁ : Mos.target mc D m₁.word (.pde e i) = some t := by
      rw [target_pde hd (userIdx_of_lt hi), hother d htd, ← target_pde hd (userIdx_of_lt hi)]
      exact ht
    obtain ⟨hw, htlb₂, -⟩ := pageDecref_word hdec
    have hword : m₂.word d = Function.update (m.word d) i 0 := by
      rw [hw, ← hother d htd]
      exact Function.update_self ..
    refine ⟨hmoves.tail (.dropTable hd hi ht₁ (fun j => hinv j (.inl (List.mem_finRange j))) hdec), ?_, ?_, ?_⟩
    · show has (m₂.word d i) PTE_V = false
      rw [hword, Function.update_self]
      exact has_zero _
    · intro j hj
      show m₂.word d j = m.word d j
      rw [hword, Function.update_of_ne hj]
    · refine List.Subset.trans (tlbInvalidate_sub _ asid _) (List.Subset.trans (tlbInvalidate_sub m₂ asid _) ?_)
      rw [htlb₂]
      exact htlb
  · rw [if_neg hv] at hp
    obtain rfl := Option.some.inj hp
    exact ⟨.refl, by simpa using hv, fun _ _ => rfl, fun _ hx => hx⟩

/-- The outer loop of `env_free` clears the entries in its range. -/
theorem Ok.freeTables_moves (pol : Policy) (hd : D e = some d) (l : List Idx) (hl : ∀ i ∈ l, i < PDX UTOP) :
    ∀ {m : Pmap} {leak : Nat → Nat}, Ok mc leak ⟨D, m⟩ →
    l.foldlM (fun (m : Pmap) pdeno => m.freeTable d asid pdeno) m = some m' →
    Moves mc pol e asid ⟨D, m⟩ ⟨D, m'⟩ ∧
      (∀ i, i ∈ l ∨ has (m.word d i) PTE_V = false → has (m'.word d i) PTE_V = false) ∧
      (∀ i, i ∉ l → m'.word d i = m.word d i) ∧ m'.tlb ⊆ m.tlb := by
  induction l with
  | nil =>
    intro m leak _ hp
    obtain rfl := Option.some.inj hp
    exact ⟨.refl, fun i hi => hi.resolve_left List.not_mem_nil, fun _ _ => rfl, fun _ hx => hx⟩
  | cons i₀ l ih =>
    intro m leak h hp
    obtain ⟨m₁, hm₁, hp⟩ := Option.bind_eq_some_iff.1 hp
    obtain ⟨hmoves, hi₀, hother, htlb⟩ := h.freeTable_moves pol hd (hl i₀ (List.mem_cons_self ..)) hm₁
    obtain ⟨leak₁, h₁, -⟩ := h.moves hmoves
    obtain ⟨hmoves', hinv, hother', htlb'⟩ := ih (fun i hi => hl i (List.mem_cons_of_mem _ hi)) h₁ hp
    refine ⟨hmoves.trans hmoves', fun i hi => hinv i ?_, fun i hi => ?_, List.Subset.trans htlb' htlb⟩
    · by_cases hii : i = i₀
      · exact .inr (hii ▸ hi₀)
      · rcases hi with hi | hi
        · exact .inl ((List.mem_cons.1 hi).resolve_left hii)
        · rw [hother i hii]
          exact .inr hi
    · rw [List.mem_cons, not_or] at hi
      rw [hother' i hi.2, hother i hi.1]

/-- The entries that the outer loop of `env_free` visits. -/
theorem mem_below {i : Idx} : i ∈ ((List.finRange 1024).filter fun j => decide (j < PDX UTOP)) ↔ i < PDX UTOP := by
  simp

/-- `env_free` gives up the tables below `UTOP`, then the directory. -/
theorem Ok.freeSpace_moves (h : Ok mc leak ⟨D, m⟩) (hd : D e = some d) (hpol : pol.drop asid d m)
    (hp : m.freeSpace d asid = some m') :
    Moves mc pol e asid ⟨D, m⟩ ⟨Function.update D e none, m'⟩ := by
  obtain ⟨m₁, hm₁, hp⟩ := Option.bind_eq_some_iff.1 hp
  obtain ⟨m₂, hdec, rfl⟩ := Option.map_eq_some_iff.1 hp
  obtain ⟨hmoves, hinv, hother, htlb⟩ := Ok.freeTables_moves pol hd _ (fun i hi => mem_below.1 hi) h hm₁
  refine hmoves.tail (.dropDir hd (fun i hi => hinv i (.inl (mem_below.2 hi)))
    (pol.drop_mono hpol (fun i hi => hother i fun hmem => ?_) htlb) hdec)
  exact absurd (mem_below.1 hmem) (not_lt.2 hi)

/-! ### A fault in the window of the page tables -/

/-- The page that `passive_alloc` maps in the window at `UVPT` becomes a page table. -/
theorem Ok.window_link (h : Ok mc leak ⟨D, m⟩) (hd : D e = some d) (hi : PDX va = PDX UVPT) {m₁ : Pmap}
    (hl : m.pageLookup d va = some none) (ha : m.pageAlloc = some (q, m₁))
    (hp : m₁.pageInsert d asid q va PTE_D = some (r, m')) : ∃ rest, m.pageFreeList = q :: rest ∧
      userIdx (PTX va) = true ∧ has (m.word d (PTX va)) PTE_V = false ∧
      m' = (m.tlbInvalidate asid va).linkTable d q rest (PTX va) := by
  obtain ⟨rest, hfree, rfl⟩ := Pmap.pageAlloc_cases ha
  have hdlt : d < m.npage := h.pde_lt (s := .dir e) hd
  have hd20 : d < 2 ^ 20 := h.tree.lt (.dir e) d hd
  have hqd : d ≠ q := fun heq => (h.fresh (by rw [hfree]; exact List.mem_cons_self ..)).unused (.dir e) (heq ▸ hd)
  have hself : m.word d (PDX va) = page2pa d ||| PTE_V := by
    rw [hi]
    exact (h.tree.self e d hd).1
  have hbits := entry_eq_some.1 (entry_self hd20)
  have hv : has (m.word d (PDX va)) PTE_V = true := by rw [hself]; exact hbits.1
  have hPPN : PPN (m.word d (PDX va)) = d := by rw [hself]; exact hbits.2
  -- the entry of the directory that the page is for is invalid
  have hinv : has (m.word d (PTX va)) PTE_V = false := by
    rw [Pmap.pageLookup, Pmap.pgdirWalk_valid false hv (by rw [hPPN]; exact hdlt), Option.bind_some] at hl
    dsimp only at hl
    rw [hPPN] at hl
    by_contra hne
    rw [if_pos (by simpa using hne)] at hl
    obtain ⟨x, -, hx⟩ := Option.map_eq_some_iff.1 hl
    cases hx
  have hidx : userIdx (PTX va) = true := by
    by_contra hne
    obtain ⟨hu, hp⟩ := h.tree.shared e d hd
    obtain ⟨hs₁, hs₂⟩ := h.tree.self e d hd
    rcases special_idx (by simpa using hne) with heq | heq | heq | heq
    · rw [heq, hu, Pmap.tablePde_V] at hinv
      cases hinv
    · rw [heq, hp, Pmap.tablePde_V] at hinv
      cases hinv
    · rw [heq, hs₁, hbits.1] at hinv
      cases hinv
    · rw [heq, hs₂, hbits.1] at hinv
      cases hinv
  have hword : (m.take q rest).word d = m.word d := Function.update_of_ne hqd ..
  have hins : (m.take q rest).pageInsert d asid q va PTE_D =
      some (0, ((m.take q rest).tlbInvalidate asid va).fill d (PTX va) q PTE_D) := by
    have hv' : has ((m.take q rest).word d (PDX va)) PTE_V = true := by rw [hword]; exact hv
    have hPPN' : PPN ((m.take q rest).word d (PDX va)) = d := by rw [hword]; exact hPPN
    have hlt' : PPN ((m.take q rest).word d (PDX va)) < (m.take q rest).npage := by rw [hPPN']; exact hdlt
    rw [Pmap.pageInsert_unmapped (.inr ⟨hlt', by rw [hPPN', hword]; exact hinv⟩),
      Pmap.pageInsertFresh_valid hv' hlt', hPPN']
  rw [hins] at hp
  simp only [Option.some.injEq, Prod.mk.injEq] at hp
  obtain ⟨-, rfl⟩ := hp
  have h0 : m.ppRef q = 0 := (h.refs.free q (by rw [hfree]; exact List.mem_cons_self ..)).2
  have hlink : (m.tlbInvalidate asid va).linkTable d q rest (PTX va) =
      ((m.take q rest).tlbInvalidate asid va).fill d (PTX va) q PTE_D := by
    have href : (m.tlbInvalidate asid va).ppRef q = 0 := h0
    simp only [Pmap.linkTable, Pmap.fill, Pmap.tablePde_eq, Pmap.setRef, Pmap.setWord, Pmap.take, Pmap.tlbInvalidate, h0]
    rfl
  exact ⟨rest, hfree, hidx, hinv, hlink.symm⟩

theorem Ok.window_moves (h : Ok mc leak ⟨D, m⟩) (hd : D e = some d) (hi : PDX va = PDX UVPT) {m₁ : Pmap}
    (hl : m.pageLookup d va = some none) (ha : m.pageAlloc = some (q, m₁))
    (hp : m₁.pageInsert d asid q va PTE_D = some (r, m')) : Moves mc pol e asid ⟨D, m⟩ ⟨D, m'⟩ := by
  obtain ⟨rest, hfree, hidx, hinv, rfl⟩ := h.window_link hd hi hl ha hp
  exact (Relation.ReflTransGen.single (.flush D m va)).tail
    (.link (m := m.tlbInvalidate asid va) hd hidx hinv hfree)

end Mem

end Mos
