import Mos.Inv.Moves

/-!
# What `page_insert` and `page_remove` do

The ways through the page table operations, read backwards: from the result, what the walk found and what was written.
-/

namespace Mos

namespace Pmap

variable {m m' : Pmap} {d t p pp q : Nat} {asid : Asid} {va perm r : Word} {rest : List Nat} {f : Idx → Word}

/-- Nothing is mapped at `va`. -/
def Unmapped (m : Pmap) (d : Nat) (va : Word) : Prop :=
  ∀ t, entry (m.word d (PDX va)) = some t → entry (m.word t (PTX va)) = none

/-- The table of `va` is `t`, and `q` is mapped there. -/
structure MappedAt (m : Pmap) (d : Nat) (va : Word) (t q : Nat) : Prop where
  pde : entry (m.word d (PDX va)) = some t
  pte : entry (m.word t (PTX va)) = some q

theorem pageLookup_cases {o : Option (Nat × PtePtr)} (hl : m.pageLookup d va = some o) :
    (o = none ∧ m.Unmapped d va) ∨ ∃ t q, o = some (q, (t, PTX va)) ∧ m.MappedAt d va t q := by
  cases hpde : entry (m.word d (PDX va)) with
  | none =>
    rw [pageLookup, pgdirWalk_invalid (entry_eq_none.1 hpde), Option.bind_some] at hl
    refine .inl ⟨(Option.some.inj hl).symm, fun t ht => ?_⟩
    rw [hpde] at ht
    cases ht
  | some t =>
    obtain ⟨hv, rfl⟩ := entry_eq_some.1 hpde
    by_cases hlt : PPN (m.word d (PDX va)) < m.npage
    · rw [pageLookup, pgdirWalk_valid false hv hlt, Option.bind_some] at hl
      dsimp only at hl
      split at hl
      case isTrue hpte =>
        obtain ⟨q, hq, rfl⟩ := Option.map_eq_some_iff.1 hl
        obtain ⟨rfl, -⟩ := pa2page_cases hq
        exact .inr ⟨_, _, rfl, hpde, entry_eq_some.2 ⟨hpte, rfl⟩⟩
      case isFalse hpte =>
        refine .inl ⟨(Option.some.inj hl).symm, fun t ht => ?_⟩
        rw [hpde] at ht
        obtain rfl := Option.some.inj ht
        exact entry_eq_none.2 (by simpa using hpte)
    · rw [pageLookup, pgdirWalk, if_pos hv, pa2page, if_neg hlt] at hl
      cases hl

private theorem pageRemove_cases (hr : m.pageRemove d asid va = some m') :
    (m.Unmapped d va ∧ m' = m) ∨ ∃ t q m₁, m.MappedAt d va t q ∧ m.pageDecref q = some m₁ ∧
      m' = (m₁.setWord t (PTX va) 0).tlbInvalidate asid va := by
  obtain ⟨o, hl, hr⟩ := Option.bind_eq_some_iff.1 hr
  rcases pageLookup_cases hl with ⟨rfl, hun⟩ | ⟨t, q, rfl, hmap⟩
  · exact .inl ⟨hun, (Option.some.inj hr).symm⟩
  · obtain ⟨m₁, hdec, rfl⟩ := Option.map_eq_some_iff.1 hr
    exact .inr ⟨t, q, m₁, hmap, hdec, rfl⟩

theorem pageInsertFresh_cases (hp : m.pageInsertFresh d asid pp va perm = some (r, m')) :
    (∃ t, entry (m.word d (PDX va)) = some t ∧ r = 0 ∧ m' = (m.tlbInvalidate asid va).fill t (PTX va) pp perm) ∨
      (entry (m.word d (PDX va)) = none ∧ m.pageFreeList = [] ∧ r = -E_NO_MEM ∧ m' = m.tlbInvalidate asid va) ∨
      ∃ t rest, entry (m.word d (PDX va)) = none ∧ m.pageFreeList = t :: rest ∧ r = 0 ∧
        m' = ((m.tlbInvalidate asid va).linkTable d t rest (PDX va)).fill t (PTX va) pp perm := by
  cases hpde : entry (m.word d (PDX va)) with
  | some t =>
    obtain ⟨hv, rfl⟩ := entry_eq_some.1 hpde
    by_cases hlt : PPN (m.word d (PDX va)) < m.npage
    · rw [pageInsertFresh_valid hv hlt] at hp
      simp only [Option.some.injEq, Prod.mk.injEq] at hp
      exact .inl ⟨_, rfl, hp.1.symm, hp.2.symm⟩
    · have hwalk : (m.tlbInvalidate asid va).pgdirWalk d va true = none := by
        rw [pgdirWalk, if_pos (show has ((m.tlbInvalidate asid va).word d (PDX va)) PTE_V = true from hv), pa2page,
          if_neg (show ¬PPN ((m.tlbInvalidate asid va).word d (PDX va)) < (m.tlbInvalidate asid va).npage from hlt)]
        rfl
      rw [pageInsertFresh, hwalk] at hp
      cases hp
  | none =>
    have hinv := entry_eq_none.1 hpde
    cases hl : m.pageFreeList with
    | nil =>
      rw [pageInsertFresh_full hinv hl] at hp
      simp only [Option.some.injEq, Prod.mk.injEq] at hp
      obtain ⟨rfl, rfl⟩ := hp
      exact .inr (.inl ⟨rfl, rfl, rfl, rfl⟩)
    | cons t rest =>
      rw [pageInsertFresh_link hinv hl] at hp
      simp only [Option.some.injEq, Prod.mk.injEq] at hp
      exact .inr (.inr ⟨t, rest, rfl, rfl, hp.1.symm, hp.2.symm⟩)

theorem pageInsert_cases (hp : m.pageInsert d asid pp va perm = some (r, m')) :
    (m.Unmapped d va ∧ m.pageInsertFresh d asid pp va perm = some (r, m')) ∨
      (∃ t q m₁, m.MappedAt d va t q ∧ q ≠ pp ∧ m.pageRemove d asid va = some m₁ ∧
        m₁.pageInsertFresh d asid pp va perm = some (r, m')) ∨
      ∃ t, m.MappedAt d va t pp ∧ r = 0 ∧
        m' = (m.tlbInvalidate asid va).setWord t (PTX va) (page2pa pp ||| perm ||| PTE_V) := by
  cases hpde : entry (m.word d (PDX va)) with
  | none =>
    refine .inl ⟨fun t ht => ?_, ?_⟩
    · rw [hpde] at ht
      cases ht
    · rwa [pageInsert_unmapped (.inl (entry_eq_none.1 hpde))] at hp
  | some t =>
    obtain ⟨hv, rfl⟩ := entry_eq_some.1 hpde
    by_cases hlt : PPN (m.word d (PDX va)) < m.npage
    · cases hpte : entry (m.word (PPN (m.word d (PDX va))) (PTX va)) with
      | none =>
        refine .inl ⟨fun t ht => ?_, ?_⟩
        · rw [hpde] at ht
          exact Option.some.inj ht ▸ hpte
        · rwa [pageInsert_unmapped (.inr ⟨hlt, entry_eq_none.1 hpte⟩)] at hp
      | some q =>
        obtain ⟨hw, rfl⟩ := entry_eq_some.1 hpte
        rw [pageInsert, pgdirWalk_valid false hv hlt, Option.bind_some] at hp
        dsimp only at hp
        rw [if_pos hw] at hp
        obtain ⟨q, hq, hp⟩ := Option.bind_eq_some_iff.1 hp
        obtain ⟨rfl, -⟩ := pa2page_cases hq
        split at hp
        case isTrue hne =>
          obtain ⟨m₁, hr, hp⟩ := Option.bind_eq_some_iff.1 hp
          exact .inr (.inl ⟨_, _, m₁, ⟨hpde, hpte⟩, hne, hr, hp⟩)
        case isFalse heq =>
          simp only [Option.some.injEq, Prod.mk.injEq] at hp
          exact .inr (.inr ⟨_, ⟨hpde, not_not.1 heq ▸ hpte⟩, hp.1.symm, hp.2.symm⟩)
    · rw [pageInsert, pgdirWalk, if_pos hv, pa2page, if_neg hlt] at hp
      cases hp

/-- The result of `page_insert` is 0 or an error code. -/
theorem pageInsert_ret (hp : m.pageInsert d asid pp va perm = some (r, m')) : r = 0 ∨ r.slt 0 = true := by
  have hfresh : ∀ {m : Pmap}, m.pageInsertFresh d asid pp va perm = some (r, m') → r = 0 ∨ r.slt 0 = true := by
    intro m hp
    rcases pageInsertFresh_cases hp with ⟨_, _, hr, -⟩ | ⟨-, -, rfl, -⟩ | ⟨_, _, _, _, hr, -⟩
    · exact .inl hr
    · exact .inr (by decide)
    · exact .inl hr
  rcases pageInsert_cases hp with ⟨-, hp⟩ | ⟨_, _, _, _, _, _, hp⟩ | ⟨_, _, hr, -⟩
  · exact hfresh hp
  · exact hfresh hp
  · exact .inl hr

/-- The entry that `page_insert` stores. -/
abbrev newPte (pp : Nat) (perm : Word) : Word := page2pa pp ||| perm ||| PTE_V

/-- The entry of `va` is written in the table `t`; the page that was mapped there may be free then. -/
structure Written (m : Pmap) (t pp : Nat) (va perm : Word) (m' : Pmap) : Prop where
  word : m'.word = Function.update m.word t (Function.update (m.word t) (PTX va) (newPte pp perm))
  npage : m'.npage = m.npage
  free : m'.pageFreeList = m.pageFreeList ∨
    ∃ q, entry (m.word t (PTX va)) = some q ∧ q ≠ pp ∧ m'.pageFreeList = q :: m.pageFreeList
  ref : entry (m.word t (PTX va)) ≠ some pp → m'.ppRef pp = m.ppRef pp + 1

/-- Where the directory is not its own table, `page_insert` writes one entry, in a new table where there was none. -/
theorem pageInsert_effect (hdir : entry (m.word d (PDX va)) ≠ some d) (hp : m.pageInsert d asid pp va perm = some (0, m')) :
    (∃ t, entry (m.word d (PDX va)) = some t ∧ Written m t pp va perm m') ∨
      ∃ t rest, entry (m.word d (PDX va)) = none ∧ m.pageFreeList = t :: rest ∧
        m' = ((m.tlbInvalidate asid va).linkTable d t rest (PDX va)).fill t (PTX va) pp perm := by
  rcases pageInsert_cases hp with ⟨-, hp⟩ | ⟨t, q, m₁, hmap, hne, hr, hp⟩ | ⟨t, hmap, -, rfl⟩
  · rcases pageInsertFresh_cases hp with ⟨t, ht, -, rfl⟩ | ⟨-, -, hr, -⟩ | ⟨t, rest, hnone, hl, -, rfl⟩
    · exact .inl ⟨t, ht, rfl, rfl, .inl rfl, fun _ => Function.update_self ..⟩
    · exact absurd hr (by decide)
    · exact .inr ⟨t, rest, hnone, hl, rfl⟩
  · left
    refine ⟨t, hmap.pde, ?_⟩
    have htd : d ≠ t := fun heq => hdir (heq ▸ hmap.pde)
    rcases pageRemove_cases hr with ⟨hun, -⟩ | ⟨t', q', m₂, hmap', hdec, rfl⟩
    · have hnone := hun t hmap.pde
      rw [hmap.pte] at hnone
      cases hnone
    · obtain rfl := Option.some.inj (hmap.pde.symm.trans hmap'.pde)
      obtain rfl := Option.some.inj (hmap.pte.symm.trans hmap'.pte)
      obtain ⟨hword, -, hnpage⟩ := Mem.pageDecref_word hdec
      obtain ⟨-, hm₂⟩ := pageDecref_cases hdec
      have hd₁ : ((m₂.setWord t (PTX va) 0).tlbInvalidate asid va).word d = m.word d :=
        (Function.update_of_ne htd ..).trans (congrFun hword d)
      have ht₁ : ((m₂.setWord t (PTX va) 0).tlbInvalidate asid va).word t = Function.update (m.word t) (PTX va) 0 := by
        rw [← hword]
        exact Function.update_self ..
      -- the table is still there, so no other one is linked
      rcases pageInsertFresh_cases hp with ⟨t₁, ht, -, rfl⟩ | ⟨-, -, hr, -⟩ | ⟨t₁, rest, hnone, -⟩
      · rw [hd₁, hmap.pde] at ht
        obtain rfl := Option.some.inj ht
        constructor
        · simp only [fill, setRef, setWord, tlbInvalidate, hword, Function.update_self, Function.update_idem]
        · exact hnpage
        · by_cases h0 : m.ppRef q - 1 = 0
          · refine .inr ⟨q, hmap.pte, hne, ?_⟩
            have hfree : m₂.pageFreeList = q :: m.pageFreeList := by rw [hm₂, if_pos h0]
            exact hfree
          · have hfree : m₂.pageFreeList = m.pageFreeList := by rw [hm₂, if_neg h0]
            exact .inl hfree
        · intro _
          have href : m₂.ppRef pp = m.ppRef pp := by
            rw [hm₂]
            exact Function.update_of_ne (Ne.symm hne) ..
          rw [← href]
          exact Function.update_self ..
      · exact absurd hr (by decide)
      · rw [hd₁, hmap.pde] at hnone
        cases hnone
  · exact .inl ⟨t, hmap.pde, rfl, rfl, .inl rfl, fun hne => absurd hmap.pte hne⟩

end Pmap

end Mos
