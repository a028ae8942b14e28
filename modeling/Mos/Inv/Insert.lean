import Mos.Inv.Tlb

/-!
# What `page_insert` and `page_remove` store

The valid entry of every page below `UTOP`, before and after: `page_insert` stores the frame number, the permission word
and `PTE_V` in one word at `va`, whatever the permission word is, and leaves the other pages alone.
-/

namespace Mos

namespace Mem

variable {mc : Machine} {leak : Nat → Nat} {s s' s₁ : Mem} {D : Dirs} {m m' : Pmap} {e : EnvPtr} {asid : Asid}
  {d t pp : Nat} {i j : Idx} {v : Vpn} {r r' : Option Word} {w perm va : Word} {rest : List Nat}

/-- The valid entry that is stored for the page `v` in the page table of `e`. -/
def user (s : Mem) (e : EnvPtr) (v : Vpn) : Option Word := (s.pte e v).filter fun w => has w PTE_V

theorem user_eq_some : s.user e v = some w ↔ s.pte e v = some w ∧ has w PTE_V = true := Option.filter_eq_some_iff

theorem user_of_pte (hp : s.pte e v = some w) : s.user e v = if has w PTE_V then some w else none := by
  rw [user, hp]
  rfl

/-- The valid entry of `v` becomes `r`, and no other one below `UTOP` changes. -/
structure Stores (s : Mem) (e : EnvPtr) (v : Vpn) (r : Option Word) (s' : Mem) : Prop where
  self : s'.user e v = r
  other : ∀ v', v'.1 < PDX UTOP → v' ≠ v → s'.user e v' = s.user e v'

private theorem Stores.trans (h : Stores s e v r s₁) (h' : Stores s₁ e v r' s') : Stores s e v r' s' :=
  ⟨h'.self, fun v' hv hne => (h'.other v' hv hne).trans (h.other v' hv hne)⟩

/-- Nothing changes. -/
private theorem Stores.congr (hpte : ∀ v', s'.pte e v' = s.pte e v') (hself : s.user e v = r) : Stores s e v r s' := by
  have huser : ∀ v', s'.user e v' = s.user e v' := fun v' => by rw [user, user, hpte]
  exact ⟨(huser v).trans hself, fun v' _ _ => huser v'⟩

theorem lt_ULIM (hv : v.1 < PDX UTOP) : v.1 < PDX ULIM := lt_of_lt_of_le hv (by decide)

/-! ### One word -/

/-- Writing an entry of a table. -/
private theorem Ok.setPte_stores {n : Pmap} (h : Ok mc leak ⟨D, m⟩) (ht : Mos.target mc D m.word (.pde e i) = some t)
    (hword : n.word = Function.update m.word t (Function.update (m.word t) j w)) :
    Stores ⟨D, m⟩ e (i, j) (if has w PTE_V then some w else none) ⟨D, n⟩ := by
  constructor
  · apply user_of_pte
    obtain ⟨-, d, hd, hent⟩ := target_pde_some ht
    have hdt : d ≠ t := by
      rintro rfl
      cases h.tree.tree (.dir e) (.pde e i) d trivial hd ht
    refine pte_eq_some.2 ⟨d, t, hd, ?_, ?_⟩
    · dsimp only
      rw [hword, Function.update_of_ne hdt]
      exact hent
    · dsimp only
      rw [hword, Function.update_self, Function.update_self]
  · intro v' hv hne
    rw [user, user, h.pte_setPte ht (lt_ULIM hv) hne hword]

/-- A new table, all of whose entries are invalid. -/
theorem Ok.link_stores (h : Ok mc leak ⟨D, m⟩) (hd : D e = some d)
    (hinv : has (m.word d i) PTE_V = false) (hl : m.pageFreeList = t :: rest) :
    Stores ⟨D, m⟩ e (i, j) none ⟨D, m.linkTable d t rest i⟩ := by
  have hfresh := h.fresh (q := t) (by rw [hl]; exact List.mem_cons_self ..)
  have htd : t ≠ d := fun heq => hfresh.unused (.dir e) (heq ▸ hd)
  have hzero : ∀ j', Mem.user ⟨D, m.linkTable d t rest i⟩ e (i, j') = none := by
    intro j'
    have ht20 : t < 2 ^ 20 := by
      have hk := mc.kseg0
      have hlt := hfresh.bound.2
      omega
    have hpde : (m.linkTable d t rest i).word d i = Pmap.tablePde t := by
      simp [Pmap.linkTable, Pmap.setWord]
    have htable : (m.linkTable d t rest i).word t = fun _ => 0 :=
      (Function.update_of_ne htd ..).trans (Function.update_self ..)
    have hp : Mem.pte ⟨D, m.linkTable d t rest i⟩ e (i, j') = some 0 := by
      refine pte_eq_some.2 ⟨d, t, hd, ?_, ?_⟩
      · exact (congrArg entry hpde).trans (entry_tablePde ht20)
      · exact congrFun htable j'
    rw [user_of_pte hp, if_neg (by decide)]
  refine ⟨hzero j, fun v' hv hne => ?_⟩
  by_cases hvi : v'.1 = i
  · have hnone : Mem.pte ⟨D, m⟩ e v' = none := by
      have hent : entry (m.word d v'.1) = none := by
        rw [hvi]
        exact entry_eq_none.2 hinv
      simp [pte, hd, hent]
    have hnone' : Mem.user ⟨D, m⟩ e v' = none := by rw [user, hnone]; rfl
    rw [hnone', show v' = (i, v'.2) from Prod.ext hvi rfl]
    exact hzero v'.2
  · have hwin : v' ≠ (PDX UVPT, i) := by
      rintro rfl
      exact absurd hv (show ¬PDX UVPT < PDX UTOP by decide)
    have hlink := (h.take hl).pte_setPde (n := m.linkTable d t rest i) hd (lt_ULIM hv) hvi hwin rfl
    have htake := h.pte_congr (n := ⟨D, m.take t rest⟩) (lt_ULIM hv) (e := e) rfl fun q hq => by
      obtain ⟨x, hx, -, hxt⟩ := hq
      have hqt : q ≠ t := fun heq => hfresh.unused x (heq ▸ hxt)
      exact Function.update_of_ne hqt ..
    rw [user, user, hlink, htake]

/-! ### The operations -/

theorem user_none_of_target (hd : D e = some d) (hi : i < PDX UTOP)
    (hnone : Mos.target mc D m.word (.pte e i j) = none) : Mem.user ⟨D, m⟩ e (i, j) = none := by
  cases ht : entry (m.word d i) with
  | none => simp [user, pte, hd, ht]
  | some t =>
    have hp : Mem.pte ⟨D, m⟩ e (i, j) = some (m.word t j) := pte_eq_some.2 ⟨d, t, hd, ht, rfl⟩
    rw [target_pte ((target_pde hd (userIdx_of_lt hi)).trans ht) hi, entry_eq_none] at hnone
    rw [user_of_pte hp, hnone]
    rfl

theorem target_none_of_user (hnone : Mem.user ⟨D, m⟩ e (i, j) = none) :
    Mos.target mc D m.word (.pte e i j) = none := by
  cases hq : Mos.target mc D m.word (.pte e i j) with
  | none => rfl
  | some q =>
    obtain ⟨-, t, ht, hent⟩ := target_pte_some hq
    obtain ⟨-, d, hd, hpde⟩ := target_pde_some ht
    have hp : Mem.pte ⟨D, m⟩ e (i, j) = some (m.word t j) := pte_eq_some.2 ⟨d, t, hd, hpde, rfl⟩
    rw [user_of_pte hp, if_pos (entry_eq_some.1 hent).1] at hnone
    cases hnone

/-- `page_remove` leaves no valid entry at `va`. -/
theorem Ok.pageRemove_stores (h : Ok mc leak ⟨D, m⟩) (hd : D e = some d) (hi : PDX va < PDX UTOP)
    (hr : m.pageRemove d asid va = some m') : Stores ⟨D, m⟩ e (VPN va) none ⟨D, m'⟩ := by
  rcases h.pageRemove_cases hd hi hr with ⟨hnone, rfl⟩ | ⟨t, q, m₁, ht, -, hdec, rfl⟩
  · exact .congr (fun _ => rfl) (user_none_of_target hd hi hnone)
  · have hword : ((m₁.setWord t (PTX va) 0).tlbInvalidate asid va).word =
        Function.update m.word t (Function.update (m.word t) (PTX va) 0) := by
      rw [← (pageDecref_word hdec).1]
      rfl
    exact h.setPte_stores ht hword

/-- What `page_insert` returns, and what is stored at `va` then. -/
inductive Inserted (pp : Nat) (perm : Word) : Word → Option Word → Prop
  | ok : Inserted pp perm 0 (some (page2pa pp ||| perm ||| PTE_V))
  | full : Inserted pp perm (-E_NO_MEM) none

/-- `page_insert` where nothing is mapped. -/
private theorem Ok.pageInsertFresh_stores {ret : Word} (h : Ok mc leak ⟨D, m⟩) (hd : D e = some d) (hi : PDX va < PDX UTOP)
    (hnone : Mos.target mc D m.word (.pte e (PDX va) (PTX va)) = none)
    (hp : m.pageInsertFresh d asid pp va perm = some (ret, m')) :
    ∃ r, Inserted pp perm ret r ∧ Stores ⟨D, m⟩ e (VPN va) r ⟨D, m'⟩ := by
  have hflush : Stores ⟨D, m⟩ e (VPN va) none ⟨D, m.tlbInvalidate asid va⟩ :=
    .congr (fun _ => rfl) (user_none_of_target hd hi hnone)
  have h₁ := h.flush asid va
  have hfill : ∀ {n : Pmap} {leak : Nat → Nat} {t : Nat}, Ok mc leak ⟨D, n⟩ →
      Mos.target mc D n.word (.pde e (PDX va)) = some t →
      Stores ⟨D, n⟩ e (VPN va) (some (page2pa pp ||| perm ||| PTE_V)) ⟨D, n.fill t (PTX va) pp perm⟩ := by
    intro n leak t hn ht
    have hset := hn.setPte_stores (n := n.fill t (PTX va) pp perm) ht rfl
    rwa [entry_V, if_pos rfl] at hset
  cases hv : has (m.word d (PDX va)) PTE_V with
  | true =>
    obtain ⟨ht, hlt⟩ := h.pde_valid hd (userIdx_of_lt hi) hv
    rw [Pmap.pageInsertFresh_valid hv hlt] at hp
    simp only [Option.some.injEq, Prod.mk.injEq] at hp
    obtain ⟨rfl, rfl⟩ := hp
    exact ⟨_, .ok, hflush.trans (hfill h₁ ht)⟩
  | false =>
    cases hl : m.pageFreeList with
    | nil =>
      rw [Pmap.pageInsertFresh_full hv hl] at hp
      simp only [Option.some.injEq, Prod.mk.injEq] at hp
      obtain ⟨rfl, rfl⟩ := hp
      exact ⟨_, .full, hflush⟩
    | cons t rest =>
      rw [Pmap.pageInsertFresh_link hv hl] at hp
      simp only [Option.some.injEq, Prod.mk.injEq] at hp
      obtain ⟨rfl, rfl⟩ := hp
      have hfresh := h.fresh (q := t) (by rw [hl]; exact List.mem_cons_self ..)
      have hlink := h₁.link_stores (j := PTX va) hd hv hl
      have ht : Mos.target mc D ((m.tlbInvalidate asid va).linkTable d t rest (PDX va)).word (.pde e (PDX va)) = some t := by
        have hpde : ((m.tlbInvalidate asid va).linkTable d t rest (PDX va)).word d (PDX va) = Pmap.tablePde t := by
          simp [Pmap.linkTable, Pmap.setWord]
        rw [target_pde hd (userIdx_of_lt hi), hpde]
        refine entry_tablePde ?_
        have hk := mc.kseg0
        have hlt := hfresh.bound.2
        omega
      exact ⟨_, .ok, (hflush.trans hlink).trans (hfill (h₁.link hd (userIdx_of_lt hi) hv hl) ht)⟩

/-- Where nothing is mapped, `page_insert` has nothing to remove. -/
theorem Ok.pageInsert_eq_fresh (h : Ok mc leak ⟨D, m⟩) (hd : D e = some d) (hi : PDX va < PDX UTOP)
    (hnone : Mos.target mc D m.word (.pte e (PDX va) (PTX va)) = none) :
    m.pageInsert d asid pp va perm = m.pageInsertFresh d asid pp va perm := by
  apply Pmap.pageInsert_unmapped
  cases hv : has (m.word d (PDX va)) PTE_V with
  | false => exact .inl rfl
  | true =>
    obtain ⟨ht, hlt⟩ := h.pde_valid hd (userIdx_of_lt hi) hv
    rw [target_pte ht hi] at hnone
    exact .inr ⟨hlt, entry_eq_none.1 hnone⟩

/-- Where a page is mapped, `page_insert` removes it first, or writes the entry only. -/
theorem Ok.pageInsert_mapped {ret : Word} {q : Nat} (h : Ok mc leak ⟨D, m⟩) (hd : D e = some d) (hi : PDX va < PDX UTOP)
    (ht : Mos.target mc D m.word (.pde e (PDX va)) = some t) (hpte : entry (m.word t (PTX va)) = some q)
    (hp : m.pageInsert d asid pp va perm = some (ret, m')) :
    (∃ m₁, m.pageRemove d asid va = some m₁ ∧ m₁.pageInsertFresh d asid pp va perm = some (ret, m')) ∨
      (ret = 0 ∧ m' = (m.tlbInvalidate asid va).setWord t (PTX va) (page2pa pp ||| perm ||| PTE_V)) := by
  obtain ⟨-, d', hd', hent⟩ := target_pde_some ht
  obtain rfl := Option.some.inj (hd.symm.trans hd')
  obtain ⟨hv, rfl⟩ := entry_eq_some.1 hent
  obtain ⟨hw, rfl⟩ := entry_eq_some.1 hpte
  have hlt : PPN (m.word d (PDX va)) < m.npage := h.pde_lt ht
  have hq : m.pa2page (m.word (PPN (m.word d (PDX va))) (PTX va)) =
      some (PPN (m.word (PPN (m.word d (PDX va))) (PTX va))) := by
    rw [Pmap.pa2page, if_pos (h.pde_lt ((target_pte ht hi).trans hpte))]
  rw [Pmap.pageInsert, Pmap.pgdirWalk_valid false hv hlt, Option.bind_some] at hp
  dsimp only at hp
  rw [if_pos hw, hq, Option.bind_some] at hp
  split at hp
  case isTrue => exact .inl (Option.bind_eq_some_iff.1 hp)
  case isFalse =>
    simp only [Option.some.injEq, Prod.mk.injEq] at hp
    obtain ⟨rfl, rfl⟩ := hp
    exact .inr ⟨rfl, rfl⟩

theorem Ok.pageInsert_stores {ret : Word} (h : Ok mc leak ⟨D, m⟩) (hd : D e = some d) (hi : PDX va < PDX UTOP)
    (hp : m.pageInsert d asid pp va perm = some (ret, m')) :
    ∃ r, Inserted pp perm ret r ∧ Stores ⟨D, m⟩ e (VPN va) r ⟨D, m'⟩ := by
  rcases h.pageLookup hd hi with ⟨hnone, hl⟩ | ⟨t, q, ht, hpte, hl⟩
  · exact h.pageInsertFresh_stores hd hi hnone (h.pageInsert_eq_fresh hd hi hnone ▸ hp)
  · rcases h.pageInsert_mapped hd hi ht hpte hp with ⟨m₁, hr, hp⟩ | ⟨rfl, rfl⟩
    · have hrem := h.pageRemove_stores hd hi hr
      have hmoves : Moves mc .any e asid ⟨D, m⟩ ⟨D, m₁⟩ := h.pageRemove_moves hd hi hr
      obtain ⟨leak₁, h₁, -⟩ := h.moves hmoves
      obtain ⟨r, hr, hins⟩ := h₁.pageInsertFresh_stores hd hi (target_none_of_user hrem.self) hp
      exact ⟨r, hr, hrem.trans hins⟩
    · have hset := h.setPte_stores (n := (m.tlbInvalidate asid va).setWord t (PTX va) (page2pa pp ||| perm ||| PTE_V))
        ht rfl
      rw [entry_V, if_pos rfl] at hset
      exact ⟨_, .ok, hset⟩

/-! ### The free list -/

private theorem pageRemove_free (h : Ok mc leak ⟨D, m⟩) (hd : D e = some d) (hi : PDX va < PDX UTOP)
    (hr : m.pageRemove d asid va = some m') {q : Nat} (hq : q ∈ m'.pageFreeList) :
    q ∈ m.pageFreeList ∨ ∃ w, Mem.user ⟨D, m⟩ e (VPN va) = some w ∧ PPN w = q := by
  rcases h.pageRemove_cases hd hi hr with ⟨-, rfl⟩ | ⟨t, p, m₁, ht, hpte, hdec, rfl⟩
  · exact .inl hq
  · obtain ⟨-, hm₁⟩ := Pmap.pageDecref_cases hdec
    have hq : q ∈ m₁.pageFreeList := hq
    rw [hm₁] at hq
    dsimp only at hq
    have hcase : q = p ∨ q ∈ m.pageFreeList := by
      split at hq
      · exact List.mem_cons.1 hq
      · exact .inr hq
    rcases hcase with rfl | hq
    · right
      obtain ⟨-, d', hd', hent⟩ := target_pde_some ht
      obtain ⟨hv, hp⟩ := entry_eq_some.1 hpte
      exact ⟨_, user_eq_some.2 ⟨pte_eq_some.2 ⟨d', t, hd', hent, rfl⟩, hv⟩, hp⟩
    · exact .inl hq

theorem pageInsertFresh_free {ret : Word} {q : Nat} (h : Ok mc leak ⟨D, m⟩) (hd : D e = some d) (hi : PDX va < PDX UTOP)
    (hp : m.pageInsertFresh d asid pp va perm = some (ret, m')) (hq : q ∈ m'.pageFreeList) : q ∈ m.pageFreeList := by
  cases hv : has (m.word d (PDX va)) PTE_V with
  | true =>
    obtain ⟨-, hlt⟩ := h.pde_valid hd (userIdx_of_lt hi) hv
    rw [Pmap.pageInsertFresh_valid hv hlt] at hp
    simp only [Option.some.injEq, Prod.mk.injEq] at hp
    obtain ⟨-, rfl⟩ := hp
    exact hq
  | false =>
    cases hl : m.pageFreeList with
    | nil =>
      rw [Pmap.pageInsertFresh_full hv hl] at hp
      simp only [Option.some.injEq, Prod.mk.injEq] at hp
      obtain ⟨-, rfl⟩ := hp
      exact hl ▸ hq
    | cons t rest =>
      rw [Pmap.pageInsertFresh_link hv hl] at hp
      simp only [Option.some.injEq, Prod.mk.injEq] at hp
      obtain ⟨-, rfl⟩ := hp
      exact List.mem_cons_of_mem t hq

/-- `page_insert` frees at most the page that was mapped at `va`. -/
theorem pageInsert_free {ret : Word} {q : Nat} (h : Ok mc leak ⟨D, m⟩) (hd : D e = some d) (hi : PDX va < PDX UTOP)
    (hp : m.pageInsert d asid pp va perm = some (ret, m')) (hq : q ∈ m'.pageFreeList) :
    q ∈ m.pageFreeList ∨ ∃ w, Mem.user ⟨D, m⟩ e (VPN va) = some w ∧ PPN w = q := by
  rcases h.pageLookup hd hi with ⟨hnone, hl⟩ | ⟨t, p, ht, hpte, hl⟩
  · have heq : m.pageInsert d asid pp va perm = m.pageInsertFresh d asid pp va perm := h.pageInsert_eq_fresh hd hi hnone
    exact .inl (pageInsertFresh_free h hd hi (heq ▸ hp) hq)
  · rcases h.pageInsert_mapped hd hi ht hpte hp with ⟨m₁, hr, hp⟩ | hm'
    · have hrem := h.pageRemove_stores hd hi hr
      have hmoves : Moves mc .any e asid ⟨D, m⟩ ⟨D, m₁⟩ := h.pageRemove_moves hd hi hr
      obtain ⟨leak₁, h₁, -⟩ := h.moves hmoves
      exact pageRemove_free h hd hi hr (pageInsertFresh_free h₁ hd hi hp hq)
    · rw [hm'.2] at hq
      exact .inl hq

/-! ### New pages and new directories -/

theorem Ok.take_user {q : Nat} (h : Ok mc leak ⟨D, m⟩) (hl : m.pageFreeList = q :: rest) (hv : v.1 < PDX UTOP) :
    Mem.user ⟨D, m.take q rest⟩ e v = Mem.user ⟨D, m⟩ e v := by
  have hfresh := h.fresh (q := q) (by rw [hl]; exact List.mem_cons_self ..)
  have htake := h.pte_congr (n := ⟨D, m.take q rest⟩) (lt_ULIM hv) (e := e) rfl fun p hp => by
    obtain ⟨x, hx, -, hxt⟩ := hp
    have hne : p ≠ q := fun heq => hfresh.unused x (heq ▸ hxt)
    exact Function.update_of_ne hne ..
  rw [user, user, htake]

/-- A new directory has nothing below `UTOP`. -/
theorem newDir_user {base p : Nat} (hs : m.envSetupVm base = some (p, m')) (hv : v.1 < PDX UTOP) :
    Mem.user ⟨Function.update D e (some p), m'⟩ e v = none := by
  obtain ⟨rest, hl, rfl⟩ := Pmap.envSetupVm_cases hs
  have hself : ¬(v.1 = PDX KSEG2 ∨ v.1 = PDX UVPT) := by
    rintro (heq | heq)
    · exact absurd hv (by rw [heq]; decide)
    · exact absurd hv (by rw [heq]; decide)
  have hnew : ((m.take p rest).newDir base p).word p = (m.take p rest).newDirWord base p := Function.update_self ..
  have hzero : ((m.take p rest).newDir base p).word p v.1 = 0 := by
    rw [hnew, Pmap.newDirWord, if_neg hself, if_neg fun hle => absurd hv (not_lt.2 hle.1)]
  simp [user, pte, hzero]

end Mem

end Mos
