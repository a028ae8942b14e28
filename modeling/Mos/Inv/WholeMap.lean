import Mos.Inv.PageMap

/-!
# The whole of a page directory

Besides the tables below `UTOP` the entries of a directory refer to the directory itself, in the windows at `UVPT` and at
`KSEG2`, and to tables above `ULIM`.  A page that is mapped in a window becomes a page table.

A page is put into such a directory in three steps, each of which keeps it a directory: the page is taken off the free
list, a table is linked where there is none, and the entry is written.
-/

namespace Mos

namespace Pmap

variable {m m' : Pmap} {d t p q : Nat} {i j : Idx} {va : Word} {v : Vpn} {rest : List Nat}

/-- What the directory `d` maps, also in the windows. -/
def wholeMap (m : Pmap) (d : Nat) (v : Vpn) : Option (Nat × Word) :=
  (entry (m.word d v.1)).bind fun t => mapsTo (m.word t v.2)

/-- The entries for the tables that all environments share. -/
def Shared (i : Idx) : Prop := i = PDX UENVS ∨ i = PDX UPAGES

/-- A page directory with the two windows.  Below `UTOP` it has tables of its own. -/
structure Windowed (m : Pmap) (d : Nat) : Prop where
  kseg0 : m.npage ≤ 2 ^ 17
  nodup : m.pageFreeList.Nodup
  free : ∀ q ∈ m.pageFreeList, q < m.npage ∧ m.ppRef q = 0 ∧ q ≠ d ∧ ∀ i, entry (m.word d i) ≠ some q
  uvpt : entry (m.word d (PDX UVPT)) = some d
  kseg2 : entry (m.word d (PDX KSEG2)) = some d
  apart : ∀ i i' t, i < PDX UTOP → entry (m.word d i) = some t → entry (m.word d i') = some t → i' = i
  bound : ∀ i t j q, ¬Shared i → entry (m.word d i) = some t → entry (m.word t j) = some q → q < m.npage

/-- A page that is taken and not used yet. -/
structure Loose (m : Pmap) (d p : Nat) : Prop where
  lt : p < m.npage
  notFree : p ∉ m.pageFreeList
  notDir : p ≠ d
  notTable : ∀ i, entry (m.word d i) ≠ some p
  zero : m.word p = fun _ => 0
  ref : m.ppRef p = 0

private theorem not_shared_uvpt : ¬Shared (PDX UVPT) := by
  unfold Shared
  decide

theorem not_shared_of_lt (hi : i < PDX UTOP) : ¬Shared i := by
  rintro (rfl | rfl)
  · exact absurd hi (by decide)
  · exact absurd hi (by decide)

/-! ### The words after each step -/

private theorem take_word (q : Nat) (i : Idx) : (m.take p rest).word q i = if q = p then 0 else m.word q i := by
  by_cases hq : q = p
  · subst hq
    simp [take]
  · simp [take, hq]

theorem linkTable_word (htd : t ≠ d) (q : Nat) (j : Idx) : (m.linkTable d t rest i).word q j =
    if q = d ∧ j = i then tablePde t else if q = t then 0 else m.word q j := by
  by_cases hqd : q = d
  · subst hqd
    have hword : (m.linkTable q t rest i).word q = Function.update (m.word q) i (tablePde t) := by
      simp [linkTable, setWord, setRef, Function.update_of_ne htd.symm]
    rw [hword, Function.update_apply, if_neg htd.symm]
    simp
  · rw [if_neg fun h => hqd h.1]
    by_cases hqt : q = t
    · subst hqt
      simp [linkTable, setWord, setRef, Function.update_of_ne hqd]
    · rw [if_neg hqt, link_word hqd hqt]

private theorem fill_word_apply (q : Nat) (k : Idx) {perm : Word} : (m.fill t j p perm).word q k =
    if q = t ∧ k = j then newPte p perm else m.word q k := by
  by_cases hq : q = t
  · subst hq
    rw [fill_table, Function.update_apply]
    simp [newPte]
  · rw [if_neg fun h => hq h.1, fill_word hq]

/-! ### Reading -/

namespace Windowed

variable (h : Windowed m d)

include h

private theorem table_lt (ht : entry (m.word d i) = some t) : t < m.npage := h.bound _ d i t not_shared_uvpt h.uvpt ht

/-- A table below `UTOP` is not the directory. -/
private theorem ne_dir (hi : i < PDX UTOP) (ht : entry (m.word d i) = some t) : t ≠ d := by
  rintro rfl
  have heq := h.apart i (PDX UVPT) t hi ht h.uvpt
  rw [← heq] at hi
  exact absurd hi (by decide)

private theorem lt_pages (hp : p < m.npage) : p < 2 ^ 20 := by
  have hk := h.kseg0
  omega

/-- The lookup does not panic, and finds what the map says. -/
theorem lookup_cases (hi : ¬Shared (PDX va)) :
    (m.wholeMap d (VPN va) = none ∧ m.pageLookup d va = some none) ∨
      ∃ t q, entry (m.word d (PDX va)) = some t ∧ m.wholeMap d (VPN va) = some (q, m.word t (PTX va)) ∧
        entry (m.word t (PTX va)) = some q ∧ m.pageLookup d va = some (some (q, (t, PTX va))) := by
  cases hpde : entry (m.word d (PDX va)) with
  | none =>
    have hmap : m.wholeMap d (VPN va) = none := by
      show (entry (m.word d (PDX va))).bind _ = none
      rw [hpde, Option.bind_none]
    refine .inl ⟨hmap, ?_⟩
    rw [pageLookup, pgdirWalk_invalid (entry_eq_none.1 hpde)]
    rfl
  | some t =>
    have hlt := h.table_lt hpde
    have hmap : m.wholeMap d (VPN va) = mapsTo (m.word t (PTX va)) := by
      show (entry (m.word d (PDX va))).bind _ = _
      rw [hpde, Option.bind_some]
      rfl
    obtain ⟨hval, hPPN⟩ := entry_eq_some.1 hpde
    rw [hmap, pageLookup, pgdirWalk_valid false hval (hPPN.symm ▸ hlt), Option.bind_some, hPPN]
    cases hpte : entry (m.word t (PTX va)) with
    | none =>
      refine .inl ⟨mapsTo_none hpte, ?_⟩
      simp [entry_eq_none.1 hpte]
    | some q =>
      have hq := h.bound _ t _ q hi hpde hpte
      refine .inr ⟨t, q, rfl, mapsTo_frame hpte, hpte, ?_⟩
      obtain ⟨hw, rfl⟩ := entry_eq_some.1 hpte
      simp only [hw, if_true, pa2page, if_pos hq, Option.map_some]

theorem lookup_eq (hi : ¬Shared (PDX va)) : m.lookup d va = some (m.wholeMap d (VPN va)) := by
  rcases h.lookup_cases hi with ⟨hmap, hl⟩ | ⟨t, q, -, hmap, -, hl⟩
  · rw [lookup, hl, hmap]
    rfl
  · rw [lookup, hl, hmap]
    rfl

/-- In the window at `UVPT` the entries of the directory are mapped. -/
theorem wholeMap_uvpt (hv : v.1 = PDX UVPT) : m.wholeMap d v = mapsTo (m.word d v.2) := by
  rw [wholeMap, hv, h.uvpt, Option.bind_some]

end Windowed

/-! ### Taking a page -/

private theorem wholeMap_congr (hdir : m'.word d v.1 = m.word d v.1)
    (htab : ∀ t, entry (m.word d v.1) = some t → m'.word t v.2 = m.word t v.2) : m'.wholeMap d v = m.wholeMap d v := by
  unfold wholeMap
  rw [hdir]
  cases ht : entry (m.word d v.1) with
  | none => rfl
  | some t => rw [Option.bind_some, Option.bind_some, htab t ht]

namespace Windowed

variable (h : Windowed m d)

include h

section

variable (hl : m.pageFreeList = p :: rest)

include hl

private theorem take : (m.take p rest).Windowed d := by
  have hp := h.free p (by rw [hl]; exact List.mem_cons_self ..)
  have hnodup := h.nodup
  rw [hl, List.nodup_cons] at hnodup
  have hdir : ∀ i, (m.take p rest).word d i = m.word d i := fun i => by rw [take_word, if_neg hp.2.2.1.symm]
  constructor
  · exact h.kseg0
  · exact hnodup.2
  · intro q hq
    have hold := h.free q (by rw [hl]; exact List.mem_cons_of_mem _ hq)
    refine ⟨hold.1, hold.2.1, hold.2.2.1, fun i => ?_⟩
    rw [hdir]
    exact hold.2.2.2 i
  · rw [hdir]
    exact h.uvpt
  · rw [hdir]
    exact h.kseg2
  · intro i i' t hi ht ht'
    rw [hdir] at ht ht'
    exact h.apart i i' t hi ht ht'
  · intro i t j q hi ht hq
    rw [hdir] at ht
    rw [take_word] at hq
    split at hq
    case isTrue => cases hq
    case isFalse => exact h.bound i t j q hi ht hq

private theorem take_loose : (m.take p rest).Loose d p := by
  have hp := h.free p (by rw [hl]; exact List.mem_cons_self ..)
  have hnodup := h.nodup
  rw [hl, List.nodup_cons] at hnodup
  refine ⟨hp.1, hnodup.1, hp.2.2.1, fun i => ?_, Function.update_self .., hp.2.1⟩
  rw [take_word, if_neg hp.2.2.1.symm]
  exact hp.2.2.2 i

private theorem take_map (v : Vpn) : (m.take p rest).wholeMap d v = m.wholeMap d v := by
  have hp := h.free p (by rw [hl]; exact List.mem_cons_self ..)
  apply wholeMap_congr
  · rw [take_word, if_neg hp.2.2.1.symm]
  · intro t ht
    have htp : t ≠ p := fun heq => hp.2.2.2 _ (heq ▸ ht)
    rw [take_word, if_neg htp]

end

/-! ### Linking a table -/

section

variable (hl : m.pageFreeList = t :: rest)

include hl

private theorem link_entry (q : Nat) (j : Idx) : entry ((m.linkTable d t rest i).word q j) =
    if q = d ∧ j = i then some t else if q = t then none else entry (m.word q j) := by
  have ht := h.free t (by rw [hl]; exact List.mem_cons_self ..)
  rw [linkTable_word ht.2.2.1]
  split
  case isTrue => exact entry_tablePde (h.lt_pages ht.1)
  case isFalse =>
    split
    case isTrue => exact entry_zero
    case isFalse => rfl

/-- An entry of the directory afterwards is the new one or an old one. -/
private theorem link_dir (hq : entry ((m.linkTable d t rest i).word d j) = some q) :
    j = i ∧ q = t ∨ j ≠ i ∧ q ≠ t ∧ entry (m.word d j) = some q := by
  have ht := h.free t (by rw [hl]; exact List.mem_cons_self ..)
  rw [h.link_entry hl] at hq
  by_cases hj : j = i
  · rw [if_pos ⟨rfl, hj⟩] at hq
    exact .inl ⟨hj, (Option.some.inj hq).symm⟩
  · rw [if_neg fun h => hj h.2, if_neg ht.2.2.1.symm] at hq
    exact .inr ⟨hj, fun heq => ht.2.2.2 j (heq ▸ hq), hq⟩

private theorem link_loose (hp : Loose m d p) : (m.linkTable d t rest i).Loose d p := by
  have htp : p ≠ t := fun heq => hp.notFree (heq ▸ hl ▸ List.mem_cons_self ..)
  refine ⟨hp.lt, fun hm => hp.notFree (hl ▸ List.mem_cons_of_mem _ hm), hp.notDir, fun j hj => ?_, ?_, ?_⟩
  · rcases h.link_dir hl hj with ⟨-, heq⟩ | ⟨-, -, hj⟩
    · exact htp heq
    · exact hp.notTable j hj
  · rw [link_word hp.notDir htp]
    exact hp.zero
  · exact (Function.update_of_ne htp ..).trans hp.ref

variable (hnone : entry (m.word d i) = none)

include hnone

private theorem link_old (hj : entry (m.word d j) = some q) : entry ((m.linkTable d t rest i).word d j) = some q := by
  have ht := h.free t (by rw [hl]; exact List.mem_cons_self ..)
  have hne : j ≠ i := by
    rintro rfl
    rw [hnone] at hj
    cases hj
  rw [h.link_entry hl, if_neg fun h => hne h.2, if_neg ht.2.2.1.symm]
  exact hj

private theorem link : (m.linkTable d t rest i).Windowed d := by
  have ht := h.free t (by rw [hl]; exact List.mem_cons_self ..)
  have hnodup := h.nodup
  rw [hl, List.nodup_cons] at hnodup
  constructor
  · exact h.kseg0
  · exact hnodup.2
  · intro q hq
    have hqt : q ≠ t := fun heq => hnodup.1 (heq ▸ hq)
    have hold := h.free q (by rw [hl]; exact List.mem_cons_of_mem _ hq)
    refine ⟨hold.1, (Function.update_of_ne hqt ..).trans hold.2.1, hold.2.2.1, fun j hj => ?_⟩
    rcases h.link_dir hl hj with ⟨-, heq⟩ | ⟨-, -, hj⟩
    · exact hqt heq
    · exact hold.2.2.2 j hj
  · exact h.link_old hl hnone h.uvpt
  · exact h.link_old hl hnone h.kseg2
  · intro j j' q hj hq hq'
    rcases h.link_dir hl hq with ⟨rfl, rfl⟩ | ⟨-, hqt, hq⟩
    · rcases h.link_dir hl hq' with ⟨hj', -⟩ | ⟨-, hne, -⟩
      · exact hj'
      · exact absurd rfl hne
    · rcases h.link_dir hl hq' with ⟨-, heq⟩ | ⟨-, -, hq'⟩
      · exact absurd heq hqt
      · exact h.apart j j' q hj hq hq'
  · intro j x k q hj hx hq
    rw [h.link_entry hl] at hq
    rcases h.link_dir hl hx with ⟨-, rfl⟩ | ⟨-, hxt, hx⟩
    · rw [if_neg fun h => ht.2.2.1 h.1, if_pos rfl] at hq
      cases hq
    · split at hq
      case isTrue => exact Option.some.inj hq ▸ ht.1
      case isFalse => exact h.bound j x k q hj hx (by simpa [hxt] using hq)

/-- A page of the new table is not mapped, as it was not before. -/
private theorem link_map (hv : v.1 < PDX UTOP) : (m.linkTable d t rest i).wholeMap d v = m.wholeMap d v := by
  have ht := h.free t (by rw [hl]; exact List.mem_cons_self ..)
  by_cases hvi : v.1 = i
  · have hnew : entry ((m.linkTable d t rest i).word d v.1) = some t := by
      rw [h.link_entry hl, if_pos ⟨rfl, hvi⟩]
    have hzero : (m.linkTable d t rest i).word t v.2 = 0 := by
      rw [linkTable_word ht.2.2.1, if_neg fun h => ht.2.2.1 h.1, if_pos rfl]
    unfold wholeMap
    rw [hnew, hvi, hnone, Option.bind_some, Option.bind_none, hzero]
    exact mapsTo_zero
  · apply wholeMap_congr
    · rw [linkTable_word ht.2.2.1, if_neg fun h => hvi h.2, if_neg ht.2.2.1.symm]
    · intro x hx
      have hxt : x ≠ t := fun heq => ht.2.2.2 _ (heq ▸ hx)
      rw [link_word (h.ne_dir hv hx) hxt]

end

/-! ### Writing an entry -/

section

variable {perm : Word} (hp : Loose m d p) (hperm : PPN perm = 0)

include hp hperm

private theorem fill_entry (t q : Nat) (j k : Idx) :
    entry ((m.fill t j p perm).word q k) = if q = t ∧ k = j then some p else entry (m.word q k) := by
  rw [fill_word_apply]
  split
  case isTrue => exact entry_newPte (h.lt_pages hp.lt) hperm
  case isFalse => rfl

variable (hnone : entry (m.word t j) = none)

private theorem fill_dir (hq : entry ((m.fill t j p perm).word d i) = some q) :
    t = d ∧ i = j ∧ q = p ∨ q ≠ p ∧ entry (m.word d i) = some q := by
  rw [h.fill_entry hp hperm] at hq
  split at hq
  case isTrue hd => exact .inl ⟨hd.1.symm, hd.2, (Option.some.inj hq).symm⟩
  case isFalse => exact .inr ⟨fun heq => hp.notTable i (heq ▸ hq), hq⟩

include hnone

private theorem fill_old (hq : entry (m.word d i) = some q) : entry ((m.fill t j p perm).word d i) = some q := by
  have hne : ¬(d = t ∧ i = j) := by
    rintro ⟨rfl, rfl⟩
    rw [hnone] at hq
    cases hq
  rw [h.fill_entry hp hperm, if_neg hne]
  exact hq

private theorem fill (ht : entry (m.word d i) = some t) : (m.fill t j p perm).Windowed d := by
  have hpt : p ≠ t := fun heq => hp.notTable i (heq ▸ ht)
  have hzero : ∀ k, entry ((m.fill t j p perm).word p k) = none := fun k => by
    rw [h.fill_entry hp hperm, if_neg fun h => hpt h.1, hp.zero]
    exact entry_zero
  constructor
  · exact h.kseg0
  · exact h.nodup
  · intro q hq
    have hqp : q ≠ p := fun heq => hp.notFree (heq ▸ hq)
    have hold := h.free q hq
    refine ⟨hold.1, (Function.update_of_ne hqp ..).trans hold.2.1, hold.2.2.1, fun k hk => ?_⟩
    rcases h.fill_dir hp hperm hk with ⟨-, -, heq⟩ | ⟨-, hk⟩
    · exact hqp heq
    · exact hold.2.2.2 k hk
  · exact h.fill_old hp hperm hnone h.uvpt
  · exact h.fill_old hp hperm hnone h.kseg2
  · intro k k' q hk hq hq'
    rcases h.fill_dir hp hperm hq with ⟨-, rfl, rfl⟩ | ⟨hqp, hq⟩
    · rcases h.fill_dir hp hperm hq' with ⟨-, hk', -⟩ | ⟨hne, -⟩
      · exact hk'
      · exact absurd rfl hne
    · rcases h.fill_dir hp hperm hq' with ⟨-, -, heq⟩ | ⟨-, hq'⟩
      · exact absurd heq hqp
      · exact h.apart k k' q hk hq hq'
  · intro k x l q hk hx hq
    rcases h.fill_dir hp hperm hx with ⟨-, -, rfl⟩ | ⟨-, hx⟩
    · rw [hzero] at hq
      cases hq
    · rw [h.fill_entry hp hperm] at hq
      split at hq
      case isTrue => exact Option.some.inj hq ▸ hp.lt
      case isFalse => exact h.bound k x l q hk hx hq

private theorem fill_map_self (ht : entry (m.word d i) = some t) :
    (m.fill t j p perm).wholeMap d (i, j) = some (p, newPte p perm) := by
  have hword : (m.fill t j p perm).word t j = newPte p perm := by rw [fill_word_apply, if_pos ⟨rfl, rfl⟩]
  unfold wholeMap
  rw [h.fill_old hp hperm hnone ht, Option.bind_some, hword]
  exact mapsTo_frame (entry_newPte (h.lt_pages hp.lt) hperm)

/-- Below `UTOP` no other page is mapped otherwise: where the entry is one of the directory, its table is new and empty. -/
private theorem fill_map (ht : entry (m.word d i) = some t) (hv : v.1 < PDX UTOP) (hne : v ≠ (i, j)) :
    (m.fill t j p perm).wholeMap d v = m.wholeMap d v := by
  by_cases hdir : d = t ∧ v.1 = j
  · obtain ⟨rfl, hvj⟩ := hdir
    have hnew : entry ((m.fill d j p perm).word d v.1) = some p := by
      rw [h.fill_entry hp hperm, if_pos ⟨rfl, hvj⟩]
    unfold wholeMap
    rw [hnew, hvj, hnone, Option.bind_some, Option.bind_none, fill_word hp.notDir, hp.zero]
    exact mapsTo_zero
  · apply wholeMap_congr
    · rw [fill_word_apply, if_neg hdir]
    · intro x hx
      rw [fill_word_apply, if_neg]
      rintro ⟨rfl, hvj⟩
      have heq := h.apart v.1 i x hv hx ht
      exact hne (Prod.ext heq.symm hvj)

end

end Windowed

/-! ### The page that is inserted -/

/-- The free pages that a fault at `va` takes. -/
def pagesFor (m : Pmap) (d : Nat) (va : Word) : Nat := if entry (m.word d (PDX va)) = none then 2 else 1

/-- What `page_alloc` and `page_insert` leave of the directory when they map the page `p` at `va`. -/
structure Faulted (m : Pmap) (d p : Nat) (va : Word) (m' : Pmap) : Prop where
  windowed : m'.Windowed d
  here : m'.wholeMap d (VPN va) = some (p, newPte p PTE_D)
  others : ∀ v : Vpn, v.1 < PDX UTOP → v ≠ VPN va → m'.wholeMap d v = m.wholeMap d v
  zero : m'.word p = fun _ => 0
  ref : m'.ppRef p = 1

private theorem Windowed.flush (h : Windowed m d) (asid : Asid) (va : Word) : (m.tlbInvalidate asid va).Windowed d :=
  ⟨h.kseg0, h.nodup, h.free, h.uvpt, h.kseg2, h.apart, h.bound⟩

private theorem Windowed.faulted (h : Windowed m d) (hp : Loose m d p) {i j : Idx} (ht : entry (m.word d i) = some t)
    (hnone : entry (m.word t j) = none) (hv : VPN va = (i, j)) : Faulted m d p va (m.fill t j p PTE_D) := by
  have hD : PPN PTE_D = 0 := by decide
  have hpt : p ≠ t := fun heq => hp.notTable i (heq ▸ ht)
  refine ⟨h.fill hp hD hnone ht, ?_, fun v hlt hne => h.fill_map hp hD hnone ht hlt (hv ▸ hne), ?_, ?_⟩
  · rw [hv]
    exact h.fill_map_self hp hD hnone ht
  · rw [fill_word hpt]
    exact hp.zero
  · have href : (m.fill t j p PTE_D).ppRef p = m.ppRef p + 1 := Function.update_self ..
    rw [href, hp.ref]
    rfl

private theorem Faulted.of_eq {n : Pmap} (h : Faulted m d p va m')
    (hmap : ∀ v : Vpn, v.1 < PDX UTOP → m.wholeMap d v = n.wholeMap d v) :
    Faulted n d p va m' :=
  ⟨h.windowed, h.here, fun v hv hne => (h.others v hv hne).trans (hmap v hv), h.zero, h.ref⟩

private theorem wholeMap_none (ht : entry (m.word d v.1) = some t) (hnone : m.wholeMap d v = none) :
    entry (m.word t v.2) = none := by
  rw [wholeMap, ht, Option.bind_some] at hnone
  exact Option.map_eq_none_iff.1 hnone

/-- A page that is not mapped gets one, as long as there are enough of them. -/
theorem Windowed.insert (h : Windowed m d) (hnone : m.wholeMap d (VPN va) = none) (asid : Asid)
    (hroom : m.pagesFor d va ≤ m.pageFreeList.length) :
    ∃ p rest m', m.pageFreeList = p :: rest ∧ (m.take p rest).pageInsert d asid p va PTE_D = some (0, m') ∧
      Faulted m d p va m' := by
  cases hl : m.pageFreeList with
  | nil =>
    unfold pagesFor at hroom
    rw [hl] at hroom
    split at hroom <;> simp at hroom
  | cons p rest =>
    have hpd : d ≠ p := fun heq => (h.free p (by rw [hl]; exact List.mem_cons_self ..)).2.2.1 heq.symm
    have hdir : ∀ i, (m.take p rest).word d i = m.word d i := fun i => by rw [take_word, if_neg hpd]
    have hw := (h.take hl).flush asid va
    have hloose := h.take_loose hl
    have hp : Loose ((m.take p rest).tlbInvalidate asid va) d p :=
      ⟨hloose.lt, hloose.notFree, hloose.notDir, hloose.notTable, hloose.zero, hloose.ref⟩
    refine ⟨p, rest, ?_⟩
    cases hpde : entry (m.word d (PDX va)) with
    | none =>
      -- there is no table, and one more page is taken for it
      obtain ⟨t, rest, rfl⟩ : ∃ t rest', rest = t :: rest' := by
        rw [pagesFor, if_pos hpde, hl] at hroom
        cases rest with
        | nil => simp at hroom
        | cons t rest => exact ⟨t, rest, rfl⟩
      have hinv : entry ((m.take p (t :: rest)).word d (PDX va)) = none := by
        rw [hdir]
        exact hpde
      have hv := entry_eq_none.1 hinv
      have hl' : ((m.take p (t :: rest)).tlbInvalidate asid va).pageFreeList = t :: rest := rfl
      have hlink := hw.link hl' hinv
      have htd := (hw.free t (List.mem_cons_self ..)).2.2.1
      have ht := hw.link_entry (i := PDX va) hl' d (PDX va)
      rw [if_pos ⟨rfl, rfl⟩] at ht
      have hpte := hw.link_entry (i := PDX va) hl' t (PTX va)
      rw [if_neg fun h => htd h.1, if_pos rfl] at hpte
      refine ⟨_, rfl, ?_, (hlink.faulted (hw.link_loose rfl hp) ht hpte rfl).of_eq fun v hlt => ?_⟩
      · rw [pageInsert_unmapped (.inl hv), pageInsertFresh_link hv rfl]
      · exact (hw.link_map rfl hinv hlt).trans (h.take_map hl v)
    | some t =>
      have htp : t ≠ p := fun heq => hloose.notTable (PDX va) (by rw [hdir, hpde, heq])
      have ht : entry ((m.take p rest).word d (PDX va)) = some t := by
        rw [hdir]
        exact hpde
      have hpte : entry ((m.take p rest).word t (PTX va)) = none := by
        rw [take_word, if_neg htp]
        exact wholeMap_none (v := VPN va) hpde hnone
      obtain ⟨hv, hPPN⟩ := entry_eq_some.1 ht
      have hlt : PPN ((m.take p rest).word d (PDX va)) < (m.take p rest).npage := hPPN.symm ▸ h.table_lt hpde
      refine ⟨_, rfl, ?_, (hw.faulted hp ht hpte rfl).of_eq fun v _ => h.take_map hl v⟩
      rw [pageInsert_unmapped (.inr ⟨hlt, hPPN.symm ▸ entry_eq_none.1 hpte⟩), pageInsertFresh_valid hv hlt, hPPN]

end Pmap

end Mos
