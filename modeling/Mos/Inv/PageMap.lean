import Mos.Inv.Lookup
import Mos.Inv.Space
import Mathlib.Data.Finset.Prod
import Mathlib.Data.Fintype.Prod
import Mathlib.Order.Interval.Finset.Fin

/-!
# A page directory as a finite map (`kern/pmap.c`, `include/pmap.h`)

Below `UTOP`, a directory and its tables are a map from pages to frames and entries.  `page_insert` and `page_remove`
set and clear one page of it, whatever tables they link on the way, and `page_lookup` and `va2pa` read it.
-/

namespace Mos

namespace Pmap

variable {m m' n : Pmap} {d t p pp q : Nat} {asid : Asid} {va perm w : Word} {v : Vpn} {rest : List Nat}

/-! ### Reading -/

/-- `va2pa`; `KADDR` panics beyond the memory. -/
def va2pa (m : Pmap) (pgdir : Nat) (va : Word) : Option Word :=
  let pde := m.word pgdir (PDX va)
  if has pde PTE_V then
    (m.pa2page pde).map fun t =>
      if has (m.word t (PTX va)) PTE_V then PTE_ADDR (m.word t (PTX va)) else ~~~0
  else some (~~~0)

/-- `page_lookup`, with the entry that it leaves in `*ppte`. -/
def lookup (m : Pmap) (pgdir : Nat) (va : Word) : Option (Option (Nat × Word)) :=
  (m.pageLookup pgdir va).map fun o => o.map fun (pp, pte) => (pp, m.word pte.1 pte.2)

/-- What the entry `w` maps. -/
def mapsTo (w : Word) : Option (Nat × Word) := (entry w).map fun q => (q, w)

/-- The map of `d`: the frame and the entry of every page below `UTOP`. -/
def pageMap (m : Pmap) (d : Nat) (v : Vpn) : Option (Nat × Word) :=
  if v.1 < PDX UTOP then (entry (m.word d v.1)).bind fun t => mapsTo (m.word t v.2) else none

/-- The directory or one of its tables below `UTOP`. -/
def IsTable (m : Pmap) (d q : Nat) : Prop := q = d ∨ ∃ i, i < PDX UTOP ∧ entry (m.word d i) = some q

/-- The frames that the pages refer to. -/
def frames (f : Vpn → Option (Nat × Word)) (v : Vpn) : Option Nat := (f v).map Prod.fst

/-- A two-level table: the tables are frames of their own, no frame in use is free, and every page is counted. -/
structure TwoLevel (m : Pmap) (d : Nat) : Prop where
  kseg0 : m.npage ≤ 2 ^ 17
  nodup : m.pageFreeList.Nodup
  free : ∀ q ∈ m.pageFreeList, q < m.npage ∧ m.ppRef q = 0 ∧ ¬m.IsTable d q
  table : ∀ i t, i < PDX UTOP → entry (m.word d i) = some t → t < m.npage ∧ t ≠ d
  apart : ∀ i i' t, i < PDX UTOP → i' < PDX UTOP → entry (m.word d i) = some t → entry (m.word d i') = some t → i = i'
  data : ∀ v q, frames (m.pageMap d) v = some q → q < m.npage ∧ ¬m.IsTable d q
  count : ∀ q, refCount (frames (m.pageMap d)) q ≤ (m.ppRef q).toNat

@[simp] theorem mapsTo_zero : mapsTo 0#32 = none := by rw [mapsTo, entry_zero, Option.map_none]

theorem mapsTo_none (hw : entry w = none) : mapsTo w = none := by rw [mapsTo, hw, Option.map_none]

theorem mapsTo_frame (hw : entry w = some q) : mapsTo w = some (q, w) := by rw [mapsTo, hw, Option.map_some]

theorem entry_newPte (hp : p < 2 ^ 20) (hperm : PPN perm = 0) : entry (newPte p perm) = some p := by
  refine entry_eq_some.2 ⟨entry_V .., ?_⟩
  rw [PPN_entry hp, hperm, Nat.or_zero]

theorem pageMap_table (hv : v.1 < PDX UTOP) (ht : entry (m.word d v.1) = some t) : m.pageMap d v = mapsTo (m.word t v.2) := by
  rw [pageMap, if_pos hv, ht, Option.bind_some]

theorem pageMap_at (hi : PDX va < PDX UTOP) (ht : entry (m.word d (PDX va)) = some t) :
    m.pageMap d (VPN va) = mapsTo (m.word t (PTX va)) := pageMap_table (v := VPN va) hi ht

theorem pageMap_unlinked (ht : entry (m.word d v.1) = none) : m.pageMap d v = none := by
  rw [pageMap, ht, Option.bind_none, ite_self]

theorem pageMap_of_le (hv : ¬v.1 < PDX UTOP) : m.pageMap d v = none := if_neg hv

private theorem page2pa_PPN (w : Word) : page2pa (PPN w) = PTE_ADDR w := by
  have hoff : (~~~0xFFF#32 : Word) = BitVec.allOnes 32 <<< 12 := by decide
  apply BitVec.eq_of_getLsbD_eq
  intro i hi
  simp only [page2pa, PPN, PTE_ADDR, hoff, BitVec.ofNat_toNat, BitVec.setWidth_eq, BitVec.getLsbD_shiftLeft,
    BitVec.getLsbD_ushiftRight, BitVec.getLsbD_and, BitVec.getLsbD_allOnes, hi, decide_true, Bool.true_and]
  by_cases hlt : i < 12
  · simp [hlt]
  · have hidx : 12 + (i - 12) = i := by omega
    have hsub : i - 12 < 32 := by omega
    simp [hlt, hidx, hsub]

namespace TwoLevel

variable (h : TwoLevel m d)

include h

private theorem table_lt {i : Idx} (hi : i < PDX UTOP) (ht : entry (m.word d i) = some t) :
    t < m.npage := (h.table i t hi ht).1

/-- The lookup does not panic. -/
private theorem lookup_cases (hi : PDX va < PDX UTOP) : (m.pageMap d (VPN va) = none ∧ m.pageLookup d va = some none) ∨
    ∃ t q, m.MappedAt d va t q ∧ m.pageMap d (VPN va) = some (q, m.word t (PTX va)) ∧
      m.pageLookup d va = some (some (q, (t, PTX va))) := by
  cases hpde : entry (m.word d (PDX va)) with
  | none =>
    refine .inl ⟨pageMap_unlinked (v := VPN va) hpde, ?_⟩
    rw [pageLookup, pgdirWalk_invalid (entry_eq_none.1 hpde)]
    rfl
  | some t =>
    have hlt := h.table_lt hi hpde
    have hmap := pageMap_at hi hpde
    obtain ⟨hval, rfl⟩ := entry_eq_some.1 hpde
    rw [hmap, pageLookup, pgdirWalk_valid false hval hlt, Option.bind_some]
    cases hpte : entry (m.word (PPN (m.word d (PDX va))) (PTX va)) with
    | none =>
      refine .inl ⟨mapsTo_none hpte, ?_⟩
      simp [entry_eq_none.1 hpte]
    | some q =>
      rw [mapsTo_frame hpte] at hmap ⊢
      have hq : q < m.npage := (h.data (VPN va) q (by rw [frames, hmap, Option.map_some])).1
      refine .inr ⟨_, q, ⟨hpde, hpte⟩, rfl, ?_⟩
      obtain ⟨hw, rfl⟩ := entry_eq_some.1 hpte
      simp only [hw, if_true, pa2page, if_pos hq, Option.map_some]

/-- It finds what the map says. -/
private theorem lookup_eq (hi : PDX va < PDX UTOP) : m.lookup d va = some (m.pageMap d (VPN va)) := by
  rcases h.lookup_cases hi with ⟨hmap, hl⟩ | ⟨t, q, -, hmap, hl⟩
  · rw [lookup, hl, hmap]
    rfl
  · rw [lookup, hl, hmap]
    rfl

private theorem va2pa_eq (hi : PDX va < PDX UTOP) :
    m.va2pa d va = some (((m.pageMap d (VPN va)).map fun x => page2pa x.1).getD (~~~0)) := by
  cases hpde : entry (m.word d (PDX va)) with
  | none =>
    rw [pageMap_unlinked (v := VPN va) hpde, va2pa]
    simp [entry_eq_none.1 hpde]
  | some t =>
    have hlt := h.table_lt hi hpde
    have hmap := pageMap_at hi hpde
    obtain ⟨hval, rfl⟩ := entry_eq_some.1 hpde
    have hpt : m.pa2page (m.word d (PDX va)) = some (PPN (m.word d (PDX va))) := if_pos hlt
    rw [hmap, va2pa, if_pos hval, hpt, Option.map_some]
    cases hpte : entry (m.word (PPN (m.word d (PDX va))) (PTX va)) with
    | none =>
      rw [mapsTo_none hpte]
      simp [entry_eq_none.1 hpte]
    | some q =>
      obtain ⟨hw, rfl⟩ := entry_eq_some.1 hpte
      rw [mapsTo_frame hpte, if_pos hw, Option.map_some, Option.getD_some, page2pa_PPN]

/-- A page that is mapped is counted. -/
private theorem ref_pos (hq : frames (m.pageMap d) v = some q) : 0 < (m.ppRef q).toNat :=
  lt_of_lt_of_le (refCount_pos hq) (h.count q)

end TwoLevel

/-! ### Writing -/

/-- Whether the map refers to `q` there, as a number. -/
def refsTo (x : Option (Nat × Word)) (q : Nat) : Nat := if x.map Prod.fst = some q then 1 else 0

/-- The page `v` becomes `x`, and nothing else does; the counts follow. -/
structure Updates (m : Pmap) (d : Nat) (v : Vpn) (x : Option (Nat × Word)) (m' : Pmap) : Prop where
  ok : TwoLevel m' d
  map : m'.pageMap d = Function.update (m.pageMap d) v x
  refs : ∀ q, ¬m'.IsTable d q → (m'.ppRef q).toNat + refsTo (m.pageMap d v) q = (m.ppRef q).toNat + refsTo x q
  grow : ∀ q, m.IsTable d q → m'.IsTable d q ∧ m'.ppRef q = m.ppRef q
  new : ∀ q, m'.IsTable d q → ¬m.IsTable d q → m'.ppRef q = 1

private theorem Updates.trans {x y : Option (Nat × Word)} (h : Updates m d v x m') (h' : Updates m' d v y n) :
    Updates m d v y n where
  ok := h'.ok
  map := by rw [h'.map, h.map, Function.update_idem]
  refs q hq := by
    have hq' : ¬m'.IsTable d q := fun ht => hq (h'.grow q ht).1
    have href := h.refs q hq'
    have href' := h'.refs q hq
    rw [h.map, Function.update_self] at href'
    omega
  grow q hq := by
    obtain ⟨hq', href⟩ := h.grow q hq
    obtain ⟨hq'', href'⟩ := h'.grow q hq'
    exact ⟨hq'', href'.trans href⟩
  new q hq hold := by
    by_cases hq' : m'.IsTable d q
    · rw [(h'.grow q hq').2, h.new q hq' hold]
    · exact h'.new q hq hq'

/-- A flush changes nothing here. -/
private theorem TwoLevel.flush (h : TwoLevel m d) (asid : Asid) (va : Word) (v : Vpn) :
    Updates m d v (m.pageMap d v) (m.tlbInvalidate asid va) where
  ok := ⟨h.kseg0, h.nodup, h.free, h.table, h.apart, h.data, h.count⟩
  map := (Function.update_eq_self ..).symm
  refs _ _ := rfl
  grow _ hq := ⟨hq, rfl⟩
  new _ hq hold := absurd hq hold

/-- What may be mapped: a frame that is in use, for something else than a table. -/
structure Mappable (m : Pmap) (d pp : Nat) : Prop where
  lt : pp < m.npage
  notFree : pp ∉ m.pageFreeList
  notTable : ¬m.IsTable d pp

/-- The count of `pp` has room for one more reference, or no table can be had for one. -/
def Countable (m : Pmap) (d : Nat) (va : Word) (pp : Nat) : Prop :=
  m.ppRef pp ≠ 65535 ∨ (has (m.word d (PDX va)) PTE_V = false ∧ m.pageFreeList = [])

/-- What `page_insert` comes to: the new entry, or no change for want of a table. -/
def Inserted (m : Pmap) (d : Nat) (va : Word) (pp : Nat) (perm : Word) (r : Word) (m' : Pmap) : Prop :=
  (r = 0 ∧ Updates m d (VPN va) (some (pp, newPte pp perm)) m') ∨
    (r = -E_NO_MEM ∧ Updates m d (VPN va) (m.pageMap d (VPN va)) m')

namespace TwoLevel

variable (h : TwoLevel m d)

include h

section

variable (hv : v.1 < PDX UTOP) (ht : entry (m.word d v.1) = some t)

include hv ht

/-- Writing an entry of a table changes one page of the map. -/
private theorem setWord_map (w : Word) : (m.setWord t v.2 w).pageMap d = Function.update (m.pageMap d) v (mapsTo w) := by
  have htd := (h.table v.1 t hv ht).2
  have hdir : (m.setWord t v.2 w).word d = m.word d := Function.update_of_ne htd.symm ..
  have htab : (m.setWord t v.2 w).word t = Function.update (m.word t) v.2 w := Function.update_self ..
  funext v'
  by_cases heq : v' = v
  · subst heq
    rw [Function.update_self, pageMap_table hv (by rw [hdir]; exact ht), htab, Function.update_self]
  · rw [Function.update_of_ne heq]
    by_cases hv' : v'.1 < PDX UTOP
    · cases ht' : entry (m.word d v'.1) with
      | none => rw [pageMap_unlinked (by rw [hdir]; exact ht'), pageMap_unlinked ht']
      | some t' =>
        rw [pageMap_table hv' (by rw [hdir]; exact ht'), pageMap_table hv' ht']
        by_cases htt : t' = t
        · subst htt
          have h1 : v'.1 = v.1 := h.apart _ _ t' hv' hv ht' ht
          have h2 : v'.2 ≠ v.2 := fun h2 => heq (Prod.ext h1 h2)
          rw [htab, Function.update_of_ne h2]
        · have hword : (m.setWord t v.2 w).word t' = m.word t' := Function.update_of_ne htt ..
          rw [hword]
    · rw [pageMap_of_le hv', pageMap_of_le hv']

/-- Another entry at `v`, with a free list and counts that fit. -/
private theorem rewrite (hword : n.word = (m.setWord t v.2 w).word) (hnpage : n.npage = m.npage)
    (hdata : ∀ q, entry w = some q → q < m.npage ∧ ¬m.IsTable d q) (hnodup : n.pageFreeList.Nodup)
    (hfree : ∀ q ∈ n.pageFreeList, q < m.npage ∧ n.ppRef q = 0 ∧ ¬m.IsTable d q)
    (hrefs : ∀ q, ¬m.IsTable d q →
      (n.ppRef q).toNat + refsTo (m.pageMap d v) q = (m.ppRef q).toNat + refsTo (mapsTo w) q)
    (hsame : ∀ q, m.IsTable d q → n.ppRef q = m.ppRef q) : Updates m d v (mapsTo w) n := by
  have htd := (h.table v.1 t hv ht).2
  have hdir : n.word d = m.word d := by
    rw [hword]
    exact Function.update_of_ne htd.symm ..
  have hmap : n.pageMap d = Function.update (m.pageMap d) v (mapsTo w) := by
    rw [← h.setWord_map hv ht w]
    simp only [funext_iff, pageMap, hword, implies_true]
  have htable : ∀ q, n.IsTable d q ↔ m.IsTable d q := fun q => by rw [IsTable, IsTable, hdir]
  have hold : ∀ v' q, frames (n.pageMap d) v' = some q → q < m.npage ∧ ¬m.IsTable d q := by
    intro v' q hq
    rw [frames, hmap] at hq
    by_cases heq : v' = v
    · rw [heq, Function.update_self, mapsTo, Option.map_map] at hq
      obtain ⟨q', hq', rfl⟩ := Option.map_eq_some_iff.1 hq
      exact hdata _ hq'
    · rw [Function.update_of_ne heq] at hq
      exact h.data v' q hq
  refine ⟨⟨hnpage ▸ h.kseg0, hnodup, ?_, ?_, ?_, ?_, ?_⟩, hmap, ?_, fun q hq => ⟨(htable q).2 hq, hsame q hq⟩,
    fun q hq hnot => absurd ((htable q).1 hq) hnot⟩
  · exact fun q hq => ⟨hnpage ▸ (hfree q hq).1, (hfree q hq).2.1, fun hq' => (hfree q hq).2.2 ((htable q).1 hq')⟩
  · exact fun i t' hi ht' => hnpage ▸ h.table i t' hi (hdir ▸ ht')
  · exact fun i i' t' hi hi' ht' ht'' => h.apart i i' t' hi hi' (hdir ▸ ht') (hdir ▸ ht'')
  · exact fun v' q hq => ⟨hnpage ▸ (hold v' q hq).1, fun hq' => (hold v' q hq).2 ((htable q).1 hq')⟩
  · -- one slot of the family of references changes
    intro q
    by_cases hq : m.IsTable d q
    · have hzero : refCount (frames (n.pageMap d)) q = 0 := refCount_eq_zero.2 fun v' hv' => (hold v' q hv').2 hq
      omega
    · have hcount := h.count q
      have href := hrefs q hq
      have hfr : frames (n.pageMap d) = Function.update (frames (m.pageMap d)) v ((mapsTo w).map Prod.fst) := by
        rw [hmap]
        funext v'
        by_cases heq : v' = v
        · rw [heq, frames, Function.update_self, Function.update_self]
        · rw [frames, Function.update_of_ne heq, Function.update_of_ne heq, frames]
      have hupd := refCount_update (frames (m.pageMap d)) v ((mapsTo w).map Prod.fst) q
      rw [hfr]
      have hdef : ∀ x : Option (Nat × Word), refsTo x q = if x.map Prod.fst = some q then 1 else 0 := fun _ => rfl
      have hv' : frames (m.pageMap d) v = (m.pageMap d v).map Prod.fst := rfl
      rw [hdef, hdef] at href
      rw [hv'] at hupd
      omega
  · exact fun q hq => hrefs q fun hq' => hq ((htable q).2 hq')

end

/-! ### The steps of the operations -/

section

variable (hl : m.pageFreeList = t :: rest)

include hl

/-- The new entry of the directory is for the new table, and the others are what they were. -/
private theorem link_entry (j i : Idx) :
    entry ((m.linkTable d t rest j).word d i) = if i = j then some t else entry (m.word d i) := by
  have hfree := h.free t (by rw [hl]; exact List.mem_cons_self ..)
  have hdt : d ≠ t := fun heq => hfree.2.2 (.inl heq.symm)
  have hdir : (m.linkTable d t rest j).word d = Function.update (m.word d) j (tablePde t) := by
    simp [linkTable, setWord, setRef, Function.update_of_ne hdt]
  rw [hdir]
  by_cases hi : i = j
  · have ht20 : t < 2 ^ 20 := by
      have hlt := hfree.1
      have hk := h.kseg0
      omega
    rw [hi, Function.update_self, if_pos rfl, entry_tablePde ht20]
  · rw [Function.update_of_ne hi, if_neg hi]

private theorem link_isTable {j : Idx} (hj : j < PDX UTOP) (hnone : entry (m.word d j) = none) (q : Nat) :
    (m.linkTable d t rest j).IsTable d q ↔ m.IsTable d q ∨ q = t := by
  constructor
  · rintro (rfl | ⟨i, hi, hq⟩)
    · exact .inl (.inl rfl)
    · rw [h.link_entry hl] at hq
      split at hq
      case isTrue => exact .inr (Option.some.inj hq).symm
      case isFalse => exact .inl (.inr ⟨i, hi, hq⟩)
  · rintro ((rfl | ⟨i, hi, hq⟩) | rfl)
    · exact .inl rfl
    · have hne : i ≠ j := fun heq => by
        rw [heq, hnone] at hq
        cases hq
      exact .inr ⟨i, hi, by rw [h.link_entry hl, if_neg hne, hq]⟩
    · exact .inr ⟨j, hj, by rw [h.link_entry hl, if_pos rfl]⟩

/-- A new table. -/
private theorem link (hv : v.1 < PDX UTOP) (hnone : entry (m.word d v.1) = none) :
    Updates m d v (m.pageMap d v) (m.linkTable d t rest v.1) := by
  have hfree := h.free t (by rw [hl]; exact List.mem_cons_self ..)
  have hnodup := h.nodup
  rw [hl, List.nodup_cons] at hnodup
  have hrest : ∀ q ∈ rest, q ∈ m.pageFreeList := fun q hq => by rw [hl]; exact List.mem_cons_of_mem _ hq
  have hdt : d ≠ t := fun heq => hfree.2.2 (.inl heq.symm)
  have htab : (m.linkTable d t rest v.1).word t = fun _ => 0 := by
    simp [linkTable, setWord, setRef, Function.update_of_ne hdt.symm]
  have hent := h.link_entry hl v.1
  have htable := h.link_isTable hl hv hnone
  -- a page of the new table is not mapped, as it was not before
  have hmap : (m.linkTable d t rest v.1).pageMap d = m.pageMap d := by
    funext v'
    by_cases hv' : v'.1 < PDX UTOP
    · by_cases hi : v'.1 = v.1
      · have hold : entry (m.word d v'.1) = none := by rw [hi, hnone]
        rw [pageMap_unlinked hold, pageMap_table hv' (by rw [hent, if_pos hi]), htab]
        exact mapsTo_zero
      · cases ht' : entry (m.word d v'.1) with
        | none => rw [pageMap_unlinked ht', pageMap_unlinked (by rw [hent, if_neg hi, ht'])]
        | some t' =>
          have hne : t' ≠ t := fun heq => hfree.2.2 (.inr ⟨v'.1, hv', heq ▸ ht'⟩)
          rw [pageMap_table hv' ht', pageMap_table hv' (by rw [hent, if_neg hi, ht']),
            link_word (h.table _ _ hv' ht').2 hne]
    · rw [pageMap_of_le hv', pageMap_of_le hv']
  have href : ∀ q, q ≠ t → (m.linkTable d t rest v.1).ppRef q = m.ppRef q := fun q hq => Function.update_of_ne hq ..
  have ht0 : (m.ppRef t).toNat = 0 := by
    rw [hfree.2.1]
    rfl
  refine ⟨⟨h.kseg0, hnodup.2, ?_, ?_, ?_, ?_, ?_⟩, ?_, ?_, ?_, ?_⟩
  · intro q hq
    have hne : q ≠ t := fun heq => hnodup.1 (heq ▸ hq)
    have hold := h.free q (hrest q hq)
    refine ⟨hold.1, (href q hne).trans hold.2.1, fun hq' => ?_⟩
    exact ((htable q).1 hq').elim hold.2.2 hne
  · intro i t' hi ht'
    rw [hent] at ht'
    split at ht'
    case isTrue => exact Option.some.inj ht' ▸ ⟨hfree.1, hdt.symm⟩
    case isFalse => exact h.table i t' hi ht'
  · intro i i' t' hi hi' ht' ht''
    rw [hent] at ht' ht''
    have hnew : ∀ {i}, i < PDX UTOP → entry (m.word d i) ≠ some t := fun hi heq => hfree.2.2 (.inr ⟨_, hi, heq⟩)
    by_cases hiv : i = v.1
    · by_cases hiv' : i' = v.1
      · rw [hiv, hiv']
      · rw [if_pos hiv] at ht'
        rw [if_neg hiv', ← ht'] at ht''
        exact absurd ht'' (hnew hi')
    · by_cases hiv' : i' = v.1
      · rw [if_pos hiv'] at ht''
        rw [if_neg hiv, ← ht''] at ht'
        exact absurd ht' (hnew hi)
      · rw [if_neg hiv] at ht'
        rw [if_neg hiv'] at ht''
        exact h.apart i i' t' hi hi' ht' ht''
  · intro v' q hq
    rw [hmap] at hq
    have hold := h.data v' q hq
    refine ⟨hold.1, fun hq' => ((htable q).1 hq').elim hold.2 fun heq => ?_⟩
    have hpos := h.ref_pos hq
    rw [heq, ht0] at hpos
    omega
  · intro q
    rw [hmap]
    by_cases hq : q = t
    · have hcount := h.count t
      rw [hq]
      omega
    · rw [href q hq]
      exact h.count q
  · rw [hmap, Function.update_eq_self]
  · intro q hq
    have hne : q ≠ t := fun heq => hq ((htable q).2 (.inr heq))
    rw [href q hne]
  · intro q hq
    exact ⟨(htable q).2 (.inl hq), href q fun heq => hfree.2.2 (heq ▸ hq)⟩
  · intro q hq hold
    have heq : q = t := ((htable q).1 hq).resolve_left hold
    rw [heq]
    exact Function.update_self ..

end

section

variable (hv : v.1 < PDX UTOP) (ht : entry (m.word d v.1) = some t)

include hv ht

/-- A page is mapped where none was. -/
private theorem fill (hnone : m.pageMap d v = none) (hpp : Mappable m d pp) (hperm : PPN perm = 0)
    (hmax : m.ppRef pp ≠ 65535) :
    Updates m d v (some (pp, newPte pp perm)) (m.fill t v.2 pp perm) := by
  have hent : entry (newPte pp perm) = some pp := by
    have hlt := hpp.lt
    have hk := h.kseg0
    exact entry_newPte (by omega) hperm
  have hinc : (m.ppRef pp + 1).toNat = (m.ppRef pp).toNat + 1 := by
    have hle := (m.ppRef pp).isLt
    have hne : (m.ppRef pp).toNat ≠ 65535 := fun heq => hmax (BitVec.eq_of_toNat_eq heq)
    rw [BitVec.toNat_add, show (1 : BitVec 16).toNat = 1 from rfl]
    omega
  have href : ∀ q, q ≠ pp → (m.fill t v.2 pp perm).ppRef q = m.ppRef q := fun q hq => Function.update_of_ne hq ..
  have hself : (m.fill t v.2 pp perm).ppRef pp = m.ppRef pp + 1 := Function.update_self ..
  rw [← mapsTo_frame hent]
  refine h.rewrite hv ht rfl rfl ?_ h.nodup ?_ ?_ ?_
  · intro q hq
    rw [hent] at hq
    exact Option.some.inj hq ▸ ⟨hpp.lt, hpp.notTable⟩
  · intro q hq
    have hne : q ≠ pp := fun heq => hpp.notFree (heq ▸ hq)
    rw [href q hne]
    exact h.free q hq
  · intro q _
    rw [hnone, mapsTo_frame hent]
    by_cases hq : q = pp
    · rw [hq, hself, hinc]
      simp [refsTo]
    · rw [href q hq]
      simp [refsTo, Ne.symm hq]
  · exact fun q hq => href q fun heq => hpp.notTable (heq ▸ hq)

/-- Other permissions for a page that is mapped. -/
private theorem reperm (hold : frames (m.pageMap d) v = some pp) (hperm : PPN perm = 0) :
    Updates m d v (some (pp, newPte pp perm)) (m.setWord t v.2 (newPte pp perm)) := by
  have hpp := h.data v pp hold
  have hent : entry (newPte pp perm) = some pp := by
    have hlt := hpp.1
    have hk := h.kseg0
    exact entry_newPte (by omega) hperm
  rw [← mapsTo_frame hent]
  refine h.rewrite hv ht rfl rfl ?_ h.nodup h.free ?_ fun _ _ => rfl
  · intro q hq
    rw [hent] at hq
    exact Option.some.inj hq ▸ hpp
  · intro q _
    have hold' : (m.pageMap d v).map Prod.fst = some pp := hold
    rw [mapsTo_frame hent, refsTo, refsTo, hold']
    rfl

/-- A page is unmapped; with its last reference it becomes free. -/
private theorem unmap (hold : frames (m.pageMap d) v = some q) : ∃ m₁, m.pageDecref q = some m₁ ∧
    Updates m d v none (m₁.setWord t v.2 0) := by
  have hq := h.data v q hold
  have hpos := h.ref_pos hold
  have hne : m.ppRef q ≠ 0 := fun h0 => by
    rw [h0] at hpos
    exact absurd hpos (by decide)
  have hnot : q ∉ m.pageFreeList := fun hmem => hne (h.free q hmem).2.1
  have hdec : (m.ppRef q - 1).toNat + 1 = (m.ppRef q).toNat := by
    have hlt := (m.ppRef q).isLt
    rw [BitVec.toNat_sub, show (1 : BitVec 16).toNat = 1 from rfl]
    omega
  refine ⟨_, pageDecref_eq hne, ?_⟩
  have href : ∀ p, p ≠ q → Function.update m.ppRef q (m.ppRef q - 1) p = m.ppRef p := fun p hp =>
    Function.update_of_ne hp ..
  rw [← mapsTo_zero]
  refine h.rewrite hv ht rfl rfl ?_ ?_ ?_ ?_ ?_
  · intro p hp
    rw [entry_zero] at hp
    cases hp
  · show List.Nodup (if m.ppRef q - 1 = 0 then q :: m.pageFreeList else m.pageFreeList)
    split
    · exact List.nodup_cons.2 ⟨hnot, h.nodup⟩
    · exact h.nodup
  · intro p hp
    show p < m.npage ∧ Function.update m.ppRef q (m.ppRef q - 1) p = 0 ∧ _
    replace hp : p ∈ (if m.ppRef q - 1 = 0 then q :: m.pageFreeList else m.pageFreeList) := hp
    by_cases hpq : p = q
    · rw [hpq] at hp ⊢
      rw [Function.update_self]
      refine ⟨hq.1, ?_, hq.2⟩
      by_contra h0
      rw [if_neg h0] at hp
      exact hnot hp
    · rw [href p hpq]
      refine h.free p ?_
      split at hp
      · exact (List.mem_cons.1 hp).resolve_left hpq
      · exact hp
  · intro p _
    show (Function.update m.ppRef q (m.ppRef q - 1) p).toNat + _ = _
    have hold' : (m.pageMap d v).map Prod.fst = some q := hold
    rw [mapsTo_zero, refsTo, refsTo, hold', Option.map_none]
    by_cases hpq : p = q
    · rw [hpq, Function.update_self]
      simpa using hdec
    · rw [href p hpq]
      simp [Ne.symm hpq]
  · exact fun p hp => href p fun heq => hq.2 (heq ▸ hp)

end

/-! ### The operations -/

/-- `page_remove` clears the page; another page may be mapped afterwards as before. -/
private theorem remove (hi : PDX va < PDX UTOP) (asid : Asid) : ∃ m', m.pageRemove d asid va = some m' ∧
    Updates m d (VPN va) none m' ∧ m'.word d = m.word d ∧ ∀ pp, Mappable m d pp →
      frames (m.pageMap d) (VPN va) ≠ some pp → Mappable m' d pp ∧ m'.ppRef pp = m.ppRef pp := by
  rcases h.lookup_cases hi with ⟨hmap, hl⟩ | ⟨t, q, hat, hmap, hl⟩
  · refine ⟨m, ?_, ?_, rfl, fun pp hpp _ => ⟨hpp, rfl⟩⟩
    · rw [pageRemove, hl, Option.bind_some]
    · rw [← hmap]
      exact ⟨h, (Function.update_eq_self ..).symm, fun _ _ => rfl, fun _ hq => ⟨hq, rfl⟩, fun _ hq hold => absurd hq hold⟩
  · have hold : frames (m.pageMap d) (VPN va) = some q := by rw [frames, hmap, Option.map_some]
    obtain ⟨m₁, hdec, hupd⟩ := h.unmap (v := VPN va) hi hat.pde hold
    have hword : (m₁.setWord t (PTX va) 0).word d = m.word d := by
      have htd := (h.table _ _ hi hat.pde).2
      rw [← (Mem.pageDecref_word hdec).1]
      exact Function.update_of_ne htd.symm ..
    refine ⟨(m₁.setWord t (PTX va) 0).tlbInvalidate asid va, ?_, ?_, hword, ?_⟩
    · rw [pageRemove, hl, Option.bind_some]
      dsimp only
      rw [hdec]
      rfl
    · have hflush := hupd.ok.flush asid va (VPN va)
      rw [hupd.map, Function.update_self] at hflush
      exact hupd.trans hflush
    · intro pp hpp hne
      have hpq : pp ≠ q := fun heq => hne (heq ▸ hold)
      obtain ⟨-, rfl⟩ := pageDecref_cases hdec
      refine ⟨⟨hpp.lt, ?_, fun ht => hpp.notTable ?_⟩, Function.update_of_ne hpq ..⟩
      · show pp ∉ if m.ppRef q - 1 = 0 then q :: m.pageFreeList else m.pageFreeList
        split
        · rw [List.mem_cons, not_or]
          exact ⟨hpq, hpp.notFree⟩
        · exact hpp.notFree
      · rcases ht with heq | ⟨i, hi', ht⟩
        · exact .inl heq
        · have ht' : entry (m.word d i) = some pp := by
            rw [← hword]
            exact ht
          exact .inr ⟨i, hi', ht'⟩

private theorem insertFresh (hi : PDX va < PDX UTOP) (hnone : m.pageMap d (VPN va) = none) (hpp : Mappable m d pp)
    (hperm : PPN perm = 0) (hmax : Countable m d va pp) (asid : Asid) :
    ∃ r m', m.pageInsertFresh d asid pp va perm = some (r, m') ∧ Inserted m d va pp perm r m' := by
  have hflush := h.flush asid va (VPN va)
  cases hpde : entry (m.word d (PDX va)) with
  | some t =>
    have hlt := h.table_lt hi hpde
    obtain ⟨hval, rfl⟩ := entry_eq_some.1 hpde
    have hmax : m.ppRef pp ≠ 65535 := hmax.resolve_right fun hfull => by
      rw [hval] at hfull
      exact Bool.noConfusion hfull.1
    have hfill := hflush.ok.fill (v := VPN va) hi hpde hnone ⟨hpp.lt, hpp.notFree, hpp.notTable⟩ hperm hmax
    exact ⟨_, _, pageInsertFresh_valid hval hlt, .inl ⟨rfl, hflush.trans hfill⟩⟩
  | none =>
    have hinv := entry_eq_none.1 hpde
    cases hl : m.pageFreeList with
    | nil => exact ⟨_, _, pageInsertFresh_full hinv hl, .inr ⟨rfl, hflush⟩⟩
    | cons t rest =>
      have hmax : m.ppRef pp ≠ 65535 := hmax.resolve_right fun hfull => by
        rw [hl] at hfull
        cases hfull.2
      have hlink := hflush.ok.link (v := VPN va) hl hi hpde
      have hpt : pp ≠ t := fun heq => hpp.notFree (by rw [hl, heq]; exact List.mem_cons_self ..)
      have hent : entry (((m.tlbInvalidate asid va).linkTable d t rest (PDX va)).word d (PDX va)) = some t := by
        rw [hflush.ok.link_entry hl, if_pos rfl]
      have hnot : ¬((m.tlbInvalidate asid va).linkTable d t rest (PDX va)).IsTable d pp := fun ht =>
        ((hflush.ok.link_isTable hl hi hpde pp).1 ht).elim hpp.notTable hpt
      have hnone' : ((m.tlbInvalidate asid va).linkTable d t rest (PDX va)).pageMap d (VPN va) = none := by
        have hmap := congrFun hlink.map (VPN va)
        rw [Function.update_self] at hmap
        exact hmap.trans hnone
      have href : ((m.tlbInvalidate asid va).linkTable d t rest (PDX va)).ppRef pp = m.ppRef pp :=
        Function.update_of_ne hpt ..
      have hmappable : Mappable ((m.tlbInvalidate asid va).linkTable d t rest (PDX va)) d pp :=
        ⟨hpp.lt, fun hq => hpp.notFree (by rw [hl]; exact List.mem_cons_of_mem _ hq), hnot⟩
      have hfill := hlink.ok.fill (v := VPN va) hi hent hnone' hmappable hperm (href ▸ hmax)
      exact ⟨_, _, pageInsertFresh_link hinv hl, .inl ⟨rfl, (hflush.trans hlink).trans hfill⟩⟩

/-- `page_insert` sets the page, unless the counter would overflow. -/
private theorem insert (hi : PDX va < PDX UTOP) (hpp : Mappable m d pp) (hperm : PPN perm = 0)
    (hmax : frames (m.pageMap d) (VPN va) = some pp ∨ Countable m d va pp) (asid : Asid) :
    ∃ r m', m.pageInsert d asid pp va perm = some (r, m') ∧ Inserted m d va pp perm r m' := by
  -- Nothing is at `va`, or `pp` itself, or another page, which is removed first.
  rcases h.lookup_cases hi with ⟨hmap, hl⟩ | ⟨t, q, hat, hmap, hl⟩
  · have hmax : Countable m d va pp := hmax.resolve_left fun heq => by
      rw [frames, hmap] at heq
      cases heq
    have hfresh := h.insertFresh hi hmap hpp hperm hmax asid
    rwa [← pageInsert_unmapped] at hfresh
    cases hpde : entry (m.word d (PDX va)) with
    | none => exact .inl (entry_eq_none.1 hpde)
    | some t =>
      have hlt := h.table_lt hi hpde
      obtain ⟨hval, rfl⟩ := entry_eq_some.1 hpde
      rw [pageMap_at hi hpde, mapsTo, Option.map_eq_none_iff] at hmap
      exact .inr ⟨hlt, entry_eq_none.1 hmap⟩
  · have hold : frames (m.pageMap d) (VPN va) = some q := by rw [frames, hmap, Option.map_some]
    have htlt := h.table_lt hi hat.pde
    have hqlt := (h.data _ _ hold).1
    obtain ⟨hval, ht⟩ := entry_eq_some.1 hat.pde
    obtain ⟨hw, hq⟩ := entry_eq_some.1 hat.pte
    have hpa : m.pa2page (m.word t (PTX va)) = some q := by
      rw [pa2page, hq, if_pos hqlt]
    have hwalk : m.pgdirWalk d va false = some (0, some (t, PTX va), m) := by
      rw [pgdirWalk_valid false hval (ht ▸ htlt), ht]
    rw [pageInsert, hwalk, Option.bind_some]
    dsimp only
    rw [if_pos hw, hpa, Option.bind_some]
    by_cases heq : q = pp
    · subst heq
      rw [if_neg (not_not.2 rfl)]
      have hflush := h.flush asid va (VPN va)
      have hre := hflush.ok.reperm (v := VPN va) hi hat.pde hold hperm
      exact ⟨_, _, rfl, .inl ⟨rfl, hflush.trans hre⟩⟩
    · rw [if_pos heq]
      obtain ⟨m₁, hr, hupd, hdir, hothers⟩ := h.remove hi asid
      have hne : frames (m.pageMap d) (VPN va) ≠ some pp := by
        rw [hold]
        exact fun hh => heq (Option.some.inj hh)
      obtain ⟨hpp₁, href⟩ := hothers pp hpp hne
      have hmax₁ : Countable m₁ d va pp := by
        refine .inl (href ▸ (hmax.resolve_left hne).resolve_right fun hfull => ?_)
        rw [hval] at hfull
        exact Bool.noConfusion hfull.1
      have hnone₁ : m₁.pageMap d (VPN va) = none := by rw [hupd.map, Function.update_self]
      obtain ⟨r, m', hins, hres⟩ := hupd.ok.insertFresh hi hnone₁ hpp₁ hperm hmax₁ asid
      rw [hr, Option.bind_some]
      refine ⟨r, m', hins, ?_⟩
      rcases hres with ⟨hr0, hset⟩ | ⟨hr0, -⟩
      · exact .inl ⟨hr0, hupd.trans hset⟩
      · -- the table is there, so memory cannot be short
        have htab : PPN (m₁.word d (PDX va)) < m₁.npage := by
          rw [hdir, ht]
          exact hupd.ok.table_lt hi (by rw [hdir]; exact hat.pde)
        rw [pageInsertFresh_valid (by rw [hdir]; exact hval) htab] at hins
        simp only [Option.some.injEq, Prod.mk.injEq] at hins
        rw [← hins.1] at hr0
        exact absurd hr0 (by decide)

/-- Memory is short only for a table. -/
private theorem insert_short (hi : PDX va < PDX UTOP) (hp : m.pageInsert d asid pp va perm = some (-E_NO_MEM, m')) :
    has (m.word d (PDX va)) PTE_V = false ∧ m.pageFreeList = [] := by
  have hne : (-E_NO_MEM : Word) ≠ 0 := by decide
  rcases pageInsert_cases hp with ⟨-, hp⟩ | ⟨t, q, m₁, hat, -, hr, hp⟩ | ⟨_, _, hr, -⟩
  · rcases pageInsertFresh_cases hp with ⟨_, _, hr, -⟩ | ⟨hnone, hl, -⟩ | ⟨_, _, _, _, hr, -⟩
    · exact absurd hr hne
    · exact ⟨entry_eq_none.1 hnone, hl⟩
    · exact absurd hr hne
  · obtain ⟨m₂, hr₂, -, hdir, -⟩ := h.remove hi asid
    obtain rfl := Option.some.inj (hr.symm.trans hr₂)
    rcases pageInsertFresh_cases hp with ⟨_, _, hr, -⟩ | ⟨hnone, -⟩ | ⟨_, _, _, _, hr, -⟩
    · exact absurd hr hne
    · rw [hdir, hat.pde] at hnone
      cases hnone
    · exact absurd hr hne
  · exact absurd hr hne

end TwoLevel

/-! ### The finite map -/

/-- `va2pa` agrees with `page_lookup`. -/
def Agrees (m : Pmap) (d : Nat) (va : Word) : Prop :=
  ∃ x, m.lookup d va = some x ∧ m.va2pa d va = some ((x.map fun y => page2pa y.1).getD (~~~0))

/-- Afterwards `page_lookup` finds `x` on the page of `va`, and elsewhere what it found before. -/
structure Maps (m : Pmap) (d : Nat) (va : Word) (x : Option (Nat × Word)) (m' : Pmap) : Prop where
  ok : TwoLevel m' d
  lookup : ∀ va', va' < UTOP → m'.lookup d va' = if VPN va' = VPN va then some x else m.lookup d va'
  refs : ∀ y, m.lookup d va = some y → ∀ q, ¬m'.IsTable d q →
    (m'.ppRef q).toNat + refsTo y q = (m.ppRef q).toNat + refsTo x q
  tables : ∀ q, m.IsTable d q → m'.ppRef q = m.ppRef q
  agrees : ∀ va', va' < UTOP → Agrees m' d va'

/-- `page_insert` and `page_remove` at `va` update the map that `page_lookup` and `va2pa` read. -/
structure ActsAsMap (m : Pmap) (d : Nat) (asid : Asid) (pp : Nat) (va perm : Word) : Prop where
  agrees : ∀ va', va' < UTOP → Agrees m d va'
  insert : ∃ r m', m.pageInsert d asid pp va perm = some (r, m') ∧
    ((r = 0 ∧ Maps m d va (some (pp, page2pa pp ||| perm ||| PTE_V)) m') ∨
      (r = -E_NO_MEM ∧ ∃ x, m.lookup d va = some x ∧ Maps m d va x m'))
  remove : ∃ m', m.pageRemove d asid va = some m' ∧ Maps m d va none m'

private theorem TwoLevel.agrees (h : TwoLevel m d) (hva : va < UTOP) : Agrees m d va :=
  ⟨_, h.lookup_eq (Mem.PDX_lt_of_lt hva), h.va2pa_eq (Mem.PDX_lt_of_lt hva)⟩

private theorem Updates.maps {x : Option (Nat × Word)} (h : TwoLevel m d) (hva : va < UTOP)
    (hu : Updates m d (VPN va) x m') :
    Maps m d va x m' where
  ok := hu.ok
  lookup va' hva' := by
    rw [hu.ok.lookup_eq (Mem.PDX_lt_of_lt hva'), hu.map]
    by_cases heq : VPN va' = VPN va
    · rw [heq, Function.update_self, if_pos rfl]
    · rw [Function.update_of_ne heq, if_neg heq, h.lookup_eq (Mem.PDX_lt_of_lt hva')]
  refs y hy := by
    rw [h.lookup_eq (Mem.PDX_lt_of_lt hva)] at hy
    obtain rfl := Option.some.inj hy
    exact hu.refs
  tables q hq := (hu.grow q hq).2
  agrees _ hva' := hu.ok.agrees hva'

private theorem PPN_of_lt (hperm : perm < 4096) : PPN perm = 0 := by
  have hlt : perm.toNat < 4096 := hperm
  simp only [PPN, BitVec.toNat_ushiftRight, Nat.shiftRight_eq_div_pow]
  omega

private theorem TwoLevel.actsAsMap (h : TwoLevel m d) (hva : va < UTOP) (hpp : Mappable m d pp) (hperm : perm < 4096)
    (hmax : frames (m.pageMap d) (VPN va) = some pp ∨ Countable m d va pp) (asid : Asid) :
    ActsAsMap m d asid pp va perm := by
  have hi := Mem.PDX_lt_of_lt hva
  refine ⟨fun _ hva' => h.agrees hva', ?_, ?_⟩
  · obtain ⟨r, m', hins, ⟨hr, hu⟩ | ⟨hr, hu⟩⟩ := h.insert hi hpp (PPN_of_lt hperm) hmax asid
    · exact ⟨r, m', hins, .inl ⟨hr, hu.maps h hva⟩⟩
    · exact ⟨r, m', hins, .inr ⟨hr, _, h.lookup_eq hi, hu.maps h hva⟩⟩
  · obtain ⟨m', hr, hu, -⟩ := h.remove hi asid
    exact ⟨m', hr, hu.maps h hva⟩

/-- A count that has to be one more than 65535 is wrong. -/
private theorem ActsAsMap.countable (hact : ActsAsMap m d asid pp va perm) (h : TwoLevel m d) (hva : va < UTOP) :
    frames (m.pageMap d) (VPN va) = some pp ∨ Countable m d va pp := by
  have hi := Mem.PDX_lt_of_lt hva
  have hl := h.lookup_eq hi
  obtain ⟨r, m', hins, ⟨hr, hmaps⟩ | ⟨rfl, -⟩⟩ := hact.insert
  · by_contra hcon
    rw [not_or] at hcon
    have hfull : m.ppRef pp = 65535 := by
      by_contra hne
      exact hcon.2 (.inl hne)
    have hself := hmaps.lookup va hva
    rw [if_pos rfl, hmaps.ok.lookup_eq hi] at hself
    have hnot : ¬m'.IsTable d pp := (hmaps.ok.data (VPN va) pp (by rw [frames, Option.some.inj hself]; rfl)).2
    have hrefs := hmaps.refs _ hl pp hnot
    have hold : refsTo (m.pageMap d (VPN va)) pp = 0 := if_neg hcon.1
    have hnew : refsTo (some (pp, page2pa pp ||| perm ||| PTE_V)) pp = 1 := if_pos rfl
    have hlt := (m'.ppRef pp).isLt
    rw [hfull, hold, hnew, show (65535 : BitVec 16).toNat = 65535 from rfl] at hrefs
    omega
  · exact .inr (.inr (h.insert_short hi hins))

/-- A page directory is a finite map, as long as the 16-bit count of the page that is mapped does not overflow. -/
theorem actsAsMap_iff (h : TwoLevel m d) (hva : va < UTOP) (hpp : Mappable m d pp) (hperm : perm < 4096) :
    ActsAsMap m d asid pp va perm ↔ (m.pageMap d (VPN va)).map Prod.fst = some pp ∨ m.ppRef pp ≠ 65535 ∨
      (has (m.word d (PDX va)) PTE_V = false ∧ m.pageFreeList = []) :=
  ⟨fun hact => hact.countable h hva, fun hmax => h.actsAsMap hva hpp hperm hmax asid⟩

/-! ### A directory that maps one page everywhere -/

/-- Sixty-four full tables, but for the last entry, map the page 1065 at 65535 addresses; one page is free. -/
def crowded : Pmap where
  npage := 0x4000
  pageFreeList := [1066]
  ppRef := fun q => if q = 1065 then 65535 else if 1000 ≤ q ∧ q < 1065 then 1 else 0
  word := fun q i =>
    if q = 1000 then (if (i : Nat) < 64 then tablePde (1001 + i) else 0)
    else if 1001 ≤ q ∧ q < 1065 then (if q = 1064 ∧ i = 1023 then 0 else newPte 1065 PTE_D)
    else 0
  tlb := []

private theorem crowded_dir {i : Idx} (ht : entry (crowded.word 1000 i) = some t) : t = 1001 + i ∧ (i : Nat) < 64 := by
  have hword : crowded.word 1000 i = if (i : Nat) < 64 then tablePde (1001 + i) else 0 := rfl
  rw [hword] at ht
  split at ht
  case isTrue hi =>
    rw [entry_tablePde (by omega)] at ht
    exact ⟨(Option.some.inj ht).symm, hi⟩
  case isFalse =>
    have hzero : entry 0 = none := entry_zero
    rw [hzero] at ht
    cases ht

private theorem crowded_frames (hq : frames (crowded.pageMap 1000) v = some q) :
    q = 1065 ∧ (v.1 : Nat) < 64 ∧ v ≠ (63, 1023) := by
  have hzero : mapsTo 0 = none := mapsTo_zero
  have hent : entry (newPte 1065 PTE_D) = some 1065 := entry_newPte (by decide) (by decide)
  by_cases hv : v.1 < PDX UTOP
  · cases ht : entry (crowded.word 1000 v.1) with
    | none =>
      rw [frames, pageMap_unlinked ht] at hq
      cases hq
    | some t =>
      obtain ⟨rfl, hlt⟩ := crowded_dir ht
      have hword : crowded.word (1001 + v.1) v.2 =
          if 1001 + (v.1 : Nat) = 1064 ∧ v.2 = 1023 then 0 else newPte 1065 PTE_D := by
        have hne : ¬(1001 + (v.1 : Nat)) = 1000 := by omega
        have hin : 1001 ≤ 1001 + (v.1 : Nat) ∧ 1001 + (v.1 : Nat) < 1065 := by omega
        simp only [crowded, if_neg hne, if_pos hin]
      rw [frames, pageMap_table hv ht, hword] at hq
      split at hq
      case isTrue =>
        rw [hzero] at hq
        cases hq
      case isFalse hlast =>
        rw [mapsTo_frame hent, Option.map_some] at hq
        refine ⟨(Option.some.inj hq).symm, hlt, ?_⟩
        rintro rfl
        exact hlast ⟨rfl, rfl⟩
  · rw [frames, pageMap_of_le hv] at hq
    cases hq

/-- Fewer references than entries in the first rows. -/
private theorem refCount_lt_rows {n k : Nat} {f : Fin n × Fin k → Option Nat} {a : Fin n} {p : Fin n × Fin k}
    (hf : ∀ v, f v = some q → v.1 < a ∧ v ≠ p) (hp : p.1 < a) : refCount f q < a * k := by
  have hsub : (Finset.univ.filter fun v => f v = some q) ⊆ Finset.Iio a ×ˢ (Finset.univ : Finset (Fin k)) := by
    intro v hv
    rw [Finset.mem_product, Finset.mem_Iio]
    exact ⟨(hf v (Finset.mem_filter.1 hv).2).1, Finset.mem_univ _⟩
  have hmem : p ∈ Finset.Iio a ×ˢ (Finset.univ : Finset (Fin k)) := by
    rw [Finset.mem_product, Finset.mem_Iio]
    exact ⟨hp, Finset.mem_univ _⟩
  have hnot : p ∉ Finset.univ.filter fun v => f v = some q := fun hin => (hf p (Finset.mem_filter.1 hin).2).2 rfl
  have hlt := Finset.card_lt_card ((Finset.ssubset_iff_of_subset hsub).2 ⟨p, hmem, hnot⟩)
  rwa [Finset.card_product, Fin.card_Iio, Finset.card_fin] at hlt

private theorem crowded_isTable (hq : crowded.IsTable 1000 q) : 1000 ≤ q ∧ q < 1065 := by
  rcases hq with rfl | ⟨i, -, hq⟩
  · omega
  · obtain ⟨rfl, hi⟩ := crowded_dir hq
    omega

private theorem crowded_twoLevel : crowded.TwoLevel 1000 where
  kseg0 := by decide
  nodup := List.nodup_singleton _
  free q hq := by
    obtain rfl := List.mem_singleton.1 hq
    refine ⟨by decide, by decide, fun ht => ?_⟩
    have hlt := (crowded_isTable ht).2
    omega
  table i t _ ht := by
    obtain ⟨rfl, hi⟩ := crowded_dir ht
    have hnpage : crowded.npage = 0x4000 := rfl
    omega
  apart i i' t _ _ ht ht' := by
    obtain ⟨rfl, -⟩ := crowded_dir ht
    obtain ⟨heq, -⟩ := crowded_dir ht'
    exact Fin.ext (by omega)
  data v q hq := by
    obtain ⟨rfl, -⟩ := crowded_frames hq
    refine ⟨by decide, fun ht => ?_⟩
    have hlt := (crowded_isTable ht).2
    omega
  count q := by
    by_cases hq : q = 1065
    · subst hq
      have hlt : refCount (frames (crowded.pageMap 1000)) 1065 < ((⟨64, by decide⟩ : Idx) : Nat) * 1024 := by
        exact refCount_lt_rows (p := (63, 1023)) (fun v hv => (crowded_frames hv).2) (by decide)
      have hrows : ((⟨64, by decide⟩ : Idx) : Nat) = 64 := rfl
      have href : (crowded.ppRef 1065).toNat = 65535 := rfl
      rw [hrows] at hlt
      rw [href]
      omega
    · have hzero : refCount (frames (crowded.pageMap 1000)) q = 0 :=
        refCount_eq_zero.2 fun v hv => hq (crowded_frames hv).1
      omega

private theorem crowded_mappable : crowded.Mappable 1000 1065 where
  lt := by decide
  notFree := by decide
  notTable ht := by
    have hlt := (crowded_isTable ht).2
    omega

/-- The page may be mapped again where it is mapped already. -/
theorem actsAsMap_crowded : ActsAsMap crowded 1000 0 1065 0 0 :=
  (actsAsMap_iff crowded_twoLevel (by decide) crowded_mappable (by decide)).2 (.inl (by decide +kernel))

/-- Mapping the page at the 65536th address makes its count 0, and the next `page_remove` there panics. -/
theorem count_overflows : crowded.TwoLevel 1000 ∧ crowded.Mappable 1000 1065 ∧
    ¬ActsAsMap crowded 1000 0 1065 0xFFFF000 PTE_D ∧
    ∃ m', crowded.pageInsert 1000 0 1065 0xFFFF000 PTE_D = some (0, m') ∧ m'.ppRef 1065 = 0 ∧
      m'.pageRemove 1000 0 0xFFFF000 = none := by
  refine ⟨crowded_twoLevel, crowded_mappable, fun hact => ?_, ?_⟩
  · rcases hact.countable crowded_twoLevel (by decide) with hmap | href | hfull
    · revert hmap
      decide +kernel
    · exact absurd rfl href
    · exact absurd hfull.2 (by decide)
  · have hret : (crowded.pageInsert 1000 0 1065 0xFFFF000 PTE_D).map Prod.fst = some 0 := by decide +kernel
    obtain ⟨⟨r, m'⟩, hins, rfl⟩ := Option.map_eq_some_iff.1 hret
    have hover : ((crowded.pageInsert 1000 0 1065 0xFFFF000 PTE_D).all fun x =>
        x.2.ppRef 1065 = 0 ∧ (x.2.pageRemove 1000 0 0xFFFF000).isNone) = true := by decide +kernel
    rw [hins] at hover
    exact ⟨m', hins, by simpa using hover⟩

end Pmap

/-! ### The address spaces of the system -/

/-- Every address space of the kernel is such a table. -/
theorem Mem.Ok.twoLevel {mc : Machine} {leak : Nat → Nat} {D : Dirs} {m : Pmap} {e : EnvPtr} {d : Nat}
    (h : Mem.Ok mc leak ⟨D, m⟩) (hd : D e = some d) : m.TwoLevel d := by
  have hpde : ∀ {i : Idx} {t : Nat}, i < PDX UTOP → entry (m.word d i) = some t →
      Mos.target mc D m.word (.pde e i) = some t := fun hi ht => (target_pde hd (userIdx_of_lt hi)).trans ht
  have htable : ∀ {q}, m.IsTable d q → ∃ s : Slot, s.Structural ∧ Mos.target mc D m.word s = some q := by
    rintro q (rfl | ⟨i, hi, hq⟩)
    · exact ⟨.dir e, trivial, hd⟩
    · exact ⟨.pde e i, trivial, hpde hi hq⟩
  have hpte : ∀ {v : Vpn} {q : Nat}, Pmap.frames (m.pageMap d) v = some q →
      Mos.target mc D m.word (.pte e v.1 v.2) = some q := by
    intro v q hq
    by_cases hv : v.1 < PDX UTOP
    · cases ht : entry (m.word d v.1) with
      | none =>
        rw [Pmap.frames, Pmap.pageMap_unlinked ht] at hq
        cases hq
      | some t =>
        rw [Pmap.frames, Pmap.pageMap_table hv ht, Pmap.mapsTo, Option.map_map] at hq
        rw [target_pte (hpde hv ht) hv]
        simpa using hq
    · rw [Pmap.frames, Pmap.pageMap_of_le hv] at hq
      cases hq
  constructor
  · exact h.npage ▸ mc.kseg0
  · exact h.refs.nodup
  · intro q hq
    obtain ⟨⟨-, hlt⟩, href⟩ := h.refs.free q hq
    refine ⟨h.npage ▸ hlt, href, fun ht => ?_⟩
    obtain ⟨s, hs, ht⟩ := htable ht
    exact (h.fresh hq).notTree s hs ht
  · intro i t hi ht
    refine ⟨h.pde_lt (hpde hi ht), fun heq => ?_⟩
    subst heq
    cases h.tree.tree (.dir e) (.pde e i) t trivial hd (hpde hi ht)
  · intro i i' t hi hi' ht ht'
    have heq := h.tree.tree (.pde e i) (.pde e i') t trivial (hpde hi ht) (hpde hi' ht')
    exact (Slot.pde.inj heq).2.symm
  · intro v q hq
    have hdata := h.tree.data_of_pte (hpte hq)
    refine ⟨h.pde_lt (hpte hq), fun ht => ?_⟩
    obtain ⟨s, hs, ht⟩ := htable ht
    exact hdata.notTree s hs ht
  · -- the entries below `UTOP` are some of the slots that refer to `q`
    intro q
    by_cases hq : mc.used ≤ q
    · have hle : refCount (Pmap.frames (m.pageMap d)) q ≤ refCount (Mos.target mc D m.word) q := by
        have hinj : Function.Injective fun v : Vpn => Slot.pte e v.1 v.2 := by
          intro v v' heq
          have hcomp := Slot.pte.inj heq
          exact Prod.ext hcomp.2.1 hcomp.2.2
        exact refCount_le_of_injective hinj fun v hv => hpte hv
      have hrefs : (m.ppRef q).toNat = refCount (Mos.target mc D m.word) q + leak q := h.refs.refs q hq
      omega
    · have hzero : refCount (Pmap.frames (m.pageMap d)) q = 0 :=
        refCount_eq_zero.2 fun v hv => hq (h.tree.bound _ _ (hpte hv)).1
      omega

end Mos
