import Mos.Elf.Mapper
import Mos.Inv.PageMap

/-!
# Sharing the library pages (the last loop of `user/lib/spawn.c`)

The loop maps library pages of the caller into the child, over what the child has there.  The pages are not new, their
counts and what else refers to them are not looked at: it is enough that the tables of the child are its own, and the other
pages of the child stay what they are.
-/

namespace Mos

namespace Pmap

variable {m m' n k : Pmap} {d t p q : Nat} {asid : Asid} {va perm w : Word} {v : Vpn} {U V : Set Vpn} {F : Set Nat}
  {rest : List Nat}

/-- The tables of `d`, its pages in `U` and the frames in `F` are frames of their own, and none of them is free.  The counts do
not matter, nor what the other pages refer to. -/
structure Tidy (m : Pmap) (d : Nat) (U : Set Vpn) (F : Set Nat) : Prop where
  nodup : m.pageFreeList.Nodup
  free : ∀ q ∈ m.pageFreeList, q < 2 ^ 20 ∧ ¬m.IsTable d q
  table : ∀ i t, i < PDX UTOP → entry (m.word d i) = some t → t ≠ d
  apart : ∀ i i' t, i < PDX UTOP → i' < PDX UTOP → entry (m.word d i) = some t → entry (m.word d i') = some t → i = i'
  data : ∀ v ∈ U, ∀ q, frames (m.pageMap d) v = some q → q ∉ m.pageFreeList ∧ ¬m.IsTable d q
  distinct : ∀ v ∈ U, ∀ v' ∈ U, ∀ q, frames (m.pageMap d) v = some q → frames (m.pageMap d) v' = some q → v = v'
  keep : ∀ q ∈ F, q ∉ m.pageFreeList ∧ ¬m.IsTable d q ∧ ∀ v ∈ U, frames (m.pageMap d) v ≠ some q

/-- The pages in `U` and the frames in `F` are what they were. -/
structure Same (m : Pmap) (d : Nat) (U : Set Vpn) (F : Set Nat) (n : Pmap) : Prop where
  map : ∀ v ∈ U, n.pageMap d v = m.pageMap d v
  word : ∀ v ∈ U, ∀ q, frames (m.pageMap d) v = some q → n.word q = m.word q
  keep : ∀ q ∈ F, n.word q = m.word q

private theorem Tidy.mono (h : Tidy m d U F) (hV : V ⊆ U) : Tidy m d V F where
  nodup := h.nodup
  free := h.free
  table := h.table
  apart := h.apart
  data v hv := h.data v (hV hv)
  distinct v hv v' hv' := h.distinct v (hV hv) v' (hV hv')
  keep q hq := ⟨(h.keep q hq).1, (h.keep q hq).2.1, fun v hv => (h.keep q hq).2.2 v (hV hv)⟩

private theorem Same.refl (m : Pmap) (d : Nat) (U : Set Vpn) (F : Set Nat) : Same m d U F m :=
  ⟨fun _ _ => rfl, fun _ _ _ _ => rfl, fun _ _ => rfl⟩

private theorem Same.trans (h : Same m d U F n) (h' : Same n d V F k) (hV : V ⊆ U) : Same m d V F k where
  map v hv := (h'.map v hv).trans (h.map v (hV hv))
  word v hv q hq := by
    have hq' : frames (n.pageMap d) v = some q := by
      rw [frames, h.map v (hV hv)]
      exact hq
    exact (h'.word v hv q hq').trans (h.word v (hV hv) q hq)
  keep q hq := (h'.keep q hq).trans (h.keep q hq)

private theorem Same.mono (h : Same m d U F n) (hV : V ⊆ U) : Same m d V F n :=
  ⟨fun v hv => h.map v (hV hv), fun v hv => h.word v (hV hv), h.keep⟩

/-- Another entry at `v`; the page that was there may be free then. -/
private theorem Tidy.write (h : Tidy m d U F) (hU : v ∈ U) (hv : v.1 < PDX UTOP) (ht : entry (m.word d v.1) = some t)
    (hword : n.word = (m.setWord t v.2 w).word)
    (hfree : n.pageFreeList = m.pageFreeList ∨
      ∃ q, frames (m.pageMap d) v = some q ∧ n.pageFreeList = q :: m.pageFreeList) :
    Tidy n d (U \ {v}) F ∧ Same m d (U \ {v}) F n := by
  have htd := h.table v.1 t hv ht
  have hdir : n.word d = m.word d := by
    rw [hword]
    exact Function.update_of_ne htd.symm ..
  have htable : ∀ q, n.IsTable d q ↔ m.IsTable d q := fun q => by rw [IsTable, IsTable, hdir]
  have hmap : ∀ v' ∈ U \ {v}, n.pageMap d v' = m.pageMap d v' := by
    intro v' hv'
    by_cases hlt : v'.1 < PDX UTOP
    · cases ht' : entry (m.word d v'.1) with
      | none => rw [pageMap_unlinked (by rw [hdir]; exact ht'), pageMap_unlinked ht']
      | some t' =>
        rw [pageMap_table hlt (by rw [hdir]; exact ht'), pageMap_table hlt ht', hword]
        by_cases htt : t' = t
        · subst htt
          have h1 : v'.1 = v.1 := h.apart _ _ t' hlt hv ht' ht
          have h2 : v'.2 ≠ v.2 := fun h2 => hv'.2 (Prod.ext h1 h2)
          simp [setWord, h2]
        · have hne : (m.setWord t v.2 w).word t' = m.word t' := Function.update_of_ne htt ..
          rw [hne]
    · rw [pageMap_of_le hlt, pageMap_of_le hlt]
  have hfr : ∀ v' ∈ U \ {v}, frames (n.pageMap d) v' = frames (m.pageMap d) v' := fun v' hv' => by
    rw [frames, frames, hmap v' hv']
  -- The only page that may get free is the one that was at `v`, and nothing else in `U` is that page.
  have hmem : ∀ q ∈ n.pageFreeList, q ∈ m.pageFreeList ∨ frames (m.pageMap d) v = some q := by
    intro q hq
    rcases hfree with hl | ⟨p, hp, hl⟩
    · exact .inl (hl ▸ hq)
    · rw [hl] at hq
      rcases List.mem_cons.1 hq with rfl | hq
      · exact .inr hp
      · exact .inl hq
  refine ⟨⟨?_, ?_, ?_, ?_, ?_, ?_, ?_⟩, hmap, ?_, ?_⟩
  · rcases hfree with hl | ⟨p, hp, hl⟩
    · exact hl ▸ h.nodup
    · rw [hl]
      exact List.nodup_cons.2 ⟨(h.data v hU p hp).1, h.nodup⟩
  · intro q hq
    rw [htable]
    rcases hmem q hq with hq | hq
    · exact h.free q hq
    · refine ⟨?_, (h.data v hU q hq).2⟩
      obtain ⟨⟨p, w'⟩, hp, rfl⟩ := Option.map_eq_some_iff.1 hq
      rw [pageMap_table hv ht] at hp
      obtain ⟨p', hp', heq⟩ := Option.map_eq_some_iff.1 hp
      simp only [Prod.mk.injEq] at heq
      obtain ⟨rfl, -⟩ := heq
      obtain ⟨-, rfl⟩ := entry_eq_some.1 hp'
      exact PPN_lt _
  · rw [hdir]
    exact h.table
  · rw [hdir]
    exact h.apart
  · intro v' hv' q hq
    rw [hfr v' hv'] at hq
    rw [htable]
    refine ⟨fun hqf => ?_, (h.data v' hv'.1 q hq).2⟩
    rcases hmem q hqf with hqf | hqv
    · exact (h.data v' hv'.1 q hq).1 hqf
    · exact hv'.2 (h.distinct v' hv'.1 v hU q hq hqv)
  · intro v₁ h₁ v₂ h₂ q hq₁ hq₂
    rw [hfr v₁ h₁] at hq₁
    rw [hfr v₂ h₂] at hq₂
    exact h.distinct v₁ h₁.1 v₂ h₂.1 q hq₁ hq₂
  · intro q hq
    obtain ⟨hnot, hdata, hpages⟩ := h.keep q hq
    rw [htable]
    refine ⟨fun hqf => ?_, hdata, fun v' hv' => ?_⟩
    · rcases hmem q hqf with hqf | hqv
      · exact hnot hqf
      · exact hpages v hU hqv
    · rw [hfr v' hv']
      exact hpages v' hv'.1
  · intro v' hv' q hq
    have hqt : q ≠ t := fun heq => (h.data v' hv'.1 q hq).2 (.inr ⟨v.1, hv, heq ▸ ht⟩)
    rw [hword]
    exact Function.update_of_ne hqt ..
  · intro q hq
    have hqt : q ≠ t := fun heq => (h.keep q hq).2.1 (.inr ⟨v.1, hv, heq ▸ ht⟩)
    rw [hword]
    exact Function.update_of_ne hqt ..

/-- A new table. -/
private theorem Tidy.link (h : Tidy m d U F) (hnone : entry (m.word d v.1) = none) (hl : m.pageFreeList = t :: rest) :
    Tidy (m.linkTable d t rest v.1) d U F ∧ Same m d U F (m.linkTable d t rest v.1) := by
  have hfree := h.free t (by rw [hl]; exact List.mem_cons_self ..)
  have hnodup := h.nodup
  rw [hl, List.nodup_cons] at hnodup
  have hrest : ∀ q ∈ rest, q ∈ m.pageFreeList := fun q hq => by rw [hl]; exact List.mem_cons_of_mem _ hq
  have hdt : d ≠ t := fun heq => hfree.2 (.inl heq.symm)
  have htab : (m.linkTable d t rest v.1).word t = fun _ => 0 := by
    simp [linkTable, setWord, setRef, Function.update_of_ne hdt.symm]
  have hent : ∀ i, entry ((m.linkTable d t rest v.1).word d i) = if i = v.1 then some t else entry (m.word d i) := by
    intro i
    have hdir : (m.linkTable d t rest v.1).word d = Function.update (m.word d) v.1 (tablePde t) := by
      simp [linkTable, setWord, setRef, Function.update_of_ne hdt]
    rw [hdir]
    by_cases hi : i = v.1
    · rw [hi, Function.update_self, if_pos rfl, entry_tablePde hfree.1]
    · rw [Function.update_of_ne hi, if_neg hi]
  have hnew : ∀ {i}, i < PDX UTOP → entry (m.word d i) ≠ some t := fun hi heq => hfree.2 (.inr ⟨_, hi, heq⟩)
  have htable : ∀ q, (m.linkTable d t rest v.1).IsTable d q → m.IsTable d q ∨ q = t := by
    rintro q (rfl | ⟨i, hi, hq⟩)
    · exact .inl (.inl rfl)
    · rw [hent] at hq
      split at hq
      case isTrue => exact .inr (Option.some.inj hq).symm
      case isFalse => exact .inl (.inr ⟨i, hi, hq⟩)
  -- a page of the new table is not mapped, as it was not before
  have hmap : (m.linkTable d t rest v.1).pageMap d = m.pageMap d := by
    funext v'
    by_cases hv' : v'.1 < PDX UTOP
    · by_cases hi : v'.1 = v.1
      · have hold : entry (m.word d v'.1) = none := by rw [hi, hnone]
        rw [pageMap_unlinked hold, pageMap_table hv' (by rw [hent, if_pos hi]), htab]
        exact mapsTo_zero
      · cases ht' : entry (m.word d v'.1) with
        | none => rw [pageMap_unlinked ht', pageMap_unlinked (by rw [hent, if_neg hi, ht'])]
        | some t' =>
          have hne : t' ≠ t := fun heq => hnew hv' (heq ▸ ht')
          rw [pageMap_table hv' ht', pageMap_table hv' (by rw [hent, if_neg hi, ht']),
            link_word (h.table _ _ hv' ht') hne]
    · rw [pageMap_of_le hv', pageMap_of_le hv']
  have hkept : ∀ q, q ∉ m.pageFreeList → ¬m.IsTable d q →
      q ∉ rest ∧ ¬(m.linkTable d t rest v.1).IsTable d q ∧ (m.linkTable d t rest v.1).word q = m.word q := by
    intro q hnot hdata
    have hqt : q ≠ t := fun heq => hnot (by rw [hl, heq]; exact List.mem_cons_self ..)
    refine ⟨fun hqr => hnot (hrest q hqr), fun hq' => ?_, link_word (fun heq => hdata (.inl heq)) hqt⟩
    exact (htable q hq').elim hdata hqt
  refine ⟨⟨hnodup.2, ?_, ?_, ?_, ?_, ?_, ?_⟩, fun v' _ => congrFun hmap v', ?_, ?_⟩
  · intro q hq
    refine ⟨(h.free q (hrest q hq)).1, fun hq' => ?_⟩
    rcases htable q hq' with hq' | rfl
    · exact (h.free q (hrest q hq)).2 hq'
    · exact hnodup.1 hq
  · intro i t' hi ht'
    rw [hent] at ht'
    split at ht'
    case isTrue => exact Option.some.inj ht' ▸ hdt.symm
    case isFalse => exact h.table i t' hi ht'
  · intro i i' t' hi hi' ht' ht''
    rw [hent] at ht' ht''
    by_cases hiv : i = v.1
    · by_cases hiv' : i' = v.1
      · rw [hiv, hiv']
      · rw [if_pos hiv] at ht'
        rw [if_neg hiv', ← ht'] at ht''
        exact absurd ht'' (hnew hi')
    · by_cases hiv' : i' = v.1
      · rw [if_pos hiv'] at ht''
        rw [if_neg hiv, ← ht''] at ht'
        exact absurd ht' (hnew hi)
      · rw [if_neg hiv] at ht'
        rw [if_neg hiv'] at ht''
        exact h.apart i i' t' hi hi' ht' ht''
  · intro v' hv' q hq
    rw [hmap] at hq
    obtain ⟨hnot, hdata⟩ := h.data v' hv' q hq
    exact ⟨(hkept q hnot hdata).1, (hkept q hnot hdata).2.1⟩
  · rw [hmap]
    exact h.distinct
  · intro q hq
    obtain ⟨hnot, hdata, hpages⟩ := h.keep q hq
    rw [hmap]
    exact ⟨(hkept q hnot hdata).1, (hkept q hnot hdata).2.1, hpages⟩
  · intro v' hv' q hq
    obtain ⟨hnot, hdata⟩ := h.data v' hv' q hq
    exact (hkept q hnot hdata).2.2
  · intro q hq
    obtain ⟨hnot, hdata, -⟩ := h.keep q hq
    exact (hkept q hnot hdata).2.2

/-- `page_insert` changes one page; that of the others which are not to be looked at any more does not matter. -/
private theorem Tidy.insert (h : Tidy m d U F) (hva : VPN va ∈ U) (hi : PDX va < PDX UTOP)
    (hp : m.pageInsert d asid p va perm = some (0, m')) : Tidy m' d (U \ {VPN va}) F ∧
      Same m d (U \ {VPN va}) F m' := by
  have hdir : entry (m.word d (PDX va)) ≠ some d := fun ht => h.table _ _ hi ht rfl
  rcases pageInsert_effect hdir hp with ⟨t, ht, hw⟩ | ⟨t, rest, hnone, hl, rfl⟩
  · refine h.write (v := VPN va) hva hi ht hw.word ?_
    rcases hw.free with hl | ⟨q, hq, -, hl⟩
    · exact .inl hl
    · refine .inr ⟨q, ?_, hl⟩
      rw [frames, pageMap_at hi ht, mapsTo_frame hq, Option.map_some]
  · have hflush : Tidy (m.tlbInvalidate asid va) d U F :=
      ⟨h.nodup, h.free, h.table, h.apart, h.data, h.distinct, h.keep⟩
    obtain ⟨h₁, hs₁⟩ := hflush.link (v := VPN va) hnone hl
    have hs₁ : Same m d U F _ := ⟨hs₁.map, hs₁.word, hs₁.keep⟩
    have hent : entry (((m.tlbInvalidate asid va).linkTable d t rest (PDX va)).word d (PDX va)) = some t := by
      have ht := h.free t (by rw [hl]; exact List.mem_cons_self ..)
      have hdir : ((m.tlbInvalidate asid va).linkTable d t rest (PDX va)).word d (PDX va) = tablePde t := by
        simp [linkTable, setWord, setRef]
      rw [hdir, entry_tablePde ht.1]
    obtain ⟨h₂, hs₂⟩ := h₁.write (n := ((m.tlbInvalidate asid va).linkTable d t rest (PDX va)).fill t (PTX va) p perm)
      (w := newPte p perm) (v := VPN va) hva hi hent rfl (.inl rfl)
    exact ⟨h₂, hs₁.trans hs₂ Set.sdiff_subset⟩

end Pmap

/-! ### The address spaces of the system -/

namespace Mem

variable {mc : Machine} {leak : Nat → Nat} {D D' : Dirs} {m n : Pmap} {e c : EnvPtr} {d dc : Nat} {v : Vpn} {U : Set Vpn}
  {F : Set Nat} {q : Nat}

private theorem user_pageMap (hd : D e = some d) (hv : v.1 < PDX UTOP) : Mem.user ⟨D, m⟩ e v =
    (m.pageMap d v).map Prod.snd := by
  cases ht : entry (m.word d v.1) with
  | none =>
    rw [Pmap.pageMap_unlinked ht]
    simp [user, pte, hd, ht]
  | some t =>
    have hp : Mem.pte ⟨D, m⟩ e v = some (m.word t v.2) := pte_eq_some.2 ⟨d, t, hd, ht, rfl⟩
    rw [user_of_pte hp, Pmap.pageMap_table hv ht, Pmap.mapsTo]
    cases hw : entry (m.word t v.2) with
    | none =>
      rw [entry_eq_none.1 hw]
      rfl
    | some q =>
      rw [(entry_eq_some.1 hw).1]
      rfl

/-- The frame of a page. -/
private theorem frames_of_user {w : Word} (hd : D e = some d) (hv : v.1 < PDX UTOP) (hw : Mem.user ⟨D, m⟩ e v = some w) :
    Pmap.frames (m.pageMap d) v = some (PPN w) := by
  rw [user_pageMap hd hv] at hw
  obtain ⟨⟨q, w'⟩, hmap, rfl⟩ := Option.map_eq_some_iff.1 hw
  rw [Pmap.frames, hmap, Option.map_some]
  by_cases ht : ∃ t, entry (m.word d v.1) = some t
  · obtain ⟨t, ht⟩ := ht
    rw [Pmap.pageMap_table hv ht] at hmap
    obtain ⟨q', hq', heq⟩ := Option.map_eq_some_iff.1 hmap
    simp only [Prod.mk.injEq] at heq
    obtain ⟨rfl, rfl⟩ := heq
    rw [(entry_eq_some.1 hq').2]
  · have hnone : entry (m.word d v.1) = none := by
      cases hent : entry (m.word d v.1) with
      | none => rfl
      | some t => exact absurd ⟨t, hent⟩ ht
    rw [Pmap.pageMap_unlinked hnone] at hmap
    cases hmap

private theorem page_of_same (hs : Pmap.Same m d U F n) (hd : D e = some d) (hd' : D' e = some d) (hv : v ∈ U)
    (hlt : v.1 < PDX UTOP) : Mem.page ⟨D', n⟩ e v = Mem.page ⟨D, m⟩ e v := by
  have huser : Mem.user ⟨D', n⟩ e v = Mem.user ⟨D, m⟩ e v := by
    rw [user_pageMap hd' hlt, user_pageMap hd hlt, hs.map v hv]
  exact page_congr huser fun w hw => hs.word v hv _ (frames_of_user hd hlt hw)

/-- The frames of the directory of `c` and its tables are not those of `e`. -/
private theorem Ok.tidy (h : Ok mc leak ⟨D, m⟩) (hd : D e = some d) (hc : D c = some dc) (hne : e ≠ c)
    (hdis : Distinct ⟨D, m⟩ e) :
    Pmap.Tidy m d {v | v.1 < PDX UTOP} {q | m.IsTable dc q} := by
  have htwo := h.twoLevel hd
  have hslot : ∀ {x : EnvPtr} {dx q : Nat}, D x = some dx → m.IsTable dx q →
      ∃ s : Slot, s.Structural ∧ s.env = some x ∧ Mos.target mc D m.word s = some q := by
    rintro x dx q hx (rfl | ⟨i, hi, hq⟩)
    · exact ⟨.dir x, trivial, rfl, hx⟩
    · exact ⟨.pde x i, trivial, rfl, (target_pde hx (userIdx_of_lt hi)).trans hq⟩
  have hpage : ∀ {v : Vpn} {q : Nat}, v.1 < PDX UTOP → Pmap.frames (m.pageMap d) v = some q →
      ∃ w, Mem.user ⟨D, m⟩ e v = some w ∧ PPN w = q := by
    intro v q hv hq
    obtain ⟨⟨q', w⟩, hmap, rfl⟩ := Option.map_eq_some_iff.1 hq
    have hw : Mem.user ⟨D, m⟩ e v = some w := by rw [user_pageMap hd hv, hmap]; rfl
    have hfr := frames_of_user hd hv hw
    exact ⟨w, hw, Option.some.inj (hfr.symm.trans hq)⟩
  constructor
  · exact htwo.nodup
  · intro q hq
    obtain ⟨hlt, -, hnot⟩ := htwo.free q hq
    have hk := htwo.kseg0
    exact ⟨by omega, hnot⟩
  · exact fun i t hi ht => (htwo.table i t hi ht).2
  · exact htwo.apart
  · intro v hv q hq
    obtain ⟨w, hw, rfl⟩ := hpage hv hq
    exact ⟨h.refs.notMem_free (user_target mc hv hw), (htwo.data v _ hq).2⟩
  · intro v hv v' hv' q hq hq'
    obtain ⟨w, hw, rfl⟩ := hpage hv hq
    obtain ⟨w', hw', heq⟩ := hpage hv' hq'
    exact hdis v v' w w' hv hv' hw hw' heq.symm
  · intro q hq
    obtain ⟨s, hs, henv, ht⟩ := hslot hc hq
    refine ⟨h.refs.notMem_free ht, fun hq' => ?_, fun v hv hqv => ?_⟩
    · obtain ⟨s', hs', henv', ht'⟩ := hslot hd hq'
      have heq := h.tree.tree s s' q hs ht ht'
      rw [← heq, henv'] at henv
      exact hne (Option.some.inj henv)
    · obtain ⟨w, hw, rfl⟩ := hpage hv hqv
      exact (h.tree.data_of_pte (user_target mc hv hw)).notTree s hs ht

end Mem

/-! ### The loop -/

namespace Kern

variable {k k' k'' : Kern} {cur e : EnvPtr} {child r : Word} {m m₁ : Pmap} {d dc : Nat} {u v : Vpn} {R : Set Vpn}

/-- What `spawn` shares. -/
def library (k : Kern) (cur : EnvPtr) (v : Vpn) : Bool :=
  (k.vpt cur v).any fun pte => has pte PTE_V && has pte PTE_LIBRARY

private theorem vpt_congr (hc : (k.envs cur).envPgdir = some dc) (hword : ∀ q, m₁.IsTable dc q → m.word q = m₁.word q)
    (hv : v.1 < PDX UTOP) : (k.setPm m).vpt cur v = (k.setPm m₁).vpt cur v := by
  have hdir : m.word dc = m₁.word dc := hword dc (.inl rfl)
  simp only [vpt, setPm_envs, setPm_pm, hc, Option.bind_some, hdir]
  split
  case isTrue hval => rw [hword _ (.inr ⟨v.1, hv, entry_eq_some.2 ⟨hval, rfl⟩⟩)]
  case isFalse => rfl

theorem library_user (hlive : (k.envs cur).envStatus ≠ .FREE) (hc : (k.envs cur).envPgdir = some dc) :
    library (k.setPm m) cur v = true ↔
      ∃ w, Mem.user ⟨k.dirs, m⟩ cur v = some w ∧ has w PTE_LIBRARY = true := by
  have hd : k.dirs cur = some dc := (dirs_of_live hlive).trans hc
  have huser : ∀ w, Mem.user ⟨k.dirs, m⟩ cur v = some w ↔ (k.setPm m).vpt cur v = some w ∧ has w PTE_V = true := by
    intro w
    rw [Mem.user_eq_some, Mem.pte_eq_some]
    simp only [vpt, setPm_envs, setPm_pm, hc, Option.bind_some, hd, Option.some.injEq]
    constructor
    · rintro ⟨⟨d, t, rfl, ht, rfl⟩, hw⟩
      obtain ⟨hval, rfl⟩ := entry_eq_some.1 ht
      exact ⟨by rw [if_pos hval], hw⟩
    · rintro ⟨hp, hw⟩
      split at hp
      case isTrue hval => exact ⟨⟨dc, _, rfl, entry_eq_some.2 ⟨hval, rfl⟩, Option.some.inj hp⟩, hw⟩
      case isFalse => cases hp
  rw [library, Option.any_eq_true]
  constructor
  · rintro ⟨w, hp, hw⟩
    rw [Bool.and_eq_true] at hw
    exact ⟨w, (huser w).2 ⟨hp, hw.1⟩, hw.2⟩
  · rintro ⟨w, hw, hlib⟩
    obtain ⟨hp, hval⟩ := (huser w).1 hw
    exact ⟨w, hp, by rw [hval, hlib]; rfl⟩

/-- While the pages in `R` are still to be visited: the page `u` of the child is what it was, and so are the tables of the
caller. -/
structure Sharing (k : Kern) (dc d : Nat) (u : Vpn) (m₁ : Pmap) (R : Set Vpn) (m : Pmap) : Prop where
  tidy : Pmap.Tidy m d (insert u R) {q | m₁.IsTable dc q}
  same : Pmap.Same m₁ d {u} {q | m₁.IsTable dc q} m

private theorem Sharing.mono {S : Set Vpn} (h : Sharing k dc d u m₁ R m) (hS : S ⊆ R) : Sharing k dc d u m₁ S m :=
  ⟨h.tidy.mono (Set.insert_subset_insert hS), h.same⟩

section

variable (hb : Builder k cur e child) (hc : (k.envs cur).envPgdir = some dc) (hd : (k.envs e).envPgdir = some d)
  (hu : library (k.setPm m₁) cur u = false)

include hb hc hd hu

private theorem Sharing.page (h : Sharing k dc d u m₁ R m) (hv : v ∈ R) (hlt : v.1 < PDX UTOP)
    (hs : sharePage cur child (k.setPm m) v = some (r, k')) (hr : r.slt 0 = false) :
    ∃ m', k' = k.setPm m' ∧ Sharing k dc d u m₁ (R \ {v}) m' := by
  have hvpt := vpt_congr (k := k) hc h.same.keep hlt
  have hskip : k' = k.setPm m → ∃ m', k' = k.setPm m' ∧ Sharing k dc d u m₁ (R \ {v}) m' := fun heq =>
    ⟨m, heq, h.mono Set.sdiff_subset⟩
  rw [sharePage, hvpt] at hs
  split at hs
  case h_1 =>
    simp only [Option.some.injEq, Prod.mk.injEq] at hs
    exact hskip hs.2.symm
  case h_2 pte hpte =>
    split at hs
    case isFalse =>
      simp only [Option.some.injEq, Prod.mk.injEq] at hs
      exact hskip hs.2.symm
    case isTrue hlib =>
      have huv : u ≠ v := by
        rintro rfl
        rw [library, hpte, Option.any_some, hlib] at hu
        cases hu
      obtain ⟨rfl, -, -, p, pte', ds, dd, m', -, -, hdd, hins, rfl⟩ := memMap_cases (envid2env_zero ..) hb.child hb.live
        hb.child_live hr hs
      obtain rfl : d = dd := Option.some.inj (hd.symm.trans ((dirs_of_live hb.child_live).symm.trans hdd))
      obtain ⟨htidy, hsame⟩ := h.tidy.insert (by rw [VPN_pageVa]; exact Set.mem_insert_of_mem u hv)
        (by rw [show PDX (pageVa v) = v.1 from congrArg Prod.fst (VPN_pageVa v)]; exact hlt) hins
      rw [VPN_pageVa] at htidy hsame
      refine ⟨m', rfl, htidy.mono ?_, h.same.trans (hsame.mono ?_) Set.Subset.rfl⟩
      · rintro x (rfl | hx)
        · exact ⟨Set.mem_insert x R, huv⟩
        · exact ⟨Set.mem_insert_of_mem u hx.1, hx.2⟩
      · rintro x rfl
        exact ⟨Set.mem_insert x R, huv⟩

private theorem Sharing.row {i : Idx} {l : List Idx} {S : Set Vpn} (hi : i < PDX UTOP) (hS : ∀ j, (i, j) ∉ S)
    (hl : l.Nodup) (hR : R = {v | v.1 = i ∧ v.2 ∈ l} ∪ S) (h : Sharing k dc d u m₁ R m)
    (hs : loopWhileOk (fun k j => sharePage cur child k (i, j)) l (k.setPm m) = some (r, k')) (hr : r.slt 0 = false) :
    ∃ m', k' = k.setPm m' ∧ Sharing k dc d u m₁ S m' := by
  induction l generalizing R m with
  | nil =>
    simp only [loopWhileOk, Option.some.injEq, Prod.mk.injEq] at hs
    exact ⟨m, hs.2.symm, h.mono (by rw [hR]; exact Set.subset_union_right)⟩
  | cons j l ih =>
    obtain ⟨⟨r₁, k₁⟩, hpage, hs⟩ := Option.bind_eq_some_iff.1 hs
    dsimp only at hs
    split at hs
    case isTrue hneg =>
      simp only [Option.some.injEq, Prod.mk.injEq] at hs
      rw [← hs.1, hneg] at hr
      cases hr
    case isFalse hneg =>
      have hmem : (i, j) ∈ R := by
        rw [hR]
        exact .inl ⟨rfl, List.mem_cons_self ..⟩
      obtain ⟨m₂, rfl, h₂⟩ := h.page hb hc hd hu hmem hi hpage (by simpa using hneg)
      have hnot := (List.nodup_cons.1 hl).1
      have hsub : {v : Vpn | v.1 = i ∧ v.2 ∈ l} ∪ S ⊆ R \ {(i, j)} := by
        rintro v (⟨h1, h2⟩ | hv)
        · refine ⟨by rw [hR]; exact .inl ⟨h1, List.mem_cons_of_mem _ h2⟩, ?_⟩
          rintro rfl
          exact hnot h2
        · refine ⟨by rw [hR]; exact .inr hv, ?_⟩
          rintro rfl
          exact hS j hv
      exact ih (List.nodup_cons.1 hl).2 rfl (h₂.mono hsub) hs

private theorem Sharing.rows {l : List Idx} (hi : ∀ i ∈ l, i < PDX UTOP) (hl : l.Nodup)
    (h : Sharing k dc d u m₁ {v | v.1 ∈ l} m)
    (hs : loopWhileOk (shareTable cur child) l (k.setPm m) = some (r, k')) (hr : r.slt 0 = false) :
    ∃ m', k' = k.setPm m' ∧ Sharing k dc d u m₁ ∅ m' := by
  induction l generalizing m with
  | nil =>
    simp only [loopWhileOk, Option.some.injEq, Prod.mk.injEq] at hs
    exact ⟨m, hs.2.symm, h.mono (Set.empty_subset _)⟩
  | cons i l ih =>
    obtain ⟨⟨r₁, k₁⟩, htable, hs⟩ := Option.bind_eq_some_iff.1 hs
    dsimp only at hs
    split at hs
    case isTrue hneg =>
      simp only [Option.some.injEq, Prod.mk.injEq] at hs
      rw [← hs.1, hneg] at hr
      cases hr
    case isFalse hneg =>
      have hnot := (List.nodup_cons.1 hl).1
      have hrow : ∃ m', k₁ = k.setPm m' ∧ Sharing k dc d u m₁ {v | v.1 ∈ l} m' := by
        rw [shareTable] at htable
        split at htable
        case isTrue =>
          refine h.row (i := i) (S := {v | v.1 ∈ l}) hb hc hd hu (hi i (List.mem_cons_self ..)) (fun j => hnot)
            (List.nodup_finRange 1024) ?_ htable (by simpa using hneg)
          ext v
          simp
        case isFalse =>
          simp only [Option.some.injEq, Prod.mk.injEq] at htable
          exact ⟨m, htable.2.symm, h.mono fun v hv => List.mem_cons_of_mem i hv⟩
      obtain ⟨m₂, rfl, h₂⟩ := hrow
      exact ih (fun i' hi' => hi i' (List.mem_cons_of_mem _ hi')) (List.nodup_cons.1 hl).2 h₂ hs

end

/-! ### The whole loop -/

private theorem shared_lt {i : Idx} (hi : i ∈ sharedTables) : i < PDX UTOP := by
  have hle : i ≤ PDX USTACKTOP := of_decide_eq_true (List.mem_filter.1 hi).2
  exact lt_of_le_of_lt hle (by decide)

private theorem loopWhileOk_pm {α : Type} {f : Kern → α → Option (Word × Kern)} {l : List α}
    (hf : ∀ k x r k', f k x = some (r, k') → ∃ m, k' = k.setPm m) (hs : loopWhileOk f l k = some (r, k')) :
    ∃ m, k' = k.setPm m := by
  induction l generalizing k with
  | nil =>
    simp only [loopWhileOk, Option.some.injEq, Prod.mk.injEq] at hs
    exact ⟨k.pm, hs.2.symm⟩
  | cons x l ih =>
    obtain ⟨⟨r₁, k₁⟩, hx, hs⟩ := Option.bind_eq_some_iff.1 hs
    obtain ⟨m, rfl⟩ := hf k x r₁ k₁ hx
    dsimp only at hs
    split at hs
    case isTrue =>
      simp only [Option.some.injEq, Prod.mk.injEq] at hs
      exact ⟨m, hs.2.symm⟩
    case isFalse =>
      obtain ⟨m', rfl⟩ := ih hs
      exact ⟨m', rfl⟩

private theorem sharePage_pm (hs : sharePage cur child k v = some (r, k')) : ∃ m, k' = k.setPm m := by
  have hskip : some ((0 : Word), k) = some (r, k') → ∃ m, k' = k.setPm m := by
    intro heq
    simp only [Option.some.injEq, Prod.mk.injEq] at heq
    exact ⟨k.pm, heq.2.symm⟩
  unfold sharePage at hs
  split at hs
  case h_1 => exact hskip hs
  case h_2 =>
    split at hs
    case isTrue => exact memMap_pm hs
    case isFalse => exact hskip hs

private theorem shareTable_pm {i : Idx} (hs : shareTable cur child k i = some (r, k')) : ∃ m, k' = k.setPm m := by
  unfold shareTable at hs
  split at hs
  case isTrue => exact loopWhileOk_pm (fun _ _ _ _ hp => sharePage_pm hp) hs
  case isFalse =>
    simp only [Option.some.injEq, Prod.mk.injEq] at hs
    exact ⟨k.pm, hs.2.symm⟩

/-- Sharing the library pages of the caller leaves the other pages of the child alone. -/
theorem shared_page {mc : Machine} {leak : Nat → Nat} (hb : Builder k cur e child) (hok : Mem.Ok mc leak ⟨k.dirs, m⟩)
    (hdis : Mem.Distinct ⟨k.dirs, m⟩ e) (hc : (k.envs cur).envPgdir = some dc) (hd : (k.envs e).envPgdir = some d)
    (hs : loopWhileOk (shareTable cur child) sharedTables (k.setPm m) = some (r, k')) (hr : r.slt 0 = false) :
    ∃ m', k' = k.setPm m' ∧ ∀ v, v.1 < PDX UTOP → library (k.setPm m) cur v = false →
      Mem.page ⟨k.dirs, m'⟩ e v = Mem.page ⟨k.dirs, m⟩ e v := by
  have hde : k.dirs e = some d := (dirs_of_live hb.child_live).trans hd
  have hdc : k.dirs cur = some dc := (dirs_of_live hb.live).trans hc
  have htidy := hok.tidy hde hdc hb.ne hdis
  obtain ⟨m', rfl⟩ := loopWhileOk_pm (fun _ _ _ _ ht => shareTable_pm ht) hs
  refine ⟨m', rfl, fun v hv hlib => ?_⟩
  have hsub : insert v {v' : Vpn | v'.1 ∈ sharedTables} ⊆ {v' : Vpn | v'.1 < PDX UTOP} := by
    rintro v' (rfl | hv')
    · exact hv
    · exact shared_lt hv'
  obtain ⟨m₂, heq, h₂⟩ := Sharing.rows hb hc hd hlib (fun _ => shared_lt) ((List.nodup_finRange 1024).filter _)
    ⟨htidy.mono hsub, .refl ..⟩ hs hr
  obtain rfl : m' = m₂ := congrArg Kern.pm heq
  exact Mem.page_of_same h₂.same hde hde rfl hv

/-! ### Nothing to share -/

private theorem loopWhileOk_skip {α : Type} {f : Kern → α → Option (Word × Kern)} {l : List α}
    (h : ∀ x ∈ l, f k x = some (0, k)) :
    loopWhileOk f l k = some (0, k) := by
  induction l with
  | nil => rfl
  | cons x l ih =>
    rw [loopWhileOk, h x (List.mem_cons_self ..)]
    exact ih fun y hy => h y (List.mem_cons_of_mem x hy)

/-- Without a library page there is nothing to share. -/
theorem share_nothing (h : ∀ v, v.1 < PDX UTOP → library k cur v = false) :
    loopWhileOk (shareTable cur child) sharedTables k = some (0, k) := by
  refine loopWhileOk_skip fun i hi => ?_
  have hlt := shared_lt hi
  rw [shareTable]
  split
  case isFalse => rfl
  case isTrue =>
    refine loopWhileOk_skip fun j _ => ?_
    have hlib := h (i, j) hlt
    rw [library] at hlib
    rw [sharePage]
    cases hpte : k.vpt cur (i, j) with
    | none => rfl
    | some pte =>
      rw [hpte, Option.any_some] at hlib
      dsimp only
      rw [hlib]
      rfl

end Kern

end Mos
