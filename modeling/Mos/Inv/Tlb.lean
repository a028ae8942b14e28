import Mos.Inv.Frame

/-!
# The TLB and the page tables

As long as no permission has `PTE_G`, every live environment has an ASID and a directory of its own, and no
environment is destroyed while the TLB shows its directory from index `PDX ULIM` on, every entry of the TLB that the
running environment can hit is the entry of its own page table.
-/

namespace Mos

open Kern

/-! ### Entries that all environments share -/

/-- What the template makes all directories show. -/
def SharedEntry (mc : Machine) (v : Vpn) (w : Word) : Prop :=
  (v.1 = PDX UENVS ∧ w = mc.bootPmap.word mc.envsTable v.2) ∨
    (v.1 = PDX UPAGES ∧ w = mc.bootPmap.word mc.pagesTable v.2) ∨
    (v = (PDX UVPT, PDX UENVS) ∧ w = Pmap.tablePde mc.envsTable) ∨
    (v = (PDX UVPT, PDX UPAGES) ∧ w = Pmap.tablePde mc.pagesTable)

/-- No permission is global, and a directory is given up when the TLB shows nothing of it from `PDX ULIM` on. -/
def tlbPolicy : Policy where
  perm w := has w PTE_G = false
  own := by decide
  page _ := True
  drop asid _ m := ∀ t ∈ m.tlb, t.asid = asid → t.vpn.1 = PDX UVPT → t.vpn.2 < PDX ULIM
  drop_mono h _ htlb t ht := h t (htlb ht)

/-- An entry of the TLB is shared, or it is not global and belongs to the environment that has its ASID. -/
structure TlbOk (mc : Machine) (A : EnvPtr → Asid) (s : Mem) : Prop where
  asids : ∀ e e', s.dirs e ≠ none → s.dirs e' ≠ none → A e = A e' → e = e'
  own : ∀ t ∈ s.pm.tlb, t.vpn.1 < PDX ULIM ∧ has t.pte PTE_V = true ∧ (SharedEntry mc t.vpn t.pte ∨
    (has t.pte PTE_G = false ∧ ∃ e, A e = t.asid ∧ s.pte e t.vpn = some t.pte))
  priv : ∀ e v w, v.1 < PDX UTOP → s.pte e v = some w → has w PTE_V = true → has w PTE_G = false

namespace Mem

variable {mc : Machine} {leak : Nat → Nat} {s s' : Mem} {D : Dirs} {m m' : Pmap} {e e' : EnvPtr} {asid : Asid}
  {d t pp : Nat} {i j : Idx} {v : Vpn} {w perm va : Word} {pol : Policy}

theorem Ok.shared_pte (h : Ok mc leak s) (hd : s.dirs e = some d) (hs : SharedEntry mc v w) : s.pte e v = some w := by
  have henvs : mc.envsTable < 2 ^ 20 := h.tree.lt (.base 2) _ rfl
  have hpages : mc.pagesTable < 2 ^ 20 := h.tree.lt (.base 1) _ rfl
  have hbe : s.pm.word mc.envsTable = mc.bootPmap.word mc.envsTable := h.tree.base 2
  have hbp : s.pm.word mc.pagesTable = mc.bootPmap.word mc.pagesTable := h.tree.base 1
  obtain ⟨hue, hup⟩ := h.tree.shared e d hd
  obtain ⟨hself, -⟩ := h.tree.self e d hd
  have hent := entry_self (h.tree.lt (.dir e) d hd)
  rw [pte_eq_some]
  rcases hs with ⟨hv, rfl⟩ | ⟨hv, rfl⟩ | ⟨rfl, rfl⟩ | ⟨rfl, rfl⟩
  · exact ⟨d, mc.envsTable, hd, by rw [hv, hue, entry_tablePde henvs], congrFun hbe v.2⟩
  · exact ⟨d, mc.pagesTable, hd, by rw [hv, hup, entry_tablePde hpages], congrFun hbp v.2⟩
  · exact ⟨d, d, hd, by rw [hself, hent], hue⟩
  · exact ⟨d, d, hd, by rw [hself, hent], hup⟩

/-- What is stored in the two shared windows, and for them in the directory. -/
private theorem Ok.shared_of_pte (h : Ok mc leak s) (hp : s.pte e v = some w)
    (hv : v.1 = PDX UENVS ∨ v.1 = PDX UPAGES ∨ (v.1 = PDX UVPT ∧ (v.2 = PDX UENVS ∨ v.2 = PDX UPAGES))) :
    SharedEntry mc v w := by
  obtain ⟨d, t, hd, -⟩ := pte_eq_some.1 hp
  have hsame : ∀ w', SharedEntry mc v w' → SharedEntry mc v w := by
    intro w' hs
    have heq := (h.shared_pte hd hs).symm.trans hp
    rwa [← Option.some.inj heq]
  obtain ⟨i, j⟩ := v
  rcases hv with hv | hv | ⟨hv, hv' | hv'⟩
  · exact hsame _ (.inl ⟨hv, rfl⟩)
  · exact hsame _ (.inr (.inl ⟨hv, rfl⟩))
  · exact hsame _ (.inr (.inr (.inl ⟨Prod.ext hv hv', rfl⟩)))
  · exact hsame _ (.inr (.inr (.inr ⟨Prod.ext hv hv', rfl⟩)))

/-- The entries of a directory are not global. -/
private theorem Ok.pde_G (h : Ok mc leak s) (hd : s.dirs e = some d) (hv : has (s.pm.word d j) PTE_V = true) :
    has (s.pm.word d j) PTE_G = false := by
  have htable : ∀ t, has (Pmap.tablePde t) PTE_G = false := by
    intro t
    rw [Pmap.tablePde_eq, entry_G]
    decide
  have hself : has (page2pa d ||| PTE_V) PTE_G = false := by
    have h0 : page2pa d ||| PTE_V = page2pa d ||| 0 ||| PTE_V := by simp
    rw [h0, entry_G]
    decide
  cases hu : userIdx j with
  | true =>
    have ht : s.target mc (.pde e j) = some (PPN (s.pm.word d j)) :=
      (target_pde hd hu).trans (entry_eq_some.2 ⟨hv, rfl⟩)
    rw [h.tree.form e d j _ hd ht, htable]
  | false =>
    obtain ⟨hue, hup⟩ := h.tree.shared e d hd
    obtain ⟨hs₁, hs₂⟩ := h.tree.self e d hd
    rcases special_idx hu with rfl | rfl | rfl | rfl
    · rw [hue, htable]
    · rw [hup, htable]
    · rw [hs₁, hself]
    · rw [hs₂, hself]

/-! ### What a step does to an entry -/

/-- Below `UTOP` the walk goes through a table of the environment. -/
private theorem pte_user (mc : Machine) (hp : Mem.pte ⟨D, m⟩ e v = some w) (hv : v.1 < PDX UTOP) :
    ∃ t, Mos.target mc D m.word (.pde e v.1) = some t ∧ m.word t v.2 = w := by
  obtain ⟨d, t, hd, ht, hw⟩ := pte_eq_some.1 hp
  exact ⟨t, (target_pde hd (userIdx_of_lt hv)).trans ht, hw⟩

/-- Writing an entry of the table `i` of `e` does not change what is stored for other pages. -/
theorem Ok.pte_setPte {n : Pmap} (h : Ok mc leak ⟨D, m⟩) (ht : Mos.target mc D m.word (.pde e i) = some t) (hv : v.1 < PDX ULIM)
    (hne : v ≠ (i, j)) (hword : n.word = Function.update m.word t (Function.update (m.word t) j w)) :
    Mem.pte ⟨D, n⟩ e v = Mem.pte ⟨D, m⟩ e v := by
  cases hd : D e with
  | none => simp [pte, hd]
  | some d =>
    have hdt : d ≠ t := by
      rintro rfl
      cases h.tree.tree (.dir e) (.pde e i) d trivial hd ht
    have hdw : n.word d = m.word d := by rw [hword, Function.update_of_ne hdt]
    cases ht' : entry (m.word d v.1) with
    | none => simp [pte, hd, hdw, ht']
    | some t' =>
      have htw : n.word t' v.2 = m.word t' v.2 := by
        rw [hword]
        by_cases htt : t' = t
        · subst htt
          -- the walk reaches the table at its own index only
          have hi : v.1 = i := by
            rcases h.table_at (e := e) hd hv ht' with hvt | ⟨-, heq⟩ | ⟨b, rfl⟩
            · cases h.tree.tree (.pde e i) (.pde e v.1) t' trivial ht hvt
              rfl
            · exact absurd heq.symm hdt
            · cases h.tree.tree (.base b) (.pde e i) _ trivial rfl ht
          have hj : v.2 ≠ j := fun hj => hne (Prod.ext hi hj)
          rw [Function.update_self, Function.update_of_ne hj]
        · rw [Function.update_of_ne htt]
      simp [pte, hd, hdw, ht', htw]

/-- Writing an entry of the directory of `e` changes what is stored for the pages below it, and for the page that shows
it in the window. -/
theorem Ok.pte_setPde {n : Pmap} (h : Ok mc leak ⟨D, m⟩) (hd : D e = some d) (hv : v.1 < PDX ULIM) (hne : v.1 ≠ i)
    (hwin : v ≠ (PDX UVPT, i)) (hword : n.word = Function.update m.word d (Function.update (m.word d) i w)) :
    Mem.pte ⟨D, n⟩ e v = Mem.pte ⟨D, m⟩ e v := by
  have hdw : n.word d v.1 = m.word d v.1 := by rw [hword, Function.update_self, Function.update_of_ne hne]
  cases ht : entry (m.word d v.1) with
  | none => simp [pte, hd, hdw, ht]
  | some t =>
    have htw : n.word t v.2 = m.word t v.2 := by
      rw [hword]
      by_cases htd : t = d
      · subst htd
        have hi : v.1 = PDX UVPT := by
          rcases h.table_at hd hv ht with hvt | ⟨heq, -⟩ | ⟨b, rfl⟩
          · cases h.tree.tree (.dir e) (.pde e v.1) t trivial hd hvt
          · exact heq
          · cases h.tree.tree (.base b) (.dir e) _ trivial rfl hd
        have hj : v.2 ≠ i := fun hj => hwin (Prod.ext hi hj)
        rw [Function.update_self, Function.update_of_ne hj]
      · rw [Function.update_of_ne htd]
    simp [pte, hd, hdw, ht, htw]

/-- A page that is taken from the free list belongs to no walk. -/
private theorem Ok.pte_take {q : Nat} {rest : List Nat} (h : Ok mc leak ⟨D, m⟩) (hl : m.pageFreeList = q :: rest)
    (hv : v.1 < PDX ULIM) : Mem.pte ⟨D, m.take q rest⟩ e v = Mem.pte ⟨D, m⟩ e v := by
  have hq := h.fresh (q := q) (by rw [hl]; exact List.mem_cons_self ..)
  refine h.pte_congr (n := ⟨D, m.take q rest⟩) hv rfl fun q' hq' => ?_
  obtain ⟨x, hx, -, hxt⟩ := hq'
  have hne : q' ≠ q := fun heq => hq.unused x (heq ▸ hxt)
  exact Function.update_of_ne hne ..

/-- What is written to a table is stored. -/
private theorem Ok.pte_setPte_self {n : Pmap} (h : Ok mc leak ⟨D, m⟩) (ht : Mos.target mc D m.word (.pde e i) = some t)
    (hword : n.word = Function.update m.word t (Function.update (m.word t) j w)) : Mem.pte ⟨D, n⟩ e (i, j) = some w := by
  obtain ⟨-, d, hd, hent⟩ := target_pde_some ht
  have hdt : d ≠ t := by
    rintro rfl
    cases h.tree.tree (.dir e) (.pde e i) d trivial hd ht
  refine pte_eq_some.2 ⟨d, t, hd, ?_, ?_⟩
  · rw [show n.word d = m.word d by rw [hword, Function.update_of_ne hdt]]
    exact hent
  · rw [hword, Function.update_self, Function.update_self]

/-- Below an entry of the directory that is cleared nothing is stored. -/
private theorem pte_setPde_none {n : Pmap} (hd : D e = some d)
    (hword : n.word = Function.update m.word d (Function.update (m.word d) v.1 0)) : Mem.pte ⟨D, n⟩ e v = none := by
  have hzero : n.word d v.1 = 0 := by rw [hword, Function.update_self, Function.update_self]
  have hnone : entry (n.word d v.1) = none := by
    rw [hzero]
    exact entry_eq_none.2 (by simp)
  simp [pte, hd, hnone]

/-- A new table in the directory does not change what is stored for other pages. -/
private theorem Ok.pte_link {t : Nat} {rest : List Nat} (h : Ok mc leak ⟨D, m⟩) (hd : D e = some d)
    (hl : m.pageFreeList = t :: rest)
    (hv : v.1 < PDX ULIM) (hne : v.1 ≠ i) (hwin : v ≠ (PDX UVPT, i)) :
    Mem.pte ⟨D, m.linkTable d t rest i⟩ e v = Mem.pte ⟨D, m⟩ e v :=
  ((h.take hl).pte_setPde (n := m.linkTable d t rest i) hd hv hne hwin rfl).trans (h.pte_take hl hv)

/-- A new table is empty. -/
private theorem Ok.pte_link_self {t : Nat} {rest : List Nat} (h : Ok mc leak ⟨D, m⟩) (hd : D e = some d)
    (hl : m.pageFreeList = t :: rest) : Mem.pte ⟨D, m.linkTable d t rest v.1⟩ e v = some 0 := by
  have hfresh := h.fresh (q := t) (by rw [hl]; exact List.mem_cons_self ..)
  have htd : t ≠ d := fun heq => hfresh.unused (.dir e) (heq ▸ hd)
  have ht20 : t < 2 ^ 20 := by
    have hk := mc.kseg0
    have hlt := hfresh.bound.2
    omega
  have hlinked : (m.linkTable d t rest v.1).word d v.1 = Pmap.tablePde t := by simp [Pmap.linkTable, Pmap.setWord]
  have hold : (m.linkTable d t rest v.1).word t = (m.take t rest).word t := Function.update_of_ne htd ..
  have hnew : (m.take t rest).word t = fun _ => 0 := Function.update_self ..
  refine pte_eq_some.2 ⟨d, t, hd, ?_, ?_⟩
  · rw [hlinked, entry_tablePde ht20]
  · rw [hold, hnew]

/-- A valid entry is not where a table is still missing, in the directory or in the window. -/
private theorem Ok.not_missing (h : Ok mc leak ⟨D, m⟩) (hd : D e = some d) (hinv : has (m.word d i) PTE_V = false)
    (hp : Mem.pte ⟨D, m⟩ e v = some w) (hw : has w PTE_V = true) : v.1 ≠ i ∧ v ≠ (PDX UVPT, i) := by
  obtain ⟨d', t', hd', ht', rfl⟩ := pte_eq_some.1 hp
  obtain rfl := Option.some.inj (hd.symm.trans hd')
  constructor
  · intro heq
    rw [heq, entry_eq_none.2 hinv] at ht'
    cases ht'
  · rintro rfl
    have hself := (h.tree.self e d hd).1
    have hd20 : d < 2 ^ 20 := h.tree.lt (.dir e) d hd
    rw [hself, entry_self hd20] at ht'
    obtain rfl := Option.some.inj ht'
    rw [hinv] at hw
    cases hw

/-- Below `UTOP` a new directory is empty. -/
private theorem pte_newDir_none {D : Dirs} {m : Pmap} {p base : Nat} (hv : v.1 < PDX UTOP) :
    Mem.pte ⟨Function.update D e (some p), m.newDir base p⟩ e v = none := by
  have hself : ¬(v.1 = PDX KSEG2 ∨ v.1 = PDX UVPT) := by
    rintro (heq | heq)
    · exact absurd hv (by rw [heq]; decide)
    · exact absurd hv (by rw [heq]; decide)
  have hnew : (m.newDir base p).word p = m.newDirWord base p := Function.update_self ..
  have hzero : (m.newDir base p).word p v.1 = 0 := by
    rw [hnew, Pmap.newDirWord, if_neg hself, if_neg fun hle => absurd hv (not_lt.2 hle.1)]
  have hnone : entry ((m.newDir base p).word p v.1) = none := by
    rw [hzero]
    exact entry_eq_none.2 (by simp)
  simp [pte, hnone]

/-- The words that the flushes of a step drop. -/
private theorem flush_pages (i : Idx) : VPN (Pmap.vptVa UVPT i) = (PDX UVPT, i) ∧ VPN (Pmap.vptVa KSEG2 i) =
    (PDX KSEG2, i) := by
  revert i
  decide +kernel

/-- After a flush nothing in the TLB is for that page and ASID. -/
private theorem flushed {x : TlbEntry} (hx : x ∈ (m.tlbInvalidate asid va).tlb) (hasid : x.asid = asid) :
    x.vpn ≠ VPN va := by
  intro hv
  have hnot := (List.mem_filter.1 hx).2
  simp [TlbEntry.hits, hasid, hv] at hnot

theorem move_tlb (hm : Move mc pol e asid s s') : s'.pm.tlb ⊆ s.pm.tlb := by
  cases hm with
  | take => exact fun _ hx => hx
  | flush D m va => exact tlbInvalidate_sub m asid va
  | link => exact fun _ hx => hx
  | fill => exact fun _ hx => hx
  | @reperm D m t pp va => exact tlbInvalidate_sub m asid va
  | @clear D m m' t pp va hi ht hpte hdec =>
    rw [← (pageDecref_word hdec).2.1]
    exact tlbInvalidate_sub (m'.setWord t (PTX va) 0) asid va
  | newDir hD hs =>
    obtain ⟨rest, hl, rfl⟩ := Pmap.envSetupVm_cases hs
    exact fun _ hx => hx
  | @dropTable D m m' d t i hd hi ht hempty hdec =>
    have htlb : m'.tlb = m.tlb := (pageDecref_word hdec).2.1
    rw [← htlb]
    exact List.Subset.trans (tlbInvalidate_sub _ asid _) (tlbInvalidate_sub m' asid _)
  | @dropDir D m m' d hd hempty hpol hdec =>
    rw [← (pageDecref_word hdec).2.1]
    exact List.Subset.trans (tlbInvalidate_sub _ asid _) (tlbInvalidate_sub m' asid _)

/-- When a table is given up, its own entry in the window is flushed. -/
private theorem Ok.dropTable_pte {m' : Pmap} (h : Ok mc leak ⟨D, m⟩) (hd : D e = some d) (hi : i < PDX UTOP)
    (ht : Mos.target mc D m.word (.pde e i) = some t) (hempty : ∀ j, has (m.word t j) PTE_V = false)
    (hdec : (m.setWord d i 0).pageDecref t = some m') (hv : v.1 < PDX ULIM) (hp : Mem.pte ⟨D, m⟩ e v = some w)
    (hw : has w PTE_V = true) : Mem.pte ⟨D, m'⟩ e v = some w ∨
      ∀ x ∈ ((m'.tlbInvalidate asid (Pmap.vptVa UVPT i)).tlbInvalidate asid (Pmap.vptVa KSEG2 i)).tlb, x.asid = asid →
        x.vpn ≠ v := by
  have hne : v.1 ≠ i := by
    intro heq
    obtain ⟨t', ht', rfl⟩ := pte_user mc hp (heq ▸ hi)
    rw [heq] at ht'
    obtain rfl := Option.some.inj (ht.symm.trans ht')
    rw [hempty] at hw
    cases hw
  by_cases hwin : v = (PDX UVPT, i)
  · right
    intro x hx hasid
    rw [hwin, ← (flush_pages i).1]
    exact flushed (m := m') (tlbInvalidate_sub _ asid _ hx) hasid
  · left
    have hword : m'.word = Function.update m.word d (Function.update (m.word d) i 0) := (pageDecref_word hdec).1
    exact (h.pte_setPde hd hv hne hwin hword).trans hp

/-- In the window of an empty directory, only what all directories share and the directory itself are valid. -/
private theorem valid_idx {j : Idx} (hempty : ∀ i, i < PDX UTOP → has (m.word d i) PTE_V = false) (hlt : j < PDX ULIM)
    (hshared : ¬(j = PDX UENVS ∨ j = PDX UPAGES)) (hw : has (m.word d j) PTE_V = true) : j = PDX UVPT := by
  have hnot : ¬j < PDX UTOP := by
    intro hlt2
    rw [hempty j hlt2] at hw
    cases hw
  cases hu : userIdx j with
  | true =>
    have hcase : PDX ULIM ≤ j ∧ j ≠ PDX KSEG2 := by simpa [userIdx, hnot] using hu
    exact absurd hlt (not_lt.2 hcase.1)
  | false =>
    rcases special_idx hu with heq | heq | heq | heq
    · exact absurd (.inl heq) hshared
    · exact absurd (.inr heq) hshared
    · exact heq
    · rw [heq] at hlt
      exact absurd hlt (by decide)

/-- When a directory is given up, what was stored is shared, or it is the entry of the directory in its own window, which
is flushed. -/
private theorem Ok.dropDir_pte {m' : Pmap} (h : Ok mc leak ⟨D, m⟩) (hd : D e = some d)
    (hempty : ∀ i, i < PDX UTOP → has (m.word d i) PTE_V = false) (hpol : tlbPolicy.drop asid d m)
    (hdec : m.pageDecref d = some m') (hv : v.1 < PDX ULIM) (hp : Mem.pte ⟨D, m⟩ e v = some w) (hw : has w PTE_V = true) :
    (∀ x ∈ ((m'.tlbInvalidate asid (Pmap.vptVa UVPT (PDX UVPT))).tlbInvalidate asid (Pmap.vptVa KSEG2 (PDX UVPT))).tlb,
      x.asid = asid → x.vpn ≠ v) ∨ SharedEntry mc v w := by
  have htlb : m'.tlb = m.tlb := (pageDecref_word hdec).2.1
  have hd20 : d < 2 ^ 20 := h.tree.lt (.dir e) d hd
  obtain ⟨d', t, hd', ht, hwt⟩ := pte_eq_some.1 hp
  obtain rfl := Option.some.inj (hd.symm.trans hd')
  have hvalid : has (m.word d v.1) PTE_V = true := by
    by_contra hnot
    rw [entry_eq_none.2 (Bool.eq_false_iff.2 hnot)] at ht
    cases ht
  by_cases hshared : v.1 = PDX UENVS ∨ v.1 = PDX UPAGES
  · exact .inr (h.shared_of_pte hp (hshared.imp id .inl))
  have hwin := valid_idx hempty hv hshared hvalid
  by_cases hshared2 : v.2 = PDX UENVS ∨ v.2 = PDX UPAGES
  · exact .inr (h.shared_of_pte hp (.inr (.inr ⟨hwin, hshared2⟩)))
  left
  intro x hx hasid hxv
  have hself := (h.tree.self e d hd).1
  rw [hwin, hself, entry_self hd20] at ht
  obtain rfl := Option.some.inj ht
  have hxm : x ∈ m'.tlb := tlbInvalidate_sub _ asid _ (tlbInvalidate_sub _ asid _ hx)
  have hlt : v.2 < PDX ULIM := by
    have hx2 := hpol x (htlb ▸ hxm) hasid (by rw [hxv]; exact hwin)
    rwa [hxv] at hx2
  have hself2 : v.2 = PDX UVPT := valid_idx hempty hlt hshared2 (by rw [hwt]; exact hw)
  have hflush := flushed (m := m') (tlbInvalidate_sub _ asid _ hx) hasid
  rw [(flush_pages (PDX UVPT)).1] at hflush
  exact hflush (hxv.trans (Prod.ext hwin hself2))

/-- A valid entry stays, or is flushed, or is a shared one. -/
private theorem Ok.move_pte (h : Ok mc leak s) (hm : Move mc tlbPolicy e asid s s') (hv : v.1 < PDX ULIM)
    (hp : s.pte e' v = some w) (hw : has w PTE_V = true) : s'.pte e' v = some w ∨
      (e' = e ∧ ∀ x ∈ s'.pm.tlb, x.asid = asid → x.vpn ≠ v) ∨ SharedEntry mc v w := by
  by_cases he : e' ≠ e
  · left
    rw [h.pte_congr hv (move_dirs hm he) fun q hq => h.move_frame hm he hq]
    exact hp
  · obtain rfl : e' = e := not_not.1 he
    cases hm with
    | take hl => exact .inl ((h.pte_take hl hv).trans hp)
    | flush => exact .inl hp
    | link hd hi hinv hl =>
      obtain ⟨hne, hwin⟩ := h.not_missing hd hinv hp hw
      exact .inl ((h.pte_link hd hl hv hne hwin).trans hp)
    | @fill D m t pp i j perm hi ht hinv =>
      left
      have hne : v ≠ (i, j) := by
        rintro rfl
        obtain ⟨t', ht', rfl⟩ := pte_user mc hp hi
        obtain rfl := Option.some.inj (ht.symm.trans ht')
        rw [hinv] at hw
        cases hw
      rw [h.pte_setPte (n := m.fill t j pp perm) ht hv hne rfl]
      exact hp
    | @reperm D m t pp va perm hi ht =>
      by_cases hvv : v = VPN va
      · right
        left
        rw [hvv]
        exact ⟨rfl, fun x hx hasid => flushed (m := m) hx hasid⟩
      · left
        rw [h.pte_setPte (n := (m.tlbInvalidate asid va).setWord t (PTX va) (page2pa pp ||| perm ||| PTE_V)) ht hv hvv rfl]
        exact hp
    | @clear D m m' t pp va hi ht hpte hdec =>
      by_cases hvv : v = VPN va
      · right
        left
        rw [hvv]
        exact ⟨rfl, fun x hx hasid => flushed (m := m'.setWord t (PTX va) 0) hx hasid⟩
      · left
        have hword : (m'.setWord t (PTX va) 0).word = Function.update m.word t (Function.update (m.word t) (PTX va) 0) := by
          rw [Pmap.setWord, (pageDecref_word hdec).1]
        have hsame := h.pte_setPte (n := m'.setWord t (PTX va) 0) ht hv hvv hword
        exact hsame.trans hp
    | newDir hD hs =>
      obtain ⟨d, t, hd, -⟩ := pte_eq_some.1 hp
      cases hD.symm.trans hd
    | dropTable hd hi ht hempty hdec =>
      rcases h.dropTable_pte hd hi ht hempty hdec hv hp hw with hp' | hflush
      · exact .inl hp'
      · exact .inr (.inl ⟨rfl, hflush⟩)
    | dropDir hd hempty hpol hdec =>
      rcases h.dropDir_pte hd hempty hpol hdec hv hp hw with hflush | hshared
      · exact .inr (.inl ⟨rfl, hflush⟩)
      · exact .inr (.inr hshared)

/-- What is stored for a page is the word that was written there, or it is an old one. -/
private theorem Ok.setPte_cases {n : Pmap} {x : Word} (h : Ok mc leak ⟨D, m⟩)
    (ht : Mos.target mc D m.word (.pde e i) = some t)
    (hv : v.1 < PDX ULIM) (hword : n.word = Function.update m.word t (Function.update (m.word t) j x))
    (hp : Mem.pte ⟨D, n⟩ e v = some w) : Mem.pte ⟨D, m⟩ e v = some w ∨ w = x := by
  by_cases hvv : v = (i, j)
  · right
    rw [hvv, h.pte_setPte_self ht hword] at hp
    exact (Option.some.inj hp).symm
  · left
    rw [h.pte_setPte ht hv hvv hword] at hp
    exact hp

/-- A valid entry below `UTOP` is an old one, or it is not global. -/
private theorem Ok.move_priv (h : Ok mc leak s) (hm : Move mc tlbPolicy e asid s s') (hv : v.1 < PDX UTOP)
    (hp : s'.pte e' v = some w) (hw : has w PTE_V = true) : s.pte e' v = some w ∨ has w PTE_G = false := by
  have hv' : v.1 < PDX ULIM := lt_of_lt_of_le hv (by decide)
  by_cases he : e' ≠ e
  · left
    rw [← hp]
    exact (h.pte_congr hv' (move_dirs hm he) fun q hq => h.move_frame hm he hq).symm
  · obtain rfl : e' = e := not_not.1 he
    have hwin : ∀ i : Idx, v ≠ (PDX UVPT, i) := by
      rintro i rfl
      exact absurd hv (show ¬PDX UVPT < PDX UTOP by decide)
    cases hm with
    | take hl => exact .inl ((h.pte_take hl hv').symm.trans hp)
    | flush => exact .inl hp
    | @link D m d t i rest hd hi hinv hl =>
      left
      have hne : v.1 ≠ i := by
        rintro rfl
        rw [h.pte_link_self hd hl] at hp
        obtain rfl := Option.some.inj hp
        simp at hw
      exact (h.pte_link hd hl hv' hne (hwin i)).symm.trans hp
    | @fill D m t pp i j perm hi ht hinv hpp hfree hbits hmax hpol =>
      refine (h.setPte_cases (n := m.fill t j pp perm) ht hv' rfl hp).imp_right ?_
      rintro rfl
      rw [entry_G]
      exact hpol
    | @reperm D m t pp va perm hi ht hpte hbits hpol =>
      refine (h.setPte_cases (n := (m.tlbInvalidate asid va).setWord t (PTX va) (page2pa pp ||| perm ||| PTE_V)) ht hv' rfl
        hp).imp_right ?_
      rintro rfl
      rw [entry_G]
      exact hpol
    | @clear D m m' t pp va hi ht hpte hdec =>
      have hword : (m'.setWord t (PTX va) 0).word = Function.update m.word t (Function.update (m.word t) (PTX va) 0) := by
        rw [Pmap.setWord, (pageDecref_word hdec).1]
      refine (h.setPte_cases (n := m'.setWord t (PTX va) 0) ht hv' hword hp).imp_right ?_
      rintro rfl
      simp at hw
    | newDir hD hs =>
      obtain ⟨rest, hl, rfl⟩ := Pmap.envSetupVm_cases hs
      rw [pte_newDir_none hv] at hp
      cases hp
    | @dropTable D m m' d t i hd hi ht hempty hdec =>
      left
      have hword : m'.word = Function.update m.word d (Function.update (m.word d) i 0) := (pageDecref_word hdec).1
      have hne : v.1 ≠ i := by
        rintro rfl
        have hnone : Mem.pte ⟨D, m'⟩ e' v = none := pte_setPde_none hd hword
        cases hnone.symm.trans hp
      exact (h.pte_setPde hd hv' hne (hwin i) hword).symm.trans hp
    | @dropDir D m m' d hd hempty hpol hdec =>
      obtain ⟨d', t, hd', -⟩ := pte_eq_some.1 hp
      have hnone : Function.update D e' none e' = none := Function.update_self ..
      cases hnone.symm.trans hd'

end Mem

namespace TlbOk

open Mem

variable {mc : Machine} {leak : Nat → Nat} {A A' : EnvPtr → Asid} {s s' : Mem} {e : EnvPtr}

/-- A step for `e` that flushes for the ASID of `e`, which no other environment has. -/
private theorem move (h : TlbOk mc A s) (hok : Mem.Ok mc leak s) (hm : Move mc tlbPolicy e (A e) s s')
    (huniq : ∀ e', e' ≠ e → s.dirs e' ≠ none → A e' ≠ A e) : TlbOk mc A s' where
  asids e₁ e₂ h₁ h₂ heq := by
    by_contra hne
    by_cases he₁ : e₁ = e
    · have he₂ : e₂ ≠ e := fun he => hne (he₁.trans he.symm)
      rw [move_dirs hm he₂] at h₂
      exact huniq e₂ he₂ h₂ (by rw [← heq, he₁])
    · rw [move_dirs hm he₁] at h₁
      by_cases he₂ : e₂ = e
      · exact huniq e₁ he₁ h₁ (by rw [heq, he₂])
      · rw [move_dirs hm he₂] at h₂
        exact hne (h.asids e₁ e₂ h₁ h₂ heq)
  own t ht := by
    obtain ⟨hlow, hv, hown⟩ := h.own t (move_tlb hm ht)
    refine ⟨hlow, hv, ?_⟩
    rcases hown with hs | ⟨hG, e', he', hp⟩
    · exact .inl hs
    · rcases hok.move_pte hm hlow hp hv with hp' | ⟨rfl, hflush⟩ | hs
      · exact .inr ⟨hG, e', he', hp'⟩
      · exact absurd rfl (hflush t ht he'.symm)
      · exact .inl hs
  priv e' v w hv hp hw := by
    rcases hok.move_priv hm hv hp hw with hp' | hG
    · exact h.priv e' v w hv hp' hw
    · exact hG

theorem moves (h : TlbOk mc A s) (hok : Mem.Ok mc leak s) (hm : Moves mc tlbPolicy e (A e) s s')
    (huniq : ∀ e', e' ≠ e → s.dirs e' ≠ none → A e' ≠ A e) : TlbOk mc A s' := by
  induction hm with
  | refl => exact h
  | tail hm₁ hm₂ ih =>
    obtain ⟨leak₁, h₁, -⟩ := hok.moves hm₁
    refine ih.move h₁ hm₂ fun e' he hd => huniq e' he ?_
    rwa [(hok.moves_frame hm₁ he).1] at hd

/-- Only the ASIDs of environments with a directory matter. -/
theorem congr (h : TlbOk mc A s) (hA : ∀ e, s.dirs e ≠ none → A' e = A e) : TlbOk mc A' s where
  asids e e' hd hd' heq := h.asids e e' hd hd' (by rw [← hA e hd, ← hA e' hd', heq])
  own t ht := by
    obtain ⟨hlow, hv, hown⟩ := h.own t ht
    refine ⟨hlow, hv, hown.imp id ?_⟩
    rintro ⟨hG, e, he, hp⟩
    refine ⟨hG, e, ?_, hp⟩
    rw [hA e, he]
    obtain ⟨d, _, hd, -⟩ := pte_eq_some.1 hp
    rw [hd]
    exact nofun
  priv := h.priv

/-- Fewer entries in the TLB. -/
theorem evict (h : TlbOk mc A s) {tlb : List TlbEntry} (hsub : tlb ⊆ s.pm.tlb) :
    TlbOk mc A ⟨s.dirs, { s.pm with tlb := tlb }⟩ :=
  ⟨h.asids, fun t ht => h.own t (hsub ht), h.priv⟩

/-- The entry that a refill writes is the one that is stored. -/
theorem write (h : TlbOk mc A s) (hok : Mem.Ok mc leak s) {v : Vpn} {w : Word} (hv : v.1 < PDX ULIM)
    (hp : s.pte e v = some w) (hw : has w PTE_V = true) :
    TlbOk mc A ⟨s.dirs, { s.pm with tlb := ⟨v, A e, w⟩ :: s.pm.tlb }⟩ where
  asids := h.asids
  own t ht := by
    rcases List.mem_cons.1 ht with rfl | ht
    · refine ⟨hv, hw, ?_⟩
      by_cases hlow : v.1 < PDX UTOP
      · exact .inr ⟨h.priv e v w hlow hp hw, e, rfl, hp⟩
      · by_cases hwin : v.1 = PDX UVPT
        · -- the entry is one of the directory
          right
          refine ⟨?_, e, rfl, hp⟩
          obtain ⟨d, t, hd, hent, rfl⟩ := pte_eq_some.1 hp
          obtain ⟨hself, -⟩ := hok.tree.self e d hd
          rw [hwin, hself, entry_self (hok.tree.lt (.dir e) d hd)] at hent
          obtain rfl := Option.some.inj hent
          exact hok.pde_G hd hw
        · left
          refine hok.shared_of_pte hp ?_
          cases hu : userIdx v.1 with
          | true =>
            have hcase : PDX ULIM ≤ v.1 ∧ v.1 ≠ PDX KSEG2 := by simpa [userIdx, hlow] using hu
            exact absurd hv (not_lt.2 hcase.1)
          | false =>
            rcases special_idx hu with heq | heq | heq | heq
            · exact .inl heq
            · exact .inr (.inl heq)
            · exact absurd heq hwin
            · rw [heq] at hv
              exact absurd hv (by decide)
    · exact h.own t ht
  priv := h.priv

end TlbOk

end Mos
