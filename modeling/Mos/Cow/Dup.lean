import Mos.Cow.Kernel

/-!
# `duppage`

A page that is mapped already is mapped once more: `Remapped` says what `page_insert` does then to the pages of all
environments.  With `duppage` this happens twice, once for the child and once for the parent, and so the store copies the page;
where there is no memory for a page table of the child, only the parent loses the right to write it.
-/

namespace Mos

open Cow

namespace Mem

/-- The page `v` of `y` gets the entry `o`, or none; the other pages, and what the pages hold, stay. -/
structure Remapped (s : Mem) (y : EnvPtr) (v : Vpn) (o : Option Word) (s' : Mem) : Prop where
  self : s'.user y v = o
  other : ∀ x u, u.1 < PDX UTOP → (x, u) ≠ (y, v) → s'.user x u = s.user x u
  content : ∀ x u w, u.1 < PDX UTOP → s.user x u = some w → s'.pm.word (PPN w) = s.pm.word (PPN w)

variable {mc : Machine} {leak : Nat → Nat} {s s' : Mem} {D : Dirs} {m m' : Pmap} {e x y : EnvPtr} {asid : Asid}
  {d p q : Nat} {u v : Vpn} {w w' perm va r : Word} {o : Option Word}

theorem Remapped.map_other (h : Remapped s y v o s') (hxu : (x, u) ≠ (y, v)) : s'.store.map x u = s.store.map x u := by
  rw [store, store]
  dsimp only
  split
  case isTrue hu => rw [h.other x u hu hxu]
  case isFalse => rfl

theorem Remapped.map_self (h : Remapped s y v o s') (hv : v.1 < PDX UTOP) : s'.store.map y v = o.map pteEntry := by
  rw [store_map hv, h.self]

theorem Remapped.store_content {a : Entry Nat} (h : Remapped s y v o s') (ha : s.store.map x u = some a) :
    s'.store.content a.frame = s.store.content a.frame := by
  obtain ⟨hu, w, hw, rfl⟩ := store_map_some.1 ha
  exact h.content x u w hu hw

/-! ### One call of `page_insert` -/

/-- `page_remove` leaves the directory alone. -/
private theorem Ok.pageRemove_dir (h : Ok mc leak ⟨D, m⟩) (hd : D e = some d) (hi : PDX va < PDX UTOP)
    (hr : m.pageRemove d asid va = some m') : m'.word d = m.word d := by
  rcases h.pageRemove_cases hd hi hr with ⟨-, rfl⟩ | ⟨t, q, m₁, ht, -, hdec, rfl⟩
  · rfl
  · have hdt : d ≠ t := by
      rintro rfl
      cases h.tree.tree (.dir e) (.pde e (PDX va)) d trivial hd ht
    have hset : (m₁.setWord t (PTX va) 0).word d = m₁.word d := Function.update_of_ne hdt ..
    exact hset.trans (congrFun (pageDecref_word hdec).1 d)

/-- `page_insert` only fails where nothing is mapped and no page is free. -/
theorem Ok.pageInsert_fails (h : Ok mc leak ⟨D, m⟩) (hd : D e = some d) (hi : PDX va < PDX UTOP) (hr : r ≠ 0)
    (hp : m.pageInsert d asid p va perm = some (r, m')) :
    m.pageFreeList = [] ∧ Mem.user ⟨D, m⟩ e (VPN va) = none := by
  rcases h.pageLookup hd hi with ⟨hnone, -⟩ | ⟨t, q, ht, hpte, -⟩
  · rw [h.pageInsert_eq_fresh hd hi hnone] at hp
    rcases Pmap.pageInsertFresh_cases hp with ⟨_, _, h0, -⟩ | ⟨-, hl, -⟩ | ⟨_, _, _, _, h0, -⟩
    · exact absurd h0 hr
    · exact ⟨hl, user_none_of_target hd hi hnone⟩
    · exact absurd h0 hr
  · rcases h.pageInsert_mapped hd hi ht hpte hp with ⟨m₁, hrem, hp⟩ | ⟨h0, -⟩
    · obtain ⟨-, d', hd', hent⟩ := target_pde_some ht
      obtain rfl := Option.some.inj (hd.symm.trans hd')
      rcases Pmap.pageInsertFresh_cases hp with ⟨_, _, h0, -⟩ | ⟨hnone, -⟩ | ⟨_, _, hnone, -⟩
      · exact absurd h0 hr
      · rw [h.pageRemove_dir hd hi hrem, hent] at hnone
        cases hnone
      · rw [h.pageRemove_dir hd hi hrem, hent] at hnone
        cases hnone
    · exact absurd h0 hr

section

variable (h : Ok mc leak ⟨D, m⟩) (hd : D y = some d) (hi : PDX va < PDX UTOP) (hu : u.1 < PDX UTOP)
  (hw : Mem.user ⟨D, m⟩ x u = some w) (hperm : PPN perm = 0)
  (hmax : m.ppRef (PPN w) ≠ 65535 ∨ ∃ w', Mem.user ⟨D, m⟩ y (VPN va) = some w' ∧ PPN w' = PPN w)
  (hp : m.pageInsert d asid (PPN w) va perm = some (r, m'))

include h hd hi hu hw hperm hmax hp

theorem Ok.again_moves : Moves mc .any y asid ⟨D, m⟩ ⟨D, m'⟩ := by
  have htgt : Mos.target mc D m.word (.pte x u.1 u.2) = some (PPN w) := user_target mc hu hw
  refine h.pageInsert_moves hd hi ⟨h.tree.data_of_pte htgt, h.refs.notMem_free htgt, ?_, trivial, .inr trivial⟩ ?_ hp
  · rw [hperm, Nat.or_zero]
  · refine hmax.imp id ?_
    rintro ⟨w', hw', heq⟩
    rw [← heq]
    exact user_target (s := ⟨D, m⟩) mc hi hw'

/-- A page that is mapped somewhere is mapped by `y`. -/
theorem Ok.again : ∃ o, Inserted (PPN w) perm r o ∧ Remapped ⟨D, m⟩ y (VPN va) o ⟨D, m'⟩ := by
  obtain ⟨o, ho, hst⟩ := h.pageInsert_stores hd hi hp
  refine ⟨o, ho, hst.self, fun z u' hu' hne => ?_, fun z u' w' hu' hw' => ?_⟩
  · by_cases hz : z = y
    · subst hz
      exact hst.other u' hu' fun heq => hne (by rw [heq])
    · exact h.moves_user (h.again_moves hd hi hu hw hperm hmax hp) hz hu'
  · have htgt : Mos.target mc D m.word (.pte z u'.1 u'.2) = some (PPN w') := user_target mc hu' hw'
    exact h.pageInsert_words hd hi hp (h.tree.data_of_pte htgt).notTree (h.refs.notMem_free htgt)

end

/-- Where the page itself is mapped, only the entry is written. -/
private theorem pageInsert_own (hd : D e = some d) (hw : Mem.user ⟨D, m⟩ e (VPN va) = some w)
    (hp : m.pageInsert d asid (PPN w) va perm = some (r, m')) :
    r = 0 ∧ m'.pageFreeList = m.pageFreeList ∧ m'.ppRef = m.ppRef := by
  obtain ⟨hpte, hval⟩ := user_eq_some.1 hw
  obtain ⟨d', t, hd', ht, hword⟩ := pte_eq_some.1 hpte
  obtain rfl := Option.some.inj (hd.symm.trans hd')
  have hent : entry (m.word t (PTX va)) = some (PPN w) := entry_eq_some.2 ⟨hword ▸ hval, congrArg PPN hword⟩
  rcases Pmap.pageInsert_cases hp with ⟨hun, -⟩ | ⟨t', q, _, hmap, hne, -⟩ | ⟨_, -, rfl, rfl⟩
  · rw [hun t ht] at hent
    cases hent
  · obtain rfl := Option.some.inj (hmap.pde.symm.trans ht)
    exact absurd (Option.some.inj (hmap.pte.symm.trans hent)) hne
  · exact ⟨rfl, rfl, rfl⟩

/-- Where nothing is mapped, the page gets one more reference, and a page table may be taken from the free list. -/
private theorem Ok.pageInsert_new (h : Ok mc leak ⟨D, m⟩) (hd : D e = some d) (hi : PDX va < PDX UTOP)
    (hnone : Mem.user ⟨D, m⟩ e (VPN va) = none) (hp : m.pageInsert d asid p va perm = some (r, m')) :
    (∀ q ∈ m'.pageFreeList, q ∈ m.pageFreeList) ∧
      ∀ q ∉ m.pageFreeList, (m'.ppRef q).toNat ≤ (m.ppRef q).toNat + if q = p then 1 else 0 := by
  have hfill : ∀ {n : Pmap} {t : Nat} (q : Nat), ((n.fill t (PTX va) p perm).ppRef q).toNat ≤
      (n.ppRef q).toNat + if q = p then 1 else 0 := by
    intro n t q
    rw [Pmap.fill, Pmap.setRef]
    dsimp only
    split
    case isTrue hq =>
      rw [hq, Function.update_self, BitVec.toNat_add]
      exact Nat.mod_le ..
    case isFalse hq =>
      rw [Function.update_of_ne hq]
      exact le_refl _
  rw [h.pageInsert_eq_fresh hd hi (target_none_of_user hnone)] at hp
  refine ⟨fun q hq => pageInsertFresh_free h hd hi hp hq, fun q hq => ?_⟩
  rcases Pmap.pageInsertFresh_cases hp with ⟨t, -, -, rfl⟩ | ⟨-, -, -, rfl⟩ | ⟨t, rest, -, hl, -, rfl⟩
  · exact hfill q
  · exact Nat.le_add_right ..
  · have hqt : q ≠ t := fun heq => hq (by rw [heq, hl]; exact List.mem_cons_self ..)
    have hlink : ((m.tlbInvalidate asid va).linkTable d t rest (PDX va)).ppRef q = m.ppRef q := Function.update_of_ne hqt ..
    rw [← hlink]
    exact hfill q

/-! ### The permissions -/

/-- The permissions with which `duppage` maps a page. -/
def dupPerm (w : Word) : Word :=
  let perm := w &&& 0xFFF
  if !has perm PTE_D || has perm PTE_LIBRARY || has perm PTE_COW then perm else (perm ^^^ PTE_D) ||| PTE_COW

theorem PPN_flags (w : Word) : PPN (w &&& 0xFFF) = 0 := by
  have hle : (w &&& 0xFFF).toNat ≤ 0xFFF := by
    rw [BitVec.toNat_and]
    exact Nat.and_le_right
  rw [PPN, BitVec.toNat_ushiftRight, Nat.shiftRight_eq_div_pow]
  omega

/-- `perm ^ flag | flag'`. -/
theorem PPN_exchange {perm flag flag' : Word} (hp : PPN perm = 0) (hf : PPN flag = 0) (hf' : PPN flag' = 0) :
    PPN ((perm ^^^ flag) ||| flag') = 0 := by
  have hor : PPN ((perm ^^^ flag) ||| flag') = (PPN perm ^^^ PPN flag) ||| PPN flag' := by
    simp [PPN, BitVec.toNat_or, BitVec.toNat_xor, Nat.shiftRight_or_distrib, Nat.shiftRight_xor_distrib]
  rw [hor, hp, hf, hf']
  rfl

theorem has_flags {w flag : Word} (hf : 0xFFF &&& flag = flag) : has (w &&& 0xFFF) flag = has w flag := by
  rw [has, has, BitVec.and_assoc, hf]

theorem has_exchange (perm : Word) {i j n : Nat} (hi : i < 32) (hj : j < 32) (hn : n < 32) :
    has ((perm ^^^ BitVec.twoPow 32 i) ||| BitVec.twoPow 32 j) (BitVec.twoPow 32 n) =
      ((has perm (BitVec.twoPow 32 n) ^^ decide (i = n)) || decide (j = n)) := by
  rw [has_eq_getLsbD _ n hn, has_eq_getLsbD _ n hn]
  simp [BitVec.getLsbD_or, BitVec.getLsbD_xor, BitVec.getLsbD_twoPow, hi, hj]

private theorem PPN_dupPerm (w : Word) : PPN (dupPerm w) = 0 := by
  unfold dupPerm
  dsimp only
  split
  · exact PPN_flags w
  · exact PPN_exchange (PPN_flags w) (by decide) (by decide)

/-- With them, the entry says that the page was given away. -/
private theorem pteEntry_dup (w : Word) : pteEntry (Pmap.newPte (PPN w) (dupPerm w)) = (pteEntry w).dup := by
  have hbits : PPN w ||| PPN (dupPerm w) = PPN w := by rw [PPN_dupPerm, Nat.or_zero]
  have hD : has (w &&& 0xFFF) PTE_D = has w PTE_D := has_flags (by decide)
  have hL : has (w &&& 0xFFF) PTE_LIBRARY = has w PTE_LIBRARY := has_flags (by decide)
  have hC : has (w &&& 0xFFF) PTE_COW = has w PTE_COW := has_flags (by decide)
  rw [pteEntry_newPte (PPN_lt w) hbits, dupPerm, hD, hL, hC]
  split
  case isTrue hsame =>
    simp only [Bool.or_eq_true, Bool.not_eq_true', or_assoc] at hsame
    rw [Entry.dup_same hsame, hD, hL, hC]
    rfl
  case isFalse hcow =>
    simp only [Bool.or_eq_true, Bool.not_eq_true', not_or, Bool.not_eq_true, Bool.not_eq_false] at hcow
    obtain ⟨⟨hw, hs⟩, hc⟩ := hcow
    have h10 : PTE_D = BitVec.twoPow 32 10 := by decide
    have h0 : PTE_COW = BitVec.twoPow 32 0 := by decide
    have h2 : PTE_LIBRARY = BitVec.twoPow 32 2 := by decide
    have hxD : has (((w &&& 0xFFF) ^^^ PTE_D) ||| PTE_COW) PTE_D = ((has (w &&& 0xFFF) PTE_D ^^ true) || false) := by
      rw [h10, h0]
      exact has_exchange _ (by decide) (by decide) (by decide)
    have hxC : has (((w &&& 0xFFF) ^^^ PTE_D) ||| PTE_COW) PTE_COW = ((has (w &&& 0xFFF) PTE_COW ^^ false) || true) := by
      rw [h10, h0]
      exact has_exchange _ (by decide) (by decide) (by decide)
    have hxL : has (((w &&& 0xFFF) ^^^ PTE_D) ||| PTE_COW) PTE_LIBRARY = ((has (w &&& 0xFFF) PTE_LIBRARY ^^ false) || false) := by
      rw [h10, h0, h2]
      exact has_exchange _ (by decide) (by decide) (by decide)
    rw [Entry.dup_private hw hs hc, hxD, hxC, hxL, hD, hL, hw, hs]
    simp [pteEntry, hs]

/-- A page with these flags is mapped as it is. -/
private theorem dup_flags (h : (!has (w &&& 0xFFF) PTE_D || has (w &&& 0xFFF) PTE_LIBRARY || has (w &&& 0xFFF) PTE_COW) = true) :
    (pteEntry w).dup = pteEntry w := by
  rw [has_flags (by decide), has_flags (by decide), has_flags (by decide)] at h
  simp only [Bool.or_eq_true, Bool.not_eq_true', or_assoc] at h
  exact Entry.dup_same h

end Mem

/-! ### The calls of `duppage` -/

namespace Kern

variable {mc : Machine} {leak : Nat → Nat} {k k' : Kern} {m m' : Pmap} {cur e y : EnvPtr} {dstid va perm r w : Word} {v : Vpn}
  {p : Nat}

/-- A lookup finds what is mapped. -/
theorem pageLookup_user (hok : Mem.Ok mc leak ⟨k.dirs, m⟩) (hlive : (k.envs e).envStatus ≠ .FREE) (hi : PDX va < PDX UTOP)
    (hw : Mem.user ⟨k.dirs, m⟩ e (VPN va) = some w) : (k.setPm m).pageLookupEnv e va = some (some (PPN w)) := by
  obtain ⟨hp, -⟩ := Mem.user_eq_some.1 hw
  obtain ⟨d, -, hd, -⟩ := Mem.pte_eq_some.1 hp
  have hdir : (k.envs e).envPgdir = some d := (dirs_of_live hlive).symm.trans hd
  have htgt : Mos.target mc k.dirs m.word (.pte e (PDX va) (PTX va)) = some (PPN w) := Mem.user_target mc (s := ⟨k.dirs, m⟩) hi hw
  rcases hok.pageLookup hd hi with ⟨hnone, -⟩ | ⟨t, q, ht, hpte, hl⟩
  · rw [hnone] at htgt
    cases htgt
  · rw [target_pte ht hi, hpte] at htgt
    obtain rfl := Option.some.inj htgt
    simp [pageLookupEnv, hdir, hl]

private theorem legal_lt (hva : isIllegalVa (pageVa v) = false) : v.1 < PDX UTOP := by
  have hi : PDX (pageVa v) < PDX UTOP := Mem.PDX_lt_of_lt (MemOk.lt_of_legal hva)
  rwa [show PDX (pageVa v) = v.1 from congrArg Prod.fst (VPN_pageVa v)] at hi

private theorem memMap_illegal {srcid srcva : Word} (hva : isIllegalVa srcva = true) :
    returning (k.sysMemMap cur srcid srcva dstid va perm) = some (-E_INVAL, k) := by
  rw [returning_eq_some, sysMemMap, hva]
  rfl

/-- A page of its own that `cur` maps for `y`. -/
theorem memMap_own {srcva : Word} (hok : Mem.Ok mc leak ⟨k.dirs, m⟩) (hlive : (k.envs cur).envStatus ≠ .FREE)
    (hsrcva : isIllegalVa srcva = false) (hva : isIllegalVa va = false) (hy : k.envid2env cur dstid true = some y)
    (hw : Mem.user ⟨k.dirs, m⟩ cur (VPN srcva) = some w)
    (h : returning ((k.setPm m).sysMemMap cur 0 srcva dstid va perm) = some (r, k')) :
    ∃ d m', k.dirs y = some d ∧ m.pageInsert d (k.envs y).envAsid (PPN w) va perm = some (r, m') ∧ k' = k.setPm m' := by
  have hi : PDX srcva < PDX UTOP := Mem.PDX_lt_of_lt (MemOk.lt_of_legal hsrcva)
  have hsrc : (k.setPm m).envid2env cur 0 true = some cur := envid2env_zero ..
  have hdst : (k.setPm m).envid2env cur dstid true = some y := hy
  have h := returning_eq_some.1 h
  rw [sysMemMap, hsrcva, hva, hsrc] at h
  dsimp only at h
  rw [hdst, pageLookup_user hok hlive hi hw] at h
  obtain ⟨⟨r₁, k₁⟩, hret, heq⟩ := Option.map_eq_some_iff.1 h
  simp only [Prod.mk.injEq, Option.some.injEq] at heq
  obtain ⟨rfl, rfl⟩ := heq
  obtain ⟨d, m', hd, hins, rfl⟩ := pageInsertEnv_cases hret
  exact ⟨d, m', (dirs_of_live (envid2env_live hlive hy)).trans hd, hins, rfl⟩

private theorem memMap_badEnv (hva : isIllegalVa va = false) (hy : k.envid2env cur dstid true = none) :
    returning (k.sysMemMap cur 0 va dstid va perm) = some (-E_BAD_ENV, k) := by
  rw [returning_eq_some, sysMemMap, hva, envid2env_zero]
  dsimp only
  rw [hy]
  rfl

/-- Where nothing may be mapped, nothing is. -/
theorem duppage_illegal (hva : isIllegalVa (pageVa v) = true) (h : duppage cur dstid v k = some k') : k' = k := by
  obtain ⟨pte, -, h⟩ := Option.bind_eq_some_iff.1 h
  dsimp only at h
  split at h
  case isTrue =>
    rw [memMap_illegal hva] at h
    exact (Option.some.inj h).symm
  case isFalse =>
    rw [memMap_illegal hva, Option.bind_some] at h
    dsimp only at h
    rw [memMap_illegal hva] at h
    exact (Option.some.inj h).symm

/-- The page `v` of `cur`, with the frame `p`, after `duppage` for the environment `y`. -/
structure DupPage (mc : Machine) (k : Kern) (cur : EnvPtr) (y : Option EnvPtr) (v : Vpn) (p : Nat) (m m' : Pmap) : Prop where
  ok : ∃ leak, Mem.Ok mc leak ⟨k.dirs, m'⟩
  store : (Store.Demotes (Mem.store ⟨k.dirs, m⟩) cur v (Mem.store ⟨k.dirs, m'⟩) ∧
      ∀ e, y = some e → m.pageFreeList = [] ∧ Mem.user ⟨k.dirs, m⟩ e v = none) ∨
    ∃ e, y = some e ∧ Store.Copies (Mem.store ⟨k.dirs, m⟩) cur e v (Mem.store ⟨k.dirs, m'⟩)
  count : (∀ e, y = some e → Mem.user ⟨k.dirs, m⟩ e v = none) → (∀ q ∈ m'.pageFreeList, q ∈ m.pageFreeList) ∧
    ∀ q ∉ m.pageFreeList, (m'.ppRef q).toNat ≤ (m.ppRef q).toNat + if q = p then 1 else 0

section

variable (hok : Mem.Ok mc leak ⟨k.dirs, m⟩) (hlive : (k.envs cur).envStatus ≠ .FREE) (hva : isIllegalVa (pageVa v) = false)
  (hw : Mem.user ⟨k.dirs, m⟩ cur v = some w)

include hok hlive hva hw

/-- The parent maps its page again. -/
private theorem dup_parent (h : returning ((k.setPm m).sysMemMap cur 0 (pageVa v) 0 (pageVa v) (Mem.dupPerm w)) = some (r, k')) :
    ∃ m', k' = k.setPm m' ∧ (∃ leak', Mem.Ok mc leak' ⟨k.dirs, m'⟩) ∧
      Mem.Remapped ⟨k.dirs, m⟩ cur v (some (Pmap.newPte (PPN w) (Mem.dupPerm w))) ⟨k.dirs, m'⟩ ∧
      m'.pageFreeList = m.pageFreeList ∧ m'.ppRef = m.ppRef := by
  have hi : PDX (pageVa v) < PDX UTOP := Mem.PDX_lt_of_lt (MemOk.lt_of_legal hva)
  have hw₁ : Mem.user ⟨k.dirs, m⟩ cur (VPN (pageVa v)) = some w := by rwa [VPN_pageVa]
  obtain ⟨d, m', hd, hins, rfl⟩ := memMap_own hok hlive hva hva (envid2env_zero ..) hw₁ h
  obtain ⟨rfl, hfree, href⟩ := Mem.pageInsert_own hd hw₁ hins
  have hmoves := hok.again_moves hd hi hi hw₁ (Mem.PPN_dupPerm w) (.inr ⟨w, hw₁, rfl⟩) hins
  obtain ⟨o, ho, hmap⟩ := hok.again hd hi hi hw₁ (Mem.PPN_dupPerm w) (.inr ⟨w, hw₁, rfl⟩) hins
  obtain ⟨leak', hok', -⟩ := hok.moves hmoves
  cases ho
  rw [VPN_pageVa] at hmap
  exact ⟨m', rfl, ⟨leak', hok'⟩, hmap, hfree, href⟩

variable (hne : k.envid2env cur dstid true ≠ some cur) (hmax : m.ppRef (PPN w) ≠ 65535)

include hne hmax

/-- The page is mapped by the child, or nothing happens. -/
private theorem dup_child (h : returning ((k.setPm m).sysMemMap cur 0 (pageVa v) dstid (pageVa v) (Mem.dupPerm w)) = some (r, k')) :
    ∃ m', k' = k.setPm m' ∧ (∃ leak', Mem.Ok mc leak' ⟨k.dirs, m'⟩) ∧ Mem.user ⟨k.dirs, m'⟩ cur v = some w ∧
      ((Mem.Remapped ⟨k.dirs, m⟩ cur v (some w) ⟨k.dirs, m'⟩ ∧ ∀ e, k.envid2env cur dstid true = some e →
          m.pageFreeList = [] ∧ Mem.user ⟨k.dirs, m⟩ e v = none) ∨
        ∃ e, k.envid2env cur dstid true = some e ∧
          Mem.Remapped ⟨k.dirs, m⟩ e v (some (Pmap.newPte (PPN w) (Mem.dupPerm w))) ⟨k.dirs, m'⟩) ∧
      ((∀ e, k.envid2env cur dstid true = some e → Mem.user ⟨k.dirs, m⟩ e v = none) →
        (∀ q ∈ m'.pageFreeList, q ∈ m.pageFreeList) ∧
          ∀ q ∉ m.pageFreeList, (m'.ppRef q).toNat ≤ (m.ppRef q).toNat + if q = PPN w then 1 else 0) := by
  have hi : PDX (pageVa v) < PDX UTOP := Mem.PDX_lt_of_lt (MemOk.lt_of_legal hva)
  have hw₁ : Mem.user ⟨k.dirs, m⟩ cur (VPN (pageVa v)) = some w := by rwa [VPN_pageVa]
  cases hy : k.envid2env cur dstid true with
  | none =>
    have hy₁ : (k.setPm m).envid2env cur dstid true = none := hy
    rw [memMap_badEnv hva hy₁] at h
    simp only [Option.some.injEq, Prod.mk.injEq] at h
    refine ⟨m, h.2.symm, ⟨leak, hok⟩, hw, .inl ⟨⟨hw, fun _ _ _ _ => rfl, fun _ _ _ _ _ => rfl⟩, nofun⟩, fun _ => ?_⟩
    exact ⟨fun _ hq => hq, fun _ _ => Nat.le_add_right ..⟩
  | some y =>
    have hyne : y ≠ cur := fun heq => hne (heq ▸ hy)
    obtain ⟨d, m', hd, hins, rfl⟩ := memMap_own hok hlive hva hva hy hw₁ h
    have hmoves := hok.again_moves hd hi hi hw₁ (Mem.PPN_dupPerm w) (.inl hmax) hins
    obtain ⟨o, ho, hmap⟩ := hok.again hd hi hi hw₁ (Mem.PPN_dupPerm w) (.inl hmax) hins
    obtain ⟨leak', hok', -⟩ := hok.moves hmoves
    rw [VPN_pageVa] at hmap
    have hkeep : Mem.user ⟨k.dirs, m'⟩ cur v = some w :=
      (hmap.other cur v (legal_lt hva) fun heq => hyne (congrArg Prod.fst heq).symm).trans hw
    refine ⟨m', rfl, ⟨leak', hok'⟩, hkeep, ?_, fun hnone => ?_⟩
    · cases ho with
      | ok => exact .inr ⟨y, rfl, hmap⟩
      | full =>
        obtain ⟨hfree, hold⟩ := hok.pageInsert_fails hd hi (by decide) hins
        rw [VPN_pageVa] at hold
        refine .inl ⟨⟨hkeep, fun x u hu hxu => ?_, hmap.content⟩, fun e he => ?_⟩
        · by_cases hxy : (x, u) = (y, v)
          · obtain ⟨rfl, rfl⟩ := Prod.mk.inj hxy
            rw [hmap.self, hold]
          · exact hmap.other x u hu hxy
        · obtain rfl := Option.some.inj he
          exact ⟨hfree, hold⟩
    · exact hok.pageInsert_new hd hi (by rw [VPN_pageVa]; exact hnone y rfl) hins

/-- `duppage` gives the page to the child, or at least takes the right to write it from the parent. -/
theorem duppage_spec (h : duppage cur dstid v (k.setPm m) = some k') :
    ∃ m', k' = k.setPm m' ∧ DupPage mc k cur (k.envid2env cur dstid true) v (PPN w) m m' := by
  have hv : v.1 < PDX UTOP := legal_lt hva
  obtain ⟨hvpt, -⟩ := vpt_of_user (k := k.setPm m) hlive hw
  have hold : (Mem.store ⟨k.dirs, m⟩).map cur v = some (pteEntry w) := by
    rw [Mem.store_map hv, hw]
    rfl
  have hfirst : ∃ r k₁, returning ((k.setPm m).sysMemMap cur 0 (pageVa v) dstid (pageVa v) (Mem.dupPerm w)) = some (r, k₁) ∧
      ((pteEntry w).dup = pteEntry w ∧ k' = k₁ ∨ ∃ r',
        returning (k₁.sysMemMap cur 0 (pageVa v) 0 (pageVa v) (Mem.dupPerm w)) = some (r', k')) := by
    rw [duppage, hvpt, Option.bind_some] at h
    dsimp only at h
    split at h
    case isTrue hsame =>
      obtain ⟨⟨r, k₁⟩, hmap, rfl⟩ := Option.map_eq_some_iff.1 h
      rw [Mem.dupPerm, if_pos hsame]
      exact ⟨r, k₁, hmap, .inl ⟨Mem.dup_flags hsame, rfl⟩⟩
    case isFalse hcow =>
      obtain ⟨⟨r, k₁⟩, hmap, h⟩ := Option.bind_eq_some_iff.1 h
      obtain ⟨⟨r', k₂⟩, hmap', rfl⟩ := Option.map_eq_some_iff.1 h
      rw [Mem.dupPerm, if_neg hcow]
      exact ⟨r, k₁, hmap, .inr ⟨r', hmap'⟩⟩
  obtain ⟨r, k₁, hchild, hparent⟩ := hfirst
  obtain ⟨m₁, rfl, ⟨leak₁, hok₁⟩, hw₁, hmap₁, hcount₁⟩ := dup_child hok hlive hva hw hne hmax hchild
  -- in both cases the page of the parent has the entry of a page that was given away
  have hsecond : ∃ m' w', k' = k.setPm m' ∧ (∃ leak', Mem.Ok mc leak' ⟨k.dirs, m'⟩) ∧ pteEntry w' = (pteEntry w).dup ∧
      Mem.Remapped ⟨k.dirs, m₁⟩ cur v (some w') ⟨k.dirs, m'⟩ ∧ m'.pageFreeList = m₁.pageFreeList ∧ m'.ppRef = m₁.ppRef := by
    rcases hparent with ⟨hsame, rfl⟩ | ⟨r', hagain⟩
    · exact ⟨m₁, w, rfl, ⟨leak₁, hok₁⟩, hsame.symm, ⟨hw₁, fun _ _ _ _ => rfl, fun _ _ _ _ _ => rfl⟩, rfl, rfl⟩
    · obtain ⟨m', rfl, hok', hmap, hfree, href⟩ := dup_parent hok₁ hlive hva hw₁ hagain
      exact ⟨m', _, rfl, hok', Mem.pteEntry_dup w, hmap, hfree, href⟩
  obtain ⟨m', w', rfl, hok', hdup, hmap, hfree, href⟩ := hsecond
  refine ⟨m', rfl, hok', ?_, fun hnone => ?_⟩
  · rcases hmap₁ with ⟨hnot, hfull⟩ | ⟨e, he, hgiven⟩
    · refine .inl ⟨⟨⟨pteEntry w, hold, ?_⟩, fun x u hxu => ?_, fun x u a ha => ?_⟩, hfull⟩
      · rw [hmap.map_self hv, ← hdup]
        rfl
      · rw [hmap.map_other hxu, hnot.map_other hxu]
      · have hstay : (Mem.store ⟨k.dirs, m₁⟩).map x u = some a := by
          by_cases hxu : (x, u) = (cur, v)
          · obtain ⟨rfl, rfl⟩ := Prod.mk.inj hxu
            rw [hnot.map_self hv, ← ha, hold]
            rfl
          · rw [hnot.map_other hxu, ha]
        exact (hmap.store_content hstay).trans (hnot.store_content ha)
    · have hecur : e ≠ cur := fun heq => hne (heq ▸ he)
      have hev : (e, v) ≠ (cur, v) := fun heq => hecur (congrArg Prod.fst heq)
      refine .inr ⟨e, he, hecur, ⟨pteEntry w, hold, ?_, ?_⟩, fun x u hxu hxe => ?_, fun x u a hxe ha => ?_⟩
      · rw [hmap.map_self hv, ← hdup]
        rfl
      · rw [hmap.map_other hev, hgiven.map_self hv, ← Mem.pteEntry_dup]
        rfl
      · rw [hmap.map_other hxu, hgiven.map_other hxe]
      · have hstay : (Mem.store ⟨k.dirs, m₁⟩).map x u = some a := by rw [hgiven.map_other hxe, ha]
        exact (hmap.store_content hstay).trans (hgiven.store_content ha)
  · rw [hfree, href]
    exact hcount₁ hnone

end

end Kern

end Mos
