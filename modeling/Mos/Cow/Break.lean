import Mos.Cow.Dup

/-!
# `cow_entry`, and stores that need no handler

The copy is made at `UCOW`: a new page is filled there, mapped over the old one, and unmapped again.  In the store the page gets
a frame of its own.  A store of user code that the TLB lets through writes one word of one page.
-/

namespace Mos

open Cow

namespace Mem

variable {mc : Machine} {leak : Nat → Nat} {D : Dirs} {m m' : Pmap} {e : EnvPtr} {asid : Asid} {d p : Nat} {v : Vpn}
  {perm va r : Word} {rest : List Nat}

/-! ### A new page, and one page less -/

/-- A free page is mapped. -/
private theorem Ok.take_remapped (h : Ok mc leak ⟨D, m⟩) (hd : D e = some d) (hi : PDX va < PDX UTOP)
    (hl : m.pageFreeList = p :: rest)
    (hperm : PPN perm = 0) (hp : (m.take p rest).pageInsert d asid p va perm = some (0, m')) :
    (∃ leak', Ok mc leak' ⟨D, m'⟩) ∧ m'.ppRef p = 1 ∧
      Remapped ⟨D, m⟩ e (VPN va) (some (Pmap.newPte p perm)) ⟨D, m'⟩ := by
  have hfresh := h.fresh (q := p) (by rw [hl]; exact List.mem_cons_self ..)
  obtain ⟨hok', hputs, -, href, hother⟩ := h.map_new (f := fun _ => 0) hd hi hl hperm hp
  refine ⟨hok', href, hputs.self, fun x u hu hxu => ?_, fun x u w hu hw => ?_⟩
  · by_cases hx : x = e
    · subst hx
      exact hputs.user u hu fun heq => hxu (by rw [heq])
    · exact (hother x u hx hu).1
  · have htgt : Mos.target mc D m.word (.pte x u.1 u.2) = some (PPN w) := user_target mc hu hw
    have hne : PPN w ≠ p := fun heq => hfresh.unused _ (heq ▸ htgt)
    have htake : (m.take p rest).word (PPN w) = m.word (PPN w) := Function.update_of_ne hne ..
    have hsame : Mos.target mc D (m.take p rest).word = Mos.target mc D m.word := target_fresh hfresh.notTree _
    refine ((h.take hl).pageInsert_words hd hi hp (fun s hs => ?_) fun hmem => ?_).trans htake
    · rw [hsame]
      exact (h.tree.data_of_pte htgt).notTree s hs
    · exact h.refs.notMem_free htgt (hl ▸ List.mem_cons_of_mem p hmem)

/-- A page is unmapped. -/
private theorem Ok.remove_remapped (h : Ok mc leak ⟨D, m⟩) (hd : D e = some d) (hi : PDX va < PDX UTOP)
    (hr : m.pageRemove d asid va = some m') : (∃ leak', Ok mc leak' ⟨D, m'⟩) ∧ Remapped ⟨D, m⟩ e (VPN va) none ⟨D, m'⟩ := by
  have hmoves : Moves mc .any e asid ⟨D, m⟩ ⟨D, m'⟩ := h.pageRemove_moves hd hi hr
  obtain ⟨leak', h', -⟩ := h.moves hmoves
  have hst := h.pageRemove_stores hd hi hr
  refine ⟨⟨leak', h'⟩, hst.self, fun x u hu hxu => ?_, fun x u w hu hw => ?_⟩
  · by_cases hx : x = e
    · subst hx
      exact hst.other u hu fun heq => hxu (by rw [heq])
    · exact h.moves_user hmoves hx hu
  · have htgt : Mos.target mc D m.word (.pte x u.1 u.2) = some (PPN w) := user_target mc hu hw
    exact h.pageRemove_word hd hi hr (h.tree.data_of_pte htgt).notTree

/-- The frame `p` is filled with the content of the page `v`, while it is mapped at `u`; it is mapped at `v` then, and no longer
at `u`. -/
private theorem Remapped.breaks {s s₁ s₂ s₃ s₄ : Mem} {u : Vpn} {w w' : Word} (h₁ : Remapped s e u (some w') s₁)
    (h₂ : ∀ x v, v.1 < PDX UTOP → s₂.user x v = s₁.user x v) (hcopy : s₂.pm.word p = s₁.pm.word (PPN w))
    (hword : ∀ q, q ≠ p → s₂.pm.word q = s₁.pm.word q) (h₃ : Remapped s₂ e v (some w') s₃) (h₄ : Remapped s₃ e u none s₄)
    (hne : v ≠ u) (hv : v.1 < PDX UTOP) (hu : u.1 < PDX UTOP) (hw : s.user e v = some w)
    (hfresh : ∀ x v a, s.store.map x v = some a → a.frame ≠ p) (hent : pteEntry w' = ⟨p, true, false, has w PTE_LIBRARY⟩) :
    Store.Breaks s.store e v u s₄.store := by
  have hvu : (e, v) ≠ (e, u) := fun heq => hne (congrArg Prod.snd heq)
  have hppn : PPN w' = p := congrArg Entry.frame hent
  have hmap₂ : s₂.store.map = s₁.store.map := store_congr h₂
  have hother : ∀ x z, (x = e → z ≠ v ∧ z ≠ u) → s₁.store.map x z = s.store.map x z ∧
      s₃.store.map x z = s.store.map x z ∧ s₄.store.map x z = s.store.map x z := by
    intro x z hxz
    have hxv : (x, z) ≠ (e, v) := fun heq => (hxz (congrArg Prod.fst heq)).1 (congrArg Prod.snd heq)
    have hxu : (x, z) ≠ (e, u) := fun heq => (hxz (congrArg Prod.fst heq)).2 (congrArg Prod.snd heq)
    have hmap₁ := h₁.map_other hxu
    have hmap₃ : s₃.store.map x z = s.store.map x z := by rw [h₃.map_other hxv, hmap₂, hmap₁]
    exact ⟨hmap₁, hmap₃, by rw [h₄.map_other hxu, hmap₃]⟩
  have hself : s₄.store.map e v = some (pteEntry w') := by
    rw [h₄.map_other hvu, h₃.map_self hv]
    rfl
  have hold : s.store.map e v = some (pteEntry w) := by
    rw [store_map hv, hw]
    rfl
  -- the content of the new frame, from the copy on
  have hcontent : s₄.pm.word p = s.pm.word (PPN w) := by
    have hu₂ : s₂.user e u = some w' := (h₂ e u hu).trans h₁.self
    have hword₄ := h₄.content e v w' hv h₃.self
    have hword₃ := h₃.content e u w' hu hu₂
    rw [hppn] at hword₄ hword₃
    rw [hword₄, hword₃, hcopy, h₁.content e v w hv hw]
  refine ⟨⟨pteEntry w, pteEntry w', hold, hself, ?_, ?_, ?_, ⟨fun x z b _ hb => ?_, fun z b hz hb => ?_, fun _ _ => ?_⟩, ?_⟩, ?_,
    fun x z hxz => (hother x z hxz).2.2, fun x z a hxz ha => ?_⟩
  · rw [hent]
    rfl
  · rw [hent]
  · rw [hent]
  · rw [hent]
    exact hfresh x z b hb
  · by_cases hzu : z = u
    · subst hzu
      rw [h₄.map_self hu] at hb
      cases hb
    · rw [(hother e z fun _ => ⟨hz, hzu⟩).2.2] at hb
      rw [hent]
      exact hfresh e z b hb
  · rw [hent]
  · rw [hent]
    exact hcontent
  · rw [h₄.map_self hu]
    rfl
  · obtain ⟨h1, h3, -⟩ := hother x z hxz
    have hc₁ := h₁.store_content ha
    have hc₂ : s₂.store.content a.frame = s₁.store.content a.frame := hword a.frame (hfresh x z a ha)
    have hc₃ := h₃.store_content (by rw [hmap₂, h1, ha] : s₂.store.map x z = some a)
    have hc₄ := h₄.store_content (by rw [h3, ha] : s₃.store.map x z = some a)
    rw [hc₄, hc₃, hc₂, hc₁]

end Mem

namespace Kern

variable {mc : Machine} {leak : Nat → Nat} {k k' : Kern} {m m' : Pmap} {cur : EnvPtr} {va perm r w : Word} {p : Nat}

/-! ### Calls for the caller itself -/

private theorem memAlloc_own (hlive : (k.envs cur).envStatus ≠ .FREE) (hva : isIllegalVa va = false)
    (h : returning ((k.setPm m).sysMemAlloc cur 0 va perm) = some (r, k')) :
    (m.pageFreeList = [] ∧ k' = k.setPm m) ∨ ∃ p rest d m', m.pageFreeList = p :: rest ∧ k.dirs cur = some d ∧
      (m.take p rest).pageInsert d (k.envs cur).envAsid p va perm = some (r, m') ∧ k' = k.setPm m' := by
  have h := returning_eq_some.1 h
  rw [sysMemAlloc, hva, if_neg Bool.false_ne_true, envid2env_zero] at h
  dsimp only at h
  split at h
  case h_1 hp =>
    simp only [Option.some.injEq, Prod.mk.injEq] at h
    refine .inl ⟨?_, h.1.symm⟩
    cases hl : m.pageFreeList with
    | nil => rfl
    | cons q rest =>
      have hp : m.pageAlloc = none := hp
      rw [Pmap.pageAlloc, hl] at hp
      cases hp
  case h_2 p pm hp =>
    obtain ⟨⟨r₁, k₁⟩, hret, heq⟩ := Option.map_eq_some_iff.1 h
    simp only [Prod.mk.injEq, Option.some.injEq] at heq
    obtain ⟨rfl, rfl⟩ := heq
    obtain ⟨rest, hl, rfl⟩ := Pmap.pageAlloc_cases hp
    obtain ⟨d, m', hd, hins, rfl⟩ := pageInsertEnv_cases hret
    exact .inr ⟨p, rest, d, m', hl, (dirs_of_live hlive).trans hd, hins, rfl⟩

private theorem memUnmap_own (hlive : (k.envs cur).envStatus ≠ .FREE) (hva : isIllegalVa va = false)
    (h : returning ((k.setPm m).sysMemUnmap cur 0 va) = some (r, k')) :
    ∃ d m', k.dirs cur = some d ∧ m.pageRemove d (k.envs cur).envAsid va = some m' ∧ k' = k.setPm m' := by
  have h := returning_eq_some.1 h
  rw [sysMemUnmap, hva, if_neg Bool.false_ne_true, envid2env_zero] at h
  obtain ⟨d, hd, h⟩ := Option.bind_eq_some_iff.1 h
  obtain ⟨m', hm, h⟩ := Option.map_eq_some_iff.1 h
  simp only [Prod.mk.injEq] at h
  exact ⟨d, m', (dirs_of_live hlive).trans hd, hm, h.1.symm⟩

private theorem writableAt_cases (hlive : (k.envs cur).envStatus ≠ .FREE) (h : (k.setPm m).writableAt cur va = some p) :
    ∃ w, Mem.user ⟨k.dirs, m⟩ cur (VPN va) = some w ∧ PPN w = p ∧ has w PTE_D = true := by
  unfold writableAt at h
  split at h
  case isFalse => cases h
  case isTrue hd =>
    obtain ⟨d, w, -, hw, hp⟩ := frameAt_cases hlive h
    obtain ⟨hvpt, -⟩ := vpt_of_user (k := k.setPm m) hlive hw
    rw [hvpt, Option.any_some] at hd
    exact ⟨w, hw, hp, hd⟩

/-! ### `cow_entry` -/

/-- The permissions of the copy. -/
def breakPerm (w : Word) : Word := ((w &&& 0xFFF) ^^^ PTE_COW) ||| PTE_D

private theorem PPN_breakPerm (w : Word) : PPN (breakPerm w) = 0 := Mem.PPN_exchange (Mem.PPN_flags w) (by decide)
    (by decide)

theorem VPN_ROUNDDOWN (va : Word) : VPN (ROUNDDOWN va BY2PG) = VPN va := VPN_PTE_ADDR va

private theorem pteEntry_break (hp : p < 2 ^ 20) (hc : has w PTE_COW = true) :
    pteEntry (Pmap.newPte p (breakPerm w)) = ⟨p, true, false, has w PTE_LIBRARY⟩ := by
  have hbits : p ||| PPN (breakPerm w) = p := by rw [PPN_breakPerm, Nat.or_zero]
  have h10 : PTE_D = BitVec.twoPow 32 10 := by decide
  have h0 : PTE_COW = BitVec.twoPow 32 0 := by decide
  have h2 : PTE_LIBRARY = BitVec.twoPow 32 2 := by decide
  have hD : has (breakPerm w) PTE_D = ((has (w &&& 0xFFF) PTE_D ^^ false) || true) := by
    rw [breakPerm, h10, h0]
    exact Mem.has_exchange _ (by decide) (by decide) (by decide)
  have hC : has (breakPerm w) PTE_COW = ((has (w &&& 0xFFF) PTE_COW ^^ true) || false) := by
    rw [breakPerm, h10, h0]
    exact Mem.has_exchange _ (by decide) (by decide) (by decide)
  have hL : has (breakPerm w) PTE_LIBRARY = ((has (w &&& 0xFFF) PTE_LIBRARY ^^ false) || false) := by
    rw [breakPerm, h10, h0, h2]
    exact Mem.has_exchange _ (by decide) (by decide) (by decide)
  have hc' : has (w &&& 0xFFF) PTE_COW = true := (Mem.has_flags (by decide)).trans hc
  have hL' : has (w &&& 0xFFF) PTE_LIBRARY = has w PTE_LIBRARY := Mem.has_flags (by decide)
  rw [Mem.pteEntry_newPte hp hbits, hD, hC, hL, hc', hL']
  simp

section

variable (hok : Mem.Ok mc leak ⟨k.dirs, m⟩) (hlive : (k.envs cur).envStatus ≠ .FREE)

include hok hlive

/-- A new page at `UCOW`, which may be written. -/
private theorem cow_alloc {dst : Nat} (hfree : m.pageFreeList ≠ [] ∨ Mem.user ⟨k.dirs, m⟩ cur (VPN UCOW) = none)
    (hperm : PPN perm = 0) (h : returning ((k.setPm m).sysMemAlloc cur 0 UCOW perm) = some (r, k'))
    (hdst : k'.writableAt cur UCOW = some dst) :
    ∃ m', k' = k.setPm m' ∧ (∃ leak', Mem.Ok mc leak' ⟨k.dirs, m'⟩) ∧ dst < 2 ^ 20 ∧ m'.ppRef dst = 1 ∧
      (∀ s, Mos.target mc k.dirs m.word s ≠ some dst) ∧
      Mem.Remapped ⟨k.dirs, m⟩ cur (VPN UCOW) (some (Pmap.newPte dst perm)) ⟨k.dirs, m'⟩ := by
  have hi : PDX UCOW < PDX UTOP := by decide
  rcases memAlloc_own hlive (by decide) h with ⟨hnil, rfl⟩ | ⟨p, rest, d, m', hl, hd, hins, rfl⟩
  · obtain ⟨w₁, hw₁, -⟩ := writableAt_cases hlive hdst
    rw [hfree.resolve_left (not_not.2 hnil)] at hw₁
    cases hw₁
  · have hp := hok.free_lt (p := p) (by rw [hl]; exact List.mem_cons_self ..)
    have hfresh := hok.fresh (q := p) (by rw [hl]; exact List.mem_cons_self ..)
    obtain ⟨w₁, hw₁, rfl, -⟩ := writableAt_cases hlive hdst
    obtain ⟨o, ho, hst⟩ := (hok.take hl).pageInsert_stores hd hi hins
    cases ho with
    | full =>
      rw [hst.self] at hw₁
      cases hw₁
    | ok =>
      obtain ⟨hok', href, hmap⟩ := hok.take_remapped hd hi hl hperm hins
      rw [hmap.self] at hw₁
      obtain rfl := Option.some.inj hw₁
      rw [Mem.PPN_newPte hp hperm]
      exact ⟨m', rfl, hok', hp, href, hfresh.unused, hmap⟩

/-- The page at `UCOW` is mapped over another one. -/
private theorem cow_map (hva : isIllegalVa va = false) (hw : (Mem.user ⟨k.dirs, m⟩ cur (VPN va)).isSome)
    (hcow : Mem.user ⟨k.dirs, m⟩ cur (VPN UCOW) = some (Pmap.newPte p perm)) (hp : p < 2 ^ 20) (href : m.ppRef p = 1)
    (hperm : PPN perm = 0) (h : returning ((k.setPm m).sysMemMap cur 0 UCOW 0 va perm) = some (r, k')) :
    ∃ m', k' = k.setPm m' ∧ (∃ leak', Mem.Ok mc leak' ⟨k.dirs, m'⟩) ∧
      Mem.Remapped ⟨k.dirs, m⟩ cur (VPN va) (some (Pmap.newPte p perm)) ⟨k.dirs, m'⟩ := by
  have hi : PDX va < PDX UTOP := Mem.PDX_lt_of_lt (MemOk.lt_of_legal hva)
  have hu : (VPN UCOW).1 < PDX UTOP := by decide
  have hpperm : PPN (Pmap.newPte p perm) = p := Mem.PPN_newPte hp hperm
  obtain ⟨d, m', hd, hins, rfl⟩ := memMap_own hok hlive (by decide) hva (envid2env_zero ..) hcow h
  have hmax : m.ppRef (PPN (Pmap.newPte p perm)) ≠ 65535 := by
    rw [hpperm, href]
    decide
  have hmoves := hok.again_moves hd hi hu hcow hperm (.inl hmax) hins
  obtain ⟨leak', hok', -⟩ := hok.moves hmoves
  obtain ⟨o, ho, hmap⟩ := hok.again hd hi hu hcow hperm (.inl hmax) hins
  cases ho with
  | ok =>
    rw [hpperm] at hmap
    exact ⟨m', rfl, ⟨leak', hok'⟩, hmap⟩
  | full =>
    obtain ⟨-, hnone⟩ := hok.pageInsert_fails hd hi (by decide) hins
    rw [hnone] at hw
    cases hw

/-- The pages after `cow_entry`. -/
theorem cowEntry_spec (hva : isIllegalVa (ROUNDDOWN va BY2PG) = false) (hne : VPN va ≠ VPN UCOW)
    (hw : Mem.user ⟨k.dirs, m⟩ cur (VPN va) = some w)
    (hfree : m.pageFreeList ≠ [] ∨ Mem.user ⟨k.dirs, m⟩ cur (VPN UCOW) = none)
    (h : cowEntry cur va (k.setPm m) = some k') :
    ∃ m', k' = k.setPm m' ∧ (∃ leak', Mem.Ok mc leak' ⟨k.dirs, m'⟩) ∧
      Store.Breaks (Mem.store ⟨k.dirs, m⟩) cur (VPN va) (VPN UCOW) (Mem.store ⟨k.dirs, m'⟩) := by
  have hcow : PDX UCOW < PDX UTOP := by decide
  have hi : PDX va < PDX UTOP := by
    have hlt : PDX (ROUNDDOWN va BY2PG) < PDX UTOP := Mem.PDX_lt_of_lt (MemOk.lt_of_legal hva)
    rwa [show PDX (ROUNDDOWN va BY2PG) = PDX va from congrArg Prod.fst (VPN_ROUNDDOWN va)] at hlt
  have hperm := PPN_breakPerm w
  obtain ⟨hvpt, -⟩ := vpt_of_user (k := k.setPm m) hlive hw
  rw [cowEntry, hvpt, Option.bind_some] at h
  dsimp only at h
  split at h
  case isFalse => cases h
  case isTrue hc =>
  rw [Mem.has_flags (by decide)] at hc
  obtain ⟨⟨r, k₁⟩, halloc, h⟩ := Option.bind_eq_some_iff.1 h
  obtain ⟨dst, hdst, h⟩ := Option.bind_eq_some_iff.1 h
  obtain ⟨src, hsrc, h⟩ := Option.bind_eq_some_iff.1 h
  obtain ⟨⟨r', k₃⟩, hmap, h⟩ := Option.bind_eq_some_iff.1 h
  obtain ⟨⟨r'', k₄⟩, hun, rfl⟩ := Option.map_eq_some_iff.1 h
  -- a new page at `UCOW`
  obtain ⟨m₁, rfl, ⟨leak₁, hok₁⟩, hdst, href₁, hunused, hmap₁⟩ := cow_alloc hok hlive hfree hperm halloc hdst
  have hself₁ : Mem.user ⟨k.dirs, m₁⟩ cur (VPN va) = some w :=
    (hmap₁.other cur (VPN va) hi fun heq => hne (congrArg Prod.snd heq)).trans hw
  -- the copy
  obtain ⟨_, w₂, -, hw₂, rfl⟩ := frameAt_cases hlive hsrc
  rw [VPN_ROUNDDOWN, hself₁] at hw₂
  obtain rfl := Option.some.inj hw₂
  obtain ⟨f, hf, hbytes⟩ := Pmap.memcpy_eq m₁ dst (frameByte (m₁.word (PPN w))) (o := 0) (n := 4096) (by decide)
  have hcopy : f = m₁.word (PPN w) := by
    refine frame_ext fun x hx => ?_
    rw [hbytes x hx, if_pos (by omega), Nat.sub_zero]
  subst hcopy
  rw [Nat.add_zero] at hf
  have hmap : returning ((k.setPm (m₁.setFrame dst (m₁.word (PPN w)))).sysMemMap cur 0 UCOW 0 (ROUNDDOWN va BY2PG)
      (breakPerm w)) = some (r', k₃) := by
    rw [← hf]
    exact hmap
  have htgt₁ : Mos.target mc k.dirs m₁.word (.pte cur (PDX UCOW) (PTX UCOW)) = some dst :=
    Mem.PPN_newPte hdst hperm ▸ Mem.user_target mc (s := ⟨k.dirs, m₁⟩) hcow hmap₁.self
  have hdata := (hok₁.tree.data_of_pte htgt₁).notTree
  have hok₂ := hok₁.setFrame hdata (m₁.word (PPN w))
  have huser₂ : ∀ x u, u.1 < PDX UTOP →
      Mem.user ⟨k.dirs, m₁.setFrame dst (m₁.word (PPN w))⟩ x u = Mem.user ⟨k.dirs, m₁⟩ x u :=
    fun x u hu => hok₁.setFrame_user hdata _ hu
  -- the page gets the new frame, and `UCOW` is unmapped
  obtain ⟨m₃, rfl, ⟨leak₃, hok₃⟩, hmap₃⟩ := cow_map hok₂ hlive hva
    (by rw [VPN_ROUNDDOWN, huser₂ cur (VPN va) hi, hself₁]; rfl) ((huser₂ cur (VPN UCOW) hcow).trans hmap₁.self) hdst href₁ hperm hmap
  rw [VPN_ROUNDDOWN] at hmap₃
  obtain ⟨d, m₄, hd, hrem, rfl⟩ := memUnmap_own hlive (by decide) hun
  obtain ⟨hok₄, hmap₄⟩ := hok₃.remove_remapped hd hcow hrem
  refine ⟨m₄, rfl, hok₄, hmap₁.breaks huser₂ (Pmap.setFrame_word_self ..) (fun q hq => Pmap.setFrame_word_ne hq _) hmap₃ hmap₄
    hne hi hcow hw (fun x u a ha heq => ?_) (pteEntry_break hdst hc)⟩
  exact hunused _ (heq ▸ Mem.store_target mc ha)

/-- A store of user code. -/
theorem storeWord_spec (hva : va < UTOP) (h : storeWord cur va w (k.setPm m) = some k') :
    ∃ m', k' = k.setPm m' ∧ Mem.Ok mc leak ⟨k.dirs, m'⟩ ∧
      Store.Writes (Mem.store ⟨k.dirs, m⟩) cur (VPN va) (fun f => Function.update f (wordIdx va) w) (Mem.store ⟨k.dirs, m'⟩) := by
  have hi : PDX va < PDX UTOP := Mem.PDX_lt_of_lt hva
  unfold storeWord at h
  split at h
  case isFalse => cases h
  case isTrue =>
  obtain ⟨p, hp, rfl⟩ := Option.map_eq_some_iff.1 h
  obtain ⟨w₀, hw₀, rfl, hd⟩ := writableAt_cases hlive hp
  have htgt : Mos.target mc k.dirs m.word (.pte cur (PDX va) (PTX va)) = some (PPN w₀) :=
    Mem.user_target mc (s := ⟨k.dirs, m⟩) hi hw₀
  have hdata := (hok.tree.data_of_pte htgt).notTree
  have hset : m.setWord (PPN w₀) (wordIdx va) w = m.setFrame (PPN w₀) (Function.update (m.word (PPN w₀)) (wordIdx va) w) := rfl
  refine ⟨m.setWord (PPN w₀) (wordIdx va) w, rfl, hset ▸ hok.setFrame hdata _, ?_, pteEntry w₀, ?_, hd, ?_, fun q hq => ?_⟩
  · rw [hset]
    exact Mem.store_congr fun x u hu => hok.setFrame_user hdata _ hu
  · rw [Mem.store_map hi, hw₀]
    rfl
  · rw [hset]
    exact Pmap.setFrame_word_self ..
  · rw [hset]
    exact Pmap.setFrame_word_ne hq _

end

end Kern

end Mos
