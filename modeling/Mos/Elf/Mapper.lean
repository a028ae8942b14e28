import Mos.Elf.Pages
import Mos.Elf.Spawn

/-!
# The two callbacks

`load_icode_mapper` maps a filled page; `spawn_mapper` maps an empty one and fills it through a window of the caller.
Where both succeed, the page of the environment that is built is the same in both, and nothing else of it changes.
-/

namespace Mos

/-- The page `v` of `e` gets the flags and the bytes, and the others stay. -/
structure Loads (s : Mem) (e : EnvPtr) (v : Vpn) (perm : Word) (bytes : Nat → Byte) (s' : Mem) : Prop where
  self : ∃ f, s'.page e v = some ((perm ||| PTE_V) &&& 0xFFF, f) ∧ ∀ x < 4096, frameByte f x = bytes x
  page : ∀ v', v'.1 < PDX UTOP → v' ≠ v → s'.page e v' = s.page e v'

private theorem pageImage_congr {len : Nat} {src src' : Option (Nat → Byte)} (h : SameSrc len src src') (offset x : Nat) :
    pageImage offset src len x = pageImage offset src' len x := by
  cases src with
  | none =>
    cases src' with
    | none => rfl
    | some src' => exact h.elim
  | some src =>
    cases src' with
    | none => exact h.elim
    | some src' =>
      simp only [pageImage]
      by_cases hin : offset ≤ x ∧ x < offset + len
      · rw [if_pos hin, if_pos hin]
        exact h _ (by omega)
      · rw [if_neg hin, if_neg hin]

/-- Where both are the result of a load of the same bytes, the pages are the same. -/
private theorem Loads.agree {s t s' t' : Mem} {e e' : EnvPtr} {v : Vpn} {perm : Word} {bytes bytes' : Nat → Byte}
    (h : Loads s e v perm bytes s') (h' : Loads t e' v perm bytes' t') (hb : ∀ x < 4096, bytes x = bytes' x) {u : Vpn}
    (hu : u.1 < PDX UTOP) (hold : s.page e u = t.page e' u) : s'.page e u = t'.page e' u := by
  by_cases huv : u = v
  · subst huv
    obtain ⟨f, hf, hfb⟩ := h.self
    obtain ⟨g, hg, hgb⟩ := h'.self
    rw [hf, hg, frame_ext fun x hx => (hfb x hx).trans ((hb x hx).trans (hgb x hx).symm)]
  · rw [h.page u hu huv, h'.page u hu huv, hold]

/-! ### The callback of the kernel -/

section

variable {mc : Machine} {leak : Nat → Nat} {D : Dirs} {m m' : Pmap} {e : EnvPtr} {asid : Asid} {d p : Nat}
  {va perm offset len : Word} {src : Option (Nat → Byte)} {s s' : Mem} {v : Vpn} {f : Idx → Word}

theorem Mem.Puts.page_self (h : Mem.Puts s e v p perm s') (hp : p < 2 ^ 20) (hperm : PPN perm = 0) :
    s'.page e v = some ((perm ||| PTE_V) &&& 0xFFF, s'.pm.word p) := by
  rw [Mem.page, h.self, Option.map_some, Mem.newPte_flags, Mem.PPN_newPte hp hperm]

theorem Mem.Ok.free_lt (h : Mem.Ok mc leak ⟨D, m⟩) (hp : p ∈ m.pageFreeList) : p < 2 ^ 20 := by
  have hlt := (h.fresh hp).bound.2
  have hk := mc.kseg0
  omega

private theorem Mem.Ok.loadIcodeMapper (h : Mem.Ok mc leak ⟨D, m⟩) (hd : D e = some d) (hi : PDX va < PDX UTOP)
    (hperm : PPN perm = 0) (hfit : offset.toNat + len.toNat ≤ 4096)
    (hr : Elf.loadIcodeMapper d asid m va offset perm src len = some (0, m')) :
    (∃ leak', Mem.Ok mc leak' ⟨D, m'⟩) ∧
      Loads ⟨D, m⟩ e (VPN va) perm (pageImage offset.toNat src len.toNat) ⟨D, m'⟩ := by
  cases hl : m.pageFreeList with
  | nil =>
    have halloc : m.pageAlloc = none := by rw [Pmap.pageAlloc, hl]
    rw [Elf.loadIcodeMapper, halloc] at hr
    cases hr
  | cons p rest =>
    obtain ⟨f, heq, hbytes⟩ := Pmap.loadIcodeMapper_eq hl d asid va perm hfit
    rw [heq] at hr
    obtain ⟨hok, hputs, hword, -, -⟩ := h.map_new hd hi hl hperm hr
    have hp := h.free_lt (p := p) (by rw [hl]; exact List.mem_cons_self ..)
    refine ⟨hok, ⟨f, ?_, hbytes⟩, hputs.page⟩
    rw [hputs.page_self hp hperm]
    exact congrArg (fun g => some ((perm ||| PTE_V) &&& 0xFFF, g)) hword

end

/-! ### System calls that only change the memory -/

namespace Kern

variable {k k' : Kern} {m m' : Pmap} {cur e x y : EnvPtr} {envid srcid dstid va srcva dstva perm r child : Word}

theorem returning_eq_some {c : Option Ret} : returning c = some (r, k') ↔ c = some (k', some r) := by
  rw [returning, Option.bind_eq_some_iff]
  constructor
  · rintro ⟨⟨k₁, r₁⟩, hc, hr⟩
    obtain ⟨r₂, rfl, heq⟩ := Option.map_eq_some_iff.1 hr
    simp only [Prod.mk.injEq] at heq
    obtain ⟨rfl, rfl⟩ := heq
    exact hc
  · rintro rfl
    exact ⟨(k', some r), rfl, rfl⟩

/-- What an allocation that does not fail does in the address space of `x`. -/
theorem memAlloc_cases (hx : k.envid2env cur envid true = some x) (hlive : (k.envs x).envStatus ≠ .FREE)
    (hr : r.slt 0 = false) (h : returning ((k.setPm m).sysMemAlloc cur envid va perm) = some (r, k')) :
    r = 0 ∧ va < UTOP ∧ ∃ p rest d m', m.pageFreeList = p :: rest ∧ k.dirs x = some d ∧
      (m.takeWith p rest fun _ => 0).pageInsert d (k.envs x).envAsid p va perm = some (0, m') ∧ k' = k.setPm m' := by
  rcases sysMemAlloc_cases (returning_eq_some.1 h) with ⟨w, hw, hneg, -⟩ | ⟨e, p, pm, w, hw, hva, he, hp, hi⟩
  · obtain rfl := Option.some.inj hw
    rw [hneg] at hr
    cases hr
  · obtain rfl := Option.some.inj hw
    obtain rfl : x = e := Option.some.inj (hx.symm.trans he)
    obtain ⟨rest, hl, rfl⟩ := Pmap.pageAlloc_cases hp
    obtain ⟨d, m', hd, hins, rfl⟩ := pageInsertEnv_cases hi
    have h0 : r = 0 := (Pmap.pageInsert_ret hins).resolve_right (by rw [hr]; nofun)
    subst h0
    exact ⟨rfl, MemOk.lt_of_legal hva, p, rest, d, m', hl, (dirs_of_live hlive).trans hd, hins, rfl⟩

/-- What a mapping that does not fail does. -/
theorem memMap_cases (hx : k.envid2env cur srcid true = some x) (hy : k.envid2env cur dstid true = some y)
    (hlx : (k.envs x).envStatus ≠ .FREE) (hly : (k.envs y).envStatus ≠ .FREE)
    (hr : r.slt 0 = false) (h : returning ((k.setPm m).sysMemMap cur srcid srcva dstid dstva perm) = some (r, k')) :
    r = 0 ∧ srcva < UTOP ∧ dstva < UTOP ∧ ∃ p pte ds dd m', k.dirs x = some ds ∧
      m.pageLookup ds srcva = some (some (p, pte)) ∧ k.dirs y = some dd ∧
      m.pageInsert dd (k.envs y).envAsid p dstva perm = some (0, m') ∧ k' = k.setPm m' := by
  rcases sysMemMap_cases (returning_eq_some.1 h) with ⟨w, hw, hneg, -⟩ |
    ⟨srcenv, dstenv, p, w, hw, hsrcva, hdstva, hs, hd, hlook, hi⟩
  · obtain rfl := Option.some.inj hw
    rw [hneg] at hr
    cases hr
  · obtain rfl := Option.some.inj hw
    obtain rfl : x = srcenv := Option.some.inj (hx.symm.trans hs)
    obtain rfl : y = dstenv := Option.some.inj (hy.symm.trans hd)
    obtain ⟨ds, pte, hds, hlook⟩ := pageLookupEnv_cases hlook
    obtain ⟨dd, m', hdd, hins, rfl⟩ := pageInsertEnv_cases hi
    have h0 : r = 0 := (Pmap.pageInsert_ret hins).resolve_right (by rw [hr]; nofun)
    subst h0
    exact ⟨rfl, MemOk.lt_of_legal hsrcva, MemOk.lt_of_legal hdstva, p, pte, ds, dd, m', (dirs_of_live hlx).trans hds,
      hlook, (dirs_of_live hly).trans hdd, hins, rfl⟩

/-- What an unmapping that does not fail does. -/
theorem memUnmap_cases (hx : k.envid2env cur envid true = some x) (hlive : (k.envs x).envStatus ≠ .FREE)
    (hr : r.slt 0 = false) (h : returning ((k.setPm m).sysMemUnmap cur envid va) = some (r, k')) :
    va < UTOP ∧ ∃ d m', k.dirs x = some d ∧ m.pageRemove d (k.envs x).envAsid va = some m' ∧ k' = k.setPm m' := by
  have h := returning_eq_some.1 h
  unfold sysMemUnmap at h
  split at h
  case isTrue =>
    simp only [Option.some.injEq, Prod.mk.injEq] at h
    rw [← h.2] at hr
    cases hr
  case isFalse hva =>
    have hx : (k.setPm m).envid2env cur envid true = some x := hx
    rw [hx] at h
    obtain ⟨d, hd, h⟩ := Option.bind_eq_some_iff.1 h
    obtain ⟨m', hm, h⟩ := Option.map_eq_some_iff.1 h
    simp only [Prod.mk.injEq] at h
    exact ⟨MemOk.lt_of_legal (by simpa using hva), d, m', (dirs_of_live hlive).trans hd, hm, h.1.symm⟩

/-- The calls return 0 or an error code. -/
private theorem memAlloc_ret (h : returning (k.sysMemAlloc cur envid va perm) = some (r, k')) : r = 0 ∨ r.slt 0 = true := by
  rcases sysMemAlloc_cases (returning_eq_some.1 h) with ⟨w, hw, hneg, -⟩ | ⟨e, p, pm, w, hw, -, -, -, hi⟩
  · obtain rfl := Option.some.inj hw
    exact .inr hneg
  · obtain rfl := Option.some.inj hw
    obtain ⟨_, _, -, hins, -⟩ := pageInsertEnv_cases hi
    exact Pmap.pageInsert_ret hins

private theorem memMap_ret (h : returning (k.sysMemMap cur srcid srcva dstid dstva perm) = some (r, k')) :
    r = 0 ∨ r.slt 0 = true := by
  rcases sysMemMap_cases (returning_eq_some.1 h) with ⟨w, hw, hneg, -⟩ | ⟨_, _, p, w, hw, -, -, -, -, -, hi⟩
  · obtain rfl := Option.some.inj hw
    exact .inr hneg
  · obtain rfl := Option.some.inj hw
    obtain ⟨_, _, -, hins, -⟩ := pageInsertEnv_cases hi
    exact Pmap.pageInsert_ret hins

private theorem memUnmap_ret (h : returning (k.sysMemUnmap cur envid va) = some (r, k')) : r = 0 ∨ r.slt 0 = true := by
  have h := returning_eq_some.1 h
  unfold sysMemUnmap at h
  split at h
  case isTrue =>
    simp only [Option.some.injEq, Prod.mk.injEq] at h
    exact .inr (h.2 ▸ by decide)
  case isFalse =>
    split at h
    case h_1 =>
      simp only [Option.some.injEq, Prod.mk.injEq] at h
      exact .inr (h.2 ▸ by decide)
    case h_2 =>
      obtain ⟨d, -, h⟩ := Option.bind_eq_some_iff.1 h
      obtain ⟨m', -, h⟩ := Option.map_eq_some_iff.1 h
      simp only [Prod.mk.injEq, Option.some.injEq] at h
      exact .inl h.2.symm

theorem memMap_pm (h : returning (k.sysMemMap cur srcid srcva dstid dstva perm) = some (r, k')) : ∃ m, k' = k.setPm m := by
  rcases sysMemMap_cases (returning_eq_some.1 h) with ⟨_, -, -, rfl⟩ | ⟨_, _, _, _, -, -, -, -, -, -, hi⟩
  · exact ⟨k'.pm, rfl⟩
  · obtain ⟨_, pm, -, -, rfl⟩ := pageInsertEnv_cases hi
    exact ⟨pm, rfl⟩

end Kern

/-! ### The window of the caller -/

namespace Mem

variable {mc : Machine} {leak : Nat → Nat} {D : Dirs} {m m' : Pmap} {x y : EnvPtr} {asid : Asid} {d p : Nat}
  {va perm w : Word} {pte : PtePtr} {v : Vpn}

theorem user_of_lookup (hd : D x = some d) (hl : m.pageLookup d va = some (some (p, pte))) :
    ∃ w, Mem.user ⟨D, m⟩ x (VPN va) = some w ∧ PPN w = p := by
  rcases Pmap.pageLookup_cases hl with ⟨ho, -⟩ | ⟨t, q, ho, hmap⟩
  · cases ho
  · obtain ⟨rfl, -⟩ := Prod.mk.inj (Option.some.inj ho)
    obtain ⟨hval, hp⟩ := entry_eq_some.1 hmap.pte
    exact ⟨_, user_eq_some.2 ⟨pte_eq_some.2 ⟨d, t, hd, hmap.pde, rfl⟩, hval⟩, hp⟩

/-- A page that is mapped once is mapped a second time, by `y`. -/
theorem Ok.share (h : Ok mc leak ⟨D, m⟩) (hv : v.1 < PDX UTOP) (hw : Mem.user ⟨D, m⟩ x v = some w) (hp : PPN w = p)
    (href : m.ppRef p = 1) (hd : D y = some d) (hi : PDX va < PDX UTOP) (hperm : PPN perm = 0)
    (hins : m.pageInsert d asid p va perm = some (0, m')) :
    Moves mc .any y asid ⟨D, m⟩ ⟨D, m'⟩ ∧ Stores ⟨D, m⟩ y (VPN va) (some (Pmap.newPte p perm)) ⟨D, m'⟩ := by
  have htgt : Mos.target mc D m.word (.pte x v.1 v.2) = some p := hp ▸ user_target mc hv hw
  have hmoves : Moves mc .any y asid ⟨D, m⟩ ⟨D, m'⟩ := by
    refine h.pageInsert_moves hd hi ⟨h.tree.data_of_pte htgt, h.refs.notMem_free htgt, ?_, trivial, .inr trivial⟩
      (.inl ?_) hins
    · rw [hperm, Nat.or_zero]
    · rw [href]
      decide
  obtain ⟨r, hr, hst⟩ := h.pageInsert_stores hd hi hins
  cases hr
  exact ⟨hmoves, hst⟩

end Mem

/-! ### The callback of `spawn` -/

namespace Kern

variable {mc : Machine} {k k' : Kern} {m m' m₀ : Pmap} {cur e : EnvPtr} {va perm offset len child : Word}
  {src : Option (Nat → Byte)}

/-- `cur` builds the environment `e` with the id `child`. -/
structure Builder (k : Kern) (cur e : EnvPtr) (child : Word) : Prop where
  live : (k.envs cur).envStatus ≠ .FREE
  child : k.envid2env cur child true = some e
  ne : e ≠ cur

theorem Builder.child_live (hb : Builder k cur e child) : (k.envs e).envStatus ≠ .FREE :=
  envid2env_live hb.live hb.child

theorem envid2env_zero (k : Kern) (cur : EnvPtr) (checkperm : Bool) : k.envid2env cur 0 checkperm = some cur :=
  if_pos rfl

/-- The memory while the environment is built: no two of its pages share a frame, and the caller has got no new page since
the memory was `m₀`. -/
structure Building (mc : Machine) (k : Kern) (cur e : EnvPtr) (m₀ m : Pmap) : Prop where
  ok : ∃ leak, Mem.Ok mc leak ⟨k.dirs, m⟩
  distinct : Mem.Distinct ⟨k.dirs, m⟩ e
  own : ∀ v w, v.1 < PDX UTOP → Mem.user ⟨k.dirs, m⟩ cur v = some w → Mem.user ⟨k.dirs, m₀⟩ cur v = some w

theorem frameAt_cases {p : Nat} (hlive : (k.envs cur).envStatus ≠ .FREE) (h : (k.setPm m).frameAt cur va = some p) :
    ∃ d w, k.dirs cur = some d ∧ Mem.user ⟨k.dirs, m⟩ cur (VPN va) = some w ∧ PPN w = p := by
  have hl : (k.setPm m).pageLookupEnv cur va = some (some p) := Option.join_eq_some_iff.1 h
  obtain ⟨d, pte, hd, hlook⟩ := pageLookupEnv_cases hl
  have hd : k.dirs cur = some d := (dirs_of_live hlive).trans hd
  obtain ⟨w, hw, hp⟩ := Mem.user_of_lookup hd hlook
  exact ⟨d, w, hd, hw, hp⟩

theorem utemp_low : PDX UTEMP < PDX UTOP := by decide

/-- A new page of `e` is filled through the window: it gets the bytes, and nothing else changes for `e`. -/
private theorem Building.window (hb : Builder k cur e child) (h : Building mc k cur e m₀ m) {p pp : Nat} {k₁ : Kern}
    {src : Nat → Byte} (hi : PDX va < PDX UTOP) (hw : Mem.user ⟨k.dirs, m⟩ e (VPN va) = some (Pmap.newPte p perm))
    (hp : p < 2 ^ 20) (hperm : PPN perm = 0) (hapart : ∀ v w, v.1 < PDX UTOP → v ≠ VPN va →
      Mem.user ⟨k.dirs, m⟩ e v = some w → PPN w ≠ p)
    (hzero : m.word p = fun _ => 0) (href : m.ppRef p = 1) (hfit : offset.toNat + len.toNat ≤ 4096)
    (hmap : returning ((k.setPm m).sysMemMap cur child va 0 UTEMP (perm ||| PTE_D)) = some (0, k₁))
    (hframe : k₁.frameAt cur UTEMP = some pp)
    (hun : returning ((k₁.setPm (k₁.pm.memcpy (pp * 4096 + offset.toNat) src len.toNat)).sysMemUnmap cur 0 UTEMP) =
      some (0, k')) :
    ∃ m', k' = k.setPm m' ∧ Building mc k cur e m₀ m' ∧
      Loads ⟨k.dirs, m⟩ e (VPN va) perm (pageImage offset.toNat (some src) len.toNat) ⟨k.dirs, m'⟩ := by
  obtain ⟨leak, hok⟩ := h.ok
  have hpperm : PPN (Pmap.newPte p perm) = p := Mem.PPN_newPte hp hperm
  have hperm' : PPN (perm ||| PTE_D) = 0 := by
    have hor : PPN (perm ||| PTE_D) = PPN perm ||| PPN PTE_D := by
      simp [PPN, BitVec.toNat_or, Nat.shiftRight_or_distrib]
    rw [hor, hperm]
    decide
  -- the page is mapped in the window
  obtain ⟨-, -, -, q, pte, ds, dd, m₂, hds, hlook, hdd, hins, rfl⟩ := memMap_cases hb.child (envid2env_zero ..)
    hb.child_live hb.live (by decide) hmap
  obtain ⟨w, hw', hq⟩ := Mem.user_of_lookup hds hlook
  obtain rfl := Option.some.inj (hw.symm.trans hw')
  obtain rfl : q = p := hq.symm.trans hpperm
  obtain ⟨hmoves, hst⟩ := hok.share hi hw hpperm href hdd utemp_low hperm' hins
  obtain ⟨leak₂, hok₂, -⟩ := hok.moves hmoves
  have huser₂ : ∀ v, v.1 < PDX UTOP → Mem.user ⟨k.dirs, m₂⟩ e v = Mem.user ⟨k.dirs, m⟩ e v :=
    fun v hv => hok.moves_user hmoves hb.ne hv
  have htgt : Mos.target mc k.dirs m₂.word (.pte e (PDX va) (PTX va)) = some q := by
    have hw₂ := (huser₂ (VPN va) hi).trans hw
    exact hpperm ▸ Mem.user_target mc (s := ⟨k.dirs, m₂⟩) hi hw₂
  -- the bytes are copied
  obtain ⟨d, w, -, hw₂, hq₂⟩ := frameAt_cases hb.live hframe
  rw [hst.self] at hw₂
  obtain rfl := Option.some.inj hw₂
  obtain rfl : pp = q := hq₂.symm.trans (Mem.PPN_newPte hp hperm')
  obtain ⟨f, hf, hbytes⟩ := Pmap.memcpy_eq m₂ pp src hfit
  have hm₃ : (k.setPm m₂).pm.memcpy (pp * 4096 + offset.toNat) src len.toNat = m₂.setFrame pp f := hf
  rw [hm₃] at hun
  have hdata := hok₂.tree.data_of_pte htgt
  have hok₃ := hok₂.setFrame hdata.notTree f
  have huser₃ : ∀ x v, v.1 < PDX UTOP → Mem.user ⟨k.dirs, m₂.setFrame pp f⟩ x v = Mem.user ⟨k.dirs, m₂⟩ x v :=
    fun x v hv => hok₂.setFrame_user hdata.notTree f hv
  have hword₂ : m₂.word pp = fun _ => 0 := by
    have htgt₁ : Mem.target mc ⟨k.dirs, m⟩ (.pte e (PDX va) (PTX va)) = some pp :=
      hpperm ▸ Mem.user_target mc (s := ⟨k.dirs, m⟩) hi hw
    exact (hok.moves_content hmoves hb.ne htgt₁).trans hzero
  -- the window is closed
  obtain ⟨-, d', m₄, hd', hrem, rfl⟩ := memUnmap_cases (k := k) (m := m₂.setFrame pp f) (envid2env_zero ..) hb.live
    (by decide) hun
  have hmoves₄ : Moves mc .any cur (k.envs cur).envAsid ⟨k.dirs, m₂.setFrame pp f⟩ ⟨k.dirs, m₄⟩ :=
    hok₃.pageRemove_moves hd' utemp_low hrem
  obtain ⟨leak₄, hok₄, -⟩ := hok₃.moves hmoves₄
  have hst₄ := hok₃.pageRemove_stores hd' utemp_low hrem
  have huser₄ : ∀ v, v.1 < PDX UTOP → Mem.user ⟨k.dirs, m₄⟩ e v = Mem.user ⟨k.dirs, m⟩ e v := fun v hv =>
    (hok₃.moves_user hmoves₄ hb.ne hv).trans ((huser₃ e v hv).trans (huser₂ v hv))
  refine ⟨m₄, rfl, ⟨⟨leak₄, hok₄⟩, ?_, ?_⟩, ⟨f, ?_, ?_⟩, ?_⟩
  · intro a b w w' ha hb hwa hwb heq
    rw [huser₄ a ha] at hwa
    rw [huser₄ b hb] at hwb
    exact h.distinct a b w w' ha hb hwa hwb heq
  · intro v w hv hwv
    by_cases hvt : v = VPN UTEMP
    · subst hvt
      rw [hst₄.self] at hwv
      cases hwv
    · rw [hst₄.other v hv hvt, huser₃ cur v hv, hst.other v hv hvt] at hwv
      exact h.own v w hv hwv
  · rw [hok₃.moves_page hmoves₄ hb.ne hi, Mem.page, huser₃ e (VPN va) hi, huser₂ (VPN va) hi, hw, Option.map_some,
      Mem.newPte_flags, hpperm]
    exact congrArg (fun g => some ((perm ||| PTE_V) &&& 0xFFF, g)) (Pmap.setFrame_word_self m₂ pp f)
  · intro x hx
    rw [hbytes x hx, hword₂, Pmap.frameByte_zero]
    rfl
  · intro v hv hne
    have hapart₂ : ∀ w, Mem.user ⟨k.dirs, m₂⟩ e v = some w → PPN w ≠ pp := fun w hwv =>
      hapart v w hv hne ((huser₂ v hv).symm.trans hwv)
    rw [hok₃.moves_page hmoves₄ hb.ne hv, hok₂.setFrame_page hdata.notTree f hv hapart₂, hok.moves_page hmoves hb.ne hv]

theorem Building.spawnMapper (hb : Builder k cur e child) (h : Building mc k cur e m₀ m) (hperm : PPN perm = 0)
    (hfit : offset.toNat + len.toNat ≤ 4096)
    (hr : spawnMapper cur child (k.setPm m) va offset perm src len = some (0, k')) :
    va < UTOP ∧ ∃ m', k' = k.setPm m' ∧ Building mc k cur e m₀ m' ∧
      Loads ⟨k.dirs, m⟩ e (VPN va) perm (pageImage offset.toNat src len.toNat) ⟨k.dirs, m'⟩ := by
  obtain ⟨leak, hok⟩ := h.ok
  obtain ⟨k₁, halloc, hr⟩ := (orReturn_eq_zero fun _ _ => rfl).1 hr
  obtain ⟨-, hva, p, rest, d, m₁, hl, hd, hins, rfl⟩ := memAlloc_cases hb.child hb.child_live (by decide) halloc
  have hi : PDX va < PDX UTOP := Mem.PDX_lt_of_lt hva
  have hp := hok.free_lt (p := p) (by rw [hl]; exact List.mem_cons_self ..)
  obtain ⟨hok₁, hputs, hword, href, hother⟩ := hok.map_new hd hi hl hperm hins
  have h₁ : Building mc k cur e m₀ m₁ := by
    refine ⟨hok₁, hputs.distinct h.distinct (Mem.PPN_newPte hp hperm), fun v w hv hw => ?_⟩
    rw [(hother cur v hb.ne.symm hv).1] at hw
    exact h.own v w hv hw
  refine ⟨hva, ?_⟩
  cases src with
  | none =>
    simp only [Option.some.injEq, Prod.mk.injEq, true_and] at hr
    subst hr
    refine ⟨m₁, rfl, h₁, ⟨fun _ => 0, ?_, fun x _ => Pmap.frameByte_zero x⟩, hputs.page⟩
    rw [hputs.page_self hp hperm]
    exact congrArg (fun g => some ((perm ||| PTE_V) &&& 0xFFF, g)) hword
  | some src =>
    obtain ⟨⟨r, k₂⟩, hmap, hr⟩ := Option.bind_eq_some_iff.1 hr
    dsimp only at hr
    by_cases hr0 : r = 0
    · subst hr0
      rw [if_neg (not_not.2 rfl)] at hr
      obtain ⟨pp, hframe, hun⟩ := Option.bind_eq_some_iff.1 hr
      obtain ⟨m', rfl, h', hloads⟩ := h₁.window hb hi hputs.self hp hperm hputs.apart hword href hfit hmap hframe hun
      exact ⟨m', rfl, h', hloads.self, fun v hv hne => (hloads.page v hv hne).trans (hputs.page v hv hne)⟩
    · rw [if_pos hr0] at hr
      obtain ⟨⟨_, k₃⟩, -, heq⟩ := Option.map_eq_some_iff.1 hr
      exact absurd (congrArg Prod.fst heq) hr0

/-- The callback returns 0 or an error code. -/
theorem spawnMapper_ret {r : Word} (h : spawnMapper cur child k va offset perm src len = some (r, k')) : r = 0 ∨ r.slt 0 = true := by
  refine orReturn_ret (fun _ _ => rfl) (fun r k₁ halloc => memAlloc_ret halloc) (fun k₁ hr => ?_) h
  cases src with
  | none =>
    simp only [Option.some.injEq, Prod.mk.injEq] at hr
    exact .inl hr.1.symm
  | some src =>
    obtain ⟨⟨r₁, k₂⟩, hmap, hr⟩ := Option.bind_eq_some_iff.1 hr
    dsimp only at hr
    by_cases hr0 : r₁ = 0
    · rw [if_neg (not_not.2 hr0)] at hr
      obtain ⟨pp, -, hun⟩ := Option.bind_eq_some_iff.1 hr
      exact memUnmap_ret hun
    · rw [if_pos hr0] at hr
      obtain ⟨⟨_, k₃⟩, -, heq⟩ := Option.map_eq_some_iff.1 hr
      obtain rfl : r₁ = r := congrArg Prod.fst heq
      exact memMap_ret hmap

end Kern

/-! ### Both -/

/-- The pages that `spawn` and `load_icode` build are the same, but for the page `u`. -/
structure SameImage (mc mc' : Machine) (k : Kern) (cur e : EnvPtr) (m₀ : Pmap) (D : Dirs) (e' : EnvPtr) (u : Vpn)
    (k' : Kern) (m' : Pmap) : Prop where
  build : ∃ m, k' = k.setPm m ∧ Kern.Building mc k cur e m₀ m
  ok : ∃ leak, Mem.Ok mc' leak ⟨D, m'⟩
  page : ∀ v, v.1 < PDX UTOP → v ≠ u → k'.mem.page e v = Mem.page ⟨D, m'⟩ e' v

theorem mappers_couple {mc mc' : Machine} {k : Kern} {cur e e' : EnvPtr} {child perm : Word} {m₀ : Pmap} {D : Dirs} {u : Vpn}
    {d : Nat} (asid : Asid) (hb : Kern.Builder k cur e child) (hd : D e' = some d) (hperm : PPN perm = 0) :
    Couples (SameImage mc mc' k cur e m₀ D e' u) perm (Kern.spawnMapper cur child) (Elf.loadIcodeMapper d asid) := by
  rintro k₁ m k₁' m' va offset src src' len hst hfit hsrc hA hB
  obtain ⟨n, rfl, hbuild⟩ := hst.build
  obtain ⟨leak, hok⟩ := hst.ok
  obtain ⟨hva, n', rfl, hbuild', hloads⟩ := hbuild.spawnMapper hb hperm hfit hA
  obtain ⟨hok', hloads'⟩ := hok.loadIcodeMapper hd (Mem.PDX_lt_of_lt hva) hperm hfit hB
  refine ⟨⟨n', rfl, hbuild'⟩, hok', fun v hv hne => ?_⟩
  exact hloads.agree hloads' (fun x _ => pageImage_congr hsrc offset.toNat x) hv (hst.page v hv hne)

end Mos
