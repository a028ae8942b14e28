import Mos.Elf.Vacant
import Mos.Inv.Insert
import Mos.Inv.Lookup

/-!
# The pages of an address space

What an environment has at a page below `UTOP`: the permission bits, and the content of the frame.  Mapping a new page
changes that of one page of one environment.
-/

namespace Mos

/-! ### Frames -/

theorem word_ext {w w' : Word} (h : ∀ k < 4, wordByte w k = wordByte w' k) : w = w' := by
  apply BitVec.eq_of_getLsbD_eq
  intro i hi
  have hbyte := congrArg (fun b => b.getLsbD (i % 8)) (h (i / 8) (by omega))
  have hidx : 8 * (i / 8) + i % 8 = i := by omega
  have hlt : i % 8 < 8 := by omega
  simpa [wordByte, BitVec.getLsbD_extractLsb', hlt, hidx] using hbyte

/-- A frame is determined by its bytes. -/
theorem frame_ext {f g : Idx → Word} (h : ∀ x < 4096, frameByte f x = frameByte g x) : f = g := by
  funext i
  apply word_ext
  intro k hk
  have hi : (i : Nat) < 1024 := i.isLt
  have hidx : (4 * (i : Nat) + k) / 4 % 1024 = i := by omega
  have hlane : (4 * (i : Nat) + k) % 4 = k := by omega
  have hbyte := h (4 * i + k) (by omega)
  simpa only [frameByte, hidx, hlane] using hbyte

/-! ### What is mapped -/

namespace Mem

variable {mc : Machine} {leak : Nat → Nat} {s s' : Mem} {D : Dirs} {m m' : Pmap} {e e' : EnvPtr} {asid : Asid}
  {d p q : Nat} {v v' : Vpn} {w perm va : Word} {rest : List Nat} {f : Idx → Word} {pol : Policy}

/-- The permission bits and the content of the page that is mapped at `v`. -/
def page (s : Mem) (e : EnvPtr) (v : Vpn) : Option (Word × (Idx → Word)) :=
  (s.user e v).map fun w => (w &&& 0xFFF, s.pm.word (PPN w))

theorem page_congr (huser : s'.user e v = s.user e v)
    (hword : ∀ w, s.user e v = some w → s'.pm.word (PPN w) = s.pm.word (PPN w)) : s'.page e v = s.page e v := by
  rw [page, page, huser]
  cases hw : s.user e v with
  | none => rfl
  | some w => simp only [Option.map_some, hword w hw]

theorem user_target (mc : Machine) (hv : v.1 < PDX UTOP) (hw : s.user e v = some w) : s.target mc (.pte e v.1 v.2) = some (PPN w) := by
  obtain ⟨hpte, hval⟩ := user_eq_some.1 hw
  obtain ⟨d, t, hd, ht, rfl⟩ := pte_eq_some.1 hpte
  exact (target_pte ((target_pde hd (userIdx_of_lt hv)).trans ht) hv).trans (entry_eq_some.2 ⟨hval, rfl⟩)

/-- The steps for one environment change nothing for another one. -/
theorem Ok.moves_user (h : Ok mc leak s) (hm : Moves mc pol e asid s s') (he : e' ≠ e) (hv : v.1 < PDX UTOP) :
    s'.user e' v = s.user e' v := by
  obtain ⟨hdirs, hframe⟩ := h.moves_frame hm he
  rw [user, user, h.pte_congr (lt_ULIM hv) hdirs fun q hq => (hframe q hq).1]

theorem Ok.moves_page (h : Ok mc leak s) (hm : Moves mc pol e asid s s') (he : e' ≠ e) (hv : v.1 < PDX UTOP) :
    s'.page e' v = s.page e' v :=
  page_congr (h.moves_user hm he hv) fun _ hw => h.moves_content hm he (user_target mc hv hw)

/-! ### Another content of a frame -/

section

variable (h : Ok mc leak ⟨D, m⟩) (hq : ∀ s, s.Structural → Mos.target mc D m.word s ≠ some q)

include h hq

theorem Ok.setFrame (f : Idx → Word) : Ok mc leak ⟨D, m.setFrame q f⟩ :=
  h.same (h.tree.fresh hq f) (target_fresh hq f) rfl rfl rfl

theorem Ok.setFrame_user (f : Idx → Word) (hv : v.1 < PDX UTOP) :
    Mem.user ⟨D, m.setFrame q f⟩ e v = Mem.user ⟨D, m⟩ e v := by
  have hpte := h.pte_congr (n := ⟨D, m.setFrame q f⟩) (lt_ULIM hv) (e := e) rfl fun p hp => by
    obtain ⟨x, hx, -, hxt⟩ := hp
    have hne : p ≠ q := fun heq => hq x hx (heq ▸ hxt)
    exact Pmap.setFrame_word_ne hne f
  rw [user, user, hpte]

theorem Ok.setFrame_page (f : Idx → Word) (hv : v.1 < PDX UTOP) (hne : ∀ w, Mem.user ⟨D, m⟩ e v = some w → PPN w ≠ q) :
    Mem.page ⟨D, m.setFrame q f⟩ e v = Mem.page ⟨D, m⟩ e v :=
  page_congr (h.setFrame_user hq f hv) fun w hw => Pmap.setFrame_word_ne (hne w hw) f

end

/-! ### A new page -/

/-- No two pages of `e` share a frame. -/
def Distinct (s : Mem) (e : EnvPtr) : Prop :=
  ∀ v v' w w', v.1 < PDX UTOP → v'.1 < PDX UTOP → s.user e v = some w → s.user e v' = some w' → PPN w = PPN w' → v = v'

/-- The frame `p` is mapped at `v` with the permissions `perm`; the other pages of `e` are what they were. -/
structure Puts (s : Mem) (e : EnvPtr) (v : Vpn) (p : Nat) (perm : Word) (s' : Mem) : Prop where
  self : s'.user e v = some (Pmap.newPte p perm)
  user : ∀ v', v'.1 < PDX UTOP → v' ≠ v → s'.user e v' = s.user e v'
  page : ∀ v', v'.1 < PDX UTOP → v' ≠ v → s'.page e v' = s.page e v'
  apart : ∀ v' w, v'.1 < PDX UTOP → v' ≠ v → s'.user e v' = some w → PPN w ≠ p

theorem newPte_flags (p : Nat) (perm : Word) : Pmap.newPte p perm &&& 0xFFF = (perm ||| PTE_V) &&& 0xFFF := by
  have hpa : page2pa p &&& 0xFFF = 0 := by
    have hff : (0xFFF : Word) = (BitVec.allOnes 12).setWidth 32 := by decide
    rw [hff]
    apply BitVec.eq_of_getLsbD_eq
    intro i hi
    rw [BitVec.getLsbD_and, BitVec.getLsbD_setWidth, BitVec.getLsbD_allOnes]
    by_cases hlt : i < 12
    · simp [page2pa, hlt]
    · simp only [hlt, decide_false, Bool.and_false]
      exact BitVec.getLsbD_zero.symm
  have hzero : (0 : Word) ||| ((perm ||| PTE_V) &&& 0xFFF) = (perm ||| PTE_V) &&& 0xFFF := BitVec.zero_or
  rw [Pmap.newPte, BitVec.or_assoc, BitVec.and_or_distrib_right, hpa, hzero]

theorem PPN_newPte (hp : p < 2 ^ 20) (hperm : PPN perm = 0) : PPN (Pmap.newPte p perm) = p := by
  rw [PPN_entry hp, hperm, Nat.or_zero]

theorem Puts.distinct (h : Puts s e v p perm s') (hdis : Distinct s e) (hp : PPN (Pmap.newPte p perm) = p) :
    Distinct s' e := by
  intro a b w w' ha hb hw hw' heq
  by_cases hav : a = v
  · by_cases hbv : b = v
    · rw [hav, hbv]
    · subst hav
      rw [h.self] at hw
      obtain rfl := Option.some.inj hw
      exact absurd (heq.symm.trans hp) (h.apart b w' hb hbv hw')
  · by_cases hbv : b = v
    · subst hbv
      rw [h.self] at hw'
      obtain rfl := Option.some.inj hw'
      exact absurd (heq.trans hp) (h.apart a w ha hav hw)
    · rw [h.user a ha hav] at hw
      rw [h.user b hb hbv] at hw'
      exact hdis a b w w' ha hb hw hw' heq

/-- A free frame is taken and filled. -/
private theorem Ok.takeWith (h : Ok mc leak ⟨D, m⟩) (hl : m.pageFreeList = p :: rest) (f : Idx → Word) :
    Ok mc leak ⟨D, m.takeWith p rest f⟩ := by
  have hq := (h.fresh (q := p) (by rw [hl]; exact List.mem_cons_self ..)).notTree
  refine ⟨h.tree.fresh hq f, ?_⟩
  have hrefs : RefOk mc (Mos.target mc D (m.takeWith p rest f).word) leak (m.takeWith p rest f) := by
    rw [Pmap.takeWith, target_fresh hq]
    exact (h.refs.take hl).congr rfl rfl rfl
  exact hrefs

private theorem Ok.takeWith_page (h : Ok mc leak ⟨D, m⟩) (hl : m.pageFreeList = p :: rest) (f : Idx → Word)
    (hv : v.1 < PDX UTOP) : Mem.user ⟨D, m.takeWith p rest f⟩ e v = Mem.user ⟨D, m⟩ e v ∧
      Mem.page ⟨D, m.takeWith p rest f⟩ e v = Mem.page ⟨D, m⟩ e v := by
  have hfresh := h.fresh (q := p) (by rw [hl]; exact List.mem_cons_self ..)
  have hpte := h.pte_congr (n := ⟨D, m.takeWith p rest f⟩) (lt_ULIM hv) (e := e) rfl fun x hx => by
    obtain ⟨y, -, -, hyx⟩ := hx
    have hne : x ≠ p := fun heq => hfresh.unused y (heq ▸ hyx)
    exact Pmap.takeWith_word hne
  have huser : Mem.user ⟨D, m.takeWith p rest f⟩ e v = Mem.user ⟨D, m⟩ e v := by rw [user, user, hpte]
  refine ⟨huser, page_congr huser fun w hw => ?_⟩
  have hne : PPN w ≠ p := fun heq => hfresh.unused _ (heq ▸ user_target mc hv hw)
  exact Pmap.takeWith_word hne

/-- The frame that was taken may be mapped. -/
private theorem Ok.taken_insertable (h : Ok mc leak ⟨D, m⟩) (hl : m.pageFreeList = p :: rest) (f : Idx → Word)
    (hperm : PPN perm = 0) : Insertable mc .any D (m.takeWith p rest f) p perm := by
  have hfresh := h.fresh (q := p) (by rw [hl]; exact List.mem_cons_self ..)
  have htgt : Mos.target mc D (m.takeWith p rest f).word = Mos.target mc D m.word := target_fresh hfresh.notTree f
  constructor
  · refine ⟨hfresh.bound, ?_⟩
    rw [htgt]
    exact hfresh.notTree
  · exact (List.nodup_cons.1 (hl ▸ h.refs.nodup)).1
  · rw [hperm, Nat.or_zero]
  · trivial
  · rw [htgt]
    exact .inl hfresh.unused

/-- `page_insert` writes tables only. -/
theorem Ok.pageInsert_word (h : Ok mc leak ⟨D, m⟩) (hd : D e = some d) (hi : PDX va < PDX UTOP)
    (hp : m.pageInsert d asid p va perm = some (0, m')) (hq : ∀ s, s.Structural → Mos.target mc D m.word s ≠ some q)
    (hfree : q ∉ m.pageFreeList) : m'.word q = m.word q := by
  have hpde : ∀ {t}, entry (m.word d (PDX va)) = some t → Mos.target mc D m.word (.pde e (PDX va)) = some t :=
    fun ht => (target_pde hd (userIdx_of_lt hi)).trans ht
  have hdir : entry (m.word d (PDX va)) ≠ some d := fun ht => by
    cases h.tree.tree (.dir e) (.pde e (PDX va)) d trivial hd (hpde ht)
  rcases Pmap.pageInsert_effect hdir hp with ⟨t, ht, hw⟩ | ⟨t, rest, -, hl, rfl⟩
  · have hqt : q ≠ t := fun heq => hq (.pde e (PDX va)) trivial (heq ▸ hpde ht)
    rw [hw.word, Function.update_of_ne hqt]
  · have hqt : q ≠ t := fun heq => hfree (by rw [hl, heq]; exact List.mem_cons_self ..)
    have hqd : q ≠ d := fun heq => hq (.dir e) trivial (heq ▸ hd)
    rw [Pmap.fill_word hqt, Pmap.link_word hqd hqt]
    rfl

/-- What `page_insert` makes of a frame that nothing refers to. -/
private theorem Ok.insert_new (h : Ok mc leak ⟨D, m⟩) (hd : D e = some d) (hi : PDX va < PDX UTOP)
    (hins : Insertable mc .any D m p perm) (hunused : ∀ s, Mos.target mc D m.word s ≠ some p) (href : m.ppRef p = 0)
    (hp : m.pageInsert d asid p va perm = some (0, m')) :
    Puts ⟨D, m⟩ e (VPN va) p perm ⟨D, m'⟩ ∧ m'.word p = m.word p ∧ m'.ppRef p = 1 := by
  obtain ⟨r, hr, hst⟩ := h.pageInsert_stores hd hi hp
  have hself : Mem.user ⟨D, m'⟩ e (VPN va) = some (Pmap.newPte p perm) := by
    rw [hst.self]
    cases hr
    rfl
  have hpde : ∀ {t}, entry (m.word d (PDX va)) = some t → Mos.target mc D m.word (.pde e (PDX va)) = some t :=
    fun ht => (target_pde hd (userIdx_of_lt hi)).trans ht
  have hdir : entry (m.word d (PDX va)) ≠ some d := fun ht => by
    cases h.tree.tree (.dir e) (.pde e (PDX va)) d trivial hd (hpde ht)
  have hword := fun q => h.pageInsert_word hd hi hp (q := q)
  refine ⟨⟨hself, hst.other, fun v' hv hne => ?_, fun v' w hv hne hw heq => ?_⟩, hword p hins.data.notTree hins.notFree, ?_⟩
  · refine page_congr (hst.other v' hv hne) fun w hw => ?_
    have htgt := user_target mc hv hw
    exact hword _ (h.tree.data_of_pte htgt).notTree (h.refs.notMem_free htgt)
  · rw [hst.other v' hv hne] at hw
    exact hunused _ (heq ▸ user_target mc hv hw)
  · rcases Pmap.pageInsert_effect hdir hp with ⟨t, ht, hw⟩ | ⟨t, rest, -, hl, rfl⟩
    · have hne : entry (m.word t (PTX va)) ≠ some p := fun hpte =>
        hunused (.pte e (PDX va) (PTX va)) ((target_pte (hpde ht) hi).trans hpte)
      rw [hw.ref hne, href]
      rfl
    · have hpt : p ≠ t := fun heq => hins.notFree (by rw [hl, heq]; exact List.mem_cons_self ..)
      have hlink : ((m.tlbInvalidate asid va).linkTable d t rest (PDX va)).ppRef p = m.ppRef p :=
        Function.update_of_ne hpt ..
      have hfill : (((m.tlbInvalidate asid va).linkTable d t rest (PDX va)).fill t (PTX va) p perm).ppRef p =
          ((m.tlbInvalidate asid va).linkTable d t rest (PDX va)).ppRef p + 1 := Function.update_self ..
      rw [hfill, hlink, href]
      rfl

/-- A free frame is taken, filled and mapped. -/
theorem Ok.map_new (h : Ok mc leak ⟨D, m⟩) (hd : D e = some d) (hi : PDX va < PDX UTOP) (hl : m.pageFreeList = p :: rest)
    (hperm : PPN perm = 0) (hp : (m.takeWith p rest f).pageInsert d asid p va perm = some (0, m')) :
    (∃ leak', Ok mc leak' ⟨D, m'⟩) ∧ Puts ⟨D, m⟩ e (VPN va) p perm ⟨D, m'⟩ ∧ m'.word p = f ∧ m'.ppRef p = 1 ∧
      ∀ e' v, e' ≠ e → v.1 < PDX UTOP → Mem.user ⟨D, m'⟩ e' v = Mem.user ⟨D, m⟩ e' v ∧
        Mem.page ⟨D, m'⟩ e' v = Mem.page ⟨D, m⟩ e' v := by
  have hfresh := h.fresh (q := p) (by rw [hl]; exact List.mem_cons_self ..)
  have href : m.ppRef p = 0 := (h.refs.free p (by rw [hl]; exact List.mem_cons_self ..)).2
  have htgt : Mos.target mc D (m.takeWith p rest f).word = Mos.target mc D m.word := target_fresh hfresh.notTree f
  have h₁ := h.takeWith hl f
  have hins := h.taken_insertable hl f hperm
  have hmoves : Moves mc .any e asid ⟨D, m.takeWith p rest f⟩ ⟨D, m'⟩ := by
    refine h₁.pageInsert_moves hd hi hins (.inl ?_) hp
    have href' : (m.takeWith p rest f).ppRef p = 0 := href
    rw [href']
    decide
  obtain ⟨leak', h', -⟩ := h₁.moves hmoves
  obtain ⟨hputs, hword, hone⟩ := h₁.insert_new hd hi hins (by rw [htgt]; exact hfresh.unused) href hp
  have hsame : ∀ {e' : EnvPtr} {v : Vpn}, v.1 < PDX UTOP →
      Mem.user ⟨D, m.takeWith p rest f⟩ e' v = Mem.user ⟨D, m⟩ e' v ∧
        Mem.page ⟨D, m.takeWith p rest f⟩ e' v = Mem.page ⟨D, m⟩ e' v := fun hv => h.takeWith_page hl f hv
  refine ⟨⟨leak', h'⟩, ⟨hputs.self, ?_, ?_, hputs.apart⟩, hword.trans (Function.update_self ..), hone, ?_⟩
  · exact fun v hv hne => (hputs.user v hv hne).trans (hsame hv).1
  · exact fun v hv hne => (hputs.page v hv hne).trans (hsame hv).2
  · exact fun e' v he hv => ⟨(h₁.moves_user hmoves he hv).trans (hsame hv).1, (h₁.moves_page hmoves he hv).trans (hsame hv).2⟩

end Mem

end Mos
