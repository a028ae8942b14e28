import Mos.Cow.Fork
import Mos.Elf.Mapper
import Mos.Lib.CopyOnWrite

/-!
# The pages of all environments as a store

What the environments map below `UTOP` is a store in the sense of `Mos.Lib.CopyOnWrite`: `PTE_D`, `PTE_COW` and `PTE_LIBRARY`
say whether a page may be written, is to be copied, and is shared.  Where an operation on one address space maps a frame that
was free, or one that is shared already, the environment renews a page of its own.
-/

namespace Mos

open Cow

/-- What an entry says. -/
def pteEntry (w : Word) : Entry Nat := ⟨PPN w, has w PTE_D, has w PTE_COW, has w PTE_LIBRARY⟩

/-- The permissions of a page that may be mapped by itself: it cannot be written without a copy and be copied as well. -/
def plainPerm (perm : Word) : Bool := has perm PTE_LIBRARY || !has perm PTE_D || !has perm PTE_COW

namespace Mem

variable {mc : Machine} {leak : Nat → Nat} {s s' : Mem} {D : Dirs} {m m' : Pmap} {e e' x : EnvPtr} {asid : Asid}
  {d p q : Nat} {u v : Vpn} {w perm va r : Word} {rest : List Nat} {a : Entry Nat}

/-- The pages below `UTOP`. -/
def store (s : Mem) : Store EnvPtr Vpn Nat (Idx → Word) where
  map e v := if v.1 < PDX UTOP then (s.user e v).map pteEntry else none
  content := s.pm.word

theorem store_map (hv : v.1 < PDX UTOP) : s.store.map e v = (s.user e v).map pteEntry := if_pos hv

theorem store_map_some : s.store.map e v = some a ↔ v.1 < PDX UTOP ∧ ∃ w, s.user e v = some w ∧ pteEntry w = a := by
  rw [store]
  dsimp only
  split
  case isTrue hv => simp [hv]
  case isFalse hv => simp [hv]

/-- The frame of a page is referred to by its entry. -/
theorem store_target (mc : Machine) (h : s.store.map e v = some a) : s.target mc (.pte e v.1 v.2) = some a.frame := by
  obtain ⟨hv, w, hw, rfl⟩ := store_map_some.1 h
  exact user_target mc hv hw

/-- Only the tables, and the frames that are mapped, matter. -/
theorem store_congr (huser : ∀ x u, u.1 < PDX UTOP → s'.user x u = s.user x u) : s'.store.map = s.store.map := by
  funext x u
  rw [store, store]
  dsimp only
  split
  case isTrue hu => rw [huser x u hu]
  case isFalse => rfl

private theorem entry_COW (pp : Nat) (perm : Word) : has (Pmap.newPte pp perm) PTE_COW = has perm PTE_COW := by
  have hbit : ∀ w : Word, has w PTE_COW = w.getLsbD 0 := fun w => has_eq_getLsbD w 0 (by decide)
  rw [hbit, hbit, getLsbD_entry _ _ (by decide)]
  simp

private theorem entry_LIBRARY (pp : Nat) (perm : Word) : has (Pmap.newPte pp perm) PTE_LIBRARY = has perm PTE_LIBRARY := by
  have hbit : ∀ w : Word, has w PTE_LIBRARY = w.getLsbD 2 := fun w => has_eq_getLsbD w 2 (by decide)
  rw [hbit, hbit, getLsbD_entry _ _ (by decide)]
  simp

theorem pteEntry_newPte (hp : p < 2 ^ 20) (hbits : p ||| PPN perm = p) :
    pteEntry (Pmap.newPte p perm) = ⟨p, has perm PTE_D, has perm PTE_COW, has perm PTE_LIBRARY⟩ := by
  rw [pteEntry, entry_D, entry_COW, entry_LIBRARY, PPN_entry hp, hbits]

/-! ### Frames that are not written -/

theorem Ok.pageRemove_word (h : Ok mc leak ⟨D, m⟩) (hd : D e = some d) (hi : PDX va < PDX UTOP)
    (hr : m.pageRemove d asid va = some m') (hq : ∀ s, s.Structural → Mos.target mc D m.word s ≠ some q) :
    m'.word q = m.word q := by
  rcases h.pageRemove_cases hd hi hr with ⟨-, rfl⟩ | ⟨t, p, m₁, ht, -, hdec, rfl⟩
  · rfl
  · have hqt : q ≠ t := fun heq => hq (.pde e (PDX va)) trivial (heq ▸ ht)
    have hset : (m₁.setWord t (PTX va) 0).word q = m₁.word q := Function.update_of_ne hqt ..
    exact hset.trans (congrFun (pageDecref_word hdec).1 q)

/-- `page_insert` writes tables only, also where it fails. -/
theorem Ok.pageInsert_words (h : Ok mc leak ⟨D, m⟩) (hd : D e = some d) (hi : PDX va < PDX UTOP)
    (hp : m.pageInsert d asid p va perm = some (r, m')) (hq : ∀ s, s.Structural → Mos.target mc D m.word s ≠ some q)
    (hfree : q ∉ m.pageFreeList) : m'.word q = m.word q := by
  by_cases hr : r = 0
  · subst hr
    exact h.pageInsert_word hd hi hp hq hfree
  · have hfull : ∀ {n : Pmap}, n.pageInsertFresh d asid p va perm = some (r, m') → m'.word = n.word := by
      intro n hp
      rcases Pmap.pageInsertFresh_cases hp with ⟨_, _, h0, -⟩ | ⟨-, -, -, rfl⟩ | ⟨_, _, _, _, h0, -⟩
      · exact absurd h0 hr
      · rfl
      · exact absurd h0 hr
    rcases Pmap.pageInsert_cases hp with ⟨-, hp⟩ | ⟨t, q', m₁, -, -, hrem, hp⟩ | ⟨_, _, h0, -⟩
    · rw [hfull hp]
    · rw [hfull hp]
      exact h.pageRemove_word hd hi hrem hq
    · exact absurd h0 hr

/-! ### Renewing pages -/

/-- Steps for one environment that change one of its entries, and no frame of another of its pages. -/
theorem Ok.renews (h : Ok mc leak s) (hm : Moves mc .any e asid s s') {o : Option Word} (hst : Stores s e v o s')
    (hword : ∀ q, (∀ x, x.Structural → s.target mc x ≠ some q) → q ∉ s.pm.pageFreeList → s'.pm.word q = s.pm.word q)
    (hnew : ∀ w, v.1 < PDX UTOP → o = some w → Store.Fresh s.store e v (pteEntry w) s'.store ∨ Store.Joins s.store (pteEntry w)) :
    Store.Renews s.store e {v} s'.store where
  other x u hx := by
    rw [store, store]
    dsimp only
    split
    case isTrue hu => rw [h.moves_user hm hx hu]
    case isFalse => rfl
  keep u hu := by
    rw [store, store]
    dsimp only
    split
    case isTrue hlt => rw [hst.other u hlt hu]
    case isFalse => rfl
  content x u a hx ha := by
    have ht := store_target mc ha
    exact hword _ (h.tree.data_of_pte ht).notTree (h.refs.notMem_free ht)
  new u a ha := by
    obtain ⟨hu, w, hw, rfl⟩ := store_map_some.1 ha
    by_cases huv : u = v
    · subst huv
      exact .inr (hnew w hu (hst.self.symm.trans hw))
    · rw [hst.other u hu huv] at hw
      exact .inl (store_map_some.2 ⟨hu, w, hw, rfl⟩)

/-- An entry for a frame that nothing referred to. -/
private theorem fresh_entry {o : Option Word} (hst : Stores s e v o s') (hq : ∀ x, s.target mc x ≠ some a.frame)
    (hplain : a.shared = false → a.writable = true → a.cow = false) : Store.Fresh s.store e v a s'.store where
  other x u b _ hb heq := hq _ (heq ▸ store_target mc hb)
  own u b hu hb heq := by
    obtain ⟨hlt, w, hw, rfl⟩ := store_map_some.1 hb
    rw [hst.other u hlt hu] at hw
    have ht := user_target mc hlt hw
    exact hq _ (ht.trans (congrArg some heq))
  plain := hplain

section

variable (h : Ok mc leak ⟨D, m⟩) (hd : D e = some d) (hi : PDX va < PDX UTOP) (hl : m.pageFreeList = p :: rest)
  (hins : r = 0 → p ||| PPN perm = p ∧ plainPerm perm = true)
  (hp : (m.take p rest).pageInsert d asid p va perm = some (r, m'))

include h hd hi hl hins hp

/-- What is stored when a free page is taken and inserted. -/
private theorem Ok.alloc_stores : ∃ o, Stores ⟨D, m⟩ e (VPN va) o ⟨D, m'⟩ ∧
    ∀ w, o = some w → Store.Fresh (store ⟨D, m⟩) e (VPN va) (pteEntry w) (store ⟨D, m'⟩) := by
  have hfresh := h.fresh (q := p) (by rw [hl]; exact List.mem_cons_self ..)
  obtain ⟨o, ho, hst⟩ := (h.take hl).pageInsert_stores hd hi hp
  have hst' : Stores ⟨D, m⟩ e (VPN va) o ⟨D, m'⟩ :=
    ⟨hst.self, fun u hu hne => (hst.other u hu hne).trans (h.take_user hl hu)⟩
  refine ⟨o, hst', fun w hw => ?_⟩
  subst hw
  cases ho
  obtain ⟨hbits, hplain⟩ := hins rfl
  rw [pteEntry_newPte (h.free_lt (by rw [hl]; exact List.mem_cons_self ..)) hbits]
  refine fresh_entry hst' hfresh.unused fun hs hw => ?_
  dsimp only at hs hw
  rw [plainPerm, hs, hw] at hplain
  simpa using hplain

/-- An entry after that is an old one, or a new one. -/
theorem Ok.alloc_fresh {u : Vpn} (ha : (store ⟨D, m'⟩).map e u = some a) :
    (store ⟨D, m⟩).map e u = some a ∨ Store.Fresh (store ⟨D, m⟩) e u a (store ⟨D, m'⟩) := by
  obtain ⟨o, hst, hfresh⟩ := h.alloc_stores hd hi hl hins hp
  obtain ⟨hu, w, hw, rfl⟩ := store_map_some.1 ha
  by_cases huv : u = VPN va
  · subst huv
    exact .inr (hfresh w (hst.self.symm.trans hw))
  · rw [hst.other u hu huv] at hw
    exact .inl (store_map_some.2 ⟨hu, w, hw, rfl⟩)

theorem Ok.alloc_renews (hm : Moves mc .any e asid ⟨D, m⟩ ⟨D, m'⟩) :
    Store.Renews (store ⟨D, m⟩) e {VPN va} (store ⟨D, m'⟩) := by
  obtain ⟨o, hst, hfresh⟩ := h.alloc_stores hd hi hl hins hp
  refine h.renews hm hst (fun q hq hfree => ?_) fun w _ hw => .inl (hfresh w hw)
  have hqp : q ≠ p := fun heq => hfree (by rw [heq]; exact hl ▸ List.mem_cons_self ..)
  have htake : (m.take p rest).word q = m.word q := Function.update_of_ne hqp ..
  have htgt : Mos.target mc D (m.take p rest).word = Mos.target mc D m.word :=
    target_fresh (h.fresh (q := p) (by rw [hl]; exact List.mem_cons_self ..)).notTree _
  refine ((h.take hl).pageInsert_words hd hi hp (fun x hx => ?_) fun hmem => hfree (hl ▸ List.mem_cons_of_mem p hmem)).trans htake
  rw [htgt]
  exact hq x hx

end

theorem Ok.remove_renews (h : Ok mc leak ⟨D, m⟩) (hd : D e = some d) (hi : PDX va < PDX UTOP)
    (hr : m.pageRemove d asid va = some m') : Store.Renews (store ⟨D, m⟩) e {VPN va} (store ⟨D, m'⟩) :=
  h.renews (h.pageRemove_moves hd hi hr) (h.pageRemove_stores hd hi hr) (fun _ hq _ => h.pageRemove_word hd hi hr hq)
    fun _ _ hw => by cases hw

/-- Whether a page with the entry `w` may be mapped once more with the permissions `perm`. -/
def joinPerm (w perm : Word) : Bool :=
  has w PTE_LIBRARY == has perm PTE_LIBRARY && (has perm PTE_LIBRARY || !has perm PTE_D && !has w PTE_D)

/-- A page is mapped once more. -/
theorem Ok.share_renews (h : Ok mc leak ⟨D, m⟩) (hd : D e = some d) (hi : PDX va < PDX UTOP) (hu : u.1 < PDX UTOP)
    (hw : Mem.user ⟨D, m⟩ x u = some w) (hins : r = 0 → PPN w ||| PPN perm = PPN w ∧ joinPerm w perm = true)
    (hm : Moves mc .any e asid ⟨D, m⟩ ⟨D, m'⟩) (hp : m.pageInsert d asid (PPN w) va perm = some (r, m')) :
    Store.Renews (store ⟨D, m⟩) e {VPN va} (store ⟨D, m'⟩) := by
  obtain ⟨o, ho, hst⟩ := h.pageInsert_stores hd hi hp
  refine h.renews hm hst (fun q hq hfree => h.pageInsert_words hd hi hp hq hfree) fun w' _ hw' => ?_
  subst hw'
  cases ho
  obtain ⟨hbits, hjoin⟩ := hins rfl
  simp only [joinPerm, Bool.and_eq_true, beq_iff_eq, Bool.or_eq_true, Bool.not_eq_true'] at hjoin
  rw [pteEntry_newPte (PPN_lt w) hbits]
  refine .inr ⟨x, u, pteEntry w, store_map_some.2 ⟨hu, w, hw, rfl⟩, rfl, hjoin.1, fun hs => ?_⟩
  dsimp only at hs
  rw [hs] at hjoin
  exact hjoin.2.resolve_left (by decide)

/-- An environment without pages. -/
theorem Ok.renews_none (h : Ok mc leak s) (hm : Moves mc .any e asid s s') (hnone : ∀ u, u.1 < PDX UTOP → s'.user e u = none) :
    Store.Renews s.store e Set.univ s'.store where
  other x u hx := by
    rw [store, store]
    dsimp only
    split
    case isTrue hu => rw [h.moves_user hm hx hu]
    case isFalse => rfl
  keep u hu := absurd (Set.mem_univ u) hu
  content x u a hx ha := by
    have hne : x ≠ e := fun heq => hx heq (Set.mem_univ u)
    exact h.moves_content hm hne (store_target mc ha)
  new u a ha := by
    obtain ⟨hu, w, hw, -⟩ := store_map_some.1 ha
    rw [hnone u hu] at hw
    cases hw

end Mem

end Mos
