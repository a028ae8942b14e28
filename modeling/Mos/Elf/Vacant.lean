import Mos.Elf.Load
import Mos.Inv.Tree

/-!
# Mapping new pages

Where the pages to be mapped have no valid entry and the tables that are there are neither free nor shared between
directory entries, mapping them one after the other disturbs nothing: no page that was mapped before, and none that is
still to be mapped.
-/

namespace Mos

namespace Pmap

/-- The pages `S` can be mapped in the address space of the directory `d`.  They may lie in a window onto the page tables,
but not in the one onto a table that serves another of them. -/
structure Vacant (m : Pmap) (d : Nat) (S : Set Vpn) : Prop where
  nodup : m.pageFreeList.Nodup
  bound : ∀ p ∈ m.pageFreeList, p < m.npage
  kseg0 : m.npage ≤ 2 ^ 17
  dir : d ∉ m.pageFreeList
  table : ∀ v ∈ S, ∀ t, entry (m.word d v.1) = some t → t ∉ m.pageFreeList
  apart : ∀ v ∈ S, ∀ v' ∈ S, ∀ t, entry (m.word d v.1) = some t → entry (m.word d v'.1) = some t → v.1 = v'.1
  window : ∀ v ∈ S, entry (m.word d v.1) = some d → ∀ v' ∈ S, v'.1 ≠ v.2
  unmapped : ∀ v ∈ S, ∀ t, entry (m.word d v.1) = some t → entry (m.word t v.2) = none

/-- A frame in use that is no table of the pages `S`. -/
structure InUse (m : Pmap) (d : Nat) (S : Set Vpn) (p : Nat) : Prop where
  lt : p < m.npage
  taken : p ∉ m.pageFreeList
  dir : p ≠ d
  table : ∀ v ∈ S, entry (m.word d v.1) ≠ some p

/-- The page `v` is mapped by the entry `w` to a frame with the content `f`. -/
structure Mapped (m : Pmap) (d : Nat) (S : Set Vpn) (v : Vpn) (w : Word) (f : Idx → Word) (t p : Nat) : Prop where
  pde : entry (m.word d v.1) = some t
  lt : t < m.npage
  taken : t ∉ m.pageFreeList
  pte : m.word t v.2 = w
  page : entry w = some p
  inUse : InUse m d S p
  content : m.word p = f

variable {m m' : Pmap} {d t p p' q : Nat} {S S' : Set Vpn} {v v' : Vpn} {w : Word} {f g : Idx → Word} {rest : List Nat}
  {i j : Idx} {perm va : Word} {asid : Asid}

/-! ### What the predicates depend on -/

private theorem Vacant.flush (h : Vacant m d S) (asid : Asid) (va : Word) : Vacant (m.tlbInvalidate asid va) d S :=
  ⟨h.nodup, h.bound, h.kseg0, h.dir, h.table, h.apart, h.window, h.unmapped⟩

private theorem InUse.flush (h : InUse m d S p) (asid : Asid) (va : Word) : InUse (m.tlbInvalidate asid va) d S p :=
  ⟨h.lt, h.taken, h.dir, h.table⟩

private theorem Mapped.flush (h : Mapped m d S v w f t p) (asid : Asid) (va : Word) :
    Mapped (m.tlbInvalidate asid va) d S v w f t p :=
  ⟨h.pde, h.lt, h.taken, h.pte, h.page, h.inUse.flush asid va, h.content⟩

theorem Vacant.mono (h : Vacant m d S) (hS : S' ⊆ S) : Vacant m d S' where
  nodup := h.nodup
  bound := h.bound
  kseg0 := h.kseg0
  dir := h.dir
  table := fun v hv => h.table v (hS hv)
  apart := fun v hv v' hv' => h.apart v (hS hv) v' (hS hv')
  window := fun v hv hd v' hv' => h.window v (hS hv) hd v' (hS hv')
  unmapped := fun v hv => h.unmapped v (hS hv)

private theorem InUse.mono (h : InUse m d S p) (hS : S' ⊆ S) : InUse m d S' p :=
  ⟨h.lt, h.taken, h.dir, fun v hv => h.table v (hS hv)⟩

theorem Mapped.mono (h : Mapped m d S v w f t p) (hS : S' ⊆ S) : Mapped m d S' v w f t p :=
  { h with inUse := h.inUse.mono hS }

/-! ### Taking a page -/

/-- The first free frame is taken and filled. -/
def takeWith (m : Pmap) (p : Nat) (rest : List Nat) (f : Idx → Word) : Pmap :=
  { m with pageFreeList := rest, word := Function.update m.word p f }

theorem takeWith_word (hq : q ≠ p) : (m.takeWith p rest f).word q = m.word q := Function.update_of_ne hq ..

section

variable (h : Vacant m d S) (hl : m.pageFreeList = p :: rest)

include h hl

private theorem Vacant.dir_ne : d ≠ p := fun hd => h.dir (by rw [hl, hd]; exact List.mem_cons_self ..)

private theorem Vacant.table_ne (hv : v ∈ S) (ht : entry (m.word d v.1) = some t) : t ≠ p :=
  fun htp => h.table v hv t ht (by rw [hl, htp]; exact List.mem_cons_self ..)

private theorem Vacant.takeWith : Vacant (m.takeWith p rest f) d S := by
  have hnodup := h.nodup
  rw [hl, List.nodup_cons] at hnodup
  have hsub : ∀ {q}, q ∉ m.pageFreeList → q ∉ rest := fun hq hr => hq (by rw [hl]; exact List.mem_cons_of_mem _ hr)
  have hdir : (m.takeWith p rest f).word d = m.word d := takeWith_word (h.dir_ne hl)
  constructor
  · exact hnodup.2
  · exact fun q hq => h.bound q (by rw [hl]; exact List.mem_cons_of_mem _ hq)
  · exact h.kseg0
  · exact hsub h.dir
  · rw [hdir]
    exact fun v hv t ht => hsub (h.table v hv t ht)
  · rw [hdir]
    exact h.apart
  · rw [hdir]
    exact h.window
  · rw [hdir]
    intro v hv t ht
    rw [takeWith_word (h.table_ne hl hv ht)]
    exact h.unmapped v hv t ht

private theorem Vacant.inUse_taken : InUse (m.takeWith p rest f) d S p := by
  have hnodup := h.nodup
  rw [hl, List.nodup_cons] at hnodup
  have hdir : (m.takeWith p rest f).word d = m.word d := takeWith_word (h.dir_ne hl)
  constructor
  · exact h.bound p (by rw [hl]; exact List.mem_cons_self ..)
  · exact hnodup.1
  · exact (h.dir_ne hl).symm
  · rw [hdir]
    exact fun v hv ht => h.table_ne hl hv ht rfl

private theorem InUse.takeWith (hq : InUse m d S q) : InUse (m.takeWith p rest f) d S q := by
  have hdir : (m.takeWith p rest f).word d = m.word d := takeWith_word (h.dir_ne hl)
  constructor
  · exact hq.lt
  · exact fun hr => hq.taken (by rw [hl]; exact List.mem_cons_of_mem _ hr)
  · exact hq.dir
  · rw [hdir]
    exact hq.table

private theorem Mapped.takeWith (hm : Mapped m d S v w g t q) : Mapped (m.takeWith p rest f) d S v w g t q := by
  have hne : ∀ {x}, x ∉ m.pageFreeList → x ≠ p := fun hx heq => hx (by rw [hl, heq]; exact List.mem_cons_self ..)
  constructor
  · rw [takeWith_word (h.dir_ne hl)]
    exact hm.pde
  · exact hm.lt
  · exact fun hr => hm.taken (by rw [hl]; exact List.mem_cons_of_mem _ hr)
  · rw [takeWith_word (hne hm.taken)]
    exact hm.pte
  · exact hm.page
  · exact hm.inUse.takeWith h hl
  · rw [takeWith_word (hne hm.inUse.taken)]
    exact hm.content

end

/-! ### Linking a table -/

section

variable (h : Vacant m d S) (hl : m.pageFreeList = t :: rest) (hnone : entry (m.word d i) = none)

include h hl

private theorem Vacant.link_dir : (m.linkTable d t rest i).word d = Function.update (m.word d) i (tablePde t) := by
  have hdt : d ≠ t := h.dir_ne hl
  simp [linkTable, setWord, setRef, Function.update_of_ne hdt]

private theorem Vacant.link_table : (m.linkTable d t rest i).word t = fun _ => 0 := by
  have htd : t ≠ d := (h.dir_ne hl).symm
  simp [linkTable, setWord, setRef, Function.update_of_ne htd]

/-- The new entry of the directory is for the new table, and the others are what they were. -/
private theorem Vacant.link_entry (i' : Idx) : entry ((m.linkTable d t rest i).word d i') =
    if i' = i then some t else entry (m.word d i') := by
  have ht : t < 2 ^ 20 := by
    have hlt := h.bound t (by rw [hl]; exact List.mem_cons_self ..)
    have hk := h.kseg0
    omega
  rw [h.link_dir hl]
  by_cases hi : i' = i
  · rw [hi, Function.update_self, if_pos rfl, entry_tablePde ht]
  · rw [Function.update_of_ne hi, if_neg hi]

private theorem Vacant.link (hj : (i, j) ∈ S) (hnone : entry (m.word d i) = none) :
    Vacant (m.linkTable d t rest i) d S := by
  have hnodup := h.nodup
  rw [hl, List.nodup_cons] at hnodup
  have hsub : ∀ {q}, q ∉ m.pageFreeList → q ∉ rest := fun hq hr => hq (by rw [hl]; exact List.mem_cons_of_mem _ hr)
  have hent := h.link_entry hl (i := i)
  constructor
  · exact hnodup.2
  · exact fun q hq => h.bound q (by rw [hl]; exact List.mem_cons_of_mem _ hq)
  · exact h.kseg0
  · exact hsub h.dir
  · intro v hv t' ht'
    rw [hent] at ht'
    split at ht'
    case isTrue => exact Option.some.inj ht' ▸ hnodup.1
    case isFalse => exact hsub (h.table v hv t' ht')
  · intro v hv v' hv' t' ht ht'
    rw [hent] at ht ht'
    by_cases hi : v.1 = i
    · rw [if_pos hi] at ht
      by_cases hi' : v'.1 = i
      · rw [hi, hi']
      · rw [if_neg hi'] at ht'
        exact absurd (Option.some.inj ht).symm (h.table_ne hl hv' ht')
    · rw [if_neg hi] at ht
      by_cases hi' : v'.1 = i
      · rw [if_pos hi'] at ht'
        exact absurd (Option.some.inj ht').symm (h.table_ne hl hv ht)
      · rw [if_neg hi'] at ht'
        exact h.apart v hv v' hv' t' ht ht'
  · intro v hv ht
    rw [hent] at ht
    split at ht
    case isTrue => exact absurd (Option.some.inj ht).symm (h.dir_ne hl)
    case isFalse => exact h.window v hv ht
  · intro v hv t' ht'
    rw [hent] at ht'
    split at ht'
    case isTrue =>
      obtain rfl := Option.some.inj ht'
      rw [h.link_table hl]
      exact entry_zero
    case isFalse =>
      by_cases hd : t' = d
      · -- a window: the entry that is written is not that of the page
        subst hd
        have hne : v.2 ≠ i := (h.window v hv ht' (i, j) hj).symm
        rw [hent, if_neg hne]
        exact h.unmapped v hv t' ht'
      · rw [link_word hd (h.table_ne hl hv ht')]
        exact h.unmapped v hv t' ht'

private theorem InUse.link (hq : InUse m d S q) : InUse (m.linkTable d t rest i) d S q := by
  constructor
  · exact hq.lt
  · exact fun hr => hq.taken (by rw [hl]; exact List.mem_cons_of_mem _ hr)
  · exact hq.dir
  · intro v hv ht
    rw [h.link_entry hl] at ht
    split at ht
    case isTrue => exact hq.taken (by rw [hl, Option.some.inj ht]; exact List.mem_cons_self ..)
    case isFalse => exact hq.table v hv ht

private theorem Mapped.link (hnone : entry (m.word d i) = none) (hm : Mapped m d S v w g p q) :
    Mapped (m.linkTable d t rest i) d S v w g p q := by
  have hne : ∀ {x}, x ∉ m.pageFreeList → x ≠ t := fun hx heq => hx (by rw [hl, heq]; exact List.mem_cons_self ..)
  constructor
  · rw [h.link_entry hl, if_neg]
    · exact hm.pde
    · intro hi
      rw [← hi, hm.pde] at hnone
      cases hnone
  · exact hm.lt
  · exact fun hr => hm.taken (by rw [hl]; exact List.mem_cons_of_mem _ hr)
  · by_cases hd : p = d
    · subst hd
      have hi : v.2 ≠ i := by
        intro hi
        rw [← hi, hm.pte, hm.page] at hnone
        cases hnone
      rw [h.link_dir hl, Function.update_of_ne hi]
      exact hm.pte
    · rw [link_word hd (hne hm.taken)]
      exact hm.pte
  · exact hm.page
  · exact hm.inUse.link h hl
  · rw [link_word hm.inUse.dir (hne hm.inUse.taken)]
    exact hm.content

end

/-! ### Writing an entry -/

section

variable (h : Vacant m d S) (hij : (i, j) ∈ S) (ht : entry (m.word d i) = some t)

include h hij ht

/-- Within the directory, only a window changes. -/
private theorem Vacant.fill_dir (hv : v ∈ S) : (m.fill t j p perm).word d v.1 = m.word d v.1 := by
  by_cases hd : d = t
  · subst hd
    rw [fill_table, Function.update_of_ne (h.window (i, j) hij ht v hv)]
  · rw [fill_word hd]

private theorem Vacant.fill : Vacant (m.fill t j p perm) d (S \ {(i, j)}) := by
  have hdir : ∀ {v}, v ∈ S \ {(i, j)} → (m.fill t j p perm).word d v.1 = m.word d v.1 := fun hv =>
    h.fill_dir hij ht hv.1
  constructor
  · exact h.nodup
  · exact h.bound
  · exact h.kseg0
  · exact h.dir
  · intro v hv t' ht'
    rw [hdir hv] at ht'
    exact h.table v hv.1 t' ht'
  · intro v hv v' hv' t' ht' ht''
    rw [hdir hv] at ht'
    rw [hdir hv'] at ht''
    exact h.apart v hv.1 v' hv'.1 t' ht' ht''
  · intro v hv hd v' hv'
    rw [hdir hv] at hd
    exact h.window v hv.1 hd v' hv'.1
  · intro v hv t' ht'
    rw [hdir hv] at ht'
    have hold := h.unmapped v hv.1 t' ht'
    by_cases htt : t' = t
    · subst htt
      have hi : v.1 = i := h.apart v hv.1 (i, j) hij t' ht' ht
      have hj : v.2 ≠ j := fun hj => hv.2 (Prod.ext hi hj)
      rw [fill_table, Function.update_of_ne hj]
      exact hold
    · rw [fill_word htt]
      exact hold

private theorem InUse.fill (hq : InUse m d S q) : InUse (m.fill t j p perm) d (S \ {(i, j)}) q := by
  constructor
  · exact hq.lt
  · exact hq.taken
  · exact hq.dir
  · intro v hv
    rw [h.fill_dir hij ht hv.1]
    exact hq.table v hv.1

private theorem Mapped.fill (hm : Mapped m d S v w g q p') : Mapped (m.fill t j p perm) d (S \ {(i, j)}) v w g q p' := by
  have hfree : entry (m.word t j) = none := h.unmapped (i, j) hij t ht
  constructor
  · by_cases hd : d = t
    · subst hd
      have hne : v.1 ≠ j := by
        intro hj
        rw [← hj, hm.pde] at hfree
        cases hfree
      rw [fill_table, Function.update_of_ne hne]
      exact hm.pde
    · rw [fill_word hd]
      exact hm.pde
  · exact hm.lt
  · exact hm.taken
  · by_cases hq : q = t
    · subst hq
      have hne : v.2 ≠ j := by
        intro hj
        rw [← hj, hm.pte, hm.page] at hfree
        cases hfree
      rw [fill_table, Function.update_of_ne hne]
      exact hm.pte
    · rw [fill_word hq]
      exact hm.pte
  · exact hm.page
  · exact hm.inUse.fill h hij ht
  · have hne : p' ≠ t := fun heq => hm.inUse.table (i, j) hij (heq ▸ ht)
    rw [fill_word hne]
    exact hm.content

/-- The page that is mapped. -/
private theorem Vacant.mapped_fill (hlt : t < m.npage) (hp : InUse m d S p) (hperm : PPN perm = 0)
    (hcontent : m.word p = f) :
    Mapped (m.fill t j p perm) d (S \ {(i, j)}) (i, j) (page2pa p ||| perm ||| PTE_V) f t p := by
  have h20 : p < 2 ^ 20 := by
    have hk := h.kseg0
    have hb := hp.lt
    omega
  constructor
  · rw [h.fill_dir hij ht hij]
    exact ht
  · exact hlt
  · exact h.table (i, j) hij t ht
  · rw [fill_table, Function.update_self]
  · rw [entry_eq_some, PPN_entry h20, hperm, Nat.or_zero]
    exact ⟨entry_V p perm, rfl⟩
  · exact hp.fill h hij ht
  · have hne : p ≠ t := fun heq => hp.table (i, j) hij (heq ▸ ht)
    rw [fill_word hne]
    exact hcontent

end

/-! ### `page_insert` and the callback -/

/-- `page_insert` of a page that is in use. -/
private theorem Vacant.insert (h : Vacant m d S) (hv : VPN va ∈ S) (hp : InUse m d S p) (hperm : PPN perm = 0)
    (hr : m.pageInsert d asid p va perm = some (0, m')) :
    Vacant m' d (S \ {VPN va}) ∧
      (∃ t, Mapped m' d (S \ {VPN va}) (VPN va) (page2pa p ||| perm ||| PTE_V) (m.word p) t p) ∧
      (∀ {v w g t q}, Mapped m d S v w g t q → Mapped m' d (S \ {VPN va}) v w g t q) ∧
      m'.pageFreeList.length ≤ m.pageFreeList.length := by
  have hflush := h.flush asid va
  have hfill : ∀ {n : Pmap} {t : Nat}, Vacant n d S → entry (n.word d (PDX va)) = some t → t < n.npage →
      InUse n d S p → n.word p = m.word p → (∀ {v w g t q}, Mapped m d S v w g t q → Mapped n d S v w g t q) →
      n.pageFreeList.length ≤ m.pageFreeList.length →
      Vacant (n.fill t (PTX va) p perm) d (S \ {VPN va}) ∧
        (∃ t', Mapped (n.fill t (PTX va) p perm) d (S \ {VPN va}) (VPN va) (page2pa p ||| perm ||| PTE_V) (m.word p) t' p) ∧
        (∀ {v w g t' q}, Mapped m d S v w g t' q → Mapped (n.fill t (PTX va) p perm) d (S \ {VPN va}) v w g t' q) ∧
        (n.fill t (PTX va) p perm).pageFreeList.length ≤ m.pageFreeList.length :=
    fun hn ht hlt hpn hcontent hkept hlen => ⟨hn.fill hv ht, ⟨_, hn.mapped_fill hv ht hlt hpn hperm hcontent⟩,
      fun hm => (hkept hm).fill hn hv ht, hlen⟩
  cases hent : entry (m.word d (PDX va)) with
  | none =>
    have hinv : has (m.word d (PDX va)) PTE_V = false := entry_eq_none.1 hent
    rw [pageInsert_unmapped (.inl hinv)] at hr
    cases hl : m.pageFreeList with
    | nil =>
      rw [pageInsertFresh_full hinv hl] at hr
      simp only [Option.some.injEq, Prod.mk.injEq] at hr
      exact absurd hr.1 (by decide)
    | cons t rest =>
      rw [pageInsertFresh_link hinv hl] at hr
      simp only [Option.some.injEq, Prod.mk.injEq, true_and] at hr
      subst hr
      have hpt : p ≠ t := fun heq => hp.taken (by rw [hl, heq]; exact List.mem_cons_self ..)
      refine hl ▸ hfill (hflush.link hl hv hent) ?_ ?_ ((hp.flush asid va).link hflush hl)
        (link_word hp.dir hpt) (fun hm => (hm.flush asid va).link hflush hl hent) ?_
      · rw [hflush.link_entry hl, if_pos rfl]
      · exact h.bound t (by rw [hl]; exact List.mem_cons_self ..)
      · exact le_of_le_of_eq (Nat.le_succ _) (congrArg List.length hl).symm
  | some t =>
    obtain ⟨hval, rfl⟩ := entry_eq_some.1 hent
    have hpte : has (m.word (PPN (m.word d (PDX va))) (PTX va)) PTE_V = false :=
      entry_eq_none.1 (h.unmapped (VPN va) hv _ hent)
    by_cases hlt : PPN (m.word d (PDX va)) < m.npage
    · rw [pageInsert_unmapped (.inr ⟨hlt, hpte⟩), pageInsertFresh_valid hval hlt] at hr
      simp only [Option.some.injEq, Prod.mk.injEq, true_and] at hr
      subst hr
      exact hfill hflush hent hlt (hp.flush asid va) rfl (fun hm => hm.flush asid va) (Nat.le_refl _)
    · rw [pageInsert, pgdirWalk, if_pos hval, pa2page, if_neg hlt] at hr
      cases hr

end Pmap

/-- What the callback leaves in a page: the bytes that it copies, and zeros. -/
def pageImage (offset : Nat) (src : Option (Nat → Byte)) (len x : Nat) : Byte :=
  match src with
  | some src => if offset ≤ x ∧ x < offset + len then src (x - offset) else 0
  | none => 0

namespace Pmap

theorem frameByte_zero (x : Nat) : frameByte (fun _ => 0) x = 0 := BitVec.extractLsb'_zero ..

/-- The callback inserts a free frame that it fills. -/
theorem loadIcodeMapper_eq (hl : m.pageFreeList = p :: rest) (d : Nat) (asid : Asid) (va perm : Word)
    {offset len : Word} {src : Option (Nat → Byte)} (hfit : offset.toNat + len.toNat ≤ 4096) :
    ∃ f, Elf.loadIcodeMapper d asid m va offset perm src len = (m.takeWith p rest f).pageInsert d asid p va perm ∧
      ∀ x < 4096, frameByte f x = pageImage offset.toNat src len.toNat x := by
  have halloc : m.pageAlloc = some (p, m.take p rest) := by
    rw [pageAlloc, hl]
    rfl
  rw [Elf.loadIcodeMapper, halloc, Option.bind_some]
  cases src with
  | none => exact ⟨fun _ => 0, rfl, fun x _ => frameByte_zero x⟩
  | some src =>
    obtain ⟨f, hf, hbytes⟩ := memcpy_eq (m.take p rest) p src hfit
    have hzero : (m.take p rest).word p = fun _ => 0 := Function.update_self ..
    have htake : (m.take p rest).setFrame p f = m.takeWith p rest f := by
      simp [take, setFrame, Pmap.takeWith]
    refine ⟨f, ?_, fun x hx => (hbytes x hx).trans ?_⟩
    · rw [← htake, ← hf]
    · rw [hzero, frameByte_zero]
      rfl

/-- The callback maps a new page with the bytes that it is given. -/
theorem Vacant.map (h : Vacant m d S) (hv : VPN va ∈ S) (hperm : PPN perm = 0) {offset len : Word}
    {src : Option (Nat → Byte)} (hfit : offset.toNat + len.toNat ≤ 4096)
    (hr : Elf.loadIcodeMapper d asid m va offset perm src len = some (0, m')) :
    Vacant m' d (S \ {VPN va}) ∧
      (∃ f t p, Mapped m' d (S \ {VPN va}) (VPN va) (page2pa p ||| perm ||| PTE_V) f t p ∧
        ∀ x < 4096, frameByte f x = pageImage offset.toNat src len.toNat x) ∧
      (∀ {v w g t q}, Mapped m d S v w g t q → Mapped m' d (S \ {VPN va}) v w g t q) ∧
      m'.pageFreeList.length < m.pageFreeList.length := by
  cases hl : m.pageFreeList with
  | nil =>
    have halloc : m.pageAlloc = none := by rw [pageAlloc, hl]
    rw [Elf.loadIcodeMapper, halloc] at hr
    cases hr
  | cons p rest =>
    obtain ⟨f, heq, hbytes⟩ := loadIcodeMapper_eq hl d asid va perm hfit
    rw [heq] at hr
    obtain ⟨hvac, ⟨t, hmap⟩, hkept, hlen⟩ := (h.takeWith hl).insert hv (h.inUse_taken hl) hperm hr
    have hcontent : (m.takeWith p rest f).word p = f := Function.update_self ..
    rw [hcontent] at hmap
    exact ⟨hvac, ⟨f, t, p, hmap, hbytes⟩, fun hm => hkept (hm.takeWith h hl), Nat.lt_succ_of_le hlen⟩

end Pmap

end Mos
