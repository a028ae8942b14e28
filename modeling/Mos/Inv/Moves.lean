import Mos.Inv.Refs
import Mathlib.Logic.Relation

/-!
# The small steps of the memory

Everything that the kernel does to the address space of an environment is a sequence of a few small steps: a page is
taken, a table is linked, an entry is written or cleared, a table or a directory is given up.  Each of them changes at
most one reference, together with its count.  The invariants of the memory are proved for these steps once; the
operations are taken apart into them in `Mos.Inv.Space`.
-/

namespace Mos

/-- The directories in use, and the memory. -/
structure Mem where
  dirs : Dirs
  pm : Pmap

namespace Mem

def target (mc : Machine) (s : Mem) : Slot → Option Nat := Mos.target mc s.dirs s.pm.word

/-- A frame that may be mapped. -/
def Data (mc : Machine) (s : Mem) (q : Nat) : Prop := TreeOk.Data mc s.dirs s.pm.word q

/-- The invariant of the memory. -/
structure Ok (mc : Machine) (leak : Nat → Nat) (s : Mem) : Prop where
  tree : TreeOk mc s.dirs s.pm.word
  refs : RefOk mc (s.target mc) leak s.pm

end Mem

/-- What restricts the steps: the permissions that may be given, the pages that may be shared, and when a directory may
be given up.  The condition on a directory may only depend on its own entries from `UTOP` on and on the TLB, which `env_free` does
not fill. -/
structure Policy where
  perm : Word → Prop
  /-- The permissions that the kernel gives by itself. -/
  own : perm PTE_V ∧ perm (PTE_V ||| PTE_D) ∧ perm PTE_D
  page : Nat → Prop
  drop : Asid → Nat → Pmap → Prop
  drop_mono : ∀ {asid d m m'}, drop asid d m → (∀ i, PDX UTOP ≤ i → m'.word d i = m.word d i) →
    m'.tlb ⊆ m.tlb → drop asid d m'

/-- No restriction. -/
def Policy.any : Policy where
  perm _ := True
  own := ⟨trivial, trivial, trivial⟩
  page _ := True
  drop _ _ _ := True
  drop_mono _ _ _ := trivial

/-- The steps for the environment `e`, which flush the entries of `asid`. -/
inductive Move (mc : Machine) (pol : Policy) (e : EnvPtr) (asid : Asid) : Mem → Mem → Prop
  | take {D : Dirs} {m : Pmap} {q : Nat} {rest : List Nat} (hl : m.pageFreeList = q :: rest) :
      Move mc pol e asid ⟨D, m⟩ ⟨D, m.take q rest⟩
  | flush (D : Dirs) (m : Pmap) (va : Word) : Move mc pol e asid ⟨D, m⟩ ⟨D, m.tlbInvalidate asid va⟩
  | link {D : Dirs} {m : Pmap} {d t : Nat} {i : Idx} {rest : List Nat} (hd : D e = some d) (hi : userIdx i = true)
      (hv : has (m.word d i) PTE_V = false) (hl : m.pageFreeList = t :: rest) :
      Move mc pol e asid ⟨D, m⟩ ⟨D, m.linkTable d t rest i⟩
  | fill {D : Dirs} {m : Pmap} {t pp : Nat} {i j : Idx} {perm : Word} (hi : i < PDX UTOP)
      (ht : target mc D m.word (.pde e i) = some t) (hv : has (m.word t j) PTE_V = false)
      (hpp : TreeOk.Data mc D m.word pp) (hfree : pp ∉ m.pageFreeList) (hperm : pp ||| PPN perm = pp)
      (hmax : m.ppRef pp ≠ 65535) (hpol : pol.perm perm)
      (hpage : (∀ s, target mc D m.word s ≠ some pp) ∨ pol.page pp) :
      Move mc pol e asid ⟨D, m⟩ ⟨D, m.fill t j pp perm⟩
  | reperm {D : Dirs} {m : Pmap} {t pp : Nat} {va perm : Word} (hi : PDX va < PDX UTOP)
      (ht : target mc D m.word (.pde e (PDX va)) = some t) (hpte : entry (m.word t (PTX va)) = some pp)
      (hperm : pp ||| PPN perm = pp) (hpol : pol.perm perm) :
      Move mc pol e asid ⟨D, m⟩
        ⟨D, (m.tlbInvalidate asid va).setWord t (PTX va) (page2pa pp ||| perm ||| PTE_V)⟩
  | clear {D : Dirs} {m m' : Pmap} {t pp : Nat} {va : Word} (hi : PDX va < PDX UTOP)
      (ht : target mc D m.word (.pde e (PDX va)) = some t) (hpte : entry (m.word t (PTX va)) = some pp)
      (hdec : m.pageDecref pp = some m') :
      Move mc pol e asid ⟨D, m⟩ ⟨D, (m'.setWord t (PTX va) 0).tlbInvalidate asid va⟩
  | newDir {D : Dirs} {m m' : Pmap} {p : Nat} (hD : D e = none) (h : m.envSetupVm mc.bootPgdir = some (p, m')) :
      Move mc pol e asid ⟨D, m⟩ ⟨Function.update D e (some p), m'⟩
  | dropTable {D : Dirs} {m m' : Pmap} {d t : Nat} {i : Idx} (hd : D e = some d) (hi : i < PDX UTOP)
      (ht : target mc D m.word (.pde e i) = some t) (hempty : ∀ j, has (m.word t j) PTE_V = false)
      (hdec : (m.setWord d i 0).pageDecref t = some m') :
      Move mc pol e asid ⟨D, m⟩
        ⟨D, (m'.tlbInvalidate asid (Pmap.vptVa UVPT i)).tlbInvalidate asid (Pmap.vptVa KSEG2 i)⟩
  | dropDir {D : Dirs} {m m' : Pmap} {d : Nat} (hd : D e = some d)
      (hempty : ∀ i, i < PDX UTOP → has (m.word d i) PTE_V = false) (hpol : pol.drop asid d m)
      (hdec : m.pageDecref d = some m') :
      Move mc pol e asid ⟨D, m⟩ ⟨Function.update D e none,
        (m'.tlbInvalidate asid (Pmap.vptVa UVPT (PDX UVPT))).tlbInvalidate asid (Pmap.vptVa KSEG2 (PDX UVPT))⟩

/-- Sequences of steps. -/
abbrev Moves (mc : Machine) (pol : Policy) (e : EnvPtr) (asid : Asid) : Mem → Mem → Prop :=
  Relation.ReflTransGen (Move mc pol e asid)

/-! ### A new directory -/

namespace Pmap

/-- The words of the new directory `p`. -/
def newDirWord (m : Pmap) (base p : Nat) (i : Idx) : Word :=
  if i = PDX KSEG2 ∨ i = PDX UVPT then page2pa p ||| PTE_V
  else if PDX UTOP ≤ i ∧ i < PDX UVPT then m.word base i
  else 0

/-- The page `p` becomes a directory. -/
def newDir (m : Pmap) (base p : Nat) : Pmap :=
  { m.setRef p (m.ppRef p + 1) with word := Function.update m.word p (m.newDirWord base p) }

theorem envSetupVm_cases {m m' : Pmap} {base p : Nat} (h : m.envSetupVm base = some (p, m')) :
    ∃ rest, m.pageFreeList = p :: rest ∧ m' = (m.take p rest).newDir base p := by
  obtain ⟨⟨q, m₁⟩, hq, h⟩ := Option.map_eq_some_iff.1 h
  obtain ⟨rest, hl, rfl⟩ := pageAlloc_cases hq
  simp only [Prod.mk.injEq] at h
  obtain ⟨rfl, rfl⟩ := h
  refine ⟨rest, hl, ?_⟩
  simp only [newDir, setWord, setRef, Pmap.mk.injEq, true_and, and_true, Function.update_self, Function.update_idem]
  congr 1
  funext i
  simp only [newDirWord, withTemplate, take, Function.update_apply]
  by_cases h1 : i = PDX KSEG2
  · simp [h1]
  · by_cases h2 : i = PDX UVPT
    · simp [h2]
    · simp [h1, h2]

end Pmap

/-! ### One step -/

namespace Mem

variable {mc : Machine} {leak : Nat → Nat} {D : Dirs} {m m' : Pmap} {e : EnvPtr} {asid : Asid} {pol : Policy}
  {i j : Idx} {d t q pp : Nat} {rest : List Nat} {perm va : Word}

/-- A page on the free list has no references. -/
theorem Ok.fresh (h : Ok mc leak ⟨D, m⟩) (hq : q ∈ m.pageFreeList) : TreeOk.Fresh mc D m.word q := by
  obtain ⟨hb, h0⟩ := h.refs.free q hq
  have hunused := (h.refs.unused hb.1 h0).1
  exact ⟨⟨hb, fun s _ => hunused s⟩, hunused⟩

theorem Ok.npage (h : Ok mc leak ⟨D, m⟩) : m.npage = mc.npage := h.refs.npage

theorem Ok.pde_lt (h : Ok mc leak ⟨D, m⟩) {s : Slot} (hs : Mos.target mc D m.word s = some t) : t < m.npage := by
  rw [h.npage]
  exact (h.tree.bound s t hs).2

/-- The words and the TLB are changed without changing a reference. -/
theorem Ok.same (h : Ok mc leak ⟨D, m⟩) (htree : TreeOk mc D m'.word)
    (htgt : Mos.target mc D m'.word = Mos.target mc D m.word) (hn : m'.npage = m.npage) (href : m'.ppRef = m.ppRef)
    (hfree : m'.pageFreeList = m.pageFreeList) : Ok mc leak ⟨D, m'⟩ := by
  refine ⟨htree, ?_⟩
  have hrefs : RefOk mc (Mos.target mc D m'.word) leak m' := by
    rw [htgt]
    exact h.refs.congr hn href hfree
  exact hrefs

theorem Ok.flush (h : Ok mc leak ⟨D, m⟩) (asid : Asid) (va : Word) : Ok mc leak ⟨D, m.tlbInvalidate asid va⟩ :=
  ⟨h.tree, h.refs.congr rfl rfl rfl⟩

theorem Ok.take (h : Ok mc leak ⟨D, m⟩) (hl : m.pageFreeList = q :: rest) : Ok mc leak ⟨D, m.take q rest⟩ := by
  have hq := (h.fresh (q := q) (by rw [hl]; exact List.mem_cons_self ..)).notTree
  refine ⟨h.tree.fresh hq _, ?_⟩
  have hrefs : RefOk mc (Mos.target mc D (m.take q rest).word) leak (m.take q rest) := by
    rw [Pmap.take, target_fresh hq]
    exact h.refs.take hl
  exact hrefs

/-- The page that was taken may be mapped. -/
theorem Ok.taken (h : Ok mc leak ⟨D, m⟩) (hl : m.pageFreeList = q :: rest) :
    TreeOk.Fresh mc D (m.take q rest).word q ∧ q ∉ (m.take q rest).pageFreeList ∧ (m.take q rest).ppRef q = 0 := by
  have hmem : q ∈ m.pageFreeList := by
    rw [hl]
    exact List.mem_cons_self ..
  have hq := h.fresh hmem
  have htgt : Mos.target mc D (m.take q rest).word = Mos.target mc D m.word := target_fresh hq.notTree _
  refine ⟨⟨⟨hq.bound, ?_⟩, ?_⟩, ?_, (h.refs.free q hmem).2⟩
  · rw [htgt]; exact hq.notTree
  · rw [htgt]; exact hq.unused
  · exact (List.nodup_cons.1 (hl ▸ h.refs.nodup)).1

theorem Ok.link (h : Ok mc leak ⟨D, m⟩) (hd : D e = some d) (hi : userIdx i = true)
    (hv : has (m.word d i) PTE_V = false) (hl : m.pageFreeList = t :: rest) :
    Ok mc leak ⟨D, m.linkTable d t rest i⟩ := by
  have h₁ := h.take hl
  obtain ⟨hfresh, hnot, h0⟩ := h.taken hl
  have hword : (m.take t rest).word t = fun _ => 0 := Function.update_self ..
  have htd : d ≠ t := fun heq => hfresh.unused (.dir e) (heq ▸ hd)
  have hnone : Mos.target mc D (m.take t rest).word (.pde e i) = none := by
    rw [target_pde hd hi]
    have hsame : (m.take t rest).word d = m.word d := Function.update_of_ne htd ..
    rw [hsame]
    exact entry_eq_none.2 hv
  have hempty : ∀ j, entry ((m.take t rest).word t j) = none := fun j => by simp [hword]
  have htree := h₁.tree.link hd hi hnone hfresh hempty
  have htgt := target_link h₁.tree.tree hd hi hnone
    (entry_tablePde (by have hk := mc.kseg0; have hlt := hfresh.bound.2; omega)) hempty htd.symm
  have hrefs := h₁.refs.incref (p := t) hnone hnot (by rw [h0]; decide)
  rw [h0] at hrefs
  have hrefs' : RefOk mc (Mos.target mc D (m.linkTable d t rest i).word) leak (m.linkTable d t rest i) := by
    have hw : (m.linkTable d t rest i).word =
      Function.update (m.take t rest).word d (Function.update ((m.take t rest).word d) i (Pmap.tablePde t)) := rfl
    rw [hw, htgt]
    exact hrefs.congr rfl rfl rfl
  exact ⟨htree, hrefs'⟩

private theorem Ok.fill (h : Ok mc leak ⟨D, m⟩) (hi : i < PDX UTOP) (ht : Mos.target mc D m.word (.pde e i) = some t)
    (hv : has (m.word t j) PTE_V = false) (hpp : TreeOk.Data mc D m.word pp) (hfree : pp ∉ m.pageFreeList)
    (hperm : pp ||| PPN perm = pp) (hmax : m.ppRef pp ≠ 65535) : Ok mc leak ⟨D, m.fill t j pp perm⟩ := by
  have hent : entry (page2pa pp ||| perm ||| PTE_V) = some pp := by
    have hk := mc.kseg0
    have hlt := hpp.bound.2
    rw [entry_eq_some, PPN_entry (by omega), hperm]
    exact ⟨entry_V pp perm, rfl⟩
  have hnone : Mos.target mc D m.word (.pte e i j) = none := by
    rw [target_pte ht hi]
    exact entry_eq_none.2 hv
  have htree := h.tree.setPte (j := j) (w := page2pa pp ||| perm ||| PTE_V) ht hi fun q hq => by
    rw [hent] at hq
    exact Option.some.inj hq ▸ hpp
  have htgt := target_setPte (j := j) h.tree.tree ht hi (page2pa pp ||| perm ||| PTE_V)
  rw [hent] at htgt
  have hrefs := h.refs.incref (p := pp) hnone hfree hmax
  have hrefs' : RefOk mc (Mos.target mc D (m.fill t j pp perm).word) leak (m.fill t j pp perm) := by
    have hw : (m.fill t j pp perm).word =
      Function.update m.word t (Function.update (m.word t) j (page2pa pp ||| perm ||| PTE_V)) := rfl
    rw [hw, htgt]
    exact hrefs.congr rfl rfl rfl
  exact ⟨htree, hrefs'⟩

private theorem Ok.reperm (h : Ok mc leak ⟨D, m⟩) (hi : i < PDX UTOP) (ht : Mos.target mc D m.word (.pde e i) = some t)
    (hpte : entry (m.word t j) = some pp) (hperm : pp ||| PPN perm = pp) :
    Ok mc leak ⟨D, m.setWord t j (page2pa pp ||| perm ||| PTE_V)⟩ := by
  have hpp : Mos.target mc D m.word (.pte e i j) = some pp := by rw [target_pte ht hi, hpte]
  have hent : entry (page2pa pp ||| perm ||| PTE_V) = some pp := by
    rw [entry_eq_some, PPN_entry (h.tree.lt _ _ hpp), hperm]
    exact ⟨entry_V pp perm, rfl⟩
  have htgt := target_setPte (j := j) h.tree.tree ht hi (page2pa pp ||| perm ||| PTE_V)
  rw [hent, ← hpp, Function.update_eq_self] at htgt
  refine h.same ?_ htgt rfl rfl rfl
  refine h.tree.setPte ht hi fun q hq => ?_
  rw [hent] at hq
  exact Option.some.inj hq ▸ h.tree.data_of_pte hpp

/-- A reference less changes neither words nor the TLB. -/
theorem pageDecref_word (hdec : m.pageDecref pp = some m') : m'.word = m.word ∧ m'.tlb = m.tlb ∧ m'.npage = m.npage := by
  obtain ⟨-, rfl⟩ := Pmap.pageDecref_cases hdec
  exact ⟨rfl, rfl, rfl⟩

theorem Ok.clear (h : Ok mc leak ⟨D, m⟩) (hi : i < PDX UTOP) (ht : Mos.target mc D m.word (.pde e i) = some t)
    (hpte : entry (m.word t j) = some pp) (hdec : m.pageDecref pp = some m') : Ok mc leak ⟨D, m'.setWord t j 0⟩ := by
  obtain ⟨hw, -, -⟩ := pageDecref_word hdec
  have hpp : Mos.target mc D m.word (.pte e i j) = some pp := by rw [target_pte ht hi, hpte]
  have htree := h.tree.setPte (j := j) (w := 0) ht hi fun q hq => by simp at hq
  have htgt := target_setPte (j := j) h.tree.tree ht hi 0
  have hzero : entry (0 : Word) = none := entry_zero
  rw [hzero] at htgt
  have hrefs := h.refs.decref hpp (h.tree.bound _ _ hpp) hdec
  have hword : (m'.setWord t j 0).word = Function.update m.word t (Function.update (m.word t) j 0) := by
    rw [Pmap.setWord, hw]
  have hrefs' : RefOk mc (Mos.target mc D (m'.setWord t j 0).word) leak (m'.setWord t j 0) := by
    rw [hword, htgt]
    exact hrefs.congr rfl rfl rfl
  refine ⟨?_, hrefs'⟩
  show TreeOk mc D (m'.setWord t j 0).word
  rw [hword]
  exact htree

private theorem Ok.dropTable (h : Ok mc leak ⟨D, m⟩) (hd : D e = some d) (hi : i < PDX UTOP)
    (ht : Mos.target mc D m.word (.pde e i) = some t) (hempty : ∀ j, has (m.word t j) PTE_V = false)
    (hdec : (m.setWord d i 0).pageDecref t = some m') : Ok mc leak ⟨D, m'⟩ := by
  have hnone : ∀ j, Mos.target mc D m.word (.pte e i j) = none := by
    intro j
    rw [target_pte ht hi]
    exact entry_eq_none.2 (hempty j)
  have hw : m'.word = Function.update m.word d (Function.update (m.word d) i 0) := (pageDecref_word hdec).1
  have htree := h.tree.unlink hd (userIdx_of_lt hi) hnone
  have htgt := target_unlink h.tree.tree hd (userIdx_of_lt hi) hnone
  have hset : RefOk mc (Mos.target mc D m.word) leak (m.setWord d i 0) := h.refs.congr rfl rfl rfl
  have hrefs := hset.decref ht (h.tree.bound _ _ ht) hdec
  have hrefs' : RefOk mc (Mos.target mc D m'.word) leak m' := by rwa [hw, htgt]
  refine ⟨?_, hrefs'⟩
  show TreeOk mc D m'.word
  rwa [hw]

/-- The entries of a directory outside the part that `env_free` walks. -/
def NoJunk (d : Nat) (m : Pmap) : Prop := ∀ i, PDX ULIM ≤ i → i ≠ PDX KSEG2 → has (m.word d i) PTE_V = false

private theorem Ok.dropDir (h : Ok mc leak ⟨D, m⟩) (hd : D e = some d)
    (hempty : ∀ i, i < PDX UTOP → has (m.word d i) PTE_V = false) (hdec : m.pageDecref d = some m') :
    ∃ leak', Ok mc leak' ⟨Function.update D e none, m'⟩ ∧ (NoJunk d m → leak' = leak) := by
  have hw : m'.word = m.word := (pageDecref_word hdec).1
  have hdir : Mos.target mc D m.word (.dir e) = some d := hd
  have hrefs := h.refs.decref hdir (h.tree.bound (.dir e) d hd) hdec
  have htree : TreeOk mc (Function.update D e none) m'.word := by
    rw [hw]
    exact h.tree.dropDir e
  have hg : ∀ s p, Mos.target mc (Function.update D e none) m'.word s = some p →
      Function.update (Mos.target mc D m.word) (.dir e) none s = some p := by
    intro s p hs
    rw [hw, target_dropDir] at hs
    split at hs
    case isTrue => cases hs
    case isFalse hne =>
      have hs' : s ≠ .dir e := by
        rintro rfl
        exact hne rfl
      rwa [Function.update_of_ne hs']
  -- The tables above `ULIM` stay counted though nothing refers to them; without any nothing is lost.
  refine ⟨_, ⟨htree, hrefs.lose hg⟩, fun hjunk => ?_⟩
  have hsame : Mos.target mc (Function.update D e none) m'.word =
      Function.update (Mos.target mc D m.word) (.dir e) none := by
    have hpde : ∀ i, Mos.target mc D m.word (.pde e i) = none := by
      intro i
      by_cases hi : userIdx i = true
      · rw [target_pde hd hi, entry_eq_none]
        by_cases hlt : i < PDX UTOP
        · exact hempty i hlt
        · have hhigh : PDX ULIM ≤ i ∧ i ≠ PDX KSEG2 := by simpa [userIdx, hlt] using hi
          exact hjunk i hhigh.1 hhigh.2
      · simp [Mos.target, hi]
    funext s
    rw [hw, target_dropDir]
    split
    case isTrue hs =>
      cases s with
      | base b => cases hs
      | dir e' => cases hs; simp
      | pde e' i => cases hs; simp [hpde]
      | pte e' i j => cases hs; simp [target_pte_none (hpde i)]
    case isFalse hs =>
      have hne : s ≠ .dir e := by
        rintro rfl
        exact hs rfl
      rw [Function.update_of_ne hne]
  have hmem : Mem.target mc ⟨Function.update D e none, m'⟩ =
      Function.update (Mem.target mc ⟨D, m⟩) (.dir e) none := hsame
  funext p
  rw [hmem]
  exact congrArg (leak p + ·) (Nat.sub_self _)

theorem Ok.newDir (h : Ok mc leak ⟨D, m⟩) (hD : D e = none) (hs : m.envSetupVm mc.bootPgdir = some (q, m')) :
    Ok mc leak ⟨Function.update D e (some q), m'⟩ := by
  obtain ⟨rest, hl, rfl⟩ := Pmap.envSetupVm_cases hs
  have h₁ := h.take hl
  obtain ⟨hfresh, hnot, h0⟩ := h.taken hl
  have hbase : (m.take q rest).word mc.bootPgdir = mc.bootPmap.word mc.bootPgdir := h₁.tree.base 0
  have hboot : ∀ i, mc.bootPmap.word mc.bootPgdir i = if i = PDX UPAGES then Pmap.tablePde mc.pagesTable
      else if i = PDX UENVS then Pmap.tablePde mc.envsTable else 0 := fun i => by
    simp only [Machine.bootPmap, if_true]
  have huser : ∀ i, userIdx i = true → entry (Pmap.newDirWord (m.take q rest) mc.bootPgdir q i) = none := by
    intro i hi
    have hself : ¬(i = PDX KSEG2 ∨ i = PDX UVPT) := by
      rintro (rfl | rfl)
      · exact absurd hi (by decide)
      · exact absurd hi (by decide)
    have htmpl : ¬(PDX UTOP ≤ i ∧ i < PDX UVPT) := by
      rintro ⟨hle, hlt⟩
      simp only [userIdx, Bool.or_eq_true, decide_eq_true_eq, Bool.and_eq_true] at hi
      rcases hi with hi | hi
      · exact absurd hle (not_le.2 hi)
      · exact absurd (lt_of_lt_of_le hlt (show PDX UVPT ≤ PDX ULIM by decide)) (not_lt.2 hi.1)
    rw [Pmap.newDirWord, if_neg hself, if_neg htmpl]
    exact entry_zero
  have htree := h₁.tree.newDir hD hfresh huser ⟨by simp [Pmap.newDirWord], by simp [Pmap.newDirWord]⟩ (by
    constructor
    · rw [Pmap.newDirWord, if_neg (by decide), if_pos (by decide), hbase, hboot, if_neg (by decide), if_pos rfl]
    · rw [Pmap.newDirWord, if_neg (by decide), if_pos (by decide), hbase, hboot, if_pos rfl])
  have htgt := target_newDir hD hfresh.notTree huser
  have hnone : Mos.target mc D (m.take q rest).word (.dir e) = none := hD
  have hrefs := h₁.refs.incref (p := q) hnone hnot (by rw [h0]; decide)
  refine ⟨htree, ?_⟩
  have hrefs' : RefOk mc (Mos.target mc (Function.update D e (some q))
      (Function.update (m.take q rest).word q (Pmap.newDirWord (m.take q rest) mc.bootPgdir q))) leak
      (Pmap.newDir (m.take q rest) mc.bootPgdir q) := by
    rw [htgt]
    exact hrefs.congr rfl rfl rfl
  exact hrefs'

/-- Every step keeps the invariant; references are lost only with a directory that still has tables. -/
private theorem Ok.move {s s' : Mem} (h : Ok mc leak s) (hm : Move mc pol e asid s s') :
    ∃ leak', Ok mc leak' s' ∧ ((∀ asid d m, pol.drop asid d m → NoJunk d m) → leak' = leak) := by
  cases hm with
  | take hl => exact ⟨leak, h.take hl, fun _ => rfl⟩
  | flush D m va => exact ⟨leak, h.flush asid va, fun _ => rfl⟩
  | link hd hi hv hl => exact ⟨leak, h.link hd hi hv hl, fun _ => rfl⟩
  | fill hi ht hv hpp hfree hperm hmax => exact ⟨leak, h.fill hi ht hv hpp hfree hperm hmax, fun _ => rfl⟩
  | reperm hi ht hpte hperm => exact ⟨leak, (h.flush asid _).reperm hi ht hpte hperm, fun _ => rfl⟩
  | clear hi ht hpte hdec => exact ⟨leak, (h.clear hi ht hpte hdec).flush asid _, fun _ => rfl⟩
  | newDir hD hs => exact ⟨leak, h.newDir hD hs, fun _ => rfl⟩
  | dropTable hd hi ht hempty hdec =>
    exact ⟨leak, ((h.dropTable hd hi ht hempty hdec).flush asid _).flush asid _, fun _ => rfl⟩
  | dropDir hd hempty hpol hdec =>
    obtain ⟨leak', h', hleak⟩ := h.dropDir hd hempty hdec
    exact ⟨leak', (h'.flush asid _).flush asid _, fun hp => hleak (hp _ _ _ hpol)⟩

theorem Ok.moves {s s' : Mem} (h : Ok mc leak s) (hm : Moves mc pol e asid s s') :
    ∃ leak', Ok mc leak' s' ∧ ((∀ asid d m, pol.drop asid d m → NoJunk d m) → leak' = leak) := by
  induction hm with
  | refl => exact ⟨leak, h, fun _ => rfl⟩
  | tail _ hm ih =>
    obtain ⟨leak₁, h₁, hleak₁⟩ := ih
    obtain ⟨leak₂, h₂, hleak₂⟩ := h₁.move hm
    exact ⟨leak₂, h₂, fun hp => (hleak₂ hp).trans (hleak₁ hp)⟩

end Mem

end Mos
