import Mos.Inv.Alloc
import Mos.Inv.Sched

/-!
# What `env_free` gives back

`env_free` walks the directory below `UTOP`, removes every page and frees every table, then the directory.  On an
environment of the run list whose directory has no table above `UTOP` it gives back everything that only this
environment referred to and touches nothing else; on one that is off the run list it still unlinks it, and a table that
hangs above `UTOP` is lost.
-/

namespace Mos

open Kern

/-! ### The walk comes to its end -/

namespace Mem

variable {mc : Machine} {leak : Nat → Nat} {D : Dirs} {m m' : Pmap} {e : EnvPtr} {asid : Asid} {pol : Policy}
  {i : Idx} {d t p : Nat} {va : Word}

/-- A page that is referred to has a count to give up. -/
private theorem Ok.pageDecref_isSome (h : Ok mc leak ⟨D, m⟩) {s : Slot} (hs : Mos.target mc D m.word s = some p)
    (href : m'.ppRef = m.ppRef) : ∃ m'', m'.pageDecref p = some m'' := by
  have hpos := refCount_pos (f := Mos.target mc D m.word) hs
  have hcount := h.refs.refs p (h.tree.bound s p hs).1
  have hcount : (m.ppRef p).toNat = refCount (Mos.target mc D m.word) p + leak p := hcount
  have hne : m'.ppRef p ≠ 0 := by
    rw [href]
    intro h0
    have hzero : (m.ppRef p).toNat = 0 := by rw [h0]; rfl
    omega
  rw [Pmap.pageDecref, if_neg hne]
  dsimp only
  split
  case isTrue h0 => exact ⟨_, by rw [Pmap.pageFree, if_pos h0]⟩
  case isFalse => exact ⟨_, rfl⟩

private theorem Ok.pageRemove_isSome (h : Ok mc leak ⟨D, m⟩) (hd : D e = some d) (hi : PDX va < PDX UTOP) :
    ∃ m', m.pageRemove d asid va = some m' := by
  rw [Pmap.pageRemove]
  rcases h.pageLookup hd hi with ⟨-, hl⟩ | ⟨t, q, ht, hpte, hl⟩
  · exact ⟨m, by rw [hl]; rfl⟩
  · have hq : Mos.target mc D m.word (.pte e (PDX va) (PTX va)) = some q := by rw [target_pte ht hi, hpte]
    obtain ⟨m₁, hm₁⟩ := h.pageDecref_isSome hq rfl
    exact ⟨_, by rw [hl, Option.bind_some]; dsimp only; rw [hm₁]; rfl⟩

/-- The directory keeps its entry for the table while the table is cleared. -/
private theorem Ok.table_kept (h : Ok mc leak ⟨D, m⟩) (hd : D e = some d) (hi : i < PDX UTOP)
    (ht : Mos.target mc D m.word (.pde e i) = some t) (hother : ∀ q, q ≠ t → m'.word q = m.word q) :
    Mos.target mc D m'.word (.pde e i) = some t := by
  have htd : d ≠ t := by
    rintro rfl
    cases h.tree.tree (.dir e) (.pde e i) d trivial hd ht
  rw [target_pde hd (userIdx_of_lt hi), hother d htd, ← target_pde hd (userIdx_of_lt hi)]
  exact ht

private theorem Ok.clearTable_isSome (asid : Asid) (hd : D e = some d) (hi : i < PDX UTOP) (l : List Idx) :
    ∀ {m : Pmap} {leak : Nat → Nat}, Ok mc leak ⟨D, m⟩ → Mos.target mc D m.word (.pde e i) = some t →
    ∃ m', l.foldlM (fun (m : Pmap) pteno =>
      if has (m.word t pteno) PTE_V then m.pageRemove d asid (pageVa (i, pteno)) else some m) m = some m' := by
  induction l with
  | nil =>
    intro m leak _ _
    exact ⟨m, rfl⟩
  | cons j l ih =>
    intro m leak h ht
    have hpdx : PDX (pageVa (i, j)) = i := congrArg Prod.fst (VPN_pageVa (i, j))
    have hstep : ∃ m₁, [j].foldlM (fun (m : Pmap) pteno =>
        if has (m.word t pteno) PTE_V then m.pageRemove d asid (pageVa (i, pteno)) else some m) m = some m₁ := by
      simp only [List.foldlM_cons, List.foldlM_nil, bind_pure]
      split
      · exact h.pageRemove_isSome hd (by rw [hpdx]; exact hi)
      · exact ⟨m, rfl⟩
    obtain ⟨m₁, hm₁⟩ := hstep
    obtain ⟨hmoves, -, hother, -⟩ := Ok.clearTable_moves .any hd hi [j] h ht hm₁
    obtain ⟨leak₁, h₁, -⟩ := h.moves hmoves
    obtain ⟨m', hm'⟩ := ih h₁ (h.table_kept hd hi ht hother)
    simp only [List.foldlM_cons, List.foldlM_nil, bind_pure] at hm₁
    exact ⟨m', by rw [List.foldlM_cons, hm₁]; exact hm'⟩

private theorem Ok.freeTable_isSome (asid : Asid) (h : Ok mc leak ⟨D, m⟩) (hd : D e = some d) (hi : i < PDX UTOP) :
    ∃ m', m.freeTable d asid i = some m' := by
  rw [Pmap.freeTable]
  split
  case isFalse => exact ⟨m, rfl⟩
  case isTrue hv =>
    obtain ⟨ht, hlt⟩ := h.pde_valid hd (userIdx_of_lt hi) hv
    rw [Pmap.pa2page, if_pos hlt, Option.bind_some]
    obtain ⟨m₁, hm₁⟩ := Ok.clearTable_isSome asid hd hi (List.finRange 1024) h ht
    obtain ⟨hmoves, -, hother, -⟩ := Ok.clearTable_moves .any hd hi _ h ht hm₁
    obtain ⟨leak₁, h₁, -⟩ := h.moves hmoves
    have hdec : ∃ m₂, (m₁.setWord d i 0).pageDecref (PPN (m.word d i)) = some m₂ :=
      h₁.pageDecref_isSome (h.table_kept hd hi ht hother) rfl
    obtain ⟨m₂, hm₂⟩ := hdec
    exact ⟨_, by rw [hm₁, Option.bind_some, hm₂]; rfl⟩

private theorem Ok.freeTables_isSome (asid : Asid) (hd : D e = some d) (l : List Idx) (hl : ∀ i ∈ l, i < PDX UTOP) :
    ∀ {m : Pmap} {leak : Nat → Nat}, Ok mc leak ⟨D, m⟩ →
    ∃ m', l.foldlM (fun (m : Pmap) pdeno => m.freeTable d asid pdeno) m = some m' := by
  induction l with
  | nil =>
    intro m leak _
    exact ⟨m, rfl⟩
  | cons i l ih =>
    intro m leak h
    have hi := hl i (List.mem_cons_self ..)
    obtain ⟨m₁, hm₁⟩ := h.freeTable_isSome asid hd hi
    obtain ⟨hmoves, -⟩ := h.freeTable_moves .any hd hi hm₁
    obtain ⟨leak₁, h₁, -⟩ := h.moves hmoves
    obtain ⟨m', hm'⟩ := ih (fun i hi => hl i (List.mem_cons_of_mem _ hi)) h₁
    exact ⟨m', by rw [List.foldlM_cons, hm₁]; exact hm'⟩

/-- The two parts of `env_free`'s work on the memory, in a state in which neither panics. -/
private theorem Ok.freeSpace_parts (asid : Asid) (h : Ok mc leak ⟨D, m⟩) (hd : D e = some d) : ∃ m₁ m₂,
    ((List.finRange 1024).filter fun j => decide (j < PDX UTOP)).foldlM
      (fun (m : Pmap) pdeno => m.freeTable d asid pdeno) m = some m₁ ∧
    m₁.pageDecref d = some m₂ ∧ m.freeSpace d asid =
      some ((m₂.tlbInvalidate asid (Pmap.vptVa UVPT (PDX UVPT))).tlbInvalidate asid (Pmap.vptVa KSEG2 (PDX UVPT))) := by
  obtain ⟨m₁, hm₁⟩ := Ok.freeTables_isSome asid hd _ (fun i hi => mem_below.1 hi) h
  obtain ⟨hmoves, -⟩ := Ok.freeTables_moves .any hd _ (fun i hi => mem_below.1 hi) h hm₁
  obtain ⟨leak₁, h₁, -⟩ := h.moves hmoves
  obtain ⟨m₂, hm₂⟩ := h₁.pageDecref_isSome (s := .dir e) hd rfl
  exact ⟨m₁, m₂, hm₁, hm₂, by rw [Pmap.freeSpace, hm₁, Option.bind_some, hm₂]; rfl⟩

/-! ### The free list -/

/-- The counts went down, and the free list gained exactly the pages whose count became zero. -/
structure Released (m m' : Pmap) : Prop where
  down : ∀ p, m.ppRef p = 0 → m'.ppRef p = 0
  free : ∀ p, p ∈ m'.pageFreeList ↔ p ∈ m.pageFreeList ∨ (m.ppRef p ≠ 0 ∧ m'.ppRef p = 0)

namespace Released

private theorem same (href : m'.ppRef = m.ppRef) (hfree : m'.pageFreeList = m.pageFreeList) : Released m m' where
  down p h0 := by rw [href]; exact h0
  free p := by
    rw [href, hfree]
    exact (or_iff_left fun h => h.1 h.2).symm

private theorem trans {m₁ : Pmap} (h : Released m m₁) (h' : Released m₁ m') : Released m m' where
  down p h0 := h'.down p (h.down p h0)
  free p := by
    rw [h'.free, h.free]
    have hdown := h.down p
    have hdown' := h'.down p
    tauto

private theorem pageDecref (hdec : m.pageDecref p = some m') : Released m m' := by
  obtain ⟨hne, rfl⟩ := Pmap.pageDecref_cases hdec
  refine ⟨fun q h0 => ?_, fun q => ?_⟩
  · by_cases hqp : q = p
    · exact absurd (hqp ▸ h0) hne
    · exact (Function.update_of_ne hqp ..).trans h0
  · show q ∈ (if m.ppRef p - 1 = 0 then p :: m.pageFreeList else m.pageFreeList) ↔
      q ∈ m.pageFreeList ∨ (m.ppRef q ≠ 0 ∧ Function.update m.ppRef p (m.ppRef p - 1) q = 0)
    by_cases hqp : q = p
    · subst hqp
      rw [Function.update_self]
      split
      case isTrue h0 => exact iff_of_true (List.mem_cons_self ..) (.inr ⟨hne, h0⟩)
      case isFalse h0 => exact (or_iff_left fun h => h0 h.2).symm
    · rw [Function.update_of_ne hqp, or_iff_left fun h => h.1 h.2]
      split
      · rw [List.mem_cons, or_iff_right hqp]
      · rfl

/-- A loop whose every round releases pages. -/
private theorem loop {ι : Type} {f : Pmap → ι → Option Pmap} (hf : ∀ m m' x, f m x = some m' → Released m m') (l : List ι) :
    ∀ {m : Pmap}, l.foldlM f m = some m' → Released m m' := by
  induction l with
  | nil =>
    intro m hl
    obtain rfl := Option.some.inj hl
    exact .same rfl rfl
  | cons x l ih =>
    intro m hl
    obtain ⟨m₁, hm₁, hl⟩ := Option.bind_eq_some_iff.1 hl
    exact (hf m m₁ x hm₁).trans (ih hl)

private theorem pageRemove (hr : m.pageRemove d asid va = some m') : Released m m' := by
  obtain ⟨r, -, hr⟩ := Option.bind_eq_some_iff.1 hr
  cases r with
  | none =>
    obtain rfl := Option.some.inj hr
    exact .same rfl rfl
  | some r =>
    obtain ⟨m₁, hdec, rfl⟩ := Option.map_eq_some_iff.1 hr
    exact (pageDecref hdec).trans (.same rfl rfl)

private theorem freeTable (hp : m.freeTable d asid i = some m') : Released m m' := by
  rw [Pmap.freeTable] at hp
  split at hp
  case isFalse =>
    obtain rfl := Option.some.inj hp
    exact .same rfl rfl
  case isTrue =>
    obtain ⟨pt, -, hp⟩ := Option.bind_eq_some_iff.1 hp
    obtain ⟨m₁, hm₁, hp⟩ := Option.bind_eq_some_iff.1 hp
    obtain ⟨m₂, hdec, rfl⟩ := Option.map_eq_some_iff.1 hp
    have hclear : Released m m₁ := by
      refine loop (fun m m' j hj => ?_) _ hm₁
      split at hj
      · exact pageRemove hj
      · obtain rfl := Option.some.inj hj
        exact .same rfl rfl
    have hset : Released m₁ (m₁.setWord d i 0) := .same rfl rfl
    exact ((hclear.trans hset).trans (pageDecref hdec)).trans (.same rfl rfl)

private theorem freeSpace (hp : m.freeSpace d asid = some m') : Released m m' := by
  obtain ⟨m₁, hm₁, hp⟩ := Option.bind_eq_some_iff.1 hp
  obtain ⟨m₂, hdec, rfl⟩ := Option.map_eq_some_iff.1 hp
  exact ((loop (fun _ _ _ => freeTable) _ hm₁).trans (pageDecref hdec)).trans (.same rfl rfl)

end Released

/-! ### The references of one environment -/

/-- What the slots of `e` refer to. -/
def heldBy (mc : Machine) (s : Mem) (e : EnvPtr) (x : Slot) : Option Nat := if x.env = some e then s.target mc x else none

/-- What all other slots refer to. -/
def heldByOthers (mc : Machine) (s : Mem) (e : EnvPtr) (x : Slot) : Option Nat :=
  if x.env = some e then none else s.target mc x

private theorem heldBy_eq_some {s : Mem} {x : Slot} :
    heldBy mc s e x = some p ↔ x.env = some e ∧ s.target mc x = some p := by
  unfold heldBy
  split
  case isTrue hx => exact (and_iff_right hx).symm
  case isFalse hx => exact iff_of_false nofun fun h => hx h.1

private theorem refCount_held (mc : Machine) (s : Mem) (e : EnvPtr) (p : Nat) :
    refCount (heldByOthers mc s e) p + refCount (heldBy mc s e) p = refCount (s.target mc) p := by
  rw [Nat.add_comm]
  exact (refCount_split (fun x : Slot => x.env = some e) (s.target mc) p).symm

/-- Once the directory of `e` is given up, the other slots refer to what they did. -/
private theorem Ok.target_freeSpace (h : Ok mc leak ⟨D, m⟩) (hd : D e = some d) (hp : m.freeSpace d asid = some m') :
    Mem.target mc ⟨Function.update D e none, m'⟩ = heldByOthers mc ⟨D, m⟩ e := by
  have hmoves : Moves mc .any e asid ⟨D, m⟩ ⟨Function.update D e none, m'⟩ := h.freeSpace_moves hd trivial hp
  funext x
  unfold heldByOthers
  split
  case isTrue hx =>
    have hnone : (Function.update D e none) e = none := Function.update_self ..
    cases x with
    | base b => cases hx
    | dir e' => cases hx; exact hnone
    | pde e' i => cases hx; simp [Mem.target, Mos.target]
    | pte e' i j => cases hx; simp [Mem.target, Mos.target]
  case isFalse hx =>
    exact h.moves_target hmoves hx

/-- Without tables above `UTOP` no reference is lost. -/
private theorem Ok.freeSpace_keeps (h : Ok mc leak ⟨D, m⟩) (hd : D e = some d) (hjunk : NoJunk d m)
    (hp : m.freeSpace d asid = some m') : Ok mc leak ⟨Function.update D e none, m'⟩ := by
  have hmoves : Moves mc countsPolicy e asid ⟨D, m⟩ ⟨Function.update D e none, m'⟩ := h.freeSpace_moves hd hjunk hp
  obtain ⟨leak', h', hleak⟩ := h.moves hmoves
  rwa [hleak fun _ _ _ hdrop => hdrop] at h'

/-- Every count goes down by the references from the slots of `e`. -/
private theorem Ok.freeSpace_counts (h : Ok mc leak ⟨D, m⟩) (hd : D e = some d) (hjunk : NoJunk d m)
    (hp : m.freeSpace d asid = some m') (hused : mc.used ≤ p) :
    (m'.ppRef p).toNat + refCount (heldBy mc ⟨D, m⟩ e) p = (m.ppRef p).toNat := by
  have hold : (m.ppRef p).toNat = refCount (Mem.target mc ⟨D, m⟩) p + leak p := h.refs.refs p hused
  have hnew : (m'.ppRef p).toNat = refCount (Mem.target mc ⟨Function.update D e none, m'⟩) p + leak p :=
    (h.freeSpace_keeps hd hjunk hp).refs.refs p hused
  have hsplit := refCount_held mc ⟨D, m⟩ e p
  rw [h.target_freeSpace hd hp] at hnew
  omega

/-- The pages that only the slots of `e` refer to become free. -/
private theorem Ok.freeSpace_pages (h : Ok mc (fun _ => 0) ⟨D, m⟩) (hd : D e = some d) (hjunk : NoJunk d m)
    (hp : m.freeSpace d asid = some m') (p : Nat) : p ∈ m'.pageFreeList ↔ p ∈ m.pageFreeList ∨
      ((∃ x, heldBy mc ⟨D, m⟩ e x = some p) ∧ ∀ x, Mem.target mc ⟨D, m⟩ x = some p → x.env = some e) := by
  have hiff : mc.used ≤ p → ((m.ppRef p ≠ 0 ∧ m'.ppRef p = 0) ↔
      (∃ x, heldBy mc ⟨D, m⟩ e x = some p) ∧ ∀ x, Mem.target mc ⟨D, m⟩ x = some p → x.env = some e) := by
    intro hused
    have hold : (m.ppRef p).toNat = refCount (Mem.target mc ⟨D, m⟩) p + 0 := h.refs.refs p hused
    have hcount := h.freeSpace_counts hd hjunk hp hused
    have hsplit := refCount_held mc ⟨D, m⟩ e p
    have hz : ∀ x : BitVec 16, x = 0 ↔ x.toNat = 0 := fun x => by
      rw [← BitVec.toNat_inj]
      rfl
    have hothers : refCount (heldByOthers mc ⟨D, m⟩ e) p = 0 ↔
        ∀ x, Mem.target mc ⟨D, m⟩ x = some p → x.env = some e := by
      rw [refCount_eq_zero]
      refine forall_congr' fun x => ?_
      unfold heldByOthers
      split
      case isTrue hx => exact iff_of_true nofun fun _ => hx
      case isFalse hx => exact ⟨fun hne heq => absurd heq hne, fun himp heq => hx (himp heq)⟩
    have hheld : refCount (heldBy mc ⟨D, m⟩ e) p ≠ 0 ↔ ∃ x, heldBy mc ⟨D, m⟩ e x = some p := by
      rw [ne_eq, refCount_eq_zero, not_forall]
      exact exists_congr fun x => not_not
    rw [ne_eq, hz, hz, ← hothers, ← hheld]
    omega
  rw [(Released.freeSpace hp).free]
  refine or_congr_right ⟨fun hp' => (hiff ?_).1 hp', fun hp' => (hiff ?_).2 hp'⟩
  · have hmem : p ∈ m'.pageFreeList := ((Released.freeSpace hp).free p).2 (.inr hp')
    exact ((h.freeSpace_keeps hd hjunk hp).refs.free p hmem).1.1
  · obtain ⟨⟨x, hx⟩, -⟩ := hp'
    exact (h.tree.bound x p (heldBy_eq_some.1 hx).2).1

/-- A table above `UTOP` does not become free. -/
private theorem Ok.freeSpace_junk (h : Ok mc leak ⟨D, m⟩) (hd : D e = some d) (hp : m.freeSpace d asid = some m')
    (hi : userIdx i = true) (hhigh : ¬i < PDX UTOP) (ht : Mos.target mc D m.word (.pde e i) = some t) :
    t ∉ m'.pageFreeList := by
  obtain ⟨m₁, m₂, hm₁, hm₂, hfree⟩ := h.freeSpace_parts asid hd
  obtain rfl := Option.some.inj (hp.symm.trans hfree)
  obtain ⟨hmoves, -, hother, -⟩ := Ok.freeTables_moves .any hd _ (fun i hi => mem_below.1 hi) h hm₁
  obtain ⟨leak₁, h₁, -⟩ := h.moves hmoves
  have ht₁ : Mos.target mc D m₁.word (.pde e i) = some t := by
    rw [target_pde hd hi, hother i fun hmem => hhigh (mem_below.1 hmem), ← target_pde hd hi]
    exact ht
  have htd : t ≠ d := by
    rintro rfl
    cases h₁.tree.tree (.dir e) (.pde e i) t trivial hd ht₁
  have hcount : m₁.ppRef t ≠ 0 := fun h0 =>
    (h₁.refs.unused (h₁.tree.bound _ t ht₁).1 h0).1 _ ht₁
  have href : m₂.ppRef t = m₁.ppRef t := by
    obtain ⟨-, rfl⟩ := Pmap.pageDecref_cases hm₂
    exact Function.update_of_ne htd ..
  intro hmem
  have hmem : t ∈ m₂.pageFreeList := hmem
  rcases ((Released.pageDecref hm₂).free t).1 hmem with hmem | ⟨-, h0⟩
  · exact h₁.refs.notMem_free ht₁ hmem
  · exact hcount (href ▸ h0)

end Mem

/-! ### `env_free` -/

/-- The state `k'` is `k` without the environment `e`: it is off the run list, every frame that only its slots refer to
is free, every count is lower by its references, what the others map and the pages that they map are the same, and its
ASID and its slot, which were in use, are free. -/
structure Freed (mc : Machine) (k : Kern) (e : EnvPtr) (k' : Kern) : Prop where
  sched : ∀ l, k.sched.Holds l → k'.sched.Holds (l.erase e)
  nodup : k'.pm.pageFreeList.Nodup
  pages : ∀ p, p ∈ k'.pm.pageFreeList ↔ p ∈ k.pm.pageFreeList ∨
    ((∃ x, Mem.heldBy mc k.mem e x = some p) ∧ ∀ x, k.mem.target mc x = some p → x.env = some e)
  counts : ∀ p, mc.used ≤ p → (k'.pm.ppRef p).toNat + refCount (Mem.heldBy mc k.mem e) p = (k.pm.ppRef p).toNat
  maps : ∀ e' v, e' ≠ e → v.1 < PDX ULIM → k'.mem.pte e' v = k.mem.pte e' v
  content : ∀ e' v p, e' ≠ e → k.userMap (e', v) = some p → k'.pm.word p = k.pm.word p
  asid : k.asidBitmap (k.envs e).envAsid = true ∧
    k'.asidBitmap = Function.update k.asidBitmap (k.envs e).envAsid false ∧
    ∀ e', (k'.envs e').envStatus ≠ .FREE → (k'.envs e').envAsid ≠ (k.envs e).envAsid
  slot : e ∉ k.envFreeList ∧ k'.envFreeList = e :: k.envFreeList ∧ (k'.envs e).envStatus = .FREE

/-- `env_free` gives back what belongs to `e` and nothing else. -/
def FreesEnv (mc : Machine) (k : Kern) (e : EnvPtr) : Prop := ∃ k', k.envFree e = some k' ∧ Freed mc k e k'

/-- The steps keep the run list right, keep the counts, and give every new environment a page and an ASID. -/
def freeAdmits (s : State) (ev : Event) : Bool := schedAdmits s ev && countsAdmits s ev && allocAdmits s ev

private theorem Freed.of_envFree {mc : Machine} {k : Kern} {e : EnvPtr} {d : Nat} {m : Pmap} {q : TailQueue EnvPtr}
    (h : MemOk mc (fun _ => 0) k) (hasid : AsidOk k) (he : (k.envs e).envStatus ≠ .FREE) (hd : k.dirs e = some d)
    (hjunk : Mem.NoJunk d k.pm) (hp : k.pm.freeSpace d (k.envs e).envAsid = some m)
    (hq : ∀ l, k.sched.Holds l → q.Holds (l.erase e)) : Freed mc k e (k.freed e m q) := by
  have hmoves : Moves mc .any e (k.envs e).envAsid k.mem ⟨Function.update k.dirs e none, m⟩ :=
    h.mem.freeSpace_moves hd trivial hp
  have hst : ((k.freed e m q).envs e).envStatus = .FREE := by rw [Kern.freed, setEnv_self]
  have hother : ∀ e', e' ≠ e → (k.freed e m q).envs e' = k.envs e' := fun e' hne => by
    rw [Kern.freed, setEnv_of_ne hne]
    rfl
  have hmem : (k.freed e m q).mem = ⟨Function.update k.dirs e none, m⟩ := by
    rw [Kern.mem, dirs_freed]
    rfl
  refine ⟨hq, (h.mem.freeSpace_keeps hd hjunk hp).refs.nodup, h.mem.freeSpace_pages hd hjunk hp,
    fun p hused => h.mem.freeSpace_counts hd hjunk hp hused, fun e' v hne hv => ?_, fun e' v p hne hm => ?_,
    ⟨hasid.used e he, rfl, fun e' hlive heq => ?_⟩, h.live.not_mem he, rfl, hst⟩
  · obtain ⟨hdirs, hframe⟩ := h.mem.moves_frame hmoves hne
    rw [hmem]
    exact h.mem.pte_congr hv hdirs fun q hq => (hframe q hq).1
  · exact h.mem.moves_content hmoves hne hm
  · have hne : e' ≠ e := by
      rintro rfl
      exact hlive hst
    rw [hother e' hne] at hlive heq
    exact hne (hasid.own e' e hlive he heq)

/-- In runs of admitted steps, `env_free` of an environment on the run list does what it should exactly when no table
hangs above `UTOP` in its directory. -/
theorem envFree_ok_iff {mc : Machine} {l : List (State × Event)} {s : State} {e : EnvPtr} {d : Nat}
    (h : kernel.Steps (fun s ev => freeAdmits s ev = true) ⟨.user, mc.bootKern⟩ l s)
    (he : (s.kern.envs e).envStatus = .RUNNABLE) (hd : (s.kern.envs e).envPgdir = some d) :
    FreesEnv mc s.kern e ↔ noJunk s.kern.pm d = true := by
  obtain ⟨hm, hasid, hsched⟩ : MemOk mc (fun _ => 0) s.kern ∧ AsidOk s.kern ∧ SchedOk s.kern := by
    refine h.invariant (I := fun _ s => MemOk mc (fun _ => 0) s.kern ∧ AsidOk s.kern ∧ SchedOk s.kern) ?_ ?_
    · exact ⟨MemOk.boot mc, .boot mc, .boot mc⟩
    · rintro l t ev u ⟨hm, hasid, hsched⟩ ha hs
      simp only [freeAdmits, Bool.and_eq_true] at ha
      obtain ⟨⟨hsch, hcounts⟩, halloc⟩ := ha
      have hstep := State.step_cases hs
      obtain ⟨leak', hm', hleak⟩ := hm.step hstep (memAdmits_of_counts hcounts) (stepPolicy_of_counts hm hcounts)
      rw [hleak fun _ _ _ hd => hd] at hm'
      exact ⟨hm', hasid.step hm.live hstep halloc, hsched.step hm.live hsch hstep⟩
  generalize s.kern = k at hm hasid hsched he hd ⊢
  have hlive : (k.envs e).envStatus ≠ .FREE := by
    rw [he]
    exact nofun
  have hdir : k.dirs e = some d := (dirs_of_live hlive).trans hd
  rw [noJunk_iff]
  constructor
  · rintro ⟨k', hk', hfreed⟩ i hi hk
    obtain ⟨d', m, q, hd', hp, -, rfl⟩ := envFree_cases hk'
    obtain rfl := Option.some.inj (hd.symm.trans hd')
    by_contra hv
    have hv : has (k.pm.word d i) PTE_V = true := by simpa using hv
    have huser : userIdx i = true := by simp [userIdx, hi, hk]
    have hhigh : ¬i < PDX UTOP := not_lt.2 (le_trans (by decide) hi)
    obtain ⟨ht, -⟩ := hm.mem.pde_valid hdir huser hv
    refine hm.mem.freeSpace_junk hdir hp huser hhigh ht ((hfreed.pages _).2 (.inr ⟨⟨.pde e i, ?_⟩, fun x hx => ?_⟩))
    · exact Mem.heldBy_eq_some.2 ⟨rfl, ht⟩
    · rw [hm.mem.tree.tree (.pde e i) x _ trivial ht hx]
      rfl
  · intro hjunk
    obtain ⟨m₁, m₂, -, -, hp⟩ := hm.mem.freeSpace_parts (k.envs e).envAsid hdir
    obtain ⟨l, hl, hmem⟩ := hsched
    obtain ⟨q, hq, hq'⟩ := hl.remove ((hmem e).2 he)
    refine ⟨k.freed e _ q, ?_, Freed.of_envFree hm hasid hlive hdir hjunk hp fun l' hl' => ?_⟩
    · rw [envFree, hd, Option.bind_some, hp, Option.bind_some, hq]
      rfl
    · rw [hl'.unique hl]
      exact hq'

/-- Two environments; one allocates a page at `UTEXT`, forks, and maps the page in its child as well. -/
def sharedPage : List Event :=
  .create .empty 1 :: allocWith PTE_V ++ callEvents 9 0 0 0 ++
    trapEvents (argRegs 7 0 UTEXT 0x1802) (fun a => if a = USTACKTOP - 0x200 + 16 then UTEXT else 0) (.syscall 0)

private theorem sharedPage_cond : (kernel.trace freeAdmits ⟨.user, Machine.gxemul.bootKern⟩ sharedPage).any fun r =>
    decide ((r.2.kern.envs 0).envStatus = .RUNNABLE ∧ (r.2.kern.envs 1).envStatus = .RUNNABLE) &&
      decide (r.2.kern.userMap (1, VPN UTEXT) = r.2.kern.userMap (2, VPN UTEXT)) &&
      (r.2.kern.userMap (1, VPN UTEXT)).any (fun p => r.2.kern.pm.ppRef p == 2) &&
      (r.2.kern.envs 1).envPgdir.any fun d => noJunk r.2.kern.pm d := by decide +kernel

theorem envFree_ok_sharedPage : ∃ l s p, kernel.trace freeAdmits ⟨.user, Machine.gxemul.bootKern⟩ sharedPage =
    some (l, s) ∧ s.kern.userMap (1, VPN UTEXT) = some p ∧ s.kern.userMap (2, VPN UTEXT) = some p ∧
    s.kern.pm.ppRef p = 2 ∧ FreesEnv Machine.gxemul s.kern 1 := by
  obtain ⟨⟨l, s⟩, hl, hcond⟩ := (Option.any_eq_true _ _).1 sharedPage_cond
  simp only [Bool.and_eq_true, decide_eq_true_eq, Option.any_eq_true] at hcond
  obtain ⟨⟨⟨⟨-, he⟩, hboth⟩, p, hp, hcount⟩, d, hd, hjunk⟩ := hcond
  exact ⟨l, s, p, hl, hp, hboth ▸ hp, eq_of_beq hcount, (envFree_ok_iff (.of_trace hl) he hd).2 hjunk⟩

/-- A child that was never started has never been on the run list: its links are null. -/
private theorem forkOnce_links : (Machine.gxemul.after (fun _ _ => true) forkOnce).any fun s =>
    s.inUser ∧ (s.kern.envs 1).envStatus ≠ .FREE ∧ (s.kern.sched.prev 1).isNone := by decide +kernel

theorem exists_not_freed : ∃ s e, kernel.Reach (fun _ _ => True) s ∧ s.inUser ∧ (s.kern.envs e).envStatus ≠ .FREE ∧
    ¬FreesEnv Machine.gxemul s.kern e := by
  obtain ⟨s, hs, hcond⟩ := (Option.any_eq_true _ _).1 forkOnce_links
  obtain ⟨huser, hlive, hprev⟩ := of_decide_eq_true hcond
  refine ⟨s, 1, (Machine.after_reach hs).mono fun _ _ _ => trivial, huser, hlive, ?_⟩
  rintro ⟨k', hk', -⟩
  obtain ⟨pgdir, pm, q, -, -, hq, -⟩ := envFree_cases hk'
  rw [TailQueue.remove, Option.isNone_iff_eq_none.1 hprev] at hq
  cases hq

end Mos
