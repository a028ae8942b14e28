import Mathlib.Data.Fintype.Card
import Mathlib.Data.Finset.Card
import Mathlib.Logic.Function.Basic

/-!
# Counting references

A family of slots, each of which refers to an object or to none.  The reference count of an object is the number of
slots that refer to it; setting and clearing a slot changes one count by one.  In a tree, an object to which a
structural slot refers has no other reference.
-/

section Count

variable {X P : Type} [Fintype X] [DecidableEq P] {f g : X → Option P} {x : X} {p q : P}

/-- The number of slots that refer to `p`. -/
def refCount (f : X → Option P) (p : P) : Nat := (Finset.univ.filter fun x => f x = some p).card

theorem refCount_eq_zero : refCount f p = 0 ↔ ∀ x, f x ≠ some p := by
  simp [refCount, Finset.filter_eq_empty_iff]

theorem refCount_pos (h : f x = some p) : 0 < refCount f p := by
  rw [Nat.pos_iff_ne_zero]
  exact fun h0 => refCount_eq_zero.1 h0 x h

theorem refCount_eq_one (h : f x = some p) (hx : ∀ y, f y = some p → y = x) : refCount f p = 1 := by
  rw [refCount, Finset.card_eq_one]
  refine ⟨x, Finset.ext fun y => ?_⟩
  rw [Finset.mem_filter, Finset.mem_singleton]
  constructor
  · exact fun hy => hx y hy.2
  · rintro rfl
    exact ⟨Finset.mem_univ _, h⟩

/-- Fewer references, smaller counts. -/
theorem refCount_le (h : ∀ x, g x = some p → f x = some p) : refCount g p ≤ refCount f p := by
  refine Finset.card_le_card fun x hx => ?_
  rw [Finset.mem_filter] at hx ⊢
  exact ⟨hx.1, h x hx.2⟩

/-- A family whose slots are some of the slots of `f`. -/
theorem refCount_le_of_injective {Y : Type} [Fintype Y] {i : Y → X} {g : Y → Option P} (hi : Function.Injective i)
    (h : ∀ y, g y = some p → f (i y) = some p) : refCount g p ≤ refCount f p := by
  refine Finset.card_le_card_of_injOn i (fun y hy => ?_) hi.injOn
  have hy := (Finset.mem_filter.1 hy).2
  exact Finset.mem_coe.2 (Finset.mem_filter.2 ⟨Finset.mem_univ _, h y hy⟩)

/-- Counting some of the slots. -/
theorem countP_le_refCount {l : List X} (hl : l.Nodup) (f : X → Option P) (p : P) :
    l.countP (fun x => decide (f x = some p)) ≤ refCount f p := by
  classical
  rw [List.countP_eq_length_filter, ← List.toFinset_card_of_nodup (hl.filter _)]
  refine Finset.card_le_card fun x hx => ?_
  rw [List.mem_toFinset, List.mem_filter, decide_eq_true_iff] at hx
  exact Finset.mem_filter.2 ⟨Finset.mem_univ _, hx.2⟩

/-- The references from a part of the slots that has them all. -/
theorem refCount_comp {Y : Type} [Fintype Y] {i : Y → X} (hi : Function.Injective i)
    (h : ∀ x, f x = some p → ∃ y, i y = x) : refCount (f ∘ i) p = refCount f p := by
  refine Finset.card_bij (fun y _ => i y) (fun y hy => ?_) (fun y _ z _ hyz => hi hyz) fun x hx => ?_
  · rw [Finset.mem_filter] at hy ⊢
    exact ⟨Finset.mem_univ _, hy.2⟩
  · obtain ⟨y, rfl⟩ := h x (Finset.mem_filter.1 hx).2
    exact ⟨y, Finset.mem_filter.2 ⟨Finset.mem_univ _, (Finset.mem_filter.1 hx).2⟩, rfl⟩

/-- The references from a part of the slots and from the rest. -/
theorem refCount_split (S : X → Prop) [DecidablePred S] (f : X → Option P) (p : P) :
    refCount f p = refCount (fun x => if S x then f x else none) p + refCount (fun x => if S x then none else f x) p := by
  have hpart : (Finset.univ.filter fun x => (if S x then f x else none) = some p) =
      (Finset.univ.filter fun x => f x = some p).filter S := by
    ext x
    by_cases hx : S x
    · simp [hx]
    · simp [hx]
  have hrest : (Finset.univ.filter fun x => (if S x then none else f x) = some p) =
      (Finset.univ.filter fun x => f x = some p).filter fun x => ¬S x := by
    ext x
    by_cases hx : S x
    · simp [hx]
    · simp [hx]
  rw [refCount, refCount, refCount, hpart, hrest]
  exact (Finset.card_filter_add_card_filter_not S).symm

variable [DecidableEq X]

/-- Setting an empty slot. -/
theorem refCount_set (h : f x = none) (q p : P) :
    refCount (Function.update f x (some q)) p = refCount f p + if q = p then 1 else 0 := by
  have hx : x ∉ Finset.univ.filter fun y => f y = some p := by simp [h]
  by_cases hq : q = p
  · subst hq
    have hins : (Finset.univ.filter fun y => Function.update f x (some q) y = some q) =
        insert x (Finset.univ.filter fun y => f y = some q) := by
      ext y
      by_cases hy : y = x
      · simp [hy]
      · simp [hy]
    rw [refCount, hins, Finset.card_insert_of_notMem hx, if_pos rfl]
    rfl
  · have hsame : (Finset.univ.filter fun y => Function.update f x (some q) y = some p) =
        Finset.univ.filter fun y => f y = some p := by
      ext y
      by_cases hy : y = x
      · simp [hy, h, hq]
      · simp [hy]
    rw [refCount, hsame, if_neg hq]
    rfl

/-- Clearing a slot. -/
theorem refCount_clear (h : f x = some q) (p : P) :
    refCount (Function.update f x none) p + (if q = p then 1 else 0) = refCount f p := by
  have hset := refCount_set (f := Function.update f x none) (x := x) (Function.update_self ..) q p
  have hback : Function.update (Function.update f x none) x (some q) = f := by
    rw [Function.update_idem, ← h, Function.update_eq_self]
  rw [← hset, hback]

/-- Any change of a slot. -/
theorem refCount_update (f : X → Option P) (x : X) (o : Option P) (p : P) :
    refCount (Function.update f x o) p + (if f x = some p then 1 else 0) = refCount f p + if o = some p then 1 else 0 := by
  have hclear : refCount (Function.update f x none) p + (if f x = some p then 1 else 0) = refCount f p := by
    cases hx : f x with
    | none =>
      have hsame : Function.update f x none = f := by rw [← hx, Function.update_eq_self]
      simp [hsame]
    | some q =>
      have hq := refCount_clear hx p
      simpa [hx] using hq
  have hset : refCount (Function.update f x o) p =
      refCount (Function.update f x none) p + if o = some p then 1 else 0 := by
    cases o with
    | none => simp
    | some q =>
      have hq := refCount_set (f := Function.update f x none) (x := x) (Function.update_self ..) q p
      rw [Function.update_idem] at hq
      simpa using hq
  omega

end Count

/-! ### Trees -/

section Tree

variable {X P : Type} {f g : X → Option P} {x : X} {p q : P}

/-- An object to which a slot in `S` refers has no other reference. -/
def TreeLike (S : X → Prop) (f : X → Option P) : Prop :=
  ∀ x y p, S x → f x = some p → f y = some p → y = x

namespace TreeLike

variable {S : X → Prop}

/-- Clearing slots keeps a tree. -/
theorem of_le (h : TreeLike S f) (hg : ∀ x p, g x = some p → f x = some p) : TreeLike S g :=
  fun x y p hx hpx hpy => h x y p hx (hg x p hpx) (hg y p hpy)

/-- An empty slot may refer to an object without references from `S`, or without any if the slot is in `S`. -/
theorem set [DecidableEq X] (h : TreeLike S f) (hS : ∀ y, S y → f y ≠ some q) (hx : S x → ∀ y, f y ≠ some q) :
    TreeLike S (Function.update f x (some q)) := by
  intro y z p hy hpy hpz
  by_cases hyx : y = x
  · subst hyx
    rw [Function.update_self] at hpy
    obtain rfl := Option.some.inj hpy
    by_cases hzy : z = y
    · exact hzy
    · rw [Function.update_of_ne hzy] at hpz
      exact absurd hpz (hx hy z)
  · rw [Function.update_of_ne hyx] at hpy
    by_cases hzx : z = x
    · subst hzx
      rw [Function.update_self] at hpz
      obtain rfl := Option.some.inj hpz
      exact absurd hpy (hS y hy)
    · rw [Function.update_of_ne hzx] at hpz
      exact h y z p hy hpy hpz

end TreeLike

end Tree
