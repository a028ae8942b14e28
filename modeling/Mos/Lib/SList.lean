import Mathlib.Data.List.Nodup
import Mathlib.Data.List.FinRange
import Mathlib.Data.List.Perm.Basic
import Mathlib.Logic.Function.Basic

/-!
# Singly linked lists in a heap

`SList next p l` says that the list that starts at the pointer `p` has the elements `l` and ends.  `sift` is what a
scan does to such a list that keeps the blocked elements, drops the ignored ones and takes out the first other one.
-/

variable {α : Type}

/-- From the pointer `p` on, following `next` runs through `l` and ends in null. -/
def SList (next : α → Option α) : Option α → List α → Prop
  | p, [] => p = none
  | p, a :: l => p = some a ∧ SList next (next a) l

namespace SList

variable {next next' : α → Option α} {p : Option α} {l l' : List α}

theorem nil (next : α → Option α) : SList next none [] := rfl

theorem cons {a : α} (h : SList next (next a) l) : SList next (some a) (a :: l) := ⟨rfl, h⟩

theorem head_eq (h : SList next p l) : p = l.head? := by
  cases l with
  | nil => exact h
  | cons a l => exact h.1

/-- The pointer determines the elements. -/
theorem unique (h : SList next p l) (h' : SList next p l') : l = l' := by
  induction l generalizing p l' with
  | nil =>
    cases l' with
    | nil => rfl
    | cons b l' => exact absurd (h.symm.trans h'.1) nofun
  | cons a l ih =>
    cases l' with
    | nil => exact absurd (h.1.symm.trans h') nofun
    | cons b l' =>
      obtain rfl : a = b := Option.some.inj (h.1.symm.trans h'.1)
      rw [ih h.2 h'.2]

/-- Only the links of the elements matter. -/
theorem congr (h : SList next p l) (hl : ∀ a ∈ l, next' a = next a) : SList next' p l := by
  induction l generalizing p with
  | nil => exact h
  | cons a l ih =>
    refine ⟨h.1, ?_⟩
    rw [hl a (List.mem_cons_self ..)]
    exact ih h.2 fun b hb => hl b (List.mem_cons_of_mem _ hb)

private theorem suffix {l₁ l₂ : List α} {a : α} (h : SList next p (l₁ ++ a :: l₂)) : SList next (some a) (a :: l₂) := by
  induction l₁ generalizing p with
  | nil => exact ⟨rfl, h.2⟩
  | cons b l₁ ih => exact ih h.2

/-- A list that ends is acyclic. -/
theorem nodup (h : SList next p l) : l.Nodup := by
  induction l generalizing p with
  | nil => exact List.nodup_nil
  | cons a l ih =>
    refine List.nodup_cons.2 ⟨fun ha => ?_, ih h.2⟩
    -- a second occurrence would start the same list as the first one, which is longer
    obtain ⟨l₁, l₂, rfl⟩ := List.append_of_mem ha
    have hself : SList next (some a) (a :: (l₁ ++ a :: l₂)) := ⟨rfl, h.2⟩
    have heq : a :: (l₁ ++ a :: l₂) = a :: l₂ := hself.unique (suffix h.2)
    have hlen := congrArg List.length heq
    simp only [List.length_cons, List.length_append] at hlen
    omega

variable [DecidableEq α]

/-- Writing the link of an element outside of the list. -/
theorem update {a : α} {q : Option α} (h : SList next p l) (ha : a ∉ l) : SList (Function.update next a q) p l :=
  h.congr fun b hb => Function.update_of_ne (fun hba : b = a => ha (hba ▸ hb)) _ _

/-- Putting an element in front. -/
theorem push {a : α} (h : SList next p l) (ha : a ∉ l) : SList (Function.update next a p) (some a) (a :: l) := by
  refine ⟨rfl, ?_⟩
  rw [Function.update_self]
  exact h.update ha

/-- An array whose elements are linked in order is the list of its indices. -/
theorem of_finRange {n : Nat} {next : Fin n → Option (Fin n)} {p : Option (Fin n)} {l : List (Fin n)}
    (hl : l = List.finRange n) (hp : p = if h : 0 < n then some ⟨0, h⟩ else none)
    (hnext : ∀ i : Fin n, next i = if h : (i : Nat) + 1 < n then some ⟨i + 1, h⟩ else none) : SList next p l := by
  subst hl hp
  suffices hd : ∀ d i, i + d = n → SList next (if h : i < n then some ⟨i, h⟩ else none) ((List.finRange n).drop i) by
    have h0 := hd n 0 (Nat.zero_add n)
    rwa [List.drop_zero] at h0
  intro d
  induction d with
  | zero =>
    intro i hi
    rw [dif_neg (by omega), List.drop_eq_nil_of_le (by rw [List.length_finRange]; omega)]
    exact nil next
  | succ d ih =>
    intro i hi
    have hlt : i < n := by omega
    rw [dif_pos hlt, List.drop_eq_getElem_cons (by rw [List.length_finRange]; exact hlt), List.getElem_finRange]
    refine cons ?_
    rw [hnext]
    exact ih (i + 1) (by omega)

end SList

/-! ### Sifting a list -/

/-- The elements that stay, those that are thrown away, and the one that is taken out. -/
structure Sifted (α : Type) where
  kept : List α
  discarded : List α
  found : Option α

/-- Up to the first element that is neither blocked nor ignored, the blocked elements are kept and the others are
thrown away; that element is taken out, and everything behind it is kept. -/
def sift (blocked ignored : α → Bool) (l : List α) : Sifted α where
  kept := (l.takeWhile fun a => blocked a || ignored a).filter blocked ++
    (l.dropWhile fun a => blocked a || ignored a).tail
  discarded := (l.takeWhile fun a => blocked a || ignored a).filter fun a => !blocked a
  found := (l.dropWhile fun a => blocked a || ignored a).head?

namespace Sifted

/-- The elements that leave the list. -/
def removed (s : Sifted α) : List α := s.discarded ++ s.found.toList

end Sifted

section Sift

variable {blocked ignored : α → Bool} {a : α} {l : List α}

@[simp] theorem sift_nil : sift blocked ignored [] = ⟨[], [], none⟩ := rfl

theorem sift_blocked (hb : blocked a = true) : sift blocked ignored (a :: l) =
    { sift blocked ignored l with kept := a :: (sift blocked ignored l).kept } := by
  simp [sift, hb]

theorem sift_ignored (hb : blocked a = false) (hi : ignored a = true) : sift blocked ignored (a :: l) =
    { sift blocked ignored l with discarded := a :: (sift blocked ignored l).discarded } := by
  simp [sift, hb, hi]

theorem sift_found (hb : blocked a = false) (hi : ignored a = false) :
    sift blocked ignored (a :: l) = ⟨l, [], some a⟩ := by
  simp [sift, hb, hi]

/-- Nothing is lost and nothing is made up. -/
theorem sift_perm (blocked ignored : α → Bool) (l : List α) :
    ((sift blocked ignored l).kept ++ (sift blocked ignored l).removed).Perm l := by
  induction l with
  | nil => exact .nil
  | cons a l ih =>
    cases hb : blocked a with
    | true => rw [sift_blocked hb]; exact ih.cons a
    | false =>
      cases hi : ignored a with
      | true =>
        rw [sift_ignored hb hi]
        exact List.perm_middle.trans (ih.cons a)
      | false =>
        rw [sift_found hb hi]
        exact List.perm_append_comm

/-- What is taken out is an element that is neither blocked nor ignored. -/
theorem sift_found_mem (h : (sift blocked ignored l).found = some a) : a ∈ l ∧ blocked a = false ∧ ignored a = false := by
  have hnot := List.head?_dropWhile_not (fun a => blocked a || ignored a) l
  have hhead : (l.dropWhile fun a => blocked a || ignored a).head? = some a := h
  rw [hhead] at hnot
  exact ⟨(List.dropWhile_suffix _).subset (List.mem_of_head? hhead), by simpa using hnot⟩

/-- Everything that stays keeps its order. -/
theorem sift_kept_sublist (blocked ignored : α → Bool) (l : List α) : (sift blocked ignored l).kept.Sublist l := by
  induction l with
  | nil => exact .slnil
  | cons a l ih =>
    cases hb : blocked a with
    | true => rw [sift_blocked hb]; exact ih.cons_cons a
    | false =>
      cases hi : ignored a with
      | true => rw [sift_ignored hb hi]; exact ih.cons a
      | false => rw [sift_found hb hi]; exact List.sublist_cons_self a l

/-- Sifting looks at the elements through the two tests only. -/
theorem sift_map {β : Type} (f : β → α) (l : List β) : sift blocked ignored (l.map f) =
    ⟨(sift (blocked ∘ f) (ignored ∘ f) l).kept.map f, (sift (blocked ∘ f) (ignored ∘ f) l).discarded.map f,
      (sift (blocked ∘ f) (ignored ∘ f) l).found.map f⟩ := by
  induction l with
  | nil => rfl
  | cons b l ih =>
    rw [List.map_cons]
    cases hb : blocked (f b) with
    | true => rw [sift_blocked hb, ih, sift_blocked (show (blocked ∘ f) b = true from hb)]; rfl
    | false =>
      cases hi : ignored (f b) with
      | true =>
        rw [sift_ignored hb hi, ih, sift_ignored (show (blocked ∘ f) b = false from hb) hi]; rfl
      | false => rw [sift_found hb hi, sift_found (show (blocked ∘ f) b = false from hb) hi]; rfl

end Sift
