import Mathlib.Data.List.Nodup
import Mathlib.Logic.Function.Basic

/-!
# Tail queues in a heap

A tail queue keeps its first element and the address of its last `next` pointer; every element keeps its `next`
pointer and the address of the pointer that points to it (`prev`).  An address of a pointer is a `Ref`: the head's
own pointer or the `next` pointer of an element.  Writing through a null address is a fault (`none`).

`Holds q l` says that `q` is well formed with content `l`.  The operations refine those of lists as long as only
members are removed and only non-members are inserted; nothing is promised otherwise.
-/

/-- The address of a pointer to an element: the head's or an element's `next`. -/
inductive Ref (α : Type) where
  | head
  | next (a : α)
  deriving DecidableEq

/-- The head of a tail queue together with the links of all elements. -/
structure TailQueue (α : Type) where
  first : Option α
  last : Option (Ref α)
  next : α → Option α
  prev : α → Option (Ref α)

namespace TailQueue

variable {α : Type}

/-- Reading a pointer. -/
def load (q : TailQueue α) : Ref α → Option α
  | .head => q.first
  | .next a => q.next a

/-- The empty queue; the links of the elements are left alone. -/
def clear (q : TailQueue α) : TailQueue α := { q with first := none, last := some .head }

/-! ### Well-formed queues -/

/-- From the pointer at `r` on, the elements of `l` follow each other, point back, and end at `last`. -/
def Chain (q : TailQueue α) : Ref α → List α → Prop
  | r, [] => q.load r = none ∧ q.last = some r
  | r, a :: l => q.load r = some a ∧ q.prev a = some r ∧ Chain q (.next a) l

/-- `q` is a well-formed tail queue with content `l`. -/
structure Holds (q : TailQueue α) (l : List α) : Prop where
  nodup : l.Nodup
  chain : q.Chain .head l

/-- `r` is not the `next` pointer of an element of `l`. -/
private def Fresh (r : Ref α) (l : List α) : Prop := ∀ c ∈ l, r ≠ .next c

private theorem Fresh.of_nodup {a : α} {l : List α} (h : (a :: l).Nodup) : Fresh (.next a) l := by
  rintro c hc e
  cases e
  exact (List.nodup_cons.1 h).1 hc

/-- A chain only depends on the pointer at `r`, the links of its elements and `last`. -/
private theorem Chain.congr {q q' : TailQueue α} {r : Ref α} {l : List α} (h : q.Chain r l)
    (hlast : q'.last = q.last) (hr : q'.load r = q.load r)
    (hl : ∀ c ∈ l, q'.next c = q.next c ∧ q'.prev c = q.prev c) : q'.Chain r l := by
  induction l generalizing r with
  | nil => exact ⟨hr.trans h.1, hlast.trans h.2⟩
  | cons a l ih =>
    have ha := hl a (List.mem_cons_self ..)
    exact ⟨hr.trans h.1, ha.2.trans h.2.1, ih h.2.2 ha.1 fun c hc => hl c (List.mem_cons_of_mem _ hc)⟩

private theorem Chain.unique {q : TailQueue α} {r : Ref α} {l l' : List α} (h : q.Chain r l)
    (h' : q.Chain r l') : l = l' := by
  induction l generalizing r l' with
  | nil =>
    cases l' with
    | nil => rfl
    | cons b l' => exact absurd (h'.1.symm.trans h.1) (by simp)
  | cons a l ih =>
    cases l' with
    | nil => exact absurd (h.1.symm.trans h'.1) (by simp)
    | cons b l' =>
      obtain rfl : a = b := Option.some.inj (h.1.symm.trans h'.1)
      rw [ih h.2.2 h'.2.2]

/-- The content of a well-formed queue is determined by the queue. -/
theorem Holds.unique {q : TailQueue α} {l l' : List α} (h : q.Holds l) (h' : q.Holds l') : l = l' :=
  h.chain.unique h'.chain

theorem holds_clear (q : TailQueue α) : q.clear.Holds [] := ⟨List.nodup_nil, rfl, rfl⟩

theorem Holds.first_eq {q : TailQueue α} {l : List α} (h : q.Holds l) : q.first = l.head? := by
  cases l with
  | nil => exact h.chain.1
  | cons a l => exact h.chain.1

/-- The address that a chain from `r` through `l` ends at. -/
private def endRef : Ref α → List α → Ref α
  | r, [] => r
  | _, a :: l => endRef (.next a) l

private theorem Chain.last_eq {q : TailQueue α} {r : Ref α} {l : List α} (h : q.Chain r l) :
    q.last = some (endRef r l) := by
  induction l generalizing r with
  | nil => exact h.2
  | cons a l ih => exact ih h.2.2

private theorem endRef_eq (r : Ref α) (l : List α) : endRef r l = r ∨ ∃ c ∈ l, endRef r l = .next c := by
  induction l generalizing r with
  | nil => exact .inl rfl
  | cons a l ih =>
    rcases ih (.next a) with h | ⟨c, hc, h⟩
    · exact .inr ⟨a, List.mem_cons_self .., h⟩
    · exact .inr ⟨c, List.mem_cons_of_mem _ hc, h⟩

private theorem Chain.prev_isSome {q : TailQueue α} {r : Ref α} {l : List α} {a : α} (h : q.Chain r l)
    (ha : a ∈ l) : ∃ s, q.prev a = some s := by
  induction l generalizing r with
  | nil => cases ha
  | cons b l ih =>
    rcases List.mem_cons.1 ha with rfl | ha
    · exact ⟨r, h.2.1⟩
    · exact ih h.2.2 ha

/-- The back pointer of an element in the middle of a chain is the `next` pointer of an element before it. -/
private theorem Chain.prev_mem {q : TailQueue α} {r s : Ref α} {b a : α} {l₁ l₂ : List α}
    (h : q.Chain r (b :: (l₁ ++ a :: l₂))) (hs : q.prev a = some s) : ∃ c ∈ b :: l₁, s = .next c := by
  induction l₁ generalizing b r with
  | nil => exact ⟨b, by simp, Option.some.inj (hs.symm.trans h.2.2.2.1)⟩
  | cons b' l₁ ih =>
    obtain ⟨c, hc, e⟩ := ih h.2.2
    exact ⟨c, List.mem_cons_of_mem _ hc, e⟩

private theorem Chain.next_mem {q : TailQueue α} {r : Ref α} {a b : α} {l₁ l₂ : List α}
    (h : q.Chain r (l₁ ++ a :: l₂)) (hb : q.next a = some b) : b ∈ l₂ := by
  induction l₁ generalizing r with
  | nil =>
    cases l₂ with
    | nil => exact absurd (h.2.2.1.symm.trans hb) (by simp)
    | cons b' l₂ => simp [Option.some.inj (h.2.2.1.symm.trans hb)]
  | cons _ _ ih => exact ih h.2.2

/-- No element of a well-formed queue points to itself. -/
theorem Holds.next_ne_self {q : TailQueue α} {l : List α} {a : α} (h : q.Holds l) (ha : a ∈ l) :
    q.next a ≠ some a := by
  obtain ⟨l₁, l₂, rfl⟩ := List.append_of_mem ha
  intro hn
  have hnd := (List.nodup_append.1 h.nodup).2.1
  exact (List.nodup_cons.1 hnd).1 (h.chain.next_mem hn)

/-- Appending `a` behind the end of a chain; the hypotheses say which pointers the new queue has. -/
private theorem Chain.snoc {q q' : TailQueue α} {r : Ref α} {l : List α} {a : α} (h : q.Chain r l)
    (hnd : l.Nodup) (hr : Fresh r l) (hra : r ≠ .next a) (ha : a ∉ l)
    (hend : q'.load (endRef r l) = some a) (hload : ∀ x, x ≠ endRef r l → x ≠ .next a → q'.load x = q.load x)
    (hpa : q'.prev a = some (endRef r l)) (hprev : ∀ c, c ≠ a → q'.prev c = q.prev c)
    (hna : q'.next a = none) (hlast : q'.last = some (.next a)) : q'.Chain r (l ++ [a]) := by
  induction l generalizing r with
  | nil => exact ⟨hend, hpa, hna, hlast⟩
  | cons b l ih =>
    have hba : b ≠ a := fun e => ha (e ▸ List.mem_cons_self ..)
    have hne : r ≠ endRef (.next b) l := by
      rcases endRef_eq (.next b) l with e | ⟨c, hc, e⟩ <;> rw [e]
      · exact hr b (List.mem_cons_self ..)
      · exact hr c (List.mem_cons_of_mem _ hc)
    refine ⟨(hload r hne hra).trans h.1, (hprev b hba).trans h.2.1, ?_⟩
    exact ih h.2.2 (List.nodup_cons.1 hnd).2 (Fresh.of_nodup hnd) (fun e => hba (Ref.next.inj e))
      (fun hm => ha (List.mem_cons_of_mem _ hm)) hend hload hpa

/-- Cutting `a` out of a chain; the hypotheses say which pointers the new queue has. -/
private theorem Chain.cut {q q' : TailQueue α} {r s : Ref α} {l₁ l₂ : List α} {a : α}
    (h : q.Chain r (l₁ ++ a :: l₂)) (hnd : (l₁ ++ a :: l₂).Nodup) (hr : Fresh r (l₁ ++ a :: l₂))
    (hs : q.prev a = some s) (hsa : q'.load s = q.next a)
    (hload : ∀ x, x ≠ s → q'.load x = q.load x)
    (hprev : ∀ c, q.next a ≠ some c → q'.prev c = q.prev c)
    (hnext : ∀ c, q.next a = some c → q'.prev c = some s)
    (hlast : q'.last = if q.next a = none then some s else q.last) : q'.Chain r (l₁ ++ l₂) := by
  induction l₁ generalizing r with
  | nil =>
    obtain rfl : r = s := Option.some.inj (h.2.1.symm.trans hs)
    have hnd₂ := (List.nodup_cons.1 hnd).2
    cases l₂ with
    | nil =>
      have hn : q.next a = none := h.2.2.1
      exact ⟨hsa.trans hn, by rw [hlast, if_pos hn]⟩
    | cons b l₂ =>
      have hn : q.next a = some b := h.2.2.1
      refine ⟨hsa.trans hn, hnext b hn, h.2.2.2.2.congr (by rw [hlast, hn]; rfl) ?_ ?_⟩
      · exact hload _ fun e => hr b (by simp) e.symm
      · intro c hc
        have hcb : b ≠ c := fun e => (List.nodup_cons.1 hnd₂).1 (e ▸ hc)
        refine ⟨hload (.next c) fun e => hr c (by simp [hc]) e.symm, hprev c ?_⟩
        rw [hn]; exact fun e => hcb (Option.some.inj e)
  | cons b l₁ ih =>
    have hnd' : (b :: (l₁ ++ a :: l₂)).Nodup := hnd
    -- `b` precedes `a`, so neither the pointer at `r` nor the back pointer of `b` is touched
    have hrs : r ≠ s := by
      obtain ⟨c, hc, rfl⟩ := Chain.prev_mem h hs
      refine hr c ?_
      simp only [List.cons_append, List.mem_cons, List.mem_append] at hc ⊢
      rcases hc with hc | hc <;> simp [hc]
    have hnb : q.next a ≠ some b := fun e => (List.nodup_cons.1 hnd').1 (by simp [h.2.2.next_mem e])
    exact ⟨(hload r hrs).trans h.1, (hprev b hnb).trans h.2.1,
      ih h.2.2 (List.nodup_cons.1 hnd').2 (Fresh.of_nodup hnd')⟩

/-! ### The operations -/

variable [DecidableEq α]

/-- Writing a pointer. -/
def store (q : TailQueue α) (r : Ref α) (v : Option α) : TailQueue α :=
  match r with
  | .head => { q with first := v }
  | .next a => { q with next := Function.update q.next a v }

def insertHead (q : TailQueue α) (a : α) : TailQueue α :=
  let q := { q with next := Function.update q.next a q.first }
  let q := match q.first with
    | some b => { q with prev := Function.update q.prev b (some (.next a)) }
    | none => { q with last := some (.next a) }
  { q with first := some a, prev := Function.update q.prev a (some .head) }

def insertTail (q : TailQueue α) (a : α) : Option (TailQueue α) :=
  match q.last with
  | none => none
  | some r =>
    let q := { q with next := Function.update q.next a none, prev := Function.update q.prev a (some r) }
    some { q.store r (some a) with last := some (.next a) }

def remove (q : TailQueue α) (a : α) : Option (TailQueue α) :=
  match q.prev a with
  | none => none
  | some r =>
    let q := match q.next a with
      | some b => { q with prev := Function.update q.prev b (some r) }
      | none => { q with last := some r }
    some (q.store r (q.next a))

@[simp] theorem load_store_self (q : TailQueue α) (r : Ref α) (v : Option α) : (q.store r v).load r = v := by
  cases r <;> simp [store, load]

theorem load_store_of_ne {q : TailQueue α} {r r' : Ref α} {v : Option α} (h : r' ≠ r) :
    (q.store r v).load r' = q.load r' := by
  cases r with
  | head => cases r' with
    | head => exact absurd rfl h
    | next b => rfl
  | next a => cases r' with
    | head => rfl
    | next b => exact Function.update_of_ne (fun e => h (congrArg Ref.next e)) _ _

@[simp] theorem store_prev (q : TailQueue α) (r : Ref α) (v : Option α) : (q.store r v).prev = q.prev := by
  cases r <;> rfl

@[simp] theorem store_last (q : TailQueue α) (r : Ref α) (v : Option α) : (q.store r v).last = q.last := by
  cases r <;> rfl

/-- Inserting a non-member at the head. -/
theorem Holds.insertHead {q : TailQueue α} {l : List α} {a : α} (h : q.Holds l) (ha : a ∉ l) :
    (q.insertHead a).Holds (a :: l) := by
  refine ⟨List.nodup_cons.2 ⟨ha, h.nodup⟩, ?_⟩
  cases l with
  | nil =>
    have hf : q.first = none := h.chain.1
    simp [TailQueue.insertHead, Chain, load, hf]
  | cons b l =>
    have hf : q.first = some b := h.chain.1
    have hba : b ≠ a := fun e => ha (e ▸ List.mem_cons_self ..)
    have hb := (List.nodup_cons.1 h.nodup).1
    refine ⟨by simp [TailQueue.insertHead, load, hf], by simp [TailQueue.insertHead, hf],
      by simp [TailQueue.insertHead, load, hf], by simp [TailQueue.insertHead, hf, hba], ?_⟩
    refine h.chain.2.2.congr (by simp [TailQueue.insertHead, hf])
      (by simp [TailQueue.insertHead, load, hf, hba]) fun c hc => ?_
    have hca : c ≠ a := fun e => ha (e ▸ List.mem_cons_of_mem _ hc)
    have hcb : c ≠ b := fun e => hb (e ▸ hc)
    simp [TailQueue.insertHead, hf, hca, hcb]

/-- Inserting a non-member at the tail. -/
theorem Holds.insertTail {q : TailQueue α} {l : List α} {a : α} (h : q.Holds l) (ha : a ∉ l) :
    ∃ q', q.insertTail a = some q' ∧ q'.Holds (l ++ [a]) := by
  have hlast := h.chain.last_eq
  refine ⟨_, by simp only [TailQueue.insertTail, hlast]; rfl, ?_, ?_⟩
  · exact List.nodup_append.2 ⟨h.nodup, List.nodup_singleton a, by
      rintro x hx y hy rfl; exact ha (List.mem_singleton.1 hy ▸ hx)⟩
  · have hne : endRef .head l ≠ .next a := by
      rcases endRef_eq .head l with e | ⟨c, hc, e⟩ <;> rw [e]
      · exact nofun
      · exact fun e => ha (Ref.next.inj e ▸ hc)
    refine h.chain.snoc h.nodup (fun _ _ => nofun) nofun ha ?_ ?_ ?_ ?_ ?_ rfl
    · exact load_store_self _ _ _
    · intro x hx hxa
      refine (load_store_of_ne hx).trans ?_
      cases x with
      | head => rfl
      | next c => exact Function.update_of_ne (fun e => hxa (congrArg Ref.next e)) _ _
    · simp
    · intro c hc; simp [hc]
    · exact (load_store_of_ne (Ne.symm hne)).trans (by simp [load])

/-- Removing a member. -/
theorem Holds.remove {q : TailQueue α} {l : List α} {a : α} (h : q.Holds l) (ha : a ∈ l) :
    ∃ q', q.remove a = some q' ∧ q'.Holds (l.erase a) := by
  obtain ⟨s, hs⟩ := h.chain.prev_isSome ha
  obtain ⟨l₁, l₂, rfl⟩ := List.append_of_mem ha
  have hal : a ∉ l₁ := fun hm => (List.nodup_append.1 h.nodup).2.2 a hm a (by simp) rfl
  have he : (l₁ ++ a :: l₂).erase a = l₁ ++ l₂ := by
    rw [List.erase_append_right _ hal, List.erase_cons_head]
  refine ⟨_, by simp only [TailQueue.remove, hs]; rfl, (List.erase_sublist).nodup h.nodup, ?_⟩
  rw [he]
  refine h.chain.cut h.nodup (fun _ _ => nofun) hs ?_ ?_ ?_ ?_ ?_
  · cases hn : q.next a <;> simp [hn]
  · intro x hx
    refine (load_store_of_ne hx).trans ?_
    cases hn : q.next a <;> cases x <;> rfl
  · intro c hc
    cases hn : q.next a with
    | none => simp
    | some b =>
      have : c ≠ b := fun e => hc (by rw [hn, e])
      simp [this]
  · intro c hc; simp [hc]
  · cases hn : q.next a <;> simp

end TailQueue
