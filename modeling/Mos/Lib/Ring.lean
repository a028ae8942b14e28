import Mathlib.Data.Fin.Basic
import Mathlib.Data.List.Infix
import Mathlib.Data.Nat.ModEq

/-!
# Ring buffers with free-running positions

The element number `k` of a stream is kept at index `k` modulo `n`.  `RingHolds` says that the buffer still has the
elements from number `r` up to number `w`; putting one more at the end keeps this while the buffer is not full.
-/

section Ring

variable {α : Type} {n : Nat} [NeZero n] {buf : Fin n → α} {l hist : List α} {r w : Nat} {x : α}

/-- The buffer holds the elements of `hist` from number `r` up to number `w`. -/
def RingHolds (buf : Fin n → α) (r w : Nat) (hist : List α) : Prop :=
  ∀ k, r ≤ k → k < w → hist[k]? = some (buf (Fin.ofNat n k))

/-- Two numbers that are less than a turn apart have different places. -/
theorem ring_index_ne {k : Nat} (hk : k < w) (hw : w < k + n) : Fin.ofNat n k ≠ Fin.ofNat n w := by
  intro heq
  have hmod : k % n = w % n := congrArg Fin.val heq
  have hdvd : n ∣ w - k := (Nat.modEq_iff_dvd' (Nat.le_of_lt hk)).1 hmod
  have hle := Nat.le_of_dvd (by omega) hdvd
  omega

theorem RingHolds.empty (buf : Fin n → α) (r : Nat) (hist : List α) : RingHolds buf r r hist := by
  intro k hr hk
  omega

/-- The elements taken out so far and the next one are a beginning of the stream. -/
theorem RingHolds.snoc_prefix (h : RingHolds buf r w hist) (hl : l <+: hist) (hr : l.length = r) (hrw : r < w) :
    l ++ [buf (Fin.ofNat n r)] <+: hist := by
  have hx := h r (Nat.le_refl r) hrw
  obtain ⟨t, rfl⟩ := hl
  rw [← hr, List.getElem?_append_right (Nat.le_refl _), Nat.sub_self] at hx
  cases t with
  | nil => cases hx
  | cons y t =>
    have hy : y = buf (Fin.ofNat n r) := by
      rw [← hr]
      exact Option.some.inj hx
    rw [hy]
    exact ⟨t, by simp⟩

/-- Taking an element out. -/
theorem RingHolds.get (h : RingHolds buf r w hist) : RingHolds buf (r + 1) w hist :=
  fun k hr hk => h k (by omega) hk

/-- Putting an element at the end of a buffer that is not full. -/
theorem RingHolds.put (h : RingHolds buf r w hist) (hw : hist.length = w) (hfull : w < r + n) :
    RingHolds (Function.update buf (Fin.ofNat n w) x) r (w + 1) (hist ++ [x]) := by
  intro k hr hk
  by_cases hkw : k = w
  · subst hkw
    rw [Function.update_self, ← hw, List.getElem?_append_right (Nat.le_refl _), Nat.sub_self]
    rfl
  · have hlt : k < w := by omega
    rw [Function.update_of_ne (ring_index_ne hlt (by omega)), List.getElem?_append_left (by omega)]
    exact h k hr hlt

end Ring
