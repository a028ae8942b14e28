import Mathlib.Algebra.Group.Nat.Defs
import Mathlib.Data.List.Basic
import Mathlib.Logic.Function.Basic
import Mathlib.Order.Basic

/-!
# Memories of bytes

Copying and filling byte by byte, and with the words of a little endian machine.  `copied` and `filled` are what the
loops do; what is in the memory afterwards is said by `copied_apply`, `filled_apply` and the frame lemmas.
-/

/-- The byte at each address. -/
abbrev ByteMem (w : Nat) := BitVec w → BitVec 8

namespace ByteMem

variable {w : Nat} {m : ByteMem w} {a d s : BitVec w} {b : BitVec 8} {i j n : Nat}

def store (m : ByteMem w) (a : BitVec w) (b : BitVec 8) : ByteMem w := Function.update m a b

@[simp] theorem store_self (m : ByteMem w) (a : BitVec w) (b : BitVec 8) : m.store a b a = b := Function.update_self ..

theorem store_of_ne {x : BitVec w} (h : x ≠ a) (b : BitVec 8) : m.store a b x = m x := Function.update_of_ne h ..

/-! ### Addresses -/

theorem ofNat_injOn (hi : i < 2 ^ w) (hj : j < 2 ^ w) (h : a + BitVec.ofNat w i = a + BitVec.ofNat w j) : i = j := by
  have h := congrArg BitVec.toNat (BitVec.add_right_inj a |>.1 h)
  rwa [BitVec.toNat_ofNat, BitVec.toNat_ofNat, Nat.mod_eq_of_lt hi, Nat.mod_eq_of_lt hj] at h

theorem toNat_add_ofNat (h : a.toNat + i < 2 ^ w) : (a + BitVec.ofNat w i).toNat = a.toNat + i := by
  have hi : i < 2 ^ w := by omega
  rw [BitVec.toNat_add, BitVec.toNat_ofNat, Nat.mod_eq_of_lt hi, Nat.mod_eq_of_lt h]

theorem add_ofNat_add (a : BitVec w) (i j : Nat) :
    a + BitVec.ofNat w (i + j) = a + BitVec.ofNat w i + BitVec.ofNat w j := by
  rw [BitVec.ofNat_add, BitVec.add_assoc]

/-! ### Copying and filling -/

/-- `n` bytes copied from `s` to `d`, one after another. -/
def copied (m : ByteMem w) (d s : BitVec w) : Nat → ByteMem w
  | 0 => m
  | n + 1 => (copied m d s n).store (d + BitVec.ofNat w n) (copied m d s n (s + BitVec.ofNat w n))

/-- `n` bytes `b` from `d` on. -/
def filled (m : ByteMem w) (d : BitVec w) (b : BitVec 8) : Nat → ByteMem w
  | 0 => m
  | n + 1 => (filled m d b n).store (d + BitVec.ofNat w n) b

theorem copied_add (m : ByteMem w) (d s : BitVec w) (i n : Nat) :
    m.copied d s (i + n) = (m.copied d s i).copied (d + BitVec.ofNat w i) (s + BitVec.ofNat w i) n := by
  induction n with
  | zero => rfl
  | succ n ih =>
    rw [← Nat.add_assoc, copied, copied, ih, add_ofNat_add, add_ofNat_add]

theorem filled_add (m : ByteMem w) (d : BitVec w) (b : BitVec 8) (i n : Nat) :
    m.filled d b (i + n) = (m.filled d b i).filled (d + BitVec.ofNat w i) b n := by
  induction n with
  | zero => rfl
  | succ n ih =>
    rw [← Nat.add_assoc, filled, filled, ih, add_ofNat_add]

theorem copied_of_ne (h : ∀ i < n, a ≠ d + BitVec.ofNat w i) : m.copied d s n a = m a := by
  induction n with
  | zero => rfl
  | succ n ih =>
    rw [copied, store_of_ne (h n (by omega))]
    exact ih fun i hi => h i (by omega)

theorem filled_of_ne (h : ∀ i < n, a ≠ d + BitVec.ofNat w i) : m.filled d b n a = m a := by
  induction n with
  | zero => rfl
  | succ n ih =>
    rw [filled, store_of_ne (h n (by omega))]
    exact ih fun i hi => h i (by omega)

/-- No byte is written before it is read. -/
theorem copied_apply (hn : n ≤ 2 ^ w) (hread : ∀ i < n, ∀ j < i, s + BitVec.ofNat w i ≠ d + BitVec.ofNat w j)
    (hi : i < n) : m.copied d s n (d + BitVec.ofNat w i) = m (s + BitVec.ofNat w i) := by
  induction n with
  | zero => omega
  | succ n ih =>
    rw [copied]
    by_cases hin : i = n
    · subst hin
      rw [store_self]
      exact copied_of_ne (hread i hi)
    · have hlt : i < n := by omega
      have hne : d + BitVec.ofNat w i ≠ d + BitVec.ofNat w n := fun e => hin (ofNat_injOn (by omega) (by omega) e)
      rw [store_of_ne hne]
      exact ih (by omega) (fun i hi => hread i (by omega)) hlt

theorem filled_apply (hn : n ≤ 2 ^ w) (hi : i < n) : m.filled d b n (d + BitVec.ofNat w i) = b := by
  induction n with
  | zero => omega
  | succ n ih =>
    rw [filled]
    by_cases hin : i = n
    · subst hin
      exact store_self ..
    · have hlt : i < n := by omega
      have hne : d + BitVec.ofNat w i ≠ d + BitVec.ofNat w n := fun e => hin (ofNat_injOn (by omega) (by omega) e)
      rw [store_of_ne hne]
      exact ih (by omega) hlt

/-! ### Words -/

/-- The `k`-th byte of a word. -/
def wordByte (x : BitVec 32) (k : Nat) : BitVec 8 := x.extractLsb' (8 * k) 8

def load32 (m : ByteMem w) (a : BitVec w) : BitVec 32 :=
  m (a + BitVec.ofNat w 3) ++ m (a + BitVec.ofNat w 2) ++ m (a + BitVec.ofNat w 1) ++ m (a + BitVec.ofNat w 0)

def store32 (m : ByteMem w) (a : BitVec w) (x : BitVec 32) : ByteMem w :=
  (((m.store (a + BitVec.ofNat w 0) (wordByte x 0)).store (a + BitVec.ofNat w 1) (wordByte x 1)).store
    (a + BitVec.ofNat w 2) (wordByte x 2)).store (a + BitVec.ofNat w 3) (wordByte x 3)

theorem wordByte_append (b₃ b₂ b₁ b₀ : BitVec 8) :
    wordByte (b₃ ++ b₂ ++ b₁ ++ b₀) 0 = b₀ ∧ wordByte (b₃ ++ b₂ ++ b₁ ++ b₀) 1 = b₁ ∧
      wordByte (b₃ ++ b₂ ++ b₁ ++ b₀) 2 = b₂ ∧ wordByte (b₃ ++ b₂ ++ b₁ ++ b₀) 3 = b₃ := by
  refine ⟨?_, ?_, ?_, ?_⟩ <;> ext i hi <;> simp [wordByte] <;> grind

/-- A word whose bytes are not written before they are read. -/
theorem store32_load32 (hread : ∀ i < 4, ∀ j < i, s + BitVec.ofNat w i ≠ d + BitVec.ofNat w j) :
    m.store32 d (m.load32 s) = m.copied d s 4 := by
  obtain ⟨h₀, h₁, h₂, h₃⟩ := wordByte_append (m (s + BitVec.ofNat w 3)) (m (s + BitVec.ofNat w 2))
    (m (s + BitVec.ofNat w 1)) (m (s + BitVec.ofNat w 0))
  have hbyte : ∀ i < 4, m.copied d s i (s + BitVec.ofNat w i) = m (s + BitVec.ofNat w i) :=
    fun i hi => copied_of_ne (hread i hi)
  have e₁ := hbyte 1 (by omega)
  have e₂ := hbyte 2 (by omega)
  have e₃ := hbyte 3 (by omega)
  rw [copied, e₃, copied, e₂, copied, e₁, copied, copied, store32, load32, h₀, h₁, h₂, h₃]

/-- A word that has the byte `b` everywhere. -/
theorem store32_eq_filled {x : BitVec 32} (hx : ∀ k < 4, wordByte x k = b) : m.store32 d x = m.filled d b 4 := by
  rw [store32, hx 0 (by omega), hx 1 (by omega), hx 2 (by omega), hx 3 (by omega)]
  rfl

theorem store32_of_ne {x : BitVec 32} (h : ∀ i < 4, a ≠ d + BitVec.ofNat w i) : m.store32 d x a = m a := by
  unfold store32
  rw [store_of_ne (h 3 (by omega)), store_of_ne (h 2 (by omega)), store_of_ne (h 1 (by omega)),
    store_of_ne (h 0 (by omega))]

theorem load32_congr {m' : ByteMem w} (h : ∀ i < 4, m' (a + BitVec.ofNat w i) = m (a + BitVec.ofNat w i)) :
    m'.load32 a = m.load32 a := by
  unfold load32
  rw [h 3 (by omega), h 2 (by omega), h 1 (by omega), h 0 (by omega)]

theorem append_wordByte (x : BitVec 32) : wordByte x 3 ++ wordByte x 2 ++ wordByte x 1 ++ wordByte x 0 = x := by
  ext i hi
  simp only [wordByte, BitVec.getElem_append, BitVec.getElem_extractLsb']
  grind

/-- The bytes of a word are at different addresses. -/
theorem load32_store32 (hw : 4 ≤ 2 ^ w) (m : ByteMem w) (a : BitVec w) (x : BitVec 32) : (m.store32 a x).load32 a = x := by
  have hne : ∀ i < 4, ∀ j < 4, i ≠ j → a + BitVec.ofNat w i ≠ a + BitVec.ofNat w j :=
    fun i hi j hj h e => h (ofNat_injOn (by omega) (by omega) e)
  have h₀ := hne 0 (by omega)
  have h₁ := hne 1 (by omega)
  have h₂ := hne 2 (by omega)
  unfold load32 store32
  rw [store_self, store_of_ne (h₂ 3 (by omega) (by omega)), store_self, store_of_ne (h₁ 3 (by omega) (by omega)),
    store_of_ne (h₁ 2 (by omega) (by omega)), store_self, store_of_ne (h₀ 3 (by omega) (by omega)),
    store_of_ne (h₀ 2 (by omega) (by omega)), store_of_ne (h₀ 1 (by omega) (by omega)), store_self, append_wordByte]

/-! ### Ranges -/

/-- The `n` bytes from `a` on. -/
def bytes (m : ByteMem w) (a : BitVec w) (n : Nat) : List (BitVec 8) :=
  (List.range n).map fun i => m (a + BitVec.ofNat w i)

@[simp] theorem length_bytes (m : ByteMem w) (a : BitVec w) (n : Nat) : (m.bytes a n).length = n := by simp [bytes]

theorem bytes_add (m : ByteMem w) (a : BitVec w) (i n : Nat) :
    m.bytes a (i + n) = m.bytes a i ++ m.bytes (a + BitVec.ofNat w i) n := by
  unfold bytes
  rw [List.range_add, List.map_append, List.map_map]
  congr 1
  apply List.map_congr_left
  intro j _
  simp only [Function.comp_apply, add_ofNat_add]

/-- Ranges with the same bytes, at the same address or at another one. -/
theorem bytes_congr {m' : ByteMem w} (h : ∀ i < n, m' (d + BitVec.ofNat w i) = m (s + BitVec.ofNat w i)) :
    m'.bytes d n = m.bytes s n := by
  apply List.map_congr_left
  intro i hi
  exact h i (List.mem_range.1 hi)

end ByteMem
