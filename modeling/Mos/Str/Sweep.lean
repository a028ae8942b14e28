import Mos.Kern.Mmu
import Mos.Lib.While

/-!
# Bytes, then words, then bytes

The loops that `memcpy` and `memset` (`lib/string.c`) have in common: bytes up to a word boundary, whole words, and the
bytes that are left.  The test in front of a word is `dst + 4 <= max`, so it is wrong where `dst + 4` wraps around.
-/

namespace Mos.Str

open While

variable {σ : Type} {a n max : Word} {i : Nat}

/-! ### Addresses -/

theorem aligned_iff : a &&& 3 = 0 ↔ a.toNat % 4 = 0 := by
  have h3 : (3 : Word).toNat = 2 ^ 2 - 1 := by decide
  rw [BitVec.toNat_eq, BitVec.toNat_and, h3, Nat.and_two_pow_sub_one_eq_mod]
  rfl

theorem same_lane_iff {b : Word} : a &&& 3 = b &&& 3 ↔ a.toNat % 4 = b.toNat % 4 := by
  have h3 : (3 : Word).toNat = 2 ^ 2 - 1 := by decide
  rw [BitVec.toNat_eq, BitVec.toNat_and, BitVec.toNat_and, h3, Nat.and_two_pow_sub_one_eq_mod,
    Nat.and_two_pow_sub_one_eq_mod]

private theorem toNat_add_four : (a + 4).toNat = (a.toNat + 4) % 2 ^ 32 := BitVec.toNat_add ..

/-! ### The loops -/

/-- The address that is written next, and the two kinds of rounds. -/
structure Sweep (σ : Type) where
  dst : σ → Word
  byte : σ → Option σ
  word : σ → Option σ

namespace Sweep

variable {z : Sweep σ} {P : Nat → σ} {s s' : σ}

/-- `while (((u_long)dst & 3) && dst < max)` -/
def head (z : Sweep σ) (max : Word) (fuel : Nat) (s : σ) : Option σ :=
  loop (fun s => z.dst s &&& 3 ≠ 0 && z.dst s < max) z.byte fuel s

/-- `while (dst + 4 <= max)` -/
def words (z : Sweep σ) (max : Word) (fuel : Nat) (s : σ) : Option σ := loop (fun s => z.dst s + 4 ≤ max) z.word fuel s

/-- `while (dst < max)` -/
def rest (z : Sweep σ) (max : Word) (fuel : Nat) (s : σ) : Option σ := loop (fun s => z.dst s < max) z.byte fuel s

def run (z : Sweep σ) (max : Word) (fuel : Nat) (s : σ) : Option σ := do
  let s ← z.head max fuel s
  let s ← z.words max fuel s
  z.rest max fuel s

/-- `P i` is the state after `i` bytes from `a` on. -/
structure Trace (z : Sweep σ) (P : Nat → σ) (a : Word) : Prop where
  dst : ∀ i, z.dst (P i) = a + BitVec.ofNat 32 i
  byte : ∀ i, z.byte (P i) = some (P (i + 1))

/-- A round with a word does what four rounds with a byte do. -/
structure Path (z : Sweep σ) (P : Nat → σ) (a : Word) : Prop extends z.Trace P a where
  word : ∀ i, (a + BitVec.ofNat 32 i) &&& 3 = 0 → z.word (P i) = some (P (i + 4))

/-! ### Where they end -/

private theorem Trace.toNat_dst (hp : z.Trace P a) (h : a.toNat + i < 2 ^ 32) : (z.dst (P i)).toNat = a.toNat + i := by
  rw [hp.dst, BitVec.toNat_add, BitVec.toNat_ofNat]
  omega

/-- The number of bytes in front of the first word. -/
def lead (a n : Word) : Nat := min n.toNat ((4 - a.toNat % 4) % 4)

private theorem lead_le : lead a n ≤ n.toNat := Nat.min_le_left ..

private theorem lead_aligned (h : lead a n < n.toNat) : (a.toNat + lead a n) % 4 = 0 := by
  unfold lead at h ⊢
  omega

private theorem Trace.returns_head (hp : z.Trace P a) (hmax : max.toNat = a.toNat + n.toNat) :
    Returns (fun fuel => z.head max fuel (P 0)) (P (lead a n)) := by
  have hlt := max.isLt
  have hle := @lead_le a n
  apply returns_path P
  · intro i hi
    have hdst := hp.toNat_dst (i := i) (by omega)
    have hlane : ¬(a.toNat + i) % 4 = 0 := by
      unfold lead at hi
      omega
    refine ⟨?_, hp.byte i⟩
    simp only [ne_eq, aligned_iff, hdst, BitVec.lt_def, hmax, Bool.and_eq_true, decide_eq_true_eq]
    omega
  · have hdst := hp.toNat_dst (i := lead a n) (by omega)
    simp only [ne_eq, aligned_iff, hdst, BitVec.lt_def, hmax, Bool.and_eq_false_iff, decide_eq_false_iff_not, not_not]
    by_cases hlead : lead a n < n.toNat
    · exact .inl (lead_aligned hlead)
    · right
      omega

theorem Trace.returns_rest {j : Nat} (hp : z.Trace P a) (hmax : max.toNat = a.toNat + n.toNat) (hj : j ≤ n.toNat) :
    Returns (fun fuel => z.rest max fuel (P j)) (P n.toNat) := by
  have hlt := max.isLt
  have hsum : j + (n.toNat - j) = n.toNat := by omega
  rw [← hsum]
  apply returns_path fun i => P (j + i)
  · intro i hi
    have hdst := hp.toNat_dst (i := j + i) (by omega)
    refine ⟨?_, hp.byte _⟩
    rw [decide_eq_true_eq, BitVec.lt_def, hdst, hmax]
    omega
  · rw [hsum]
    have hdst := hp.toNat_dst (i := n.toNat) (by omega)
    rw [decide_eq_false_iff_not, BitVec.lt_def, hdst, hmax]
    omega

/-- Where a word behind the end does not wrap around, all `n` bytes are done. -/
theorem Path.returns (hp : z.Path P a) (hfit : a.toNat + n.toNat + 4 < 2 ^ 32) :
    Returns (fun fuel => z.run (a + n) fuel (P 0)) (P n.toNat) := by
  have hmax : (a + n).toNat = a.toNat + n.toNat := by
    rw [BitVec.toNat_add]
    omega
  have hle := @lead_le a n
  obtain ⟨k₁, hk₁⟩ : ∃ k, k = lead a n := ⟨_, rfl⟩
  obtain ⟨k₂, hk₂⟩ : ∃ k, k = (n.toNat - k₁) / 4 := ⟨_, rfl⟩
  have hhead : Returns (fun fuel => z.head (a + n) fuel (P 0)) (P k₁) := hk₁ ▸ hp.returns_head hmax
  have hwords : Returns (fun fuel => z.words (a + n) fuel (P k₁)) (P (k₁ + 4 * k₂)) := by
    apply returns_path fun j => P (k₁ + 4 * j)
    · intro j hj
      have hdst := hp.toNat_dst (i := k₁ + 4 * j) (by omega)
      have halign : (a.toNat + k₁) % 4 = 0 := hk₁ ▸ lead_aligned (by omega)
      refine ⟨?_, hp.word _ ?_⟩
      · rw [decide_eq_true_eq, BitVec.le_def, toNat_add_four, hdst, hmax]
        omega
      · rw [← hp.dst, aligned_iff, hdst]
        omega
    · have hdst := hp.toNat_dst (i := k₁ + 4 * k₂) (by omega)
      rw [decide_eq_false_iff_not, BitVec.le_def, toNat_add_four, hdst, hmax]
      omega
  have hrest : Returns (fun fuel => z.rest (a + n) fuel (P (k₁ + 4 * k₂))) (P n.toNat) :=
    hp.returns_rest hmax (by omega)
  exact hhead.bind (hwords.bind hrest)

/-! ### Where they do not -/

/-- An end in the last word: there `dst + 4` is near zero, and the word loop goes around the whole memory. -/
theorem Path.stuck (hp : z.Path P a) (hmax : max.toNat = a.toNat + n.toNat) (hlast : 2 ^ 32 ≤ max.toNat + 4)
    (hword : ∀ s s', z.word s = some s' → z.dst s &&& 3 = 0 ∧ z.dst s' = z.dst s + 4) :
    Stuck (fun fuel => z.run max fuel (P 0)) := by
  have hlt := max.isLt
  have hle := @lead_le a n
  have hwords : Stuck (fun fuel => z.words max fuel (P (lead a n))) := by
    apply stuck_of_invariant (I := fun s => (z.dst s).toNat % 4 = 0 ∨ 2 ^ 32 ≤ (z.dst s).toNat + 4)
    · intro s hs
      have hdst := (z.dst s).isLt
      rw [decide_eq_true_eq, BitVec.le_def, toNat_add_four]
      omega
    · intro s s' _ h
      obtain ⟨halign, hdst⟩ := hword s s' h
      rw [aligned_iff] at halign
      left
      rw [hdst, toNat_add_four]
      omega
    · rw [hp.toNat_dst (by omega)]
      by_cases hlead : lead a n < n.toNat
      · exact .inl (lead_aligned hlead)
      · right
        omega
  exact Returns.bind_stuck (loop_steady _ _ _) (hp.returns_head hmax) hwords.bind

/-- An end behind the last address is zero, and nothing is done. -/
theorem returns_wrapped (h : z.dst s ≠ -4) : Returns (fun fuel => z.run 0 fuel s) s := by
  have hnot : ¬z.dst s < 0 := by simp
  have hword : ¬z.dst s + 4 ≤ 0 := by
    intro hle
    have hzero : z.dst s + 4 = 0 := by simpa using hle
    exact h (by bv_omega)
  have hhead : Returns (fun fuel => z.head 0 fuel s) s := returns_of_not (by simp)
  have hwords : Returns (fun fuel => z.words 0 fuel s) s := returns_of_not (by simpa using hword)
  have hrest : Returns (fun fuel => z.rest 0 fuel s) s := returns_of_not (by simp)
  exact hhead.bind (hwords.bind hrest)

/-- Except for the last word. -/
theorem returns_last (h : z.dst s = -4) (hw : z.word s = some s') (hs' : z.dst s' = 0) :
    Returns (fun fuel => z.run 0 fuel s) s' := by
  have hhead : Returns (fun fuel => z.head 0 fuel s) s := returns_of_not (by simp)
  have hwords : Returns (fun fuel => z.words 0 fuel s) s' :=
    returns_of_cond (by rw [h]; decide) hw (returns_of_not (by rw [hs']; decide))
  have hrest : Returns (fun fuel => z.rest 0 fuel s') s' := returns_of_not (by simp)
  exact hhead.bind (hwords.bind hrest)

end Sweep

end Mos.Str
