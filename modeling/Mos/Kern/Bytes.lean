import Mos.Kern.PageSpec

/-!
# The bytes of a frame

The machine is little endian, so byte `k` of a word is at the `k`-th address of it.  `memcpy` to the memory of a frame is
done byte by byte; within the frame it changes the words of that frame only.
-/

namespace Mos

/-! ### Bytes of a word -/

def wordByte (w : Word) (k : Nat) : Byte := w.extractLsb' (8 * k) 8

/-- The word with another byte `k`. -/
def setWordByte (w : Word) (k : Nat) (b : Byte) : Word := (w &&& ~~~(0xFF#32 <<< (8 * k))) ||| (b.setWidth 32 <<< (8 * k))

private theorem wordByte_setWordByte (w : Word) {k k' : Nat} (hk : k < 4) (hk' : k' < 4) (b : Byte) :
    wordByte (setWordByte w k b) k' = if k' = k then b else wordByte w k' := by
  apply BitVec.eq_of_getLsbD_eq
  intro i hi
  have hff : (0xFF#32 : Word) = (BitVec.allOnes 8).setWidth 32 := by decide
  simp only [wordByte, setWordByte, hff, BitVec.getLsbD_extractLsb', BitVec.getLsbD_or, BitVec.getLsbD_and,
    BitVec.getLsbD_not, BitVec.getLsbD_shiftLeft, BitVec.getLsbD_setWidth, BitVec.getLsbD_allOnes]
  by_cases hkk : k' = k
  · subst hkk
    have hlt : ¬8 * k' + i < 8 * k' := by omega
    have h32 : 8 * k' + i < 32 := by omega
    have hi32 : i < 32 := by omega
    simp [hi, h32, hi32, hlt]
  · rw [if_neg hkk, BitVec.getLsbD_extractLsb']
    have h32 : 8 * k' + i < 32 := by omega
    by_cases hlt : 8 * k' + i < 8 * k
    · simp [hi, h32, hlt]
    · have hge : ¬8 * k' + i - 8 * k < 8 := by omega
      have hb : b.getLsbD (8 * k' + i - 8 * k) = false := BitVec.getLsbD_of_ge b _ (by omega)
      simp [hi, h32, hlt, hge, hb]

/-! ### Bytes of a frame -/

/-- The `o`-th byte of a frame. -/
def frameByte (f : Idx → Word) (o : Nat) : Byte := wordByte (f ⟨o / 4 % 1024, Nat.mod_lt _ (by decide)⟩) (o % 4)

namespace Pmap

variable {m m' : Pmap} {p q a : Nat} {src : Nat → Byte}

/-- Stores `b` at the physical address `a`. -/
def storeByte (m : Pmap) (a : Nat) (b : Byte) : Pmap :=
  let i : Idx := ⟨a / 4 % 1024, Nat.mod_lt _ (by decide)⟩
  m.setWord (a / 4096) i (setWordByte (m.word (a / 4096) i) (a % 4) b)

/-- `memcpy` of `n` bytes to the physical address `a`. -/
def memcpy (m : Pmap) (a : Nat) (src : Nat → Byte) : Nat → Pmap
  | 0 => m
  | n + 1 => (memcpy m a src n).storeByte (a + n) (src n)

/-- Another content of one frame. -/
def setFrame (m : Pmap) (p : Nat) (f : Idx → Word) : Pmap := { m with word := Function.update m.word p f }

private theorem setFrame_setFrame (m : Pmap) (p : Nat) (f g : Idx → Word) : (m.setFrame p f).setFrame p g =
    m.setFrame p g := by
  simp [setFrame]

private theorem setFrame_self (m : Pmap) (p : Nat) : m.setFrame p (m.word p) = m := by
  simp [setFrame]

@[simp] theorem setFrame_word_self (m : Pmap) (p : Nat) (f : Idx → Word) : (m.setFrame p f).word p = f :=
  Function.update_self ..

theorem setFrame_word_ne (hq : q ≠ p) (f : Idx → Word) : (m.setFrame p f).word q = m.word q :=
  Function.update_of_ne hq ..

/-- One byte within a frame. -/
theorem storeByte_eq {o : Nat} (ho : o < 4096) (b : Byte) : ∃ f, m.storeByte (p * 4096 + o) b = m.setFrame p f ∧
    ∀ x < 4096, frameByte f x = if x = o then b else frameByte (m.word p) x := by
  have hframe : (p * 4096 + o) / 4096 = p := by omega
  have hidx : (p * 4096 + o) / 4 % 1024 = o / 4 := by omega
  have hlane : (p * 4096 + o) % 4 = o % 4 := by omega
  refine ⟨Function.update (m.word p) ⟨o / 4, by omega⟩ (setWordByte (m.word p ⟨o / 4, by omega⟩) (o % 4) b), ?_,
    fun x hx => ?_⟩
  · simp only [storeByte, setWord, setFrame, hframe, hidx, hlane]
  · have hx4 : x / 4 % 1024 = x / 4 := by omega
    simp only [frameByte, hx4]
    by_cases hword : x / 4 = o / 4
    · have hxo : x = o ↔ x % 4 = o % 4 := by omega
      simp only [hword, Function.update_self, wordByte_setWordByte _ (Nat.mod_lt o (by decide)) (Nat.mod_lt x (by decide)), hxo]
    · have hne : (⟨x / 4, by omega⟩ : Idx) ≠ ⟨o / 4, by omega⟩ := fun h => hword (congrArg Fin.val h)
      have hxo : x ≠ o := fun h => hword (h ▸ rfl)
      rw [Function.update_of_ne hne, if_neg hxo]

/-- A copy within a frame. -/
theorem memcpy_eq (m : Pmap) (p : Nat) (src : Nat → Byte) {o n : Nat} (hn : o + n ≤ 4096) :
    ∃ f, m.memcpy (p * 4096 + o) src n = m.setFrame p f ∧
      ∀ x < 4096, frameByte f x = if o ≤ x ∧ x < o + n then src (x - o) else frameByte (m.word p) x := by
  induction n with
  | zero =>
    refine ⟨m.word p, (m.setFrame_self p).symm, fun x _ => ?_⟩
    rw [if_neg (by omega)]
  | succ n ih =>
    obtain ⟨f, hf, hbytes⟩ := ih (by omega)
    have hlt : o + n < 4096 := by omega
    obtain ⟨g, hg, hbyte⟩ := storeByte_eq (m := m.setFrame p f) (p := p) hlt (src n)
    refine ⟨g, ?_, fun x hx => ?_⟩
    · rw [memcpy, hf, Nat.add_assoc, hg, setFrame_setFrame]
    · rw [hbyte x hx, setFrame_word_self, hbytes x hx]
      by_cases hlast : x = o + n
      · have hsub : x - o = n := by omega
        rw [if_pos hlast, if_pos (by omega), hsub]
      · rw [if_neg hlast]
        by_cases hin : o ≤ x ∧ x < o + n
        · rw [if_pos hin, if_pos (by omega)]
        · rw [if_neg hin, if_neg (by omega)]

end Pmap

end Mos
