import Mos.Fs.File

/-!
# What the blocks hold

A view has the contents of every block: what is in the cache, or else on the disk.  A file stores block numbers in its
pointers: ten direct ones, the one of its indirect block, and those in the indirect block.  The live files are the ones
in the tree and those that are open.
-/

namespace Mos

/-- The contents of the blocks. -/
abbrev View := Nat → Block

/-- A pointer of a file: to its indirect block, or to one of its blocks. -/
inductive FileSlot where
  | indirect
  | data (i : Nat)
  deriving DecidableEq

/-- The last block of the bitmap. -/
def lastMeta (nblocks : Nat) : Nat := 2 + nblocks / BIT2BLK

namespace View

/-- A word. -/
def get (v : View) (b off : Nat) : Word := if h : off < 1024 then v b ⟨off, h⟩ else 0

/-- A word changes. -/
def set (v : View) (b off : Nat) (w : Word) : View :=
  Function.update v b fun i => if i.val = off then w else v b i

/-- A block becomes zero. -/
def clear (v : View) (b : Nat) : View := Function.update v b fun _ => 0

/-- The bit of a block in the bitmap. -/
def IsFree (v : View) (b : Nat) : Prop := (v.get (2 + b / 32 / 1024) (b / 32 % 1024)).getLsbD (b % 32) = true

def setFree (v : View) (b : Nat) : View :=
  v.set (2 + b / 32 / 1024) (b / 32 % 1024) (v.get (2 + b / 32 / 1024) (b / 32 % 1024) ||| 1#32 <<< (b % 32))

def setUsed (v : View) (b : Nat) : View :=
  v.set (2 + b / 32 / 1024) (b / 32 % 1024) (v.get (2 + b / 32 / 1024) (b / 32 % 1024) &&& ~~~(1#32 <<< (b % 32)))

/-- `f_name[0]` is not 0. -/
def Named (v : View) (f : FilePtr) : Prop := byteOf (v.get f.blk f.off) 0 ≠ 0

def size (v : View) (f : FilePtr) : Nat := (v.get f.blk (f.off + 32)).toNat

def IsDir (v : View) (f : FilePtr) : Prop := v.get f.blk (f.off + 33) = FTYPE_DIR

instance (v : View) (b : Nat) : Decidable (v.IsFree b) := inferInstanceAs (Decidable (_ = _))

instance (v : View) (f : FilePtr) : Decidable (v.Named f) := inferInstanceAs (Decidable (_ ≠ _))

instance (v : View) (f : FilePtr) : Decidable (v.IsDir f) := inferInstanceAs (Decidable (_ = _))

/-- Where a pointer is: the block and the word. -/
def loc (v : View) (f : FilePtr) : FileSlot → Nat × Nat
  | .indirect => (f.blk, f.off + 44)
  | .data i => if i < NDIRECT then (f.blk, f.off + 34 + i) else ((v.get f.blk (f.off + 44)).toNat, i)

/-- What a pointer is. -/
def ptr (v : View) (f : FilePtr) : FileSlot → Nat
  | .indirect => (v.get f.blk (f.off + 44)).toNat
  | .data i =>
    if i < NDIRECT then (v.get f.blk (f.off + 34 + i)).toNat
    else if (v.get f.blk (f.off + 44)).toNat = 0 then 0
    else (v.get (v.get f.blk (f.off + 44)).toNat i).toNat

/-- The files in the tree, and those that are `O`. -/
inductive Live (v : View) (O : FilePtr → Prop) : FilePtr → Prop
  | root : Live v O .root
  | opened {f : FilePtr} (h : O f) : Live v O f
  | entry {d : FilePtr} {i j : Nat} (hd : Live v O d) (hdir : v.IsDir d) (hi : v.ptr d (.data i) ≠ 0) (hj : j < FILE2BLK)
      (hname : v.Named (.entry (v.ptr d (.data i)) j)) : Live v O (.entry (v.ptr d (.data i)) j)

/-- The files that can be found from the root. -/
def Reachable (v : View) (f : FilePtr) : Prop := v.Live (fun _ => False) f

/-! ### Words -/

variable {v : View} {b b' off off' : Nat} {w : Word}

theorem get_set (hoff : off < 1024) : (v.set b off w).get b' off' = if b' = b ∧ off' = off then w else v.get b' off' := by
  unfold get set
  rcases eq_or_ne b' b with rfl | hb
  · rw [Function.update_self]
    split_ifs with h1 h2 h3 h4
    · rfl
    · exact absurd ⟨rfl, h2⟩ h3
    · exact absurd h4.2 h2
    · rfl
    · omega
    · rfl
  · rw [Function.update_of_ne hb, if_neg fun h => hb h.1]

theorem get_set_of_ne (h : (b', off') ≠ (b, off)) : (v.set b off w).get b' off' = v.get b' off' := by
  unfold get set
  rcases eq_or_ne b' b with rfl | hb
  · have hoff : off' ≠ off := fun h' => h (by rw [h'])
    rw [Function.update_self]
    split_ifs
    · rfl
    · rfl
  · rw [Function.update_of_ne hb]

theorem get_clear : (v.clear b).get b' off = if b' = b then 0 else v.get b' off := by
  unfold get clear
  rcases eq_or_ne b' b with rfl | hb
  · rw [Function.update_self, if_pos rfl]
    split <;> rfl
  · rw [Function.update_of_ne hb, if_neg hb]

theorem get_of_le (h : 1024 ≤ off) : v.get b off = 0 := dif_neg (by omega)

/-! ### The bitmap -/

private theorem bit_eq {b b' : Nat} (hblk : 2 + b' / 32 / 1024 = 2 + b / 32 / 1024)
    (hoff : b' / 32 % 1024 = b / 32 % 1024) (hbit : b' % 32 = b % 32) : b' = b := by
  omega

private theorem getLsbD_bit {j k : Nat} (hj : j < 32) : (1#32 <<< k).getLsbD j = decide (j = k) := by
  have h := BitVec.getLsbD_twoPow (w := 32) k j
  rw [show BitVec.twoPow 32 k = 1#32 <<< k from rfl] at h
  rw [h, Bool.eq_iff_iff]
  simp only [Bool.and_eq_true, decide_eq_true_eq]
  omega

theorem isFree_setFree : (v.setFree b).IsFree b' ↔ b' = b ∨ v.IsFree b' := by
  unfold IsFree setFree
  have hlt : b / 32 % 1024 < 1024 := Nat.mod_lt _ (by decide)
  have hbit : b' % 32 < 32 := Nat.mod_lt _ (by decide)
  rw [get_set hlt]
  split_ifs with h
  · rw [h.1, h.2, BitVec.getLsbD_or, getLsbD_bit hbit, Bool.or_eq_true, decide_eq_true_eq, or_comm]
    refine or_congr_left ⟨fun heq => bit_eq h.1 h.2 heq, ?_⟩
    rintro rfl
    rfl
  · refine ⟨.inr, ?_⟩
    rintro (rfl | hw)
    · exact absurd ⟨rfl, rfl⟩ h
    · exact hw

theorem isFree_setUsed : (v.setUsed b).IsFree b' ↔ b' ≠ b ∧ v.IsFree b' := by
  unfold IsFree setUsed
  have hlt : b / 32 % 1024 < 1024 := Nat.mod_lt _ (by decide)
  have hbit : b' % 32 < 32 := Nat.mod_lt _ (by decide)
  rw [get_set hlt]
  split_ifs with h
  · rw [h.1, h.2, BitVec.getLsbD_and, BitVec.getLsbD_not, getLsbD_bit hbit, Bool.and_eq_true, and_comm]
    refine and_congr_left fun _ => ?_
    simp only [hbit, decide_true, Bool.true_and, Bool.not_eq_true', decide_eq_false_iff_not]
    refine not_congr ⟨fun heq => bit_eq h.1 h.2 heq, ?_⟩
    rintro rfl
    rfl
  · constructor
    · intro hw
      refine ⟨?_, hw⟩
      rintro rfl
      exact h ⟨rfl, rfl⟩
    · exact fun hw => hw.2

private theorem set_set {w' : Word} : (v.set b off w).set b off w' = v.set b off w' := by
  unfold set
  rw [Function.update_idem]
  congr 1
  funext i
  rw [Function.update_self]
  split <;> rfl

private theorem set_get (hoff : off < 1024) : v.set b off (v.get b off) = v := by
  unfold set get
  rw [dif_pos hoff]
  convert Function.update_eq_self b v using 2
  funext i
  split_ifs with hi
  · congr 1
    exact Fin.ext hi.symm
  · rfl

/-- Giving a block back. -/
theorem setFree_setUsed (h : v.IsFree b) : (v.setUsed b).setFree b = v := by
  have hlt : b / 32 % 1024 < 1024 := Nat.mod_lt _ (by decide)
  unfold setFree setUsed
  rw [get_set hlt, if_pos ⟨rfl, rfl⟩, set_set]
  have hword : (v.get (2 + b / 32 / 1024) (b / 32 % 1024) &&& ~~~(1#32 <<< (b % 32))) ||| 1#32 <<< (b % 32) =
      v.get (2 + b / 32 / 1024) (b / 32 % 1024) := by
    apply BitVec.eq_of_getLsbD_eq
    intro j hj
    rw [BitVec.getLsbD_or, BitVec.getLsbD_and, BitVec.getLsbD_not, getLsbD_bit hj]
    by_cases hjb : j = b % 32
    · rw [hjb]
      unfold IsFree at h
      simp [h]
    · simp [hj, hjb]
  rw [hword, set_get hlt]

end View

end Mos
