import Mos.Inv.Device
import Mos.Kern.Bytes
import Mos.Str.Memcpy

/-!
# The other copies of the model

The calls of a device have `memcpy` as the list of its assignments, and the loader as a copy to the memory of a frame.
Away from the end of the address space both leave the memory that `memcpy` leaves.
-/

namespace Mos.Str

open While

variable {mem : Memory} {dst src n : Word}

/-! ### The assignments -/

/-- The bytes of some assignments, one after another. -/
def execBytes (mem : Memory) (l : List (Word × Word)) : Memory := l.foldl (fun mem p => mem.store p.1 (mem p.2)) mem

private theorem execBytes_bytesFrom (mem : Memory) (dst src : Word) (n : Nat) :
    execBytes mem (Device.bytesFrom dst src n) = mem.copied dst src n := by
  induction n with
  | zero => rfl
  | succ n ih =>
    have hlast : Device.bytesFrom dst src (n + 1) =
        Device.bytesFrom dst src n ++ [(dst + BitVec.ofNat 32 n, src + BitVec.ofNat 32 n)] := by
      simp [Device.bytesFrom, List.range_succ]
    unfold execBytes at ih ⊢
    rw [hlast, List.foldl_append, ih]
    rfl

/-- The assignments of `Device.memcpy` do what `memcpy` does. -/
theorem memcpy_moves (h : dst.toNat + n.toNat + 4 < 2 ^ 32) (hs : Fits src n) (hf : Forward dst src n) (mem : Memory) :
    ∃ l, Device.memcpy dst src n = some l ∧
      Returns (fun fuel => memcpy fuel mem dst src n) (dst, execBytes mem (l.flatMap Device.Move.bytes)) := by
  obtain ⟨l, hl, hbytes⟩ := Device.memcpy_bytes dst src n h
  refine ⟨l, hl, ?_⟩
  rw [hbytes, execBytes_bytesFrom]
  exact memcpy_returns h hs hf mem

/-! ### The frames -/

/-- The bytes of the physical memory. -/
def frames (m : Pmap) : Memory := fun a => frameByte (m.word (a.toNat / 4096)) (a.toNat % 4096)

variable {m : Pmap} {a k : Nat}

private theorem frames_storeByte (m : Pmap) (ha : a < 2 ^ 32) (b : Byte) :
    frames (m.storeByte a b) = (frames m).store (BitVec.ofNat 32 a) b := by
  funext x
  have hx := x.isLt
  by_cases hxa : x = BitVec.ofNat 32 a
  · subst hxa
    have htoNat : (BitVec.ofNat 32 a).toNat = a := by
      rw [BitVec.toNat_ofNat]
      omega
    obtain ⟨f, hf, hbyte⟩ := Pmap.storeByte_eq (m := m) (p := a / 4096) (o := a % 4096) (Nat.mod_lt _ (by decide)) b
    rw [Nat.div_add_mod'] at hf
    rw [ByteMem.store_self, frames, htoNat, hf, Pmap.setFrame_word_self, hbyte _ (Nat.mod_lt _ (by decide)), if_pos rfl]
  · have hne : x.toNat ≠ a := by
      rintro rfl
      exact hxa (by simp)
    obtain ⟨f, hf, hbyte⟩ := Pmap.storeByte_eq (m := m) (p := a / 4096) (o := a % 4096) (Nat.mod_lt _ (by decide)) b
    rw [Nat.div_add_mod'] at hf
    rw [ByteMem.store_of_ne hxa, frames, frames, hf]
    by_cases hp : x.toNat / 4096 = a / 4096
    · rw [hp, Pmap.setFrame_word_self, hbyte _ (Nat.mod_lt _ (by decide)), if_neg (by omega)]
    · rw [Pmap.setFrame_word_ne hp]

private theorem frames_memcpy {s : Word} {byte : Nat → Byte} (ha : a + k ≤ 2 ^ 32)
    (hread : ∀ i < k, ∀ j < i, s + BitVec.ofNat 32 i ≠ BitVec.ofNat 32 a + BitVec.ofNat 32 j)
    (hbyte : ∀ i < k, byte i = frames m (s + BitVec.ofNat 32 i)) :
    frames (m.memcpy a byte k) = (frames m).copied (BitVec.ofNat 32 a) s k := by
  induction k with
  | zero => rfl
  | succ k ih =>
    have hprev := ih (by omega) (fun i hi => hread i (by omega)) fun i hi => hbyte i (by omega)
    have hsrc : (frames m).copied (BitVec.ofNat 32 a) s k (s + BitVec.ofNat 32 k) = byte k :=
      (ByteMem.copied_of_ne (hread k (by omega))).trans (hbyte k (by omega)).symm
    rw [Pmap.memcpy, frames_storeByte _ (by omega), hprev, ByteMem.copied, hsrc, BitVec.ofNat_add]

/-- The copy of the loader does what `memcpy` does. -/
theorem memcpy_frames {byte : Nat → Byte} (h : dst.toNat + n.toNat + 4 < 2 ^ 32) (hs : Fits src n)
    (hf : Forward dst src n) (hbyte : ∀ i < n.toNat, byte i = frames m (src + BitVec.ofNat 32 i)) :
    Returns (fun fuel => memcpy fuel (frames m) dst src n) (dst, frames (m.memcpy dst.toNat byte n.toNat)) := by
  have hd : Fits dst n := by
    unfold Fits
    omega
  have hdst : BitVec.ofNat 32 dst.toNat = dst := BitVec.ofNat_toNat .. |>.trans (by simp)
  have hcopy : frames (m.memcpy dst.toNat byte n.toNat) = (frames m).copied dst src n.toNat := by
    have hread := hf.readFirst hd hs
    rw [← hdst] at hread
    rw [frames_memcpy hd hread hbyte, hdst]
  rw [hcopy]
  exact memcpy_returns h hs hf (frames m)

end Mos.Str
