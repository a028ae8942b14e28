import Mos.Lib.ByteMem
import Mos.Str.Sweep

/-!
# `memcpy` and `memset`

The two functions of `lib/string.c`.  When `src` and `dst` lie differently in their words, `memcpy` goes byte by byte;
else both are sweeps.  `src` and `dst` may overlap as long as the bytes are read before they are written.
-/

namespace Mos.Str

open While

abbrev Memory := ByteMem 32

/-! ### The functions -/

/-- An access to a machine word traps at an address that is not aligned. -/
def loadWord (mem : Memory) (a : Word) : Option Word := if a &&& 3 = 0 then some (mem.load32 a) else none

def storeWord (mem : Memory) (a x : Word) : Option Memory := if a &&& 3 = 0 then some (mem.store32 a x) else none

/-- The pointers of `memcpy`, and the memory. -/
structure CopyState where
  dst : Word
  src : Word
  mem : Memory

/-- `*(char *)dst++ = *(char *)src++;` -/
def copyByte (s : CopyState) : Option CopyState := some ⟨s.dst + 1, s.src + 1, s.mem.store s.dst (s.mem s.src)⟩

/-- `*(uint32_t *)dst = *(uint32_t *)src; dst += 4; src += 4;` -/
def copyWord (s : CopyState) : Option CopyState := do
  let x ← loadWord s.mem s.src
  let mem ← storeWord s.mem s.dst x
  return ⟨s.dst + 4, s.src + 4, mem⟩

/-- The result and the memory; none where an access traps or `fuel` rounds do not end a loop. -/
def memcpy (fuel : Nat) (mem : Memory) (dst src n : Word) : Option (Word × Memory) :=
  let dstaddr := dst
  let max := dst + n
  if src &&& 3 ≠ dst &&& 3 then do
    let s ← loop (fun s => s.dst < max) copyByte fuel ⟨dst, src, mem⟩
    return (dstaddr, s.mem)
  else do
    let s ← loop (fun s => s.dst &&& 3 ≠ 0 && s.dst < max) copyByte fuel ⟨dst, src, mem⟩
    let s ← loop (fun s => s.dst + 4 ≤ max) copyWord fuel s
    let s ← loop (fun s => s.dst < max) copyByte fuel s
    return (dstaddr, s.mem)

/-- The pointer of `memset`, and the memory. -/
structure FillState where
  dst : Word
  mem : Memory

/-- `*(u_char *)dst++ = byte;` -/
def fillByte (byte : Byte) (s : FillState) : Option FillState := some ⟨s.dst + 1, s.mem.store s.dst byte⟩

/-- `*(uint32_t *)dst = word; dst += 4;` -/
def fillWord (word : Word) (s : FillState) : Option FillState := do
  let mem ← storeWord s.mem s.dst word
  return ⟨s.dst + 4, mem⟩

def memset (fuel : Nat) (mem : Memory) (dst c n : Word) : Option (Word × Memory) := do
  let dstaddr := dst
  let max := dst + n
  let byte : Byte := (c &&& 0xff).setWidth 8
  let byte32 : Word := byte.setWidth 32
  let word := byte32 ||| byte32 <<< 8 ||| byte32 <<< 16 ||| byte32 <<< 24
  let s ← loop (fun s => s.dst &&& 3 ≠ 0 && s.dst < max) (fillByte byte) fuel ⟨dst, mem⟩
  let s ← loop (fun s => s.dst + 4 ≤ max) (fillWord word) fuel s
  let s ← loop (fun s => s.dst < max) (fillByte byte) fuel s
  return (dstaddr, s.mem)

/-! ### What they should do -/

/-- The range of `n` bytes from `a` on ends at the last address at most. -/
def Fits (a n : Word) : Prop := a.toNat + n.toNat ≤ 2 ^ 32

/-- The ranges do not overlap, or `dst` is below `src`. -/
def Forward (dst src n : Word) : Prop :=
  src.toNat + n.toNat ≤ dst.toNat ∨ dst.toNat + n.toNat ≤ src.toNat ∨ dst.toNat < src.toNat

/-- The bytes from `dst` on are the old ones from `src` on, as after a copy byte by byte, and no other byte changes. -/
structure Moved (mem mem' : Memory) (dst src n : Word) : Prop where
  inside : ∀ i < n.toNat, mem' (dst + BitVec.ofNat 32 i) = mem (src + BitVec.ofNat 32 i)
  outside : ∀ a, (∀ i < n.toNat, a ≠ dst + BitVec.ofNat 32 i) → mem' a = mem a
  bytewise : mem' = mem.copied dst src n.toNat

/-- The bytes from `dst` on are the low byte of `c`, and no other byte changes. -/
structure Filled (mem mem' : Memory) (dst c n : Word) : Prop where
  inside : ∀ i < n.toNat, mem' (dst + BitVec.ofNat 32 i) = c.setWidth 8
  outside : ∀ a, (∀ i < n.toNat, a ≠ dst + BitVec.ofNat 32 i) → mem' a = mem a

/-- For every content of the memory the call returns `dst`, and `Good` relates the memory before and afterwards. -/
def Does (f : Memory → Nat → Option (Word × Memory)) (dst : Word) (Good : Memory → Memory → Prop) : Prop :=
  ∀ mem, ∃ mem', Returns (f mem) (dst, mem') ∧ Good mem mem'

def MemcpyOk (dst src n : Word) : Prop :=
  Does (fun mem fuel => memcpy fuel mem dst src n) dst fun mem mem' => Moved mem mem' dst src n

def MemsetOk (dst c n : Word) : Prop :=
  Does (fun mem fuel => memset fuel mem dst c n) dst fun mem mem' => Filled mem mem' dst c n

/-- The end is below the last word, or the last word is all that is written. -/
def FillFits (dst n : Word) : Prop := dst.toNat + n.toNat + 4 < 2 ^ 32 ∨ dst = -4 ∧ n = 4

/-- A copy without words may also end in the last word. -/
def CopyFits (dst src n : Word) : Prop :=
  if src &&& 3 = dst &&& 3 then FillFits dst n else dst.toNat + n.toNat < 2 ^ 32

instance (a n : Word) : Decidable (Fits a n) := inferInstanceAs (Decidable (_ ≤ _))
instance (dst src n : Word) : Decidable (Forward dst src n) := inferInstanceAs (Decidable (_ ∨ _))
instance (dst n : Word) : Decidable (FillFits dst n) := inferInstanceAs (Decidable (_ ∨ _))
instance (dst src n : Word) : Decidable (CopyFits dst src n) := inferInstanceAs (Decidable (ite ..))

section

variable {mem mem' : Memory} {a dst src c n : Word} {i : Nat}

/-- An end behind the last address. -/
private theorem wrapped_end (hd : Fits dst n) (h : ¬dst.toNat + n.toNat < 2 ^ 32) : dst + n = 0 ∧ n ≠ 0 := by
  have hdst := dst.isLt
  unfold Fits at hd
  constructor
  · bv_omega
  · rintro rfl
    exact h hdst

/-! ### What a sweep does -/

section

variable {f : Memory → Nat → Option (Word × Memory)} {Good : Memory → Memory → Prop}

private theorem not_does_of_stuck (h : Stuck (f mem)) : ¬Does f dst Good := by
  intro hf
  obtain ⟨mem', hr, -⟩ := hf mem
  exact h.not_returns hr

private theorem not_does_of_idle (h : Returns (f mem) (dst, mem)) (hbad : ¬Good mem mem) : ¬Does f dst Good := by
  intro hf
  obtain ⟨mem', hr, hgood⟩ := hf mem
  obtain rfl : mem' = mem := congrArg Prod.snd (hr.unique h)
  exact hbad hgood

/-- A sweep does its work exactly where its end fits. -/
private theorem sweep_does_iff {σ : Type} {z : Sweep σ} {memOf : σ → Memory} {P : Memory → Nat → σ} (hd : Fits dst n)
    (hp : ∀ mem, z.Path (P mem) dst)
    (hword : ∀ s s', z.word s = some s' → z.dst s &&& 3 = 0 ∧ z.dst s' = z.dst s + 4)
    (hmem : ∀ mem, memOf (P mem 0) = mem) (hgood : ∀ mem, Good mem (memOf (P mem n.toNat)))
    (hidle : n ≠ 0 → ∃ mem, ¬Good mem mem) :
    Does (fun mem fuel => z.run (dst + n) fuel (P mem 0) >>= fun s => some (dst, memOf s)) dst Good ↔ FillFits dst n := by
  unfold FillFits
  by_cases hfit : dst.toNat + n.toNat + 4 < 2 ^ 32
  · refine iff_of_true (fun mem => ⟨_, ?_, hgood mem⟩) (.inl hfit)
    exact ((hp mem).returns hfit).bind (returns_pure _)
  by_cases hlast : dst.toNat + n.toNat < 2 ^ 32
  · -- the end is in the last word
    have hmax : (dst + n).toNat = dst.toNat + n.toNat := BitVec.toNat_add_of_lt hlast
    have hnot : ¬(dst = -4 ∧ n = 4) := by
      rintro ⟨rfl, rfl⟩
      exact absurd hlast (by decide)
    refine iff_of_false ?_ (not_or.2 ⟨hfit, hnot⟩)
    have hstuck := (hp fun _ => 0).stuck hmax (by omega) hword
    exact not_does_of_stuck hstuck.bind
  · -- the end is zero
    obtain ⟨hmax, hn⟩ := wrapped_end hd hlast
    have hzero : ∀ mem, z.dst (P mem 0) = dst := fun mem => ((hp mem).dst 0).trans (by simp)
    rw [hmax]
    by_cases hd4 : dst = -4
    · obtain rfl : n = 4 := by bv_omega
      subst hd4
      refine iff_of_true (fun mem => ⟨_, ?_, hgood mem⟩) (.inr ⟨rfl, rfl⟩)
      have hw := (hp mem).word 0 (by decide)
      have hnext : z.dst (P mem 4) = 0 := ((hp mem).dst 4).trans (by decide)
      exact (Sweep.returns_last (hzero mem) hw hnext).bind (returns_pure _)
    · refine iff_of_false ?_ (not_or.2 ⟨hfit, fun h => hd4 h.1⟩)
      obtain ⟨mem, hbad⟩ := hidle hn
      have hr : Returns (fun fuel => z.run 0 fuel (P mem 0) >>= fun s => some (dst, memOf s)) (dst, memOf (P mem 0)) :=
        (Sweep.returns_wrapped ((hzero mem).trans_ne hd4)).bind (returns_pure _)
      rw [hmem] at hr
      exact not_does_of_idle hr hbad

end

/-! ### Copying -/

theorem Forward.readFirst (hf : Forward dst src n) (hd : Fits dst n) (hs : Fits src n) :
    ∀ i < n.toNat, ∀ j < i, src + BitVec.ofNat 32 i ≠ dst + BitVec.ofNat 32 j := by
  intro i hi j hj e
  have hsrc : (src + BitVec.ofNat 32 i).toNat = src.toNat + i := by
    apply ByteMem.toNat_add_ofNat
    unfold Fits at hs
    omega
  have hdst : (dst + BitVec.ofNat 32 j).toNat = dst.toNat + j := by
    apply ByteMem.toNat_add_ofNat
    unfold Fits at hd
    omega
  rw [e, hdst] at hsrc
  unfold Forward at hf
  omega

private theorem moved_copied (mem : Memory) (hf : Forward dst src n) (hd : Fits dst n) (hs : Fits src n) :
    Moved mem (mem.copied dst src n.toNat) dst src n where
  inside _ hi := ByteMem.copied_apply (Nat.le_of_lt n.isLt) (hf.readFirst hd hs) hi
  outside _ ha := ByteMem.copied_of_ne ha
  bytewise := rfl

/-- The state after `i` bytes. -/
def copyAt (mem : Memory) (dst src : Word) (i : Nat) : CopyState :=
  ⟨dst + BitVec.ofNat 32 i, src + BitVec.ofNat 32 i, mem.copied dst src i⟩

private theorem copyAt_zero (mem : Memory) (dst src : Word) : copyAt mem dst src 0 = ⟨dst, src, mem⟩ := by
  simp [copyAt, ByteMem.copied]

private theorem copyByte_copyAt (mem : Memory) (dst src : Word) (i : Nat) :
    copyByte (copyAt mem dst src i) = some (copyAt mem dst src (i + 1)) := by
  unfold copyByte copyAt
  rw [ByteMem.add_ofNat_add, ByteMem.add_ofNat_add, ByteMem.copied]
  rfl

/-- A word is read before its bytes are written, since `src` and `dst` lie alike in their words. -/
private theorem copyWord_copyAt (mem : Memory) (hlane : src &&& 3 = dst &&& 3) (ha : (dst + BitVec.ofNat 32 i) &&& 3 = 0) :
    copyWord (copyAt mem dst src i) = some (copyAt mem dst src (i + 4)) := by
  rw [aligned_iff] at ha
  have hs : (src + BitVec.ofNat 32 i).toNat % 4 = 0 := by
    rw [same_lane_iff] at hlane
    simp only [BitVec.toNat_add, BitVec.toNat_ofNat] at ha ⊢
    omega
  have hread : ∀ k < 4, ∀ j < k,
      src + BitVec.ofNat 32 i + BitVec.ofNat 32 k ≠ dst + BitVec.ofNat 32 i + BitVec.ofNat 32 j := by
    intro k hk j hj e
    have he := congrArg BitVec.toNat e
    rw [BitVec.toNat_add, BitVec.toNat_add (dst + BitVec.ofNat 32 i), BitVec.toNat_ofNat, BitVec.toNat_ofNat] at he
    omega
  unfold copyWord copyAt loadWord storeWord
  rw [ByteMem.copied_add, ByteMem.add_ofNat_add, ByteMem.add_ofNat_add, ← ByteMem.store32_load32 hread]
  simp only [if_pos (aligned_iff.2 ha), if_pos (aligned_iff.2 hs)]
  rfl

def copySweep : Sweep CopyState := ⟨CopyState.dst, copyByte, copyWord⟩

private theorem copySweep_trace (mem : Memory) (dst src : Word) : copySweep.Trace (copyAt mem dst src) dst :=
  ⟨fun _ => rfl, copyByte_copyAt mem dst src⟩

private theorem copySweep_path (mem : Memory) (hlane : src &&& 3 = dst &&& 3) :
    copySweep.Path (copyAt mem dst src) dst where
  toTrace := copySweep_trace mem dst src
  word _ ha := copyWord_copyAt mem hlane ha

private theorem memcpy_sweep (hlane : src &&& 3 = dst &&& 3) (fuel : Nat) :
    memcpy fuel mem dst src n = copySweep.run (dst + n) fuel (copyAt mem dst src 0) >>= fun s => some (dst, s.mem) := by
  rw [copyAt_zero, memcpy, if_neg (not_not_intro hlane)]
  simp only [Sweep.run, bind_assoc]
  rfl

private theorem memcpy_bytes (hlane : src &&& 3 ≠ dst &&& 3) (fuel : Nat) :
    memcpy fuel mem dst src n =
      copySweep.rest (dst + n) fuel (copyAt mem dst src 0) >>= fun s => some (dst, s.mem) := by
  rw [copyAt_zero, memcpy, if_pos hlane]
  rfl

private theorem copyWord_step {s s' : CopyState} (h : copyWord s = some s') : s.dst &&& 3 = 0 ∧ s'.dst = s.dst + 4 := by
  unfold copyWord storeWord at h
  obtain ⟨x, -, h⟩ := Option.bind_eq_some_iff.1 h
  obtain ⟨mem, hmem, h⟩ := Option.bind_eq_some_iff.1 h
  cases h
  split at hmem
  case isTrue ha => exact ⟨ha, rfl⟩
  case isFalse => cases hmem

/-- Some memory has another byte at `src` than at `dst`. -/
private theorem exists_not_moved (hf : Forward dst src n) (hn : n ≠ 0) : ∃ mem, ¬Moved mem mem dst src n := by
  have hpos : 0 < n.toNat := by
    rw [Nat.pos_iff_ne_zero]
    exact fun h => hn (BitVec.eq_of_toNat_eq h)
  have hne : dst ≠ src := by
    rintro rfl
    unfold Forward at hf
    omega
  refine ⟨fun a => if a = src then 1 else 0, fun hm => ?_⟩
  have hbyte := hm.inside 0 hpos
  simp [hne] at hbyte

/-- `memcpy` moves the bytes exactly where their end fits. -/
private theorem memcpyOk_iff (hd : Fits dst n) (hs : Fits src n) (hf : Forward dst src n) :
    MemcpyOk dst src n ↔ CopyFits dst src n := by
  unfold MemcpyOk CopyFits
  by_cases hlane : src &&& 3 = dst &&& 3
  · simp only [if_pos hlane, memcpy_sweep hlane]
    apply sweep_does_iff hd fun mem => copySweep_path mem hlane
    · exact fun s s' h => copyWord_step h
    · exact fun mem => rfl
    · exact fun mem => moved_copied mem hf hd hs
    · exact exists_not_moved hf
  · simp only [if_neg hlane, memcpy_bytes hlane]
    by_cases hmax : dst.toNat + n.toNat < 2 ^ 32
    · refine iff_of_true (fun mem => ⟨_, ?_, moved_copied mem hf hd hs⟩) hmax
      have hend : (dst + n).toNat = dst.toNat + n.toNat := BitVec.toNat_add_of_lt hmax
      exact ((copySweep_trace mem dst src).returns_rest hend (Nat.zero_le _)).bind (returns_pure _)
    · refine iff_of_false ?_ hmax
      obtain ⟨hend, hn⟩ := wrapped_end hd hmax
      obtain ⟨mem, hbad⟩ := exists_not_moved hf hn
      have hr : Returns (fun fuel => copySweep.rest 0 fuel (copyAt mem dst src 0)) (copyAt mem dst src 0) :=
        returns_of_not (by simp)
      rw [hend]
      exact not_does_of_idle (hr.bind (returns_pure _)) hbad

private theorem copyFits_of_lt (h : dst.toNat + n.toNat + 4 < 2 ^ 32) : CopyFits dst src n := by
  unfold CopyFits
  split
  · exact .inl h
  · omega

/-- What `memcpy` returns there. -/
theorem memcpy_returns (h : dst.toNat + n.toNat + 4 < 2 ^ 32) (hs : Fits src n) (hf : Forward dst src n) (mem : Memory) :
    Returns (fun fuel => memcpy fuel mem dst src n) (dst, mem.copied dst src n.toNat) := by
  have hd : Fits dst n := by
    unfold Fits
    omega
  obtain ⟨mem', hr, hm⟩ := (memcpyOk_iff hd hs hf).2 (copyFits_of_lt h) mem
  rwa [← hm.bytewise]

/-! ### Filling -/

private theorem filled_filled (mem : Memory) (dst c n : Word) :
    Filled mem (mem.filled dst (c.setWidth 8) n.toNat) dst c n where
  inside _ hi := ByteMem.filled_apply (Nat.le_of_lt n.isLt) hi
  outside _ ha := ByteMem.filled_of_ne ha

/-- The state after `i` bytes. -/
def fillAt (mem : Memory) (dst : Word) (byte : Byte) (i : Nat) : FillState :=
  ⟨dst + BitVec.ofNat 32 i, mem.filled dst byte i⟩

private theorem fillByte_fillAt (mem : Memory) (dst : Word) (byte : Byte) (i : Nat) :
    fillByte byte (fillAt mem dst byte i) = some (fillAt mem dst byte (i + 1)) := by
  unfold fillByte fillAt
  rw [ByteMem.add_ofNat_add, ByteMem.filled]
  rfl

/-- The word that has a byte four times. -/
def spread (byte : Byte) : Word :=
  byte.setWidth 32 ||| byte.setWidth 32 <<< 8 ||| byte.setWidth 32 <<< 16 ||| byte.setWidth 32 <<< 24

private theorem wordByte_spread (byte : Byte) {k : Nat} (hk : k < 4) : ByteMem.wordByte (spread byte) k = byte := by
  have hcases : k = 0 ∨ k = 1 ∨ k = 2 ∨ k = 3 := by omega
  rcases hcases with rfl | rfl | rfl | rfl <;> ext i hi <;> simp [ByteMem.wordByte, spread] <;> grind

private theorem fillWord_fillAt (mem : Memory) {byte : Byte} (ha : (dst + BitVec.ofNat 32 i) &&& 3 = 0) :
    fillWord (spread byte) (fillAt mem dst byte i) = some (fillAt mem dst byte (i + 4)) := by
  have hspread : ∀ k < 4, ByteMem.wordByte (spread byte) k = byte := fun k hk => wordByte_spread byte hk
  unfold fillWord fillAt storeWord
  rw [ByteMem.filled_add, ByteMem.add_ofNat_add, if_pos ha, ByteMem.store32_eq_filled hspread]
  rfl

def fillSweep (byte : Byte) : Sweep FillState := ⟨FillState.dst, fillByte byte, fillWord (spread byte)⟩

private theorem fillSweep_path (mem : Memory) (dst : Word) (byte : Byte) :
    (fillSweep byte).Path (fillAt mem dst byte) dst where
  dst _ := rfl
  byte := fillByte_fillAt mem dst byte
  word _ ha := fillWord_fillAt mem ha

private theorem low_byte (c : Word) : (c &&& 0xff).setWidth 8 = c.setWidth 8 := by
  have hff : (0xff : Word).toNat = 2 ^ 8 - 1 := by decide
  apply BitVec.eq_of_toNat_eq
  rw [BitVec.toNat_setWidth, BitVec.toNat_setWidth, BitVec.toNat_and, hff, Nat.and_two_pow_sub_one_eq_mod, Nat.mod_mod]

private theorem memset_sweep (fuel : Nat) : memset fuel mem dst c n =
    (fillSweep (c.setWidth 8)).run (dst + n) fuel (fillAt mem dst (c.setWidth 8) 0) >>= fun s => some (dst, s.mem) := by
  have hzero : fillAt mem dst (c.setWidth 8) 0 = ⟨dst, mem⟩ := by simp [fillAt, ByteMem.filled]
  rw [hzero, memset]
  simp only [Sweep.run, bind_assoc, low_byte]
  rfl

private theorem fillWord_step {x : Word} {s s' : FillState} (h : fillWord x s = some s') :
    s.dst &&& 3 = 0 ∧ s'.dst = s.dst + 4 := by
  unfold fillWord storeWord at h
  obtain ⟨mem, hmem, h⟩ := Option.bind_eq_some_iff.1 h
  cases h
  split at hmem
  case isTrue ha => exact ⟨ha, rfl⟩
  case isFalse => cases hmem

private theorem exists_not_filled (dst c : Word) (hn : n ≠ 0) : ∃ mem, ¬Filled mem mem dst c n := by
  have hpos : 0 < n.toNat := by
    rw [Nat.pos_iff_ne_zero]
    exact fun h => hn (BitVec.eq_of_toNat_eq h)
  refine ⟨fun _ => c.setWidth 8 + 1, fun hm => ?_⟩
  have hbyte := hm.inside 0 hpos
  have hone : c.setWidth 8 + 1 ≠ c.setWidth 8 := by bv_omega
  exact hone hbyte

private theorem memsetOk_iff (c : Word) (hd : Fits dst n) : MemsetOk dst c n ↔ FillFits dst n := by
  unfold MemsetOk
  simp only [memset_sweep]
  apply sweep_does_iff hd fun mem => fillSweep_path mem dst (c.setWidth 8)
  · exact fun s s' h => fillWord_step h
  · exact fun mem => rfl
  · exact fun mem => filled_filled mem dst c n
  · exact exists_not_filled dst c

/-- Both do their work exactly where the end fits. -/
theorem copy_fill_iff (hd : Fits dst n) :
    (∀ src, Fits src n → Forward dst src n → (MemcpyOk dst src n ↔ CopyFits dst src n)) ∧
      ∀ c, MemsetOk dst c n ↔ FillFits dst n :=
  ⟨fun _ hs hf => memcpyOk_iff hd hs hf, fun c => memsetOk_iff c hd⟩

/-- Overlapping ranges, one word apart, with bytes in front of the first word and behind the last one. -/
theorem copy_fill_ok : MemcpyOk 0x1001 0x1005 7 ∧ MemsetOk 0x1001 0x1FF 7 := by
  have h := copy_fill_iff (show Fits 0x1001 7 by decide)
  exact ⟨(h.1 0x1005 (by decide) (by decide)).2 (by decide), (h.2 0x1FF).2 (by decide)⟩

/-- With its end in the last word a copy that has words never comes back. -/
private theorem memcpy_stuck (mem : Memory) (hlane : src &&& 3 = dst &&& 3) (hd : dst.toNat + n.toNat < 2 ^ 32)
    (hlast : 2 ^ 32 ≤ dst.toNat + n.toNat + 4) : Stuck (fun fuel => memcpy fuel mem dst src n) := by
  have hmax : (dst + n).toNat = dst.toNat + n.toNat := BitVec.toNat_add_of_lt hd
  simp only [memcpy_sweep hlane]
  exact ((copySweep_path mem hlane).stuck hmax (by omega) fun s s' h => copyWord_step h).bind

private theorem memset_stuck (mem : Memory) (c : Word) (hd : dst.toNat + n.toNat < 2 ^ 32)
    (hlast : 2 ^ 32 ≤ dst.toNat + n.toNat + 4) : Stuck (fun fuel => memset fuel mem dst c n) := by
  have hmax : (dst + n).toNat = dst.toNat + n.toNat := BitVec.toNat_add_of_lt hd
  simp only [memset_sweep]
  exact ((fillSweep_path mem dst _).stuck hmax (by omega) fun s s' h => fillWord_step h).bind

/-- The first three bytes of the last word. -/
theorem not_copy_fill_last : Fits 0xFFFFFFFC 3 ∧ Fits 0 3 ∧ Forward 0xFFFFFFFC 0 3 ∧
    (¬MemcpyOk 0xFFFFFFFC 0 3 ∧ ∀ mem, Stuck (fun fuel => memcpy fuel mem 0xFFFFFFFC 0 3)) ∧
      ¬MemsetOk 0xFFFFFFFC 0 3 ∧ ∀ mem, Stuck (fun fuel => memset fuel mem 0xFFFFFFFC 0 3) := by
  have hcopy : ∀ mem, Stuck (fun fuel => memcpy fuel mem 0xFFFFFFFC 0 3) :=
    fun mem => memcpy_stuck mem (by decide) (by decide) (by decide)
  have hfill : ∀ mem, Stuck (fun fuel => memset fuel mem 0xFFFFFFFC 0 3) :=
    fun mem => memset_stuck mem 0 (by decide) (by decide)
  refine ⟨by decide, by decide, by decide, ⟨?_, hcopy⟩, ?_, hfill⟩
  · have hstuck := hcopy fun _ => 0
    exact not_does_of_stuck hstuck
  · have hstuck := hfill fun _ => 0
    exact not_does_of_stuck hstuck

end

end Mos.Str
