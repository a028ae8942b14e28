import Mos.Inv.Access

/-!
# Copying from and to a device

`sys_write_dev` and `sys_read_dev` (`kern/syscall_all.c`) with the `memcpy` of `lib/string.c` that they call.  Both
check the address in user memory and the physical address, and then copy.  The check `pa + len <= ...` is done in 32
bits: it also passes when the sum wraps around.
-/

namespace Mos.Device

open Kern

/-! ### `memcpy` -/

/-- An assignment of `memcpy`: a byte or a machine word. -/
structure Move where
  dst : Word
  src : Word
  size : Nat
  deriving DecidableEq

/-- The `n` pairs of addresses from `dst` and `src` on. -/
def bytesFrom (dst src : Word) (n : Nat) : List (Word × Word) :=
  (List.range n).map fun i => (dst + BitVec.ofNat 32 i, src + BitVec.ofNat 32 i)

def Move.bytes (m : Move) : List (Word × Word) := bytesFrom m.dst m.src m.size

/-- A loop of `memcpy`, with its two pointers afterwards; `none` when `fuel` rounds do not end it. -/
def copyWhile (cond : Word → Bool) (size : Nat) : Nat → Word → Word → Option (List Move × Word × Word)
  | 0, _, _ => none
  | fuel + 1, dst, src =>
    if cond dst then
      (copyWhile cond size fuel (dst + BitVec.ofNat 32 size) (src + BitVec.ofNat 32 size)).map
        fun (l, p) => (⟨dst, src, size⟩ :: l, p)
    else some ([], dst, src)

/-- A loop that has not ended by then comes back to a pointer that it had: it never ends. -/
def ROUNDS : Nat := 2 ^ 32

/-- The assignments of `memcpy` in order. -/
def memcpy (dst src n : Word) : Option (List Move) :=
  let max := dst + n
  if src &&& 3 ≠ dst &&& 3 then (copyWhile (fun d => d < max) 1 ROUNDS dst src).map (·.1)
  else
    (copyWhile (fun d => d &&& 3 ≠ 0 && d < max) 1 ROUNDS dst src).bind fun (l₁, dst, src) =>
      (copyWhile (fun d => d + 4 ≤ max) 4 ROUNDS dst src).bind fun (l₂, dst, src) =>
        (copyWhile (fun d => d < max) 1 ROUNDS dst src).map fun (l₃, _) => l₁ ++ l₂ ++ l₃

theorem bytesFrom_add (dst src : Word) (n k : Nat) : bytesFrom dst src (n + k) =
    bytesFrom dst src n ++ bytesFrom (dst + BitVec.ofNat 32 n) (src + BitVec.ofNat 32 n) k := by
  unfold bytesFrom
  rw [List.range_add, List.map_append, List.map_map]
  congr 1
  apply List.map_congr_left
  intro i _
  simp [BitVec.ofNat_add, BitVec.add_assoc]

/-- A loop whose rounds stay below `max` copies a first part of the bytes. -/
private theorem copyWhile_spec {cond : Word → Bool} {size : Nat} {max : Word} (hsize : 0 < size)
    (hcond : ∀ d : Word, d.toNat ≤ max.toNat → cond d = true → d.toNat + size ≤ max.toNat) (fuel : Nat)
    (dst src : Word) (hle : dst.toNat ≤ max.toNat) (hfuel : max.toNat - dst.toNat < fuel) :
    ∃ l n, copyWhile cond size fuel dst src = some (l, dst + BitVec.ofNat 32 n, src + BitVec.ofNat 32 n) ∧
      l.flatMap Move.bytes = bytesFrom dst src n ∧ dst.toNat + n ≤ max.toNat ∧
      cond (dst + BitVec.ofNat 32 n) = false := by
  induction fuel generalizing dst src with
  | zero => omega
  | succ fuel ih =>
    rw [copyWhile]
    cases hc : cond dst with
    | false =>
      refine ⟨[], 0, ?_, rfl, hle, ?_⟩
      · simp
      · simpa using hc
    | true =>
      rw [if_pos rfl]
      have hstep := hcond dst hle hc
      have hmax := max.isLt
      have hdst : (dst + BitVec.ofNat 32 size).toNat = dst.toNat + size := by
        rw [BitVec.toNat_add, BitVec.toNat_ofNat]
        omega
      obtain ⟨l, n, hl, hbytes, hn, hend⟩ := ih (dst + BitVec.ofNat 32 size)
        (src + BitVec.ofNat 32 size) (by omega) (by omega)
      rw [hdst] at hn
      refine ⟨⟨dst, src, size⟩ :: l, size + n, ?_, ?_, by omega, ?_⟩
      · rw [hl]
        simp [BitVec.ofNat_add, BitVec.add_assoc]
      · rw [List.flatMap_cons, hbytes, bytesFrom_add]
        rfl
      · rwa [BitVec.ofNat_add, ← BitVec.add_assoc]

/-- The last loop goes on to `max`. -/
private theorem copyWhile_rest (dst src max : Word) (hle : dst.toNat ≤ max.toNat) :
    ∃ l d s, copyWhile (fun d => d < max) 1 ROUNDS dst src = some (l, d, s) ∧
      l.flatMap Move.bytes = bytesFrom dst src (max.toNat - dst.toNat) := by
  have hmax := max.isLt
  have hcond : ∀ d : Word, d.toNat ≤ max.toNat → decide (d < max) = true → d.toNat + 1 ≤ max.toNat := by
    intro d _ h
    exact of_decide_eq_true h
  obtain ⟨l, n, hl, hbytes, hn, hend⟩ := copyWhile_spec Nat.one_pos hcond ROUNDS dst src hle
    (show _ < 2 ^ 32 by omega)
  have hend := of_decide_eq_false hend
  have hdst : (dst + BitVec.ofNat 32 n).toNat = dst.toNat + n := by
    rw [BitVec.toNat_add, BitVec.toNat_ofNat]
    omega
  rw [BitVec.lt_def, hdst] at hend
  have hlen : n = max.toNat - dst.toNat := by omega
  exact ⟨l, _, _, hl, hlen ▸ hbytes⟩

/-- Away from the end of the address space `memcpy` copies the `n` bytes, in order. -/
theorem memcpy_bytes (dst src n : Word) (hwrap : dst.toNat + n.toNat + 4 < 2 ^ 32) :
    ∃ l, memcpy dst src n = some l ∧ l.flatMap Move.bytes = bytesFrom dst src n.toNat := by
  have hmax : (dst + n).toNat = dst.toNat + n.toNat := by
    rw [BitVec.toNat_add]
    omega
  have hle : dst.toNat ≤ (dst + n).toNat := by omega
  unfold memcpy
  by_cases halign : src &&& 3 ≠ dst &&& 3
  · obtain ⟨l, d, s, hl, hbytes⟩ := copyWhile_rest dst src _ hle
    refine ⟨l, ?_, ?_⟩
    · simp only [if_pos halign, hl, Option.map_some]
    · rw [hbytes, hmax, Nat.add_sub_cancel_left]
  · -- the bytes up to a word boundary, the words, and the bytes that are left
    have hcond₁ : ∀ d : Word, d.toNat ≤ (dst + n).toNat →
        (decide (d &&& 3 ≠ 0) && decide (d < dst + n)) = true → d.toNat + 1 ≤ (dst + n).toNat := by
      intro d _ h
      exact of_decide_eq_true (Bool.and_eq_true_iff.1 h).2
    have hcond₂ : ∀ d : Word, d.toNat ≤ (dst + n).toNat → decide (d + 4 ≤ dst + n) = true →
        d.toNat + 4 ≤ (dst + n).toNat := by
      intro d hd h
      have h := of_decide_eq_true h
      have h4 : (4 : Word).toNat = 4 := by decide
      rw [BitVec.le_def, BitVec.toNat_add, h4] at h
      omega
    obtain ⟨l₁, n₁, hl₁, hb₁, hn₁, -⟩ := copyWhile_spec Nat.one_pos hcond₁ ROUNDS dst src hle
      (show _ < 2 ^ 32 by omega)
    have hd₁ : (dst + BitVec.ofNat 32 n₁).toNat = dst.toNat + n₁ := by
      rw [BitVec.toNat_add, BitVec.toNat_ofNat]
      omega
    obtain ⟨l₂, n₂, hl₂, hb₂, hn₂, -⟩ := copyWhile_spec (by decide) hcond₂ ROUNDS (dst + BitVec.ofNat 32 n₁)
      (src + BitVec.ofNat 32 n₁) (by omega) (show _ < 2 ^ 32 by omega)
    have hd₂ : (dst + BitVec.ofNat 32 n₁ + BitVec.ofNat 32 n₂).toNat = dst.toNat + n₁ + n₂ := by
      rw [BitVec.toNat_add, hd₁, BitVec.toNat_ofNat]
      omega
    obtain ⟨l₃, d, s, hl₃, hb₃⟩ := copyWhile_rest (dst + BitVec.ofNat 32 n₁ + BitVec.ofNat 32 n₂)
      (src + BitVec.ofNat 32 n₁ + BitVec.ofNat 32 n₂) (dst + n) (by omega)
    refine ⟨l₁ ++ l₂ ++ l₃, ?_, ?_⟩
    · simp only [if_neg halign, hl₁, hl₂, hl₃, Option.bind_some, Option.map_some]
    · have hlen : n.toNat = n₁ + n₂ + ((dst + n).toNat - (dst + BitVec.ofNat 32 n₁ + BitVec.ofNat 32 n₂).toNat) := by
        omega
      rw [List.flatMap_append, List.flatMap_append, hb₁, hb₂, hb₃, hlen, bytesFrom_add, bytesFrom_add,
        BitVec.ofNat_add, BitVec.add_assoc, BitVec.add_assoc]

/-! ### The two calls -/

/-- The unmapped and uncached window on physical memory. -/
def KSEG1 : Word := 0xA0000000

/-- The result and the assignments, if the copy ends.  That an access finds no page is not part of it. -/
abbrev Answer := Option (Word × List Move)

/-- The checks of both calls, in front of the `memcpy`. -/
def checked (va pa len : Word) (copy : Option (List Move)) : Answer :=
  if isIllegalVaRange va len then some (-E_INVAL, [])
  else if isDevice pa len then copy.map fun l => (0, l)
  else some (-E_INVAL, [])

def sysWriteDev (va pa len : Word) : Answer := checked va pa len (memcpy (KSEG1 ||| pa) va len)
def sysReadDev (va pa len : Word) : Answer := checked va pa len (memcpy va (KSEG1 ||| pa) len)

/-! ### What they should do -/

/-- The devices: where their windows start and how long they are. -/
def windows : List (Nat × Nat) := [(0x10000000, 0x20), (0x13000000, 0x4200), (0x15000000, 0x200)]

/-- The bytes of the device lie in one window. -/
def InWindow (pa len : Word) : Prop := ∃ w ∈ windows, w.1 ≤ pa.toNat ∧ pa.toNat + len.toNat ≤ w.1 + w.2

/-- The bytes in memory lie between `UTEMP` and `UTOP`. -/
def InRange (va len : Word) : Prop := len = 0 ∨ UTEMP.toNat ≤ va.toNat ∧ va.toNat + len.toNat ≤ UTOP.toNat

instance (pa len : Word) : Decidable (InWindow pa len) := inferInstanceAs (Decidable (∃ w ∈ windows, _))
instance (va len : Word) : Decidable (InRange va len) := inferInstanceAs (Decidable (_ ∨ _))

/-- `0` for addresses in range only; for all others `-E_INVAL`, with nothing copied. -/
structure Answers (va pa len : Word) (r : Answer) : Prop where
  inside : ∀ l, r = some (0, l) → InRange va len ∧ InWindow pa len
  outside : ¬(InRange va len ∧ InWindow pa len) → r = some (-E_INVAL, [])

/-! ### The checks -/

/-- The check in user memory is exact. -/
private theorem legal_iff {va len : Word} : isIllegalVaRange va len = false ↔ InRange va len := by
  have htemp : UTEMP.toNat = 0x3FE000 := by decide
  have htop : UTOP.toNat = 0x7F400000 := by decide
  have hva := va.isLt
  have hlen := len.isLt
  unfold isIllegalVaRange InRange
  by_cases h0 : len = 0
  · rw [if_pos h0]
    exact iff_of_true rfl (.inl h0)
  · rw [if_neg h0]
    have hpos : 0 < len.toNat := by
      rcases Nat.eq_zero_or_pos len.toNat with h | h
      · exact absurd (BitVec.eq_of_toNat_eq h) h0
      · exact h
    simp only [Bool.or_eq_false_iff, decide_eq_false_iff_not, BitVec.lt_def, BitVec.toNat_add, h0, false_or]
    omega

/-- The check of the device is exact only as long as the sum does not wrap around. -/
private theorem isDevice_iff {pa len : Word} (hwrap : pa.toNat + len.toNat < 2 ^ 32) :
    isDevice pa len = true ↔ InWindow pa len := by
  unfold isDevice InWindow windows
  simp only [Bool.or_eq_true, Bool.and_eq_true, decide_eq_true_eq, BitVec.le_def, BitVec.toNat_add,
    Nat.mod_eq_of_lt hwrap, List.mem_cons, List.not_mem_nil, or_false, exists_eq_or_imp, exists_eq_left, or_assoc]
  exact Iff.rfl

/-- When it does, and `len` fits in user memory, only the end of the last window counts. -/
private theorem isDevice_wrap {pa len : Word} (hlen : len.toNat < 2 ^ 31) (hwrap : 2 ^ 32 ≤ pa.toNat + len.toNat) :
    isDevice pa len = true ↔ pa.toNat + len.toNat ≤ 2 ^ 32 + 0x15000200 := by
  have hpa := pa.isLt
  have hmod : (pa.toNat + len.toNat) % 2 ^ 32 = pa.toNat + len.toNat - 2 ^ 32 := by omega
  unfold isDevice
  simp only [Bool.or_eq_true, Bool.and_eq_true, decide_eq_true_eq, BitVec.le_def, BitVec.toNat_add, hmod,
    BitVec.reduceToNat]
  omega

private theorem not_inWindow_of_wrap {pa len : Word} (hwrap : 2 ^ 32 ≤ pa.toNat + len.toNat) : ¬InWindow pa len := by
  rintro ⟨w, hw, -, hend⟩
  have hle : w.1 + w.2 < 2 ^ 32 := by
    simp only [windows, List.mem_cons, List.not_mem_nil, or_false] at hw
    rcases hw with rfl | rfl | rfl <;> decide
  omega

/-- The addresses that pass both checks although they should not. -/
def Slips (va pa len : Word) : Prop :=
  isIllegalVaRange va len = false ∧ 2 ^ 32 ≤ pa.toNat + len.toNat ∧ pa.toNat + len.toNat ≤ 2 ^ 32 + 0x15000200

instance (va pa len : Word) : Decidable (Slips va pa len) := inferInstanceAs (Decidable (_ ∧ _ ∧ _))

private theorem len_lt_of_inRange {va len : Word} (h : InRange va len) : len.toNat < 2 ^ 31 := by
  have htop : UTOP.toNat = 0x7F400000 := by decide
  rcases h with rfl | h
  · decide
  · omega

private theorem checked_answers_iff (va pa len : Word) (copy : Option (List Move)) :
    Answers va pa len (checked va pa len copy) ↔ ¬Slips va pa len := by
  have hneg : (-E_INVAL : Word) ≠ 0 := by decide
  unfold checked
  cases hva : isIllegalVaRange va len with
  | true =>
    rw [if_pos rfl]
    refine iff_of_true ⟨fun l h => ?_, fun _ => rfl⟩ fun h => ?_
    · exact absurd (congrArg Prod.fst (Option.some.inj h)) hneg
    · have hlegal := h.1
      rw [hva] at hlegal
      cases hlegal
  | false =>
    rw [if_neg (by decide)]
    have hin := legal_iff.1 hva
    by_cases hwrap : pa.toNat + len.toNat < 2 ^ 32
    · -- both checks are exact
      refine iff_of_true ?_ fun h => absurd h.2.1 (by omega)
      by_cases hpa : isDevice pa len = true
      · rw [if_pos hpa]
        have hall : InRange va len ∧ InWindow pa len := ⟨hin, (isDevice_iff hwrap).1 hpa⟩
        exact ⟨fun _ _ => hall, fun h => absurd hall h⟩
      · rw [if_neg hpa]
        exact ⟨fun l h => absurd (congrArg Prod.fst (Option.some.inj h)) hneg, fun _ => rfl⟩
    · have hwrap := Nat.le_of_not_lt hwrap
      have hout := not_inWindow_of_wrap hwrap
      by_cases hpa : isDevice pa len = true
      · have hend := (isDevice_wrap (len_lt_of_inRange hin) hwrap).1 hpa
        rw [if_pos hpa]
        refine iff_of_false (fun h => ?_) (fun h => h ⟨hva, hwrap, hend⟩)
        have hr := h.outside fun h => hout h.2
        cases copy with
        | none => cases hr
        | some l => exact hneg (congrArg Prod.fst (Option.some.inj hr)).symm
      · rw [if_neg hpa]
        refine iff_of_true ⟨fun l h => ?_, fun _ => rfl⟩ fun h => ?_
        · exact absurd (congrArg Prod.fst (Option.some.inj h)) hneg
        · exact hpa ((isDevice_wrap (len_lt_of_inRange hin) hwrap).2 h.2.2)

/-- Both calls answer as they should exactly when `pa + len` does not slip past the checks. -/
theorem dev_answers_iff (va pa len : Word) :
    (Answers va pa len (sysWriteDev va pa len) ↔ ¬Slips va pa len) ∧
      (Answers va pa len (sysReadDev va pa len) ↔ ¬Slips va pa len) :=
  ⟨checked_answers_iff va pa len _, checked_answers_iff va pa len _⟩

/-- With the addresses in range the call returns `0`, and what it has moved are the bytes of the two ranges.  For no
bytes at all `memcpy` may run away: at the last word of the address space `dst + 4 <= max` holds. -/
theorem answers_copied {va pa len : Word} (hva : InRange va len) (hpa : InWindow pa len) (hlen : len ≠ 0) :
    (∃ l, sysWriteDev va pa len = some (0, l) ∧ l.flatMap Move.bytes = bytesFrom (KSEG1 ||| pa) va len.toNat) ∧
      ∃ l, sysReadDev va pa len = some (0, l) ∧ l.flatMap Move.bytes = bytesFrom va (KSEG1 ||| pa) len.toNat := by
  have htop : UTOP.toNat = 0x7F400000 := by decide
  have hva' := hva.resolve_left hlen
  have hwrap : pa.toNat + len.toNat < 2 ^ 32 := by
    by_contra h
    exact not_inWindow_of_wrap (Nat.le_of_not_lt h) hpa
  have hchecked : ∀ copy, checked va pa len copy = copy.map fun l => (0, l) := by
    intro copy
    rw [checked, if_neg (by rw [legal_iff.2 hva]; decide), if_pos ((isDevice_iff hwrap).2 hpa)]
  have hdev : (KSEG1 ||| pa).toNat + len.toNat + 4 < 2 ^ 32 := by
    obtain ⟨w, hw, hlo, hhi⟩ := hpa
    have hw : w.1 + w.2 < 2 ^ 29 ∧ w.2 ≤ 0x4200 := by
      simp only [windows, List.mem_cons, List.not_mem_nil, or_false] at hw
      rcases hw with rfl | rfl | rfl <;> decide
    have hor : 0xA0000000 + pa.toNat = 0xA0000000 ||| pa.toNat :=
      Nat.shiftLeft_add_eq_or_of_lt (show pa.toNat < 2 ^ 29 by omega) 5
    have hkseg : (KSEG1 ||| pa).toNat = 0xA0000000 + pa.toNat := by
      rw [BitVec.toNat_or, hor]
      rfl
    omega
  constructor
  · obtain ⟨l, hl, hbytes⟩ := memcpy_bytes (KSEG1 ||| pa) va len hdev
    exact ⟨l, by rw [sysWriteDev, hchecked, hl]; rfl, hbytes⟩
  · obtain ⟨l, hl, hbytes⟩ := memcpy_bytes va (KSEG1 ||| pa) len (by omega)
    exact ⟨l, by rw [sysReadDev, hchecked, hl]; rfl, hbytes⟩

/-- Two bytes at the last physical address: both calls return `0`, and the second one has read addresses `-1` and
`0` of the kernel. -/
private theorem wrapped_answer : sysWriteDev UTEMP 0xFFFFFFFF 2 = some (0, []) ∧
    sysReadDev UTEMP 0xFFFFFFFF 2 = some (0, [⟨UTEMP, 0xFFFFFFFF, 1⟩, ⟨UTEMP + 1, 0, 1⟩]) := by
  decide +kernel

/-- So the calls do not answer as they should for every address. -/
theorem exists_slip : ∃ va pa len, ¬Answers va pa len (sysWriteDev va pa len) ∧
    ¬Answers va pa len (sysReadDev va pa len) := by
  have hout : ¬InWindow 0xFFFFFFFF 2 := not_inWindow_of_wrap (by decide)
  refine ⟨UTEMP, 0xFFFFFFFF, 2, fun h => ?_, fun h => ?_⟩
  · exact hout (h.inside _ wrapped_answer.1).2
  · exact hout (h.inside _ wrapped_answer.2).2

/-! ### The calls of the model -/

/-- Where nothing wraps around, the result is the one that the kernel returns. -/
theorem sysDev_eq {k k' : Kern} {va pa len r : Word} (h : k.sysDev va pa len = some (k', some r)) :
    k' = k ∧ r = (if InRange va len ∧ InWindow pa len then 0 else -E_INVAL) := by
  unfold sysDev at h
  cases hva : isIllegalVaRange va len with
  | true =>
    have hout : ¬InRange va len := by
      rw [← legal_iff, hva]
      decide
    rw [hva, if_pos rfl] at h
    cases h
    exact ⟨rfl, (if_neg fun h => hout h.1).symm⟩
  | false =>
    rw [hva, if_neg (by decide)] at h
    have hin := legal_iff.1 hva
    split at h
    case isTrue hpa =>
      split at h
      case isTrue hwrap =>
        cases h
        exact ⟨rfl, (if_pos ⟨hin, (isDevice_iff hwrap).1 hpa⟩).symm⟩
      case isFalse => cases h
    case isFalse hpa =>
      cases h
      refine ⟨rfl, (if_neg fun h => hpa ?_).symm⟩
      refine (isDevice_iff ?_).2 h.2
      by_contra hwrap
      exact not_inWindow_of_wrap (Nat.le_of_not_lt hwrap) h.2

end Mos.Device
