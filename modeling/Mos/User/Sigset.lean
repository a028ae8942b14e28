import Mos.Kern.Signal

/-!
# Signal sets (`user/lib/signal.c`, the set macros of `include/signal.h`)

Signal `n` is bit `n % 32` of word `n / 32`, counted from 0, in a set of two words.  For the signals below 64 the
functions of the library and the macros of the kernel are the operations on sets; signal 64 has its bit behind the set.
-/

namespace Mos

/-- Memory as the words `sig[i]` of a set, with what lies before and behind it. -/
abbrev SetMem := Int → Word

/-- `signum / 32`, on an `int`. -/
def sigword (signum : Word) : Int := signum.toInt.tdiv 32

/-- `1 << (signum & 0x1f)`. -/
def sigbit (signum : Word) : Word := 1 <<< (signum &&& 0x1F).toNat

def sigemptyset (set : SetMem) : SetMem := Function.update (Function.update set 1 0) 0 0

def sigfillset (set : SetMem) : SetMem := Function.update (Function.update set 1 (-1)) 0 (-1)

def sigaddset (set : SetMem) (signum : Word) : SetMem :=
  Function.update set (sigword signum) (set (sigword signum) ||| sigbit signum)

def sigdelset (set : SetMem) (signum : Word) : SetMem :=
  Function.update set (sigword signum) (set (sigword signum) &&& ~~~sigbit signum)

def sigismember (set : SetMem) (signum : Word) : Word := if has (set (sigword signum)) (sigbit signum) then 1 else 0

/-- The `sigset_t` at the address. -/
def SetMem.sigset (s : SetMem) : Sigset := ⟨s 0, s 1⟩

/-- An assignment to the `sigset_t` at the address. -/
def SetMem.store (s : SetMem) (x : Sigset) : SetMem := Function.update (Function.update s 0 x.sig0) 1 x.sig1

/-! ### Bits -/

section

variable {s s' : SetMem} {m n : Word} {w : Word} {x y : Sigset}

private theorem signo_offset (n : Word) : (n &&& 0x1F).toNat = n.toNat % 32 := by
  have hmask : (0x1F : Word).toNat = 2 ^ 5 - 1 := by decide
  rw [BitVec.toNat_and, hmask, Nat.and_two_pow_sub_one_eq_mod]

private theorem sigbit_eq (n : Word) : sigbit n = BitVec.twoPow 32 (n.toNat % 32) := by
  rw [sigbit, signo_offset, BitVec.twoPow_eq]
  rfl

/-- Whether the bit of `n` is set. -/
def SetMem.mem (s : SetMem) (n : Word) : Bool := (s (sigword n)).getLsbD (n.toNat % 32)

private theorem sigismember_eq (s : SetMem) (n : Word) : sigismember s n = if s.mem n then 1 else 0 := by
  rw [sigismember, sigbit_eq, has_eq_getLsbD _ _ (Nat.mod_lt _ (by decide))]
  rfl

private theorem sigword_eq (hn : 1 ≤ n.toInt) : sigword n = ((n.toNat / 32 : Nat) : Int) := by
  have htn : n.toInt = (n.toNat : Int) := by
    rw [BitVec.toInt_eq_toNat_cond] at hn ⊢
    split at hn <;> split <;> omega
  rw [sigword, htn, Int.tdiv_eq_ediv_of_nonneg (Int.natCast_nonneg _)]
  rfl

/-- Two signals share a bit only if they are the same. -/
private theorem eq_of_bit (hm : 1 ≤ m.toInt) (hn : 1 ≤ n.toInt) (hw : sigword m = sigword n)
    (hb : m.toNat % 32 = n.toNat % 32) : m = n := by
  rw [sigword_eq hm, sigword_eq hn] at hw
  have hq : m.toNat / 32 = n.toNat / 32 := Int.ofNat.inj hw
  exact BitVec.eq_of_toNat_eq (by omega)

private theorem mem_sigaddset (hm : 1 ≤ m.toInt) (hn : 1 ≤ n.toInt) (s : SetMem) :
    (sigaddset s n).mem m = (decide (m = n) || s.mem m) := by
  have hlt : m.toNat % 32 < 32 := Nat.mod_lt _ (by decide)
  rw [SetMem.mem, sigaddset, SetMem.mem]
  by_cases hw : sigword m = sigword n
  · rw [hw, Function.update_self, BitVec.getLsbD_or, sigbit_eq, BitVec.getLsbD_twoPow]
    by_cases hb : n.toNat % 32 = m.toNat % 32
    · have heq := eq_of_bit hm hn hw hb.symm
      simp [heq, Nat.mod_lt]
    · have hne : m ≠ n := fun heq => hb (by rw [heq])
      simp [hb, hne]
  · have hne : m ≠ n := fun heq => hw (by rw [heq])
    rw [Function.update_of_ne hw]
    simp [hne]

private theorem mem_sigdelset (hm : 1 ≤ m.toInt) (hn : 1 ≤ n.toInt) (s : SetMem) :
    (sigdelset s n).mem m = (!decide (m = n) && s.mem m) := by
  have hlt : m.toNat % 32 < 32 := Nat.mod_lt _ (by decide)
  rw [SetMem.mem, sigdelset, SetMem.mem]
  by_cases hw : sigword m = sigword n
  · rw [hw, Function.update_self, BitVec.getLsbD_and, BitVec.getLsbD_not, sigbit_eq, BitVec.getLsbD_twoPow]
    by_cases hb : n.toNat % 32 = m.toNat % 32
    · have heq := eq_of_bit hm hn hw hb.symm
      simp [heq, Nat.mod_lt]
    · have hne : m ≠ n := fun heq => hb (by rw [heq])
      simp [hb, hne, hlt]
  · have hne : m ≠ n := fun heq => hw (by rw [heq])
    rw [Function.update_of_ne hw]
    simp [hne]

/-! ### The signals below 64 -/

/-- Signal 64 is the only one with a bit outside the two words. -/
private theorem sigword_cases (hn : 1 ≤ n.toInt) (hn' : n.toInt ≤ 64) (hne : n ≠ 64) : sigword n = 0 ∨ sigword n = 1 := by
  have hlt : n.toNat < 64 := by
    have hne' : n.toNat ≠ 64 := fun heq => hne (BitVec.eq_of_toNat_eq heq)
    rw [BitVec.toInt_eq_toNat_cond] at hn hn'
    split at hn <;> split at hn' <;> omega
  rw [sigword_eq hn]
  omega

/-- The same two words. -/
def SameWords (s s' : SetMem) : Prop := s 0 = s' 0 ∧ s 1 = s' 1

/-- The operation changes the two words only, and looks at nothing else for it. -/
structure Inside (f : SetMem → SetMem) : Prop where
  frame : ∀ s i, i ≠ 0 → i ≠ 1 → f s i = s i
  reads : ∀ s s', SameWords s s' → SameWords (f s) (f s')

/-- A result that depends on the two words only. -/
def DependsInside {α : Type} (r : SetMem → α) : Prop := ∀ s s', SameWords s s' → r s = r s'

/-- What is done to word `i` of the set. -/
private theorem inside_update {i : Int} (hi : i = 0 ∨ i = 1) (g : Word → Word) :
    Inside fun s => Function.update s i (g (s i)) where
  frame s j h0 h1 := by
    have hne : j ≠ i := by rcases hi with rfl | rfl <;> assumption
    exact Function.update_of_ne hne ..
  reads s s' h := by
    rcases hi with rfl | rfl
    · exact ⟨by simp [h.1], by simp [h.2]⟩
    · exact ⟨by simp [h.1], by simp [h.2]⟩

private theorem inside_const (x : Sigset) : Inside fun s => s.store x where
  frame s i h0 h1 := by rw [SetMem.store, Function.update_of_ne h1, Function.update_of_ne h0]
  reads s s' _ := ⟨by simp [SetMem.store], by simp [SetMem.store]⟩

private theorem dependsInside_mem (hn : sigword n = 0 ∨ sigword n = 1) : DependsInside fun s => s.mem n := by
  intro s s' h
  rcases hn with hw | hw
  · simp only [SetMem.mem, hw, h.1]
  · simp only [SetMem.mem, hw, h.2]

/-! ### The algebra of sets -/

/-- The functions of the library and the macros of the kernel are operations on sets of signals, as far as `m` and `n`
go, and keep to the two words. -/
structure SetAlgebra (m n : Word) : Prop where
  add : ∀ s, sigismember (sigaddset s n) m = if m = n then 1 else sigismember s m
  del : ∀ s, sigismember (sigdelset s n) m = if m = n then 0 else sigismember s m
  empty : ∀ s, sigismember (sigemptyset s) m = 0
  fill : ∀ s, sigismember (sigfillset s) m = 1
  ctn : ∀ s : SetMem, sigsetCtn (fun i => s i) m.toNat = true ↔ sigismember s m = 1
  diff : ∀ a b c : SetMem, sigismember (a.store (sigsetDel b.sigset c.sigset)) m =
    if sigismember c m = 1 then 0 else sigismember b m
  writes : Inside sigemptyset ∧ Inside sigfillset ∧ Inside (fun s => sigaddset s n) ∧ Inside (fun s => sigdelset s n) ∧
    ∀ x, Inside (fun s => s.store x)
  reads : DependsInside (fun s => sigismember s m) ∧ DependsInside fun s : SetMem => sigsetCtn (fun i => s i) m.toNat

private theorem inside_sigemptyset : Inside sigemptyset := by
  have heq : sigemptyset = fun s => s.store ⟨0, 0⟩ := by
    funext s
    exact Function.update_comm (by decide) ..
  rw [heq]
  exact inside_const _

private theorem inside_sigfillset : Inside sigfillset := by
  have heq : sigfillset = fun s => s.store ⟨-1, -1⟩ := by
    funext s
    exact Function.update_comm (by decide) ..
  rw [heq]
  exact inside_const _

/-- The test of the kernel is that of the library. -/
private theorem sigsetCtn_eq (hm : 1 ≤ m.toInt) (s : SetMem) : sigsetCtn (fun i => s i) m.toNat = s.mem m := by
  rw [sigsetCtn, SetMem.mem, sigword_eq hm]

private theorem sigismember_eq_one : sigismember s m = 1 ↔ s.mem m = true := by
  rw [sigismember_eq]
  cases s.mem m with
  | false => exact ⟨fun h => absurd h (by decide), fun h => Bool.noConfusion h⟩
  | true => exact ⟨fun _ => rfl, fun _ => rfl⟩

section

variable (hw : sigword m = 0 ∨ sigword m = 1)

include hw

private theorem mem_sigemptyset (s : SetMem) : (sigemptyset s).mem m = false := by
  rcases hw with hw | hw
  · simp [SetMem.mem, sigemptyset, hw]
  · simp [SetMem.mem, sigemptyset, hw]

private theorem mem_sigfillset (s : SetMem) : (sigfillset s).mem m = true := by
  have hones : (-1 : Word).getLsbD (m.toNat % 32) = true := by
    have hall : (-1 : Word) = BitVec.allOnes 32 := by decide
    rw [hall, BitVec.getLsbD_allOnes]
    simpa using Nat.mod_lt m.toNat (by decide)
  rcases hw with hw | hw
  · rw [SetMem.mem, hw]
    exact hones
  · rw [SetMem.mem, hw]
    exact hones

private theorem mem_sigsetDel (a b c : SetMem) : (a.store (sigsetDel b.sigset c.sigset)).mem m = (b.mem m && !c.mem m) := by
  have hlt : m.toNat % 32 < 32 := Nat.mod_lt _ (by decide)
  rcases hw with hw | hw
  · simp [SetMem.mem, SetMem.store, sigsetDel, SetMem.sigset, hw, hlt]
  · simp [SetMem.mem, SetMem.store, sigsetDel, SetMem.sigset, hw, hlt]

end

private theorem setAlgebra_of_ne (hm : 1 ≤ m.toInt ∧ m.toInt ≤ 64) (hn : 1 ≤ n.toInt ∧ n.toInt ≤ 64) (hm64 : m ≠ 64)
    (hn64 : n ≠ 64) : SetAlgebra m n := by
  have hwm := sigword_cases hm.1 hm.2 hm64
  have hwn := sigword_cases hn.1 hn.2 hn64
  constructor
  · intro s
    rw [sigismember_eq, sigismember_eq, mem_sigaddset hm.1 hn.1]
    by_cases heq : m = n
    · simp [heq]
    · simp [heq]
  · intro s
    rw [sigismember_eq, sigismember_eq, mem_sigdelset hm.1 hn.1]
    by_cases heq : m = n
    · simp [heq]
    · simp [heq]
  · intro s
    rw [sigismember_eq, mem_sigemptyset hwm]
    rfl
  · intro s
    rw [sigismember_eq, mem_sigfillset hwm]
    rfl
  · intro s
    rw [sigsetCtn_eq hm.1, sigismember_eq_one]
  · intro a b c
    rw [sigismember_eq, sigismember_eq, sigismember_eq, mem_sigsetDel hwm]
    cases c.mem m with
    | false => simp
    | true => simp
  · refine ⟨inside_sigemptyset, inside_sigfillset, ?_, ?_, inside_const⟩
    · exact inside_update hwn fun w => w ||| sigbit n
    · exact inside_update hwn fun w => w &&& ~~~sigbit n
  · constructor
    · intro s s' h
      have hmem : s.mem m = s'.mem m := dependsInside_mem hwm s s' h
      simp only [sigismember_eq, hmem]
    · intro s s' h
      simp only [sigsetCtn_eq hm.1]
      exact dependsInside_mem hwm s s' h

/-- Signal 64 is in no set that `sigfillset` fills. -/
private theorem not_fill_64 : sigismember (sigfillset fun _ => 0) 64 ≠ 1 := by decide

/-- `sigaddset` of signal 64 writes behind the set. -/
private theorem not_inside_64 : ¬Inside fun s => sigaddset s 64 := fun h =>
  absurd (h.frame (fun _ => 0) 2 (by decide) (by decide)) (by decide)

/-- The sets are sets of the signals from 1 to 63. -/
theorem setAlgebra_iff (hm : 1 ≤ m.toInt ∧ m.toInt ≤ 64) (hn : 1 ≤ n.toInt ∧ n.toInt ≤ 64) :
    SetAlgebra m n ↔ m ≠ 64 ∧ n ≠ 64 := by
  constructor
  · intro h
    refine ⟨fun hm64 => ?_, fun hn64 => ?_⟩
    · subst hm64
      exact not_fill_64 (h.fill _)
    · subst hn64
      exact not_inside_64 h.writes.2.2.1
  · rintro ⟨hm64, hn64⟩
    exact setAlgebra_of_ne hm hn hm64 hn64

end

/-- At the last signal of one word and the first of the other. -/
theorem setAlgebra_31_32 : SetAlgebra 31 32 := (setAlgebra_iff (by decide) (by decide)).2 (by decide)

/-- A full set does not have signal 64, and adding it sets a bit of the word behind the set. -/
theorem signal_64_outside : ¬SetAlgebra 64 64 ∧ sigismember (sigfillset fun _ => 0) 64 = 0 ∧
    sigaddset (fun _ => 0) 64 2 = 1 :=
  ⟨fun h => not_fill_64 (h.fill _), by decide, by decide⟩

end Mos
