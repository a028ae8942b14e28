import Mos.Kern.Signal

/-!
# Words on the user stack

What the stores of the kernel to user memory leave there, and when they succeed.
-/

namespace Mos

/-- An address that the kernel can store a word to on behalf of the current environment. -/
def storable (a : Word) : Bool := a.toNat % 4 = 0 ∧ UTEMP ≤ a ∧ a < UTOP

theorem storable_iff {a : Word} :
    storable a = true ↔ a.toNat % 4 = 0 ∧ 0x3FE000 ≤ a.toNat ∧ a.toNat < 0x7F400000 := by
  have hlow : UTEMP.toNat = 0x3FE000 := by decide
  have hhigh : UTOP.toNat = 0x7F400000 := by decide
  rw [storable, decide_eq_true_eq, BitVec.le_def, BitVec.lt_def, hlow, hhigh]

/-- The address of the `i`-th word from `a` on. -/
def wordAddr (a : Word) (i : Nat) : Word := a + BitVec.ofNat 32 (4 * i)

/-- Memory after `n` words were written from `a` on. -/
def writeWords (m : Word → Word) (a : Word) (w : Nat → Word) (n : Nat) : Word → Word :=
  (List.range n).foldl (fun m i => Function.update m (wordAddr a i) (w i)) m

private theorem writeWords_succ (m : Word → Word) (a : Word) (w : Nat → Word) (n : Nat) :
    writeWords m a w (n + 1) = Function.update (writeWords m a w n) (wordAddr a n) (w n) := by
  rw [writeWords, List.range_succ, List.foldl_append]
  rfl

/-- The other words are unchanged. -/
private theorem writeWords_of_ne {m : Word → Word} {a b : Word} {w : Nat → Word} {n : Nat} (h : ∀ i < n, b ≠ wordAddr a i) :
    writeWords m a w n b = m b := by
  induction n with
  | zero => rfl
  | succ n ih =>
    rw [writeWords_succ, Function.update_of_ne (h n (Nat.lt_succ_self n))]
    exact ih fun i hi => h i (Nat.lt_succ_of_lt hi)

private theorem wordAddr_inj {a : Word} {i j : Nat} (hi : i < 2 ^ 30) (hj : j < 2 ^ 30) (h : wordAddr a i = wordAddr a j) :
    i = j := by
  have hof : BitVec.ofNat 32 (4 * i) = BitVec.ofNat 32 (4 * j) := (BitVec.add_right_inj a).1 h
  have hnat := congrArg BitVec.toNat hof
  simp only [BitVec.toNat_ofNat] at hnat
  omega

/-- Every written word can be read back. -/
theorem writeWords_wordAddr {m : Word → Word} {a : Word} {w : Nat → Word} {n i : Nat} (hn : n ≤ 2 ^ 30) (hi : i < n) :
    writeWords m a w n (wordAddr a i) = w i := by
  induction n with
  | zero => exact absurd hi (Nat.not_lt_zero i)
  | succ n ih =>
    rw [writeWords_succ]
    by_cases heq : i = n
    · rw [heq, Function.update_self]
    · have hne : wordAddr a i ≠ wordAddr a n := fun h => heq (wordAddr_inj (by omega) (by omega) h)
      rw [Function.update_of_ne hne]
      exact ih (by omega) (by omega)

namespace Kern

private theorem ustore_eq (k : Kern) (a v : Word) :
    k.ustore a v = if storable a then some (k.setUmem (Function.update k.umem a v)) else none := by
  simp only [ustore, storable, decide_eq_true_eq]

/-- The words are written if all their addresses can be stored to. -/
theorem ustoreWords_eq (k : Kern) (a : Word) (w : Nat → Word) (n : Nat) :
    k.ustoreWords a w n = if (List.range n).all (fun i => storable (wordAddr a i)) then
      some (k.setUmem (writeWords k.umem a w n)) else none := by
  induction n with
  | zero => rfl
  | succ n ih =>
    have hstep : k.ustoreWords a w (n + 1) = (k.ustoreWords a w n).bind fun k => k.ustore (wordAddr a n) (w n) := by
      rw [ustoreWords, List.range_succ, List.foldlM_append]
      simp only [List.foldlM_cons, List.foldlM_nil, bind_pure]
      rfl
    rw [hstep, ih, List.range_succ, List.all_append]
    by_cases hall : (List.range n).all (fun i => storable (wordAddr a i)) = true
    · rw [if_pos hall, Option.bind_some, ustore_eq, writeWords_succ]
      simp [hall, setUmem]
    · rw [if_neg hall, Option.bind_none, if_neg]
      simp [hall]

/-- The addresses that `_do_signal` stores to with the stack pointer `sp`: the frame, and the mask below it. -/
def stackOk (sp : Word) : Bool :=
  (List.range 38).all (fun i => storable (wordAddr (sp - TF_SIZE) i)) && storable (sp - TF_SIZE - 8) &&
    storable (sp - TF_SIZE - 8 + 4)

theorem stackOk_iff {sp : Word} : stackOk sp = true ↔
    (List.range 38).all (fun i => storable (wordAddr (sp - TF_SIZE) i)) = true ∧
      storable (sp - TF_SIZE - 8) = true ∧ storable (sp - TF_SIZE - 8 + 4) = true := by
  simp only [stackOk, Bool.and_eq_true, and_assoc]

/-- User memory after the frame and the mask were pushed. -/
def pushed (m : Word → Word) (tf : Trapframe) (mask : Sigset) : Word → Word :=
  Function.update (Function.update (writeWords m (tf.regs 29 - TF_SIZE) tf.word 38)
    (tf.regs 29 - TF_SIZE - 8) mask.sig0) (tf.regs 29 - TF_SIZE - 8 + 4) mask.sig1

private theorem wordAddr_toNat (a : Word) (i : Nat) : (wordAddr a i).toNat = (a.toNat + 4 * i) % 2 ^ 32 := by
  rw [wordAddr, BitVec.toNat_add, BitVec.toNat_ofNat, Nat.add_mod_mod]

private theorem frame_toNat (sp : Word) : (sp - TF_SIZE).toNat = (2 ^ 32 - 152 + sp.toNat) % 2 ^ 32 := by
  have hsize : TF_SIZE.toNat = 152 := by decide
  rw [BitVec.toNat_sub, hsize]

private theorem mask_toNat (sp : Word) : (sp - TF_SIZE - 8).toNat = (2 ^ 32 - 160 + sp.toNat) % 2 ^ 32 := by
  have h8 : (8 : Word).toNat = 8 := by decide
  rw [BitVec.toNat_sub, frame_toNat, h8]
  omega

/-- Where the stack lies if everything can be pushed: nothing wraps. -/
theorem stack_bounds {sp : Word} (h : stackOk sp = true) :
    0x3FE000 + 160 ≤ sp.toNat ∧ sp.toNat ≤ 0x7F400000 ∧ sp.toNat % 4 = 0 := by
  obtain ⟨hframe, hmask, -⟩ := stackOk_iff.1 h
  have hlast := storable_iff.1 (List.all_eq_true.1 hframe 37 (List.mem_range.2 (by decide)))
  have hmask := storable_iff.1 hmask
  rw [mask_toNat] at hmask
  rw [wordAddr_toNat, frame_toNat] at hlast
  have hlt := sp.isLt
  omega

/-- The addresses of the frame, as numbers. -/
theorem frameAddr_toNat {sp : Word} (h : stackOk sp = true) {i : Nat} (hi : i < 38) :
    (wordAddr (sp - TF_SIZE) i).toNat = sp.toNat - 152 + 4 * i := by
  have hb := stack_bounds h
  rw [wordAddr_toNat, frame_toNat]
  omega

/-- The addresses of the two words of the mask, as numbers. -/
theorem maskAddr_toNat {sp : Word} (h : stackOk sp = true) :
    (sp - TF_SIZE - 8).toNat = sp.toNat - 160 ∧ (sp - TF_SIZE - 8 + 4).toNat = sp.toNat - 156 := by
  have hb := stack_bounds h
  have h4 : (4 : Word).toNat = 4 := by decide
  rw [BitVec.toNat_add, mask_toNat, h4]
  omega

/-- Nothing from the old stack pointer on is written. -/
theorem pushed_above {m : Word → Word} {tf : Trapframe} {mask : Sigset} (h : stackOk (tf.regs 29) = true) {a : Word}
    (ha : tf.regs 29 ≤ a) : pushed m tf mask a = m a := by
  have hle : (tf.regs 29).toNat ≤ a.toNat := ha
  have hb := (stack_bounds h).1
  obtain ⟨h0, h1⟩ := maskAddr_toNat h
  rw [pushed, Function.update_of_ne (fun he => by rw [he, h1] at hle; omega),
    Function.update_of_ne (fun he => by rw [he, h0] at hle; omega)]
  refine writeWords_of_ne fun i hi he => ?_
  rw [he, frameAddr_toNat h hi] at hle
  omega

/-- The frame can be read back. -/
theorem pushed_frame {m : Word → Word} {tf : Trapframe} {mask : Sigset} (h : stackOk (tf.regs 29) = true) {i : Nat}
    (hi : i < 38) : pushed m tf mask (wordAddr (tf.regs 29 - TF_SIZE) i) = tf.word i := by
  have hb := (stack_bounds h).1
  have ha := frameAddr_toNat h hi
  obtain ⟨h0, h1⟩ := maskAddr_toNat h
  rw [pushed, Function.update_of_ne (fun he => by rw [he, h1] at ha; omega),
    Function.update_of_ne (fun he => by rw [he, h0] at ha; omega)]
  exact writeWords_wordAddr (by decide) hi

/-- The mask can be read back. -/
theorem pushed_mask {m : Word → Word} {tf : Trapframe} {mask : Sigset} (h : stackOk (tf.regs 29) = true) :
    pushed m tf mask (tf.regs 29 - TF_SIZE - 8) = mask.sig0 ∧
      pushed m tf mask (tf.regs 29 - TF_SIZE - 8 + 4) = mask.sig1 := by
  have hb := (stack_bounds h).1
  obtain ⟨h0, h1⟩ := maskAddr_toNat h
  constructor
  · rw [pushed, Function.update_of_ne (fun he => by rw [he, h1] at h0; omega), Function.update_self]
  · rw [pushed, Function.update_self]

/-- The frame that `_do_signal` returns to. -/
def handlerTf (env : Env) (tf : Trapframe) (signo : Nat) : Trapframe :=
  let sp := tf.regs 29 - TF_SIZE
  { ((((tf.setReg 4 sp).setReg 7 (sp - 8)).setReg 5 (BitVec.ofNat 32 signo)).setReg 6
      (env.handler signo).saHandler).setReg 29 (sp - 8 - 16) with cp0Epc := env.doSignalEntry }

@[simp] theorem handlerTf_cp0Status (env : Env) (tf : Trapframe) (signo : Nat) :
    (handlerTf env tf signo).cp0Status = tf.cp0Status := rfl

/-- A signal is delivered if there is an entry for it and the stack takes what is pushed. -/
theorem pushSignal_eq (k : Kern) (c : EnvPtr) (tf : Trapframe) (signo : Nat) :
    k.pushSignal c tf signo = if (k.envs c).doSignalEntry ≠ 0 ∧ stackOk (tf.regs 29) then
      some ((k.setUmem (pushed k.umem tf (k.envs c).envSigprocmask)).setEnv c fun env =>
        { env with envSigprocmask := ((k.envs c).handler signo).saMask }, handlerTf (k.envs c) tf signo)
      else none := by
  unfold pushSignal
  dsimp only
  by_cases he : (k.envs c).doSignalEntry = 0
  · rw [if_pos he, if_neg (fun h => h.1 he)]
  · rw [if_neg he, ustoreWords_eq]
    by_cases hall : (List.range 38).all (fun i => storable (wordAddr (tf.regs 29 - TF_SIZE) i)) = true
    · rw [if_pos hall, Option.bind_some, ustoreSigset, ustore_eq]
      by_cases h0 : storable (tf.regs 29 - TF_SIZE - 8) = true
      · rw [if_pos h0, Option.bind_some, ustore_eq]
        by_cases h1 : storable (tf.regs 29 - TF_SIZE - 8 + 4) = true
        · rw [if_pos h1, if_pos ⟨he, stackOk_iff.2 ⟨hall, h0, h1⟩⟩]
          rfl
        · rw [if_neg h1, if_neg fun h => h1 (stackOk_iff.1 h.2).2.2]
          rfl
      · rw [if_neg h0, if_neg fun h => h0 (stackOk_iff.1 h.2).2.1]
        rfl
    · rw [if_neg hall, if_neg fun h => hall (stackOk_iff.1 h.2).1]
      rfl

end Kern

end Mos
