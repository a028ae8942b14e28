import Mos.Kern.Step

/-!
# What user code hands to the kernel

`SAVE_ALL` looks only at the sign of the stack pointer, and `sys_sigaction`, `sys_sigprocmask`, `sys_back_do_signal`
and `_do_signal` use a number and pointers without a check.  Where these lead to the memory of the kernel, the kernel
reads and writes it and goes on; the model has no step there.  `State.argsInUser` is the condition that they do not,
and every step of the model meets it (`State.argsInUser_of_step`).
-/

namespace Mos

/-- An address that the kernel can load a word from on behalf of the current environment. -/
def readable (a : Word) : Bool := a.toNat % 4 = 0 ∧ UTEMP ≤ a ∧ a < ULIM

/-- A pointer to `n` words that may be `NULL`. -/
def nullOr (ok : Word → Bool) (a : Word) (n : Nat) : Bool := a = 0 || (List.range n).all fun i => ok (wordAddr a i)

namespace Kern

/-- The arguments that the call uses as they come lead to user memory, and into the table of handlers. -/
def callArgsInUser (k : Kern) (cur : EnvPtr) : Call → Bool
  | .sigaction signo act oldact =>
    1 ≤ signo.toNat && signo.toNat ≤ 64 && nullOr readable act 3 && nullOr storable oldact 3
  | .sigprocmask how set oldset =>
    -- an unknown `how` returns early
    nullOr readable set 2 && ((set ≠ 0 && how ≠ SIG_BLOCK && how ≠ SIG_UNBLOCK && how ≠ SIG_SETMASK) ||
      nullOr storable oldset 2)
  | .backDoSignal envid tf originMask =>
    -- the mask is read only after the frame was accepted
    !((k.sysSetTrapframe cur envid tf).any fun r => r.2.any fun v => !v.slt 0) ||
      (readable originMask && readable (originMask + 4))
  | _ => true

/-- `do_syscall` finds the last two arguments in user memory. -/
def stackArgs (k : Kern) : Bool :=
  MAX_SYSNO ≤ (k.ktf.regs 4).toNat || (readable (k.ktf.regs 29 + 16) && readable (k.ktf.regs 29 + 20))

/-- What `_do_signal` pushes on the stack of the frame `tf` goes to user memory. -/
def pushInUser (k : Kern) (c : EnvPtr) (tf : Trapframe) : Bool :=
  (scan c (MAX_SIG_NUM + 1) k none (k.envs c).signoHeader).all fun s => s.found.isNone || stackOk (tf.regs 29)

end Kern

/-- The step leads the kernel to no memory of its own: by the stack pointer of user code, by the unchecked arguments of
the calls for signals, or by the stack that a signal is pushed to. -/
def State.argsInUser (s : State) : Event → Bool
  | .trap u _ => s.kern.curenv.isNone || !(u.regs 29).msb
  | .handle => match s.phase with
    | .entered (.syscall _) => s.kern.stackArgs && s.kern.onCall Kern.callArgsInUser
    | _ => true
  | .ret => match s.phase with
    | .leaving returned => s.kern.curenv.all fun c => s.kern.pushInUser c (s.kern.retTf c returned)
    | _ => true
  | _ => true

/-! ### The model has no other steps -/

namespace Kern

variable {k k' : Kern} {cur : EnvPtr}

private theorem readable_of_uload {a v : Word} (h : k.uload a = some v) : readable a = true := by
  unfold uload at h
  split at h
  case isTrue ha => exact decide_eq_true ha
  case isFalse => cases h

private theorem storable_of_ustore {a v : Word} (h : k.ustore a v = some k') : storable a = true :=
  decide_eq_true (ustore_cases h).1

private theorem readable_of_uloadSigset {a : Word} {s : Sigset} (h : k.uloadSigset a = some s) :
    readable a = true ∧ readable (a + 4) = true := by
  obtain ⟨s0, h0, h⟩ := Option.bind_eq_some_iff.1 h
  obtain ⟨s1, h1, -⟩ := Option.map_eq_some_iff.1 h
  exact ⟨readable_of_uload h0, readable_of_uload h1⟩

private theorem storable_of_ustoreSigset {a : Word} {s : Sigset} (h : k.ustoreSigset a s = some k') :
    storable a = true ∧ storable (a + 4) = true := by
  obtain ⟨k₁, h₁, h⟩ := Option.bind_eq_some_iff.1 h
  exact ⟨storable_of_ustore h₁, storable_of_ustore h⟩

private theorem nullOr_null (ok : Word → Bool) (n : Nat) : nullOr ok 0 n = true := rfl

private theorem nullOr_two {ok : Word → Bool} {a : Word} (h : ok a = true ∧ ok (a + 4) = true) : nullOr ok a 2 = true := by
  refine Bool.or_eq_true_iff.2 (.inr (List.all_eq_true.2 fun i hi => ?_))
  obtain rfl | rfl : i = 0 ∨ i = 1 := by
    rw [List.mem_range] at hi
    omega
  · rw [wordAddr, BitVec.add_zero]
    exact h.1
  · exact h.2

private theorem nullOr_three {ok : Word → Bool} {a : Word} (h : ok a = true)
    (h' : ok (a + 4) = true ∧ ok (a + 4 + 4) = true) :
    nullOr ok a 3 = true := by
  refine Bool.or_eq_true_iff.2 (.inr (List.all_eq_true.2 fun i hi => ?_))
  obtain rfl | rfl | rfl : i = 0 ∨ i = 1 ∨ i = 2 := by
    rw [List.mem_range] at hi
    omega
  · rw [wordAddr, BitVec.add_zero]
    exact h
  · exact h'.1
  · rw [wordAddr, show BitVec.ofNat 32 (4 * 2) = (4 : Word) + 4 by decide, ← BitVec.add_assoc]
    exact h'.2

theorem callArgsInUser_of_call {junk : Word} {c : Call} {r : Ret} (h : k.call cur junk c = some r) :
    k.callArgsInUser cur c = true := by
  cases c with
  | sigaction signo act oldact =>
    have h : k.sysSigaction cur signo act oldact junk = some r := h
    unfold sysSigaction at h
    split at h
    case isFalse => cases h
    case isTrue hsigno =>
      obtain ⟨k₁, hact, h⟩ := Option.bind_eq_some_iff.1 h
      have hread : nullOr readable act 3 = true := by
        split at hact
        case isTrue hnull => exact hnull ▸ nullOr_null readable 3
        case isFalse =>
          obtain ⟨handler, hh, hact⟩ := Option.bind_eq_some_iff.1 hact
          obtain ⟨mask, hm, -⟩ := Option.map_eq_some_iff.1 hact
          exact nullOr_three (readable_of_uload hh) (readable_of_uloadSigset hm)
      have hwrite : nullOr storable oldact 3 = true := by
        split at h
        case isTrue hnull => exact hnull ▸ nullOr_null storable 3
        case isFalse =>
          obtain ⟨k₂, hh, h⟩ := Option.bind_eq_some_iff.1 h
          obtain ⟨k₃, hm, -⟩ := Option.map_eq_some_iff.1 h
          exact nullOr_three (storable_of_ustore hh) (storable_of_ustoreSigset hm)
      rw [callArgsInUser, hread, hwrite, decide_eq_true hsigno.1, decide_eq_true hsigno.2]
      rfl
  | sigprocmask how set oldset =>
    have h : k.sysSigprocmask cur how set oldset junk = some r := h
    have hold : ∀ {k₁ : Kern} {feedback : Sigset}, (if oldset = 0 then some (k₁, some junk) else
        (k₁.ustoreSigset oldset feedback).map fun k => (k, some junk)) = some r → nullOr storable oldset 2 = true := by
      intro k₁ feedback h
      split at h
      case isTrue hnull => exact hnull ▸ nullOr_null storable 2
      case isFalse =>
        obtain ⟨k₂, hm, -⟩ := Option.map_eq_some_iff.1 h
        exact nullOr_two (storable_of_ustoreSigset hm)
    unfold sysSigprocmask at h
    dsimp only at h
    split at h
    case isTrue hnull =>
      rw [callArgsInUser, hold h, hnull, nullOr_null, Bool.or_true, Bool.and_true]
    case isFalse hset =>
      obtain ⟨s, hs, h⟩ := Option.bind_eq_some_iff.1 h
      have hread : nullOr readable set 2 = true := nullOr_two (readable_of_uloadSigset hs)
      split at h
      case h_1 hnone =>
        have hhow : how ≠ SIG_BLOCK ∧ how ≠ SIG_UNBLOCK ∧ how ≠ SIG_SETMASK := by
          unfold newMask at hnone
          refine ⟨?_, ?_, ?_⟩
          all_goals
            rintro rfl
            simp [SIG_BLOCK, SIG_UNBLOCK, SIG_SETMASK] at hnone
        rw [callArgsInUser, hread, decide_eq_true hset, decide_eq_true hhow.1, decide_eq_true hhow.2.1,
          decide_eq_true hhow.2.2]
        rfl
      case h_2 => rw [callArgsInUser, hread, hold h, Bool.or_true, Bool.and_true]
  | backDoSignal envid tf originMask =>
    have h : k.sysBackDoSignal cur envid tf originMask = some r := h
    unfold sysBackDoSignal at h
    split at h
    case isTrue => cases h
    case isFalse =>
      obtain ⟨⟨k₁, v⟩, hset, h⟩ := Option.bind_eq_some_iff.1 h
      cases v with
      | none =>
        rw [callArgsInUser, hset]
        rfl
      | some v =>
        dsimp only at h
        split at h
        case isTrue hneg =>
          rw [callArgsInUser, hset, Option.any_some, Option.any_some, hneg]
          rfl
        case isFalse =>
          obtain ⟨mask, hm, -⟩ := Option.map_eq_some_iff.1 h
          obtain ⟨h0, h1⟩ := readable_of_uloadSigset hm
          rw [callArgsInUser, h0, h1, Bool.and_true, Bool.or_true]
  | _ => rfl

theorem stackArgs_of_decode {c : Call} (h : k.decode k.ktf = some c) : k.stackArgs = true := by
  obtain ⟨a₄, h₄, h⟩ := Option.bind_eq_some_iff.1 h
  obtain ⟨a₅, h₅, -⟩ := Option.bind_eq_some_iff.1 h
  rw [stackArgs, readable_of_uload h₄, readable_of_uload h₅, Bool.and_true, Bool.or_true]

private theorem pushInUser_of_doSignal {c : EnvPtr} {tf tf' : Trapframe} (h : k.doSignal c tf = some (k', tf')) :
    k.pushInUser c tf = true := by
  obtain ⟨s, hs, h⟩ := Option.bind_eq_some_iff.1 h
  rw [pushInUser, hs, Option.all_some]
  split at h
  case h_1 hnone => simp [hnone]
  case h_2 signo hsome =>
    unfold pushSignal at h
    dsimp only at h
    split at h
    case isTrue => cases h
    case isFalse =>
      obtain ⟨k₁, h₁, h⟩ := Option.bind_eq_some_iff.1 h
      obtain ⟨k₂, h₂, -⟩ := Option.map_eq_some_iff.1 h
      rw [ustoreWords_eq] at h₁
      split at h₁
      case isFalse => cases h₁
      case isTrue hframe =>
        obtain ⟨h0, h1⟩ := storable_of_ustoreSigset h₂
        have hstack : stackOk (tf.regs 29) = true := stackOk_iff.2 ⟨hframe, h0, h1⟩
        rw [hstack, Bool.or_true]

end Kern

/-- Every step of the model uses user memory only. -/
theorem State.argsInUser_of_step {s s' : State} {ev : Event} (h : s.step ev = some s') : s.argsInUser ev = true := by
  obtain ⟨phase, k⟩ := s
  cases phase with
  | user =>
    cases ev with
    | trap u x =>
      obtain ⟨k', hk, -⟩ := Option.map_eq_some_iff.1 h
      by_cases hc : k.curenv = none
      · simp [State.argsInUser, hc]
      · have hk : k.saveAll u = some k' := by
          cases x with
          | tick => rwa [Kern.save, if_neg hc] at hk
          | _ => exact hk
        simp [State.argsInUser, (Kern.saveAll_cases hk).1]
    | _ => rfl
  | entered x =>
    cases ev with
    | handle =>
      cases x with
      | syscall junk =>
        obtain ⟨⟨k', returned⟩, hk, -⟩ := Option.map_eq_some_iff.1 h
        obtain ⟨cur, hc, hk⟩ := Option.bind_eq_some_iff.1 hk
        unfold Kern.doSyscall at hk
        split at hk
        case isTrue hn => simp [State.argsInUser, Kern.stackArgs, Kern.onCall, hn, Kern.decode_none hn]
        case isFalse =>
          obtain ⟨c, hd, hk⟩ := Option.bind_eq_some_iff.1 hk
          obtain ⟨r, hr, -⟩ := Option.map_eq_some_iff.1 hk
          have hcall : k.onCall Kern.callArgsInUser = true :=
            (Kern.onCall_eq hc hd).trans (Kern.callArgsInUser_of_call hr)
          simp [State.argsInUser, Kern.stackArgs_of_decode hd, hcall]
      | _ => rfl
    | _ => first | rfl | cases h
  | leaving returned =>
    cases ev with
    | ret =>
      obtain ⟨k', hk, -⟩ := Option.map_eq_some_iff.1 h
      obtain ⟨c, hc, hk⟩ := Option.bind_eq_some_iff.1 hk
      obtain ⟨⟨k₁, tf⟩, hd, -⟩ := Option.map_eq_some_iff.1 hk
      have hc : k.curenv = some c := hc
      show (k.curenv.all fun c => k.pushInUser c (k.retTf c returned)) = true
      rw [hc, Option.all_some]
      exact Kern.pushInUser_of_doSignal hd
    | _ => first | rfl | cases h

end Mos
