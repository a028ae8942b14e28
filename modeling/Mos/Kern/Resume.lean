import Mos.Kern.Args

/-!
# How the caller of a system call goes on (`do_syscall`)

The context with which the caller resumes is the frame below `KSTACKTOP` where `do_syscall` returns, and its `env_tf`
where the call left through `schedule`.  `sys_sigaction` and `sys_sigprocmask` check no pointer: the old value that they
return may go to that very frame.  Other memory of the kernel is not modelled, nor is an old value that lies partly over
the frame (`FrameArgs`).
-/

namespace Mos

def KSTACKTOP : Word := 0x80400000

/-- The words of the frame below `KSTACKTOP` that an object of `n` words at `a` takes: the index of the first one.  An
object that lies partly over the frame is left out, like one elsewhere in the memory of the kernel. -/
def frameIndex (a : Word) (n : Nat) : Option Nat :=
  if a.toNat % 4 = 0 ∧ (KSTACKTOP - TF_SIZE).toNat ≤ a.toNat ∧ a.toNat + 4 * n ≤ KSTACKTOP.toNat then
    some ((a.toNat - (KSTACKTOP - TF_SIZE).toNat) / 4)
  else none

namespace Trapframe

/-- The frame after a store of the words `ws` from index `i` on. -/
def storeWords (tf : Trapframe) (i : Nat) (ws : List Word) : Trapframe :=
  ofWords fun j => if h : i ≤ j ∧ j - i < ws.length then ws[j - i] else tf.word j

/-- The context one instruction further with the result `v`. -/
def after (tf : Trapframe) (v : Word) : Trapframe := { tf with cp0Epc := tf.cp0Epc + 4 }.setReg 2 v

end Trapframe

namespace Kern

/-- A call that returns an old value to the frame below `KSTACKTOP`: the call without this, the index of the first word
and the words. -/
def oldToFrame (k : Kern) (cur : EnvPtr) : Call → Option (Call × Nat × List Word)
  | .sigaction signo act oldact =>
    let feedback := (k.envs cur).handler signo.toNat
    (frameIndex oldact 3).map fun i =>
      (.sigaction signo act 0, i, [feedback.saHandler, feedback.saMask.sig0, feedback.saMask.sig1])
  | .sigprocmask how set oldset =>
    let feedback := (k.envs cur).envSigprocmask
    -- an unknown `how` returns early
    if set ≠ 0 ∧ how ≠ SIG_BLOCK ∧ how ≠ SIG_UNBLOCK ∧ how ≠ SIG_SETMASK then none
    else (frameIndex oldset 2).map fun i => (.sigprocmask how set 0, i, [feedback.sig0, feedback.sig1])
  | _ => none

/-- `call`, and the store of an old value to the frame below `KSTACKTOP`. -/
def callFrame (k : Kern) (cur : EnvPtr) (junk : Word) (c : Call) : Option Ret :=
  match k.oldToFrame cur c with
  | some (c₀, i, ws) => (k.call cur junk c₀).map fun (k, r) => (k.setKtf (k.ktf.storeWords i ws), r)
  | none => k.call cur junk c

/-- `do_syscall` with these stores. -/
def doSyscallFrame (k : Kern) (cur : EnvPtr) (junk : Word) : Option (Kern × Bool) :=
  if MAX_SYSNO ≤ (k.ktf.regs 4).toNat then
    some (k.setKtf (k.ktf.setReg 2 (-E_NO_SYS)), true)
  else
    (k.decode k.ktf).bind fun c =>
      ((k.setKtf { k.ktf with cp0Epc := k.ktf.cp0Epc + 4 }).callFrame cur junk c).map fun
        | (k, some r) => (k.setKtf (k.ktf.setReg 2 r), true)
        | (k, none) => (k, false)

private theorem callFrame_none {k : Kern} {cur : EnvPtr} {junk : Word} {c : Call} (h : k.oldToFrame cur c = none) :
    k.callFrame cur junk c = k.call cur junk c := by
  unfold callFrame
  rw [h]

theorem doSyscallFrame_eq {k : Kern} {cur : EnvPtr} {junk : Word}
    (h : ∀ c, k.decode k.ktf = some c → k.skipInsn.oldToFrame cur c = none) :
    k.doSyscallFrame cur junk = k.doSyscall cur junk := by
  unfold doSyscallFrame doSyscall
  split
  · rfl
  · cases hd : k.decode k.ktf with
    | none => rfl
    | some c =>
      have hold : (k.setKtf { k.ktf with cp0Epc := k.ktf.cp0Epc + 4 }).oldToFrame cur c = none := h c hd
      rw [Option.bind_some, Option.bind_some]
      exact congrArg (Option.map _) (callFrame_none hold)

/-! ### What is to happen -/

/-- The frame that `sys_set_trapframe` or `sys_back_do_signal` gives to the caller itself. -/
def givenFrame (k : Kern) (cur : EnvPtr) : Call → Option Trapframe
  | .setTrapframe envid tf | .backDoSignal envid tf _ =>
    if isIllegalVaRange tf TF_SIZE = false ∧ k.envid2env cur envid true = some cur then k.uloadTf tf else none
  | _ => none

/-- The caller destroys itself. -/
def endsItself (k : Kern) (cur : EnvPtr) : Call → Bool
  | .envDestroy envid => k.envid2env cur envid true = some cur
  | _ => false

/-- What a call returns.  `sys_ipc_recv` returns 0 when the message is there, and `sys_yield` returns nothing. -/
def result (k : Kern) (cur : EnvPtr) (junk : Word) (c : Call) : Option Word :=
  match (k.callFrame cur junk c).bind (·.2), c with
  | some r, _ => some r
  | none, .ipcRecv _ => some 0
  | none, _ => none

/-- The caller resumes behind the `syscall` instruction with the result in `$v0` and all else as it was, or with the frame
that it gives. -/
def Resumes (k : Kern) (cur : EnvPtr) (junk : Word) (k' : Kern) (returned : Bool) : Prop :=
  if MAX_SYSNO ≤ (k.ktf.regs 4).toNat then returned = true ∧ k'.ktf = k.ktf.after (-E_NO_SYS)
  else ∃ c, k.decode k.ktf = some c ∧
    match k.skipInsn.givenFrame cur c with
    | some frame => returned = true ∧ k'.ktf = frame
    | none =>
      if k.skipInsn.endsItself cur c then returned = false ∧ (k'.envs cur).envStatus = .FREE
      else ∃ v, (∀ r, k.skipInsn.result cur junk c = some r → v = r) ∧ k'.retTf cur returned = k.ktf.after v

/-- An old value that goes to the frame below `KSTACKTOP` is what is there already, `$v0` apart. -/
def OldKept (k : Kern) (cur : EnvPtr) : Prop :=
  ∀ c c₀ i ws, k.decode k.ktf = some c → k.skipInsn.oldToFrame cur c = some (c₀, i, ws) →
    ∀ (j : Nat) (h : j < ws.length), i + j ≠ 2 → k.skipInsn.ktf.word (i + j) = ws[j]

/-- The arguments of the call lead to user memory and into the table of handlers, apart from the pointer for an old value
that goes to the frame. -/
def FrameArgs (k : Kern) (cur : EnvPtr) : Prop :=
  k.stackArgs ∧ ∀ c, k.decode k.ktf = some c →
    k.skipInsn.callArgsInUser cur ((k.skipInsn.oldToFrame cur c).elim c (·.1))

end Kern

/-! ### Frames -/

namespace Trapframe

variable {tf tf' : Trapframe} {v : Word}

private theorem setReg_self (tf : Trapframe) (i : Fin 32) : tf.setReg i (tf.regs i) = tf := by simp [setReg]

private theorem word_setReg_of_ne {j : Nat} (h : j ≠ 2) : (tf.setReg 2 v).word j = tf.word j := by
  by_cases hj : j < 32
  · have hne : (⟨j, hj⟩ : Fin 32) ≠ 2 := fun heq => h (congrArg Fin.val heq)
    simp [word, setReg, hj, hne]
  · simp [word, setReg, hj]

private theorem word_ofWords {w : Nat → Word} {j : Nat} (h : j < 38) : (ofWords w).word j = w j := by
  unfold word ofWords
  split
  · rfl
  · obtain rfl | rfl | rfl | rfl | rfl | rfl : j = 32 ∨ j = 33 ∨ j = 34 ∨ j = 35 ∨ j = 36 ∨ j = 37 := by omega
    all_goals rfl

private theorem ext_word (h : ∀ j < 38, tf.word j = tf'.word j) : tf = tf' := by
  rw [← ofWords_word h]
  exact (ofWords_word fun _ _ => rfl).symm

/-- The same context up to `$v0`. -/
private theorem setReg_eq_iff : tf.setReg 2 v = tf'.setReg 2 v ↔ ∀ j < 38, j ≠ 2 → tf.word j = tf'.word j := by
  constructor
  · intro h j hj hne
    rw [← word_setReg_of_ne (v := v) hne, h, word_setReg_of_ne hne]
  · intro h
    refine ext_word fun j hj => ?_
    by_cases hne : j = 2
    · subst hne
      simp [word, setReg]
    · rw [word_setReg_of_ne hne, word_setReg_of_ne hne, h j hj hne]

end Trapframe

namespace Kern

variable {k k' : Kern} {cur : EnvPtr} {junk : Word} {c : Call} {r : Word}

/-! ### Calls that return -/

/-- The calls that take a frame apart, none touches the one below `KSTACKTOP`. -/
private theorem CallStep.ktf (h : CallStep k cur c k' (some r)) (hset : ∀ envid tf, c ≠ .setTrapframe envid tf)
    (hback : ∀ envid tf mask, c ≠ .backDoSignal envid tf mask) : k'.ktf = k.ktf := by
  generalize hr : some r = r' at h
  cases h with
  | envDestroy _ h =>
    obtain ⟨_, h₁, ⟨-, rfl, -⟩ | ⟨-, -, rfl⟩⟩ := envDestroy_cases h
    · cases hr
    · obtain ⟨_, _, _, -, -, -, rfl⟩ := envFree_cases h₁
      rfl
  | yield => cases hr
  | ipcRecv => cases hr
  | memAlloc _ _ _ hi =>
    obtain ⟨_, _, _, _, rfl⟩ := pageInsertEnv_cases hi
    rfl
  | memMap _ _ _ _ _ hi =>
    obtain ⟨_, _, _, _, rfl⟩ := pageInsertEnv_cases hi
    rfl
  | exofork h =>
    obtain ⟨_, _, _, _, _, _, _, _, rfl⟩ := envAlloc_cases h
    rfl
  | setEnvStatus _ _ h =>
    obtain ⟨q, -, rfl⟩ := Option.map_eq_some_iff.1 h
    rfl
  | ipcPage _ _ _ _ _ _ hi =>
    obtain ⟨_, _, _, _, rfl⟩ := pageInsertEnv_cases hi
    rfl
  | kill _ hn =>
    obtain ⟨-, rfl⟩ := signoAlloc_cases hn
    rfl
  | setTrapframe => exact absurd rfl (hset _ _)
  | backDoSignal => exact absurd rfl (hback _ _ _)
  | _ => rfl

/-- The caller's frame is the given one, and its `$v0` is the result; or it is not touched. -/
private theorem sysSetTrapframe_ktf {envid tf : Word} (h : k.sysSetTrapframe cur envid tf = some (k', some r)) :
    (∀ frame, k.givenFrame cur (.setTrapframe envid tf) = some frame → k'.ktf = frame ∧ r = frame.regs 2) ∧
      (k.givenFrame cur (.setTrapframe envid tf) = none → k'.ktf = k.ktf) := by
  unfold sysSetTrapframe at h
  unfold givenFrame
  cases hva : isIllegalVaRange tf TF_SIZE with
  | true =>
    rw [hva, if_pos rfl] at h
    cases h
    simp [hva]
  | false =>
    rw [hva, if_neg (by decide)] at h
    cases he : k.envid2env cur envid true with
    | none =>
      rw [he] at h
      cases h
      simp [he]
    | some e =>
      rw [he] at h
      obtain ⟨frame, hf, h⟩ := Option.map_eq_some_iff.1 h
      by_cases hc : e = cur
      · rw [if_pos hc] at h
        cases h
        simp [hva, he, hc, hf]
      · rw [if_neg hc] at h
        cases h
        simp [he, hc]

private theorem sysBackDoSignal_ktf {envid tf mask : Word} (h : k.sysBackDoSignal cur envid tf mask = some (k', some r)) :
    (∀ frame, k.givenFrame cur (.backDoSignal envid tf mask) = some frame → k'.ktf = frame ∧ r = frame.regs 2) ∧
      (k.givenFrame cur (.backDoSignal envid tf mask) = none → k'.ktf = k.ktf) := by
  unfold sysBackDoSignal at h
  split at h
  case isTrue => cases h
  case isFalse =>
    obtain ⟨⟨k₁, r₁⟩, h₁, h⟩ := Option.bind_eq_some_iff.1 h
    obtain ⟨v, rfl, -⟩ := sysSetTrapframe_cases h₁
    have hset := sysSetTrapframe_ktf h₁
    dsimp only at h
    split at h
    · cases h
      exact hset
    · obtain ⟨m, -, h⟩ := Option.map_eq_some_iff.1 h
      cases h
      exact hset

/-- What a call that returns does to the caller's frame. -/
private theorem call_ktf (h : k.call cur junk c = some (k', some r)) :
    (∀ frame, k.givenFrame cur c = some frame → k'.ktf = frame ∧ r = frame.regs 2) ∧
      (k.givenFrame cur c = none → k'.ktf = k.ktf) := by
  cases c with
  | setTrapframe => exact sysSetTrapframe_ktf h
  | backDoSignal => exact sysBackDoSignal_ktf h
  | _ => exact ⟨nofun, fun _ => (call_step h).ktf (by simp) (by simp)⟩

/-! ### Calls that leave through `schedule` -/

/-- `env_run` saves the frame of the environment that ran. -/
private theorem schedule_saved {yield : Bool} (hc : k.curenv = some cur) (h : k.schedule yield = some k') :
    (k'.envs cur).envTf = k.ktf := by
  obtain ⟨q, n, e, -, rfl, -⟩ := schedule_cases h
  have hsaved : (((k.setSched q).setCount n).saveTf.envs cur).envTf = k.ktf := by
    simp [saveTf, hc]
  exact (setEnv_field Env.envTf rfl cur).trans hsaved

/-- After its own destruction an environment is free. -/
private theorem envDestroy_self (h : k.envDestroy cur = some (k', true)) : (k'.envs cur).envStatus = .FREE := by
  obtain ⟨k₁, h₁, ⟨-, -, h₂⟩ | ⟨-, hl, -⟩⟩ := envDestroy_cases h
  · obtain ⟨pgdir, pm, q, -, -, -, rfl⟩ := envFree_cases h₁
    obtain ⟨q', n, e, -, rfl, -⟩ := schedule_cases h₂
    rw [running_field (fun env => env.envStatus) (fun _ _ => rfl) (fun _ _ => rfl)]
    simp [freed]
  · cases hl

/-- What a call that does not return leaves of the caller. -/
private theorem call_left (hc : k.curenv = some cur) (h : k.call cur junk c = some (k', none)) :
    k.givenFrame cur c = none ∧
      ((k.endsItself cur c ∧ (k'.envs cur).envStatus = .FREE) ∨
        (k.endsItself cur c = false ∧ ((c = .yield ∧ (k'.envs cur).envTf = k.ktf) ∨
          ∃ dstva, c = .ipcRecv dstva ∧ (k'.envs cur).envTf = k.ktf.setReg 2 0))) := by
  have hs := call_step h
  generalize hr : (none : Option Word) = r' at hs
  cases hs with
  | unchanged => cases hr
  | yield hs => exact ⟨rfl, .inr ⟨rfl, .inl ⟨rfl, schedule_saved hc hs⟩⟩⟩
  | @envDestroy envid e k' left he hs =>
    cases left with
    | false => cases hr
    | true =>
      obtain ⟨-, -, ⟨hcur, -⟩ | ⟨-, hl, -⟩⟩ := envDestroy_cases hs
      · obtain rfl : cur = e := Option.some.inj (hc.symm.trans hcur)
        exact ⟨rfl, .inl ⟨by simp [endsItself, he], envDestroy_self hs⟩⟩
      · cases hl
  | @ipcRecv dstva k' hva hs =>
    refine ⟨rfl, .inr ⟨rfl, .inr ⟨dstva, rfl, ?_⟩⟩⟩
    exact schedule_saved (k := k.ipcWait cur dstva) hc hs
  | _ => cases hr

/-- A caller that ends itself does not return. -/
private theorem call_endsItself (hc : k.curenv = some cur) (h : k.call cur junk c = some (k', some r)) :
    k.endsItself cur c = false := by
  cases c with
  | envDestroy envid =>
    by_contra hend
    have he : k.envid2env cur envid true = some cur := by simpa [endsItself] using hend
    have hd : k.envDestroy cur = some (k', false) ∧ 0 = r := by simpa [call, sysEnvDestroy, he] using h
    obtain ⟨-, -, ⟨-, hl, -⟩ | ⟨hne, -, -⟩⟩ := envDestroy_cases hd.1
    · cases hl
    · exact hne hc
  | _ => rfl

/-! ### An old value in the frame -/

private theorem frameIndex_le {a : Word} {n i : Nat} (h : frameIndex a n = some i) : i + n ≤ 38 := by
  unfold frameIndex at h
  split at h
  case isTrue ha =>
    have hlow : (KSTACKTOP - TF_SIZE).toNat = 0x803FFF68 := by decide
    have hhigh : KSTACKTOP.toNat = 0x80400000 := by decide
    have := Option.some.inj h
    omega
  case isFalse => cases h

variable {c₀ : Call} {i : Nat} {ws : List Word} {v : Option Word}

/-- Only these two calls return an old value. -/
private theorem oldToFrame_cases (h : k.oldToFrame cur c = some (c₀, i, ws)) : i + ws.length ≤ 38 ∧
    ((∃ signo act oldact, c = .sigaction signo act oldact ∧ c₀ = .sigaction signo act 0) ∨
      ∃ how set oldset, c = .sigprocmask how set oldset ∧ c₀ = .sigprocmask how set 0) := by
  cases c with
  | sigaction signo act oldact =>
    obtain ⟨j, hj, h⟩ := Option.map_eq_some_iff.1 h
    cases h
    exact ⟨frameIndex_le hj, .inl ⟨_, _, _, rfl, rfl⟩⟩
  | sigprocmask how set oldset =>
    unfold oldToFrame at h
    dsimp only at h
    split at h
    · cases h
    · obtain ⟨j, hj, h⟩ := Option.map_eq_some_iff.1 h
      cases h
      exact ⟨frameIndex_le hj, .inr ⟨_, _, _, rfl, rfl⟩⟩
  | _ => cases h

/-- The two calls return, and touch no frame. -/
private theorem oldToFrame_call (h : k.oldToFrame cur c = some (c₀, i, ws)) (hcall : k.call cur junk c₀ = some (k', v)) :
    (∃ r, v = some r) ∧ k'.ktf = k.ktf := by
  have hreturns : ∃ r, v = some r := by
    obtain ⟨-, ⟨signo, act, oldact, -, rfl⟩ | ⟨how, set, oldset, -, rfl⟩⟩ := oldToFrame_cases h
    · generalize hc₀ : Call.sigaction signo act 0 = c₀ at hcall
      cases call_step hcall <;> first | exact ⟨_, rfl⟩ | cases hc₀
    · generalize hc₀ : Call.sigprocmask how set 0 = c₀ at hcall
      cases call_step hcall <;> first | exact ⟨_, rfl⟩ | cases hc₀
  obtain ⟨r, rfl⟩ := hreturns
  refine ⟨⟨r, rfl⟩, (call_ktf hcall).2 ?_⟩
  obtain ⟨-, ⟨_, _, _, -, rfl⟩ | ⟨_, _, _, -, rfl⟩⟩ := oldToFrame_cases h
  · rfl
  · rfl

/-- The store leaves the frame as it is, `$v0` apart, exactly where the words are there already. -/
private theorem storeWords_eq_iff {tf : Trapframe} {i : Nat} {ws : List Word} {v : Word} (h : i + ws.length ≤ 38) :
    (tf.storeWords i ws).setReg 2 v = tf.setReg 2 v ↔
      ∀ (j : Nat) (h : j < ws.length), i + j ≠ 2 → tf.word (i + j) = ws[j] := by
  rw [Trapframe.setReg_eq_iff]
  constructor
  · intro heq j hj hne
    have := heq (i + j) (by omega) hne
    rw [Trapframe.storeWords, Trapframe.word_ofWords (by omega), dif_pos ⟨by omega, by omega⟩] at this
    simpa using this.symm
  · intro hold j hj hne
    rw [Trapframe.storeWords, Trapframe.word_ofWords hj]
    split
    case isTrue hin =>
      have := hold (j - i) hin.2 (by omega)
      rw [← this, show i + (j - i) = j by omega]
    case isFalse => rfl

/-! ### `do_syscall` -/

/-- What `do_syscall` comes to, with the call and what it returned. -/
private theorem doSyscallFrame_cases {returned : Bool} (h : k.doSyscallFrame cur junk = some (k', returned)) :
    (MAX_SYSNO ≤ (k.ktf.regs 4).toNat ∧ returned = true ∧ k' = k.setV0 (-E_NO_SYS)) ∨
      ((k.ktf.regs 4).toNat < MAX_SYSNO ∧ ∃ c k₁ r, k.decode k.ktf = some c ∧
        k.skipInsn.callFrame cur junk c = some (k₁, r) ∧
        ((∃ v, r = some v ∧ returned = true ∧ k' = k₁.setV0 v) ∨ (r = none ∧ returned = false ∧ k' = k₁))) := by
  unfold doSyscallFrame at h
  split at h
  case isTrue hn =>
    cases h
    exact .inl ⟨hn, rfl, rfl⟩
  case isFalse hn =>
    obtain ⟨c, hd, h⟩ := Option.bind_eq_some_iff.1 h
    obtain ⟨⟨k₁, r⟩, h₁, h⟩ := Option.map_eq_some_iff.1 h
    refine .inr ⟨by omega, c, k₁, r, hd, h₁, ?_⟩
    cases r with
    | some v =>
      cases h
      exact .inl ⟨v, rfl, rfl, rfl⟩
    | none =>
      cases h
      exact .inr ⟨rfl, rfl, rfl⟩

private theorem result_of_returns (h : k.callFrame cur junk c = some (k', some r)) : k.result cur junk c = some r := by
  simp [result, h]

/-- A call that returns no old value to the frame. -/
private theorem resumes_plain {returned : Bool} {k₁ : Kern} {r : Option Word} (hc : k.curenv = some cur)
    (hn : (k.ktf.regs 4).toNat < MAX_SYSNO) (hd : k.decode k.ktf = some c)
    (hold : k.skipInsn.oldToFrame cur c = none) (h₁ : k.skipInsn.callFrame cur junk c = some (k₁, r))
    (hr : (∃ v, r = some v ∧ returned = true ∧ k' = k₁.setV0 v) ∨ (r = none ∧ returned = false ∧ k' = k₁)) :
    Resumes k cur junk k' returned := by
  have hcall : k.skipInsn.call cur junk c = some (k₁, r) := by
    rw [← h₁, callFrame, hold]
  rw [Resumes, if_neg (by omega)]
  refine ⟨c, hd, ?_⟩
  obtain ⟨v, rfl, rfl, rfl⟩ | ⟨rfl, rfl, rfl⟩ := hr
  · obtain ⟨hgiven, hktf⟩ := call_ktf hcall
    split
    next frame hf =>
      obtain ⟨hframe, rfl⟩ := hgiven frame hf
      refine ⟨rfl, ?_⟩
      rw [← hframe]
      exact Trapframe.setReg_self k₁.ktf 2
    next hf =>
      rw [if_neg (by rw [call_endsItself (k := k.skipInsn) hc hcall]; decide)]
      refine ⟨v, fun r hr => ?_, ?_⟩
      · exact Option.some.inj ((result_of_returns h₁).symm.trans hr)
      · change k₁.ktf.setReg 2 v = _
        rw [hktf hf]
        rfl
  · obtain ⟨hf, ⟨hend, hfree⟩ | ⟨hend, hsaved⟩⟩ := call_left (k := k.skipInsn) hc hcall
    · rw [hf]
      dsimp only
      rw [if_pos hend]
      exact ⟨rfl, hfree⟩
    · rw [hf]
      dsimp only
      rw [if_neg (by rw [hend]; decide)]
      obtain ⟨rfl, hsaved⟩ | ⟨dstva, rfl, hsaved⟩ := hsaved
      · refine ⟨k.ktf.regs 2, by simp [result, h₁], hsaved.trans ?_⟩
        exact (Trapframe.setReg_self k.skipInsn.ktf 2).symm
      · exact ⟨0, by simp [result, h₁], hsaved⟩

/-- A call that returns an old value to the frame. -/
private theorem resumes_old_iff {returned : Bool} {k₁ : Kern} {r : Option Word}
    (hn : (k.ktf.regs 4).toNat < MAX_SYSNO) (hd : k.decode k.ktf = some c)
    (hold : k.skipInsn.oldToFrame cur c = some (c₀, i, ws)) (h₁ : k.skipInsn.callFrame cur junk c = some (k₁, r))
    (hr : (∃ v, r = some v ∧ returned = true ∧ k' = k₁.setV0 v) ∨ (r = none ∧ returned = false ∧ k' = k₁)) :
    Resumes k cur junk k' returned ↔
      ∀ (j : Nat) (h : j < ws.length), i + j ≠ 2 → k.skipInsn.ktf.word (i + j) = ws[j] := by
  obtain ⟨hlen, hkind⟩ := oldToFrame_cases hold
  obtain ⟨⟨k₂, v⟩, hcall, heq⟩ := Option.map_eq_some_iff.1
    (show (k.skipInsn.call cur junk c₀).map _ = some (k₁, r) by rw [← h₁, callFrame, hold])
  cases heq
  obtain ⟨⟨v, rfl⟩, hktf⟩ := oldToFrame_call hold hcall
  obtain ⟨v', hv, rfl, rfl⟩ | ⟨hv, -⟩ := hr
  case inr => cases hv
  cases hv
  have hplain : k.skipInsn.givenFrame cur c = none ∧ k.skipInsn.endsItself cur c = false := by
    obtain ⟨_, _, _, rfl, -⟩ | ⟨_, _, _, rfl, -⟩ := hkind
    · exact ⟨rfl, rfl⟩
    · exact ⟨rfl, rfl⟩
  have hresult : k.skipInsn.result cur junk c = some v := result_of_returns h₁
  have hctx : Resumes k cur junk
      ((k₂.setKtf (k₂.ktf.storeWords i ws)).setV0 v) true ↔
      (k.skipInsn.ktf.storeWords i ws).setReg 2 v = k.skipInsn.ktf.setReg 2 v := by
    rw [Resumes, if_neg (by omega), ← hktf]
    constructor
    · rintro ⟨c', hd', h⟩
      obtain rfl : c = c' := Option.some.inj (hd.symm.trans hd')
      rw [hplain.1] at h
      dsimp only at h
      rw [if_neg (by rw [hplain.2]; decide)] at h
      obtain ⟨v', hv', h⟩ := h
      obtain rfl := hv' v hresult
      rw [hktf] at h ⊢
      exact h
    · intro h
      refine ⟨c, hd, ?_⟩
      rw [hplain.1]
      dsimp only
      rw [if_neg (by rw [hplain.2]; decide)]
      refine ⟨v, fun r hr => Option.some.inj (hresult.symm.trans hr), ?_⟩
      rw [hktf] at h
      change (k₂.ktf.storeWords i ws).setReg 2 v = _
      rw [hktf]
      exact h
  rw [hctx]
  exact storeWords_eq_iff hlen

/-- A known call that has a result was given such arguments. -/
private theorem frameArgs_of_callFrame {r : Ret} (hd : k.decode k.ktf = some c)
    (h : k.skipInsn.callFrame cur junk c = some r) : FrameArgs k cur := by
  refine ⟨stackArgs_of_decode hd, fun c' hd' => ?_⟩
  obtain rfl : c = c' := Option.some.inj (hd.symm.trans hd')
  unfold callFrame at h
  cases hold : k.skipInsn.oldToFrame cur c with
  | none =>
    rw [hold] at h
    exact callArgsInUser_of_call h
  | some old =>
    rw [hold] at h
    obtain ⟨r₀, hr₀, -⟩ := Option.map_eq_some_iff.1 h
    exact callArgsInUser_of_call hr₀

/-- The caller resumes as it should exactly where no old value changes its frame. -/
private theorem resumes_iff_oldKept {returned : Bool} (hc : k.curenv = some cur)
    (h : k.doSyscallFrame cur junk = some (k', returned)) :
    Resumes k cur junk k' returned ↔ (k.ktf.regs 4).toNat < MAX_SYSNO ∧ OldKept k cur := by
  obtain ⟨hn, rfl, rfl⟩ | ⟨hn, c, k₁, r, hd, h₁, hr⟩ := doSyscallFrame_cases h
  · refine iff_of_false ?_ fun h => absurd h.1 (by omega)
    rw [Resumes, if_pos hn]
    rintro ⟨-, heq⟩
    have hepc : k.ktf.cp0Epc = k.ktf.cp0Epc + 4 := congrArg Trapframe.cp0Epc heq
    have : (4 : Word) = 0 := by simpa using hepc.symm
    exact absurd this (by decide)
  · cases hold : k.skipInsn.oldToFrame cur c with
    | none =>
      refine iff_of_true (resumes_plain hc hn hd hold h₁ hr) ⟨hn, ?_⟩
      intro c' c₀ i ws hd' hold'
      obtain rfl : c = c' := Option.some.inj (hd.symm.trans hd')
      rw [hold] at hold'
      cases hold'
    | some old =>
      obtain ⟨c₀, i, ws⟩ := old
      rw [resumes_old_iff hn hd hold h₁ hr]
      constructor
      · intro hkept
        refine ⟨hn, ?_⟩
        intro c' c₀' i' ws' hd' hold'
        obtain rfl : c = c' := Option.some.inj (hd.symm.trans hd')
        rw [hold] at hold'
        cases hold'
        exact hkept
      · exact fun hkept => hkept.2 c c₀ i ws hd hold

/-- A kernel with the number `n` in `$a0` of the frame. -/
def asking (n a₃ : Word) : Kern where
  envs := fun _ => .zero
  curenv := some 0
  envFreeList := []
  sched := ⟨none, none, fun _ => none, fun _ => none⟩
  asidBitmap := fun _ => false
  basePgdir := 0
  pm := ⟨0, [], fun _ => 0, fun _ _ => 0, []⟩
  mkenvidI := 0
  count := 0
  signos := fun _ => ⟨0, none⟩
  signoFreeList := none
  ktf := ⟨fun i => if i = 4 then n else if i = 5 then 1 else if i = 7 then a₃ else if i = 29 then UTEXT else 0,
    0, 0, 0, 0, 0, UTEXT⟩
  cpu := .zero
  umem := fun _ => 0

end Kern

end Mos
