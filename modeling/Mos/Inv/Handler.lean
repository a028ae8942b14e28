import Mos.Inv.Delivery

/-!
# Coming back from a handler

A delivery pushes the frame and the mask on the user stack, and `sys_back_do_signal` puts them back.  The frame comes
back as it was, whatever it holds and however many signals are delivered in between; the mask does not when `$v0` of
the frame is negative, since `sys_back_do_signal` takes it for an error of `sys_set_trapframe`.
-/

namespace Mos

open Kern

/-- What can happen to memory while a handler runs, with its frame and mask in `[lo, hi)`: user code and the kernel do
not write there, and further signals are delivered on a stack that ends below. -/
inductive Undisturbed (c : EnvPtr) (lo hi : Word) (k : Kern) : Kern → Prop
  | refl : Undisturbed c lo hi k k
  | other {k₁ k₂ : Kern} (h : Undisturbed c lo hi k k₁) (hm : ∀ a, lo ≤ a → a < hi → k₂.umem a = k₁.umem a) :
      Undisturbed c lo hi k k₂
  | deliver {k₁ k₂ : Kern} {tf tf' : Trapframe} (h : Undisturbed c lo hi k k₁) (hsp : tf.regs 29 ≤ lo)
      (hd : k₁.doSignal c tf = some (k₂, tf')) : Undisturbed c lo hi k k₂

variable {k k₁ k₂ : Kern} {c : EnvPtr} {tf tf₁ : Trapframe}

/-- A delivery writes below the stack pointer only. -/
private theorem doSignal_above (hd : k.doSignal c tf = some (k₁, tf₁)) {a : Word} (ha : tf.regs 29 ≤ a) :
    k₁.umem a = k.umem a := by
  obtain ⟨s, hs, -⟩ := doSignal_cases hd
  rcases doSignal_effect hd hs with ⟨-, -, -, hm⟩ | ⟨signo, -, -, hstack, -, -, hm⟩
  · rw [hm]
  · rw [hm]
    exact pushed_above hstack ha

/-- Frame and mask stay in place, at any depth of nesting. -/
private theorem Undisturbed.umem {lo hi : Word} (h : Undisturbed c lo hi k k₁) {a : Word} (hlo : lo ≤ a) (hhi : a < hi) :
    k₁.umem a = k.umem a := by
  induction h with
  | refl => rfl
  | other _ hm ih => exact (hm a hlo hhi).trans ih
  | deliver _ hsp hd ih => exact (doSignal_above hd (BitVec.le_trans hsp hlo)).trans ih

/-! ### Reading back what was pushed -/

private theorem uload_storable (k : Kern) {a : Word} (h : storable a = true) : k.uload a = some (k.umem a) := by
  have hlim : ULIM.toNat = 0x80000000 := by decide
  have hlow : UTEMP.toNat = 0x3FE000 := by decide
  have hb := storable_iff.1 h
  have hok : a.toNat % 4 = 0 ∧ UTEMP ≤ a ∧ a < ULIM := by
    rw [BitVec.le_def, BitVec.lt_def, hlim, hlow]
    omega
  exact if_pos hok

private theorem mapM_uload (k : Kern) {l : List Nat} {f : Nat → Word} (h : ∀ i ∈ l, storable (f i) = true) :
    (l.mapM fun i => k.uload (f i)).isSome := by
  induction l with
  | nil => rfl
  | cons i l ih =>
    obtain ⟨vs, hvs⟩ := Option.isSome_iff_exists.1 (ih fun j hj => h j (List.mem_cons_of_mem _ hj))
    rw [List.mapM_cons, uload_storable k (h i (List.mem_cons_self ..)), hvs]
    rfl

/-- A frame on the stack is read as it was written. -/
private theorem uloadTf_eq (hstack : stackOk (tf.regs 29) = true)
    (hframe : ∀ i < 38, k.umem (wordAddr (tf.regs 29 - TF_SIZE) i) = tf.word i) :
    k.uloadTf (tf.regs 29 - TF_SIZE) = some tf := by
  have hload := mapM_uload k (f := fun i => tf.regs 29 - TF_SIZE + BitVec.ofNat 32 (4 * i)) (l := List.range 38)
    fun i hi => List.all_eq_true.1 (stackOk_iff.1 hstack).1 i hi
  obtain ⟨vs, hvs⟩ := Option.isSome_iff_exists.1 hload
  rw [uloadTf, hvs, Option.map_some]
  exact congrArg some (Trapframe.ofWords_word hframe)

private theorem uloadSigset_mask {mask : Sigset} (hstack : stackOk (tf.regs 29) = true)
    (h0 : k.umem (tf.regs 29 - TF_SIZE - 8) = mask.sig0) (h1 : k.umem (tf.regs 29 - TF_SIZE - 8 + 4) = mask.sig1) :
    k.uloadSigset (tf.regs 29 - TF_SIZE - 8) = some mask := by
  obtain ⟨-, hs0, hs1⟩ := stackOk_iff.1 hstack
  rw [uloadSigset, uload_storable k hs0, Option.bind_some, uload_storable k hs1, h0, h1]
  rfl

/-- The frame lies in the range that `sys_set_trapframe` accepts. -/
private theorem frame_legal {sp : Word} (hstack : stackOk sp = true) : isIllegalVaRange (sp - TF_SIZE) TF_SIZE = false := by
  have hb := stack_bounds hstack
  have hlow : UTEMP.toNat = 0x3FE000 := by decide
  have hhigh : UTOP.toNat = 0x7F400000 := by decide
  have haddr : (sp - TF_SIZE).toNat = sp.toNat - 152 := by
    have ha := frameAddr_toNat hstack (show 0 < 38 by decide)
    have h0 : wordAddr (sp - TF_SIZE) 0 = sp - TF_SIZE := BitVec.add_zero _
    rw [h0] at ha
    omega
  have hsum : sp - TF_SIZE + TF_SIZE = sp := BitVec.sub_add_cancel sp TF_SIZE
  have h1 : ¬sp < sp - TF_SIZE := by rw [BitVec.lt_def]; omega
  have h2 : ¬sp - TF_SIZE < UTEMP := by rw [BitVec.lt_def]; omega
  have h3 : ¬UTOP < sp := by rw [BitVec.lt_def]; omega
  rw [isIllegalVaRange, if_neg (by decide), hsum, decide_eq_false h1, decide_eq_false h2, decide_eq_false h3]
  rfl

/-! ### The return -/

/-- The state after the return from a handler to the frame `tf`. -/
def Kern.backTo (k : Kern) (c : EnvPtr) (tf : Trapframe) (mask : Sigset) : Kern :=
  if (tf.regs 2).slt 0 then k.setKtf tf else (k.setKtf tf).setEnv c fun env => { env with envSigprocmask := mask }

private theorem backTo_ktf (k : Kern) (c : EnvPtr) (tf : Trapframe) (mask : Sigset) : (k.backTo c tf mask).ktf = tf := by
  unfold backTo
  split <;> rfl

/-- The mask after the return: with a negative `$v0` it stays what it is. -/
private theorem backTo_mask (k : Kern) (c : EnvPtr) (tf : Trapframe) (mask : Sigset) :
    ((k.backTo c tf mask).envs c).envSigprocmask =
      if (tf.regs 2).slt 0 then (k.envs c).envSigprocmask else mask := by
  unfold backTo
  split
  · rfl
  · rw [setEnv_self]

/-- `do_syscall` for a handler that ends with the pointers it was given, frame and mask being intact. -/
private theorem doSyscall_back {envid junk : Word} {mask : Sigset} (hstack : stackOk (tf.regs 29) = true)
    (hframe : ∀ i < 38, k.umem (wordAddr (tf.regs 29 - TF_SIZE) i) = tf.word i)
    (h0 : k.umem (tf.regs 29 - TF_SIZE - 8) = mask.sig0) (h1 : k.umem (tf.regs 29 - TF_SIZE - 8 + 4) = mask.sig1)
    (hcall : k.decode k.ktf = some (.backDoSignal envid (tf.regs 29 - TF_SIZE) (tf.regs 29 - TF_SIZE - 8)))
    (hid : envid = 0 ∨ (envid = (k.envs c).envId ∧ k.envid2env c envid true = some c)) :
    k.doSyscall c junk = some (k.backTo c tf mask, true) := by
  have henv : k.skipInsn.envid2env c envid true = some c := by
    rcases hid with rfl | ⟨-, he⟩
    · rfl
    · exact he
  have hguard : ¬(envid ≠ 0 ∧ envid ≠ (k.skipInsn.envs c).envId) := by
    rintro ⟨hne, hne'⟩
    rcases hid with h | ⟨h, -⟩
    · exact hne h
    · exact hne' h
  have hset : k.skipInsn.sysSetTrapframe c envid (tf.regs 29 - TF_SIZE) =
      some (k.skipInsn.setKtf tf, some (tf.regs 2)) := by
    rw [sysSetTrapframe, frame_legal hstack, henv]
    simp only [Bool.false_eq_true, if_false]
    rw [uloadTf_eq (k := k.skipInsn) hstack hframe]
    simp
  have hmask : (k.skipInsn.setKtf tf).uloadSigset (tf.regs 29 - TF_SIZE - 8) = some mask :=
    uloadSigset_mask (k := k.skipInsn.setKtf tf) hstack h0 h1
  have hv0 : tf.setReg 2 (tf.regs 2) = tf := by rw [Trapframe.setReg, Function.update_eq_self]
  have hback : k.skipInsn.sysBackDoSignal c envid (tf.regs 29 - TF_SIZE) (tf.regs 29 - TF_SIZE - 8) =
      some (k.backTo c tf mask, some (tf.regs 2)) := by
    rw [sysBackDoSignal, if_neg hguard, hset, Option.bind_some, backTo]
    simp only [hmask, Option.map_some]
    split <;> rfl
  have hsysno : ¬MAX_SYSNO ≤ (k.ktf.regs 4).toNat := by
    intro hn
    rw [decode_none hn] at hcall
    cases hcall
  rw [doSyscall, if_neg hsysno, hcall, Option.bind_some]
  show (k.skipInsn.sysBackDoSignal c envid _ _).map _ = _
  rw [hback, Option.map_some]
  dsimp only
  rw [backTo_ktf, hv0]
  unfold backTo
  split <;> rfl

private theorem handlerTf_frame (env : Env) (tf : Trapframe) (signo : Nat) :
    (handlerTf env tf signo).regs 4 = tf.regs 29 - TF_SIZE ∧
      (handlerTf env tf signo).regs 7 = tf.regs 29 - TF_SIZE - 8 := by
  constructor
  · simp [handlerTf, Trapframe.setReg]
  · simp [handlerTf, Trapframe.setReg]

/-- After the delivery of a signal, frame and mask lie where the handler is told, and they stay there. -/
private theorem delivery_intact {s : Scan} {signo : Nat} (hd : k.doSignal c tf = some (k₁, tf₁))
    (hs : scan c (MAX_SIG_NUM + 1) k none (k.envs c).signoHeader = some s) (hf : s.found = some signo)
    (hrun : Undisturbed c (tf.regs 29 - TF_SIZE - 8) (tf.regs 29) k₁ k₂) :
    stackOk (tf.regs 29) = true ∧ (tf₁.regs 4 = tf.regs 29 - TF_SIZE ∧ tf₁.regs 7 = tf.regs 29 - TF_SIZE - 8) ∧
      (∀ i < 38, k₂.umem (wordAddr (tf.regs 29 - TF_SIZE) i) = tf.word i) ∧
      k₂.umem (tf.regs 29 - TF_SIZE - 8) = (k.envs c).envSigprocmask.sig0 ∧
      k₂.umem (tf.regs 29 - TF_SIZE - 8 + 4) = (k.envs c).envSigprocmask.sig1 := by
  rcases doSignal_effect hd hs with ⟨hn, -⟩ | ⟨signo', -, -, hstack, rfl, -, humem⟩
  · rw [hn] at hf
    cases hf
  · have hb := stack_bounds hstack
    obtain ⟨hm0, hm1⟩ := maskAddr_toNat hstack
    have hmask : pushed k.umem tf (k.envs c).envSigprocmask (tf.regs 29 - TF_SIZE - 8) = _ ∧ _ := pushed_mask hstack
    refine ⟨hstack, handlerTf_frame (k.envs c) tf signo', fun i hi => ?_, ?_, ?_⟩
    · have ha := frameAddr_toNat hstack hi
      rw [hrun.umem (by rw [BitVec.le_def]; omega) (by rw [BitVec.lt_def]; omega), humem]
      exact pushed_frame hstack hi
    · rw [hrun.umem (BitVec.le_refl _) (by rw [BitVec.lt_def]; omega), humem]
      exact hmask.1
    · rw [hrun.umem (by rw [BitVec.le_def]; omega) (by rw [BitVec.lt_def]; omega), humem]
      exact hmask.2

/-- A child that inherits a handler for signal 10 is interrupted by the timer with `v0` in `$v0`, and its parent sends
it the signal; the child is about to return to user code. -/
def sendHandled (v0 : Word) : List Event :=
  .create .empty 1 :: tickEvents ++
    trapEvents (argRegs 18 10 UTEXT 0)
      (fun a => if a = UTEXT then 0x500000 else if a = UTEXT + 4 then 1 <<< 12 else 0) (.syscall 0) ++
    callEvents 9 0 0 0 ++ callEvents 22 0x1001 0x600000 0 ++ callEvents 10 0x1001 1 0 ++ callEvents 3 0 0 0 ++
    trapEvents (fun i => if i = 2 then v0 else argRegs 0 0 0 0 i) (fun _ => 0) .tick ++
    callEvents 20 0x1001 10 0 ++ (callEvents 3 0 0 0).dropLast

/-- The handler ends with the pointers it was given, having left memory alone. -/
def endHandler (k : Kern) : Event :=
  .trap ⟨argRegs 21 0 (USTACKTOP - 0x200 - TF_SIZE) (USTACKTOP - 0x200 - TF_SIZE - 8), 0, 0, 0, 0, 0, UTEXT, k.umem⟩
    (.syscall 0)

/-- The states in which the signal is delivered and in which the handler ends. -/
def handled (v0 : Word) : Option (State × State) :=
  (Machine.gxemul.after (fun _ _ => true) (sendHandled v0)).bind fun s =>
    (s.step .ret).bind fun s₁ => (s₁.step (endHandler s₁.kern)).map fun s₂ => (s, s₂)

private theorem handled_cases {v0 : Word} {s s₂ : State} (h : handled v0 = some (s, s₂)) (hc : s.kern.curenv = some c)
    (hphase : s.phase = .leaving false) : kernel.Reach (fun _ _ => True) s ∧ kernel.Reach (fun _ _ => True) s₂ ∧
      ∃ k₁ tf₁, s.kern.doSignal c (s.kern.envs c).envTf = some (k₁, tf₁) ∧ s₂.kern.umem = k₁.umem := by
  obtain ⟨s', hs, h⟩ := Option.bind_eq_some_iff.1 h
  obtain ⟨s₁, hs₁, h⟩ := Option.bind_eq_some_iff.1 h
  obtain ⟨s₂', hs₂, h⟩ := Option.map_eq_some_iff.1 h
  simp only [Prod.mk.injEq] at h
  obtain ⟨rfl, rfl⟩ := h
  have hreach : kernel.Reach (fun _ _ => True) s' := (Machine.after_reach hs).mono fun _ _ _ => trivial
  refine ⟨hreach, (hreach.next trivial hs₁).next trivial hs₂, ?_⟩
  obtain ⟨phase, k⟩ := s'
  obtain rfl : phase = .leaving false := hphase
  obtain ⟨k', hk', rfl⟩ := Option.map_eq_some_iff.1 hs₁
  obtain ⟨c', hc', hk'⟩ := Option.bind_eq_some_iff.1 hk'
  obtain rfl : c' = c := Option.some.inj (hc'.symm.trans hc)
  obtain ⟨⟨k₁, tf₁⟩, hd, rfl⟩ := Option.map_eq_some_iff.1 hk'
  obtain ⟨k₂, hk₂, rfl⟩ := Option.map_eq_some_iff.1 hs₂
  obtain ⟨-, rfl⟩ := saveAll_cases hk₂
  exact ⟨k₁, tf₁, hd, rfl⟩

/-- The signal is 10, the handler ends with the right pointers, and its mask is not the one before. -/
def handledOk (v0 : Word) (r : State × State) : Prop :=
  r.1.kern.curenv = some 1 ∧ r.1.phase = .leaving false ∧ (r.1.kern.envs 1).envTf.regs 2 = v0 ∧
    (r.1.kern.envs 1).envTf.regs 29 = USTACKTOP - 0x200 ∧
    (scan 1 (MAX_SIG_NUM + 1) r.1.kern none (r.1.kern.envs 1).signoHeader).any (fun s => s.found = some 10) ∧
    r.2.kern.decode r.2.kern.ktf =
      some (.backDoSignal 0 (USTACKTOP - 0x200 - TF_SIZE) (USTACKTOP - 0x200 - TF_SIZE - 8)) ∧
    (r.2.kern.envs 1).envSigprocmask ≠ (r.1.kern.envs 1).envSigprocmask

instance (v0 : Word) (r : State × State) : Decidable (handledOk v0 r) := inferInstanceAs (Decidable (_ ∧ _))

private theorem handledOk_zero : (handled 0).any fun r => handledOk 0 r := by decide +kernel
private theorem handledOk_neg : (handled (-1)).any fun r => handledOk (-1) r := by decide +kernel

private theorem handledOk.delivery {v0 : Word} {s s₂ : State} (hok : handledOk v0 (s, s₂))
    (hh : handled v0 = some (s, s₂)) :
    kernel.Reach (fun _ _ => True) s ∧ kernel.Reach (fun _ _ => True) s₂ ∧ ∃ k₁ tf₁ r,
      s.kern.doSignal 1 (s.kern.envs 1).envTf = some (k₁, tf₁) ∧
      scan 1 (MAX_SIG_NUM + 1) s.kern none (s.kern.envs 1).signoHeader = some r ∧ r.found = some 10 ∧
      Undisturbed 1 ((s.kern.envs 1).envTf.regs 29 - TF_SIZE - 8) ((s.kern.envs 1).envTf.regs 29) k₁ s₂.kern ∧
      s₂.kern.decode s₂.kern.ktf = some (.backDoSignal 0 (tf₁.regs 4) (tf₁.regs 7)) := by
  obtain ⟨hc, hphase, -, hsp, hscan, hcall, -⟩ := hok
  obtain ⟨hreach, hreach₂, k₁, tf₁, hd, humem⟩ := handled_cases hh hc hphase
  obtain ⟨r, hr, hf⟩ := (Option.any_eq_true _ _).1 hscan
  have hrun : Undisturbed 1 ((s.kern.envs 1).envTf.regs 29 - TF_SIZE - 8) ((s.kern.envs 1).envTf.regs 29) k₁ s₂.kern :=
    .other .refl fun a _ _ => by rw [humem]
  obtain ⟨-, ⟨h4, h7⟩, -⟩ := delivery_intact hd hr (of_decide_eq_true hf) hrun
  refine ⟨hreach, hreach₂, k₁, tf₁, r, hd, hr, of_decide_eq_true hf, hrun, ?_⟩
  rw [h4, h7, hsp]
  exact hcall

end Mos
