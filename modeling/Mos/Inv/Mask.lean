import Mos.Inv.Delivery
import Mos.Kern.Args

/-!
# The signal masks

`SIGKILL` stays out of the masks as long as user code does not put it there (`maskAdmits`): `sigset_add` and
`sigset_set` clear the bits 8 and 18, not 9 and 18, and a mask that comes from a handler table or from
`sys_back_do_signal` is not filtered at all.  What `sys_sigprocmask` drops instead is signal 8, and signal 64, which has
no bit in the two words.
-/

namespace Mos

open Kern

/-- `SIGKILL` is in no mask, as `_do_signal` tests it. -/
def MaskOk (k : Kern) : Prop := ∀ e, sigsetCtn (k.envs e).maskWord SIGKILL = false

private theorem maskWord_kill (env : Env) : sigsetCtn env.maskWord SIGKILL = env.envSigprocmask.sig0.getLsbD 9 := rfl

private theorem unmaskable_getLsbD : ∀ i < 32, unmaskable.getLsbD i = decide (i = 8 ∨ i = 18) := by decide

/-! ### Masks in user memory -/

/-- Membership in the set that lies at `a` in user memory. -/
def Kern.userSet (k : Kern) (a : Word) (signo : Nat) : Bool := sigsetCtn (fun i => k.umem (wordAddr a i)) signo

private theorem uloadSigset_eq {k : Kern} {a : Word} {s : Sigset} (h : k.uloadSigset a = some s) :
    s = ⟨k.umem (wordAddr a 0), k.umem (wordAddr a 1)⟩ := by
  obtain ⟨s0, h0, h⟩ := Option.bind_eq_some_iff.1 h
  obtain ⟨s1, h1, rfl⟩ := Option.map_eq_some_iff.1 h
  have ha : wordAddr a 0 = a := BitVec.add_zero a
  rw [uload_eq h0, uload_eq h1, ha]
  rfl

private theorem uloadSigset_kill {k : Kern} {a : Word} {s : Sigset} (h : k.uloadSigset a = some s) :
    s.sig0.getLsbD 9 = k.userSet a SIGKILL := by
  rw [uloadSigset_eq h]
  rfl

/-- There is no set at the null pointer. -/
private theorem uloadSigset_ne_zero {k : Kern} {a : Word} {s : Sigset} (h : k.uloadSigset a = some s) : a ≠ 0#32 := by
  rintro rfl
  obtain ⟨s0, h0, -⟩ := Option.bind_eq_some_iff.1 h
  have hnone : k.uload 0#32 = none := if_neg (by decide)
  rw [hnone] at h0
  cases h0

/-! ### What the steps do to the masks -/

namespace MaskOk

variable {k k' : Kern} {e c : EnvPtr}

/-- Only the masks matter. -/
private theorem same (h : MaskOk k) (hm : ∀ e, (k'.envs e).envSigprocmask = (k.envs e).envSigprocmask) : MaskOk k' := by
  intro e
  rw [maskWord_kill, hm, ← maskWord_kill]
  exact h e

private theorem setSched (h : MaskOk k) (q : TailQueue EnvPtr) : MaskOk (k.setSched q) := h

private theorem setEnv (h : MaskOk k) {f : Env → Env} (hf : (f (k.envs e)).envSigprocmask.sig0.getLsbD 9 = false) :
    MaskOk (k.setEnv e f) := by
  intro e'
  by_cases heq : e' = e
  · rw [heq, setEnv_self, maskWord_kill]
    exact hf
  · rw [setEnv_of_ne heq]
    exact h e'

private theorem setEnv_same (h : MaskOk k) {f : Env → Env} (hf : (f (k.envs e)).envSigprocmask = (k.envs e).envSigprocmask) :
    MaskOk (k.setEnv e f) :=
  h.same (setEnv_field Env.envSigprocmask hf)

private theorem schedule {yield : Bool} (h : MaskOk k) (hs : k.schedule yield = some k') : MaskOk k' := by
  obtain ⟨q, n, e, -, rfl, -⟩ := schedule_cases hs
  exact h.same (running_field Env.envSigprocmask (fun _ _ => rfl) (fun _ _ => rfl) k q n e)

/-- A new environment has an empty mask. -/
private theorem alloc {parentId : Word} (h : MaskOk k) (ha : k.envAlloc parentId = some (e, k')) : MaskOk k' := by
  obtain ⟨rest, pgdir, pm, asid, bitmap, -, -, -, rfl⟩ := envAlloc_cases ha
  have hempty : Sigset.empty.sig0.getLsbD 9 = false := by decide
  exact setEnv (k := (((k.setFreeList rest).setPm pm).setBitmap bitmap).setMkenvidI (k.mkenvidI + 1)) h hempty

private theorem create {binary : Image} {priority : Word} (h : MaskOk k) (hc : k.envCreate binary priority = some k') :
    MaskOk k' := by
  obtain ⟨e, k₁, pgdir, pm, ha, -, -, rfl⟩ := envCreate_cases hc
  have hk₁ : MaskOk k₁ := h.alloc ha
  unfold created
  apply setSched
  exact setEnv_same (k := k₁.setPm pm) hk₁ rfl

private theorem destroy {left : Bool} (h : MaskOk k) (hd : k.envDestroy e = some (k', left)) : MaskOk k' := by
  obtain ⟨k₁, hk₁, hd⟩ := envDestroy_cases hd
  obtain ⟨pgdir, pm, q, -, -, -, rfl⟩ := envFree_cases hk₁
  have hfreed : MaskOk (k.freed e pm q) := setEnv_same (k := (((k.setPm pm).asidFree (k.envs e).envAsid).setFreeList
    (e :: k.envFreeList)).setSched q) h rfl
  rcases hd with ⟨-, -, hs⟩ | ⟨-, -, rfl⟩
  · exact schedule (k := (k.freed e pm q).setCurenv none) hfreed hs
  · exact hfreed

private theorem pended (h : MaskOk k) {signo : Word} {n : SignoPtr} {k₁ : Kern} (hn : k.signoAlloc signo = some (n, k₁))
    (e : EnvPtr) : MaskOk (k₁.pended e n) := by
  have hk₁ : MaskOk k₁ := by
    obtain ⟨-, rfl⟩ := signoAlloc_cases hn
    exact h
  exact setEnv_same (k := k₁.setNext n (k₁.envs e).signoHeader) hk₁ rfl

private theorem pageInsertEnv (h : MaskOk k) {pp : Nat} {va perm r : Word}
    (hi : k.pageInsertEnv e pp va perm = some (r, k')) :
    MaskOk k' := by
  obtain ⟨_, pm, _, _, rfl⟩ := pageInsertEnv_cases hi
  exact h

private theorem served {va : Word} (h : MaskOk k) (hs : k.Served c va k') : MaskOk k' := by
  cases hs with
  | mapped => exact h
  | alloc _ _ ha =>
    obtain ⟨k₀, pp, pm, hsegv, -, -, hi⟩ := passiveAlloc_cases ha
    cases hsegv with
    | none => exact pageInsertEnv (k := k.setPm pm) h hi
    | @sent n k₁ _ hn => exact pageInsertEnv (k := (k₁.pended c n).setPm pm) (h.pended hn c) hi

private theorem setTf (h : MaskOk k) (cur e : EnvPtr) (frame : Trapframe) : MaskOk (k.setTf cur e frame) := by
  unfold Kern.setTf
  split
  · exact h
  · exact h.setEnv_same rfl

end MaskOk

/-! ### Runs -/

/-- `sys_back_do_signal` comes to restoring the mask: it reads a frame, and `$v0` in it is not negative. -/
def restoresMask (k : Kern) (cur : EnvPtr) (envid tf : Word) : Bool :=
  !isIllegalVaRange tf TF_SIZE && (k.envid2env cur envid true).any fun e =>
    (k.uloadTf tf).any fun frame => !(decide (e = cur) && (frame.regs 2).slt 0)

/-- The call does not put `SIGKILL` into the mask. -/
def callMaskAdmits (k : Kern) (cur : EnvPtr) : Call → Bool
  | .sigprocmask how set _ => set = 0 || (how ≠ SIG_BLOCK && how ≠ SIG_SETMASK) || !k.userSet set SIGKILL
  | .backDoSignal envid tf originMask => !restoresMask k cur envid tf || !k.userSet originMask SIGKILL
  | _ => true

/-- Nobody puts `SIGKILL` into a mask: not with `sys_sigprocmask`, not by returning from a handler, and not with the
`sa_mask` of the signal to deliver. -/
def maskAdmits (s : State) (_ : Event) : Bool :=
  match s.phase with
  | .entered (.syscall _) => s.kern.onCall callMaskAdmits
  | .leaving _ => s.kern.curenv.all fun c => (s.kern.siftPending c).found.all fun found => found.all fun signo =>
    !((s.kern.envs c).handler signo).saMask.sig0.getLsbD 9
  | _ => true

namespace MaskOk

variable {k k' : Kern} {c : EnvPtr}

/-- `sys_sigprocmask` without `SIGKILL` in the set. -/
private theorem newMask_kill {mask s mask' : Sigset} {how : Word} (hm : newMask mask how s = some mask')
    (hmask : mask.sig0.getLsbD 9 = false) (hs : how = SIG_BLOCK ∨ how = SIG_SETMASK → s.sig0.getLsbD 9 = false) :
    mask'.sig0.getLsbD 9 = false := by
  unfold newMask at hm
  split at hm
  case isTrue hhow =>
    obtain rfl := Option.some.inj hm
    simp only [sigsetAdd, BitVec.getLsbD_and, BitVec.getLsbD_or, hmask, hs (.inl hhow), Bool.or_self, Bool.false_and]
  case isFalse =>
    split at hm
    case isTrue =>
      obtain rfl := Option.some.inj hm
      simp only [sigsetDel, BitVec.getLsbD_and, hmask, Bool.false_and]
    case isFalse =>
      split at hm
      case isTrue hhow =>
        obtain rfl := Option.some.inj hm
        simp only [sigsetSet, BitVec.getLsbD_and, hs (.inr hhow), Bool.false_and]
      case isFalse => cases hm

private theorem call {cur : EnvPtr} {c : Call} {r : Option Word} (h : MaskOk k) (hok : callMaskAdmits k cur c)
    (hs : CallStep k cur c k' r) : MaskOk k' := by
  cases hs with
  | unchanged => exact h
  | yield hs => exact h.schedule hs
  | envDestroy _ hd => exact h.destroy hd
  | setTlbModEntry => exact h.setEnv_same rfl
  | @memAlloc _ _ _ _ _ _ pm _ _ _ _ hi => exact pageInsertEnv (k := k.setPm pm) h hi
  | memMap _ _ _ _ _ hi => exact h.pageInsertEnv hi
  | memUnmap => exact h
  | @exofork e k₁ ha => exact (h.alloc ha).setEnv ((h.alloc ha) cur)
  | setEnvStatus _ _ hs =>
    obtain ⟨q, -, rfl⟩ := Option.map_eq_some_iff.1 hs
    exact setEnv_same (k := k.setSched q) h rfl
  | setTrapframe => exact h.setTf cur _ _
  | @ipcWoken _ _ _ _ _ _ q => exact setEnv_same (k := k.setSched q) h rfl
  | @ipcPage _ _ _ _ _ _ q _ _ _ _ _ _ _ _ hi =>
    exact pageInsertEnv (setEnv_same (k := k.setSched q) h rfl) hi
  | @ipcRecv dstva _ _ hs =>
    have hw : MaskOk (k.ipcWait cur dstva) := setEnv_same (k := k.setKtf (k.ktf.setReg 2 0)) h rfl
    exact hw.schedule hs
  | @sigaction _ _ _ _ m => exact setEnv_same (k := k.setUmem m) h rfl
  | @sigprocmask how set _ _ m mask hm =>
    refine setEnv (k := k.setUmem m) h ?_
    cases hm with
    | same => exact h cur
    | set hs hm =>
      refine newMask_kill hm (h cur) fun hhow => ?_
      rw [uloadSigset_kill hs]
      have hset : set ≠ 0#32 := uloadSigset_ne_zero hs
      rcases hhow with rfl | rfl <;> simpa [callMaskAdmits, hset, SIG_BLOCK, SIG_SETMASK] using hok
  | kill _ hn => exact h.pended hn _
  | @backDoSignal envid tf originMask _ e frame mask hva he hf hm =>
    refine (h.setTf cur e frame).setEnv ?_
    rcases hm with rfl | ⟨hv0, hm⟩
    · exact (h.setTf cur e frame) cur
    · have humem : (k.setTf cur e frame).userSet originMask SIGKILL = k.userSet originMask SIGKILL := by
        unfold Kern.setTf
        split <;> rfl
      have hv0 : (decide (e = cur) && (frame.regs 2).slt 0) = false := by
        by_cases hc : e = cur
        · rw [hv0 hc, Bool.and_false]
        · rw [decide_eq_false hc, Bool.false_and]
      have hrestores : restoresMask k cur envid tf = true := by
        simp only [restoresMask, hva, he, hf, Option.any_some, hv0]
        rfl
      show mask.sig0.getLsbD 9 = false
      rw [uloadSigset_kill hm, humem]
      simpa [callMaskAdmits, hrestores] using hok
  | setSigEntry => exact h.setEnv_same rfl

/-- A delivery sets the mask of the action of the signal that it finds. -/
private theorem doSignal {free : List SignoPtr} {pend : EnvPtr → List SignoPtr} {tf tf' : Trapframe} (h : MaskOk k)
    (hn : NodesOk k free pend) (hlive : (k.envs c).envStatus ≠ .FREE)
    (hok : (k.siftPending c).found.all fun found => found.all fun signo =>
      !((k.envs c).handler signo).saMask.sig0.getLsbD 9) (hd : k.doSignal c tf = some (k', tf')) : MaskOk k' := by
  obtain ⟨hothers, hc⟩ := doSignal_found hn hlive hd
  intro e
  rw [maskWord_kill]
  by_cases heq : e = c
  · subst heq
    rcases hc with ⟨-, -, hm⟩ | ⟨signo, hf, -, -, -, hm⟩
    · rw [hm]
      exact h e
    · rw [hm]
      simpa [hf] using hok
  · rw [hothers e heq]
    exact h e

/-- An admitted step keeps `SIGKILL` out of the masks. -/
private theorem step {s s' : State} {ev : Event} {free : List SignoPtr} {pend : EnvPtr → List SignoPtr} (h : MaskOk s.kern)
    (hn : NodesOk s.kern free pend) (hlive : LiveOk s.kern) (hok : maskAdmits s ev) (hs : Step s ev s') :
    MaskOk s'.kern := by
  cases hs with
  | create hc => exact h.create hc
  | evict => exact h
  | idle => exact h
  | save => exact h
  | tick hs => exact h.schedule hs
  | noSys => exact h
  | @call k k' _ _ _ _ hc hd hs =>
    have hk' : MaskOk k' := call (k := k.skipInsn) h ((onCall_eq hc hd).symm.trans hok) hs
    exact hk'
  | @left k _ _ _ _ hc hd hs => exact call (k := k.skipInsn) h ((onCall_eq hc hd).symm.trans hok) hs
  | @tlbMiss k k₁ _ _ _ _ _ _ _ hs =>
    have hk₁ : MaskOk k₁ := h.served hs
    exact hk₁
  | tlbMod => exact h
  | @ret k k₁ c returned tf hc hd =>
    have hok : (k.siftPending c).found.all fun found => found.all fun signo =>
        !((k.envs c).handler signo).saMask.sig0.getLsbD 9 := by
      simpa only [maskAdmits, show k.curenv = some c from hc, Option.all_some] using hok
    have hk₁ : MaskOk k₁ := h.doSignal hn (hlive.cur c hc) hok hd
    show MaskOk (k₁.storeTf c returned tf)
    unfold storeTf
    split
    · exact hk₁
    · exact hk₁.setEnv_same rfl

private theorem boot (mc : Machine) : MaskOk mc.bootKern := by
  intro e
  show (0 : Word).getLsbD 9 = false
  decide

end MaskOk

/-- In every run in which nobody puts it there, `SIGKILL` is in no mask. -/
private theorem maskOk_of_reach {s : State} (h : kernel.Reach (fun s ev => maskAdmits s ev) s) : MaskOk s.kern := by
  have hinv : (LiveOk s.kern ∧ ∃ free pend, NodesOk s.kern free pend) ∧ MaskOk s.kern := by
    refine h.invariant (I := fun s => (LiveOk s.kern ∧ ∃ free pend, NodesOk s.kern free pend) ∧ MaskOk s.kern) ?_ ?_
    · intro s hs
      obtain ⟨mc, rfl⟩ := init_iff.1 hs
      exact ⟨⟨.boot mc, _, _, .boot mc rfl⟩, .boot mc⟩
    · rintro s ev s' ⟨⟨hlive, free, pend, hn⟩, h⟩ hok hs
      have hstep := State.step_cases hs
      obtain ⟨free', pend', hn', -⟩ := hn.step hlive hstep
      exact ⟨⟨hlive.step hstep, free', pend', hn'⟩, h.step hn hlive hok hstep⟩
  exact hinv.2

/-! ### What `sys_sigprocmask` adds -/

private theorem sysSigprocmask_cases {k k' : Kern} {cur : EnvPtr} {how set oldset junk : Word} {r : Option Word}
    (h : k.sysSigprocmask cur how set oldset junk = some (k', r)) (hset : set ≠ 0) :
    ∃ s, k.uloadSigset set = some s ∧
      (k'.envs cur).sighandlerTable = (k.envs cur).sighandlerTable ∧
      (k'.envs cur).envSigprocmask = (newMask (k.envs cur).envSigprocmask how s).getD (k.envs cur).envSigprocmask := by
  unfold sysSigprocmask at h
  dsimp only at h
  rw [if_neg hset] at h
  obtain ⟨s, hs, h⟩ := Option.bind_eq_some_iff.1 h
  refine ⟨s, hs, ?_⟩
  cases hm : newMask (k.envs cur).envSigprocmask how s with
  | none =>
    simp only [hm, Option.some.injEq, Prod.mk.injEq] at h
    obtain ⟨rfl, -⟩ := h
    exact ⟨rfl, rfl⟩
  | some mask =>
    simp only [hm] at h
    split at h
    case isTrue =>
      simp only [Option.some.injEq, Prod.mk.injEq] at h
      obtain ⟨rfl, -⟩ := h
      rw [setEnv_self]
      exact ⟨rfl, rfl⟩
    case isFalse =>
      obtain ⟨k₁, hk₁, h⟩ := Option.map_eq_some_iff.1 h
      simp only [Prod.mk.injEq] at h
      obtain ⟨rfl, -⟩ := h
      obtain ⟨m, rfl⟩ := ustoreSigset_cases hk₁
      rw [setUmem_envs, setEnv_self]
      exact ⟨rfl, rfl⟩

/-- The bits of the mask after signals were added or set. -/
private theorem newMask_bits {m s : Sigset} {how : Word} (hhow : how = SIG_BLOCK ∨ how = SIG_SETMASK) :
    ∃ mask', newMask m how s = some mask' ∧ (∀ i < 32, mask'.sig0.getLsbD i → ¬(i = 8 ∨ i = 18)) ∧
      (∀ i < 32, ¬(i = 8 ∨ i = 18) → s.sig0.getLsbD i → mask'.sig0.getLsbD i) ∧
      ∀ i, s.sig1.getLsbD i → mask'.sig1.getLsbD i := by
  have hbit : ∀ (w : Word), ∀ i < 32, (w &&& ~~~unmaskable).getLsbD i = (w.getLsbD i && !decide (i = 8 ∨ i = 18)) := by
    intro w i hi
    rw [BitVec.getLsbD_and, BitVec.getLsbD_not, unmaskable_getLsbD i hi, decide_eq_true hi, Bool.true_and]
  rcases hhow with rfl | rfl
  · refine ⟨_, rfl, fun i hi h => ?_, fun i hi hne h => ?_, fun i h => ?_⟩
    · rw [sigsetAdd, hbit _ i hi] at h
      simpa using (Bool.and_eq_true _ _ |>.mp h).2
    · rw [sigsetAdd, hbit _ i hi, BitVec.getLsbD_or, h, decide_eq_false hne, Bool.or_true]
      rfl
    · rw [sigsetAdd, BitVec.getLsbD_or, h, Bool.or_true]
  · refine ⟨_, rfl, fun i hi h => ?_, fun i hi hne h => ?_, fun i h => h⟩
    · rw [sigsetSet, hbit _ i hi] at h
      simpa using (Bool.and_eq_true _ _ |>.mp h).2
    · rw [sigsetSet, hbit _ i hi, h, decide_eq_false hne]
      rfl

/-- Every signal of 1 to 64 but the documented two, 9 and 18, that is in the set at `set` is in the mask of `cur`. -/
def Adds (k k' : Kern) (cur : EnvPtr) (set : Word) : Prop :=
  ∀ signo, 1 ≤ signo → signo ≤ 64 → signo ≠ 9 → signo ≠ 18 → k.userSet set signo →
    sigsetCtn (k'.envs cur).maskWord signo

/-- `sys_sigprocmask` adds what it should exactly if signal 8 is not in the set and signal 64 is not either, unless the
word behind the mask happens to have its bit. -/
private theorem adds_iff {k k' : Kern} {cur : EnvPtr} {how set oldset junk : Word} {r : Option Word}
    (hset : set ≠ 0) (hhow : how = SIG_BLOCK ∨ how = SIG_SETMASK)
    (h : k.sysSigprocmask cur how set oldset junk = some (k', r)) :
    Adds k k' cur set ↔ ¬k.userSet set 8 ∧ (k.userSet set 64 → (k.envs cur).blocked 64) := by
  obtain ⟨s, hs, htable, hmask⟩ := sysSigprocmask_cases h hset
  obtain ⟨mask, hm, hclear, hadd0, hadd1⟩ := newMask_bits (m := (k.envs cur).envSigprocmask) (s := s) hhow
  rw [hm, Option.getD_some] at hmask
  have hs := uloadSigset_eq hs
  have hword2 : (k'.envs cur).maskWord 2 = (k.envs cur).maskWord 2 := by
    show ((k'.envs cur).sighandlerTable 0).saHandler = ((k.envs cur).sighandlerTable 0).saHandler
    rw [htable]
  have hword0 : (k'.envs cur).maskWord 0 = mask.sig0 := congrArg Sigset.sig0 hmask
  have hword1 : (k'.envs cur).maskWord 1 = mask.sig1 := congrArg Sigset.sig1 hmask
  constructor
  · intro hall
    constructor
    · intro h8
      have hin : ((k'.envs cur).maskWord 0).getLsbD 8 := hall 8 (by decide) (by decide) (by decide) (by decide) h8
      rw [hword0] at hin
      exact hclear 8 (by decide) hin (.inl rfl)
    · intro h64
      have hin : ((k'.envs cur).maskWord 2).getLsbD 0 := hall 64 (by decide) (by decide) (by decide) (by decide) h64
      rw [hword2] at hin
      exact hin
  · rintro ⟨h8, h64⟩ signo hpos hle h9 h18 hin
    rcases Nat.lt_or_ge signo 32 with hlt | hge
    · have hdiv : signo / 32 = 0 := by omega
      have hmod : signo % 32 = signo := by omega
      have hne8 : signo ≠ 8 := fun h => h8 (h ▸ hin)
      rw [userSet, sigsetCtn, hdiv, hmod] at hin
      rw [sigsetCtn, hdiv, hmod, hword0]
      refine hadd0 signo hlt (by omega) ?_
      rw [hs]
      exact hin
    · rcases Nat.lt_or_ge signo 64 with hlt | hge'
      · have hdiv : signo / 32 = 1 := by omega
        rw [userSet, sigsetCtn, hdiv] at hin
        rw [sigsetCtn, hdiv, hword1]
        refine hadd1 _ ?_
        rw [hs]
        exact hin
      · obtain rfl : signo = 64 := by omega
        have hin : ((k.envs cur).maskWord 2).getLsbD 0 := h64 hin
        rw [← hword2] at hin
        exact hin

/-! ### The results -/

/-- Nobody puts 9 into a mask, and the kernel is led to no memory of its own. -/
def maskArgsAdmits (s : State) (ev : Event) : Bool := maskAdmits s ev && s.argsInUser ev

/-- The environment blocks the signals of `set`. -/
def blockSet (set : Word) : List Event :=
  .create .empty 1 :: tickEvents ++
    trapEvents (argRegs 19 SIG_BLOCK UTEXT 0) (fun a => if a = UTEXT then set else 0) (.syscall 0)

private theorem blockSet_isSome : (Machine.gxemul.after maskArgsAdmits (blockSet (1 <<< 12))).isSome := by decide +kernel

/-- The state in which the environment is about to run for the first time, with signal 12 in the set at `UTEXT`. -/
def beforeBlock : Kern :=
  (Machine.gxemul.bootKern.setUmem fun a => if a = UTEXT then 1 <<< 12 else 0)

private theorem beforeBlock_isSome : (beforeBlock.sysSigprocmask 0 SIG_BLOCK UTEXT 0 0).isSome := by decide +kernel

/-- Signal 9 gets into the mask, and signal 8 does not. -/
private theorem blockSet_kill : (Machine.gxemul.after (fun _ _ => true) (blockSet (1 <<< 9 ||| 1 <<< 8))).any (fun s =>
    s.inUser && sigsetCtn (s.kern.envs 0).maskWord SIGKILL && !sigsetCtn (s.kern.envs 0).maskWord 8) := by
  decide +kernel

end Mos
