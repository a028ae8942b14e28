import Mos.Inv.Live
import Mos.Kern.Args

/-!
# The status word of user code

`env_alloc` starts an environment in user mode with the timer interrupt on.  The status word then travels through
frames: `SAVE_ALL`, `env_run`, `sys_exofork` and `_do_signal` copy it, while `sys_set_trapframe` and
`sys_back_do_signal` take it from user memory as it is.  The mode is kept in every run in which the frames that user
code hands in have a proper status word (`statusAdmits`).
-/

namespace Mos

open Kern

/-- User mode, interrupts and the timer are on once `rfe` has popped the mode bits. -/
def userStatus (w : Word) : Bool := has w STATUS_KUp && has w STATUS_IEp && has w STATUS_IM4

/-- The status word that `e` is resumed with when it next returns to user code. -/
def State.nextStatus (s : State) (e : EnvPtr) : Word :=
  if s.kern.curenv = some e then
    match s.phase with
    | .user => pushMode s.kern.cpu.cp0Status
    | .entered _ => s.kern.ktf.cp0Status
    | .leaving true => s.kern.ktf.cp0Status
    | .leaving false => (s.kern.envs e).envTf.cp0Status
  else (s.kern.envs e).envTf.cp0Status

/-- Every live environment is to return to user mode with the timer interrupt on. -/
def StatusOk (s : State) : Prop := ∀ e, (s.kern.envs e).envStatus ≠ .FREE → userStatus (s.nextStatus e)

/-- A status word that user code cannot change either: without `STATUS_CU0`. -/
def lockedStatus (w : Word) : Bool := userStatus w && !has w STATUS_CU0

/-! ### The mode bits -/

private theorem has_KUp (w : Word) : has w STATUS_KUp = w.getLsbD 3 := has_eq_getLsbD w 3 (by decide)
private theorem has_IEp (w : Word) : has w STATUS_IEp = w.getLsbD 2 := has_eq_getLsbD w 2 (by decide)
private theorem has_IM4 (w : Word) : has w STATUS_IM4 = w.getLsbD 12 := has_eq_getLsbD w 12 (by decide)
private theorem has_CU0 (w : Word) : has w STATUS_CU0 = w.getLsbD 28 := has_eq_getLsbD w 28 (by decide)

/-- An exception pushes back what `rfe` has popped, as far as the previous mode is concerned. -/
private theorem getLsbD_pushMode_rfe (w : Word) {i : Nat} (hi : i ∈ [2, 3, 12, 28]) :
    (pushMode (rfe w)).getLsbD i = w.getLsbD i := by
  simp only [List.mem_cons, List.not_mem_nil, or_false] at hi
  unfold pushMode rfe
  rcases hi with rfl | rfl | rfl | rfl <;> simp

private theorem lockedStatus_pushMode_rfe (w : Word) : lockedStatus (pushMode (rfe w)) = lockedStatus w := by
  simp only [lockedStatus, userStatus, has_KUp, has_IEp, has_IM4, has_CU0]
  rw [getLsbD_pushMode_rfe w (by decide), getLsbD_pushMode_rfe w (by decide), getLsbD_pushMode_rfe w (by decide),
    getLsbD_pushMode_rfe w (by decide)]

/-- User code that has no access to the coprocessor cannot change what `SAVE_ALL` finds. -/
private theorem has_pushMode_CU0 (w : Word) : has (pushMode w) STATUS_CU0 = has w STATUS_CU0 := by
  rw [has_CU0, has_CU0, pushMode]
  simp

/-! ### The frames of the environments -/

/-- The frames of all live environments are proper. -/
def FramesOk (k : Kern) : Prop := ∀ e, (k.envs e).envStatus ≠ .FREE → lockedStatus (k.envs e).envTf.cp0Status

/-- The frame below `KSTACKTOP` is proper if it belongs to an environment. -/
def KtfOk (k : Kern) : Prop := ∀ c, k.curenv = some c → lockedStatus k.ktf.cp0Status

namespace FramesOk

variable {k k' : Kern} {e : EnvPtr}

private theorem setSched (h : FramesOk k) (q : TailQueue EnvPtr) : FramesOk (k.setSched q) := h

private theorem setEnv (h : FramesOk k) {f : Env → Env}
    (hf : (f (k.envs e)).envStatus ≠ .FREE → lockedStatus (f (k.envs e)).envTf.cp0Status) :
    FramesOk (k.setEnv e f) := by
  intro e' he'
  by_cases heq : e' = e
  · subst heq
    rw [setEnv_self] at he' ⊢
    exact hf he'
  · rw [setEnv_of_ne heq] at he' ⊢
    exact h e' he'

/-- Writing one environment without touching its status and its frame. -/
private theorem setEnv_same (h : FramesOk k) {f : Env → Env} (hs : (f (k.envs e)).envStatus = (k.envs e).envStatus)
    (htf : (f (k.envs e)).envTf = (k.envs e).envTf) : FramesOk (k.setEnv e f) := by
  refine h.setEnv fun he => ?_
  rw [htf]
  exact h e (hs ▸ he)

private theorem saveTf (h : FramesOk k) (hk : KtfOk k) : FramesOk k.saveTf := by
  unfold Kern.saveTf
  split
  case h_1 c hc => exact h.setEnv fun _ => hk c hc
  case h_2 => exact h

private theorem schedule {yield : Bool} (h : FramesOk k) (hk : KtfOk k) (hs : k.schedule yield = some k') :
    FramesOk k' := by
  obtain ⟨q, n, e, -, rfl, -⟩ := schedule_cases hs
  have hq : FramesOk ((k.setSched q).setCount n).saveTf := saveTf (k := (k.setSched q).setCount n) h hk
  exact setEnv_same (k := ((k.setSched q).setCount n).saveTf.setCurenv (some e)) hq rfl rfl

/-- `env_alloc` gives the new environment a proper frame. -/
private theorem alloc {parentId : Word} (h : FramesOk k) (ha : k.envAlloc parentId = some (e, k')) :
    FramesOk k' ∧ lockedStatus (k'.envs e).envTf.cp0Status := by
  obtain ⟨rest, pgdir, pm, asid, bitmap, -, -, -, rfl⟩ := envAlloc_cases ha
  have hinit : lockedStatus (STATUS_IM4 ||| STATUS_KUp ||| STATUS_IEp) := by decide
  have hk : FramesOk ((((k.setFreeList rest).setPm pm).setBitmap bitmap).setMkenvidI (k.mkenvidI + 1)) := h
  refine ⟨hk.setEnv fun _ => hinit, ?_⟩
  rw [allocated, setEnv_self]
  exact hinit

private theorem create {binary : Image} {priority : Word} (h : FramesOk k) (hc : k.envCreate binary priority = some k') :
    FramesOk k' ∧ k'.curenv = k.curenv ∧ k'.cpu = k.cpu := by
  obtain ⟨e, k₁, pgdir, pm, ha, -, -, rfl⟩ := envCreate_cases hc
  obtain ⟨hf, he⟩ := h.alloc ha
  refine ⟨?_, ?_⟩
  · unfold created
    apply FramesOk.setSched
    apply FramesOk.setEnv (k := k₁.setPm pm) hf
    intro _
    exact he
  · obtain ⟨rest, pgdir, pm, asid, bitmap, -, -, -, rfl⟩ := envAlloc_cases ha
    exact ⟨rfl, rfl⟩

private theorem destroy {left : Bool} (h : FramesOk k) (hk : KtfOk k) (hd : k.envDestroy e = some (k', left)) :
    FramesOk k' ∧ (left = false → KtfOk k') := by
  obtain ⟨k₁, hk₁, hd⟩ := envDestroy_cases hd
  obtain ⟨pgdir, pm, q, -, -, -, rfl⟩ := envFree_cases hk₁
  have hfreed : FramesOk (k.freed e pm q) := by
    refine FramesOk.setEnv (k := (((k.setPm pm).asidFree (k.envs e).envAsid).setFreeList (e ::
      k.envFreeList)).setSched q) h ?_
    intro hne
    exact absurd rfl hne
  rcases hd with ⟨-, rfl, hs⟩ | ⟨-, rfl, rfl⟩
  · refine ⟨schedule (k := (k.freed e pm q).setCurenv none) hfreed ?_ hs, nofun⟩
    intro c hc
    cases hc
  · exact ⟨hfreed, fun _ => hk⟩

private theorem pended (h : FramesOk k) {signo : Word} {n : SignoPtr} {k₁ : Kern} (hn : k.signoAlloc signo = some (n, k₁))
    (e : EnvPtr) : FramesOk (k₁.pended e n) := by
  have hk₁ : FramesOk k₁ := by
    obtain ⟨-, rfl⟩ := signoAlloc_cases hn
    exact h
  exact setEnv_same (k := k₁.setNext n (k₁.envs e).signoHeader) hk₁ rfl rfl

private theorem sigFrame {c : EnvPtr} (h : FramesOk k) (hf : SigFrame c k k') : FramesOk k' := by
  obtain ⟨signos, free, umem, header, mask, rfl⟩ := hf
  exact setEnv_same (k := (k.setSignos signos free).setUmem umem) h rfl rfl

private theorem pageInsertEnv (h : FramesOk k) {pp : Nat} {va perm r : Word}
    (hi : k.pageInsertEnv e pp va perm = some (r, k')) : FramesOk k' ∧ k'.ktf = k.ktf := by
  obtain ⟨_, pm, _, _, rfl⟩ := pageInsertEnv_cases hi
  exact ⟨h, rfl⟩

private theorem served {c : EnvPtr} {va : Word} (h : FramesOk k) (hs : k.Served c va k') :
    FramesOk k' ∧ k'.ktf = k.ktf := by
  cases hs with
  | mapped => exact ⟨h, rfl⟩
  | alloc _ _ ha =>
    obtain ⟨k₀, pp, pm, hsegv, -, -, hi⟩ := passiveAlloc_cases ha
    cases hsegv with
    | none => exact pageInsertEnv (k := k.setPm pm) h hi
    | @sent n k₁ _ hn =>
      have h₁ := pageInsertEnv (k := (k₁.pended c n).setPm pm) (h.pended hn c) hi
      obtain ⟨-, rfl⟩ := signoAlloc_cases hn
      exact h₁

/-- A live environment that is woken keeps its frame. -/
private theorem ipcWake {cur : EnvPtr} (h : FramesOk k) (he : (k.envs e).envStatus ≠ .FREE) (value perm : Word)
    (q : TailQueue EnvPtr) : FramesOk (k.ipcWake cur e value perm q) :=
  setEnv (k := k.setSched q) h fun _ => h e he

private theorem setTf (h : FramesOk k) (cur e : EnvPtr) {frame : Trapframe} (hf : lockedStatus frame.cp0Status) :
    FramesOk (k.setTf cur e frame) ∧ (KtfOk k → KtfOk (k.setTf cur e frame)) := by
  unfold Kern.setTf
  split
  · exact ⟨h, fun _ _ _ => hf⟩
  · exact ⟨h.setEnv fun _ => hf, id⟩

end FramesOk

/-! ### Runs -/

/-- A frame that user code hands in, where it is read at all, has a proper status word. -/
def frameAdmits (k : Kern) (cur : EnvPtr) (envid tf : Word) : Bool :=
  isIllegalVaRange tf TF_SIZE || (k.envid2env cur envid true).all fun _ =>
    (k.uloadTf tf).all fun frame => lockedStatus frame.cp0Status

def callStatusAdmits (k : Kern) (cur : EnvPtr) : Call → Bool
  | .setTrapframe envid tf => frameAdmits k cur envid tf
  | .backDoSignal envid tf _ => frameAdmits k cur envid tf
  | _ => true

/-- The step takes no improper status word from user memory. -/
def statusAdmits (s : State) (_ : Event) : Bool :=
  match s.phase with
  | .entered (.syscall _) => s.kern.onCall callStatusAdmits
  | _ => true

private theorem frameAdmits_locked {k : Kern} {cur e : EnvPtr} {envid tf : Word} {frame : Trapframe}
    (hva : isIllegalVaRange tf TF_SIZE = false) (he : k.envid2env cur envid true = some e)
    (hf : k.uloadTf tf = some frame) (h : frameAdmits k cur envid tf) : lockedStatus frame.cp0Status := by
  simpa [frameAdmits, hva, he, hf] using h

/-- What the run of the system keeps. -/
structure StatusInv (s : State) : Prop where
  frames : FramesOk s.kern
  cur : ∀ c, s.kern.curenv = some c → lockedStatus (s.nextStatus c)

namespace StatusInv

private theorem ktf {k : Kern} {x : Exception} (h : StatusInv ⟨.entered x, k⟩) : KtfOk k := by
  intro c hc
  have hcur := h.cur c hc
  rw [State.nextStatus, if_pos hc] at hcur
  exact hcur

private theorem entered {k : Kern} {x : Exception} (h : FramesOk k) (hk : KtfOk k) : StatusInv ⟨.entered x, k⟩ := by
  refine ⟨h, fun c hc => ?_⟩
  rw [State.nextStatus, if_pos hc]
  exact hk c hc

private theorem leaving_true {k : Kern} (h : FramesOk k) (hk : KtfOk k) : StatusInv ⟨.leaving true, k⟩ := by
  refine ⟨h, fun c hc => ?_⟩
  rw [State.nextStatus, if_pos hc]
  exact hk c hc

private theorem leaving_false {k : Kern} (h : FramesOk k) (hlive : LiveOk k) : StatusInv ⟨.leaving false, k⟩ := by
  refine ⟨h, fun c hc => ?_⟩
  rw [State.nextStatus, if_pos hc]
  exact h c (hlive.cur c hc)

/-- An admitted call keeps the frames proper; if it returns, it keeps the one below `KSTACKTOP` proper as well. -/
private theorem call {k k' : Kern} {cur : EnvPtr} {c : Call} {r : Option Word} (h : FramesOk k) (hk : KtfOk k)
    (hlive : (k.envs cur).envStatus ≠ .FREE) (hcur : k.curenv = some cur) (hok : callStatusAdmits k cur c) (hs : CallStep k cur c k' r) :
    FramesOk k' ∧ (r ≠ none → KtfOk k') := by
  cases hs with
  | unchanged => exact ⟨h, fun _ => hk⟩
  | yield hs => exact ⟨h.schedule hk hs, fun hr => absurd rfl hr⟩
  | @envDestroy _ _ _ left _ hd =>
    obtain ⟨h', hk'⟩ := h.destroy hk hd
    refine ⟨h', fun hr => hk' ?_⟩
    cases left with
    | false => rfl
    | true => exact absurd rfl hr
  | setTlbModEntry => exact ⟨h.setEnv_same rfl rfl, fun _ => hk⟩
  | @memAlloc _ _ _ _ _ _ pm _ _ _ _ hi =>
    have h' := FramesOk.pageInsertEnv (k := k.setPm pm) h hi
    obtain ⟨_, _, _, _, rfl⟩ := pageInsertEnv_cases hi
    exact ⟨h'.1, fun _ => hk⟩
  | memMap _ _ _ _ _ hi =>
    have h' := h.pageInsertEnv hi
    obtain ⟨_, _, _, _, rfl⟩ := pageInsertEnv_cases hi
    exact ⟨h'.1, fun _ => hk⟩
  | memUnmap => exact ⟨h, fun _ => hk⟩
  | @exofork e k₁ ha =>
    obtain ⟨h', -⟩ := h.alloc ha
    obtain ⟨rest, pgdir, pm, asid, bitmap, -, -, -, rfl⟩ := envAlloc_cases ha
    exact ⟨h'.setEnv fun _ => hk cur hcur, fun _ => hk⟩
  | setEnvStatus hst he hs =>
    obtain ⟨q, -, rfl⟩ := Option.map_eq_some_iff.1 hs
    exact ⟨FramesOk.setEnv (k := k.setSched q) h fun _ => h _ (envid2env_live hlive he), fun _ => hk⟩
  | setTrapframe hva he hf =>
    obtain ⟨h', hk'⟩ := h.setTf cur _ (frameAdmits_locked hva he hf hok)
    exact ⟨h', fun _ => hk' hk⟩
  | ipcWoken _ he => exact ⟨h.ipcWake (envid2env_live hlive he) _ _ _, fun _ => hk⟩
  | ipcPage _ he _ _ _ _ hi =>
    have hw := (h.ipcWake (envid2env_live hlive he) _ _ _).pageInsertEnv hi
    obtain ⟨_, _, _, _, rfl⟩ := pageInsertEnv_cases hi
    exact ⟨hw.1, fun _ => hk⟩
  | @ipcRecv dstva _ _ hs =>
    have hw : FramesOk (k.ipcWait cur dstva) :=
      FramesOk.setEnv (k := k.setKtf (k.ktf.setReg 2 0)) h fun _ => h cur hlive
    exact ⟨hw.schedule hk hs, fun hr => absurd rfl hr⟩
  | @sigaction _ _ _ _ m => exact ⟨FramesOk.setEnv_same (k := k.setUmem m) h rfl rfl, fun _ => hk⟩
  | @sigprocmask _ _ _ _ m => exact ⟨FramesOk.setEnv_same (k := k.setUmem m) h rfl rfl, fun _ => hk⟩
  | kill _ hn =>
    have hp := h.pended hn
    obtain ⟨-, rfl⟩ := signoAlloc_cases hn
    exact ⟨hp _, fun _ => hk⟩
  | backDoSignal hva he hf =>
    obtain ⟨h', hk'⟩ := h.setTf cur _ (frameAdmits_locked hva he hf hok)
    exact ⟨h'.setEnv_same rfl rfl, fun _ => hk' hk⟩
  | setSigEntry => exact ⟨h.setEnv_same rfl rfl, fun _ => hk⟩

private theorem ret {k k' : Kern} {c : EnvPtr} {returned : Bool} {tf : Trapframe} (h : StatusInv ⟨.leaving returned, k⟩)
    (hc : k.curenv = some c) (hd : k.doSignal c (k.retTf c returned) = some (k', tf)) :
    StatusInv ⟨.user, (k'.storeTf c returned tf).restore tf⟩ := by
  obtain ⟨hf, htf⟩ := doSignal_frame hd
  have hcur := h.cur c hc
  rw [State.nextStatus, if_pos hc] at hcur
  have hlocked : lockedStatus tf.cp0Status := by
    rw [htf]
    cases returned with
    | true => exact hcur
    | false => exact hcur
  have hframes : FramesOk k' := h.frames.sigFrame hf
  have hk' : FramesOk (k'.storeTf c returned tf) := by
    unfold storeTf
    split
    · exact hframes
    · exact hframes.setEnv fun _ => hlocked
  refine ⟨hk', fun c' hc' => ?_⟩
  rw [State.nextStatus, if_pos hc']
  show lockedStatus (pushMode (rfe tf.cp0Status))
  rw [lockedStatus_pushMode_rfe]
  exact hlocked

/-- An admitted step keeps the mode. -/
private theorem step {s s' : State} {ev : Event} (h : StatusInv s) (hlive : LiveOk s.kern) (hok : statusAdmits s ev)
    (hs : Step s ev s') : StatusInv s' := by
  have hlive' := hlive.step hs
  cases hs with
  | @create k k' _ _ hc =>
    obtain ⟨hf, hcur, hcpu⟩ := h.frames.create hc
    refine ⟨hf, fun c hc => ?_⟩
    have hstatus := h.cur c (hcur ▸ hc)
    rw [State.nextStatus, if_pos (hcur ▸ hc)] at hstatus
    rw [State.nextStatus, if_pos hc]
    show lockedStatus (pushMode k'.cpu.cp0Status)
    rw [hcpu]
    exact hstatus
  | evict => exact ⟨h.frames, h.cur⟩
  | @idle k _ hc =>
    refine entered h.frames fun c hcur => ?_
    rw [hc] at hcur
    cases hcur
  | @save k u x =>
    refine entered h.frames fun c hc => ?_
    have hcpu := h.cur c hc
    rw [State.nextStatus, if_pos (show k.curenv = some c from hc)] at hcpu
    show lockedStatus (pushMode _)
    have hcu0 : has k.cpu.cp0Status STATUS_CU0 = false := by
      rw [← has_pushMode_CU0]
      simp only [lockedStatus, Bool.and_eq_true, Bool.not_eq_true'] at hcpu
      exact hcpu.2
    rw [if_neg (by rw [hcu0]; exact nofun)]
    exact hcpu
  | tick hs => exact leaving_false (h.frames.schedule h.ktf hs) hlive'
  | noSys => exact leaving_true h.frames h.ktf
  | @call k _ _ _ _ _ hc hd hs =>
    obtain ⟨hf, hk⟩ := call (k := k.skipInsn) h.frames h.ktf (hlive.cur _ hc) hc ((onCall_eq hc hd).symm.trans hok) hs
    exact leaving_true hf (hk nofun)
  | @left k _ _ _ _ hc hd hs =>
    obtain ⟨hf, -⟩ := call (k := k.skipInsn) h.frames h.ktf (hlive.cur _ hc) hc ((onCall_eq hc hd).symm.trans hok) hs
    exact leaving_false hf hlive'
  | @tlbMiss k _ c _ _ _ _ hc _ hs =>
    obtain ⟨hf, hk⟩ := h.frames.served hs
    refine leaving_true hf fun c' _ => ?_
    show lockedStatus (Kern.ktf _).cp0Status
    rw [tlbWrite, setPm_ktf, hk]
    exact h.ktf c hc
  | tlbMod _ hc htf =>
    refine leaving_true h.frames fun c' _ => ?_
    show lockedStatus (Trapframe.cp0Status _)
    rw [setKtf_ktf, htf]
    exact h.ktf _ hc
  | ret hc hd => exact h.ret hc hd

private theorem boot (mc : Machine) : StatusInv ⟨.user, mc.bootKern⟩ :=
  ⟨fun _ he => absurd rfl he, nofun⟩

end StatusInv

/-- The step takes no improper status word from user memory, and leads the kernel to no memory of its own. -/
def statusArgsAdmits (s : State) (ev : Event) : Bool := statusAdmits s ev && s.argsInUser ev

/-- An environment restores a frame from its stack: first one with a proper status word, then one of zeros. -/
def restoreFrame (status : Word) : List Event :=
  .create .empty 1 :: tickEvents ++ trapEvents (argRegs 11 0 (USTACKTOP - 0x400) 0)
    (fun a => if a = USTACKTOP - 0x400 + 128 then status else 0) (.syscall 0)

private theorem restoreFrame_isSome :
    (Machine.gxemul.after statusArgsAdmits (restoreFrame (STATUS_IM4 ||| STATUS_KUp ||| STATUS_IEp))).isSome := by
  decide +kernel

/-- A frame of zeros is accepted, and the environment goes on in kernel mode without interrupts. -/
private theorem restoreFrame_zero : (Machine.gxemul.after (fun _ _ => true) (restoreFrame 0)).any (fun s =>
    s.inUser && decide ((s.kern.envs 0).envStatus ≠ .FREE) && !userStatus (s.nextStatus 0)) := by
  decide +kernel

end Mos
