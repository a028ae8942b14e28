import Mos.Kern.Inversion
import Mos.Kern.UserMem

/-!
# What a system call and a signal delivery can do

The inversion lemmas of `Mos.Kern.Inversion` continued: `CallStep` lists the effects of the system calls, and
`doSignal_cases` those of `_do_signal`.
-/

namespace Mos

namespace Kern

/-! ### User memory -/

theorem uload_eq {k : Kern} {a v : Word} (h : k.uload a = some v) : v = k.umem a := by
  unfold uload at h
  split at h
  · exact (Option.some.inj h).symm
  · cases h

theorem ustore_cases {k k' : Kern} {a v : Word} (h : k.ustore a v = some k') :
    (a.toNat % 4 = 0 ∧ UTEMP ≤ a ∧ a < UTOP) ∧ k' = k.setUmem (Function.update k.umem a v) := by
  unfold ustore at h
  split at h
  case isTrue ha => exact ⟨ha, (Option.some.inj h).symm⟩
  case isFalse => cases h

theorem ustoreSigset_cases {k k' : Kern} {a : Word} {s : Sigset} (h : k.ustoreSigset a s = some k') :
    ∃ m, k' = k.setUmem m := by
  obtain ⟨k₁, h₁, h⟩ := Option.bind_eq_some_iff.1 h
  obtain ⟨-, rfl⟩ := ustore_cases h₁
  obtain ⟨-, rfl⟩ := ustore_cases h
  exact ⟨_, rfl⟩

theorem ustoreWords_cases {k k' : Kern} {a : Word} {w : Nat → Word} {n : Nat}
    (h : k.ustoreWords a w n = some k') : ∃ m, k' = k.setUmem m := by
  unfold ustoreWords at h
  generalize List.range n = l at h
  induction l generalizing k with
  | nil => exact ⟨k.umem, (Option.some.inj h).symm⟩
  | cons i l ih =>
    obtain ⟨k₁, h₁, h⟩ := Option.bind_eq_some_iff.1 h
    obtain ⟨-, rfl⟩ := ustore_cases h₁
    obtain ⟨m, rfl⟩ := ih h
    exact ⟨m, rfl⟩

/-! ### Delivering a signal -/

/-- `k'` differs from `k` at most in the nodes, in user memory and in the pending list and the mask of `c`. -/
def SigFrame (c : EnvPtr) (k k' : Kern) : Prop :=
  ∃ signos free umem header mask, k' = ((k.setSignos signos free).setUmem umem).setEnv c fun env =>
    { env with signoHeader := header, envSigprocmask := mask }

variable {c : EnvPtr} {k k' k₁ : Kern}

private theorem SigFrame.refl (c : EnvPtr) (k : Kern) : SigFrame c k k :=
  ⟨k.signos, k.signoFreeList, k.umem, (k.envs c).signoHeader, (k.envs c).envSigprocmask,
    (setEnv_id k c).symm.trans (by simp [setEnv, setSignos, setUmem])⟩

private theorem SigFrame.trans (h : SigFrame c k k₁) (h' : SigFrame c k₁ k') : SigFrame c k k' := by
  obtain ⟨_, _, _, _, _, rfl⟩ := h
  obtain ⟨signos, free, umem, header, mask, rfl⟩ := h'
  refine ⟨signos, free, umem, header, mask, ?_⟩
  simp [setEnv, setSignos, setUmem]

theorem SigFrame.setUmem (c : EnvPtr) (k : Kern) (m : Word → Word) : SigFrame c k (k.setUmem m) :=
  ⟨k.signos, k.signoFreeList, m, (k.envs c).signoHeader, (k.envs c).envSigprocmask,
    (setEnv_id _ c).symm.trans (by simp [setEnv, setSignos, Kern.setUmem])⟩

private theorem SigFrame.setSignos (c : EnvPtr) (k : Kern) (s : SignoPtr → SignoNode) (f : Option SignoPtr) :
    SigFrame c k (k.setSignos s f) :=
  ⟨s, f, k.umem, (k.envs c).signoHeader, (k.envs c).envSigprocmask,
    (setEnv_id _ c).symm.trans (by simp [setEnv, Kern.setSignos, Kern.setUmem])⟩

private theorem SigFrame.signoFree (c : EnvPtr) (k : Kern) (n : SignoPtr) : SigFrame c k (k.signoFree n) :=
  (SigFrame.setSignos c k _ _).trans (SigFrame.setSignos c _ _ _)

private theorem SigFrame.setHeader (c : EnvPtr) (k : Kern) (header : Option SignoPtr) :
    SigFrame c k (k.setEnv c fun env => { env with signoHeader := header }) :=
  ⟨k.signos, k.signoFreeList, k.umem, header, (k.envs c).envSigprocmask, rfl⟩

private theorem SigFrame.unlink (c : EnvPtr) (k : Kern) (frm : Option SignoPtr) (n : SignoPtr) :
    SigFrame c k (k.unlink c frm n) := by
  cases frm with
  | some f => exact SigFrame.setSignos c k _ _
  | none => exact SigFrame.setHeader c k none

/-- A field of the environments that is neither the pending list nor the mask is unchanged. -/
theorem SigFrame.field {β : Type} (g : Env → β)
    (hg : ∀ env header mask, g { env with signoHeader := header, envSigprocmask := mask } = g env)
    (h : SigFrame c k k') (e : EnvPtr) : g (k'.envs e) = g (k.envs e) := by
  obtain ⟨_, _, _, _, _, rfl⟩ := h
  exact setEnv_field g (hg _ _ _) e

/-- The other environments are unchanged. -/
theorem SigFrame.envs_of_ne (h : SigFrame c k k') {e : EnvPtr} (he : e ≠ c) : k'.envs e = k.envs e := by
  obtain ⟨_, _, _, _, _, rfl⟩ := h
  exact setEnv_of_ne he

/-- The scan changes neither masks nor user memory. -/
theorem scan_frame {fuel : Nat} {frm ptr : Option SignoPtr} {s : Scan} (h : scan c fuel k frm ptr = some s) :
    SigFrame c k s.kern := by
  induction fuel generalizing k frm ptr s with
  | zero => cases h
  | succ fuel ih =>
    cases ptr with
    | none =>
      obtain rfl := Option.some.inj h
      exact .refl c k
    | some n =>
      obtain ⟨signo, -, h⟩ := Option.bind_eq_some_iff.1 h
      split at h
      case isTrue => exact ih h
      case isFalse =>
        have hf : SigFrame c k ((k.unlink c frm n).signoFree n) :=
          (SigFrame.unlink c k frm n).trans (.signoFree c _ n)
        dsimp only at h
        split at h
        case isTrue =>
          obtain ⟨s', hs', rfl⟩ := Option.map_eq_some_iff.1 h
          exact hf.trans (ih (s := s') hs')
        case isFalse =>
          obtain rfl := Option.some.inj h
          exact hf

theorem pushSignal_cases {tf tf' : Trapframe} {signo : Nat} (h : k.pushSignal c tf signo = some (k', tf')) :
    (k.envs c).doSignalEntry ≠ 0 ∧ tf' = handlerTf (k.envs c) tf signo ∧
      ∃ m, k' = (k.setUmem m).setEnv c fun env =>
        { env with envSigprocmask := ((k.envs c).handler signo).saMask } := by
  rw [pushSignal_eq] at h
  split at h
  case isFalse => cases h
  case isTrue hok =>
    simp only [Option.some.injEq, Prod.mk.injEq] at h
    obtain ⟨rfl, rfl⟩ := h
    exact ⟨hok.1, rfl, _, rfl⟩

/-- `_do_signal` scans; then it either leaves the frame alone or sends it to the handler. -/
theorem doSignal_cases {tf tf' : Trapframe} (h : k.doSignal c tf = some (k', tf')) :
    ∃ s, scan c (MAX_SIG_NUM + 1) k none (k.envs c).signoHeader = some s ∧
      ((s.found = none ∧ k' = s.kern ∧ tf' = tf) ∨
        ∃ signo, s.found = some signo ∧ s.kern.pushSignal c tf signo = some (k', tf')) := by
  obtain ⟨s, hs, h⟩ := Option.bind_eq_some_iff.1 h
  refine ⟨s, hs, ?_⟩
  split at h
  case h_1 hn =>
    simp only [Option.some.injEq, Prod.mk.injEq] at h
    exact .inl ⟨hn, h.1.symm, h.2.symm⟩
  case h_2 signo hn => exact .inr ⟨signo, hn, h⟩

theorem doSignal_frame {tf tf' : Trapframe} (h : k.doSignal c tf = some (k', tf')) :
    SigFrame c k k' ∧ tf'.cp0Status = tf.cp0Status := by
  obtain ⟨s, hs, ⟨-, rfl, rfl⟩ | ⟨signo, -, h⟩⟩ := doSignal_cases h
  · exact ⟨scan_frame hs, rfl⟩
  · obtain ⟨-, rfl, m, rfl⟩ := pushSignal_cases h
    refine ⟨(scan_frame hs).trans ?_, rfl⟩
    exact ⟨s.kern.signos, s.kern.signoFreeList, m, (s.kern.envs c).signoHeader,
      ((s.kern.envs c).handler signo).saMask, rfl⟩

theorem signoAlloc_cases {signo : Word} {n : SignoPtr} (h : k.signoAlloc signo = some (n, k')) :
    k.signoFreeList = some n ∧ k' =
      k.setSignos (Function.update k.signos n { k.signos n with signo := signo.setWidth 8 }) (k.signos n).next := by
  obtain ⟨n', hn, h⟩ := Option.map_eq_some_iff.1 h
  simp only [Prod.mk.injEq] at h
  obtain ⟨rfl, rfl⟩ := h
  exact ⟨hn, rfl⟩

/-! ### System calls -/

theorem pageInsertEnv_cases {e : EnvPtr} {pp : Nat} {va perm r : Word}
    (h : k.pageInsertEnv e pp va perm = some (r, k')) :
    ∃ pgdir pm, (k.envs e).envPgdir = some pgdir ∧
      k.pm.pageInsert pgdir (k.envs e).envAsid pp va perm = some (r, pm) ∧ k' = k.setPm pm := by
  obtain ⟨pgdir, hp, h⟩ := Option.bind_eq_some_iff.1 h
  obtain ⟨⟨r', pm⟩, hpm, h⟩ := Option.map_eq_some_iff.1 h
  simp only [Prod.mk.injEq] at h
  obtain ⟨rfl, rfl⟩ := h
  exact ⟨pgdir, pm, hp, hpm, rfl⟩

theorem pageLookupEnv_cases {e : EnvPtr} {pp : Nat} {va : Word} (h : k.pageLookupEnv e va = some (some pp)) :
    ∃ pgdir pte, (k.envs e).envPgdir = some pgdir ∧ k.pm.pageLookup pgdir va = some (some (pp, pte)) := by
  obtain ⟨pgdir, hp, h⟩ := Option.bind_eq_some_iff.1 h
  obtain ⟨r, hr, h⟩ := Option.map_eq_some_iff.1 h
  obtain ⟨⟨pp', pte⟩, rfl, rfl⟩ := Option.map_eq_some_iff.1 h
  exact ⟨pgdir, pte, hp, hr⟩

/-- The frame of `e` is replaced: below `KSTACKTOP` when `e` is the caller. -/
def setTf (k : Kern) (cur e : EnvPtr) (frame : Trapframe) : Kern :=
  if e = cur then k.setKtf frame else k.setEnv e fun env => { env with envTf := frame }

/-- The node `insert` is put at the head of the pending list of `e`. -/
def pended (k : Kern) (e : EnvPtr) (insert : SignoPtr) : Kern :=
  (k.setNext insert (k.envs e).signoHeader).setEnv e fun env => { env with signoHeader := some insert }

/-- The handler table after `sys_sigaction`. -/
inductive TableStep (k : Kern) (cur : EnvPtr) : Word → (Fin 64 → Sigaction) → Prop
  | same (act : Word) : TableStep k cur act (k.envs cur).sighandlerTable
  | set {act handler : Word} {mask : Sigset} (i : Fin 64) (hm : k.uloadSigset (act + 4) = some mask) :
      TableStep k cur act (Function.update (k.envs cur).sighandlerTable i ⟨handler, mask⟩)

/-- The mask after `sys_sigprocmask`. -/
inductive MaskStep (k : Kern) (cur : EnvPtr) : Word → Word → Sigset → Prop
  | same (how set : Word) : MaskStep k cur how set (k.envs cur).envSigprocmask
  | set {how set : Word} {s mask : Sigset} (hs : k.uloadSigset set = some s)
      (hm : newMask (k.envs cur).envSigprocmask how s = some mask) : MaskStep k cur how set mask

/-- What is known of a call that returned `r` without changing anything. -/
def Fails (k : Kern) (cur : EnvPtr) (r : Word) : Call → Prop
  | .kill envid _ => k.envid2env cur envid false = none
  | .exofork => k.envFreeList = []
  | .ipcTrySend _ _ _ _ => r ≠ 0
  | .ipcRecv dstva => dstva ≠ 0 ∧ isIllegalVa dstva
  | _ => True

/-- The effects of the system calls that return or reschedule; a call that fails early changes nothing. -/
inductive CallStep (k : Kern) (cur : EnvPtr) : Call → Kern → Option Word → Prop
  | unchanged (c : Call) (r : Word) (hfail : k.Fails cur r c) : CallStep k cur c k (some r)
  | yield {k' : Kern} (h : k.schedule true = some k') : CallStep k cur .yield k' none
  | envDestroy {envid : Word} {e : EnvPtr} {k' : Kern} {left : Bool} (he : k.envid2env cur envid true = some e)
      (h : k.envDestroy e = some (k', left)) :
      CallStep k cur (.envDestroy envid) k' (if left then none else some 0)
  | setTlbModEntry {envid func : Word} {e : EnvPtr} (he : k.envid2env cur envid true = some e) :
      CallStep k cur (.setTlbModEntry envid func) (k.setEnv e fun env => { env with envUserTlbModEntry := func })
        (some 0)
  | memAlloc {envid va perm r : Word} {e : EnvPtr} {pp : Nat} {pm : Pmap} {k' : Kern}
      (hva : isIllegalVa va = false) (he : k.envid2env cur envid true = some e)
      (hp : k.pm.pageAlloc = some (pp, pm)) (hi : (k.setPm pm).pageInsertEnv e pp va perm = some (r, k')) :
      CallStep k cur (.memAlloc envid va perm) k' (some r)
  | memMap {srcid srcva dstid dstva perm r : Word} {srcenv dstenv : EnvPtr} {pp : Nat} {k' : Kern}
      (hsrcva : isIllegalVa srcva = false) (hdstva : isIllegalVa dstva = false)
      (hs : k.envid2env cur srcid true = some srcenv) (hd : k.envid2env cur dstid true = some dstenv)
      (hl : k.pageLookupEnv srcenv srcva = some (some pp)) (hi : k.pageInsertEnv dstenv pp dstva perm = some (r, k')) :
      CallStep k cur (.memMap srcid srcva dstid dstva perm) k' (some r)
  | memUnmap {envid va : Word} {e : EnvPtr} {pgdir : Nat} {pm : Pmap} (hva : isIllegalVa va = false)
      (he : k.envid2env cur envid true = some e) (hp : (k.envs e).envPgdir = some pgdir)
      (hr : k.pm.pageRemove pgdir (k.envs e).envAsid va = some pm) :
      CallStep k cur (.memUnmap envid va) (k.setPm pm) (some 0)
  | exofork {e : EnvPtr} {k₁ : Kern} (h : k.envAlloc (k.envs cur).envId = some (e, k₁)) :
      CallStep k cur .exofork (k₁.setEnv e (k₁.forkEnv cur)) (some (k₁.envs e).envId)
  | setEnvStatus {envid status : Word} {st : EnvStatus} {e : EnvPtr} {k' : Kern}
      (hst : legalStatus status = some st) (he : k.envid2env cur envid true = some e)
      (h : k.setEnvStatus e st = some k') : CallStep k cur (.setEnvStatus envid status) k' (some 0)
  | setTrapframe {envid tf r : Word} {e : EnvPtr} {frame : Trapframe} (hva : isIllegalVaRange tf TF_SIZE = false)
      (he : k.envid2env cur envid true = some e) (hf : k.uloadTf tf = some frame) :
      CallStep k cur (.setTrapframe envid tf) (k.setTf cur e frame) (some r)
  | ipcWoken {envid value srcva perm r : Word} {e : EnvPtr} {q : TailQueue EnvPtr}
      (hva : srcva = 0 ∨ isIllegalVa srcva = false) (he : k.envid2env cur envid false = some e)
      (hrecv : (k.envs e).envIpcRecving ≠ 0) (hq : k.sched.insertTail e = some q)
      (hr : (srcva = 0 ∧ r = 0) ∨
        (srcva ≠ 0 ∧ (k.ipcWake cur e value perm q).pageLookupEnv cur srcva = some none)) :
      CallStep k cur (.ipcTrySend envid value srcva perm) (k.ipcWake cur e value perm q) (some r)
  | ipcPage {envid value srcva perm r : Word} {e : EnvPtr} {q : TailQueue EnvPtr} {pp : Nat} {k' : Kern}
      (hva : isIllegalVa srcva = false) (he : k.envid2env cur envid false = some e)
      (hrecv : (k.envs e).envIpcRecving ≠ 0) (hq : k.sched.insertTail e = some q) (h0 : srcva ≠ 0)
      (hl : (k.ipcWake cur e value perm q).pageLookupEnv cur srcva = some (some pp))
      (hi : (k.ipcWake cur e value perm q).pageInsertEnv e pp
        ((k.ipcWake cur e value perm q).envs e).envIpcDstva perm = some (r, k')) :
      CallStep k cur (.ipcTrySend envid value srcva perm) k' (some 0)
  | ipcRecv {dstva : Word} {k' : Kern} (hva : dstva = 0 ∨ isIllegalVa dstva = false)
      (h : (k.ipcWait cur dstva).schedule true = some k') : CallStep k cur (.ipcRecv dstva) k' none
  | sigaction {signo act oldact r : Word} {m : Word → Word} {table : Fin 64 → Sigaction}
      (ht : k.TableStep cur act table) :
      CallStep k cur (.sigaction signo act oldact)
        ((k.setUmem m).setEnv cur fun env => { env with sighandlerTable := table }) (some r)
  | sigprocmask {how set oldset r : Word} {m : Word → Word} {mask : Sigset} (hm : k.MaskStep cur how set mask) :
      CallStep k cur (.sigprocmask how set oldset)
        ((k.setUmem m).setEnv cur fun env => { env with envSigprocmask := mask }) (some r)
  | kill {envid signo : Word} {e : EnvPtr} {insert : SignoPtr} {k₁ : Kern}
      (he : k.envid2env cur envid false = some e) (hn : k.signoAlloc signo = some (insert, k₁)) :
      CallStep k cur (.kill envid signo) (k₁.pended e insert) (some 0)
  | backDoSignal {envid tf originMask r : Word} {e : EnvPtr} {frame : Trapframe} {mask : Sigset}
      (hva : isIllegalVaRange tf TF_SIZE = false)
      (he : k.envid2env cur envid true = some e) (hf : k.uloadTf tf = some frame)
      (hm : mask = ((k.setTf cur e frame).envs cur).envSigprocmask ∨
        ((e = cur → (frame.regs 2).slt 0 = false) ∧ (k.setTf cur e frame).uloadSigset originMask = some mask)) :
      CallStep k cur (.backDoSignal envid tf originMask)
        ((k.setTf cur e frame).setEnv cur fun env => { env with envSigprocmask := mask }) (some r)
  | setSigEntry {envid entry : Word} {e : EnvPtr} (he : k.envid2env cur envid false = some e) :
      CallStep k cur (.setSigEntry envid entry) (k.setEnv e fun env => { env with doSignalEntry := entry }) (some 0)

variable {cur : EnvPtr} {r : Option Word}

/-- A pair in a result, taken apart. -/
private theorem pair_inj {k k' : Kern} {r r' : Option Word} (h : some (k, r) = some (k', r')) : k = k' ∧ r = r' := by
  simpa using h

private theorem sysEnvDestroy_step {envid : Word} (h : k.sysEnvDestroy cur envid = some (k', r)) :
    CallStep k cur (.envDestroy envid) k' r := by
  unfold sysEnvDestroy at h
  split at h
  case h_1 => obtain ⟨rfl, rfl⟩ := pair_inj h; exact .unchanged _ _ trivial
  case h_2 e he =>
    obtain ⟨⟨k₁, left⟩, h₁, h⟩ := Option.map_eq_some_iff.1 h
    simp only [Prod.mk.injEq] at h
    obtain ⟨rfl, rfl⟩ := h
    exact .envDestroy he h₁

private theorem sysSetTlbModEntry_step {envid func : Word} (h : k.sysSetTlbModEntry cur envid func = some (k', r)) :
    CallStep k cur (.setTlbModEntry envid func) k' r := by
  unfold sysSetTlbModEntry at h
  split at h <;> obtain ⟨rfl, rfl⟩ := pair_inj h
  case h_1 => exact .unchanged _ _ trivial
  case h_2 e he => exact .setTlbModEntry he

/-- `sys_mem_alloc` fails, or inserts the page that it took. -/
theorem sysMemAlloc_cases {envid va perm : Word} (h : k.sysMemAlloc cur envid va perm = some (k', r)) :
    (∃ v, r = some v ∧ v.slt 0 = true ∧ k' = k) ∨
    ∃ e pp pm v, r = some v ∧ isIllegalVa va = false ∧ k.envid2env cur envid true = some e ∧
      k.pm.pageAlloc = some (pp, pm) ∧ (k.setPm pm).pageInsertEnv e pp va perm = some (v, k') := by
  unfold sysMemAlloc at h
  split at h
  case isTrue => obtain ⟨rfl, rfl⟩ := pair_inj h; exact .inl ⟨-E_INVAL, rfl, by decide, rfl⟩
  case isFalse hva =>
    split at h
    case h_1 => obtain ⟨rfl, rfl⟩ := pair_inj h; exact .inl ⟨-E_BAD_ENV, rfl, by decide, rfl⟩
    case h_2 e he =>
      split at h
      case h_1 => obtain ⟨rfl, rfl⟩ := pair_inj h; exact .inl ⟨-E_NO_MEM, rfl, by decide, rfl⟩
      case h_2 pp pm hp =>
        obtain ⟨⟨r₁, k₁⟩, hi, h⟩ := Option.map_eq_some_iff.1 h
        simp only [Prod.mk.injEq] at h
        obtain ⟨rfl, rfl⟩ := h
        exact .inr ⟨e, pp, pm, r₁, rfl, by simpa using hva, he, hp, hi⟩

private theorem sysMemAlloc_step {envid va perm : Word} (h : k.sysMemAlloc cur envid va perm = some (k', r)) :
    CallStep k cur (.memAlloc envid va perm) k' r := by
  rcases sysMemAlloc_cases h with ⟨v, rfl, -, rfl⟩ | ⟨e, pp, pm, v, rfl, hva, he, hp, hi⟩
  · exact .unchanged _ _ trivial
  · exact .memAlloc hva he hp hi

/-- `sys_mem_map` fails, or inserts the page that it found. -/
theorem sysMemMap_cases {srcid srcva dstid dstva perm : Word}
    (h : k.sysMemMap cur srcid srcva dstid dstva perm = some (k', r)) :
    (∃ v, r = some v ∧ v.slt 0 = true ∧ k' = k) ∨
    ∃ srcenv dstenv pp v, r = some v ∧ isIllegalVa srcva = false ∧ isIllegalVa dstva = false ∧
      k.envid2env cur srcid true = some srcenv ∧ k.envid2env cur dstid true = some dstenv ∧
      k.pageLookupEnv srcenv srcva = some (some pp) ∧ k.pageInsertEnv dstenv pp dstva perm = some (v, k') := by
  unfold sysMemMap at h
  split at h
  case isTrue => obtain ⟨rfl, rfl⟩ := pair_inj h; exact .inl ⟨-E_INVAL, rfl, by decide, rfl⟩
  case isFalse hva =>
    simp only [Bool.or_eq_true, not_or, Bool.not_eq_true] at hva
    split at h
    case h_1 => obtain ⟨rfl, rfl⟩ := pair_inj h; exact .inl ⟨-E_BAD_ENV, rfl, by decide, rfl⟩
    case h_2 srcenv hs =>
      split at h
      case h_1 => obtain ⟨rfl, rfl⟩ := pair_inj h; exact .inl ⟨-E_BAD_ENV, rfl, by decide, rfl⟩
      case h_2 dstenv hd =>
        obtain ⟨q, hl, h⟩ := Option.bind_eq_some_iff.1 h
        cases q with
        | none => obtain ⟨rfl, rfl⟩ := pair_inj h; exact .inl ⟨-E_INVAL, rfl, by decide, rfl⟩
        | some pp =>
          obtain ⟨⟨r₁, k₁⟩, hi, h⟩ := Option.map_eq_some_iff.1 h
          simp only [Prod.mk.injEq] at h
          obtain ⟨rfl, rfl⟩ := h
          exact .inr ⟨srcenv, dstenv, pp, r₁, rfl, hva.1, hva.2, hs, hd, hl, hi⟩

private theorem sysMemMap_step {srcid srcva dstid dstva perm : Word}
    (h : k.sysMemMap cur srcid srcva dstid dstva perm = some (k', r)) :
    CallStep k cur (.memMap srcid srcva dstid dstva perm) k' r := by
  rcases sysMemMap_cases h with ⟨v, rfl, -, rfl⟩ | ⟨srcenv, dstenv, pp, v, rfl, hsrcva, hdstva, hs, hd, hl, hi⟩
  · exact .unchanged _ _ trivial
  · exact .memMap hsrcva hdstva hs hd hl hi

private theorem sysMemUnmap_step {envid va : Word} (h : k.sysMemUnmap cur envid va = some (k', r)) :
    CallStep k cur (.memUnmap envid va) k' r := by
  unfold sysMemUnmap at h
  split at h
  case isTrue => obtain ⟨rfl, rfl⟩ := pair_inj h; exact .unchanged _ _ trivial
  case isFalse hva =>
    split at h
    case h_1 => obtain ⟨rfl, rfl⟩ := pair_inj h; exact .unchanged _ _ trivial
    case h_2 e he =>
      obtain ⟨pgdir, hp, h⟩ := Option.bind_eq_some_iff.1 h
      obtain ⟨pm, hr, h⟩ := Option.map_eq_some_iff.1 h
      simp only [Prod.mk.injEq] at h
      obtain ⟨rfl, rfl⟩ := h
      exact .memUnmap (by simpa using hva) he hp hr

private theorem sysExofork_step (h : k.sysExofork cur = some (k', r)) : CallStep k cur .exofork k' r := by
  unfold sysExofork at h
  split at h <;> obtain ⟨rfl, rfl⟩ := pair_inj h
  case h_1 hn => exact .unchanged _ _ (envAlloc_none hn)
  case h_2 e k₁ he => exact .exofork he

private theorem sysSetEnvStatus_step {envid status : Word} (h : k.sysSetEnvStatus cur envid status = some (k', r)) :
    CallStep k cur (.setEnvStatus envid status) k' r := by
  unfold sysSetEnvStatus at h
  split at h
  case h_1 => obtain ⟨rfl, rfl⟩ := pair_inj h; exact .unchanged _ _ trivial
  case h_2 st hst =>
    split at h
    case h_1 => obtain ⟨rfl, rfl⟩ := pair_inj h; exact .unchanged _ _ trivial
    case h_2 e he =>
      obtain ⟨k₁, h₁, h⟩ := Option.map_eq_some_iff.1 h
      simp only [Prod.mk.injEq] at h
      obtain ⟨rfl, rfl⟩ := h
      exact .setEnvStatus hst he h₁

/-- `sys_set_trapframe` changes nothing, or replaces a frame by one from user memory. -/
theorem sysSetTrapframe_cases {envid tf : Word} (h : k.sysSetTrapframe cur envid tf = some (k', r)) :
    ∃ v, r = some v ∧ ((v.slt 0 ∧ k' = k) ∨
      ∃ e frame, isIllegalVaRange tf TF_SIZE = false ∧ k.envid2env cur envid true = some e ∧
        k.uloadTf tf = some frame ∧ k' = k.setTf cur e frame ∧ (e = cur → v = frame.regs 2)) := by
  unfold sysSetTrapframe at h
  split at h
  case isTrue => obtain ⟨rfl, rfl⟩ := pair_inj h; exact ⟨_, rfl, .inl ⟨by decide, rfl⟩⟩
  case isFalse hva =>
    have hva : isIllegalVaRange tf TF_SIZE = false := by simpa using hva
    split at h
    case h_1 => obtain ⟨rfl, rfl⟩ := pair_inj h; exact ⟨_, rfl, .inl ⟨by decide, rfl⟩⟩
    case h_2 e he =>
      obtain ⟨frame, hf, h⟩ := Option.map_eq_some_iff.1 h
      by_cases hc : e = cur
      · rw [if_pos hc, Prod.mk.injEq] at h
        obtain ⟨rfl, rfl⟩ := h
        exact ⟨_, rfl, .inr ⟨e, frame, hva, he, hf, by rw [setTf, if_pos hc], fun _ => rfl⟩⟩
      · rw [if_neg hc, Prod.mk.injEq] at h
        obtain ⟨rfl, rfl⟩ := h
        exact ⟨_, rfl, .inr ⟨e, frame, hva, he, hf, by rw [setTf, if_neg hc], fun h => absurd h hc⟩⟩

private theorem sysSetTrapframe_step {envid tf : Word} (h : k.sysSetTrapframe cur envid tf = some (k', r)) :
    CallStep k cur (.setTrapframe envid tf) k' r := by
  obtain ⟨v, rfl, ⟨-, rfl⟩ | ⟨e, frame, hva, he, hf, rfl, -⟩⟩ := sysSetTrapframe_cases h
  · exact .unchanged _ _ trivial
  · exact .setTrapframe hva he hf

private theorem sysBackDoSignal_step {envid tf originMask : Word}
    (h : k.sysBackDoSignal cur envid tf originMask = some (k', r)) :
    CallStep k cur (.backDoSignal envid tf originMask) k' r := by
  unfold sysBackDoSignal at h
  split at h
  case isTrue => cases h
  case isFalse =>
    obtain ⟨⟨k₁, r₁⟩, h₁, h⟩ := Option.bind_eq_some_iff.1 h
    obtain ⟨v, rfl, hset⟩ := sysSetTrapframe_cases h₁
    dsimp only at h
    split at h
    case isTrue hv =>
      obtain ⟨rfl, rfl⟩ := pair_inj h
      obtain ⟨-, rfl⟩ | ⟨e, frame, hva, he, hf, rfl, -⟩ := hset
      · exact .unchanged _ _ trivial
      · have hid : k.setTf cur e frame = (k.setTf cur e frame).setEnv cur fun env =>
            { env with envSigprocmask := ((k.setTf cur e frame).envs cur).envSigprocmask } := by
          simp [setEnv]
        rw [hid]
        exact .backDoSignal hva he hf (.inl rfl)
    case isFalse hv =>
      obtain ⟨mask, hm, h⟩ := Option.map_eq_some_iff.1 h
      simp only [Prod.mk.injEq] at h
      obtain ⟨rfl, rfl⟩ := h
      obtain ⟨hv', -⟩ | ⟨e, frame, hva, he, hf, rfl, hv0⟩ := hset
      · exact absurd hv' hv
      · refine .backDoSignal hva he hf (.inr ⟨fun hc => ?_, hm⟩)
        rw [← hv0 hc]
        simpa using hv

private theorem sysIpcRecv_step {dstva : Word} (h : k.sysIpcRecv cur dstva = some (k', r)) :
    CallStep k cur (.ipcRecv dstva) k' r := by
  unfold sysIpcRecv at h
  split at h
  case isTrue hva => obtain ⟨rfl, rfl⟩ := pair_inj h; exact .unchanged _ _ hva
  case isFalse hva =>
    obtain ⟨k₁, h₁, h⟩ := Option.map_eq_some_iff.1 h
    simp only [Prod.mk.injEq] at h
    obtain ⟨rfl, rfl⟩ := h
    exact .ipcRecv (by simpa [or_iff_not_imp_left] using hva) h₁

private theorem sysIpcTrySend_step {envid value srcva perm : Word}
    (h : k.sysIpcTrySend cur envid value srcva perm = some (k', r)) :
    CallStep k cur (.ipcTrySend envid value srcva perm) k' r := by
  unfold sysIpcTrySend at h
  split at h
  case isTrue => obtain ⟨rfl, rfl⟩ := pair_inj h; exact .unchanged _ _ (show -E_INVAL ≠ 0 by decide)
  case isFalse hva =>
    have hva : srcva = 0 ∨ isIllegalVa srcva = false := by simpa [or_iff_not_imp_left] using hva
    split at h
    case h_1 => obtain ⟨rfl, rfl⟩ := pair_inj h; exact .unchanged _ _ (show -E_BAD_ENV ≠ 0 by decide)
    case h_2 e he =>
      split at h
      case isTrue => obtain ⟨rfl, rfl⟩ := pair_inj h; exact .unchanged _ _ (show -E_IPC_NOT_RECV ≠ 0 by decide)
      case isFalse hrecv =>
        obtain ⟨q, hq, h⟩ := Option.bind_eq_some_iff.1 h
        dsimp only at h
        split at h
        case isFalse h0 => obtain ⟨rfl, rfl⟩ := pair_inj h; exact .ipcWoken hva he hrecv hq (.inl ⟨by simpa using h0, rfl⟩)
        case isTrue h0 =>
          obtain ⟨p, hl, h⟩ := Option.bind_eq_some_iff.1 h
          cases p with
          | none => obtain ⟨rfl, rfl⟩ := pair_inj h; exact .ipcWoken hva he hrecv hq (.inr ⟨h0, hl⟩)
          | some pp =>
            obtain ⟨⟨r₁, k₁⟩, hi, h⟩ := Option.map_eq_some_iff.1 h
            simp only [Prod.mk.injEq] at h
            obtain ⟨rfl, rfl⟩ := h
            exact .ipcPage (hva.resolve_left h0) he hrecv hq h0 hl hi

private theorem sysSigaction_step {signo act oldact junk : Word}
    (h : k.sysSigaction cur signo act oldact junk = some (k', r)) :
    CallStep k cur (.sigaction signo act oldact) k' r := by
  unfold sysSigaction at h
  split at h
  case isFalse => cases h
  case isTrue hs =>
    dsimp only at h
    obtain ⟨k₁, h₁, h⟩ := Option.bind_eq_some_iff.1 h
    have hk₁ : ∃ table, k.TableStep cur act table ∧
        k₁ = k.setEnv cur fun env => { env with sighandlerTable := table } := by
      split at h₁
      case isTrue =>
        obtain rfl := Option.some.inj h₁
        exact ⟨_, .same act, by simp [setEnv]⟩
      case isFalse =>
        obtain ⟨handler, -, h₁⟩ := Option.bind_eq_some_iff.1 h₁
        obtain ⟨mask, hm, rfl⟩ := Option.map_eq_some_iff.1 h₁
        exact ⟨_, .set _ hm, rfl⟩
    obtain ⟨table, ht, rfl⟩ := hk₁
    split at h
    case isTrue => obtain ⟨rfl, rfl⟩ := pair_inj h; exact .sigaction (m := k.umem) ht
    case isFalse =>
      obtain ⟨k₂, h₂, h⟩ := Option.bind_eq_some_iff.1 h
      obtain ⟨k₃, h₃, h⟩ := Option.map_eq_some_iff.1 h
      simp only [Prod.mk.injEq] at h
      obtain ⟨rfl, rfl⟩ := h
      obtain ⟨-, rfl⟩ := ustore_cases h₂
      obtain ⟨m, rfl⟩ := ustoreSigset_cases h₃
      exact .sigaction (m := m) ht

private theorem sysSigprocmask_step {how set oldset junk : Word}
    (h : k.sysSigprocmask cur how set oldset junk = some (k', r)) :
    CallStep k cur (.sigprocmask how set oldset) k' r := by
  have hfin : ∀ mask, k.MaskStep cur how set mask →
      (if oldset = 0 then some ((k.setEnv cur fun env => { env with envSigprocmask := mask }), some junk)
        else ((k.setEnv cur fun env => { env with envSigprocmask := mask }).ustoreSigset oldset
          (k.envs cur).envSigprocmask).map fun k => (k, some junk)) = some (k', r) →
      CallStep k cur (.sigprocmask how set oldset) k' r := by
    intro mask hm h
    split at h
    case isTrue => obtain ⟨rfl, rfl⟩ := pair_inj h; exact .sigprocmask (m := k.umem) hm
    case isFalse =>
      obtain ⟨k₁, h₁, h⟩ := Option.map_eq_some_iff.1 h
      simp only [Prod.mk.injEq] at h
      obtain ⟨rfl, rfl⟩ := h
      obtain ⟨m, rfl⟩ := ustoreSigset_cases h₁
      exact .sigprocmask (m := m) hm
  unfold sysSigprocmask at h
  dsimp only at h
  split at h
  case isTrue =>
    refine hfin _ (.same how set) ?_
    simpa [setEnv] using h
  case isFalse =>
    obtain ⟨s, hs, h⟩ := Option.bind_eq_some_iff.1 h
    split at h
    case h_1 => obtain ⟨rfl, rfl⟩ := pair_inj h; exact .unchanged _ _ trivial
    case h_2 mask hm => exact hfin mask (.set hs hm) h

private theorem sysKill_step {envid signo : Word} (h : k.sysKill cur envid signo = some (k', r)) :
    CallStep k cur (.kill envid signo) k' r := by
  unfold sysKill at h
  split at h
  case h_1 he =>
    obtain ⟨rfl, rfl⟩ := pair_inj h
    exact .unchanged _ _ he
  case h_2 e he =>
    obtain ⟨⟨insert, k₁⟩, hn, h⟩ := Option.map_eq_some_iff.1 h
    simp only [Prod.mk.injEq] at h
    obtain ⟨rfl, rfl⟩ := h
    exact .kill he hn

private theorem sysSetSigEntry_step {envid entry : Word} (h : k.sysSetSigEntry cur envid entry = some (k', r)) :
    CallStep k cur (.setSigEntry envid entry) k' r := by
  unfold sysSetSigEntry at h
  split at h <;> obtain ⟨rfl, rfl⟩ := pair_inj h
  case h_1 => exact .unchanged _ _ trivial
  case h_2 e he => exact .setSigEntry he

private theorem sysCgetc_step {junk : Word} (h : k.sysCgetc junk = some (k', r)) : CallStep k cur .cgetc k' r := by
  unfold sysCgetc at h
  split at h
  case isTrue => cases h
  case isFalse => obtain ⟨rfl, rfl⟩ := pair_inj h; exact .unchanged _ _ trivial

/-- Copying to or from a device changes nothing, whatever it returns. -/
private theorem sysDev_cases {va pa len : Word} (h : k.sysDev va pa len = some (k', r)) : ∃ v, r = some v ∧ k' = k := by
  unfold sysDev at h
  split at h
  case isTrue => obtain ⟨rfl, rfl⟩ := pair_inj h; exact ⟨_, rfl, rfl⟩
  case isFalse =>
    split at h
    case isTrue =>
      split at h
      case isTrue => obtain ⟨rfl, rfl⟩ := pair_inj h; exact ⟨_, rfl, rfl⟩
      case isFalse => cases h
    case isFalse => obtain ⟨rfl, rfl⟩ := pair_inj h; exact ⟨_, rfl, rfl⟩

/-- Every call has one of the listed effects. -/
theorem call_step {junk : Word} {c : Call} (h : k.call cur junk c = some (k', r)) : CallStep k cur c k' r := by
  cases c with
  | putchar => obtain ⟨rfl, rfl⟩ := pair_inj h; exact .unchanged _ _ trivial
  | printCons => obtain ⟨rfl, rfl⟩ := pair_inj h; exact .unchanged _ _ trivial
  | panic => cases h
  | cgetc => exact sysCgetc_step h
  | writeDev => obtain ⟨_, rfl, rfl⟩ := sysDev_cases h; exact .unchanged _ _ trivial
  | readDev => obtain ⟨_, rfl, rfl⟩ := sysDev_cases h; exact .unchanged _ _ trivial
  | getenvid => obtain ⟨rfl, rfl⟩ := pair_inj h; exact .unchanged _ _ trivial
  | yield =>
    obtain ⟨k₁, h₁, h⟩ := Option.map_eq_some_iff.1 h
    simp only [Prod.mk.injEq] at h
    obtain ⟨rfl, rfl⟩ := h
    exact .yield h₁
  | envDestroy => exact sysEnvDestroy_step h
  | setTlbModEntry => exact sysSetTlbModEntry_step h
  | memAlloc => exact sysMemAlloc_step h
  | memMap => exact sysMemMap_step h
  | memUnmap => exact sysMemUnmap_step h
  | exofork => exact sysExofork_step h
  | setEnvStatus => exact sysSetEnvStatus_step h
  | setTrapframe => exact sysSetTrapframe_step h
  | ipcTrySend => exact sysIpcTrySend_step h
  | ipcRecv => exact sysIpcRecv_step h
  | sigaction => exact sysSigaction_step h
  | sigprocmask => exact sysSigprocmask_step h
  | kill => exact sysKill_step h
  | backDoSignal => exact sysBackDoSignal_step h
  | setSigEntry => exact sysSetSigEntry_step h

end Kern

end Mos
