import Mos.Kern.CallStep

/-!
# The steps of the system

`Step` lists what one step of the system can do.  Every invariant is shown by cases on it.
-/

namespace Mos

namespace Kern

variable {k k' : Kern}

/-! ### Entering the kernel -/

/-- The frame that `SAVE_ALL` writes. -/
def savedTf (k : Kern) (u : UserCtx) : Trapframe where
  regs := fun i => if i = 0 then 0 else if i = 26 ∨ i = 27 then k.ktf.regs i else u.regs i
  cp0Status := pushMode (if has k.cpu.cp0Status STATUS_CU0 then u.cp0Status else k.cpu.cp0Status)
  hi := u.hi
  lo := u.lo
  cp0Badvaddr := u.cp0Badvaddr
  cp0Cause := u.cp0Cause
  cp0Epc := u.cp0Epc

theorem saveAll_cases {u : UserCtx} (h : k.saveAll u = some k') :
    (u.regs 29).msb = false ∧ k' = (k.setUmem u.umem).setKtf (k.savedTf u) := by
  unfold saveAll at h
  split at h
  case isTrue => cases h
  case isFalse hm => exact ⟨by simpa using hm, (Option.some.inj h).symm⟩

/-! ### TLB exceptions -/

/-- The state in which `passive_alloc` allocates: with a signal pending for an address below `UTEMP`. -/
inductive Segv (k : Kern) (c : EnvPtr) (va : Word) : Kern → Prop
  | none (h : UTEMP ≤ va) : Segv k c va k
  | sent {n : SignoPtr} {k₁ : Kern} (h : va < UTEMP) (hn : k.signoAlloc (BitVec.ofNat 32 SIGSEGV) = some (n, k₁)) :
      Segv k c va (k₁.pended c n)

theorem passiveAlloc_cases {c : EnvPtr} {va : Word} (h : k.passiveAlloc c va = some k') :
    ∃ k₀ pp pm, k.Segv c va k₀ ∧ forbidden va = false ∧ k₀.pm.pageAlloc = some (pp, pm) ∧
      (k₀.setPm pm).pageInsertEnv c pp (PTE_ADDR va) PTE_D = some (0, k') := by
  obtain ⟨k₀, h₀, h⟩ := Option.bind_eq_some_iff.1 h
  have hs : k.Segv c va k₀ := by
    split at h₀
    case isTrue hva =>
      obtain ⟨⟨k₁, r⟩, hk, rfl⟩ := Option.map_eq_some_iff.1 h₀
      simp only [sysKill, envid2env, if_true] at hk
      obtain ⟨⟨n, k₂⟩, hn, hk⟩ := Option.map_eq_some_iff.1 hk
      simp only [Prod.mk.injEq] at hk
      obtain ⟨rfl, -⟩ := hk
      exact .sent hva hn
    case isFalse hva =>
      obtain rfl := Option.some.inj h₀
      exact .none (BitVec.not_lt.1 hva)
  split at h
  case isTrue => cases h
  case isFalse hf =>
    obtain ⟨⟨pp, pm⟩, hp, h⟩ := Option.bind_eq_some_iff.1 h
    obtain ⟨⟨r, k₁⟩, hi, h⟩ := Option.bind_eq_some_iff.1 h
    dsimp only at h
    split at h
    case isFalse => cases h
    case isTrue hr =>
      obtain rfl := Option.some.inj h
      exact ⟨k₀, pp, pm, hs, by simpa using hf, hp, hr ▸ hi⟩

/-- The state in which the lookup of `_do_tlb_refill` succeeds. -/
inductive Served (k : Kern) (c : EnvPtr) (va : Word) : Kern → Prop
  | mapped : Served k c va k
  | alloc {pgdir : Nat} {k₁ : Kern} (hp : (k.envs c).envPgdir = some pgdir)
      (hl : k.pm.pageLookup pgdir va = some none) (h : k.passiveAlloc c va = some k₁) : Served k c va k₁

theorem doTlbRefill_cases {c : EnvPtr} {va pte : Word} (h : k.doTlbRefill c va = some (k', pte)) :
    k.Served c va k' ∧ ∃ pgdir pp ptr, (k'.envs c).envPgdir = some pgdir ∧
      k'.pm.pageLookup pgdir va = some (some (pp, ptr)) ∧ pte = k'.pm.word ptr.1 ptr.2 := by
  obtain ⟨pgdir, hp, h⟩ := Option.bind_eq_some_iff.1 h
  obtain ⟨q, hq, h⟩ := Option.bind_eq_some_iff.1 h
  cases q with
  | some q =>
    simp only [Option.some.injEq, Prod.mk.injEq] at h
    obtain ⟨rfl, rfl⟩ := h
    exact ⟨.mapped, pgdir, q.1, q.2, hp, hq, rfl⟩
  | none =>
    obtain ⟨k₁, hk₁, h⟩ := Option.bind_eq_some_iff.1 h
    obtain ⟨pgdir', hp', h⟩ := Option.bind_eq_some_iff.1 h
    obtain ⟨q, hq', h⟩ := Option.bind_eq_some_iff.1 h
    cases q with
    | some q =>
      simp only [Option.some.injEq, Prod.mk.injEq] at h
      obtain ⟨rfl, rfl⟩ := h
      exact ⟨.alloc hp hq hk₁, pgdir', q.1, q.2, hp', hq', rfl⟩
    | none =>
      obtain ⟨k₂, -, h⟩ := Option.bind_eq_some_iff.1 h
      cases h

/-- Writing an entry to the TLB. -/
def tlbWrite (k : Kern) (c : EnvPtr) (va pte : Word) : Kern :=
  k.setPm { k.pm with tlb := ⟨VPN va, (k.envs c).envAsid, pte⟩ :: k.pm.tlb }

private theorem tlbRefill_cases {c : EnvPtr} {va : Word} (h : k.tlbRefill c va = some k') :
    ∃ k₁ pgdir pp ptr, k.Served c va k₁ ∧ (k₁.envs c).envPgdir = some pgdir ∧
      k₁.pm.pageLookup pgdir va = some (some (pp, ptr)) ∧ k' = k₁.tlbWrite c va (k₁.pm.word ptr.1 ptr.2) := by
  obtain ⟨⟨k₁, pte⟩, hk₁, rfl⟩ := Option.map_eq_some_iff.1 h
  obtain ⟨hs, pgdir, pp, ptr, hp, hl, rfl⟩ := doTlbRefill_cases hk₁
  exact ⟨k₁, pgdir, pp, ptr, hs, hp, hl, rfl⟩

private theorem doTlbMod_cases {c : EnvPtr} (h : k.doTlbMod c = some k') :
    ∃ m tf, tf.cp0Status = k.ktf.cp0Status ∧ k' = (k.setUmem m).setKtf tf := by
  obtain ⟨k₁, h₁, h⟩ := Option.bind_eq_some_iff.1 h
  obtain ⟨m, rfl⟩ := ustoreWords_cases h₁
  split at h
  case isTrue => cases h
  case isFalse =>
    obtain rfl := Option.some.inj h
    exact ⟨m, _, by rfl, rfl⟩

/-! ### System calls -/

/-- `do_syscall` steps over the `syscall` instruction. -/
def skipInsn (k : Kern) : Kern := k.setKtf { k.ktf with cp0Epc := k.ktf.cp0Epc + 4 }

/-- `do_syscall` stores the result of the call. -/
def setV0 (k : Kern) (r : Word) : Kern := k.setKtf (k.ktf.setReg 2 r)

/-- An unknown number asks for no call. -/
theorem decode_none {k : Kern} {tf : Trapframe} (h : MAX_SYSNO ≤ (tf.regs 4).toNat) : k.decode tf = none := by
  have htable : ∀ a₁ a₂ a₃ a₄ a₅, syscallTable (tf.regs 4).toNat a₁ a₂ a₃ a₄ a₅ = none := by
    intro a₁ a₂ a₃ a₄ a₅
    generalize (tf.regs 4).toNat = n at h
    unfold syscallTable
    split
    all_goals first | rfl | exact absurd h (by decide)
  simp only [decode, htable, Option.bind_fun_none]

/-- What `do_syscall` does: an unknown number, a call that returns, or a call that leaves through `schedule`. -/
private theorem doSyscall_cases {cur : EnvPtr} {junk : Word} {returned : Bool}
    (h : k.doSyscall cur junk = some (k', returned)) :
    (MAX_SYSNO ≤ (k.ktf.regs 4).toNat ∧ returned = true ∧ k' = k.setV0 (-E_NO_SYS)) ∨
    ∃ c k₁ r, k.decode k.ktf = some c ∧ CallStep k.skipInsn cur c k₁ r ∧
      ((∃ v, r = some v ∧ returned = true ∧ k' = k₁.setV0 v) ∨ (r = none ∧ returned = false ∧ k' = k₁)) := by
  unfold doSyscall at h
  split at h
  case isTrue hn =>
    simp only [Option.some.injEq, Prod.mk.injEq] at h
    exact .inl ⟨hn, h.2.symm, h.1.symm⟩
  case isFalse =>
    obtain ⟨c, hc, h⟩ := Option.bind_eq_some_iff.1 h
    obtain ⟨⟨k₁, r⟩, h₁, h⟩ := Option.map_eq_some_iff.1 h
    refine .inr ⟨c, k₁, r, hc, call_step h₁, ?_⟩
    cases r with
    | some v =>
      simp only [Prod.mk.injEq] at h
      exact .inl ⟨v, rfl, h.2.symm, h.1.symm⟩
    | none =>
      simp only [Prod.mk.injEq] at h
      exact .inr ⟨rfl, h.2.symm, h.1.symm⟩

/-- A condition on the system call that the kernel was entered for, in the state in which it is made. -/
def onCall (f : Kern → EnvPtr → Call → Bool) (k : Kern) : Bool :=
  k.curenv.all fun cur => (k.decode k.ktf).all fun c => f k.skipInsn cur c

theorem onCall_eq {f : Kern → EnvPtr → Call → Bool} {cur : EnvPtr} {c : Call} (hc : k.curenv = some cur)
    (hd : k.decode k.ktf = some c) : k.onCall f = f k.skipInsn cur c := by
  simp [onCall, hc, hd]

end Kern

/-! ### The system -/

open Kern in
/-- What a step of the system can do. -/
inductive Step : State → Event → State → Prop
  | create {k k' : Kern} {binary : Image} {priority : Word} (h : k.envCreate binary priority = some k') :
      Step ⟨.user, k⟩ (.create binary priority) ⟨.user, k'⟩
  | evict (k : Kern) (keep : TlbEntry → Bool) :
      Step ⟨.user, k⟩ (.evict keep) ⟨.user, k.setPm { k.pm with tlb := k.pm.tlb.filter keep }⟩
  | idle {k : Kern} (u : UserCtx) (h : k.curenv = none) : Step ⟨.user, k⟩ (.trap u .tick) ⟨.entered .tick, k⟩
  | save {k : Kern} {u : UserCtx} (x : Exception) (h : (u.regs 29).msb = false) :
      Step ⟨.user, k⟩ (.trap u x) ⟨.entered x, (k.setUmem u.umem).setKtf (k.savedTf u)⟩
  | tick {k k' : Kern} (h : k.schedule false = some k') : Step ⟨.entered .tick, k⟩ .handle ⟨.leaving false, k'⟩
  | noSys {k : Kern} (junk : Word) (h : MAX_SYSNO ≤ (k.ktf.regs 4).toNat) :
      Step ⟨.entered (.syscall junk), k⟩ .handle ⟨.leaving true, k.setV0 (-E_NO_SYS)⟩
  | call {k k' : Kern} {cur : EnvPtr} {c : Call} {r : Word} (junk : Word) (hc : k.curenv = some cur)
      (hd : k.decode k.ktf = some c) (h : CallStep k.skipInsn cur c k' (some r)) :
      Step ⟨.entered (.syscall junk), k⟩ .handle ⟨.leaving true, k'.setV0 r⟩
  | left {k k' : Kern} {cur : EnvPtr} {c : Call} (junk : Word) (hc : k.curenv = some cur)
      (hd : k.decode k.ktf = some c) (h : CallStep k.skipInsn cur c k' none) :
      Step ⟨.entered (.syscall junk), k⟩ .handle ⟨.leaving false, k'⟩
  | tlbMiss {k k₁ : Kern} {c : EnvPtr} {va : Word} {pgdir pp : Nat} {ptr : PtePtr} (hc : k.curenv = some c)
      (hva : va < ULIM) (hs : k.Served c va k₁) (hp : (k₁.envs c).envPgdir = some pgdir)
      (hl : k₁.pm.pageLookup pgdir va = some (some (pp, ptr))) :
      Step ⟨.entered (.tlbMiss va), k⟩ .handle ⟨.leaving true, k₁.tlbWrite c va (k₁.pm.word ptr.1 ptr.2)⟩
  | tlbMod {k : Kern} {c : EnvPtr} (m : Word → Word) {tf : Trapframe} (hc : k.curenv = some c)
      (hs : tf.cp0Status = k.ktf.cp0Status) :
      Step ⟨.entered .tlbMod, k⟩ .handle ⟨.leaving true, (k.setUmem m).setKtf tf⟩
  | ret {k k₁ : Kern} {c : EnvPtr} {returned : Bool} {tf : Trapframe} (hc : k.curenv = some c)
      (h : k.doSignal c (k.retTf c returned) = some (k₁, tf)) :
      Step ⟨.leaving returned, k⟩ .ret ⟨.user, (k₁.storeTf c returned tf).restore tf⟩

open Kern in
/-- Every step of the system is one of the listed ones. -/
theorem State.step_cases {s s' : State} {ev : Event} (h : s.step ev = some s') : Step s ev s' := by
  obtain ⟨phase, k⟩ := s
  cases phase with
  | user =>
    cases ev with
    | create binary priority =>
      obtain ⟨k', hk, rfl⟩ := Option.map_eq_some_iff.1 h
      exact .create hk
    | evict keep =>
      obtain rfl := Option.some.inj h
      exact .evict k keep
    | trap u x =>
      obtain ⟨k', hk, rfl⟩ := Option.map_eq_some_iff.1 h
      by_cases hi : ∃ _ : x = .tick, k.curenv = none
      · obtain ⟨rfl, hc⟩ := hi
        rw [Kern.save, if_pos hc] at hk
        obtain rfl := Option.some.inj hk
        exact .idle u hc
      · have hk : k.saveAll u = some k' := by
          cases x with
          | tick => rwa [Kern.save, if_neg fun hc => hi ⟨rfl, hc⟩] at hk
          | _ => exact hk
        obtain ⟨hm, rfl⟩ := saveAll_cases hk
        exact .save x hm
    | _ => cases h
  | entered x =>
    cases ev with
    | handle =>
      obtain ⟨⟨k', returned⟩, hk, rfl⟩ := Option.map_eq_some_iff.1 h
      cases x with
      | tick =>
        obtain ⟨k₁, hs, hk⟩ := Option.map_eq_some_iff.1 hk
        simp only [Prod.mk.injEq] at hk
        obtain ⟨rfl, rfl⟩ := hk
        exact .tick hs
      | syscall junk =>
        obtain ⟨c, hc, hk⟩ := Option.bind_eq_some_iff.1 hk
        obtain ⟨hn, rfl, rfl⟩ | ⟨c', k₁, r, hd, hs, hk⟩ := doSyscall_cases hk
        · exact .noSys junk hn
        · obtain ⟨v, rfl, rfl, rfl⟩ | ⟨rfl, rfl, rfl⟩ := hk
          · exact .call junk hc hd hs
          · exact .left junk hc hd hs
      | tlbMiss va =>
        unfold Kern.handle at hk
        dsimp only at hk
        split at hk
        case isFalse => cases hk
        case isTrue hva =>
          obtain ⟨c, hc, hk⟩ := Option.bind_eq_some_iff.1 hk
          obtain ⟨k₁, hr, hk⟩ := Option.map_eq_some_iff.1 hk
          simp only [Prod.mk.injEq] at hk
          obtain ⟨rfl, rfl⟩ := hk
          obtain ⟨k₂, pgdir, pp, ptr, hs, hp, hl, rfl⟩ := tlbRefill_cases hr
          exact .tlbMiss hc hva hs hp hl
      | tlbMod =>
        obtain ⟨c, hc, hk⟩ := Option.bind_eq_some_iff.1 hk
        obtain ⟨k₁, hm, hk⟩ := Option.map_eq_some_iff.1 hk
        simp only [Prod.mk.injEq] at hk
        obtain ⟨rfl, rfl⟩ := hk
        obtain ⟨m, tf, hs, rfl⟩ := doTlbMod_cases hm
        exact .tlbMod m hc hs
    | _ => cases h
  | leaving returned =>
    cases ev with
    | ret =>
      obtain ⟨k', hk, rfl⟩ := Option.map_eq_some_iff.1 h
      obtain ⟨c, hc, hk⟩ := Option.bind_eq_some_iff.1 hk
      obtain ⟨⟨k₁, tf⟩, hd, rfl⟩ := Option.map_eq_some_iff.1 hk
      exact .ret hc hd
    | _ => cases h

/-- The system call that the step makes, and the environment that makes it. -/
def State.call (s : State) (ev : Event) : Option (EnvPtr × Call) :=
  match s.phase, ev with
  | .entered (.syscall _), .handle => s.kern.curenv.bind fun cur => (s.kern.decode s.kern.ktf).map fun c => (cur, c)
  | _, _ => none

/-- A step with a call makes that call, and then stores its result. -/
theorem State.call_cases {s s' : State} {ev : Event} {cur : EnvPtr} {c : Call} (h : s.call ev = some (cur, c))
    (hs : s.step ev = some s') : ∃ junk k' r, s.phase = .entered (.syscall junk) ∧ s.kern.curenv = some cur ∧
      s.kern.decode s.kern.ktf = some c ∧ s.kern.skipInsn.call cur junk c = some (k', r) ∧
      s'.kern = (r.elim k' fun r => k'.setV0 r) := by
  obtain ⟨phase, k⟩ := s
  unfold State.call at h
  split at h
  case h_2 => cases h
  case h_1 junk hphase =>
    obtain rfl : phase = .entered (.syscall junk) := hphase
    obtain ⟨cur', hc, h⟩ := Option.bind_eq_some_iff.1 h
    obtain ⟨c', hd, h⟩ := Option.map_eq_some_iff.1 h
    simp only [Prod.mk.injEq] at h
    obtain ⟨rfl, rfl⟩ := h
    obtain ⟨⟨k₁, returned⟩, hk₁, rfl⟩ := Option.map_eq_some_iff.1 hs
    obtain ⟨c, hc', hk₁⟩ := Option.bind_eq_some_iff.1 hk₁
    obtain rfl : c = cur' := Option.some.inj (hc'.symm.trans hc)
    unfold Kern.doSyscall at hk₁
    split at hk₁
    case isTrue hn =>
      rw [Kern.decode_none hn] at hd
      cases hd
    case isFalse =>
      rw [hd, Option.bind_some] at hk₁
      obtain ⟨⟨k₂, r⟩, hk₂, hk₁⟩ := Option.map_eq_some_iff.1 hk₁
      refine ⟨junk, k₂, r, rfl, hc, hd, hk₂, ?_⟩
      cases r with
      | some r => exact (congrArg Prod.fst hk₁).symm
      | none => exact (congrArg Prod.fst hk₁).symm

/-! ### Conditions on steps -/

open Kern in
/-- The condition on a step that asks `create` of the creation of an environment, and `call` of every system call. -/
def State.admits (create : Kern → Bool) (call : Kern → EnvPtr → Call → Bool) (s : State) : Event → Bool
  | .create _ _ => create s.kern
  | .handle => match s.phase with
    | .entered (.syscall _) => s.kern.onCall call
    | _ => true
  | _ => true

section

variable {create create' : Kern → Bool} {call call' : Kern → EnvPtr → Call → Bool} {s : State} {ev : Event}

theorem State.admits_mono (h : s.admits create call ev = true) (hcreate : ∀ k, create k = true → create' k = true)
    (hcall : ∀ k cur c, call k cur c = true → call' k cur c = true) : s.admits create' call' ev = true := by
  obtain ⟨phase, k⟩ := s
  cases ev with
  | create => exact hcreate k h
  | handle =>
    cases phase with
    | entered x =>
      cases x with
      | syscall junk =>
        have h : k.onCall call = true := h
        show k.onCall call' = true
        simp only [Kern.onCall, Option.all_eq_true] at h ⊢
        intro cur hc c hd
        exact hcall _ cur c (h cur hc c hd)
      | _ => rfl
    | _ => rfl
  | _ => rfl

/-- The condition, at a system call. -/
theorem State.admits_call {cur : EnvPtr} {c : Call} (h : s.admits create call ev = true)
    (hs : s.call ev = some (cur, c)) : s.kern.curenv = some cur ∧ call s.kern.skipInsn cur c = true := by
  unfold State.call at hs
  split at hs
  case h_2 => cases hs
  case h_1 junk hphase =>
    obtain ⟨cur', hcur, hs⟩ := Option.bind_eq_some_iff.1 hs
    obtain ⟨c', hdec, hs⟩ := Option.map_eq_some_iff.1 hs
    simp only [Prod.mk.injEq] at hs
    obtain ⟨rfl, rfl⟩ := hs
    have ha : s.kern.onCall call = true := by
      unfold State.admits at h
      dsimp only at h
      rwa [hphase] at h
    exact ⟨hcur, (Kern.onCall_eq hcur hdec).symm.trans ha⟩

end

end Mos
