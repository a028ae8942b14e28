import Mos.Inv.Ids

/-!
# A run in which the counter of ids overflows

An environment forks a child, starts it and destroys it again.  This brings the system back to where it was, except
for the counter of `mkenvid`; after enough rounds `sys_exofork` returns a negative id.
-/

namespace Mos

open Kern

/-! ### A system call of an environment without pending signals -/

/-- The machine at the system call of `callEvents`. -/
def callCtx (n a₁ a₂ a₃ : Word) : UserCtx := ⟨argRegs n a₁ a₂ a₃, 0, 0, 0, 0, 0, UTEXT, fun _ => 0⟩

/-- The kernel when the handler of the call is entered, and when the call is made. -/
def Kern.atTrap (k : Kern) (n a₁ a₂ a₃ : Word) : Kern :=
  (k.setUmem fun _ => 0).setKtf (k.savedTf (callCtx n a₁ a₂ a₃))
def Kern.atCall (k : Kern) (n a₁ a₂ a₃ : Word) : Kern := (k.atTrap n a₁ a₂ a₃).skipInsn

variable {k k₁ : Kern} {e : EnvPtr} {n a₁ a₂ a₃ r : Word} {c : Call}

private theorem saveAll_callCtx (k : Kern) (n a₁ a₂ a₃ : Word) :
    k.saveAll (callCtx n a₁ a₂ a₃) = some (k.atTrap n a₁ a₂ a₃) := by
  have hmsb : ¬((callCtx n a₁ a₂ a₃).regs 29).msb = true := show ¬(USTACKTOP - 0x200 : Word).msb = true by decide
  rw [saveAll, if_neg hmsb]
  rfl

private theorem decode_atTrap (hcall : ∀ a₄ a₅, syscallTable n.toNat a₁ a₂ a₃ a₄ a₅ = some c) :
    (k.atTrap n a₁ a₂ a₃).decode (k.atTrap n a₁ a₂ a₃).ktf = some c := by
  have hload : ∀ a : Word, a.toNat % 4 = 0 ∧ UTEMP ≤ a ∧ a < ULIM → (k.atTrap n a₁ a₂ a₃).uload a = some 0 :=
    fun a ha => if_pos ha
  have hsp : (k.atTrap n a₁ a₂ a₃).ktf.regs 29 = USTACKTOP - 0x200 := rfl
  rw [decode, hsp, hload _ (by decide), Option.bind_some, hload _ (by decide), Option.bind_some]
  exact hcall 0 0

private theorem doSyscall_atTrap (hn : n.toNat < MAX_SYSNO)
    (hcall : ∀ a₄ a₅, syscallTable n.toNat a₁ a₂ a₃ a₄ a₅ = some c)
    (h : (k.atCall n a₁ a₂ a₃).call e 0 c = some (k₁, some r)) :
    (k.atTrap n a₁ a₂ a₃).doSyscall e 0 = some (k₁.setV0 r, true) := by
  have hno : ¬MAX_SYSNO ≤ ((k.atTrap n a₁ a₂ a₃).ktf.regs 4).toNat := Nat.not_le.2 hn
  rw [doSyscall, if_neg hno, decode_atTrap hcall, Option.bind_some]
  exact congrArg (Option.map _) h

/-- Without pending signals the return to user code changes nothing but the registers. -/
private theorem ret_of_none (hc : k.curenv = some e) (hn : (k.envs e).signoHeader = none) :
    k.ret true = some ((k.setKtf k.ktf).restore k.ktf) := by
  have hscan : scan e (MAX_SIG_NUM + 1) k none none = some ⟨k, [], none⟩ := rfl
  rw [ret, hc, Option.bind_some, doSignal, hn, hscan]
  rfl

private theorem step_trap (k : Kern) (n a₁ a₂ a₃ : Word) : State.step ⟨.user, k⟩ (.trap (callCtx n a₁ a₂ a₃) (.syscall 0)) =
    some ⟨.entered (.syscall 0), k.atTrap n a₁ a₂ a₃⟩ :=
  congrArg (Option.map _) (saveAll_callCtx k n a₁ a₂ a₃)

private theorem step_handle (n a₁ a₂ a₃ : Word) (c : Call) (hc : k.curenv = some e) (hn : n.toNat < MAX_SYSNO)
    (hcall : ∀ a₄ a₅, syscallTable n.toNat a₁ a₂ a₃ a₄ a₅ = some c)
    (h : (k.atCall n a₁ a₂ a₃).call e 0 c = some (k₁, some r)) :
    State.step ⟨.entered (.syscall 0), k.atTrap n a₁ a₂ a₃⟩ .handle = some ⟨.leaving true, k₁.setV0 r⟩ := by
  have hh : (k.atTrap n a₁ a₂ a₃).handle (.syscall 0) = some (k₁.setV0 r, true) := by
    have hc : (k.atTrap n a₁ a₂ a₃).curenv = some e := hc
    show ((k.atTrap n a₁ a₂ a₃).curenv.bind fun c => (k.atTrap n a₁ a₂ a₃).doSyscall c 0) = _
    rw [hc, Option.bind_some, doSyscall_atTrap hn hcall h]
  exact congrArg (Option.map _) hh

/-- A system call that returns, from user code to user code. -/
private theorem callEvents_run (n a₁ a₂ a₃ : Word) (c : Call) (hc : k.curenv = some e) (hn : n.toNat < MAX_SYSNO)
    (hcall : ∀ a₄ a₅, syscallTable n.toNat a₁ a₂ a₃ a₄ a₅ = some c)
    (h : (k.atCall n a₁ a₂ a₃).call e 0 c = some (k₁, some r)) (hc₁ : k₁.curenv = some e)
    (hnone : (k₁.envs e).signoHeader = none) :
    kernel.run (fun _ _ => true) ⟨.user, k⟩ (callEvents n a₁ a₂ a₃) =
      some ⟨.user, (k₁.setV0 r).restore (k₁.setV0 r).ktf⟩ := by
  have hleave : State.step ⟨.leaving true, k₁.setV0 r⟩ .ret = some ⟨.user, (k₁.setV0 r).restore (k₁.setV0 r).ktf⟩ :=
    congrArg (Option.map _) (ret_of_none (k := k₁.setV0 r) hc₁ hnone)
  show kernel.run _ _ [.trap (callCtx n a₁ a₂ a₃) (.syscall 0), .handle, .ret] = _
  simp only [System.run, if_true, kernel, step_trap, step_handle n a₁ a₂ a₃ c hc hn hcall h, hleave, Option.bind_some]

/-! ### A round -/

/-- Environment 0 runs and has no pending signals; the run list is `l`. -/
structure Runs (k : Kern) (l : List EnvPtr) : Prop where
  cur : k.curenv = some 0
  status : (k.envs 0).envStatus = .RUNNABLE
  none : (k.envs 0).signoHeader = none
  sched : k.sched.Holds l

/-- A state to which a round returns: slot 1 and a page are free. -/
structure Idle (k : Kern) (rest : List EnvPtr) (p : Nat) (pages : List Nat) : Prop extends Runs k [0] where
  free : k.envFreeList = 1 :: rest
  page : k.pm.pageFreeList = p :: pages
  ref : k.pm.ppRef p = 0

/-- The same with a child in slot 1 that has an empty address space. -/
structure Child (k : Kern) (l : List EnvPtr) (rest : List EnvPtr) (p : Nat) (pages : List Nat) (id : Word)
    (st : EnvStatus) : Prop extends Runs k l where
  free : k.envFreeList = rest
  page : k.pm.pageFreeList = pages
  ref : k.pm.ppRef p = 1
  empty : ∀ j, j < PDX UTOP → k.pm.word p j = 0
  pgdir : (k.envs 1).envPgdir = some p
  id : (k.envs 1).envId = id
  parent : (k.envs 1).envParentId = (k.envs 0).envId
  childStatus : (k.envs 1).envStatus = st

/-- Tearing down an address space without user tables frees the directory. -/
private theorem freeSpace_empty {m : Pmap} {p : Nat} (asid : Asid) (hempty : ∀ j, j < PDX UTOP → m.word p j = 0)
    (href : m.ppRef p = 1) : ∃ m', m.freeSpace p asid = some m' ∧ m'.pageFreeList = p :: m.pageFreeList ∧
      m'.ppRef p = 0 := by
  have htable : ∀ j, j < PDX UTOP → m.freeTable p asid j = some m := by
    intro j hj
    rw [Pmap.freeTable, hempty j hj]
    rfl
  have hfold : ∀ l : List Idx, (∀ j ∈ l, j < PDX UTOP) →
      l.foldlM (fun (m : Pmap) pdeno => m.freeTable p asid pdeno) m = some m := by
    intro l hl
    induction l with
    | nil => rfl
    | cons j l ih =>
      rw [List.foldlM_cons, htable j (hl j (List.mem_cons_self ..))]
      exact ih fun i hi => hl i (List.mem_cons_of_mem _ hi)
  have hdecref : m.pageDecref p = some { m.setRef p 0 with pageFreeList := p :: m.pageFreeList } := by
    simp [Pmap.pageDecref, Pmap.pageFree, Pmap.setRef, href]
  rw [Pmap.freeSpace, hfold _ fun j hj => by simpa using (List.mem_filter.1 hj).2, Option.bind_some, hdecref]
  refine ⟨_, rfl, rfl, ?_⟩
  simp [Pmap.tlbInvalidate, Pmap.setRef]

/-- A new directory has no user tables. -/
theorem envSetupVm_empty {m : Pmap} {p : Nat} {pages : List Nat} (base : Nat) (hfree : m.pageFreeList = p :: pages) :
    ∃ m', m.envSetupVm base = some (p, m') ∧ m'.pageFreeList = pages ∧ m'.ppRef p = m.ppRef p + 1 ∧
      ∀ j, j < PDX UTOP → m'.word p j = 0 := by
  have halloc : m.pageAlloc = some (p, { m with pageFreeList := pages, word := Function.update m.word p fun _ => 0 }) := by
    rw [Pmap.pageAlloc, hfree]
  rw [Pmap.envSetupVm, halloc]
  refine ⟨_, rfl, rfl, by simp [Pmap.setWord, Pmap.setRef], fun j hj => ?_⟩
  have htop : ¬PDX UTOP ≤ j := Nat.not_le.2 hj
  have hvpt : j ≠ PDX UVPT := fun h => absurd (h ▸ hj) (by decide)
  have hseg : j ≠ PDX KSEG2 := fun h => absurd (h ▸ hj) (by decide)
  simp [Pmap.setWord, Pmap.setRef, Pmap.withTemplate, hvpt, hseg, htop]

variable {rest : List EnvPtr} {p : Nat} {pages : List Nat} {id : Word} {l : List EnvPtr} {st : EnvStatus}

private theorem Idle.fork (h : Idle k rest p pages) : ∃ k₁, k.sysExofork 0 = some (k₁, some (k.mkenvid 1).1) ∧
    Child k₁ [0] rest p pages (k.mkenvid 1).1 .NOT_RUNNABLE ∧ k₁.mkenvidI = k.mkenvidI + 1 := by
  cases ha : k.envAlloc (k.envs 0).envId with
  | none =>
    have hnil := envAlloc_none ha
    rw [h.free] at hnil
    cases hnil
  | some r =>
    obtain ⟨e, k₁⟩ := r
    obtain ⟨rest', pgdir, pm, asid, bitmap, hl, hvm, -, rfl⟩ := envAlloc_cases ha
    obtain ⟨rfl, rfl⟩ : 1 = e ∧ rest = rest' := by simpa using h.free.symm.trans hl
    obtain ⟨m', hm', hpages, href, hempty⟩ := envSetupVm_empty k.basePgdir h.page
    have hvm' : pgdir = some p ∧ pm = m' := by
      cases hvm with
      | ok hok =>
        have hok := hm'.symm.trans hok
        simp only [Option.some.injEq, Prod.mk.injEq] at hok
        exact ⟨by rw [hok.1], hok.2.symm⟩
      | full hfull =>
        rw [hm'] at hfull
        cases hfull
    obtain ⟨rfl, rfl⟩ := hvm'
    have hcall : k.sysExofork 0 = some ((k.allocated 1 rest (some p) pm asid bitmap (k.envs 0).envId).setEnv 1
        ((k.allocated 1 rest (some p) pm asid bitmap (k.envs 0).envId).forkEnv 0), some (k.mkenvid 1).1) := by
      rw [sysExofork, ha]
      simp [allocated, initEnv]
    refine ⟨_, hcall, ?_, rfl⟩
    exact {
      cur := h.cur
      status := h.status
      none := h.none
      sched := h.sched
      free := rfl
      page := hpages
      ref := by
        show pm.ppRef p = 1
        rw [href, h.ref]
        rfl
      empty := hempty
      pgdir := rfl
      id := rfl
      parent := rfl
      childStatus := rfl }

/-- The id of the child names it. -/
private theorem Child.envid2env (h : Child k l rest p pages id st) (hid : id ≠ 0) (hslot : ENVX id = 1) (hst : st ≠ .FREE) :
    k.envid2env 0 id true = some 1 := by
  have hlive : (k.envs 1).envStatus ≠ .FREE := h.childStatus ▸ hst
  rw [Kern.envid2env, if_neg hid]
  simp [hslot, h.id, h.parent, hlive]

private theorem Child.start (h : Child k [0] rest p pages id .NOT_RUNNABLE) (hid : id ≠ 0) (hslot : ENVX id = 1) :
    ∃ k₁, k.sysSetEnvStatus 0 id 1 = some (k₁, some 0) ∧ Child k₁ [0, 1] rest p pages id .RUNNABLE ∧
      k₁.mkenvidI = k.mkenvidI := by
  obtain ⟨q, hq, hl⟩ := h.sched.insertTail (a := 1) (by decide)
  have hset : k.setEnvStatus 1 .RUNNABLE =
      some ((k.setSched q).setEnv 1 fun env => { env with envStatus := .RUNNABLE }) := by
    simp [setEnvStatus, h.childStatus, hq]
  have hcall : k.sysSetEnvStatus 0 id 1 =
      some ((k.setSched q).setEnv 1 fun env => { env with envStatus := .RUNNABLE }, some 0) := by
    rw [sysSetEnvStatus, h.envid2env hid hslot nofun]
    exact congrArg (Option.map _) hset
  refine ⟨_, hcall, ?_, rfl⟩
  exact {
    cur := h.cur
    status := h.status
    none := h.none
    sched := hl
    free := h.free
    page := h.page
    ref := h.ref
    empty := h.empty
    pgdir := h.pgdir
    id := h.id
    parent := h.parent
    childStatus := rfl }

private theorem Child.destroy (h : Child k [0, 1] rest p pages id .RUNNABLE) (hid : id ≠ 0) (hslot : ENVX id = 1) :
    ∃ k₁, k.sysEnvDestroy 0 id = some (k₁, some 0) ∧ Idle k₁ rest p pages ∧ k₁.mkenvidI = k.mkenvidI := by
  obtain ⟨q, hq, hl⟩ := h.sched.remove (a := 1) (by decide)
  obtain ⟨m', hm', hpages, href⟩ := freeSpace_empty (k.envs 1).envAsid h.empty h.ref
  have hfree : k.envFree 1 = some (k.freed 1 m' q) := by
    rw [envFree, h.pgdir, Option.bind_some, hm', Option.bind_some, hq]
    rfl
  have hd : k.envDestroy 1 = some (k.freed 1 m' q, false) := by
    rw [envDestroy, hfree, Option.bind_some, if_neg (by rw [show (k.freed 1 m' q).curenv = some 0 from h.cur]; decide)]
  have hcall : k.sysEnvDestroy 0 id = some (k.freed 1 m' q, some 0) := by
    rw [sysEnvDestroy, h.envid2env hid hslot nofun]
    exact congrArg (Option.map _) hd
  refine ⟨_, hcall, ?_, rfl⟩
  exact {
    cur := h.cur
    status := h.status
    none := h.none
    sched := hl
    free := congrArg _ h.free
    page := hpages.trans (congrArg _ h.page)
    ref := href }

/-! ### Runs -/

private theorem Idle.atCall (h : Idle k rest p pages) (n a₁ a₂ a₃ : Word) : Idle (k.atCall n a₁ a₂ a₃) rest p pages :=
  ⟨⟨h.cur, h.status, h.none, h.sched⟩, h.free, h.page, h.ref⟩

private theorem Child.atCall (h : Child k l rest p pages id st) (n a₁ a₂ a₃ : Word) :
    Child (k.atCall n a₁ a₂ a₃) l rest p pages id st :=
  ⟨⟨h.cur, h.status, h.none, h.sched⟩, h.free, h.page, h.ref, h.empty, h.pgdir, h.id, h.parent, h.childStatus⟩

private theorem Idle.back (h : Idle k rest p pages) (r : Word) : Idle ((k.setV0 r).restore (k.setV0 r).ktf) rest p pages :=
  ⟨⟨h.cur, h.status, h.none, h.sched⟩, h.free, h.page, h.ref⟩

private theorem Child.back (h : Child k l rest p pages id st) (r : Word) :
    Child ((k.setV0 r).restore (k.setV0 r).ktf) l rest p pages id st :=
  ⟨⟨h.cur, h.status, h.none, h.sched⟩, h.free, h.page, h.ref, h.empty, h.pgdir, h.id, h.parent, h.childStatus⟩

private theorem atCall_mkenvidI (k : Kern) (n a₁ a₂ a₃ : Word) : (k.atCall n a₁ a₂ a₃).mkenvidI = k.mkenvidI := by
  simp only [Kern.atCall, Kern.atTrap, skipInsn, setKtf_mkenvidI, setUmem_mkenvidI]

private theorem back_mkenvidI (k : Kern) (r : Word) (tf : Trapframe) : ((k.setV0 r).restore tf).mkenvidI = k.mkenvidI := by
  simp only [setV0, restore, setKtf_mkenvidI, setCpu_mkenvidI]

/-- A round: the counter has gone up, and nothing else matters. -/
private theorem Idle.round (h : Idle k rest p pages) (hlt : k.mkenvidI.toNat + 1 < 2 ^ 21) :
    ∃ es k', kernel.run (fun _ _ => true) ⟨.user, k⟩ es = some ⟨.user, k'⟩ ∧ Idle k' rest p pages ∧
      k'.mkenvidI = k.mkenvidI + 1 := by
  have htoNat := mkenvid_toNat rfl hlt 1
  generalize hid : (k.mkenvid 1).1 = id at htoNat
  have hid0 : id ≠ 0 := by
    rintro rfl
    have hzero : (0 : Word).toNat = 0 := rfl
    omega
  have hslot : ENVX id = 1 := by
    apply Fin.ext
    show id.toNat % 1024 = 1
    rw [htoNat]
    show ((k.mkenvidI.toNat + 1) * 2048 + 1) % 1024 = 1
    omega
  obtain ⟨k₁, hcall₁, h₁, hcount₁⟩ := (h.atCall 9 0 0 0).fork
  have hid₁ : ((k.atCall 9 0 0 0).mkenvid 1).1 = id := hid
  rw [hid₁] at hcall₁ h₁
  have hrun₁ := callEvents_run 9 0 0 0 .exofork h.cur (by decide) (fun _ _ => rfl) hcall₁ h₁.cur h₁.none
  obtain ⟨k₂, hcall₂, h₂, hcount₂⟩ := ((h₁.back id).atCall 10 id 1 0).start hid0 hslot
  have hrun₂ := callEvents_run 10 id 1 0 (.setEnvStatus id 1) (h₁.back id).cur (by decide) (fun _ _ => rfl) hcall₂
    h₂.cur h₂.none
  obtain ⟨k₃, hcall₃, h₃, hcount₃⟩ := ((h₂.back 0).atCall 4 id 0 0).destroy hid0 hslot
  have hrun₃ := callEvents_run 4 id 0 0 (.envDestroy id) (h₂.back 0).cur (by decide) (fun _ _ => rfl) hcall₃ h₃.cur
    h₃.none
  refine ⟨callEvents 9 0 0 0 ++ (callEvents 10 id 1 0 ++ callEvents 4 id 0 0), _, ?_, h₃.back 0, ?_⟩
  case refine_2 =>
    rw [back_mkenvidI, hcount₃, atCall_mkenvidI, back_mkenvidI, hcount₂, atCall_mkenvidI, back_mkenvidI, hcount₁,
      atCall_mkenvidI]
  rw [System.run_append, hrun₁, Option.bind_some, System.run_append, hrun₂, Option.bind_some, hrun₃]

/-- The kernel that a list of events comes to after a first environment was created and runs. -/
def idleEvents : List Event := .create .empty 1 :: tickEvents

private theorem idleEvents_cond : (kernel.run (fun _ _ => true) ⟨.user, Machine.gxemul.bootKern⟩ idleEvents).any fun s =>
    s.phase = .user ∧ s.kern.curenv = some 0 ∧ (s.kern.envs 0).envStatus = .RUNNABLE ∧
    (s.kern.envs 0).signoHeader = none ∧ (s.kern.sched.first = some 0 ∧ s.kern.sched.prev 0 = some .head ∧
      s.kern.sched.next 0 = none ∧ s.kern.sched.last = some (.next 0)) ∧ s.kern.envFreeList.head? = some 1 ∧
    s.kern.mkenvidI = 1 ∧ ∃ p ∈ s.kern.pm.pageFreeList.head?, s.kern.pm.ppRef p = 0 := by
  decide +kernel

/-- Every value of the counter is reached. -/
private theorem exists_idle_run (n : Nat) (hn : n + 1 < 2 ^ 21) : ∃ l k rest p pages,
    kernel.Steps (fun _ _ => true = true) ⟨.user, Machine.gxemul.bootKern⟩ l ⟨.user, k⟩ ∧ Idle k rest p pages ∧
      k.mkenvidI.toNat = n + 1 := by
  induction n with
  | zero =>
    obtain ⟨s, hs, hcond⟩ := (Option.any_eq_true _ _).1 idleEvents_cond
    obtain ⟨huser, hc, hst, hnone, ⟨hfirst, hprev, hnext, hlast⟩, hfree, hcount, p, hp, href⟩ := of_decide_eq_true hcond
    obtain ⟨phase, k⟩ := s
    obtain rfl : phase = .user := huser
    obtain ⟨l, hl⟩ := System.Steps.refl.run hs
    obtain ⟨rest, hrest⟩ := List.head?_eq_some_iff.1 hfree
    obtain ⟨pages, hpages⟩ := List.head?_eq_some_iff.1 hp
    refine ⟨_, k, rest, p, pages, hl, ⟨⟨hc, hst, hnone, ?_⟩, hrest, hpages, href⟩, by rw [hcount]; rfl⟩
    exact ⟨List.nodup_singleton 0, hfirst, hprev, hnext, hlast⟩
  | succ n ih =>
    obtain ⟨l, k, rest, p, pages, hl, h, hcount⟩ := ih (by omega)
    obtain ⟨es, k', hrun, h', hcount'⟩ := h.round (by omega)
    obtain ⟨l', hl'⟩ := hl.run hrun
    refine ⟨_, k', rest, p, pages, hl', h', ?_⟩
    rw [hcount', BitVec.toNat_add, hcount]
    exact Nat.mod_eq_of_lt (show n + 1 + 1 < 2 ^ 32 by omega)

/-- After `2 ^ 20 - 1` environments the next fork returns a negative id. -/
theorem exists_not_idsOk : ∃ l s, kernel.Steps (fun _ _ => True) ⟨.user, Machine.gxemul.bootKern⟩ l s ∧ ¬IdsOk l s := by
  obtain ⟨l, k, rest, p, pages, hl, h, hcount⟩ := exists_idle_run (2 ^ 20 - 2) (by decide)
  obtain ⟨k₁, hcall, h₁, -⟩ := (h.atCall 9 0 0 0).fork
  have hhandle : kernel.step ⟨.entered (.syscall 0), k.atTrap 9 0 0 0⟩ .handle = some _ :=
    step_handle 9 0 0 0 .exofork h.cur (by decide) (fun _ _ => rfl) hcall
  have hl : kernel.Steps (fun _ _ => True) ⟨.user, Machine.gxemul.bootKern⟩ l ⟨.user, k⟩ := hl.mono fun _ _ _ => trivial
  have htrap : kernel.step ⟨.user, k⟩ (.trap (callCtx 9 0 0 0) (.syscall 0)) = some _ := step_trap k 9 0 0 0
  refine ⟨_, _, (hl.snoc trivial htrap).snoc trivial hhandle, fun hok => ?_⟩
  have hforked : (1, (k.mkenvid 1).1) ∈ State.forked ⟨.entered (.syscall 0), k.atTrap 9 0 0 0⟩ .handle := by
    have hdecode : (k.atTrap 9 0 0 0).decode (k.atTrap 9 0 0 0).ktf = some .exofork := decode_atTrap fun _ _ => rfl
    have hc : (k.atTrap 9 0 0 0).curenv = some 0 := h.cur
    have hfree : (k.atTrap 9 0 0 0).envFreeList = 1 :: rest := h.free
    have hnext : (k.atTrap 9 0 0 0).nextId = [(1, (k.mkenvid 1).1)] := nextId_eq (by rw [hfree]; rfl)
    have hmade : State.call ⟨.entered (.syscall 0), k.atTrap 9 0 0 0⟩ .handle = some (0, .exofork) := by
      show (k.atTrap 9 0 0 0).curenv.bind _ = _
      rw [hc, Option.bind_some, hdecode]
      rfl
    rw [State.forked, hmade]
    show _ ∈ Kern.nextId _
    rw [hnext]
    exact List.mem_singleton_self _
  obtain ⟨-, hpos⟩ := hok.positive _ _ _ _ (List.mem_append_right _ (List.mem_singleton_self _)) hhandle hforked
  have hid := mkenvid_toNat hcount (by decide) 1
  have hneg : (k.mkenvid 1).1.toInt = ((k.mkenvid 1).1.toNat : Int) - 2 ^ 32 := by
    rw [BitVec.toInt_eq_toNat_cond, if_neg (by rw [hid]; decide)]
    rfl
  have hlt := (k.mkenvid 1).1.isLt
  rw [hneg] at hpos
  omega

end Mos
