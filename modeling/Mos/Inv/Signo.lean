import Mos.Inv.Delivery

/-!
# The signal numbers that the kernel uses as indices

`sys_sigaction` and `sys_kill` take any `int`.  What the kernel accesses with it, at once and in every later scan of the
pending signals, is inside the table and the mask as long as the numbers that are passed are: 1 to 64 for a handler,
and 1 to 63 for a signal that is sent.
-/

namespace Mos

open Kern

/-! ### Accesses -/

/-- An access with a signal number: an entry of `sighandler_table`, or a word of `env_sigprocmask`. -/
inductive SignoAccess where
  | table (i : Int)
  | mask (i : Int)
  deriving DecidableEq

/-- The table has 64 entries and the mask two words. -/
def SignoAccess.inside : SignoAccess → Bool
  | .table i => 0 ≤ i && i < 64
  | .mask i => 0 ≤ i && i < 2

/-- `sigset_ctn` of the mask of `env`, for a number with its bit in it. -/
def Env.maskBit (env : Env) (signo : Int) : Bool := (env.maskWord (signo.tdiv 32).toNat).getLsbD (signo % 32).toNat

namespace Kern

/-- The accesses of the loop of `_do_signal` up to the first one outside, with the `char` in each node. -/
def scanAccesses (c : EnvPtr) : Nat → Kern → Option SignoPtr → Option SignoPtr → List SignoAccess
  | 0, _, _, _ => []
  | _ + 1, _, _, none => []
  | fuel + 1, k, frm, some n =>
    let signo := (k.signos n).signo.toInt
    .mask (signo.tdiv 32) ::
      if (SignoAccess.mask (signo.tdiv 32)).inside = false then []
      else if (k.envs c).maskBit signo then scanAccesses c fuel k (some n) (k.signos n).next
      else
        .table (signo - 1) ::
          if (SignoAccess.table (signo - 1)).inside = false then []
          else
            let next := (k.signos n).next
            let k := (k.unlink c frm n).signoFree n
            if (k.envs c).ignored signo.toNat then scanAccesses c fuel k frm next
            else [.table (signo - 1)]

end Kern

/-- The `signo` of the calls that take one. -/
def Call.signo : Call → Option Word
  | .sigaction signo _ _ => some signo
  | .kill _ signo => some signo
  | _ => none

/-- The accesses that the step makes with signal numbers. -/
def State.signoAccesses (s : State) (ev : Event) : List SignoAccess :=
  match s.phase, ev with
  | .leaving _, .ret =>
    s.kern.curenv.elim [] fun c => scanAccesses c (MAX_SIG_NUM + 1) s.kern none (s.kern.envs c).signoHeader
  | _, _ => match s.call ev with
    | some (_, .sigaction signo _ _) => [.table (signo - 1).toInt]
    | _ => []

/-- A number that is no signal's. -/
def outOfRange (signo : Word) : Prop := signo.toInt < 1 ∨ 64 < signo.toInt

/-- If the step is a call with a number that is no signal's, the call comes back and no environment is changed. -/
def State.Refuses (s : State) (ev : Event) : Prop :=
  ∀ cur c signo, s.call ev = some (cur, c) → c.signo = some signo → outOfRange signo →
    ∀ junk, ∃ k' r, s.kern.skipInsn.call cur junk c = some (k', some r) ∧ k'.envs = s.kern.envs

/-- A handler is set for one of the signals, and one of those with a bit in the mask is sent. -/
def callSignoAdmits (k : Kern) (cur : EnvPtr) : Call → Bool
  | .sigaction signo _ _ => 1 ≤ signo.toInt && signo.toInt ≤ 64
  | .kill envid signo => (k.envid2env cur envid false).isNone || (1 ≤ signo.toInt && signo.toInt ≤ 63)
  | _ => true

def signoAdmits (s : State) (ev : Event) : Bool := s.admits (fun _ => true) callSignoAdmits ev

/-! ### What is pending -/

namespace NodesOk

variable {k k' : Kern} {free : List SignoPtr} {pend : EnvPtr → List SignoPtr} {c e : EnvPtr}

/-- Destroying an environment adds nothing. -/
private theorem destroy_pending_subset {left : Bool} (hd : k.envDestroy c = some (k', left)) (e : EnvPtr) :
    k'.pendingSignals e ⊆ k.pendingSignals e := by
  obtain ⟨k₁, hk₁, hd⟩ := envDestroy_cases hd
  obtain ⟨pgdir, pm, q, -, -, -, rfl⟩ := envFree_cases hk₁
  have hfreed : (k.freed c pm q).pendingSignals e ⊆ k.pendingSignals e := by
    by_cases heq : e = c
    · subst heq
      rw [pendingSignals_free (by rw [freed, setEnv_self])]
      exact List.nil_subset _
    · have henv : (k.freed c pm q).envs e = k.envs e := by rw [freed, setEnv_of_ne heq]; rfl
      have hpend : (k.freed c pm q).pendingOf e = k.pendingOf e := pendingOf_congr rfl (by rw [henv])
      rw [Kern.pendingSignals, Kern.pendingSignals, henv, hpend]
      exact List.Subset.refl _
  rcases hd with ⟨-, -, hs⟩ | ⟨-, -, rfl⟩
  · have hcur : SameNodes (k.freed c pm q) ((k.freed c pm q).setCurenv none) :=
      .of_envs rfl rfl (fun _ => rfl) fun _ => rfl
    rwa [(hcur.trans (SameNodes.schedule hs)).pendingSignals]
  · exact hfreed

private theorem call_pending_subset {cur : EnvPtr} {c : Call} {r : Option Word} (h : NodesOk k free pend) (hlive : LiveOk k)
    (hcur : k.curenv = some cur) (hs : CallStep k cur c k' r) (e : EnvPtr) :
    k'.pendingSignals e ⊆ k.callSent cur e c ++ k.pendingSignals e := by
  rcases SameNodes.call hlive hcur hs with ⟨hsame, -⟩ | ⟨envid, signo, e', n, k₁, rfl, he, hn, rfl⟩ |
    ⟨envid, e', left, rfl, -, hd⟩
  · rw [hsame.pendingSignals]
    exact List.subset_append_right ..
  · obtain ⟨hself, hother⟩ := h.kill_pendingSignals (envid2env_live (hlive.cur cur hcur) he) hn
    by_cases heq : e = e'
    · subst heq
      rw [hself]
      simp only [callSent, he, if_true]
      exact List.Subset.refl _
    · rw [hother e heq]
      exact List.subset_append_right ..
  · exact fun x hx => List.mem_append_right _ (destroy_pending_subset hd e hx)

/-- What is pending after a step was pending before, or was sent by it. -/
private theorem step_pending_subset {s s' : State} {ev : Event} (h : NodesOk s.kern free pend) (hlive : LiveOk s.kern)
    (hs : Step s ev s') (e : EnvPtr) : s'.kern.pendingSignals e ⊆ s.sent ev e ++ s.kern.pendingSignals e := by
  have hsame : ∀ {k k' : Kern} {l : List (Option Nat)}, SameNodes k k' →
      k'.pendingSignals e ⊆ l ++ k.pendingSignals e := by
    intro k k' l hs
    rw [hs.pendingSignals]
    exact List.subset_append_right ..
  -- Only calls and misses send something; a return takes away.
  cases hs with
  | create hc => exact hsame (.create hlive hc)
  | evict => exact hsame (.setPm _ _)
  | idle => exact hsame (.refl _)
  | save => exact hsame ((SameNodes.setUmem _ _).trans (.setKtf _ _))
  | tick hs => exact hsame (.schedule hs)
  | tlbMod => exact hsame ((SameNodes.setUmem _ _).trans (.setKtf _ _))
  | noSys => exact hsame (.setKtf _ _)
  | @call k k' cur c r junk hc hd hs =>
    have hsent : State.sent ⟨.entered (.syscall junk), k⟩ .handle e = k.skipInsn.callSent cur e c := by
      simp only [State.sent, hc, hd]
    have hcall := call_pending_subset (k := k.skipInsn) (h.same (.setKtf _ _)) (hlive.setKtf _) hc hs e
    have hskip : k.skipInsn.pendingSignals e = k.pendingSignals e := (SameNodes.setKtf _ _).pendingSignals e
    have hk' : (k'.setV0 r).pendingSignals e = k'.pendingSignals e := (SameNodes.setKtf _ _).pendingSignals e
    rw [hsent]
    show (k'.setV0 r).pendingSignals e ⊆ _ ++ k.pendingSignals e
    rwa [hk', ← hskip]
  | @left k k' cur c junk hc hd hs =>
    have hsent : State.sent ⟨.entered (.syscall junk), k⟩ .handle e = k.skipInsn.callSent cur e c := by
      simp only [State.sent, hc, hd]
    have hcall := call_pending_subset (k := k.skipInsn) (h.same (.setKtf _ _)) (hlive.setKtf _) hc hs e
    have hskip : k.skipInsn.pendingSignals e = k.pendingSignals e := (SameNodes.setKtf _ _).pendingSignals e
    rw [hsent]
    show k'.pendingSignals e ⊆ _ ++ k.pendingSignals e
    rwa [← hskip]
  | @tlbMiss k k₁ c va pgdir pp ptr hc hva hs hp hl =>
    have hserved := served_pendingSignals h (hlive.cur c hc) hs hp hl e
    have hsent : State.sent ⟨.entered (.tlbMiss va), k⟩ .handle e =
        if va < UTEMP ∧ c = e ∧ k.pageLookupEnv e va = some none then [numberOf (BitVec.ofNat 32 SIGSEGV)] else [] := by
      simp only [State.sent, hc, Option.some.injEq]
    have hwrite : (k₁.tlbWrite c va (k₁.pm.word ptr.1 ptr.2)).pendingSignals e = k₁.pendingSignals e :=
      (SameNodes.setPm k₁ _).pendingSignals e
    rw [hsent]
    show (k₁.tlbWrite c va _).pendingSignals e ⊆ _ ++ k.pendingSignals e
    rw [hwrite, hserved]
    exact List.Subset.refl _
  | @ret k k₁ c returned tf hc hd =>
    have hlive_c := hlive.cur c hc
    have hstore : SameNodes k₁ ((k₁.storeTf c returned tf).restore tf) := by
      unfold storeTf
      split
      · exact (SameNodes.setKtf k₁ _).trans (.setCpu _ _)
      · exact (SameNodes.setEnv_same rfl rfl).trans (.setCpu _ _)
    obtain ⟨hself, hother⟩ := doSignal_pendingSignals h hlive_c hd
    show ((k₁.storeTf c returned tf).restore tf).pendingSignals e ⊆ _ ++ k.pendingSignals e
    rw [hstore.pendingSignals]
    by_cases heq : e = c
    · subst heq
      rw [hself, pendingSignals_live hlive_c]
      refine fun x hx => List.mem_append_right _ ?_
      obtain ⟨n, hn, rfl⟩ := List.mem_map.1 hx
      exact List.mem_map_of_mem ((sift_kept_sublist ..).subset (scannedList_subset hn))
    · rw [hother e heq]
      exact List.subset_append_right ..

end NodesOk

/-- Every pending signal is one of those with a bit in the mask. -/
def PendingOk (k : Kern) : Prop := ∀ e, ∀ x ∈ k.pendingSignals e, ∃ signo, x = some signo ∧ signo ≤ 63

private theorem numberOf_of_range {signo : Word} (h1 : 1 ≤ signo.toInt) (h63 : signo.toInt ≤ 63) :
    ∃ n, numberOf signo = some n ∧ n ≤ 63 := by
  have hnat : 1 ≤ signo.toNat ∧ signo.toNat ≤ 63 := by
    rw [BitVec.toInt_eq_toNat_cond] at h1 h63
    split at h1 <;> split at h63 <;> omega
  have hchar : (signo.setWidth 8).toInt = signo.toNat := by
    rw [BitVec.toInt_eq_toNat_cond, BitVec.toNat_setWidth, Nat.mod_eq_of_lt (by omega), if_pos (by omega)]
  refine ⟨signo.toNat, ?_, hnat.2⟩
  simp only [numberOf, SignoNode.signal, hchar]
  rw [if_pos (by omega), Int.toNat_natCast]

/-- An admitted step sends such signals only. -/
private theorem signoAdmits_sent {s : State} {ev : Event} {e : EnvPtr} (hok : signoAdmits s ev) {x : Option Nat}
    (hx : x ∈ s.sent ev e) : ∃ signo, x = some signo ∧ signo ≤ 63 := by
  obtain ⟨phase, k⟩ := s
  unfold State.sent at hx
  split at hx
  case h_1 junk hphase =>
    obtain rfl : phase = .entered (.syscall junk) := hphase
    split at hx
    case h_1 cur c hc hd =>
      have hok : k.onCall callSignoAdmits = true := hok
      rw [onCall_eq hc hd] at hok
      unfold callSent at hx
      split at hx
      case h_1 envid signo =>
        split at hx
        case isTrue he =>
          rw [List.mem_singleton] at hx
          simp only [callSignoAdmits, he, Option.isNone_some, Bool.false_or, Bool.and_eq_true, decide_eq_true_eq] at hok
          obtain ⟨n, hn, hle⟩ := numberOf_of_range hok.1 hok.2
          exact ⟨n, hx.trans hn, hle⟩
        case isFalse => cases hx
      case h_2 => cases hx
    case h_2 => cases hx
  case h_2 va hphase =>
    split at hx
    case isTrue =>
      rw [List.mem_singleton] at hx
      exact ⟨11, hx.trans (by decide), by decide⟩
    case isFalse => cases hx
  case h_3 => cases hx

private theorem PendingOk.step {s s' : State} {ev : Event} {free : List SignoPtr} {pend : EnvPtr → List SignoPtr}
    (h : PendingOk s.kern) (hn : NodesOk s.kern free pend) (hlive : LiveOk s.kern) (hok : signoAdmits s ev)
    (hs : Step s ev s') : PendingOk s'.kern := by
  intro e x hx
  rcases List.mem_append.1 (hn.step_pending_subset hlive hs e hx) with hx | hx
  · exact signoAdmits_sent hok hx
  · exact h e x hx

/-! ### The scan -/

namespace Kern

variable {k : Kern} {c : EnvPtr}

private theorem SignoNode.toInt_of_signal {n : SignoNode} {signo : Nat} (h : n.signal = some signo) :
    n.signo.toInt = signo ∧ 1 ≤ signo := by
  unfold SignoNode.signal at h
  split at h
  case isTrue hr =>
    obtain rfl := Option.some.inj h
    omega
  case isFalse => cases h

/-- The scan of a list of such signals stays inside. -/
private theorem scanAccesses_inside {fuel : Nat} {frm ptr : Option SignoPtr} {l : List SignoPtr} (hl : SList k.links ptr l)
    (hfrm : ∀ f, frm = some f → f ∉ l) (hsig : ∀ n ∈ l, ∃ signo, (k.signos n).signal = some signo ∧ signo ≤ 63) :
    ∀ a ∈ scanAccesses c fuel k frm ptr, a.inside = true := by
  induction l generalizing fuel k frm ptr with
  | nil =>
    obtain rfl : ptr = none := hl
    cases fuel with
    | zero => exact fun _ ha => nomatch ha
    | succ fuel => exact fun _ ha => nomatch ha
  | cons n l ih =>
    obtain rfl : ptr = some n := hl.1
    cases fuel with
    | zero => exact fun _ ha => nomatch ha
    | succ fuel =>
      obtain ⟨signo, hs, hle⟩ := hsig n (List.mem_cons_self ..)
      obtain ⟨hint, hge⟩ := SignoNode.toInt_of_signal hs
      have hnl : n ∉ l := (List.nodup_cons.1 hl.nodup).1
      have hmask : (SignoAccess.mask ((signo : Int).tdiv 32)).inside = true := by
        rw [Int.tdiv_eq_ediv_of_nonneg (Int.natCast_nonneg _)]
        simp only [SignoAccess.inside, Bool.and_eq_true, decide_eq_true_eq]
        omega
      have htable : (SignoAccess.table ((signo : Int) - 1)).inside = true := by
        simp only [SignoAccess.inside, Bool.and_eq_true, decide_eq_true_eq]
        omega
      have hrest := fun m hm => hsig m (List.mem_cons_of_mem n hm)
      intro a ha
      simp only [scanAccesses, hint, hmask, htable, Bool.true_eq_false, if_false, List.mem_cons] at ha
      rcases ha with rfl | ha
      · exact hmask
      · split at ha
        case isTrue =>
          exact ih hl.2 (fun f hf => Option.some.inj hf ▸ hnl) hrest a ha
        case isFalse =>
          rcases List.mem_cons.1 ha with rfl | ha
          · exact htable
          · split at ha
            case isTrue =>
              -- the nodes behind `n` are as they were
              have hsame : ∀ m ∈ l, (k.takeOff c frm n).signos m = k.signos m := by
                intro m hm
                refine takeOff_signos_of_ne (fun heq => hnl (heq ▸ hm)) fun hf => ?_
                exact hfrm m hf (List.mem_cons_of_mem _ hm)
              refine ih (k := k.takeOff c frm n) ?_ (fun f hf hm => hfrm f hf (List.mem_cons_of_mem _ hm)) ?_ a ha
              · exact hl.2.congr fun m hm => links_eq_of_signos_eq (hsame m hm)
              · intro m hm
                rw [hsame m hm]
                exact hrest m hm
            case isFalse =>
              rw [List.mem_singleton] at ha
              rw [ha]
              exact htable

end Kern

/-! ### Runs -/

/-- What a run keeps. -/
private theorem pendingOk_of_reach {s : State} (h : kernel.Reach (fun s ev => signoAdmits s ev) s) :
    (LiveOk s.kern ∧ ∃ free pend, NodesOk s.kern free pend) ∧ PendingOk s.kern := by
  refine h.invariant (I := fun s => (LiveOk s.kern ∧ ∃ free pend, NodesOk s.kern free pend) ∧ PendingOk s.kern) ?_ ?_
  · intro s hs
    obtain ⟨mc, rfl⟩ := init_iff.1 hs
    refine ⟨⟨.boot mc, _, _, .boot mc rfl⟩, fun e x hx => ?_⟩
    rw [pendingSignals_free rfl] at hx
    cases hx
  · rintro s ev s' ⟨⟨hlive, free, pend, hn⟩, h⟩ hok hs
    have hstep := State.step_cases hs
    obtain ⟨free', pend', hn', -⟩ := hn.step hlive hstep
    exact ⟨⟨hlive.step hstep, free', pend', hn'⟩, h.step hn hlive hok hstep⟩

private theorem refuses_of_admits {s : State} {ev : Event} (hok : signoAdmits s ev) : s.Refuses ev := by
  intro cur c signo hcall hsigno hout junk
  obtain ⟨-, hok⟩ := State.admits_call hok hcall
  unfold outOfRange at hout
  cases c with
  | sigaction signo' act oldact =>
    obtain rfl := Option.some.inj hsigno
    simp only [callSignoAdmits, Bool.and_eq_true, decide_eq_true_eq] at hok
    omega
  | kill envid signo' =>
    obtain rfl := Option.some.inj hsigno
    have hnone : s.kern.skipInsn.envid2env cur envid false = none := by
      simp only [callSignoAdmits, Bool.or_eq_true, Bool.and_eq_true, decide_eq_true_eq,
        Option.isNone_iff_eq_none] at hok
      exact hok.resolve_right fun hr => by omega
    refine ⟨s.kern.skipInsn, -1, ?_, rfl⟩
    show s.kern.skipInsn.sysKill cur envid signo' = _
    rw [sysKill, hnone]
  | _ => cases hsigno

/-- The accesses of the next step of a run are inside, and numbers that are no signal's are refused. -/
theorem signos_inside {s : State} (h : kernel.Reach (fun s ev => signoAdmits s ev) s) {ev : Event}
    (hok : signoAdmits s ev) : (∀ a ∈ s.signoAccesses ev, a.inside = true) ∧ s.Refuses ev := by
  refine ⟨fun a ha => ?_, refuses_of_admits hok⟩
  obtain ⟨⟨hlive, free, pend, hn⟩, hpend⟩ := pendingOk_of_reach h
  unfold State.signoAccesses at ha
  split at ha
  case h_1 hphase =>
    cases hc : s.kern.curenv with
    | none =>
      rw [hc] at ha
      cases ha
    | some c =>
      rw [hc] at ha
      have hlive_c := hlive.cur c hc
      have hl := hn.pending c hlive_c
      have hfrm : ∀ f, (none : Option SignoPtr) = some f → f ∉ pend c := fun _ hf => nomatch hf
      refine scanAccesses_inside hl hfrm (fun n hmem => ?_) a ha
      refine hpend c _ ?_
      rw [pendingSignals_live hlive_c, pendingOf_eq hl]
      exact List.mem_map_of_mem hmem
  case h_2 =>
    split at ha
    case h_1 cur signo act oldact hcall =>
      obtain ⟨-, hok⟩ := State.admits_call hok hcall
      simp only [callSignoAdmits, Bool.and_eq_true, decide_eq_true_eq] at hok
      have hsub : (signo - 1).toInt = signo.toInt - 1 := by
        have hone : (1 : Word).toInt = 1 := by decide
        rw [BitVec.toInt_sub, hone, Int.bmod_eq_of_le (by omega) (by omega)]
      rw [List.mem_singleton.1 ha, hsub]
      simp only [SignoAccess.inside, Bool.and_eq_true, decide_eq_true_eq]
      omega
    case h_2 => cases ha

/-- A parent sends its child signal 10, which the child scans for. -/
private theorem sendIgnored_signos : (Machine.gxemul.after signoAdmits sendIgnored.dropLast).any fun s =>
    s.signoAccesses .ret = [.mask 0, .table 9] ∧ signoAdmits s .ret = true := by decide +kernel

theorem signos_inside_sendIgnored : ∃ s, kernel.Reach (fun s ev => signoAdmits s ev) s ∧
    s.signoAccesses .ret = [.mask 0, .table 9] ∧ (∀ a ∈ s.signoAccesses .ret, a.inside = true) ∧ s.Refuses .ret := by
  obtain ⟨s, hs, hcond⟩ := (Option.any_eq_true _ _).1 sendIgnored_signos
  obtain ⟨hacc, hok⟩ := of_decide_eq_true hcond
  exact ⟨s, Machine.after_reach hs, hacc, signos_inside (Machine.after_reach hs) hok⟩

/-- An environment sends itself signal 64, and signal 300; another one sets a handler for signal 0. -/
def sendNumber (signo : Word) : List Event := .create .empty 1 :: tickEvents ++ (callEvents 20 0 signo 0).dropLast
def installFor (signo : Word) : List Event := .create .empty 1 :: tickEvents ++ (callEvents 18 signo 0 0).take 1

/-- The scan looks for signal 64 behind the mask; 300 is sent as signal 44; the entry for signal 0 is in front of the
table. -/
private theorem numbers_outside :
    ((Machine.gxemul.after (fun _ _ => true) (sendNumber 64)).any fun s => s.signoAccesses .ret = [.mask 2]) = true ∧
      ((Machine.gxemul.after (fun _ _ => true) (sendNumber 300)).any fun s =>
        s.kern.pendingSignals 0 = [some 44]) = true ∧
      ((Machine.gxemul.after (fun _ _ => true) (installFor 0)).any fun s =>
        s.signoAccesses .handle = [.table (-1)]) = true := by decide +kernel

theorem exists_outside :
    (∃ s, kernel.Reach (fun _ _ => True) s ∧ ∃ a ∈ s.signoAccesses .ret, a = .mask 2 ∧ a.inside = false) ∧
    ∃ s, kernel.Reach (fun _ _ => True) s ∧ ∃ a ∈ s.signoAccesses .handle, a = .table (-1) ∧ a.inside = false := by
  obtain ⟨s, hs, hacc⟩ := (Option.any_eq_true _ _).1 numbers_outside.1
  obtain ⟨t, ht, hacc'⟩ := (Option.any_eq_true _ _).1 numbers_outside.2.2
  refine ⟨⟨s, (Machine.after_reach hs).mono fun _ _ _ => trivial, .mask 2, ?_, rfl, by decide⟩,
    ⟨t, (Machine.after_reach ht).mono fun _ _ _ => trivial, .table (-1), ?_, rfl, by decide⟩⟩
  · rw [of_decide_eq_true hacc]
    exact List.mem_singleton_self _
  · rw [of_decide_eq_true hacc']
    exact List.mem_singleton_self _

end Mos
