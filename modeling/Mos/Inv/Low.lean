import Mos.Inv.Translate
import Mos.Inv.Tlb

/-!
# The pages below `UTEMP`

`is_illegal_va` keeps `sys_mem_alloc` and `sys_mem_map` from mapping a page below `UTEMP`.  A fault there maps one after
it has sent `SIGSEGV`, and `sys_ipc_try_send` maps one at `0` where the receiver did not want a page.
-/

namespace Mos

open Kern

namespace Kern

/-- A page is sent to `env_ipc_dstva` from `UTEMP` on. -/
def sendHigh (k : Kern) (cur : EnvPtr) : Call → Bool
  | .ipcTrySend envid _ srcva _ =>
    srcva = 0 || (k.envid2env cur envid false).all fun e => UTEMP ≤ (k.envs e).envIpcDstva
  | _ => true

def callLowAdmits (k : Kern) (cur : EnvPtr) (c : Call) : Bool := callMemAdmits k cur c && sendHigh k cur c

/-- `SIGSEGV` is the first pending signal of `e`. -/
def Segfault (k : Kern) (e : EnvPtr) : Prop :=
  ∃ n, (k.envs e).signoHeader = some n ∧ (k.signos n).signo.toNat = SIGSEGV

end Kern

/-- No image is loaded below `UTEMP`, and no fault below `UTEMP` is served. -/
def faultHigh (s : State) : Event → Bool
  | .create binary _ => binary.pages.all fun x => UTEMP ≤ x.1
  | .handle => match s.phase with
    | .entered (.tlbMiss va) => UTEMP ≤ va
    | _ => true
  | _ => true

/-- Steps that map nothing below `UTEMP`. -/
def lowAdmits (s : State) (ev : Event) : Bool := s.admits vmFree callLowAdmits ev && faultHigh s ev

/-- Nothing is mapped below `UTEMP`, the TLB shows nothing there, and a fault there is answered with `SIGSEGV`. -/
structure LowOk (s : State) : Prop where
  pages : ∀ e va, va < UTEMP → s.kern.userMap (e, VPN va) = none
  tlb : ∀ t ∈ s.kern.pm.tlb, ∀ va, va < UTEMP → t.vpn ≠ VPN va
  segv : ∀ va s', va < UTEMP → s.phase = .entered (.tlbMiss va) → s.step .handle = some s' →
    ∃ e, s.kern.curenv = some e ∧ s'.kern.Segfault e

/-! ### Addresses -/

/-- `UTEMP` is the start of a page. -/
private theorem lt_UTEMP_congr {va va' : Word} (h : VPN va' = VPN va) (hlt : va < UTEMP) : va' < UTEMP := by
  have hdx : (PDX va' : Nat) = PDX va := congrArg (fun v : Vpn => (v.1 : Nat)) h
  have htx : (PTX va' : Nat) = PTX va := congrArg (fun v : Vpn => (v.2 : Nat)) h
  have htemp : UTEMP.toNat = 0x3fe * 4096 := by decide
  have hlt : va.toNat < UTEMP.toNat := hlt
  have hva := va.isLt
  have hva' := va'.isLt
  rw [PDX_toNat, PDX_toNat] at hdx
  simp only [PTX, BitVec.toNat_ushiftRight, Nat.shiftRight_eq_div_pow] at htx
  show va'.toNat < UTEMP.toNat
  omega

private theorem UTEMP_lt_UTOP : UTEMP < UTOP := by decide

private theorem not_lt_UTEMP_of_legal {va : Word} (h : isIllegalVa va = false) : ¬va < UTEMP := by
  intro hlt
  simp [isIllegalVa, hlt] at h

/-! ### The TLB -/

variable {mc : Machine} {leak : Nat → Nat}

private theorem Mem.Ok.moves_tlb {pol : Policy} {e : EnvPtr} {asid : Asid} {s s' : Mem} (hm : Moves mc pol e asid s s') :
    s'.pm.tlb ⊆ s.pm.tlb := by
  induction hm with
  | refl => exact fun _ hx => hx
  | tail _ hm ih => exact List.Subset.trans (Mem.move_tlb hm) ih

/-- Only a refill adds an entry to the TLB. -/
private theorem MemOk.step_tlb {s s' : State} {ev : Event} (h : MemOk mc leak s.kern) (hs : Step s ev s')
    (ha : memAdmits s ev = true) {t : TlbEntry} (ht : t ∈ s'.kern.pm.tlb) :
    t ∈ s.kern.pm.tlb ∨ ∃ va, s.phase = .entered (.tlbMiss va) ∧ ev = .handle ∧ t.vpn = VPN va := by
  obtain ⟨e, asid, m, hst⟩ := h.memSteps hs ha
  rcases hst.tlb t ht with ht | hmiss
  · exact .inl (Mem.Ok.moves_tlb hst.moves ht)
  · exact .inr hmiss

/-! ### Faults -/

/-- A fault below `UTEMP`, where nothing is mapped, sends `SIGSEGV`. -/
private theorem MemOk.segfault {s s' : State} {va : Word} (h : MemOk mc leak s.kern) (hva : va < UTEMP)
    (hnone : ∀ e, s.kern.userMap (e, VPN va) = none) (hphase : s.phase = .entered (.tlbMiss va))
    (hs : s.step .handle = some s') : ∃ e, s.kern.curenv = some e ∧ s'.kern.Segfault e := by
  have hs := State.step_cases hs
  obtain ⟨phase, k⟩ := s
  obtain rfl : phase = .entered (.tlbMiss va) := hphase
  cases hs with
  | @tlbMiss _ k₁ c _ pgdir pp ptr hc hlim hserved hdir hl =>
    refine ⟨c, hc, ?_⟩
    have hlive := h.live.cur c hc
    cases hserved with
    | mapped =>
      have hlook : k.pageLookupEnv c va = some (some pp) := by
        rw [pageLookupEnv, hdir, Option.bind_some, hl]
        rfl
      have hmap : k.userMap (c, VPN va) = some pp := h.lookup_some hlive (BitVec.lt_trans hva UTEMP_lt_UTOP) hlook
      have hnone : k.userMap (c, VPN va) = none := hnone c
      rw [hnone] at hmap
      cases hmap
    | alloc _ _ halloc =>
      obtain ⟨k₀, p, pm, hsegv, -, -, hi⟩ := passiveAlloc_cases halloc
      obtain ⟨_, _, -, -, rfl⟩ := pageInsertEnv_cases hi
      cases hsegv with
      | none hge => exact absurd hva (BitVec.not_lt.2 hge)
      | @sent n _ _ hn =>
        obtain ⟨-, rfl⟩ := signoAlloc_cases hn
        refine ⟨n, ?_, ?_⟩
        · show (((_ : Kern).pended c n).envs c).signoHeader = some n
          rw [pended, setEnv_self]
        · show (((_ : Kern).pended c n).signos n).signo.toNat = SIGSEGV
          rw [pended, setEnv_signos, setNext, setSignos_signos, Function.update_self, setSignos_signos,
            Function.update_self]
          rfl

/-! ### Runs -/

private theorem memAdmits_of_low {s : State} {ev : Event} (h : lowAdmits s ev = true) : memAdmits s ev = true := by
  rw [memAdmits_eq]
  exact State.admits_mono (Bool.and_eq_true_iff.1 h).1 (fun _ hk => hk) fun _ _ _ hc => (Bool.and_eq_true_iff.1 hc).1

/-- An admitted step maps nothing below `UTEMP`. -/
private theorem Gain.not_low {s : State} {ev : Event} {b : EnvPtr} {va : Word} {p : Nat} (h : Gain s ev b (VPN va) p)
    (ha : lowAdmits s ev = true) (hva : va < UTEMP) : s.kern.userMap (b, VPN va) = some p := by
  obtain ⟨hcalls, hfault⟩ := Bool.and_eq_true_iff.1 ha
  cases h with
  | kept h => exact h
  | created hev _ hv =>
    subst hev
    obtain ⟨x, hx, hv⟩ := hv
    have hle : UTEMP ≤ x.1 := by simpa using List.all_eq_true.1 hfault x hx
    exact absurd (lt_UTEMP_congr hv.symm hva) (BitVec.not_lt.2 hle)
  | @faulted va' hev hphase _ hv =>
    subst hev
    have hle : UTEMP ≤ va' := by
      unfold faultHigh at hfault
      dsimp only at hfault
      rw [hphase] at hfault
      simpa using hfault
    exact absurd (lt_UTEMP_congr hv.symm hva) (BitVec.not_lt.2 hle)
  | @called cur c hc hgain =>
    have hcall := (State.admits_call hcalls hc).2
    have hsend := (Bool.and_eq_true_iff.1 hcall).2
    cases hgain with
    | allocated hlegal _ hv => exact absurd (lt_UTEMP_congr hv.symm hva) (not_lt_UTEMP_of_legal hlegal)
    | mapped hlegal _ _ hv => exact absurd (lt_UTEMP_congr hv.symm hva) (not_lt_UTEMP_of_legal hlegal)
    | @sent envid value srcva perm h0 he _ hv =>
      have hall : (srcva = 0 || (s.kern.envid2env cur envid false).all fun e => UTEMP ≤ (s.kern.envs e).envIpcDstva) = true :=
        hsend
      rw [he, Option.all_some, Bool.or_eq_true, decide_eq_true_eq, decide_eq_true_eq] at hall
      exact absurd (lt_UTEMP_congr hv.symm hva) (BitVec.not_lt.2 (hall.resolve_left h0))

private theorem LowOk.of_steps {l : List (State × Event)} {s : State}
    (h : kernel.Steps (fun s ev => lowAdmits s ev = true) ⟨.user, mc.bootKern⟩ l s) :
    (∃ leak, MemOk mc leak s.kern) ∧ (∀ e va, va < UTEMP → s.kern.userMap (e, VPN va) = none) ∧
      ∀ t ∈ s.kern.pm.tlb, ∀ va, va < UTEMP → t.vpn ≠ VPN va := by
  refine h.invariant (I := fun _ s => (∃ leak, MemOk mc leak s.kern) ∧
    (∀ e va, va < UTEMP → s.kern.userMap (e, VPN va) = none) ∧
      ∀ t ∈ s.kern.pm.tlb, ∀ va, va < UTEMP → t.vpn ≠ VPN va) ⟨⟨_, MemOk.boot mc⟩, ?_, nofun⟩ ?_
  · intro e va hva
    have hnone : mc.bootKern.dirs e = none := dirs_of_free rfl
    simp [userMap, hnone]
  · rintro l t ev u ⟨⟨leak, hm⟩, hpages, htlb⟩ ha hs
    have hmem := memAdmits_of_low ha
    have hstep := State.step_cases hs
    obtain ⟨leak', hm', -⟩ := hm.step hstep hmem (.any t ev)
    refine ⟨⟨leak', hm'⟩, fun e va hva => ?_, fun x hx va hva heq => ?_⟩
    · cases hp : u.kern.userMap (e, VPN va) with
      | none => rfl
      | some p =>
        have hold := (hm.gain hstep hmem hp).not_low ha hva
        rw [hpages e va hva] at hold
        cases hold
    · rcases hm.step_tlb hstep hmem hx with hx | ⟨va', hphase, rfl, hv⟩
      · exact htlb x hx va hva heq
      · have hfault := (Bool.and_eq_true_iff.1 ha).2
        have hle : UTEMP ≤ va' := by
          unfold faultHigh at hfault
          dsimp only at hfault
          rw [hphase] at hfault
          simpa using hfault
        exact absurd (lt_UTEMP_congr (hv.symm.trans heq) hva) (BitVec.not_lt.2 hle)

/-- The first environment reads at address `0`. -/
def readsNull : List Event :=
  .create .empty 1 :: tickEvents ++ (trapEvents (argRegs 0 0 0 0) (fun _ => 0) (.tlbMiss 0)).take 1

private theorem readsNull_cond : (kernel.trace lowAdmits ⟨.user, Machine.gxemul.bootKern⟩ readsNull).any fun r =>
    r.2.phase = .entered (.tlbMiss 0) ∧ (r.2.step .handle).isSome := by decide +kernel

/-- After that, the page at `0` is mapped. -/
private theorem mapsNull_cond : (kernel.trace (fun _ _ => true) ⟨.user, Machine.gxemul.bootKern⟩
    (.create .empty 1 :: tickEvents ++ (trapEvents (argRegs 0 0 0 0) (fun _ => 0) (.tlbMiss 0)).take 2)).any fun r =>
      r.2.kern.userMap (0, VPN 0) ≠ none := by decide +kernel

end Mos
