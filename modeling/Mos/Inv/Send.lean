import Mos.Inv.Ipc
import Mos.Inv.NoMem
import Mos.Inv.Translate

/-!
# Sending a page

`sys_ipc_try_send` stores the message and wakes the receiver first, and only then looks at the page that goes with it.
So a send can fail after it took effect, it can succeed without the page, and `env_ipc_perm` does not tell: it has
`PTE_V` also for a message without a page.
-/

namespace Mos

open Kern

namespace Pmap

/-- The tables of the environments do not loop. -/
private theorem not_looped {mc : Machine} {leak : Nat → Nat} {D : Dirs} {m : Pmap} {e : EnvPtr} {d : Nat} {va : Word}
    (h : Mem.Ok mc leak ⟨D, m⟩) (hd : D e = some d) (hi : PDX va < PDX UTOP) : ¬m.Looped d va := by
  intro hl
  obtain ⟨ht, -⟩ := h.pde_valid hd (userIdx_of_lt hi) hl.valid
  rw [hl.self] at ht
  cases h.tree.tree (.dir e) (.pde e (PDX va)) d trivial hd ht

end Pmap

namespace Kern

/-- The receiver is woken although the page is not mapped at `srcva`. -/
def WakesInVain (k : Kern) (cur : EnvPtr) (envid srcva : Word) : Prop :=
  srcva ≠ 0 ∧ isIllegalVa srcva = false ∧ ∃ e, k.envid2env cur envid false = some e ∧
    (k.envs e).envIpcRecving ≠ 0 ∧ k.pageLookupEnv cur srcva = some none

/-- The entry for `p` can be stored at `va`: there is a table or a page for one, and `perm` does not reach into the frame
number. -/
def Storable (k : Kern) (e : EnvPtr) (va : Word) (p : Nat) (perm : Word) : Prop :=
  k.hasRoom e va k.pm.pageFreeList = true ∧ p ||| PPN perm = p

/-- The receiver wants the page, and it cannot be stored. -/
def LosesPage (k : Kern) (cur : EnvPtr) (envid srcva perm : Word) : Prop :=
  srcva ≠ 0 ∧ isIllegalVa srcva = false ∧ ∃ e p, k.envid2env cur envid false = some e ∧
    (k.envs e).envIpcRecving ≠ 0 ∧ (k.envs e).envIpcDstva ≠ 0 ∧ k.userMap (cur, VPN srcva) = some p ∧
    ¬k.Storable e (k.envs e).envIpcDstva p perm

/-- After a send that returned `r` the page is mapped in the receiver, if there is one and the receiver wants it. -/
def MapsSent (k : Kern) (cur : EnvPtr) (envid srcva : Word) (k' : Kern) (r : Word) : Prop :=
  r = 0 → srcva ≠ 0 → ∀ e, k.envid2env cur envid false = some e → (k.envs e).envIpcDstva ≠ 0 →
    ∃ p, k.userMap (cur, VPN srcva) = some p ∧ k'.userMap (e, VPN (k.envs e).envIpcDstva) = some p

/-- The four ways in which a send ends. -/
inductive Sent (k : Kern) (cur : EnvPtr) (envid value srcva perm : Word) : Kern → Word → Prop
  | refused {r : Word} (hr : r ≠ 0) (hnot : ∀ e, k.envid2env cur envid false = some e →
      (k.envs e).envIpcRecving ≠ 0 → srcva ≠ 0 ∧ isIllegalVa srcva = true) : Sent k cur envid value srcva perm k r
  | value {e : EnvPtr} {q : TailQueue EnvPtr} (h0 : srcva = 0) (he : k.envid2env cur envid false = some e)
      (hrecv : (k.envs e).envIpcRecving ≠ 0) :
      Sent k cur envid value srcva perm (k.ipcWake cur e value perm q) 0
  | vain {e : EnvPtr} {q : TailQueue EnvPtr} (h0 : srcva ≠ 0) (hva : isIllegalVa srcva = false)
      (he : k.envid2env cur envid false = some e) (hrecv : (k.envs e).envIpcRecving ≠ 0)
      (hl : k.pageLookupEnv cur srcva = some none) :
      Sent k cur envid value srcva perm (k.ipcWake cur e value perm q) (-E_INVAL)
  | page {e : EnvPtr} {q : TailQueue EnvPtr} {p : Nat} {r : Word} {k' : Kern} (h0 : srcva ≠ 0)
      (hva : isIllegalVa srcva = false) (he : k.envid2env cur envid false = some e)
      (hrecv : (k.envs e).envIpcRecving ≠ 0) (hl : k.pageLookupEnv cur srcva = some (some p))
      (hi : (k.ipcWake cur e value perm q).pageInsertEnv e p
        ((k.ipcWake cur e value perm q).envs e).envIpcDstva perm = some (r, k')) :
      Sent k cur envid value srcva perm k' 0

variable {k k' : Kern} {cur e : EnvPtr} {envid value srcva perm dstva r : Word} {q : TailQueue EnvPtr} {p : Nat}

private theorem sent_of_send (h : k.sysIpcTrySend cur envid value srcva perm = some (k', some r)) :
    k.Sent cur envid value srcva perm k' r := by
  unfold sysIpcTrySend at h
  split at h
  case isTrue hva =>
    cases h
    exact .refused (by decide) fun _ _ _ => hva
  case isFalse hva =>
    have hva : srcva = 0 ∨ isIllegalVa srcva = false := by simpa [or_iff_not_imp_left] using hva
    split at h
    case h_1 hnone =>
      cases h
      refine .refused (by decide) fun e he => ?_
      rw [hnone] at he
      cases he
    case h_2 e he =>
      split at h
      case isTrue hrecv =>
        cases h
        refine .refused (by decide) fun e' he' hrecv' => ?_
        obtain rfl := Option.some.inj (he.symm.trans he')
        exact absurd hrecv hrecv'
      case isFalse hrecv =>
        obtain ⟨q, -, h⟩ := Option.bind_eq_some_iff.1 h
        dsimp only at h
        split at h
        case isFalse h0 =>
          cases h
          exact .value (by simpa using h0) he hrecv
        case isTrue h0 =>
          have hva := hva.resolve_left h0
          obtain ⟨page, hl, h⟩ := Option.bind_eq_some_iff.1 h
          rw [ipcWake_lookup] at hl
          cases page with
          | none =>
            cases h
            exact .vain h0 hva he hrecv hl
          | some p =>
            obtain ⟨⟨r', k₁⟩, hi, h⟩ := Option.map_eq_some_iff.1 h
            cases h
            exact .page h0 hva he hrecv hl hi

/-- A woken receiver does not wait any more. -/
private theorem ipcWake_recving (k : Kern) (cur e : EnvPtr) (value perm : Word) (q : TailQueue EnvPtr) :
    ((k.ipcWake cur e value perm q).envs e).envIpcRecving = 0 := by
  rw [ipcWake, setEnv_self]

/-- A send that fails changes nothing, unless it has woken the receiver in vain. -/
private theorem send_error_iff (h : k.sysIpcTrySend cur envid value srcva perm = some (k', some r)) :
    (r ≠ 0 → k' = k) ↔ ¬k.WakesInVain cur envid srcva := by
  cases sent_of_send h with
  | refused hr hnot =>
    refine iff_of_true (fun _ => rfl) fun ⟨_, hva, e, he, hrecv, _⟩ => ?_
    have hill := (hnot e he hrecv).2
    rw [hva] at hill
    cases hill
  | value h0 he hrecv => exact iff_of_true (fun hr => absurd rfl hr) fun hv => hv.1 h0
  | @vain e q h0 hva he hrecv hl =>
    refine iff_of_false (fun hclean => ?_) fun hnot => hnot ⟨h0, hva, e, he, hrecv, hl⟩
    have heq := hclean (by decide)
    rw [← heq, ipcWake_recving] at hrecv
    exact hrecv rfl
  | page h0 hva he hrecv hl hi =>
    refine iff_of_true (fun hr => absurd rfl hr) fun ⟨_, _, e', _, _, hl'⟩ => ?_
    rw [hl] at hl'
    cases hl'

end Kern

/-! ### What is stored -/

namespace MemOk

variable {mc : Machine} {leak : Nat → Nat} {k k' : Kern} {cur e : EnvPtr} {envid value srcva perm r : Word}
  {q : TailQueue EnvPtr} {p : Nat}

/-- The receiver's entry for the page, which is there if it could be stored. -/
private theorem sent_entry (h : MemOk mc leak k) (hlive : (k.envs e).envStatus ≠ .FREE)
    (hi : (k.ipcWake cur e value perm q).pageInsertEnv e p ((k.ipcWake cur e value perm q).envs e).envIpcDstva perm =
      some (r, k')) :
    k'.mem.user e (VPN (k.envs e).envIpcDstva) =
      if k.hasRoom e (k.envs e).envIpcDstva k.pm.pageFreeList then some (page2pa p ||| perm ||| PTE_V) else none := by
  obtain ⟨stored, hins, hst⟩ := h.sent_stores hlive hi
  have hdst : ((k.ipcWake cur e value perm q).envs e).envIpcDstva = (k.envs e).envIpcDstva :=
    ipcWake_field Env.envIpcDstva (fun _ _ _ _ => rfl) k cur e value perm q e
  have hdir : ((k.ipcWake cur e value perm q).envs e).envPgdir = (k.envs e).envPgdir :=
    ipcWake_field Env.envPgdir (fun _ _ _ _ => rfl) k cur e value perm q e
  rw [hdst] at hi
  obtain ⟨d, pm, hp, hpm, -⟩ := pageInsertEnv_cases hi
  rw [hdir] at hp
  have hd : k.dirs e = some d := (dirs_of_live hlive).trans hp
  have hloop : ¬k.pm.Looped d (k.envs e).envIpcDstva := Pmap.not_looped h.mem hd (Mem.PDX_lt_of_lt (h.dstva e))
  have hroom : k.hasRoom e (k.envs e).envIpcDstva k.pm.pageFreeList = true ↔
      ¬k.pm.TableMissing d p (k.envs e).envIpcDstva := by
    rw [hasRoom, hp, Option.any_some, Pmap.TableMissing, Pmap.NoTable]
    cases has (k.pm.word d (PDX (k.envs e).envIpcDstva)) PTE_V with
    | true => exact iff_of_true rfl fun hm => hm.2.elim (fun h => by cases h) fun h => hloop h.1
    | false =>
      cases hl : k.pm.pageFreeList with
      | nil => exact iff_of_false (by decide) fun h => h ⟨rfl, .inl rfl⟩
      | cons => exact iff_of_true rfl fun hm => by cases hm.1
  rw [hst.self]
  rcases Pmap.pageInsert_result hpm with ⟨rfl, hnot⟩ | ⟨rfl, hf⟩
  · rw [if_pos (hroom.2 hnot), hins.eq_zero]
  · rw [if_neg fun h => hroom.1 h hf.missing]
    cases hins with
    | full => rfl

/-- What the lookup finds is what is mapped. -/
private theorem userMap_of_lookup (h : MemOk mc leak k) (hlive : (k.envs e).envStatus ≠ .FREE)
    (hva : isIllegalVa srcva = false)
    {page : Option Nat} (hl : k.pageLookupEnv e srcva = some page) : k.userMap (e, VPN srcva) = page := by
  obtain ⟨d, hp, -⟩ := Option.bind_eq_some_iff.1 hl
  have hd : k.dirs e = some d := (dirs_of_live hlive).trans hp
  rw [h.lookup hd hlive (lt_of_legal hva)] at hl
  rw [userMap_eq mc]
  exact Option.some.inj hl

/-- The page that was sent is mapped if it could be stored. -/
private theorem sent_mapped_iff (h : MemOk mc leak k) (hlive : (k.envs e).envStatus ≠ .FREE) (hp : p < mc.npage)
    (hi : (k.ipcWake cur e value perm q).pageInsertEnv e p ((k.ipcWake cur e value perm q).envs e).envIpcDstva perm =
      some (r, k')) :
    k'.userMap (e, VPN (k.envs e).envIpcDstva) = some p ↔ k.Storable e (k.envs e).envIpcDstva p perm := by
  rw [userMap_of_user _ _ (Mem.PDX_lt_of_lt (h.dstva e)), h.sent_entry hlive hi, Kern.Storable]
  by_cases hroom : k.hasRoom e (k.envs e).envIpcDstva k.pm.pageFreeList = true
  · rw [if_pos hroom, Option.map_some, PPN_entry (page_lt hp), Option.some.injEq]
    exact ⟨fun h => ⟨hroom, h⟩, fun h => h.2⟩
  · rw [if_neg hroom]
    exact iff_of_false (by simp) fun h => hroom h.1

private theorem mapsSent_iff (h : MemOk mc leak k) (hc : k.curenv = some cur)
    (hs : k.sysIpcTrySend cur envid value srcva perm = some (k', some r)) :
    k.MapsSent cur envid srcva k' r ↔ ¬k.LosesPage cur envid srcva perm := by
  have hcur := h.live.cur cur hc
  cases sent_of_send hs with
  | refused hr hnot =>
    refine iff_of_true (fun h0 => absurd h0 hr) fun ⟨_, hva, e, _, he, hrecv, _⟩ => ?_
    have hill := (hnot e he hrecv).2
    rw [hva] at hill
    cases hill
  | value h0 => exact iff_of_true (fun _ hne => absurd h0 hne) fun hl => hl.1 h0
  | vain h0 hva he hrecv hl =>
    refine iff_of_true (fun h0 => absurd h0 (by decide)) fun ⟨_, _, _, p, _, _, _, hp, _⟩ => ?_
    rw [h.userMap_of_lookup hcur hva hl] at hp
    cases hp
  | @page e q p r' _ h0 hva he hrecv hl hi =>
    have hmap := h.userMap_of_lookup hcur hva hl
    have hpp := (h.mem.tree.bound _ _ (h.lookup_some hcur (lt_of_legal hva) hl)).2
    have hiff := h.sent_mapped_iff (envid2env_live hcur he) hpp hi
    constructor
    · rintro hsent ⟨-, -, e', p', he', -, hd, hp', hnot⟩
      obtain rfl := Option.some.inj (he.symm.trans he')
      obtain rfl := Option.some.inj (hmap.symm.trans hp')
      obtain ⟨p'', hp'', hnew⟩ := hsent rfl h0 e he hd
      obtain rfl := Option.some.inj (hmap.symm.trans hp'')
      exact hnot (hiff.1 hnew)
    · intro hnot _ _ e' he' hd
      obtain rfl := Option.some.inj (he.symm.trans he')
      refine ⟨p, hmap, hiff.2 ?_⟩
      by_contra hsto
      exact hnot ⟨h0, hva, e, p, he, hrecv, hd, hmap, hsto⟩

end MemOk

/-! ### The window of the receiver -/

/-- The window of a receive of `e`. -/
def State.recvOf (s : State) (ev : Event) (e : EnvPtr) : Option Word := (s.call ev).bind fun (cur, c) => c.recvOf cur e

/-- The window of the last receive of `e` in the steps `l`. -/
def lastRecv (l : List (State × Event)) (e : EnvPtr) : Option Word := (l.filterMap fun p => p.1.recvOf p.2 e).getLast?

private theorem lastRecv_snoc (l : List (State × Event)) (p : State × Event) (e : EnvPtr) :
    lastRecv (l ++ [p]) e = (p.1.recvOf p.2 e).or (lastRecv l e) := by
  unfold lastRecv
  rw [List.filterMap_append]
  cases hp : p.1.recvOf p.2 e with
  | none => simp [hp]
  | some dstva => simp [hp]

/-- A step sets `env_ipc_dstva` only if it is a receive. -/
private theorem Step.dstva {s s' : State} {ev : Event} (h : Step s ev s') (e : EnvPtr) :
    (s'.kern.envs e).envIpcDstva = (s.recvOf ev e).getD (s.kern.envs e).envIpcDstva := by
  cases h with
  | create hc => exact MemOk.create_dstva hc e
  | evict => rfl
  | idle => rfl
  | save => rfl
  | @tick k k' hs =>
    obtain ⟨q, n, e', -, rfl, -⟩ := schedule_cases hs
    exact running_field Env.envIpcDstva (fun _ _ => rfl) (fun _ _ => rfl) k q n e' e
  | @noSys k junk hn =>
    have hnone : State.recvOf ⟨.entered (.syscall junk), k⟩ .handle e = none := by
      simp [State.recvOf, State.call, decode_none hn]
    rw [hnone]
    rfl
  | @call k k' cur c r junk hc hd hcall =>
    have hrecv : State.recvOf ⟨.entered (.syscall junk), k⟩ .handle e = c.recvOf cur e := by
      simp [State.recvOf, State.call, hc, hd]
    rw [hrecv]
    exact MemOk.call_dstva_eq hcall e
  | @left k k' cur c junk hc hd hcall =>
    have hrecv : State.recvOf ⟨.entered (.syscall junk), k⟩ .handle e = c.recvOf cur e := by
      simp [State.recvOf, State.call, hc, hd]
    rw [hrecv]
    exact MemOk.call_dstva_eq hcall e
  | tlbMiss hc hva hserved hdir hl => exact MemOk.served_dstva hserved e
  | tlbMod => rfl
  | @ret k k₁ c returned tf hc hd =>
    have hsig := (doSignal_frame hd).1.field Env.envIpcDstva (fun _ _ _ => rfl) e
    exact (MemOk.storeTf_dstva k₁ c returned tf e).trans hsig

/-- It is the window of the last receive. -/
private theorem dstva_of_steps {mc : Machine} {ok : State → Event → Prop} {l : List (State × Event)} {s : State}
    (h : kernel.Steps ok ⟨.user, mc.bootKern⟩ l s) (e : EnvPtr) :
    (s.kern.envs e).envIpcDstva = (lastRecv l e).getD 0 := by
  refine h.invariant (I := fun l s => (s.kern.envs e).envIpcDstva = (lastRecv l e).getD 0) rfl ?_
  intro l t ev u ih _ hs
  rw [(State.step_cases hs).dstva e, lastRecv_snoc, ih]
  cases t.recvOf ev e <;> rfl

/-- A send that fails did nothing exactly when it does not wake the receiver in vain.  In runs that keep the page tables
apart, a send that succeeds maps the page exactly when the entry can be stored. -/
theorem send_ok_iff {k k' : Kern} {cur : EnvPtr} {envid value srcva perm r : Word}
    (h : k.sysIpcTrySend cur envid value srcva perm = some (k', some r)) :
    ((r ≠ 0 → k' = k) ↔ ¬k.WakesInVain cur envid srcva) ∧
      ∀ (mc : Machine) l s, kernel.Steps (fun s ev => memAdmits s ev = true) ⟨.user, mc.bootKern⟩ l s →
        s.kern.curenv = some cur → s.kern.skipInsn = k →
        (k.MapsSent cur envid srcva k' r ↔ ¬k.LosesPage cur envid srcva perm) := by
  refine ⟨send_error_iff h, fun mc l s hl hc hk => ?_⟩
  subst hk
  obtain ⟨leak, hm⟩ := MemOk.of_steps hl
  exact hm.skipInsn.mapsSent_iff hc h

/-- The parent is about to send its page at `UTEXT` to the child that waits for one at `UTEXT + 0x1000`. -/
def aboutToSendPage : List Event :=
  .create .empty 1 :: tickEvents ++ callEvents 6 0 UTEXT PTE_D ++ callEvents 9 0 0 0 ++ callEvents 10 0x1001 1 0 ++
    callEvents 3 0 0 0 ++ callEvents 14 (UTEXT + 0x1000) 0 0 ++ (callEvents 13 0x1001 7 UTEXT).take 1

private theorem aboutToSendPage_cond : (kernel.trace memAdmits ⟨.user, Machine.gxemul.bootKern⟩ aboutToSendPage).any fun r =>
    r.2.kern.curenv = some 0 ∧ r.2.kern.skipInsn.envid2env 0 0x1001 false = some 1 ∧
      lastRecv r.1 1 = some (UTEXT + 0x1000) ∧ r.2.kern.skipInsn.userMap (0, VPN UTEXT) = some 0x3FFB ∧
      (r.2.kern.skipInsn.sysIpcTrySend 0 0x1001 7 UTEXT 0).any fun x =>
        x.2 = some 0 ∧ x.1.userMap (1, VPN (UTEXT + 0x1000)) = some 0x3FFB := by decide +kernel

/-- The page at `UTEXT` arrives. -/
theorem send_ok_iff_aboutToSend : ∃ (s : State) (k' : Kern),
    s.kern.skipInsn.sysIpcTrySend 0 0x1001 7 UTEXT 0 = some (k', some 0) ∧
    s.kern.skipInsn.userMap (0, VPN UTEXT) = some 0x3FFB ∧ k'.userMap (1, VPN (UTEXT + 0x1000)) = some 0x3FFB ∧
    (s.kern.skipInsn.MapsSent 0 0x1001 UTEXT k' 0 ↔ ¬s.kern.skipInsn.LosesPage 0 0x1001 UTEXT 0) := by
  obtain ⟨⟨l, s⟩, hl, hcond⟩ := (Option.any_eq_true _ _).1 aboutToSendPage_cond
  obtain ⟨hc, -, -, hpage, hsend⟩ := of_decide_eq_true hcond
  obtain ⟨⟨k', r⟩, hk, hr⟩ := (Option.any_eq_true _ _).1 hsend
  obtain ⟨rfl, harrived⟩ := of_decide_eq_true hr
  exact ⟨s, k', hk, hpage, harrived, (send_ok_iff hk).2 Machine.gxemul l s (.of_trace hl) hc rfl⟩

/-- The parent is about to send a message without a page to the child that waits. -/
def aboutToSend (srcva : Word) : List Event := waitInRecv ++ (callEvents 13 0x1001 7 srcva).take 1

/-- With an address at which nothing is mapped the child is woken, and the call fails. -/
private theorem wokenInVain_cond : (Machine.gxemul.after (fun _ _ => true) (aboutToSend UTEMP)).any fun s =>
    s.phase = .entered (.syscall 0) ∧ s.kern.curenv = some 0 ∧ (s.kern.skipInsn.envs 1).envIpcRecving = 1 ∧
      (s.kern.skipInsn.sysIpcTrySend 0 0x1001 7 UTEMP 0).any fun x =>
        x.2 = some (-E_INVAL) ∧ (x.1.envs 1).envIpcRecving = 0 := by decide +kernel

theorem exists_woken_in_vain : ∃ s cur envid value srcva perm k' r, kernel.Reach (fun _ _ => True) s ∧
    s.phase = .entered (.syscall 0) ∧ s.kern.curenv = some cur ∧
    s.kern.skipInsn.sysIpcTrySend cur envid value srcva perm = some (k', some r) ∧ r ≠ 0 ∧
    k'.envs ≠ s.kern.skipInsn.envs := by
  obtain ⟨s, hs, hcond⟩ := (Option.any_eq_true _ _).1 wokenInVain_cond
  obtain ⟨hphase, hc, hwait, hsend⟩ := of_decide_eq_true hcond
  obtain ⟨⟨k', r⟩, hk, hr⟩ := (Option.any_eq_true _ _).1 hsend
  obtain ⟨rfl, hwoken⟩ := of_decide_eq_true hr
  refine ⟨s, 0, 0x1001, 7, UTEMP, 0, k', -E_INVAL, (Machine.after_reach hs).mono fun _ _ _ => trivial, hphase, hc, hk,
    by decide, fun heq => ?_⟩
  rw [heq, hwait] at hwoken
  exact absurd hwoken (by decide)

/-! ### What the receiver learns -/

/-- After a send of `cur` that returned `0`, to `e` which waited with `dstva`: `env_ipc_perm` has `PTE_V` if and only if
a page came with the message, `dstva` maps that page with `perm`, and without a page the page table is as before. -/
structure Kern.Transfer (k : Kern) (cur e : EnvPtr) (dstva srcva perm : Word) (k' : Kern) : Prop where
  flag : has (k'.envs e).envIpcPerm PTE_V = true ↔ srcva ≠ 0 ∧ dstva ≠ 0
  mapped : srcva ≠ 0 → dstva ≠ 0 → ∃ p, k.userMap (cur, VPN srcva) = some p ∧
    k'.mem.user e (VPN dstva) = some (page2pa p ||| perm ||| PTE_V) ∧ PPN (page2pa p ||| perm ||| PTE_V) = p
  kept : ¬(srcva ≠ 0 ∧ dstva ≠ 0) → ∀ v, v.1 < PDX UTOP → k'.mem.user e v = k.mem.user e v

/-- The flag is set whether a page comes or not. -/
private theorem Kern.ipcWake_perm (k : Kern) (cur e : EnvPtr) (value perm : Word) (q : TailQueue EnvPtr) :
    has ((k.ipcWake cur e value perm q).envs e).envIpcPerm PTE_V = true := by
  have h9 : PTE_V = BitVec.twoPow 32 9 := by decide
  rw [ipcWake, setEnv_self, has_V, BitVec.getLsbD_or, h9, BitVec.getLsbD_twoPow]
  rfl

private theorem MemOk.transfer_iff {mc : Machine} {leak : Nat → Nat} {k k' : Kern} {cur e : EnvPtr}
    {envid value srcva perm : Word} (h : MemOk mc leak k) (hc : k.curenv = some cur)
    (he : k.envid2env cur envid false = some e)
    (hs : k.sysIpcTrySend cur envid value srcva perm = some (k', some 0)) :
    k.Transfer cur e (k.envs e).envIpcDstva srcva perm k' ↔ srcva ≠ 0 ∧ (k.envs e).envIpcDstva ≠ 0 ∧
      ∀ p, k.userMap (cur, VPN srcva) = some p → k.Storable e (k.envs e).envIpcDstva p perm := by
  have hcur := h.live.cur cur hc
  generalize hr : (0 : Word) = r at hs
  cases sent_of_send hs with
  | refused hr' => exact absurd hr.symm hr'
  | @value e' q h0 he' hrecv =>
    obtain rfl := Option.some.inj (he.symm.trans he')
    exact iff_of_false (fun ht => (ht.flag.1 (ipcWake_perm ..)).1 h0) fun hcond => hcond.1 h0
  | vain => exact absurd hr (by decide)
  | @page e' q p r' _ h0 hva he' hrecv hl hi =>
    obtain rfl := Option.some.inj (he.symm.trans he')
    have hmap := h.userMap_of_lookup hcur hva hl
    have hpp := (h.mem.tree.bound _ _ (h.lookup_some hcur (lt_of_legal hva) hl)).2
    have hlive := envid2env_live hcur he
    have hflag : has (k'.envs e).envIpcPerm PTE_V = true := by
      obtain ⟨_, _, -, -, rfl⟩ := pageInsertEnv_cases hi
      exact ipcWake_perm ..
    have hentry := h.sent_entry hlive hi
    constructor
    · intro ht
      have hboth := ht.flag.1 hflag
      refine ⟨hboth.1, hboth.2, fun p' hp' => ?_⟩
      obtain rfl := Option.some.inj (hmap.symm.trans hp')
      obtain ⟨p'', hp'', hstored, hframe⟩ := ht.mapped hboth.1 hboth.2
      obtain rfl := Option.some.inj (hmap.symm.trans hp'')
      rw [← h.sent_mapped_iff hlive hpp hi, userMap_of_user _ _ (Mem.PDX_lt_of_lt (h.dstva e)), hstored]
      exact congrArg some hframe
    · rintro ⟨-, hd, hcond⟩
      have hsto := hcond p hmap
      refine ⟨iff_of_true hflag ⟨h0, hd⟩, fun _ _ => ⟨p, hmap, ?_, ?_⟩, fun hnot => absurd ⟨h0, hd⟩ hnot⟩
      · rw [hentry, if_pos hsto.1]
      · rw [PPN_entry (page_lt hpp)]
        exact hsto.2

/-- The receiver is told the truth exactly when a page was sent, it wanted the page, and the entry could be stored. -/
theorem recv_transfer_iff {mc : Machine} {l : List (State × Event)} {s : State} {k' : Kern} {cur e : EnvPtr}
    {dstva envid value srcva perm : Word}
    (h : kernel.Steps (fun s ev => memAdmits s ev = true) ⟨.user, mc.bootKern⟩ l s) (hc : s.kern.curenv = some cur)
    (hrecv : lastRecv l e = some dstva) (he : s.kern.skipInsn.envid2env cur envid false = some e)
    (hs : s.kern.skipInsn.sysIpcTrySend cur envid value srcva perm = some (k', some 0)) :
    s.kern.skipInsn.Transfer cur e dstva srcva perm k' ↔ srcva ≠ 0 ∧ dstva ≠ 0 ∧
      ∀ p, s.kern.skipInsn.userMap (cur, VPN srcva) = some p → s.kern.skipInsn.Storable e dstva p perm := by
  have hdst : (s.kern.skipInsn.envs e).envIpcDstva = dstva := by
    have hlast := dstva_of_steps h e
    rw [hrecv] at hlast
    exact hlast
  obtain ⟨leak, hm⟩ := MemOk.of_steps h
  have hiff := hm.skipInsn.transfer_iff hc he hs
  rwa [hdst] at hiff

theorem recv_transfer_iff_aboutToSend : ∃ (l : List (State × Event)) (s : State) (k' : Kern),
    lastRecv l 1 = some (UTEXT + 0x1000) ∧ s.kern.skipInsn.sysIpcTrySend 0 0x1001 7 UTEXT 0 = some (k', some 0) ∧
    k'.userMap (1, VPN (UTEXT + 0x1000)) = some 0x3FFB ∧
    (s.kern.skipInsn.Transfer 0 1 (UTEXT + 0x1000) UTEXT 0 k' ↔ (UTEXT : Word) ≠ 0 ∧ (UTEXT + 0x1000 : Word) ≠ 0 ∧
      ∀ p, s.kern.skipInsn.userMap (0, VPN UTEXT) = some p → s.kern.skipInsn.Storable 1 (UTEXT + 0x1000) p 0) := by
  obtain ⟨⟨l, s⟩, hl, hcond⟩ := (Option.any_eq_true _ _).1 aboutToSendPage_cond
  obtain ⟨hc, he, hrecv, -, hsend⟩ := of_decide_eq_true hcond
  obtain ⟨⟨k', r⟩, hk, hr⟩ := (Option.any_eq_true _ _).1 hsend
  obtain ⟨rfl, harrived⟩ := of_decide_eq_true hr
  exact ⟨l, s, k', hrecv, hk, harrived, recv_transfer_iff (.of_trace hl) hc hrecv he hk⟩

private theorem aboutToSend_cond : (kernel.trace memAdmits ⟨.user, Machine.gxemul.bootKern⟩ (aboutToSend 0)).any fun r =>
    r.2.kern.curenv = some 0 ∧ r.2.kern.skipInsn.envid2env 0 0x1001 false = some 1 ∧ lastRecv r.1 1 = some 0 ∧
      (r.2.kern.skipInsn.sysIpcTrySend 0 0x1001 7 0 0).any fun x => x.2 = some 0 := by decide +kernel

/-- A message without a page, as the file server would take it for one with a page. -/
theorem exists_flag_without_page : ∃ (l : List (State × Event)) (s : State) (k' : Kern),
    kernel.Steps (fun s ev => memAdmits s ev = true) ⟨.user, Machine.gxemul.bootKern⟩ l s ∧
    lastRecv l 1 = some 0 ∧ s.kern.skipInsn.envid2env 0 0x1001 false = some 1 ∧
    s.kern.skipInsn.sysIpcTrySend 0 0x1001 7 0 0 = some (k', some 0) ∧ ¬s.kern.skipInsn.Transfer 0 1 0 0 0 k' := by
  obtain ⟨⟨l, s⟩, hl, hcond⟩ := (Option.any_eq_true _ _).1 aboutToSend_cond
  obtain ⟨-, he, hrecv, hsend⟩ := of_decide_eq_true hcond
  obtain ⟨⟨k', r⟩, hk, hr⟩ := (Option.any_eq_true _ _).1 hsend
  obtain rfl := of_decide_eq_true hr
  refine ⟨l, s, k', .of_trace hl, hrecv, he, hk, fun ht => ?_⟩
  have hflag : has (k'.envs 1).envIpcPerm PTE_V = true := by
    generalize h0 : (0 : Word) = r at hk
    cases sent_of_send hk with
    | refused hr => exact absurd h0.symm hr
    | @value e q _ he' =>
      obtain rfl := Option.some.inj (he.symm.trans he')
      exact ipcWake_perm ..
    | vain => exact absurd h0 (by decide)
    | page hne => exact absurd rfl hne
  exact (ht.flag.1 hflag).1 rfl

end Mos
