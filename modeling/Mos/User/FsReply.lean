import Mos.User.FsIpc

/-!
# Replies of the file server

`fsipc` takes the message in the mailbox for the reply, whoever sent it: it is the reply to the very request exactly if
the file server sent it, nothing else that the client sent to the server was in between, and the page could be mapped.
The server in its turn counts on the requester: `ipc_send` panics if that does not exist any more.
-/

namespace Mos

open Kern

namespace FsIpc

variable {s t : FsIpc} {e x cur : EnvPtr} {whom dstva : Word} {m : Content} {about : Option Nat} {n : Nat} {mapped : Bool}

/-! ### System calls -/

private theorem envid2env_some (h : s.envid2env e whom = some x) :
    (whom = 0 ∧ x = e) ∨ (whom ≠ 0 ∧ x = ENVX whom ∧ s.status x ≠ .FREE ∧ s.envId x = whom) := by
  unfold envid2env at h
  split at h
  case isTrue hzero => exact .inl ⟨hzero, (Option.some.inj h).symm⟩
  case isFalse hzero =>
    split at h
    case isTrue => cases h
    case isFalse hok =>
      obtain rfl := Option.some.inj h
      rw [not_or, not_not] at hok
      exact .inr ⟨hzero, rfl, hok.1, hok.2⟩

/-- What is found is not free. -/
private theorem envid2env_live (h : s.envid2env e whom = some x) (he : s.status e ≠ .FREE) : s.status x ≠ .FREE := by
  rcases envid2env_some h with ⟨_, rfl⟩ | ⟨_, _, hlive, _⟩
  · exact he
  · exact hlive

private theorem ipcTrySend_sent (h : s.ipcTrySend e whom m mapped about = .sent t) :
    ∃ x, s.envid2env e whom = some x ∧ s.recving x = true ∧ t = s.deliver e x m mapped about := by
  unfold ipcTrySend at h
  split at h
  case h_1 => cases h
  case h_2 x hx =>
    split at h
    case isTrue hrecv => exact ⟨x, hx, hrecv, (TrySend.sent.inj h).symm⟩
    case isFalse => cases h

private theorem ipcTrySend_badEnv (h : s.ipcTrySend e whom m mapped about = .badEnv) : s.envid2env e whom = none := by
  unfold ipcTrySend at h
  split at h
  case h_1 hnone => exact hnone
  case h_2 =>
    split at h
    · cases h
    · cases h

private theorem runs_iff : s.runs e = true ↔ e ≠ fsEnv ∧ s.status e = .RUNNABLE := by
  simp [runs]

/-! ### What a step can do -/

inductive Move (s : FsIpc) : FsIpcEvent → FsIpc → Prop
  | create {e : EnvPtr} {id : Word} {t : FsIpc} (hs : s.create e id = some t) : Move s (.create e id) t
  | destroy {e : EnvPtr} {t : FsIpc} (hs : s.destroy e = some t) : Move s (.destroy e) t
  | trySend {e : EnvPtr} {whom : Word} {m : Content} {mapped : Bool} (he : e ≠ fsEnv) (hrun : s.status e = .RUNNABLE)
      (hpc : s.pc e = .user) : Move s (.trySend e whom m mapped) (s.userSend e whom m mapped)
  | recv {e : EnvPtr} {dstva : Word} (he : e ≠ fsEnv) (hrun : s.status e = .RUNNABLE) (hpc : s.pc e = .user) :
      Move s (.recv e dstva) (s.ipcRecv e dstva)
  | fsipc {e : EnvPtr} {req : Content} {dstva : Word} (he : e ≠ fsEnv) (hrun : s.status e = .RUNNABLE)
      (hpc : s.pc e = .user) :
      Move s (.fsipc e req dstva) { s.setPc e (.sending req dstva s.count) with count := s.count + 1 }
  | fsSend {e : EnvPtr} {req : Content} {dstva : Word} {n : Nat} {mapped : Bool} (he : e ≠ fsEnv)
      (hrun : s.status e = .RUNNABLE) (hpc : s.pc e = .sending req dstva n) :
      Move s (.fsSend e mapped) (s.fsSend e req dstva n mapped)
  | fsRecv {e : EnvPtr} {dstva : Word} {n : Nat} (he : e ≠ fsEnv) (hrun : s.status e = .RUNNABLE)
      (hpc : s.pc e = .receiving dstva n) : Move s (.fsRecv e) ((s.ipcRecv e dstva).setPc e (.waiting dstva n))
  | fsReturn {e : EnvPtr} (he : e ≠ fsEnv) (hrun : s.status e = .RUNNABLE) : Move s (.fsReturn e) (s.setPc e .user)
  | signal {e : EnvPtr} (he : e ≠ fsEnv) (hrun : s.status e = .RUNNABLE) : Move s (.signal e) (s.signal e)
  | sigReturn {e : EnvPtr} {pc : ClientPc} {under : List ClientPc} (he : e ≠ fsEnv) (hrun : s.status e = .RUNNABLE)
      (hunder : s.under e = pc :: under) : Move s (.sigReturn e) (s.sigReturn e pc under)
  | serverRecv : Move s .serverRecv ((s.ipcRecv fsEnv reqVa).setServer .waiting)
  | serverGet {todo : List Content} (hserver : s.server = .waiting) (hst : s.status fsEnv = .RUNNABLE) :
      Move s (.serverGet todo) (s.setServer (.replying (s.mail fsEnv).sender (s.mail fsEnv).about todo))
  | serverSend {whom : Word} {about : Option Nat} {m : Content} {todo : List Content} {mapped : Bool}
      (hserver : s.server = .replying whom about (m :: todo)) :
      Move s (.serverSend mapped) (s.serverSend whom about m todo mapped)

private theorem step_cases {ev : FsIpcEvent} (hs : s.step ev = some t) : Move s ev t := by
  cases ev with
  | create e id => exact .create hs
  | destroy e => exact .destroy hs
  | trySend e whom m mapped =>
    dsimp only [FsIpc.step] at hs
    split at hs
    case h_2 => cases hs
    case h_1 hrun hpc =>
      obtain rfl := Option.some.inj hs
      exact .trySend (runs_iff.1 hrun).1 (runs_iff.1 hrun).2 hpc
  | recv e dstva =>
    dsimp only [FsIpc.step] at hs
    split at hs
    case h_2 => cases hs
    case h_1 hrun hpc =>
      obtain rfl := Option.some.inj hs
      exact .recv (runs_iff.1 hrun).1 (runs_iff.1 hrun).2 hpc
  | fsipc e req dstva =>
    dsimp only [FsIpc.step] at hs
    split at hs
    case h_2 => cases hs
    case h_1 hrun hpc =>
      obtain rfl := Option.some.inj hs
      exact .fsipc (runs_iff.1 hrun).1 (runs_iff.1 hrun).2 hpc
  | fsSend e mapped =>
    dsimp only [FsIpc.step] at hs
    split at hs
    case h_2 => cases hs
    case h_1 hrun hpc =>
      obtain rfl := Option.some.inj hs
      exact .fsSend (runs_iff.1 hrun).1 (runs_iff.1 hrun).2 hpc
  | fsRecv e =>
    dsimp only [FsIpc.step] at hs
    split at hs
    case h_2 => cases hs
    case h_1 hrun hpc =>
      obtain rfl := Option.some.inj hs
      exact .fsRecv (runs_iff.1 hrun).1 (runs_iff.1 hrun).2 hpc
  | fsReturn e =>
    dsimp only [FsIpc.step] at hs
    split at hs
    case h_2 => cases hs
    case h_1 hrun hpc =>
      obtain rfl := Option.some.inj hs
      exact .fsReturn (runs_iff.1 hrun).1 (runs_iff.1 hrun).2
  | signal e =>
    obtain ⟨hrun, hs⟩ := Option.ite_none_right_eq_some.1 hs
    obtain rfl := Option.some.inj hs
    exact .signal (runs_iff.1 hrun).1 (runs_iff.1 hrun).2
  | sigReturn e =>
    dsimp only [FsIpc.step] at hs
    split at hs
    case h_2 => cases hs
    case h_1 hrun hpc hunder =>
      obtain rfl := Option.some.inj hs
      exact .sigReturn (runs_iff.1 hrun).1 (runs_iff.1 hrun).2 hunder
  | serverRecv =>
    dsimp only [FsIpc.step] at hs
    split at hs
    case h_3 => cases hs
    case h_1 =>
      obtain rfl := Option.some.inj hs
      exact .serverRecv
    case h_2 =>
      obtain rfl := Option.some.inj hs
      exact .serverRecv
  | serverGet todo =>
    dsimp only [FsIpc.step] at hs
    split at hs
    case h_2 => cases hs
    case h_1 hserver hst =>
      obtain rfl := Option.some.inj hs
      exact .serverGet hserver hst
  | serverSend mapped =>
    dsimp only [FsIpc.step] at hs
    split at hs
    case h_2 => cases hs
    case h_1 hserver =>
      obtain rfl := Option.some.inj hs
      exact .serverSend hserver

/-- Only one environment is touched, and nothing is sent. -/
structure Touches (e : EnvPtr) (s t : FsIpc) : Prop where
  status : ∀ x, x ≠ e → t.status x = s.status x
  envId : ∀ x, x ≠ e → t.envId x = s.envId x
  recving : ∀ x, x ≠ e → t.recving x = s.recving x
  mail : t.mail = s.mail
  last : t.last = s.last
  server : t.server = s.server

private theorem setPc_touches (pc : ClientPc) : Touches e s (s.setPc e pc) :=
  ⟨fun _ _ => rfl, fun _ _ => rfl, fun _ _ => rfl, rfl, rfl, rfl⟩

private theorem signal_touches : Touches e s (s.signal e) :=
  ⟨fun _ _ => rfl, fun _ _ => rfl, fun _ _ => rfl, rfl, rfl, rfl⟩

private theorem sigReturn_touches (pc : ClientPc) (under : List ClientPc) : Touches e s (s.sigReturn e pc under) :=
  ⟨fun _ _ => rfl, fun _ _ => rfl, fun _ _ => rfl, rfl, rfl, rfl⟩

private theorem setStatus_touches (st : EnvStatus) : Touches e s (s.setStatus e st) :=
  ⟨fun _ hx => Function.update_of_ne hx .., fun _ _ => rfl, fun _ _ => rfl, rfl, rfl, rfl⟩

private theorem ipcRecv_touches (dstva : Word) : Touches e s (s.ipcRecv e dstva) :=
  ⟨fun _ hx => Function.update_of_ne hx .., fun _ _ => rfl, fun _ hx => Function.update_of_ne hx .., rfl, rfl, rfl⟩

private theorem create_touches {id : Word} (hs : s.create e id = some t) : Touches e s t := by
  obtain ⟨-, hs⟩ := Option.ite_none_right_eq_some.1 hs
  obtain rfl := Option.some.inj hs
  exact ⟨fun _ hx => Function.update_of_ne hx .., fun _ hx => Function.update_of_ne hx .., fun _ _ => rfl, rfl, rfl, rfl⟩

/-! ### Requests and replies -/

/-- The request that the server has: who made it, and its number. -/
def request (s : FsIpc) : Option (Word × Option Nat) :=
  match s.server with
  | .replying whom about _ => some (whom, about)
  | .waiting => if s.status fsEnv = .RUNNABLE then some ((s.mail fsEnv).sender, (s.mail fsEnv).about) else none
  | _ => none

private theorem request_congr (hserver : t.server = s.server) (hstatus : t.status fsEnv = s.status fsEnv)
    (hmail : t.mail fsEnv = s.mail fsEnv) : t.request = s.request := by
  unfold request
  rw [hserver, hmail]
  simp only [hstatus]

structure PairInv (s : FsIpc) : Prop where
  fsId : s.envId fsEnv ≠ 0
  ids : ∀ e, s.status e ≠ .FREE ∨ e = fsEnv → ENVX (s.envId e) = e
  recving : s.recving fsEnv = true → s.server = .waiting ∧ s.status fsEnv = .NOT_RUNNABLE
  /-- The request that the server has is the last message that it has taken from the one who made it. -/
  pair : ∀ whom about, s.request = some (whom, about) → s.last (ENVX whom) = about
  numbered : ∀ e, e ≠ fsEnv → (s.mail e).about ≠ none → (s.mail e).sender = s.envId fsEnv
  answer : ∀ e, e ≠ fsEnv → (s.mail e).sender = s.envId fsEnv → (s.mail e).about = (s.mail e).asked

namespace PairInv

private theorem init (h : Init s) : PairInv s := by
  refine ⟨h.fsId, ?_, ?_, ?_, ?_, ?_⟩
  · rintro e (he | rfl)
    · exact h.ids e he
    · exact h.ids fsEnv (by rw [h.fsStatus]; exact nofun)
  · intro hr
    rw [h.fsRecving] at hr
    cases hr
  · intro whom about hreq
    unfold request at hreq
    rw [h.server] at hreq
    cases hreq
  · intro e _ habout
    exact absurd (h.mail e).1 habout
  · intro e _ _
    rw [(h.mail e).1, (h.mail e).2]

private theorem id_inj (h : PairInv s) (he : s.status e ≠ .FREE ∨ e = fsEnv) (hx : s.status x ≠ .FREE ∨ x = fsEnv)
    (hid : s.envId e = s.envId x) : e = x := by
  rw [← h.ids e he, ← h.ids x hx, hid]

/-! ### One step -/

/-- A step of a client, apart from its messages. -/
private theorem client (h : PairInv s) (he : e ≠ fsEnv) (ht : Touches e s t)
    (hid : t.status e ≠ .FREE → ENVX (t.envId e) = e) :
    PairInv t := by
  have hreq : t.request = s.request := request_congr ht.server (ht.status fsEnv he.symm) (by rw [ht.mail])
  refine ⟨?_, ?_, ?_, ?_, ?_, ?_⟩
  · rw [ht.envId fsEnv he.symm]
    exact h.fsId
  · intro x hx
    by_cases hxe : x = e
    · rw [hxe] at hx ⊢
      rcases hx with hx | hx
      · exact hid hx
      · exact absurd hx he
    · rw [ht.status x hxe] at hx
      rw [ht.envId x hxe]
      exact h.ids x hx
  · rw [ht.recving fsEnv he.symm, ht.status fsEnv he.symm, ht.server]
    exact h.recving
  · rw [hreq, ht.last]
    exact h.pair
  · rw [ht.mail, ht.envId fsEnv he.symm]
    exact h.numbered
  · rw [ht.mail, ht.envId fsEnv he.symm]
    exact h.answer

/-- A step of a client that keeps its id. -/
private theorem stay (h : PairInv s) (he : e ≠ fsEnv) (hlive : s.status e ≠ .FREE) (ht : Touches e s t)
    (hid : t.envId e = s.envId e) : PairInv t := by
  refine h.client he ht fun _ => ?_
  rw [hid]
  exact h.ids e (.inl hlive)

/-- Whoever gets a message was not free, or is the server. -/
private theorem ids_deliver (h : PairInv s) (hlive : s.status x ≠ .FREE ∨ x = fsEnv) (y : EnvPtr)
    (hy : (s.deliver cur x m mapped about).status y ≠ .FREE ∨ y = fsEnv) : ENVX (s.envId y) = y := by
  rcases hy with hy | hy
  · change Function.update s.status x .RUNNABLE y ≠ .FREE at hy
    by_cases hyx : y = x
    · rw [hyx]
      exact h.ids x hlive
    · rw [Function.update_of_ne hyx] at hy
      exact h.ids y (.inl hy)
  · exact h.ids y (.inr hy)

/-- A message for the server becomes its request. -/
private theorem deliver_fs (h : PairInv s) (hr : s.recving fsEnv = true) (hlive : s.status cur ≠ .FREE) :
    PairInv (s.deliver cur fsEnv m mapped about) := by
  have hreq : (s.deliver cur fsEnv m mapped about).request = some (s.envId cur, about) := by
    simp [request, deliver, (h.recving hr).1]
  have hmail : ∀ y, y ≠ fsEnv → (s.deliver cur fsEnv m mapped about).mail y = s.mail y :=
    fun y hy => Function.update_of_ne hy ..
  refine ⟨h.fsId, h.ids_deliver (.inr rfl), ?_, ?_, ?_, ?_⟩
  · intro hr'
    change Function.update s.recving fsEnv false fsEnv = true at hr'
    rw [Function.update_self] at hr'
    cases hr'
  · intro whom about' hreq'
    rw [hreq, Option.some.injEq, Prod.mk.injEq] at hreq'
    obtain ⟨rfl, rfl⟩ := hreq'
    show Function.update s.last cur about (ENVX (s.envId cur)) = about
    rw [h.ids cur (.inl hlive), Function.update_self]
  · intro y hy
    rw [hmail y hy]
    exact h.numbered y hy
  · intro y hy
    rw [hmail y hy]
    exact h.answer y hy

/-- A message for a client: it is numbered only if the server sends it, and then it answers the last request. -/
private theorem deliver_client (h : PairInv s) (hx : x ≠ fsEnv) (hlive : s.status x ≠ .FREE)
    (habout : about ≠ none → s.envId cur = s.envId fsEnv) (hlast : s.envId cur = s.envId fsEnv → about = s.last x) :
    PairInv (s.deliver cur x m mapped about) := by
  have hreq : (s.deliver cur x m mapped about).request = s.request :=
    request_congr rfl (Function.update_of_ne hx.symm ..) (Function.update_of_ne hx.symm ..)
  refine ⟨h.fsId, h.ids_deliver (.inl hlive), ?_, ?_, ?_, ?_⟩
  · show Function.update s.recving x false fsEnv = true → s.server = _ ∧ Function.update s.status x _ fsEnv = _
    rw [Function.update_of_ne hx.symm, Function.update_of_ne hx.symm]
    exact h.recving
  · rw [hreq, show (s.deliver cur x m mapped about).last = s.last from if_neg hx]
    exact h.pair
  · intro y hy
    show (Function.update s.mail x _ y).about ≠ none → (Function.update s.mail x _ y).sender = s.envId fsEnv
    by_cases hyx : y = x
    · rw [hyx, Function.update_self]
      exact habout
    · rw [Function.update_of_ne hyx]
      exact h.numbered y hy
  · intro y hy
    show (Function.update s.mail x _ y).sender = s.envId fsEnv →
      (Function.update s.mail x _ y).about = (Function.update s.mail x _ y).asked
    by_cases hyx : y = x
    · rw [hyx, Function.update_self]
      exact hlast
    · rw [Function.update_of_ne hyx]
      exact h.answer y hy

/-! ### The events -/

private theorem create {id : Word} (h : PairInv s) (hs : s.create e id = some t) : PairInv t := by
  have ht := create_touches hs
  obtain ⟨⟨he, _, hid⟩, hs⟩ := Option.ite_none_right_eq_some.1 hs
  obtain rfl := Option.some.inj hs
  refine h.client he ht fun _ => ?_
  show ENVX (Function.update s.envId e id e) = e
  rw [Function.update_self]
  exact hid

/-- An environment ends. -/
private theorem free (h : PairInv s) (he : e ≠ fsEnv) : PairInv (s.setStatus e .FREE) :=
  h.client he (setStatus_touches _) fun hst => absurd (Function.update_self ..) hst

private theorem destroy (h : PairInv s) (hs : s.destroy e = some t) : PairInv t := by
  obtain ⟨⟨he, _⟩, hs⟩ := Option.ite_none_right_eq_some.1 hs
  obtain rfl := Option.some.inj hs
  exact h.free he

private theorem setCount (h : PairInv s) (c : Nat) : PairInv { s with count := c } :=
  ⟨h.fsId, h.ids, h.recving, h.pair, h.numbered, h.answer⟩

private theorem userSend (h : PairInv s) (he : e ≠ fsEnv) (hlive : s.status e ≠ .FREE) :
    PairInv (s.userSend e whom m mapped) := by
  unfold FsIpc.userSend
  split
  case h_2 => exact h
  case h_1 t ht =>
    obtain ⟨x, hx, hr, rfl⟩ := ipcTrySend_sent ht
    by_cases hxf : x = fsEnv
    · rw [hxf] at hr ⊢
      exact h.deliver_fs hr hlive
    · refine h.deliver_client hxf (envid2env_live hx hlive) (absurd rfl) fun hid => ?_
      exact absurd (h.id_inj (.inl hlive) (.inr rfl) hid) he

/-- The id in `envs[1]` is that of the server. -/
private theorem target_fs (h : PairInv s) (hx : s.envid2env e (s.envId fsEnv) = some x) : x = fsEnv := by
  rcases envid2env_some hx with ⟨hzero, _⟩ | ⟨_, hx, _, _⟩
  · exact absurd hzero h.fsId
  · rw [hx]
    exact h.ids fsEnv (.inr rfl)

private theorem fsSend {req : Content} (h : PairInv s) (he : e ≠ fsEnv) (hlive : s.status e ≠ .FREE) :
    PairInv (s.fsSend e req dstva n mapped) := by
  unfold FsIpc.fsSend
  split
  case h_2 => exact h
  case h_3 => exact h.free he
  case h_1 t ht =>
    obtain ⟨x, hx, hr, rfl⟩ := ipcTrySend_sent ht
    have hxf := h.target_fs hx
    rw [hxf] at hr ⊢
    have hdel : PairInv (s.deliver e fsEnv req mapped (some n)) := h.deliver_fs hr hlive
    refine hdel.stay he ?_ (setPc_touches _) rfl
    show Function.update s.status fsEnv .RUNNABLE e ≠ .FREE
    rw [Function.update_of_ne he]
    exact hlive

/-- The server goes on with the same request, or has none. -/
private theorem setServer (h : PairInv s) {p : ServerPc} (hreq : ∀ r, (s.setServer p).request = some r → s.request = some r)
    (hr : s.recving fsEnv = false) : PairInv (s.setServer p) := by
  refine ⟨h.fsId, h.ids, ?_, fun whom about hx => h.pair whom about (hreq _ hx), h.numbered, h.answer⟩
  intro hr'
  change s.recving fsEnv = true at hr'
  rw [hr] at hr'
  cases hr'

private theorem serverRecv (h : PairInv s) : PairInv ((s.ipcRecv fsEnv reqVa).setServer .waiting) := by
  have hreq : ((s.ipcRecv fsEnv reqVa).setServer .waiting).request = none := by
    simp [request, ipcRecv, FsIpc.setServer]
  have hst : ((s.ipcRecv fsEnv reqVa).setServer .waiting).status fsEnv = .NOT_RUNNABLE := by
    simp [ipcRecv, FsIpc.setServer]
  refine ⟨h.fsId, ?_, fun _ => ⟨rfl, hst⟩, ?_, h.numbered, h.answer⟩
  · rintro x (hx | hx)
    · change Function.update s.status fsEnv _ x ≠ _ at hx
      by_cases hxf : x = fsEnv
      · exact h.ids x (.inr hxf)
      · rw [Function.update_of_ne hxf] at hx
        exact h.ids x (.inl hx)
    · exact h.ids x (.inr hx)
  · intro whom about hx
    rw [hreq] at hx
    cases hx

private theorem not_recving (h : PairInv s) (hserver : s.server ≠ .waiting ∨ s.status fsEnv ≠ .NOT_RUNNABLE) :
    s.recving fsEnv = false := by
  rw [Bool.eq_false_iff]
  intro hr
  obtain ⟨hwait, hst⟩ := h.recving hr
  rcases hserver with hne | hne
  · exact hne hwait
  · exact hne hst

/-- The server ends. -/
private theorem panic (h : PairInv s) (hr : s.recving fsEnv = false) :
    PairInv ((s.setStatus fsEnv .FREE).setServer .panicked) := by
  refine ⟨h.fsId, ?_, ?_, nofun, h.numbered, h.answer⟩
  · rintro x (hx | hx)
    · change Function.update s.status fsEnv _ x ≠ _ at hx
      by_cases hxf : x = fsEnv
      · exact h.ids x (.inr hxf)
      · rw [Function.update_of_ne hxf] at hx
        exact h.ids x (.inl hx)
    · exact h.ids x (.inr hx)
  · intro hr'
    change s.recving fsEnv = true at hr'
    rw [hr] at hr'
    cases hr'

private theorem serverSend {todo : List Content} (h : PairInv s) (hserver : s.server = .replying whom about (m :: todo)) :
    PairInv (s.serverSend whom about m todo mapped) := by
  have hr : s.recving fsEnv = false := h.not_recving (.inl (by rw [hserver]; exact nofun))
  have hreq : s.request = some (whom, about) := by
    unfold request
    rw [hserver]
  unfold FsIpc.serverSend
  split
  case h_2 => exact h
  case h_3 => exact h.panic hr
  case h_1 t ht =>
    obtain ⟨x, hx, hrx, rfl⟩ := ipcTrySend_sent ht
    have hxf : x ≠ fsEnv := by
      intro heq
      rw [heq, hr] at hrx
      cases hrx
    rcases envid2env_some hx with ⟨_, heq⟩ | ⟨_, hwhom, hlive, _⟩
    · exact absurd heq hxf
    have hdel : PairInv (s.deliver fsEnv x m mapped about) := by
      refine h.deliver_client hxf hlive (fun _ => rfl) fun _ => ?_
      rw [hwhom]
      exact (h.pair whom about hreq).symm
    refine hdel.setServer ?_ ?_
    · intro r hx'
      have hsame : (s.deliver fsEnv x m mapped about).request = some (whom, about) := by
        unfold request
        rw [show (s.deliver fsEnv x m mapped about).server = s.server from rfl, hserver]
      rw [hsame]
      exact hx'
    · show Function.update s.recving x false fsEnv = _
      rw [Function.update_of_ne hxf.symm]
      exact hr

private theorem ne_free (hrun : s.status e = .RUNNABLE) : s.status e ≠ .FREE := by
  rw [hrun]
  exact nofun

private theorem step {ev : FsIpcEvent} (h : PairInv s) (hs : s.step ev = some t) : PairInv t := by
  cases step_cases hs with
  | create hs => exact h.create hs
  | destroy hs => exact h.destroy hs
  | trySend he hrun hpc => exact h.userSend he (ne_free hrun)
  | recv he hrun hpc => exact h.stay he (ne_free hrun) (ipcRecv_touches _) rfl
  | fsipc he hrun hpc => exact (h.stay he (ne_free hrun) (setPc_touches _) rfl).setCount _
  | fsSend he hrun hpc => exact h.fsSend he (ne_free hrun)
  | @fsRecv e dstva n he hrun hpc =>
    have hrecv : PairInv (s.ipcRecv e dstva) := h.stay he (ne_free hrun) (ipcRecv_touches _) rfl
    refine hrecv.stay he ?_ (setPc_touches _) rfl
    rw [show (s.ipcRecv e dstva).status e = .NOT_RUNNABLE from Function.update_self ..]
    exact nofun
  | fsReturn he hrun => exact h.stay he (ne_free hrun) (setPc_touches _) rfl
  | signal he hrun => exact h.stay he (ne_free hrun) signal_touches rfl
  | sigReturn he hrun hunder => exact h.stay he (ne_free hrun) (sigReturn_touches _ _) rfl
  | serverRecv => exact h.serverRecv
  | serverGet hserver hst =>
    refine h.setServer (fun r hr => ?_) (h.not_recving (.inr (by rw [hst]; exact nofun)))
    have hsame : s.request = some ((s.mail fsEnv).sender, (s.mail fsEnv).about) := by
      unfold request
      rw [hserver]
      exact if_pos hst
    rw [hsame]
    exact hr
  | serverSend hserver => exact h.serverSend hserver

end PairInv

private theorem pairInv (h : fsIpc.Reach (fun _ _ => True) s) : PairInv s := by
  induction h with
  | start h => exact .init h
  | next _ _ hs ih => exact ih.step hs

/-- What `fsipc` returns with if it reads its mailbox now: the value, and the page that was put at its `dstva`. -/
def returned (s : FsIpc) (e : EnvPtr) (dstva : Word) : Content :=
  ⟨(s.mail e).content.value, if (s.mail e).mapped ∧ (s.mail e).dstva = dstva then (s.mail e).content.page else none⟩

/-- It is what the file server has sent in reply to the request. -/
structure ReplyOk (s : FsIpc) (e : EnvPtr) (dstva : Word) (n : Nat) : Prop where
  about : (s.mail e).about = some n
  content : s.returned e dstva = (s.mail e).content

/-- The page of a message is there if there is none, or if it could be mapped at the right place. -/
private theorem returned_eq_iff : s.returned e dstva = (s.mail e).content ↔
    ((s.mail e).content.page ≠ none → (s.mail e).mapped = true ∧ (s.mail e).dstva = dstva) := by
  unfold returned
  rcases s.mail e with ⟨⟨value, page⟩, sender, about, asked, place, mapped⟩
  simp only [Content.mk.injEq, true_and]
  split
  case isTrue hok => exact iff_of_true rfl fun _ => hok
  case isFalse hnot =>
    constructor
    · exact fun hnone hpage => absurd hnone.symm hpage
    · intro hok
      by_contra hne
      exact hnot (hok fun hnone => hne hnone.symm)

private theorem PairInv.replyOk_iff (h : PairInv s) (he : e ≠ fsEnv) (dstva : Word) (n : Nat) :
    s.ReplyOk e dstva n ↔ (s.mail e).sender = s.envId fsEnv ∧ (s.mail e).asked = some n ∧
      ((s.mail e).content.page ≠ none → (s.mail e).mapped = true ∧ (s.mail e).dstva = dstva) := by
  constructor
  · intro hok
    have hsender := h.numbered e he (by rw [hok.about]; exact nofun)
    refine ⟨hsender, ?_, returned_eq_iff.1 hok.content⟩
    rw [← h.answer e he hsender]
    exact hok.about
  · rintro ⟨hsender, hasked, hpage⟩
    refine ⟨?_, returned_eq_iff.2 hpage⟩
    rw [h.answer e he hsender]
    exact hasked

/-- Whenever `fsipc` reads its mailbox, what it returns with is the reply to its request exactly if the file server has sent
the message, the request was the last message that the server had taken from the client by then, and the page, if one came,
could be mapped at the place that `fsipc` has asked for. -/
theorem reply_iff (h : fsIpc.Reach (fun _ _ => True) s) (he : e ≠ fsEnv) (dstva : Word) (n : Nat) :
    s.ReplyOk e dstva n ↔ (s.mail e).sender = s.envId fsEnv ∧ (s.mail e).asked = some n ∧
      ((s.mail e).content.page ≠ none → (s.mail e).mapped = true ∧ (s.mail e).dstva = dstva) :=
  (pairInv h).replyOk_iff he dstva n

/-- The server and two clients. -/
def threeEnvs : FsIpc where
  status e := if e.val < 3 then .RUNNABLE else .FREE
  envId e := BitVec.ofNat 32 ((e.val + 1) * 2048 + e.val)
  recving _ := false
  dstva _ := 0
  mail _ := ⟨⟨0, none⟩, 0, none, none, 0, false⟩
  pc _ := .user
  under _ := []
  server := .receiving
  count := 0
  last _ := none

private theorem threeEnvs_init : Init threeEnvs := by
  refine ⟨rfl, by decide, ?_, rfl, fun _ => rfl, fun _ => rfl, fun _ => ⟨rfl, rfl⟩, rfl⟩
  intro e _
  apply Fin.ext
  have he : e.val < 1024 := e.isLt
  show (BitVec.ofNat 32 ((e.val + 1) * 2048 + e.val)).toNat % 1024 = e.val
  rw [BitVec.toNat_ofNat]
  omega

/-- A request and its reply, with a page. -/
theorem reply_iff_answer : ∃ s : FsIpc, s.pc 0 = .waiting 0x60000000 0 ∧ s.returned 0 0x60000000 = ⟨5, some 8⟩ ∧
    (s.ReplyOk 0 0x60000000 0 ↔ (s.mail 0).sender = s.envId fsEnv ∧ (s.mail 0).asked = some 0 ∧
      ((s.mail 0).content.page ≠ none → (s.mail 0).mapped = true ∧ (s.mail 0).dstva = 0x60000000)) := by
  have h0 : fsIpc.Reach (fun _ _ => true = true) threeEnvs := .start threeEnvs_init
  have h := (h0.run (l := [.serverRecv, .fsipc 0 ⟨7, some 3⟩ 0x60000000, .fsSend 0 true, .fsRecv 0,
    .serverGet [⟨5, some 8⟩], .serverSend true]) rfl).mono fun _ _ _ => trivial
  exact ⟨_, rfl, rfl, reply_iff h (by decide) _ _⟩

/-- Another environment is faster than the server. -/
theorem exists_reply_wrong : ∃ s : FsIpc, fsIpc.Reach (fun _ _ => True) s ∧ s.runs 0 = true ∧
    s.pc 0 = .waiting 0 0 ∧ ¬ s.ReplyOk 0 0 0 := by
  have h0 : fsIpc.Reach (fun _ _ => true = true) threeEnvs := .start threeEnvs_init
  have h := (h0.run (l := [.serverRecv, .fsipc 0 ⟨7, some 3⟩ 0, .fsSend 0 true, .fsRecv 0, .trySend 2 2048 ⟨9, none⟩ true])
    rfl).mono fun _ _ _ => trivial
  exact ⟨_, h, rfl, rfl, fun hok => nomatch hok.about⟩

/-- A signal handler makes a request of its own before `fsipc` reads its mailbox: that has a reply of the server, but not
the right one. -/
theorem exists_reply_other : ∃ s : FsIpc, fsIpc.Reach (fun _ _ => True) s ∧ s.runs 0 = true ∧
    s.pc 0 = .waiting 0 0 ∧ (s.mail 0).sender = s.envId fsEnv ∧ ¬ s.ReplyOk 0 0 0 := by
  have h0 : fsIpc.Reach (fun _ _ => true = true) threeEnvs := .start threeEnvs_init
  have h := (h0.run (l := [.serverRecv, .fsipc 0 ⟨7, some 3⟩ 0, .fsSend 0 true, .fsRecv 0, .serverGet [⟨5, none⟩],
    .serverSend true, .serverRecv, .signal 0, .fsipc 0 ⟨8, some 3⟩ 0, .fsSend 0 true, .fsRecv 0, .serverGet [⟨6, none⟩],
    .serverSend true, .fsReturn 0, .sigReturn 0]) rfl).mono fun _ _ _ => trivial
  exact ⟨_, h, rfl, rfl, rfl, fun hok => nomatch hok.about⟩

/-! ### Signal handlers that send and receive nothing -/

def inFsipc : ClientPc → Bool
  | .user => false
  | _ => true

/-- Where an environment is, and where its signal handlers will return to. -/
def frames (s : FsIpc) (e : EnvPtr) : List ClientPc := s.pc e :: s.under e

/-- In the middle of a call of `fsipc`, signal handlers send and receive nothing. -/
def quiet (s : FsIpc) : FsIpcEvent → Bool
  | .trySend e _ _ _ => !(s.under e).any inFsipc
  | .recv e _ => !(s.under e).any inFsipc
  | .fsipc e _ _ => !(s.under e).any inFsipc
  | _ => true

/-- A call of `fsipc` has sent the last message that the server has taken, and the mailbox has what came after that. -/
def FrameOk (s : FsIpc) (e : EnvPtr) : ClientPc → Prop
  | .receiving _ n => s.last e = some n
  | .waiting dstva n => s.last e = some n ∧ s.dstva e = dstva ∧
      (s.status e = .RUNNABLE → (s.mail e).asked = some n ∧ (s.mail e).dstva = dstva)
  | _ => True

structure QuietOk (s : FsIpc) (e : EnvPtr) : Prop where
  once : (s.frames e).countP inFsipc ≤ 1
  frame : ∀ p ∈ s.frames e, s.FrameOk e p

private theorem FrameOk.congr {p : ClientPc} (h : s.FrameOk e p) (hlast : t.last e = s.last e)
    (hdstva : t.dstva e = s.dstva e)
    (hmail : t.mail e = s.mail e) (hst : t.status e = .RUNNABLE → s.status e = .RUNNABLE) : t.FrameOk e p := by
  cases p with
  | user => trivial
  | sending req dstva n => trivial
  | receiving dstva n => exact hlast.trans h
  | waiting dstva n =>
    obtain ⟨hl, hd, hm⟩ := h
    refine ⟨hlast.trans hl, hdstva.trans hd, fun hrun => ?_⟩
    rw [hmail]
    exact hm (hst hrun)

namespace QuietOk

private theorem congr (h : QuietOk s e) (hframes : t.frames e = s.frames e) (hlast : t.last e = s.last e)
    (hdstva : t.dstva e = s.dstva e) (hmail : t.mail e = s.mail e)
    (hst : t.status e = .RUNNABLE → s.status e = .RUNNABLE) : QuietOk t e := by
  constructor
  · rw [hframes]
    exact h.once
  · rw [hframes]
    exact fun p hp => (h.frame p hp).congr hlast hdstva hmail hst

/-- Only the place changes. -/
private theorem setFrames {l : List ClientPc} (h : QuietOk s e) (hframes : t.frames e = l) (hone : l.countP inFsipc ≤ 1)
    (hl : ∀ p ∈ l, p ∈ s.frames e ∨ p = .user ∨ ∃ req dstva n, p = .sending req dstva n) (hlast : t.last e = s.last e)
    (hdstva : t.dstva e = s.dstva e) (hmail : t.mail e = s.mail e)
    (hst : t.status e = .RUNNABLE → s.status e = .RUNNABLE) : QuietOk t e := by
  constructor
  · rw [hframes]
    exact hone
  · rw [hframes]
    intro p hp
    rcases hl p hp with hp | rfl | ⟨req, dstva, n, rfl⟩
    · exact (h.frame p hp).congr hlast hdstva hmail hst
    · trivial
    · trivial

/-- Outside `fsipc`. -/
private theorem of_none (hnone : ∀ p ∈ t.frames e, inFsipc p = false) : QuietOk t e := by
  constructor
  · rw [List.countP_eq_zero.2 fun p hp => by rw [hnone p hp]; exact nofun]
    exact Nat.zero_le 1
  · intro p hp
    cases p with
    | user => trivial
    | sending req dstva n => trivial
    | receiving dstva n => cases hnone _ hp
    | waiting dstva n => cases hnone _ hp

/-- A handler that may send and receive. -/
private theorem none_of_quiet (hpc : s.pc e = .user) (hq : (!(s.under e).any inFsipc) = true) :
    ∀ p ∈ s.frames e, inFsipc p = false := by
  intro p hp
  rcases List.mem_cons.1 hp with rfl | hp
  · rw [hpc]
    rfl
  · rw [Bool.not_eq_true', List.any_eq_false] at hq
    exact Bool.eq_false_iff.2 (hq p hp)

private theorem frames_setPc_self (pc : ClientPc) : (s.setPc e pc).frames e = pc :: s.under e := by
  simp [frames, FsIpc.setPc]

private theorem frames_setPc_other {y : EnvPtr} (pc : ClientPc) (hey : e ≠ y) : (s.setPc y pc).frames e = s.frames e := by
  simp [frames, FsIpc.setPc, Function.update_of_ne hey]

/-- What is interrupted is outside `fsipc` if the environment is in `fsipc`. -/
private theorem of_top {p : ClientPc} (h : QuietOk s e) (hpc : inFsipc (s.pc e) = true)
    (hframes : t.frames e = p :: s.under e)
    (hp : t.FrameOk e p) : QuietOk t e := by
  have hone := h.once
  unfold frames at hone
  rw [List.countP_cons_of_pos hpc] at hone
  have hzero : (s.under e).countP inFsipc = 0 := by omega
  constructor
  · rw [hframes, List.countP_cons, hzero]
    split
    · exact le_refl 1
    · exact Nat.zero_le 1
  · rw [hframes]
    intro q hq
    rcases List.mem_cons.1 hq with rfl | hq
    · exact hp
    · have hnot := List.countP_eq_zero.1 hzero q hq
      cases q with
      | user => trivial
      | sending req dstva n => trivial
      | receiving dstva n => exact absurd rfl hnot
      | waiting dstva n => exact absurd rfl hnot

/-- The receiver of a message has sent its request before. -/
private theorem deliver (h : QuietOk s x) (hx : x ≠ fsEnv) : QuietOk (s.deliver cur x m mapped about) x := by
  refine ⟨h.once, fun p hp => ?_⟩
  have hp := h.frame p hp
  have hlast : (s.deliver cur x m mapped about).last x = s.last x := by
    rw [show (s.deliver cur x m mapped about).last = s.last from if_neg hx]
  cases p with
  | user => trivial
  | sending req dstva n => trivial
  | receiving dstva n => exact hlast.trans hp
  | waiting dstva n =>
    obtain ⟨hl, hd, -⟩ := hp
    refine ⟨hlast.trans hl, hd, fun _ => ?_⟩
    rw [show (s.deliver cur x m mapped about).mail x = ⟨m, s.envId cur, about, s.last x, s.dstva x, mapped⟩ from
      Function.update_self ..]
    exact ⟨hl, hd⟩

/-- What a message is for those that are not the sender, or are outside `fsipc`. -/
private theorem sent (h : QuietOk s e) (he : e ≠ fsEnv) (hcur : e = cur → ∀ p ∈ s.frames e, inFsipc p = false)
    (ht : s.ipcTrySend cur whom m mapped about = .sent t) : QuietOk t e := by
  obtain ⟨x, -, -, rfl⟩ := ipcTrySend_sent ht
  by_cases hec : e = cur
  · exact of_none (hcur hec)
  by_cases hex : e = x
  · rw [← hex]
    exact h.deliver he
  · refine h.congr rfl ?_ rfl (Function.update_of_ne hex ..) fun hst => ?_
    · show (if x = fsEnv then Function.update s.last cur about else s.last) e = s.last e
      split
      · exact Function.update_of_ne hec ..
      · rfl
    · rw [show (s.deliver cur x m mapped about).status e = s.status e from Function.update_of_ne hex ..] at hst
      exact hst

/-- The request of a call of `fsipc`. -/
private theorem fsSend {req : Content} (h : QuietOk s e) (hinv : PairInv s) (he : e ≠ fsEnv) {y : EnvPtr}
    (hpc : s.pc y = .sending req dstva n) : QuietOk (s.fsSend y req dstva n mapped) e := by
  unfold FsIpc.fsSend
  split
  case h_2 => exact h
  case h_3 =>
    refine h.congr rfl rfl rfl rfl fun hst => ?_
    change Function.update s.status y .FREE e = _ at hst
    by_cases hey : e = y
    · rw [hey, Function.update_self] at hst
      cases hst
    · rwa [Function.update_of_ne hey] at hst
  case h_1 t ht =>
    by_cases hey : e = y
    · subst hey
      obtain ⟨x, hx, -, rfl⟩ := ipcTrySend_sent ht
      obtain rfl := hinv.target_fs hx
      have hframes : ((s.deliver e fsEnv req mapped (some n)).setPc e (.receiving dstva n)).frames e =
          .receiving dstva n :: s.under e := frames_setPc_self _
      exact h.of_top (by rw [hpc]; rfl) hframes (Function.update_self ..)
    · have hsent := h.sent he (fun heq => absurd heq hey) ht
      exact hsent.congr (frames_setPc_other _ hey) rfl rfl rfl id

/-- A step of another environment, apart from its messages. -/
private theorem other {y : EnvPtr} (h : QuietOk s e) (ht : Touches y s t) (hey : e ≠ y) (hframes : t.frames e = s.frames e)
    (hdstva : t.dstva e = s.dstva e) : QuietOk t e :=
  h.congr hframes (by rw [ht.last]) hdstva (by rw [ht.mail]) (by rw [ht.status e hey]; exact id)

private theorem step {ev : FsIpcEvent} (h : QuietOk s e) (hinv : PairInv s) (he : e ≠ fsEnv) (hq : s.quiet ev = true)
    (hs : s.step ev = some t) : QuietOk t e := by
  -- What others do is seen by `e` only where they send to it; its own steps move its topmost frame.
  cases step_cases hs with
  | @create y id t hs =>
    have ht := create_touches hs
    obtain ⟨-, hs⟩ := Option.ite_none_right_eq_some.1 hs
    obtain rfl := Option.some.inj hs
    by_cases hey : e = y
    · refine of_none fun p hp => ?_
      have hp' : p = .user := by simpa [frames, hey] using hp
      rw [hp']
      rfl
    · exact h.other ht hey (by simp [frames, Function.update_of_ne hey]) rfl
  | @destroy y t hs =>
    obtain ⟨-, hs⟩ := Option.ite_none_right_eq_some.1 hs
    obtain rfl := Option.some.inj hs
    refine h.congr rfl rfl rfl rfl fun hst => ?_
    change Function.update s.status y .FREE e = _ at hst
    by_cases hey : e = y
    · rw [hey, Function.update_self] at hst
      cases hst
    · rwa [Function.update_of_ne hey] at hst
  | @trySend y whom m mapped hy hrun hpc =>
    unfold FsIpc.userSend
    split
    case h_2 => exact h
    case h_1 t ht =>
      refine h.sent he (fun hey => ?_) ht
      rw [hey]
      exact none_of_quiet hpc hq
  | @recv y dstva hy hrun hpc =>
    by_cases hey : e = y
    · rw [hey]
      exact of_none (none_of_quiet hpc hq)
    · exact h.other (ipcRecv_touches dstva) hey rfl (Function.update_of_ne hey ..)
  | @fsipc y req dstva hy hrun hpc =>
    by_cases hey : e = y
    · subst hey
      have hnone := none_of_quiet hpc hq
      refine h.setFrames (frames_setPc_self _) ?_ ?_ rfl rfl rfl id
      · rw [List.countP_cons_of_pos rfl, List.countP_eq_zero.2 fun p hp => by
          rw [hnone p (List.mem_cons_of_mem _ hp)]
          exact nofun]
      · intro p hp
        rcases List.mem_cons.1 hp with rfl | hp
        · exact .inr (.inr ⟨_, _, _, rfl⟩)
        · exact .inl (List.mem_cons_of_mem _ hp)
    · exact h.congr (frames_setPc_other _ hey) rfl rfl rfl id
  | fsSend hy hrun hpc => exact h.fsSend hinv he hpc
  | @fsRecv y dstva n hy hrun hpc =>
    by_cases hey : e = y
    · subst hey
      have hlast : s.last e = some n := by
        have hp := h.frame (s.pc e) List.mem_cons_self
        rw [hpc] at hp
        exact hp
      refine h.of_top (by rw [hpc]; rfl) (frames_setPc_self _) ⟨hlast, Function.update_self .., fun hst => ?_⟩
      change Function.update s.status e .NOT_RUNNABLE e = _ at hst
      rw [Function.update_self] at hst
      cases hst
    · have hrecv : QuietOk (s.ipcRecv y dstva) e :=
        h.other (ipcRecv_touches dstva) hey rfl (Function.update_of_ne hey ..)
      exact hrecv.congr (frames_setPc_other _ hey) rfl rfl rfl id
  | @fsReturn y hy hrun =>
    by_cases hey : e = y
    · subst hey
      have hone := h.once
      refine h.setFrames (frames_setPc_self _) ?_ ?_ rfl rfl rfl id
      · rw [List.countP_cons_of_neg (by decide)]
        exact (List.sublist_cons_self ..).countP_le.trans hone
      · intro p hp
        rcases List.mem_cons.1 hp with rfl | hp
        · exact .inr (.inl rfl)
        · exact .inl (List.mem_cons_of_mem _ hp)
    · exact h.congr (frames_setPc_other _ hey) rfl rfl rfl id
  | @signal y hy hrun =>
    by_cases hey : e = y
    · subst hey
      refine h.setFrames (l := .user :: s.frames e) (by simp [frames, FsIpc.signal, FsIpc.setPc]) ?_ ?_ rfl rfl rfl id
      · rw [List.countP_cons_of_neg (by decide)]
        exact h.once
      · intro p hp
        rcases List.mem_cons.1 hp with rfl | hp
        · exact .inr (.inl rfl)
        · exact .inl hp
    · exact h.other signal_touches hey (by simp [frames, FsIpc.signal, FsIpc.setPc, Function.update_of_ne hey]) rfl
  | @sigReturn y pc under hy hrun hunder =>
    by_cases hey : e = y
    · subst hey
      have hone := h.once
      unfold frames at hone
      rw [hunder] at hone
      refine h.setFrames (l := pc :: under) (by simp [frames, FsIpc.sigReturn, FsIpc.setPc]) ?_ ?_ rfl rfl rfl id
      · exact (List.sublist_cons_self ..).countP_le.trans hone
      · intro p hp
        rw [frames, hunder]
        exact .inl (List.mem_cons_of_mem _ hp)
    · exact h.other (sigReturn_touches pc under) hey
        (by simp [frames, FsIpc.sigReturn, FsIpc.setPc, Function.update_of_ne hey]) rfl
  | serverRecv =>
    have hrecv : QuietOk (s.ipcRecv fsEnv reqVa) e :=
      h.other (ipcRecv_touches reqVa) he rfl (Function.update_of_ne he ..)
    exact hrecv.congr rfl rfl rfl rfl id
  | serverGet hserver hst => exact h.congr rfl rfl rfl rfl id
  | @serverSend whom about m todo mapped hserver =>
    unfold FsIpc.serverSend
    split
    case h_2 => exact h
    case h_1 t ht => exact (h.sent he (fun heq => absurd heq he) ht).congr rfl rfl rfl rfl id
    case h_3 =>
      refine h.congr rfl rfl rfl rfl fun hst => ?_
      change Function.update s.status fsEnv .FREE e = _ at hst
      rwa [Function.update_of_ne he] at hst

end QuietOk

private theorem quietOk (h : fsIpc.Reach (fun s ev => s.quiet ev = true) s) (he : e ≠ fsEnv) : QuietOk s e := by
  have hall : PairInv s ∧ QuietOk s e := by
    induction h with
    | @start s h =>
      refine ⟨.init h, .of_none fun p hp => ?_⟩
      rw [frames, h.pc, h.under, List.mem_singleton] at hp
      rw [hp]
      rfl
    | next _ hq hs ih => exact ⟨ih.1.step hs, ih.2.step ih.1 he hq hs⟩
  exact hall.2

/-- As long as no signal handler sends or receives in the middle of `fsipc`, only the messages of others can be taken for
the reply, and only a page that cannot be mapped is missing. -/
theorem reply_iff_quiet (h : fsIpc.Reach (fun s ev => s.quiet ev = true) s) (hrun : s.runs e = true)
    (hpc : s.pc e = .waiting dstva n) :
    s.ReplyOk e dstva n ↔ (s.mail e).sender = s.envId fsEnv ∧ ((s.mail e).content.page ≠ none → (s.mail e).mapped = true) := by
  obtain ⟨he, hst⟩ := runs_iff.1 hrun
  have hframe := (quietOk h he).frame (s.pc e) List.mem_cons_self
  rw [hpc] at hframe
  obtain ⟨hasked, hdstva⟩ := hframe.2.2 hst
  rw [(pairInv (h.mono fun _ _ _ => trivial)).replyOk_iff he dstva n, hasked, hdstva]
  simp

/-! ### The requester -/

/-- Whom the server owes a reply, or may owe one. -/
def owed (s : FsIpc) : Option Word :=
  match s.server with
  | .replying whom _ (_ :: _) => some whom
  | .waiting => if s.status fsEnv = .RUNNABLE then some (s.mail fsEnv).sender else none
  | _ => none

/-- Nobody is destroyed to whom the server owes a reply. -/
def admits (s : FsIpc) : FsIpcEvent → Bool
  | .destroy e => s.owed ≠ some (s.envId e)
  | _ => true

/-- What is expected of the server: it does not panic, it can send what it has to send when the requester receives, and it
comes back to wait for the next request. -/
structure Survives (s : FsIpc) : Prop where
  alive : s.server ≠ .panicked
  sends : ∀ whom about m todo, s.server = .replying whom about (m :: todo) → ∃ x, s.envid2env fsEnv whom = some x ∧
    (s.recving x = true → ∀ mapped, ∃ t, s.step (.serverSend mapped) = some t ∧ (t.mail x).content = m ∧
      t.server = .replying whom about todo)
  back : s.server = .receiving ∨ (∃ whom about, s.server = .replying whom about []) →
    ∃ t, s.step .serverRecv = some t ∧ t.server = .waiting ∧ t.recving fsEnv = true
  waits : s.server = .waiting → s.recving fsEnv = true ∨ s.status fsEnv = .RUNNABLE

/-- The server runs or waits, and the one whom it owes a reply is there. -/
structure LiveInv (s : FsIpc) : Prop where
  pairing : PairInv s
  fsStatus : s.status fsEnv ≠ .FREE
  waits : s.server = .waiting → s.recving fsEnv = true ∨ s.status fsEnv = .RUNNABLE
  alive : s.server ≠ .panicked
  there : ∀ whom, s.owed = some whom → ∃ x, s.status x ≠ .FREE ∧ s.envId x = whom

namespace LiveInv

private theorem init (h : Init s) : LiveInv s := by
  refine ⟨.init h, ?_, ?_, ?_, ?_⟩
  · rw [h.fsStatus]
    exact nofun
  · rw [h.server]
    exact nofun
  · rw [h.server]
    exact nofun
  · intro whom how
    unfold owed at how
    rw [h.server] at how
    cases how

private theorem owed_congr (hserver : t.server = s.server) (hstatus : t.status fsEnv = s.status fsEnv)
    (hmail : t.mail fsEnv = s.mail fsEnv) : t.owed = s.owed := by
  unfold owed
  rw [hserver, hmail]
  simp only [hstatus]

/-- The server finds the one whom it owes a reply. -/
private theorem found (h : LiveInv s) (how : s.owed = some whom) : ∃ x, s.envid2env fsEnv whom = some x := by
  obtain ⟨x, hlive, hid⟩ := h.there whom how
  unfold envid2env
  by_cases hzero : whom = 0
  · rw [if_pos hzero]
    exact ⟨_, rfl⟩
  · have hx : ENVX whom = x := by
      rw [← hid]
      exact h.pairing.ids x (.inl hlive)
    rw [if_neg hzero, hx, if_neg (by rw [not_or, not_not]; exact ⟨hlive, hid⟩)]
    exact ⟨_, rfl⟩

/-- A step of a client, apart from its messages. -/
private theorem client (h : LiveInv s) (he : e ≠ fsEnv) (ht : Touches e s t) (hp : PairInv t)
    (hstay : s.status e ≠ .FREE → s.owed = some (s.envId e) → t.status e ≠ .FREE ∧ t.envId e = s.envId e) :
    LiveInv t := by
  have hst : t.status fsEnv = s.status fsEnv := ht.status fsEnv he.symm
  have howed : t.owed = s.owed := owed_congr ht.server hst (by rw [ht.mail])
  refine ⟨hp, ?_, ?_, ?_, ?_⟩
  · rw [hst]
    exact h.fsStatus
  · rw [hst, ht.server, ht.recving fsEnv he.symm]
    exact h.waits
  · rw [ht.server]
    exact h.alive
  · intro whom how
    rw [howed] at how
    obtain ⟨x, hlive, hid⟩ := h.there whom how
    refine ⟨x, ?_⟩
    by_cases hxe : x = e
    · rw [hxe] at hlive hid ⊢
      obtain ⟨hst', hid'⟩ := hstay hlive (by rw [how, hid])
      exact ⟨hst', hid'.trans hid⟩
    · rw [ht.status x hxe, ht.envId x hxe]
      exact ⟨hlive, hid⟩

/-- A message. -/
private theorem deliver (h : LiveInv s) (hlive : s.status e ≠ .FREE) (hx : s.status x ≠ .FREE)
    (hp : PairInv (s.deliver e x m mapped about)) (hserver : x = fsEnv → s.server = .waiting) :
    LiveInv (s.deliver e x m mapped about) := by
  have hrun : ∀ y, s.status y ≠ .FREE → Function.update s.status x .RUNNABLE y ≠ .FREE := by
    intro y hy
    by_cases hyx : y = x
    · rw [hyx, Function.update_self]
      exact nofun
    · rw [Function.update_of_ne hyx]
      exact hy
  refine ⟨hp, hrun fsEnv h.fsStatus, ?_, h.alive, ?_⟩
  · intro hwait
    show Function.update s.recving x false fsEnv = true ∨ Function.update s.status x .RUNNABLE fsEnv = _
    by_cases hxf : fsEnv = x
    · right
      rw [hxf, Function.update_self]
    · rw [Function.update_of_ne hxf, Function.update_of_ne hxf]
      exact h.waits hwait
  · intro whom how
    by_cases hxf : x = fsEnv
    · subst hxf
      have heq : s.envId e = whom := by
        unfold owed FsIpc.deliver at how
        simpa [hserver rfl] using how
      exact ⟨e, hrun e hlive, heq⟩
    · have hxf' : fsEnv ≠ x := fun heq => hxf heq.symm
      have howed : (s.deliver e x m mapped about).owed = s.owed :=
        owed_congr rfl (Function.update_of_ne hxf' ..) (Function.update_of_ne hxf' ..)
      rw [howed] at how
      obtain ⟨y, hy, hid⟩ := h.there whom how
      exact ⟨y, hrun y hy, hid⟩

/-- A step of a client that stays. -/
private theorem stay (h : LiveInv s) (he : e ≠ fsEnv) (ht : Touches e s t) (hp : PairInv t) (hst : t.status e ≠ .FREE)
    (hid : t.envId e = s.envId e) : LiveInv t := h.client he ht hp fun _ _ => ⟨hst, hid⟩

private theorem create {id : Word} (h : LiveInv s) (hs : s.create e id = some t) : LiveInv t := by
  have ht := create_touches hs
  obtain ⟨⟨he, hfree, _⟩, -⟩ := Option.ite_none_right_eq_some.1 hs
  exact h.client he ht (h.pairing.create hs) fun hlive => absurd hfree hlive

private theorem destroy (h : LiveInv s) (hok : s.admits (.destroy e)) (hs : s.destroy e = some t) : LiveInv t := by
  have hp := h.pairing.destroy hs
  obtain ⟨⟨he, _⟩, hs⟩ := Option.ite_none_right_eq_some.1 hs
  obtain rfl := Option.some.inj hs
  exact h.client he (setStatus_touches _) hp fun _ how => absurd how (of_decide_eq_true hok)

/-- A successful send of a client. -/
private theorem sent (h : LiveInv s) (hlive : s.status e ≠ .FREE) (ht : s.ipcTrySend e whom m mapped about = .sent t)
    (hp : PairInv t) : LiveInv t := by
  obtain ⟨x, hx, hr, rfl⟩ := ipcTrySend_sent ht
  refine h.deliver hlive (envid2env_live hx hlive) hp fun heq => ?_
  rw [heq] at hr
  exact (h.pairing.recving hr).1

private theorem userSend (h : LiveInv s) (hlive : s.status e ≠ .FREE) (hp : PairInv (s.userSend e whom m mapped)) :
    LiveInv (s.userSend e whom m mapped) := by
  unfold FsIpc.userSend at hp ⊢
  split at hp
  case h_1 t ht => exact h.sent hlive ht hp
  case h_2 => exact h

private theorem fsSend {req : Content} (h : LiveInv s) (he : e ≠ fsEnv) (hlive : s.status e ≠ .FREE) :
    LiveInv (s.fsSend e req dstva n mapped) := by
  have hp : PairInv (s.fsSend e req dstva n mapped) := h.pairing.fsSend he hlive
  unfold FsIpc.fsSend at hp ⊢
  split at hp
  case h_1 t ht =>
    have ht' := ht
    obtain ⟨x, hx, hr, rfl⟩ := ipcTrySend_sent ht
    have hxf := h.pairing.target_fs hx
    have hdel : LiveInv (s.deliver e x req mapped (some n)) := by
      refine h.sent hlive ht' ?_
      rw [hxf] at hr ⊢
      exact h.pairing.deliver_fs hr hlive
    refine hdel.stay he (setPc_touches _) hp ?_ rfl
    show Function.update s.status x .RUNNABLE e ≠ .FREE
    rw [hxf, Function.update_of_ne he]
    exact hlive
  case h_2 => exact h
  case h_3 ht =>
    have hnone := ipcTrySend_badEnv ht
    unfold envid2env at hnone
    rw [if_neg h.pairing.fsId, h.pairing.ids fsEnv (.inr rfl), if_neg (by
      rw [not_or, not_not]
      exact ⟨h.fsStatus, rfl⟩)] at hnone
    cases hnone

private theorem serverRecv (h : LiveInv s) : LiveInv ((s.ipcRecv fsEnv reqVa).setServer .waiting) := by
  have hst : ((s.ipcRecv fsEnv reqVa).setServer .waiting).status fsEnv = .NOT_RUNNABLE := by
    simp [ipcRecv, FsIpc.setServer]
  refine ⟨h.pairing.serverRecv, ?_, fun _ => .inl ?_, nofun, ?_⟩
  · rw [hst]
    exact nofun
  · simp [ipcRecv, FsIpc.setServer]
  · intro whom how
    unfold owed at how
    rw [hst] at how
    cases how

private theorem serverSend {todo : List Content} (h : LiveInv s) (hserver : s.server = .replying whom about (m :: todo)) :
    LiveInv (s.serverSend whom about m todo mapped) := by
  have hp : PairInv (s.serverSend whom about m todo mapped) := h.pairing.serverSend hserver
  have how : s.owed = some whom := by
    unfold owed
    rw [hserver]
  have hr : s.recving fsEnv = false := h.pairing.not_recving (.inl (by rw [hserver]; exact nofun))
  unfold FsIpc.serverSend at hp ⊢
  split at hp
  case h_2 => exact h
  case h_3 ht =>
    obtain ⟨x, hx⟩ := h.found how
    rw [ipcTrySend_badEnv ht] at hx
    cases hx
  case h_1 t ht =>
    obtain ⟨x, hx, hrx, rfl⟩ := ipcTrySend_sent ht
    have hxf : x ≠ fsEnv := by
      intro heq
      rw [heq, hr] at hrx
      cases hrx
    have hrun : ∀ y, s.status y ≠ .FREE → Function.update s.status x .RUNNABLE y ≠ .FREE := by
      intro y hy
      by_cases hyx : y = x
      · rw [hyx, Function.update_self]
        exact nofun
      · rw [Function.update_of_ne hyx]
        exact hy
    refine ⟨hp, hrun fsEnv h.fsStatus, nofun, nofun, ?_⟩
    intro whom' how'
    have heq : whom = whom' := by
      cases todo with
      | nil => cases how'
      | cons _ _ => exact Option.some.inj how'
    obtain ⟨y, hy, hid⟩ := h.there whom how
    exact ⟨y, hrun y hy, heq ▸ hid⟩

private theorem step {ev : FsIpcEvent} (h : LiveInv s) (hok : s.admits ev) (hs : s.step ev = some t) : LiveInv t := by
  have hp := h.pairing.step hs
  cases step_cases hs with
  | create hs => exact h.create hs
  | destroy hs => exact h.destroy hok hs
  | trySend he hrun hpc => exact h.userSend (PairInv.ne_free hrun) hp
  | @recv e dstva he hrun hpc =>
    refine h.stay he (ipcRecv_touches _) hp ?_ rfl
    rw [show (s.ipcRecv e dstva).status e = .NOT_RUNNABLE from Function.update_self ..]
    exact nofun
  | @fsipc e req dstva he hrun hpc =>
    have hpc : LiveInv (s.setPc e (.sending req dstva s.count)) :=
      h.stay he (setPc_touches _) (h.pairing.stay he (PairInv.ne_free hrun) (setPc_touches _) rfl) (PairInv.ne_free hrun)
        rfl
    exact ⟨hp, hpc.fsStatus, hpc.waits, hpc.alive, hpc.there⟩
  | fsSend he hrun hpc => exact h.fsSend he (PairInv.ne_free hrun)
  | @fsRecv e dstva n he hrun hpc =>
    have hst : (s.ipcRecv e dstva).status e ≠ .FREE := by
      rw [show (s.ipcRecv e dstva).status e = .NOT_RUNNABLE from Function.update_self ..]
      exact nofun
    have hrecv : LiveInv (s.ipcRecv e dstva) :=
      h.stay he (ipcRecv_touches _) (h.pairing.stay he (PairInv.ne_free hrun) (ipcRecv_touches _) rfl) hst rfl
    exact hrecv.stay he (setPc_touches _) hp hst rfl
  | fsReturn he hrun => exact h.stay he (setPc_touches _) hp (PairInv.ne_free hrun) rfl
  | signal he hrun => exact h.stay he signal_touches hp (PairInv.ne_free hrun) rfl
  | sigReturn he hrun hunder => exact h.stay he (sigReturn_touches _ _) hp (PairInv.ne_free hrun) rfl
  | serverRecv => exact h.serverRecv
  | @serverGet todo hserver hst =>
    refine ⟨hp, h.fsStatus, nofun, nofun, ?_⟩
    intro whom how
    apply h.there whom
    unfold owed
    rw [hserver]
    cases todo with
    | nil => cases how
    | cons _ _ => exact (if_pos hst).trans how
  | serverSend hserver => exact h.serverSend hserver

/-- What the invariant says of the server. -/
private theorem survivesOk (h : LiveInv s) : Survives s := by
  refine ⟨h.alive, ?_, ?_, h.waits⟩
  · intro whom about m todo hserver
    obtain ⟨x, hx⟩ := h.found (by unfold owed; rw [hserver])
    refine ⟨x, hx, fun hr mapped =>
      ⟨(s.deliver fsEnv x m mapped about).setServer (.replying whom about todo), ?_, ?_, rfl⟩⟩
    · simp [FsIpc.step, hserver, FsIpc.serverSend, ipcTrySend, hx, hr]
    · simp [FsIpc.setServer, FsIpc.deliver]
  · intro hserver
    refine ⟨(s.ipcRecv fsEnv reqVa).setServer .waiting, ?_, rfl, ?_⟩
    · rcases hserver with hserver | ⟨whom, about, hserver⟩
      · simp [FsIpc.step, hserver]
      · simp [FsIpc.step, hserver]
    · simp [FsIpc.setServer, ipcRecv]

end LiveInv

/-- The file server survives its clients, as long as none is destroyed to which it owes a reply. -/
theorem survives (h : fsIpc.Reach (fun s ev => s.admits ev) s) : Survives s := by
  have hinv : LiveInv s := by
    induction h with
    | start h => exact .init h
    | next _ hok hs ih => exact ih.step hok hs
  exact hinv.survivesOk

/-- A client that has got its reply may go. -/
theorem survives_answer : ∃ s : FsIpc, s.status 0 = .FREE ∧ Survives s := by
  have h0 : fsIpc.Reach (fun s ev => s.admits ev) threeEnvs := .start threeEnvs_init
  have h := h0.run (l := [.serverRecv, .fsipc 0 ⟨7, some 3⟩ 0, .fsSend 0 true, .fsRecv 0, .serverGet [⟨5, none⟩],
    .serverSend true, .destroy 0]) rfl
  exact ⟨_, rfl, survives h⟩

/-- A client goes before it has got its reply. -/
theorem exists_panicked : ∃ s : FsIpc, fsIpc.Reach (fun _ _ => True) s ∧ s.server = .panicked := by
  have h0 : fsIpc.Reach (fun _ _ => true = true) threeEnvs := .start threeEnvs_init
  have h := (h0.run (l := [.serverRecv, .fsipc 0 ⟨7, some 3⟩ 0, .fsSend 0 true, .destroy 0, .serverGet [⟨5, none⟩],
    .serverSend true]) rfl).mono fun _ _ _ => trivial
  exact ⟨_, h, rfl⟩

end FsIpc

end Mos
