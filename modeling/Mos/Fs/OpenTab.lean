import Mos.Fs.Isolation
import Mos.User.PipeRef

/-!
# The open-file table and its clients

The page of a descriptor is mapped in the server and in the clients that have the descriptor open.  The server sees this
in its reference count only.
-/

namespace Mos

/-- The server and the descriptors of its clients. -/
structure OpenSys (ι : Type) where
  serv : Serv
  fds : ι → Fin MAXFD → Option (Fin MAXOPEN)
  /-- The replies that are not delivered yet, and to whom. -/
  out : List (Option ReplyPage)
  requester : Option ι
  /-- Not in the code: the id that the last `serve_open` of the slot returned, if it did. -/
  given : Fin MAXOPEN → Option Word

inductive OpenEvent (ι : Type) where
  /-- The server handles a request. -/
  | request (e : ι) (req : FsReq) (junk : Option (Fin MAXOPEN))
  /-- The requester gets a reply; a page goes to the address of a descriptor, if there is memory for the mapping. -/
  | deliver (d : Fin MAXFD) (ok : Bool)
  /-- A page of a descriptor is mapped at another address of a client (`dup`) or in another client (`fork`, `spawn`). -/
  | share (e : ι) (d : Fin MAXFD) (e' : ι) (d' : Fin MAXFD)
  /-- A page of a descriptor is unmapped: `close`, or the end of the client. -/
  | close (e : ι) (d : Fin MAXFD)
  /-- Clients write to blocks that they have mapped, and the free memory changes. -/
  | memory (fs : Fs)

/-- The page of a reply. -/
def ServLog.replyPage : ServLog → Option (Option ReplyPage)
  | .reply _ page => some page
  | .fs _ => none

namespace OpenSys

variable {ι : Type} [Fintype ι] [DecidableEq ι]

/-- How often clients map the page of a slot. -/
def count (fds : ι → Fin MAXFD → Option (Fin MAXOPEN)) (i : Fin MAXOPEN) : Nat :=
  (Finset.univ.filter fun x : ι × Fin MAXFD => fds x.1 x.2 = some i).card

/-- The mapping of a client changes, and the kernel counts. -/
def setFd (s : OpenSys ι) (e : ι) (d : Fin MAXFD) (v : Option (Fin MAXOPEN)) : OpenSys ι :=
  let fds := Function.update s.fds e (Function.update (s.fds e) d v)
  { s with fds := fds, serv := { s.serv with ref := fun i => if s.serv.ref i = 0 then 0 else 1 + count fds i } }

/-- What the last open of a slot returned, after a request with this log. -/
def nextGiven (given : Fin MAXOPEN → Option Word) (s t : Serv) (l : List ServLog) (i : Fin MAXOPEN) : Option Word :=
  if .reply 0 (some (.desc i)) ∈ l then some (t.opentab i).oFileid
  else if (t.opentab i).oFileid = (s.opentab i).oFileid then given i
  else none

def request (s : OpenSys ι) (e : ι) (req : FsReq) (junk : Option (Fin MAXOPEN)) : Option (OpenSys ι) :=
  if s.out = [] then
    (ServProc.serve junk req s.serv).map fun p =>
      { s with serv := p.2.2, out := p.1.filterMap ServLog.replyPage, requester := some e,
               given := nextGiven s.given s.serv p.2.2 p.1 }
  else none

def deliver (s : OpenSys ι) (d : Fin MAXFD) (ok : Bool) : Option (OpenSys ι) :=
  match s.out, s.requester with
  | page :: out, some e =>
    match page, ok with
    | some (.desc i), true => some ({ s with out := out }.setFd e d (some i))
    | some (.block _), true => some ({ s with out := out }.setFd e d none)
    | _, _ => some { s with out := out }
  | _, _ => none

def step (s : OpenSys ι) : OpenEvent ι → Option (OpenSys ι)
  | .request e req junk => s.request e req junk
  | .deliver d ok => s.deliver d ok
  | .share e d e' d' => (s.fds e d).map fun i => s.setFd e' d' (some i)
  | .close e d => some (s.setFd e d none)
  | .memory fs => some { s with serv := { s.serv with fs := fs } }

/-- A server that has not handled a request. -/
def start (fs : Fs) : OpenSys ι := ⟨.init fs, fun _ _ => none, [], none, fun _ => none⟩

/-- A lookup succeeds exactly if the id is what the last open of the slot returned and the caller has its page. -/
def LookupOk (s : OpenSys ι) (e : ι) (fileid : Word) : Prop :=
  (s.serv.openLookup fileid).isSome ↔
    s.given (Serv.slot fileid) = some fileid ∧ ∃ d, s.fds e d = some (Serv.slot fileid)

/-- `open_alloc` gives out no slot that a client has. -/
def AllocOk (s : OpenSys ι) : Prop := ∀ i, s.serv.openAlloc.2.1 = some i → ∀ e d, s.fds e d ≠ some i

/-- If the id is the current one of the slot, the slot has a page, and the caller has it if any client has. -/
def Current (s : OpenSys ι) (e : ι) (fileid : Word) : Prop :=
  (s.serv.opentab (Serv.slot fileid)).oFileid = fileid → s.serv.ref (Serv.slot fileid) ≠ 0 ∧
    (2 ≤ s.serv.ref (Serv.slot fileid) → ∃ d, s.fds e d = some (Serv.slot fileid))

end OpenSys

/-- The file server and its clients, as far as the open-file table is concerned. -/
def openSys (ι : Type) [Fintype ι] [DecidableEq ι] : System (OpenSys ι) (OpenEvent ι) :=
  ⟨fun s => ∃ fs, s = .start fs, OpenSys.step⟩

/-! ### What a request does to the table -/

namespace Serv

/-- The ids and the counts are the same. -/
def SameIds (s t : Serv) : Prop := t.ref = s.ref ∧ ∀ j, (t.opentab j).oFileid = (s.opentab j).oFileid

/-- A slot that no client has gets its next id and has a page. -/
def NextId (s t : Serv) (i : Fin MAXOPEN) : Prop :=
  s.ref i ≤ 1 ∧ t.ref = Function.update s.ref i 1 ∧ ∀ j, j ≠ i → (t.opentab j).oFileid = (s.opentab j).oFileid

private theorem openAlloc_ids (s : Serv) :
    SameIds s s.openAlloc.2.2 ∨ ∃ i, s.openAlloc.2.1 = some i ∧ NextId s s.openAlloc.2.2 i := by
  rcases openAlloc_cases s with ⟨-, h⟩ | ⟨i, mem, hle, h⟩
  · rw [h]
    exact .inl ⟨rfl, fun _ => rfl⟩
  · rw [h]
    refine .inr ⟨i, rfl, hle, rfl, fun j hj => ?_⟩
    simp [taken, takeSlot, setOpen, setFf, setRef, Function.update_of_ne hj]

private theorem filled_ids (s : Serv) (fs : Fs) (i : Fin MAXOPEN) (f : FilePtr) (omode : Word) (ws : Fin 64 → Word) :
    SameIds s (ServProc.filled { s with fs := fs } i f omode ws) := by
  refine ⟨rfl, fun j => ?_⟩
  rcases eq_or_ne j i with rfl | hj
  · simp [ServProc.filled, setOpen, setFf]
  · simp [ServProc.filled, setOpen, setFf, Function.update_of_ne hj]

private theorem NextId.same {s t u : Serv} {i : Fin MAXOPEN} (h : NextId s t i) (htu : SameIds t u) : NextId s u i :=
  ⟨h.1, htu.1.trans h.2.1, fun j hj => (htu.2 j).trans (h.2.2 j hj)⟩

private theorem SameIds.trans {s t u : Serv} (h : SameIds s t) (htu : SameIds t u) : SameIds s u :=
  ⟨htu.1.trans h.1, fun j => (htu.2 j).trans (h.2 j)⟩

end Serv

namespace ServProc

variable {α : Type} {s t : Serv} {l : List ServLog} {r : Except Word Unit}

/-- A descriptor is only sent with the result 0, and its page is there. -/
def DescOk (t : Serv) (l : List ServLog) : Prop := ∀ w i, .reply w (some (.desc i)) ∈ l → w = 0 ∧ t.ref i ≠ 0

private theorem replyTo_ids {x : FsProc α} {page : α → Option ReplyPage} (hpage : ∀ a i, page a ≠ some (.desc i))
    (h : replyTo x page s = some (l, r, t)) : Serv.SameIds s t ∧ DescOk t l := by
  obtain ⟨l₀, q, u, -, rfl, rfl⟩ := replyTo_some h
  refine ⟨⟨rfl, fun _ => rfl⟩, fun w i hw => ?_⟩
  have ha : ServLog.reply w (some (.desc i)) = answer page q := by simpa using hw
  cases q with
  | error e => cases ha
  | ok a =>
    simp only [answer, ServLog.reply.injEq] at ha
    exact absurd ha.2.symm (hpage a i)

private theorem withOpen_ids {fileid : Word} {x : FilePtr → FsProc α} {page : α → Option ReplyPage}
    (hpage : ∀ a i, page a ≠ some (.desc i)) (h : withOpen fileid x page s = some (l, r, t)) :
    Serv.SameIds s t ∧ DescOk t l := by
  rcases withOpen_some h with ⟨-, rfl, rfl⟩ | ⟨i, f, -, -, h⟩
  · exact ⟨⟨rfl, fun _ => rfl⟩, fun w i hw => by simp at hw⟩
  · exact replyTo_ids hpage h

private theorem mem_allocReply {w r : Word} {i : Fin MAXOPEN} : .reply w (some (.desc i)) ∉ allocReply r := by
  unfold allocReply
  split <;> simp

private theorem serveOpen_ids {path : List Byte} {omode : Word} {junk : Option (Fin MAXOPEN)}
    (h : serveOpen path omode junk s = some (l, r, t)) :
    (Serv.SameIds s t ∨ ∃ i, Serv.NextId s t i) ∧ DescOk t l := by
  obtain ⟨l₀, q, u, -, h⟩ := serveOpen_some h
  have hids := Serv.openAlloc_ids s
  generalize s.openAlloc = p at hids h
  have hthen (ht : Serv.SameIds p.2.2 t) : Serv.SameIds s t ∨ ∃ i, Serv.NextId s t i := by
    rcases hids with hids | ⟨i, -, hids⟩
    · exact .inl (hids.trans ht)
    · exact .inr ⟨i, hids.same ht⟩
  rcases h with ⟨e, -, rfl, rfl⟩ | ⟨f, i, ws, -, -, ⟨h0, -⟩, rfl, rfl⟩
  · refine ⟨hthen ⟨rfl, fun _ => rfl⟩, fun w i hw => ?_⟩
    simp [mem_allocReply] at hw
  · refine ⟨hthen (Serv.filled_ids ..), fun w j hw => ?_⟩
    simp only [List.mem_append, mem_allocReply, List.mem_map, reduceCtorEq, and_false, exists_false, false_or,
      List.mem_singleton, ServLog.reply.injEq, Option.some.injEq, ReplyPage.desc.injEq] at hw
    obtain ⟨rfl, rfl⟩ := hw
    exact ⟨rfl, h0⟩

/-- What a request does to the ids and the counts. -/
private theorem serve_ids {junk : Option (Fin MAXOPEN)} {req : FsReq} (h : serve junk req s = some (l, r, t)) :
    (Serv.SameIds s t ∨ ∃ i, Serv.NextId s t i) ∧ DescOk t l := by
  have hleft {P : Prop} (hs : Serv.SameIds s t ∧ P) : (Serv.SameIds s t ∨ ∃ i, Serv.NextId s t i) ∧ P :=
    ⟨.inl hs.1, hs.2⟩
  cases req with
  | «open» path omode => exact serveOpen_ids h
  | map fileid offset => exact hleft (withOpen_ids (by simp) h)
  | setSize fileid size => exact hleft (withOpen_ids (by simp) h)
  | close fileid => exact hleft (withOpen_ids (by simp) h)
  | dirty fileid offset => exact hleft (withOpen_ids (by simp) h)
  | remove path => exact hleft (replyTo_ids (by simp) h)
  | sync => exact hleft (replyTo_ids (by simp) h)
  | other code =>
    cases h
    exact hleft ⟨⟨rfl, fun _ => rfl⟩, fun w i hw => by simp at hw⟩

end ServProc

namespace OpenSys

variable {ι : Type} [Fintype ι] {s t : OpenSys ι}

/-! ### The invariant -/

private theorem count_eq_zero {fds : ι → Fin MAXFD → Option (Fin MAXOPEN)} {i : Fin MAXOPEN} :
    count fds i = 0 ↔ ∀ e d, fds e d ≠ some i := by
  unfold count
  rw [Finset.card_eq_zero, Finset.filter_eq_empty_iff]
  simp only [Finset.mem_univ, true_implies, Prod.forall, ne_eq]

private theorem count_ne_zero {fds : ι → Fin MAXFD → Option (Fin MAXOPEN)} {i : Fin MAXOPEN} :
    count fds i ≠ 0 ↔ ∃ e d, fds e d = some i := by
  rw [Ne, count_eq_zero]
  push Not
  rfl

/-- The counts are right, and a slot that a client has, or is about to get, has the id that was returned. -/
structure Inv (s : OpenSys ι) : Prop where
  zero : ∀ i, s.serv.ref i = 0 → count s.fds i = 0
  succ : ∀ i, s.serv.ref i ≠ 0 → s.serv.ref i = 1 + count s.fds i
  current : ∀ i x, s.given i = some x → x = (s.serv.opentab i).oFileid ∧ s.serv.ref i ≠ 0
  opened : ∀ i, count s.fds i ≠ 0 → (s.given i).isSome
  pending : ∀ i, some (.desc i) ∈ s.out → (s.given i).isSome

private theorem Inv.start (fs : Fs) : (start fs : OpenSys ι).Inv where
  zero _ _ := count_eq_zero.2 fun _ _ => nofun
  succ _ h := absurd rfl h
  current _ _ h := by cases h
  opened i h := by
    obtain ⟨e, d, hd⟩ := count_ne_zero.1 h
    cases hd
  pending _ h := by cases h

private theorem Inv.count_of_ref_le {i : Fin MAXOPEN} (hI : s.Inv) (hi : s.serv.ref i ≤ 1) : count s.fds i = 0 := by
  by_cases h0 : s.serv.ref i = 0
  · exact hI.zero i h0
  · have := hI.succ i h0
    omega

private theorem Inv.allocOk (hI : s.Inv) : s.AllocOk := by
  intro i hi
  rw [← count_eq_zero]
  rcases Serv.openAlloc_cases s.serv with ⟨-, h⟩ | ⟨j, mem, hle, h⟩
  · rw [h] at hi
    cases hi
  · rw [h] at hi
    cases hi
    exact hI.count_of_ref_le hle

private theorem Inv.request {e : ι} {req : FsReq} {junk : Option (Fin MAXOPEN)} (hI : s.Inv)
    (h : s.request e req junk = some t) : t.Inv := by
  unfold OpenSys.request at h
  split at h
  case isFalse => cases h
  case isTrue hout =>
  obtain ⟨⟨l, r, u⟩, hserve, rfl⟩ := Option.map_eq_some_iff.1 h
  have ⟨hids, hdesc⟩ := ServProc.serve_ids hserve
  have href (i : Fin MAXOPEN) : s.serv.ref i ≠ 0 → u.ref i ≠ 0 := by
    intro hi
    rcases hids with hids | ⟨j, -, hj, -⟩
    · rwa [hids.1]
    · rw [hj]
      rcases eq_or_ne i j with rfl | hij
      · simp
      · rwa [Function.update_of_ne hij]
  constructor
  · intro i hi
    have h0 : s.serv.ref i = 0 := by
      by_contra h0
      exact href i h0 hi
    exact hI.zero i h0
  · intro i hi
    show u.ref i = 1 + count s.fds i
    change u.ref i ≠ 0 at hi
    rcases hids with hids | ⟨j, hle, hj, -⟩
    · rw [hids.1] at hi ⊢
      exact hI.succ i hi
    · rcases eq_or_ne i j with rfl | hij
      · rw [hj, Function.update_self, hI.count_of_ref_le hle]
      · rw [hj, Function.update_of_ne hij] at hi ⊢
        exact hI.succ i hi
  · intro i x hx
    change nextGiven s.given s.serv u l i = some x at hx
    unfold nextGiven at hx
    split_ifs at hx with hl hid
    · cases hx
      exact ⟨rfl, (hdesc 0 i hl).2⟩
    · have hcur := hI.current i x hx
      exact ⟨hcur.1.trans hid.symm, href i hcur.2⟩
  · intro i hi
    show (nextGiven s.given s.serv u l i).isSome
    unfold nextGiven
    split_ifs with hl hid
    · rfl
    · exact hI.opened i hi
    · -- a slot that a client has does not change its id
      refine absurd ?_ hid
      rcases hids with hids | ⟨j, hle, -, hj⟩
      · exact hids.2 i
      · refine hj i ?_
        rintro rfl
        exact hi (hI.count_of_ref_le hle)
  · intro i hi
    obtain ⟨o, ho, hpage⟩ := List.mem_filterMap.1 hi
    cases o with
    | fs o => cases hpage
    | reply w page =>
      obtain rfl := Option.some.inj hpage
      obtain ⟨rfl, -⟩ := hdesc w i ho
      show (nextGiven s.given s.serv u l i).isSome
      unfold nextGiven
      rw [if_pos ho]
      rfl

variable [DecidableEq ι]

private theorem Inv.setFd {e : ι} {d : Fin MAXFD} {v : Option (Fin MAXOPEN)} (hI : s.Inv)
    (hv : ∀ i, v = some i → (s.given i).isSome) : (s.setFd e d v).Inv := by
  -- the slots of the new descriptors are those of the old ones, and the new one
  have hset (i : Fin MAXOPEN) (hi : count (s.setFd e d v).fds i ≠ 0) : (s.given i).isSome := by
    obtain ⟨e', d', hd⟩ := count_ne_zero.1 hi
    by_cases hed : e' = e ∧ d' = d
    · obtain ⟨rfl, rfl⟩ := hed
      refine hv i ?_
      simpa [OpenSys.setFd] using hd
    · refine hI.opened i (count_ne_zero.2 ⟨e', d', ?_⟩)
      rcases eq_or_ne e' e with rfl | he
      · have hd' : d' ≠ d := fun h => hed ⟨rfl, h⟩
        simpa [OpenSys.setFd, Function.update_of_ne hd'] using hd
      · simpa [OpenSys.setFd, Function.update_of_ne he] using hd
  have href (i : Fin MAXOPEN) : (s.setFd e d v).serv.ref i = 0 ↔ s.serv.ref i = 0 := by
    show (if s.serv.ref i = 0 then 0 else _) = 0 ↔ _
    split <;> omega
  constructor
  · intro i hi
    by_contra hc
    obtain ⟨x, hx⟩ := Option.isSome_iff_exists.1 (hset i hc)
    exact (hI.current i x hx).2 ((href i).1 hi)
  · intro i hi
    have h0 : s.serv.ref i ≠ 0 := fun h => hi ((href i).2 h)
    show (if s.serv.ref i = 0 then 0 else _) = _
    rw [if_neg h0]
    rfl
  · intro i x hx
    have hcur := hI.current i x hx
    exact ⟨hcur.1, fun h => hcur.2 ((href i).1 h)⟩
  · exact hset
  · exact hI.pending

private theorem Inv.deliver {d : Fin MAXFD} {ok : Bool} (hI : s.Inv) (h : s.deliver d ok = some t) : t.Inv := by
  unfold OpenSys.deliver at h
  split at h
  case h_2 => cases h
  case h_1 page out e hout _ =>
  have hI' : ({ s with out := out } : OpenSys ι).Inv :=
    ⟨hI.zero, hI.succ, hI.current, hI.opened, fun i hi => hI.pending i (hout ▸ List.mem_cons_of_mem _ hi)⟩
  split at h
  · next i =>
    cases h
    refine hI'.setFd fun j hj => ?_
    cases hj
    exact hI.pending i (hout ▸ List.mem_cons_self)
  · cases h
    exact hI'.setFd nofun
  · cases h
    exact hI'

private theorem Inv.step {ev : OpenEvent ι} (hI : s.Inv) (h : s.step ev = some t) : t.Inv := by
  cases ev with
  | request e req junk => exact hI.request h
  | deliver d ok => exact hI.deliver h
  | share e d e' d' =>
    obtain ⟨i, hi, rfl⟩ := Option.map_eq_some_iff.1 h
    refine hI.setFd fun j hj => ?_
    cases hj
    exact hI.opened i (count_ne_zero.2 ⟨e, d, hi⟩)
  | close e d =>
    cases h
    exact hI.setFd nofun
  | memory fs =>
    cases h
    exact ⟨hI.zero, hI.succ, hI.current, hI.opened, hI.pending⟩

private theorem inv_of_reach (h : (openSys ι).Reach (fun _ _ => True) s) : s.Inv :=
  h.invariant (by rintro _ ⟨fs, rfl⟩; exact .start fs) fun _ _ _ hI _ hs => hI.step hs

/-! ### When a lookup is right -/

private theorem isSome_openLookup {t : Serv} {fileid : Word} : (t.openLookup fileid).isSome ↔
    t.ref (Serv.slot fileid) ≠ 1 ∧ (t.opentab (Serv.slot fileid)).oFileid = fileid := by
  unfold Serv.openLookup
  split_ifs with h
  · simp only [Option.isSome_none, Bool.false_eq_true, false_iff]
    tauto
  · simp only [Option.isSome_some, true_iff]
    tauto

/-- A lookup is right exactly if the id is not the one in the table, or the slot has had a client and the caller is one
of its clients, if there are any left. -/
theorem lookup_iff (h : (openSys ι).Reach (fun _ _ => True) s) (e : ι) (fileid : Word) :
    (s.LookupOk e fileid ∧ s.AllocOk) ↔ s.Current e fileid := by
  have hI := inv_of_reach h
  rw [and_iff_left hI.allocOk]
  unfold LookupOk Current
  rw [isSome_openLookup]
  generalize hi : Serv.slot fileid = i
  have hcur (hg : s.given i = some fileid) : (s.serv.opentab i).oFileid = fileid ∧ s.serv.ref i ≠ 0 :=
    ⟨(hI.current i fileid hg).1.symm, (hI.current i fileid hg).2⟩
  constructor
  · rintro hok hid
    have href : s.serv.ref i ≠ 0 := by
      intro h0
      exact (hcur (hok.1 ⟨by omega, hid⟩).1).2 h0
    exact ⟨href, fun h2 => (hok.1 ⟨by omega, hid⟩).2⟩
  · intro hok
    constructor
    · rintro ⟨h1, hid⟩
      obtain ⟨h0, hfd⟩ := hok hid
      have hd := hfd (by omega)
      obtain ⟨d, hd⟩ := hd
      -- the last open of a slot that a client has returned the id
      obtain ⟨x, hx⟩ := Option.isSome_iff_exists.1 (hI.opened i (count_ne_zero.2 ⟨e, d, hd⟩))
      rw [(hI.current i x hx).1, hid] at hx
      exact ⟨hx, d, hd⟩
    · rintro ⟨hg, d, hd⟩
      obtain ⟨hid, h0⟩ := hcur hg
      have hcount : count s.fds i ≠ 0 := count_ne_zero.2 ⟨e, d, hd⟩
      have hsucc := hI.succ i h0
      exact ⟨by omega, hid⟩

/-- The first of two clients opens `b`, and the page of the descriptor is delivered. -/
def opensB : List (OpenEvent (Fin 2)) := [.request 0 (.open [98] 1) none, .deliver 0 true]

private theorem opensB_cond :
    ((openSys (Fin 2)).run (fun _ _ => true) (start (Fs.mount FileSys.smallDisk 10)) opensB).any fun s =>
      s.given (Serv.slot 1024) = some 1024 ∧ s.fds 0 0 = some (Serv.slot 1024) ∧ s.fds 1 = (fun _ => none) ∧
        s.serv.ref (Serv.slot 1024) = 2 ∧ (s.serv.opentab (Serv.slot 1024)).oFileid = 1024 := by decide +kernel

/-- The lookup is right for the client that has opened the file, and wrong for the other one. -/
theorem lookup_iff_opensB : ∃ s, (openSys (Fin 2)).run (fun _ _ => true) (start (Fs.mount FileSys.smallDisk 10)) opensB =
    some s ∧ s.given (Serv.slot 1024) = some 1024 ∧ (s.LookupOk 0 1024 ∧ s.AllocOk) ∧ ¬(s.LookupOk 1 1024 ∧ s.AllocOk) := by
  obtain ⟨s, hs, hcond⟩ := (Option.any_eq_true _ _).1 opensB_cond
  obtain ⟨hgiven, hfd, hother, href, hid⟩ := of_decide_eq_true hcond
  have hstart : (openSys (Fin 2)).Reach (fun _ _ => true = true) (start (Fs.mount FileSys.smallDisk 10)) := .start ⟨_, rfl⟩
  have hreach : (openSys (Fin 2)).Reach (fun _ _ => True) s := (hstart.run hs).mono fun _ _ _ => trivial
  refine ⟨s, hs, hgiven, (lookup_iff hreach 0 1024).2 fun _ => ⟨by rw [href]; decide, fun _ => ⟨0, hfd⟩⟩, fun h => ?_⟩
  obtain ⟨d, hd⟩ := ((lookup_iff hreach 1 1024).1 h hid).2 (by rw [href])
  rw [hother] at hd
  cases hd

/-- A disk and no memory. -/
def noFs : Fs := ⟨fun _ _ => 0, fun _ => none, 0⟩

/-- A number is accepted that no open has returned: the slot has never been used. -/
theorem exists_lookup_unused :
    ∃ s : OpenSys Unit, (openSys Unit).Reach (fun _ _ => True) s ∧ ¬ s.LookupOk () 5 := by
  refine ⟨start noFs, .start ⟨noFs, rfl⟩, fun h => ?_⟩
  have hsome : ((start noFs : OpenSys Unit).serv.openLookup 5).isSome := by
    rw [isSome_openLookup]
    exact ⟨show (0 : Nat) ≠ 1 by decide, show BitVec.ofNat 32 (5 % MAXOPEN) = 5#32 by decide⟩
  have hgiven := (h.1 hsome).1
  cases hgiven

end OpenSys

end Mos
