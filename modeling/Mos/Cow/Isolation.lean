import Mos.Cow.Break
import Mos.Cow.ForkSpec
import Mos.Lib.Run

/-!
# Address spaces of one's own

The kernel with all its environments, whose code stores words, copies pages before it writes them, gives pages to children with
`duppage`, and forks.  Frames are shared all the time, but what the environments see is what they would see if every one of them had
its own contents: a page reads as its environment wrote it.
-/

namespace Mos

open Kern Cow

/-! ### The system -/

/-- Steps of the kernel, and what user code does between two exceptions. -/
inductive CowEvent where
  | kern (ev : Event)
  | store (va w : Word)
  | cow (va : Word)
  | dup (child : Word) (v : Vpn)
  | fork (entry : Word)

namespace Kern

/-- What the code of `cur` does. -/
def userCode (k : Kern) (cur : EnvPtr) : CowEvent → Option Kern
  | .kern _ => none
  | .store va w => k.storeWord cur va w
  | .cow va => k.cowEntry cur va
  | .dup child v => k.duppage cur child v
  | .fork entry => (k.fork entry cur).map (·.2)

/-- No frame that `fork` visits has so many references that their number could overflow. -/
def forkCounts (k : Kern) (cur : EnvPtr) : Bool := forkTables.all fun i =>
  (k.vpt cur (i, 0)).isNone || (forkPages i).all fun j =>
    (k.vpt cur (i, j)).all fun pte => !has pte PTE_V || (k.pm.ppRef (PPN pte)).toNat < 32768

/-- The handler gets an address of a page that is mapped, not that of its own page, and finds a page for the copy; `duppage` gets a
mapped page and another environment, and the count of the page does not overflow; `fork` finds an environment and a page for its
directory. -/
def userAdmits (k : Kern) (cur : EnvPtr) : CowEvent → Bool
  | .kern _ => true
  | .store va _ => va < UTOP
  | .cow va => !isIllegalVa (ROUNDDOWN va BY2PG) && VPN va ≠ VPN UCOW && (k.frameAt cur va).isSome &&
      (!k.pm.pageFreeList.isEmpty || (k.frameAt cur UCOW).isNone)
  | .dup child v => k.envid2env cur child true ≠ some cur && (k.frameAt cur (pageVa v)).any fun p => k.pm.ppRef p ≠ 65535
  | .fork _ => !k.envFreeList.isEmpty && k.vmFree && k.nextId.all (fun x => x.2 ≠ 0) && k.forkCounts cur

end Kern

/-- `cow_entry`, `duppage` and `fork` are one step each: neither the timer nor a signal comes between their system calls. -/
def State.cowStep (s : State) : CowEvent → Option State
  | .kern ev => s.step ev
  | ev => match s.phase with
    | .user => s.kern.curenv.bind fun cur => (s.kern.userCode cur ev).map fun k => ⟨.user, k⟩
    | _ => none

def State.cowOk (s : State) : CowEvent → Bool
  | .kern ev => cowAdmits s ev
  | ev => s.kern.curenv.all fun cur => s.kern.userAdmits cur ev

/-- The kernel and its environments. -/
def cowKernel : System State CowEvent where
  init := kernel.init
  step := State.cowStep

/-! ### What a step does to the contents -/

/-- What a step may do, where every environment has its own contents. -/
inductive CowActs (s : State) : CowEvent → List (Act EnvPtr Vpn (Idx → Word)) → Prop
  | kern {ev : Event} {e : EnvPtr} {W : Set Vpn} (hW : ∀ v ∈ W, Remaps s ev e v) (new : Vpn → Option (Idx → Word)) :
      CowActs s (.kern ev) [.renew e W new]
  | store {va w : Word} {cur : EnvPtr} (hc : s.kern.curenv = some cur) :
      CowActs s (.store va w) [.write cur (VPN va) fun f => Function.update f (wordIdx va) w]
  | cow {va : Word} {cur : EnvPtr} (hc : s.kern.curenv = some cur) : CowActs s (.cow va) [.renew cur {VPN UCOW} fun _ => none]
  | dup {child : Word} {v : Vpn} {cur e : EnvPtr} (hc : s.kern.curenv = some cur)
      (he : s.kern.envid2env cur child true = some e) : CowActs s (.dup child v) [.copy cur e v]
  /-- The page may not be given away, or there is no memory, or no child. -/
  | lost {child : Word} {v : Vpn} {cur : EnvPtr} (hc : s.kern.curenv = some cur)
      (h : isIllegalVa (pageVa v) = true ∨ s.kern.pm.pageFreeList = [] ∨ s.kern.envid2env cur child true = none) :
      CowActs s (.dup child v) []
  /-- The pages in `L` are those for which there was no memory. -/
  | fork {entry : Word} {cur e : EnvPtr} (hc : s.kern.curenv = some cur) (he : s.kern.envFreeList.head? = some e) (L : Set Vpn) :
      CowActs s (.fork entry) [.fork cur e ({v | forkable v = true} \ L)]

/-- The tables are kept apart, and so are the pages that are not shared. -/
structure CowOk (mc : Machine) (s : State) : Prop where
  mem : ∃ leak, MemOk mc leak s.kern
  ids : IdBits s.kern
  isPrivate : s.kern.mem.store.Private

section

variable {mc : Machine} {leak : Nat → Nat} {s s' t : State} {k k' : Kern} {cur e : EnvPtr} {va w child : Word} {v : Vpn}
  {ev : CowEvent}

private theorem frameAt_user (hlive : (k.envs cur).envStatus ≠ .FREE)
    (hsome : (k.frameAt cur va).isSome) : ∃ w, k.mem.user cur (VPN va) = some w ∧ k.frameAt cur va = some (PPN w) := by
  obtain ⟨p, hp⟩ := Option.isSome_iff_exists.1 hsome
  obtain ⟨_, w, -, hw, rfl⟩ := frameAt_cases (m := k.pm) hlive hp
  exact ⟨w, hw, hp⟩

/-- Nothing is mapped where no frame is found. -/
private theorem frameAt_none (h : MemOk mc leak k) (hlive : (k.envs cur).envStatus ≠ .FREE) (hi : PDX va < PDX UTOP)
    (hnone : (k.frameAt cur va).isNone) : k.mem.user cur (VPN va) = none := by
  cases hw : k.mem.user cur (VPN va) with
  | none => rfl
  | some w =>
    have hlook : k.pageLookupEnv cur va = some (some (PPN w)) := pageLookup_user (m := k.pm) h.mem hlive hi hw
    rw [frameAt, hlook] at hnone
    cases hnone

private theorem CowOk.calling (h : CowOk mc s) (hc : s.kern.curenv = some cur) : Calling mc s.kern cur := ⟨h.mem, h.ids, hc⟩

private theorem CowOk.of_calling (h : Calling mc k cur) (hp : k.mem.store.Private) :
    CowOk mc ⟨.user, k⟩ := ⟨h.mem, h.ids, hp⟩

private theorem forkCounts_spec (hlive : (k.envs cur).envStatus ≠ .FREE) (hcounts : k.forkCounts cur = true)
    (hv : pageVa v < USTACKTOP) (hw : k.mem.user cur v = some w) : (k.pm.ppRef (PPN w)).toNat < 32768 := by
  obtain ⟨hvpt, hval⟩ := vpt_of_user hlive hw
  obtain ⟨i, hi, hmem⟩ := List.mem_flatMap.1 (mem_forkVisits.2 hv)
  obtain ⟨j, hj, rfl⟩ := List.mem_map.1 hmem
  have htable := List.all_eq_true.1 hcounts i hi
  rw [Bool.or_eq_true] at htable
  rcases htable with hnone | hall
  · have hsome : (k.vpt cur (i, 0)).isSome = true := by rw [vpt_isSome k cur i 0 j, hvpt]; rfl
    rw [Option.isNone_iff_eq_none] at hnone
    rw [hnone] at hsome
    cases hsome
  · have hpage := List.all_eq_true.1 hall j hj
    rw [hvpt, Option.all_some, hval] at hpage
    simpa using hpage

/-- `fork`, with what it needs. -/
private theorem fork_admitted {entry : Word} {r : Except Word Word} (h : Calling mc k cur)
    (hok : k.userAdmits cur (.fork entry) = true)
    (hf : k.fork entry cur = some (r, k')) : ∃ child, r = .ok child ∧ ForkSpec k cur entry child k' ∧ Calling mc k' cur := by
  simp only [userAdmits, Bool.and_eq_true, Bool.not_eq_true'] at hok
  obtain ⟨⟨⟨henv, hvm⟩, hnext⟩, hcounts⟩ := hok
  have hne : k.envFreeList ≠ [] := fun hnil => by simp [hnil] at henv
  exact forkSpec h (fun x hx => of_decide_eq_true (List.all_eq_true.1 hnext x hx)) hne hvm
    (fun v w => forkCounts_spec h.live hcounts) hf

private theorem store_boot (mc : Machine) (x : EnvPtr) (u : Vpn) : mc.bootKern.mem.store.map x u = none := by
  have hD : mc.bootKern.mem.dirs x = none := dirs_of_free (k := mc.bootKern) (e := x) rfl
  rw [Mem.store]
  dsimp only
  split
  case isTrue => simp [Mem.user, Mem.pte, hD]
  case isFalse => rfl

private theorem CowOk.boot (mc : Machine) : CowOk mc ⟨.user, mc.bootKern⟩ := by
  refine ⟨⟨_, .boot mc⟩, .boot mc, ⟨fun ha => ?_, fun ha => ?_, fun ha => ?_⟩⟩
  all_goals
    rw [store_boot] at ha
    cases ha

private theorem cowStep_cases (hs : s.cowStep ev = some s') : (∃ ev', ev = .kern ev' ∧ s.step ev' = some s') ∨
    ∃ cur k', s.kern.curenv = some cur ∧ s.kern.userCode cur ev = some k' ∧ s' = ⟨.user, k'⟩ := by
  unfold State.cowStep at hs
  split at hs
  case h_1 => exact .inl ⟨_, rfl, hs⟩
  case h_2 =>
    split at hs
    case h_1 =>
      obtain ⟨cur, hc, hs⟩ := Option.bind_eq_some_iff.1 hs
      obtain ⟨k', hk', rfl⟩ := Option.map_eq_some_iff.1 hs
      exact .inr ⟨cur, k', hc, hk', rfl⟩
    case h_2 => cases hs

private theorem cowOk_user (hok : s.cowOk ev = true) (hc : s.kern.curenv = some cur)
    (hs : s.kern.userCode cur ev = some k') :
    s.kern.userAdmits cur ev = true := by
  unfold State.cowOk at hok
  split at hok
  case h_1 => cases hs
  case h_2 =>
    rw [hc] at hok
    exact hok

/-- What user code does to the contents. -/
private theorem userCode_step (h : Calling mc s.kern cur) (hp : s.kern.mem.store.Private)
    (hok : s.kern.userAdmits cur ev = true)
    (hs : s.kern.userCode cur ev = some k') :
    CowOk mc ⟨.user, k'⟩ ∧ ∃ L, CowActs s ev L ∧ k'.mem.store.view = Spaces.run s.kern.mem.store.view L := by
  have hlive := h.live
  have hc := h.cur
  obtain ⟨leak, hm⟩ := h.mem
  cases ev with
  | kern ev => cases hs
  | store va w =>
    have hva : va < UTOP := of_decide_eq_true hok
    obtain ⟨m, rfl, hok', hw⟩ := storeWord_spec (m := s.kern.pm) hm.mem hlive hva hs
    exact ⟨.of_calling (h.setPm hok') (hw.isPrivate hp), _, .store hc, hw.apply_eq hp⟩
  | cow va =>
    simp only [userAdmits, Bool.and_eq_true, Bool.not_eq_true', Bool.or_eq_true, decide_eq_true_eq] at hok
    obtain ⟨⟨⟨hva, hne⟩, hmapped⟩, hfree⟩ := hok
    have hi : PDX va < PDX UTOP := by
      have hlt : PDX (ROUNDDOWN va BY2PG) < PDX UTOP := Mem.PDX_lt_of_lt (MemOk.lt_of_legal hva)
      rwa [show PDX (ROUNDDOWN va BY2PG) = PDX va from congrArg Prod.fst (VPN_ROUNDDOWN va)] at hlt
    obtain ⟨w, hw, -⟩ := frameAt_user hlive hmapped
    have hfree' : s.kern.pm.pageFreeList ≠ [] ∨ s.kern.mem.user cur (VPN UCOW) = none :=
      hfree.imp (fun hnil heq => by simp [heq] at hnil) fun hnone => frameAt_none hm hlive (by decide) hnone
    obtain ⟨m, rfl, ⟨leak', hok'⟩, hbreaks⟩ := cowEntry_spec (m := s.kern.pm) hm.mem hlive hva hne hw hfree' hs
    exact ⟨.of_calling (h.setPm hok') (hbreaks.renews.isPrivate hp), _, .cow hc, hbreaks.apply_eq⟩
  | dup child v =>
    simp only [userAdmits, Bool.and_eq_true, decide_eq_true_eq] at hok
    obtain ⟨hne, hmapped⟩ := hok
    have hs : s.kern.duppage cur child v = some k' := hs
    cases hva : isIllegalVa (pageVa v) with
    | true =>
      obtain rfl := duppage_illegal hva hs
      exact ⟨.of_calling h hp, [], .lost hc (.inl hva), rfl⟩
    | false =>
      obtain ⟨p, hframe, hmax⟩ := (Option.any_eq_true _ _).1 hmapped
      obtain ⟨w, hw, hframe'⟩ := frameAt_user hlive (by rw [hframe]; rfl)
      obtain rfl := Option.some.inj (hframe.symm.trans hframe')
      rw [VPN_pageVa] at hw
      obtain ⟨m, rfl, hdup⟩ := duppage_spec (m := s.kern.pm) hm.mem hlive hva hw hne (of_decide_eq_true hmax) hs
      obtain ⟨leak', hok'⟩ := hdup.ok
      rcases hdup.store with ⟨hdemotes, hfull⟩ | ⟨e, he, hcopies⟩
      · refine ⟨.of_calling (h.setPm hok') (hdemotes.isPrivate hp), [], .lost hc (.inr ?_), hdemotes.view_eq⟩
        cases he : s.kern.envid2env cur child true with
        | none => exact .inr rfl
        | some e => exact .inl (hfull e he).1
      · exact ⟨.of_calling (h.setPm hok') (hcopies.isPrivate hp), _, .dup hc he, hcopies.apply_eq⟩
  | fork entry =>
    obtain ⟨⟨r, k₁⟩, hf, rfl⟩ := Option.map_eq_some_iff.1 hs
    obtain ⟨child, -, hspec, hcall⟩ := fork_admitted h hok hf
    obtain ⟨L, hforks, -⟩ := hspec.pages
    exact ⟨.of_calling hcall (hspec.isPrivate hp), _, .fork hc hspec.slot L, hforks.apply_eq⟩

/-- Every environment has its own contents, and a step does to them what it may do. -/
private theorem CowOk.step (h : CowOk mc s) (hok : s.cowOk ev = true) (hs : s.cowStep ev = some s') :
    CowOk mc s' ∧ ∃ L, CowActs s ev L ∧ s'.kern.mem.store.view = Spaces.run s.kern.mem.store.view L := by
  rcases cowStep_cases hs with ⟨ev', rfl, hs⟩ | ⟨cur, k', hc, hcode, rfl⟩
  · obtain ⟨leak, hm⟩ := h.mem
    have hok : cowAdmits s ev' = true := hok
    obtain ⟨leak', hm', -⟩ := hm.step (State.step_cases hs) (memAdmits_of_cow hok) (.any s ev')
    obtain ⟨e, W, hren, hW⟩ := hm.step_renews hs hok
    exact ⟨⟨⟨leak', hm'⟩, h.ids.step (State.step_cases hs), hren.isPrivate h.isPrivate⟩, _, .kern hW _, hren.apply_eq⟩
  · exact userCode_step (h.calling hc) h.isPrivate (cowOk_user hok hc hcode) hcode

/-! ### Runs -/

/-- The step gives `e` another page at `v`. -/
def Replaced (e : EnvPtr) (v : Vpn) (p : State × CowEvent) : Prop :=
  match p.2 with
  | .kern ev => Remaps p.1 ev e v
  | .store _ _ => False
  | .cow _ => p.1.kern.curenv = some e ∧ v = VPN UCOW
  | .dup child u => u = v ∧ ∃ cur, p.1.kern.curenv = some cur ∧ p.1.kern.envid2env cur child true = some e
  | .fork _ => p.1.kern.envFreeList.head? = some e

/-- Stores, and copies that are made for them. -/
def CowEvent.writing : CowEvent → Bool
  | .store _ _ | .cow _ => true
  | _ => false

/-- Who writes replaces no page of another environment. -/
private theorem not_replaced {p : State × CowEvent} (hp : p.2.writing = true) (hc : p.1.kern.curenv = some cur)
    (hne : cur ≠ e) :
    ¬Replaced e v p := by
  obtain ⟨s, ev⟩ := p
  cases ev with
  | store va w => exact id
  | cow va =>
    rintro ⟨hcur, -⟩
    exact hne (Option.some.inj (hc.symm.trans hcur))
  | _ => cases hp

/-- What `e` stores to its page `v` in a step. -/
def ownStore (e : EnvPtr) (v : Vpn) (p : State × CowEvent) : Option ((Idx → Word) → Idx → Word) :=
  match p.2 with
  | .store va w =>
    if p.1.kern.curenv = some e ∧ VPN va = v then some fun f => Function.update f (wordIdx va) w else none
  | _ => none

private theorem CowActs.replaces {L : List (Act EnvPtr Vpn (Idx → Word))} (h : CowActs s ev L)
    (hr : ¬Replaced e v (s, ev)) :
    ∀ c ∈ L, ¬c.Replaces e v := by
  intro c hc
  cases h with
  | kern hW new =>
    obtain rfl := List.mem_singleton.1 hc
    rintro ⟨rfl, hv⟩
    exact hr (hW v hv)
  | store hcur =>
    obtain rfl := List.mem_singleton.1 hc
    exact id
  | cow hcur =>
    obtain rfl := List.mem_singleton.1 hc
    rintro ⟨rfl, hv⟩
    exact hr ⟨hcur, hv⟩
  | dup hcur he =>
    obtain rfl := List.mem_singleton.1 hc
    rintro ⟨rfl, hv⟩
    exact hr ⟨hv, _, hcur, he⟩
  | lost => cases hc
  | fork hcur he L =>
    obtain rfl := List.mem_singleton.1 hc
    rintro rfl
    exact hr he

private theorem CowActs.written {L : List (Act EnvPtr Vpn (Idx → Word))} (h : CowActs s ev L) :
    L.filterMap (Act.written e v) = (ownStore e v (s, ev)).toList := by
  cases h with
  | @store va w cur hcur =>
    by_cases heq : e = cur ∧ v = VPN va
    · obtain ⟨rfl, rfl⟩ := heq
      simp [Act.written, ownStore, hcur]
    · have hne : ¬(cur = e ∧ VPN va = v) := fun h => heq ⟨h.1.symm, h.2.symm⟩
      simp [Act.written, ownStore, hcur, heq, hne]
  | _ => rfl

private theorem acts_of_run {l : List (State × CowEvent)} {LL : List (List (Act EnvPtr Vpn (Idx → Word)))}
    (h : List.Forall₂ (fun p L => CowActs p.1 p.2 L) l LL) (hr : ∀ p ∈ l, ¬Replaced e v p) :
    (∀ c ∈ LL.flatten, ¬c.Replaces e v) ∧ LL.flatten.filterMap (Act.written e v) = l.filterMap (ownStore e v) := by
  induction h with
  | nil => exact ⟨fun _ hc => absurd hc List.not_mem_nil, rfl⟩
  | @cons p L l LL hp _ ih =>
    obtain ⟨hall, hwritten⟩ := ih fun q hq => hr q (List.mem_cons_of_mem p hq)
    constructor
    · intro c hc
      rw [List.flatten_cons, List.mem_append] at hc
      exact hc.elim (hp.replaces (hr p (List.mem_cons_self ..)) c) (hall c)
    · have hown : L.filterMap (Act.written e v) = (ownStore e v p).toList := hp.written
      rw [List.flatten_cons, List.filterMap_append, hown, hwritten]
      cases hs : ownStore e v p with
      | none => rw [List.filterMap_cons_none hs]; rfl
      | some f => rw [List.filterMap_cons_some hs]; rfl

/-- What a run does to the contents. -/
private theorem CowOk.run {l : List (State × CowEvent)} (h : CowOk mc s)
    (hl : cowKernel.Steps (fun s ev => s.cowOk ev = true) s l t) :
    CowOk mc t ∧ ∃ LL, List.Forall₂ (fun p L => CowActs p.1 p.2 L) l LL ∧
      t.kern.mem.store.view = Spaces.run s.kern.mem.store.view LL.flatten :=
  hl.simulates (I := CowOk mc) (V := fun s => s.kern.mem.store.view) (fun _ _ _ hI hok hs => hI.step hok hs) h

/-- A page that is not replaced. -/
private theorem CowOk.view_of_run {l : List (State × CowEvent)} (h : CowOk mc s)
    (hl : cowKernel.Steps (fun s ev => s.cowOk ev = true) s l t) (hr : ∀ p ∈ l, ¬Replaced e v p) :
    t.kern.mem.store.view e v =
      (s.kern.mem.store.view e v).map fun p => (l.filterMap (ownStore e v)).foldl (fun p f => f p) p := by
  obtain ⟨-, LL, hLL, hview⟩ := h.run hl
  obtain ⟨hkeep, hwritten⟩ := acts_of_run hLL hr
  rw [hview, Spaces.run_eq hkeep, hwritten]

end

variable {mc : Machine} {l l' : List (State × CowEvent)} {s s' t : State} {e e' : EnvPtr} {v v' : Vpn}

/-- An image with one page, which may be written. -/
def Image.onePage : Image where
  entry := UTEXT
  pages := [(UTEXT, PTE_V ||| PTE_D)]
  below p hp := by
    rw [List.mem_singleton.1 hp]
    decide
  perms p hp := .inr (congrArg Prod.snd (List.mem_singleton.1 hp))

/-- Two environments; the second one runs. -/
def twoPages : List CowEvent := (.create .onePage 1 :: .create .onePage 1 :: tickEvents).map .kern

private theorem twoPages_cond : (cowKernel.trace State.cowOk ⟨.user, Machine.gxemul.bootKern⟩ twoPages).any fun r =>
    (cowKernel.trace State.cowOk r.2 [.store UTEXT 5]).any fun r' =>
      (r'.1.all fun p => p.1.kern.curenv = some 1 && p.2.writing) &&
        (r'.2.kern.mem.user 1 (VPN UTEXT)).any fun w => has w PTE_D && !has w PTE_LIBRARY &&
          (r'.2.kern.mem.user 0 (VPN UTEXT)).isSome := by
  decide +kernel

private theorem forks_cond : (cowKernel.trace State.cowOk ⟨.user, Machine.gxemul.bootKern⟩ (twoPages ++ [.store UTEXT 5])).any fun r =>
    r.2.kern.curenv = some 1 && r.2.cowOk (.fork UTEXT) && (r.2.cowStep (.fork UTEXT)).any fun t =>
      !t.kern.pm.pageFreeList.isEmpty && (r.2.kern.mem.store.view 1 (VPN UTEXT)).any fun f => f 0 = 5 := by
  decide +kernel

end Mos
