import Mos.Inv.Core
import Mos.Inv.Nodes
import Mos.Kern.Args
import Mos.User.Signal

/-!
# The signal entry

`_do_signal` panics on a signal for an environment without an entry, and `sys_kill` panics when there is no node left.
The library installs the entry, but `kill` looks at the entry of the sender: neither happens in a run in which every
signal that is not going to be thrown away is sent to an environment whose entry is installed, with a node left for it
(`entryAdmits`).
-/

namespace Mos

open Kern

/-! ### What the steps of the kernel do to entries and handlers -/

/-- The fields that decide what becomes of a signal once it is not blocked. -/
def Env.sig (env : Env) : Word × (Fin 64 → Sigaction) := (env.doSignalEntry, env.sighandlerTable)

/-- The signal that a node for the number `signo` stands for. -/
def sentSignal (signo : Word) : Option Nat := (SignoNode.mk (signo.setWidth 8) none).signal

def Call.changesSig : Call → Bool
  | .sigaction .. | .setSigEntry .. | .exofork => true
  | _ => false

variable {k k' : Kern} {cur e : EnvPtr} {free : List SignoPtr} {pend : EnvPtr → List SignoPtr}

private theorem sig_schedule {yield : Bool} (hs : k.schedule yield = some k') (e : EnvPtr) :
    (k'.envs e).sig = (k.envs e).sig := by
  obtain ⟨q, n, e', -, rfl, -⟩ := schedule_cases hs
  exact running_field Env.sig (fun _ _ => rfl) (fun _ _ => rfl) k q n e' e

private theorem sig_pageInsertEnv {e' : EnvPtr} {pp : Nat} {va perm r : Word}
    (hi : k.pageInsertEnv e' pp va perm = some (r, k')) : k'.envs = k.envs ∧ k'.signos = k.signos := by
  obtain ⟨_, pm, _, _, rfl⟩ := pageInsertEnv_cases hi
  exact ⟨rfl, rfl⟩

private theorem sig_setTf (k : Kern) (cur e' : EnvPtr) (frame : Trapframe) (e : EnvPtr) :
    ((k.setTf cur e' frame).envs e).sig = (k.envs e).sig := by
  unfold Kern.setTf
  split
  · rfl
  · exact setEnv_field Env.sig (by rfl) e

private theorem sig_pended {signo : Word} {n : SignoPtr} {k₁ : Kern} (hn : k.signoAlloc signo = some (n, k₁))
    (e' e : EnvPtr) :
    ((k₁.pended e' n).envs e).sig = (k.envs e).sig := by
  obtain ⟨-, rfl⟩ := signoAlloc_cases hn
  exact setEnv_field Env.sig (by rfl) e

/-- Most calls change neither an entry nor a handler. -/
private theorem sig_call {call : Call} {r : Option Word} (hs : CallStep k cur call k' r) (hc : call.changesSig = false)
    (e : EnvPtr) : (k'.envs e).sig = (k.envs e).sig := by
  cases hs with
  | unchanged => rfl
  | yield hs => exact sig_schedule hs e
  | @envDestroy _ e' _ _ _ hd =>
    obtain ⟨k₁, hk₁, hd⟩ := envDestroy_cases hd
    obtain ⟨pgdir, pm, q, -, -, -, rfl⟩ := envFree_cases hk₁
    have hfreed : ((k.freed e' pm q).envs e).sig = (k.envs e).sig := setEnv_field Env.sig (by rfl) e
    rcases hd with ⟨-, -, hs⟩ | ⟨-, -, rfl⟩
    · exact (sig_schedule hs e).trans hfreed
    · exact hfreed
  | setTlbModEntry => exact setEnv_field Env.sig (by rfl) e
  | memAlloc _ _ _ hi => rw [(sig_pageInsertEnv hi).1]; rfl
  | memMap _ _ _ _ _ hi => rw [(sig_pageInsertEnv hi).1]
  | memUnmap => rfl
  | exofork => cases hc
  | setEnvStatus _ _ hs =>
    obtain ⟨q, -, rfl⟩ := Option.map_eq_some_iff.1 hs
    exact setEnv_field Env.sig (by rfl) e
  | setTrapframe => exact sig_setTf k cur _ _ e
  | ipcWoken => exact setEnv_field Env.sig (by rfl) e
  | ipcPage _ _ _ _ _ _ hi =>
    rw [(sig_pageInsertEnv hi).1]
    exact setEnv_field Env.sig (by rfl) e
  | ipcRecv _ hs => exact (sig_schedule hs e).trans (setEnv_field Env.sig (by rfl) e)
  | sigaction => cases hc
  | sigprocmask => exact setEnv_field Env.sig (by rfl) e
  | kill _ hn => exact sig_pended hn _ e
  | @backDoSignal _ _ _ _ e' frame => exact (setEnv_field Env.sig (by rfl) e).trans (sig_setTf k cur e' frame e)
  | setSigEntry => cases hc

/-- The slot `e` is handed out; the other environments keep their entries and handlers. -/
structure NewSig (k : Kern) (e : EnvPtr) (k' : Kern) : Prop where
  head : k.envFreeList.head? = some e
  sig : ∀ e', e' ≠ e → (k'.envs e').sig = (k.envs e').sig

private theorem NewSig.alloc {parentId : Word} (ha : k.envAlloc parentId = some (e, k')) : NewSig k e k' := by
  obtain ⟨rest, pgdir, pm, asid, bitmap, hl, -, -, rfl⟩ := envAlloc_cases ha
  refine ⟨by rw [hl]; rfl, fun e' he' => ?_⟩
  rw [allocated, setEnv_of_ne he']
  rfl

private theorem NewSig.setEnv (h : NewSig k e k') (f : Env → Env) : NewSig k e (k'.setEnv e f) := by
  refine ⟨h.head, fun e' he' => ?_⟩
  rw [setEnv_of_ne he']
  exact h.sig e' he'

private theorem NewSig.create {binary : Image} {priority : Word} (hc : k.envCreate binary priority = some k') :
    ∃ e, NewSig k e k' := by
  obtain ⟨e, k₁, pgdir, pm, ha, -, -, rfl⟩ := envCreate_cases hc
  have h := NewSig.alloc ha
  have hpm : NewSig k e (k₁.setPm pm) := ⟨h.head, h.sig⟩
  have hset := hpm.setEnv fun env => { env with
    envPri := priority, envStatus := .RUNNABLE, envTf := { env.envTf with cp0Epc := binary.entry } }
  exact ⟨e, hset.head, hset.sig⟩

/-- The nodes on the lists `pend'` were on `pend` and are as they were, or they are for a signal that was `sent`. -/
def PendStep (k k' : Kern) (pend pend' : EnvPtr → List SignoPtr) (sent : EnvPtr → Word → Prop) : Prop :=
  ∀ e, ∀ n ∈ pend' e, (n ∈ pend e ∧ (k'.signos n).signo = (k.signos n).signo) ∨
    ∃ signo, sent e signo ∧ (k'.signos n).signo = signo.setWidth 8

private theorem PendStep.same {sent : EnvPtr → Word → Prop} (hs : SameNodes k k') : PendStep k k' pend pend sent :=
  fun _ _ hn => .inl ⟨hn, by rw [hs.signos]⟩

private theorem PendStep.trans {k₁ : Kern} {pend' : EnvPtr → List SignoPtr} {sent : EnvPtr → Word → Prop}
    (h : PendStep k k₁ pend pend' sent) (hs : SameNodes k₁ k') : PendStep k k' pend pend' sent := by
  intro e n hn
  rw [hs.signos]
  exact h e n hn

/-- The node for a new signal comes from the free list, so it is on no pending list before. -/
private theorem PendStep.kill {signo : Word} {n : SignoPtr} {k₁ : Kern} {sent : EnvPtr → Word → Prop}
    (h : NodesOk k free pend)
    (hn : k.signoAlloc signo = some (n, k₁)) (hsent : sent e signo) :
    PendStep k (k₁.pended e n) pend (Function.update pend e (n :: pend e)) sent := by
  obtain ⟨hfl, rfl⟩ := signoAlloc_cases hn
  have hmem : n ∈ free := by
    cases free with
    | nil => exact absurd (hfl.symm.trans h.free_list) nofun
    | cons n' free' =>
      obtain rfl : n = n' := Option.some.inj (hfl.symm.trans h.free_list.1)
      exact List.mem_cons_self ..
  have hsigno : ∀ k₂ : Kern, ∀ m, ((k₂.pended e n).signos m).signo = (k₂.signos m).signo := fun k₂ m => by
    show ((k₂.setNext n _).signos m).signo = _
    exact setNext_signo k₂ n m _
  have hother : ∀ e', ∀ m ∈ pend e', ((k.setSignos (Function.update k.signos n
      { k.signos n with signo := signo.setWidth 8 }) (k.signos n).next).signos m).signo = (k.signos m).signo := by
    intro e' m hm
    have hne : m ≠ n := by
      rintro rfl
      exact h.disjoint_free e' m hm hmem
    rw [setSignos_signos, Function.update_of_ne hne]
  intro e' m hm
  rw [hsigno]
  by_cases heq : e' = e
  · subst heq
    rw [Function.update_self] at hm
    rcases List.mem_cons.1 hm with rfl | hm
    · refine .inr ⟨signo, hsent, ?_⟩
      rw [setSignos_signos, Function.update_self]
    · exact .inl ⟨hm, hother e' m hm⟩
  · rw [Function.update_of_ne heq] at hm
    exact .inl ⟨hm, hother e' m hm⟩

private theorem PendStep.drop {e : EnvPtr} {sent : EnvPtr → Word → Prop} (hs : k'.signos = k.signos) :
    PendStep k k' pend (Function.update pend e []) sent := by
  intro e' n hn
  by_cases heq : e' = e
  · rw [heq, Function.update_self] at hn
    cases hn
  · rw [Function.update_of_ne heq] at hn
    exact .inl ⟨hn, by rw [hs]⟩

/-- The signals that a call sends. -/
def Kern.sends (k : Kern) (cur : EnvPtr) (c : Call) (e : EnvPtr) (signo : Word) : Prop :=
  ∃ envid, c = .kill envid signo ∧ k.envid2env cur envid false = some e

private theorem pend_call {c : Call} {r : Option Word} (h : NodesOk k free pend) (hlive : LiveOk k)
    (hcur : k.curenv = some cur) (hs : CallStep k cur c k' r) :
    ∃ free' pend', NodesOk k' free' pend' ∧ PendStep k k' pend pend' (k.sends cur c) := by
  have hlive_cur := hlive.cur cur hcur
  rcases SameNodes.call hlive hcur hs with ⟨hsame, -⟩ | ⟨envid, signo, e, n, k₁, rfl, he, hn, rfl⟩ |
    ⟨envid, e, left, rfl, he, hd⟩
  · exact ⟨free, pend, h.same hsame, .same hsame⟩
  · obtain ⟨free', rfl, h'⟩ := h.kill (envid2env_live hlive_cur he) hn
    exact ⟨free', _, h', .kill h hn ⟨envid, rfl, he⟩⟩
  · refine ⟨free, _, h.destroy hd, .drop ?_⟩
    obtain ⟨k₁, hk₁, hd⟩ := envDestroy_cases hd
    obtain ⟨pgdir, pm, q, -, -, -, rfl⟩ := envFree_cases hk₁
    rcases hd with ⟨-, -, hs⟩ | ⟨-, -, rfl⟩
    · exact (SameNodes.schedule hs).signos
    · rfl

/-- A store or a load below `UTEMP` to a page that is not mapped sends `SIGSEGV`. -/
def State.faults (s : State) (e : EnvPtr) (signo : Word) : Prop :=
  ∃ va, s.phase = .entered (.tlbMiss va) ∧ s.kern.curenv = some e ∧ va < UTEMP ∧
    s.kern.pageLookupEnv e va = some none ∧ signo = BitVec.ofNat 32 SIGSEGV

/-- The other steps than calls and `env_create` keep entries and handlers, and send at most that signal. -/
private theorem quiet_step {s s' : State} {ev : Event} (h : NodesOk s.kern free pend) (hlive : LiveOk s.kern)
    (hs : Step s ev s') (hcall : s.call ev = none) (hev : ∀ binary priority, ev ≠ .create binary priority) :
    (∀ e, (s'.kern.envs e).sig = (s.kern.envs e).sig) ∧
      ∃ free' pend', NodesOk s'.kern free' pend' ∧ PendStep s.kern s'.kern pend pend' s.faults := by
  have hsame : ∀ {k k' : Kern}, NodesOk k free pend → SameNodes k k' →
      ∃ free' pend', NodesOk k' free' pend' ∧ PendStep k k' pend pend' s.faults :=
    fun h hs => ⟨free, pend, h.same hs, .same hs⟩
  cases hs with
  | create => exact absurd rfl (hev _ _)
  | evict k => exact ⟨fun _ => rfl, hsame h (.setPm k _)⟩
  | @idle k => exact ⟨fun _ => rfl, hsame h (.refl k)⟩
  | @save k u => exact ⟨fun _ => rfl, hsame h ((SameNodes.setUmem k _).trans (.setKtf _ _))⟩
  | tick hs => exact ⟨sig_schedule hs, hsame h (.schedule hs)⟩
  | @noSys k => exact ⟨fun _ => rfl, hsame h (.setKtf k _)⟩
  | call _ hc hd => simp [State.call, hc, hd] at hcall
  | left _ hc hd => simp [State.call, hc, hd] at hcall
  | @tlbMiss k k₁ c va pgdir pp ptr hc _ hs =>
    cases hs with
    | mapped => exact ⟨fun _ => rfl, hsame h (.setPm k _)⟩
    | @alloc pgdir₀ _ hp hl ha =>
      obtain ⟨k₀, pp, pm, hsegv, -, -, hi⟩ := passiveAlloc_cases ha
      have hpm : SameNodes k₀ (k₁.tlbWrite c va (k₁.pm.word ptr.1 ptr.2)) :=
        ((SameNodes.setPm k₀ pm).trans (SameNodes.pageInsertEnv hi)).trans (.setPm _ _)
      have henvs : k₁.envs = k₀.envs := (sig_pageInsertEnv hi).1
      cases hsegv with
      | none => exact ⟨fun e => congrArg (fun f => (f e).sig) henvs, hsame h hpm⟩
      | sent hva hn =>
        refine ⟨fun e => (congrArg (fun f => (f e).sig) henvs).trans (sig_pended hn c e), ?_⟩
        obtain ⟨free', rfl, h'⟩ := h.kill (hlive.cur c hc) hn
        refine ⟨free', _, h'.same hpm, (PendStep.kill h hn ⟨va, rfl, hc, hva, ?_, rfl⟩).trans hpm⟩
        rw [pageLookupEnv, hp, Option.bind_some, hl]
        rfl
  | @tlbMod k => exact ⟨fun _ => rfl, hsame h ((SameNodes.setUmem k _).trans (.setKtf _ _))⟩
  | @ret k k₁ c returned tf hc hd =>
    have hlive_c := hlive.cur c hc
    have hstore : SameNodes k₁ (k₁.storeTf c returned tf) := by
      unfold storeTf
      split
      · exact .setKtf _ _
      · exact .setEnv_same rfl rfl
    have hsig : ∀ e, ((k₁.storeTf c returned tf).envs e).sig = (k₁.envs e).sig := by
      intro e
      unfold storeTf
      split
      · rfl
      · exact setEnv_field Env.sig (by rfl) e
    refine ⟨fun e => (hsig e).trans ((doSignal_frame hd).1.field Env.sig (fun _ _ _ => rfl) e), ?_⟩
    refine ⟨_, _, (h.doSignal hlive_c hd).same (hstore.trans (.setCpu _ _)), ?_⟩
    refine PendStep.trans ?_ (hstore.trans (.setCpu _ _))
    -- What is pending after the scan was pending before, and its node has kept its number.
    obtain ⟨s, hs, hd⟩ := doSignal_cases hd
    have hscan := h.scanned hlive_c hs
    have hsigno : ∀ n, (k₁.signos n).signo = (k.signos n).signo := by
      intro n
      rcases hd with ⟨-, rfl, -⟩ | ⟨signo, -, hpush⟩
      · exact hscan.signo n
      · obtain ⟨-, -, m, rfl⟩ := pushSignal_cases hpush
        exact hscan.signo n
    intro e n hn
    refine .inl ⟨?_, hsigno n⟩
    by_cases heq : e = c
    · rw [heq, Function.update_self] at hn
      have hkept := NodesOk.scannedList_subset hn
      rw [heq]
      exact (sift_perm (k.nodeBlocked c) (k.nodeIgnored c) (pend c)).mem_iff.1 (List.mem_append_left _ hkept)
    · rwa [Function.update_of_ne heq] at hn

/-- What a call does, in terms of the state before and after the step. -/
private theorem step_call {s s' : State} {ev : Event} {c : Call} (hcall : s.call ev = some (cur, c))
    (hs : s.step ev = some s') : ∃ junk k₁ r, s.kern.curenv = some cur ∧
      s.kern.skipInsn.call cur junk c = some (k₁, r) ∧ SameNodes k₁ s'.kern ∧ s'.kern.envs = k₁.envs := by
  obtain ⟨junk, k₁, r, -, hcur, -, hk₁, hs'⟩ := State.call_cases hcall hs
  refine ⟨junk, k₁, r, hcur, hk₁, ?_⟩
  cases r with
  | none =>
    obtain rfl : s'.kern = k₁ := hs'
    exact ⟨.refl _, rfl⟩
  | some v =>
    have hs' : s'.kern = k₁.setV0 v := hs'
    rw [hs']
    exact ⟨.setKtf k₁ _, rfl⟩

/-! ### The invariant -/

/-- The entry of `e`, which is to be `w`, is installed, or the signal of the node `n` is going to be thrown away. -/
def Kern.Answered (k : Kern) (w : Word) (e : EnvPtr) (n : SignoPtr) : Prop :=
  (k.envs e).doSignalEntry = w ∨ ∀ signo, (k.signos n).signal = some signo → (k.envs e).ignored signo = true

private theorem Kern.Answered.congr {w : Word} {n : SignoPtr} (h : k.Answered w e n)
    (hsig : (k'.envs e).sig = (k.envs e).sig)
    (hn : (k'.signos n).signo = (k.signos n).signo) : k'.Answered w e n := by
  have hentry : (k'.envs e).doSignalEntry = (k.envs e).doSignalEntry := congrArg Prod.fst hsig
  have htable : (k'.envs e).sighandlerTable = (k.envs e).sighandlerTable := congrArg Prod.snd hsig
  refine h.imp (fun h => hentry.trans h) fun h signo hs => ?_
  rw [ignored_congr htable]
  refine h signo ?_
  rwa [SignoNode.signal, hn] at hs

/-- What a library function has still to do, in an environment with the entry `entry` and `do_signal` at `w`: it
installs `w`, and before it sets a handler. -/
structure FrameOk (w entry : Word) (fr : List Call) : Prop where
  own : ∀ envid w', .setSigEntry envid w' ∈ fr → w' = w
  handler : ∀ signo act oldact, .sigaction signo act oldact ∈ fr → entry = w ∨ fr.head? = some (.setSigEntry 0 w)

namespace FrameOk

variable {w entry : Word} {call : Call} {fr : List Call}

private theorem nil (w entry : Word) : FrameOk w entry [] := ⟨nofun, nofun⟩

/-- With the entry installed, only `own` matters. -/
private theorem installed (h : FrameOk w entry fr) : FrameOk w w fr := ⟨h.own, fun _ _ _ _ => .inl rfl⟩

private theorem tail (h : FrameOk w entry (call :: fr)) (hc : ∀ w', call ≠ .setSigEntry 0 w') : FrameOk w entry fr := by
  refine ⟨fun envid w' hm => h.own envid w' (List.mem_cons_of_mem _ hm), fun signo act oldact hm => ?_⟩
  refine (h.handler signo act oldact (List.mem_cons_of_mem _ hm)).imp_right fun hhead => ?_
  exact absurd (Option.some.inj hhead) (hc w)

/-- A call `last` after the entry was installed in `envid`, where the library found another one, `x`. -/
private theorem install_last {x envid : Word} {last : Call} (hset : ∀ envid' w', last ≠ .setSigEntry envid' w')
    (hact : (∃ signo act oldact, last = .sigaction signo act oldact) → envid = 0 ∧ (x ≠ w ∨ entry = w)) :
    FrameOk w entry (install w x envid ++ [last]) := by
  constructor
  · intro envid' w' hm
    rcases List.mem_append.1 hm with hm | hm
    · unfold install at hm
      split at hm
      · exact (Call.setSigEntry.inj (List.mem_singleton.1 hm)).2
      · cases hm
    · exact absurd (List.mem_singleton.1 hm).symm (hset envid' w')
  · intro signo act oldact hm
    have hlast : last = .sigaction signo act oldact := by
      rcases List.mem_append.1 hm with hm | hm
      · unfold install at hm
        split at hm
        · exact absurd (List.mem_singleton.1 hm) nofun
        · cases hm
      · exact (List.mem_singleton.1 hm).symm
    obtain ⟨rfl, hx | hentry⟩ := hact ⟨signo, act, oldact, hlast⟩
    · exact .inr (by rw [install, if_pos hx]; rfl)
    · exact .inl hentry

/-- The functions of the library look at the entry first; `x` is what they find. -/
private theorem calls {x : Word} (f : LibCall) (h : (∃ signo act oldact, f = .sigaction signo act oldact) → x ≠ w ∨ entry = w) :
    FrameOk w entry (f.calls w x) := by
  cases f with
  | sigaction signo act oldact =>
    rw [LibCall.calls]
    split
    · exact nil w entry
    · exact install_last nofun fun _ => ⟨rfl, h ⟨signo, act, oldact, rfl⟩⟩
  | kill envid signo =>
    rw [LibCall.calls]
    split
    · exact nil w entry
    · exact install_last nofun nofun
  | sigprocmask how set oldset =>
    rw [LibCall.calls]
    split
    · exact nil w entry
    · exact install_last nofun nofun

end FrameOk

/-- Every pending signal is answered, and the library functions in progress are going to install what they need. -/
structure EntryOk (S : LibState) (pend : EnvPtr → List SignoPtr) : Prop where
  answered : ∀ e, ∀ n ∈ pend e, S.sys.kern.Answered (S.doSignal e) e n
  frames : ∀ e, ∀ fr ∈ S.todo e, FrameOk (S.doSignal e) (S.sys.kern.envs e).doSignalEntry fr

/-! ### Runs -/

/-- There is a node for the signal, and it is answered. -/
def LibState.sendOk (S : LibState) (e : EnvPtr) (signo : Word) : Bool :=
  S.sys.kern.signoFreeList.isSome &&
    ((S.sys.kern.envs e).doSignalEntry = S.doSignal e || (sentSignal signo).all (S.sys.kern.envs e).ignored)

/-- A call for the library: a signal is sent as it should be, an entry is installed in an environment that runs the
same program, and no environment forks in the middle of a library function. -/
def callEntryAdmits (S : LibState) (cur : EnvPtr) : Call → Bool
  | .kill envid signo => (S.sys.kern.envid2env cur envid false).all fun e => S.sendOk e signo
  | .setSigEntry envid _ => (S.sys.kern.envid2env cur envid false).all fun e => S.doSignal e = S.doSignal cur
  | .exofork => (S.todo cur).all List.isEmpty
  | _ => true

/-- A fault below `UTEMP` sends a signal too. -/
def faultAdmits (S : LibState) : Bool :=
  match S.sys.phase with
  | .entered (.tlbMiss va) => S.sys.kern.curenv.all fun c =>
    !(va < UTEMP && S.sys.kern.pageLookupEnv c va = some none) || S.sendOk c (BitVec.ofNat 32 SIGSEGV)
  | _ => true

/-- The entry that `sigaction` looks at is its own, or tells the same about it. -/
def entryAdmits (S : LibState) : LibEvent → Bool
  | .enter (.sigaction ..) => S.running.all fun c =>
    (S.sys.kern.envs (S.envVar c)).doSignalEntry ≠ S.doSignal c || (S.sys.kern.envs c).doSignalEntry = S.doSignal c
  | .kern ev =>
    match S.sys.call ev with
    | some (cur, c) => callEntryAdmits S cur c
    | none => faultAdmits S
  | _ => true

/-- The kernel does not panic for want of a node, and a signal that `_do_signal` selects finds the entry. -/
structure SignalSafe (S : LibState) : Prop where
  kill : ∀ cur envid signo, S.sys.call .handle = some (cur, .kill envid signo) →
    S.sys.kern.skipInsn.sysKill cur envid signo ≠ none
  fault : ∀ e signo, S.sys.faults e signo → S.sys.kern.sysKill e 0 signo ≠ none
  entry : ∀ returned c s, S.sys.phase = .leaving returned → S.sys.kern.curenv = some c →
    scan c (MAX_SIG_NUM + 1) S.sys.kern none (S.sys.kern.envs c).signoHeader = some s → s.found ≠ none →
      (S.sys.kern.envs c).doSignalEntry = S.doSignal c

/-! ### The invariant is preserved -/

private theorem take_cases {todo todo' : EnvPtr → List (List Call)} {c : Call} (h : LibState.take todo cur c = some todo') :
    (c.ofLibrary = false ∧ todo' = todo) ∨
      ∃ fr rest, todo cur = (c :: fr) :: rest ∧ todo' = Function.update todo cur (fr :: rest) := by
  unfold LibState.take at h
  split at h
  case isFalse hc => exact .inl ⟨by simpa using hc, (Option.some.inj h).symm⟩
  case isTrue =>
    split at h
    case h_2 => cases h
    case h_1 c' fr rest hcur =>
      split at h
      case isFalse => cases h
      case isTrue hc =>
        obtain rfl : c' = c := hc
        exact .inr ⟨fr, rest, hcur, (Option.some.inj h).symm⟩

namespace EntryOk

variable {S S' : LibState} {pend' : EnvPtr → List SignoPtr}

/-- A signal that may be sent is answered. -/
private theorem answered_of_sendOk {signo : Word} {n : SignoPtr} (h : S.sendOk e signo)
    (hn : (k'.signos n).signo = signo.setWidth 8) (hsig : (k'.envs e).sig = (S.sys.kern.envs e).sig) :
    k'.Answered (S.doSignal e) e n := by
  have hsignal : (k'.signos n).signal = sentSignal signo := by rw [SignoNode.signal, hn]; rfl
  have hentry : (k'.envs e).doSignalEntry = (S.sys.kern.envs e).doSignalEntry := congrArg Prod.fst hsig
  have htable : (k'.envs e).sighandlerTable = (S.sys.kern.envs e).sighandlerTable := congrArg Prod.snd hsig
  simp only [LibState.sendOk, Bool.and_eq_true, Bool.or_eq_true, decide_eq_true_eq] at h
  rcases h.2 with h | h
  · exact .inl (hentry.trans h)
  · refine .inr fun signo' hs => ?_
    rw [hsignal] at hs
    rw [ignored_congr htable]
    simpa [hs] using h

/-- Steps that keep the entries and the handlers, and send only what may be sent. -/
private theorem of_sig {sent : EnvPtr → Word → Prop} (h : EntryOk S pend)
    (hsig : ∀ e, (S'.sys.kern.envs e).sig = (S.sys.kern.envs e).sig)
    (hpend : PendStep S.sys.kern S'.sys.kern pend pend' sent) (hsent : ∀ e signo, sent e signo → S.sendOk e signo)
    (hD : S'.doSignal = S.doSignal)
    (hframes : ∀ e, ∀ fr ∈ S'.todo e, FrameOk (S.doSignal e) (S.sys.kern.envs e).doSignalEntry fr) :
    EntryOk S' pend' := by
  constructor
  · intro e n hn
    rw [hD]
    rcases hpend e n hn with ⟨hmem, hsigno⟩ | ⟨signo, hs, hsigno⟩
    · exact (h.answered e n hmem).congr (hsig e) hsigno
    · exact answered_of_sendOk (hsent e signo hs) hsigno (hsig e)
  · intro e fr hfr
    have hentry : (S'.sys.kern.envs e).doSignalEntry = (S.sys.kern.envs e).doSignalEntry := congrArg Prod.fst (hsig e)
    rw [hD, hentry]
    exact hframes e fr hfr

/-- The frames of the environments after `cur` made the next call of its innermost function. -/
private theorem frames_pop {c : Call} {fr : List Call} {rest : List (List Call)} (h : EntryOk S pend)
    (hcur : S.todo cur = (c :: fr) :: rest)
    (hpop : FrameOk (S.doSignal cur) (S.sys.kern.envs cur).doSignalEntry fr) (e : EnvPtr) :
    ∀ fr' ∈ Function.update S.todo cur (fr :: rest) e,
      FrameOk (S.doSignal e) (S.sys.kern.envs e).doSignalEntry fr' := by
  intro fr' hfr'
  by_cases heq : e = cur
  · subst heq
    rw [Function.update_self] at hfr'
    rcases List.mem_cons.1 hfr' with rfl | hfr'
    · exact hpop
    · exact h.frames e fr' (by rw [hcur]; exact List.mem_cons_of_mem _ hfr')
  · rw [Function.update_of_ne heq] at hfr'
    exact h.frames e fr' hfr'

/-- The frame that a call is taken from. -/
private theorem frame_head {c : Call} {fr : List Call} {rest : List (List Call)} (h : EntryOk S pend)
    (hcur : S.todo cur = (c :: fr) :: rest) :
    FrameOk (S.doSignal cur) (S.sys.kern.envs cur).doSignalEntry (c :: fr) :=
  h.frames cur _ (by rw [hcur]; exact List.mem_cons_self ..)

/-- A call that touches neither entries nor handlers. -/
private theorem call_same {c : Call} {todo' : EnvPtr → List (List Call)} {s' : State} {sent : EnvPtr → Word → Prop}
    (h : EntryOk S pend) (htake : LibState.take S.todo cur c = some todo') (hc : c.changesSig = false)
    (hsig : ∀ e, (s'.kern.envs e).sig = (S.sys.kern.envs e).sig)
    (hpend : PendStep S.sys.kern s'.kern pend pend' sent) (hsent : ∀ e signo, sent e signo → S.sendOk e signo) :
    EntryOk { S with sys := s', todo := todo' } pend' := by
  refine h.of_sig hsig hpend hsent rfl ?_
  rcases take_cases htake with ⟨-, rfl⟩ | ⟨fr, rest, hcur, rfl⟩
  · exact h.frames
  · refine h.frames_pop hcur ((h.frame_head hcur).tail fun w' heq => ?_)
    subst heq
    cases hc

/-- `sys_sigaction` sets a handler only where the entry is installed. -/
private theorem call_sigaction {signo act oldact : Word} {r : Option Word} {todo' : EnvPtr → List (List Call)} {s' : State}
    (h : EntryOk S pend) (htake : LibState.take S.todo cur (.sigaction signo act oldact) = some todo')
    (hs : CallStep S.sys.kern.skipInsn cur (.sigaction signo act oldact) k' r) (henvs : s'.kern.envs = k'.envs)
    (hsignos : s'.kern.signos = S.sys.kern.signos) : EntryOk { S with sys := s', todo := todo' } pend := by
  obtain ⟨fr, rest, hcur, rfl⟩ : ∃ fr rest, S.todo cur = (.sigaction signo act oldact :: fr) :: rest ∧
      todo' = Function.update S.todo cur (fr :: rest) :=
    (take_cases htake).resolve_left fun hfree => Bool.noConfusion hfree.1
  have hhead := h.frame_head hcur
  have hentry : (S.sys.kern.envs cur).doSignalEntry = S.doSignal cur :=
    (hhead.handler signo act oldact (List.mem_cons_self ..)).resolve_right fun hno => nomatch Option.some.inj hno
  -- only the handlers of the caller change
  have hother : ∀ e, (s'.kern.envs e).doSignalEntry = (S.sys.kern.envs e).doSignalEntry ∧
      (e ≠ cur → (s'.kern.envs e).sig = (S.sys.kern.envs e).sig) := by
    intro e
    rw [henvs]
    cases hs with
    | unchanged => exact ⟨rfl, fun _ => rfl⟩
    | sigaction =>
      refine ⟨setEnv_field Env.doSignalEntry (by rfl) e, fun he => ?_⟩
      rw [setEnv_of_ne he]
      rfl
  constructor
  · intro e n hn
    by_cases heq : e = cur
    · subst heq
      exact .inl ((hother e).1.trans hentry)
    · exact (h.answered e n hn).congr ((hother e).2 heq) (by rw [hsignos])
  · intro e fr' hfr'
    show FrameOk _ (s'.kern.envs e).doSignalEntry fr'
    rw [(hother e).1]
    exact h.frames_pop hcur (hhead.tail nofun) e fr' hfr'

private theorem sysSetSigEntry_cases {envid entry : Word} {r : Option Word}
    (h : k.sysSetSigEntry cur envid entry = some (k', r)) :
    (k.envid2env cur envid false = none ∧ k' = k) ∨ ∃ e, k.envid2env cur envid false = some e ∧
      k' = k.setEnv e fun env => { env with doSignalEntry := entry } := by
  unfold sysSetSigEntry at h
  split at h
  case h_1 he => exact .inl ⟨he, (congrArg Prod.fst (Option.some.inj h)).symm⟩
  case h_2 e he => exact .inr ⟨e, he, (congrArg Prod.fst (Option.some.inj h)).symm⟩

/-- `sys_set_sig_entry` installs the right entry. -/
private theorem call_setSigEntry {envid entry : Word} {r : Option Word} {todo' : EnvPtr → List (List Call)} {s' : State}
    (h : EntryOk S pend) (htake : LibState.take S.todo cur (.setSigEntry envid entry) = some todo')
    (hok : (S.sys.kern.envid2env cur envid false).all fun e => S.doSignal e = S.doSignal cur)
    (hs : S.sys.kern.skipInsn.sysSetSigEntry cur envid entry = some (k', r)) (henvs : s'.kern.envs = k'.envs)
    (hsignos : s'.kern.signos = S.sys.kern.signos) : EntryOk { S with sys := s', todo := todo' } pend := by
  obtain ⟨fr, rest, hcur, rfl⟩ : ∃ fr rest, S.todo cur = (.setSigEntry envid entry :: fr) :: rest ∧
      todo' = Function.update S.todo cur (fr :: rest) :=
    (take_cases htake).resolve_left fun hfree => Bool.noConfusion hfree.1
  have hhead := h.frame_head hcur
  have hown : entry = S.doSignal cur := hhead.own envid entry (List.mem_cons_self ..)
  -- the target of the call has its entry afterwards, and nothing else changes
  have hset : ∀ e, (s'.kern.envs e).sig = (S.sys.kern.envs e).sig ∨
      (s'.kern.envs e).doSignalEntry = S.doSignal e := by
    intro e
    rw [henvs]
    rcases sysSetSigEntry_cases hs with ⟨-, rfl⟩ | ⟨e', he, rfl⟩
    · exact .inl rfl
    · by_cases heq : e = e'
      · subst heq
        have he : S.sys.kern.envid2env cur envid false = some e := he
        have hprog : S.doSignal e = S.doSignal cur := by simpa [he] using hok
        refine .inr ?_
        rw [setEnv_self, hown, hprog]
      · exact .inl (by rw [setEnv_of_ne heq]; rfl)
  have hself : envid = 0 → (s'.kern.envs cur).doSignalEntry = S.doSignal cur := by
    rintro rfl
    rw [henvs]
    rcases sysSetSigEntry_cases hs with ⟨hnone, -⟩ | ⟨e', he, rfl⟩
    · cases hnone
    · obtain rfl : cur = e' := Option.some.inj he
      rw [setEnv_self, hown]
  have hkeep : ∀ e fr', FrameOk (S.doSignal e) (S.sys.kern.envs e).doSignalEntry fr' →
      FrameOk (S.doSignal e) (s'.kern.envs e).doSignalEntry fr' := by
    intro e fr' hfr'
    rcases hset e with hsig | hentry
    · have hentry : (s'.kern.envs e).doSignalEntry = (S.sys.kern.envs e).doSignalEntry := congrArg Prod.fst hsig
      rwa [hentry]
    · rw [hentry]
      exact hfr'.installed
  constructor
  · intro e n hn
    rcases hset e with hsig | hentry
    · exact (h.answered e n hn).congr hsig (by rw [hsignos])
    · exact .inl hentry
  · intro e fr' hfr'
    show FrameOk _ (s'.kern.envs e).doSignalEntry fr'
    have hfr' : fr' ∈ Function.update S.todo cur (fr :: rest) e := hfr'
    by_cases heq : e = cur
    · subst heq
      rw [Function.update_self] at hfr'
      rcases List.mem_cons.1 hfr' with rfl | hfr'
      · by_cases h0 : envid = 0
        · have hentry := hself h0
          rw [hentry]
          exact ⟨fun envid w' hm => hhead.own envid w' (List.mem_cons_of_mem _ hm), fun _ _ _ _ => .inl rfl⟩
        · exact hkeep e fr' (hhead.tail fun w' heq => h0 (Call.setSigEntry.inj heq).1)
      · exact hkeep e fr' (h.frames e fr' (by rw [hcur]; exact List.mem_cons_of_mem _ hfr'))
    · rw [Function.update_of_ne heq] at hfr'
      exact hkeep e fr' (h.frames e fr' hfr')

/-- A new environment has no signals pending and is in no library function. -/
private theorem new {s' : State} {entry : SignalEntry} {var : EnvPtr} {frs : List (List Call)} (h : EntryOk S pend)
    (hnil : pend e = []) (hnew : ∀ e', e' ≠ e → (s'.kern.envs e').sig = (S.sys.kern.envs e').sig)
    (hsignos : s'.kern.signos = S.sys.kern.signos) (hfrs : ∀ fr ∈ frs, fr = []) :
    EntryOk { S with
      sys := s'
      doSignal := Function.update S.doSignal e entry
      envVar := Function.update S.envVar e var
      todo := Function.update S.todo e frs } pend := by
  constructor
  · intro e' n hn
    have hne : e' ≠ e := by
      rintro rfl
      rw [hnil] at hn
      cases hn
    show s'.kern.Answered (Function.update S.doSignal e entry e') e' n
    rw [Function.update_of_ne hne]
    exact (h.answered e' n hn).congr (hnew e' hne) (by rw [hsignos])
  · intro e' fr hfr
    have hfr : fr ∈ Function.update S.todo e frs e' := hfr
    by_cases heq : e' = e
    · subst heq
      rw [Function.update_self] at hfr
      rw [hfrs fr hfr]
      exact .nil _ _
    · show FrameOk (Function.update S.doSignal e entry e') (s'.kern.envs e').doSignalEntry fr
      rw [Function.update_of_ne heq] at hfr ⊢
      have hentry : (s'.kern.envs e').doSignalEntry = (S.sys.kern.envs e').doSignalEntry :=
        congrArg Prod.fst (hnew e' heq)
      rw [hentry]
      exact h.frames e' fr hfr

end EntryOk

/-! ### One step -/

variable {S S' : LibState}

/-- A step of the kernel under the library: no call, or a call and what it does to the programs. -/
private theorem step_kern_cases {ev : Event} (h : S.step (.kern ev) = some S') :
    (∀ binary priority, ev ≠ .create binary priority) ∧ ∃ s', S.sys.step ev = some s' ∧
      ((S.sys.call ev = none ∧ S' = { S with sys := s' }) ∨
        ∃ cur c todo', S.sys.call ev = some (cur, c) ∧ LibState.take S.todo cur c = some todo' ∧
          S' = { ({ S with todo := todo' } : LibState).forked cur c with sys := s' }) := by
  have hev : ∀ binary priority, ev ≠ .create binary priority := by
    rintro binary priority rfl
    cases h
  refine ⟨hev, ?_⟩
  cases hcall : S.sys.call ev with
  | none =>
    have hstep : S.step (.kern ev) = (S.sys.step ev).map fun s => { S with sys := s } := by
      cases ev with
      | create binary priority => exact absurd rfl (hev binary priority)
      | _ => simp only [LibState.step, hcall]
    rw [hstep] at h
    obtain ⟨s', hs', rfl⟩ := Option.map_eq_some_iff.1 h
    exact ⟨s', hs', .inl ⟨rfl, rfl⟩⟩
  | some call =>
    obtain ⟨cur, c⟩ := call
    have hstep : S.step (.kern ev) = (LibState.take S.todo cur c).bind fun todo =>
        let S' : LibState := { S with todo := todo }
        (S.sys.step ev).map fun s => { S'.forked cur c with sys := s } := by
      cases ev with
      | create binary priority => exact absurd rfl (hev binary priority)
      | _ => simp only [LibState.step, hcall]
    rw [hstep] at h
    obtain ⟨todo', htake, h⟩ := Option.bind_eq_some_iff.1 h
    obtain ⟨s', hs', rfl⟩ := Option.map_eq_some_iff.1 h
    exact ⟨s', hs', .inr ⟨cur, c, todo', rfl, htake, rfl⟩⟩

namespace EntryOk

/-- The head of the free list has no signals pending. -/
private theorem pend_head (hlive : LiveOk k) (hn : NodesOk k free pend) (hhead : k.envFreeList.head? = some e) :
    pend e = [] :=
  hn.idle e (hlive.free e (List.mem_of_head? hhead))

/-- A fork outside of the library functions. -/
private theorem call_exofork {r : Option Word} {todo' : EnvPtr → List (List Call)} {s' : State} (h : EntryOk S pend)
    (htake : LibState.take S.todo cur .exofork = some todo') (hok : (S.todo cur).all List.isEmpty)
    (hnil : ∀ e, S.sys.kern.envFreeList.head? = some e → pend e = [])
    (hs : CallStep S.sys.kern.skipInsn cur .exofork k' r) (henvs : s'.kern.envs = k'.envs)
    (hnodes : SameNodes S.sys.kern s'.kern) :
    EntryOk { ({ S with todo := todo' } : LibState).forked cur .exofork with sys := s' } pend := by
  have hfrs : ∀ fr ∈ S.todo cur, fr = [] := by simpa using hok
  obtain rfl : todo' = S.todo := by
    rcases take_cases htake with ⟨-, htodo⟩ | ⟨fr, rest, hfr, -⟩
    · exact htodo
    · exact absurd (hfrs (.exofork :: fr) (by rw [hfr]; exact List.mem_cons_self ..)) nofun
  have hfork : ({ S with todo := S.todo } : LibState).forked cur .exofork =
      S.sys.kern.envFreeList.head?.elim S (S.copied cur) := rfl
  rw [hfork]
  cases hs with
  | unchanged _ _ hfail =>
    have hhead : S.sys.kern.envFreeList.head? = none := by
      have hempty : S.sys.kern.envFreeList = [] := hfail
      rw [hempty]
      rfl
    rw [hhead]
    have hsig : ∀ e, (s'.kern.envs e).sig = (S.sys.kern.envs e).sig := by
      intro e
      rw [henvs]
      rfl
    have hpend : PendStep S.sys.kern s'.kern pend pend fun _ _ => False := .same hnodes
    have hsame : EntryOk { S with sys := s' } pend := h.of_sig hsig hpend (fun _ _ => False.elim) rfl h.frames
    exact hsame
  | @exofork e k₂ ha =>
    have hnew := (NewSig.alloc ha).setEnv (k₂.forkEnv cur)
    have hhead : S.sys.kern.envFreeList.head? = some e := hnew.head
    rw [hhead]
    refine h.new (hnil e hhead) (fun e' he' => ?_) hnodes.signos hfrs
    rw [henvs]
    exact hnew.sig e' he'

private theorem sendOk_of_sends {c : Call} {signo : Word} (hok : callEntryAdmits S cur c)
    (hs : S.sys.kern.skipInsn.sends cur c e signo) : S.sendOk e signo := by
  obtain ⟨envid, rfl, he⟩ := hs
  have he : S.sys.kern.envid2env cur envid false = some e := he
  unfold callEntryAdmits at hok
  dsimp only at hok
  rw [he] at hok
  exact hok

private theorem call {ev : Event} {c : Call} {todo' : EnvPtr → List (List Call)} {s' : State}
    (hlive : LiveOk S.sys.kern) (hn : NodesOk S.sys.kern free pend) (h : EntryOk S pend)
    (hcall : S.sys.call ev = some (cur, c)) (hok : callEntryAdmits S cur c) (hs : S.sys.step ev = some s')
    (htake : LibState.take S.todo cur c = some todo') :
    ∃ free' pend', NodesOk s'.kern free' pend' ∧
      EntryOk { ({ S with todo := todo' } : LibState).forked cur c with sys := s' } pend' := by
  obtain ⟨junk, k₁, r, hcur, hk₁, hsame, henvs⟩ := step_call hcall hs
  have hskip : SameNodes S.sys.kern S.sys.kern.skipInsn := .setKtf _ _
  have hlive' : LiveOk S.sys.kern.skipInsn := hlive.setKtf _
  have hcur : S.sys.kern.skipInsn.curenv = some cur := hcur
  have hstep := call_step hk₁
  obtain ⟨free', pend', hn', hpend⟩ := pend_call (hn.same hskip) hlive' hcur hstep
  have hpend' : PendStep S.sys.kern s'.kern pend pend' (S.sys.kern.skipInsn.sends cur c) := hpend.trans hsame
  cases hc : c.changesSig with
  | false =>
    refine ⟨free', pend', hn'.same hsame, ?_⟩
    have hfork : ({ S with todo := todo' } : LibState).forked cur c = { S with todo := todo' } := by
      refine if_neg ?_
      rintro rfl
      cases hc
    rw [hfork]
    have hsig : ∀ e, (s'.kern.envs e).sig = (S.sys.kern.envs e).sig := by
      intro e
      rw [henvs]
      exact sig_call hstep hc e
    exact h.call_same htake hc hsig hpend' fun e signo hsent => sendOk_of_sends hok hsent
  | true =>
    -- the three calls that change an entry or a handler leave the nodes alone
    have hnodes : SameNodes S.sys.kern s'.kern := by
      rcases SameNodes.call hlive' hcur hstep with ⟨hnodes, -⟩ | ⟨_, _, _, _, _, rfl, -⟩ | ⟨_, _, _, rfl, -⟩
      · exact (hskip.trans hnodes).trans hsame
      · cases hc
      · cases hc
    refine ⟨free, pend, hn.same hnodes, ?_⟩
    cases c with
    | sigaction signo act oldact => exact h.call_sigaction htake hstep henvs hnodes.signos
    | setSigEntry envid entry => exact h.call_setSigEntry htake hok hk₁ henvs hnodes.signos
    | exofork => exact h.call_exofork htake hok (fun e => pend_head hlive hn) hstep henvs hnodes
    | _ => cases hc

/-- Every admitted step keeps the pending signals answered. -/
private theorem step {ev : LibEvent} (hlive : LiveOk S.sys.kern) (hn : NodesOk S.sys.kern free pend) (h : EntryOk S pend)
    (hok : entryAdmits S ev) (hs : S.step ev = some S') :
    LiveOk S'.sys.kern ∧ ∃ free' pend', NodesOk S'.sys.kern free' pend' ∧ EntryOk S' pend' := by
  cases ev with
  | create binary priority entry =>
    obtain ⟨s', hs', rfl⟩ := Option.map_eq_some_iff.1 hs
    have hstep := State.step_cases hs'
    refine ⟨hlive.step hstep, free, pend, ?_⟩
    generalize hsys : S.sys = s at *
    cases hstep with
    | @create k k' _ _ hc =>
      have hnodes : SameNodes k k' := .create hlive hc
      refine ⟨hn.same hnodes, ?_⟩
      obtain ⟨e, hnew⟩ := NewSig.create hc
      have hhead : S.sys.kern.envFreeList.head? = some e := by rw [hsys]; exact hnew.head
      have hloaded : S.loaded entry = { S with
          doSignal := Function.update S.doSignal e entry
          envVar := Function.update S.envVar e e
          todo := Function.update S.todo e [] } := by
        rw [LibState.loaded, hhead]
        rfl
      rw [hloaded]
      refine h.new (pend_head hlive hn hnew.head) (fun e' he' => ?_) ?_ nofun
      · rw [hsys]
        exact hnew.sig e' he'
      · rw [hsys]
        exact hnodes.signos
  | kern ev =>
    obtain ⟨hev, s', hs', ⟨hcall, rfl⟩ | ⟨cur, c, todo', hcall, htake, rfl⟩⟩ := step_kern_cases hs
    · obtain ⟨hsig, free', pend', hn', hpend⟩ := quiet_step hn hlive (State.step_cases hs') hcall hev
      refine ⟨hlive.step (State.step_cases hs'), free', pend', hn', h.of_sig hsig hpend ?_ rfl h.frames⟩
      rintro e signo ⟨va, hphase, hc, hva, hl, rfl⟩
      have hfault : faultAdmits S := by
        have hok' : entryAdmits S (.kern ev) = faultAdmits S := by simp [entryAdmits, hcall]
        rwa [hok'] at hok
      simpa [faultAdmits, hphase, hc, hva, hl] using hfault
    · have hok : callEntryAdmits S cur c := by
        have hok' : entryAdmits S (.kern ev) = callEntryAdmits S cur c := by simp [entryAdmits, hcall]
        rwa [hok'] at hok
      obtain ⟨free', pend', hn', h'⟩ := h.call hlive hn hcall hok hs' htake
      exact ⟨hlive.step (State.step_cases hs'), free', pend', hn', h'⟩
  | enter f =>
    obtain ⟨c, hc, rfl⟩ := Option.map_eq_some_iff.1 hs
    refine ⟨hlive, free, pend, hn, h.answered, fun e fr hfr => ?_⟩
    have hfr : fr ∈ Function.update S.todo c (f.calls (S.doSignal c)
      (S.sys.kern.envs (S.envVar c)).doSignalEntry :: S.todo c) e := hfr
    by_cases heq : e = c
    · subst heq
      rw [Function.update_self] at hfr
      rcases List.mem_cons.1 hfr with rfl | hfr
      · refine .calls f ?_
        rintro ⟨signo, act, oldact, rfl⟩
        simpa [entryAdmits, hc] using hok
      · exact h.frames e fr hfr
    · rw [Function.update_of_ne heq] at hfr
      exact h.frames e fr hfr
  | leave =>
    obtain ⟨c, -, hs⟩ := Option.bind_eq_some_iff.1 hs
    split at hs
    case h_2 => cases hs
    case h_1 rest hcur =>
      obtain rfl := Option.some.inj hs
      refine ⟨hlive, free, pend, hn, h.answered, fun e fr hfr => h.frames e fr ?_⟩
      have hfr : fr ∈ Function.update S.todo c rest e := hfr
      by_cases heq : e = c
      · subst heq
        rw [Function.update_self] at hfr
        rw [hcur]
        exact List.mem_cons_of_mem _ hfr
      · rwa [Function.update_of_ne heq] at hfr
  | setEnv =>
    obtain ⟨c, -, rfl⟩ := Option.map_eq_some_iff.1 hs
    exact ⟨hlive, free, pend, hn, h.answered, h.frames⟩

end EntryOk

/-! ### The result -/

/-- In an admitted run all pending signals are answered. -/
private theorem entryOk_of_reach (h : library.Reach (fun S ev => entryAdmits S ev) S) :
    LiveOk S.sys.kern ∧ ∃ free pend, NodesOk S.sys.kern free pend ∧ EntryOk S pend := by
  refine h.invariant
    (I := fun S => LiveOk S.sys.kern ∧ ∃ free pend, NodesOk S.sys.kern free pend ∧ EntryOk S pend) ?_ ?_
  · rintro ⟨s, doSignal, envVar, todo⟩ ⟨hinit, htodo⟩
    obtain ⟨mc, rfl⟩ := init_iff.1 hinit
    refine ⟨.boot mc, _, _, .boot mc rfl, ⟨nofun, fun e fr hfr => ?_⟩⟩
    have htodo : todo e = [] := htodo e
    have hfr : fr ∈ todo e := hfr
    rw [htodo] at hfr
    cases hfr
  · rintro S ev S' ⟨hlive, free, pend, hn, h⟩ hok hs
    exact h.step hlive hn hok hs

private theorem sysKill_ne_none {envid signo : Word}
    (h : ∀ e, k.envid2env cur envid false = some e → k.signoFreeList.isSome) : k.sysKill cur envid signo ≠ none := by
  unfold sysKill
  split
  case h_1 => exact nofun
  case h_2 e he =>
    obtain ⟨n, hn⟩ := Option.isSome_iff_exists.1 (h e he)
    simp [signoAlloc, hn]

private theorem LibState.sendOk_free {signo : Word} (h : S.sendOk e signo) : S.sys.kern.signoFreeList.isSome := by
  unfold LibState.sendOk at h
  exact (Bool.and_eq_true _ _ ▸ h).1

/-- Every signal is answered, and the kernel is led to no memory of its own. -/
def entryArgsAdmits (S : LibState) : LibEvent → Bool
  | .kern ev => entryAdmits S (.kern ev) && S.sys.argsInUser ev
  | ev => entryAdmits S ev

private theorem entryAdmits_of_args {ev : LibEvent} (h : entryArgsAdmits S ev = true) : entryAdmits S ev = true := by
  cases ev with
  | kern ev => exact (Bool.and_eq_true_iff.1 h).1
  | _ => exact h

/-- In every state of an admitted run whose next step is admitted too, no signal makes the kernel panic. -/
theorem signal_safe (h : library.Reach (fun S ev => entryArgsAdmits S ev) S) (hok : entryArgsAdmits S (.kern .handle)) :
    SignalSafe S := by
  have hok : entryAdmits S (.kern .handle) = true := entryAdmits_of_args hok
  obtain ⟨hlive, free, pend, hn, hentry⟩ := entryOk_of_reach (h.mono fun _ _ => entryAdmits_of_args)
  refine ⟨fun cur envid signo hcall => ?_, fun e signo hfault => ?_, fun returned c s _ hc hs hfound => ?_⟩
  · have hadm : callEntryAdmits S cur (.kill envid signo) := by
      unfold entryAdmits at hok
      dsimp only at hok
      rwa [hcall] at hok
    exact sysKill_ne_none fun e he => LibState.sendOk_free (EntryOk.sendOk_of_sends hadm ⟨envid, rfl, he⟩)
  · obtain ⟨va, hphase, hc, hva, hl, rfl⟩ := hfault
    have hcall : S.sys.call .handle = none := by simp [State.call, hphase]
    have hadm : faultAdmits S := by
      unfold entryAdmits at hok
      dsimp only at hok
      rwa [hcall] at hok
    have hsend : S.sendOk e (BitVec.ofNat 32 SIGSEGV) := by simpa [faultAdmits, hphase, hc, hva, hl] using hadm
    exact sysKill_ne_none fun _ _ => LibState.sendOk_free hsend
  · have hscan := hn.scanned (hlive.cur c hc) hs
    obtain ⟨signo, hsigno⟩ := Option.ne_none_iff_exists'.1 hfound
    have hmap := hscan.found
    rw [hsigno] at hmap
    obtain ⟨n, hsift, hsignal⟩ := Option.map_eq_some_iff.1 hmap
    obtain ⟨hmem, -, hignored⟩ := sift_found_mem hsift
    refine (hentry.answered c n hmem).resolve_right fun hthrown => ?_
    have htrue : S.sys.kern.nodeIgnored c n = true := by
      rw [nodeIgnored, hsignal, Option.any_some]
      exact hthrown signo hsignal
    exact Bool.noConfusion (htrue.symm.trans hignored)

/-- A program with its `do_signal` at `0x600000`, on a machine that has just been initialised. -/
def libStart : LibState := ⟨⟨.user, Machine.gxemul.bootKern⟩, fun _ => ⟨0x600000, by decide⟩, id, fun _ => []⟩

private theorem libStart_init : library.init libStart := ⟨init_iff.2 ⟨_, rfl⟩, fun _ => rfl⟩

/-- The address of an action, and a memory that holds one with a handler at `0x500000`. -/
def actPtr : Word := USTACKTOP - 0x400
def actMem (a : Word) : Word := if a = actPtr then 0x500000 else 0

/-- The first environment sets a handler for signal 10. -/
def setHandler : List LibEvent :=
  .create .empty 1 ⟨0x600000, by decide⟩ :: tickEvents.map .kern ++ [.enter (.sigaction 10 actPtr 0)] ++
    (trapEvents (argRegs 22 0 0x600000 0) actMem (.syscall 0) ++
      trapEvents (argRegs 18 10 actPtr 0) actMem (.syscall 0)).map .kern ++ [.leave]

/-- Then it sends itself the signal. -/
def killSelf : List LibEvent := setHandler ++ [.enter (.kill 0 10)] ++ ((callEvents 20 0 10 0).take 1).map .kern

private theorem killSelf_cond : (library.run entryArgsAdmits libStart killSelf).any fun S =>
    S.sys.phase = .entered (.syscall 0) ∧ entryArgsAdmits S (.kern .handle) := by decide +kernel

theorem signal_safe_killSelf : ∃ S, library.run entryArgsAdmits libStart killSelf = some S ∧
    S.sys.phase = .entered (.syscall 0) ∧ SignalSafe S := by
  obtain ⟨S, hS, hcond⟩ := (Option.any_eq_true _ _).1 killSelf_cond
  obtain ⟨hphase, hok⟩ := of_decide_eq_true hcond
  exact ⟨S, hS, hphase, signal_safe ((System.Reach.start libStart_init).run hS) hok⟩

/-- Instead it forks, sends the signal to the child, which has its handlers but not its entry, and yields. -/
def killChild : List LibEvent :=
  setHandler ++ (callEvents 5 0 0x400000 0 ++ callEvents 9 0 0 0 ++ callEvents 5 0x1001 0x400000 0 ++
    callEvents 10 0x1001 1 0).map .kern ++ [.enter (.kill 0x1001 10)] ++ (callEvents 20 0x1001 10 0).map .kern ++
    [.leave] ++ ((callEvents 3 0 0 0).take 2).map .kern

private theorem killChild_cond : (library.run (fun _ _ => true) libStart killChild).any fun S =>
    S.sys.phase = .leaving false ∧ S.sys.kern.curenv = some 1 ∧
    ((scan 1 (MAX_SIG_NUM + 1) S.sys.kern none (S.sys.kern.envs 1).signoHeader).any fun s => s.found = some 10) ∧
    (S.sys.kern.envs 1).doSignalEntry = 0 := by decide +kernel

/-- The child has no entry for the signal that is selected. -/
theorem exists_not_signalSafe : ∃ S, library.Reach (fun _ _ => True) S ∧ ¬SignalSafe S := by
  obtain ⟨S, hS, hcond⟩ := (Option.any_eq_true _ _).1 killChild_cond
  obtain ⟨hphase, hc, hfound, hentry⟩ := of_decide_eq_true hcond
  obtain ⟨s, hs, hfound⟩ := (Option.any_eq_true _ _).1 hfound
  have hreach := (System.Reach.start libStart_init).run hS
  refine ⟨S, hreach.mono fun _ _ _ => trivial, fun h => ?_⟩
  have hsome : s.found ≠ none := by rw [of_decide_eq_true hfound]; exact nofun
  exact (S.doSignal 1).2 ((h.entry false 1 s hphase hc hs hsome).symm.trans hentry)

end Mos
