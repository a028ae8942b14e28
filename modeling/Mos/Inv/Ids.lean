import Mos.Inv.Core

/-!
# Environment ids

`mkenvid` packs a counter and the slot into 32 bits.  The ids of a run are different, and those that `sys_exofork`
returns are positive, as long as the counter stays below the bound for the caller (`idAdmits`).
-/

namespace Mos

open Kern

/-! ### The ids of a run -/

/-- The slot and the id that `env_alloc` hands out next. -/
def Kern.nextId (k : Kern) : List (EnvPtr × Word) := k.envFreeList.head?.toList.map fun e => (e, (k.mkenvid e).1)

/-- What `sys_exofork` hands out in the step. -/
def State.forked (s : State) (ev : Event) : List (EnvPtr × Word) :=
  if (s.call ev).any fun c => c.2 = .exofork then s.kern.nextId else []

/-- What `env_alloc` hands out in the step. -/
def State.assigned (s : State) (ev : Event) : List (EnvPtr × Word) :=
  match s.phase, ev with
  | .user, .create _ _ => s.kern.nextId
  | _, _ => s.forked ev

/-- All that `env_alloc` handed out, in order. -/
def assignedIds (l : List (State × Event)) : List (EnvPtr × Word) := l.flatMap fun p => p.1.assigned p.2

/-- Every fork of the run returned the id that was handed out, as a positive number. -/
def PositiveForks (l : List (State × Event)) : Prop :=
  ∀ s₁ ev s₂ x, (s₁, ev) ∈ l → s₁.step ev = some s₂ → x ∈ s₁.forked ev → s₂.kern.ktf.regs 2 = x.2 ∧ 0 < x.2.toInt

/-- The ids of the steps `l`, which end in `s`, are not zero and all different, `sys_exofork` returned them as positive
numbers, and an id resolves at most to the slot it was made for, as long as that has not been given away again. -/
structure IdsOk (l : List (State × Event)) (s : State) : Prop where
  nonzero : ∀ x ∈ assignedIds l, x.2 ≠ 0
  nodup : ((assignedIds l).map Prod.snd).Nodup
  positive : PositiveForks l
  resolve : ∀ l₁ p l₂ x, l = l₁ ++ p :: l₂ → x ∈ p.1.assigned p.2 → ∀ cur checkperm e,
    s.kern.envid2env cur x.2 checkperm = some e → e = x.1 ∧ ∀ y ∈ assignedIds l₂, y.1 ≠ e

/-! ### The ledger of ids -/

theorem mkenvid_toNat {k : Kern} {n : Nat} (hn : k.mkenvidI.toNat = n) (hlt : n + 1 < 2 ^ 21) (e : EnvPtr) :
    (k.mkenvid e).1.toNat = (n + 1) * 2048 + e := by
  have he : (e : Nat) < 1024 := e.isLt
  have hcounter : (k.mkenvidI + 1).toNat = n + 1 := by
    rw [BitVec.toNat_add, hn]
    exact Nat.mod_eq_of_lt (show n + 1 < 2 ^ 32 by omega)
  have hor := Nat.shiftLeft_add_eq_or_of_lt (show (e : Nat) < 2 ^ 11 by omega) (n + 1)
  rw [Nat.shiftLeft_eq] at hor
  simp only [mkenvid, BitVec.toNat_or, BitVec.toNat_shiftLeft, BitVec.toNat_ofNat, hcounter, Nat.shiftLeft_eq]
  rw [Nat.mod_eq_of_lt (show (n + 1) * 2 ^ 11 < 2 ^ 32 by omega), Nat.mod_eq_of_lt (show (e : Nat) < 2 ^ 32 by omega)]
  exact hor.symm

/-- The `n`-th id belongs to count `n + 1`, and every live environment has the last id of its slot. -/
structure IdLedger (L : List (EnvPtr × Word)) (k : Kern) : Prop where
  count : k.mkenvidI.toNat = L.length
  small : L.length < 2 ^ 21
  ids : ∀ n x, L[n]? = some x → x.2.toNat = (n + 1) * 2048 + (x.1 : Nat)
  live : ∀ e, (k.cores e).status ≠ .FREE →
    ∃ L₁ L₂, L = L₁ ++ (e, (k.cores e).id) :: L₂ ∧ ∀ y ∈ L₂, y.1 ≠ e

namespace IdLedger

variable {L : List (EnvPtr × Word)} {k k' : Kern} {e : EnvPtr}

private theorem nonzero (h : IdLedger L k) {x : EnvPtr × Word} (hx : x ∈ L) : x.2 ≠ 0 := by
  intro h0
  obtain ⟨n, hn⟩ := List.mem_iff_getElem?.1 hx
  have hid := h.ids n x hn
  rw [h0] at hid
  have hzero : (0 : Word).toNat = 0 := rfl
  omega

private theorem nodup (h : IdLedger L k) : (L.map Prod.snd).Nodup := by
  rw [List.nodup_iff_getElem?_ne_getElem?]
  intro i j hij hj heq
  rw [List.length_map] at hj
  rw [List.getElem?_map, List.getElem?_map, List.getElem?_eq_getElem hj,
    List.getElem?_eq_getElem (hij.trans hj)] at heq
  have hi := h.ids i _ (List.getElem?_eq_getElem (hij.trans hj))
  have hj' := h.ids j _ (List.getElem?_eq_getElem hj)
  have hid : L[i].2 = L[j].2 := Option.some.inj heq
  have hilt : (L[i].1 : Nat) < 1024 := L[i].1.isLt
  have hjlt : (L[j].1 : Nat) < 1024 := L[j].1.isLt
  rw [hid] at hi
  omega

/-- Steps that keep the counter, the ids of the live environments and whether they are live keep the ledger. -/
private theorem congr (h : IdLedger L k) (hc : k'.mkenvidI = k.mkenvidI)
    (hcore : ∀ e, (k'.cores e).status ≠ .FREE → (k.cores e).status ≠ .FREE ∧ (k'.cores e).id = (k.cores e).id) :
    IdLedger L k' := by
  refine ⟨hc ▸ h.count, h.small, h.ids, fun e he => ?_⟩
  obtain ⟨hlive, hid⟩ := hcore e he
  rw [hid]
  exact h.live e hlive

private theorem same (h : IdLedger L k) (hs : SameCore k k') : IdLedger L k' :=
  h.congr hs.counter fun e he => by
    rw [hs.cores] at he ⊢
    exact ⟨he, rfl⟩

/-- Only the core of a live environment changes, and not its id. -/
private theorem setCore {c : Core} (h : IdLedger L k) (hs : SetCore k e c k') (hlive : (k.cores e).status ≠ .FREE)
    (hid : c.id = (k.cores e).id) : IdLedger L k' := by
  refine h.congr hs.counter fun e' he' => ?_
  rw [hs.cores] at he' ⊢
  by_cases heq : e' = e
  · subst heq
    rw [Function.update_self]
    exact ⟨hlive, hid⟩
  · rw [Function.update_of_ne heq] at he' ⊢
    exact ⟨he', rfl⟩

/-- A new environment gets the next id. -/
private theorem alloc {parentId : Word} {status : EnvStatus} (h : IdLedger L k) (hlt : L.length + 1 < 2 ^ 21)
    (hn : NewCore k e parentId status k') : IdLedger (L ++ [(e, (k.mkenvid e).1)]) k' where
  count := by
    rw [hn.counter, BitVec.toNat_add, h.count, List.length_append]
    exact Nat.mod_eq_of_lt (show L.length + 1 < 2 ^ 32 by omega)
  small := by rwa [List.length_append]
  ids n x hx := by
    rcases Nat.lt_or_ge n L.length with hlt' | hge
    · rw [List.getElem?_append_left hlt'] at hx
      exact h.ids n x hx
    · rw [List.getElem?_append_right hge, List.getElem?_singleton] at hx
      split at hx
      case isFalse => cases hx
      case isTrue h0 =>
        obtain rfl := Option.some.inj hx
        have hn : n = L.length := by omega
        subst hn
        exact mkenvid_toNat h.count hlt e
  live e' he' := by
    by_cases heq : e' = e
    · subst heq
      refine ⟨L, [], ?_, nofun⟩
      rw [hn.cores, Function.update_self]
    · rw [hn.cores, Function.update_of_ne heq] at he' ⊢
      obtain ⟨L₁, L₂, hL, hlast⟩ := h.live e' he'
      refine ⟨L₁, L₂ ++ [(e, (k.mkenvid e).1)], by rw [hL]; simp, fun y hy => ?_⟩
      rcases List.mem_append.1 hy with hy | hy
      · exact hlast y hy
      · rw [List.mem_singleton.1 hy]
        exact Ne.symm heq

/-- An id of the ledger resolves at most to its own slot, and only while it is the last one there. -/
private theorem resolve (h : IdLedger L k) {L₁ L₂ : List (EnvPtr × Word)} {x : EnvPtr × Word} (hL : L = L₁ ++ x :: L₂)
    {cur : EnvPtr} {checkperm : Bool} (he : k.envid2env cur x.2 checkperm = some e) :
    e = x.1 ∧ ∀ y ∈ L₂, y.1 ≠ e := by
  have hx : x ∈ L := by rw [hL]; exact List.mem_append_right _ (List.mem_cons_self ..)
  rcases envid2env_cases he with ⟨h0, -⟩ | ⟨-, -, hlive, hid, -⟩
  · exact absurd h0 (h.nonzero hx)
  · obtain ⟨M₁, M₂, hM, hlast⟩ := h.live e hlive
    have hid : (k.cores e).id = x.2 := hid
    -- both occurrences of the id are at one place
    have hnd := h.nodup
    have hsplit := hL.symm.trans hM
    rw [hid] at hsplit
    have hlen : L₁.length = M₁.length := by
      have hi : (L.map Prod.snd)[L₁.length]? = some x.2 := by rw [hL]; simp
      have hj : (L.map Prod.snd)[M₁.length]? = some x.2 := by rw [hM, hid]; simp
      have hlt : L₁.length < (L.map Prod.snd).length := (List.getElem?_eq_some_iff.1 hi).1
      exact (List.getElem?_inj hlt hnd).1 (hi.trans hj.symm)
    obtain ⟨-, hcons⟩ := List.append_inj hsplit hlen
    rw [List.cons.injEq] at hcons
    obtain ⟨hxe, rfl⟩ := hcons
    exact ⟨(congrArg Prod.fst hxe).symm, hlast⟩

private theorem boot (mc : Machine) : IdLedger [] mc.bootKern :=
  ⟨rfl, by decide, nofun, fun _ he => absurd rfl he⟩

end IdLedger

/-! ### Runs -/

/-- The counter has not reached the bound: the sign bit for an id that `sys_exofork` is to return, and the end of the
word for the others. -/
def idAdmits (s : State) (ev : Event) : Bool :=
  match s.phase, ev with
  | .user, .create _ _ => s.kern.mkenvidI.toNat + 1 < 2 ^ 21
  | _, _ => (s.forked ev).isEmpty || s.kern.mkenvidI.toNat + 1 < 2 ^ 20

/-- A head of the free list is what `nextId` names. -/
theorem nextId_eq {k : Kern} {e : EnvPtr} (h : k.envFreeList.head? = some e) : k.nextId = [(e, (k.mkenvid e).1)] := by
  rw [Kern.nextId, h]
  rfl

private theorem IdLedger.call {L : List (EnvPtr × Word)} {k k' : Kern} {cur : EnvPtr} {c : Call} {r : Option Word}
    (h : IdLedger L k) (hlive : (k.envs cur).envStatus ≠ .FREE) (hs : CoreCall k cur c k' r) : IdLedger L k' := by
  cases hs with
  | same _ hs => exact h.same hs
  | destroyed he hs => exact h.setCore hs (envid2env_live hlive he) rfl
  | status _ he hs => exact h.setCore hs (envid2env_live hlive he) rfl
  | woken _ he _ _ hs => exact h.setCore hs (envid2env_live hlive he) rfl
  | waits _ hs => exact h.setCore hs hlive rfl

/-- An admitted step adds to the ledger what it hands out, and a positive id if it is a fork. -/
private theorem IdLedger.step {L : List (EnvPtr × Word)} {s s' : State} {ev : Event} (h : IdLedger L s.kern)
    (hlive : LiveOk s.kern) (hok : idAdmits s ev) (hs : Step s ev s') :
    IdLedger (L ++ s.assigned ev) s'.kern ∧
      ∀ x ∈ s.forked ev, s'.kern.ktf.regs 2 = x.2 ∧ 0 < x.2.toInt := by
  -- Only `env_create` and `sys_exofork` give out an id.
  cases CoreStep.of_step hs with
  | same hsame hcall hev =>
    have hforked : s.forked ev = [] := by rw [State.forked, hcall]; rfl
    have hassigned : s.assigned ev = [] := by
      unfold State.assigned
      split
      · exact absurd rfl (hev _ _)
      · exact hforked
    rw [hassigned, hforked, List.append_nil]
    exact ⟨h.same hsame, fun x hx => by cases hx⟩
  | @create k k' _ _ _ hn =>
    have hlt : L.length + 1 < 2 ^ 21 := by
      rw [← h.count]
      exact of_decide_eq_true hok
    refine ⟨?_, fun x hx => by cases hx⟩
    show IdLedger (L ++ k.nextId) k'
    rw [nextId_eq hn.head]
    exact h.alloc hlt hn
  | @call k k' cur c _ returned junk hc hd hcs =>
    have hcall : State.call ⟨.entered (.syscall junk), k⟩ .handle = some (cur, c) := by simp [State.call, hc, hd]
    have hforked : State.forked ⟨.entered (.syscall junk), k⟩ .handle = [] := by
      rw [State.forked, hcall]
      split
      case isFalse => rfl
      case isTrue hfork =>
        obtain rfl : c = .exofork := by simpa using hfork
        cases hcs with
        | same _ _ hnone => rw [Kern.nextId, show k.envFreeList = [] from hnone fun _ _ h => by cases h]; rfl
    have hskip : IdLedger L k.skipInsn := h.same (.setKtf k _)
    show IdLedger (L ++ State.forked ⟨.entered (.syscall junk), k⟩ .handle) k' ∧ _
    rw [hforked, List.append_nil]
    exact ⟨hskip.call (hlive.cur cur hc) hcs, fun x hx => by cases hx⟩
  | @fork k k' cur e junk hc hd hn hr =>
    have hforked : State.forked ⟨.entered (.syscall junk), k⟩ .handle = [(e, (k.mkenvid e).1)] := by
      simp [State.forked, State.call, hc, hd, nextId_eq hn.head]
    have hlt : L.length + 1 < 2 ^ 20 := by
      rw [← h.count]
      simpa [idAdmits, hforked] using hok
    show IdLedger (L ++ State.forked ⟨.entered (.syscall junk), k⟩ .handle) k' ∧ _
    rw [hforked]
    refine ⟨h.alloc (by omega) hn, fun x hx => ?_⟩
    have hid : (k.mkenvid e).1.toNat = (L.length + 1) * 2048 + (e : Nat) := mkenvid_toNat h.count (by omega) e
    have he : (e : Nat) < 1024 := e.isLt
    have hpos : (k.mkenvid e).1.toInt = (k.mkenvid e).1.toNat := BitVec.toInt_eq_toNat_of_lt (by omega)
    rw [List.mem_singleton.1 hx]
    refine ⟨hr, ?_⟩
    show 0 < (k.mkenvid e).1.toInt
    omega

/-- In every run in which the counter stays below its bounds, the ids are as they should be. -/
theorem ids_ok {mc : Machine} {l : List (State × Event)} {s : State}
    (h : kernel.Steps (fun s ev => idAdmits s ev) ⟨.user, mc.bootKern⟩ l s) : IdsOk l s := by
  have hinv : LiveOk s.kern ∧ IdLedger (assignedIds l) s.kern ∧ PositiveForks l := by
    refine h.invariant (I := fun l s => LiveOk s.kern ∧ IdLedger (assignedIds l) s.kern ∧ PositiveForks l) ?_ ?_
    · exact ⟨LiveOk.boot mc, IdLedger.boot mc, fun _ _ _ _ hmem => absurd hmem List.not_mem_nil⟩
    rintro l t ev u ⟨hlive, hl, hpos⟩ hok hs
    have hstep := State.step_cases hs
    obtain ⟨hl', hfork⟩ := hl.step hlive hok hstep
    refine ⟨hlive.step hstep, ?_, fun s₁ ev₁ s₂ x hmem hs₁ hx => ?_⟩
    · have hids : assignedIds (l ++ [(t, ev)]) = assignedIds l ++ t.assigned ev := by simp [assignedIds]
      exact hids ▸ hl'
    · rcases List.mem_append.1 hmem with hmem | hmem
      · exact hpos s₁ ev₁ s₂ x hmem hs₁ hx
      · obtain ⟨rfl, rfl⟩ : s₁ = t ∧ ev₁ = ev := by simpa using hmem
        obtain rfl : s₂ = u := Option.some.inj (hs₁.symm.trans hs)
        exact hfork x hx
  obtain ⟨-, hl, hpos⟩ := hinv
  refine ⟨fun x hx => hl.nonzero hx, hl.nodup, hpos, ?_⟩
  intro l₁ p l₂ x hsplit hx cur checkperm e he
  obtain ⟨M₁, M₂, hM⟩ := List.append_of_mem hx
  have hL : assignedIds l = (assignedIds l₁ ++ M₁) ++ x :: (M₂ ++ assignedIds l₂) := by
    rw [hsplit, assignedIds, List.flatMap_append, List.flatMap_cons, hM]
    simp [assignedIds]
  obtain ⟨hslot, hlast⟩ := hl.resolve hL he
  exact ⟨hslot, fun y hy => hlast y (List.mem_append_right _ hy)⟩

/-- An environment that forks a child. -/
def forkOne : List Event := .create .empty 1 :: tickEvents ++ callEvents 9 0 0 0

private theorem forkOne_cond : (kernel.trace idAdmits ⟨.user, Machine.gxemul.bootKern⟩ forkOne).any fun r =>
    assignedIds r.1 = [(0, 0x800), (1, 0x1001)] := by decide +kernel

theorem ids_ok_forkOne : ∃ l t, kernel.trace idAdmits ⟨.user, Machine.gxemul.bootKern⟩ forkOne = some (l, t) ∧
    assignedIds l = [(0, 0x800), (1, 0x1001)] ∧ IdsOk l t := by
  obtain ⟨⟨l, t⟩, hl, hids⟩ := (Option.any_eq_true _ _).1 forkOne_cond
  exact ⟨l, t, hl, of_decide_eq_true hids, ids_ok (.of_trace hl)⟩

/-! ### The form of the ids -/

/-- Between the counter and the slot an id has a bit that is never set. -/
theorem mkenvid_bit (k : Kern) (e : EnvPtr) : (k.mkenvid e).1.getLsbD 10 = false := by
  have he : (e : Nat) < 2 ^ 10 := e.isLt
  show (((k.mkenvidI + 1) <<< 11) ||| BitVec.ofNat 32 e).getLsbD 10 = false
  rw [BitVec.getLsbD_or, BitVec.getLsbD_shiftLeft, BitVec.getLsbD_ofNat, Nat.testBit_lt_two_pow he]
  rfl

theorem ENVX_mkenvid (k : Kern) (e : EnvPtr) : ENVX (k.mkenvid e).1 = e := by
  have he : (e : Nat) < 2 ^ 10 := e.isLt
  apply Fin.ext
  show (((k.mkenvidI + 1) <<< 11) ||| BitVec.ofNat 32 e).toNat % 2 ^ 10 = e
  have hcounter : ((k.mkenvidI + 1) <<< 11).toNat % 2 ^ 10 = 0 := by
    rw [BitVec.toNat_shiftLeft, Nat.shiftLeft_eq]
    omega
  have hslot : (BitVec.ofNat 32 e).toNat % 2 ^ 10 = e := by
    rw [BitVec.toNat_ofNat]
    omega
  rw [BitVec.toNat_or, Nat.or_mod_two_pow, hcounter, hslot, Nat.zero_or]

/-- The ids of all slots have the form that `mkenvid` gives them. -/
structure IdBits (k : Kern) : Prop where
  bit : ∀ e, (k.cores e).id.getLsbD 10 = false

namespace IdBits

variable {k k' : Kern} {e cur : EnvPtr} {c : Core}

theorem same (h : IdBits k) (hs : SameCore k k') : IdBits k' := ⟨fun e => hs.cores ▸ h.bit e⟩

private theorem setCore (h : IdBits k) (hs : SetCore k e c k') (hid : c.id = (k.cores e).id) : IdBits k' := by
  refine ⟨fun e' => ?_⟩
  rw [hs.cores]
  by_cases heq : e' = e
  · subst heq
    rw [Function.update_self, hid]
    exact h.bit e'
  · rw [Function.update_of_ne heq]
    exact h.bit e'

theorem alloc {parentId : Word} {status : EnvStatus} (h : IdBits k) (hn : NewCore k e parentId status k') : IdBits k' := by
  refine ⟨fun e' => ?_⟩
  rw [hn.cores]
  by_cases heq : e' = e
  · subst heq
    rw [Function.update_self]
    exact mkenvid_bit k e'
  · rw [Function.update_of_ne heq]
    exact h.bit e'

theorem call {c : Call} {r : Option Word} (h : IdBits k) (hs : CoreCall k cur c k' r) : IdBits k' := by
  cases hs with
  | same _ hs => exact h.same hs
  | destroyed _ hs => exact h.setCore hs rfl
  | status _ _ hs => exact h.setCore hs rfl
  | woken _ _ _ _ hs => exact h.setCore hs rfl
  | waits _ hs => exact h.setCore hs rfl

theorem step {s s' : State} {ev : Event} (h : IdBits s.kern) (hs : Step s ev s') : IdBits s'.kern := by
  cases CoreStep.of_step hs with
  | same hsame => exact h.same hsame
  | create hn => exact h.alloc hn
  | @call k _ _ _ _ _ _ _ _ hcs =>
    have hskip : IdBits k.skipInsn := h.same (.setKtf k _)
    exact hskip.call hcs
  | fork _ _ _ hn => exact h.alloc hn

theorem boot (mc : Machine) : IdBits mc.bootKern := by
  refine ⟨fun e => ?_⟩
  have hid : (mc.bootKern.cores e).id = 0 := rfl
  rw [hid]
  rfl

theorem of_steps {mc : Machine} {ok : State → Event → Prop} {l : List (State × Event)} {s : State}
    (h : kernel.Steps ok ⟨.user, mc.bootKern⟩ l s) : IdBits s.kern := by
  refine h.invariant (I := fun _ s => IdBits s.kern) (boot mc) ?_
  intro l t ev u hids _ hs
  exact hids.step (State.step_cases hs)

/-- An error code is no id. -/
theorem resolve (h : IdBits k) {envid : Word} {checkperm : Bool} (h0 : envid ≠ 0) (hbit : envid.getLsbD 10 = true) :
    k.envid2env cur envid checkperm = none := by
  rw [Option.eq_none_iff_forall_ne_some]
  intro e he
  rcases envid2env_cases he with ⟨hzero, -⟩ | ⟨-, -, -, hid, -⟩
  · exact h0 hzero
  · have hid : (k.cores e).id = envid := hid
    have hfalse := h.bit e
    rw [hid, hbit] at hfalse
    cases hfalse

end IdBits

end Mos
