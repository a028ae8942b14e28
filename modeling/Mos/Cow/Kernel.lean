import Mos.Cow.Store

/-!
# What the kernel does to the store

Every step of the kernel renews pages of one environment, as long as a page that is mapped twice is shared, or may not be
written by either.  `Remaps` says which pages these are.
-/

namespace Mos

open Kern Cow

/-! ### System calls -/

/-- The pages that a call may replace. -/
inductive Call.Remaps (k : Kern) (cur : EnvPtr) : Call → EnvPtr → Vpn → Prop
  | memAlloc {envid va perm : Word} {e : EnvPtr} (he : k.envid2env cur envid true = some e) :
      Remaps k cur (.memAlloc envid va perm) e (VPN va)
  | memMap {srcid srcva dstid dstva perm : Word} {e : EnvPtr} (he : k.envid2env cur dstid true = some e) :
      Remaps k cur (.memMap srcid srcva dstid dstva perm) e (VPN dstva)
  | memUnmap {envid va : Word} {e : EnvPtr} (he : k.envid2env cur envid true = some e) :
      Remaps k cur (.memUnmap envid va) e (VPN va)
  | ipc {envid value srcva perm : Word} {e : EnvPtr} (he : k.envid2env cur envid false = some e) :
      Remaps k cur (.ipcTrySend envid value srcva perm) e (VPN (k.envs e).envIpcDstva)
  | fork {e : EnvPtr} (hfree : (k.envs e).envStatus = .FREE) (v : Vpn) : Remaps k cur .exofork e v
  | destroy {envid : Word} {e : EnvPtr} (he : k.envid2env cur envid true = some e) (v : Vpn) :
      Remaps k cur (.envDestroy envid) e v

namespace Kern

/-- The page at `va`, if there is one, may be mapped once more with the permissions `perm`. -/
def joinable (k : Kern) (e : EnvPtr) (va perm : Word) : Bool :=
  (k.vpt e (VPN va)).all fun pte => !has pte PTE_V || Mem.joinPerm pte perm

/-- A call that shares a page only where this is meant, or where nobody may write it. -/
def keepsPrivate (k : Kern) (cur : EnvPtr) : Call → Bool
  | .memAlloc _ _ perm => plainPerm perm
  | .memMap srcid srcva _ _ perm => (k.envid2env cur srcid true).all fun e => k.joinable e srcva perm
  | .ipcTrySend _ _ srcva perm => k.joinable cur srcva perm
  | _ => true

def callCowAdmits (k : Kern) (cur : EnvPtr) (c : Call) : Bool := callMemAdmits k cur c && k.keepsPrivate cur c

variable {mc : Machine} {leak : Nat → Nat} {k k' : Kern} {cur e : EnvPtr} {c : Call} {va perm w : Word} {v : Vpn}

private theorem callCowAdmits_mem (ha : callCowAdmits k cur c = true) : callMemAdmits k cur c = true := by
  rw [callCowAdmits, Bool.and_eq_true] at ha
  exact ha.1

/-- What is mapped is what `vpt` shows. -/
theorem vpt_of_user (hlive : (k.envs cur).envStatus ≠ .FREE) (hw : k.mem.user cur v = some w) :
    k.vpt cur v = some w ∧ has w PTE_V = true := by
  obtain ⟨hp, hval⟩ := Mem.user_eq_some.1 hw
  obtain ⟨d, t, hd, ht, rfl⟩ := Mem.pte_eq_some.1 hp
  have hdir : (k.envs cur).envPgdir = some d := (dirs_of_live hlive).symm.trans hd
  obtain ⟨hv, rfl⟩ := entry_eq_some.1 ht
  have hv : has (k.pm.word d v.1) PTE_V = true := hv
  rw [vpt, hdir, Option.bind_some, if_pos hv]
  exact ⟨rfl, hval⟩

theorem user_of_vpt (hlive : (k.envs cur).envStatus ≠ .FREE) (hw : k.vpt cur v = some w) (hval : has w PTE_V = true) :
    k.mem.user cur v = some w := by
  obtain ⟨d, hd, hw⟩ := Option.bind_eq_some_iff.1 hw
  split at hw
  case isFalse => cases hw
  case isTrue hv =>
    have hd : k.dirs cur = some d := (dirs_of_live hlive).trans hd
    exact Mem.user_eq_some.2 ⟨Mem.pte_eq_some.2 ⟨d, _, hd, entry_eq_some.2 ⟨hv, rfl⟩, Option.some.inj hw⟩, hval⟩

private theorem joinable_user (hlive : (k.envs e).envStatus ≠ .FREE) (ha : k.joinable e va perm = true)
    (hw : k.mem.user e (VPN va) = some w) : Mem.joinPerm w perm = true := by
  obtain ⟨hv, hval⟩ := vpt_of_user hlive hw
  rw [joinable, hv, Option.all_some, hval] at ha
  simpa using ha

/-- The page that a lookup finds. -/
private theorem user_of_pageLookup {pp : Nat} (hlive : (k.envs e).envStatus ≠ .FREE)
    (hl : k.pageLookupEnv e va = some (some pp)) : ∃ w, k.mem.user e (VPN va) = some w ∧ PPN w = pp := by
  obtain ⟨d, pte, hd, hlook⟩ := pageLookupEnv_cases hl
  exact Mem.user_of_lookup (D := k.dirs) ((dirs_of_live hlive).trans hd) hlook

/-! ### One call after the other -/

/-- An insertion that succeeds is one that was asked for. -/
private theorem insertion_bits {x : Insertion} (ha : callMemAdmits k cur c = true) (hx : k.insertion cur c = some x) :
    x.page ||| PPN x.perm = x.page := by
  have hst := MemOk.insertable_of_admits ha hx
  simp only [insertable, Bool.and_eq_true, decide_eq_true_eq] at hst
  exact hst.1

private theorem memAlloc_renews {envid r : Word} {pp : Nat} {pm : Pmap} (h : MemOk mc leak k)
    (hcur : (k.envs cur).envStatus ≠ .FREE)
    (hva : isIllegalVa va = false) (he : k.envid2env cur envid true = some e) (hp : k.pm.pageAlloc = some (pp, pm))
    (hi : (k.setPm pm).pageInsertEnv e pp va perm = some (r, k'))
    (ha : callMemAdmits k cur (.memAlloc envid va perm) = true) (hplain : plainPerm perm = true) :
    Store.Renews k.mem.store e {VPN va} k'.mem.store := by
  have hmoves : Moves mc .any e (k.envs e).envAsid k.mem k'.mem :=
    h.memAlloc_moves hcur hva he hp hi ha ⟨fun _ _ => ⟨trivial, trivial⟩, fun _ _ _ _ _ _ => trivial⟩
  have hlive := envid2env_live hcur he
  obtain ⟨rest, hl, rfl⟩ := Pmap.pageAlloc_cases hp
  obtain ⟨d, m', hd, hins, rfl⟩ := pageInsertEnv_cases hi
  have hd : k.dirs e = some d := (dirs_of_live hlive).trans hd
  refine h.mem.alloc_renews hd (Mem.PDX_lt_of_lt (MemOk.lt_of_legal hva)) hl (fun hr => ⟨?_, hplain⟩) hins hmoves
  subst hr
  have hne : d ≠ pp := fun heq =>
    (h.mem.fresh (by rw [hl]; exact List.mem_cons_self ..)).unused (.dir e) (heq ▸ hd)
  have hword : (k.pm.take pp rest).word d = k.pm.word d := Function.update_of_ne hne ..
  have hroom : k.hasRoom e va rest = true := MemOk.hasRoom_of_insert hd hlive hword hi
  exact insertion_bits ha (MemOk.insertion_memAlloc hva he hl hroom)

private theorem memMap_renews {srcid srcva dstid r : Word} {pp : Nat} {srcenv : EnvPtr} (h : MemOk mc leak k)
    (hcur : (k.envs cur).envStatus ≠ .FREE) (hsrcva : isIllegalVa srcva = false) (hva : isIllegalVa va = false)
    (hs : k.envid2env cur srcid true = some srcenv) (he : k.envid2env cur dstid true = some e)
    (hl : k.pageLookupEnv srcenv srcva = some (some pp)) (hi : k.pageInsertEnv e pp va perm = some (r, k'))
    (ha : callMemAdmits k cur (.memMap srcid srcva dstid va perm) = true) (hjoin : k.joinable srcenv srcva perm = true) :
    Store.Renews k.mem.store e {VPN va} k'.mem.store := by
  have hmoves : Moves mc .any e (k.envs e).envAsid k.mem k'.mem :=
    h.memMap_moves hcur hsrcva hva hs he hl hi ha ⟨fun _ _ => ⟨trivial, trivial⟩, fun _ _ _ _ _ _ => trivial⟩
  have hlive := envid2env_live hcur he
  have hsrc := envid2env_live hcur hs
  obtain ⟨w, hw, rfl⟩ := user_of_pageLookup hsrc hl
  obtain ⟨d, m', hd, hins, rfl⟩ := pageInsertEnv_cases hi
  have hd : k.dirs e = some d := (dirs_of_live hlive).trans hd
  refine h.mem.share_renews hd (Mem.PDX_lt_of_lt (MemOk.lt_of_legal hva)) (Mem.PDX_lt_of_lt (MemOk.lt_of_legal hsrcva)) hw
    (fun hr => ⟨?_, joinable_user hsrc hjoin hw⟩) hmoves hins
  subst hr
  have hroom : k.hasRoom e va k.pm.pageFreeList = true := MemOk.hasRoom_of_insert hd hlive rfl hi
  exact insertion_bits ha (MemOk.insertion_memMap hsrcva hva hs he hl hroom)

private theorem ipcPage_renews {envid value srcva r : Word} {pp : Nat} {q : TailQueue EnvPtr} (h : MemOk mc leak k)
    (hcur : (k.envs cur).envStatus ≠ .FREE) (hva : isIllegalVa srcva = false)
    (he : k.envid2env cur envid false = some e) (hrecv : (k.envs e).envIpcRecving ≠ 0) (h0 : srcva ≠ 0)
    (hl : (k.ipcWake cur e value perm q).pageLookupEnv cur srcva = some (some pp))
    (hi : (k.ipcWake cur e value perm q).pageInsertEnv e pp ((k.ipcWake cur e value perm q).envs e).envIpcDstva perm =
      some (r, k'))
    (ha : callMemAdmits k cur (.ipcTrySend envid value srcva perm) = true) (hjoin : k.joinable cur srcva perm = true) :
    Store.Renews k.mem.store e {VPN (k.envs e).envIpcDstva} k'.mem.store := by
  have hmoves : Moves mc .any e (k.envs e).envAsid k.mem k'.mem :=
    h.ipcPage_moves hcur hva he hrecv h0 hl hi ha ⟨fun _ _ => ⟨trivial, trivial⟩, fun _ _ _ _ _ _ => trivial⟩
  have hlive := envid2env_live hcur he
  obtain ⟨hmem, h₁⟩ := h.ipcWake hlive cur value perm q
  have hdst : ((k.ipcWake cur e value perm q).envs e).envIpcDstva = (k.envs e).envIpcDstva :=
    ipcWake_field Env.envIpcDstva (fun _ _ _ _ => rfl) k cur e value perm q e
  have hdir : ((k.ipcWake cur e value perm q).envs e).envPgdir = (k.envs e).envPgdir :=
    ipcWake_field Env.envPgdir (fun _ _ _ _ => rfl) k cur e value perm q e
  have hdirs : (k.ipcWake cur e value perm q).dirs = k.dirs := congrArg Mem.dirs hmem
  have hasid : ((k.ipcWake cur e value perm q).envs e).envAsid = (k.envs e).envAsid :=
    ipcWake_field Env.envAsid (fun _ _ _ _ => rfl) k cur e value perm q e
  rw [hdst] at hi
  rw [ipcWake_lookup] at hl
  obtain ⟨w, hw, rfl⟩ := user_of_pageLookup hcur hl
  obtain ⟨d, m', hd, hins, rfl⟩ := pageInsertEnv_cases hi
  have hd' : k.dirs e = some d := (dirs_of_live hlive).trans (hdir ▸ hd)
  have hmem' : ((k.ipcWake cur e value perm q).setPm m').mem = ⟨k.dirs, m'⟩ := by
    rw [← hdirs]
    rfl
  rw [hasid] at hins
  rw [hmem'] at hmoves ⊢
  refine h.mem.share_renews hd' (Mem.PDX_lt_of_lt (h.dstva e)) (Mem.PDX_lt_of_lt (MemOk.lt_of_legal hva)) hw
    (fun hr => ⟨?_, joinable_user hcur hjoin hw⟩) hmoves hins
  subst hr
  have hlive₁ : ((k.ipcWake cur e value perm q).envs e).envStatus ≠ .FREE := by
    rw [Kern.ipcWake, setEnv_self]
    intro heq
    cases heq
  have hroom : k.hasRoom e (k.envs e).envIpcDstva k.pm.pageFreeList = true := by
    have hroom := MemOk.hasRoom_of_insert (hdirs ▸ hd') hlive₁ rfl hi
    rw [hasRoom, hdir] at hroom
    exact hroom
  exact insertion_bits ha (MemOk.insertion_ipcTrySend h0 hva he hrecv hl hroom)

/-- The new environment has no page. -/
theorem vmSetup_empty {pgdir : Option Nat} {pm : Pmap} {rest : List EnvPtr} (hl : k.envFreeList = e :: rest)
    (hvm : k.VmSetup e pgdir pm) (hfree : k.vmFree = true) (hv : v.1 < PDX UTOP) :
    Mem.user ⟨Function.update k.dirs e pgdir, pm⟩ e v = none := by
  cases hvm with
  | ok hok => exact Mem.newDir_user hok hv
  | full hfull =>
    rw [MemOk.old_pgdir hl hfull hfree, Mem.user, Mem.pte]
    simp

theorem vmSetup_renews {pgdir : Option Nat} {pm : Pmap} {rest : List EnvPtr} (h : MemOk mc leak k)
    (hl : k.envFreeList = e :: rest) (hvm : k.VmSetup e pgdir pm) (hfree : k.vmFree = true) :
    Store.Renews k.mem.store e Set.univ (Mem.store ⟨Function.update k.dirs e pgdir, pm⟩) := by
  have hmoves : Moves mc .any e 0 k.mem ⟨Function.update k.dirs e pgdir, pm⟩ := h.alloc_moves hl hvm hfree 0
  exact h.mem.renews_none hmoves fun u hu => vmSetup_empty hl hvm hfree hu

private theorem envDestroy_renews {envid : Word} {left : Bool} (h : MemOk mc leak k) (hcur : (k.envs cur).envStatus ≠ .FREE)
    (he : k.envid2env cur envid true = some e) (hd : k.envDestroy e = some (k', left)) :
    Store.Renews k.mem.store e Set.univ k'.mem.store := by
  have hmoves : Moves mc .any e (k.envs e).envAsid k.mem k'.mem :=
    h.destroy_moves hcur he hd ⟨fun _ _ => ⟨trivial, trivial⟩, fun _ _ _ _ _ _ => trivial⟩
  refine h.mem.renews_none hmoves fun u _ => ?_
  obtain ⟨pgdir, pm, -, -, hmem⟩ := MemOk.mem_envDestroy hd
  rw [hmem, Mem.user, Mem.pte]
  simp

/-- A system call renews pages that it may replace. -/
private theorem call_renews {r : Option Word} (h : MemOk mc leak k) (hcur : (k.envs cur).envStatus ≠ .FREE)
    (hs : CallStep k cur c k' r) (ha : callCowAdmits k cur c = true) :
    ∃ e W, Store.Renews k.mem.store e W k'.mem.store ∧ ∀ v ∈ W, c.Remaps k cur e v := by
  have hmem := callCowAdmits_mem ha
  have hsame : k'.mem = k.mem → ∃ e W, Store.Renews k.mem.store e W k'.mem.store ∧ ∀ v ∈ W, c.Remaps k cur e v := by
    intro hmem
    rw [hmem]
    exact ⟨cur, ∅, .same rfl rfl, fun _ hv => absurd hv (Set.notMem_empty _)⟩
  have hone : ∀ {e : EnvPtr} {u : Vpn}, Store.Renews k.mem.store e {u} k'.mem.store → c.Remaps k cur e u →
      ∃ e W, Store.Renews k.mem.store e W k'.mem.store ∧ ∀ v ∈ W, c.Remaps k cur e v := by
    intro e u hren hmap
    refine ⟨e, {u}, hren, fun v hv => ?_⟩
    rw [Set.mem_singleton_iff.1 hv]
    exact hmap
  cases hmap : c.remaps with
  | false => exact hsame (MemOk.call_mem hcur hs hmap)
  | true =>
    cases hs with
    | unchanged => exact hsame rfl
    | @envDestroy envid e _ left he hd => exact ⟨e, Set.univ, envDestroy_renews h hcur he hd, fun v _ => .destroy he v⟩
    | memAlloc hva he hp hi =>
      rw [callCowAdmits, Bool.and_eq_true] at ha
      exact hone (memAlloc_renews h hcur hva he hp hi hmem ha.2) (.memAlloc he)
    | memMap hsrcva hdstva hs hd hl hi =>
      rw [callCowAdmits, Bool.and_eq_true, keepsPrivate, hs, Option.all_some] at ha
      have hjoin := ha.2
      exact hone (memMap_renews h hcur hsrcva hdstva hs hd hl hi hmem hjoin) (.memMap hd)
    | @memUnmap envid va e pgdir pm hva he hp hr =>
      have hd : k.dirs e = some pgdir := (dirs_of_live (envid2env_live hcur he)).trans hp
      exact hone (h.mem.remove_renews hd (Mem.PDX_lt_of_lt (MemOk.lt_of_legal hva)) hr) (.memUnmap he)
    | @exofork e k₁ hal =>
      obtain ⟨rest, pgdir, pm, asid, bitmap, hl, hvm, -, rfl⟩ := envAlloc_cases hal
      have hst : (k.envs e).envStatus = .FREE := h.live.free e (by rw [hl]; exact List.mem_cons_self ..)
      refine ⟨e, Set.univ, ?_, fun v _ => .fork hst v⟩
      rw [mem_forked]
      exact vmSetup_renews h hl hvm hmem
    | @ipcWoken envid value srcva perm r e q _ he _ _ _ => exact hsame (h.ipcWake (envid2env_live hcur he) cur value perm q).1
    | ipcPage hva he hrecv _ h0 hl hi =>
      rw [callCowAdmits, Bool.and_eq_true] at ha
      exact hone (ipcPage_renews h hcur hva he hrecv h0 hl hi hmem ha.2) (.ipc he)
    | _ => cases hmap

/-! ### Faults and new environments -/

/-- What `passive_alloc` maps below `UTOP` is a page of the environment; in the window of the page tables it is a table. -/
private theorem served_renews (h : MemOk mc leak k) (hcur : (k.envs cur).envStatus ≠ .FREE) (hva : va < ULIM)
    (hs : k.Served cur va k') :
    ∃ W, Store.Renews k.mem.store cur W k'.mem.store ∧ ∀ v ∈ W, v = VPN va := by
  have hmoves : Moves mc .any cur (k'.envs cur).envAsid k.mem k'.mem := h.served_moves hcur hva hs
  cases hs with
  | mapped => exact ⟨∅, .same rfl rfl, fun _ hv => absurd hv (Set.notMem_empty _)⟩
  | @alloc d _ hp hl halloc =>
    obtain ⟨pp, m₁, m', hd, hf, ha, hins, hmem⟩ := MemOk.served_insert hcur hp halloc
    rw [hmem] at hmoves ⊢
    have hvpn : VPN (PTE_ADDR va) = VPN va := VPN_PTE_ADDR va
    have hdx : PDX (PTE_ADDR va) = PDX va := congrArg Prod.fst hvpn
    rcases MemOk.window_of_allowed hva hf with hlt | hwin
    · obtain ⟨rest, hfree, rfl⟩ := Pmap.pageAlloc_cases ha
      refine ⟨{VPN va}, ?_, fun v hv => hv⟩
      rw [← hvpn]
      refine h.mem.alloc_renews hd (by rw [hdx]; exact Mem.PDX_lt_of_lt hlt) hfree (fun _ => ⟨?_, by decide⟩) hins hmoves
      rw [show PPN PTE_D = 0 by decide, Nat.or_zero]
    · rw [← MemOk.pageLookup_congr hvpn] at hl
      obtain ⟨rest, hfree, hidx, hinv, rfl⟩ := h.mem.window_link hd (hdx.trans hwin) hl ha hins
      have h₁ := h.mem.flush (k'.envs cur).envAsid (PTE_ADDR va)
      have hst := h₁.link_stores (j := 0) hd hinv hfree
      have hold : k.mem.user cur (PTX (PTE_ADDR va), 0) = none := by
        have hent : entry (k.pm.word d (PTX (PTE_ADDR va))) = none := entry_eq_none.2 hinv
        have hd : k.mem.dirs cur = some d := hd
        have hent : entry (k.mem.pm.word d (PTX (PTE_ADDR va))) = none := hent
        simp [Mem.user, Mem.pte, hd, hent]
      have hren := h.mem.renews hmoves ⟨hst.self, hst.other⟩ (fun q hq hqf => ?_) fun w _ hw => by cases hw
      · refine ⟨∅, hren.shrink ?_ ?_, fun _ hv => absurd hv (Set.notMem_empty _)⟩
        · rw [Mem.store]
          dsimp only
          rw [hold]
          split <;> rfl
        · rw [Mem.store]
          dsimp only
          rw [hst.self]
          split <;> rfl
      · have hqd : q ≠ d := fun heq => hq (.dir cur) trivial (heq ▸ hd)
        have hqp : q ≠ pp := fun heq => hqf (by rw [heq]; exact hfree ▸ List.mem_cons_self ..)
        exact Pmap.link_word hqd hqp

private theorem loadIcode_renews {D : Dirs} {m m' : Pmap} {d : Nat} {asid : Asid} {binary : Image} {s : Mem}
    (h : Mem.Ok mc leak ⟨D, m⟩) (hd : D e = some d) (hs : Store.Renews s.store e Set.univ (Mem.store ⟨D, m⟩))
    (hp : m.loadIcode d asid binary = some m') : Store.Renews s.store e Set.univ (Mem.store ⟨D, m'⟩) := by
  have hall : ∀ l : List (Word × Word), (∀ p ∈ l, p ∈ binary.pages) → ∀ {m : Pmap} {leak : Nat → Nat},
      Mem.Ok mc leak ⟨D, m⟩ → Store.Renews s.store e Set.univ (Mem.store ⟨D, m⟩) →
      l.foldlM (fun (m : Pmap) p => m.loadIcodeMapper d asid p.1 p.2) m = some m' →
      Store.Renews s.store e Set.univ (Mem.store ⟨D, m'⟩) := by
    intro l
    induction l with
    | nil =>
      intro _ m leak _ hs hl
      obtain rfl := Option.some.inj hl
      exact hs
    | cons p l ih =>
      intro hmem m leak h hs hl
      obtain ⟨m₂, hm₂, hl⟩ := Option.bind_eq_some_iff.1 hl
      obtain ⟨⟨q, m₁⟩, ha, hm₂⟩ := Option.bind_eq_some_iff.1 hm₂
      obtain ⟨⟨r, m₃⟩, hins, hm₂⟩ := Option.bind_eq_some_iff.1 hm₂
      dsimp only at hm₂
      split at hm₂
      case isFalse => cases hm₂
      case isTrue =>
        obtain rfl := Option.some.inj hm₂
        have hp := hmem p (List.mem_cons_self ..)
        have hi := Mem.PDX_lt_of_lt (binary.below p hp)
        have hperm : q ||| PPN p.2 = q ∧ plainPerm p.2 = true := by
          rcases binary.perms p hp with hperm | hperm
          · rw [hperm, show PPN PTE_V = 0 by decide, Nat.or_zero]
            exact ⟨rfl, by decide⟩
          · rw [hperm, show PPN (PTE_V ||| PTE_D) = 0 by decide, Nat.or_zero]
            exact ⟨rfl, by decide⟩
        have hmoves : Moves mc .any e asid ⟨D, m⟩ ⟨D, m₃⟩ := h.alloc_moves hd hi ha hperm.1 trivial hins
        obtain ⟨rest, hfree, rfl⟩ := Pmap.pageAlloc_cases ha
        obtain ⟨leak', h', -⟩ := h.moves hmoves
        have hren := h.alloc_renews hd hi hfree (fun _ => hperm) hins hmoves
        refine ih (fun p hp => hmem p (List.mem_cons_of_mem _ hp)) h' (hs.trans (hren.mono (Set.subset_univ _)) fun u a ha => ?_) hl
        exact h.alloc_fresh hd hi hfree (fun _ => hperm) hins ha
  exact hall binary.pages (fun _ hp => hp) h hs hp

private theorem create_renews {binary : Image} {priority : Word} (h : MemOk mc leak k) (hfree : k.vmFree = true)
    (hc : k.envCreate binary priority = some k') : ∃ e, k.envFreeList.head? = some e ∧
      Store.Renews k.mem.store e Set.univ k'.mem.store := by
  obtain ⟨e, rest, pgdir, pm₁, pm, hl, hvm, hload, hmem⟩ := MemOk.mem_created hc
  refine ⟨e, by rw [hl]; rfl, ?_⟩
  have hmoves : Moves mc .any e 0 k.mem ⟨Function.update k.dirs e (some pgdir), pm₁⟩ := h.alloc_moves hl hvm hfree 0
  obtain ⟨leak₁, h₁, -⟩ := h.mem.moves hmoves
  rw [hmem]
  exact loadIcode_renews h₁ (Function.update_self ..) (vmSetup_renews h hl hvm hfree) hload

end Kern

/-! ### Steps of the system -/

/-- The pages that a step may replace. -/
inductive Remaps (s : State) : Event → EnvPtr → Vpn → Prop
  | call {ev : Event} {cur e : EnvPtr} {c : Call} {v : Vpn} (hc : s.call ev = some (cur, c))
      (h : c.Remaps s.kern.skipInsn cur e v) : Remaps s ev e v
  | miss {va : Word} {cur : EnvPtr} (hp : s.phase = .entered (.tlbMiss va)) (hc : s.kern.curenv = some cur) :
      Remaps s .handle cur (VPN va)
  | create {binary : Image} {priority : Word} {e : EnvPtr} (hl : s.kern.envFreeList.head? = some e) (v : Vpn) :
      Remaps s (.create binary priority) e v

/-- Steps that keep private pages private. -/
def cowAdmits (s : State) : Event → Bool := s.admits vmFree callCowAdmits

theorem memAdmits_of_cow {s : State} {ev : Event} (h : cowAdmits s ev = true) : memAdmits s ev = true := by
  rw [memAdmits_eq]
  exact State.admits_mono h (fun _ h => h) fun _ _ _ h => callCowAdmits_mem h

/-- A step of the kernel renews pages that it may replace. -/
theorem MemOk.step_renews {mc : Machine} {leak : Nat → Nat} {s s' : State} {ev : Event} (h : MemOk mc leak s.kern)
    (hs : s.step ev = some s') (ha : cowAdmits s ev = true) :
    ∃ e W, Store.Renews s.kern.mem.store e W s'.kern.mem.store ∧ ∀ v ∈ W, Remaps s ev e v := by
  have hsame : s'.kern.mem = s.kern.mem →
      ∃ e W, Store.Renews s.kern.mem.store e W s'.kern.mem.store ∧ ∀ v ∈ W, Remaps s ev e v := by
    intro hmem
    rw [hmem]
    exact ⟨0, ∅, .same rfl rfl, fun _ hv => absurd hv (Set.notMem_empty _)⟩
  cases State.step_cases hs with
  | create hc =>
    obtain ⟨e, hl, hren⟩ := create_renews h ha hc
    exact ⟨e, Set.univ, hren, fun v _ => .create hl v⟩
  | evict k keep => exact ⟨0, ∅, .same rfl rfl, fun _ hv => absurd hv (Set.notMem_empty _)⟩
  | idle => exact hsame rfl
  | save => exact hsame rfl
  | tick hk => exact hsame (mem_schedule hk)
  | noSys => exact hsame rfl
  | @call k k' cur c r junk hc hd hcs =>
    have ha : callCowAdmits k.skipInsn cur c = true := (onCall_eq hc hd).symm.trans ha
    obtain ⟨e, W, hren, hW⟩ := call_renews h.skipInsn (h.live.cur cur hc) hcs ha
    exact ⟨e, W, hren, fun v hv => .call (by simp [State.call, hc, hd]) (hW v hv)⟩
  | @left k k' cur c junk hc hd hcs =>
    have ha : callCowAdmits k.skipInsn cur c = true := (onCall_eq hc hd).symm.trans ha
    obtain ⟨e, W, hren, hW⟩ := call_renews h.skipInsn (h.live.cur cur hc) hcs ha
    exact ⟨e, W, hren, fun v hv => .call (by simp [State.call, hc, hd]) (hW v hv)⟩
  | @tlbMiss k k₁ c va pgdir pp ptr hc hva hserved hdir hl =>
    obtain ⟨W, hren, hW⟩ := served_renews h (h.live.cur c hc) hva hserved
    refine ⟨c, W, hren, fun v hv => ?_⟩
    rw [hW v hv]
    exact .miss rfl hc
  | tlbMod => exact hsame rfl
  | ret hc hd => exact hsame ((mem_storeTf ..).trans (mem_sigFrame (doSignal_frame hd).1))

end Mos
