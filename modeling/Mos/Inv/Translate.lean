import Mos.Inv.Auth
import Mos.Inv.Counts

/-!
# Where translations come from

`page_insert` stores the permission word that the user passed in the word that holds the frame number, so `sys_mem_alloc`
and `sys_mem_map` map what they should as long as that word changes no bit of the frame number.  In runs of such calls
an environment gets a translation to a frame only if that frame was free, or was mapped or sent to it.
-/

namespace Mos

open Kern

/-- A frame that the call of `cur` maps in `b` at the page `v`. -/
inductive Kern.CallGain (k : Kern) (cur b : EnvPtr) (v : Vpn) (p : Nat) : Call → Prop
  | allocated {envid va perm : Word} (hva : isIllegalVa va = false) (he : k.envid2env cur envid true = some b)
      (hv : v = VPN va) (hp : k.pm.pageFreeList.head? = some p) : CallGain k cur b v p (.memAlloc envid va perm)
  | mapped {srcid srcva dstid dstva perm : Word} {srcenv : EnvPtr} (hva : isIllegalVa dstva = false)
      (hs : k.envid2env cur srcid true = some srcenv) (hd : k.envid2env cur dstid true = some b) (hv : v = VPN dstva)
      (hp : k.userMap (srcenv, VPN srcva) = some p) : CallGain k cur b v p (.memMap srcid srcva dstid dstva perm)
  | sent {envid value srcva perm : Word} (h0 : srcva ≠ 0) (he : k.envid2env cur envid false = some b)
      (hrecv : (k.envs b).envIpcRecving ≠ 0) (hv : v = VPN (k.envs b).envIpcDstva)
      (hp : k.userMap (cur, VPN srcva) = some p) : CallGain k cur b v p (.ipcTrySend envid value srcva perm)

/-- Where the frame `p` that `b` has mapped at `v` after the step comes from. -/
inductive Gain (s : State) (ev : Event) (b : EnvPtr) (v : Vpn) (p : Nat) : Prop
  | kept (h : s.kern.userMap (b, v) = some p)
  | created {binary : Image} {priority : Word} (hev : ev = .create binary priority)
      (hb : s.kern.envFreeList.head? = some b) (hv : ∃ x ∈ binary.pages, v = VPN x.1)
      (hp : p ∈ s.kern.pm.pageFreeList)
  | faulted {va : Word} (hev : ev = .handle) (hphase : s.phase = .entered (.tlbMiss va)) (hb : s.kern.curenv = some b)
      (hv : v = VPN va) (hp : p ∈ s.kern.pm.pageFreeList)
  | called {cur : EnvPtr} {c : Call} (hc : s.call ev = some (cur, c)) (h : s.kern.CallGain cur b v p c)

/-- What is mapped in a state, and what the calls and the other steps from it map. -/
structure TranslationsOk (mc : Machine) (s : State) : Prop where
  alloc : ∀ ev s' cur envid va perm, s.call ev = some (cur, .memAlloc envid va perm) → s.step ev = some s' →
    s'.kern.ktf.regs 2 = 0 → ∃ e pp, s.kern.envid2env cur envid true = some e ∧ s.kern.pm.pageFreeList.head? = some pp ∧
      (s'.kern.userMap (e, VPN va) = some pp ↔ pp ||| PPN perm = pp)
  map : ∀ ev s' cur srcid srcva dstid dstva perm, s.call ev = some (cur, .memMap srcid srcva dstid dstva perm) →
    s.step ev = some s' → s'.kern.ktf.regs 2 = 0 → ∃ srcenv dstenv pp,
      s.kern.envid2env cur srcid true = some srcenv ∧ s.kern.envid2env cur dstid true = some dstenv ∧
      s.kern.userMap (srcenv, VPN srcva) = some pp ∧
      (s'.kern.userMap (dstenv, VPN dstva) = some pp ↔ pp ||| PPN perm = pp)
  gain : ∀ ev s' b v p, memAdmits s ev = true → s.step ev = some s' → s'.kern.userMap (b, v) = some p → Gain s ev b v p
  frames : ∀ b v p, s.kern.userMap (b, v) = some p → mc.used ≤ p ∧ p < mc.npage ∧ ¬s.kern.IsTree mc p

namespace Mem

variable {s s' : Mem} {e : EnvPtr} {v v' : Vpn} {r : Option Word} {pp : Nat} {perm ret w : Word}

/-- An entry below `UTOP` after a store is the one that was stored, or an old one. -/
private theorem Stores.gain (h : Stores s e v r s') (hv : v'.1 < PDX UTOP) (hw : s'.user e v' = some w) :
    (v' = v ∧ r = some w) ∨ s.user e v' = some w := by
  by_cases hvv : v' = v
  · subst hvv
    exact .inl ⟨rfl, h.self.symm.trans hw⟩
  · exact .inr ((h.other v' hv hvv).symm.trans hw)

private theorem Inserted.eq_some (h : Inserted pp perm ret (some w)) : ret = 0 ∧ w = page2pa pp ||| perm ||| PTE_V := by
  cases h with
  | ok => exact ⟨rfl, rfl⟩

theorem Inserted.eq_zero (h : Inserted pp perm 0 r) : r = some (page2pa pp ||| perm ||| PTE_V) := by
  generalize hret : (0 : Word) = ret at h
  cases h with
  | ok => rfl
  | full => exact absurd hret (by decide)

end Mem

namespace Kern

variable {k k' : Kern} {e : EnvPtr} {v : Vpn} {p : Nat}

theorem userMap_of_user (k : Kern) (e : EnvPtr) (hv : v.1 < PDX UTOP) : k.userMap (e, v) = (k.mem.user e v).map PPN := by
  have hent : ∀ w : Word, entry w = (Option.filter (fun w => has w PTE_V) (some w)).map PPN := by
    intro w
    cases hw : has w PTE_V with
    | true => simp [entry, hw, Option.filter]
    | false => simp [entry, hw, Option.filter]
  rw [userMap, if_pos hv, Mem.user, Mem.pte]
  show (k.dirs e).bind _ = Option.map PPN (Option.filter _ ((k.dirs e).bind _))
  cases k.dirs e with
  | none => rfl
  | some d =>
    simp only [Option.bind_some]
    show ((entry (k.pm.word d v.1)).bind _) = Option.map PPN (Option.filter _ ((entry (k.pm.word d v.1)).map _))
    cases entry (k.pm.word d v.1) with
    | none => rfl
    | some t => exact hent _

private theorem userMap_lt (h : k.userMap (e, v) = some p) : v.1 < PDX UTOP := by
  by_contra hv
  rw [userMap, if_neg hv] at h
  cases h

private theorem userMap_congr (h : k'.mem = k.mem) (x : EnvPtr × Idx × Idx) : k'.userMap x = k.userMap x := by
  have hdirs : k'.dirs = k.dirs := congrArg Mem.dirs h
  have hpm : k'.pm = k.pm := congrArg Mem.pm h
  rw [userMap, userMap, hdirs, hpm]

/-- The frame of an entry below `UTOP`. -/
private theorem userMap_eq_some (h : k.userMap (e, v) = some p) :
    v.1 < PDX UTOP ∧ ∃ w, k.mem.user e v = some w ∧ PPN w = p := by
  have hv := userMap_lt h
  rw [userMap_of_user k e hv] at h
  exact ⟨hv, Option.map_eq_some_iff.1 h⟩

end Kern

/-! ### System calls -/

namespace MemOk

variable {mc : Machine} {leak : Nat → Nat} {k k' : Kern} {cur b e : EnvPtr} {c : Call} {v : Vpn} {p pp : Nat}
  {va perm : Word}

/-- What another environment has mapped stays. -/
private theorem userMap_of_moves (h : MemOk mc leak k) {asid : Asid} (hm : Moves mc .any e asid k.mem k'.mem) (hb : b ≠ e)
    (hp : k'.userMap (b, v) = some p) : k.userMap (b, v) = some p := by
  have hv := userMap_lt hp
  obtain ⟨hdirs, hframe⟩ := h.mem.moves_frame hm hb
  have hpte := h.mem.pte_congr (Mem.lt_ULIM hv) hdirs fun q hq => (hframe q hq).1
  rw [userMap_of_user _ _ hv, Mem.user, ← hpte]
  rwa [userMap_of_user _ _ hv] at hp

/-- What is mapped after a store. -/
private theorem userMap_of_stores {m : Pmap} {v' : Vpn} {ret : Word} {r : Option Word} (hins : Mem.Inserted pp perm ret r)
    (hst : Mem.Stores ⟨k.dirs, m⟩ e v' r k'.mem) (hpp : pp < 2 ^ 20) (hp : k'.userMap (e, v) = some p) :
    (v = v' ∧ ret = 0 ∧ p = pp ||| PPN perm) ∨ (k.setPm m).userMap (e, v) = some p := by
  obtain ⟨hv, w, hw, rfl⟩ := userMap_eq_some hp
  rcases hst.gain hv hw with ⟨rfl, rfl⟩ | hold
  · obtain ⟨rfl, rfl⟩ := hins.eq_some
    exact .inl ⟨rfl, rfl, PPN_entry hpp perm⟩
  · right
    have hmem : (k.setPm m).mem = ⟨k.dirs, m⟩ := rfl
    rw [userMap_of_user _ _ hv, hmem, hold]
    rfl

/-- Taking a page from the free list changes no translation. -/
private theorem userMap_take (h : MemOk mc leak k) {rest : List Nat} (hl : k.pm.pageFreeList = pp :: rest)
    (hp : (k.setPm (k.pm.take pp rest)).userMap (b, v) = some p) : k.userMap (b, v) = some p := by
  have hv := userMap_lt hp
  have htake := h.mem.take_user (e := b) hl hv
  have hmem : (k.setPm (k.pm.take pp rest)).mem = ⟨k.dirs, k.pm.take pp rest⟩ := rfl
  rw [userMap_of_user _ _ hv, hmem, htake] at hp
  rw [userMap_of_user _ _ hv]
  exact hp

theorem page_lt (hb : pp < mc.npage) : pp < 2 ^ 20 := by
  have hk := mc.kseg0
  omega

/-- A new environment has nothing mapped below `UTOP`. -/
private theorem alloc_user {pgdir : Option Nat} {pm : Pmap} {rest : List EnvPtr}
    (hl : k.envFreeList = e :: rest) (hvm : k.VmSetup e pgdir pm) (hfree : k.vmFree = true) (hv : v.1 < PDX UTOP) :
    Mem.user ⟨Function.update k.dirs e pgdir, pm⟩ e v = none := by
  cases hvm with
  | ok hok => exact Mem.newDir_user hok hv
  | full hfull =>
    have hold := old_pgdir hl hfull hfree
    simp [Mem.user, Mem.pte, hold]

private theorem alloc_free {pgdir : Option Nat} {pm : Pmap} (hvm : k.VmSetup e pgdir pm) {q : Nat}
    (hq : q ∈ pm.pageFreeList) :
    q ∈ k.pm.pageFreeList := by
  cases hvm with
  | ok hok =>
    obtain ⟨rest, hl, rfl⟩ := Pmap.envSetupVm_cases hok
    rw [hl]
    exact List.mem_cons_of_mem _ hq
  | full => exact hq

/-- A page that was sent had room. -/
private theorem sent_room {value : Word} {q : TailQueue EnvPtr}
    (hi : (k.ipcWake cur e value perm q).pageInsertEnv e pp ((k.ipcWake cur e value perm q).envs e).envIpcDstva perm =
      some (0, k')) : k.hasRoom e (k.envs e).envIpcDstva k.pm.pageFreeList = true := by
  have hdst : ((k.ipcWake cur e value perm q).envs e).envIpcDstva = (k.envs e).envIpcDstva :=
    ipcWake_field Env.envIpcDstva (fun _ _ _ _ => rfl) k cur e value perm q e
  have hdir : ((k.ipcWake cur e value perm q).envs e).envPgdir = (k.envs e).envPgdir :=
    ipcWake_field Env.envPgdir (fun _ _ _ _ => rfl) k cur e value perm q e
  have hlive₁ : ((k.ipcWake cur e value perm q).envs e).envStatus ≠ .FREE := by
    rw [Kern.ipcWake, setEnv_self]
    intro h
    cases h
  rw [hdst] at hi
  obtain ⟨d, hd⟩ := dir_of_insert (m := (k.ipcWake cur e value perm q).pm) hlive₁ hi
  have hroom := hasRoom_of_insert (m := (k.ipcWake cur e value perm q).pm) hd hlive₁ rfl hi
  rw [hasRoom, hdir] at hroom
  exact hroom

/-- A call maps only what it should. -/
private theorem call_gain (h : MemOk mc leak k) {r : Option Word} (hcur : (k.envs cur).envStatus ≠ .FREE)
    (hs : CallStep k cur c k' r) (ha : callMemAdmits k cur c = true) (hp : k'.userMap (b, v) = some p) :
    k.userMap (b, v) = some p ∨ k.CallGain cur b v p c := by
  have hpol : CallPolicy .any k cur c := ⟨fun _ _ => ⟨trivial, trivial⟩, fun _ _ _ _ _ _ => trivial⟩
  -- A call that stores no entry gains nothing; the others work on the pages of one environment only.
  cases hmap : c.remaps with
  | false => exact .inl (userMap_congr (call_mem hcur hs hmap) (b, v) ▸ hp)
  | true =>
    cases hs with
    | unchanged => exact .inl hp
    | @envDestroy envid e _ left he hd =>
      have hbe : b ≠ e := by
        rintro rfl
        obtain ⟨_, pm, -, -, hmem⟩ := mem_envDestroy hd
        have hnone : k'.dirs b = none := (congrFun (congrArg Mem.dirs hmem) b).trans (Function.update_self ..)
        simp [userMap, hnone] at hp
      exact .inl (h.userMap_of_moves (h.destroy_moves hcur he hd hpol) hbe hp)
    | @memAlloc envid va perm r e pp pm _ hva he hpa hi =>
      by_cases hbe : b = e
      · subst hbe
        have hlive := envid2env_live hcur he
        obtain ⟨rest, hl, rfl⟩ := Pmap.pageAlloc_cases hpa
        have hfresh := h.mem.fresh (q := pp) (by rw [hl]; exact List.mem_cons_self ..)
        obtain ⟨r', hins, hst⟩ := insert_stores (h.mem.take hl) hlive (lt_of_legal hva) hi
        rcases userMap_of_stores hins hst (page_lt hfresh.bound.2) hp with ⟨rfl, rfl, rfl⟩ | hold
        · right
          obtain ⟨d, hd⟩ := dir_of_insert hlive hi
          have hne : d ≠ pp := fun heq => hfresh.unused (.dir b) (heq ▸ hd)
          have hroom := hasRoom_of_insert hd hlive (Function.update_of_ne hne ..) hi
          have hins := insertable_of_admits ha (insertion_memAlloc hva he hl hroom)
          simp only [insertable, Bool.and_eq_true, decide_eq_true_eq] at hins
          exact .allocated hva he rfl (by rw [hins.1, hl]; rfl)
        · exact .inl (h.userMap_take hl hold)
      · exact .inl (h.userMap_of_moves (h.memAlloc_moves hcur hva he hpa hi ha hpol) hbe hp)
    | @memMap srcid srcva dstid dstva perm r srcenv dstenv pp _ hsrcva hdstva hs hd hl hi =>
      by_cases hbe : b = dstenv
      · subst hbe
        have hlive := envid2env_live hcur hd
        have hpp := h.lookup_some (envid2env_live hcur hs) (lt_of_legal hsrcva) hl
        obtain ⟨r', hins, hst⟩ := insert_stores (m := k.pm) h.mem hlive (lt_of_legal hdstva) hi
        rcases userMap_of_stores hins hst (page_lt (h.mem.tree.bound _ _ hpp).2) hp with ⟨rfl, rfl, rfl⟩ | hold
        · right
          obtain ⟨d, hdir⟩ := dir_of_insert (m := k.pm) hlive hi
          have hroom := hasRoom_of_insert (m := k.pm) hdir hlive rfl hi
          have hins := insertable_of_admits ha (insertion_memMap hsrcva hdstva hs hd hl hroom)
          simp only [insertable, Bool.and_eq_true, decide_eq_true_eq] at hins
          rw [hins.1]
          exact .mapped hdstva hs hd rfl hpp
        · exact .inl hold
      · exact .inl (h.userMap_of_moves (h.memMap_moves hcur hsrcva hdstva hs hd hl hi ha hpol) hbe hp)
    | @memUnmap envid va e pgdir pm hva he hdir hr =>
      have hd : k.dirs e = some pgdir := (dirs_of_live (envid2env_live hcur he)).trans hdir
      have hi := Mem.PDX_lt_of_lt (lt_of_legal hva)
      by_cases hbe : b = e
      · subst hbe
        have hst : Mem.Stores k.mem b (VPN va) none (k.setPm pm).mem := h.mem.pageRemove_stores hd hi hr
        obtain ⟨hv, w, hw, rfl⟩ := userMap_eq_some hp
        rcases hst.gain hv hw with ⟨-, hnone⟩ | hold
        · cases hnone
        · left
          rw [userMap_of_user _ _ hv]
          exact congrArg (Option.map PPN) hold
      · have hm : Moves mc .any e (k.envs e).envAsid k.mem (k.setPm pm).mem := h.mem.pageRemove_moves hd hi hr
        exact .inl (h.userMap_of_moves hm hbe hp)
    | @exofork e k₁ hal =>
      obtain ⟨rest, pgdir, pm, asid, bitmap, hl, hvm, -, rfl⟩ := envAlloc_cases hal
      have hmem := mem_forked k cur e rest pgdir pm asid bitmap (k.envs cur).envId
      have hm : Moves mc .any e asid k.mem ⟨Function.update k.dirs e pgdir, pm⟩ := h.alloc_moves hl hvm ha asid
      by_cases hbe : b = e
      · subst hbe
        obtain ⟨hv, w, hw, -⟩ := userMap_eq_some hp
        rw [hmem] at hw
        rw [alloc_user hl hvm ha hv] at hw
        cases hw
      · exact .inl (h.userMap_of_moves (hmem ▸ hm) hbe hp)
    | @ipcWoken envid value srcva perm r e q _ he _ _ _ =>
      exact .inl (userMap_congr (h.ipcWake (envid2env_live hcur he) cur value perm q).1 (b, v) ▸ hp)
    | @ipcPage envid value srcva perm r e q pp _ hva he hrecv _ h0 hl hi =>
      by_cases hbe : b = e
      · subst hbe
        have hlive := envid2env_live hcur he
        obtain ⟨r', hins, hst⟩ := h.sent_stores hlive hi
        have hlook : k.pageLookupEnv cur srcva = some (some pp) := by
          rw [← ipcWake_lookup k cur b value perm q cur srcva]
          exact hl
        have hpp := h.lookup_some hcur (lt_of_legal hva) hlook
        rcases userMap_of_stores (m := k.pm) hins hst (page_lt (h.mem.tree.bound _ _ hpp).2) hp with
          ⟨rfl, rfl, rfl⟩ | hold
        · right
          have hroom := sent_room hi
          have hins := insertable_of_admits ha (insertion_ipcTrySend h0 hva he hrecv hlook hroom)
          simp only [insertable, Bool.and_eq_true, decide_eq_true_eq] at hins
          rw [hins.1]
          exact .sent h0 he hrecv rfl hpp
        · exact .inl hold
      · exact .inl (h.userMap_of_moves (h.ipcPage_moves hcur hva he hrecv h0 hl hi ha hpol) hbe hp)
    | _ => cases hmap

/-! ### Faults and new environments -/

/-- The page that `passive_alloc` maps was free; in the window of the page tables it becomes an empty table. -/
private theorem passiveAlloc_gain {m m₁ m' : Pmap} {D : Dirs} {d : Nat} {asid : Asid} {r w : Word}
    (h : Mem.Ok mc leak ⟨D, m⟩) (hd : D e = some d) (hva : va < ULIM) (hf : forbidden va = false)
    (hl : m.pageLookup d va = some none) (ha : m.pageAlloc = some (pp, m₁))
    (hp : m₁.pageInsert d asid pp (PTE_ADDR va) PTE_D = some (r, m')) (hv : v.1 < PDX UTOP)
    (hw : Mem.user ⟨D, m'⟩ e v = some w) :
    Mem.user ⟨D, m⟩ e v = some w ∨ (v = VPN va ∧ pp ∈ m.pageFreeList ∧ PPN w = pp) := by
  obtain ⟨rest, hfree, rfl⟩ := Pmap.pageAlloc_cases ha
  have hmem : pp ∈ m.pageFreeList := by
    rw [hfree]
    exact List.mem_cons_self ..
  have hvpn := VPN_PTE_ADDR va
  rcases window_of_allowed hva hf with hlt | hwin
  · have hdx : PDX (PTE_ADDR va) = PDX va := congrArg Prod.fst hvpn
    obtain ⟨r', hins, hst⟩ := (h.take hfree).pageInsert_stores hd (by rw [hdx]; exact Mem.PDX_lt_of_lt hlt) hp
    rcases hst.gain hv hw with ⟨rfl, rfl⟩ | hold
    · obtain ⟨rfl, rfl⟩ := hins.eq_some
      refine .inr ⟨hvpn, hmem, ?_⟩
      rw [PPN_entry (page_lt (h.fresh hmem).bound.2), show PPN PTE_D = 0 by decide, Nat.or_zero]
    · exact .inl ((h.take_user hfree hv).symm.trans hold)
  · have hdx : PDX (PTE_ADDR va) = PDX UVPT := (congrArg Prod.fst hvpn).trans hwin
    rw [← pageLookup_congr hvpn] at hl
    obtain ⟨rest', hfree', -, hinv, rfl⟩ := h.window_link hd hdx hl ha hp
    have hst := (h.flush asid (PTE_ADDR va)).link_stores (j := 0) hd hinv hfree'
    rcases hst.gain hv hw with ⟨-, hnone⟩ | hold
    · cases hnone
    · exact .inl hold

private theorem served_gain (h : MemOk mc leak k) (hcur : (k.envs cur).envStatus ≠ .FREE) (hva : va < ULIM)
    (hs : k.Served cur va k') (hp : k'.userMap (b, v) = some p) :
    k.userMap (b, v) = some p ∨ (b = cur ∧ v = VPN va ∧ p ∈ k.pm.pageFreeList) := by
  by_cases hbc : b = cur
  · subst hbc
    cases hs with
    | mapped => exact .inl hp
    | @alloc pgdir _ hdir hl halloc =>
      obtain ⟨pp, m₁, m', hd, hf, ha, hi, hmem⟩ := served_insert hcur hdir halloc
      obtain ⟨hv, w, hw, rfl⟩ := userMap_eq_some hp
      rw [hmem] at hw
      rcases passiveAlloc_gain h.mem hd hva hf hl ha hi hv hw with hold | ⟨hvpn, hfree, rfl⟩
      · left
        rw [userMap_of_user _ _ hv]
        exact congrArg (Option.map PPN) hold
      · exact .inr ⟨rfl, hvpn, hfree⟩
  · exact .inl (h.userMap_of_moves (h.served_moves hcur hva hs) hbc hp)

/-- `load_icode` maps free pages only, at the addresses of the image. -/
private theorem loadIcode_gain {m m' : Pmap} {D : Dirs} {d : Nat} {asid : Asid} {binary : Image} {w : Word} {F : Nat → Prop}
    (h : Mem.Ok mc leak ⟨D, m⟩) (hd : D e = some d) (hload : m.loadIcode d asid binary = some m')
    (hfree : ∀ q ∈ m.pageFreeList, F q) (huser : ∀ v, v.1 < PDX UTOP → Mem.user ⟨D, m⟩ e v = none)
    (hv : v.1 < PDX UTOP) (hw : Mem.user ⟨D, m'⟩ e v = some w) : (∃ x ∈ binary.pages, v = VPN x.1) ∧ F (PPN w) := by
  have hall : ∀ l : List (Word × Word), (∀ p ∈ l, p ∈ binary.pages) → ∀ {m : Pmap} {leak : Nat → Nat},
      Mem.Ok mc leak ⟨D, m⟩ → (∀ q ∈ m.pageFreeList, F q) →
      (∀ v w, v.1 < PDX UTOP → Mem.user ⟨D, m⟩ e v = some w → (∃ x ∈ binary.pages, v = VPN x.1) ∧ F (PPN w)) →
      l.foldlM (fun (m : Pmap) p => m.loadIcodeMapper d asid p.1 p.2) m = some m' →
      (∃ x ∈ binary.pages, v = VPN x.1) ∧ F (PPN w) := by
    intro l
    induction l with
    | nil =>
      intro _ m leak _ _ huser hl
      obtain rfl := Option.some.inj hl
      exact huser v w hv hw
    | cons p l ih =>
      intro hmem m leak h hfree huser hl
      obtain ⟨m₂, hm₂, hl⟩ := Option.bind_eq_some_iff.1 hl
      obtain ⟨⟨q, m₁⟩, ha, hm₂⟩ := Option.bind_eq_some_iff.1 hm₂
      obtain ⟨⟨r, m₃⟩, hins, hm₂⟩ := Option.bind_eq_some_iff.1 hm₂
      dsimp only at hm₂
      split at hm₂
      case isFalse => cases hm₂
      case isTrue =>
        obtain rfl := Option.some.inj hm₂
        have hp := hmem p (List.mem_cons_self ..)
        have hi := Mem.PDX_lt_of_lt (binary.below p hp)
        have hperm : PPN p.2 = 0 := by
          rcases binary.perms p hp with hperm | hperm
          · rw [hperm]
            decide
          · rw [hperm]
            decide
        have hmoves : Moves mc .any e asid ⟨D, m⟩ ⟨D, m₃⟩ :=
          h.alloc_moves hd hi ha (by rw [hperm, Nat.or_zero]) trivial hins
        obtain ⟨leak', h', -⟩ := h.moves hmoves
        obtain ⟨rest, hq, rfl⟩ := Pmap.pageAlloc_cases ha
        have hqm : q ∈ m.pageFreeList := by
          rw [hq]
          exact List.mem_cons_self ..
        have huser₁ : ∀ v w, v.1 < PDX UTOP → Mem.user ⟨D, m.take q rest⟩ e v = some w →
            (∃ x ∈ binary.pages, v = VPN x.1) ∧ F (PPN w) := by
          intro v w hv hw
          exact huser v w hv ((h.take_user hq hv).symm.trans hw)
        refine ih (fun p hp => hmem p (List.mem_cons_of_mem _ hp)) h' (fun x hx => ?_) (fun v w hv hw => ?_) hl
        · rcases Mem.pageInsert_free (h.take hq) hd hi hins hx with hx | ⟨w, hw, rfl⟩
          · exact hfree x (hq ▸ List.mem_cons_of_mem q hx)
          · exact (huser₁ _ w hi hw).2
        · obtain ⟨r', hr, hst⟩ := (h.take hq).pageInsert_stores hd hi hins
          rcases hst.gain hv hw with ⟨rfl, rfl⟩ | hold
          · obtain ⟨-, rfl⟩ := hr.eq_some
            rw [PPN_entry (page_lt (h.fresh hqm).bound.2), hperm, Nat.or_zero]
            exact ⟨⟨p, hp, rfl⟩, hfree q hqm⟩
          · exact huser₁ v w hv hold
  refine hall binary.pages (fun _ hp => hp) h hfree (fun v w hv hw => ?_) hload
  rw [huser v hv] at hw
  cases hw

private theorem create_gain (h : MemOk mc leak k) {binary : Image} {priority : Word} (hfree : k.vmFree = true)
    (hc : k.envCreate binary priority = some k') (hp : k'.userMap (b, v) = some p) :
    k.userMap (b, v) = some p ∨ (k.envFreeList.head? = some b ∧ (∃ x ∈ binary.pages, v = VPN x.1) ∧
      p ∈ k.pm.pageFreeList) := by
  obtain ⟨e, rest, pgdir, pm₁, pm, hl, hvm, hload, hmem⟩ := mem_created hc
  have hhead : k.envFreeList.head? = some e := by
    rw [hl]
    rfl
  by_cases hbe : b = e
  · subst hbe
    right
    refine ⟨hhead, ?_⟩
    obtain ⟨hv, w, hw, rfl⟩ := userMap_eq_some hp
    rw [hmem] at hw
    have hmoves : Moves mc .any b (k'.envs b).envAsid k.mem ⟨Function.update k.dirs b (some pgdir), pm₁⟩ :=
      h.alloc_moves hl hvm hfree _
    obtain ⟨leak₁, h₁, -⟩ := h.mem.moves hmoves
    exact loadIcode_gain h₁ (Function.update_self ..) hload (fun q hq => alloc_free hvm hq)
      (fun v hv => alloc_user hl hvm hfree hv) hv hw
  · obtain ⟨e', hhead', hm⟩ : ∃ e', k.envFreeList.head? = some e' ∧
        Moves mc .any e' (k'.envs e').envAsid k.mem k'.mem := h.create_moves hfree hc
    obtain rfl := Option.some.inj (hhead.symm.trans hhead')
    exact .inl (h.userMap_of_moves hm hbe hp)

end MemOk

/-! ### Steps of the system -/

/-- The call that a step makes keeps the frames' sources. -/
private theorem Kern.CallGain.of_skipInsn {k : Kern} {cur b : EnvPtr} {v : Vpn} {p : Nat} {c : Call}
    (h : k.skipInsn.CallGain cur b v p c) : k.CallGain cur b v p c := by
  cases h with
  | allocated hva he hv hp => exact .allocated hva he hv hp
  | mapped hva hs hd hv hp => exact .mapped hva hs hd hv hp
  | sent h0 he hrecv hv hp => exact .sent h0 he hrecv hv hp

/-- What is mapped after an admitted step. -/
theorem MemOk.gain {mc : Machine} {leak : Nat → Nat} {s s' : State} {ev : Event} {b : EnvPtr} {v : Vpn} {p : Nat}
    (h : MemOk mc leak s.kern) (hs : Step s ev s') (ha : memAdmits s ev = true) (hp : s'.kern.userMap (b, v) = some p) :
    Gain s ev b v p := by
  have hsame : s'.kern.mem = s.kern.mem → Gain s ev b v p := fun hmem => .kept (userMap_congr hmem (b, v) ▸ hp)
  cases hs with
  | create hc =>
    rcases h.create_gain ha hc hp with hold | ⟨hb, hv, hfree⟩
    · exact .kept hold
    · exact .created rfl hb hv hfree
  | evict => exact .kept hp
  | idle => exact hsame rfl
  | save => exact hsame rfl
  | tick hk => exact hsame (mem_schedule hk)
  | noSys => exact hsame rfl
  | @call k k' cur c r junk hc hd hcall =>
    have ha : callMemAdmits k.skipInsn cur c = true := (onCall_eq hc hd).symm.trans ha
    rcases h.skipInsn.call_gain (h.live.cur cur hc) hcall ha hp with hold | hgain
    · exact .kept hold
    · exact .called (by simp [State.call, hc, hd]) hgain.of_skipInsn
  | @left k k' cur c junk hc hd hcall =>
    have ha : callMemAdmits k.skipInsn cur c = true := (onCall_eq hc hd).symm.trans ha
    rcases h.skipInsn.call_gain (h.live.cur cur hc) hcall ha hp with hold | hgain
    · exact .kept hold
    · exact .called (by simp [State.call, hc, hd]) hgain.of_skipInsn
  | tlbMiss hc hva hserved hdir hl =>
    rcases h.served_gain (h.live.cur _ hc) hva hserved hp with hold | ⟨rfl, hv, hfree⟩
    · exact .kept hold
    · exact .faulted rfl rfl hc hv hfree
  | tlbMod => exact hsame rfl
  | @ret k k₁ c returned tf hc hd =>
    have hret : (k₁.storeTf c returned tf).mem = k.mem := (mem_storeTf k₁ c returned tf).trans (mem_sigFrame (doSignal_frame hd).1)
    exact hsame hret

/-- What an insertion maps at its address. -/
private theorem MemOk.userMap_insert {mc : Machine} {leak : Nat → Nat} {k k' : Kern} {m : Pmap} {e : EnvPtr} {pp : Nat}
    {va perm : Word} (h : Mem.Ok mc leak ⟨k.dirs, m⟩) (hlive : (k.envs e).envStatus ≠ .FREE) (hva : va < UTOP)
    (hpp : pp < mc.npage) (hi : (k.setPm m).pageInsertEnv e pp va perm = some (0, k')) :
    k'.userMap (e, VPN va) = some pp ↔ pp ||| PPN perm = pp := by
  obtain ⟨r, hins, hst⟩ := insert_stores h hlive hva hi
  rw [userMap_of_user _ _ (Mem.PDX_lt_of_lt hva), hst.self, hins.eq_zero, Option.map_some, Option.some.injEq,
    PPN_entry (page_lt hpp)]

private theorem TranslationsOk.of_memOk {mc : Machine} {leak : Nat → Nat} {s : State} (h : MemOk mc leak s.kern) :
    TranslationsOk mc s := by
  -- A call that returns 0 has come to its insertion, and a mapping that is new was made by an insertion.
  constructor
  · intro ev s' cur envid va perm hc hs h0
    obtain ⟨junk, k', r, -, hcur, -, hcall, hk'⟩ := State.call_cases hc hs
    have hm := h.skipInsn
    rcases sysMemAlloc_cases hcall with ⟨w, rfl, hw, -⟩ | ⟨e, pp, pm, w, rfl, hva, he, hp, hi⟩
    · rw [hk'] at h0
      have h0 : w = 0 := h0
      rw [h0] at hw
      exact absurd hw (by decide)
    · have hw : w = 0 := by
        rw [hk'] at h0
        exact h0
      subst hw
      obtain ⟨rest, hl, rfl⟩ := Pmap.pageAlloc_cases hp
      have hfresh := hm.mem.fresh (q := pp) (by rw [hl]; exact List.mem_cons_self ..)
      have hlive := envid2env_live (hm.live.cur cur hcur) he
      have hhead : s.kern.pm.pageFreeList.head? = some pp := by
        have hl : s.kern.pm.pageFreeList = pp :: rest := hl
        rw [hl]
        rfl
      refine ⟨e, pp, he, hhead, ?_⟩
      have hmap := MemOk.userMap_insert (hm.mem.take hl) hlive (MemOk.lt_of_legal hva) hfresh.bound.2 hi
      rw [hk']
      exact hmap
  · intro ev s' cur srcid srcva dstid dstva perm hc hs h0
    obtain ⟨junk, k', r, -, hcur, -, hcall, hk'⟩ := State.call_cases hc hs
    have hm := h.skipInsn
    rcases sysMemMap_cases hcall with ⟨w, rfl, hw, -⟩ | ⟨srcenv, dstenv, pp, w, rfl, hsrcva, hva, hsrc, hd, hl, hi⟩
    · rw [hk'] at h0
      have h0 : w = 0 := h0
      rw [h0] at hw
      exact absurd hw (by decide)
    · have hw : w = 0 := by
        rw [hk'] at h0
        exact h0
      subst hw
      have hpp := hm.lookup_some (envid2env_live (hm.live.cur cur hcur) hsrc) (MemOk.lt_of_legal hsrcva) hl
      have hlive := envid2env_live (hm.live.cur cur hcur) hd
      refine ⟨srcenv, dstenv, pp, hsrc, hd, hpp, ?_⟩
      have hmap := MemOk.userMap_insert (m := s.kern.skipInsn.pm) hm.mem hlive (MemOk.lt_of_legal hva)
        (hm.mem.tree.bound _ _ hpp).2 hi
      rw [hk']
      exact hmap
  · intro ev s' b v p ha hs hp
    exact h.gain (State.step_cases hs) ha hp
  · intro b v p hp
    have hdata := h.mem.tree.data_of_pte hp
    refine ⟨hdata.bound.1, hdata.bound.2, fun htree => ?_⟩
    obtain ⟨x, hx, hxp⟩ := isTree_iff.1 htree
    exact hdata.notTree x hx hxp

theorem translations_ok {mc : Machine} {l : List (State × Event)} {s : State}
    (h : kernel.Steps (fun s ev => memAdmits s ev = true) ⟨.user, mc.bootKern⟩ l s) : TranslationsOk mc s := by
  obtain ⟨leak, hm⟩ := MemOk.of_steps h
  exact .of_memOk hm

/-- The first environment is about to allocate a page with `perm`. -/
def asksAlloc (perm : Word) : List Event := .create .empty 1 :: tickEvents ++ (callEvents 6 0 UTEXT perm).take 1

private theorem asksAlloc_cond : (kernel.trace memAdmits ⟨.user, Machine.gxemul.bootKern⟩ (asksAlloc PTE_V)).any fun r =>
    r.2.call .handle = some (0, .memAlloc 0 UTEXT PTE_V) ∧ (r.2.step .handle).any fun s' =>
      s'.kern.ktf.regs 2 = 0 ∧ s'.kern.userMap (0, VPN UTEXT) = r.2.kern.pm.pageFreeList.head? := by
  decide +kernel

theorem translations_ok_asksAlloc : ∃ l s, kernel.trace memAdmits ⟨.user, Machine.gxemul.bootKern⟩ (asksAlloc PTE_V) =
    some (l, s) ∧ s.call .handle = some (0, .memAlloc 0 UTEXT PTE_V) ∧ TranslationsOk Machine.gxemul s := by
  obtain ⟨⟨l, s⟩, hl, hcond⟩ := (Option.any_eq_true _ _).1 asksAlloc_cond
  obtain ⟨hc, -⟩ := of_decide_eq_true hcond
  exact ⟨l, s, hl, hc, translations_ok (.of_trace hl)⟩

/-- With a bit of the frame number set, the page that is mapped is the template directory. -/
private theorem allocElsewhere_cond : (kernel.trace memAdmits ⟨.user, Machine.gxemul.bootKern⟩ (asksAlloc 0x4000)).any fun r =>
    r.2.call .handle = some (0, .memAlloc 0 UTEXT 0x4000) ∧ r.2.kern.envid2env 0 0 true = some 0 ∧
      r.2.kern.pm.pageFreeList.head? = some 0x3FFB ∧ (r.2.step .handle).any fun s' =>
        s'.kern.ktf.regs 2 = 0 ∧ s'.kern.userMap (0, VPN UTEXT) = some (Machine.gxemul.baseFrame 0) := by
  decide +kernel

theorem exists_alloc_elsewhere : ∃ l s s' e pp p, kernel.Steps (fun s ev => memAdmits s ev = true)
      ⟨.user, Machine.gxemul.bootKern⟩ l s ∧ s.call .handle = some (0, .memAlloc 0 UTEXT 0x4000) ∧
    s.step .handle = some s' ∧ s'.kern.ktf.regs 2 = 0 ∧ s.kern.envid2env 0 0 true = some e ∧
    s.kern.pm.pageFreeList.head? = some pp ∧ s'.kern.userMap (e, VPN UTEXT) = some p ∧ p ≠ pp ∧
    s'.kern.IsTree Machine.gxemul p := by
  obtain ⟨⟨l, s⟩, hl, hcond⟩ := (Option.any_eq_true _ _).1 allocElsewhere_cond
  obtain ⟨hc, he, hhead, hs⟩ := of_decide_eq_true hcond
  obtain ⟨s', hs, hmap⟩ := (Option.any_eq_true _ _).1 hs
  obtain ⟨h0, hmap⟩ := of_decide_eq_true hmap
  exact ⟨l, s, s', 0, _, _, .of_trace hl, hc, hs, h0, he, hhead, hmap, by decide, .inl ⟨0, rfl⟩⟩

end Mos
