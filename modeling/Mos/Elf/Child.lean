import Mos.Elf.Headers
import Mos.Elf.Share
import Mos.Inv.Ids

/-!
# The child that `spawn` builds

`spawn` goes through the same steps for every file: `sys_exofork` takes a slot and a page directory, `init_stack` maps the
stack page, the segments are loaded, the file is closed and the trapframe is set. Each of them keeps `Building` (the caller
changes only pages of its own, and those of the child), and `Forked` says what the child is after the first two. The other
loader, `env_create`, starts from an environment without a page as well.
-/

namespace Mos

open Kern

namespace Kern

/-! ### The new environment -/

section

variable {mc : Machine} {leak : Nat → Nat} {k k' k₁ : Kern} {m m' m₀ : Pmap} {cur e : EnvPtr} {va child r : Word} {p : Nat}

/-- What `sys_exofork` returns. -/
theorem exofork_cases (h : returning (k.sysExofork cur) = some (child, k')) :
    (child = -E_NO_FREE_ENV ∧ k' = k) ∨ ∃ e pgdir pm, NewCore k e (k.envs cur).envId .NOT_RUNNABLE k' ∧
      child = (k.mkenvid e).1 ∧ k.VmSetup e pgdir pm ∧ k'.mem = ⟨Function.update k.dirs e pgdir, pm⟩ := by
  have h := returning_eq_some.1 h
  unfold sysExofork at h
  split at h
  case h_1 =>
    simp only [Option.some.injEq, Prod.mk.injEq] at h
    exact .inl ⟨h.2.symm, h.1.symm⟩
  case h_2 e k₁ hal =>
    simp only [Option.some.injEq, Prod.mk.injEq] at h
    obtain ⟨rfl, rfl⟩ := h
    have hnew := NewCore.alloc hal
    have hid : (k₁.envs e).envId = (k.mkenvid e).1 := by
      have hc := congrArg Core.id (congrFun hnew.cores e)
      rwa [Function.update_self] at hc
    obtain ⟨rest, pgdir, pm, asid, bitmap, -, hvm, -, rfl⟩ := envAlloc_cases hal
    exact .inr ⟨e, pgdir, pm, hnew.setEnv rfl, hid, hvm, mem_forked ..⟩

theorem Builder.congr (hb : Builder k cur e child) (hc : k'.cores = k.cores) : Builder k' cur e child := by
  have hst : ∀ x, (k'.envs x).envStatus = (k.envs x).envStatus := fun x => congrArg Core.status (congrFun hc x)
  have hid : ∀ x, (k'.envs x).envId = (k.envs x).envId := fun x => congrArg Core.id (congrFun hc x)
  have hparent : ∀ x, (k'.envs x).envParentId = (k.envs x).envParentId := fun x => congrArg Core.parentId (congrFun hc x)
  refine ⟨hst cur ▸ hb.live, ?_, hb.ne⟩
  have hchild := hb.child
  simp only [envid2env, hst, hid, hparent] at hchild ⊢
  exact hchild

theorem Builder.setPm (hb : Builder k cur e child) (m : Pmap) : Builder (k.setPm m) cur e child := hb.congr rfl

/-- The caller builds the environment that it forks. -/
theorem Builder.forked (hn : NewCore k e (k.envs cur).envId .NOT_RUNNABLE k') (hlive : LiveOk k)
    (hcur : (k.envs cur).envStatus ≠ .FREE) (hid : (k.mkenvid e).1 ≠ 0) : Builder k' cur e (k.mkenvid e).1 := by
  have hfree : (k.envs e).envStatus = .FREE := hlive.free e (List.mem_of_mem_head? hn.head)
  have hne : e ≠ cur := by
    rintro rfl
    exact hcur hfree
  have hself : (k'.envs e).core = { k.cores e with
      id := (k.mkenvid e).1, parentId := (k.envs cur).envId, status := .NOT_RUNNABLE } :=
    (congrFun hn.cores e).trans (Function.update_self ..)
  have hother : (k'.envs cur).core = k.cores cur := (congrFun hn.cores cur).trans (Function.update_of_ne hne.symm ..)
  have hst : (k'.envs e).envStatus = .NOT_RUNNABLE := congrArg Core.status hself
  have hids : (k'.envs e).envId = (k.mkenvid e).1 := congrArg Core.id hself
  have hparent : (k'.envs e).envParentId = (k.envs cur).envId := congrArg Core.parentId hself
  have hcurid : (k'.envs cur).envId = (k.envs cur).envId := congrArg Core.id hother
  refine ⟨?_, ?_, hne⟩
  · rw [show (k'.envs cur).envStatus = (k.envs cur).envStatus from congrArg Core.status hother]
    exact hcur
  · rw [envid2env, if_neg hid]
    simp [ENVX_mkenvid, hst, hids, hparent, hcurid]

/-- The memory that the loader starts from: the environment has no page below `UTOP`, and the caller has what it had. -/
private theorem Building.start (hm : MemOk mc leak k) (hfree : (k.envs e).envStatus = .FREE) (hne : e ≠ cur)
    (hs : k.pm.envSetupVm k.basePgdir = some (p, m)) (hmem : k'.mem = ⟨Function.update k.dirs e (some p), m⟩) :
    Building mc k' cur e m m ∧ (∀ v, v.1 < PDX UTOP → k'.mem.page e v = none) ∧
      ∀ v, v.1 < PDX UTOP → Mem.user k'.mem cur v = Mem.user k.mem cur v := by
  have hD : k.dirs e = none := dirs_of_free hfree
  have hs' := hs
  rw [hm.base] at hs'
  have hok : Mem.Ok mc leak k'.mem := hmem ▸ hm.mem.newDir hD hs'
  have hnone : ∀ v, v.1 < PDX UTOP → Mem.user k'.mem e v = none := fun v hv => hmem ▸ Mem.newDir_user hs hv
  have hpm : k'.pm = m := congrArg Mem.pm hmem
  subst hpm
  refine ⟨⟨⟨leak, hok⟩, fun v _ w _ hv _ hw _ _ => ?_, fun v w hv hw => hw⟩, fun v hv => ?_, fun v hv => ?_⟩
  · have hw : Mem.user k'.mem e v = some w := hw
    rw [hnone v hv] at hw
    cases hw
  · rw [Mem.page, hnone v hv]
    rfl
  · have hmoves : Moves mc .any e 0 k.mem k'.mem := by
      rw [hmem]
      exact .single (.newDir hD hs')
    exact hm.mem.moves_user hmoves hne.symm hv

/-! ### The stack -/

/-- What has to be there for `init_stack` not to fail. -/
private theorem initStack_ok {page : Option (Idx → Word)} (h : initStack cur child page k = some (r, k'))
    (hr : r.slt 0 = false) :
    r = 0 ∧ page.isSome ∧ (k.envs cur).envPgdir.isSome ∧ k.pm.pageFreeList ≠ [] ∧
      (k.envid2env cur child true).isSome := by
  have hneg : ∀ {w : Word}, w.slt 0 = true → w ≠ r := by
    rintro w hw rfl
    rw [hw] at hr
    cases hr
  cases page with
  | none =>
    simp only [initStack, Option.some.injEq, Prod.mk.injEq] at h
    exact absurd h.1 (hneg (by decide))
  | some page =>
    obtain ⟨⟨r₁, k₁⟩, halloc, h⟩ := Option.bind_eq_some_iff.1 h
    dsimp only at h
    split at h
    case isTrue hr₁ =>
      simp only [Option.some.injEq, Prod.mk.injEq] at h
      exact absurd h.1 (hneg hr₁)
    case isFalse hr₁ =>
    obtain ⟨pp, -, h⟩ := Option.bind_eq_some_iff.1 h
    obtain ⟨⟨r₂, k₂⟩, hmap, h⟩ := Option.bind_eq_some_iff.1 h
    dsimp only at h
    split at h
    case isTrue hr₂ =>
      obtain ⟨⟨_, _⟩, -, h⟩ := Option.map_eq_some_iff.1 h
      exact absurd (congrArg Prod.fst h) (hneg hr₂)
    case isFalse hr₂ =>
    obtain ⟨⟨r₃, k₃⟩, -, h⟩ := Option.bind_eq_some_iff.1 h
    dsimp only at h
    split at h
    case isTrue hr₃ =>
      obtain ⟨⟨_, _⟩, -, h⟩ := Option.map_eq_some_iff.1 h
      exact absurd (congrArg Prod.fst h) (hneg hr₃)
    case isFalse hr₃ =>
    refine ⟨(congrArg Prod.fst (Option.some.inj h)).symm, rfl, ?_⟩
    -- neither call failed
    rcases sysMemAlloc_cases (returning_eq_some.1 halloc) with ⟨w, hw, hneg, -⟩ | ⟨x, _, pm, _, -, -, hx, hp, hi⟩
    · obtain rfl := Option.some.inj hw
      exact absurd hneg hr₁
    · obtain rfl : cur = x := Option.some.inj ((envid2env_zero ..).symm.trans hx)
      obtain ⟨rest, hl, -⟩ := Pmap.pageAlloc_cases hp
      obtain ⟨d, pm', hd, -, rfl⟩ := pageInsertEnv_cases hi
      have hd : (k.envs cur).envPgdir = some d := hd
      rcases sysMemMap_cases (returning_eq_some.1 hmap) with ⟨w, hw, hneg, -⟩ | ⟨_, x, _, _, -, -, -, -, hx, -, -⟩
      · obtain rfl := Option.some.inj hw
        exact absurd hneg hr₂
      · have hx : k.envid2env cur child true = some x := hx
        exact ⟨by rw [hd]; rfl, by simp [hl], by rw [hx]; rfl⟩

/-! ### Closing the file -/

/-- A call that fails changes nothing. -/
private theorem memUnmap_error (h : returning (k.sysMemUnmap cur 0 va) = some (r, k')) (hr : r.slt 0 = true) : k' = k := by
  have h := returning_eq_some.1 h
  unfold sysMemUnmap at h
  split at h
  case isTrue =>
    simp only [Option.some.injEq, Prod.mk.injEq] at h
    exact h.1.symm
  case isFalse =>
    rw [envid2env_zero] at h
    obtain ⟨d, -, h⟩ := Option.bind_eq_some_iff.1 h
    obtain ⟨m', -, h⟩ := Option.map_eq_some_iff.1 h
    simp only [Prod.mk.injEq, Option.some.injEq] at h
    rw [← h.2] at hr
    cases hr

/-- The caller unmaps a page of its own. -/
private theorem Building.unmap (hb : Builder k cur e child) (h : Building mc k cur e m₀ m)
    (hr : returning ((k.setPm m).sysMemUnmap cur 0 va) = some (r, k')) :
    ∃ m', k' = k.setPm m' ∧ Building mc k cur e m₀ m' ∧
      ∀ v, v.1 < PDX UTOP → Mem.page ⟨k.dirs, m'⟩ e v = Mem.page ⟨k.dirs, m⟩ e v := by
  by_cases hneg : r.slt 0 = true
  · exact ⟨m, memUnmap_error hr hneg, h, fun _ _ => rfl⟩
  · obtain ⟨leak, hok⟩ := h.ok
    obtain ⟨hva, d, m', hd, hrem, rfl⟩ := memUnmap_cases (envid2env_zero ..) hb.live (by simpa using hneg) hr
    have hi := Mem.PDX_lt_of_lt hva
    have hmoves : Moves mc .any cur (k.envs cur).envAsid ⟨k.dirs, m⟩ ⟨k.dirs, m'⟩ := hok.pageRemove_moves hd hi hrem
    have hst := hok.pageRemove_stores hd hi hrem
    obtain ⟨leak', hok', -⟩ := hok.moves hmoves
    have huser : ∀ v, v.1 < PDX UTOP → Mem.user ⟨k.dirs, m'⟩ e v = Mem.user ⟨k.dirs, m⟩ e v := fun v hv =>
      hok.moves_user hmoves hb.ne hv
    refine ⟨m', rfl, ⟨⟨leak', hok'⟩, fun a b w w' ha hb hwa hwb heq => ?_, fun v w hv hw => ?_⟩, fun v hv =>
      hok.moves_page hmoves hb.ne hv⟩
    · rw [huser a ha] at hwa
      rw [huser b hb] at hwb
      exact h.distinct a b w w' ha hb hwa hwb heq
    · by_cases hvt : v = VPN va
      · subst hvt
        rw [hst.self] at hw
        cases hw
      · rw [hst.other v hv hvt] at hw
        exact h.own v w hv hw

private theorem Building.unmapAll {l : List Nat} (f : Nat → Word) (hb : Builder k cur e child)
    (h : Building mc k cur e m₀ m)
    (hr : l.foldlM (fun (k : Kern) i => (returning (k.sysMemUnmap cur 0 (f i))).map (·.2)) (k.setPm m) = some k') :
    ∃ m', k' = k.setPm m' ∧ Building mc k cur e m₀ m' ∧
      ∀ v, v.1 < PDX UTOP → Mem.page ⟨k.dirs, m'⟩ e v = Mem.page ⟨k.dirs, m⟩ e v := by
  induction l generalizing m with
  | nil => exact ⟨m, (Option.some.inj hr).symm, h, fun _ _ => rfl⟩
  | cons i l ih =>
    obtain ⟨_, hstep, hr⟩ := Option.bind_eq_some_iff.1 hr
    obtain ⟨⟨r₁, k₁⟩, hun, rfl⟩ := Option.map_eq_some_iff.1 hstep
    obtain ⟨m₁, rfl, h₁, hpage₁⟩ := h.unmap hb hun
    obtain ⟨m₂, rfl, h₂, hpage₂⟩ := ih h₁ hr
    exact ⟨m₂, rfl, h₂, fun v hv => (hpage₂ v hv).trans (hpage₁ v hv)⟩

theorem Building.closeFile {fdnum size : Word} (hb : Builder k cur e child) (h : Building mc k cur e m₀ m)
    (hr : closeFile cur fdnum size (k.setPm m) = some k') :
    ∃ m', k' = k.setPm m' ∧ Building mc k cur e m₀ m' ∧
      ∀ v, v.1 < PDX UTOP → Mem.page ⟨k.dirs, m'⟩ e v = Mem.page ⟨k.dirs, m⟩ e v := by
  obtain ⟨k₁, hdata, hr⟩ := Option.bind_eq_some_iff.1 hr
  obtain ⟨⟨r₂, k₂⟩, hfd, rfl⟩ := Option.map_eq_some_iff.1 hr
  obtain ⟨m₁, rfl, h₁, hpage₁⟩ := h.unmapAll _ hb hdata
  obtain ⟨m₂, rfl, h₂, hpage₂⟩ := h₁.unmap hb hfd
  exact ⟨m₂, rfl, h₂, fun v hv => (hpage₂ v hv).trans (hpage₁ v hv)⟩

/-! ### The trapframe -/

/-- The frame is read from where it was written. -/
theorem setTrapframe_child {tf : Trapframe} {a : Word} (hb : Builder k cur e child)
    (hstore : k.ustoreWords a tf.word 38 = some k₁)
    (hset : returning (k₁.sysSetTrapframe cur child a) = some (0, k')) :
    k'.cores = k.cores ∧ k'.mem = k.mem ∧ (k'.envs e).envTf = tf := by
  rw [ustoreWords_eq] at hstore
  split at hstore
  case isFalse => cases hstore
  case isTrue =>
    obtain rfl := Option.some.inj hstore
    obtain ⟨v, hv, hcase⟩ := sysSetTrapframe_cases (returning_eq_some.1 hset)
    obtain rfl := Option.some.inj hv
    rcases hcase with ⟨hneg, -⟩ | ⟨x, frame, -, hx, hload, rfl, -⟩
    · cases hneg
    · obtain rfl : e = x := Option.some.inj (hb.child.symm.trans hx)
      obtain ⟨_, -, rfl⟩ := Option.map_eq_some_iff.1 hload
      have hframe : Trapframe.ofWords (fun i =>
          (k.setUmem (writeWords k.umem a tf.word 38)).umem (a + BitVec.ofNat 32 (4 * i))) = tf :=
        Trapframe.ofWords_word fun i hi => writeWords_wordAddr (by decide) hi
      refine ⟨(SameCore.setTf ..).cores, mem_setTf .., ?_⟩
      rw [Kern.setTf, if_neg hb.ne, hframe, setEnv_self]

end

/-! ### The calls of `spawn` -/

section

variable {mc mc' : Machine} {leak : Nat → Nat} {k k' : Kern} {cur e e' : EnvPtr} {child : Word} {rounds rounds' : Nat}
  {f : ElfFile} {args : SpawnArgs} {image : Nat → Byte} {size priority : Word}

private theorem spawnErr2_error {r : Word} {res : Except Word Word} (h : spawnErr2 cur child r k = some (res, k')) :
    res = .error r := by
  obtain ⟨_, -, h⟩ := Option.map_eq_some_iff.1 h
  exact (congrArg Prod.fst h).symm

/-- `spawn` up to the loop that shares pages, where nothing fails: the id of the child, and the state. -/
def spawnLoaded (rounds : Nat) (cur : EnvPtr) (f : ElfFile) (args : SpawnArgs) (k : Kern) : Option (Word × Kern) :=
  (f.readn args.elfbuf 0 52).bind fun (r, elfbuf, _) =>
    if r = 52 ∧ elfFrom elfbuf 52 then
      (returning (k.sysExofork cur)).bind fun (child, k) =>
        (initStack cur child args.stack k).bind fun (r, k) =>
          if r.slt 0 then none
          else
            (spawnPhdrs rounds cur child f 65536 0 (ehdrAt elfbuf).ePhoff elfbuf k).bind fun
              | (.error _, _) => none
              | (.ok (), k) =>
                (closeFile cur args.fdnum f.size k).bind fun k =>
                  let tf := (k.envs (ENVX child)).envTf
                  let tf := { tf.setReg 29 args.sp with cp0Epc := (ehdrAt elfbuf).eEntry }
                  (k.ustoreWords args.tf tf.word 38).bind fun k =>
                    (returning (k.sysSetTrapframe cur child args.tf)).bind fun (r, k) =>
                      if r = 0 then some (child, k) else none
    else none

/-- The states that it goes through. -/
theorem spawnLoaded_cases (h : spawnLoaded rounds cur f args k = some (child, k')) :
    ∃ elfbuf pos k₁ k₂ k₃ k₄ k₅, f.readn args.elfbuf 0 52 = some (52, elfbuf, pos) ∧ elfFrom elfbuf 52 = true ∧
      returning (k.sysExofork cur) = some (child, k₁) ∧ initStack cur child args.stack k₁ = some (0, k₂) ∧
      spawnPhdrs rounds cur child f 65536 0 (ehdrAt elfbuf).ePhoff elfbuf k₂ = some (.ok (), k₃) ∧
      closeFile cur args.fdnum f.size k₃ = some k₄ ∧
      k₄.ustoreWords args.tf { (k₄.envs (ENVX child)).envTf.setReg 29 args.sp with
        cp0Epc := (ehdrAt elfbuf).eEntry }.word 38 = some k₅ ∧
      returning (k₅.sysSetTrapframe cur child args.tf) = some (0, k') := by
  obtain ⟨⟨r, elfbuf, pos⟩, hread, h⟩ := Option.bind_eq_some_iff.1 h
  dsimp only at h
  split at h
  case isFalse => cases h
  case isTrue helf =>
  obtain ⟨rfl, helf⟩ := helf
  obtain ⟨⟨c, k₁⟩, hfork, h⟩ := Option.bind_eq_some_iff.1 h
  obtain ⟨⟨r₂, k₂⟩, hstack, h⟩ := Option.bind_eq_some_iff.1 h
  dsimp only at h
  split at h
  case isTrue => cases h
  case isFalse hr₂ =>
  obtain ⟨rfl, -⟩ := initStack_ok hstack (by simpa using hr₂)
  obtain ⟨⟨res, k₃⟩, hphdrs, h⟩ := Option.bind_eq_some_iff.1 h
  cases res with
  | error r => cases h
  | ok u =>
  obtain ⟨k₄, hclose, h⟩ := Option.bind_eq_some_iff.1 h
  obtain ⟨k₅, hstore, h⟩ := Option.bind_eq_some_iff.1 h
  obtain ⟨⟨r₆, k₆⟩, htf, h⟩ := Option.bind_eq_some_iff.1 h
  dsimp only at h
  split at h
  case isFalse => cases h
  case isTrue hr₆ =>
  obtain rfl := hr₆
  simp only [Option.some.injEq, Prod.mk.injEq] at h
  obtain ⟨rfl, rfl⟩ := h
  exact ⟨elfbuf, pos, k₁, k₂, k₃, k₄, k₅, hread, helf, hfork, hstack, hphdrs, hclose, hstore, htf⟩

/-- A child is returned where nothing fails. -/
theorem spawn_ok_iff : spawn rounds cur f args k = some (.ok child, k') ↔ ∃ k₁ k₂ r₁ r₂,
    spawnLoaded rounds cur f args k = some (child, k₁) ∧
      (r₁.slt 0 = false ∧ loopWhileOk (shareTable cur child) sharedTables k₁ = some (r₁, k₂)) ∧
      r₂.slt 0 = false ∧ returning (k₂.sysSetEnvStatus cur child 1) = some (r₂, k') := by
  constructor
  · intro h
    -- Wherever a test of `spawn` fails, it leaves by `err1` or `err2`, and these return an error.
    have herr2 : ∀ {c r : Word} {k₁ : Kern}, spawnErr2 cur c r k₁ = some (.ok child, k') → False := fun h =>
      absurd (spawnErr2_error h) (by simp)
    have herr1 : ∀ {c r : Word} {k₁ : Kern} {g : Except Word Word × Kern → Option (Except Word Word × Kern)},
        (∀ x y, g x = some y → y.1 = x.1) → (spawnErr2 cur c r k₁).bind g = some (.ok child, k') → False := by
      intro c r k₁ g hg h
      obtain ⟨x, herr, h⟩ := Option.bind_eq_some_iff.1 h
      have hx := spawnErr2_error herr
      rw [← hg x _ h] at hx
      cases hx
    have hclosed : ∀ (x y : Except Word Word × Kern),
        (closeFile cur args.fdnum f.size x.2).map (Prod.mk x.1) = some y → y.1 = x.1 := by
      intro x y h
      obtain ⟨_, -, rfl⟩ := Option.map_eq_some_iff.1 h
      rfl
    obtain ⟨⟨r, elfbuf, pos⟩, hread, h⟩ := Option.bind_eq_some_iff.1 h
    rw [spawnLoaded, hread, Option.bind_some]
    dsimp only at h ⊢
    split at h
    case isTrue =>
      obtain ⟨_, -, h⟩ := Option.map_eq_some_iff.1 h
      cases h
    case isFalse hr =>
    obtain rfl : r = 52 := not_not.1 hr
    split at h
    case isFalse =>
      obtain ⟨_, -, h⟩ := Option.map_eq_some_iff.1 h
      cases h
    case isTrue helf =>
    rw [if_pos ⟨rfl, helf⟩]
    obtain ⟨⟨c, k₁⟩, hfork, h⟩ := Option.bind_eq_some_iff.1 h
    rw [hfork, Option.bind_some]
    obtain ⟨⟨r₂, k₂⟩, hstack, h⟩ := Option.bind_eq_some_iff.1 h
    dsimp only at h ⊢
    rw [hstack, Option.bind_some]
    dsimp only
    split at h
    case isTrue => exact (herr1 hclosed h).elim
    case isFalse hr₂ =>
    rw [if_neg hr₂]
    obtain ⟨⟨res, k₃⟩, hphdrs, h⟩ := Option.bind_eq_some_iff.1 h
    rw [hphdrs, Option.bind_some]
    cases res with
    | error r => exact (herr1 hclosed h).elim
    | ok u =>
    obtain ⟨k₄, hclose, h⟩ := Option.bind_eq_some_iff.1 h
    obtain ⟨k₅, hstore, h⟩ := Option.bind_eq_some_iff.1 h
    obtain ⟨⟨r₆, k₆⟩, htf, h⟩ := Option.bind_eq_some_iff.1 h
    dsimp only at h ⊢
    rw [hclose, Option.bind_some, hstore, Option.bind_some, htf, Option.bind_some]
    dsimp only
    split at h
    case isTrue => exact (herr2 h).elim
    case isFalse hr₆ =>
    rw [if_pos (not_not.1 hr₆)]
    obtain ⟨⟨r₇, k₇⟩, hshare, h⟩ := Option.bind_eq_some_iff.1 h
    dsimp only at h
    split at h
    case isTrue => exact (herr2 h).elim
    case isFalse hr₇ =>
    obtain ⟨⟨r₈, k₈⟩, hstatus, h⟩ := Option.bind_eq_some_iff.1 h
    dsimp only at h
    split at h
    case isTrue => exact (herr2 h).elim
    case isFalse hr₈ =>
    simp only [Option.some.injEq, Prod.mk.injEq, Except.ok.injEq] at h
    obtain ⟨rfl, rfl⟩ := h
    exact ⟨k₆, k₇, r₇, r₈, rfl, ⟨by simpa using hr₇, hshare⟩, by simpa using hr₈, hstatus⟩
  · rintro ⟨k₆, k₇, r₇, r₈, hloaded, ⟨hr₇, hshare⟩, hr₈, hstatus⟩
    -- The tests that have been passed are taken again in the order of the source.
    obtain ⟨elfbuf, pos, k₁, k₂, k₃, k₄, k₅, hread, helf, hfork, hstack, hphdrs, hclose, hstore, htf⟩ :=
      spawnLoaded_cases hloaded
    have h0 : ((0 : Word).slt 0) = false := rfl
    rw [spawn, hread, Option.bind_some]
    dsimp only
    rw [if_neg (not_not.2 rfl), if_pos helf, spawnChild, hfork, Option.bind_some]
    dsimp only
    rw [hstack, Option.bind_some]
    dsimp only
    rw [h0, if_neg (by decide), hphdrs, Option.bind_some]
    dsimp only
    rw [hclose, Option.bind_some, hstore, Option.bind_some, htf, Option.bind_some]
    dsimp only
    rw [if_neg (not_not.2 rfl), hshare, Option.bind_some]
    dsimp only
    rw [hr₇, if_neg (by decide), hstatus, Option.bind_some]
    dsimp only
    rw [hr₈, if_neg (by decide)]

/-- What `env_create` loads to, what it has loaded, and where the environment starts. -/
theorem envCreate_loads {leak' : Nat → Nat} (hm : MemOk mc' leak' k) (hfree : k.vmFree = true)
    (h : Elf.envCreate rounds k image size priority = some (e, k')) :
    ∃ d m m' D asid, D e = some d ∧ Mem.Ok mc' leak' ⟨D, m⟩ ∧ (∀ v, v.1 < PDX UTOP → Mem.page ⟨D, m⟩ e v = none) ∧
      Elf.loadPhdrs rounds d asid image (ehdrAt image).ePhnum.toNat (ehdrAt image).ePhoff m = some m' ∧
      k'.mem = ⟨D, m'⟩ ∧ (k'.envs e).envTf.cp0Epc = (ehdrAt image).eEntry := by
  obtain ⟨⟨e₁, k₁⟩, hal, h⟩ := Option.bind_eq_some_iff.1 h
  obtain ⟨d, hd, h⟩ := Option.bind_eq_some_iff.1 h
  obtain ⟨m', hload, h⟩ := Option.map_eq_some_iff.1 h
  simp only [Prod.mk.injEq] at h
  obtain ⟨rfl, rfl⟩ := h
  obtain ⟨rest, pgdir, m, asid, bitmap, hl, hvm, -, rfl⟩ := envAlloc_cases hal
  unfold Elf.loadIcode at hload
  split at hload
  case isFalse => cases hload
  case isTrue =>
  rw [setEnv_self, allocated, setEnv_self] at hd
  obtain rfl : pgdir = some d := hd
  have hdirs := dirs_allocated k e₁ rest (some d) m asid bitmap 0
    (f := fun env => { env with envPri := priority, envStatus := .RUNNABLE }) (fun _ h => by cases h) fun _ => rfl
  have hs : k.pm.envSetupVm k.basePgdir = some (d, m) := by
    generalize hq : some d = pgdir at hvm
    cases hvm with
    | full hfull =>
      rw [MemOk.old_pgdir hl hfull hfree] at hq
      cases hq
    | ok hs => exact Option.some.inj hq ▸ hs
  have hD : k.dirs e₁ = none := dirs_of_free (hm.live.free e₁ (by rw [hl]; exact List.mem_cons_self ..))
  refine ⟨d, m, m', Function.update k.dirs e₁ (some d), _, Function.update_self .., hm.mem.newDir hD (hm.base ▸ hs),
    fun v hv => ?_, hload, ?_, ?_⟩
  · rw [Mem.page, Mem.newDir_user hs hv]
    rfl
  · rw [← hdirs]
    exact mem_setEnv (k := ((k.allocated e₁ rest (some d) m asid bitmap 0).setEnv e₁ fun env =>
      { env with envPri := priority, envStatus := .RUNNABLE }).setPm m') (e := e₁)
      (f := fun env => { env with envTf := { env.envTf with cp0Epc := (ehdrAt image).eEntry } }) Iff.rfl rfl
  · rw [setSched_envs, setEnv_self]

private theorem pageFreeList_eq_nil (h : k.pm.envSetupVm k.basePgdir = none) : k.pm.pageFreeList = [] := by
  cases hl : k.pm.pageFreeList with
  | nil => rfl
  | cons q rest =>
    rw [Pmap.envSetupVm, Pmap.pageAlloc, hl] at h
    cases h

/-- The last step makes the child runnable. -/
theorem setEnvStatus_eq {r : Word} (hb : Builder k cur e child)
    (h : returning (k.sysSetEnvStatus cur child 1) = some (r, k')) :
    r = 0 ∧ ∃ q, k' = (k.setSched q).setEnv e fun env => { env with envStatus := .RUNNABLE } := by
  have h := returning_eq_some.1 h
  unfold sysSetEnvStatus at h
  rw [show legalStatus 1 = some .RUNNABLE from rfl, hb.child] at h
  obtain ⟨k₁, hset, h⟩ := Option.map_eq_some_iff.1 h
  simp only [Prod.mk.injEq, Option.some.injEq] at h
  obtain ⟨rfl, rfl⟩ := h
  obtain ⟨q, -, rfl⟩ := Option.map_eq_some_iff.1 hset
  exact ⟨rfl, q, rfl⟩

theorem setEnvStatus_child {r : Word} (hb : Builder k cur e child)
    (h : returning (k.sysSetEnvStatus cur child 1) = some (r, k')) :
    k'.mem = k.mem ∧ (k'.envs e).envTf = (k.envs e).envTf := by
  obtain ⟨-, q, rfl⟩ := setEnvStatus_eq hb h
  refine ⟨mem_setEnv ⟨nofun, fun heq => absurd heq hb.child_live⟩ rfl, ?_⟩
  rw [setEnv_self]
  rfl

/-! ### The loop over the segments -/

/-- The segments are loaded to the child. -/
theorem Building.loadSegs {rounds : Nat} {b : Nat → Byte} {l : List Phdr} {m : Pmap} (hb : Builder k cur e child)
    (h : Building mc k cur e m₀ m) (hr : Mos.loadSegs (Kern.spawnMapper cur child) rounds b l (k.setPm m) = some k') :
    ∃ m', k' = k.setPm m' ∧ Building mc k cur e m₀ m' := by
  refine loadSegs_inv (I := fun k₁ => ∃ m₁, k₁ = k.setPm m₁ ∧ Building mc k cur e m₀ m₁) ?_ ⟨m, rfl, h⟩ hr
  rintro ph s va offset src len s' ⟨m₂, rfl, h₂⟩ hfit hmap
  obtain ⟨-, m₃, rfl, h₃, -⟩ := h₂.spawnMapper hb (Phdr.PPN_perm _) hfit hmap
  exact ⟨m₃, rfl, h₃⟩

/-! ### The child -/

/-- `cur`, whose directory is `dc`, has created the environment `e` with the id `child` in `k`, and that was `k₁`. -/
structure Forked (k k₁ : Kern) (cur e : EnvPtr) (child : Word) (dc : Nat) : Prop where
  builder : Builder k₁ cur e child
  live : (k.envs cur).envStatus ≠ .FREE
  curDir : (k.envs cur).envPgdir = some dc
  curDir' : (k₁.envs cur).envPgdir = some dc
  dir : (k₁.envs e).envPgdir.isSome
  user : ∀ v, v.1 < PDX UTOP → Mem.user k₁.mem cur v = Mem.user k.mem cur v

/-- Where `init_stack` succeeds, `sys_exofork` had a slot and a page. -/
theorem spawn_forks {k₂ : Kern} {stack : Option (Idx → Word)} (hm : MemOk mc leak k) (hids : IdBits k)
    (hcur : k.curenv = some cur) (hnext : ∀ x ∈ k.nextId, x.2 ≠ 0)
    (hfork : returning (k.sysExofork cur) = some (child, k₁)) (hstack : initStack cur child stack k₁ = some (0, k₂)) :
    ∃ dc m₂, Forked k k₁ cur (ENVX child) child dc ∧ k₂ = k₁.setPm m₂ ∧
      Building mc k₁ cur (ENVX child) k₁.pm m₂ ∧
      ∀ v, v.1 < PDX UTOP → v ≠ VPN stackBase → Mem.page ⟨k₁.dirs, m₂⟩ (ENVX child) v = none := by
  have hlive := hm.live.cur cur hcur
  obtain ⟨-, hpage, hdir, hnil, hsome⟩ := initStack_ok hstack (by decide)
  rcases exofork_cases hfork with ⟨rfl, rfl⟩ | ⟨e, pgdir, pm, hnew, rfl, hvm, hmem⟩
  · rw [hids.resolve (by decide) (by decide)] at hsome
    cases hsome
  have hb : Builder k₁ cur e (k.mkenvid e).1 := by
    refine .forked hnew hm.live hlive (hnext (e, (k.mkenvid e).1) ?_)
    rw [nextId_eq hnew.head]
    exact List.mem_singleton_self _
  have hpm : k₁.pm = pm := congrArg Mem.pm hmem
  have hdirs : k₁.dirs = Function.update k.dirs e pgdir := congrArg Mem.dirs hmem
  rw [ENVX_mkenvid]
  cases hvm with
  | full hfull =>
    rw [hpm] at hnil
    exact absurd (pageFreeList_eq_nil hfull) hnil
  | @ok p _ hs =>
  subst hpm
  have hfree : (k.envs e).envStatus = .FREE := hm.live.free e (List.mem_of_mem_head? hnew.head)
  obtain ⟨hbuild, hnone, huser⟩ := Building.start hm hfree hb.ne hs hmem
  obtain ⟨page, hpage⟩ := Option.isSome_iff_exists.1 hpage
  rw [hpage] at hstack
  obtain ⟨m₂, rfl, hbuild₂, -, hpage₂⟩ := hbuild.initStack hb hstack
  obtain ⟨dc, hdc⟩ := Option.isSome_iff_exists.1 hdir
  refine ⟨dc, m₂, ⟨hb, hlive, ?_, hdc, ?_, huser⟩, rfl, hbuild₂, fun v hv hne => (hpage₂ v hv hne).trans (hnone v hv)⟩
  · have hdc' : k₁.dirs cur = some dc := (dirs_of_live hb.live).trans hdc
    rw [hdirs, Function.update_of_ne hb.ne.symm] at hdc'
    exact (dirs_of_live hlive).symm.trans hdc'
  · rw [← dirs_of_live hb.child_live, hdirs, Function.update_self]
    rfl

/-- The caller has got no library page since. -/
theorem Forked.library {k₂ : Kern} {m : Pmap} {dc : Nat} {v : Vpn} (h : Forked k k₁ cur e child dc)
    (hbuild : Building mc k₁ cur e k₁.pm m) (hcores : k₂.cores = k₁.cores) (hmem : k₂.mem = ⟨k₁.dirs, m⟩)
    (hv : v.1 < PDX UTOP) (hlib : library k cur v = false) : library k₂ cur v = false := by
  rw [Bool.eq_false_iff] at hlib ⊢
  intro htrue
  have hb := h.builder.congr hcores
  have hdirs : k₂.dirs = k₁.dirs := congrArg Mem.dirs hmem
  have hdc : (k₂.envs cur).envPgdir = some dc := by
    rw [← dirs_of_live hb.live, hdirs, dirs_of_live h.builder.live]
    exact h.curDir'
  obtain ⟨w, hw, hwlib⟩ := (library_user (m := k₂.pm) hb.live hdc).1 htrue
  have hw : Mem.user k₂.mem cur v = some w := hw
  rw [hmem] at hw
  have hw := (h.user v hv).symm.trans (hbuild.own v w hv hw)
  exact hlib ((library_user (m := k.pm) h.live h.curDir).2 ⟨w, hw, hwlib⟩)

end

end Kern

end Mos
