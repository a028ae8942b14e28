import Mos.Cow.Dup
import Mos.Elf.Child

/-!
# The address space of a child

`fork` goes over all pages below `USTACKTOP`, one page table after the other.  A page that was visited belongs to the parent and
to the child, neither of which may write it unless it is shared; pages below `UTEMP` stay with the parent.  The invariant of the
loop counts what is to come: no reference count gets out of its 16 bits.
-/

namespace Mos

open Kern Cow

namespace Kern

/-! ### The pages that are visited -/

/-- The pages that `fork` gives to the child. -/
def forkable (v : Vpn) : Bool := !isIllegalVa (pageVa v) && decide (pageVa v < USTACKTOP)

/-- All pages that are visited, in order. -/
def forkVisits : List Vpn := forkTables.flatMap fun i => (forkPages i).map fun j => (i, j)

/-- A round of the loop that also works where there is no page table. -/
def forkVisit (cur : EnvPtr) (child : Word) (k : Kern) (v : Vpn) : Option Kern :=
  if (k.vpt cur v).isSome then forkPage cur child k v else some k

variable {mc : Machine} {leak : Nat → Nat} {k k' : Kern} {m m' m₀ : Pmap} {cur e : EnvPtr} {child : Word} {i j : Idx}
  {v : Vpn} {l : List Vpn}

private theorem pageVa_toNat (v : Vpn) : (pageVa v).toNat = v.1 * 2 ^ 22 + v.2 * 2 ^ 12 := by
  have hi : (v.1 : Nat) < 1024 := v.1.isLt
  have hj : (v.2 : Nat) < 1024 := v.2.isLt
  have hor := Nat.shiftLeft_add_eq_or_of_lt (show (v.2 : Nat) * 2 ^ 12 < 2 ^ 22 by omega) v.1
  simp only [pageVa, BitVec.toNat_or, BitVec.toNat_shiftLeft, BitVec.toNat_ofNat, Nat.shiftLeft_eq]
  rw [Nat.mod_eq_of_lt (show (v.1 : Nat) < 2 ^ 32 by omega), Nat.mod_eq_of_lt (show (v.2 : Nat) < 2 ^ 32 by omega),
    Nat.mod_eq_of_lt (show (v.1 : Nat) * 2 ^ 22 < 2 ^ 32 by omega), Nat.mod_eq_of_lt (show (v.2 : Nat) * 2 ^ 12 < 2 ^ 32 by omega)]
  rw [Nat.shiftLeft_eq] at hor
  exact hor.symm

theorem mem_forkVisits : v ∈ forkVisits ↔ pageVa v < USTACKTOP := by
  simp only [forkVisits, forkTables, forkPages, List.mem_flatMap, List.mem_filter, List.mem_finRange, true_and,
    List.mem_map, decide_eq_true_eq]
  constructor
  · rintro ⟨i, -, j, hj, rfl⟩
    exact hj
  · intro hv
    refine ⟨v.1, ?_, v.2, hv, rfl⟩
    have hle : (pageVa (v.1, 0)).toNat ≤ (pageVa v).toNat := by
      rw [pageVa_toNat, pageVa_toNat]
      simp
    have hlt : (pageVa v).toNat < USTACKTOP.toNat := hv
    exact BitVec.lt_def.2 (lt_of_le_of_lt hle hlt)

private theorem forkVisits_nodup : forkVisits.Nodup := by
  have hpages : ∀ i, (forkPages i).Nodup := fun i => (List.nodup_finRange 1024).filter _
  have htables : forkTables.Nodup := (List.nodup_finRange 1024).filter _
  refine List.nodup_flatMap.2 ⟨fun i _ => ?_, ?_⟩
  · exact (hpages i).map fun j j' heq => congrArg Prod.snd heq
  · refine htables.imp fun {i i'} hne v hv hv' => ?_
    obtain ⟨j, -, rfl⟩ := List.mem_map.1 hv
    obtain ⟨j', -, heq⟩ := List.mem_map.1 hv'
    exact hne (congrArg Prod.fst heq).symm

private theorem visit_lt (hv : pageVa v < USTACKTOP) : v.1 < PDX UTOP := by
  have hi : PDX (pageVa v) < PDX UTOP := Mem.PDX_lt_of_lt (BitVec.lt_trans hv (by decide))
  rwa [show PDX (pageVa v) = v.1 from congrArg Prod.fst (VPN_pageVa v)] at hi

/-- Whether there is a page table does not depend on the page. -/
theorem vpt_isSome (k : Kern) (cur : EnvPtr) (i j j' : Idx) : (k.vpt cur (i, j)).isSome = (k.vpt cur (i, j')).isSome := by
  unfold vpt
  cases (k.envs cur).envPgdir with
  | none => rfl
  | some d =>
    rw [Option.bind_some, Option.bind_some]
    split
    · rfl
    · rfl

private theorem forkPage_visit (h : forkPage cur child k v = some k') : forkVisit cur child k v = some k' := by
  obtain ⟨pte, hpte, -⟩ := Option.bind_eq_some_iff.1 h
  rw [forkVisit, hpte]
  exact h

/-- The outer loop visits the pages of a table one by one. -/
private theorem forkTable_visits (h : forkTable cur child k i = some k') :
    ((forkPages i).map fun j => (i, j)).foldlM (forkVisit cur child) k = some k' := by
  rw [List.foldlM_map]
  unfold forkTable at h
  split at h
  case isTrue htable =>
    clear htable
    generalize forkPages i = l at h
    induction l generalizing k with
    | nil => exact h
    | cons j l ih =>
      obtain ⟨k₁, hpage, h⟩ := Option.bind_eq_some_iff.1 h
      exact Option.bind_eq_some_iff.2 ⟨k₁, forkPage_visit hpage, ih h⟩
  case isFalse hnone =>
    obtain rfl := Option.some.inj h
    generalize forkPages i = l
    induction l with
    | nil => rfl
    | cons j l ih =>
      have hskip : forkVisit cur child k (i, j) = some k := by rw [forkVisit, vpt_isSome k cur i j 0, if_neg hnone]
      exact Option.bind_eq_some_iff.2 ⟨k, hskip, ih⟩

private theorem forkTables_visits (h : forkTables.foldlM (forkTable cur child) k = some k') :
    forkVisits.foldlM (forkVisit cur child) k = some k' := by
  unfold forkVisits
  generalize forkTables = l at h
  induction l generalizing k with
  | nil => exact h
  | cons i l ih =>
    obtain ⟨k₁, htable, h⟩ := Option.bind_eq_some_iff.1 h
    rw [List.flatMap_cons, List.foldlM_append]
    exact Option.bind_eq_some_iff.2 ⟨k₁, forkTable_visits htable, ih h⟩

/-! ### The loop -/

/-- Whether the page `v` of `cur` has the frame `p`. -/
def holds (s : Mem) (cur : EnvPtr) (p : Nat) (v : Vpn) : Bool := decide ((s.store.map cur v).map Entry.frame = some p)

/-- The memory, which was `m₀`, while the pages in `l` are still to be visited. -/
structure Forking (mc : Machine) (k : Kern) (cur e : EnvPtr) (m₀ : Pmap) (l : List Vpn) (m : Pmap) : Prop where
  ok : ∃ leak, Mem.Ok mc leak ⟨k.dirs, m⟩
  pages : ∃ L, Store.Forks (Mem.store ⟨k.dirs, m₀⟩) cur e {v | v ∉ l ∧ forkable v = true} L (Mem.store ⟨k.dirs, m⟩) ∧
    (L = ∅ ∨ m.pageFreeList = [])
  isPrivate : (Mem.store ⟨k.dirs, m₀⟩).Private → (Mem.store ⟨k.dirs, m⟩).Private
  count : ∀ u p, holds ⟨k.dirs, m₀⟩ cur p u = true → (m.ppRef p).toNat + l.countP (holds ⟨k.dirs, m₀⟩ cur p) ≤ 65535

private theorem rest_insert (hv : v ∉ l) (hf : forkable v = true) :
    {u | u ∉ l ∧ forkable u = true} = insert v {u | u ∉ v :: l ∧ forkable u = true} := by
  ext u
  by_cases huv : u = v
  · subst huv
    simp [hv, hf]
  · simp [huv]

private theorem rest_same (hf : forkable v = false) : {u | u ∉ l ∧ forkable u = true} =
    {u | u ∉ v :: l ∧ forkable u = true} := by
  ext u
  by_cases huv : u = v
  · subst huv
    simp [hf]
  · simp [huv]

private theorem Forking.unused (h : Forking mc k cur e m₀ (v :: l) m) {L : Set Vpn}
    (hp : Store.Forks (Mem.store ⟨k.dirs, m₀⟩) cur e {u | u ∉ l ∧ forkable u = true} L (Mem.store ⟨k.dirs, m⟩))
    (hL : L = ∅ ∨ m.pageFreeList = []) : Forking mc k cur e m₀ l m where
  ok := h.ok
  pages := ⟨L, hp, hL⟩
  isPrivate := h.isPrivate
  count u p hu := by
    have hcount := h.count u p hu
    have hle : l.countP (holds ⟨k.dirs, m₀⟩ cur p) ≤ (v :: l).countP (holds ⟨k.dirs, m₀⟩ cur p) := by
      rw [List.countP_cons]
      exact Nat.le_add_right ..
    omega

/-- A page is visited. -/
private theorem Forking.visit (hb : Builder k cur e child) (h : Forking mc k cur e m₀ (v :: l) m) (hv : v ∉ l)
    (hlt : pageVa v < USTACKTOP) (hr : forkVisit cur child (k.setPm m) v = some k') :
    ∃ m', k' = k.setPm m' ∧ Forking mc k cur e m₀ l m' := by
  obtain ⟨leak, hok⟩ := h.ok
  obtain ⟨L, hforks, hL⟩ := h.pages
  have hi : v.1 < PDX UTOP := visit_lt hlt
  have hvS : v ∉ {u | u ∉ v :: l ∧ forkable u = true} := fun hu => hu.1 (List.mem_cons_self ..)
  have hold : (Mem.store ⟨k.dirs, m⟩).map cur v = (Mem.store ⟨k.dirs, m₀⟩).map cur v := hforks.keep v hvS
  -- A page that is not there, or not legal, is passed over; any other one is given to the child by `duppage`.
  cases hw : Mem.user ⟨k.dirs, m⟩ cur v with
  | none =>
    have hsame : k' = k.setPm m := by
      unfold forkVisit forkPage at hr
      cases hvpt : (k.setPm m).vpt cur v with
      | none =>
        rw [hvpt] at hr
        exact (Option.some.inj hr).symm
      | some pte =>
        rw [hvpt, Option.isSome_some, if_pos rfl, Option.bind_some] at hr
        split at hr
        case isTrue hval =>
          have hw' : Mem.user ⟨k.dirs, m⟩ cur v = some pte := user_of_vpt (k := k.setPm m) hb.live hvpt hval
          rw [hw] at hw'
          cases hw'
        case isFalse => exact (Option.some.inj hr).symm
    have hnone : (Mem.store ⟨k.dirs, m₀⟩).map cur v = none := by
      rw [← hold, Mem.store_map hi, hw]
      rfl
    refine ⟨m, hsame, h.unused ?_ hL⟩
    cases hf : forkable v with
    | true => exact rest_insert hv hf ▸ hforks.skip hnone
    | false => exact rest_same hf ▸ hforks
  | some w =>
    obtain ⟨hvpt, hval⟩ := vpt_of_user (k := k.setPm m) hb.live hw
    rw [forkVisit, hvpt, Option.isSome_some, if_pos rfl, forkPage, hvpt, Option.bind_some, if_pos hval] at hr
    cases hva : isIllegalVa (pageVa v) with
    | true =>
      have hf : forkable v = false := by simp [forkable, hva]
      exact ⟨m, duppage_illegal hva hr, h.unused (rest_same hf ▸ hforks) hL⟩
    | false =>
      have hf : forkable v = true := by simp [forkable, hva, hlt]
      have hself : holds ⟨k.dirs, m₀⟩ cur (PPN w) v = true := by
        rw [holds, ← hold, Mem.store_map hi, hw]
        simp [pteEntry]
      -- The count cannot overflow: it is at least the number of the pages of this frame that are still to be visited.
      have hmax : m.ppRef (PPN w) ≠ 65535 := by
        intro heq
        have hcount := h.count v (PPN w) hself
        rw [List.countP_cons_of_pos hself, heq] at hcount
        have h65535 : (65535 : BitVec 16).toNat = 65535 := rfl
        omega
      have hne : k.envid2env cur child true ≠ some cur := by
        rw [hb.child]
        exact fun heq => hb.ne (Option.some.inj heq)
      obtain ⟨m', rfl, hdup⟩ := duppage_spec hok hb.live hva hw hne hmax hr
      have hempty : ∀ e', k.envid2env cur child true = some e' → Mem.user ⟨k.dirs, m⟩ e' v = none := by
        intro e' he'
        obtain rfl := Option.some.inj (hb.child.symm.trans he')
        have habsent := hforks.absent v (.inl hvS)
        rw [Mem.store_map hi] at habsent
        exact Option.map_eq_none_iff.1 habsent
      obtain ⟨hfree, href⟩ := hdup.count hempty
      have hnil : m.pageFreeList = [] → m'.pageFreeList = [] := fun hnil =>
        List.eq_nil_iff_forall_not_mem.2 fun q hq => by
          have hq := hfree q hq
          rw [hnil] at hq
          cases hq
      refine ⟨m', rfl, hdup.ok, ?_, fun hp => ?_, fun u p hu => ?_⟩
      · rw [rest_insert hv hf]
        rcases hdup.store with ⟨hdemotes, hfull⟩ | ⟨e', he', hcopies⟩
        · exact ⟨insert v L, hforks.demotes hvS hdemotes, .inr (hnil (hfull e hb.child).1)⟩
        · obtain rfl := Option.some.inj (hb.child.symm.trans he')
          exact ⟨L, hforks.copies hvS hcopies, hL.imp id hnil⟩
      · rcases hdup.store with ⟨hdemotes, -⟩ | ⟨_, -, hcopies⟩
        · exact hdemotes.isPrivate (h.isPrivate hp)
        · exact hcopies.isPrivate (h.isPrivate hp)
      · obtain ⟨a, ha, rfl⟩ := Option.map_eq_some_iff.1 (of_decide_eq_true hu)
        obtain ⟨-, b, hb', hba⟩ := hforks.old_frame ha
        have href := href a.frame (hba ▸ hok.refs.notMem_free (Mem.store_target mc hb'))
        have hcount := h.count u a.frame hu
        rw [List.countP_cons] at hcount
        by_cases hp : a.frame = PPN w
        · rw [hp, if_pos rfl] at href
          rw [hp, hself, if_pos rfl] at hcount
          rw [hp]
          omega
        · rw [if_neg hp] at href
          omega

private theorem Forking.visits (hb : Builder k cur e child) (h : Forking mc k cur e m₀ l m) (hl : l.Nodup)
    (hlt : ∀ v ∈ l, pageVa v < USTACKTOP) (hr : l.foldlM (forkVisit cur child) (k.setPm m) = some k') :
    ∃ m', k' = k.setPm m' ∧ Forking mc k cur e m₀ [] m' := by
  induction l generalizing m with
  | nil => exact ⟨m, (Option.some.inj hr).symm, h⟩
  | cons v l ih =>
    obtain ⟨hv, hnd⟩ := List.nodup_cons.1 hl
    obtain ⟨k₁, hvisit, hr⟩ := Option.bind_eq_some_iff.1 hr
    obtain ⟨m₁, rfl, h₁⟩ := h.visit hb hv (hlt v (List.mem_cons_self ..)) hvisit
    exact ih h₁ hnd (fun u hu => hlt u (List.mem_cons_of_mem v hu)) hr

/-! ### The new environment -/

/-- The loop starts with the child that `sys_exofork` makes. -/
private theorem Forking.start (hok : Mem.Ok mc leak ⟨k.dirs, m⟩) (hne : e ≠ cur)
    (hnone : ∀ u, u.1 < PDX UTOP → Mem.user ⟨k.dirs, m⟩ e u = none)
    (href : ∀ u w, pageVa u < USTACKTOP → Mem.user ⟨k.dirs, m⟩ cur u = some w → (m.ppRef (PPN w)).toNat < 32768) :
    Forking mc k cur e m forkVisits m := by
  have hempty : {u | u ∉ forkVisits ∧ forkable u = true} = ∅ := by
    refine Set.eq_empty_iff_forall_notMem.2 fun u hu => hu.1 (mem_forkVisits.2 ?_)
    have hf := hu.2
    simp only [forkable, Bool.and_eq_true, decide_eq_true_eq] at hf
    exact hf.2
  refine ⟨⟨leak, hok⟩, ⟨∅, ?_, .inl rfl⟩, id, fun u p hu => ?_⟩
  · rw [hempty]
    refine .start hne fun u => ?_
    rw [Mem.store]
    dsimp only
    split
    case isTrue hu => rw [hnone u hu]; rfl
    case isFalse => rfl
  · -- as many pages as there are references, at most
    rcases Nat.eq_zero_or_pos (forkVisits.countP (holds ⟨k.dirs, m⟩ cur p)) with hzero | hpos
    · have hlt : (m.ppRef p).toNat < 2 ^ 16 := (m.ppRef p).isLt
      omega
    obtain ⟨u', hvisit, hu'⟩ := List.countP_pos_iff.1 hpos
    obtain ⟨a, ha, rfl⟩ := Option.map_eq_some_iff.1 (of_decide_eq_true hu')
    obtain ⟨-, w, hw, rfl⟩ := Mem.store_map_some.1 ha
    have href : (m.ppRef (pteEntry w).frame).toNat < 32768 := href u' w (mem_forkVisits.1 hvisit) hw
    have htgt := Mem.store_target mc ha
    have hinj : Function.Injective fun v : Vpn => Slot.pte cur v.1 v.2 := by
      intro v v' heq
      injection heq with _ h1 h2
      exact Prod.ext h1 h2
    have hle : refCount (fun v => ((Mem.store ⟨k.dirs, m⟩).map cur v).map Entry.frame) (pteEntry w).frame ≤
        refCount (Mem.target mc ⟨k.dirs, m⟩) (pteEntry w).frame := by
      refine refCount_le_of_injective hinj fun v hv => ?_
      obtain ⟨b, hb, hba⟩ := Option.map_eq_some_iff.1 hv
      rw [← hba]
      exact Mem.store_target mc hb
    have hcount : forkVisits.countP (holds ⟨k.dirs, m⟩ cur (pteEntry w).frame) ≤
        refCount (fun v => ((Mem.store ⟨k.dirs, m⟩).map cur v).map Entry.frame) (pteEntry w).frame :=
      countP_le_refCount forkVisits_nodup _ _
    have hrefs : (m.ppRef (pteEntry w).frame).toNat = _ := hok.refs.refs (pteEntry w).frame (hok.tree.bound _ _ htgt).1
    omega

section

variable {k₁ k₂ : Kern} {entry : Word}

/-- The calls of `fork`. -/
private theorem fork_cases {r : Except Word Word} (h : fork entry cur k = some (r, k')) : ∃ child k₂ k₃ k₄ r₄,
    returning ((k.setEnv cur fun env => { env with envUserTlbModEntry := entry }).sysExofork cur) = some (child, k₂) ∧
      forkTables.foldlM (forkTable cur child) k₂ = some k₃ ∧
      returning (k₃.sysSetTlbModEntry cur child entry) = some (r₄, k₄) ∧
      (r₄ ≠ 0 ∨ ∃ r₅, returning (k₄.sysSetEnvStatus cur child 1) = some (r₅, k') ∧ (r₅ ≠ 0 ∨ r = .ok child)) := by
  unfold fork at h
  dsimp only at h
  obtain ⟨⟨r₁, k₁⟩, hset, h⟩ := Option.bind_eq_some_iff.1 h
  have hk₁ : r₁ = 0 ∧ k₁ = k.setEnv cur fun env => { env with envUserTlbModEntry := entry } := by
    split at hset
    case isTrue =>
      have hset := returning_eq_some.1 hset
      rw [sysSetTlbModEntry, envid2env_zero] at hset
      simp only [Option.some.injEq, Prod.mk.injEq] at hset
      exact ⟨hset.2.symm, hset.1.symm⟩
    case isFalse heq =>
      simp only [Option.some.injEq, Prod.mk.injEq] at hset
      rw [← hset.2, Kern.setEnv, ← not_not.1 heq]
      exact ⟨hset.1.symm, (congrArg (fun f => { k with envs := f }) (Function.update_eq_self cur k.envs)).symm⟩
  obtain ⟨rfl, rfl⟩ := hk₁
  dsimp only at h
  rw [if_neg (not_not.2 rfl)] at h
  obtain ⟨⟨child, k₂⟩, hfork, h⟩ := Option.bind_eq_some_iff.1 h
  obtain ⟨k₃, htables, h⟩ := Option.bind_eq_some_iff.1 h
  obtain ⟨⟨r₄, k₄⟩, hset₄, h⟩ := Option.bind_eq_some_iff.1 h
  refine ⟨child, k₂, k₃, k₄, r₄, hfork, htables, hset₄, ?_⟩
  dsimp only at h
  split at h
  case isTrue hr₄ => exact .inl hr₄
  case isFalse =>
    obtain ⟨⟨r₅, k₅⟩, hstatus, h⟩ := Option.bind_eq_some_iff.1 h
    dsimp only at h
    split at h
    case isTrue hr₅ =>
      simp only [Option.some.injEq, Prod.mk.injEq] at h
      obtain ⟨-, rfl⟩ := h
      exact .inr ⟨r₅, hstatus, .inl hr₅⟩
    case isFalse =>
      simp only [Option.some.injEq, Prod.mk.injEq] at h
      obtain ⟨rfl, rfl⟩ := h
      exact .inr ⟨r₅, hstatus, .inr rfl⟩

/-- What the child returns from `sys_exofork` with, and that nobody else changes. -/
private theorem exofork_envs (hl : k.envFreeList ≠ []) (h : returning (k.sysExofork cur) = some (child, k')) :
    child ≠ -E_NO_FREE_ENV ∧ k'.curenv = k.curenv ∧ (k'.envs (ENVX child)).envTf = k.ktf.setReg 2 0 ∧
      ∀ x, x ≠ ENVX child → k'.envs x = k.envs x := by
  have h := returning_eq_some.1 h
  unfold sysExofork at h
  split at h
  case h_1 hal => exact absurd (envAlloc_none hal) hl
  case h_2 e k₁ hal =>
    simp only [Option.some.injEq, Prod.mk.injEq] at h
    obtain ⟨rest, pgdir, pm, asid, bitmap, -, -, -, rfl⟩ := envAlloc_cases hal
    obtain ⟨rfl, rfl⟩ := h
    have hid : ((k.allocated e rest pgdir pm asid bitmap (k.envs cur).envId).envs e).envId = (k.mkenvid e).1 := by
      rw [allocated, setEnv_self]
      rfl
    rw [hid, ENVX_mkenvid, setEnv_self]
    refine ⟨fun heq => ?_, rfl, rfl, fun x hx => ?_⟩
    · have hbit := mkenvid_bit k e
      rw [heq] at hbit
      exact absurd hbit (by decide)
    · rw [setEnv_of_ne hx, allocated, setEnv_of_ne hx]
      rfl

private theorem vmSetup_ref {pgdir : Option Nat} {pm : Pmap} (hok : Mem.Ok mc leak k.mem) (hvm : k.VmSetup e pgdir pm)
    {s : Slot}
    {p : Nat} (hs : k.mem.target mc s = some p) : pm.ppRef p = k.pm.ppRef p := by
  cases hvm with
  | full => rfl
  | ok hset =>
    obtain ⟨rest, hl, rfl⟩ := Pmap.envSetupVm_cases hset
    have hne : p ≠ _ := fun heq => (hok.refs.notMem_free hs) (by
      have hl : k.mem.pm.pageFreeList = _ := hl
      rw [hl, heq]
      exact List.mem_cons_self ..)
    exact Function.update_of_ne hne ..

/-- The child has no page yet, and nothing else changes. -/
structure Exoforked (mc : Machine) (k : Kern) (cur e : EnvPtr) (child : Word) (k' : Kern) : Prop where
  head : k.envFreeList.head? = some e
  builder : Builder k' cur e child
  ok : ∃ leak, Mem.Ok mc leak k'.mem
  empty : ∀ u, u.1 < PDX UTOP → k'.mem.user e u = none
  map : k'.mem.store.map = k.mem.store.map
  content : ∀ x u a, k.mem.store.map x u = some a → k'.mem.store.content a.frame = k.mem.store.content a.frame
  ref : ∀ x u a, k.mem.store.map x u = some a → k'.pm.ppRef a.frame = k.pm.ppRef a.frame

private theorem exofork_store (h : MemOk mc leak k) (hlive : (k.envs cur).envStatus ≠ .FREE) (hfree : k.vmFree = true)
    (hid : ∀ x ∈ k.nextId, x.2 ≠ 0) (hf : returning (k.sysExofork cur) = some (child, k')) :
    child = -E_NO_FREE_ENV ∨ Exoforked mc k cur (ENVX child) child k' := by
  rcases exofork_cases hf with ⟨hc, -⟩ | ⟨e, pgdir, pm, hnew, rfl, hvm, hmem⟩
  · exact .inl hc
  · obtain ⟨rest, hl⟩ : ∃ rest, k.envFreeList = e :: rest := by
      have hhead := hnew.head
      cases hl : k.envFreeList with
      | nil =>
        rw [hl] at hhead
        cases hhead
      | cons e' rest =>
        rw [hl] at hhead
        obtain rfl := Option.some.inj hhead
        exact ⟨rest, rfl⟩
    have hb : Builder k' cur e (k.mkenvid e).1 := by
      refine .forked hnew h.live hlive (hid (e, (k.mkenvid e).1) ?_)
      rw [nextId_eq hnew.head]
      exact List.mem_singleton_self _
    have hmoves : Moves mc .any e 0 k.mem k'.mem := hmem ▸ h.alloc_moves hl hvm hfree 0
    obtain ⟨leak', hok, -⟩ := h.mem.moves hmoves
    have hempty : ∀ u, u.1 < PDX UTOP → k'.mem.user e u = none := fun u hu => hmem ▸ vmSetup_empty hl hvm hfree hu
    have hren : Store.Renews k.mem.store e Set.univ k'.mem.store := hmem ▸ vmSetup_renews h hl hvm hfree
    have hD : k.dirs e = none := dirs_of_free (h.live.free e (by rw [hl]; exact List.mem_cons_self ..))
    have hold : ∀ u, k.mem.store.map e u = none := by
      intro u
      have huser : k.mem.user e u = none := by
        have hD : k.mem.dirs e = none := hD
        simp [Mem.user, Mem.pte, hD]
      rw [Mem.store]
      dsimp only
      rw [huser]
      split <;> rfl
    have hne : ∀ {x : EnvPtr} {u : Vpn} {a : Entry Nat}, k.mem.store.map x u = some a → x ≠ e := by
      rintro x u a ha rfl
      rw [hold u] at ha
      cases ha
    rw [ENVX_mkenvid]
    refine .inr ⟨hnew.head, hb, ⟨leak', hok⟩, hempty, ?_, fun x u a ha => ?_, fun x u a ha => ?_⟩
    · refine Mem.store_congr fun x u hu => ?_
      by_cases hx : x = e
      · subst hx
        rw [hempty u hu]
        have hold := hold u
        rw [Mem.store_map hu] at hold
        exact (Option.map_eq_none_iff.1 hold).symm
      · exact h.mem.moves_user hmoves hx hu
    · exact hren.content x u a (fun hx => absurd hx (hne ha)) ha
    · have hpm : k'.pm = pm := congrArg Mem.pm hmem
      rw [hpm]
      exact vmSetup_ref h.mem hvm (Mem.store_target mc ha)

/-! ### The result -/

/-- `cur` calls the kernel, whose tables are kept apart. -/
structure Calling (mc : Machine) (k : Kern) (cur : EnvPtr) : Prop where
  mem : ∃ leak, MemOk mc leak k
  ids : IdBits k
  cur : k.curenv = some cur

theorem Calling.live (h : Calling mc k cur) : (k.envs cur).envStatus ≠ .FREE := by
  obtain ⟨_, hm⟩ := h.mem
  exact hm.live.cur cur h.cur

theorem Calling.setPm (h : Calling mc k cur) (hok : Mem.Ok mc leak ⟨k.dirs, m⟩) : Calling mc (k.setPm m) cur := by
  obtain ⟨_, hm⟩ := h.mem
  exact ⟨⟨leak, hm.live.setPm m, hok, hm.base, hm.dstva⟩, h.ids.same (.setPm k m), h.cur⟩

private theorem Calling.call {c : Call} {r : Option Word} (h : Calling mc k cur) (hs : CallStep k cur c k' r)
    (ha : callMemAdmits k cur c = true) (hcur : k'.curenv = k.curenv) : Calling mc k' cur := by
  obtain ⟨_, hm⟩ := h.mem
  have hpol : CallPolicy .any k cur c := ⟨fun _ _ => ⟨trivial, trivial⟩, fun _ _ _ _ _ _ => trivial⟩
  obtain ⟨leak', hm', -⟩ := hm.call h.cur hs ha hpol
  refine ⟨⟨leak', hm'⟩, ?_, hcur.trans h.cur⟩
  rcases CoreCall.of_step hs with hc | ⟨-, e, hn, -⟩
  · exact h.ids.call hc
  · exact h.ids.alloc hn

/-- What `fork` has done when it returns the id of the child. -/
structure ForkSpec (k : Kern) (cur : EnvPtr) (entry child : Word) (k' : Kern) : Prop where
  slot : k.envFreeList.head? = some (ENVX child)
  pages : ∃ L, Store.Forks k.mem.store cur (ENVX child) {v | forkable v = true} L k'.mem.store ∧
    (L = ∅ ∨ k'.pm.pageFreeList = [])
  isPrivate : k.mem.store.Private → k'.mem.store.Private
  entries : (k'.envs cur).envUserTlbModEntry = entry ∧ (k'.envs (ENVX child)).envUserTlbModEntry = entry
  starts : (k'.envs (ENVX child)).envStatus = .RUNNABLE ∧ (k'.envs (ENVX child)).envTf = k.ktf.setReg 2 0
  other : ∀ x, x ≠ cur → x ≠ ENVX child → k'.envs x = k.envs x

/-- Where an environment is free, and there is memory for its directory, `fork` returns the id of a child. -/
theorem forkSpec {r : Except Word Word} (h : Calling mc k cur) (hnext : ∀ x ∈ k.nextId, x.2 ≠ 0)
    (henv : k.envFreeList ≠ []) (hfree : k.vmFree = true)
    (href : ∀ v w, pageVa v < USTACKTOP → k.mem.user cur v = some w → (k.pm.ppRef (PPN w)).toNat < 32768)
    (hf : fork entry cur k = some (r, k')) :
    ∃ child, r = .ok child ∧ ForkSpec k cur entry child k' ∧ Calling mc k' cur := by
  obtain ⟨child, k₂, k₃, k₄, r₄, hfork, htables, hset, hend⟩ := fork_cases hf
  have hvisits := forkTables_visits htables
  -- the first call
  have hstep₁ : CallStep k cur (.setTlbModEntry 0 entry) (k.setEnv cur fun env => { env with envUserTlbModEntry := entry })
      (some 0) := .setTlbModEntry (envid2env_zero k cur true)
  have h₁ := h.call hstep₁ rfl rfl
  generalize hk₁ : (k.setEnv cur fun env => { env with envUserTlbModEntry := entry }) = k₁ at hfork h₁
  have hmem₁ : k₁.mem = k.mem := hk₁ ▸ mem_setEnv Iff.rfl rfl
  have hlist₁ : k₁.envFreeList = k.envFreeList := hk₁ ▸ rfl
  have hfree₁ : k₁.vmFree = true := by
    have hpm : k₁.pm = k.pm := hk₁ ▸ rfl
    have hdir : ∀ x, (k₁.envs x).envPgdir = (k.envs x).envPgdir := hk₁ ▸ setEnv_field Env.envPgdir rfl
    simp only [vmFree, hlist₁, hpm, hdir]
    exact hfree
  have hnext₁ : ∀ x ∈ k₁.nextId, x.2 ≠ 0 := hk₁ ▸ hnext
  -- the child
  obtain ⟨_, hm₁⟩ := h₁.mem
  obtain ⟨hchild, hcur₂, htf₂, henvs₂⟩ := exofork_envs (hlist₁ ▸ henv) hfork
  have hexo := (exofork_store hm₁ h₁.live hfree₁ hnext₁ hfork).resolve_left hchild
  have h₂ : Calling mc k₂ cur := by
    have hcall : k₁.call cur 0 .exofork = some (k₂, some child) := returning_eq_some.1 hfork
    exact h₁.call (call_step hcall) hfree₁ hcur₂
  have hb := hexo.builder
  obtain ⟨leak₂, hok₂⟩ := hexo.ok
  -- the loop
  have hstart : Forking mc k₂ cur (ENVX child) k₂.pm forkVisits k₂.pm := by
    refine .start hok₂ hb.ne hexo.empty fun u w hu hw => ?_
    have ha : k₂.mem.store.map cur u = some (pteEntry w) := Mem.store_map_some.2 ⟨visit_lt hu, w, hw, rfl⟩
    rw [hexo.map, hmem₁] at ha
    obtain ⟨-, w₀, hw₀, heq⟩ := Mem.store_map_some.1 ha
    have hppn : PPN w₀ = PPN w := congrArg Entry.frame heq
    have hsame : k₂.pm.ppRef (PPN w) = k₁.pm.ppRef (PPN w) := hexo.ref cur u (pteEntry w) (hmem₁ ▸ ha)
    have hpm : k₁.pm = k.pm := congrArg Mem.pm hmem₁
    rw [hsame, hpm, ← hppn]
    exact href u w₀ hu hw₀
  obtain ⟨m, rfl, hloop⟩ := hstart.visits hb forkVisits_nodup (fun v hv => mem_forkVisits.1 hv) hvisits
  obtain ⟨L, hforks, hL⟩ := hloop.pages
  have hall : {v : Vpn | v ∉ ([] : List Vpn) ∧ forkable v = true} = {v | forkable v = true} := by simp
  rw [hall] at hforks
  obtain ⟨leak₃, hok₃⟩ := hloop.ok
  have h₃ : Calling mc (k₂.setPm m) cur := h₂.setPm hok₃
  -- the last two calls
  have hb₃ := hb.setPm m
  have hset := returning_eq_some.1 hset
  rw [sysSetTlbModEntry, hb₃.child] at hset
  simp only [Option.some.injEq, Prod.mk.injEq] at hset
  obtain ⟨hk₄, rfl⟩ := hset
  obtain ⟨r₅, hstatus, hend⟩ := hend.resolve_left (not_not.2 rfl)
  have h₄ : Calling mc k₄ cur := by
    rw [← hk₄]
    exact h₃.call (.setTlbModEntry hb₃.child) rfl rfl
  have hb₄ : Builder k₄ cur (ENVX child) child := hb₃.congr (hk₄ ▸ (SameCore.setEnv rfl).cores)
  have hmem₄ : k₄.mem = ⟨k₂.dirs, m⟩ := hk₄ ▸ mem_setEnv Iff.rfl rfl
  have hmem' : k'.mem = ⟨k₂.dirs, m⟩ := (setEnvStatus_child hb₄ hstatus).1.trans hmem₄
  obtain ⟨rfl, q, hk'⟩ := setEnvStatus_eq hb₄ hstatus
  have h' : Calling mc k' cur := by
    have hcall : k₄.call cur 0 (.setEnvStatus child 1) = some (k', some 0) := returning_eq_some.1 hstatus
    exact h₄.call (call_step hcall) rfl (hk' ▸ rfl)
  have hchild' : k'.envs (ENVX child) = { k₂.envs (ENVX child) with envUserTlbModEntry := entry, envStatus := .RUNNABLE } := by
    rw [hk', setEnv_self, setSched_envs, ← hk₄, setEnv_self, setPm_envs]
  have hother : ∀ x, x ≠ ENVX child → k'.envs x = k₁.envs x := by
    intro x hx
    rw [hk', setEnv_of_ne hx, setSched_envs, ← hk₄, setEnv_of_ne hx, setPm_envs, henvs₂ x hx]
  refine ⟨child, hend.resolve_left (not_not.2 rfl), ⟨?_, ⟨L, ?_, ?_⟩, fun hp => ?_, ⟨?_, ?_⟩, ?_, fun x hx hx' => ?_⟩, h'⟩
  · exact hlist₁ ▸ hexo.head
  · rw [hmem']
    refine hforks.of_map (hexo.map.trans (by rw [hmem₁])) fun x u a ha => ?_
    rw [← hmem₁] at ha ⊢
    exact hexo.content x u a ha
  · have hpm : k'.pm = m := congrArg Mem.pm hmem'
    rw [hpm]
    exact hL
  · rw [hmem']
    exact hloop.isPrivate (hp.of_map (hexo.map.trans (by rw [hmem₁])))
  · rw [hother cur hb.ne.symm, ← hk₁, setEnv_self]
  · rw [hchild']
  · rw [hchild']
    exact ⟨rfl, htf₂.trans (hk₁ ▸ rfl)⟩
  · rw [hother x hx', ← hk₁, setEnv_of_ne hx]

end

end Kern

end Mos
