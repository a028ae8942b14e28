import Mos.Inv.Mem
import Mos.Inv.High

/-!
# The loop of `_do_tlb_refill`

One round that finds no page makes `passive_alloc` map one, and the next round finds it: `page_insert` and `page_lookup`
agree on the entry of an address, also in a window, where it is an entry of the directory.
-/

namespace Mos

open Kern Pmap

namespace Kern

variable {k : Kern} {cur : EnvPtr} {d : Nat} {va : Word}

/-- `passive_alloc` has no reason to panic but the want of pages: the address is not in one of its windows, and there is
a node for the signal that an address below `UTEMP` sends. -/
def Allowed (k : Kern) (va : Word) : Prop := forbidden va = false ∧ (va < UTEMP → k.signoFreeList ≠ none)

private theorem not_shared_of_allowed (hf : forbidden va = false) : ¬Shared (PDX va) := by
  have hnum : UENVS.toNat = 509 * 2 ^ 22 ∧ UPAGES.toNat = 510 * 2 ^ 22 ∧ UVPT.toNat = 511 * 2 ^ 22 := by decide
  have h509 : (PDX UENVS : Nat) = 509 := by decide
  have h510 : (PDX UPAGES : Nat) = 510 := by decide
  have hva := va.isLt
  simp only [forbidden, Bool.or_eq_false_iff, Bool.and_eq_false_iff, decide_eq_false_iff_not, BitVec.not_le,
    BitVec.not_lt] at hf
  obtain ⟨⟨⟨-, henvs⟩, hpages⟩, -⟩ := hf
  rw [BitVec.lt_def, BitVec.le_def] at henvs hpages
  have hidx := PDX_toNat va
  rintro (heq | heq)
  · rw [heq, h509] at hidx
    omega
  · rw [heq, h510] at hidx
    omega

/-- The signal does not change the memory. -/
private theorem segv_state (cur : EnvPtr) (ha : k.Allowed va) : ∃ k₀,
    (if va < UTEMP then (k.sysKill cur 0 (BitVec.ofNat 32 SIGSEGV)).map (·.1) else some k) = some k₀ ∧
      k₀.pm = k.pm ∧ (k₀.envs cur).envPgdir = (k.envs cur).envPgdir := by
  by_cases hlow : va < UTEMP
  · obtain ⟨n, hn⟩ := Option.ne_none_iff_exists'.1 (ha.2 hlow)
    have hkill : ∃ k₁ r, k.sysKill cur 0 (BitVec.ofNat 32 SIGSEGV) = some (k₁, r) ∧ k₁.pm = k.pm ∧
        (k₁.envs cur).envPgdir = (k.envs cur).envPgdir := by
      simp only [sysKill, envid2env, if_true, signoAlloc, hn, Option.map_some]
      refine ⟨_, _, rfl, rfl, ?_⟩
      rw [setEnv_self]
      rfl
    obtain ⟨k₁, r, hk, hpm, hdir⟩ := hkill
    exact ⟨k₁, by rw [if_pos hlow, hk]; rfl, hpm, hdir⟩
  · exact ⟨k, if_neg hlow, rfl, rfl⟩

/-- `passive_alloc` maps the first free page. -/
private theorem passiveAlloc_unmapped (hd : (k.envs cur).envPgdir = some d) (hw : k.pm.Windowed d) (ha : k.Allowed va)
    (hnone : k.pm.wholeMap d (VPN va) = none) (hroom : k.pm.pagesFor d va ≤ k.pm.pageFreeList.length) :
    ∃ k' p, k.passiveAlloc cur va = some k' ∧ p ∈ k.pm.pageFreeList ∧ Faulted k.pm d p va k'.pm ∧
      (k'.envs cur).envPgdir = some d := by
  obtain ⟨k₀, hk₀, hpm, hdir⟩ := segv_state cur ha
  have hvpn := VPN_PTE_ADDR va
  have hdx : PDX (PTE_ADDR va) = PDX va := congrArg Prod.fst hvpn
  have hroom' : k.pm.pagesFor d (PTE_ADDR va) ≤ k.pm.pageFreeList.length := by
    rw [pagesFor, hdx]
    exact hroom
  obtain ⟨p, rest, m', hl, hins, hf⟩ := hw.insert (hvpn.symm ▸ hnone) (k₀.envs cur).envAsid hroom'
  refine ⟨(k₀.setPm (k.pm.take p rest)).setPm m', p, ?_, by rw [hl]; exact List.mem_cons_self .., ?_, ?_⟩
  · have halloc : k₀.pm.pageAlloc = some (p, k.pm.take p rest) := by
      rw [hpm, pageAlloc, hl]
      rfl
    have henv : (k₀.setPm (k.pm.take p rest)).envs cur = k₀.envs cur := rfl
    have hpgdir : ((k₀.setPm (k.pm.take p rest)).envs cur).envPgdir = some d := hdir.trans hd
    unfold passiveAlloc
    rw [hk₀, Option.bind_some, if_neg (by rw [ha.1]; decide), halloc, Option.bind_some]
    dsimp only
    rw [pageInsertEnv, hpgdir, Option.bind_some, henv]
    have hins' : (k₀.setPm (k.pm.take p rest)).pm.pageInsert d (k₀.envs cur).envAsid p (PTE_ADDR va) PTE_D = some (0, m') :=
      hins
    rw [hins', Option.map_some, Option.bind_some]
    rfl
  · exact ⟨hf.windowed, hvpn ▸ hf.here, fun v hv hne => hf.others v hv (hvpn.symm ▸ hne), hf.zero, hf.ref⟩
  · exact hdir.trans hd

/-- What the loop leaves, with the entry that it returns. -/
structure Refilled (k : Kern) (cur : EnvPtr) (d : Nat) (va : Word) (k' : Kern) (pte : Word) : Prop where
  valid : has pte PTE_V = true
  found : k'.pm.lookup d va = some (some (PPN pte, pte))
  page : k' = k ∨ k.pm.lookup d va = some none ∧ k.passiveAlloc cur va = some k' ∧ PPN pte ∈ k.pm.pageFreeList ∧
    k'.pm.word (PPN pte) = (fun _ => 0) ∧ k'.pm.ppRef (PPN pte) = 1
  table : UVPT ≤ va → va < ULIM → entry (k'.pm.word d (PTX va)) = some (PPN pte)
  others : ∀ va', va' < UTOP → VPN va' ≠ VPN va → k'.pm.lookup d va' = k.pm.lookup d va'
  dir : (k'.envs cur).envPgdir = some d
  windowed : k'.pm.Windowed d

/-! ### The loop -/

private theorem refillLoop_mapped {q : Nat} {w : Word} (hd : (k.envs cur).envPgdir = some d) (hw : k.pm.Windowed d)
    (hi : ¬Shared (PDX va)) (hmap : k.pm.wholeMap d (VPN va) = some (q, w)) (n : Nat) :
    refillLoop cur va (n + 1) k = some (k, w) := by
  rcases hw.lookup_cases hi with ⟨hnone, -⟩ | ⟨t, q', -, hsome, -, hl⟩
  · rw [hnone] at hmap
    cases hmap
  · rw [hmap] at hsome
    obtain ⟨-, rfl⟩ := Prod.mk.inj (Option.some.inj hsome)
    rw [refillLoop, hd, Option.bind_some, hl]
    rfl

private theorem refillLoop_unmapped {k' : Kern} (hd : (k.envs cur).envPgdir = some d) (hw : k.pm.Windowed d)
    (hi : ¬Shared (PDX va)) (hmap : k.pm.wholeMap d (VPN va) = none) (halloc : k.passiveAlloc cur va = some k') (n : Nat) :
    refillLoop cur va (n + 1) k = refillLoop cur va n k' := by
  rcases hw.lookup_cases hi with ⟨-, hl⟩ | ⟨t, q', -, hsome, -⟩
  · rw [refillLoop, hd, Option.bind_some, hl, Option.bind_some]
    dsimp only
    rw [halloc, Option.bind_some]
  · rw [hmap] at hsome
    cases hsome

/-- What is mapped at an address is a page of the window of the tables there. -/
private theorem found_table {m : Pmap} {w : Word} (hw : m.Windowed d) (hmap : m.wholeMap d (VPN va) = some (PPN w, w))
    (hlo : UVPT ≤ va) (hhi : va < ULIM) : entry (m.word d (PTX va)) = some (PPN w) := by
  have hword : m.wholeMap d (VPN va) = mapsTo (m.word d (PTX va)) := hw.wholeMap_uvpt (MemOk.PDX_uvpt hlo hhi)
  rw [hword] at hmap
  obtain ⟨q, hq, hpair⟩ := Option.map_eq_some_iff.1 hmap
  rw [hq, ← (Prod.mk.inj hpair).1]

private theorem wholeMap_entry {m : Pmap} {v : Vpn} {q : Nat} {w : Word} (hmap : m.wholeMap d v = some (q, w)) :
    has w PTE_V = true ∧ PPN w = q := by
  obtain ⟨t, -, ht⟩ := Option.bind_eq_some_iff.1 hmap
  obtain ⟨q', hq', hpair⟩ := Option.map_eq_some_iff.1 ht
  obtain ⟨rfl, rfl⟩ := Prod.mk.inj hpair
  exact entry_eq_some.1 hq'

/-- The loop ends after at most one `passive_alloc`, for every directory with its windows. -/
theorem refill_ends (hd : (k.envs cur).envPgdir = some d) (hw : k.pm.Windowed d) (ha : k.Allowed va)
    (hroom : k.pm.lookup d va = some none → k.pm.pagesFor d va ≤ k.pm.pageFreeList.length) :
    ∃ k' pte, (∀ n, refillLoop cur va (n + 2) k = some (k', pte)) ∧ Refilled k cur d va k' pte := by
  have hi := not_shared_of_allowed ha.1
  cases hmap : k.pm.wholeMap d (VPN va) with
  | some x =>
    obtain ⟨q, w⟩ := x
    obtain ⟨hv, rfl⟩ := wholeMap_entry hmap
    refine ⟨k, w, fun n => refillLoop_mapped hd hw hi hmap (n + 1), hv, ?_, .inl rfl, ?_, fun _ _ _ => rfl, hd, hw⟩
    · rw [hw.lookup_eq hi, hmap]
    · exact found_table hw hmap
  | none =>
    have hlookup : k.pm.lookup d va = some none := by rw [hw.lookup_eq hi, hmap]
    obtain ⟨k', p, halloc, hp, hf, hd'⟩ := passiveAlloc_unmapped hd hw ha hmap (hroom hlookup)
    obtain ⟨hv, hPPN⟩ := wholeMap_entry hf.here
    have hhere : k'.pm.wholeMap d (VPN va) = some (PPN (newPte p PTE_D), newPte p PTE_D) := by
      rw [hPPN]
      exact hf.here
    rw [← hPPN] at hp
    refine ⟨k', newPte p PTE_D, fun n => ?_, hv, ?_, .inr ⟨hlookup, halloc, hp, ?_⟩, ?_, fun va' hlt hne => ?_, hd',
      hf.windowed⟩
    · rw [refillLoop_unmapped hd hw hi hmap halloc]
      exact refillLoop_mapped hd' hf.windowed hi hf.here n
    · rw [hf.windowed.lookup_eq hi, hhere]
    · rw [hPPN]
      exact ⟨hf.zero, hf.ref⟩
    · exact found_table hf.windowed hhere
    · have hlt := Mem.PDX_lt_of_lt hlt
      rw [hf.windowed.lookup_eq (not_shared_of_lt hlt), hw.lookup_eq (not_shared_of_lt hlt), hf.others (VPN va') hlt hne]

/-! ### A fault in the window at `UVPT` -/

/-- The first environment runs, and its directory has no table for the lowest addresses. -/
private theorem firstRun_cond : (kernel.trace memAdmits ⟨.user, Machine.gxemul.bootKern⟩ (.create .empty 1 :: tickEvents)).any
    fun r => (r.2.kern.envs 0).envStatus ≠ .FREE ∧ 2 ≤ r.2.kern.pm.pageFreeList.length ∧
      (r.2.kern.envs 0).envPgdir.any fun d => entry (r.2.kern.pm.word d (PTX UVPT)) = none := by decide +kernel

theorem refill_ends_uvpt : ∃ l s d k' pte,
    kernel.trace memAdmits ⟨.user, Machine.gxemul.bootKern⟩ (.create .empty 1 :: tickEvents) = some (l, s) ∧
      (s.kern.envs 0).envPgdir = some d ∧ refillLoop 0 UVPT 2 s.kern = some (k', pte) ∧
        entry (k'.pm.word d (PTX UVPT)) = some (PPN pte) ∧ k'.pm.word (PPN pte) = fun _ => 0 := by
  obtain ⟨⟨l, s⟩, hl, hcond⟩ := (Option.any_eq_true _ _).1 firstRun_cond
  obtain ⟨hlive, hfree, hdir⟩ := of_decide_eq_true hcond
  obtain ⟨d, hd, hnone⟩ := (Option.any_eq_true _ _).1 hdir
  have hw : s.kern.pm.Windowed d := windowed_of_steps (.of_trace hl) hlive hd
  have hallowed : s.kern.Allowed UVPT := ⟨by decide, fun hlow => absurd hlow (by decide)⟩
  have hroom : s.kern.pm.pagesFor d UVPT ≤ s.kern.pm.pageFreeList.length := by
    have hle : s.kern.pm.pagesFor d UVPT ≤ 2 := by
      unfold pagesFor
      split <;> omega
    exact le_trans hle hfree
  obtain ⟨k', pte, hrun, hr⟩ := refill_ends hd hw hallowed fun _ => hroom
  have htable := hr.table (by decide) (by decide)
  refine ⟨l, s, d, k', pte, hl, hd, hrun 0, htable, ?_⟩
  rcases hr.page with rfl | ⟨-, -, -, hzero, -⟩
  · rw [of_decide_eq_true hnone] at htable
    cases htable
  · exact hzero

end Kern

end Mos
