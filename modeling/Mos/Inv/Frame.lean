import Mos.Inv.Mem

/-!
# What a small step leaves alone

A step for one environment writes frames from the free list and frames of the tree of that environment only.  So what
another environment sees through its page table below `ULIM` stays the same.
-/

namespace Mos

namespace Mem

variable {mc : Machine} {leak : Nat → Nat} {s s' : Mem} {e e' : EnvPtr} {asid : Asid} {pol : Policy} {q d t : Nat}
  {v : Vpn} {w : Word}

/-- The frames that the walk of `e` reads below `ULIM`: its directory, its tables, and the template. -/
def Frame (mc : Machine) (s : Mem) (e : EnvPtr) (q : Nat) : Prop :=
  ∃ x : Slot, x.Structural ∧ (x.env = none ∨ x.env = some e) ∧ s.target mc x = some q

/-- The entry that is stored for the page `v` in the page table of `e`. -/
def pte (s : Mem) (e : EnvPtr) (v : Vpn) : Option Word :=
  (s.dirs e).bind fun d => (entry (s.pm.word d v.1)).map fun t => s.pm.word t v.2

theorem pte_eq_some : s.pte e v = some w ↔
    ∃ d t, s.dirs e = some d ∧ entry (s.pm.word d v.1) = some t ∧ s.pm.word t v.2 = w := by
  simp only [pte, Option.bind_eq_some_iff, Option.map_eq_some_iff, exists_and_left]

/-- The table that the walk finds below `ULIM`: one of the environment, the directory itself, or one of the template. -/
theorem Ok.table_at (h : Ok mc leak s) (hd : s.dirs e = some d) {i : Idx} (hi : i < PDX ULIM)
    (ht : entry (s.pm.word d i) = some t) :
    s.target mc (.pde e i) = some t ∨ (i = PDX UVPT ∧ t = d) ∨ ∃ b, t = mc.baseFrame b := by
  have henvs : mc.envsTable < 2 ^ 20 := h.tree.lt (.base 2) _ rfl
  have hpages : mc.pagesTable < 2 ^ 20 := h.tree.lt (.base 1) _ rfl
  cases hu : userIdx i with
  | true => exact .inl ((target_pde hd hu).trans ht)
  | false =>
    right
    obtain ⟨hue, hup⟩ := h.tree.shared e d hd
    obtain ⟨hself, -⟩ := h.tree.self e d hd
    rcases special_idx hu with rfl | rfl | rfl | rfl
    · rw [hue, entry_tablePde henvs] at ht
      exact .inr ⟨2, (Option.some.inj ht).symm⟩
    · rw [hup, entry_tablePde hpages] at ht
      exact .inr ⟨1, (Option.some.inj ht).symm⟩
    · rw [hself, entry_self (h.tree.lt (.dir e) d hd)] at ht
      exact .inl ⟨rfl, (Option.some.inj ht).symm⟩
    · exact absurd hi (by decide)

private theorem Ok.table_frame (h : Ok mc leak s) (hd : s.dirs e = some d) {i : Idx} (hi : i < PDX ULIM)
    (ht : entry (s.pm.word d i) = some t) : Frame mc s e t := by
  rcases h.table_at hd hi ht with hp | ⟨-, rfl⟩ | ⟨b, rfl⟩
  · exact ⟨.pde e i, trivial, .inr rfl, hp⟩
  · exact ⟨.dir e, trivial, .inr rfl, hd⟩
  · exact ⟨.base b, trivial, .inl rfl, rfl⟩

/-- What `e` sees depends on its frames only. -/
theorem Ok.pte_congr {n : Mem} (h : Ok mc leak s) (hv : v.1 < PDX ULIM) (hdirs : n.dirs e = s.dirs e)
    (hword : ∀ q, Frame mc s e q → n.pm.word q = s.pm.word q) : n.pte e v = s.pte e v := by
  cases hd : s.dirs e with
  | none => simp [pte, hdirs, hd]
  | some d =>
    have hdw : n.pm.word d = s.pm.word d := hword d ⟨.dir e, trivial, .inr rfl, hd⟩
    cases ht : entry (s.pm.word d v.1) with
    | none => simp [pte, hdirs, hd, hdw, ht]
    | some t =>
      have htw : n.pm.word t = s.pm.word t := hword t (h.table_frame hd hv ht)
      simp [pte, hdirs, hd, hdw, ht, htw]

/-- A frame is written only if it is free, or a directory or table of `e`. -/
private theorem Ok.move_word (h : Ok mc leak s) (hm : Move mc pol e asid s s') (q : Nat) :
    s'.pm.word q = s.pm.word q ∨ q ∈ s.pm.pageFreeList ∨
      ∃ x : Slot, x.Structural ∧ x.env = some e ∧ s.target mc x = some q := by
  cases hm with
  | @take D m q₀ rest hl =>
    by_cases hq : q = q₀
    · subst hq
      exact .inr (.inl (by rw [show m.pageFreeList = q :: rest from hl]; exact List.mem_cons_self ..))
    · exact .inl (Function.update_of_ne hq ..)
  | flush => exact .inl rfl
  | @link D m d t i rest hd hi hv hl =>
    by_cases hqd : q = d
    · subst hqd
      exact .inr (.inr ⟨.dir e, trivial, rfl, hd⟩)
    · by_cases hqt : q = t
      · subst hqt
        exact .inr (.inl (by rw [show m.pageFreeList = q :: rest from hl]; exact List.mem_cons_self ..))
      · left
        have h₁ : (m.linkTable d t rest i).word q = (m.take t rest).word q := Function.update_of_ne hqd ..
        have h₂ : (m.take t rest).word q = m.word q := Function.update_of_ne hqt ..
        exact h₁.trans h₂
  | @fill D m t pp i j perm hi ht =>
    by_cases hqt : q = t
    · subst hqt
      exact .inr (.inr ⟨.pde e i, trivial, rfl, ht⟩)
    · exact .inl (Function.update_of_ne hqt ..)
  | @reperm D m t pp va perm hi ht =>
    by_cases hqt : q = t
    · subst hqt
      exact .inr (.inr ⟨.pde e (PDX va), trivial, rfl, ht⟩)
    · exact .inl (Function.update_of_ne hqt ..)
  | @clear D m m' t pp va hi ht hpte hdec =>
    by_cases hqt : q = t
    · subst hqt
      exact .inr (.inr ⟨.pde e (PDX va), trivial, rfl, ht⟩)
    · left
      have hset : (m'.setWord t (PTX va) 0).word q = m'.word q := Function.update_of_ne hqt ..
      exact hset.trans (congrFun (pageDecref_word hdec).1 q)
  | @newDir D m m' p hD hs =>
    obtain ⟨rest, hl, rfl⟩ := Pmap.envSetupVm_cases hs
    by_cases hqp : q = p
    · subst hqp
      exact .inr (.inl (by rw [show m.pageFreeList = q :: rest from hl]; exact List.mem_cons_self ..))
    · left
      have h₁ : ((m.take p rest).newDir mc.bootPgdir p).word q = (m.take p rest).word q := Function.update_of_ne hqp ..
      have h₂ : (m.take p rest).word q = m.word q := Function.update_of_ne hqp ..
      exact h₁.trans h₂
  | @dropTable D m m' d t i hd hi ht hempty hdec =>
    by_cases hqd : q = d
    · subst hqd
      exact .inr (.inr ⟨.dir e, trivial, rfl, hd⟩)
    · left
      have hset : (m.setWord d i 0).word q = m.word q := Function.update_of_ne hqd ..
      exact (congrFun (pageDecref_word hdec).1 q).trans hset
  | dropDir hd hempty hpol hdec => exact .inl (congrFun (pageDecref_word hdec).1 q)

theorem move_dirs (hm : Move mc pol e asid s s') (he : e' ≠ e) : s'.dirs e' = s.dirs e' := by
  cases hm with
  | newDir => exact Function.update_of_ne he ..
  | dropDir => exact Function.update_of_ne he ..
  | _ => rfl

/-- The frames of another environment are not written, and stay its frames. -/
theorem Ok.move_frame (h : Ok mc leak s) (hm : Move mc pol e asid s s') (he : e' ≠ e) (hq : Frame mc s e' q) :
    s'.pm.word q = s.pm.word q := by
  obtain ⟨x, hx, henv, ht⟩ := hq
  rcases h.move_word hm q with heq | hfree | ⟨y, hy, hyenv, hyt⟩
  · exact heq
  · exact absurd ht ((h.fresh hfree).unused x)
  · rcases h.tree.tree x y q hx ht hyt with rfl
    rw [hyenv] at henv
    rcases henv with hnone | hsome
    · cases hnone
    · exact absurd (Option.some.inj hsome).symm he

private theorem Ok.frame_move (h : Ok mc leak s) (hm : Move mc pol e asid s s') (he : e' ≠ e) (hq : Frame mc s e' q) :
    Frame mc s' e' q := by
  obtain ⟨x, hx, henv, ht⟩ := hq
  refine ⟨x, hx, henv, ?_⟩
  have hsame : s'.target mc x = s.target mc x := by
    refine target_congr fun e'' he'' => ?_
    have hee : e'' = e' := by
      rcases henv with hnone | hsome
      · rw [hnone] at he''
        cases he''
      · exact Option.some.inj (he''.symm.trans hsome)
    subst hee
    exact ⟨move_dirs hm he, fun d hd => h.move_frame hm he ⟨.dir e'', trivial, .inr rfl, hd⟩,
      fun i t ht => h.move_frame hm he ⟨.pde e'' i, trivial, .inr rfl, ht⟩⟩
  exact hsame.trans ht

/-- A sequence of steps for one environment does not write the frames of another. -/
theorem Ok.moves_frame (h : Ok mc leak s) (hm : Moves mc pol e asid s s') (he : e' ≠ e) :
    s'.dirs e' = s.dirs e' ∧ ∀ q, Frame mc s e' q → s'.pm.word q = s.pm.word q ∧ Frame mc s' e' q := by
  induction hm with
  | refl => exact ⟨rfl, fun q hq => ⟨rfl, hq⟩⟩
  | tail hm₁ hm₂ ih =>
    obtain ⟨hdirs, hword⟩ := ih
    obtain ⟨leak₁, h₁, -⟩ := h.moves hm₁
    refine ⟨(move_dirs hm₂ he).trans hdirs, fun q hq => ?_⟩
    obtain ⟨hw, hf⟩ := hword q hq
    exact ⟨(h₁.move_frame hm₂ he hf).trans hw, h₁.frame_move hm₂ he hf⟩

/-- The slots of the others refer to what they did. -/
theorem Ok.moves_target (h : Ok mc leak s) (hm : Moves mc pol e asid s s') {x : Slot} (hx : x.env ≠ some e) :
    s'.target mc x = s.target mc x := by
  refine target_congr fun e' he' => ?_
  have hne : e' ≠ e := by
    rintro rfl
    exact hx he'
  obtain ⟨hdirs, hframe⟩ := h.moves_frame hm hne
  exact ⟨hdirs, fun d hd => (hframe d ⟨.dir e', trivial, .inr rfl, hd⟩).1,
    fun i t ht => (hframe t ⟨.pde e' i, trivial, .inr rfl, ht⟩).1⟩

/-- A page that another environment maps is not written. -/
theorem Ok.moves_content (h : Ok mc leak s) (hm : Moves mc pol e asid s s') {i j : Idx} (he : e' ≠ e)
    (hq : s.target mc (.pte e' i j) = some q) : s'.pm.word q = s.pm.word q := by
  induction hm with
  | refl => rfl
  | tail hm₁ hm₂ ih =>
    obtain ⟨leak₁, h₁, -⟩ := h.moves hm₁
    have hq₁ := (h.moves_target hm₁ (x := .pte e' i j) fun heq => he (Option.some.inj heq)).trans hq
    rcases h₁.move_word hm₂ q with heq | hfree | ⟨x, hx, -, ht⟩
    · exact heq.trans ih
    · exact absurd hq₁ ((h₁.fresh hfree).unused _)
    · have hxq := h₁.tree.tree x (.pte e' i j) q hx ht hq₁
      subst hxq
      exact hx.elim

end Mem

/-! ### Steps of the system -/

open Kern

variable {mc : Machine} {leak : Nat → Nat}

/-- What a step does to the memory: small steps for one environment, after which a page that was asked for may come into
the TLB. -/
structure MemSteps (mc : Machine) (s : State) (ev : Event) (s' : State) (e : EnvPtr) (asid : Asid) (m : Mem) : Prop where
  moves : Moves mc .any e asid s.kern.mem m
  dirs : s'.kern.mem.dirs = m.dirs
  word : s'.kern.mem.pm.word = m.pm.word
  tlb : ∀ t ∈ s'.kern.pm.tlb, t ∈ m.pm.tlb ∨ ∃ va, s.phase = .entered (.tlbMiss va) ∧ ev = .handle ∧ t.vpn = VPN va

private theorem MemSteps.of_moves {s s' : State} {ev : Event} {e : EnvPtr} {asid : Asid}
    (hm : Moves mc .any e asid s.kern.mem s'.kern.mem) : ∃ e asid m, MemSteps mc s ev s' e asid m :=
  ⟨e, asid, s'.kern.mem, hm, rfl, rfl, fun _ ht => .inl ht⟩

theorem MemOk.memSteps {s s' : State} {ev : Event} (h : MemOk mc leak s.kern) (hs : Step s ev s')
    (ha : memAdmits s ev = true) : ∃ e asid m, MemSteps mc s ev s' e asid m := by
  have hsame : s'.kern.mem = s.kern.mem → ∃ e asid m, MemSteps mc s ev s' e asid m := by
    intro hmem
    have hm : Moves mc .any 0 0 s.kern.mem s'.kern.mem := hmem ▸ .refl
    exact MemSteps.of_moves hm
  have hcall : ∀ {k k' : Kern} {cur : EnvPtr} {c : Call} {r : Option Word}, MemOk mc leak k →
      (k.envs cur).envStatus ≠ .FREE → CallStep k cur c k' r → callMemAdmits k cur c = true →
      ∃ e asid, Moves mc .any e asid k.mem k'.mem := by
    intro k k' cur c r hk hcur hs ha
    obtain ⟨e, -, hm⟩ : ∃ e, Acts k cur c e ∧ Moves mc .any e (k'.envs e).envAsid k.mem k'.mem :=
      hk.call_moves hcur hs ha ⟨fun _ _ => ⟨trivial, trivial⟩, fun _ _ _ _ _ _ => trivial⟩
    exact ⟨e, _, hm⟩
  cases hs with
  | create hc =>
    obtain ⟨e, -, hm⟩ : ∃ e, _ ∧ Moves mc .any e _ _ _ := h.create_moves ha hc
    exact MemSteps.of_moves hm
  | evict k keep => exact ⟨0, 0, k.mem, .refl, rfl, rfl, fun t ht => .inl (List.mem_filter.1 ht).1⟩
  | idle => exact hsame rfl
  | save => exact hsame rfl
  | tick hk => exact hsame (mem_schedule hk)
  | noSys => exact hsame rfl
  | @call k k' cur c r junk hc hd hcs =>
    have ha : callMemAdmits k.skipInsn cur c = true := (onCall_eq hc hd).symm.trans ha
    obtain ⟨e, asid, hm⟩ := hcall h.skipInsn (h.live.cur cur hc) hcs ha
    exact MemSteps.of_moves hm
  | @left k k' cur c junk hc hd hcs =>
    have ha : callMemAdmits k.skipInsn cur c = true := (onCall_eq hc hd).symm.trans ha
    obtain ⟨e, asid, hm⟩ := hcall h.skipInsn (h.live.cur cur hc) hcs ha
    exact MemSteps.of_moves hm
  | @tlbMiss k k₁ c va pgdir pp ptr hc hva hserved hdir hl =>
    have hm : Moves mc .any c (k₁.envs c).envAsid k.mem k₁.mem := h.served_moves (h.live.cur c hc) hva hserved
    refine ⟨c, _, k₁.mem, hm, rfl, rfl, fun t ht => ?_⟩
    rcases List.mem_cons.1 ht with rfl | ht
    · exact .inr ⟨va, rfl, rfl, rfl⟩
    · exact .inl ht
  | tlbMod => exact hsame rfl
  | @ret k k₁ c returned tf hc hd =>
    have hret : (k₁.storeTf c returned tf).mem = k.mem :=
      (mem_storeTf k₁ c returned tf).trans (mem_sigFrame (doSignal_frame hd).1)
    exact hsame hret

end Mos
