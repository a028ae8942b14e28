import Mos.Inv.Frame
import Mos.Inv.WholeMap

/-!
# Tables above `ULIM`

A fault in the window at `UVPT` may link a table for addresses above `ULIM`.  No step writes to it, so it stays empty.
With this, the directory of every environment has its two windows and tables of its own.
-/

namespace Mos

namespace Mem

variable {mc : Machine} {leak : Nat → Nat} {s s' : Mem} {D : Dirs} {m n : Pmap} {e e' : EnvPtr} {asid : Asid} {pol : Policy}
  {i j : Idx} {d t u : Nat}

/-- The tables above `ULIM` have no valid entry. -/
def HighEmpty (mc : Machine) (s : Mem) : Prop :=
  ∀ e i t j, PDX ULIM ≤ i → s.target mc (.pde e i) = some t → entry (s.pm.word t j) = none

private theorem ne_of_high {i' : Idx} (hi : PDX ULIM ≤ i) (hi' : i' < PDX UTOP) : i ≠ i' := by
  have hle : (PDX UTOP : Idx) ≤ PDX ULIM := by decide
  rintro rfl
  exact absurd (lt_of_lt_of_le hi' (le_trans hle hi)) (lt_irrefl _)

/-- A write to a table below `UTOP`. -/
private theorem Ok.setPte_high {i' : Idx} (h : Ok mc leak ⟨D, m⟩) (hu : Mos.target mc D m.word (.pde e' i') = some u)
    (hi' : i' < PDX UTOP) (hn : ∀ q, q ≠ u → n.word q = m.word q) (hi : PDX ULIM ≤ i)
    (ht : Mos.target mc D n.word (.pde e i) = some t) :
    Mos.target mc D m.word (.pde e i) = some t ∧ n.word t = m.word t := by
  obtain ⟨hidx, d, hd, hw⟩ := target_pde_some ht
  have hdu : d ≠ u := by
    rintro rfl
    cases h.tree.tree (.dir e) (.pde e' i') d trivial hd hu
  rw [hn d hdu] at hw
  have hold : Mos.target mc D m.word (.pde e i) = some t := (target_pde hd hidx).trans hw
  refine ⟨hold, hn t ?_⟩
  rintro rfl
  cases h.tree.tree (.pde e' i') (.pde e i) t trivial hu hold
  exact ne_of_high hi hi' rfl

/-- A table above `ULIM` is an old one that is not written, or a new one. -/
private theorem Ok.move_high (h : Ok mc leak s) (hm : Move mc pol e asid s s') (hi : PDX ULIM ≤ i)
    (ht : s'.target mc (.pde e' i) = some t) :
    s.target mc (.pde e' i) = some t ∧ s'.pm.word t = s.pm.word t ∨ ∀ j, entry (s'.pm.word t j) = none := by
  -- A table above `ULIM` is reached from one directory only, so that the moves of others do not matter.
  by_cases he : e' ≠ e
  · left
    have hsame := h.moves_target (.single hm) (x := .pde e' i) fun heq => he (Option.some.inj heq)
    rw [hsame] at ht
    exact ⟨ht, h.move_frame hm he ⟨.pde e' i, trivial, .inr rfl, ht⟩⟩
  · obtain rfl : e' = e := not_not.1 he
    cases hm with
    | @take D m q rest hl =>
      left
      have hq := h.fresh (q := q) (by rw [hl]; exact List.mem_cons_self ..)
      have htgt : Mos.target mc D (m.take q rest).word = Mos.target mc D m.word := target_fresh hq.notTree _
      have hold : Mos.target mc D m.word (.pde e' i) = some t := (congrFun htgt _).symm.trans ht
      have hne : t ≠ q := fun heq => hq.unused (.pde e' i) (heq ▸ hold)
      exact ⟨hold, Function.update_of_ne hne ..⟩
    | flush => exact .inl ⟨ht, rfl⟩
    | @link D m d u i' rest hd hi' hinv hl =>
      have hfresh := h.fresh (q := u) (by rw [hl]; exact List.mem_cons_self ..)
      have hud : u ≠ d := fun heq => hfresh.unused (.dir e') (heq ▸ hd)
      obtain ⟨hidx, d', hd', hw⟩ := target_pde_some ht
      obtain rfl := Option.some.inj (hd.symm.trans hd')
      have hu20 : u < 2 ^ 20 := by
        have hk := mc.kseg0
        have hlt := hfresh.bound.2
        omega
      have hw : entry ((m.linkTable d u rest i').word d i) = some t := hw
      -- The entry is the one that is stored here, or an old one.
      rw [Pmap.linkTable_word hud, if_neg hud.symm] at hw
      split at hw
      case isTrue =>
        right
        rw [entry_tablePde hu20] at hw
        obtain rfl := Option.some.inj hw
        intro j
        show entry ((m.linkTable d u rest i').word u j) = none
        rw [Pmap.linkTable_word hud, if_neg fun h => hud h.1, if_pos rfl]
        exact entry_zero
      case isFalse =>
        left
        have hold : Mos.target mc D m.word (.pde e' i) = some t := (target_pde hd hidx).trans hw
        have htu : t ≠ u := fun heq => hfresh.unused (.pde e' i) (heq ▸ hold)
        have htd : t ≠ d := by
          rintro rfl
          cases h.tree.tree (.dir e') (.pde e' i) t trivial hd hold
        exact ⟨hold, Pmap.link_word htd htu⟩
    | @fill D m u pp i' j perm hi' hu => exact .inl (h.setPte_high hu hi' (fun q hq => Function.update_of_ne hq ..) hi ht)
    | @reperm D m u pp va perm hi' hu => exact .inl (h.setPte_high hu hi' (fun q hq => Function.update_of_ne hq ..) hi ht)
    | @clear D m m' u pp va hi' hu hpte hdec =>
      refine .inl (h.setPte_high hu hi' (fun q hq => ?_) hi ht)
      have hset : (m'.setWord u (PTX va) 0).word q = m'.word q := Function.update_of_ne hq ..
      exact hset.trans (congrFun (pageDecref_word hdec).1 q)
    | @newDir D m m' p hD hs =>
      obtain ⟨rest, hl, rfl⟩ := Pmap.envSetupVm_cases hs
      obtain ⟨hidx, d, hd, hw⟩ := target_pde_some ht
      have hself : Function.update D e' (some p) e' = some p := Function.update_self ..
      obtain rfl : p = d := Option.some.inj (hself.symm.trans hd)
      have hzero : ((m.take p rest).newDir mc.bootPgdir p).word p i = 0 := by
        have hself : ((m.take p rest).newDir mc.bootPgdir p).word p = (m.take p rest).newDirWord mc.bootPgdir p :=
          Function.update_self ..
        have hhigh : ¬i < PDX UVPT := not_lt.2 (le_trans (by decide) hi)
        have hnot : i ≠ PDX KSEG2 ∧ i ≠ PDX UVPT := by
          constructor
          · rintro rfl
            rw [userIdx_kseg2] at hidx
            cases hidx
          · rintro rfl
            rw [userIdx_uvpt] at hidx
            cases hidx
        rw [hself, Pmap.newDirWord, if_neg (by simp [hnot]), if_neg fun h => hhigh h.2]
      have hw : entry (((m.take p rest).newDir mc.bootPgdir p).word p i) = some t := hw
      rw [hzero] at hw
      cases hw
    | @dropTable D m m' d u i' hd hi' hu hempty hdec =>
      left
      have hword : m'.word = (m.setWord d i' 0).word := (pageDecref_word hdec).1
      obtain ⟨hidx, d', hd', hw⟩ := target_pde_some ht
      obtain rfl := Option.some.inj (hd.symm.trans hd')
      have hsame : (m.setWord d i' 0).word d i = m.word d i := by
        simp [Pmap.setWord, ne_of_high hi hi']
      have hw : entry (m'.word d i) = some t := hw
      rw [hword, hsame] at hw
      have hold : Mos.target mc D m.word (.pde e' i) = some t := (target_pde hd hidx).trans hw
      have htd : t ≠ d := by
        rintro rfl
        cases h.tree.tree (.dir e') (.pde e' i) t trivial hd hold
      exact ⟨hold, (congrFun hword t).trans (Function.update_of_ne htd ..)⟩
    | @dropDir D m m' d hd hempty hpol hdec =>
      obtain ⟨-, d', hd', -⟩ := target_pde_some ht
      have hnone : Function.update D e' none e' = none := Function.update_self ..
      cases hnone.symm.trans hd'

private theorem HighEmpty.move (hh : HighEmpty mc s) (h : Ok mc leak s) (hm : Move mc pol e asid s s') :
    HighEmpty mc s' := by
  intro e' i t j hi ht
  rcases h.move_high hm hi ht with ⟨hold, hword⟩ | hzero
  · rw [hword]
    exact hh e' i t j hi hold
  · exact hzero j

private theorem HighEmpty.moves (hh : HighEmpty mc s) (h : Ok mc leak s) (hm : Moves mc pol e asid s s') :
    HighEmpty mc s' := by
  induction hm with
  | refl => exact hh
  | tail hm₁ hm₂ ih =>
    obtain ⟨leak₁, h₁, -⟩ := h.moves hm₁
    exact ih.move h₁ hm₂

private theorem HighEmpty.congr (hh : HighEmpty mc s) (hdirs : s'.dirs = s.dirs) (hword : s'.pm.word = s.pm.word) :
    HighEmpty mc s' := by
  intro e i t j hi ht
  rw [Mem.target, hdirs, hword] at ht
  rw [hword]
  exact hh e i t j hi ht

/-! ### The directories of the environments -/

/-- What an entry of a directory refers to. -/
private theorem Ok.dir_entry (h : Ok mc leak ⟨D, m⟩) (hd : D e = some d) (ht : entry (m.word d i) = some t) :
    userIdx i = true ∧ Mos.target mc D m.word (.pde e i) = some t ∨ (i = PDX UVPT ∨ i = PDX KSEG2) ∧ t = d ∨
      Pmap.Shared i ∧ ∃ b, t = mc.baseFrame b := by
  cases hu : userIdx i with
  | true => exact .inl ⟨rfl, (target_pde hd hu).trans ht⟩
  | false =>
    right
    have henvs : mc.envsTable < 2 ^ 20 := h.tree.lt (.base 2) _ rfl
    have hpages : mc.pagesTable < 2 ^ 20 := h.tree.lt (.base 1) _ rfl
    have hself := entry_self (h.tree.lt (.dir e) d hd)
    obtain ⟨hue, hup⟩ := h.tree.shared e d hd
    obtain ⟨huvpt, hkseg2⟩ := h.tree.self e d hd
    rcases special_idx hu with rfl | rfl | rfl | rfl
    · rw [hue, entry_tablePde henvs] at ht
      exact .inr ⟨.inl rfl, 2, (Option.some.inj ht).symm⟩
    · rw [hup, entry_tablePde hpages] at ht
      exact .inr ⟨.inr rfl, 1, (Option.some.inj ht).symm⟩
    · rw [huvpt, hself] at ht
      exact .inl ⟨.inl rfl, (Option.some.inj ht).symm⟩
    · rw [hkseg2, hself] at ht
      exact .inl ⟨.inr rfl, (Option.some.inj ht).symm⟩

/-- Its frame is one of the tree. -/
private theorem Ok.dir_slot (h : Ok mc leak ⟨D, m⟩) (hd : D e = some d) (ht : entry (m.word d i) = some t) :
    ∃ x : Slot, x.Structural ∧ Mos.target mc D m.word x = some t := by
  rcases h.dir_entry hd ht with ⟨-, hp⟩ | ⟨-, rfl⟩ | ⟨-, b, rfl⟩
  · exact ⟨.pde e i, trivial, hp⟩
  · exact ⟨.dir e, trivial, hd⟩
  · exact ⟨.base b, trivial, rfl⟩

/-- The directory of an environment has its windows. -/
private theorem Ok.windowed (h : Ok mc leak ⟨D, m⟩) (hh : HighEmpty mc ⟨D, m⟩) (hd : D e = some d) : m.Windowed d := by
  have hself := entry_self (h.tree.lt (.dir e) d hd)
  obtain ⟨huvpt, hkseg2⟩ := h.tree.self e d hd
  constructor
  · exact h.npage ▸ mc.kseg0
  · exact h.refs.nodup
  · intro q hq
    obtain ⟨⟨-, hlt⟩, href⟩ := h.refs.free q hq
    have hfresh := h.fresh hq
    refine ⟨h.npage ▸ hlt, href, fun heq => hfresh.unused (.dir e) (heq ▸ hd), fun i hi => ?_⟩
    obtain ⟨x, -, hx⟩ := h.dir_slot hd hi
    exact hfresh.unused x hx
  · rw [huvpt]
    exact hself
  · rw [hkseg2]
    exact hself
  · intro i i' t hi ht ht'
    have hp : Mos.target mc D m.word (.pde e i) = some t := (target_pde hd (userIdx_of_lt hi)).trans ht
    rcases h.dir_entry hd ht' with ⟨-, hp'⟩ | ⟨-, rfl⟩ | ⟨-, b, rfl⟩
    · cases h.tree.tree (.pde e i) (.pde e i') t trivial hp hp'
      rfl
    · cases h.tree.tree (.dir e) (.pde e i) t trivial hd hp
    · cases h.tree.tree (.base b) (.pde e i) _ trivial rfl hp
  · intro i t j q hi ht hq
    rcases h.dir_entry hd ht with ⟨hidx, hp⟩ | ⟨-, rfl⟩ | ⟨hshared, -⟩
    · by_cases hlt : i < PDX UTOP
      · refine h.pde_lt (s := .pte e i j) ?_
        rw [target_pte hp hlt]
        exact hq
      · have hcase : PDX ULIM ≤ i ∧ i ≠ PDX KSEG2 := by simpa [userIdx, hlt] using hidx
        have hnone := hh e i t j hcase.1 hp
        rw [show entry (m.word t j) = some q from hq] at hnone
        cases hnone
    · obtain ⟨x, -, hx⟩ := h.dir_slot hd hq
      exact h.pde_lt hx
    · exact absurd hshared hi

end Mem

/-! ### The runs of the system -/

open Kern

variable {mc : Machine} {leak : Nat → Nat} {e : EnvPtr} {d : Nat}

/-- In every run of admitted steps the tables above `ULIM` are empty. -/
private theorem highEmpty_of_steps {l : List (State × Event)} {s : State}
    (h : kernel.Steps (fun s ev => memAdmits s ev = true) ⟨.user, mc.bootKern⟩ l s) :
    (∃ leak, MemOk mc leak s.kern) ∧ Mem.HighEmpty mc s.kern.mem := by
  refine h.invariant (I := fun _ s => (∃ leak, MemOk mc leak s.kern) ∧ Mem.HighEmpty mc s.kern.mem)
    ⟨⟨_, MemOk.boot mc⟩, fun e i t j _ ht => ?_⟩ ?_
  · obtain ⟨-, d, hd, -⟩ := target_pde_some ht
    have hnone : mc.bootKern.dirs e = none := dirs_of_free rfl
    cases hnone.symm.trans hd
  · rintro l s₁ ev s₂ ⟨⟨leak, hm⟩, hh⟩ ha hs
    have hs := State.step_cases hs
    obtain ⟨leak', hm', -⟩ := hm.step hs ha (.any s₁ ev)
    obtain ⟨e, asid, m, hst⟩ := hm.memSteps hs ha
    exact ⟨⟨leak', hm'⟩, (hh.moves hm.mem hst.moves).congr hst.dirs hst.word⟩

/-- So every environment of a running system has a directory with its windows. -/
theorem windowed_of_steps {l : List (State × Event)} {s : State}
    (h : kernel.Steps (fun s ev => memAdmits s ev = true) ⟨.user, mc.bootKern⟩ l s)
    (hlive : (s.kern.envs e).envStatus ≠ .FREE) (hd : (s.kern.envs e).envPgdir = some d) : s.kern.pm.Windowed d := by
  obtain ⟨⟨leak, hm⟩, hh⟩ := highEmpty_of_steps h
  exact hm.mem.windowed hh ((dirs_of_live hlive).trans hd)

end Mos
