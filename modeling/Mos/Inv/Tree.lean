import Mos.Kern.Boot
import Mos.Lib.RefCount
import Mathlib.Data.Fintype.Sigma
import Mathlib.Data.Fintype.Sum
import Mathlib.Tactic.DeriveFintype
import Mathlib.Tactic.FinCases

/-!
# The page tables as a tree

The directories of the environments, their page tables and the template directory with its two tables form a tree: a
frame that is one of them is referred to from one place only.  This is what keeps a write to the table of one
environment from changing another one's.
-/

namespace Mos

/-! ### References to frames -/

/-- The page directories in use. -/
abbrev Dirs := EnvPtr → Option Nat

/-- The places that refer to a frame: the template directory and its tables, the directories in use, their entries for
page tables, and the entries of the page tables below `UTOP`. -/
inductive Slot where
  | base (b : Fin 3)
  | dir (e : EnvPtr)
  | pde (e : EnvPtr) (i : Idx)
  | pte (e : EnvPtr) (i j : Idx)
  deriving DecidableEq, Fintype

/-- The slots that refer to directories and tables. -/
def Slot.Structural : Slot → Prop
  | .pte _ _ _ => False
  | _ => True

/-- The frame of a valid entry. -/
def entry (w : Word) : Option Nat := if has w PTE_V then some (PPN w) else none

/-- The entries of a directory that refer to tables of its own: neither the shared ones nor the two self-map entries. -/
def userIdx (i : Idx) : Bool := i < PDX UTOP || (PDX ULIM ≤ i && i ≠ PDX KSEG2)

namespace Machine

/-- The template directory and the tables of `UPAGES` and `UENVS`. -/
def baseFrame (mc : Machine) : Fin 3 → Nat
  | 0 => mc.bootPgdir
  | 1 => mc.pagesTable
  | 2 => mc.envsTable

theorem baseFrame_eq (mc : Machine) (b : Fin 3) : mc.baseFrame b = mc.npage - 1 - b := by
  fin_cases b <;> rfl

theorem baseFrame_bound (mc : Machine) (b : Fin 3) : mc.used ≤ mc.baseFrame b ∧ mc.baseFrame b < mc.npage := by
  have hr := mc.room
  have hu : mc.used = mc.pagesPpn + (mc.npage * 12 + 4095) / 4096 := rfl
  have hb := b.isLt
  rw [baseFrame_eq]
  omega

theorem baseFrame_injective (mc : Machine) : Function.Injective mc.baseFrame := by
  intro b b' h
  have hr := mc.room
  have hb := b.isLt
  have hb' := b'.isLt
  rw [baseFrame_eq, baseFrame_eq] at h
  apply Fin.ext
  omega

end Machine

/-- What a slot refers to. -/
def target (mc : Machine) (D : Dirs) (word : Nat → Idx → Word) : Slot → Option Nat
  | .base b => some (mc.baseFrame b)
  | .dir e => D e
  | .pde e i => if userIdx i then (D e).bind fun d => entry (word d i) else none
  | .pte e i j => if i < PDX UTOP then (D e).bind fun d => (entry (word d i)).bind fun t => entry (word t j) else none

/-- The tree, and what the entries of the directories and the words of the template frames are. -/
structure TreeOk (mc : Machine) (D : Dirs) (word : Nat → Idx → Word) : Prop where
  tree : TreeLike Slot.Structural (target mc D word)
  bound : ∀ s p, target mc D word s = some p → mc.used ≤ p ∧ p < mc.npage
  self : ∀ e d, D e = some d → word d (PDX UVPT) = page2pa d ||| PTE_V ∧ word d (PDX KSEG2) = page2pa d ||| PTE_V
  shared : ∀ e d, D e = some d → word d (PDX UENVS) = Pmap.tablePde mc.envsTable ∧
    word d (PDX UPAGES) = Pmap.tablePde mc.pagesTable
  form : ∀ e d i t, D e = some d → target mc D word (.pde e i) = some t → word d i = Pmap.tablePde t
  base : ∀ b, word (mc.baseFrame b) = mc.bootPmap.word (mc.baseFrame b)

/-! ### Entries -/

@[simp] theorem entry_zero : entry 0#32 = none := by simp [entry]

theorem entry_eq_some {w : Word} {p : Nat} : entry w = some p ↔ has w PTE_V = true ∧ PPN w = p := by
  unfold entry
  split
  case isTrue h => simp [h]
  case isFalse h => simp [h]

theorem entry_eq_none {w : Word} : entry w = none ↔ has w PTE_V = false := by
  unfold entry
  split
  case isTrue h => simp [h]
  case isFalse h => simpa using h

theorem entry_tablePde {t : Nat} (ht : t < 2 ^ 20) : entry (Pmap.tablePde t) = some t :=
  entry_eq_some.2 ⟨Pmap.tablePde_V t, Pmap.PPN_tablePde ht⟩

/-- The entry of a directory for itself. -/
theorem entry_self {d : Nat} (hd : d < 2 ^ 20) : entry (page2pa d ||| PTE_V) = some d := by
  have h0 : page2pa d ||| PTE_V = page2pa d ||| 0 ||| PTE_V := by simp
  rw [h0, entry_eq_some, entry_V, PPN_entry hd, show PPN 0 = 0 by decide, Nat.or_zero]
  exact ⟨rfl, rfl⟩

theorem userIdx_of_lt {i : Idx} (hi : i < PDX UTOP) : userIdx i = true := by simp [userIdx, hi]

/-- The other indices. -/
theorem special_idx {i : Idx} (h : userIdx i = false) :
    i = PDX UENVS ∨ i = PDX UPAGES ∨ i = PDX UVPT ∨ i = PDX KSEG2 := by
  have hlow : (PDX UTOP : Nat) = 509 := by decide
  have hhigh : (PDX ULIM : Nat) = 512 := by decide
  have h509 : (PDX UENVS : Nat) = 509 := by decide
  have h510 : (PDX UPAGES : Nat) = 510 := by decide
  have h511 : (PDX UVPT : Nat) = 511 := by decide
  simp only [userIdx, Bool.or_eq_false_iff, decide_eq_false_iff_not, Bool.and_eq_false_iff, not_not,
    Fin.lt_def, Fin.le_def, hlow, hhigh, ne_eq] at h
  simp only [Fin.ext_iff, h509, h510, h511]
  rcases h.2 with hlt | heq
  · omega
  · exact .inr (.inr (.inr (congrArg Fin.val (by simpa using heq))))

variable {mc : Machine} {D : Dirs} {word : Nat → Idx → Word} {e : EnvPtr} {i j : Idx} {d t q : Nat} {w : Word}

theorem target_pde (hd : D e = some d) (hi : userIdx i = true) : target mc D word (.pde e i) = entry (word d i) := by
  simp [target, hd, hi]

theorem target_pde_some (h : target mc D word (.pde e i) = some t) :
    userIdx i = true ∧ ∃ d, D e = some d ∧ entry (word d i) = some t := by
  simp only [target] at h
  split at h
  case isTrue hi => exact ⟨hi, Option.bind_eq_some_iff.1 h⟩
  case isFalse => cases h

theorem target_pte (ht : target mc D word (.pde e i) = some t) (hi : i < PDX UTOP) :
    target mc D word (.pte e i j) = entry (word t j) := by
  obtain ⟨-, d, hd, hw⟩ := target_pde_some ht
  simp [target, hi, hd, hw]

theorem target_pte_some (h : target mc D word (.pte e i j) = some q) :
    i < PDX UTOP ∧ ∃ t, target mc D word (.pde e i) = some t ∧ entry (word t j) = some q := by
  simp only [target] at h
  split at h
  case isTrue hi =>
    obtain ⟨d, hd, h⟩ := Option.bind_eq_some_iff.1 h
    obtain ⟨t, ht, h⟩ := Option.bind_eq_some_iff.1 h
    exact ⟨hi, t, by rw [target_pde hd (userIdx_of_lt hi), ht], h⟩
  case isFalse => cases h

/-- Without a table there are no entries. -/
theorem target_pte_none (h : target mc D word (.pde e i) = none) : target mc D word (.pte e i j) = none := by
  cases hp : target mc D word (.pte e i j) with
  | none => rfl
  | some q =>
    obtain ⟨-, t, ht, -⟩ := target_pte_some hp
    rw [h] at ht
    cases ht

/-! ### What the references depend on -/

variable {D' : Dirs} {word' : Nat → Idx → Word}

private theorem target_pde_congr (hD : D' e = D e) (hdir : ∀ d, D e = some d → word' d i = word d i) :
    target mc D' word' (.pde e i) = target mc D word (.pde e i) := by
  cases hd : D e with
  | none => simp [target, hD, hd]
  | some d => simp [target, hD, hd, hdir d hd]

private theorem target_pte_congr (hpde : target mc D' word' (.pde e i) = target mc D word (.pde e i))
    (htab : ∀ t, target mc D word (.pde e i) = some t → word' t j = word t j) :
    target mc D' word' (.pte e i j) = target mc D word (.pte e i j) := by
  cases ht : target mc D word (.pde e i) with
  | none => rw [target_pte_none ht, target_pte_none (hpde.trans ht)]
  | some t =>
    by_cases hi : i < PDX UTOP
    · rw [target_pte ht hi, target_pte (hpde.trans ht) hi, htab t ht]
    · simp [target, hi]

/-- The environment whose directory or tables a slot is about. -/
def Slot.env : Slot → Option EnvPtr
  | .base _ => none
  | .dir e | .pde e _ | .pte e _ _ => some e

/-- The references of an environment depend on its directory and on the words of the frames of its tree. -/
theorem target_congr {s : Slot} (hs : ∀ e, s.env = some e → D' e = D e ∧ (∀ d, D e = some d → word' d = word d) ∧
    ∀ i t, target mc D word (.pde e i) = some t → word' t = word t) :
    target mc D' word' s = target mc D word s := by
  cases s with
  | base b => rfl
  | dir e => exact (hs e rfl).1
  | pde e i =>
    obtain ⟨hD, hdir, -⟩ := hs e rfl
    exact target_pde_congr hD fun d hd => congrFun (hdir d hd) i
  | pte e i j =>
    obtain ⟨hD, hdir, htab⟩ := hs e rfl
    exact target_pte_congr (target_pde_congr hD fun d hd => congrFun (hdir d hd) i) fun t ht =>
      congrFun (htab i t ht) j

/-- The words of a frame outside the tree do not matter. -/
theorem target_fresh (hq : ∀ s, s.Structural → target mc D word s ≠ some q) (f : Idx → Word) :
    target mc D (Function.update word q f) = target mc D word := by
  funext s
  refine target_congr fun e _ => ⟨rfl, fun d hd => ?_, fun i t ht => ?_⟩
  · have hne : d ≠ q := fun heq => hq (.dir e) trivial (heq ▸ hd)
    exact Function.update_of_ne hne ..
  · have hne : t ≠ q := fun heq => hq (.pde e i) trivial (heq ▸ ht)
    exact Function.update_of_ne hne ..

section Tree

variable (h : TreeLike Slot.Structural (target mc D word))
include h

/-- Writing an entry of a page table changes one reference. -/
theorem target_setPte (ht : target mc D word (.pde e i) = some t) (hi : i < PDX UTOP) (w : Word) :
    target mc D (Function.update word t (Function.update (word t) j w)) =
      Function.update (target mc D word) (.pte e i j) (entry w) := by
  have hdir : ∀ e' d', D e' = some d' → d' ≠ t := by
    rintro e' d' hd' rfl
    cases h (.dir e') (.pde e i) d' trivial hd' ht
  have hpde : ∀ e' i', target mc D (Function.update word t (Function.update (word t) j w)) (.pde e' i') =
      target mc D word (.pde e' i') := fun e' i' =>
    target_pde_congr rfl fun d' hd' => by rw [Function.update_of_ne (hdir e' d' hd')]
  funext s
  cases s with
  | base b => rfl
  | dir e' => rfl
  | pde e' i' => exact hpde e' i'
  | pte e' i' j' =>
    by_cases hs : Slot.pte e' i' j' = .pte e i j
    · cases hs
      rw [Function.update_self, target_pte ((hpde e i).trans ht) hi]
      simp
    · rw [Function.update_of_ne hs]
      refine target_pte_congr (hpde e' i') fun t' ht' => ?_
      by_cases htt : t' = t
      · subst htt
        cases h (.pde e i) (.pde e' i') t' trivial ht ht'
        have hj : j' ≠ j := fun hj => hs (by rw [hj])
        simp [hj]
      · rw [Function.update_of_ne htt]

/-- Writing an entry of a directory changes references through that entry only. -/
private theorem target_setPde (hd : D e = some d) (w : Word) {s : Slot} (hs : s ≠ .pde e i) (hs' : ∀ j, s ≠ .pte e i j) :
    target mc D (Function.update word d (Function.update (word d) i w)) s = target mc D word s := by
  have hpde : ∀ e' i', Slot.pde e' i' ≠ .pde e i →
      target mc D (Function.update word d (Function.update (word d) i w)) (.pde e' i') =
        target mc D word (.pde e' i') := by
    intro e' i' hne
    refine target_pde_congr rfl fun d' hd' => ?_
    by_cases hdd : d' = d
    · subst hdd
      cases h (.dir e) (.dir e') d' trivial hd hd'
      have hi : i' ≠ i := fun hi => hne (by rw [hi])
      simp [hi]
    · rw [Function.update_of_ne hdd]
  cases s with
  | base b => rfl
  | dir e' => rfl
  | pde e' i' => exact hpde e' i' hs
  | pte e' i' j' =>
    have hne : Slot.pde e' i' ≠ .pde e i := by
      intro heq
      cases heq
      exact hs' j' rfl
    refine target_pte_congr (hpde e' i' hne) fun t' ht' => ?_
    rw [Function.update_of_ne]
    rintro rfl
    cases h (.dir e) (.pde e' i') t' trivial hd ht'

/-- Linking an empty table. -/
theorem target_link (hd : D e = some d) (hi : userIdx i = true) (hnone : target mc D word (.pde e i) = none)
    (hw : entry w = some t) (hempty : ∀ j, entry (word t j) = none) (htd : t ≠ d) :
    target mc D (Function.update word d (Function.update (word d) i w)) =
      Function.update (target mc D word) (.pde e i) (some t) := by
  have hpde : target mc D (Function.update word d (Function.update (word d) i w)) (.pde e i) = some t := by
    rw [target_pde hd hi]
    simpa using hw
  funext s
  by_cases hs : s = .pde e i
  · rw [hs, Function.update_self, hpde]
  · rw [Function.update_of_ne hs]
    by_cases hs' : ∃ j, s = .pte e i j
    · obtain ⟨j, rfl⟩ := hs'
      rw [target_pte_none hnone]
      by_cases hlt : i < PDX UTOP
      · rw [target_pte hpde hlt, Function.update_of_ne htd]
        exact hempty j
      · simp [target, hlt]
    · exact target_setPde h hd w hs fun j hj => hs' ⟨j, hj⟩

/-- Unlinking an empty table. -/
theorem target_unlink (hd : D e = some d) (hi : userIdx i = true) (hempty : ∀ j, target mc D word (.pte e i j) = none) :
    target mc D (Function.update word d (Function.update (word d) i 0)) =
      Function.update (target mc D word) (.pde e i) none := by
  have hpde : target mc D (Function.update word d (Function.update (word d) i 0)) (.pde e i) = none := by
    rw [target_pde hd hi]
    simp
  funext s
  by_cases hs : s = .pde e i
  · rw [hs, Function.update_self, hpde]
  · rw [Function.update_of_ne hs]
    by_cases hs' : ∃ j, s = .pte e i j
    · obtain ⟨j, rfl⟩ := hs'
      rw [target_pte_none hpde, hempty j]
    · exact target_setPde h hd 0 hs fun j hj => hs' ⟨j, hj⟩

end Tree

/-- A new directory without tables. -/
theorem target_newDir (hD : D e = none) (hq : ∀ s, s.Structural → target mc D word s ≠ some q) {f : Idx → Word}
    (hf : ∀ i, userIdx i = true → entry (f i) = none) :
    target mc (Function.update D e (some q)) (Function.update word q f) =
      Function.update (target mc D word) (.dir e) (some q) := by
  have hpde : ∀ i, target mc (Function.update D e (some q)) (Function.update word q f) (.pde e i) = none := by
    intro i
    by_cases hi : userIdx i = true
    · rw [target_pde (Function.update_self ..) hi]
      simpa using hf i hi
    · simp [target, hi]
  have hold : ∀ i, target mc D word (.pde e i) = none := fun i => by simp [target, hD]
  funext s
  by_cases hs : s.env = some e
  · cases s with
    | base b => cases hs
    | dir e' => cases hs; simp [target]
    | pde e' i => cases hs; simp [hpde, hold]
    | pte e' i j => cases hs; simp [target_pte_none (hpde i), target_pte_none (hold i)]
  · have hne : s ≠ .dir e := by
      rintro rfl
      exact hs rfl
    rw [Function.update_of_ne hne]
    refine target_congr fun e' he' => ?_
    have hee : e' ≠ e := fun heq => hs (heq ▸ he')
    refine ⟨Function.update_of_ne hee .., fun d hd => ?_, fun i t ht => ?_⟩
    · have hne : d ≠ q := fun heq => hq (.dir e') trivial (heq ▸ hd)
      exact Function.update_of_ne hne ..
    · have hne : t ≠ q := fun heq => hq (.pde e' i) trivial (heq ▸ ht)
      exact Function.update_of_ne hne ..

/-- Giving up a directory gives up the references of its environment. -/
theorem target_dropDir (s : Slot) :
    target mc (Function.update D e none) word s = if s.env = some e then none else target mc D word s := by
  by_cases hs : s.env = some e
  · rw [if_pos hs]
    cases s <;> cases hs <;> simp [target]
  · rw [if_neg hs]
    refine target_congr fun e' he' => ?_
    have hee : e' ≠ e := fun heq => hs (heq ▸ he')
    exact ⟨Function.update_of_ne hee .., fun _ _ => rfl, fun _ _ _ => rfl⟩

/-! ### The writes keep the tree -/

theorem userIdx_uvpt : userIdx (PDX UVPT) = false := by decide
theorem userIdx_kseg2 : userIdx (PDX KSEG2) = false := by decide
private theorem userIdx_uenvs : userIdx (PDX UENVS) = false := by decide
private theorem userIdx_upages : userIdx (PDX UPAGES) = false := by decide

namespace TreeOk

/-- A frame that may be mapped: handed out, and neither a directory nor a table. -/
structure Data (mc : Machine) (D : Dirs) (word : Nat → Idx → Word) (q : Nat) : Prop where
  bound : mc.used ≤ q ∧ q < mc.npage
  notTree : ∀ s, s.Structural → target mc D word s ≠ some q

/-- A frame to which nothing refers. -/
structure Fresh (mc : Machine) (D : Dirs) (word : Nat → Idx → Word) (q : Nat) : Prop extends Data mc D word q where
  unused : ∀ s, target mc D word s ≠ some q

variable (h : TreeOk mc D word)
include h

/-- The frames of the tree are below `2 ^ 20`, so that an entry can hold them. -/
theorem lt (s : Slot) (p : Nat) (hs : target mc D word s = some p) : p < 2 ^ 20 := by
  have hk := mc.kseg0
  have hp := (h.bound s p hs).2
  omega

/-- A frame to which an entry below `UTOP` refers is not part of the tree. -/
theorem data_of_pte (hq : target mc D word (.pte e i j) = some q) : Data mc D word q where
  bound := h.bound _ _ hq
  notTree s hs hsq := by
    rcases h.tree s (.pte e i j) q hs hsq hq with rfl
    exact hs

/-- The words of the directories at the indices that are no table's, and the words of the template, are kept. -/
private theorem congr (hdir : ∀ e d, D' e = some d → D e = some d ∧ ∀ i, userIdx i = false → word' d i = word d i)
    (hbase : ∀ b, word' (mc.baseFrame b) = word (mc.baseFrame b))
    (htree : TreeLike Slot.Structural (target mc D' word'))
    (hbound : ∀ s p, target mc D' word' s = some p → mc.used ≤ p ∧ p < mc.npage)
    (hform : ∀ e d i t, D' e = some d → target mc D' word' (.pde e i) = some t → word' d i = Pmap.tablePde t) :
    TreeOk mc D' word' where
  tree := htree
  bound := hbound
  self e d hd := by
    obtain ⟨hd, hw⟩ := hdir e d hd
    rw [hw _ userIdx_uvpt, hw _ userIdx_kseg2]
    exact h.self e d hd
  shared e d hd := by
    obtain ⟨hd, hw⟩ := hdir e d hd
    rw [hw _ userIdx_uenvs, hw _ userIdx_upages]
    exact h.shared e d hd
  form := hform
  base b := (hbase b).trans (h.base b)

omit h in
private theorem base_ne (hq : ∀ s, s.Structural → target mc D word s ≠ some q) (b : Fin 3) : mc.baseFrame b ≠ q :=
  fun heq => hq (.base b) trivial (congrArg some heq)

omit h in
private theorem base_ne_of {s : Slot} (htree : TreeLike Slot.Structural (target mc D word))
    (hs : target mc D word s = some q) (hne : ∀ b, s ≠ .base b) (b : Fin 3) : mc.baseFrame b ≠ q := by
  rintro rfl
  exact hne b (htree (.base b) s _ trivial rfl hs)

theorem fresh (hq : ∀ s, s.Structural → target mc D word s ≠ some q) (f : Idx → Word) :
    TreeOk mc D (Function.update word q f) := by
  have ht := target_fresh hq f
  have hne : ∀ e d, D e = some d → d ≠ q := fun e d hd heq => hq (.dir e) trivial (heq ▸ hd)
  refine h.congr (fun e d hd => ⟨hd, fun i _ => ?_⟩) (fun b => ?_) (ht ▸ h.tree) (ht ▸ h.bound) ?_
  · rw [Function.update_of_ne (hne e d hd)]
  · rw [Function.update_of_ne (base_ne hq b)]
  · intro e d i t hd hpde
    rw [ht] at hpde
    rw [Function.update_of_ne (hne e d hd)]
    exact h.form e d i t hd hpde

theorem setPte (ht : target mc D word (.pde e i) = some t) (hi : i < PDX UTOP)
    (hw : ∀ q, entry w = some q → Data mc D word q) :
    TreeOk mc D (Function.update word t (Function.update (word t) j w)) := by
  have htgt := target_setPte (j := j) h.tree ht hi w
  have hne : ∀ e' d, D e' = some d → d ≠ t := by
    rintro e' d hd rfl
    cases h.tree (.dir e') (.pde e i) d trivial hd ht
  refine h.congr (fun e' d hd => ⟨hd, fun i _ => ?_⟩) (fun b => ?_) ?_ ?_ ?_
  · rw [Function.update_of_ne (hne e' d hd)]
  · rw [Function.update_of_ne (base_ne_of h.tree ht (fun b => nofun) b)]
  · rw [htgt]
    cases hent : entry w with
    | none =>
      refine h.tree.of_le fun s p hs => ?_
      by_cases hsp : s = .pte e i j
      · rw [hsp, Function.update_self] at hs
        cases hs
      · rwa [Function.update_of_ne hsp] at hs
    | some q => exact h.tree.set (hw q hent).notTree fun hs => hs.elim
  · intro s p hs
    rw [htgt] at hs
    by_cases hsp : s = .pte e i j
    · rw [hsp, Function.update_self] at hs
      exact (hw p hs).bound
    · rw [Function.update_of_ne hsp] at hs
      exact h.bound s p hs
  · intro e' d i' t' hd hpde
    have hs : Slot.pde e' i' ≠ .pte e i j := nofun
    rw [htgt, Function.update_of_ne hs] at hpde
    rw [Function.update_of_ne (hne e' d hd)]
    exact h.form e' d i' t' hd hpde

/-- The words of the directories other than `d` and of the template, after a write to the directory `d`. -/
private theorem setPde (hd : D e = some d) (hi : userIdx i = true) (w : Word)
    (htree : TreeLike Slot.Structural (target mc D (Function.update word d (Function.update (word d) i w))))
    (hbound : ∀ s p, target mc D (Function.update word d (Function.update (word d) i w)) s = some p →
      mc.used ≤ p ∧ p < mc.npage)
    (hform : ∀ t, target mc D (Function.update word d (Function.update (word d) i w)) (.pde e i) = some t →
      w = Pmap.tablePde t) :
    TreeOk mc D (Function.update word d (Function.update (word d) i w)) := by
  refine h.congr (fun e' d' hd' => ⟨hd', fun i' hi' => ?_⟩) (fun b => ?_) htree hbound ?_
  · by_cases hdd : d' = d
    · have hne : i' ≠ i := fun heq => by rw [heq, hi] at hi'; cases hi'
      rw [hdd, Function.update_self, Function.update_of_ne hne]
    · rw [Function.update_of_ne hdd]
  · rw [Function.update_of_ne (base_ne_of (s := .dir e) h.tree hd (fun b => nofun) b)]
  · intro e' d' i' t' hd' hpde
    by_cases hs : Slot.pde e' i' = .pde e i
    · cases hs
      obtain rfl := Option.some.inj (hd.symm.trans hd')
      rw [Function.update_self, Function.update_self]
      exact hform t' hpde
    · rw [target_setPde h.tree hd w hs fun j => nofun] at hpde
      rw [← h.form e' d' i' t' hd' hpde]
      by_cases hdd : d' = d
      · subst hdd
        cases h.tree (.dir e) (.dir e') d' trivial hd hd'
        have hne : i' ≠ i := fun heq => hs (by rw [heq])
        rw [Function.update_self, Function.update_of_ne hne]
      · rw [Function.update_of_ne hdd]

theorem link (hd : D e = some d) (hi : userIdx i = true) (hnone : target mc D word (.pde e i) = none)
    (ht : Fresh mc D word t) (hempty : ∀ j, entry (word t j) = none) :
    TreeOk mc D (Function.update word d (Function.update (word d) i (Pmap.tablePde t))) := by
  have hk := mc.kseg0
  have ht20 : t < 2 ^ 20 := by
    have hlt := ht.bound.2
    omega
  have htd : t ≠ d := fun heq => ht.unused (.dir e) (heq ▸ hd)
  have htgt := target_link h.tree hd hi hnone (entry_tablePde ht20) hempty htd
  refine h.setPde hd hi _ ?_ ?_ ?_
  · rw [htgt]
    exact h.tree.set ht.notTree fun _ => ht.unused
  · intro s p hs
    rw [htgt] at hs
    by_cases hsp : s = .pde e i
    · rw [hsp, Function.update_self] at hs
      obtain rfl := Option.some.inj hs
      exact ht.bound
    · rw [Function.update_of_ne hsp] at hs
      exact h.bound s p hs
  · intro t' ht'
    rw [htgt, Function.update_self] at ht'
    rw [Option.some.inj ht']

theorem unlink (hd : D e = some d) (hi : userIdx i = true) (hempty : ∀ j, target mc D word (.pte e i j) = none) :
    TreeOk mc D (Function.update word d (Function.update (word d) i 0)) := by
  have htgt := target_unlink h.tree hd hi hempty
  have hle : ∀ s p, target mc D (Function.update word d (Function.update (word d) i 0)) s = some p →
      target mc D word s = some p := by
    intro s p hs
    rw [htgt] at hs
    by_cases hsp : s = .pde e i
    · rw [hsp, Function.update_self] at hs
      cases hs
    · rwa [Function.update_of_ne hsp] at hs
  refine h.setPde hd hi 0 (h.tree.of_le hle) (fun s p hs => h.bound s p (hle s p hs)) fun t ht => ?_
  rw [htgt, Function.update_self] at ht
  cases ht

theorem newDir (hD : D e = none) (hq : Fresh mc D word q) {f : Idx → Word}
    (hf : ∀ i, userIdx i = true → entry (f i) = none)
    (hself : f (PDX UVPT) = page2pa q ||| PTE_V ∧ f (PDX KSEG2) = page2pa q ||| PTE_V)
    (hshared : f (PDX UENVS) = Pmap.tablePde mc.envsTable ∧ f (PDX UPAGES) = Pmap.tablePde mc.pagesTable) :
    TreeOk mc (Function.update D e (some q)) (Function.update word q f) := by
  have htgt := target_newDir hD hq.notTree hf
  have hdir : ∀ e' d, Function.update D e (some q) e' = some d → (e' = e ∧ d = q) ∨ (D e' = some d ∧ d ≠ q) := by
    intro e' d hd
    by_cases he : e' = e
    · subst he
      rw [Function.update_self] at hd
      exact .inl ⟨rfl, (Option.some.inj hd).symm⟩
    · rw [Function.update_of_ne he] at hd
      exact .inr ⟨hd, fun heq => hq.unused (.dir e') (heq ▸ hd)⟩
  refine ⟨?_, ?_, ?_, ?_, ?_, ?_⟩
  · rw [htgt]
    exact h.tree.set hq.notTree fun _ => hq.unused
  · intro s p hs
    rw [htgt] at hs
    by_cases hsp : s = .dir e
    · rw [hsp, Function.update_self] at hs
      obtain rfl := Option.some.inj hs
      exact hq.bound
    · rw [Function.update_of_ne hsp] at hs
      exact h.bound s p hs
  · intro e' d hd
    rcases hdir e' d hd with ⟨-, rfl⟩ | ⟨hd, hne⟩
    · rw [Function.update_self]
      exact hself
    · rw [Function.update_of_ne hne]
      exact h.self e' d hd
  · intro e' d hd
    rcases hdir e' d hd with ⟨-, rfl⟩ | ⟨hd, hne⟩
    · rw [Function.update_self]
      exact hshared
    · rw [Function.update_of_ne hne]
      exact h.shared e' d hd
  · intro e' d i t hd hpde
    have hs : Slot.pde e' i ≠ .dir e := nofun
    rw [htgt, Function.update_of_ne hs] at hpde
    rcases hdir e' d hd with ⟨rfl, -⟩ | ⟨hd, hne⟩
    · simp [target, hD] at hpde
    · rw [Function.update_of_ne hne]
      exact h.form e' d i t hd hpde
  · intro b
    rw [Function.update_of_ne (base_ne hq.notTree b)]
    exact h.base b

theorem dropDir (e : EnvPtr) : TreeOk mc (Function.update D e none) word := by
  have hle : ∀ s p, target mc (Function.update D e none) word s = some p → target mc D word s = some p := by
    intro s p hs
    rw [target_dropDir] at hs
    split at hs
    case isTrue => cases hs
    case isFalse => exact hs
  have hdir : ∀ e' d, Function.update D e none e' = some d → D e' = some d := fun e' d hd => hle (.dir e') d hd
  exact h.congr (fun e' d hd => ⟨hdir e' d hd, fun _ _ => rfl⟩) (fun _ => rfl) (h.tree.of_le hle)
    (fun s p hs => h.bound s p (hle s p hs)) fun e' d i t hd hpde => h.form e' d i t (hdir e' d hd) (hle _ _ hpde)

end TreeOk

end Mos
