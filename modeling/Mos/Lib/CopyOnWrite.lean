import Mathlib.Data.Set.Insert

/-!
# Memory that is copied when it is written

Parties map pages to frames. A page that is given to another party is given without the right to write it, and whoever writes
it first gets a copy. Two levels: in a `Store` the pages of several parties may have a frame in common, and a frame that may be
written is mapped once, unless its pages are shared on purpose (`Private`). In `Spaces` every party has contents of its own, and
giving a page away copies it. What the steps of a store do is what the acts on spaces do, and so a party reads what it wrote.
-/

namespace Cow

/-- What a page is mapped to. -/
structure Entry (F : Type) where
  frame : F
  writable : Bool
  cow : Bool
  shared : Bool

/-- The entry with which a page is given to another party, and which it has itself from then on. -/
def Entry.dup {F : Type} (a : Entry F) : Entry F :=
  if a.writable && !a.shared && !a.cow then { a with writable := false, cow := true } else a

/-- The pages of the parties `E`, and what the frames hold. -/
structure Store (E V F C : Type) where
  map : E → V → Option (Entry F)
  content : F → C

variable {E V F C : Type} {s s' : Store E V F C} {e e' x : E} {v v' u w : V} {a b : Entry F} {f : C → C} {W : Set V}

theorem Entry.dup_private (hw : a.writable = true) (hs : a.shared = false) (hc : a.cow = false) :
    a.dup = { a with writable := false, cow := true } := by
  rw [dup, hw, hs, hc]
  rfl

theorem Entry.dup_same (h : a.writable = false ∨ a.shared = true ∨ a.cow = true) : a.dup = a := by
  unfold dup
  rcases h with h | h | h
  · simp [h]
  · simp [h]
  · simp [h]

theorem Entry.dup_frame (a : Entry F) : a.dup.frame = a.frame := by
  unfold dup
  split <;> rfl

theorem Entry.dup_shared (a : Entry F) : a.dup.shared = a.shared := by
  unfold dup
  split <;> rfl

/-- After it was given away, a page may be written only if it is shared. -/
theorem Entry.dup_writable (hs : a.shared = false) (hc : a.writable = true → a.cow = false) : a.dup.writable = false := by
  unfold dup
  cases hw : a.writable with
  | false => simp [hw]
  | true => simp [hs, hc hw]

/-! ### The invariant -/

namespace Store

/-- A frame is shared by all its pages or by none, and one that is not shared and may be written is mapped once. -/
structure Private (s : Store E V F C) : Prop where
  shared : ∀ {e v e' v' a b}, s.map e v = some a → s.map e' v' = some b → a.frame = b.frame → a.shared = b.shared
  alone : ∀ {e v e' v' a b}, s.map e v = some a → s.map e' v' = some b → a.frame = b.frame → a.shared = false →
    a.writable = true → e' = e ∧ v' = v
  plain : ∀ {e v a}, s.map e v = some a → a.shared = false → a.writable = true → a.cow = false

theorem Private.of_map (h : s.Private) (hmap : s'.map = s.map) : s'.Private := by
  constructor
  · intro e v e' v' a b ha hb
    rw [hmap] at ha hb
    exact h.shared ha hb
  · intro e v e' v' a b ha hb
    rw [hmap] at ha hb
    exact h.alone ha hb
  · intro e v a ha
    rw [hmap] at ha
    exact h.plain ha

/-- The content of a page that is not shared. -/
def view (s : Store E V F C) (e : E) (v : V) : Option C :=
  (s.map e v).bind fun a => if a.shared then none else some (s.content a.frame)

/-- The view depends on the entry and on the content of its frame. -/
theorem view_congr (hmap : s'.map e v = s.map e v) (hc : ∀ a, s.map e v = some a → s'.content a.frame = s.content a.frame) :
    s'.view e v = s.view e v := by
  rw [view, view, hmap]
  cases ha : s.map e v with
  | none => rfl
  | some a => rw [Option.bind_some, Option.bind_some, hc a ha]

/-! ### New pages for one party -/

/-- A new entry of `e`: its frame is mapped nowhere else. -/
structure Fresh (s : Store E V F C) (e : E) (v : V) (a : Entry F) (s' : Store E V F C) : Prop where
  other : ∀ x u b, x ≠ e → s.map x u = some b → b.frame ≠ a.frame
  own : ∀ u b, u ≠ v → s'.map e u = some b → b.frame ≠ a.frame
  plain : a.shared = false → a.writable = true → a.cow = false

/-- A new entry for a frame that is mapped already: both are shared, or neither may be written. -/
def Joins (s : Store E V F C) (a : Entry F) : Prop :=
  ∃ x u b, s.map x u = some b ∧ b.frame = a.frame ∧ b.shared = a.shared ∧
    (a.shared = false → a.writable = false ∧ b.writable = false)

/-- Then so are all pages of the frame. -/
theorem Joins.old (h : Joins s a) (hp : s.Private) (hb : s.map x u = some b) (hba : b.frame = a.frame) :
    b.shared = a.shared ∧ (b.shared = false → b.writable = false) := by
  obtain ⟨z, u', c, hc, hca, hcs, hw⟩ := h
  have hbc : b.shared = c.shared := hp.shared hb hc (hba.trans hca.symm)
  refine ⟨hbc.trans hcs, fun hs => ?_⟩
  by_contra hbw
  obtain ⟨rfl, rfl⟩ := hp.alone hb hc (hba.trans hca.symm) hs (by simpa using hbw)
  obtain rfl := Option.some.inj (hb.symm.trans hc)
  exact hbw (hw ((hbc.trans hcs).symm.trans hs)).2

/-- The party `e` gives up pages in `W`, and gets others there, to frames of its own or to ones that are shared. -/
structure Renews (s : Store E V F C) (e : E) (W : Set V) (s' : Store E V F C) : Prop where
  other : ∀ x u, x ≠ e → s'.map x u = s.map x u
  keep : ∀ u, u ∉ W → s'.map e u = s.map e u
  content : ∀ x u a, (x = e → u ∉ W) → s.map x u = some a → s'.content a.frame = s.content a.frame
  new : ∀ u a, s'.map e u = some a → s.map e u = some a ∨ Fresh s e u a s' ∨ Joins s a

theorem Renews.same (hmap : s'.map = s.map) (hc : s'.content = s.content) : Renews s e W s' :=
  ⟨fun x u _ => by rw [hmap], fun u _ => by rw [hmap], fun _ _ _ _ _ => by rw [hc], fun u a h => .inl (by rw [← hmap]; exact h)⟩

theorem Renews.mono {W' : Set V} (h : Renews s e W s') (hW : W ⊆ W') : Renews s e W' s' :=
  ⟨h.other, fun u hu => h.keep u fun hw => hu (hW hw), fun x u a hx => h.content x u a fun heq hw => hx heq (hW hw), h.new⟩

theorem Renews.trans {s₁ : Store E V F C} (h : Renews s e W s₁) (h' : Renews s₁ e W s')
    (hnew : ∀ u a, s'.map e u = some a → s₁.map e u = some a ∨ Fresh s₁ e u a s') : Renews s e W s' where
  other x u hx := (h'.other x u hx).trans (h.other x u hx)
  keep u hu := (h'.keep u hu).trans (h.keep u hu)
  content x u a hx ha := by
    have hmap : s₁.map x u = s.map x u := by
      by_cases he : x = e
      · subst he
        exact h.keep u (hx rfl)
      · exact h.other x u he
    exact (h'.content x u a hx (hmap.trans ha)).trans (h.content x u a hx ha)
  new u a ha := by
    rcases hnew u a ha with hold | hfresh
    · rcases h.new u a hold with hold₁ | hfresh | hjoin
      · exact .inl hold₁
      · refine .inr (.inl ⟨hfresh.other, fun u' b hu' hb => ?_, hfresh.plain⟩)
        rcases hnew u' b hb with hb₁ | hb₁
        · exact hfresh.own u' b hu' hb₁
        · exact (hb₁.own u a hu'.symm ha).symm
      · exact .inr (.inr hjoin)
    · refine .inr (.inl ⟨fun x u' b hx hb => ?_, hfresh.own, hfresh.plain⟩)
      exact hfresh.other x u' b hx ((h.other x u' hx).trans hb)

/-- A page that was not mapped and is not mapped does not count. -/
theorem Renews.shrink (h : Renews s e {v} s') (hv : s.map e v = none) (hv' : s'.map e v = none) : Renews s e ∅ s' where
  other := h.other
  keep u _ := by
    by_cases hu : u = v
    · rw [hu, hv, hv']
    · exact h.keep u hu
  content x u a _ ha := by
    refine h.content x u a ?_ ha
    rintro rfl rfl
    rw [hv] at ha
    cases ha
  new := h.new

/-- An entry of the new store was there before, belongs to a fresh frame, or joins another one. -/
theorem Renews.entry (h : Renews s e W s') (ha : s'.map x u = some a) :
    s.map x u = some a ∨ x = e ∧ Fresh s e u a s' ∨ Joins s a := by
  by_cases hx : x = e
  · subst hx
    rcases h.new u a ha with hold | hfresh | hjoin
    · exact .inl hold
    · exact .inr (.inl ⟨rfl, hfresh⟩)
    · exact .inr (.inr hjoin)
  · rw [h.other x u hx] at ha
    exact .inl ha

/-- A fresh frame has only one page in the new store. -/
theorem Renews.fresh_alone (h : Renews s e W s') (ha : Fresh s e v a s') (hb : s'.map x u = some b)
    (hab : b.frame = a.frame) : x = e ∧ u = v := by
  by_cases hx : x = e
  · subst hx
    by_cases hu : u = v
    · exact ⟨rfl, hu⟩
    · exact absurd hab (ha.own u b hu hb)
  · rw [h.other x u hx] at hb
    exact absurd hab (ha.other x u b hx hb)

theorem Renews.isPrivate (h : Renews s e W s') (hp : s.Private) : s'.Private := by
  constructor
  · intro y u z u' a b ha hb hab
    rcases h.entry ha with ha₁ | ⟨rfl, ha₁⟩ | ha₁
    · rcases h.entry hb with hb₁ | ⟨rfl, hb₁⟩ | hb₁
      · exact hp.shared ha₁ hb₁ hab
      · obtain ⟨rfl, rfl⟩ := h.fresh_alone hb₁ ha hab
        obtain rfl := Option.some.inj (ha.symm.trans hb)
        rfl
      · exact (hb₁.old hp ha₁ hab).1
    · obtain ⟨rfl, rfl⟩ := h.fresh_alone ha₁ hb hab.symm
      obtain rfl := Option.some.inj (ha.symm.trans hb)
      rfl
    · rcases h.entry hb with hb₁ | ⟨rfl, hb₁⟩ | hb₁
      · exact (ha₁.old hp hb₁ hab.symm).1.symm
      · obtain ⟨rfl, rfl⟩ := h.fresh_alone hb₁ ha hab
        obtain rfl := Option.some.inj (ha.symm.trans hb)
        rfl
      · obtain ⟨z', u₁, c, hc, hcb, hcs, -⟩ := hb₁
        exact (ha₁.old hp hc (hcb.trans hab.symm)).1.symm.trans hcs
  · intro y u z u' a b ha hb hab hs hw
    rcases h.entry ha with ha₁ | ⟨rfl, ha₁⟩ | ha₁
    · rcases h.entry hb with hb₁ | ⟨rfl, hb₁⟩ | hb₁
      · exact hp.alone ha₁ hb₁ hab hs hw
      · obtain ⟨rfl, rfl⟩ := h.fresh_alone hb₁ ha hab
        exact ⟨rfl, rfl⟩
      · rw [(hb₁.old hp ha₁ hab).2 hs] at hw
        cases hw
    · exact h.fresh_alone ha₁ hb hab.symm
    · obtain ⟨_, _, _, -, -, -, hro⟩ := ha₁
      rw [(hro hs).1] at hw
      cases hw
  · intro y u a ha hs hw
    rcases h.entry ha with ha₁ | ⟨-, ha₁⟩ | ha₁
    · exact hp.plain ha₁ hs hw
    · exact ha₁.plain hs hw
    · obtain ⟨_, _, _, -, -, -, hro⟩ := ha₁
      rw [(hro hs).1] at hw
      cases hw

/-- The other pages are as before. -/
theorem Renews.view_eq (h : Renews s e W s') (hu : x = e → u ∉ W) : s'.view x u = s.view x u := by
  refine view_congr ?_ fun a => h.content x u a hu
  by_cases hx : x = e
  · subst hx
    exact h.keep u (hu rfl)
  · exact h.other x u hx

/-! ### Giving a page to another party -/

/-- The page `v` of `e` loses the right to be written, as it does when it is given away. -/
structure Demotes (s : Store E V F C) (e : E) (v : V) (s' : Store E V F C) : Prop where
  entry : ∃ a, s.map e v = some a ∧ s'.map e v = some a.dup
  other : ∀ x u, (x, u) ≠ (e, v) → s'.map x u = s.map x u
  content : ∀ x u a, s.map x u = some a → s'.content a.frame = s.content a.frame

theorem Demotes.old (h : Demotes s e v s') (ha : s'.map x u = some a) :
    ∃ b, s.map x u = some b ∧ (a = b ∨ (x, u) = (e, v) ∧ a = b.dup) := by
  obtain ⟨b, hb, hdup⟩ := h.entry
  by_cases hxu : (x, u) = (e, v)
  · obtain ⟨rfl, rfl⟩ := Prod.mk.inj hxu
    exact ⟨b, hb, .inr ⟨rfl, Option.some.inj (ha.symm.trans hdup)⟩⟩
  · exact ⟨a, (h.other x u hxu).symm.trans ha, .inl rfl⟩

/-- The entry that a page had has the same frame and was shared as it is now; what may be written now could be written. -/
theorem Demotes.old_entry (h : Demotes s e v s') (hp : s.Private) (ha : s'.map x u = some a) :
    ∃ b, s.map x u = some b ∧ a.frame = b.frame ∧ a.shared = b.shared ∧ (a.shared = false → a.writable = true → a = b) := by
  obtain ⟨b, hb, rfl | ⟨-, rfl⟩⟩ := h.old ha
  · exact ⟨a, hb, rfl, rfl, fun _ _ => rfl⟩
  · refine ⟨b, hb, b.dup_frame, b.dup_shared, fun hs hw => ?_⟩
    rw [Entry.dup_shared] at hs
    rw [Entry.dup_writable hs (hp.plain hb hs)] at hw
    cases hw

theorem Demotes.isPrivate (h : Demotes s e v s') (hp : s.Private) : s'.Private := by
  constructor
  · intro y u z u' a b ha hb hab
    obtain ⟨a₀, ha₀, hfa, hsa, -⟩ := h.old_entry hp ha
    obtain ⟨b₀, hb₀, hfb, hsb, -⟩ := h.old_entry hp hb
    rw [hsa, hsb]
    exact hp.shared ha₀ hb₀ (hfa.symm.trans (hab.trans hfb))
  · intro y u z u' a b ha hb hab hs hw
    obtain ⟨a₀, ha₀, -, -, heq⟩ := h.old_entry hp ha
    obtain rfl := heq hs hw
    obtain ⟨b₀, hb₀, hfb, -, -⟩ := h.old_entry hp hb
    exact hp.alone ha₀ hb₀ (hab.trans hfb) hs hw
  · intro y u a ha hs hw
    obtain ⟨a₀, ha₀, -, -, heq⟩ := h.old_entry hp ha
    obtain rfl := heq hs hw
    exact hp.plain ha₀ hs hw

theorem Demotes.view_eq (h : Demotes s e v s') : s'.view = s.view := by
  funext x u
  by_cases hxu : (x, u) = (e, v)
  · obtain ⟨rfl, rfl⟩ := Prod.mk.inj hxu
    obtain ⟨a, ha, hdup⟩ := h.entry
    rw [view, view, ha, hdup, Option.bind_some, Option.bind_some, Entry.dup_shared, Entry.dup_frame, h.content _ _ a ha]
  · exact view_congr (h.other x u hxu) fun a => h.content x u a

/-- The page `v` of `e`, which loses the right to be written, is mapped by `e'`. -/
structure Copies (s : Store E V F C) (e e' : E) (v : V) (s' : Store E V F C) : Prop where
  ne : e' ≠ e
  entry : ∃ a, s.map e v = some a ∧ s'.map e v = some a.dup ∧ s'.map e' v = some a.dup
  other : ∀ x u, (x, u) ≠ (e, v) → (x, u) ≠ (e', v) → s'.map x u = s.map x u
  content : ∀ x u a, (x, u) ≠ (e', v) → s.map x u = some a → s'.content a.frame = s.content a.frame

/-- Every page has the entry of an old one. -/
theorem Copies.old_entry (h : Copies s e e' v s') (hp : s.Private) (ha : s'.map x u = some a) :
    ∃ y b, s.map y u = some b ∧ a.frame = b.frame ∧ a.shared = b.shared ∧
      (a.shared = false → a.writable = true → y = x ∧ a = b ∧ (x, u) ≠ (e, v) ∧ (x, u) ≠ (e', v)) := by
  obtain ⟨b, hb, hdup, hdup'⟩ := h.entry
  have hgiven : a = b.dup → u = v → ∃ y b, s.map y u = some b ∧ a.frame = b.frame ∧ a.shared = b.shared ∧
      (a.shared = false → a.writable = true → y = x ∧ a = b ∧ (x, u) ≠ (e, v) ∧ (x, u) ≠ (e', v)) := by
    rintro rfl rfl
    refine ⟨e, b, hb, b.dup_frame, b.dup_shared, fun hs hw => ?_⟩
    rw [Entry.dup_shared] at hs
    rw [Entry.dup_writable hs (hp.plain hb hs)] at hw
    cases hw
  by_cases hxu : (x, u) = (e, v)
  · obtain ⟨rfl, rfl⟩ := Prod.mk.inj hxu
    exact hgiven (Option.some.inj (ha.symm.trans hdup)) rfl
  · by_cases hxu' : (x, u) = (e', v)
    · obtain ⟨rfl, rfl⟩ := Prod.mk.inj hxu'
      exact hgiven (Option.some.inj (ha.symm.trans hdup')) rfl
    · exact ⟨x, a, (h.other x u hxu hxu').symm.trans ha, rfl, rfl, fun _ _ => ⟨rfl, rfl, hxu, hxu'⟩⟩

theorem Copies.isPrivate (h : Copies s e e' v s') (hp : s.Private) : s'.Private := by
  constructor
  · intro y u z u' a b ha hb hab
    obtain ⟨y₀, a₀, ha₀, hfa, hsa, -⟩ := h.old_entry hp ha
    obtain ⟨z₀, b₀, hb₀, hfb, hsb, -⟩ := h.old_entry hp hb
    rw [hsa, hsb]
    exact hp.shared ha₀ hb₀ (hfa.symm.trans (hab.trans hfb))
  · intro y u z u' a b ha hb hab hs hw
    obtain ⟨y₀, a₀, ha₀, -, -, heq⟩ := h.old_entry hp ha
    obtain ⟨rfl, rfl, hne, hne'⟩ := heq hs hw
    obtain ⟨c, hc, hdup, hdup'⟩ := h.entry
    -- the page of `e` cannot have the frame, as it would be the page that may be written
    have hgiven : b.frame = c.frame → u' = v → z = y₀ ∧ u' = u := by
      rintro hbc rfl
      obtain ⟨rfl, rfl⟩ := hp.alone ha₀ hc (hab.trans hbc) hs hw
      exact absurd rfl hne
    by_cases hz : (z, u') = (e, v)
    · obtain ⟨rfl, rfl⟩ := Prod.mk.inj hz
      obtain rfl := Option.some.inj (hb.symm.trans hdup)
      exact hgiven c.dup_frame rfl
    · by_cases hz' : (z, u') = (e', v)
      · obtain ⟨rfl, rfl⟩ := Prod.mk.inj hz'
        obtain rfl := Option.some.inj (hb.symm.trans hdup')
        exact hgiven c.dup_frame rfl
      · rw [h.other z u' hz hz'] at hb
        exact hp.alone ha₀ hb hab hs hw
  · intro y u a ha hs hw
    obtain ⟨y₀, a₀, ha₀, -, -, heq⟩ := h.old_entry hp ha
    obtain ⟨-, rfl, -⟩ := heq hs hw
    exact hp.plain ha₀ hs hw

/-- The party that gives the page away is not the one that gets it. -/
theorem Copies.content_self (h : Copies s e e' v s') (ha : s.map e v = some a) : s'.content a.frame = s.content a.frame :=
  h.content e v a (fun heq => h.ne (congrArg Prod.fst heq).symm) ha

/-- Then `e'` has the content of the page, and nobody else has anything else. -/
theorem Copies.view_self (h : Copies s e e' v s') : s'.view e' v = s.view e v := by
  obtain ⟨a, ha, -, hdup⟩ := h.entry
  rw [view, view, ha, hdup, Option.bind_some, Option.bind_some, Entry.dup_shared, Entry.dup_frame, h.content_self ha]

theorem Copies.view_of_ne (h : Copies s e e' v s') (hxu : (x, u) ≠ (e', v)) : s'.view x u = s.view x u := by
  by_cases heq : (x, u) = (e, v)
  · obtain ⟨rfl, rfl⟩ := Prod.mk.inj heq
    obtain ⟨a, ha, hdup, -⟩ := h.entry
    rw [view, view, ha, hdup, Option.bind_some, Option.bind_some, Entry.dup_shared, Entry.dup_frame, h.content_self ha]
  · exact view_congr (h.other x u heq hxu) fun a => h.content x u a hxu

/-! ### Giving many pages away -/

/-- The pages of `e` in `S` were given to `e'`, which had none, but for those in `L`. -/
structure Forks (s : Store E V F C) (e e' : E) (S L : Set V) (s' : Store E V F C) : Prop where
  ne : e' ≠ e
  new : ∀ u, s.map e' u = none
  lost : L ⊆ S
  other : ∀ x u, x ≠ e → x ≠ e' → s'.map x u = s.map x u
  keep : ∀ u, u ∉ S → s'.map e u = s.map e u
  parent : ∀ u ∈ S, s'.map e u = (s.map e u).map Entry.dup
  given : ∀ u ∈ S, u ∉ L → s'.map e' u = s'.map e u
  absent : ∀ u, u ∉ S ∨ u ∈ L → s'.map e' u = none
  content : ∀ x u a, s.map x u = some a → s'.content a.frame = s.content a.frame

theorem Forks.start (hne : e' ≠ e) (hnew : ∀ u, s.map e' u = none) : Forks s e e' ∅ ∅ s where
  ne := hne
  new := hnew
  lost := Set.Subset.rfl
  other _ _ _ _ := rfl
  keep _ _ := rfl
  parent _ hu := absurd hu (Set.notMem_empty _)
  given _ hu := absurd hu (Set.notMem_empty _)
  absent u _ := hnew u
  content _ _ _ _ := rfl

variable {s₁ : Store E V F C} {S L : Set V}

/-- Every frame that was mapped still is. -/
theorem Forks.old_frame (h : Forks s e e' S L s₁) (ha : s.map x u = some a) :
    x ≠ e' ∧ ∃ b, s₁.map x u = some b ∧ b.frame = a.frame := by
  have hx' : x ≠ e' := by
    rintro rfl
    rw [h.new u] at ha
    cases ha
  refine ⟨hx', ?_⟩
  by_cases hx : x = e
  · subst hx
    by_cases hu : u ∈ S
    · exact ⟨a.dup, by rw [h.parent u hu, ha]; rfl, a.dup_frame⟩
    · exact ⟨a, by rw [h.keep u hu, ha], rfl⟩
  · exact ⟨a, by rw [h.other x u hx hx', ha], rfl⟩

theorem Forks.skip (h : Forks s e e' S L s₁) (hv : s.map e v = none) : Forks s e e' (insert v S) L s₁ where
  ne := h.ne
  new := h.new
  lost := h.lost.trans (Set.subset_insert v S)
  other := h.other
  keep u hu := h.keep u fun hS => hu (Set.mem_insert_of_mem v hS)
  parent u hu := by
    by_cases hS : u ∈ S
    · exact h.parent u hS
    · obtain rfl := hu.resolve_right hS
      rw [h.keep u hS, hv]
      rfl
  given u hu hL := by
    by_cases hS : u ∈ S
    · exact h.given u hS hL
    · obtain rfl := hu.resolve_right hS
      rw [h.absent u (.inl hS), h.keep u hS, hv]
  absent u hu := h.absent u (hu.imp_left fun hn hS => hn (Set.mem_insert_of_mem v hS))
  content := h.content

theorem Forks.copies (h : Forks s e e' S L s₁) (hv : v ∉ S) (hc : Copies s₁ e e' v s') : Forks s e e' (insert v S) L s' where
  ne := h.ne
  new := h.new
  lost := h.lost.trans (Set.subset_insert v S)
  other x u hx hx' := by
    rw [hc.other x u (fun heq => hx (congrArg Prod.fst heq)) fun heq => hx' (congrArg Prod.fst heq), h.other x u hx hx']
  keep u hu := by
    have huv : u ≠ v := fun heq => hu (heq ▸ Set.mem_insert v S)
    rw [hc.other e u (fun heq => huv (congrArg Prod.snd heq)) fun heq => huv (congrArg Prod.snd heq),
      h.keep u fun hS => hu (Set.mem_insert_of_mem v hS)]
  parent u hu := by
    by_cases huv : u = v
    · subst huv
      obtain ⟨a, ha, hdup, -⟩ := hc.entry
      rw [hdup, ← h.keep u hv, ha]
      rfl
    · rw [hc.other e u (fun heq => huv (congrArg Prod.snd heq)) fun heq => huv (congrArg Prod.snd heq),
        h.parent u (hu.resolve_left huv)]
  given u hu hL := by
    by_cases huv : u = v
    · subst huv
      obtain ⟨a, -, hdup, hdup'⟩ := hc.entry
      rw [hdup, hdup']
    · rw [hc.other e' u (fun heq => huv (congrArg Prod.snd heq)) fun heq => huv (congrArg Prod.snd heq),
        hc.other e u (fun heq => huv (congrArg Prod.snd heq)) fun heq => huv (congrArg Prod.snd heq),
        h.given u (hu.resolve_left huv) hL]
  absent u hu := by
    have huv : u ≠ v := by
      rintro rfl
      exact hu.elim (fun hn => hn (Set.mem_insert u S)) fun hL => hv (h.lost hL)
    rw [hc.other e' u (fun heq => huv (congrArg Prod.snd heq)) fun heq => huv (congrArg Prod.snd heq),
      h.absent u (hu.imp_left fun hn hS => hn (Set.mem_insert_of_mem v hS))]
  content x u a ha := by
    obtain ⟨hx', b, hb, hba⟩ := h.old_frame ha
    rw [← hba, hc.content x u b (fun heq => hx' (congrArg Prod.fst heq)) hb, hba, h.content x u a ha]

theorem Forks.demotes (h : Forks s e e' S L s₁) (hv : v ∉ S) (hd : Demotes s₁ e v s') :
    Forks s e e' (insert v S) (insert v L) s' where
  ne := h.ne
  new := h.new
  lost := Set.insert_subset_insert h.lost
  other x u hx hx' := by rw [hd.other x u fun heq => hx (congrArg Prod.fst heq), h.other x u hx hx']
  keep u hu := by
    have huv : u ≠ v := fun heq => hu (heq ▸ Set.mem_insert v S)
    rw [hd.other e u fun heq => huv (congrArg Prod.snd heq), h.keep u fun hS => hu (Set.mem_insert_of_mem v hS)]
  parent u hu := by
    by_cases huv : u = v
    · subst huv
      obtain ⟨a, ha, hdup⟩ := hd.entry
      rw [hdup, ← h.keep u hv, ha]
      rfl
    · rw [hd.other e u fun heq => huv (congrArg Prod.snd heq), h.parent u (hu.resolve_left huv)]
  given u hu hL := by
    have huv : u ≠ v := fun heq => hL (heq ▸ Set.mem_insert v L)
    rw [hd.other e' u fun heq => huv (congrArg Prod.snd heq), hd.other e u fun heq => huv (congrArg Prod.snd heq),
      h.given u (hu.resolve_left huv) fun hL' => hL (Set.mem_insert_of_mem v hL')]
  absent u hu := by
    rw [hd.other e' u fun heq => h.ne (congrArg Prod.fst heq)]
    by_cases huv : u = v
    · exact huv ▸ h.absent v (.inl hv)
    · exact h.absent u (hu.imp (fun hn hS => hn (Set.mem_insert_of_mem v hS)) fun hL => hL.resolve_left huv)
  content x u a ha := by
    obtain ⟨-, b, hb, hba⟩ := h.old_frame ha
    rw [← hba, hd.content x u b hb, hba, h.content x u a ha]

/-- Nothing else was mapped before. -/
theorem Forks.of_map {s₀ : Store E V F C} (h : Forks s e e' S L s') (hmap : s.map = s₀.map)
    (hc : ∀ x u a, s₀.map x u = some a → s.content a.frame = s₀.content a.frame) : Forks s₀ e e' S L s' where
  ne := h.ne
  new := hmap ▸ h.new
  lost := h.lost
  other := hmap ▸ h.other
  keep := hmap ▸ h.keep
  parent := hmap ▸ h.parent
  given := h.given
  absent := h.absent
  content x u a ha := (h.content x u a (hmap ▸ ha)).trans (hc x u a ha)

/-- The one who gives pages away sees no difference, -/
theorem Forks.view_parent (h : Forks s e e' S L s') (u : V) : s'.view e u = s.view e u := by
  by_cases hu : u ∈ S
  · rw [view, view, h.parent u hu]
    cases ha : s.map e u with
    | none => rfl
    | some a =>
      rw [Option.map_some, Option.bind_some, Option.bind_some, Entry.dup_shared, Entry.dup_frame, h.content e u a ha]
  · exact view_congr (h.keep u hu) fun a => h.content e u a

/-- and the other one sees the same. -/
theorem Forks.view_child (h : Forks s e e' S L s') (hu : u ∈ S) (hL : u ∉ L) : s'.view e' u = s.view e u := by
  rw [← h.view_parent u, view, view, h.given u hu hL]

theorem Forks.view_other (h : Forks s e e' S L s') (hx : x ≠ e) (hx' : x ≠ e') (u : V) : s'.view x u = s.view x u :=
  view_congr (h.other x u hx hx') fun a => h.content x u a

/-! ### A copy of its own -/

/-- The page `v` of `e` gets a frame of its own with the same content, which may be written; the page `w` is given up. -/
structure Breaks (s : Store E V F C) (e : E) (v w : V) (s' : Store E V F C) : Prop where
  entry : ∃ a b, s.map e v = some a ∧ s'.map e v = some b ∧ b.shared = a.shared ∧ b.writable = true ∧ b.cow = false ∧
    Fresh s e v b s' ∧ s'.content b.frame = s.content a.frame
  gone : s'.map e w = none
  other : ∀ x u, (x = e → u ≠ v ∧ u ≠ w) → s'.map x u = s.map x u
  content : ∀ x u a, (x = e → u ≠ v ∧ u ≠ w) → s.map x u = some a → s'.content a.frame = s.content a.frame

theorem Breaks.renews (h : Breaks s e v w s') : Renews s e {v, w} s' where
  other x u hx := h.other x u fun heq => absurd heq hx
  keep u hu := h.other e u fun _ => by simpa using hu
  content x u a hx := h.content x u a fun heq => by simpa using hx heq
  new u a ha := by
    by_cases huv : u = v
    · subst huv
      obtain ⟨a₀, b, -, hb, -, -, -, hfresh, -⟩ := h.entry
      obtain rfl := Option.some.inj (ha.symm.trans hb)
      exact .inr (.inl hfresh)
    · by_cases huw : u = w
      · rw [huw, h.gone] at ha
        cases ha
      · rw [h.other e u fun _ => ⟨huv, huw⟩] at ha
        exact .inl ha

/-- Nobody sees a difference, but for the page that is given up. -/
theorem Breaks.view_eq (h : Breaks s e v w s') (hxu : (x, u) ≠ (e, w)) : s'.view x u = s.view x u := by
  by_cases hx : x = e ∧ u = v
  · obtain ⟨rfl, rfl⟩ := hx
    obtain ⟨a, b, ha, hb, hs, -, -, -, hc⟩ := h.entry
    rw [view, view, ha, hb, Option.bind_some, Option.bind_some, hs, hc]
  · have hne : x = e → u ≠ v ∧ u ≠ w := by
      rintro rfl
      exact ⟨fun heq => hx ⟨rfl, heq⟩, fun heq => hxu (by rw [heq])⟩
    exact view_congr (h.other x u hne) fun a => h.content x u a hne

/-! ### Writing -/

/-- The page `v` of `e`, which may be written, is written. -/
structure Writes (s : Store E V F C) (e : E) (v : V) (f : C → C) (s' : Store E V F C) : Prop where
  map : s'.map = s.map
  entry : ∃ a, s.map e v = some a ∧ a.writable = true ∧ s'.content a.frame = f (s.content a.frame) ∧
    ∀ p, p ≠ a.frame → s'.content p = s.content p

theorem Writes.isPrivate (h : Writes s e v f s') (hp : s.Private) : s'.Private := hp.of_map h.map

theorem Writes.view_self (h : Writes s e v f s') : s'.view e v = (s.view e v).map f := by
  obtain ⟨a, ha, -, hc, -⟩ := h.entry
  rw [view, view, h.map, ha, Option.bind_some, Option.bind_some, hc]
  cases a.shared <;> rfl

/-- A page is written by its party only. -/
theorem Writes.view_of_ne (h : Writes s e v f s') (hp : s.Private) (hxu : (x, u) ≠ (e, v)) : s'.view x u = s.view x u := by
  obtain ⟨a, ha, hw, -, hother⟩ := h.entry
  rw [view, view, h.map]
  cases hb : s.map x u with
  | none => rfl
  | some b =>
    rw [Option.bind_some, Option.bind_some]
    cases hs : b.shared with
    | true => rfl
    | false =>
      have hne : b.frame ≠ a.frame := by
        intro heq
        obtain ⟨rfl, rfl⟩ := hp.alone ha hb heq.symm ((hp.shared ha hb heq.symm).trans hs) hw
        exact hxu rfl
      rw [hother _ hne]

end Store

/-! ### Contents of one's own -/

/-- What every party has. -/
abbrev Spaces (E V C : Type) := E → V → Option C

/-- What happens to the contents. -/
inductive Act (E V C : Type) where
  | write (e : E) (v : V) (f : C → C)
  | copy (e e' : E) (v : V)
  /-- The pages of `e` in `W` are all that `e'` has. -/
  | fork (e e' : E) (W : Set V)
  /-- The pages of `e` in `W` are replaced by those of `m`. -/
  | renew (e : E) (W : Set V) (m : V → Option C)

namespace Spaces

variable {A : Spaces E V C} {l : List (Act E V C)} {c : Act E V C}

open Classical in
/-- One act. -/
noncomputable def apply (A : Spaces E V C) : Act E V C → Spaces E V C
  | .write e v f => fun x u => if x = e ∧ u = v then (A e v).map f else A x u
  | .copy e e' v => fun x u => if x = e' ∧ u = v then A e v else A x u
  | .fork e e' W => fun x u => if x = e' then (if u ∈ W then A e u else none) else A x u
  | .renew e W m => fun x u => if x = e ∧ u ∈ W then m u else A x u

noncomputable def run (A : Spaces E V C) (l : List (Act E V C)) : Spaces E V C := l.foldl apply A

theorem run_append (A : Spaces E V C) (l l' : List (Act E V C)) : A.run (l ++ l') = (A.run l).run l' := List.foldl_append ..

end Spaces

/-- The act replaces the page `v` of `e` by another one. -/
def Act.Replaces (e : E) (v : V) : Act E V C → Prop
  | .write _ _ _ => False
  | .copy _ e' u => e' = e ∧ u = v
  | .fork _ e' _ => e' = e
  | .renew x W _ => x = e ∧ v ∈ W

open Classical in
/-- What the act writes to the page `v` of `e`. -/
noncomputable def Act.written (e : E) (v : V) : Act E V C → Option (C → C)
  | .write x u f => if e = x ∧ v = u then some f else none
  | _ => none

/-- A party reads what it wrote itself, one write after the other, over what the page held. -/
theorem Spaces.run_eq {A : Spaces E V C} {l : List (Act E V C)} (h : ∀ c ∈ l, ¬c.Replaces e v) :
    A.run l e v = (A e v).map fun p => (l.filterMap (Act.written e v)).foldl (fun p f => f p) p := by
  induction l generalizing A with
  | nil => cases hA : A e v <;> simp [run, hA]
  | cons c l ih =>
    have hc := h c (List.mem_cons_self ..)
    have hrun : A.run (c :: l) = (A.apply c).run l := rfl
    rw [hrun, ih fun c' hc' => h c' (List.mem_cons_of_mem _ hc')]
    cases c with
    | write x u f =>
      by_cases hxu : e = x ∧ v = u
      · obtain ⟨rfl, rfl⟩ := hxu
        have happly : A.apply (.write e v f) e v = (A e v).map f := if_pos ⟨rfl, rfl⟩
        have hwritten : Act.written e v (Act.write e v f) = some f := if_pos ⟨rfl, rfl⟩
        rw [happly, Option.map_map, List.filterMap_cons_some hwritten]
        rfl
      · have happly : A.apply (.write x u f) e v = A e v := if_neg hxu
        have hwritten : Act.written e v (Act.write x u f) = none := if_neg hxu
        rw [happly, List.filterMap_cons_none hwritten]
    | copy x x' u =>
      have hne : ¬(e = x' ∧ v = u) := fun heq => hc ⟨heq.1.symm, heq.2.symm⟩
      have happly : A.apply (.copy x x' u) e v = A e v := if_neg hne
      rw [happly, List.filterMap_cons_none rfl]
    | fork x x' W =>
      have hne : e ≠ x' := fun heq => hc heq.symm
      have happly : A.apply (.fork x x' W) e v = A e v := if_neg hne
      rw [happly, List.filterMap_cons_none rfl]
    | renew x W m =>
      have hne : ¬(e = x ∧ v ∈ W) := fun heq => hc ⟨heq.1.symm, heq.2⟩
      have happly : A.apply (.renew x W m) e v = A e v := if_neg hne
      rw [happly, List.filterMap_cons_none rfl]

/-! ### A store behaves like spaces -/

namespace Store

theorem Renews.apply_eq (h : Renews s e W s') : s'.view = Spaces.apply s.view (.renew e W (s'.view e)) := by
  funext x u
  unfold Spaces.apply
  dsimp only
  split
  case isTrue hxu => rw [hxu.1]
  case isFalse hxu => exact h.view_eq fun hx hu => hxu ⟨hx, hu⟩

theorem Copies.apply_eq (h : Copies s e e' v s') : s'.view = Spaces.apply s.view (.copy e e' v) := by
  funext x u
  unfold Spaces.apply
  dsimp only
  split
  case isTrue hxu =>
    obtain ⟨rfl, rfl⟩ := hxu
    exact h.view_self
  case isFalse hxu => exact h.view_of_ne fun heq => hxu (Prod.mk.inj heq)

theorem Forks.apply_eq {S L : Set V} (h : Forks s e e' S L s') : s'.view = Spaces.apply s.view (.fork e e' (S \ L)) := by
  funext x u
  unfold Spaces.apply
  dsimp only
  split
  case isTrue hx =>
    subst hx
    split
    case isTrue hu => exact h.view_child hu.1 hu.2
    case isFalse hu =>
      have habsent : s'.map x u = none := h.absent u (by
        by_cases hS : u ∈ S
        · exact .inr (by_contra fun hL => hu ⟨hS, hL⟩)
        · exact .inl hS)
      rw [view, habsent, Option.bind_none]
  case isFalse hx =>
    by_cases he : x = e
    · rw [he]
      exact h.view_parent u
    · exact h.view_other he hx u

theorem Breaks.apply_eq (h : Breaks s e v w s') : s'.view = Spaces.apply s.view (.renew e {w} fun _ => none) := by
  funext x u
  unfold Spaces.apply
  dsimp only
  split
  case isTrue hxu =>
    obtain ⟨rfl, rfl⟩ := hxu
    rw [view, h.gone, Option.bind_none]
  case isFalse hxu => exact h.view_eq fun heq => hxu (Prod.mk.inj heq)

theorem Writes.apply_eq (h : Writes s e v f s') (hp : s.Private) : s'.view = Spaces.apply s.view (.write e v f) := by
  funext x u
  unfold Spaces.apply
  dsimp only
  split
  case isTrue hxu =>
    obtain ⟨rfl, rfl⟩ := hxu
    exact h.view_self
  case isFalse hxu => exact h.view_of_ne hp fun heq => hxu (Prod.mk.inj heq)

end Store

end Cow
