import Mos.Fs.Isolation

/-!
# Making a file smaller (`file_set_size` and `file_truncate` of `fs/fs.c`)

Blocks of a file are freed and their pointers cleared, one by one, then possibly the indirect block.  What is freed at
the end are the blocks from the number on that the rounding of the new size gives.
-/

namespace Mos

namespace View

variable {nb : Nat} {M : Nat → Prop} {O : FilePtr → Prop} {v u : View} {f g : FilePtr} {k : FileSlot} {b off i : Nat}
  {D : Nat → Prop} {I : Prop} {w : Word}

/-- The words of a file, and of its indirect block. -/
def Own (v : View) (f : FilePtr) (b off : Nat) : Prop :=
  b = f.blk ∧ f.off ≤ off ∧ off < f.off + 64 ∨ v.ptr f .indirect ≠ 0 ∧ b = v.ptr f .indirect

/-- From `v`, the blocks `D` of `f` have been freed, and its indirect block if `I`. -/
structure Cut (nb : Nat) (v : View) (f : FilePtr) (D : Nat → Prop) (I : Prop) (u : View) : Prop where
  zero : ∀ i, D i ∨ I ∧ NDIRECT ≤ i → u.ptr f (.data i) = 0
  same : ∀ i, ¬ D i → (I → i < NDIRECT) → u.ptr f (.data i) = v.ptr f (.data i)
  indirect_zero : I → u.ptr f .indirect = 0
  indirect_same : ¬ I → u.ptr f .indirect = v.ptr f .indirect
  free : ∀ b, b < nb →
    (u.IsFree b ↔ v.IsFree b ∨ b ≠ 0 ∧ ((∃ i, D i ∧ v.ptr f (.data i) = b) ∨ I ∧ v.ptr f .indirect = b))
  frame : ∀ b off, ¬ IsBitmap nb b → ¬ v.Own f b off → u.get b off = v.get b off

private theorem Cut.refl : Cut nb v f (fun _ => False) False v where
  zero i h := absurd h (by simp)
  same _ _ _ := rfl
  indirect_zero h := h.elim
  indirect_same _ := rfl
  free b _ := by simp
  frame _ _ _ _ := rfl

private theorem Cut.congr {D' : Nat → Prop} (h : Cut nb v f D I u) (hD : ∀ i, D' i ↔ D i) : Cut nb v f D' I u := by
  obtain rfl : D' = D := funext fun i => propext (hD i)
  exact h

/-- There is no block to free. -/
private theorem Cut.skip (h : Cut nb v f D False u) (h0 : u.ptr f (.data i) = 0) :
    Cut nb v f (fun j => D j ∨ j = i) False u where
  zero j hj := by
    rcases hj with (hj | rfl) | hj
    · exact h.zero j (.inl hj)
    · exact h0
    · exact hj.1.elim
  same j hj hI := h.same j (fun hd => hj (.inl hd)) hI
  indirect_zero := h.indirect_zero
  indirect_same := h.indirect_same
  free b hb := by
    rw [h.free b hb]
    refine or_congr_right (and_congr_right fun hb0 => or_congr_left ⟨fun ⟨j, hj, heq⟩ => ⟨j, .inl hj, heq⟩, ?_⟩)
    rintro ⟨j, hj | rfl, heq⟩
    · exact ⟨j, hj, heq⟩
    · by_cases hd : D j
      · exact ⟨j, hd, heq⟩
      · rw [← h.same j hd nofun, h0] at heq
        exact absurd heq.symm hb0
  frame := h.frame

section

variable (hg : Good nb M O u) (hf : u.Live O f)

include hg hf

/-- The pointers of a file after a block that one of them is for was freed. -/
private theorem Good.drop_ptr (hk : u.HasSlot f k) (h0 : u.ptr f k ≠ 0) (hO : O f) (k' : FileSlot) :
    ((u.setFree (u.ptr f k)).set (u.loc f k).1 (u.loc f k).2 0).ptr f k' = (u.setPtr f k 0).ptr f k' := by
  rw [hg.free_clear_eq hf hk h0]
  have hown := hg.own f k hf h0
  exact (hg.setPtr_zero hf hk).1.unused_bitmap.ptr_eq (agree_set (isBitmap_of_le (.inl hown.2.1))) (.opened hO)

private theorem Good.drop_isFree (hk : u.HasSlot f k) (h0 : u.ptr f k ≠ 0) (hb : b < nb) :
    ((u.setFree (u.ptr f k)).set (u.loc f k).1 (u.loc f k).2 0).IsFree b ↔ b = u.ptr f k ∨ u.IsFree b := by
  rw [hg.free_clear_eq hf hk h0, isFree_setFree]
  exact or_congr_right (hg.setPtr_isFree hf hk (.inl hb))

private theorem Good.drop_get (hk : u.HasSlot f k) (h0 : u.ptr f k ≠ 0) (hb : ¬ IsBitmap nb b) (hoff : ¬ u.Own f b off) :
    ((u.setFree (u.ptr f k)).set (u.loc f k).1 (u.loc f k).2 0).get b off = u.get b off := by
  have hown := hg.own f k hf h0
  refine (get_set_pair_of_ne fun heq => hoff ?_).trans (get_set_of_ne fun heq => hb ?_)
  · rcases loc_cases hk with ⟨x, -, hx, hloc⟩ | ⟨j, -, -, -, hind, hloc⟩
    · rw [hloc] at heq
      have hblk : b = f.blk := congrArg Prod.fst heq
      have hoff' : off = f.off + x := congrArg Prod.snd heq
      exact .inl ⟨hblk, by omega, by omega⟩
    · rw [hloc] at heq
      exact .inr ⟨hind, congrArg Prod.fst heq⟩
  · have hblk : b = 2 + u.ptr f k / 32 / 1024 := congrArg Prod.fst heq
    rw [hblk]
    exact isBitmap_of_le (.inl hown.2.1)

/-- One more block is freed. -/
private theorem Cut.drop (h : Cut nb v f D False u) (hO : O f) (hk : u.HasSlot f (.data i)) (h0 : u.ptr f (.data i) ≠ 0) :
    Cut nb v f (fun j => D j ∨ j = i) False
      ((u.setFree (u.ptr f (.data i))).set (u.loc f (.data i)).1 (u.loc f (.data i)).2 0) := by
  have hi : ¬ D i := fun hd => h0 (h.zero i (.inl hd))
  have hself := hg.setPtr_ptr_self hf hk (w := 0)
  have hne (k' : FileSlot) (hk' : k' ≠ .data i) := hg.setPtr_ptr_ne hf hk (w := 0) nofun hk'
  have hptr := hg.drop_ptr hf hk h0 hO
  have hind := h.indirect_same id
  refine ⟨fun j hj => ?_, fun j hj _ => ?_, nofun, fun _ => ?_, fun b hb => ?_, fun b off hb hoff => ?_⟩
  · rw [hptr]
    by_cases hji : j = i
    · rw [hji]
      exact hself
    · rw [hne _ fun heq => hji (FileSlot.data.inj heq)]
      rcases hj with (hj | hj) | hj
      · exact h.zero j (.inl hj)
      · exact absurd hj hji
      · exact hj.1.elim
  · rw [not_or] at hj
    rw [hptr, hne _ fun heq => hj.2 (FileSlot.data.inj heq)]
    exact h.same j hj.1 nofun
  · rw [hptr, hne .indirect nofun]
    exact hind
  · rw [hg.drop_isFree hf hk h0 hb, h.free b hb, h.same i hi nofun]
    rw [h.same i hi nofun] at h0
    constructor
    · rintro (rfl | hfree | ⟨hb0, ⟨j, hj, heq⟩ | hI⟩)
      · exact .inr ⟨h0, .inl ⟨i, .inr rfl, rfl⟩⟩
      · exact .inl hfree
      · exact .inr ⟨hb0, .inl ⟨j, .inl hj, heq⟩⟩
      · exact hI.1.elim
    · rintro (hfree | ⟨hb0, ⟨j, hj | rfl, heq⟩ | hI⟩)
      · exact .inr (.inl hfree)
      · exact .inr (.inr ⟨hb0, .inl ⟨j, hj, heq⟩⟩)
      · exact .inl heq.symm
      · exact hI.1.elim
  · rw [hg.drop_get hf hk h0 hb]
    · exact h.frame b off hb hoff
    · unfold Own at hoff ⊢
      rwa [hind]

/-- At last, the indirect block is freed. -/
private theorem Cut.drop_indirect (h : Cut nb v f D False u) (hO : O f) (h0 : u.ptr f .indirect ≠ 0) :
    Cut nb v f D True ((u.setFree (u.ptr f .indirect)).set (u.loc f .indirect).1 (u.loc f .indirect).2 0) := by
  have hself := hg.setPtr_ptr_self hf (k := .indirect) trivial (w := 0)
  have hptr := hg.drop_ptr hf (k := .indirect) trivial h0 hO
  have hind := h.indirect_same id
  have hdirect : ∀ j, j < NDIRECT → (u.setPtr f .indirect 0).ptr f (.data j) = u.ptr f (.data j) := by
    intro j hj
    have hget : (u.setPtr f .indirect 0).get f.blk (f.off + 34 + j) = u.get f.blk (f.off + 34 + j) := by
      refine get_setPtr_of_ne fun heq => ?_
      have hoff : f.off + 34 + j = f.off + 44 := congrArg Prod.snd heq
      unfold NDIRECT at hj
      omega
    simp only [ptr, if_pos hj, hget]
  have hhigh : ∀ j, NDIRECT ≤ j → (u.setPtr f .indirect 0).ptr f (.data j) = 0 := by
    intro j hj
    simp only [ptr] at hself
    simp only [ptr, if_neg (Nat.not_lt.2 hj), hself]
    rfl
  refine ⟨fun j hj => ?_, fun j hj hI => ?_, fun _ => ?_, fun hI => absurd trivial hI, fun b hb => ?_,
    fun b off hb hoff => ?_⟩
  · rw [hptr]
    by_cases hjd : j < NDIRECT
    · rw [hdirect j hjd]
      exact h.zero j (.inl (hj.resolve_right fun hj => by omega))
    · exact hhigh j (by omega)
  · rw [hptr, hdirect j (hI trivial)]
    exact h.same j hj False.elim
  · rw [hptr]
    exact hself
  · rw [hg.drop_isFree hf (k := .indirect) trivial h0 hb, h.free b hb, hind]
    rw [hind] at h0
    constructor
    · rintro (rfl | hfree | ⟨hb0, hj | hI⟩)
      · exact .inr ⟨h0, .inr ⟨trivial, rfl⟩⟩
      · exact .inl hfree
      · exact .inr ⟨hb0, .inl hj⟩
      · exact hI.1.elim
    · rintro (hfree | ⟨hb0, hj | hI⟩)
      · exact .inr (.inl hfree)
      · exact .inr (.inr ⟨hb0, .inl hj⟩)
      · exact .inl hI.2.symm
  · rw [hg.drop_get hf (k := .indirect) trivial h0 hb]
    · exact h.frame b off hb hoff
    · unfold Own at hoff ⊢
      rwa [hind]

end

/-- There is no indirect block. -/
private theorem Cut.skip_indirect (h : Cut nb v f D False u) (h0 : u.ptr f .indirect = 0) : Cut nb v f D True u := by
  have hind := h.indirect_same id
  have hhigh : ∀ j, NDIRECT ≤ j → u.ptr f (.data j) = 0 := by
    intro j hj
    simp only [ptr] at h0
    simp only [ptr, if_neg (Nat.not_lt.2 hj), if_pos h0]
  refine ⟨fun j hj => ?_, fun j hj _ => h.same j hj False.elim, fun _ => h0, fun hI => absurd trivial hI, fun b hb => ?_, h.frame⟩
  · rcases hj with hj | hj
    · exact h.zero j (.inl hj)
    · exact hhigh j hj.2
  · rw [h.free b hb]
    refine or_congr_right (and_congr_right fun hb0 => or_congr_right ⟨fun hI => hI.1.elim, fun hI => ?_⟩)
    rw [← hind, h0] at hI
    exact absurd hI.2.symm hb0

/-- A field other than the pointers is written to. -/
theorem Cut.field (h : Cut nb v f D I u) (hg : Good nb M O u) (hf : u.Live O f) {y : Nat} (hy : y < 34 ∨ 45 ≤ y ∧ y < 64) :
    Cut nb v f D I (u.set f.blk (f.off + y) w) := by
  have hptr (k : FileSlot) : (u.set f.blk (f.off + y) w).ptr f k = u.ptr f k := by
    refine ptr_congr (get_set_of_ne fun heq => ?_) (fun i hi => get_set_of_ne fun heq => ?_)
      (fun i h0 _ => get_set_of_ne fun heq => ?_) k
    · have hoff : f.off + 44 = f.off + y := congrArg Prod.snd heq
      omega
    · have hoff : f.off + 34 + i = f.off + y := congrArg Prod.snd heq
      unfold NDIRECT at hi
      omega
    · exact hg.ind_ne_blk hf hf (congrArg Prod.fst heq)
  refine ⟨fun i hi => ?_, fun i hi hI => ?_, fun hI => ?_, fun hI => ?_, fun b hb => ?_, fun b off hb hoff => ?_⟩
  · rw [hptr]
    exact h.zero i hi
  · rw [hptr]
    exact h.same i hi hI
  · rw [hptr]
    exact h.indirect_zero hI
  · rw [hptr]
    exact h.indirect_same hI
  · rw [← h.free b hb]
    unfold IsFree
    rw [get_set_of_ne]
    intro heq
    have hblk : 2 + b / 32 / 1024 = f.blk := congrArg Prod.fst heq
    exact hg.unused_bitmap.blk f hf (hblk ▸ isBitmap_of_le (.inl hb))
  · refine (get_set_of_ne fun heq => hoff ?_).trans (h.frame b off hb hoff)
    have hblk : b = f.blk := congrArg Prod.fst heq
    have hoff' : off = f.off + y := congrArg Prod.snd heq
    exact .inl ⟨hblk, by omega, by omega⟩

/-! ### What a cut leaves alone -/

section

variable (h : Cut nb v f D I u) (hv : Good nb M O v) (hf : v.Live O f)

include h hv hf

omit hf in
/-- A block is not freed unless one of the pointers that are cut off is for it. -/
private theorem Cut.not_free (hg : v.Live O g) (h0 : v.ptr g k ≠ 0) (hk : ∀ k', v.ptr f k' = v.ptr g k →
    (∀ i, k' = .data i → ¬ D i) ∧ (k' = .indirect → ¬ I)) : ¬ u.IsFree (v.ptr g k) := by
  have hown := hv.own g k hg h0
  rw [h.free _ hown.2.1]
  rintro (hfree | ⟨-, ⟨i, hi, heq⟩ | ⟨hI, heq⟩⟩)
  · exact hown.2.2 hfree
  · exact (hk _ heq).1 i rfl hi
  · exact (hk _ heq).2 rfl hI

theorem Cut.not_free_other (hg : v.Live O g) (hne : g ≠ f) (h0 : v.ptr g k ≠ 0) : ¬ u.IsFree (v.ptr g k) := by
  refine h.not_free hv hg h0 fun k' heq => ?_
  exact absurd (hv.inj g f k k' hg hf h0 heq.symm).1 hne

/-- A block of the file that is not cut off. -/
theorem Cut.not_free_self (h0 : v.ptr f k ≠ 0) (hD : ∀ i, k = .data i → ¬ D i) (hI : k = .indirect → ¬ I) :
    ¬ u.IsFree (v.ptr f k) := by
  refine h.not_free hv hf h0 fun k' heq => ?_
  obtain ⟨-, rfl⟩ := hv.inj f f k k' hf hf h0 heq.symm
  exact ⟨hD, hI⟩

private theorem Cut.ptr_other (hg : v.Live O g) (hne : g ≠ f) : u.ptr g k = v.ptr g k := by
  have hstruct : ∀ x, x < 64 → u.get g.blk (g.off + x) = v.get g.blk (g.off + x) := by
    intro x hx
    refine h.frame _ _ (hv.unused_bitmap.blk g hg) ?_
    rintro (⟨hblk, hlo, hhi⟩ | ⟨h0, hblk⟩)
    · refine hv.disjoint hf hg (x := g.off + x - f.off) (by omega) hx (.inl hne) ?_
      rw [hblk]
      congr 1
      omega
    · exact hv.ind_ne_blk hf hg hblk.symm
  refine ptr_congr (hstruct 44 (by omega)) (fun i hi => ?_) (fun i h0 _ => ?_) k
  · rw [Nat.add_assoc]
    unfold NDIRECT at hi
    exact hstruct (34 + i) (by omega)
  · refine h.frame _ _ (hv.not_bitmap hg h0) ?_
    rintro (⟨hblk, -⟩ | ⟨-, heq⟩)
    · exact hv.ind_ne_blk hg hf hblk
    · exact hne (hv.inj g f .indirect .indirect hg hf h0 heq).1

/-- The contents of the blocks of another file, where the file itself is not. -/
private theorem Cut.get_other (hg : v.Live O g) (hne : g ≠ f) (h0 : v.ptr g k ≠ 0)
    (hoff : ¬ (v.ptr g k = f.blk ∧ f.off ≤ off ∧ off < f.off + 64)) :
    u.get (v.ptr g k) off = v.get (v.ptr g k) off := by
  refine h.frame _ _ (hv.not_bitmap hg h0) ?_
  rintro (hown | ⟨-, heq⟩)
  · exact hoff hown
  · exact hne (hv.inj g f k .indirect hg hf h0 heq).1

end

/-! ### What is to be released -/

/-- The number of blocks that a size needs. -/
def blocksFor (newsize : Word) : Nat := (newsize.toNat + BY2BLK - 1) / BY2BLK

/-- The blocks of `f` from `blocksFor newsize` on are released, and nothing else is. -/
structure Released (nb : Nat) (O : FilePtr → Prop) (v : View) (f : FilePtr) (newsize : Word) (u : View) : Prop where
  released : ∀ i, blocksFor newsize ≤ i → v.ptr f (.data i) ≠ 0 →
    u.IsFree (v.ptr f (.data i)) ∧ u.ptr f (.data i) = 0
  kept : ∀ i, i < blocksFor newsize → u.ptr f (.data i) = v.ptr f (.data i) ∧
    (v.ptr f (.data i) ≠ 0 → ¬ u.IsFree (v.ptr f (.data i)))
  indirect_released : blocksFor newsize ≤ NDIRECT → v.ptr f .indirect ≠ 0 →
    u.IsFree (v.ptr f .indirect) ∧ u.ptr f .indirect = 0
  indirect_kept : NDIRECT < blocksFor newsize → u.ptr f .indirect = v.ptr f .indirect ∧
    (v.ptr f .indirect ≠ 0 → ¬ u.IsFree (v.ptr f .indirect))
  free : ∀ b, b < nb → (v.IsFree b → u.IsFree b) ∧ (u.IsFree b → ¬ v.IsFree b → ∃ k, v.ptr f k = b)
  others : ∀ g k, v.Live O g → g ≠ f → u.ptr g k = v.ptr g k ∧ (v.ptr g k ≠ 0 → ¬ u.IsFree (v.ptr g k) ∧
    ∀ off, ¬ (v.ptr g k = f.blk ∧ f.off ≤ off ∧ off < f.off + 64) → u.get (v.ptr g k) off = v.get (v.ptr g k) off)

/-- The number of blocks that `file_truncate` keeps, and that of the blocks that it looks at. -/
def newNblocks (newsize : Word) : Nat := if newsize = 0 then 0 else newsize.toNat / BY2BLK + 1

def oldNblocks (v : View) (f : FilePtr) : Nat := v.size f / BY2BLK + 1

/-- Where `file_truncate` gets it right: there is no block at the end of a size that is a multiple of that of a block,
and no block behind the old size. -/
def CutsExactly (v : View) (f : FilePtr) (newsize : Word) : Prop :=
  (newsize ≠ 0 → newsize.toNat % BY2BLK = 0 → v.ptr f (.data (newsize.toNat / BY2BLK)) = 0 ∧
    (newsize.toNat = NDIRECT * BY2BLK → v.ptr f .indirect = 0)) ∧
  ∀ i, oldNblocks v f ≤ i → v.ptr f (.data i) = 0

/-- The two ways to round differ by one, at the multiples. -/
theorem newNblocks_cases (newsize : Word) : newNblocks newsize = blocksFor newsize ∨
    newsize ≠ 0 ∧ newsize.toNat % BY2BLK = 0 ∧ blocksFor newsize = newsize.toNat / BY2BLK ∧
      newNblocks newsize = newsize.toNat / BY2BLK + 1 := by
  unfold newNblocks blocksFor BY2BLK
  by_cases h0 : newsize = 0
  · left
    rw [if_pos h0, h0]
    rfl
  · have hpos : 0 < newsize.toNat := Nat.pos_of_ne_zero fun h => h0 (BitVec.eq_of_toNat_eq h)
    rw [if_neg h0]
    by_cases hmod : newsize.toNat % 4096 = 0
    · exact .inr ⟨h0, hmod, by omega, rfl⟩
    · left
      omega

private theorem Cut.released_iff {newsize : Word} (hlt : newsize.toNat < v.size f)
    (h : Cut nb v f (fun i => newNblocks newsize ≤ i ∧ i < oldNblocks v f) (newNblocks newsize ≤ NDIRECT) u)
    (hv : Good nb M O v) (hf : v.Live O f) : Released nb O v f newsize u ↔ CutsExactly v f newsize := by
  have hold : newsize.toNat / BY2BLK < oldNblocks v f := by
    unfold oldNblocks BY2BLK
    omega
  constructor
  · intro hr
    -- a block that is to be released is one of those that are cut off
    have hcut : ∀ i, blocksFor newsize ≤ i → v.ptr f (.data i) ≠ 0 → newNblocks newsize ≤ i ∧ i < oldNblocks v f := by
      intro i hi h0
      by_contra hnot
      refine h.not_free_self hv hf h0 ?_ nofun (hr.released i hi h0).1
      rintro j ⟨⟩
      exact hnot
    refine ⟨fun h0 hmod => ⟨?_, fun hten => ?_⟩, fun i hi => ?_⟩
    · by_contra hne
      rcases newNblocks_cases newsize with heq | ⟨-, -, hfor, hnew⟩
      · unfold newNblocks blocksFor BY2BLK at heq
        rw [if_neg h0] at heq
        unfold BY2BLK at hmod
        omega
      · have hin := hcut _ (by omega) hne
        omega
    · by_contra hne
      have hfor : blocksFor newsize = 10 := by
        unfold blocksFor BY2BLK
        unfold NDIRECT BY2BLK at hten
        omega
      have hnew : newNblocks newsize = 11 := by
        unfold newNblocks BY2BLK
        unfold NDIRECT BY2BLK at hten
        rw [if_neg h0]
        omega
      refine h.not_free_self hv hf hne nofun (fun _ => ?_) (hr.indirect_released (by unfold NDIRECT; omega) hne).1
      unfold NDIRECT
      omega
    · by_contra hne
      have hle : blocksFor newsize ≤ i := by
        rcases newNblocks_cases newsize with heq | ⟨-, -, hfor, -⟩
        · unfold newNblocks at heq
          split at heq
          · omega
          · omega
        · omega
      have hin := hcut i hle hne
      omega
  · rintro ⟨hmul, hbeyond⟩
    have hcut : ∀ i, blocksFor newsize ≤ i → v.ptr f (.data i) ≠ 0 → newNblocks newsize ≤ i ∧ i < oldNblocks v f := by
      intro i hi hne
      refine ⟨?_, Nat.lt_of_not_le fun hle => hne (hbeyond i hle)⟩
      rcases newNblocks_cases newsize with heq | ⟨h0, hmod, hfor, hnew⟩
      · omega
      · have hzero := (hmul h0 hmod).1
        rcases Nat.lt_or_eq_of_le hi with hlt' | heq
        · omega
        · rw [← hfor, heq] at hzero
          exact absurd hzero hne
    have hkeep : ∀ i, i < blocksFor newsize → ¬ (newNblocks newsize ≤ i ∧ i < oldNblocks v f) := by
      intro i hi
      rcases newNblocks_cases newsize with heq | ⟨-, -, hfor, hnew⟩
      · omega
      · omega
    have hind : v.ptr f .indirect ≠ 0 → (newNblocks newsize ≤ NDIRECT ↔ blocksFor newsize ≤ NDIRECT) := by
      intro hne
      rcases newNblocks_cases newsize with heq | ⟨h0, hmod, hfor, hnew⟩
      · rw [heq]
      · have hten := (hmul h0 hmod).2
        constructor
        · omega
        · intro hle
          have hne' : newsize.toNat ≠ NDIRECT * BY2BLK := fun heq => hne (hten heq)
          have hdiv : newsize.toNat = newsize.toNat / BY2BLK * BY2BLK := by
            unfold BY2BLK at hmod ⊢
            omega
          have hneq : newsize.toNat / BY2BLK ≠ NDIRECT := fun heq => hne' (by rw [← heq]; exact hdiv)
          omega
    have hle : blocksFor newsize ≤ newNblocks newsize := by
      rcases newNblocks_cases newsize with heq | ⟨-, -, hfor, hnew⟩
      · omega
      · omega
    refine ⟨fun i hi h0 => ?_, fun i hi => ⟨?_, fun h0 => ?_⟩, fun hlo h0 => ?_, fun hhi => ⟨?_, fun h0 => ?_⟩,
      fun b hb => ⟨fun hfree => ?_, fun hfree hnot => ?_⟩, fun g k hg hne => ⟨h.ptr_other hv hf hg hne, fun h0 => ?_⟩⟩
    · have hin := hcut i hi h0
      exact ⟨(h.free _ (hv.own f _ hf h0).2.1).2 (.inr ⟨h0, .inl ⟨i, hin, rfl⟩⟩), h.zero i (.inl hin)⟩
    · exact h.same i (hkeep i hi) fun hI => by omega
    · exact h.not_free_self hv hf h0 (fun j hj => FileSlot.data.inj hj ▸ hkeep i hi) nofun
    · have hI := (hind h0).2 hlo
      exact ⟨(h.free _ (hv.own f _ hf h0).2.1).2 (.inr ⟨h0, .inr ⟨hI, rfl⟩⟩), h.indirect_zero hI⟩
    · exact h.indirect_same (by omega)
    · exact h.not_free_self hv hf h0 nofun fun _ => by omega
    · exact (h.free b hb).2 (.inl hfree)
    · rcases (h.free b hb).1 hfree with hfree | ⟨-, ⟨i, -, heq⟩ | ⟨-, heq⟩⟩
      · exact absurd hfree hnot
      · exact ⟨_, heq⟩
      · exact ⟨_, heq⟩
    · exact ⟨h.not_free_other hv hf hg hne h0, fun off hoff => h.get_other hv hf hg hne h0 hoff⟩

end View

/-- Nothing more is asked of the file system. -/
def Fs.Plain : Fs.Extra := fun _ _ _ => True

theorem Fs.closed_plain {nb : Nat} : Fs.Closed nb Fs.Plain := ⟨fun _ _ _ => trivial, fun _ _ _ _ => trivial⟩

namespace FsProc

open Proc View

variable {nb : Nat} {O : FilePtr → Prop} {X : Fs.Extra} {s t : Fs} {l : List FsLog} {f : FilePtr} {ok : FsLog → Prop}
  {v : View} {D : Nat → Prop} {I : Prop}

/-! ### Looking for a block -/

section

variable (hX : Fs.Closed nb X) (Q : View → Prop)

include hX

/-- Where the pointer of a block is, without allocating; an error means that there is no such block. -/
private theorem fileBlockWalk_peek (i : Nat) : Spec ok (fun s => s.Ok nb O X ∧ Q s.view) (fileBlockWalk f i false)
    (Ends (fun p s => (s.Ok nb O X ∧ Q s.view) ∧ SlotAt f (.data i) p s.view)
      fun s => (s.Ok nb O X ∧ Q s.view) ∧ s.view.ptr f (.data i) = 0) := by
  unfold fileBlockWalk
  split
  case isTrue hd =>
    refine .pure fun s hs => ⟨hs, ⟨?_, fun h => by omega⟩, ?_⟩
    · unfold NDIRECT at hd
      unfold NINDIRECT
      omega
    · simp only [View.loc, if_pos hd]
  case isFalse hd =>
  split
  case isFalse hi =>
    refine .fail fun s hs => ⟨hs, ?_⟩
    have hget : s.view.get (s.view.get f.blk (f.off + 44)).toNat i = 0 := get_of_le (by unfold NINDIRECT at hi; omega)
    simp only [View.ptr, if_neg hd, hget]
    split <;> rfl
  case isTrue hi =>
  refine .bind (R := fun b s => (s.Ok nb O X ∧ Q s.view) ∧ s.view.ptr f .indirect = b ∧ b ≠ 0) ?_ fun b => .pure fun s hs => ?_
  · refine .bind (word_spec _ _) fun ind => ?_
    split
    case isTrue h0 =>
      refine .fail fun s hs => ⟨hs.1, ?_⟩
      have hzero : (s.view.get f.blk (f.off + 44)).toNat = 0 := congrArg BitVec.toNat (hs.2.trans h0)
      simp only [View.ptr, if_neg hd, if_pos hzero]
    case isFalse h0 =>
      refine .bind ((readBlock_spec (P := fun s => s.Ok nb O X ∧ Q s.view ∧ s.view.get f.blk (f.off + 44) = ind)
        (steady_ok_and hX fun u => Q u ∧ u.get f.blk (f.off + 44) = ind) _).pre fun s hs => ⟨hs.1.1, hs.1.2, hs.2⟩)
        fun _ => .pure fun s hs => ?_
      obtain ⟨⟨hok, hQ, hind⟩, -⟩ := hs
      refine ⟨⟨hok, hQ⟩, ?_, fun h => h0 (BitVec.eq_of_toNat_eq h)⟩
      rw [← hind]
      rfl
  · obtain ⟨hok, hind, hb⟩ := hs
    refine ⟨hok, ⟨hi, fun _ => hind ▸ hb⟩, ?_⟩
    simp only [View.loc, if_neg hd]
    rw [← hind]
    rfl

end

/-! ### Freeing blocks -/

section

variable (hX : Fs.Closed nb X) (hO : O f)

include hX hO

private theorem drop_cut {p : Nat × Nat} {w : Word} {k : FileSlot} {E : Fs → Prop} {R : View → Prop} (h0 : w ≠ 0)
    (hR : ∀ u : View, (∃ M, u.Good nb M O) → u.HasSlot f k → u.ptr f k ≠ 0 → Cut nb v f D False u →
      R ((u.setFree (u.ptr f k)).set (u.loc f k).1 (u.loc f k).2 0)) :
    Spec ok (fun s => (s.Ok nb O X ∧ Cut nb v f D False s.view) ∧ SlotAt f k p s.view ∧ s.view.get p.1 p.2 = w) (do
      freeBlock w.toNat
      setIn f p.1 p.2 0) (Ends (fun _ s => s.Ok nb O X ∧ R s.view) E) := by
  rintro s l r t ⟨⟨hok, hcut⟩, ⟨hk, rfl⟩, hw⟩ h _
  have hptr : s.view.ptr f k = w.toNat := by rw [ptr_eq_get hk, hw]
  have hne : s.view.ptr f k ≠ 0 := by
    rw [hptr]
    exact fun h => h0 (BitVec.eq_of_toNat_eq h)
  have hown := hok.good.own f k (.opened hO) hne
  rw [← hptr] at h
  rcases bind_some h with ⟨e, hx, -⟩ | ⟨l₁, a, u, l₂, hx, hset, rfl⟩
  · obtain ⟨hr, -⟩ := freeBlock_view (by rw [hok.nblocks]; exact hown.2.1) hne hx
    cases hr
  · obtain ⟨-, hview, hmap⟩ := freeBlock_view (by rw [hok.nblocks]; exact hown.2.1) hne hx
    obtain ⟨rfl, hview', hmap'⟩ := setIn_view hset
    rw [hview] at hview'
    refine ⟨hok.change hX ?_ fun b' hb' => (hmap' b').2 ((hmap b').2 hb'), ?_⟩
    · rw [hview']
      exact .drop (.opened hO) hk hne
    · rw [hview']
      exact hR _ ⟨_, hok.good⟩ hk hne hcut

/-- `file_clear_block`, where an error is no end. -/
private theorem fileClearBlock_cut (i : Nat) : Spec ok (fun s => s.Ok nb O X ∧ Cut nb v f D False s.view)
    (fileClearBlock f i)
    (Ends (fun _ s => s.Ok nb O X ∧ Cut nb v f (fun j => D j ∨ j = i) False s.view)
      fun s => s.Ok nb O X ∧ Cut nb v f (fun j => D j ∨ j = i) False s.view) := by
  refine .bind ((fileBlockWalk_peek hX (Cut nb v f D False) i).err fun s hs => ⟨hs.1.1, hs.1.2.skip hs.2⟩) fun p =>
    .bind (word_spec _ _) fun w => ?_
  split
  case isTrue h0 =>
    refine .pure fun s hs => ⟨hs.1.1.1, hs.1.1.2.skip ?_⟩
    obtain ⟨⟨-, hk, rfl⟩, hw⟩ := hs
    rw [ptr_eq_get hk, hw, h0]
    rfl
  case isFalse h0 =>
    refine (drop_cut hX hO h0 fun u hg hk hne hcut => ?_).pre fun s hs => ⟨hs.1.1, hs.1.2, hs.2⟩
    obtain ⟨M, hg⟩ := hg
    exact hcut.drop hg (.opened hO) hO hk hne

private theorem clearBlocks_cut (bnos : List Nat) : Spec ok (fun s => s.Ok nb O X ∧ s.view = v) (clearBlocks f bnos)
    (Ends (fun _ s => s.Ok nb O X ∧ Cut nb v f (· ∈ bnos) False s.view) fun _ => False) := by
  refine (Spec.each_done (J := fun (done : List Nat) (s : Fs) => s.Ok nb O X ∧ Cut nb v f (· ∈ done) False s.view)
    (fun done b => ?_) bnos []).pre fun s hs => ⟨hs.1, ?_⟩
  · refine .bind (.attempt (fileClearBlock_cut hX hO b)) fun r => .pure fun s hs => ?_
    have hcut : s.Ok nb O X ∧ Cut nb v f (fun j => j ∈ done ∨ j = b) False s.view := by
      cases r with
      | ok a => exact hs
      | error e => exact hs
    exact ⟨hcut.1, hcut.2.congr fun i => by simp⟩
  · rw [hs.2]
    exact Cut.refl.congr fun i => by simp

private theorem clearIndirect_cut : Spec ok (fun s => s.Ok nb O X ∧ Cut nb v f D False s.view) (clearIndirect f)
    (Ends (fun _ s => s.Ok nb O X ∧ Cut nb v f D True s.view) fun _ => False) := by
  refine .bind (word_spec _ _) fun ind => ?_
  split
  case isTrue h0 => exact .pure fun s hs => ⟨hs.1.1, hs.1.2.skip_indirect (congrArg BitVec.toNat (hs.2.trans h0))⟩
  case isFalse h0 =>
    refine (drop_cut hX hO (k := .indirect) (p := (f.blk, f.off + 44)) h0 fun u hg hk hne hcut => ?_).pre
      fun s hs => ⟨hs.1, ⟨trivial, rfl⟩, hs.2⟩
    obtain ⟨M, hg⟩ := hg
    exact hcut.drop_indirect hg (.opened hO) hO hne

private theorem setFSize_cut (w : Word) : Spec ok (fun s => s.Ok nb O X ∧ Cut nb v f D I s.view) (setFSize f w)
    (Ends (fun _ s => s.Ok nb O X ∧ Cut nb v f D I s.view ∧ s.view.size f = w.toNat) fun _ => False) := by
  rintro s l r t ⟨hok, hcut⟩ h _
  obtain ⟨rfl, hview, hmap⟩ := setIn_view (p := (f.blk, f.off + 32)) h
  have hoff : f.off + 32 < 1024 := by
    rcases hok.good.place (.opened hO) with rfl | ⟨-, j, hj, hoff⟩
    · decide
    · unfold FILE2BLK at hj
      omega
  refine ⟨hok.change hX ?_ fun b hb => (hmap b).2 hb, ?_, ?_⟩
  · rw [hview]
    exact .field (.opened hO) (.inl (by decide)) fun h => absurd h (by decide)
  · rw [hview]
    exact hcut.field hok.good (.opened hO) (.inl (by decide))
  · unfold View.size
    rw [hview, get_set hoff, if_pos ⟨rfl, rfl⟩]

end

theorem fileTruncate_cut (hX : Fs.Closed nb X) (hO : O f) (newsize : Word) :
    Spec ok (fun s => s.Ok nb O X ∧ s.view = v) (fileTruncate f newsize) (Ends (fun _ s => s.Ok nb O X ∧
      Cut nb v f (fun i => newNblocks newsize ≤ i ∧ i < oldNblocks v f) (newNblocks newsize ≤ NDIRECT) s.view)
      fun _ => False) := by
  refine .bind (word_spec _ _) fun size => ?_
  by_cases hsize : v.get f.blk (f.off + 32) = size
  case neg => exact fun s l r t hs => absurd (hs.1.2 ▸ hs.2) hsize
  have hrange : ∀ i, newNblocks newsize ≤ i ∧ i < oldNblocks v f ↔
      i ∈ List.range' (newNblocks newsize) (size.toNat / BY2BLK + 1 - newNblocks newsize) := by
    intro i
    rw [List.mem_range'_1, oldNblocks, View.size, hsize]
    omega
  refine .bind ((clearBlocks_cut hX hO _).pre fun s hs => hs.1) fun _ => ?_
  refine .bind (R := fun _ s => s.Ok nb O X ∧ Cut nb v f (fun i => newNblocks newsize ≤ i ∧ i < oldNblocks v f)
    (newNblocks newsize ≤ NDIRECT) s.view) ?_ fun _ =>
      (setFSize_cut hX hO newsize).post fun _ _ hs => ⟨hs.1, hs.2.1⟩
  refine Spec.pre (P := fun s => s.Ok nb O X ∧
    Cut nb v f (fun i => newNblocks newsize ≤ i ∧ i < oldNblocks v f) False s.view) ?_ fun s hs => ⟨hs.1, hs.2.congr hrange⟩
  show Spec ok _ (Proc.when (newNblocks newsize ≤ NDIRECT) (clearIndirect f)) _
  unfold Proc.when
  split
  case isTrue hI =>
    refine (clearIndirect_cut hX hO).post fun _ s hs => ⟨hs.1, ?_⟩
    rw [eq_true hI]
    exact hs.2
  case isFalse hI =>
    refine .pure fun s hs => ⟨hs.1, ?_⟩
    rw [eq_false hI]
    exact hs.2

/-- What `file_set_size` does to make a file smaller. -/
theorem fileSetSize_cut (hX : Fs.Closed nb X) (hO : O f) {newsize : Word} (hlt : newsize.toNat < v.size f) :
    Spec ok (fun s => s.Ok nb O X ∧ s.view = v) (fileSetSize f newsize) (Ends (fun _ s => s.Ok nb O X ∧
      Cut nb v f (fun i => newNblocks newsize ≤ i ∧ i < oldNblocks v f) (newNblocks newsize ≤ NDIRECT) s.view ∧
      s.view.size f = newsize.toNat) fun _ => False) := by
  refine .bind (word_spec _ _) fun size => ?_
  by_cases hsize : v.get f.blk (f.off + 32) = size
  case neg => exact fun s l r t hs => absurd (hs.1.2 ▸ hs.2) hsize
  have hless : newsize < size := by
    unfold View.size at hlt
    rw [hsize] at hlt
    exact BitVec.lt_def.2 hlt
  refine .bind (R := fun _ s => s.Ok nb O X ∧ Cut nb v f (fun i => newNblocks newsize ≤ i ∧ i < oldNblocks v f)
    (newNblocks newsize ≤ NDIRECT) s.view) ?_ fun _ => .bind (setFSize_cut hX hO newsize) fun _ => ?_
  · show Spec ok _ (Proc.when (newsize < size) (fileTruncate f newsize)) _
    unfold Proc.when
    rw [if_pos hless]
    exact (fileTruncate_cut hX hO newsize).pre fun s hs => hs.1
  · exact flushDir_look (steady_ok_and hX fun u => Cut nb v f (fun i => newNblocks newsize ≤ i ∧ i < oldNblocks v f)
      (newNblocks newsize ≤ NDIRECT) u ∧ u.size f = newsize.toNat) f

/-- Otherwise it frees nothing. -/
theorem fileSetSize_keep (hX : Fs.Closed nb X) (hO : O f) {newsize : Word} (hle : ¬ newsize.toNat < v.size f) :
    Spec ok (fun s => s.Ok nb O X ∧ s.view = v) (fileSetSize f newsize) (Ends (fun _ s => s.Ok nb O X ∧
      Cut nb v f (fun _ => False) False s.view ∧ s.view.size f = newsize.toNat) fun _ => False) := by
  refine .bind (word_spec _ _) fun size => ?_
  by_cases hsize : v.get f.blk (f.off + 32) = size
  case neg => exact fun s l r t hs => absurd (hs.1.2 ▸ hs.2) hsize
  have hless : ¬ newsize < size := by
    unfold View.size at hle
    rw [hsize] at hle
    exact fun h => hle (BitVec.lt_def.1 h)
  refine .bind (R := fun _ s => s.Ok nb O X ∧ Cut nb v f (fun _ => False) False s.view) ?_ fun _ => ?_
  · show Spec ok _ (Proc.when (newsize < size) (fileTruncate f newsize)) _
    unfold Proc.when
    rw [if_neg hless]
    refine .pure fun s hs => ⟨hs.1.1, ?_⟩
    rw [hs.1.2]
    exact .refl
  · refine .bind (setFSize_cut hX hO newsize) fun _ => ?_
    exact flushDir_look (steady_ok_and hX fun u => Cut nb v f (fun _ => False) False u ∧ u.size f = newsize.toNat) f

/-- Setting a size leaves the file system in order. -/
theorem fileSetSize_ok (hX : Fs.Closed nb X) (hO : O f) (newsize : Word) :
    Spec ok (fun s => s.Ok nb O X ∧ s.view = v) (fileSetSize f newsize) (Ends (fun _ s => s.Ok nb O X) fun _ => False) := by
  by_cases hlt : newsize.toNat < v.size f
  · exact (fileSetSize_cut hX hO hlt).post fun _ _ hs => hs.1
  · exact (fileSetSize_keep hX hO hlt).post fun _ _ hs => hs.1

/-- A file that is read from is in the cache. -/
theorem mapped_of_word {β : Type} {g : Word → FsProc β} {off : Nat} {r : Except Word β}
    (h : (word f.blk off >>= g) s = some (l, r, t)) : s.Mapped f.blk := by
  obtain ⟨w, hw, -⟩ := read_bind_some h
  obtain ⟨pg, hpg, -⟩ := Fs.word?_some hw
  unfold Fs.Mapped
  rw [hpg]
  rfl

/-- What `file_set_size` does to a file that it makes smaller, where no other file is open. -/
private theorem fileSetSize_some {newsize : Word} {r : Except Word Unit} (hs : s.Ok nb O Fs.Plain) (hf : s.view.Live O f)
    (hlt : newsize.toNat < s.view.size f) (h : fileSetSize f newsize s = some (l, r, t)) :
    Cut nb s.view f (fun i => newNblocks newsize ≤ i ∧ i < oldNblocks s.view f) (newNblocks newsize ≤ NDIRECT) t.view := by
  have hok := hs.open Fs.closed_plain hf (mapped_of_word h)
  have hspec : Spec (fun _ => True) (fun u => u.Ok nb (With O f) Fs.Plain ∧ u.view = s.view) (fileSetSize f newsize) _ :=
    fileSetSize_cut Fs.closed_plain (.inr rfl) hlt
  have hend := hspec s l r t ⟨hok, rfl⟩ h fun _ _ => trivial
  cases r with
  | ok a => exact hend.2.1
  | error e => exact hend.elim

end FsProc

/-- A smaller size releases exactly the blocks that it does not need where the rounding makes no difference and no block
is behind the old size. -/
theorem FsProc.fileSetSize_released_iff {nb : Nat} {O : FilePtr → Prop} {s t : Fs} {f : FilePtr} {newsize : Word}
    {l : List FsLog} {r : Except Word Unit} (hs : s.Ok nb O Fs.Plain) (hf : s.view.Live O f)
    (hlt : newsize.toNat < s.view.size f) (h : fileSetSize f newsize s = some (l, r, t)) :
    View.Released nb O s.view f newsize t.view ↔ s.view.CutsExactly f newsize :=
  (fileSetSize_some hs hf hlt h).released_iff hlt hs.good hf

namespace FileSys

/-- Client 2 makes `b` two blocks long, and maps the second one. -/
def secondOfB : List (FileEvent (Fin 3)) :=
  openB ++ [.request 2 (.setSize 1024 8192) none, .request 2 (.map 1024 4096) none]

/-- A state that a run on the small disk reaches. -/
private theorem ok_of_run {evs : List (FileEvent (Fin 3))} {found : FileSys (Fin 3) → Bool}
    (h : ((fileSys (Fin 3)).run sound? (.start smallDisk 10) evs).map found = some true) :
    ∃ nb, ∃ s : FileSys (Fin 3), s.serv.fs.Ok nb s.serv.Opened Fs.Plain ∧ found s := by
  obtain ⟨s, hs, hfound⟩ := reach_of_run h
  obtain ⟨nb, hI⟩ := inv_of_reach hs
  exact ⟨nb, s, hI.imp fun _ => trivial, hfound⟩

/-- With 4095 bytes the second block of `b` is given back. -/
theorem released_iff_ofB : ∃ (nb : Nat) (O : FilePtr → Prop) (s t : Fs) (l : List FsLog) (r : Except Word Unit),
    s.Ok nb O Fs.Plain ∧ FsProc.fileSetSize fileB 4095 s = some (l, r, t) ∧ s.view.ptr fileB (.data 1) ≠ 0 ∧
      t.view.ptr fileB (.data 1) = 0 ∧
      (View.Released nb O s.view fileB 4095 t.view ↔ s.view.CutsExactly fileB 4095) := by
  have hrun : ((fileSys (Fin 3)).run sound? (.start smallDisk 10) secondOfB).map (fun s =>
      decide (s.serv.fs.view.ptr .root (.data 0) = 3 ∧ s.serv.fs.view.IsDir .root ∧ s.serv.fs.view.Named fileB ∧
        (4095 : Word).toNat < s.serv.fs.view.size fileB ∧ s.serv.fs.view.ptr fileB (.data 1) ≠ 0) &&
          (FsProc.fileSetSize fileB 4095 s.serv.fs).any fun p => p.2.2.view.ptr fileB (.data 1) == 0) =
            some true := by decide +kernel
  obtain ⟨nb, s, hok, hfound⟩ := ok_of_run hrun
  obtain ⟨hfound, hcut⟩ := Bool.and_eq_true_iff.1 hfound
  obtain ⟨h3, hdir, hname, hlt, hsecond⟩ := of_decide_eq_true hfound
  obtain ⟨⟨l, r, t⟩, h, hzero⟩ := (Option.any_eq_true _ _).1 hcut
  have hlive : s.serv.fs.view.Live s.serv.Opened fileB := (reachable_fileB h3 hdir hname).mono fun _ h => h.elim
  exact ⟨nb, _, _, t, l, r, hok, h, hsecond, beq_iff_eq.1 hzero, FsProc.fileSetSize_released_iff hok hlive hlt h⟩

/-- With 8192 bytes, `b` has a second block, and keeps it with 4096 bytes. -/
theorem exists_not_released : ∃ (nb : Nat) (O : FilePtr → Prop) (s t : Fs) (l : List FsLog) (r : Except Word Unit),
    s.Ok nb O Fs.Plain ∧ s.view.Live O fileB ∧ s.view.size fileB = 8192 ∧
      FsProc.fileSetSize fileB 4096 s = some (l, r, t) ∧ ¬ View.Released nb O s.view fileB 4096 t.view := by
  have hrun : ((fileSys (Fin 3)).run sound? (.start smallDisk 10) secondOfB).map (fun s =>
      decide (s.serv.fs.view.ptr .root (.data 0) = 3 ∧ s.serv.fs.view.IsDir .root ∧ s.serv.fs.view.Named fileB ∧
        s.serv.fs.view.size fileB = 8192 ∧ s.serv.fs.view.ptr fileB (.data 1) = 5) &&
        (FsProc.fileSetSize fileB 4096 s.serv.fs).any fun p => decide (p.2.2.view.ptr fileB (.data 1) = 5)) =
          some true := by decide +kernel
  obtain ⟨nb, s, hok, hfound⟩ := ok_of_run hrun
  obtain ⟨hstate, hany⟩ := Bool.and_eq_true_iff.1 hfound
  obtain ⟨h3, hdir, hname, hsize, h5⟩ := of_decide_eq_true hstate
  obtain ⟨⟨l, r, t⟩, h, hkept⟩ := (Option.any_eq_true _ _).1 hany
  have hlive : s.serv.fs.view.Live s.serv.Opened fileB := (reachable_fileB h3 hdir hname).mono fun _ h => h.elim
  refine ⟨nb, _, _, t, l, r, hok, hlive, hsize, h, fun hr => ?_⟩
  have hzero := (hr.released 1 (by decide) (by omega)).2
  rw [of_decide_eq_true hkept] at hzero
  cases hzero

end FileSys

end Mos
