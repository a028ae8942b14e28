import Mos.Fs.View

/-!
# Who owns a block

In a good view, a block number is in one pointer of one live file at most, and the block is in use.  A write of the file
server to a file keeps the view good if the pointers stay as they are, if one is cleared and its block is freed, or if
one is set to a block that is fresh: zero and in no other pointer.
-/

namespace Mos

namespace View

/-- The blocks of the live files are in use and have one owner; the open files are in blocks that are `M`, in the cache,
and that are not blocks of other files than directories. -/
structure Good (nb : Nat) (M : Nat → Prop) (O : FilePtr → Prop) (v : View) : Prop where
  used : ∀ b, b ≤ lastMeta nb → ¬ v.IsFree b
  own : ∀ f k, v.Live O f → v.ptr f k ≠ 0 → lastMeta nb < v.ptr f k ∧ v.ptr f k < nb ∧ ¬ v.IsFree (v.ptr f k)
  inj : ∀ f g k k', v.Live O f → v.Live O g → v.ptr f k ≠ 0 → v.ptr f k = v.ptr g k' → f = g ∧ k = k'
  opened : ∀ g, O g → g = .root ∨ M g.blk ∧ lastMeta nb < g.blk ∧ (∃ j, j < FILE2BLK ∧ g.off = 64 * j) ∧
    ∀ f k, v.Live O f → v.ptr f k = g.blk → v.IsDir f ∧ k ≠ .indirect

variable {nb : Nat} {M M' : Nat → Prop} {O : FilePtr → Prop} {v v' : View} {f g d : FilePtr} {k k' : FileSlot}
  {b i j off : Nat} {w : Word}

theorem two_le_lastMeta (nb : Nat) : 2 ≤ lastMeta nb := by
  unfold lastMeta
  exact Nat.le_add_right 2 _

theorem Good.mono (h : Good nb M O v) (hM : ∀ b, M b → M' b) : Good nb M' O v :=
  ⟨h.used, h.own, h.inj, fun g hg => (h.opened g hg).imp_right fun ⟨hm, hrest⟩ => ⟨hM _ hm, hrest⟩⟩

/-! ### Where things are -/

/-- A live file is the root, or in a block of its own kind at a multiple of its size. -/
theorem Good.place (h : Good nb M O v) (hf : v.Live O f) :
    f = .root ∨ lastMeta nb < f.blk ∧ ∃ j, j < FILE2BLK ∧ f.off = 64 * j := by
  cases hf with
  | root => exact .inl rfl
  | opened hO => exact (h.opened f hO).imp_right fun ⟨_, hlt, hj, _⟩ => ⟨hlt, hj⟩
  | entry hd _ hi hj _ => exact .inr ⟨(h.own _ _ hd hi).1, _, hj, rfl⟩

/-- A block with files in it belongs to a directory. -/
theorem Good.dirs (h : Good nb M O v) (hf : v.Live O f) (hg : v.Live O g) (heq : v.ptr f k = g.blk) :
    v.IsDir f ∧ k ≠ .indirect := by
  have hlast := two_le_lastMeta nb
  have hroot (hg1 : g = .root) : False := by
    have hblk : g.blk = 1 := by rw [hg1]; rfl
    have hown := h.own f k hf (by omega)
    omega
  cases hg with
  | root => exact (hroot rfl).elim
  | opened hO =>
    rcases h.opened g hO with hg1 | ⟨_, _, _, hdir⟩
    · exact (hroot hg1).elim
    · exact hdir f k hf heq
  | @entry d i j hd hdir hi _ _ =>
    have hk : v.ptr f k ≠ 0 := heq ▸ hi
    obtain ⟨rfl, rfl⟩ := h.inj f d k (.data i) hf hd hk heq
    exact ⟨hdir, nofun⟩

theorem Good.off_lt (h : Good nb M O v) (hf : v.Live O f) : f.off + 63 < 1024 := by
  rcases h.place hf with rfl | ⟨-, j, hj, hoff⟩
  · decide
  · unfold FILE2BLK at hj
    omega

/-- Files do not overlap. -/
theorem Good.disjoint (h : Good nb M O v) (hf : v.Live O f) (hg : v.Live O g) {x y : Nat} (hx : x < 64) (hy : y < 64)
    (hne : g ≠ f ∨ y ≠ x) : (g.blk, g.off + y) ≠ (f.blk, f.off + x) := by
  intro heq
  have hblk := congrArg Prod.fst heq
  have hoff := congrArg Prod.snd heq
  dsimp only at hblk hoff
  have hlast := two_le_lastMeta nb
  rcases h.place hf with rfl | ⟨hfb, j, -, hfo⟩
  · rcases h.place hg with rfl | ⟨hgb, -⟩
    · rcases hne with hne | hne
      · exact hne rfl
      · omega
    · have hroot : FilePtr.root.blk = 1 := rfl
      omega
  · rcases h.place hg with rfl | ⟨-, j', -, hgo⟩
    · have hroot : FilePtr.root.blk = 1 := rfl
      omega
    · have hoffs : g.off = f.off := by omega
      rcases hne with hne | hne
      · apply hne
        cases f
        cases g
        simp_all
      · omega

/-- A file is not in an indirect block. -/
theorem Good.ind_ne_blk (h : Good nb M O v) (hf : v.Live O f) (hg : v.Live O g) : v.ptr f .indirect ≠ g.blk :=
  fun heq => (h.dirs hf hg heq).2 rfl

/-- A file, or a part of it, that is at a place of a directory is one of its entries. -/
private theorem Good.entry_of_data (h : Good nb M O v) (hd : v.Live O d) (hi : v.ptr d (.data i) ≠ 0) (hf : v.Live O f)
    {x : Nat}
    (hx : x < 64) (heq : (v.ptr d (.data i), 64 * j) = (f.blk, f.off + x)) :
    x = 0 ∧ f = .entry (v.ptr d (.data i)) j := by
  have hblk := congrArg Prod.fst heq
  have hoff := congrArg Prod.snd heq
  dsimp only at hblk hoff
  have hlast := two_le_lastMeta nb
  have hown := h.own d _ hd hi
  rcases h.place hf with rfl | ⟨-, j', -, hfo⟩
  · have hroot : FilePtr.root.blk = 1 := rfl
    omega
  · refine ⟨by omega, ?_⟩
    cases f
    simp only [FilePtr.entry, FilePtr.mk.injEq]
    exact ⟨hblk.symm, by dsimp only at hfo hoff; omega⟩

/-- A file is not in the bitmap. -/
private theorem Good.blk_not_bitmap (h : Good nb M O v) (hf : v.Live O f) : f.blk < 2 ∨ lastMeta nb < f.blk := by
  rcases h.place hf with rfl | ⟨hlt, -⟩
  · exact .inl (by decide)
  · exact .inr hlt

/-- The word of the bitmap for a block. -/
theorem bitmap_le (hb : b < nb ∨ b ≤ lastMeta nb) : 2 + b / 32 / 1024 ≤ lastMeta nb := by
  unfold lastMeta BIT2BLK at *
  omega

/-! ### What a change leaves alone -/

theorem ptr_congr (hind : v'.get f.blk (f.off + 44) = v.get f.blk (f.off + 44))
    (hdirect : ∀ i, i < NDIRECT → v'.get f.blk (f.off + 34 + i) = v.get f.blk (f.off + 34 + i))
    (hdata : ∀ i, v.ptr f .indirect ≠ 0 → NDIRECT ≤ i → v'.get (v.ptr f .indirect) i = v.get (v.ptr f .indirect) i)
    (k : FileSlot) : v'.ptr f k = v.ptr f k := by
  cases k with
  | indirect =>
    unfold ptr
    rw [hind]
  | data i =>
    by_cases hi : i < NDIRECT
    · simp only [ptr, if_pos hi, hdirect i hi]
    · by_cases h0 : (v.get f.blk (f.off + 44)).toNat = 0
      · simp only [ptr, if_neg hi, hind, if_pos h0]
      · have hw := hdata i h0 (by omega)
        simp only [ptr] at hw
        simp only [ptr, if_neg hi, hind, if_neg h0, hw]

/-- A live file keeps its pointers or loses them, and a directory gets no new names. -/
def Shrinks (O : FilePtr → Prop) (v v' : View) : Prop :=
  ∀ f, v.Live O f → (v'.IsDir f ↔ v.IsDir f) ∧ (∀ k, v'.ptr f k = 0 ∨ v'.ptr f k = v.ptr f k) ∧
    ∀ i j, v.IsDir f → v.ptr f (.data i) ≠ 0 → v'.Named (.entry (v.ptr f (.data i)) j) →
      v.Named (.entry (v.ptr f (.data i)) j)

theorem Shrinks.live (h : Shrinks O v v') (hf : v'.Live O f) : v.Live O f := by
  induction hf with
  | root => exact .root
  | opened hO => exact .opened hO
  | @entry d i j hd hdir hi hj hname ih =>
    obtain ⟨hdir', hptr, hnames⟩ := h d ih
    have heq : v'.ptr d (.data i) = v.ptr d (.data i) := (hptr (.data i)).resolve_left hi
    rw [heq] at hi hname ⊢
    exact .entry ih (hdir'.1 hdir) hi hj (hnames i j (hdir'.1 hdir) hi hname)

theorem Good.shrink (h : Good nb M O v) (hs : Shrinks O v v') (hused : ∀ b, b ≤ lastMeta nb → ¬ v'.IsFree b)
    (hfree : ∀ f k, v.Live O f → v'.ptr f k ≠ 0 → ¬ v'.IsFree (v'.ptr f k)) : Good nb M O v' := by
  have hptr {f : FilePtr} {k : FileSlot} (hf : v'.Live O f) (hk : v'.ptr f k ≠ 0) : v'.ptr f k = v.ptr f k :=
    ((hs f (hs.live hf)).2.1 k).resolve_left hk
  constructor
  · exact hused
  · intro f k hf hk
    have hnot := hfree f k (hs.live hf) hk
    have hpf := hptr hf hk
    rw [hpf] at hk hnot ⊢
    have hown := h.own f k (hs.live hf) hk
    exact ⟨hown.1, hown.2.1, hnot⟩
  · intro f g k k' hf hg hk heq
    have hk' : v'.ptr g k' ≠ 0 := heq ▸ hk
    have hpf := hptr hf hk
    have hpg := hptr hg hk'
    rw [hpf] at hk heq
    rw [hpg] at heq
    exact h.inj f g k k' (hs.live hf) (hs.live hg) hk heq
  · intro g hg
    refine (h.opened g hg).imp_right fun ⟨hM, hlt, hoff, hdir⟩ => ⟨hM, hlt, hoff, fun f k hf heq => ?_⟩
    have hk : v'.ptr f k ≠ 0 := by omega
    have hpf := hptr hf hk
    rw [hpf] at heq
    have hd := hdir f k (hs.live hf) heq
    exact ⟨(hs f (hs.live hf)).1.2 hd.1, hd.2⟩

/-! ### Changes in blocks that the live files do not use -/

/-- Blocks outside which a change leaves the live files alone. -/
structure Unused (O : FilePtr → Prop) (v : View) (S : Nat → Prop) : Prop where
  blk : ∀ f, v.Live O f → ¬ S f.blk
  indirect : ∀ f, v.Live O f → v.ptr f .indirect ≠ 0 → ¬ S (v.ptr f .indirect)
  data : ∀ f i, v.Live O f → v.IsDir f → v.ptr f (.data i) ≠ 0 → ¬ S (v.ptr f (.data i))

/-- Two views that agree outside some blocks. -/
def Agree (S : Nat → Prop) (v v' : View) : Prop := ∀ b off, ¬ S b → v'.get b off = v.get b off

theorem Unused.ptr_eq {S : Nat → Prop} (hS : Unused O v S) (hag : Agree S v v') (hf : v.Live O f) :
    v'.ptr f k = v.ptr f k :=
  ptr_congr (hag _ _ (hS.blk f hf)) (fun _ _ => hag _ _ (hS.blk f hf)) (fun _ h0 _ => hag _ _ (hS.indirect f hf h0)) k

theorem Unused.isDir_iff {S : Nat → Prop} (hS : Unused O v S) (hag : Agree S v v') (hf : v.Live O f) :
    v'.IsDir f ↔ v.IsDir f := by
  unfold IsDir
  rw [hag _ _ (hS.blk f hf)]

theorem Unused.shrinks {S : Nat → Prop} (hS : Unused O v S) (hag : Agree S v v') : Shrinks O v v' := by
  refine fun f hf => ⟨hS.isDir_iff hag hf, fun k => .inr (hS.ptr_eq hag hf), fun i j hdir hi hname => ?_⟩
  have hword := hag (v.ptr f (.data i)) (64 * j) (hS.data f i hf hdir hi)
  unfold Named FilePtr.entry at hname ⊢
  rwa [hword] at hname

/-- More changes in blocks that are not used. -/
private theorem Shrinks.agree {S : Nat → Prop} {v'' : View} (hs : Shrinks O v v') (hS : Unused O v S)
    (hag : Agree S v' v'') :
    Shrinks O v v'' := by
  intro f hf
  have hptr (k : FileSlot) : v''.ptr f k = v'.ptr f k := by
    refine ptr_congr (hag _ _ (hS.blk f hf)) (fun _ _ => hag _ _ (hS.blk f hf)) (fun i h0 _ => hag _ _ ?_) k
    have hsame := ((hs f hf).2.1 .indirect).resolve_left h0
    rw [hsame] at h0 ⊢
    exact hS.indirect f hf h0
  refine ⟨?_, fun k => ?_, fun i j hdir hi hn => (hs f hf).2.2 i j hdir hi ?_⟩
  · rw [← (hs f hf).1]
    unfold IsDir
    rw [hag _ _ (hS.blk f hf)]
  · rw [hptr]
    exact (hs f hf).2.1 k
  · have hword := hag (v.ptr f (.data i)) (64 * j) (hS.data f i hf hdir hi)
    unfold Named FilePtr.entry at hn ⊢
    rwa [hword] at hn

/-- The bitmap. -/
def IsBitmap (nb b : Nat) : Prop := 2 ≤ b ∧ b ≤ lastMeta nb

theorem Good.unused_bitmap (h : Good nb M O v) : Unused O v (IsBitmap nb) := by
  have hptr {f : FilePtr} {k : FileSlot} (hf : v.Live O f) (hk : v.ptr f k ≠ 0) : ¬ IsBitmap nb (v.ptr f k) := by
    have hown := h.own f k hf hk
    unfold IsBitmap
    omega
  refine ⟨fun f hf => ?_, fun f hf => hptr hf, fun f i hf _ => hptr hf⟩
  have hblk := h.blk_not_bitmap hf
  unfold IsBitmap
  omega

/-- Blocks that are not used may hold anything. -/
theorem Good.agree_unused {S : Nat → Prop} (h : Good nb M O v) (hS : Unused O v S) (hag : Agree S v v')
    (hmeta : ∀ c, c ≤ lastMeta nb → ¬ S c) : Good nb M O v' := by
  have hfree {c : Nat} (hc : c < nb ∨ c ≤ lastMeta nb) : v'.IsFree c ↔ v.IsFree c := by
    unfold IsFree
    rw [hag _ _ (hmeta _ (bitmap_le hc))]
  refine h.shrink (hS.shrinks hag) (fun c hc hfree' => ?_) fun f k hf h0 hfree' => ?_
  · exact h.used c hc ((hfree (.inr hc)).1 hfree')
  · rw [hS.ptr_eq hag hf] at h0 hfree'
    have hown := h.own f k hf h0
    exact hown.2.2 ((hfree (.inl hown.2.1)).1 hfree')

theorem Good.not_bitmap (h : Good nb M O v) (hf : v.Live O f) (h0 : v.ptr f k ≠ 0) : ¬ IsBitmap nb (v.ptr f k) := by
  have hown := h.own f k hf h0
  unfold IsBitmap
  omega

theorem agree_set {S : Nat → Prop} (hb : S b) : Agree S v (v.set b off w) := by
  intro b' off' hS
  refine get_set_of_ne fun heq => hS ?_
  cases heq
  exact hb

theorem isBitmap_of_le (hb : b < nb ∨ b ≤ lastMeta nb) : IsBitmap nb (2 + b / 32 / 1024) :=
  ⟨Nat.le_add_right 2 _, bitmap_le hb⟩

/-- A block that no file uses is freed. -/
private theorem Good.setFree (h : Good nb M O v) (hlt : lastMeta nb < b) (hb : b < nb)
    (hno : ∀ f k, v.Live O f → v.ptr f k ≠ b) : Good nb M O (v.setFree b) := by
  have hag : Agree (IsBitmap nb) v (v.setFree b) := agree_set (isBitmap_of_le (.inl hb))
  refine h.shrink (h.unused_bitmap.shrinks hag) (fun b' hb' hfree => ?_) fun f k hf hk hfree => ?_
  · rcases isFree_setFree.1 hfree with rfl | hfree
    · omega
    · exact h.used b' hb' hfree
  · rw [h.unused_bitmap.ptr_eq hag hf] at hk hfree
    rcases isFree_setFree.1 hfree with heq | hfree
    · exact hno f k hf heq
    · exact (h.own f k hf hk).2.2 hfree

/-! ### A block that is handed out -/

/-- A block that is zero, in use and not in any pointer. -/
structure Fresh (nb : Nat) (O : FilePtr → Prop) (v : View) (b : Nat) : Prop where
  meta_lt : lastMeta nb < b
  lt : b < nb
  used : ¬ v.IsFree b
  zero : ∀ off, v.get b off = 0
  ptr : ∀ f k, v.Live O f → v.ptr f k ≠ b
  blk : ∀ f, v.Live O f → f.blk ≠ b

/-- What `alloc_block` does to the blocks. -/
def alloc (v : View) (b : Nat) : View := (v.setUsed b).clear b

theorem agree_alloc (hb : b < nb) : Agree (fun b' => IsBitmap nb b' ∨ b' = b) v (v.alloc b) := by
  intro b' off hS
  rw [not_or] at hS
  unfold alloc
  rw [get_clear, if_neg hS.2]
  exact agree_set (isBitmap_of_le (.inl hb)) b' off hS.1

theorem isFree_alloc (hlt : lastMeta nb < b) (hb' : b' < nb ∨ b' ≤ lastMeta nb) :
    (v.alloc b).IsFree b' ↔ b' ≠ b ∧ v.IsFree b' := by
  rw [← isFree_setUsed]
  have hmap := (isBitmap_of_le hb').2
  unfold IsFree alloc
  rw [get_clear, if_neg (by omega)]

/-- A free block that is not in the cache. -/
structure Spare (nb : Nat) (M : Nat → Prop) (v : View) (b : Nat) : Prop where
  lt : b < nb
  free : v.IsFree b
  unmapped : ¬ M b

private theorem Good.spare_ptr (h : Good nb M O v) (hb : Spare nb M v b) (hf : v.Live O f) (h0 : b ≠ 0) :
    v.ptr f k ≠ b := by
  rintro rfl
  exact (h.own f k hf h0).2.2 hb.free

theorem Good.spare_meta (h : Good nb M O v) (hb : Spare nb M v b) : lastMeta nb < b := by
  by_contra hle
  exact h.used b (by omega) hb.free

private theorem Good.spare_blk (h : Good nb M O v) (hb : Spare nb M v b) (hf : v.Live O f) : f.blk ≠ b := by
  have hmeta := h.spare_meta hb
  have hlast := two_le_lastMeta nb
  rintro rfl
  have hroot (hg : f = .root) : False := by
    have hblk : f.blk = 1 := by rw [hg]; rfl
    omega
  cases hf with
  | root => exact hroot rfl
  | opened hO =>
    rcases h.opened f hO with hr | ⟨hM, -⟩
    · exact hroot hr
    · exact hb.unmapped hM
  | entry hd _ hi _ _ => exact (h.own _ _ hd hi).2.2 hb.free

private theorem Good.unused_alloc (h : Good nb M O v) (hb : Spare nb M v b) :
    Unused O v (fun b' => IsBitmap nb b' ∨ b' = b) := by
  have h0 : b ≠ 0 := by
    have hmeta := h.spare_meta hb
    omega
  constructor
  · intro f hf
    rw [not_or]
    exact ⟨h.unused_bitmap.blk f hf, h.spare_blk hb hf⟩
  · intro f hf hk
    rw [not_or]
    exact ⟨h.unused_bitmap.indirect f hf hk, h.spare_ptr hb hf h0⟩
  · intro f i hf hdir hk
    rw [not_or]
    exact ⟨h.unused_bitmap.data f i hf hdir hk, h.spare_ptr hb hf h0⟩

theorem Good.alloc (h : Good nb M O v) (hb : Spare nb M v b) : Good nb M O (v.alloc b) := by
  have hmeta := h.spare_meta hb
  have hS := h.unused_alloc hb
  have hag := agree_alloc (v := v) hb.lt
  refine h.shrink (hS.shrinks hag) (fun b' hb' hfree => ?_) fun f k hf hk hfree => ?_
  · exact h.used b' hb' ((isFree_alloc hmeta (.inr hb')).1 hfree).2
  · rw [hS.ptr_eq hag hf] at hk hfree
    have hown := h.own f k hf hk
    exact hown.2.2 ((isFree_alloc hmeta (.inl hown.2.1)).1 hfree).2

private theorem Good.fresh_alloc (h : Good nb M O v) (hb : Spare nb M v b) : Fresh nb O (v.alloc b) b := by
  have hmeta := h.spare_meta hb
  have hS := h.unused_alloc hb
  have hag := agree_alloc (v := v) hb.lt
  have hlive {f : FilePtr} (hf : (v.alloc b).Live O f) : v.Live O f := (hS.shrinks hag).live hf
  constructor
  · exact hmeta
  · exact hb.lt
  · intro hfree
    exact ((isFree_alloc hmeta (.inl hb.lt)).1 hfree).1 rfl
  · intro off
    unfold View.alloc
    rw [get_clear, if_pos rfl]
  · intro f k hf
    rw [hS.ptr_eq hag (hlive hf)]
    exact h.spare_ptr hb (hlive hf) (by omega)
  · exact fun f hf => h.spare_blk hb (hlive hf)

/-! ### Writes to a pointer -/

/-- The pointer is there: it is direct, or there is an indirect block. -/
def HasSlot (v : View) (f : FilePtr) : FileSlot → Prop
  | .indirect => True
  | .data i => i < NINDIRECT ∧ (NDIRECT ≤ i → v.ptr f .indirect ≠ 0)

/-- A pointer is in the file, or in its indirect block. -/
theorem loc_cases (hk : v.HasSlot f k) : (∃ x, 34 ≤ x ∧ x < 45 ∧ v.loc f k = (f.blk, f.off + x)) ∨
    ∃ i, k = .data i ∧ NDIRECT ≤ i ∧ i < NINDIRECT ∧ v.ptr f .indirect ≠ 0 ∧ v.loc f k = (v.ptr f .indirect, i) := by
  cases k with
  | indirect => exact .inl ⟨44, by omega, by omega, rfl⟩
  | data i =>
    by_cases hi : i < NDIRECT
    · refine .inl ⟨34 + i, by omega, ?_, ?_⟩
      · unfold NDIRECT at hi
        omega
      · simp only [loc, if_pos hi, Nat.add_assoc]
    · refine .inr ⟨i, rfl, by omega, hk.1, hk.2 (by omega), ?_⟩
      simp only [loc, if_neg hi, ptr]

theorem Good.loc_lt (h : Good nb M O v) (hf : v.Live O f) (hk : v.HasSlot f k) : (v.loc f k).2 < 1024 := by
  rcases loc_cases hk with ⟨x, -, hx, hloc⟩ | ⟨i, -, -, hi, -, hloc⟩
  · rw [hloc]
    have hoff := h.off_lt hf
    dsimp only
    omega
  · rw [hloc]
    exact hi

/-- The words of a file other than the pointer. -/
theorem Good.struct_ne_loc (h : Good nb M O v) (hf : v.Live O f) (hk : v.HasSlot f k) (hg : v.Live O g) {y : Nat}
    (hy : y < 64) (hne : g ≠ f ∨ y < 34 ∨ 45 ≤ y) : (g.blk, g.off + y) ≠ v.loc f k := by
  rcases loc_cases hk with ⟨x, hx, hx', hloc⟩ | ⟨i, -, -, -, -, hloc⟩
  · rw [hloc]
    exact h.disjoint hf hg (by omega) hy (hne.imp_right fun h => by omega)
  · rw [hloc]
    intro heq
    exact h.ind_ne_blk hf hg (congrArg Prod.fst heq).symm

/-- The words of the indirect block of another file. -/
private theorem Good.ind_ne_loc (h : Good nb M O v) (hf : v.Live O f) (hk : v.HasSlot f k) (hg : v.Live O g) (hne : g ≠ f)
    (h0 : v.ptr g .indirect ≠ 0) : (v.ptr g .indirect, i) ≠ v.loc f k := by
  rcases loc_cases hk with ⟨x, -, -, hloc⟩ | ⟨i', -, -, -, -, hloc⟩
  · rw [hloc]
    intro heq
    exact h.ind_ne_blk hg hf (congrArg Prod.fst heq)
  · rw [hloc]
    intro heq
    exact hne (h.inj g f .indirect .indirect hg hf h0 (congrArg Prod.fst heq)).1

/-- The names in a directory. -/
private theorem Good.name_ne_loc (h : Good nb M O v) (hf : v.Live O f) (hk : v.HasSlot f k) (hd : v.Live O d)
    (h0 : v.ptr d (.data i) ≠ 0) : (v.ptr d (.data i), 64 * j) ≠ v.loc f k := by
  rcases loc_cases hk with ⟨x, hx, hx', hloc⟩ | ⟨i', -, -, -, -, hloc⟩
  · rw [hloc]
    intro heq
    have hzero := (h.entry_of_data hd h0 hf (by omega) heq).1
    omega
  · rw [hloc]
    intro heq
    have hsame := (h.inj d f (.data i) .indirect hd hf h0 (congrArg Prod.fst heq)).2
    cases hsame

/-- A pointer is not in the bitmap. -/
theorem Good.loc_not_bitmap (h : Good nb M O v) (hf : v.Live O f) (hk : v.HasSlot f k) :
    ¬ IsBitmap nb (v.loc f k).1 := by
  rcases loc_cases hk with ⟨x, -, -, hloc⟩ | ⟨i, -, -, -, h0, hloc⟩
  · rw [hloc]
    exact h.unused_bitmap.blk f hf
  · rw [hloc]
    exact h.unused_bitmap.indirect f hf h0

/-- A word that is written to at a pointer. -/
def setPtr (v : View) (f : FilePtr) (k : FileSlot) (w : Word) : View := v.set (v.loc f k).1 (v.loc f k).2 w

theorem get_set_pair_of_ne {p : Nat × Nat} (hne : (b, off) ≠ p) : (v.set p.1 p.2 w).get b off = v.get b off :=
  get_set_of_ne hne

theorem get_setPtr_of_ne (hne : (b, off) ≠ v.loc f k) : (v.setPtr f k w).get b off = v.get b off := get_set_of_ne hne

section SetPtr

variable (h : Good nb M O v) (hf : v.Live O f) (hk : v.HasSlot f k)

include h hf hk

private theorem Good.setPtr_ptr_other (hg : v.Live O g) (hne : g ≠ f) : (v.setPtr f k w).ptr g k' = v.ptr g k' := by
  refine ptr_congr ?_ (fun i hi => ?_) (fun i h0 _ => ?_) k'
  · exact get_setPtr_of_ne (h.struct_ne_loc hf hk hg (by omega) (.inl hne))
  · refine get_setPtr_of_ne ?_
    rw [Nat.add_assoc]
    unfold NDIRECT at hi
    exact h.struct_ne_loc hf hk hg (by omega) (.inl hne)
  · exact get_setPtr_of_ne (h.ind_ne_loc hf hk hg hne h0)

private theorem Good.setPtr_isDir (hg : v.Live O g) : (v.setPtr f k w).IsDir g ↔ v.IsDir g := by
  unfold IsDir
  rw [get_setPtr_of_ne (h.struct_ne_loc hf hk hg (by omega) (.inr (.inl (by omega))))]

private theorem Good.setPtr_named (hd : v.Live O d) (h0 : v.ptr d (.data i) ≠ 0) :
    (v.setPtr f k w).Named (.entry (v.ptr d (.data i)) j) ↔ v.Named (.entry (v.ptr d (.data i)) j) := by
  unfold Named FilePtr.entry
  rw [get_setPtr_of_ne (h.name_ne_loc hf hk hd h0)]

theorem Good.setPtr_isFree (hb : b < nb ∨ b ≤ lastMeta nb) : (v.setPtr f k w).IsFree b ↔ v.IsFree b := by
  have hne : (2 + b / 32 / 1024, b / 32 % 1024) ≠ v.loc f k := by
    intro heq
    refine h.loc_not_bitmap hf hk ?_
    rw [← heq]
    exact isBitmap_of_le hb
  unfold IsFree
  rw [get_setPtr_of_ne hne]

theorem Good.setPtr_ptr_self : (v.setPtr f k w).ptr f k = w.toNat := by
  have hget : (v.setPtr f k w).get (v.loc f k).1 (v.loc f k).2 = w := by
    unfold View.setPtr
    rw [get_set (h.loc_lt hf hk), if_pos ⟨rfl, rfl⟩]
  cases k with
  | indirect =>
    simp only [ptr]
    exact congrArg _ hget
  | data i =>
    by_cases hi : i < NDIRECT
    · simp only [loc, if_pos hi] at hget
      simp only [ptr, if_pos hi, hget]
    · -- the indirect block stays where it is
      have hind : (v.setPtr f (.data i) w).get f.blk (f.off + 44) = v.get f.blk (f.off + 44) := by
        refine get_setPtr_of_ne ?_
        simp only [loc, if_neg hi]
        intro heq
        exact h.ind_ne_blk hf hf (congrArg Prod.fst heq).symm
      have h0 := hk.2 (by omega)
      simp only [loc, if_neg hi] at hget
      simp only [ptr] at h0
      simp only [ptr, if_neg hi, hind, if_neg h0, hget]

theorem Good.setPtr_ptr_ne (hkd : k ≠ .indirect) (hne : k' ≠ k) : (v.setPtr f k w).ptr f k' = v.ptr f k' := by
  obtain ⟨i, rfl⟩ : ∃ i, k = .data i := by
    cases k with
    | indirect => exact absurd rfl hkd
    | data i => exact ⟨i, rfl⟩
  have hind : (v.setPtr f (.data i) w).get f.blk (f.off + 44) = v.get f.blk (f.off + 44) := by
    refine get_setPtr_of_ne fun heq => ?_
    by_cases hi : i < NDIRECT
    · simp only [loc, if_pos hi, Prod.mk.injEq, true_and] at heq
      unfold NDIRECT at hi
      omega
    · simp only [loc, if_neg hi] at heq
      exact h.ind_ne_blk hf hf (congrArg Prod.fst heq).symm
  cases k' with
  | indirect => simp only [ptr, hind]
  | data i' =>
    have hii : i' ≠ i := fun heq => hne (by rw [heq])
    by_cases hi' : i' < NDIRECT
    · have hget : (v.setPtr f (.data i) w).get f.blk (f.off + 34 + i') = v.get f.blk (f.off + 34 + i') := by
        refine get_setPtr_of_ne fun heq => ?_
        by_cases hi : i < NDIRECT
        · simp only [loc, if_pos hi, Prod.mk.injEq, true_and] at heq
          omega
        · simp only [loc, if_neg hi] at heq
          exact h.ind_ne_blk hf hf (congrArg Prod.fst heq).symm
      simp only [ptr, if_pos hi', hget]
    · by_cases h0 : (v.get f.blk (f.off + 44)).toNat = 0
      · simp only [ptr, if_neg hi', hind, if_pos h0]
      · have hget : (v.setPtr f (.data i) w).get (v.get f.blk (f.off + 44)).toNat i' =
            v.get (v.get f.blk (f.off + 44)).toNat i' := by
          refine get_setPtr_of_ne fun heq => ?_
          by_cases hi : i < NDIRECT
          · simp only [loc, if_pos hi] at heq
            exact h.ind_ne_blk hf hf (congrArg Prod.fst heq)
          · simp only [loc, if_neg hi, Prod.mk.injEq, true_and] at heq
            exact hii heq
        simp only [ptr, if_neg hi', hind, if_neg h0, hget]

end SetPtr

/-- The other pointers, when the one to the indirect block changes. -/
private theorem Good.setPtr_indirect_ptr (h : Good nb M O v) (hf : v.Live O f) (hw : w.toNat ≠ f.blk)
    (hne : k' ≠ .indirect) :
    (v.setPtr f .indirect w).ptr f k' = v.ptr f k' ∨ (v.setPtr f .indirect w).ptr f k' = 0 ∨
      w.toNat ≠ 0 ∧ ∃ i, (v.setPtr f .indirect w).ptr f k' = (v.get w.toNat i).toNat := by
  cases k' with
  | indirect => exact absurd rfl hne
  | data i =>
    by_cases hi : i < NDIRECT
    · left
      have hget : (v.setPtr f .indirect w).get f.blk (f.off + 34 + i) = v.get f.blk (f.off + 34 + i) := by
        refine get_setPtr_of_ne fun heq => ?_
        simp only [loc, Prod.mk.injEq, true_and] at heq
        unfold NDIRECT at hi
        omega
      simp only [ptr, if_pos hi, hget]
    · right
      have hself : ((v.setPtr f .indirect w).get f.blk (f.off + 44)).toNat = w.toNat :=
        h.setPtr_ptr_self hf (k := .indirect) trivial
      have hget : (v.setPtr f .indirect w).get w.toNat i = v.get w.toNat i := by
        refine get_setPtr_of_ne fun heq => ?_
        exact hw (congrArg Prod.fst heq)
      simp only [ptr, if_neg hi, hself, hget]
      split
      · exact .inl rfl
      · next h0 => exact .inr ⟨h0, i, rfl⟩

/-! ### Clearing and setting a pointer -/

theorem Good.blk_ne_zero (h : Good nb M O v) (hf : v.Live O f) : f.blk ≠ 0 := by
  rcases h.place hf with rfl | ⟨hlt, -⟩
  · decide
  · omega

private theorem Good.shrinks_setPtr_zero (h : Good nb M O v) (hf : v.Live O f) (hk : v.HasSlot f k) :
    Shrinks O v (v.setPtr f k 0) := by
  refine fun g hg => ⟨h.setPtr_isDir hf hk hg, fun k' => ?_, fun i j _ hi hname => (h.setPtr_named hf hk hg hi).1 hname⟩
  by_cases hgf : g = f
  · subst hgf
    by_cases hkk : k' = k
    · subst hkk
      exact .inl (h.setPtr_ptr_self hg hk)
    · by_cases hki : k = .indirect
      · subst hki
        rcases h.setPtr_indirect_ptr hg (w := 0) (h.blk_ne_zero hg).symm hkk with heq | heq | ⟨h0, -⟩
        · exact .inr heq
        · exact .inl heq
        · exact absurd rfl h0
      · exact .inr (h.setPtr_ptr_ne hg hk hki hkk)
  · exact .inr (h.setPtr_ptr_other hf hk hg hgf)

/-- A pointer is cleared; the block that it was for has no owner any more. -/
theorem Good.setPtr_zero (h : Good nb M O v) (hf : v.Live O f) (hk : v.HasSlot f k) :
    Good nb M O (v.setPtr f k 0) ∧ (v.ptr f k ≠ 0 → ∀ g k', (v.setPtr f k 0).Live O g →
      (v.setPtr f k 0).ptr g k' ≠ v.ptr f k) := by
  have hs := h.shrinks_setPtr_zero hf hk
  constructor
  · refine h.shrink hs (fun b hb hfree => ?_) fun g k' hg h0 hfree => ?_
    · exact h.used b hb ((h.setPtr_isFree hf hk (.inr hb)).1 hfree)
    · have hsame := ((hs g hg).2.1 k').resolve_left h0
      rw [hsame] at h0 hfree
      have hown := h.own g k' hg h0
      exact hown.2.2 ((h.setPtr_isFree hf hk (.inl hown.2.1)).1 hfree)
  · intro h0 g k' hg heq
    have hne : (v.setPtr f k 0).ptr g k' ≠ 0 := heq ▸ h0
    have hsame := ((hs g (hs.live hg)).2.1 k').resolve_left hne
    rw [hsame] at heq
    obtain ⟨rfl, rfl⟩ := h.inj f g k k' hf (hs.live hg) h0 heq.symm
    exact hne (h.setPtr_ptr_self hf hk)

private theorem set_set_comm {c off' : Nat} {w' : Word} (hne : b ≠ c) :
    (v.set c off' w').set b off w = (v.set b off w).set c off' w' := by
  unfold set
  rw [Function.update_comm hne]
  congr 1
  · rw [Function.update_of_ne hne.symm]
  · rw [Function.update_of_ne hne]

private theorem setFree_set_comm (hne : b ≠ 2 + i / 32 / 1024) : (v.setFree i).set b off w = (v.set b off w).setFree i := by
  unfold setFree
  rw [set_set_comm hne, get_set_of_ne fun heq => hne (congrArg Prod.fst heq).symm]

/-- Freeing a block and clearing its pointer, in the other order. -/
theorem Good.free_clear_eq (h : Good nb M O v) (hf : v.Live O f) (hk : v.HasSlot f k) (h0 : v.ptr f k ≠ 0) :
    (v.setFree (v.ptr f k)).set (v.loc f k).1 (v.loc f k).2 w = (v.setPtr f k w).setFree (v.ptr f k) := by
  refine setFree_set_comm fun heq => h.loc_not_bitmap hf hk ?_
  rw [heq]
  exact isBitmap_of_le (.inl (h.own f k hf h0).2.1)

/-- What `file_clear_block` does: the block is freed, and the pointer is cleared. -/
private theorem Good.free_clear (h : Good nb M O v) (hf : v.Live O f) (hk : v.HasSlot f k) (h0 : v.ptr f k ≠ 0) :
    Good nb M O ((v.setFree (v.ptr f k)).set (v.loc f k).1 (v.loc f k).2 0) := by
  have hown := h.own f k hf h0
  have hclear := h.setPtr_zero hf hk
  rw [h.free_clear_eq hf hk h0]
  exact hclear.1.setFree hown.1 hown.2.1 (hclear.2 h0)

private theorem Good.shrinks_free_clear (h : Good nb M O v) (hf : v.Live O f) (hk : v.HasSlot f k) (h0 : v.ptr f k ≠ 0) :
    Shrinks O v ((v.setFree (v.ptr f k)).set (v.loc f k).1 (v.loc f k).2 0) := by
  rw [h.free_clear_eq hf hk h0]
  exact (h.shrinks_setPtr_zero hf hk).agree h.unused_bitmap (agree_set (isBitmap_of_le (.inl (h.own f k hf h0).2.1)))

/-- The pointers after one is set to a fresh block. -/
private theorem Good.link_ptr (h : Good nb M O v) (hf : v.Live O f) (hk : v.HasSlot f k) (hb : Fresh nb O v b)
    (hw : w.toNat = b) (hg : v.Live O g) (k' : FileSlot) :
    (g = f ∧ k' = k ∧ (v.setPtr f k w).ptr g k' = b) ∨ (v.setPtr f k w).ptr g k' = 0 ∨
      (v.setPtr f k w).ptr g k' = v.ptr g k' := by
  by_cases hgf : g = f
  · subst hgf
    by_cases hkk : k' = k
    · subst hkk
      exact .inl ⟨rfl, rfl, (h.setPtr_ptr_self hg hk).trans hw⟩
    · by_cases hki : k = .indirect
      · subst hki
        have hwb : w.toNat ≠ g.blk := fun heq => hb.blk g hg (heq.symm.trans hw)
        rcases h.setPtr_indirect_ptr hg hwb hkk with heq | heq | ⟨-, i, heq⟩
        · exact .inr (.inr heq)
        · exact .inr (.inl heq)
        · rw [hw, hb.zero i] at heq
          exact .inr (.inl heq)
      · exact .inr (.inr (h.setPtr_ptr_ne hg hk hki hkk))
  · exact .inr (.inr (h.setPtr_ptr_other hf hk hg hgf))

private theorem Good.link_live (h : Good nb M O v) (hf : v.Live O f) (hk : v.HasSlot f k) (hb : Fresh nb O v b)
    (hw : w.toNat = b) (hg : (v.setPtr f k w).Live O g) : v.Live O g := by
  induction hg with
  | root => exact .root
  | opened hO => exact .opened hO
  | @entry d i j hd hdir hi hj hname ih =>
    have hdir' := (h.setPtr_isDir hf hk ih).1 hdir
    rcases h.link_ptr hf hk hb hw ih (.data i) with ⟨-, -, heq⟩ | heq | heq
    · -- there are no names in a block that is zero
      rw [heq] at hname
      have hne : (b, 64 * j) ≠ v.loc f k := by
        rcases loc_cases hk with ⟨x, -, -, hloc⟩ | ⟨i', -, -, -, -, hloc⟩
        · rw [hloc]
          exact fun h => hb.blk f hf (congrArg Prod.fst h).symm
        · rw [hloc]
          exact fun h => hb.ptr f .indirect hf (congrArg Prod.fst h).symm
      refine absurd ?_ hname
      show byteOf ((v.setPtr f k w).get b (64 * j)) 0 = 0
      rw [get_setPtr_of_ne hne, hb.zero]
      decide
    · exact absurd heq hi
    · rw [heq] at hi hname ⊢
      exact .entry ih hdir' hi hj ((h.setPtr_named hf hk ih hi).1 hname)

/-- A pointer is set to a fresh block. -/
private theorem Good.link (h : Good nb M O v) (hf : v.Live O f) (hk : v.HasSlot f k) (hb : Fresh nb O v b)
    (hw : w.toNat = b) : Good nb M O (v.setPtr f k w) := by
  have hlive {g : FilePtr} (hg : (v.setPtr f k w).Live O g) : v.Live O g := h.link_live hf hk hb hw hg
  have hfree {b' : Nat} (hb' : b' < nb ∨ b' ≤ lastMeta nb) := h.setPtr_isFree hf hk (w := w) hb'
  constructor
  · exact fun b' hb' hfree' => h.used b' hb' ((hfree (.inr hb')).1 hfree')
  · intro g k' hg h0
    rcases h.link_ptr hf hk hb hw (hlive hg) k' with ⟨-, -, heq⟩ | heq | heq
    · rw [heq]
      exact ⟨hb.meta_lt, hb.lt, fun h => hb.used ((hfree (.inl hb.lt)).1 h)⟩
    · exact absurd heq h0
    · rw [heq] at h0 ⊢
      have hown := h.own g k' (hlive hg) h0
      exact ⟨hown.1, hown.2.1, fun h => hown.2.2 ((hfree (.inl hown.2.1)).1 h)⟩
  · intro g g' k' k'' hg hg' h0 heq
    have h0' : (v.setPtr f k w).ptr g' k'' ≠ 0 := heq ▸ h0
    rcases h.link_ptr hf hk hb hw (hlive hg) k' with ⟨rfl, rfl, he⟩ | he | he
    · rcases h.link_ptr hf hk hb hw (hlive hg') k'' with ⟨rfl, rfl, -⟩ | he' | he'
      · exact ⟨rfl, rfl⟩
      · exact absurd he' h0'
      · exact absurd (he'.symm.trans (heq.symm.trans he)) (hb.ptr g' k'' (hlive hg'))
    · exact absurd he h0
    · rcases h.link_ptr hf hk hb hw (hlive hg') k'' with ⟨rfl, rfl, he'⟩ | he' | he'
      · exact absurd (he.symm.trans (heq.trans he')) (hb.ptr g k' (hlive hg))
      · exact absurd he' h0'
      · rw [he] at h0 heq
        rw [he'] at heq
        exact h.inj g g' k' k'' (hlive hg) (hlive hg') h0 heq
  · intro g hg
    refine (h.opened g hg).imp_right fun ⟨hM, hlt, hoff, hdir⟩ => ⟨hM, hlt, hoff, fun g' k' hg' heq => ?_⟩
    rcases h.link_ptr hf hk hb hw (hlive hg') k' with ⟨-, -, he⟩ | he | he
    · exact absurd (heq.symm.trans he) (hb.blk g (.opened hg))
    · omega
    · rw [he] at heq
      have hd := hdir g' k' (hlive hg') heq
      exact ⟨(h.setPtr_isDir hf hk (hlive hg')).2 hd.1, hd.2⟩

/-- A field that is neither the type nor a pointer changes; a name may only be cleared. -/
private theorem Good.shrinks_field (h : Good nb M O v) (hf : v.Live O f) {y : Nat} (hy : y < 33 ∨ 45 ≤ y ∧ y < 64)
    (hname : y = 0 → byteOf w 0 = 0) : Shrinks O v (v.set f.blk (f.off + y) w) := by
  have hoff := h.off_lt hf
  have hfield {g : FilePtr} (hg : v.Live O g) {x : Nat} (hx : 33 ≤ x) (hx' : x < 45) :
      (v.set f.blk (f.off + y) w).get g.blk (g.off + x) = v.get g.blk (g.off + x) :=
    get_set_of_ne (h.disjoint hf hg (by omega) (by omega) (.inr (by omega)))
  refine fun g hg => ⟨?_, fun k => .inr (ptr_congr ?_ (fun i hi => ?_) (fun i h0 _ => ?_) k), fun i j _ hi hn => ?_⟩
  · unfold IsDir
    rw [hfield hg (by omega) (by omega)]
  · exact hfield hg (by omega) (by omega)
  · rw [Nat.add_assoc]
    unfold NDIRECT at hi
    exact hfield hg (by omega) (by omega)
  · exact get_set_of_ne fun heq => h.ind_ne_blk hg hf (congrArg Prod.fst heq)
  · unfold Named at hn ⊢
    rcases eq_or_ne (v.ptr g (.data i), 64 * j) (f.blk, f.off + y) with heq | hne
    · -- the name of this file is cleared
      obtain ⟨rfl, -⟩ := h.entry_of_data hg hi hf (by omega) heq
      have hget : (v.set f.blk (f.off + 0) w).get (v.ptr g (.data i)) (64 * j) = w := by
        rw [get_set (by omega), if_pos ⟨congrArg Prod.fst heq, congrArg Prod.snd heq⟩]
      refine absurd ?_ hn
      show byteOf ((v.set f.blk (f.off + 0) w).get (v.ptr g (.data i)) (64 * j)) 0 = 0
      rw [hget]
      exact hname rfl
    · have hget : (v.set f.blk (f.off + y) w).get (v.ptr g (.data i)) (64 * j) = v.get (v.ptr g (.data i)) (64 * j) :=
        get_set_of_ne hne
      unfold FilePtr.entry at hn ⊢
      rwa [hget] at hn

private theorem Good.set_field (h : Good nb M O v) (hf : v.Live O f) {y : Nat} (hy : y < 33 ∨ 45 ≤ y ∧ y < 64)
    (hname : y = 0 → byteOf w 0 = 0) : Good nb M O (v.set f.blk (f.off + y) w) := by
  have hs := h.shrinks_field hf hy hname
  have hfree {b : Nat} (hb : b < nb ∨ b ≤ lastMeta nb) : (v.set f.blk (f.off + y) w).IsFree b ↔ v.IsFree b := by
    unfold IsFree
    rw [get_set_of_ne]
    intro heq
    have hblk : 2 + b / 32 / 1024 = f.blk := congrArg Prod.fst heq
    refine h.unused_bitmap.blk f hf ?_
    rw [← hblk]
    exact isBitmap_of_le hb
  refine h.shrink hs (fun b hb hfree' => ?_) fun g k hg h0 hfree' => ?_
  · exact h.used b hb ((hfree (.inr hb)).1 hfree')
  · have hsame := ((hs g hg).2.1 k).resolve_left h0
    rw [hsame] at h0 hfree'
    have hown := h.own g k hg h0
    exact hown.2.2 ((hfree (.inl hown.2.1)).1 hfree')

/-! ### What the file server does to the blocks -/

/-- A field changes, a block of a file is freed, or a file gets a block that is not in the cache. -/
inductive Change (nb : Nat) (M : Nat → Prop) (O : FilePtr → Prop) (v : View) : View → Prop
  | field {f : FilePtr} {y : Nat} {w : Word} (hf : v.Live O f) (hy : y < 33 ∨ 45 ≤ y ∧ y < 64)
      (hname : y = 0 → byteOf w 0 = 0) : Change nb M O v (v.set f.blk (f.off + y) w)
  | drop {f : FilePtr} {k : FileSlot} (hf : v.Live O f) (hk : v.HasSlot f k) (h0 : v.ptr f k ≠ 0) :
      Change nb M O v ((v.setFree (v.ptr f k)).set (v.loc f k).1 (v.loc f k).2 0)
  | extend {f : FilePtr} {k : FileSlot} {b : Nat} (hf : v.Live O f) (hk : v.HasSlot f k) (hb : Spare nb M v b) :
      Change nb M O v ((v.alloc b).set (v.loc f k).1 (v.loc f k).2 (BitVec.ofNat 32 b))

theorem lt_word (hnb : (v.get 1 1).toNat = nb) : nb < 2 ^ 32 := by
  rw [← hnb]
  exact (v.get 1 1).isLt

section Alloc

variable (h : Good nb M O v) (hb : Spare nb M v b)

include h hb

private theorem Good.alloc_ptr (hf : v.Live O f) : (v.alloc b).ptr f k = v.ptr f k :=
  (h.unused_alloc hb).ptr_eq (agree_alloc hb.lt) hf

private theorem Good.alloc_live : (v.alloc b).Live O f ↔ v.Live O f := by
  have hag := agree_alloc (v := v) hb.lt
  have hS := h.unused_alloc hb
  constructor
  · exact (hS.shrinks hag).live
  · intro hf
    induction hf with
    | root => exact .root
    | opened hO => exact .opened hO
    | @entry d i j hd hdir hi hj hname ih =>
      have heq : (v.alloc b).ptr d (.data i) = v.ptr d (.data i) := hS.ptr_eq hag hd
      have hword := hag (v.ptr d (.data i)) (64 * j) (hS.data d i hd hdir hi)
      rw [← heq] at hi hname ⊢
      refine .entry ih ((hS.isDir_iff hag hd).2 hdir) hi hj ?_
      rw [heq] at hname ⊢
      unfold Named FilePtr.entry at hname ⊢
      rwa [hword]

private theorem Good.alloc_loc (hf : v.Live O f) : (v.alloc b).loc f k = v.loc f k := by
  cases k with
  | indirect => rfl
  | data i =>
    unfold loc
    rw [agree_alloc (v := v) hb.lt _ _ ((h.unused_alloc hb).blk f hf)]

theorem Good.alloc_hasSlot (hf : v.Live O f) (hk : v.HasSlot f k) : (v.alloc b).HasSlot f k := by
  cases k with
  | indirect => trivial
  | data i => exact ⟨hk.1, fun hi => by rw [h.alloc_ptr hb hf]; exact hk.2 hi⟩

/-- A file gets a block: this is a pointer set to a fresh block. -/
theorem Good.extend_eq (hf : v.Live O f) : (v.alloc b).set (v.loc f k).1 (v.loc f k).2 w = (v.alloc b).setPtr f k w := by
  unfold setPtr
  rw [h.alloc_loc hb hf]

end Alloc

theorem Good.change (h : Good nb M O v) (hnb : (v.get 1 1).toNat = nb) (hc : Change nb M O v v') : Good nb M O v' := by
  cases hc with
  | field hf hy hname => exact h.set_field hf hy hname
  | drop hf hk h0 => exact h.free_clear hf hk h0
  | extend hf hk hb =>
    rw [h.extend_eq hb hf]
    have hw : (BitVec.ofNat 32 _).toNat = _ := Nat.mod_eq_of_lt (hb.lt.trans (lt_word hnb))
    exact (h.alloc hb).link ((h.alloc_live hb).2 hf) (h.alloc_hasSlot hb hf hk) (h.fresh_alloc hb) hw

/-- The superblock keeps the number of blocks. -/
theorem Change.nblocks (hc : Change nb M O v v') (h : Good nb M O v) : v'.get 1 1 = v.get 1 1 := by
  have hlast := two_le_lastMeta nb
  have hroot : FilePtr.root.blk = 1 ∧ FilePtr.root.off = 2 := ⟨rfl, rfl⟩
  have hblk {f : FilePtr} (hf : v.Live O f) (x : Nat) : (1, 1) ≠ (f.blk, f.off + x) := by
    intro heq
    have h1 : 1 = f.blk := congrArg Prod.fst heq
    have h2 : 1 = f.off + x := congrArg Prod.snd heq
    rcases h.place hf with rfl | ⟨hlt, -⟩
    · omega
    · omega
  have hloc {f : FilePtr} {k : FileSlot} (hf : v.Live O f) (hk : v.HasSlot f k) : (1, 1) ≠ v.loc f k := by
    rcases loc_cases hk with ⟨x, -, -, hloc⟩ | ⟨i, -, -, -, h0, hloc⟩
    · rw [hloc]
      exact hblk hf x
    · rw [hloc]
      intro heq
      exact h.ind_ne_blk hf .root (congrArg Prod.fst heq).symm
  have hmap (b : Nat) : (1, 1) ≠ (2 + b / 32 / 1024, b / 32 % 1024) := by
    intro heq
    have h1 : 1 = 2 + b / 32 / 1024 := congrArg Prod.fst heq
    omega
  cases hc with
  | field hf _ _ => exact get_set_of_ne (hblk hf _)
  | drop hf hk h0 => exact (get_set_pair_of_ne (hloc hf hk)).trans (get_set_of_ne (hmap _))
  | extend hf hk hb =>
    refine (get_set_pair_of_ne (hloc hf hk)).trans ?_
    have hmeta := h.spare_meta hb
    unfold View.alloc
    rw [get_clear, if_neg (by omega)]
    exact get_set_of_ne (hmap _)

/-- What a change does to the live files. -/
private theorem Change.shrinks (hc : Change nb M O v v') (h : Good nb M O v) : Shrinks O v v' ∨
    ∃ f k b, v.Live O f ∧ v.HasSlot f k ∧ Spare nb M v b ∧ v' = (v.alloc b).setPtr f k (BitVec.ofNat 32 b) := by
  cases hc with
  | field hf hy hname => exact .inl (h.shrinks_field hf hy hname)
  | drop hf hk h0 => exact .inl (h.shrinks_free_clear hf hk h0)
  | extend hf hk hb => exact .inr ⟨_, _, _, hf, hk, hb, h.extend_eq hb hf⟩

section

variable (hc : Change nb M O v v') (h : Good nb M O v) (hnb : (v.get 1 1).toNat = nb)

include hc h hnb

theorem Change.live (hf : v'.Live O f) : v.Live O f := by
  rcases hc.shrinks h with hs | ⟨g, k, b, hg, hk, hb, rfl⟩
  · exact hs.live hf
  · have hw : (BitVec.ofNat 32 b).toNat = b := Nat.mod_eq_of_lt (hb.lt.trans (lt_word hnb))
    exact (h.alloc_live hb).1 ((h.alloc hb).link_live ((h.alloc_live hb).2 hg) (h.alloc_hasSlot hb hg hk)
      (h.fresh_alloc hb) hw hf)

omit hnb in
theorem Change.isDir (hf : v.Live O f) : v'.IsDir f ↔ v.IsDir f := by
  rcases hc.shrinks h with hs | ⟨g, k, b, hg, hk, hb, rfl⟩
  · exact (hs f hf).1
  · rw [(h.alloc hb).setPtr_isDir ((h.alloc_live hb).2 hg) (h.alloc_hasSlot hb hg hk) ((h.alloc_live hb).2 hf)]
    exact (h.unused_alloc hb).isDir_iff (agree_alloc hb.lt) hf

/-- A pointer stays, or is cleared, or becomes a block that was spare. -/
theorem Change.ptr (hf : v.Live O f) (k : FileSlot) :
    v'.ptr f k = 0 ∨ v'.ptr f k = v.ptr f k ∨ Spare nb M v (v'.ptr f k) := by
  rcases hc.shrinks h with hs | ⟨g, k', b, hg, hk, hb, rfl⟩
  · exact ((hs f hf).2.1 k).imp_right .inl
  · have hw : (BitVec.ofNat 32 b).toNat = b := Nat.mod_eq_of_lt (hb.lt.trans (lt_word hnb))
    rcases (h.alloc hb).link_ptr ((h.alloc_live hb).2 hg) (h.alloc_hasSlot hb hg hk) (h.fresh_alloc hb) hw
      ((h.alloc_live hb).2 hf) k with ⟨-, -, heq⟩ | heq | heq
    · rw [heq]
      exact .inr (.inr hb)
    · exact .inl heq
    · rw [heq, h.alloc_ptr hb hf]
      exact .inr (.inl rfl)

end

/-! ### The contents of files -/

/-- A block of a file that is not a directory has no files in it, and is not an indirect block. -/
private theorem Good.data_ne_loc (h : Good nb M O v) (hf : v.Live O f) (hk : v.HasSlot f k) (hg : v.Live O g)
    (hdir : ¬ v.IsDir g)
    (h0 : v.ptr g (.data i) ≠ 0) : v.ptr g (.data i) ≠ (v.loc f k).1 := by
  rcases loc_cases hk with ⟨x, -, -, hloc⟩ | ⟨i', -, -, -, -, hloc⟩
  · rw [hloc]
    exact fun heq => hdir (h.dirs hg hf heq).1
  · rw [hloc]
    intro heq
    have hsame := (h.inj g f (.data i) .indirect hg hf h0 heq).2
    cases hsame

/-- The blocks of a file that is not a directory keep their contents, or they were spare and are zero. -/
theorem Change.data (hc : Change nb M O v v') (h : Good nb M O v) (hnb : (v.get 1 1).toNat = nb) (hg : v.Live O g)
    (hdir : ¬ v.IsDir g) (i : Nat) : v'.ptr g (.data i) = 0 ∨
      (v'.ptr g (.data i) = v.ptr g (.data i) ∧ ∀ off, v'.get (v.ptr g (.data i)) off = v.get (v.ptr g (.data i)) off) ∨
      ∀ off, v'.get (v'.ptr g (.data i)) off = 0 := by
  by_cases h0 : v'.ptr g (.data i) = 0
  · exact .inl h0
  right
  have hbitmap {b : Nat} (hb : b < nb) (h1 : v.ptr g (.data i) ≠ 0) :
      v.ptr g (.data i) ≠ 2 + b / 32 / 1024 := by
    intro heq
    refine h.not_bitmap hg h1 ?_
    rw [heq]
    exact isBitmap_of_le (.inl hb)
  -- A field that is set, a pointer that is dropped, a block that is handed out and cleared.
  cases hc with
  | @field f y w hf hy hname =>
    have hs := h.shrinks_field hf hy hname
    have hsame := ((hs g hg).2.1 (.data i)).resolve_left h0
    refine .inl ⟨hsame, fun off => get_set_of_ne fun heq => ?_⟩
    have hblk : v.ptr g (.data i) = f.blk := congrArg Prod.fst heq
    exact hdir (h.dirs hg hf hblk).1
  | @drop f k hf hk hkp =>
    have hs := h.shrinks_free_clear hf hk hkp
    have hsame := ((hs g hg).2.1 (.data i)).resolve_left h0
    have h1 : v.ptr g (.data i) ≠ 0 := hsame ▸ h0
    refine .inl ⟨hsame, fun off => ?_⟩
    refine (get_set_pair_of_ne fun heq => ?_).trans (get_set_of_ne fun heq => ?_)
    · exact h.data_ne_loc hf hk hg hdir h1 (congrArg Prod.fst heq)
    · exact hbitmap (h.own f k hf hkp).2.1 h1 (congrArg Prod.fst heq)
  | @extend f k b hf hk hb =>
    have hb0 : b ≠ 0 := by
      have hmeta := h.spare_meta hb
      omega
    have hloc : (v.loc f k).1 ≠ b := by
      rcases loc_cases hk with ⟨x, -, -, hloc⟩ | ⟨i', -, -, -, hind, hloc⟩
      · rw [hloc]
        exact h.spare_blk hb hf
      · rw [hloc]
        exact h.spare_ptr hb hf hb0 (k := .indirect)
    rw [h.extend_eq hb hf] at h0 ⊢
    have hw : (BitVec.ofNat 32 b).toNat = b := Nat.mod_eq_of_lt (hb.lt.trans (lt_word hnb))
    rcases (h.alloc hb).link_ptr ((h.alloc_live hb).2 hf) (h.alloc_hasSlot hb hf hk) (h.fresh_alloc hb) hw
      ((h.alloc_live hb).2 hg) (.data i) with ⟨-, -, heq⟩ | heq | heq
    · right
      intro off
      rw [heq, get_setPtr_of_ne]
      · exact (h.fresh_alloc hb).zero off
      · rw [h.alloc_loc hb hf]
        exact fun h => hloc (congrArg Prod.fst h).symm
    · exact absurd heq h0
    · left
      rw [heq, h.alloc_ptr hb hg] at h0 ⊢
      refine ⟨rfl, fun off => ?_⟩
      rw [get_setPtr_of_ne]
      · refine agree_alloc hb.lt _ _ ?_
        rw [not_or]
        exact ⟨h.not_bitmap hg h0, h.spare_ptr hb hg hb0⟩
      · rw [h.alloc_loc hb hf]
        exact fun heq => h.data_ne_loc hf hk hg hdir h0 (congrArg Prod.fst heq)

/-! ### The open files -/

/-- One more file is open. -/
def With (O : FilePtr → Prop) (f : FilePtr) : FilePtr → Prop := fun g => O g ∨ g = f

theorem Live.mono {O' : FilePtr → Prop} (h : v.Live O' f) (hO : ∀ g, O' g → O g) : v.Live O f := by
  induction h with
  | root => exact .root
  | opened h => exact .opened (hO _ h)
  | entry _ hdir hi hj hname ih => exact .entry ih hdir hi hj hname

theorem Live.of_with (h : v.Live (With O f) g) (hf : v.Live O f) : v.Live O g := by
  induction h with
  | root => exact .root
  | opened h =>
    rcases h with h | rfl
    · exact .opened h
    · exact hf
  | entry _ hdir hi hj hname ih => exact .entry ih hdir hi hj hname

theorem Good.anti {O' : FilePtr → Prop} (h : Good nb M O v) (hO : ∀ g, O' g → O g) : Good nb M O' v where
  used := h.used
  own f k hf := h.own f k (hf.mono hO)
  inj f g k k' hf hg := h.inj f g k k' (hf.mono hO) (hg.mono hO)
  opened g hg := (h.opened g (hO g hg)).imp_right fun ⟨hM, hlt, hoff, hdir⟩ =>
    ⟨hM, hlt, hoff, fun f k hf => hdir f k (hf.mono hO)⟩

theorem Good.open (h : Good nb M O v) (hf : v.Live O f) (hM : M f.blk) : Good nb M (With O f) v where
  used := h.used
  own g k hg := h.own g k (hg.of_with hf)
  inj g g' k k' hg hg' := h.inj g g' k k' (hg.of_with hf) (hg'.of_with hf)
  opened g hg := by
    have hlive : v.Live O g := by
      rcases hg with hg | rfl
      · exact .opened hg
      · exact hf
    refine (h.place hlive).imp_right fun ⟨hlt, hoff⟩ => ⟨?_, hlt, hoff, fun g' k hg' heq => ?_⟩
    · rcases hg with hg | rfl
      · rcases h.opened g hg with rfl | ⟨hM', -⟩
        · have hlast := two_le_lastMeta nb
          have hroot : FilePtr.root.blk = 1 := rfl
          omega
        · exact hM'
      · exact hM
    · exact h.dirs (hg'.of_with hf) hlive heq

end View

end Mos
