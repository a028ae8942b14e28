import Mos.Fs.Remove

/-!
# A file that gets blocks (`file_get_block` of `fs/fs.c`)

A page that is in the cache may be handed out again, with what is in it.  That does no harm to a file that is no directory,
unless the block becomes its indirect block.
-/

namespace Mos

namespace View

variable {nb : Nat} {M : Nat → Prop} {O : FilePtr → Prop} {v u w : View} {f g : FilePtr} {k : FileSlot} {b i : Nat}

/-- From `v`, the file may have got blocks; what it had is as it was. -/
structure Grown (nb : Nat) (v : View) (f : FilePtr) (u : View) : Prop where
  field : ∀ x, x < 34 → u.get f.blk (f.off + x) = v.get f.blk (f.off + x)
  ptr : ∀ i, v.ptr f (.data i) ≠ 0 → u.ptr f (.data i) = v.ptr f (.data i)
  data : ∀ i, v.ptr f (.data i) ≠ 0 → ∀ off, u.get (v.ptr f (.data i)) off = v.get (v.ptr f (.data i)) off
  free : ∀ b, b < nb → u.IsFree b → v.IsFree b

theorem Grown.refl (nb : Nat) (v : View) (f : FilePtr) : Grown nb v f v :=
  ⟨fun _ _ => rfl, fun _ _ => rfl, fun _ _ _ => rfl, fun _ _ h => h⟩

theorem Grown.trans (h : Grown nb v f u) (h' : Grown nb u f w) : Grown nb v f w where
  field x hx := (h'.field x hx).trans (h.field x hx)
  ptr i h0 := (h'.ptr i (h.ptr i h0 ▸ h0)).trans (h.ptr i h0)
  data i h0 off := by
    have hptr := h.ptr i h0
    have hdata := h'.data i (hptr ▸ h0) off
    rw [hptr] at hdata
    exact hdata.trans (h.data i h0 off)
  free b hb hfree := h.free b hb (h'.free b hb hfree)

private theorem Grown.isDir (h : Grown nb v f u) : u.IsDir f ↔ v.IsDir f := by
  unfold IsDir
  rw [h.field 33 (by omega)]

theorem Grown.size (h : Grown nb v f u) : u.size f = v.size f := by
  unfold View.size
  rw [h.field 32 (by omega)]

/-- A block of a file that is no directory has nothing in it that the file system looks at. -/
private theorem Good.unused_data (h : Good nb M O v) (hf : v.Live O f) (hreg : ¬ v.IsDir f) (h0 : v.ptr f (.data i) ≠ 0) :
    Unused O v fun x => x = v.ptr f (.data i) := by
  refine ⟨fun g hg heq => ?_, fun g hg hind heq => ?_, fun g j hg hdir hj heq => ?_⟩
  · exact hreg (h.dirs hf hg heq.symm).1
  · have hslot := (h.inj g f .indirect (.data i) hg hf hind heq).2
    cases hslot
  · obtain ⟨rfl, -⟩ := h.inj g f (.data j) (.data i) hg hf hj heq
    exact hreg hdir

/-- Where the page of a block is clear, nothing needs to be cleared. -/
private theorem alloc_of_clear (hb : 2 < b) (h : ∀ off, v.get b off = 0) : v.alloc b = v.setUsed b := by
  have hblk : (v.setUsed b) b = fun _ => 0 := by
    funext i
    have hget := h i
    unfold get at hget
    rw [dif_pos i.isLt] at hget
    rw [← hget]
    exact congrFun (Function.update_of_ne (by omega) _ _) i
  unfold View.alloc clear
  rw [← hblk, Function.update_eq_self]

section

variable (h : Good nb M O v) (hnb : (v.get 1 1).toNat = nb) (hO : O f) (hk : v.HasSlot f k) (hb : b < nb)
  (hfree : v.IsFree b) (hblk : ∀ g, O g → g.blk ≠ b)

include h hb hfree hblk

/-- A free block may count as one that is not in the cache. -/
private theorem Good.spare_of_free : Good nb (fun x => M x ∧ x ≠ b) O v ∧ Spare nb (fun x => M x ∧ x ≠ b) v b := by
  refine ⟨⟨h.used, h.own, h.inj, fun g hO => ?_⟩, hb, hfree, fun hM => hM.2 rfl⟩
  exact (h.opened g hO).imp_right fun ⟨hM, hrest⟩ => ⟨⟨hM, hblk g hO⟩, hrest⟩

include hO hk

/-- What the file has stays as it is when a pointer is set that was 0. -/
private theorem Good.grown (hreg : ¬ v.IsDir f) (h0 : v.ptr f k = 0)
    (hag : Agree (fun x => x = b) ((v.alloc b).set (v.loc f k).1 (v.loc f k).2 (BitVec.ofNat 32 b)) u) :
    Grown nb v f u := by
  obtain ⟨h', hspare⟩ := h.spare_of_free hb hfree hblk
  have hmeta := h'.spare_meta hspare
  have hlive : v.Live O f := .opened hO
  -- a word outside the new block, the bitmap and the place of the pointer
  have hget {c off : Nat} (hc : ¬ IsBitmap nb c) (hcb : c ≠ b) (hloc : (c, off) ≠ v.loc f k) : u.get c off = v.get c off := by
    rw [hag c off hcb, get_set_pair_of_ne hloc]
    exact agree_alloc hb c off fun hS => hS.elim hc hcb
  have hfield (x : Nat) (hx : x < 64) (hloc : (f.blk, f.off + x) ≠ v.loc f k) :
      u.get f.blk (f.off + x) = v.get f.blk (f.off + x) :=
    hget (h.unused_bitmap.blk f hlive) (hblk f hO) hloc
  have hdata {i' : Nat} (hi' : v.ptr f (.data i') ≠ 0) (off : Nat) (hloc : (v.loc f k).1 ≠ v.ptr f (.data i')) :
      u.get (v.ptr f (.data i')) off = v.get (v.ptr f (.data i')) off := by
    refine hget (h.not_bitmap hlive hi') ?_ fun heq => hloc (congrArg Prod.fst heq).symm
    rintro rfl
    exact (h.own f _ hlive hi').2.2 hfree
  have hne {i' : Nat} (hi' : v.ptr f (.data i') ≠ 0) : (v.loc f k).1 ≠ v.ptr f (.data i') := by
    rcases loc_cases hk with ⟨x, -, -, hloc⟩ | ⟨i, -, -, -, hind, hloc⟩
    · rw [hloc]
      exact fun heq => hreg (h.dirs hlive hlive heq.symm).1
    · rw [hloc]
      intro heq
      have hsame := (h.inj f f .indirect (.data i') hlive hlive hind heq).2
      cases hsame
  refine ⟨fun x hx => hfield x (by omega) (h.struct_ne_loc hlive hk hlive (by omega) (.inr (.inl hx))), fun i' hi' => ?_,
    fun i' hi' off => hdata hi' off (hne hi'), fun c hc hfreec => ?_⟩
  · have hki : k ≠ .data i' := fun heq => hi' (heq ▸ h0)
    by_cases hd : i' < NDIRECT
    · have hword : u.get f.blk (f.off + 34 + i') = v.get f.blk (f.off + 34 + i') := by
        rw [Nat.add_assoc]
        refine hfield (34 + i') (by unfold NDIRECT at hd; omega) ?_
        unfold NDIRECT at hd
        cases k with
        | indirect =>
          intro heq
          have hoff : f.off + (34 + i') = f.off + 44 := congrArg Prod.snd heq
          omega
        | data i =>
          intro heq
          by_cases hi : i < NDIRECT
          · simp only [loc, if_pos hi] at heq
            have hoff : f.off + (34 + i') = f.off + 34 + i := congrArg Prod.snd heq
            refine hki ?_
            rw [show i = i' by omega]
          · simp only [loc, if_neg hi] at heq
            have hind : f.blk = v.ptr f .indirect := congrArg Prod.fst heq
            exact h.ind_ne_blk hlive hlive hind.symm
      simp only [View.ptr, if_pos hd, hword]
    · have hind : v.ptr f .indirect ≠ 0 := by
        intro hzero
        simp only [View.ptr] at hzero
        simp only [View.ptr, if_neg hd, if_pos hzero] at hi'
        exact hi' rfl
      obtain ⟨i, rfl⟩ : ∃ i, k = .data i := by
        cases k with
        | indirect => exact absurd h0 hind
        | data i => exact ⟨i, rfl⟩
      have hloc : ∀ off, off = f.off + 44 → (f.blk, off) ≠ v.loc f (.data i) := by
        rintro off rfl heq
        by_cases hi : i < NDIRECT
        · simp only [loc, if_pos hi] at heq
          have hoff : f.off + 44 = f.off + 34 + i := congrArg Prod.snd heq
          unfold NDIRECT at hi
          omega
        · simp only [loc, if_neg hi] at heq
          exact h.ind_ne_blk hlive hlive (congrArg Prod.fst heq).symm
      have hentry : (v.ptr f .indirect, i') ≠ v.loc f (.data i) := by
        intro heq
        by_cases hi : i < NDIRECT
        · simp only [loc, if_pos hi] at heq
          exact h.ind_ne_blk hlive hlive (congrArg Prod.fst heq)
        · simp only [loc, if_neg hi] at heq
          have hoff : i' = i := congrArg Prod.snd heq
          exact hki (by rw [hoff])
      have hindb : v.ptr f .indirect ≠ b := by
        rintro rfl
        exact (h.own f _ hlive hind).2.2 hfree
      have hword := hfield 44 (by omega) (hloc _ rfl)
      have hblock := hget (h.not_bitmap hlive hind) hindb hentry
      simp only [View.ptr] at hind hblock
      simp only [View.ptr, if_neg hd, hword, if_neg hind, hblock]
  · have hbit : IsBitmap nb (2 + c / 32 / 1024) := isBitmap_of_le (.inl hc)
    have hcb : 2 + c / 32 / 1024 ≠ b := by
      have hle := hbit.2
      omega
    have hloc : (2 + c / 32 / 1024, c / 32 % 1024) ≠ v.loc f k := by
      intro heq
      refine h.loc_not_bitmap hlive hk ?_
      rw [← heq]
      exact hbit
    unfold IsFree at hfreec
    rw [hag _ _ hcb, get_set_pair_of_ne hloc] at hfreec
    exact ((isFree_alloc hmeta (.inl hc)).1 hfreec).2

/-- The file gets the block, with whatever is in its page; the indirect block must be clear. -/
private theorem Good.given (hnb : (v.get 1 1).toNat = nb) (hreg : ¬ v.IsDir f)
    (hag : Agree (fun x => x = b) ((v.alloc b).set (v.loc f k).1 (v.loc f k).2 (BitVec.ofNat 32 b)) u)
    (hclear : k = .indirect → u = (v.alloc b).set (v.loc f k).1 (v.loc f k).2 (BitVec.ofNat 32 b)) :
    Good nb M O u ∧ (u.get 1 1).toNat = nb ∧ u.ptr f k = b ∧ b ≠ 0 := by
  obtain ⟨h', hspare⟩ := h.spare_of_free hb hfree hblk
  have hmeta := h'.spare_meta hspare
  have hlast := two_le_lastMeta nb
  have hlive : v.Live O f := .opened hO
  have hc : Change nb (fun x => M x ∧ x ≠ b) O v ((v.alloc b).set (v.loc f k).1 (v.loc f k).2 (BitVec.ofNat 32 b)) :=
    .extend hlive hk hspare
  have h0 := h'.change hnb hc
  have hw : (BitVec.ofNat 32 b).toNat = b := Nat.mod_eq_of_lt (hb.trans (lt_word hnb))
  have hself : ((v.alloc b).set (v.loc f k).1 (v.loc f k).2 (BitVec.ofNat 32 b)).ptr f k = b := by
    rw [h'.extend_eq hspare hlive,
      (h'.alloc hspare).setPtr_ptr_self (.opened hO) (h'.alloc_hasSlot hspare hlive hk), hw]
  have hsuper : (u.get 1 1).toNat = nb := by
    rw [hag 1 1 (by omega), hc.nblocks h', hnb]
  by_cases hki : k = .indirect
  · rw [← hclear hki] at h0 hself
    exact ⟨h0.mono fun _ hM => hM.1, hsuper, hself, by omega⟩
  have hne0 : ((v.alloc b).set (v.loc f k).1 (v.loc f k).2 (BitVec.ofNat 32 b)).ptr f k ≠ 0 := by
    rw [hself]
    omega
  obtain ⟨i, rfl⟩ : ∃ i, k = .data i := by
    cases k with
    | indirect => exact absurd rfl hki
    | data i => exact ⟨i, rfl⟩
  have hS : Unused O ((v.alloc b).set (v.loc f (.data i)).1 (v.loc f (.data i)).2 (BitVec.ofNat 32 b)) fun x => x = b := by
    have hdata := h0.unused_data (.opened hO) (fun hdir => hreg ((hc.isDir h' hlive).1 hdir)) hne0
    rwa [hself] at hdata
  have hptr := hS.ptr_eq hag (.opened hO) (k := .data i)
  exact ⟨(h0.agree_unused hS hag fun c hc hcb => by omega).mono fun _ hM => hM.1, hsuper, hptr.trans hself, by omega⟩

end

end View

/-- A file is no directory. -/
def Fs.Regular (f : FilePtr) : Fs.Extra := fun L _ v => L f → ¬ v.IsDir f

private theorem Fs.closed_regular {nb : Nat} (f : FilePtr) : Fs.Closed nb (Fs.Regular f) where
  mono h hL _ hf := h (hL f hf)
  change hgood hnb h hc hf hdir := by
    have hlive := hc.live hgood hnb hf
    exact h hlive ((hc.isDir hgood hlive).1 hdir)

/-- The file system is in order, and the file that is open is no directory and in a block that is in use. -/
structure Fs.Serves (nb : Nat) (f : FilePtr) (s : Fs) : Prop where
  ok : s.Ok nb (fun g => g = f) (Fs.Regular f)
  place : f.blk = 1 ∨ f.blk < nb ∧ ¬ s.view.IsFree f.blk

/-- The file may have got blocks. -/
structure Fs.Grew (nb : Nat) (f : FilePtr) (s t : Fs) : Prop where
  serves : t.Serves nb f
  grown : View.Grown nb s.view f t.view
  mapped : ∀ b, s.Mapped b → t.Mapped b

/-- If the file is to get an indirect block, the block for it has no page in the cache, or one that is clear. -/
def Fs.IndirectReady (s : Fs) (f : FilePtr) : Prop :=
  s.view.ptr f .indirect = 0 → ∀ b, FsProc.firstFree s.view = some b → s.Mapped b → ∀ off, s.view.get b off = 0

namespace Fs

open View

variable {nb : Nat} {f : FilePtr} {k : FileSlot} {s t u : Fs} {b : Nat}

theorem Serves.live (_ : s.Serves nb f) : s.view.Live (fun g => g = f) f := .opened rfl

private theorem Serves.used (hs : s.Serves nb f) : ¬ s.view.IsFree f.blk := by
  rcases hs.place with h1 | h
  · rw [h1]
    have hlast := two_le_lastMeta nb
    exact hs.ok.good.used 1 (by omega)
  · exact h.2

private theorem Serves.regular (hs : s.Serves nb f) : ¬ s.view.IsDir f := hs.ok.extra hs.live

theorem Serves.congr (hs : s.Serves nb f) (hview : t.view = s.view) (hmap : ∀ b, s.Mapped b → t.Mapped b) : t.Serves nb f :=
  ⟨hs.ok.congr (closed_regular f) hview hmap, hview ▸ hs.place⟩

private theorem Grew.refl (hs : s.Serves nb f) : Grew nb f s s := ⟨hs, .refl _ _ _, fun _ h => h⟩

private theorem Grew.trans (h : Grew nb f s t) (h' : Grew nb f t u) : Grew nb f s u :=
  ⟨h'.serves, h.grown.trans h'.grown, fun b hb => h'.mapped b (h.mapped b hb)⟩

private theorem steady_grew : FsProc.Steady (Grew nb f s) := fun _ _ h hview hmap =>
  ⟨h.serves.congr hview hmap, hview ▸ h.grown, fun b hb => hmap b (h.mapped b hb)⟩

end Fs

namespace FsProc

open Proc View

variable {nb : Nat} {f : FilePtr} {k : FileSlot} {i b : Nat} {s s₀ t u : Fs} {l l' : List FsLog} {ok : FsLog → Prop}

/-- `alloc_block`, and the pointer is written. -/
private theorem give_grew {r : Except Word Unit} (hs : s.Serves nb f) (hk : s.view.HasSlot f k) (h0 : s.view.ptr f k = 0)
    (hready : k = .indirect → s.IndirectReady f) (ha : allocBlock s = some (l, .ok b, u))
    (h : setIn f (s.view.loc f k).1 (s.view.loc f k).2 (BitVec.ofNat 32 b) u = some (l', r, t)) :
    r = .ok () ∧ Fs.Grew nb f s t ∧ t.view.ptr f k = b ∧ b ≠ 0 ∧ t.Mapped b := by
  obtain ⟨rfl, hview, hmap⟩ := setIn_view (p := s.view.loc f k) h
  rcases allocBlock_cases hs.ok.nblocks ha with ⟨e, he, -⟩ | ⟨b', m, hb', -, hfirst, hlt, hfree, hm, hmono, hcases⟩
  · cases he
  obtain rfl := Except.ok.inj hb'
  have hblk : ∀ g : FilePtr, g = f → g.blk ≠ b := by
    rintro g rfl rfl
    exact hs.used hfree
  have hlow : 2 < b := (List.mem_range'_1.1 (List.mem_of_find?_eq_some hfirst)).1
  have hoff := hs.ok.good.loc_lt hs.live hk
  have hag : Agree (fun x => x = b)
      ((s.view.alloc b).set (s.view.loc f k).1 (s.view.loc f k).2 (BitVec.ofNat 32 b)) t.view := by
    intro c off hc
    rcases hcases with ⟨-, -, hu⟩ | ⟨-, -, hu⟩
    · rw [hview, hu, get_set hoff, get_set hoff]
      unfold View.alloc
      rw [get_clear, if_neg hc]
    · rw [hview, hu]
  have hclear : k = .indirect → t.view = (s.view.alloc b).set (s.view.loc f k).1 (s.view.loc f k).2 (BitVec.ofNat 32 b) := by
    intro hki
    rcases hcases with ⟨-, hmapped, hu⟩ | ⟨-, -, hu⟩
    · rw [hview, hu, alloc_of_clear hlow (hready hki (hki ▸ h0) b hfirst hmapped)]
    · rw [hview, hu]
  have hmono' : ∀ c, s.Mapped c → t.Mapped c := fun c hc => (hmap c).2 (hmono c hc)
  have hgrown := hs.ok.good.grown rfl hk hlt hfree hblk hs.regular h0 hag
  obtain ⟨hgood, hsuper, hptr, hb0⟩ := hs.ok.good.given rfl hk hlt hfree hblk hs.ok.nblocks hs.regular hag hclear
  refine ⟨rfl, ⟨⟨⟨hsuper, fun c h1 hc => hmono' c (hs.ok.mapped c h1 hc), hgood.mono hmono', fun _ hdir => ?_⟩, ?_⟩,
    hgrown, hmono'⟩, hptr, hb0, (hmap b).2 hm⟩
  · exact hs.regular (hgrown.isDir.1 hdir)
  · exact hs.place.imp_right fun ⟨hlt', hused⟩ => ⟨hlt', fun hfree' => hused (hgrown.free _ hlt' hfree')⟩

private theorem indirectBlock_grew (hs : s₀.Serves nb f) (hready : s₀.IndirectReady f) :
    Spec ok (fun s => s = s₀) (indirectBlock f true) (Ends (fun b s => Fs.Grew nb f s₀ s ∧ s.view.ptr f .indirect = b ∧ b ≠ 0)
      fun _ => True) := by
  refine .bind (word_spec _ _) fun ind => ?_
  split
  case isTrue h0 =>
    rintro s l r t ⟨rfl, hind⟩ h _
    have hzero : s.view.ptr f .indirect = 0 := congrArg BitVec.toNat (hind.trans h0)
    rcases bind_some h with ⟨e, -, rfl⟩ | ⟨l₁, b, u, l₂, ha, hrest, -⟩
    · trivial
    rcases bind_some hrest with ⟨e, -, rfl⟩ | ⟨l₃, a, w, l₄, hset, hread, -⟩
    · trivial
    obtain ⟨-, hgrew, hptr, hb0, -⟩ := give_grew (k := .indirect) hs trivial hzero (fun _ => hready) ha hset
    have hspec : Spec (fun _ => True) (fun s' => Fs.Grew nb f s s' ∧ s'.view = w.view) (do
        readBlock b
        pure b) (Ends (fun b s' => (Fs.Grew nb f s s' ∧ s'.view = w.view) ∧ b = (w.view.ptr f .indirect))
          fun _ => True) := by
      have hsteady : Steady fun s' => Fs.Grew nb f s s' ∧ s'.view = w.view := fun s' t' hP hview hmap =>
        ⟨Fs.steady_grew s' t' hP.1 hview hmap, hview.trans hP.2⟩
      exact .bind (readBlock_spec hsteady b) fun _ => .pure fun s' hs' => ⟨hs'.1, hptr.symm⟩
    have hend := hspec w l₄ r t ⟨hgrew, rfl⟩ hread fun _ _ => trivial
    cases r with
    | error e => trivial
    | ok c =>
      obtain ⟨⟨hgrew', hview⟩, rfl⟩ := hend
      exact ⟨hgrew', by rw [hview], hptr ▸ hb0⟩
  case isFalse h0 =>
    have hsteady : Steady fun s => Fs.Grew nb f s₀ s ∧ s.view.get f.blk (f.off + 44) = ind := fun s t hP hview hmap =>
      ⟨Fs.steady_grew s t hP.1 hview hmap, hview ▸ hP.2⟩
    refine .bind ((readBlock_spec hsteady ind.toNat).pre fun s hs' => ?_) fun _ => .pure fun s hs' => ?_
    · obtain ⟨rfl, hind⟩ := hs'
      exact ⟨.refl hs, hind⟩
    · exact ⟨hs'.1.1, congrArg BitVec.toNat hs'.1.2, fun hzero => h0 (BitVec.eq_of_toNat_eq hzero)⟩

private theorem fileBlockWalk_grew (hs : s₀.Serves nb f) (hready : NDIRECT ≤ i → s₀.IndirectReady f) :
    Spec ok (fun s => s = s₀) (fileBlockWalk f i true)
      (Ends (fun p s => Fs.Grew nb f s₀ s ∧ SlotAt f (.data i) p s.view) fun _ => True) := by
  unfold fileBlockWalk
  split
  case isTrue hd =>
    refine .pure fun s hs' => ?_
    obtain rfl := hs'
    refine ⟨.refl hs, ⟨?_, fun h => by omega⟩, ?_⟩
    · unfold NDIRECT at hd
      unfold NINDIRECT
      omega
    · simp only [View.loc, if_pos hd]
  case isFalse hd =>
  split
  case isFalse => exact .fail fun _ _ => trivial
  case isTrue hi =>
  refine .bind (indirectBlock_grew hs (hready (Nat.le_of_not_lt hd))) fun b => .pure fun s hs' => ?_
  obtain ⟨hgrew, hind, hb⟩ := hs'
  refine ⟨hgrew, ⟨hi, fun _ => hind ▸ hb⟩, ?_⟩
  simp only [View.loc, if_neg hd]
  rw [← hind]
  rfl

private theorem fileMapBlock_grew (hs : s₀.Serves nb f) (hready : NDIRECT ≤ i → s₀.IndirectReady f) :
    Spec ok (fun s => s = s₀) (fileMapBlock f i true)
      (Ends (fun b s => Fs.Grew nb f s₀ s ∧ s.view.ptr f (.data i) = b ∧ b ≠ 0) fun _ => True) := by
  refine .bind (fileBlockWalk_grew hs hready) fun p => .bind (word_spec _ _) fun w => ?_
  split
  case isTrue h0 =>
    rintro s l r t ⟨⟨hgrew, hk, rfl⟩, hw⟩ h _
    have hzero : s.view.ptr f (.data i) = 0 := by
      rw [ptr_eq_get hk, hw, h0]
      rfl
    rcases bind_some h with ⟨e, -, rfl⟩ | ⟨l₁, b, u, l₂, ha, hrest, -⟩
    · trivial
    rcases bind_some hrest with ⟨e, -, rfl⟩ | ⟨l₃, a, t', l₄, hset, hpure, -⟩
    · trivial
    cases hpure
    obtain ⟨-, hgrew', hptr, hb0, -⟩ := give_grew (k := .data i) hgrew.serves hk hzero nofun ha hset
    exact ⟨hgrew.trans hgrew', hptr, hb0⟩
  case isFalse h0 =>
    refine .pure fun s hs' => ?_
    obtain ⟨⟨hgrew, hk, rfl⟩, hw⟩ := hs'
    refine ⟨hgrew, ?_, fun hzero => h0 (BitVec.eq_of_toNat_eq hzero)⟩
    rw [ptr_eq_get hk, hw]

/-- What `file_get_block` does to a file that is no directory. -/
theorem fileGetBlock_grew (hs : s₀.Serves nb f) (hready : NDIRECT ≤ i → s₀.IndirectReady f)
    (h : fileGetBlock f i s₀ = some (l, .ok b, t)) :
    Fs.Grew nb f s₀ t ∧ t.view.ptr f (.data i) = b ∧ b ≠ 0 ∧ t.Mapped b := by
  have hspec : Spec (fun _ => True) (fun s => s = s₀) (fileGetBlock f i)
      (Ends (fun b s => (Fs.Grew nb f s₀ s ∧ s.view.ptr f (.data i) = b ∧ b ≠ 0) ∧ s.Mapped b) fun _ => True) := by
    refine .bind (fileMapBlock_grew hs hready) fun b => ?_
    have hsteady : Steady fun s => Fs.Grew nb f s₀ s ∧ s.view.ptr f (.data i) = b ∧ b ≠ 0 := fun s t hP hview hmap =>
      ⟨Fs.steady_grew s t hP.1 hview hmap, hview ▸ hP.2⟩
    exact .bind (readBlock_spec hsteady b) fun _ => .pure fun _ hs' => hs'
  have hend := hspec s₀ l _ t rfl h fun _ _ => trivial
  exact ⟨hend.1.1, hend.1.2.1, hend.1.2.2, hend.2⟩

end FsProc

/-! ### A word in a block of the file -/

namespace Fs

open View

variable {nb i off : Nat} {f : FilePtr} {s t : Fs} {w : Word}

/-- The page of a block of the file is written to. -/
theorem Serves.setWord (hs : s.Serves nb f) (h0 : s.view.ptr f (.data i) ≠ 0)
    (h : s.setWord? (s.view.ptr f (.data i)) off w = some t) :
    t.Serves nb f ∧ t.view = s.view.set (s.view.ptr f (.data i)) off w ∧ (∀ k, t.view.ptr f k = s.view.ptr f k) ∧
      t.view.size f = s.view.size f ∧ ∀ b, t.Mapped b ↔ s.Mapped b := by
  obtain ⟨hview, hmap⟩ := setWord?_view h
  have hS := hs.ok.good.unused_data hs.live hs.regular h0
  have hag : Agree (fun x => x = s.view.ptr f (.data i)) s.view t.view := by
    rw [hview]
    exact agree_set rfl
  have hown := hs.ok.good.own f (.data i) hs.live h0
  have hmeta (c : Nat) (hc : c ≤ lastMeta nb) : ¬ c = s.view.ptr f (.data i) := by omega
  have hfield (x : Nat) : t.view.get f.blk x = s.view.get f.blk x := hag _ _ (hS.blk f hs.live)
  refine ⟨⟨⟨?_, fun b h1 hb => (hmap b).2 (hs.ok.mapped b h1 hb), ?_, fun _ hdir => hs.regular ?_⟩, ?_⟩, hview,
    fun k => hS.ptr_eq hag hs.live, ?_, hmap⟩
  · have hlast := two_le_lastMeta nb
    rw [hag 1 1 (hmeta 1 (by omega))]
    exact hs.ok.nblocks
  · exact (hs.ok.good.agree_unused hS hag hmeta).mono fun b hb => (hmap b).2 hb
  · exact (hS.isDir_iff hag hs.live).1 hdir
  · refine hs.place.imp_right fun ⟨hlt, hused⟩ => ⟨hlt, ?_⟩
    unfold IsFree
    rw [hag _ _ (hmeta _ (bitmap_le (.inl hlt)))]
    exact hused
  · unfold View.size
    rw [hfield]

/-! ### Another size -/

/-- The file has another size; the blocks that it needs for that are as they were. -/
structure Resized (nb : Nat) (f : FilePtr) (newsize : Word) (s t : Fs) : Prop where
  serves : t.Serves nb f
  size : t.view.size f = newsize.toNat
  ptr : ∀ i, i < blocksFor newsize → t.view.ptr f (.data i) = s.view.ptr f (.data i)
  data : ∀ i, s.view.ptr f (.data i) ≠ 0 → ∀ off,
    t.view.get (s.view.ptr f (.data i)) off = s.view.get (s.view.ptr f (.data i)) off
  mapped : ∀ b, s.Mapped b → t.Mapped b

/-- The file is no directory, and what was in the cache still is. -/
def StillThere (s : Fs) (f : FilePtr) : Extra := fun L M v => Regular f L M v ∧ ∀ b, s.Mapped b → M b

private theorem closed_stillThere (s : Fs) (f : FilePtr) : Closed nb (s.StillThere f) where
  mono h hL hM := ⟨(show Closed nb (Regular f) from closed_regular f).mono h.1 hL hM, fun b hb => hM b (h.2 b hb)⟩
  change hgood hnb h hc := ⟨(closed_regular f).change hgood hnb h.1 hc, h.2⟩

/-- What is left of a file that is no directory. -/
private theorem Resized.of_cut {D : Nat → Prop} {I : Prop} {newsize : Word} (hs : s.Serves nb f)
    (hok : t.Ok nb (fun g => g = f) (s.StillThere f)) (hcut : Cut nb s.view f D I t.view)
    (hsize : t.view.size f = newsize.toNat) (hD : ∀ i, i < blocksFor newsize → ¬ D i)
    (hI : I → blocksFor newsize ≤ NDIRECT) : Resized nb f newsize s t where
  serves := by
    refine ⟨hok.imp fun h => h.1, hs.place.imp_right fun ⟨hlt, hused⟩ => ⟨hlt, fun hfree => ?_⟩⟩
    -- no block of the file is the one that the file itself is in
    rcases (hcut.free _ hlt).1 hfree with hfree | ⟨hb0, ⟨i, -, heq⟩ | ⟨-, heq⟩⟩
    · exact hused hfree
    · exact hs.regular (hs.ok.good.dirs hs.live hs.live heq).1
    · exact (hs.ok.good.dirs hs.live hs.live heq).2 rfl
  size := hsize
  ptr i hi := hcut.same i (hD i hi) fun h => Nat.lt_of_lt_of_le hi (hI h)
  data i h0 off := by
    refine hcut.frame _ _ (hs.ok.good.not_bitmap hs.live h0) ?_
    rintro (⟨hblk, -⟩ | ⟨hind, heq⟩)
    · exact hs.regular (hs.ok.good.dirs hs.live hs.live hblk).1
    · have hslot := (hs.ok.good.inj f f (.data i) .indirect hs.live hs.live h0 heq).2
      cases hslot
  mapped := hok.extra.2

end Fs

/-- What `file_set_size` does to a file that is no directory. -/
theorem FsProc.fileSetSize_resized {nb : Nat} {f : FilePtr} {s t : Fs} {newsize : Word} {l : List FsLog}
    {r : Except Word Unit} (hs : s.Serves nb f) (h : FsProc.fileSetSize f newsize s = some (l, r, t)) :
    Fs.Resized nb f newsize s t := by
  have hX : Fs.Closed nb (s.StillThere f) := Fs.closed_stillThere s f
  have hok : s.Ok nb (fun g => g = f) (s.StillThere f) := hs.ok.imp fun h => ⟨h, fun _ hb => hb⟩
  by_cases hlt : newsize.toNat < s.view.size f
  · have hspec : Proc.Spec (fun _ => True) (fun u => u.Ok nb (fun g => g = f) (s.StillThere f) ∧ u.view = s.view)
        (FsProc.fileSetSize f newsize) _ := FsProc.fileSetSize_cut (O := fun g => g = f) hX rfl hlt
    have hend := hspec s l r t ⟨hok, rfl⟩ h fun _ _ => trivial
    cases r with
    | error e => exact hend.elim
    | ok a =>
      obtain ⟨hok', hcut, hsize⟩ := hend
      refine .of_cut hs hok' hcut hsize (fun i hi hcutoff => ?_) fun hI => ?_
      · rcases View.newNblocks_cases newsize with heq | ⟨-, -, hn, hn'⟩
        · omega
        · omega
      · rcases View.newNblocks_cases newsize with heq | ⟨-, -, hn, hn'⟩
        · omega
        · omega
  · have hspec : Proc.Spec (fun _ => True) (fun u => u.Ok nb (fun g => g = f) (s.StillThere f) ∧ u.view = s.view)
        (FsProc.fileSetSize f newsize) _ := FsProc.fileSetSize_keep (O := fun g => g = f) hX rfl hlt
    have hend := hspec s l r t ⟨hok, rfl⟩ h fun _ _ => trivial
    cases r with
    | error e => exact hend.elim
    | ok a => exact .of_cut hs hend.1 hend.2.1 hend.2.2 (fun _ _ => nofun) nofun

/-! ### The file that `walk_path` gets to -/

namespace FsProc

open Proc View

variable {nb : Nat} {O : FilePtr → Prop} {X : Fs.Extra} {f g dir : FilePtr} {name : List Byte}

/-- The block that the file is in is in use. -/
def Placed (nb : Nat) (s : Fs) (g : FilePtr) : Prop := g.blk = 1 ∨ g.blk < nb ∧ ¬ s.view.IsFree g.blk

section Walk

variable (hX : Fs.Closed nb X)

include hX

private theorem lookupIn_placed (hname : IsName name) : ∀ is : List Nat,
    Spec NotStale (Fs.Ok nb (With O dir) (DirToo X dir)) (lookupIn dir name is)
      (Ends (fun g s => Placed nb s g) fun _ => True)
  | [] => .fail fun _ _ => trivial
  | i :: is => by
    have hX' := closed_dirToo hX dir
    refine .bind ((fileGetBlock_spec hX' (.inr rfl) i).err fun _ _ => trivial) fun b =>
      .bind (findName_spec b hname) fun found => ?_
    cases found with
    | none => exact (lookupIn_placed hname is).pre fun s hs => hs.1.1
    | some g =>
      refine .bind (R := fun _ s => Placed nb s g) ?_ fun _ => .pure fun _ hs => hs
      rintro s l r t ⟨⟨hok, ⟨hptr, hb⟩, -⟩, hfound⟩ hset -
      obtain ⟨j, -, rfl, -⟩ := hfound g rfl
      obtain ⟨rfl, hview, -⟩ := setIn_view (p := (b, 64 * j + 45)) hset
      -- the block belongs to the directory, and its word in the bitmap is elsewhere
      obtain ⟨hlast, hlt, hused⟩ := hok.good.own dir (.data i) (.opened (.inr rfl)) (hptr ▸ hb)
      rw [hptr] at hlast hlt hused
      refine .inr ⟨hlt, fun hfree => hused ?_⟩
      have hbit : 2 + b / 32 / 1024 ≤ lastMeta nb := View.bitmap_le (.inl hlt)
      have hget : t.view.get (2 + b / 32 / 1024) (b / 32 % 1024) = s.view.get (2 + b / 32 / 1024) (b / 32 % 1024) := by
        rw [hview]
        exact View.get_set_of_ne fun heq => absurd (congrArg Prod.fst heq) (by dsimp only; omega)
      unfold View.IsFree at hfree ⊢
      rwa [← hget]

private theorem walkStep_placed (hname : IsName name) :
    Spec NotStale (Fs.Ok nb (With O f) X) (walkStep f name) (Ends (fun g s => Placed nb s g) fun _ => True) := by
  unfold walkStep
  split
  · exact .fail fun _ _ => trivial
  · refine .bind (word_spec _ _) fun w => ?_
    split
    · exact .fail fun _ _ => trivial
    · next hdir =>
      refine .bind (R := fun _ s => s.Ok nb (With O f) (DirToo X f)) ((word_spec _ _).post fun _ s hs => ?_) fun size => ?_
      · exact hs.1.1.imp fun h => ⟨h, fun _ => hs.1.2.trans (not_not.1 hdir)⟩
      · exact lookupIn_placed hX hname _

private theorem walkFrom_placed : ∀ {names : List (List Byte)} {f : FilePtr}, (∀ name ∈ names, IsName name) →
    Spec NotStale (fun s => s.Ok nb (With O f) X ∧ Placed nb s f) (walkFrom f names)
      (Ends (fun g s => Placed nb s g) fun _ => True)
  | [], _, _ => .pure fun _ hs => hs.2
  | name :: names, f, hnames => by
    have hname := hnames name List.mem_cons_self
    refine .bind (R := fun g s => s.Ok nb (With O g) X ∧ Placed nb s g) ?_ fun g =>
      walkFrom_placed fun name' hname' => hnames name' (List.mem_cons_of_mem _ hname')
    intro s l r t hs h hl
    have hok := walkStep_spec hX hname s l r t hs.1 h hl
    have hplaced := walkStep_placed hX hname s l r t hs.1 h hl
    cases r with
    | ok g => exact ⟨hok, hplaced⟩
    | error e => trivial

private theorem walkPath_placed (path : List Byte) :
    Spec NotStale (Fs.Ok nb O X) (walkPath path) (Ends (fun g s => Placed nb s g) fun _ => True) := by
  refine .pre (walkFrom_placed (O := O) hX fun name hname => isName_of_mem hname) fun s hs => ⟨?_, .inl rfl⟩
  have hlast := View.two_le_lastMeta nb
  exact hs.open hX .root (hs.mapped 1 (by omega) (by omega))

end Walk

/-- The file that is found is in order, and so is the place where it is. -/
theorem walkPath_serves {s t : Fs} {path : List Byte} {l : List FsLog} (hs : s.Ok nb O Fs.Plain)
    (h : walkPath path s = some (l, .ok f, t)) (hl : ∀ o ∈ l, NotStale o) (hreg : ¬ t.view.IsDir f) : t.Serves nb f where
  ok := ((walkPath_spec Fs.closed_plain path s l _ t hs h hl).anti Fs.closed_plain fun _ hg => .inr hg).imp
    fun _ _ => hreg
  place := walkPath_placed Fs.closed_plain path s l _ t hs h hl

end FsProc

end Mos
