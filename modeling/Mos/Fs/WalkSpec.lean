import Mos.Fs.Lookup
import Mathlib.Data.Finset.Card
import Mathlib.Data.Finset.Range

/-!
# Path resolution (`walk_path`, `dir_lookup` and `file_get_block` of `fs/fs.c`)

In a tree whose directories have all their blocks, `walk_path` finds what the path leads to and only sets `f_dir` on its
way.  It stops for lack of memory only.
-/

namespace Mos

open View (Live Redirs)

/-- There is memory for every block that is not in the cache yet, and the cache has room for the disk. -/
def Fs.Room (s : Fs) : Prop := (s.view.get 1 1).toNat ≤ DISKMAX / BY2BLK ∧
  ((Finset.range (s.view.get 1 1).toNat).filter fun b => s.cache b = none).card ≤ s.mem

namespace FsProc

open Proc

variable {α : Type} {nb : Nat} {O : FilePtr → Prop} {X : Fs.Extra} {s t : Fs} {l : List FsLog} {v : View}
  {d f g : FilePtr} {name : List Byte} {i : Nat}

/-- An execution that ends for sure if there is memory. -/
abbrev Ends? (s : Fs) (x : FsProc α) (Q : Except Word α → Fs → Prop) : Prop := Runs Fs.Room s x Q

/-- The state after looking at it: in order, with the same blocks and maybe more of them in the cache. -/
structure Seen (nb : Nat) (O : FilePtr → Prop) (X : Fs.Extra) (s t : Fs) : Prop where
  ok : t.Ok nb O X
  view : t.view = s.view
  mapped : ∀ b, s.Mapped b → t.Mapped b

theorem Seen.refl (hs : s.Ok nb O X) : Seen nb O X s s := ⟨hs, rfl, fun _ h => h⟩

theorem Seen.trans {u : Fs} (h : Seen nb O X s t) (h' : Seen nb O X t u) : Seen nb O X s u :=
  ⟨h'.ok, h'.view.trans h.view, fun b hb => h'.mapped b (h.mapped b hb)⟩

private theorem word_runs {b off : Nat} (hb : s.Mapped b) (hoff : off < 1024) :
    Ends? s (word b off) fun r t => r = .ok (s.view.get b off) ∧ t = s := by
  refine .read (fun w hw => ⟨congrArg _ (Fs.word?_view hw).symm, rfl⟩) fun _ => ?_
  obtain ⟨pg, hpg⟩ := Option.isSome_iff_exists.1 hb
  exact ⟨pg.data ⟨off, hoff⟩, by unfold Fs.word?; rw [hpg, Option.bind_some, dif_pos hoff]⟩

/-- A load takes one page, for a block that was not in the cache. -/
private theorem room_load {b : Nat} (hlt : b < (s.view.get 1 1).toNat) (hb : s.cache b = none) :
    (∀ t, s.memAlloc b (s.disk b) = some t → s.Room → t.Room) ∧ (s.Room → ∃ t, s.memAlloc b (s.disk b) = some t) := by
  have hin : b ∈ (Finset.range (s.view.get 1 1).toNat).filter fun b => s.cache b = none :=
    Finset.mem_filter.2 ⟨Finset.mem_range.2 hlt, hb⟩
  have hpos := Finset.card_pos.2 ⟨b, hin⟩
  refine ⟨fun t h hroom => ?_, fun hroom => ?_⟩
  · obtain ⟨hview, -⟩ := loadBlock_view hb h
    unfold Fs.memAlloc at h
    split at h
    case isTrue => cases h
    case isFalse hmem =>
    cases h
    refine ⟨by rw [hview]; exact hroom.1, ?_⟩
    have hsub : ((Finset.range (s.view.get 1 1).toNat).filter fun b' =>
        (Function.update s.cache b (some ⟨s.disk b, false⟩)) b' = none) ⊆
          ((Finset.range (s.view.get 1 1).toNat).filter fun b => s.cache b = none).erase b := by
      intro b' hb'
      obtain ⟨hrange, hnone⟩ := Finset.mem_filter.1 hb'
      have hne : b' ≠ b := by
        rintro rfl
        rw [Function.update_self] at hnone
        cases hnone
      rw [Function.update_of_ne hne] at hnone
      exact Finset.mem_erase.2 ⟨hne, Finset.mem_filter.2 ⟨hrange, hnone⟩⟩
    have hcard := Finset.card_le_card hsub
    rw [Finset.card_erase_of_mem hin] at hcard
    rw [hview]
    have hle := hroom.2
    refine Nat.le_trans hcard ?_
    show _ ≤ s.mem - 1
    omega
  · have hmem : s.mem ≠ 0 := by
      have hle := hroom.2
      omega
    exact ⟨_, by unfold Fs.memAlloc; rw [if_neg hmem]⟩

private theorem bitmap_mapped {b : Nat} (hs : s.Ok nb O X) (hb : b < nb) : s.Mapped (2 + b / 32 / 1024) :=
  hs.mapped _ (by omega) (View.bitmap_le (.inl hb))

private theorem nblocks_runs (hs : s.Ok nb O X) : Ends? s nblocks fun r t => r = .ok nb ∧ t = s := by
  have hlast := View.two_le_lastMeta nb
  refine (word_runs (hs.mapped 1 (by omega) (by omega)) (by omega)).bind_value fun t ht => ?_
  exact .pure ⟨congrArg _ hs.nblocks, ht⟩

/-- A pointer that is not 0 is there. -/
private theorem hasSlot_of_ptr (h0 : v.ptr f (.data i) ≠ 0) : v.HasSlot f (.data i) := by
  constructor
  · by_contra hge
    have hd : ¬ i < NDIRECT := by
      unfold NINDIRECT at hge
      unfold NDIRECT
      omega
    have hget : v.get (v.get f.blk (f.off + 44)).toNat i = 0 := View.get_of_le (by unfold NINDIRECT at hge; omega)
    simp only [View.ptr, if_neg hd, hget] at h0
    split at h0
    · exact h0 rfl
    · exact h0 rfl
  · intro hd hzero
    simp only [View.ptr] at hzero
    simp only [View.ptr, if_neg (Nat.not_lt.2 hd), if_pos hzero] at h0
    exact h0 rfl

section

variable (hX : Fs.Closed nb X) (hs : s.Ok nb O X)

include hX hs

/-- A block that is in use is loaded. -/
private theorem readBlock_runs {b : Nat} (hb : b < nb) (hused : ¬ s.view.IsFree b) :
    Ends? s (readBlock b) fun r t => r = .ok () ∧ Seen nb O X s t ∧ t.Mapped b := by
  refine (nblocks_runs hs).bind_value ?_
  rintro _ rfl
  rw [if_neg (by omega)]
  rename_i s
  have hfree : Ends? s (blockIsFree b) fun r t => r = .ok false ∧ t = s := by
    refine (nblocks_runs hs).bind_value ?_
    rintro _ rfl
    rw [if_neg (by omega)]
    refine (word_runs (bitmap_mapped hs hb) (Nat.mod_lt _ (by decide))).bind_value fun t ht => ?_
    refine .pure ⟨congrArg _ ?_, ht⟩
    simpa [View.IsFree] using hused
  refine hfree.bind_value ?_
  rintro _ rfl
  rename_i s
  rw [if_neg (by decide)]
  refine Runs.bind (Q := fun r t => (r = .ok true ∧ s.Mapped b ∨ r = .ok false ∧ s.cache b = none) ∧ t = s)
    (.read (fun m hm => ⟨?_, rfl⟩) fun hroom => ?_) (fun m t ht => ?_) fun e t ht => ?_
  · cases m with
    | true =>
      unfold Fs.isMapped? at hm
      split at hm
      · exact .inl ⟨rfl, Option.some.inj hm⟩
      · cases hm
    | false => exact .inr ⟨rfl, isMapped?_none hm⟩
  · have hlt : b < DISKMAX / BY2BLK := by
      have hfits := hroom.1
      rw [hs.nblocks] at hfits
      omega
    exact ⟨_, by unfold Fs.isMapped?; rw [if_pos hlt]⟩
  · obtain ⟨⟨hm, hmap⟩ | ⟨hm, hnone⟩, rfl⟩ := ht
    · cases hm
      exact .pure ⟨rfl, .refl hs, hmap⟩
    · cases hm
      rw [if_neg (by decide)]
      have hload := room_load (by rw [hs.nblocks]; exact hb) hnone
      refine .update (fun u hu => ⟨?_, hload.1 u hu⟩) hload.2
      obtain ⟨hview, hmono⟩ := loadBlock_view hnone hu
      exact ⟨rfl, ⟨hs.congr hX hview hmono, hview, hmono⟩, ((Fs.memAlloc_view hu).2 b).2 (.inl rfl)⟩
  · rcases ht.1 with ⟨h, -⟩ | ⟨h, -⟩
    · cases h
    · cases h

variable (hf : s.view.Live O f) (hmap : s.Mapped f.blk)

include hf hmap

omit hX in
theorem struct_runs {x : Nat} (hx : x < 64) :
    Ends? s (word f.blk (f.off + x)) fun r t => r = .ok (s.view.get f.blk (f.off + x)) ∧ t = s :=
  word_runs hmap (by have hoff := hs.good.off_lt hf; omega)

/-- The place of a pointer that is not 0. -/
private theorem fileBlockWalk_runs (alloc : Bool) (h0 : s.view.ptr f (.data i) ≠ 0) :
    Ends? s (fileBlockWalk f i alloc) fun r t => r = .ok (s.view.loc f (.data i)) ∧ Seen nb O X s t ∧
      t.Mapped (s.view.loc f (.data i)).1 ∧ (s.view.loc f (.data i)).2 < 1024 := by
  have hoff := hs.good.off_lt hf
  unfold fileBlockWalk
  by_cases hd : i < NDIRECT
  · simp only [View.loc, if_pos hd]
    refine .pure ⟨rfl, .refl hs, hmap, ?_⟩
    unfold NDIRECT at hd
    omega
  have hslot := hasSlot_of_ptr h0
  have hi := hslot.1
  have hind := hslot.2 (by omega)
  have hw0 : s.view.get f.blk (f.off + 44) ≠ 0 := fun hw => hind (congrArg BitVec.toNat hw)
  have hown := hs.good.own f .indirect hf hind
  simp only [View.loc, if_neg hd, if_pos hi]
  refine Runs.bind_value (a := s.view.ptr f .indirect) (P := fun t => Seen nb O X s t ∧ t.Mapped (s.view.ptr f .indirect))
    ?_ fun t ht => .pure ⟨rfl, ht.1, ht.2, hi⟩
  refine (struct_runs hs hf hmap (x := 44) (by omega)).bind_value ?_
  rintro _ rfl
  rw [if_neg hw0]
  exact (readBlock_runs hX hs hown.2.1 hown.2.2).bind_value fun t ht => .pure ⟨rfl, ht⟩

/-- A block that a file has. -/
theorem fileGetBlock_runs (h0 : s.view.ptr f (.data i) ≠ 0) :
    Ends? s (fileGetBlock f i) fun r t => r = .ok (s.view.ptr f (.data i)) ∧ Seen nb O X s t ∧
      t.Mapped (s.view.ptr f (.data i)) := by
  have hown := hs.good.own f _ hf h0
  refine Runs.bind_value (a := s.view.ptr f (.data i)) (P := Seen nb O X s) ?_ fun t ht => ?_
  · refine (fileBlockWalk_runs hX hs hf hmap true h0).bind_value fun t ht => ?_
    obtain ⟨hseen, hm, hlt⟩ := ht
    refine (word_runs hm hlt).bind_value ?_
    rintro _ rfl
    have hslot : s.view.ptr f (.data i) = (s.view.get (s.view.loc f (.data i)).1 (s.view.loc f (.data i)).2).toNat :=
      ptr_eq_get (hasSlot_of_ptr h0)
    rw [hseen.view, if_neg fun hw => h0 (hslot.trans (congrArg BitVec.toNat hw)), ← hslot]
    exact .pure ⟨rfl, hseen⟩
  · have hused : ¬ t.view.IsFree (s.view.ptr f (.data i)) := by
      rw [ht.view]
      exact hown.2.2
    exact (readBlock_runs hX ht.ok hown.2.1 hused).bind_value fun u hu => .pure ⟨rfl, ht.trans hu.1, hu.2⟩

end

/-! ### Looking up a name -/

/-- A component of a path that fits in the buffer. -/
structure Fits (name : List Byte) : Prop where
  nonempty : name ≠ []
  nul : 0 ∉ name
  length : name.length < MAXNAMELEN

private theorem findName_runs {b : Nat} (hb : s.Mapped b) (hname : Fits name) : Ends? s (findName b name) fun r t =>
    r = .ok (((List.range FILE2BLK).map (FilePtr.entry b)).find? fun g => s.view.fname g = name) ∧ t = s := by
  refine .read (fun r hr => ⟨?_, rfl⟩) fun _ => ?_
  · obtain ⟨pg, hpg, rfl⟩ := Option.map_eq_some_iff.1 hr
    rw [List.find?_map, ← Fs.view_of_cache hpg]
    congr 2
    refine List.find?_congr fun j hj => ?_
    rw [Bool.eq_iff_iff, View.nameIs_iff (List.mem_range.1 hj) hname.nul hname.length]
    simp
  · obtain ⟨pg, hpg⟩ := Option.isSome_iff_exists.1 hb
    exact ⟨_, by rw [hpg]; rfl⟩

section

variable (hX : Fs.Closed nb X) (hs : s.Ok nb O X)

include hX hs

/-- `f_dir` is set. -/
private theorem setFDir_runs {w : Word} (hg : s.view.Live O g) (hmap : s.Mapped g.blk) : Ends? s (setFDir g w) fun r t =>
    r = .ok () ∧ t.Ok nb O X ∧ t.view = s.view.set g.blk (g.off + 45) w ∧ ∀ b, s.Mapped b → t.Mapped b := by
  have hoff := hs.good.off_lt hg
  have hlt : g.off + 45 < 1024 := by omega
  obtain ⟨pg, hpg⟩ := Option.isSome_iff_exists.1 hmap
  refine ⟨fun l r t h => ?_, fun l r t h hroom => ?_, fun _ => ?_⟩
  · obtain ⟨rfl, hview, hm⟩ := setIn_view (p := (g.blk, g.off + 45)) h
    refine ⟨rfl, hs.change hX ?_ fun b hb => (hm b).2 hb, hview, fun b hb => (hm b).2 hb⟩
    rw [hview]
    exact .field hg (.inr (by decide)) fun h => absurd h (by decide)
  · obtain ⟨l₁, a, u, l₂, hx, hset, rfl⟩ := bind_ok h nofun
    cases hx
    obtain ⟨u, hu, hset⟩ := Option.map_eq_some_iff.1 hset
    cases hset
    obtain ⟨hview, hm⟩ := Fs.setWord?_view hu
    have hsuper : t.view.get 1 1 = s.view.get 1 1 := by
      rw [hview]
      refine View.get_set_of_ne fun heq => ?_
      have hone : 1 = g.off + 45 := congrArg Prod.snd heq
      omega
    have hmem : t.mem = s.mem := by
      obtain ⟨pg, -, hu⟩ := Option.bind_eq_some_iff.1 hu
      rw [dif_pos hlt] at hu
      cases hu
      rfl
    have hnone : ∀ b, t.cache b = none ↔ s.cache b = none := by
      intro b
      rw [← Option.not_isSome_iff_eq_none, ← Option.not_isSome_iff_eq_none]
      exact not_congr (hm b)
    unfold Fs.Room
    simp only [hsuper, hmem, hnone]
    exact hroom
  · have hlog : (Proc.write (.touch g g.blk (g.off + 45)) : FsProc Unit) s =
        some ([.touch g g.blk (g.off + 45)], .ok (), s) := rfl
    refine ⟨_, .ok (), s.setPage g.blk { pg with data := Function.update pg.data ⟨g.off + 45, hlt⟩ w },
      bind_of_ok hlog (?_ : _ = some ([], _, _))⟩
    unfold FsProc.setWord Proc.update Fs.setWord?
    dsimp only
    rw [hpg, Option.bind_some, dif_pos hlt]
    rfl

/-- What a lookup in some blocks ends with. -/
def Looked (nb : Nat) (O : FilePtr → Prop) (X : Fs.Extra) (s : Fs) (d : FilePtr) (r : Except Word FilePtr) (t : Fs) :
    Option FilePtr → Prop
  | some g => r = .ok g ∧ t.Ok nb O X ∧ s.view.Live O g ∧ t.view = s.view.set g.blk (g.off + 45) d.addr ∧
      (∀ b, s.Mapped b → t.Mapped b) ∧ t.Mapped g.blk
  | none => r = .error (-E_NOT_FOUND) ∧ Seen nb O X s t

end

private theorem lookupIn_runs (hX : Fs.Closed nb X) (hname : Fits name) (is : List Nat) : ∀ {s : Fs}, s.Ok nb O X →
    s.view.Live O d → s.view.IsDir d → s.Mapped d.blk → (∀ i ∈ is, s.view.ptr d (.data i) ≠ 0) →
    Ends? s (lookupIn d name is) fun r t =>
      Looked nb O X s d r t ((s.view.entriesIn d is).find? fun g => s.view.fname g = name) := by
  induction is with
  | nil => exact fun hs _ _ _ _ => .fail ⟨rfl, .refl hs⟩
  | cons i is ih =>
    intro s hs hd hdir hmap hall
    have h0 := hall i List.mem_cons_self
    refine (fileGetBlock_runs hX hs hd hmap h0).bind_value fun t ht => ?_
    obtain ⟨hseen, hm⟩ := ht
    refine (findName_runs hm hname).bind_value ?_
    rintro _ rfl
    rename_i t
    have hsplit : s.view.entriesIn d (i :: is) =
        (List.range FILE2BLK).map (FilePtr.entry (s.view.ptr d (.data i))) ++ s.view.entriesIn d is := by
      unfold View.entriesIn
      rw [List.flatMap_cons, if_neg h0]
    rw [hsplit, List.find?_append, hseen.view]
    cases hfound : ((List.range FILE2BLK).map (FilePtr.entry (s.view.ptr d (.data i)))).find? fun g => s.view.fname g = name with
    | none =>
      rw [Option.none_or]
      rw [← hseen.view] at hd hdir hall
      refine (ih hseen.ok hd hdir (hseen.mapped _ hmap) fun j hj => hall j (List.mem_cons_of_mem _ hj)).weaken fun r u hr => ?_
      rw [hseen.view] at hr
      cases hrest : (s.view.entriesIn d is).find? fun g => s.view.fname g = name with
      | none =>
        rw [hrest] at hr
        exact ⟨hr.1, hseen.trans hr.2⟩
      | some g =>
        rw [hrest] at hr
        obtain ⟨hr, hok, hlive, hview, hmono, hmg⟩ := hr
        rw [hseen.view] at hlive hview
        exact ⟨hr, hok, hlive, hview, fun b hb => hmono b (hseen.mapped b hb), hmg⟩
    | some g =>
      rw [Option.some_or]
      have hfname : s.view.fname g = name := by
        have hp := List.find?_some hfound
        exact of_decide_eq_true hp
      obtain ⟨j, hj, rfl⟩ := List.mem_map.1 (List.mem_of_find?_eq_some hfound)
      have hlive : s.view.Live O (.entry (s.view.ptr d (.data i)) j) :=
        .entry hd hdir h0 (List.mem_range.1 hj) (View.named_of_fname hname.nonempty hfname)
      refine (setFDir_runs hX hseen.ok (hseen.view ▸ hlive) hm).bind_value fun u hu => .pure ?_
      obtain ⟨hok, hview, hmono⟩ := hu
      rw [hseen.view] at hview
      exact ⟨rfl, hok, hlive, hview, fun b hb => hmono b (hseen.mapped b hb), hmono _ hm⟩

private theorem dirLookup_runs (hX : Fs.Closed nb X) (hname : Fits name) (hs : s.Ok nb O X) (hd : s.view.Live O d)
    (hdir : s.view.IsDir d) (hmap : s.Mapped d.blk)
    (hall : ∀ i, i < s.view.size d / BY2BLK → s.view.ptr d (.data i) ≠ 0) :
    Ends? s (dirLookup d name) fun r t => Looked nb O X s d r t (s.view.lookup d name) := by
  refine (struct_runs hs hd hmap (x := 32) (by omega)).bind_value ?_
  rintro _ rfl
  exact lookupIn_runs hX hname _ hs hd hdir hmap fun i hi => hall i (List.mem_range.1 hi)

end FsProc

/-! ### The walk -/

/-- What `walk_path` is to return and to leave behind, from a file and its directory on. -/
def View.walked (v : View) (dir : Option FilePtr) (f : FilePtr) : List (List Byte) → Walked
  | [] => ⟨0, dir, some f, none⟩
  | name :: names =>
    if MAXNAMELEN ≤ name.length then ⟨-E_BAD_PATH, none, none, none⟩
    else if v.IsDir f then match v.lookup f name with
      | some g => v.walked (some f) g names
      | none => if names = [] then ⟨-E_NOT_FOUND, some f, none, some name⟩ else ⟨-E_NOT_FOUND, none, none, none⟩
    else ⟨-E_NOT_FOUND, none, none, none⟩

/-- All directories have all their blocks. -/
def View.Whole (v : View) (O : FilePtr → Prop) : Prop :=
  ∀ d, v.Live O d → v.IsDir d → ∀ i, i < v.size d / BY2BLK → v.ptr d (.data i) ≠ 0

/-- The directories on a path from `f` have all their blocks. -/
def View.WholeOn (v : View) (f : FilePtr) (names : List (List Byte)) : Prop :=
  ∀ front d, front <+: names → v.walk f front = .ok d → v.IsDir d →
    ∀ i, i < v.size d / BY2BLK → v.ptr d (.data i) ≠ 0

namespace FsProc

open Proc

variable {nb : Nat} {O : FilePtr → Prop} {X : Fs.Extra} {v : View} {M : Nat → Prop}

private theorem wholeOn_cons {f g : FilePtr} {name : List Byte} {names : List (List Byte)} (h : v.WholeOn f (name :: names))
    (hlen : ¬ MAXNAMELEN ≤ name.length) (hdir : v.IsDir f) (hfound : v.lookup f name = some g) : v.WholeOn g names :=
  fun front d hfront hwalk => h (name :: front) d (List.cons_prefix_cons.2 ⟨rfl, hfront⟩)
    ((View.walk_of_cons hlen hdir hfound).trans hwalk)

/-- The walk, in a state that differs from the first one in the fields `f_dir`. -/
private theorem walkElems_runs (hX : Fs.Closed nb X) (hv : v.Good nb M O) (names : List (List Byte)) :
    ∀ {s : Fs} {dir : Option FilePtr} {f : FilePtr}, v.WholeOn f names → s.Ok nb O X → Redirs O v s.view → v.Live O f →
    s.Mapped f.blk → (∀ name ∈ names, name ≠ [] ∧ 0 ∉ name) → Ends? s (walkElems dir f names) fun r t =>
      r = .ok (v.walked dir f names) ∧ t.Ok nb O X ∧ Redirs O v t.view ∧
        ∀ g, v.walk f names = .ok g → t.Mapped g.blk := by
  -- By induction on the path; the state has changed only in fields `f_dir`, which the walk does not look at.
  induction names with
  | nil =>
    intro s dir f _ hs hr _ hmap _
    refine .pure ⟨rfl, hs, hr, ?_⟩
    rintro g ⟨⟩
    exact hmap
  | cons name names ih =>
    intro s dir f hwhole hs hr hf hmap hnames
    have hf' : s.view.Live O f := (hr.live hv).2 hf
    unfold walkElems View.walked
    by_cases hlen : MAXNAMELEN ≤ name.length
    · rw [if_pos hlen, if_pos hlen]
      exact .pure ⟨rfl, hs, hr, fun g hg => absurd hlen (View.walk_cons hg).1⟩
    rw [if_neg hlen, if_neg hlen]
    refine (struct_runs hs hf' hmap (x := 33) (by omega)).bind_value ?_
    rintro _ rfl
    rename_i s
    have hdir_iff := hr.isDir hv hf
    by_cases hdir : v.IsDir f
    case neg =>
      have hne : s.view.get f.blk (f.off + 33) ≠ FTYPE_DIR := fun h => hdir (hdir_iff.1 h)
      rw [if_pos hne, if_neg hdir]
      exact .pure ⟨rfl, hs, hr, fun g hg => absurd (View.walk_cons hg).2.1 hdir⟩
    have hisdir : ¬ s.view.get f.blk (f.off + 33) ≠ FTYPE_DIR := not_not.2 (hdir_iff.2 hdir)
    rw [if_neg hisdir, if_pos hdir]
    obtain ⟨hne, hnul⟩ := hnames name List.mem_cons_self
    have hfits : Fits name := ⟨hne, hnul, by omega⟩
    have hall : ∀ i, i < s.view.size f / BY2BLK → s.view.ptr f (.data i) ≠ 0 := by
      intro i hi
      rw [hr.size hv hf] at hi
      rw [hr.ptr hv hf]
      exact hwhole [] f (List.nil_prefix) rfl hdir i hi
    have hlook := dirLookup_runs hX hfits hs hf' (hdir_iff.2 hdir) hmap hall
    rw [hr.lookup hv hf] at hlook
    refine hlook.attempt_bind fun q t hlooked => ?_
    cases hfound : v.lookup f name with
    | none =>
      rw [hfound] at hlooked
      obtain ⟨rfl, hseen⟩ := hlooked
      have hr' : Redirs O v t.view := hseen.view ▸ hr
      have hnot : ∀ g, v.walk f (name :: names) = .ok g → t.Mapped g.blk := by
        intro g hg
        obtain ⟨-, -, g', hg', -⟩ := View.walk_cons hg
        rw [hfound] at hg'
        cases hg'
      dsimp only
      by_cases hnil : names = []
      · rw [if_pos ⟨rfl, hnil⟩, if_pos hnil]
        exact .pure ⟨rfl, hseen.ok, hr', hnot⟩
      · rw [if_neg fun h => hnil h.2, if_neg hnil]
        exact .pure ⟨rfl, hseen.ok, hr', hnot⟩
    | some g =>
      rw [hfound] at hlooked
      obtain ⟨rfl, hok, hlive, hview, hmono, hmg⟩ := hlooked
      have hr' : Redirs O v t.view := by
        rw [hview]
        exact hr.trans hv (Redirs.set hlive)
      refine (ih (wholeOn_cons hwhole hlen hdir hfound) hok hr' ((hr.live hv).1 hlive) hmg
        fun n hn => hnames n (List.mem_cons_of_mem _ hn)).weaken fun r u hu => ?_
      rw [View.walk_of_cons hlen hdir hfound]
      exact hu

theorem pathElems_names {path name : List Byte} (h : name ∈ pathElems path) : name ≠ [] ∧ 0 ∉ name := by
  obtain ⟨c, rest, rfl, -⟩ := isName_of_mem h
  exact ⟨List.cons_ne_nil _ _, nul_notMem_of_mem h⟩

theorem walkPathFull_runs {s : Fs} {path : List Byte} (hX : Fs.Closed nb X) (hs : s.Ok nb O X)
    (hwhole : s.view.WholeOn .root (pathElems path)) : Ends? s (walkPathFull path) fun r t =>
      r = .ok (s.view.walked none .root (pathElems path)) ∧ t.Ok nb O X ∧ Redirs O s.view t.view ∧
        ∀ g, s.view.resolve path = .ok g → t.Mapped g.blk := by
  rw [walkPathFull_eq]
  have hlast := View.two_le_lastMeta nb
  exact walkElems_runs hX hs.good _ hwhole hs (.refl O _) .root (hs.mapped 1 (by omega) (by omega)) fun _ => pathElems_names

end FsProc

/-! ### What a path resolves to -/

/-- What `walk_path` is to do with a path, in terms of `View.resolve`. -/
structure Resolved (v : View) (path : List Byte) (w : Walked) : Prop where
  found : ∀ f, v.resolve path = .ok f → w.r = 0 ∧ w.pfile = some f
  error : ∀ e, v.resolve path = .error e → w.r = e ∧ w.pfile = none
  last : ∀ front name d, pathElems path = front ++ [name] → v.walk .root front = .ok d → v.IsDir d →
    w.r = -E_NOT_FOUND → w.pdir = some d ∧ w.lastelem = some name
  named : ∀ front g, front <+: pathElems path → front ≠ [] → v.walk .root front = .ok g → v.Named g

namespace View

variable {v : View} {name : List Byte} {names : List (List Byte)} {d f g : FilePtr} {dir : Option FilePtr}

theorem walked_result (names : List (List Byte)) : ∀ (dir : Option FilePtr) (f : FilePtr),
    (∀ g, v.walk f names = .ok g → (v.walked dir f names).r = 0 ∧ (v.walked dir f names).pfile = some g) ∧
      ∀ e, v.walk f names = .error e → (v.walked dir f names).r = e ∧ (v.walked dir f names).pfile = none := by
  induction names with
  | nil =>
    intro dir f
    constructor
    · rintro g ⟨⟩
      exact ⟨rfl, rfl⟩
    · intro e he
      cases he
  | cons name names ih =>
    intro dir f
    unfold walk walked
    by_cases hlen : MAXNAMELEN ≤ name.length
    · rw [if_pos hlen, if_pos hlen]
      exact ⟨by rintro g ⟨⟩, fun e he => ⟨Except.error.inj he, rfl⟩⟩
    rw [if_neg hlen, if_neg hlen]
    by_cases hdir : v.IsDir f
    case neg =>
      rw [if_neg hdir, if_neg hdir]
      exact ⟨by rintro g ⟨⟩, fun e he => ⟨Except.error.inj he, rfl⟩⟩
    rw [if_pos hdir, if_pos hdir]
    cases v.lookup f name with
    | some g => exact ih (some f) g
    | none =>
      refine ⟨by rintro g ⟨⟩, fun e he => ?_⟩
      dsimp only
      by_cases hnil : names = []
      · rw [if_pos hnil]
        exact ⟨Except.error.inj he, rfl⟩
      · rw [if_neg hnil]
        exact ⟨Except.error.inj he, rfl⟩

/-- The last component is not there, but the directory is. -/
private theorem walked_last (front : List (List Byte)) : ∀ (dir : Option FilePtr) (f : FilePtr), v.walk f front = .ok d →
    v.IsDir d →
    (v.walked dir f (front ++ [name])).r = -E_NOT_FOUND →
      (v.walked dir f (front ++ [name])).pdir = some d ∧ (v.walked dir f (front ++ [name])).lastelem = some name := by
  induction front with
  | nil =>
    rintro dir f ⟨⟩ hdir hr
    rw [List.nil_append] at hr ⊢
    unfold walked at hr ⊢
    by_cases hlen : MAXNAMELEN ≤ name.length
    · rw [if_pos hlen] at hr
      exact absurd hr (by decide)
    rw [if_neg hlen, if_pos hdir] at hr ⊢
    cases hfound : v.lookup d name with
    | none => exact ⟨rfl, rfl⟩
    | some g =>
      rw [hfound] at hr
      have hzero : (0 : Word) = -E_NOT_FOUND := hr
      exact absurd hzero (by decide)
  | cons n front ih =>
    intro dir f hwalk hdir hr
    obtain ⟨hlen, hisdir, g, hfound, hrest⟩ := walk_cons hwalk
    rw [List.cons_append] at hr ⊢
    unfold walked at hr ⊢
    rw [if_neg hlen, if_pos hisdir, hfound] at hr ⊢
    exact ih (some f) g hrest hdir hr

private theorem walk_named (front : List (List Byte)) : ∀ f : FilePtr, front ≠ [] → (∀ name ∈ front, name ≠ []) →
    v.walk f front = .ok g → v.Named g := by
  induction front with
  | nil => exact fun _ h => absurd rfl h
  | cons n front ih =>
    intro f _ hnames hwalk
    obtain ⟨-, -, g', hfound, hrest⟩ := walk_cons hwalk
    cases front with
    | nil =>
      obtain rfl : g' = g := Except.ok.inj hrest
      exact named_of_fname (hnames n List.mem_cons_self) (lookup_fname hfound)
    | cons n' front =>
      exact ih g' (List.cons_ne_nil _ _) (fun m hm => hnames m (List.mem_cons_of_mem _ hm)) hrest

private theorem resolved_walked (v : View) (path : List Byte) : Resolved v path (v.walked none .root (pathElems path)) where
  found := (walked_result _ none .root).1
  error := (walked_result _ none .root).2
  last front name d hpath hwalk hdir hr := by
    rw [hpath] at hr ⊢
    exact walked_last front none .root hwalk hdir hr
  named front _ hfront hne hwalk :=
    walk_named front .root hne (fun _ hname => (FsProc.pathElems_names (hfront.subset hname)).1) hwalk

/-- In a whole tree, every path is. -/
theorem Whole.on {v : View} {O : FilePtr → Prop} (h : v.Whole O) (path : List Byte) : v.WholeOn .root (pathElems path) :=
  fun _ d hfront hwalk hdir => h d (walk_live .root (fun _ hn => (FsProc.pathElems_names (hfront.subset hn)).1) hwalk) hdir

end View

/-- In a tree whose directories have all their blocks, `walk_path` resolves every path and changes no bit of the bitmap
and no pointer; it gets to its end if there is memory for the blocks of the disk. -/
theorem FsProc.walkPathFull_resolved {nb : Nat} {O : FilePtr → Prop} {s : Fs} (hs : s.Ok nb O Fs.Plain)
    (hwhole : s.view.Whole fun _ => False) (path : List Byte) :
    (∀ l r t, walkPathFull path s = some (l, r, t) → ∃ w, r = .ok w ∧ Resolved s.view path w ∧
      (∀ b, b < nb → (t.view.IsFree b ↔ s.view.IsFree b)) ∧
      ∀ f k, s.view.Live O f → t.view.ptr f k = s.view.ptr f k) ∧
    (s.Room → ∃ l r t, walkPathFull path s = some (l, r, t)) := by
  have hclosed : s.Ok nb (fun _ => False) Fs.Plain := hs.anti Fs.closed_plain fun _ h => h.elim
  have hruns := walkPathFull_runs Fs.closed_plain hclosed (hwhole.on path)
  refine ⟨fun l r t h => ?_, hruns.ends⟩
  obtain ⟨rfl, -, hr, -⟩ := hruns.post l r t h
  have hr' : Redirs O s.view t.view := fun b off hne => hr b off fun g hg => hne g (hg.mono fun _ h => h.elim)
  exact ⟨_, rfl, View.resolved_walked _ path, fun b hb => hr'.isFree hs.good hb, fun f k hf => hr'.ptr hs.good hf⟩

namespace FileSys

theorem whole_mount : (Fs.mount smallDisk 10).view.Whole fun _ => False := by
  intro d hd hdir i hi
  rcases reachable_small ((mount_shrinks wellFormed_small 10).live hd) with rfl | rfl | rfl
  · obtain rfl : i = 0 := by
      have hsize : (Fs.mount smallDisk 10).view.size .root / BY2BLK = 1 := by decide
      omega
    decide
  · exact absurd hdir (by decide)
  · exact absurd hdir (by decide)

theorem walkPathFull_resolved_small : ∃ nb, ∃ s : Fs, s.Ok nb (fun _ => False) Fs.Plain ∧
    ∃ l w t, FsProc.walkPathFull [47, 97, 47] s = some (l, .ok w, t) ∧ Resolved s.view [47, 97, 47] w := by
  have hI := inv_start (ι := Fin 3) wellFormed_small 10
  have hok : (Fs.mount smallDisk 10).Ok (smallDisk.get 1 1).toNat (fun _ => False) Fs.Plain :=
    (hI.imp fun _ => trivial).anti Fs.closed_plain fun _ h => h.elim
  obtain ⟨hall, -⟩ := FsProc.walkPathFull_resolved hok whole_mount [47, 97, 47]
  have hsome : (FsProc.walkPathFull [47, 97, 47] (Fs.mount smallDisk 10)).isSome := by
    rw [FsProc.walkPathFull_eq]
    decide +kernel
  obtain ⟨⟨l, r, t⟩, h⟩ := Option.isSome_iff_exists.1 hsome
  obtain ⟨w, rfl, hres, -⟩ := hall l r t h
  exact ⟨_, _, hok, l, w, t, h, hres⟩

end FileSys

end Mos
