import Mos.Fs.Frame
import Mos.Fs.Owner

/-!
# The file server keeps its blocks apart

A function of `fs.c` keeps the view good, as long as `alloc_block` hands out no block whose page is in the cache: such a
page is not zero in general.
-/

namespace Mos

open View (Good Fresh Spare Live With)

namespace Fs

/-- What the blocks hold. -/
def view (s : Fs) : View := fun b => match s.cache b with
  | some pg => pg.data
  | none => s.disk b

def Mapped (s : Fs) (b : Nat) : Prop := (s.cache b).isSome

/-- A property of the live files, the blocks in the cache and the view. -/
abbrev Extra := (FilePtr → Prop) → (Nat → Prop) → View → Prop

/-- The superblock and the bitmap are in the cache, the view is good, and `X` holds. -/
structure Ok (nb : Nat) (O : FilePtr → Prop) (X : Extra) (s : Fs) : Prop where
  nblocks : (s.view.get 1 1).toNat = nb
  mapped : ∀ b, 1 ≤ b → b ≤ lastMeta nb → s.Mapped b
  good : s.view.Good nb s.Mapped O
  extra : X (s.view.Live O) s.Mapped s.view

/-- What the file server does to the blocks keeps `X`. -/
structure Closed (nb : Nat) (X : Extra) : Prop where
  mono : ∀ {L L' M M' v}, X L M v → (∀ f, L' f → L f) → (∀ b, M b → M' b) → X L' M' v
  change : ∀ {O M v v'}, v.Good nb M O → (v.get 1 1).toNat = nb → X (v.Live O) M v → View.Change nb M O v v' →
    X (v'.Live O) M v'

variable {s t : Fs} {b off : Nat} {w : Word}

theorem word?_view (h : s.word? b off = some w) : s.view.get b off = w := by
  obtain ⟨pg, hpg, hoff, hw⟩ := word?_some h
  unfold View.get view
  rw [dif_pos hoff, hpg]
  exact hw

private theorem view_setPage (s : Fs) (b : Nat) (pg : CachePage) : (s.setPage b pg).view =
    Function.update s.view b pg.data := by
  funext b'
  unfold view setPage
  rcases eq_or_ne b' b with rfl | hb
  · simp only [Function.update_self]
  · simp only [Function.update_of_ne hb]

private theorem mapped_setPage {b' : Nat} {pg : CachePage} : (s.setPage b pg).Mapped b' ↔ b' = b ∨ s.Mapped b' := by
  unfold Mapped setPage
  rcases eq_or_ne b' b with rfl | hb
  · simp
  · simp [hb]

theorem view_of_cache {pg : CachePage} (h : s.cache b = some pg) : s.view b = pg.data := by
  unfold view
  rw [h]

theorem setWord?_view (h : s.setWord? b off w = some t) :
    t.view = s.view.set b off w ∧ ∀ b', t.Mapped b' ↔ s.Mapped b' := by
  obtain ⟨pg, hpg, h⟩ := Option.bind_eq_some_iff.1 h
  split at h
  case isFalse => cases h
  case isTrue hoff =>
  cases h
  constructor
  · rw [view_setPage]
    unfold View.set
    congr 1
    funext i
    rw [view_of_cache hpg]
    by_cases hi : i.val = off
    · have hfin : i = ⟨off, hoff⟩ := Fin.ext hi
      rw [if_pos hi, hfin]
      exact Function.update_self ..
    · have hfin : i ≠ ⟨off, hoff⟩ := fun h => hi (by rw [h])
      rw [if_neg hi]
      exact Function.update_of_ne hfin ..
  · intro b'
    rw [mapped_setPage]
    refine ⟨?_, .inr⟩
    rintro (rfl | hb)
    · unfold Mapped
      rw [hpg]
      rfl
    · exact hb

theorem memAlloc_view {data : Block} (h : s.memAlloc b data = some t) :
    t.view = Function.update s.view b data ∧ ∀ b', t.Mapped b' ↔ b' = b ∨ s.Mapped b' := by
  unfold memAlloc at h
  split at h
  · cases h
  · cases h
    exact ⟨view_setPage s b ⟨data, false⟩, fun b' => mapped_setPage⟩

/-- Writing to the disk leaves the view alone. -/
private theorem view_of_disk (hcache : t.cache = s.cache) (hdisk : ∀ b, s.cache b = none → t.disk b = s.disk b) :
    t.view = s.view := by
  funext b
  unfold view
  rw [hcache]
  cases h : s.cache b with
  | none => exact hdisk b h
  | some pg => rfl

variable {nb : Nat} {O O' : FilePtr → Prop} {X : Extra}

theorem Ok.congr (h : s.Ok nb O X) (hX : Closed nb X) (hview : t.view = s.view)
    (hmap : ∀ b, s.Mapped b → t.Mapped b) : t.Ok nb O X where
  nblocks := hview ▸ h.nblocks
  mapped b h1 hb := hmap b (h.mapped b h1 hb)
  good := hview ▸ h.good.mono hmap
  extra := hview ▸ hX.mono h.extra (fun _ hf => hf) hmap

theorem Ok.change (h : s.Ok nb O X) (hX : Closed nb X) (hc : View.Change nb s.Mapped O s.view t.view)
    (hmap : ∀ b, s.Mapped b → t.Mapped b) : t.Ok nb O X where
  nblocks := by rw [hc.nblocks h.good]; exact h.nblocks
  mapped b h1 hb := hmap b (h.mapped b h1 hb)
  good := (h.good.change h.nblocks hc).mono hmap
  extra := hX.mono (hX.change h.good h.nblocks h.extra hc) (fun _ hf => hf) hmap

/-- Fewer files are open. -/
theorem Ok.anti (h : s.Ok nb O X) (hX : Closed nb X) (hO : ∀ f, O' f → O f) : s.Ok nb O' X where
  nblocks := h.nblocks
  mapped := h.mapped
  good := h.good.anti hO
  extra := hX.mono h.extra (fun _ hf => hf.mono hO) fun _ hb => hb

/-- Less is kept. -/
theorem Ok.imp {Y : Extra} (h : s.Ok nb O X) (hY : X (s.view.Live O) s.Mapped s.view → Y (s.view.Live O) s.Mapped s.view) :
    s.Ok nb O Y :=
  ⟨h.nblocks, h.mapped, h.good, hY h.extra⟩

/-- A live file is opened. -/
theorem Ok.open {f : FilePtr} (h : s.Ok nb O X) (hX : Closed nb X) (hf : s.view.Live O f) (hmap : s.Mapped f.blk) :
    s.Ok nb (With O f) X where
  nblocks := h.nblocks
  mapped := h.mapped
  good := h.good.open hf hmap
  extra := hX.mono h.extra (fun _ hg => hg.of_with hf) fun _ hb => hb

end Fs

namespace FsProc

open Proc

/-- A block that is handed out was not in the cache. -/
def NotStale (o : FsLog) : Prop := ∀ b, o ≠ .alloc b true

variable {α : Type} {nb : Nat} {O : FilePtr → Prop} {X : Fs.Extra} {P : Fs → Prop} {E : Fs → Prop}
  {s t : Fs} {l : List FsLog} {f : FilePtr} {k : FileSlot} {ok : FsLog → Prop}

/-- What depends on the view, and on blocks being in the cache. -/
def Steady (P : Fs → Prop) : Prop := ∀ s t : Fs, P s → t.view = s.view → (∀ b, s.Mapped b → t.Mapped b) → P t

theorem word_spec (b off : Nat) :
    Spec ok P (word b off) (Ends (fun w s => P s ∧ s.view.get b off = w) E) :=
  .read fun _ _ hs hw => ⟨hs, Fs.word?_view hw⟩

theorem nblocks_spec : Spec ok P nblocks (Ends (fun n s => P s ∧ (s.view.get 1 1).toNat = n) E) :=
  .bind (word_spec 1 1) fun _ => .pure fun _ hs => ⟨hs.1, by rw [hs.2]⟩

theorem blockIsMapped_spec (b : Nat) :
    Spec ok P (blockIsMapped b) (Ends (fun m s => P s ∧ (m = true ↔ s.Mapped b)) E) := by
  refine .read fun s m hs hm => ⟨hs, ?_⟩
  unfold Fs.isMapped? at hm
  split at hm
  · rw [← Option.some.inj hm]
    rfl
  · cases hm

private theorem blockIsFree_spec (b : Nat) : Spec ok P (blockIsFree b) (Ends (fun _ => P) E) := by
  refine .bind (nblocks_spec.post fun _ _ h => h.1) fun n => ?_
  split
  · exact .pure fun _ h => h
  · exact .bind ((word_spec _ _).post fun _ _ h => h.1) fun w => .pure fun _ h => h

private theorem writeBlock_view {b : Nat} {r : Except Word Unit} (h : writeBlock b s = some (l, r, t)) :
    l = [] ∧ r = .ok () ∧ t.view = s.view ∧ t.cache = s.cache := by
  obtain ⟨m, -, h⟩ := read_bind_some h
  split at h
  · obtain ⟨u, hu, h⟩ := Option.map_eq_some_iff.1 h
    obtain ⟨pg, hpg, rfl⟩ := Option.map_eq_some_iff.1 hu
    cases h
    refine ⟨rfl, rfl, Fs.view_of_disk rfl fun b' hb' => ?_, rfl⟩
    have hne : b' ≠ b := by
      rintro rfl
      rw [hpg] at hb'
      cases hb'
    exact Function.update_of_ne hne ..
  · cases h

theorem writeBlock_spec (hP : Steady P) (b : Nat) : Spec ok P (writeBlock b) (Ends (fun _ => P) E) := by
  intro s l r t hs h _
  obtain ⟨-, rfl, hview, hcache⟩ := writeBlock_view h
  refine hP s t hs hview fun b' hb' => ?_
  unfold Fs.Mapped at hb' ⊢
  rwa [hcache]

theorem dirtyBlock_spec (hP : Steady P) (b : Nat) : Spec ok P (dirtyBlock b) (Ends (fun _ => P) P) := by
  refine .bind (blockIsMapped_spec b) fun m => ?_
  split
  · refine .update fun s t hs h => ?_
    obtain ⟨pg, hpg, rfl⟩ := Option.map_eq_some_iff.1 h
    refine hP s _ hs.1 ?_ fun b' hb' => Fs.mapped_setPage.2 (.inr hb')
    rw [Fs.view_setPage, ← Fs.view_of_cache hpg]
    exact Function.update_eq_self ..
  · exact .fail fun _ h => h.1

theorem loadBlock_view {b : Nat} (hb : s.cache b = none) (h : s.memAlloc b (s.disk b) = some t) :
    t.view = s.view ∧ ∀ b', s.Mapped b' → t.Mapped b' := by
  obtain ⟨hview, hmap⟩ := Fs.memAlloc_view h
  have hdisk : s.disk b = s.view b := by
    unfold Fs.view
    rw [hb]
  rw [hview, hdisk]
  exact ⟨Function.update_eq_self .., fun b' hb' => (hmap b').2 (.inr hb')⟩

theorem readBlock_spec (hP : Steady P) (b : Nat) :
    Spec ok P (readBlock b) (Ends (fun _ s => P s ∧ s.Mapped b) E) := by
  refine .bind (nblocks_spec.post fun _ _ h => h.1) fun n => ?_
  split
  · exact .stop
  refine .bind (blockIsFree_spec b) fun free => ?_
  split
  · exact .stop
  intro s l r t hs h _
  obtain ⟨m, hm, h⟩ := read_bind_some h
  cases m with
  | true =>
    cases h
    refine ⟨hs, ?_⟩
    unfold Fs.isMapped? at hm
    split at hm
    · exact Option.some.inj hm
    · cases hm
  | false =>
    obtain ⟨u, hu, h⟩ := Option.map_eq_some_iff.1 h
    cases h
    have hload := loadBlock_view (isMapped?_none hm) hu
    exact ⟨hP s _ hs hload.1 hload.2, ((Fs.memAlloc_view hu).2 b).2 (.inl rfl)⟩

/-! ### The bitmap -/

theorem freeBlock_view {b : Nat} {r : Except Word Unit} (hnb : b < (s.view.get 1 1).toNat) (h0 : b ≠ 0)
    (h : freeBlock b s = some (l, r, t)) :
    r = .ok () ∧ t.view = s.view.setFree b ∧ ∀ b', t.Mapped b' ↔ s.Mapped b' := by
  obtain ⟨l₁, n, u, l₂, hn, h, rfl⟩ := bind_ok h fun l e t h => by
    obtain ⟨w, -, h⟩ := read_bind_some h
    cases h
  obtain ⟨w, hw, hn⟩ := read_bind_some hn
  cases hn
  rw [Fs.word?_view hw] at hnb
  rw [if_neg (by omega)] at h
  obtain ⟨w', hw', h⟩ := read_bind_some h
  obtain ⟨u, hu, h⟩ := update_bind_some h
  cases h
  obtain ⟨hview, hmap⟩ := Fs.setWord?_view hu
  refine ⟨rfl, ?_, hmap⟩
  rw [hview]
  unfold View.setFree
  rw [Fs.word?_view hw']

/-- The search finds the first block that is free. -/
private theorem allocFrom_view : ∀ {bs : List Nat} {s t : Fs} {l : List FsLog} {r : Except Word Nat},
    allocFrom bs s = some (l, r, t) → (∃ e, r = .error e ∧ t = s) ∨
      ∃ b, bs.find? (fun b => s.view.IsFree b) = some b ∧ r = .ok b ∧ t.view = s.view.setUsed b ∧
        ∀ b', t.Mapped b' ↔ s.Mapped b' := by
  intro bs
  induction bs with
  | nil =>
    intro s t l r h
    cases h
    exact .inl ⟨_, rfl, rfl⟩
  | cons b bs ih =>
    intro s t l r h
    obtain ⟨w, hw, h⟩ := read_bind_some h
    have hfree : s.view.IsFree b ↔ w.getLsbD (b % 32) = true := by
      unfold View.IsFree
      rw [Fs.word?_view hw]
    split at h
    · next hbit =>
      obtain ⟨u, hu, h⟩ := update_bind_some h
      obtain ⟨hview, hmap⟩ := Fs.setWord?_view hu
      rcases bind_some h with ⟨e, hx, -⟩ | ⟨l₁, a, v, l₂, hx, hpure, rfl⟩
      · cases (writeBlock_view hx).2.1
      · cases hpure
        obtain ⟨-, -, hview', hcache⟩ := writeBlock_view hx
        refine .inr ⟨b, List.find?_cons_of_pos (decide_eq_true (hfree.2 hbit)), rfl, ?_, fun b' => ?_⟩
        · rw [hview', hview]
          unfold View.setUsed
          rw [Fs.word?_view hw]
        · rw [← hmap b']
          unfold Fs.Mapped
          rw [hcache]
    · next hbit =>
      have hnext : (b :: bs).find? (fun b => s.view.IsFree b) = bs.find? fun b => s.view.IsFree b :=
        List.find?_cons_of_neg fun hb => hbit (hfree.1 (of_decide_eq_true hb))
      rw [hnext]
      exact ih h

private theorem get_setUsed_super (v : View) (b : Nat) : (v.setUsed b).get 1 1 = v.get 1 1 := by
  refine View.get_set_of_ne fun heq => ?_
  have h1 : 1 = 2 + b / 32 / 1024 := congrArg Prod.fst heq
  omega

/-- The block that `alloc_block_num` finds. -/
def firstFree (v : View) : Option Nat := (List.range' 3 ((v.get 1 1).toNat - 3)).find? fun b => v.IsFree b

/-- `alloc_block` changes nothing if it fails, and else hands out the first free block, which it clears unless its page is in
the cache. -/
theorem allocBlock_cases {r : Except Word Nat} (hnb : (s.view.get 1 1).toNat = nb)
    (h : allocBlock s = some (l, r, t)) :
    (∃ e, r = .error e ∧ t.view = s.view ∧ ∀ b', s.Mapped b' → t.Mapped b') ∨
      ∃ b m, r = .ok b ∧ .alloc b m ∈ l ∧ firstFree s.view = some b ∧ b < nb ∧ s.view.IsFree b ∧ t.Mapped b ∧
        (∀ b', s.Mapped b' → t.Mapped b') ∧ (m = true ∧ s.Mapped b ∧ t.view = s.view.setUsed b ∨
          m = false ∧ ¬ s.Mapped b ∧ t.view = s.view.alloc b) := by
  have hnum {l : List FsLog} {r : Except Word Nat} {u : Fs} (h : allocBlockNum s = some (l, r, u)) :
      (∃ e, r = .error e ∧ u = s) ∨ ∃ b, firstFree s.view = some b ∧ r = .ok b ∧ u.view = s.view.setUsed b ∧
        ∀ b', u.Mapped b' ↔ s.Mapped b' := by
    obtain ⟨l₁, n, u, l₂, hn, h, rfl⟩ := bind_ok h fun l e t h => by
      obtain ⟨w, -, h⟩ := read_bind_some h
      cases h
    obtain ⟨w, hw, hn⟩ := read_bind_some hn
    cases hn
    rw [← Fs.word?_view hw] at h
    exact allocFrom_view h
  rcases bind_some h with ⟨e, hx, rfl⟩ | ⟨l₁, b, u, l₂, hx, hrest, rfl⟩
  · rcases hnum hx with ⟨e', -, rfl⟩ | ⟨b, -, hr, -⟩
    · exact .inl ⟨e, rfl, rfl, fun _ h => h⟩
    · cases hr
  rcases hnum hx with ⟨e', hr, -⟩ | ⟨b', hfirst, hr, hview, hmap⟩
  · cases hr
  obtain rfl := Except.ok.inj hr
  have hin := List.mem_of_find?_eq_some hfirst
  rw [List.mem_range'_1, hnb] at hin
  have hfree : s.view.IsFree b := by
    have hfound := List.find?_some hfirst
    exact of_decide_eq_true hfound
  obtain ⟨m, hm, hwrite⟩ := read_bind_some hrest
  obtain ⟨l₃, a, u', l₄, hw, htry, rfl⟩ := bind_ok hwrite nofun
  cases hw
  have hin' : .alloc b m ∈ l₁ ++ ([.alloc b m] ++ l₄) := by simp
  obtain ⟨l₅, q, u', l₆, hq, hend, rfl⟩ := attempt_bind_some htry
  obtain ⟨m', hm', hq⟩ := read_bind_some hq
  obtain rfl : m = m' := Option.some.inj (hm.symm.trans hm')
  cases m with
  | true =>
    have hmapped : u.Mapped b := by
      unfold Fs.isMapped? at hm
      split at hm
      · exact Option.some.inj hm
      · cases hm
    cases hq
    cases hend
    exact .inr ⟨b, true, rfl, hin', hfirst, by omega, hfree, hmapped, fun b' hb' => (hmap b').2 hb',
      .inl ⟨rfl, (hmap b).1 hmapped, hview⟩⟩
  | false =>
    have hnone := isMapped?_none hm
    have hunmapped : ¬ s.Mapped b := by
      intro hmapped
      have hmapped' := (hmap b).2 hmapped
      unfold Fs.Mapped at hmapped'
      rw [hnone] at hmapped'
      cases hmapped'
    obtain ⟨full, -, hq⟩ := read_bind_some hq
    cases full with
    | true =>
      cases hq
      -- there is no memory: the block is given back
      rcases bind_some hend with ⟨e, hfr, rfl⟩ | ⟨l₇, a, v, l₈, hfr, hfail, rfl⟩
      · obtain ⟨hr, -⟩ := freeBlock_view (by rw [hview, get_setUsed_super]; omega) (by omega) hfr
        cases hr
      · obtain ⟨-, hview', hmap'⟩ := freeBlock_view (by rw [hview, get_setUsed_super]; omega) (by omega) hfr
        cases hfail
        refine .inl ⟨_, rfl, ?_, fun b' hb' => (hmap' b').2 ((hmap b').2 hb')⟩
        rw [hview', hview, View.setFree_setUsed hfree]
    | false =>
      obtain ⟨v, hv, hq⟩ := Option.map_eq_some_iff.1 hq
      cases hq
      cases hend
      obtain ⟨hview', hmap'⟩ := Fs.memAlloc_view hv
      refine .inr ⟨b, false, rfl, hin', hfirst, by omega, hfree, (hmap' b).2 (.inl rfl),
        fun b' hb' => (hmap' b').2 (.inr ((hmap b').2 hb')), .inr ⟨rfl, hunmapped, ?_⟩⟩
      rw [hview', hview]
      rfl

/-- Where no page in the cache is handed out, the block is spare. -/
private theorem allocBlock_view {r : Except Word Nat} (hnb : (s.view.get 1 1).toNat = nb)
    (h : allocBlock s = some (l, r, t)) (hl : ∀ o ∈ l, NotStale o) :
    (∃ e, r = .error e ∧ t.view = s.view ∧ ∀ b', s.Mapped b' → t.Mapped b') ∨
      ∃ b, r = .ok b ∧ Spare nb s.Mapped s.view b ∧ t.view = s.view.alloc b ∧ ∀ b', s.Mapped b' → t.Mapped b' := by
  rcases allocBlock_cases hnb h with herr | ⟨b, m, hr, hlog, -, hlt, hfree, -, hmap, ⟨rfl, -, -⟩ | ⟨-, hnot, hview⟩⟩
  · exact .inl herr
  · exact absurd rfl (hl _ hlog b)
  · exact .inr ⟨b, hr, ⟨hlt, hfree, hnot⟩, hview, hmap⟩

/-! ### A block for a file -/

/-- The state after `alloc_block` has handed out a block, from a state with `Q`. -/
def Given (nb : Nat) (O : FilePtr → Prop) (X : Fs.Extra) (Q : View → Prop) (b : Nat) (s : Fs) : Prop :=
  ∃ s₀ : Fs, s₀.Ok nb O X ∧ Q s₀.view ∧ Spare nb s₀.Mapped s₀.view b ∧ s.view = s₀.view.alloc b ∧
    ∀ b', s₀.Mapped b' → s.Mapped b'

theorem allocBlock_spec (hX : Fs.Closed nb X) (Q : View → Prop) :
    Spec NotStale (fun s => s.Ok nb O X ∧ Q s.view) allocBlock (Ends (Given nb O X Q) (Fs.Ok nb O X)) := by
  intro s l r t hs h hl
  rcases allocBlock_view hs.1.nblocks h hl with ⟨e, rfl, hview, hmap⟩ | ⟨b, rfl, hspare, hview, hmap⟩
  · exact hs.1.congr hX hview hmap
  · exact ⟨s, hs.1, hs.2, hspare, hview, hmap⟩

/-- The pointer of a file at a place, and what it is. -/
def SlotAt (f : FilePtr) (k : FileSlot) (p : Nat × Nat) (v : View) : Prop := v.HasSlot f k ∧ v.loc f k = p

theorem setIn_view {p : Nat × Nat} {w : Word} {r : Except Word Unit} (h : setIn f p.1 p.2 w s = some (l, r, t)) :
    r = .ok () ∧ t.view = s.view.set p.1 p.2 w ∧ ∀ b, t.Mapped b ↔ s.Mapped b := by
  obtain ⟨l₁, a, u, l₂, hx, hset, rfl⟩ := bind_ok h nofun
  cases hx
  obtain ⟨v, hv, hset⟩ := Option.map_eq_some_iff.1 hset
  cases hset
  obtain ⟨hview, hmap⟩ := Fs.setWord?_view hv
  exact ⟨rfl, hview, hmap⟩

/-- The file gets the block. -/
theorem setIn_given (hX : Fs.Closed nb X) (hf : ∀ v : View, v.Live O f) (p : Nat × Nat) (b : Nat) :
    Spec NotStale (Given nb O X (SlotAt f k p) b) (setIn f p.1 p.2 (BitVec.ofNat 32 b))
      (Ends (fun _ s => s.Ok nb O X ∧ s.view.ptr f k = b ∧ b ≠ 0) E) := by
  rintro s l r t ⟨s₀, hok, ⟨hk, rfl⟩, hspare, hview, hmap⟩ h _
  obtain ⟨rfl, hset, hmap'⟩ := setIn_view h
  rw [hview] at hset
  have hb : b ≠ 0 := by
    have hmeta := hok.good.spare_meta hspare
    omega
  have hok' : t.Ok nb O X := by
    refine hok.change hX ?_ fun b' hb' => (hmap' b').2 (hmap b' hb')
    rw [hset]
    exact .extend (hf _) hk hspare
  refine ⟨hok', ?_, hb⟩
  rw [hset, hok.good.extend_eq hspare (hf _),
    (hok.good.alloc hspare).setPtr_ptr_self (hf _) (hok.good.alloc_hasSlot hspare (hf _) hk)]
  exact Nat.mod_eq_of_lt (hspare.lt.trans (View.lt_word hok.nblocks))

end FsProc

end Mos
