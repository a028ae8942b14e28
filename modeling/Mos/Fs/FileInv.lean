import Mos.Fs.FileSys

/-!
# Blocks have one owner

If `alloc_block` hands out no block that is still in the cache, and no client writes to a directory, then a block is in
one pointer of one file at most, a page that a client has is not a block of another file, and what a file is extended
over is zero.
-/

namespace Mos

open View (Good Live With)
open FsProc (NotStale Steady)

/-- A page that a client has is in the cache, and it is only ever that block of that file. -/
def HeldOk {ι : Type} (nb : Nat) (held : List (Hold ι)) : Fs.Extra := fun L M v => ∀ h ∈ held,
  M h.bno ∧ lastMeta nb < h.bno ∧ (∀ g k, L g → v.ptr g k = h.bno → g = h.file ∧ k = .data h.filebno) ∧
    (h.dir = false → (L h.file → ¬ v.IsDir h.file) ∧ ∀ g, L g → g.blk ≠ h.bno)

/-- What a file that is not a directory was extended over is zero. -/
def Clean (fresh : FilePtr → Nat → Prop) : Fs.Extra := fun L _ v => ∀ g pos, fresh g pos → L g → ¬ v.IsDir g →
  v.byteAt g pos = 0

section Closed

variable {ι : Type} {nb : Nat} {O : FilePtr → Prop} {M : Nat → Prop} {v v' : View}

theorem byteAt_congr {g : FilePtr} {pos : Nat} (hptr : v'.ptr g (.data (pos / BY2BLK)) = v.ptr g (.data (pos / BY2BLK)))
    (hget : v.ptr g (.data (pos / BY2BLK)) ≠ 0 → v'.get (v.ptr g (.data (pos / BY2BLK))) (pos % BY2BLK / 4) =
      v.get (v.ptr g (.data (pos / BY2BLK))) (pos % BY2BLK / 4)) : v'.byteAt g pos = v.byteAt g pos := by
  unfold View.byteAt
  rw [hptr]
  split
  · rfl
  · next h0 => rw [hget h0]

theorem byteOf_zero (k : Nat) : byteOf 0 k = 0 := by
  unfold byteOf
  simp

private theorem closed_heldOk (held : List (Hold ι)) : Fs.Closed nb (HeldOk nb held) where
  mono h hL hM x hx := by
    obtain ⟨h1, h2, h3, h4⟩ := h x hx
    exact ⟨hM _ h1, h2, fun g k hg => h3 g k (hL g hg), fun hd =>
      ⟨fun hf => (h4 hd).1 (hL _ hf), fun g hg => (h4 hd).2 g (hL g hg)⟩⟩
  change hgood hnb h hc x hx := by
    obtain ⟨h1, h2, h3, h4⟩ := h x hx
    refine ⟨h1, h2, fun g k hg heq => ?_, fun hd => ⟨fun hf hdir => ?_, fun g hg => (h4 hd).2 g (hc.live hgood hnb hg)⟩⟩
    · have hlive := hc.live hgood hnb hg
      rcases hc.ptr hgood hnb hlive k with h0 | hsame | hspare
      · omega
      · exact h3 g k hlive (hsame.symm.trans heq)
      · rw [heq] at hspare
        exact absurd h1 hspare.unmapped
    · have hlive := hc.live hgood hnb hf
      exact (h4 hd).1 hlive ((hc.isDir hgood hlive).1 hdir)

private theorem closed_clean (fresh : FilePtr → Nat → Prop) : Fs.Closed nb (Clean fresh) where
  mono h hL _ g pos hz hg := h g pos hz (hL g hg)
  change hgood hnb h hc g pos hz hg hdir := by
    have hlive := hc.live hgood hnb hg
    have hdir' := fun hd => hdir ((hc.isDir hgood hlive).2 hd)
    rcases hc.data hgood hnb hlive hdir' (pos / BY2BLK) with hzero | ⟨hsame, hdata⟩ | hzero
    · exact if_pos hzero
    · rw [byteAt_congr hsame fun _ => hdata _]
      exact h g pos hz hlive hdir'
    · unfold View.byteAt
      rw [hzero, byteOf_zero, ite_self]

/-- Two properties are kept together. -/
private theorem Fs.Closed.and {X Y : Fs.Extra} (hX : Fs.Closed nb X) (hY : Fs.Closed nb Y) :
    Fs.Closed nb fun L M v => X L M v ∧ Y L M v where
  mono h hL hM := ⟨hX.mono h.1 hL hM, hY.mono h.2 hL hM⟩
  change hgood hnb h hc := ⟨hX.change hgood hnb h.1 hc, hY.change hgood hnb h.2 hc⟩

end Closed

/-! ### Requests -/

/-- A block is handed out whose page is in the cache. -/
def ServLog.stale : ServLog → Bool
  | .fs (.alloc _ mapped) => mapped
  | _ => false

/-- The files in the table. -/
def Serv.Opened (s : Serv) (f : FilePtr) : Prop := ∃ i, (s.opentab i).oFile = some f

namespace ServProc

variable {α : Type} {nb : Nat} {X : Fs.Extra} {s t : Serv} {l : List ServLog} {r : Except Word Unit}

/-- No block is handed out whose page is in the cache. -/
def NoStale (l : List ServLog) : Prop := ∀ o ∈ l, o.stale = false

private theorem NoStale.of_fs {l₁ l₂ : List ServLog} {l₀ : List FsLog} (h : NoStale (l₁ ++ (l₀.map .fs ++ l₂))) :
    ∀ o ∈ l₀, NotStale o := by
  rintro o ho b rfl
  have hstale := h (.fs (.alloc b true)) (by simp [ho])
  cases hstale

private theorem block_reply {w : Word} {page : Option ReplyPage} {b : Nat} :
    (ServLog.reply w page).block = some b ↔ page = some (.block b) := by
  cases page with
  | none => simp [ServLog.block]
  | some p => cases p <;> simp [ServLog.block]

/-- A result of a function of `fs.c`, and the log of a handler that calls it. -/
private theorem replyTo_keeps {O : FilePtr → Prop} {x : FsProc α} {page : α → Option ReplyPage} {Q : α → Fs → Prop}
    (hx : Proc.Spec NotStale (Fs.Ok nb O X) x (Proc.Ends (fun a u => u.Ok nb O X ∧ Q a u) (Fs.Ok nb O X)))
    (hs : s.fs.Ok nb O X) (hl : NoStale l) (h : replyTo x page s = some (l, r, t)) :
    t.fs.Ok nb O X ∧ t.opentab = s.opentab ∧
      ∀ b, b ∈ l.filterMap ServLog.block → ∃ a, page a = some (.block b) ∧ Q a t.fs := by
  obtain ⟨l₀, q, u, hq, rfl, rfl⟩ := replyTo_some h
  have hstale : ∀ o ∈ l₀, NotStale o := NoStale.of_fs (show NoStale ([] ++ (l₀.map .fs ++ _)) from hl)
  have hend := hx s.fs l₀ q u hs hq hstale
  have hblocks : (l₀.map ServLog.fs).filterMap ServLog.block = [] := by
    rw [List.filterMap_eq_nil_iff]
    intro o ho
    obtain ⟨o, -, rfl⟩ := List.mem_map.1 ho
    rfl
  cases q with
  | error e =>
    refine ⟨hend, rfl, fun b hb => ?_⟩
    rw [List.filterMap_append, hblocks] at hb
    cases hb
  | ok a =>
    refine ⟨hend.1, rfl, fun b hb => ⟨a, ?_, hend.2⟩⟩
    rw [List.filterMap_append, hblocks, List.nil_append] at hb
    obtain ⟨o, ho, hob⟩ := List.mem_filterMap.1 hb
    rw [List.mem_singleton] at ho
    rw [ho] at hob
    exact block_reply.1 hob

/-- The handlers that use the file of an entry. -/
private theorem withOpen_keeps {fileid : Word} {x : FilePtr → FsProc α} {page : α → Option ReplyPage}
    {Q : FilePtr → α → Fs → Prop}
    (hx : ∀ f, s.Opened f → Proc.Spec NotStale (Fs.Ok nb s.Opened X) (x f)
      (Proc.Ends (fun a u => u.Ok nb s.Opened X ∧ Q f a u) (Fs.Ok nb s.Opened X)))
    (hs : s.fs.Ok nb s.Opened X) (hl : NoStale l) (h : withOpen fileid x page s = some (l, r, t)) :
    t.fs.Ok nb t.Opened X ∧ ∀ b, b ∈ l.filterMap ServLog.block → ∃ f a, s.fileOf fileid = some f ∧ s.Opened f ∧
      page a = some (.block b) ∧ Q f a t.fs := by
  rcases withOpen_some h with ⟨-, rfl, rfl⟩ | ⟨i, f, hi, hf, h⟩
  · refine ⟨hs, fun b hb => ?_⟩
    simp [ServLog.block] at hb
  · obtain ⟨hok, htab, hblock⟩ := replyTo_keeps (hx f ⟨i, hf⟩) hs hl h
    have hO : t.Opened = s.Opened := by
      unfold Serv.Opened
      rw [htab]
    rw [hO]
    refine ⟨hok, fun b hb => ?_⟩
    obtain ⟨a, hpage, hQ⟩ := hblock b hb
    refine ⟨f, a, ?_, ⟨i, hf⟩, hpage, hQ⟩
    unfold Serv.fileOf
    rw [hi]
    exact hf

/-- `open_alloc` changes no file. -/
theorem openAlloc_keeps (hX : Fs.Closed nb X) (hs : s.fs.Ok nb s.Opened X) :
    s.openAlloc.2.2.fs.Ok nb s.Opened X ∧ ∀ f, s.openAlloc.2.2.Opened f ↔ s.Opened f := by
  rcases Serv.openAlloc_cases s with ⟨-, h⟩ | ⟨i, mem, -, h⟩
  · rw [h]
    exact ⟨hs, fun f => Iff.rfl⟩
  · rw [h]
    refine ⟨hs.congr hX rfl fun _ hb => hb, fun f => exists_congr fun j => ?_⟩
    rcases eq_or_ne j i with rfl | hj
    · simp [Serv.taken, Serv.takeSlot, Serv.setOpen, Serv.setFf, Serv.setRef]
    · simp [Serv.taken, Serv.takeSlot, Serv.setOpen, Serv.setFf, Serv.setRef, Function.update_of_ne hj]

private theorem opened_filled {i : Fin MAXOPEN} {f g : FilePtr} {omode : Word} {ws : Fin 64 → Word} {fs : Fs}
    (h : (filled { s with fs := fs } i f omode ws).Opened g) : With s.Opened f g := by
  obtain ⟨j, hj⟩ := h
  rcases eq_or_ne j i with rfl | hji
  · simp only [filled, Serv.setOpen, Serv.setFf, Function.update_self, Option.some.injEq] at hj
    exact .inr hj.symm
  · simp only [filled, Serv.setOpen, Serv.setFf, Function.update_of_ne hji] at hj
    exact .inl ⟨j, hj⟩

private theorem serveOpen_keeps {path : List Byte} {omode : Word} {junk : Option (Fin MAXOPEN)} (hX : Fs.Closed nb X)
    (hs : s.fs.Ok nb s.Opened X) (hl : NoStale l) (h : serveOpen path omode junk s = some (l, r, t)) :
    t.fs.Ok nb t.Opened X := by
  obtain ⟨l₀, q, u, hwalk, h⟩ := serveOpen_some h
  obtain ⟨hok, hO⟩ := openAlloc_keeps hX hs
  have hstale (l₂ : List ServLog) (hll : l = allocReply s.openAlloc.1 ++ (l₀.map .fs ++ l₂)) : ∀ o ∈ l₀, NotStale o := by
    rw [hll] at hl
    exact hl.of_fs
  rcases h with ⟨e, rfl, rfl, hll⟩ | ⟨f, i, ws, rfl, -, -, rfl, hll⟩
  · have hend := FsProc.walkPath_spec hX path _ _ _ _ hok hwalk (hstale _ hll)
    exact hend.anti hX fun f hf => (hO f).1 hf
  · have hend := FsProc.walkPath_spec hX path _ _ _ _ hok hwalk (hstale _ hll)
    refine hend.anti hX fun g hg => ?_
    exact (opened_filled hg).imp_left (hO g).1

/-- A request keeps the invariant. -/
private theorem serve_keeps {req : FsReq} {junk : Option (Fin MAXOPEN)} (hX : Fs.Closed nb X) (hs : s.fs.Ok nb s.Opened X)
    (hl : NoStale l) (h : serve junk req s = some (l, r, t)) : t.fs.Ok nb t.Opened X := by
  have htrue {α : Type} {O : FilePtr → Prop} {x : FsProc α} (hx : FsProc.Keeps nb O X x) :
      Proc.Spec NotStale (Fs.Ok nb O X) x (Proc.Ends (fun _ u => u.Ok nb O X ∧ True) (Fs.Ok nb O X)) :=
    hx.post fun _ _ hu => ⟨hu, trivial⟩
  have hreply {α : Type} {x : FsProc α} {page : α → Option ReplyPage} (hx : FsProc.Keeps nb s.Opened X x)
      (h : replyTo x page s = some (l, r, t)) : t.fs.Ok nb t.Opened X := by
    obtain ⟨hok, htab, -⟩ := replyTo_keeps (htrue hx) hs hl h
    have hO : t.Opened = s.Opened := by
      unfold Serv.Opened
      rw [htab]
    rwa [hO]
  cases req with
  | «open» path omode => exact serveOpen_keeps hX hs hl h
  | map fileid offset =>
    exact (withOpen_keeps (Q := fun _ _ _ => True)
      (fun f hf => htrue ((FsProc.fileGetBlock_spec hX hf _).post fun _ _ hu => hu.1)) hs hl h).1
  | setSize fileid size =>
    exact (withOpen_keeps (Q := fun _ _ _ => True) (fun f hf => htrue (FsProc.fileSetSize_spec hX hf _)) hs hl h).1
  | close fileid =>
    have hst : FsProc.Steady (Fs.Ok nb s.Opened X) := FsProc.steady_ok hX
    exact (withOpen_keeps (Q := fun _ _ _ => True)
      (fun f _ => htrue (.bind (FsProc.fileFlush_look hst f) fun _ => FsProc.flushDir_look hst f)) hs hl h).1
  | dirty fileid offset =>
    have hst : FsProc.Steady (Fs.Ok nb s.Opened X) := FsProc.steady_ok hX
    exact (withOpen_keeps (Q := fun _ _ _ => True) (fun f _ => htrue (FsProc.fileDirty_look hst f _)) hs hl h).1
  | remove path => exact hreply (FsProc.fileRemove_spec hX path) h
  | sync => exact hreply (FsProc.fsSync_look (FsProc.steady_ok hX)) h
  | other code =>
    cases h
    exact hs

/-- What `serve_map` sends is the block that the pointer of the file says. -/
private theorem serveMap_block {fileid offset : Word} (hX : Fs.Closed nb X) (hs : s.fs.Ok nb s.Opened X) (hl : NoStale l)
    (h : serveMap fileid offset s = some (l, r, t)) {b : Nat} (hb : b ∈ l.filterMap ServLog.block) :
    ∃ f, s.fileOf fileid = some f ∧ t.Opened f ∧ t.fs.view.ptr f (.data (offset.toNat / BY2BLK)) = b ∧ b ≠ 0 ∧
      t.fs.Mapped b := by
  have hkeeps := withOpen_keeps (fun f hf => FsProc.fileGetBlock_spec hX hf _) hs hl h
  obtain ⟨f, a, hf, hO, hpage, ⟨hptr, h0⟩, hmap⟩ := hkeeps.2 b hb
  cases hpage
  refine ⟨f, hf, ?_, hptr, h0, hmap⟩
  rcases withOpen_some h with ⟨-, rfl, -⟩ | ⟨i, g, -, -, h⟩
  · exact hO
  · obtain ⟨l₀, q, u, -, rfl, -⟩ := replyTo_some h
    exact hO

end ServProc

/-! ### The invariant of the system -/

namespace FileSys

variable {ι : Type} {nb : Nat} {Z : FilePtr → Nat → Prop} {s t : FileSys ι}

/-- The server is in order, the pages that clients have are, and the places in `Z` are zero. -/
def Inv (nb : Nat) (Z : FilePtr → Nat → Prop) (s : FileSys ι) : Prop :=
  s.serv.fs.Ok nb s.serv.Opened fun L M v => HeldOk nb s.held L M v ∧ Clean Z L M v

private theorem closed_inv (held : List (Hold ι)) (Z : FilePtr → Nat → Prop) :
    Fs.Closed nb fun L M v => HeldOk nb held L M v ∧ Clean Z L M v :=
  (closed_heldOk held).and (closed_clean Z)

/-- A page that is sent for a block of a file. -/
private theorem heldOk_new {v : View} {M : Nat → Prop} {O : FilePtr → Prop} {f : FilePtr} {i b : Nat} {e : ι}
    (hgood : v.Good nb M O) (hf : v.Live O f) (hptr : v.ptr f (.data i) = b) (h0 : b ≠ 0) (hM : M b) :
    HeldOk nb [(⟨e, f, i, b, v.get f.blk (f.off + 33) == FTYPE_DIR⟩ : Hold ι)] (v.Live O) M v := by
  intro h hh
  obtain rfl := List.mem_singleton.1 hh
  have hne : v.ptr f (.data i) ≠ 0 := hptr ▸ h0
  refine ⟨hM, hptr ▸ (hgood.own f _ hf hne).1, fun g k hg heq => ?_, fun hdir => ?_⟩
  · have hsame : v.ptr g k = v.ptr f (.data i) := heq.trans hptr.symm
    exact hgood.inj g f k (.data i) hg hf (hsame ▸ hne) hsame
  · have hnot : ¬ v.IsDir f := by
      unfold View.IsDir
      simpa using hdir
    exact ⟨fun _ => hnot, fun g hg heq => hnot (hgood.dirs hf hg (hptr.trans heq.symm)).1⟩

private theorem HeldOk.append {L : FilePtr → Prop} {M : Nat → Prop} {v : View} {l₁ l₂ : List (Hold ι)}
    (h₁ : HeldOk nb l₁ L M v) (h₂ : HeldOk nb l₂ L M v) : HeldOk nb (l₁ ++ l₂) L M v := by
  intro h hh
  rcases List.mem_append.1 hh with hh | hh
  · exact h₁ h hh
  · exact h₂ h hh

/-- A page that a client has for a file that is no directory is not used otherwise. -/
private theorem unused_hold {v : View} {M : Nat → Prop} {O : FilePtr → Prop} {held : List (Hold ι)} {h : Hold ι}
    (hheld : HeldOk nb held (v.Live O) M v) (hh : h ∈ held) (hdir : h.dir = false) :
    View.Unused O v fun b => b = h.bno := by
  obtain ⟨-, hmeta, howner, hd⟩ := hheld h hh
  obtain ⟨hnot, hblk⟩ := hd hdir
  constructor
  · exact fun f hf => hblk f hf
  · intro f hf _ heq
    have hk := (howner f .indirect hf heq).2
    cases hk
  · intro f i hf hfdir _ heq
    obtain ⟨rfl, -⟩ := howner f (.data i) hf heq
    exact hnot hf hfdir

theorem Inv.request {e : ι} {req : FsReq} {junk : Option (Fin MAXOPEN)} (hI : s.Inv nb Z)
    (hstale : ∀ l r t, ServProc.serve junk req s.serv = some (l, r, t) → ServProc.NoStale l)
    (h : s.request e req junk = some t) : t.Inv nb Z := by
  obtain ⟨⟨l, r, u⟩, hserve, rfl⟩ := Option.map_eq_some_iff.1 h
  have hl := hstale l r u hserve
  have hX : Fs.Closed nb fun L M v => HeldOk nb s.held L M v ∧ Clean Z L M v := closed_inv s.held Z
  have hok := ServProc.serve_keeps hX hI hl hserve
  refine hok.imp fun hex => ⟨HeldOk.append ?_ hex.1, hex.2⟩
  intro x hx
  cases req with
  | map fileid offset =>
    unfold newHolds at hx
    dsimp only at hx
    cases hf : s.serv.fileOf fileid with
    | none =>
      rw [hf] at hx
      cases hx
    | some f =>
      rw [hf] at hx
      obtain ⟨b, hb, rfl⟩ := List.mem_map.1 hx
      obtain ⟨g, hg, hO, hptr, h0, hM⟩ := ServProc.serveMap_block hX hI hl hserve hb
      obtain rfl : f = g := Option.some.inj (hf.symm.trans hg)
      exact heldOk_new hok.good (.opened hO) hptr h0 hM _ (List.mem_singleton.2 rfl)
  | _ => cases hx

theorem Inv.memory (hI : s.Inv nb Z) (mem : Nat) (ref : Fin MAXOPEN → Nat) :
    ({ s with serv := { s.serv with fs := { s.serv.fs with mem := mem }, ref := ref } } : FileSys ι).Inv nb Z :=
  Fs.Ok.congr hI (closed_inv s.held Z) rfl fun _ hb => hb

/-! ### The start -/

private theorem view_mount_of_ne {disk : View} {mem b : Nat} (hb : b ≠ 0) : (Fs.mount disk mem).view b = disk b := by
  unfold Fs.view Fs.mount
  dsimp only
  split
  · next h =>
    split at h
    · cases h
      rfl
    · cases h
  · rfl

private theorem agree_mount (disk : View) (mem : Nat) : View.Agree (fun b => b = 0) disk (Fs.mount disk mem).view := by
  intro b off hb
  unfold View.get
  rw [view_mount_of_ne hb]

/-- A well formed disk, and block 0 that no file uses. -/
private theorem good_disk {disk : View} (hd : WellFormed disk) (mem : Nat) :
    disk.Good (disk.get 1 1).toNat (Fs.mount disk mem).Mapped fun _ => False :=
  ⟨hd.used, hd.own, hd.inj, fun _ h => h.elim⟩

private theorem unused_zero {disk : View} (hd : WellFormed disk) : View.Unused (fun _ => False) disk fun b => b = 0 :=
  ⟨fun _ hf => (good_disk hd 0).blk_ne_zero hf, fun _ _ h => h, fun _ _ _ _ h => h⟩

theorem mount_shrinks {disk : View} (hd : WellFormed disk) (mem : Nat) :
    View.Shrinks (fun _ => False) disk (Fs.mount disk mem).view :=
  (unused_zero hd).shrinks (agree_mount disk mem)

theorem inv_start {disk : View} (hd : WellFormed disk) (mem : Nat) :
    (start disk mem : FileSys ι).Inv (disk.get 1 1).toNat fun _ _ => False := by
  have hgood := good_disk hd mem
  have hag := agree_mount disk mem
  have hunused := unused_zero hd
  have hfree (b : Nat) : (Fs.mount disk mem).view.IsFree b ↔ disk.IsFree b := by
    unfold View.IsFree
    rw [hag _ _ (by omega)]
  have hok : (Fs.mount disk mem).Ok (disk.get 1 1).toNat (fun _ => False)
      fun L M v => HeldOk (disk.get 1 1).toNat ([] : List (Hold ι)) L M v ∧ Clean (fun _ _ => False) L M v := by
    constructor
    · rw [hag 1 1 (by omega)]
    · intro b _ hb
      unfold Fs.Mapped Fs.mount
      dsimp only
      rw [if_pos hb]
      rfl
    · refine hgood.shrink (hunused.shrinks hag) (fun b hb h => hd.used b hb ((hfree b).1 h)) fun f k hf h0 h => ?_
      rw [hunused.ptr_eq hag hf] at h0 h
      exact (hd.own f k hf h0).2.2 ((hfree _).1 h)
    · exact ⟨fun _ h => (List.not_mem_nil h).elim, fun _ _ h => h.elim⟩
  refine hok.anti (closed_inv [] _) ?_
  rintro f ⟨i, hi⟩
  cases hi

/-! ### Stores -/

variable [DecidableEq ι]

section Store

variable {h : Hold ι} {off : Nat} {x : Byte}

/-- What a store does to the view. -/
theorem store_some (hs : s.store h off x = some t) : h ∈ s.held ∧ off < BY2BLK ∧ t.held = s.held ∧
    t.serv.Opened = s.serv.Opened ∧
    t.serv.fs.view = s.serv.fs.view.set h.bno (off / 4) (setByte (s.serv.fs.view.get h.bno (off / 4)) (off % 4) x) ∧
    (∀ b, t.serv.fs.Mapped b ↔ s.serv.fs.Mapped b) ∧
    ∀ f pos, t.fresh f pos ↔ s.fresh f pos ∧
      ¬ (f = h.file ∧ pos = h.filebno * BY2BLK + off ∧ s.serv.fs.view.ptr f (.data h.filebno) = h.bno) := by
  unfold FileSys.store at hs
  split at hs
  case isFalse => cases hs
  case isTrue hin =>
  obtain ⟨w, hw, hs⟩ := Option.bind_eq_some_iff.1 hs
  obtain ⟨fs, hfs, rfl⟩ := Option.map_eq_some_iff.1 hs
  obtain ⟨hview, hmap⟩ := Fs.setWord?_view hfs
  rw [Fs.word?_view hw]
  refine ⟨hin.1, hin.2, rfl, rfl, hview, hmap, fun f pos => ?_⟩
  show (s.fresh f pos && !decide _) = true ↔ _
  rw [Bool.and_eq_true, Bool.not_eq_true', decide_eq_false_iff_not]

variable (hI : s.Inv nb Z) (hdir : h.dir = false) (hs : s.store h off x = some t)

include hI hdir hs

theorem Inv.store_unused : View.Unused s.serv.Opened s.serv.fs.view fun b => b = h.bno :=
  unused_hold hI.extra.1 (store_some hs).1 hdir

omit hI hdir in
theorem store_agree : View.Agree (fun b => b = h.bno) s.serv.fs.view t.serv.fs.view := by
  rw [(store_some hs).2.2.2.2.1]
  exact View.agree_set rfl

/-- A store changes one byte of the file that the page was sent for. -/
theorem Inv.store_byteAt {g : FilePtr} (hg : s.serv.fs.view.Live s.serv.Opened g) (pos : Nat)
    (hne : ¬ (g = h.file ∧ pos = h.filebno * BY2BLK + off ∧ s.serv.fs.view.ptr g (.data h.filebno) = h.bno)) :
    t.serv.fs.view.byteAt g pos = s.serv.fs.view.byteAt g pos := by
  have hptr := (hI.store_unused hdir hs).ptr_eq (store_agree hs) hg (k := .data (pos / BY2BLK))
  obtain ⟨hheld, hoff, -, -, hview, -⟩ := store_some hs
  by_cases hb : s.serv.fs.view.ptr g (.data (pos / BY2BLK)) = h.bno
  · obtain ⟨hgf, hk⟩ := (hI.extra.1 h hheld).2.2.1 g _ hg hb
    have hblk : pos / BY2BLK = h.filebno := FileSlot.data.inj hk
    have hpos : pos % BY2BLK ≠ off := by
      intro heq
      refine hne ⟨hgf, ?_, ?_⟩
      · rw [← hblk, ← heq]
        exact (Nat.div_add_mod' pos BY2BLK).symm
      · rw [← hblk]
        exact hb
    -- another byte of the block
    have hmod4 : pos % 4 = pos % BY2BLK % 4 := by
      unfold BY2BLK
      omega
    unfold View.byteAt
    rw [hptr, hb, hview]
    split
    · rfl
    · rw [View.get_set (by unfold BY2BLK at hoff; omega)]
      split
      · next hw =>
        rw [byteOf_setByte (by omega) (by omega), if_neg (by omega), hw.2]
      · rfl
  · refine byteAt_congr hptr fun _ => ?_
    rw [hview]
    exact View.get_set_of_ne fun heq => hb (congrArg Prod.fst heq)

theorem Inv.store : t.Inv nb fun f pos => Z f pos ∧
    ¬ (f = h.file ∧ pos = h.filebno * BY2BLK + off ∧ s.serv.fs.view.ptr f (.data h.filebno) = h.bno) := by
  have hunused := hI.store_unused hdir hs
  have hagree := store_agree hs
  have hshrinks := hunused.shrinks hagree
  have hbyte {g : FilePtr} (hg : s.serv.fs.view.Live s.serv.Opened g) := hI.store_byteAt hdir hs hg
  obtain ⟨hheld, hoff, hheld', hO, hview, hmap, -⟩ := store_some hs
  have hmeta := (hI.extra.1 h hheld).2.1
  have hlast := View.two_le_lastMeta nb
  have hptr {g : FilePtr} {k : FileSlot} (hg : s.serv.fs.view.Live s.serv.Opened g) :
      t.serv.fs.view.ptr g k = s.serv.fs.view.ptr g k := hunused.ptr_eq hagree hg
  unfold Inv
  rw [hO, hheld']
  constructor
  · rw [hagree 1 1 (by omega)]
    exact hI.nblocks
  · exact fun b h1 hb => (hmap b).2 (hI.mapped b h1 hb)
  · refine (hI.good.agree_unused hunused hagree fun b hb heq => ?_).mono fun b hb => (hmap b).2 hb
    omega
  · constructor
    · intro y hy
      obtain ⟨h1, h2, h3, h4⟩ := hI.extra.1 y hy
      refine ⟨(hmap _).2 h1, h2, fun g k hg heq => ?_, fun hd => ⟨fun hf hfd => ?_, fun g hg => ?_⟩⟩
      · rw [hptr (hshrinks.live hg)] at heq
        exact h3 g k (hshrinks.live hg) heq
      · exact (h4 hd).1 (hshrinks.live hf) ((hunused.isDir_iff hagree (hshrinks.live hf)).1 hfd)
      · exact (h4 hd).2 g (hshrinks.live hg)
    · rintro g pos ⟨hz, hne⟩ hg hgd
      have hlive := hshrinks.live hg
      rw [hbyte hlive pos hne]
      exact hI.extra.2 g pos hz hlive fun hd => hgd ((hunused.isDir_iff hagree hlive).2 hd)

end Store

theorem Inv.unmap (hI : s.Inv nb Z) (h : Hold ι) : ({ s with held := s.held.filter (· ≠ h) } : FileSys ι).Inv nb Z :=
  hI.imp fun hex => ⟨fun x hx => hex.1 x ((List.mem_filter.1 hx).1), hex.2⟩

end FileSys

end Mos
