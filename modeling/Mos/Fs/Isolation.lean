import Mos.Fs.FileInv

/-!
# Files do not share blocks

In runs in which `alloc_block` hands out no block that is still in the cache, and clients do not write to directories.
-/

namespace Mos

open View (Live)

namespace FileSys

variable {ι : Type} {s t : FileSys ι}

/-- No block is handed out whose page is in the cache, and no client writes to a directory. -/
def sound? (s : FileSys ι) : FileEvent ι → Bool
  | .request _ req junk => match ServProc.serve junk req s.serv with
    | some p => p.1.all fun o => !o.stale
    | none => true
  | .store h _ _ => !h.dir
  | .unmap _ => true
  | .memory _ _ => true

/-- A file that is no directory is only extended over places that are zero already. -/
def zero? (s : FileSys ι) : FileEvent ι → Bool
  | .request _ (.setSize fileid newsize) _ => match s.serv.fileOf fileid with
    | some f => s.serv.fs.view.IsDir f ∨
        ∀ pos, pos < newsize.toNat → s.serv.fs.view.size f ≤ pos → s.serv.fs.view.byteAt f pos = 0
    | none => true
  | _ => true

/-- The block numbers in the files that can be reached are blocks in use that are not metadata, and each is there once. -/
def Owned (s : FileSys ι) : Prop := ∀ f k, s.serv.fs.view.Reachable f → s.serv.fs.view.ptr f k ≠ 0 →
  s.serv.fs.view.ptr f k < (s.serv.fs.view.get 1 1).toNat ∧ ¬ s.serv.fs.view.IsFree (s.serv.fs.view.ptr f k) ∧
    lastMeta (s.serv.fs.view.get 1 1).toNat < s.serv.fs.view.ptr f k ∧
    ∀ g k', s.serv.fs.view.Reachable g → s.serv.fs.view.ptr g k' = s.serv.fs.view.ptr f k → g = f ∧ k' = k

/-- A file that can be reached or is open. -/
def InUse (s : FileSys ι) (f : FilePtr) : Prop := s.serv.fs.view.Live s.serv.Opened f

private theorem Inv.owned {nb : Nat} {Z : FilePtr → Nat → Prop} (hI : s.Inv nb Z) : s.Owned := by
  intro f k hf h0
  have hlive {g : FilePtr} (hg : s.serv.fs.view.Reachable g) : s.serv.fs.view.Live s.serv.Opened g :=
    Live.mono hg fun _ h => h.elim
  have hown := hI.good.own f k (hlive hf) h0
  rw [hI.nblocks]
  refine ⟨hown.2.1, hown.2.2, hown.1, fun g k' hg heq => ?_⟩
  obtain ⟨hfg, hkk⟩ := hI.good.inj f g k k' (hlive hf) (hlive hg) h0 heq.symm
  exact ⟨hfg.symm, hkk.symm⟩

private theorem noStale_of_sound {e : ι} {req : FsReq} {junk : Option (Fin MAXOPEN)} (h : s.sound? (.request e req junk)) :
    ∀ l r t, ServProc.serve junk req s.serv = some (l, r, t) → ServProc.NoStale l := by
  intro l r t hserve o ho
  dsimp only [sound?] at h
  rw [hserve] at h
  simpa using List.all_eq_true.1 h o ho

private theorem byteAt_of_zero {e : ι} {req : FsReq} {junk : Option (Fin MAXOPEN)} (h : s.zero? (.request e req junk))
    {f : FilePtr} {pos : Nat} (hext : extends? s.serv req f pos) (hdir : ¬ s.serv.fs.view.IsDir f) :
    s.serv.fs.view.byteAt f pos = 0 := by
  cases req with
  | setSize fileid newsize =>
    obtain ⟨hf, hge, hlt⟩ := of_decide_eq_true hext
    dsimp only [zero?] at h
    rw [hf] at h
    exact (of_decide_eq_true h).resolve_left hdir pos hlt hge
  | _ => cases hext

variable [DecidableEq ι]

/-- A block that a client has a page of belongs to the file that the page was sent for, or to none; and a store to the
page of a file that is no directory changes no other file. -/
def HoldsOk (s : FileSys ι) : Prop := ∀ h ∈ s.held,
  (∀ g k, s.InUse g → s.serv.fs.view.ptr g k = h.bno → g = h.file ∧ k = .data h.filebno) ∧
    (h.dir = false → ∀ off x t, s.store h off x = some t → ∀ g, s.InUse g → g ≠ h.file →
      t.serv.fs.view.size g = s.serv.fs.view.size g ∧ ∀ pos, t.serv.fs.view.byteAt g pos = s.serv.fs.view.byteAt g pos)

/-- What nobody has written to since the file was extended over it is zero. -/
def NoLeak (s : FileSys ι) : Prop := ∀ f pos, s.fresh f pos → s.InUse f → ¬ s.serv.fs.view.IsDir f →
  s.serv.fs.view.byteAt f pos = 0

private theorem Inv.step {nb : Nat} {Z Z' : FilePtr → Nat → Prop} {ev : FileEvent ι} (hI : s.Inv nb Z) (hok : s.sound? ev)
    (h : s.step ev = some t)
    (hreq : ∀ e req junk, ev = .request e req junk → ∀ f pos, Z' f pos → Z f pos ∨
      (¬ s.serv.fs.view.IsDir f → s.serv.fs.view.byteAt f pos = 0))
    (hstore : ∀ h off x, ev = .store h off x → ∀ f pos, Z' f pos → Z f pos ∧
      ¬ (f = h.file ∧ pos = h.filebno * BY2BLK + off ∧ s.serv.fs.view.ptr f (.data h.filebno) = h.bno))
    (hrest : (∀ e req junk, ev ≠ .request e req junk) → ∀ f pos, Z' f pos → Z f pos) : t.Inv nb Z' := by
  have hanti {u : FileSys ι} {Y : FilePtr → Nat → Prop} (hu : u.Inv nb Y) (hY : ∀ f pos, Z' f pos → Y f pos) :
      u.Inv nb Z' := hu.imp fun hex => ⟨hex.1, fun g pos hz => hex.2 g pos (hY g pos hz)⟩
  cases ev with
  | request e req junk =>
    refine Inv.request (s := s) (hI.imp fun hex => ⟨hex.1, fun g pos hz hg hdir => ?_⟩) (noStale_of_sound hok) h
    rcases hreq e req junk rfl g pos hz with hz | hz
    · exact hex.2 g pos hz hg hdir
    · exact hz hdir
  | store x off y => exact hanti (hI.store (by simpa [sound?] using hok) h) (hstore x off y rfl)
  | unmap x =>
    cases h
    exact hanti (hI.unmap x) (hrest nofun)
  | memory mem ref =>
    cases h
    exact hanti (hI.memory mem ref) (hrest nofun)

theorem inv_of_reach (h : (fileSys ι).Reach (fun s ev => s.sound? ev) s) : ∃ nb, s.Inv nb fun _ _ => False := by
  refine h.invariant (I := fun s => ∃ nb, s.Inv nb fun _ _ => False) ?_ ?_
  · rintro _ ⟨disk, mem, hd, rfl⟩
    exact ⟨_, inv_start hd mem⟩
  · rintro s ev t ⟨nb, hI⟩ hok hs
    exact ⟨nb, hI.step hok hs (fun _ _ _ _ _ _ h => h.elim) (fun _ _ _ _ _ _ h => h.elim) fun _ _ _ h => h.elim⟩

/-! ### Ownership -/

/-- In every run in which no block is handed out that is still in the cache, blocks have one owner. -/
theorem owned_of_reach (h : (fileSys ι).Reach (fun s ev => s.sound? ev) s) : s.Owned := by
  obtain ⟨nb, hI⟩ := inv_of_reach h
  exact hI.owned

/-! ### Pages of clients -/

private theorem Inv.holdsOk {nb : Nat} {Z : FilePtr → Nat → Prop} (hI : s.Inv nb Z) : s.HoldsOk := by
  intro h hh
  refine ⟨(hI.extra.1 h hh).2.2.1, fun hdir off x t hs g hg hne => ⟨?_, fun pos => ?_⟩⟩
  · have hblk := (hI.store_unused hdir hs).blk g hg
    unfold View.size
    rw [store_agree hs _ _ hblk]
  · exact hI.store_byteAt hdir hs hg pos fun hsame => hne hsame.1

theorem holdsOk_of_reach (h : (fileSys ι).Reach (fun s ev => s.sound? ev) s) : s.HoldsOk := by
  obtain ⟨nb, hI⟩ := inv_of_reach h
  exact hI.holdsOk

/-! ### Old contents -/

/-- In every such run in which also no file is extended over old bytes, nothing of them can be read. -/
theorem noLeak_of_reach (h : (fileSys ι).Reach (fun s ev => s.sound? ev && s.zero? ev) s) : s.NoLeak := by
  have hI : ∃ nb, s.Inv nb fun f pos => s.fresh f pos := by
    refine h.invariant (I := fun s => ∃ nb, s.Inv nb fun f pos => s.fresh f pos) ?_ ?_
    · rintro _ ⟨disk, mem, hd, rfl⟩
      refine ⟨_, (inv_start hd mem).imp fun hex => ⟨hex.1, fun g pos hz => ?_⟩⟩
      cases hz
    · rintro s ev t ⟨nb, hI⟩ hboth hs
      obtain ⟨hok, hzero⟩ := (Bool.and_eq_true _ _ ▸ hboth : s.sound? ev = true ∧ s.zero? ev = true)
      refine ⟨nb, hI.step hok hs ?_ ?_ ?_⟩
      · rintro e req junk rfl f pos hz
        obtain ⟨p, -, rfl⟩ := Option.map_eq_some_iff.1 hs
        rcases Bool.or_eq_true_iff.1 hz with hz | hz
        · exact .inl hz
        · exact .inr (byteAt_of_zero hzero hz)
      · rintro x off y rfl f pos hz
        exact ((store_some hs).2.2.2.2.2.2 f pos).1 hz
      · intro hnot f pos hz
        cases ev with
        | request e req junk => exact absurd rfl (hnot e req junk)
        | store x off y => exact (((store_some hs).2.2.2.2.2.2 f pos).1 hz).1
        | unmap x =>
          cases hs
          exact hz
        | memory mem ref =>
          cases hs
          exact hz
  obtain ⟨nb, hI⟩ := hI
  exact fun f pos hz hf hdir => hI.extra.2 f pos hz hf hdir

/-! ### A small disk -/

/-- The superblock: six blocks, and a root directory of one block. -/
def smallSuper : Block := fun i =>
  if i.val = 1 then 6 else if i.val = 34 then 4096 else if i.val = 35 then 1 else if i.val = 36 then 3 else 0

/-- The root directory: `a` with one block, and `b`, which is empty. -/
def smallDir : Block := fun i =>
  if i.val = 0 then 97 else if i.val = 32 then 4096 else if i.val = 34 then 4 else if i.val = 64 then 98 else 0

/-- Blocks 0 to 4 are in use; the block of `a` has a 3 at word 10. -/
def smallDisk : View := fun b =>
  if b = 1 then smallSuper
  else if b = 2 then fun i => if i.val = 0 then 0xffffffe0 else 0
  else if b = 3 then smallDir
  else if b = 4 then fun i => if i.val = 10 then 3 else 7
  else fun _ => 0

def fileA : FilePtr := .entry 3 0
def fileB : FilePtr := .entry 3 1

private theorem ptr_small {f : FilePtr} (hf : f = .root ∨ f = fileA ∨ f = fileB) {k : FileSlot}
    (h0 : smallDisk.ptr f k ≠ 0) :
    k = .data 0 ∧ (f = .root ∧ smallDisk.ptr f k = 3 ∨ f = fileA ∧ smallDisk.ptr f k = 4) := by
  have hind : smallDisk.ptr f .indirect = 0 := by
    rcases hf with rfl | rfl | rfl
    · decide
    · decide
    · decide
  cases k with
  | indirect => exact absurd hind h0
  | data i =>
    have hi : i < NDIRECT := by
      by_contra hge
      refine h0 ?_
      simp only [View.ptr] at hind
      simp only [View.ptr, if_neg hge, if_pos hind]
    have hall : ∀ j : Nat, j < NDIRECT → smallDisk.ptr f (.data j) ≠ 0 →
        j = 0 ∧ (f = .root ∧ smallDisk.ptr f (.data j) = 3 ∨ f = fileA ∧ smallDisk.ptr f (.data j) = 4) := by
      rcases hf with rfl | rfl | rfl
      · decide
      · decide
      · decide
    obtain ⟨rfl, hrest⟩ := hall i hi h0
    exact ⟨rfl, hrest⟩

theorem reachable_small {f : FilePtr} (hf : smallDisk.Reachable f) : f = .root ∨ f = fileA ∨ f = fileB := by
  induction hf with
  | root => exact .inl rfl
  | opened h => exact h.elim
  | @entry d i j hd hdir hi hj hname ih =>
    obtain ⟨hi0, ⟨rfl, h3⟩ | ⟨rfl, -⟩⟩ := ptr_small ih hi
    · rw [h3] at hname ⊢
      have hnames : ∀ j : Nat, j < FILE2BLK → byteOf (smallDisk.get 3 (64 * j)) 0 ≠ 0 → j = 0 ∨ j = 1 := by decide
      rcases hnames j hj hname with rfl | rfl
      · exact .inr (.inl rfl)
      · exact .inr (.inr rfl)
    · have hnot : smallDisk.get 3 33 ≠ FTYPE_DIR := by decide
      exact absurd hdir hnot

theorem wellFormed_small : WellFormed smallDisk := by
  have hnb : smallDisk.get 1 1 = 6 := by decide
  have hused : ∀ b : Nat, b ≤ 4 → ¬ smallDisk.IsFree b := by
    intro b hb
    have hall : ∀ b : Nat, b ≤ 4 → (smallDisk.get (2 + b / 32 / 1024) (b / 32 % 1024)).getLsbD (b % 32) = false := by
      decide
    unfold View.IsFree
    rw [hall b hb]
    simp
  have hlast : lastMeta 6 = 2 := by decide
  constructor
  · intro b hb
    rw [hnb] at hb
    exact hused b (by simp only [BitVec.reduceToNat, hlast] at hb; omega)
  · intro f k hf h0
    rw [hnb]
    obtain ⟨-, ⟨-, h3⟩ | ⟨-, h4⟩⟩ := ptr_small (reachable_small hf) h0
    · rw [h3]
      exact ⟨by decide, by decide, hused 3 (by decide)⟩
    · rw [h4]
      exact ⟨by decide, by decide, hused 4 (by decide)⟩
  · intro f g k k' hf hg h0 heq
    obtain ⟨rfl, hf'⟩ := ptr_small (reachable_small hf) h0
    obtain ⟨rfl, hg'⟩ := ptr_small (reachable_small hg) (heq ▸ h0)
    refine ⟨?_, rfl⟩
    rcases hf' with ⟨rfl, h3⟩ | ⟨rfl, h4⟩
    · rcases hg' with ⟨rfl, -⟩ | ⟨rfl, h4'⟩
      · rfl
      · omega
    · rcases hg' with ⟨rfl, h3'⟩ | ⟨rfl, -⟩
      · omega
      · rfl

/-! ### Runs on the small disk -/

/-- What is found at the end of a run. -/
theorem reach_of_run {ok : FileSys (Fin 3) → FileEvent (Fin 3) → Bool} {evs : List (FileEvent (Fin 3))}
    {found : FileSys (Fin 3) → Bool}
    (h : ((fileSys (Fin 3)).run ok (.start smallDisk 10) evs).map found = some true) :
    ∃ s, (fileSys (Fin 3)).Reach (fun s ev => ok s ev) s ∧ found s := by
  obtain ⟨s, hs, hfound⟩ := Option.map_eq_some_iff.1 h
  exact ⟨s, .run (.start ⟨smallDisk, 10, wellFormed_small, rfl⟩) hs, hfound⟩

/-- The clients that opened slots have their descriptors. -/
def openSlots (n : Nat) : FileEvent (Fin 3) := .memory 10 fun i => if i.val < n then 2 else 0

/-- Client 0 maps the block of `a`, client 1 removes `a`, and client 2 opens `b`. -/
def removeA : List (FileEvent (Fin 3)) :=
  [.request 0 (.open [97] 0) none, openSlots 1, .request 0 (.map 1024 0) none, .request 1 (.remove [97]) none,
    .request 2 (.open [98] 0) none, openSlots 2]

/-- Client 2 opens `b`. -/
def openB : List (FileEvent (Fin 3)) := [.request 2 (.open [98] 0) none, openSlots 1]

theorem reachable_fileB {v : View} (h3 : v.ptr .root (.data 0) = 3) (hdir : v.IsDir .root) (hname : v.Named fileB) :
    v.Reachable fileB := by
  have hlive := Live.entry (O := fun _ => False) (v := v) (i := 0) (j := 1) .root hdir
  rw [h3] at hlive
  exact hlive (by decide) (by decide) hname

theorem owned_of_reach_map : ∃ s : FileSys (Fin 3), s.serv.fs.view.ptr fileB (.data 0) = 5 ∧ s.Owned := by
  have hrun : ((fileSys (Fin 3)).run sound? (.start smallDisk 10) (openB ++ [.request 2 (.map 1024 0) none])).map
      (fun s => s.serv.fs.view.ptr fileB (.data 0) == 5) = some true := by decide +kernel
  obtain ⟨s, hs, hfound⟩ := reach_of_run hrun
  exact ⟨s, beq_iff_eq.1 hfound, owned_of_reach hs⟩

/-- The block of `a` becomes the indirect block of `b`, with what was in it: a block of `b` is that of the root. -/
theorem exists_shared : ∃ s : FileSys (Fin 3), (fileSys (Fin 3)).Reach (fun _ _ => True) s ∧ ¬ s.Owned := by
  have hrun : ((fileSys (Fin 3)).run (fun _ _ => true) (.start smallDisk 10)
      (removeA ++ [.request 2 (.map 1025 40960) none])).map
      (fun s => decide (s.serv.fs.view.ptr .root (.data 0) = 3 ∧ s.serv.fs.view.IsDir .root ∧
        s.serv.fs.view.Named fileB ∧ s.serv.fs.view.ptr fileB (.data 10) = 3)) = some true := by decide +kernel
  obtain ⟨s, hs, hfound⟩ := reach_of_run hrun
  obtain ⟨h3, hdir, hname, h10⟩ := of_decide_eq_true hfound
  refine ⟨s, hs.mono fun _ _ _ => trivial, fun howned => ?_⟩
  have hroot := (howned .root (.data 0) .root (by omega)).2.2.2 fileB (.data 10) (reachable_fileB h3 hdir hname)
    (h10.trans h3.symm)
  cases hroot.2

theorem holdsOk_of_reach_map : ∃ s : FileSys (Fin 3), s.held = [⟨2, fileB, 0, 5, false⟩] ∧ s.HoldsOk := by
  have hrun : ((fileSys (Fin 3)).run sound? (.start smallDisk 10) (openB ++ [.request 2 (.map 1024 0) none])).map
      (fun s => s.held == [⟨2, fileB, 0, 5, false⟩]) = some true := by decide +kernel
  obtain ⟨s, hs, hfound⟩ := reach_of_run hrun
  exact ⟨s, by simpa using hfound, holdsOk_of_reach hs⟩

/-- Client 0 has the block of `a`, which was removed, when it becomes a block of `b`. -/
theorem exists_hold_stolen : ∃ s : FileSys (Fin 3), (fileSys (Fin 3)).Reach (fun _ _ => True) s ∧ ¬ s.HoldsOk := by
  have hrun : ((fileSys (Fin 3)).run (fun _ _ => true) (.start smallDisk 10)
      (removeA ++ [.request 2 (.map 1025 0) none])).map
      (fun s => decide (⟨0, fileA, 0, 4, false⟩ ∈ s.held ∧ s.serv.fs.view.ptr .root (.data 0) = 3 ∧
        s.serv.fs.view.IsDir .root ∧ s.serv.fs.view.Named fileB ∧ s.serv.fs.view.ptr fileB (.data 0) = 4)) =
        some true := by decide +kernel
  obtain ⟨s, hs, hfound⟩ := reach_of_run hrun
  obtain ⟨hheld, h3, hdir, hname, h4⟩ := of_decide_eq_true hfound
  refine ⟨s, hs.mono fun _ _ _ => trivial, fun hok => ?_⟩
  have hlive : s.InUse fileB := (reachable_fileB h3 hdir hname).mono fun _ h => h.elim
  have hsame := ((hok _ hheld).1 fileB (.data 0) hlive h4).1
  have hne : fileB ≠ fileA := by decide
  exact hne hsame

theorem noLeak_of_reach_extend : ∃ s : FileSys (Fin 3), s.fresh fileB 3 ∧ s.serv.fs.view.ptr fileB (.data 0) = 5 ∧
    s.NoLeak := by
  have hrun : ((fileSys (Fin 3)).run (fun s ev => s.sound? ev && s.zero? ev) (.start smallDisk 10)
      (openB ++ [.request 2 (.setSize 1024 4) none, .request 2 (.map 1024 0) none])).map
      (fun s => s.fresh fileB 3 && s.serv.fs.view.ptr fileB (.data 0) == 5) = some true := by decide +kernel
  obtain ⟨s, hs, hfound⟩ := reach_of_run hrun
  obtain ⟨hfresh, hptr⟩ := Bool.and_eq_true_iff.1 hfound
  exact ⟨s, hfresh, beq_iff_eq.1 hptr, noLeak_of_reach hs⟩

/-- `b` is extended, and the block that it gets still has the bytes of `a`. -/
theorem exists_leak : ∃ s : FileSys (Fin 3), (fileSys (Fin 3)).Reach (fun _ _ => True) s ∧ ¬ s.NoLeak := by
  have hrun : ((fileSys (Fin 3)).run (fun _ _ => true) (.start smallDisk 10)
      (removeA ++ [.request 2 (.setSize 1025 4096) none, .request 2 (.map 1025 0) none])).map
      (fun s => decide (s.fresh fileB 0 ∧ s.serv.fs.view.ptr .root (.data 0) = 3 ∧ s.serv.fs.view.IsDir .root ∧
        s.serv.fs.view.Named fileB ∧ ¬ s.serv.fs.view.IsDir fileB ∧ s.serv.fs.view.byteAt fileB 0 = 7)) = some true := by
    decide +kernel
  obtain ⟨s, hs, hfound⟩ := reach_of_run hrun
  obtain ⟨hfresh, h3, hdir, hname, hnot, hbyte⟩ := of_decide_eq_true hfound
  refine ⟨s, hs.mono fun _ _ _ => trivial, fun hok => ?_⟩
  have hlive : s.InUse fileB := (reachable_fileB h3 hdir hname).mono fun _ h => h.elim
  have hzero := hok fileB 0 hfresh hlive hnot
  rw [hbyte] at hzero
  cases hzero

end FileSys

end Mos
