import Mos.Elf.Load
import Mos.User.Copy

/-!
# Another size for a file that is all in its window

The requests for another size and for blocks, and what `ftruncate` makes of them if none is refused.
-/

namespace Mos

open FdSpace (fdVpn dataVpn INDEX2FD fd2num fd2data rounds)

namespace Client

/-- The requests for these blocks are granted one after the other, and there is a table for each page; the block for the
pointers to blocks, if there is to be one, is not one that has something else in it. -/
def Supplies (f : FilePtr) (fileid va : Word) : List Nat → Client → Prop
  | [], _ => True
  | k :: ks, c => (NDIRECT ≤ k → c.serv.fs.IndirectReady f) ∧
      ∃ b d, c.ask (.map fileid (BitVec.ofNat 32 (k * 4096))) = some ((0, some (.block b)), d) ∧
        d.room (PDX (va + BitVec.ofNat 32 (k * 4096))) = true ∧
          Supplies f fileid va ks (d.arrive (va + BitVec.ofNat 32 (k * 4096)) (.block b))

/-- What is outside of the window, and the offset, stay as they are. -/
structure Aside (n : Fin MAXFD) (i : Fin MAXOPEN) (c d : Client) : Prop where
  own : d.own = c.own
  touched : d.touched = c.touched
  offset : d.rest i 1 = c.rest i 1
  page : ∀ v, (∀ k, v ≠ dataVpn n k) → d.map.page v = c.map.page v

theorem Aside.refl (n : Fin MAXFD) (i : Fin MAXOPEN) (c : Client) : Aside n i c c := ⟨rfl, rfl, rfl, fun _ _ => rfl⟩

variable {c d e : Client} {n : Fin MAXFD} {nb : Nat} {f : FilePtr} {i : Fin MAXOPEN} {m k b : Nat} {buf va size : Word}
  {len : Nat}

private theorem Aside.trans (h : Aside n i c d) (h' : Aside n i d e) : Aside n i c e :=
  ⟨h'.own.trans h.own, h'.touched.trans h.touched, h'.offset.trans h.offset, fun v hv => (h'.page v hv).trans (h.page v hv)⟩

theorem Aside.buffer (h : Aside n i c d) (hb : c.Buffer n buf len) : d.Buffer n buf len := by
  have hpage (j : Nat) (hj : j < len) :
      d.map.page (VPN (buf + BitVec.ofNat 32 j)) = c.map.page (VPN (buf + BitVec.ofNat 32 j)) := h.page _ (hb.outside j hj)
  refine ⟨hb.fits, hb.outside, fun j hj p hp => ?_, fun j hj j' hj' a ha ha' => ?_⟩
  · rw [hpage j hj] at hp
    exact hb.own j hj p hp
  · rw [hpage j hj] at ha
    rw [hpage j' hj'] at ha'
    exact hb.alone j hj j' hj' a ha ha'

theorem Aside.peek (h : Aside n i c d) (hb : c.Buffer n buf len) {j : Nat} (hj : j < len) :
    d.peek (buf + BitVec.ofNat 32 j) = c.peek (buf + BitVec.ofNat 32 j) := by
  have hpage := h.page _ (hb.outside j hj)
  unfold Client.peek
  cases hp : c.map.page (VPN (buf + BitVec.ofNat 32 j)) with
  | none => simp [hpage, hp]
  | some p =>
    obtain ⟨a, rfl⟩ := hb.own j hj p hp
    rw [hp] at hpage
    rw [hpage, load_own hpage, load_own hp, h.own]

theorem Aside.present (h : Aside n i c d) (hb : c.Buffer n buf len) (hp : c.Present buf len) : d.Present buf len := by
  intro j hj
  rw [h.page _ (hb.outside j hj)]
  exact hp j hj

/-! ### Requests -/

/-- The request of a handler of an open file that is granted. -/
private theorem Window.ask_open {α : Type} {req : FsReq} {x : FilePtr → FsProc α} {page : α → Option ReplyPage}
    {a : Word × Option ReplyPage} (hw : c.Window nb f n i m) (hneg : ¬a.1.slt 0 = true)
    (hreq : ServProc.serve c.junk req = ServProc.withOpen (c.serv.ff i).fFileid x page) (h : c.ask req = some (a, d))
    (ha : ∀ j, a.2 ≠ some (.desc j)) :
    ∃ l q fs, x f c.serv.fs = some (l, q, fs) ∧ d = c.setServ { c.serv with fs := fs } ∧
      (ServLog.answer (ServProc.answer page q) = some a) := by
  rcases ask_some h with ⟨-, hneg', -⟩ | ⟨l, r, t, hs, ha', rfl⟩
  · exact absurd hneg' hneg
  rw [hreq] at hs
  have hfile := hw.fileOf
  unfold Serv.fileOf at hfile
  rcases ServProc.withOpen_some hs with ⟨hnone, -, -⟩ | ⟨j, g, hj, hg, hreply⟩
  · rw [hnone] at hfile
    cases hfile
  obtain rfl : g = f := by
    rw [hj, Option.bind_some, hg] at hfile
    exact Option.some.inj hfile
  obtain ⟨l₀, q, fs, hx, rfl, rfl⟩ := ServProc.replyTo_some hreply
  rw [ServProc.answer_fs] at ha'
  refine ⟨l₀, q, fs, hx, ?_, ?_⟩
  · split
    · next j hd => exact absurd hd (ha j)
    · rfl
  · cases q with
    | ok v => exact ha'
    | error e => exact ha'

/-- A block that is granted. -/
private theorem Window.ask_map (hw : c.Window nb f n i m) (hk : k < 1024) (hready : NDIRECT ≤ k → c.serv.fs.IndirectReady f)
    (h : c.ask (.map (c.serv.ff i).fFileid (BitVec.ofNat 32 (k * 4096))) = some ((0, some (.block b)), d)) :
    ∃ fs, d = c.setServ { c.serv with fs := fs } ∧ Fs.Grew nb f c.serv.fs fs ∧ fs.view.ptr f (.data k) = b ∧ b ≠ 0 ∧
      fs.Mapped b := by
  obtain ⟨l, q, fs, hx, hd, ha⟩ := hw.ask_open (show ¬(0 : Word).slt 0 = true by decide) rfl h (by nofun)
  have hblk : (BitVec.ofNat 32 (k * 4096)).toNat / BY2BLK = k := by
    rw [BitVec.toNat_ofNat]
    show k * 4096 % 2 ^ 32 / 4096 = k
    omega
  cases q with
  | error e => cases ha
  | ok b' =>
    cases ha
    rw [hblk] at hx
    exact ⟨fs, hd, FsProc.fileGetBlock_grew hw.serves hready hx⟩

/-- A size that is granted. -/
private theorem Window.ask_setSize (hw : c.Window nb f n i m)
    (h : c.ask (.setSize (c.serv.ff i).fFileid size) = some ((0, none), d)) :
    ∃ fs, d = c.setServ { c.serv with fs := fs } ∧ Fs.Resized nb f size c.serv.fs fs := by
  obtain ⟨l, q, fs, hx, hd, -⟩ := hw.ask_open (show ¬(0 : Word).slt 0 = true by decide) rfl h (by nofun)
  exact ⟨fs, hd, FsProc.fileSetSize_resized hw.serves hx⟩

/-- The blocks of the file that has got some more. -/
private theorem Window.grew {fs : Fs} (hw : c.Window nb f n i m) (hg : Fs.Grew nb f c.serv.fs fs) :
    (c.setServ { c.serv with fs := fs }).Window nb f n i m :=
  hw.keep (.of_eq rfl rfl rfl fun _ => Iff.rfl) hg.serves (fun j hj => hg.grown.ptr j (hw.there j hj).1) hg.mapped
    (fun _ _ _ => rfl) (Nat.le_refl m)

/-- The page of the next block comes. -/
private theorem Window.arrive (hw : c.Window nb f n i m) (hm : m < 1024) (hroom : c.room (PDX (place n (m * 4096))) = true)
    (hptr : c.serv.fs.view.ptr f (.data m) = b) (h0 : b ≠ 0) (hmap : c.serv.fs.Mapped b) :
    (c.arrive (place n (m * 4096)) (.block b)).Window nb f n i (m + 1) ∧
      Aside n i c (c.arrive (place n (m * 4096)) (.block b)) ∧
        (c.arrive (place n (m * 4096)) (.block b)).serv.ff = c.serv.ff ∧
          (c.arrive (place n (m * 4096)) (.block b)).serv.fs.view = c.serv.fs.view := by
  have hvpn : VPN (place n (m * 4096)) = dataVpn n ⟨m, hm⟩ := by
    rw [VPN_place n (by omega)]
    exact congrArg (dataVpn n) (Fin.ext (Nat.mul_div_cancel m (by decide)))
  have hne : c.map.page (dataVpn n ⟨m, hm⟩) ≠ some (.sent (.desc i)) := hw.fd_ne (fdVpn_ne_data n _)
  have hkeeps : Keeps i c (c.arrive (place n (m * 4096)) (.block b)) := by
    unfold Client.arrive
    rw [if_pos hroom]
    obtain ⟨mem, hmem⟩ := c.withTable_eq (PDX (place n (m * 4096)))
    refine (Keeps.withTable c _).trans (.mapAt ?_ ?_ fun w hwv => ?_)
    · rw [hmem, hvpn]
      exact hne
    · rw [UserMap.insert_page]
      nofun
    · rw [hmem]
      exact UserMap.insert_page_of_ne hwv
  obtain ⟨mem, ref, heq⟩ := arrive_eq hroom (.block b)
  have hother (v : Vpn) (hv : v ≠ dataVpn n ⟨m, hm⟩) :
      (c.arrive (place n (m * 4096)) (.block b)).map.page v = c.map.page v := arrive_page_of_ne (hvpn ▸ hv) _
  have hview : (c.arrive (place n (m * 4096)) (.block b)).serv.fs.view = c.serv.fs.view := by
    rw [heq]
    rfl
  have hmapped (b' : Nat) : (c.arrive (place n (m * 4096)) (.block b)).serv.fs.Mapped b' ↔ c.serv.fs.Mapped b' := by
    rw [heq]
    exact Iff.rfl
  have hw' : (c.arrive (place n (m * 4096)) (.block b)).Window nb f n i m := by
    refine hw.keep hkeeps (hw.serves.congr hview fun b' hb' => (hmapped b').2 hb') (fun _ _ => by rw [hview])
      (fun b' hb' => (hmapped b').2 hb') (fun k hk hk' => hother _ fun hv => ?_) (Nat.le_refl m)
    have hkm := congrArg Fin.val (FdSpace.dataVpn_inj hv).2
    exact absurd hkm (Nat.ne_of_lt hk)
  refine ⟨⟨hw'.serves, hw'.slot, hw'.used, hw'.entry, hw'.oFile, hw'.devId, hw'.omode, hw'.desc, fun k hk => ?_,
    fun k hk => ?_⟩, ?_, ?_, hview⟩
  · rcases Nat.lt_succ_iff_lt_or_eq.1 hk with hk | rfl
    · exact hw'.pages k hk
    · refine ⟨hm, ?_⟩
      rw [← hvpn, arrive_page hroom, hview, hptr]
  · rcases Nat.lt_succ_iff_lt_or_eq.1 hk with hk | rfl
    · exact hw'.there k hk
    · rw [hview, hptr]
      exact ⟨h0, (hmapped b).2 hmap⟩
  · refine ⟨by rw [heq]; rfl, by rw [heq]; rfl, by rw [heq]; rfl, fun v hv => hother v (hv _)⟩
  · rw [heq]
    rfl

/-- A page of the window is unmapped, behind the first `m` ones. -/
private theorem Window.unmap (hw : c.Window nb f n i m) (hk : k < 1024) (hm : m ≤ k) :
    (c.memUnmap (place n (k * 4096))).1 = 0 ∧ (c.memUnmap (place n (k * 4096))).2.Window nb f n i m ∧
      Aside n i c (c.memUnmap (place n (k * 4096))).2 ∧ (c.memUnmap (place n (k * 4096))).2.serv.ff = c.serv.ff ∧
        (c.memUnmap (place n (k * 4096))).2.serv.fs = c.serv.fs := by
  have hvpn : VPN (place n (k * 4096)) = dataVpn n ⟨k, hk⟩ := by
    rw [VPN_place n (by omega)]
    exact congrArg (dataVpn n) (Fin.ext (Nat.mul_div_cancel k (by decide)))
  have hlegal : isIllegalVa (place n (k * 4096)) = false := by
    have hn : n.val < 32 := n.isLt
    have hplace := place_toNat n (show k * 4096 < 2 ^ 22 by omega)
    exact FdSpace.legal_of_toNat _ (by omega) (by omega)
  have hunmap : c.memUnmap (place n (k * 4096)) = (0, c.mapAt (dataVpn n ⟨k, hk⟩) (c.map.remove (dataVpn n ⟨k, hk⟩))) := by
    unfold Client.memUnmap
    rw [hlegal, hvpn]
    rfl
  rw [hunmap]
  have hne : c.map.page (dataVpn n ⟨k, hk⟩) ≠ some (.sent (.desc i)) := hw.fd_ne (fdVpn_ne_data n _)
  have hremoved : (c.map.remove (dataVpn n ⟨k, hk⟩)).page (dataVpn n ⟨k, hk⟩) = none := Function.update_self ..
  have hother (v : Vpn) (hv : v ≠ dataVpn n ⟨k, hk⟩) : (c.map.remove (dataVpn n ⟨k, hk⟩)).page v = c.map.page v :=
    Function.update_of_ne hv ..
  have hkeeps : Keeps i c (c.mapAt (dataVpn n ⟨k, hk⟩) (c.map.remove (dataVpn n ⟨k, hk⟩))) :=
    .mapAt hne (by rw [hremoved]; nofun) hother
  obtain ⟨ref, heq⟩ := c.mapAt_eq (dataVpn n ⟨k, hk⟩) (c.map.remove (dataVpn n ⟨k, hk⟩))
  rw [heq] at hkeeps ⊢
  refine ⟨rfl, ?_, ⟨rfl, rfl, rfl, fun v hv => hother v (hv _)⟩, rfl, rfl⟩
  refine hw.keep hkeeps hw.serves (fun _ _ => rfl) (fun _ hb => hb) (fun j hj hj' => hother _ fun hv => ?_) (Nat.le_refl m)
  have hjk := congrArg Fin.val (FdSpace.dataVpn_inj hv).2
  exact absurd hjk (Nat.ne_of_lt (Nat.lt_of_lt_of_le hj hm))

end Client

namespace UserFile

open Proc Client

variable {c d e : Client} {n : Fin MAXFD} {nb : Nat} {f : FilePtr} {i : Fin MAXOPEN} {m k b len : Nat} {va size : Word}

private theorem place_legal (n : Fin MAXFD) (hk : k < 1024) :
    ¬(place n (k * 4096) ≠ 0 ∧ isIllegalVa (place n (k * 4096)) = true) := by
  have hn : n.val < 32 := n.isLt
  have hplace := place_toNat n (show k * 4096 < 2 ^ 22 by omega)
  rw [FdSpace.legal_of_toNat _ (by omega) (by omega)]
  simp

/-- A block that is granted is mapped. -/
private theorem fsipcMap_granted {fileid : Word} (hk : k < 1024)
    (h : c.ask (.map fileid (BitVec.ofNat 32 (k * 4096))) = some ((0, some (.block b)), d)) :
    ∃ l, fsipcMap fileid (BitVec.ofNat 32 (k * 4096)) (place n (k * 4096)) c =
      some (l, .ok 0, d.arrive (place n (k * 4096)) (.block b)) := by
  have hipc : fsipc (.map fileid (BitVec.ofNat 32 (k * 4096))) (place n (k * 4096)) c =
      some ([⟨c.serv, .map fileid (BitVec.ofNat 32 (k * 4096)), 0⟩], .ok 0, d.arrive (place n (k * 4096)) (.block b)) := by
    unfold fsipc
    rw [if_neg (place_legal n hk), h]
    rfl
  have hend : (if (0 : Word).slt 0 then pure 0 else pure 0 : UserProc Word) (d.arrive (place n (k * 4096)) (.block b)) =
      some ([], .ok 0, d.arrive (place n (k * 4096)) (.block b)) := rfl
  exact ⟨_, bind_of_ok hipc hend⟩

/-- The next blocks of a file are mapped. -/
theorem mapPages_supplied (hw : c.Window nb f n i m) (hlen : m + len ≤ 1024)
    (hs : Supplies f (c.serv.ff i).fFileid (fd2data (INDEX2FD (BitVec.ofNat 32 n))) (List.range' m len) c) :
    ∃ l d, mapPages (c.serv.ff i).fFileid (fd2data (INDEX2FD (BitVec.ofNat 32 n))) (List.range' m len) c =
        some (l, .ok 0, d) ∧ d.Window nb f n i (m + len) ∧ Aside n i c d ∧ d.serv.ff = c.serv.ff ∧
          View.Grown nb c.serv.fs.view f d.serv.fs.view := by
  induction len generalizing m c with
  | zero => exact ⟨[], c, rfl, hw, .refl n i c, rfl, .refl ..⟩
  | succ len ih =>
    obtain ⟨hready, b, d, hask, hroom, hs⟩ := hs
    obtain ⟨fs, rfl, hgrew, hptr, h0, hmap⟩ := hw.ask_map (by omega) hready hask
    obtain ⟨hw', haside, hff, hview⟩ := (hw.grew hgrew).arrive (by omega) hroom hptr h0 hmap
    have hfid : ((Client.arrive (c.setServ { c.serv with fs := fs }) (place n (m * 4096)) (.block b)).serv.ff i).fFileid =
        (c.serv.ff i).fFileid := by
      rw [hff]
      rfl
    obtain ⟨l, e, he, hwe, haside', hff', hgrown⟩ := ih hw' (by omega) (by rw [hfid]; exact hs)
    obtain ⟨l₁, hstep⟩ := fsipcMap_granted (n := n) (show m < 1024 by omega) hask
    rw [hfid] at he
    refine ⟨l₁ ++ l, e, bind_of_ok hstep ?_, by rwa [show m + (len + 1) = m + 1 + len by omega], ?_, hff'.trans hff, ?_⟩
    · rw [if_neg (show ¬(0 : Word).slt 0 = true by decide)]
      exact he
    · exact Aside.trans ⟨haside.own, haside.touched, haside.offset, haside.page⟩ haside'
    · rw [hview] at hgrown
      exact hgrew.grown.trans hgrown

/-- Pages behind the first ones are unmapped. -/
private theorem unmapPages_window {j : Nat} (hw : c.Window nb f n i m) (hm : m ≤ j) (hlen : j + len ≤ 1024) :
    ∃ d, unmapPages (fd2data (INDEX2FD (BitVec.ofNat 32 n))) (List.range' j len) c = some ([], .ok 0, d) ∧
      d.Window nb f n i m ∧ Aside n i c d ∧ d.serv.ff = c.serv.ff ∧ d.serv.fs = c.serv.fs := by
  induction len generalizing j c with
  | zero => exact ⟨c, rfl, hw, .refl n i c, rfl, rfl⟩
  | succ len ih =>
    obtain ⟨hret, hw', haside, hff, hfs⟩ := hw.unmap (show j < 1024 by omega) hm
    obtain ⟨d, hd, hwd, haside', hff', hfs'⟩ := ih hw' (Nat.le_succ_of_le hm) (j := j + 1) (by omega)
    refine ⟨d, ?_, hwd, haside.trans haside', hff'.trans hff, hfs'.trans hfs⟩
    have hstep : memUnmap (place n (j * 4096)) c = some ([], .ok 0, (c.memUnmap (place n (j * 4096))).2) := by
      unfold memUnmap
      rw [hret]
    rw [← hd]
    refine (bind_eq hstep).trans ?_
    rw [if_neg (show ¬(0 : Word).slt 0 = true by decide)]

end UserFile

/-! ### The descriptor -/

namespace Client

variable {c d e : Client} {n : Fin MAXFD} {nb : Nat} {f : FilePtr} {i : Fin MAXOPEN} {m : Nat} {k : Idx}
  {w size old : Word}

/-- A word of the page of a descriptor is another one. -/
def setDesc (c : Client) (i : Fin MAXOPEN) (k : Idx) (w : Word) : Client where
  serv := c.serv.setFf i ((c.serv.ff i).setWord k w)
  junk := c.junk
  map := c.map
  own := c.own
  rest := Function.update c.rest i (Function.update (c.rest i) k w)
  touched := c.touched

theorem setDesc_ff (c : Client) (i : Fin MAXOPEN) (k : Idx) (w : Word) :
    (c.setDesc i k w).serv.ff i = (c.serv.ff i).setWord k w := Function.update_self ..

/-- It is none that says what the descriptor is one of. -/
theorem Window.setDesc (hw : c.Window nb f n i m) (h0 : k.val ≠ 0) (h2 : k.val ≠ 2) (h3 : k.val ≠ 3) (w : Word) :
    (c.setDesc i k w).Window nb f n i m := by
  refine hw.keep ⟨rfl, rfl, ?_, ?_, ?_, fun _ => Iff.rfl⟩ hw.serves (fun _ _ => rfl) (fun _ hb => hb) (fun _ _ _ => rfl)
    (Nat.le_refl m)
  · rw [setDesc_ff]
    exact if_neg h0
  · rw [setDesc_ff]
    exact if_neg h2
  · rw [setDesc_ff]
    exact if_neg h3

private theorem Window.page_fd (hw : c.Window nb f n i m) :
    c.map.page (VPN (INDEX2FD (BitVec.ofNat 32 n))) = some (.sent (.desc i)) := by
  rw [FdSpace.VPN_fd (UserFile.fdnum_toNat n)]
  exact (hw.desc _).2 rfl

private theorem Window.access_fd (hw : c.Window nb f n i m) :
    c.access (INDEX2FD (BitVec.ofNat 32 n)) = some c := by
  refine access_present (by rw [hw.page_fd]; rfl) fun hge => ?_
  have hn : n.val < 32 := n.isLt
  have hulim : ULIM.toNat = 0x80000000 := by decide
  have hfd := FdSpace.INDEX2FD_toNat (UserFile.fdnum_toNat n)
  have hge := BitVec.le_def.1 hge
  omega

/-- The descriptor is one of the file, all of which is in the window. -/
structure Holds (c : Client) (nb : Nat) (f : FilePtr) (n : Fin MAXFD) (i : Fin MAXOPEN) (size : Word) : Prop where
  window : c.Window nb f n i (rounds size)
  fSize : (c.serv.ff i).fFile 32 = size
  length : c.serv.fs.view.size f = size.toNat
  max : ¬MAXFILESIZE < size

/-- The requests of `ftruncate` are granted. -/
def Supplied (c : Client) (f : FilePtr) (fdnum size : Word) : Prop :=
  ∀ p fileid old d, c.FileFd fdnum p fileid old → c.setWord 36 size p = some d →
    ∃ e, d.ask (.setSize fileid size) = some ((0, none), e) ∧
      Supplies f fileid (fd2data (INDEX2FD fdnum)) (UserFile.pagesBetween old size) e

private theorem slt_fdnum (n : Fin MAXFD) : (BitVec.ofNat 32 n.val).slt 32 = true := by
  have hall : ∀ k : Fin 32, (BitVec.ofNat 32 k.val).slt 32 = true := by decide
  exact hall n

private theorem Window.fileFd (hw : c.Window nb f n i m) :
    c.FileFd (BitVec.ofNat 32 n) (.sent (.desc i)) (c.serv.ff i).fFileid ((c.serv.ff i).fFile 32) :=
  ⟨slt_fdnum n, hw.page_fd, congrArg some hw.devId, rfl, rfl⟩

private theorem rounds_le (h : ¬MAXFILESIZE < size) : rounds size ≤ 1024 := by
  have hmax : MAXFILESIZE.toNat = 0x400000 := by decide
  have hle := BitVec.not_lt.1 h
  rw [BitVec.le_def] at hle
  show (size.toNat + 4095) / 4096 ≤ 1024
  omega

end Client

namespace UserFile

open Proc Client

variable {c d e : Client} {n : Fin MAXFD} {nb : Nat} {f : FilePtr} {i : Fin MAXOPEN} {m : Nat} {k : Idx}
  {w size old : Word}

theorem fdLookup_open (hw : c.Window nb f n i m) :
    fdLookup (BitVec.ofNat 32 n) c = some ([], .ok (INDEX2FD (BitVec.ofNat 32 n)), c) := by
  unfold fdLookup
  rw [if_neg (not_not.2 (slt_fdnum n))]
  refine (bind_eq (a := some (.sent (.desc i))) ?_).trans rfl
  show (some (c.map.page _)).map _ = _
  rw [hw.page_fd]
  rfl

theorem fdWord_open (hw : c.Window nb f n i m) (k : Idx) : fdWord (INDEX2FD (BitVec.ofNat 32 n)) k c =
    some ([], .ok ((c.serv.ff i).word (c.rest i) k), c) := by
  have hacc : (Proc.update fun c : Client => c.access (INDEX2FD (BitVec.ofNat 32 n)) : UserProc Unit) c = some ([], .ok (), c) := by
    show (c.access _).map _ = _
    rw [hw.access_fd]
    rfl
  refine (bind_eq hacc).trans ?_
  show ((c.map.page _).bind _).map _ = _
  rw [hw.page_fd]
  rfl

theorem setFdWord_open (hw : c.Window nb f n i m) (k : Idx) (w : Word) :
    setFdWord (INDEX2FD (BitVec.ofNat 32 n)) k w c = some ([], .ok (), c.setDesc i k w) := by
  have hacc : (Proc.update fun c : Client => c.access (INDEX2FD (BitVec.ofNat 32 n)) : UserProc Unit) c = some ([], .ok (), c) := by
    show (c.access _).map _ = _
    rw [hw.access_fd]
    rfl
  refine (bind_eq hacc).trans ?_
  show ((c.map.page _).bind _).map _ = _
  rw [hw.page_fd]
  rfl

private theorem ROUND_div (h : ¬MAXFILESIZE < size) : (ROUND size BY2PG).toNat / 4096 = rounds size := by
  have hmax : MAXFILESIZE.toNat = 0x400000 := by decide
  have hpg : BY2PG.toNat = 4096 := by decide
  have hle := BitVec.not_lt.1 h
  rw [BitVec.le_def] at hle
  have hround : ROUND size BY2PG = ROUNDDOWN (size + BY2PG - 1) BY2PG := rfl
  have hsum : (size + BY2PG - 1).toNat = size.toNat + 4095 := by
    rw [BitVec.toNat_sub, BitVec.toNat_add, hpg]
    show (2 ^ 32 - 1 + (size.toNat + 4096) % 2 ^ 32) % 2 ^ 32 = _
    omega
  rw [hround, ROUNDDOWN_toNat, hsum, Nat.mul_div_cancel _ (by decide)]
  rfl

private theorem pagesBetween_eq (h : ¬MAXFILESIZE < old) (h' : ¬MAXFILESIZE < size) :
    pagesBetween old size = List.range' (rounds old) (rounds size - rounds old) := by
  unfold pagesBetween
  rw [ROUND_div h, ROUND_div h']

/-- The bytes of a block that is as it was. -/
private theorem byteAt_same {u v : View} {pos : Nat} (hptr : u.ptr f (.data (pos / 4096)) = v.ptr f (.data (pos / 4096)))
    (hdata : ∀ off, u.get (v.ptr f (.data (pos / 4096))) off = v.get (v.ptr f (.data (pos / 4096))) off) :
    u.byteAt f pos = v.byteAt f pos :=
  byteAt_congr hptr fun _ => hdata _

/-- After the request for another size, the blocks that are new are mapped. -/
private theorem mapPages_resized {fs : Fs} (hw : c.Window nb f n i (rounds old)) (hold : ¬MAXFILESIZE < old)
    (hsize : ¬MAXFILESIZE < size) (hr : Fs.Resized nb f size c.serv.fs fs)
    (hs : Supplies f (c.serv.ff i).fFileid (fd2data (INDEX2FD (BitVec.ofNat 32 n))) (pagesBetween old size)
      (c.setServ { c.serv with fs := fs })) :
    ∃ l d, mapPages (c.serv.ff i).fFileid (fd2data (INDEX2FD (BitVec.ofNat 32 n))) (pagesBetween old size)
        (c.setServ { c.serv with fs := fs }) = some (l, .ok 0, d) ∧ d.Window nb f n i (rounds size) ∧ Aside n i c d ∧
          d.serv.ff = c.serv.ff ∧ d.serv.fs.view.size f = size.toNat ∧
            ∀ pos, pos < old.toNat → pos < size.toNat →
              d.serv.fs.view.byteAt f pos = c.serv.fs.view.byteAt f pos := by
  rw [pagesBetween_eq hold hsize] at hs ⊢
  have hle := rounds_le hsize
  have hwindow (m' : Nat) (hm : m' ≤ rounds old) (hm' : m' ≤ rounds size) :
      (c.setServ { c.serv with fs := fs }).Window nb f n i m' :=
    hw.keep (.of_eq rfl rfl rfl fun _ => Iff.rfl) hr.serves (fun k hk => hr.ptr k (Nat.lt_of_lt_of_le hk hm')) hr.mapped
      (fun _ _ _ => rfl) hm
  have hbyte (pos : Nat) (hpos : pos < old.toNat) (hpos' : pos < size.toNat) :
      fs.view.byteAt f pos = c.serv.fs.view.byteAt f pos ∧ c.serv.fs.view.ptr f (.data (pos / 4096)) ≠ 0 ∧
        fs.view.ptr f (.data (pos / 4096)) = c.serv.fs.view.ptr f (.data (pos / 4096)) := by
    have hblk : pos / 4096 < rounds old := by
      show _ < (old.toNat + 4095) / 4096
      omega
    have hblk' : pos / 4096 < rounds size := by
      show _ < (size.toNat + 4095) / 4096
      omega
    have h0 := (hw.there _ hblk).1
    have hptr := hr.ptr (pos / 4096) hblk'
    exact ⟨byteAt_same hptr (hr.data _ h0), h0, hptr⟩
  by_cases hgrow : rounds old ≤ rounds size
  · obtain ⟨l, d, hmap, hwd, haside, hff, hgrown⟩ := mapPages_supplied (hwindow _ (Nat.le_refl _) hgrow) (by omega) hs
    rw [show rounds old + (rounds size - rounds old) = rounds size by omega] at hwd
    refine ⟨l, d, hmap, hwd, ⟨haside.own, haside.touched, haside.offset, haside.page⟩, hff, ?_, fun pos hpos hpos' => ?_⟩
    · exact hgrown.size.trans hr.size
    · obtain ⟨hsame, h0, hptr⟩ := hbyte pos hpos hpos'
      have h0' : fs.view.ptr f (.data (pos / 4096)) ≠ 0 := by rw [hptr]; exact h0
      exact (byteAt_same (hgrown.ptr _ h0') (hgrown.data _ h0')).trans hsame
  · have hnone : rounds size - rounds old = 0 := by omega
    rw [hnone]
    exact ⟨[], _, rfl, hwindow _ (by omega) (Nat.le_refl _), ⟨rfl, rfl, rfl, fun _ _ => rfl⟩, rfl, hr.size,
      fun pos hpos hpos' => (hbyte pos hpos hpos').1⟩

/-- The requests of `ftruncate`, if they are granted one after the other. -/
private theorem resize_granted {fd fileid : Word} {g : Client} {l₁ l₂ l₃ : List Asked}
    (hset : fsipcSetSize fileid size c = some (l₁, .ok 0, d))
    (hmap : mapPages fileid (fd2data fd) (pagesBetween old size) d = some (l₂, .ok 0, e))
    (hunmap : unmapPages (fd2data fd) (pagesBetween size old) e = some (l₃, .ok 0, g)) :
    ∃ l, resize fd fileid old size c = some (l, .ok 0, g) := by
  have hpos : ¬(0 : Word).slt 0 = true := by decide
  refine ⟨l₁ ++ (l₂ ++ (l₃ ++ [])), bind_of_ok hset ?_⟩
  rw [if_neg hpos]
  refine bind_of_ok hmap ?_
  rw [if_neg hpos]
  refine bind_of_ok hunmap ?_
  rw [if_neg hpos]
  rfl

/-- What `ftruncate` does if its requests are granted. -/
theorem ftruncate_supplied (hh : c.Holds nb f n i old) (hmax : ¬MAXFILESIZE < size)
    (hs : c.Supplied f (BitVec.ofNat 32 n) size) :
    ∃ l d, ftruncate (BitVec.ofNat 32 n) size c = some (l, .ok 0, d) ∧ d.Holds nb f n i size ∧ Aside n i c d ∧
      ∀ pos, pos < old.toNat → pos < size.toNat → d.serv.fs.view.byteAt f pos = c.serv.fs.view.byteAt f pos := by
  have hw := hh.window
  have hwd : (c.setDesc i 36 size).Window nb f n i (rounds old) := hw.setDesc (by decide) (by decide) (by decide) size
  have hfid : ((c.setDesc i 36 size).serv.ff i).fFileid = (c.serv.ff i).fFileid := by
    rw [setDesc_ff]
    rfl
  -- The request is granted, the new pages come one after the other, and the old ones that are too many go.
  obtain ⟨e, hask, hsup⟩ := hs _ _ _ _ hw.fileFd rfl
  rw [hh.fSize] at hsup
  have hask : (c.setDesc i 36 size).ask (.setSize (c.serv.ff i).fFileid size) = some ((0, none), e) := hask
  rw [← hfid] at hask hsup
  obtain ⟨fs, rfl, hr⟩ := hwd.ask_setSize hask
  obtain ⟨l₁, g, hmap, hwg, haside, hff, hlen, hbyte⟩ := mapPages_resized hwd hh.max hmax hr hsup
  have hle := rounds_le hmax
  have hle' := rounds_le hh.max
  have hrest : rounds size + (rounds old - rounds size) ≤ 1024 := by omega
  obtain ⟨d, hunmap, hwd', haside', hff', hfs⟩ := unmapPages_window hwg (Nat.le_refl _) hrest
  rw [← pagesBetween_eq hmax hh.max] at hunmap
  have hset : fsipcSetSize (c.serv.ff i).fFileid size (c.setDesc i 36 size) =
      some ([⟨(c.setDesc i 36 size).serv, .setSize (c.serv.ff i).fFileid size, 0⟩], .ok 0,
        (c.setDesc i 36 size).setServ { (c.setDesc i 36 size).serv with fs := fs }) := by
    rw [← hfid]
    unfold fsipcSetSize fsipc
    rw [if_neg (fun h => h.1 rfl), hask]
    rfl
  rw [hfid] at hmap
  obtain ⟨l, hresize⟩ := resize_granted hset hmap hunmap
  refine ⟨l, d, ?_, ⟨hwd', ?_, ?_, hmax⟩, ?_, fun pos hpos hpos' => ?_⟩
  · unfold ftruncate
    rw [if_neg hmax]
    refine (bind_eq (fdLookup_open hw)).trans ((bind_eq (fdWord_open hw 0)).trans ?_)
    show (if (c.serv.ff i).fdDevId ≠ 102 then _ else _ : UserProc Word) c = _
    rw [hw.devId, if_neg (not_not.2 rfl)]
    refine (bind_eq (fdWord_open hw 3)).trans ((bind_eq (fdWord_open hw 36)).trans
      ((bind_eq (setFdWord_open hw 36 size)).trans ?_))
    show resize _ (c.serv.ff i).fFileid ((c.serv.ff i).fFile 32) size _ = _
    rw [hh.fSize]
    exact hresize
  · rw [hff', hff, setDesc_ff]
    rfl
  · rw [hfs, hlen]
  · have hdesc : Aside n i c (c.setDesc i 36 size) := by
      refine ⟨rfl, rfl, ?_, fun _ _ => rfl⟩
      show Function.update c.rest i _ i 1 = _
      rw [Function.update_self]
      rfl
    exact hdesc.trans (haside.trans haside')
  · rw [hfs]
    exact hbyte pos hpos hpos'

end UserFile

end Mos
