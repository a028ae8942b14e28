import Mos.Fs.Create
import Mos.User.FileLaw

/-!
# What is done with a file that is opened

From `open` on, every sequence of calls on the descriptor does what it does on the bytes of the file.
-/

namespace Mos

open FdSpace (fdVpn dataVpn INDEX2FD fd2num fd2data rounds)

namespace ServProc

variable {s t : Serv} {l : List ServLog} {r : Except Word Unit} {i : Fin MAXOPEN}

/-- An error of `open_alloc` is the first reply. -/
private theorem allocReply_nil {w : Word} {p : ReplyPage} (h : (allocReply w ++ l).findSome? ServLog.answer = some (0, some p)) :
    allocReply w = [] := by
  unfold allocReply at h ⊢
  split at h
  · have hnone : (none : Option ReplyPage) = some p := congrArg Prod.snd (Option.some.inj h)
    cases hnone
  · next hneg => exact if_neg hneg

/-- A descriptor that is sent: a slot that no client has, filled in with the file that is found. -/
private theorem serveOpen_got {path : List Byte} {omode : Word} {junk : Option (Fin MAXOPEN)}
    (h : serveOpen path omode junk s = some (l, r, t)) (ha : l.findSome? ServLog.answer = some (0, some (.desc i))) :
    ∃ f u mem l₀ ws, s.ref i ≤ 1 ∧ s.openAlloc.2.2 = s.taken i mem ∧
      FsProc.fileOpen path (s.taken i mem).fs = some (l₀, .ok f, u) ∧ (∀ o ∈ l₀, .fs o ∈ l) ∧ u.HasWords f ws ∧
        t = filled { s.taken i mem with fs := u } i f omode ws := by
  obtain ⟨l₀, q, u, hopen, h⟩ := serveOpen_some h
  have hnil : allocReply s.openAlloc.1 = [] := by
    rcases h with ⟨e, -, -, rfl⟩ | ⟨f, i, ws, -, -, -, -, rfl⟩
    · exact allocReply_nil ha
    · exact allocReply_nil ha
  rw [hnil] at h
  rcases h with ⟨e, -, -, rfl⟩ | ⟨f, j, ws, rfl, hj, ⟨-, hws⟩, rfl, rfl⟩
  · rw [List.nil_append, answer_fs] at ha
    have hnone : (none : Option ReplyPage) = some (.desc i) := congrArg Prod.snd (Option.some.inj ha)
    cases hnone
  · rw [List.nil_append, answer_fs] at ha
    cases ha
    rcases Serv.openAlloc_cases s with ⟨hneg, -⟩ | ⟨k, mem, hle, halloc⟩
    · have hreply : allocReply s.openAlloc.1 = [.reply s.openAlloc.1 none] := if_pos hneg
      rw [hreply] at hnil
      cases hnil
    · rw [halloc] at hj hopen ⊢
      obtain rfl : k = i := Option.some.inj hj
      refine ⟨f, u, mem, l₀, ws, hle, rfl, hopen, fun o ho => ?_, hws, rfl⟩
      exact List.mem_append_right _ (List.mem_append_left _ (List.mem_map_of_mem ho))

end ServProc

/-- The server is in order, and a slot that it takes for free is not that of a descriptor of the program. -/
structure Client.InOrder (nb : Nat) (c : Client) : Prop where
  fs : c.serv.fs.Ok nb c.serv.Opened Fs.Plain
  slots : ∀ i, Serv.slot (c.serv.opentab i).oFileid = i
  free : ∀ i, c.serv.ref i ≤ 1 → ∀ v, c.map.page v ≠ some (.sent (.desc i))

/-- The server hands out no block that has something else in it while it looks for the file, the file is no directory, and
the requests for its blocks are granted. -/
structure Client.Gives (c : Client) (path : List Byte) (mode : Word) : Prop where
  sound : ∀ l r t, ServProc.serve c.junk (.open path mode) c.serv = some (l, r, t) → ServProc.NoStale l
  regular : ∀ i d f, c.ask (.open path mode) = some ((0, some (.desc i)), d) → (d.serv.opentab i).oFile = some f →
    ¬ d.serv.fs.view.IsDir f
  blocks : ∀ fd i d f, c.freeFd = some fd → c.ask (.open path mode) = some ((0, some (.desc i)), d) →
    (d.serv.opentab i).oFile = some f → Client.Supplies f (d.serv.ff i).fFileid (fd2data fd)
      (List.range (rounds ((d.serv.ff i).fFile 32))) (d.arrive fd (.desc i))

namespace Client

variable {c d : Client} {n : Fin MAXFD} {nb : Nat} {f : FilePtr} {i : Fin MAXOPEN} {path : List Byte} {mode : Word}

/-- What the server knows about the descriptor that it has sent. -/
structure Sent (c : Client) (nb : Nat) (i : Fin MAXOPEN) (mode : Word) (f : FilePtr) (d : Client) : Prop where
  serves : d.serv.fs.Serves nb f
  slot : Serv.slot (d.serv.ff i).fFileid = i
  ref : d.serv.ref i = 1
  entry : (d.serv.opentab i).oFileid = (d.serv.ff i).fFileid
  oFile : (d.serv.opentab i).oFile = some f
  devId : (d.serv.ff i).fdDevId = 102
  omode : (d.serv.ff i).fdOmode = mode
  length : d.serv.fs.view.size f = ((d.serv.ff i).fFile 32).toNat
  offset : d.rest i 1 = 0
  map : d.map = c.map
  others : ∀ v, c.map.page v ≠ some (.sent (.desc i))

private theorem slot_next {w : Word} (h : Serv.slot w = i) : Serv.slot (w + BitVec.ofNat 32 MAXOPEN) = i := by
  rw [← h]
  apply Fin.ext
  show (w + BitVec.ofNat 32 MAXOPEN).toNat % MAXOPEN = w.toNat % MAXOPEN
  have hmax : MAXOPEN = 1024 := rfl
  rw [BitVec.toNat_add, BitVec.toNat_ofNat, hmax]
  omega

private theorem InOrder.sent (hc : c.InOrder nb) (hg : c.Gives path mode)
    (h : c.ask (.open path mode) = some ((0, some (.desc i)), d)) : ∃ f, c.Sent nb i mode f d := by
  rcases ask_some h with ⟨-, -, hnone⟩ | ⟨l, r, t, hs, ha, rfl⟩
  · cases hnone
  obtain ⟨f, u, mem, l₀, ws, hle, halloc, hopen, hmem, ⟨pg, hpg, rfl⟩, rfl⟩ := ServProc.serveOpen_got hs ha
  obtain ⟨hok, hO⟩ := ServProc.openAlloc_keeps Fs.closed_plain hc.fs
  rw [halloc] at hok
  have hstale : ∀ o ∈ l₀, FsProc.NotStale o := by
    rintro o ho b rfl
    have hsound := hg.sound l r _ hs _ (hmem _ ho)
    cases hsound
  have hreg : ¬ u.view.IsDir f := by
    refine hg.regular i _ f h ?_
    simp [ServProc.filled, Serv.setOpen, Serv.setFf]
  have hserves := FsProc.walkPath_serves hok hopen hstale hreg
  refine ⟨f, hserves, ?_, ?_, ?_, ?_, ?_, ?_, ?_, ?_, rfl, hc.free i hle⟩
  · have hid := slot_next (hc.slots i)
    simpa [ServProc.filled, Serv.setOpen, Serv.setFf, Serv.taken, Serv.takeSlot, Serv.setRef] using hid
  · simp [ServProc.filled, Serv.setOpen, Serv.setFf, Serv.taken, Serv.takeSlot, Serv.setRef]
  · simp [ServProc.filled, Serv.setOpen, Serv.setFf]
  · simp [ServProc.filled, Serv.setOpen, Serv.setFf]
  · simp [ServProc.filled, Serv.setOpen, Serv.setFf]
  · simp [ServProc.filled, Serv.setOpen, Serv.setFf]
  · have hoff := hserves.ok.good.off_lt hserves.live
    have hlt : f.off + 32 < 1024 := by omega
    have hget : u.view.get f.blk (f.off + 32) = pg.data (Fin.ofNat 1024 (f.off + 32)) := by
      unfold View.get
      rw [dif_pos hlt, Fs.view_of_cache hpg]
      exact congrArg pg.data (Fin.ext (Nat.mod_eq_of_lt hlt).symm)
    show (u.view.get f.blk (f.off + 32)).toNat = _
    rw [hget]
    simp [ServProc.filled, Serv.setOpen, Serv.setFf]
  · simp

/-- The page of the descriptor has come. -/
private theorem Sent.window (hs : c.Sent nb i mode f d) (hmode : mode &&& O_ACCMODE = O_RDWR)
    (hnone : c.map.page (fdVpn n) = none) (hroom : d.room (PDX (INDEX2FD (BitVec.ofNat 32 n))) = true) :
    (d.arrive (INDEX2FD (BitVec.ofNat 32 n)) (.desc i)).Window nb f n i 0 := by
  have hvpn : VPN (INDEX2FD (BitVec.ofNat 32 n)) = fdVpn n := FdSpace.VPN_fd (UserFile.fdnum_toNat n)
  obtain ⟨mem, ref, heq⟩ := arrive_eq hroom (.desc i)
  have href : (d.arrive (INDEX2FD (BitVec.ofNat 32 n)) (.desc i)).serv.ref i = 2 := by
    obtain ⟨mem', hmem⟩ := d.withTable_eq (PDX (INDEX2FD (BitVec.ofNat 32 n)))
    have hpage : (d.map.insert (fdVpn n) (.desc i)).page (fdVpn n) = some (.sent (.desc i)) := UserMap.insert_page ..
    unfold Client.arrive
    rw [if_pos hroom, hmem, hvpn]
    show (Serv.addRef (Serv.dropRef _ (d.map.page (fdVpn n))) ((d.map.insert (fdVpn n) (.desc i)).page (fdVpn n))).ref i = 2
    rw [hpage, hs.map, hnone]
    show Function.update d.serv.ref i (d.serv.ref i + 1) i = 2
    rw [Function.update_self, hs.ref]
  have hff : (d.arrive (INDEX2FD (BitVec.ofNat 32 n)) (.desc i)).serv.ff = d.serv.ff := by
    rw [heq]
    rfl
  have htab : (d.arrive (INDEX2FD (BitVec.ofNat 32 n)) (.desc i)).serv.opentab = d.serv.opentab := by
    rw [heq]
    rfl
  refine ⟨?_, ?_, ?_, ?_, ?_, ?_, ?_, fun v => ?_, nofun, nofun⟩
  · refine hs.serves.congr ?_ fun b hb => ?_
    · rw [heq]
      rfl
    · rw [heq]
      exact hb
  · rw [hff, hs.slot]
  · rw [href]
    decide
  · rw [htab, hff, hs.entry]
  · rw [htab, hs.oFile]
  · rw [hff, hs.devId]
  · rw [hff, hs.omode, hmode]
  · rcases eq_or_ne v (fdVpn n) with rfl | hv
    · rw [← hvpn, arrive_page hroom]
      exact iff_of_true rfl rfl
    · rw [arrive_page_of_ne (hvpn.symm ▸ hv), hs.map]
      exact iff_of_false (hs.others v) hv

end Client

/-- The calls are made one after the other.  As long as they fit, each of them conforms to the bytes that the calls before
it have made, and comes back if the pages that it needs are there. -/
def FileOp.AllObey (f : FilePtr) (n : Fin MAXFD) : List FileOp → Client → ByteFile Byte → Prop
  | [], _, _ => True
  | x :: xs, c, a => x.Fits f n c a →
      (∀ l q d, x.run (BitVec.ofNat 32 n) c = some (l, q, d) →
        x.Conforms n c a (returned q) d ∧ AllObey f n xs d (x.next c a)) ∧
      (x.Ready c a → ∃ l q d, x.run (BitVec.ofNat 32 n) c = some (l, q, d))

namespace UserFile

open Proc Client

variable {c c₀ d : Client} {n : Fin MAXFD} {nb : Nat} {f : FilePtr} {i : Fin MAXOPEN} {path : List Byte} {mode : Word}
  {l : List Asked} {q : Except Word Word} {k : Nat}

/-- Blocks that are granted are blocks that a file can have. -/
private theorem supplies_lt {fileid va : Word} {ks : List Nat} (h : Supplies f fileid va ks c) (hk : k ∈ ks)
    (hlt : k < 2 ^ 20) :
    k < 1024 := by
  induction ks generalizing c with
  | nil => cases hk
  | cons j ks ih =>
    obtain ⟨-, b, d, hask, -, hrest⟩ := h
    rcases List.mem_cons.1 hk with rfl | hk
    · rcases ask_block hask with ⟨-, hnone⟩ | ⟨b', -, hfit⟩
      · cases hnone
      · rw [BitVec.toNat_ofNat] at hfit
        have hblk : BY2BLK = 4096 := rfl
        have hind : NINDIRECT = 1024 := rfl
        rw [hblk, hind] at hfit
        omega
    · exact ih hrest hk

/-- The blocks of a file whose descriptor has come are mapped. -/
private theorem openPages_supplied {e : Client} (hw : e.Window nb f n i 0)
    (hs : Supplies f (e.serv.ff i).fFileid (fd2data (INDEX2FD (BitVec.ofNat 32 n)))
      (List.range (rounds ((e.serv.ff i).fFile 32))) e) :
    ∃ l d, openPages (INDEX2FD (BitVec.ofNat 32 n)) e = some (l, .ok (BitVec.ofNat 32 n), d) ∧
      rounds ((e.serv.ff i).fFile 32) ≤ 1024 ∧ d.Window nb f n i (rounds ((e.serv.ff i).fFile 32)) ∧ Aside n i e d ∧
        d.serv.ff = e.serv.ff ∧ View.Grown nb e.serv.fs.view f d.serv.fs.view := by
  have hle : rounds ((e.serv.ff i).fFile 32) ≤ 1024 := by
    by_contra hlt
    have hmem : 1024 ∈ List.range (rounds ((e.serv.ff i).fFile 32)) := List.mem_range.2 (by omega)
    exact absurd (supplies_lt hs hmem (by decide)) (by decide)
  have hrange : List.range' 0 (rounds ((e.serv.ff i).fFile 32)) = List.range (rounds ((e.serv.ff i).fFile 32)) :=
    List.range_eq_range'.symm
  obtain ⟨l, d, hd, hwd, haside, hff, hgrown⟩ := mapPages_supplied hw (by omega) (hrange.symm ▸ hs)
  rw [hrange] at hd
  rw [Nat.zero_add] at hwd
  refine ⟨l ++ [], d, ?_, hle, hwd, haside, hff, hgrown⟩
  have hsize : fSize (INDEX2FD (BitVec.ofNat 32 n)) e = some ([], .ok ((e.serv.ff i).fFile 32), e) := fdWord_open hw 36
  have hid : fFileid (INDEX2FD (BitVec.ofNat 32 n)) e = some ([], .ok (e.serv.ff i).fFileid, e) := fdWord_open hw 3
  refine (bind_eq hsize).trans ((bind_eq hid).trans (bind_of_ok hd ?_))
  rw [if_neg (not_not.2 rfl), fd2num_eq (fdnum_toNat n)]
  rfl

/-- The page of the descriptor comes. -/
private theorem fsipcOpen_got (hlen : path.length < MAXPATHLEN)
    (hask : c.ask (.open path mode) = some ((0, some (.desc i)), d)) :
    fsipcOpen path mode (INDEX2FD (BitVec.ofNat 32 n)) c =
      some ([⟨c.serv, .open path mode, 0⟩], .ok 0, d.arrive (INDEX2FD (BitVec.ofNat 32 n)) (.desc i)) := by
  have hn : n.val < 32 := n.isLt
  have hfd := FdSpace.INDEX2FD_toNat (fdnum_toNat n)
  have hlegal : isIllegalVa (INDEX2FD (BitVec.ofNat 32 n)) = false := FdSpace.legal_of_toNat _ (by omega) (by omega)
  unfold fsipcOpen
  rw [if_neg (by omega)]
  unfold fsipc
  rw [if_neg (by simp [hlegal]), hask]
  rfl

/-- The bytes of a file that has just been opened. -/
def fileBytes (c : Client) (f : FilePtr) : ByteFile Byte where
  size := c.serv.fs.view.size f
  pos := 0
  byte p := if p < c.serv.fs.view.size f then some (c.serv.fs.view.byteAt f p) else none
  bound _ _ h := (Option.ite_none_right_eq_some.1 h).1

/-- The program has a file that is opened for reading and writing. -/
private theorem openFile_models (h : openFile path mode c = some (l, q, c₀)) (hmode : mode &&& O_ACCMODE = O_RDWR)
    (hok : ¬(returned q).slt 0 = true) (hc : c.InOrder nb) (hg : c.Gives path mode) :
    ∃ n i f, returned q = BitVec.ofNat 32 n.val ∧ (c₀.serv.opentab i).oFile = some f ∧
      c₀.Models nb f n i (fileBytes c₀ f) := by
  have hend := openFile_cases h
  generalize hr : returned q = x at hend hok
  cases hend with
  | early hneg _ _ => exact absurd hneg hok
  | @got n i d _ r hfree hnone hlen hask hp _ =>
    obtain ⟨f, hs⟩ := hc.sent hg hask
    have hroom : d.room (PDX (INDEX2FD (BitVec.ofNat 32 n))) = true := by
      by_contra hfull
      rw [arrive_full hfull, hs.map, hnone] at hp
      cases hp
    have hw := hs.window hmode hnone hroom
    obtain ⟨mem, ref, heq⟩ := arrive_eq hroom (.desc i)
    have hff : (d.arrive (INDEX2FD (BitVec.ofNat 32 n)) (.desc i)).serv.ff = d.serv.ff := by
      rw [heq]
      rfl
    have hsupplies := hg.blocks _ i d f hfree hask hs.oFile
    rw [← hff] at hsupplies
    obtain ⟨l₁, e, hpages, hle, hwe, haside, hffe, hgrown⟩ := openPages_supplied hw hsupplies
    -- there is only this execution
    have halloc : fdAlloc c = some ([], .ok (INDEX2FD (BitVec.ofNat 32 n)), c) := by
      refine (bind_eq (a := c.freeFd) rfl).trans ?_
      rw [hfree]
      rfl
    have hopen := fsipcOpen_got (n := n) hlen hask
    have hrest : (if (0 : Word) ≠ 0 then pure 0 else openPages (INDEX2FD (BitVec.ofNat 32 n)) : UserProc Word)
        (d.arrive (INDEX2FD (BitVec.ofNat 32 n)) (.desc i)) = some (l₁, .ok (BitVec.ofNat 32 n), e) := by
      rw [if_neg (not_not.2 rfl)]
      exact hpages
    have hrun : openFile path mode c = some ([⟨c.serv, .open path mode, 0⟩] ++ l₁, .ok (BitVec.ofNat 32 n), e) :=
      (bind_eq halloc).trans (bind_of_ok hopen hrest)
    rw [hrun] at h
    cases h
    have hview : (d.arrive (INDEX2FD (BitVec.ofNat 32 n)) (.desc i)).serv.fs.view = d.serv.fs.view := by
      rw [heq]
      rfl
    rw [hff] at hle hwe
    rw [hview] at hgrown
    have hlength : c₀.serv.fs.view.size f = ((d.serv.ff i).fFile 32).toNat := hgrown.size.trans hs.length
    have hsize : BitVec.ofNat 32 (c₀.serv.fs.view.size f) = (d.serv.ff i).fFile 32 := by
      rw [hlength, BitVec.ofNat_toNat, BitVec.setWidth_eq]
    have hmax : ((d.serv.ff i).fFile 32).toNat ≤ MAXFILESIZE.toNat := by
      have hround : rounds ((d.serv.ff i).fFile 32) = (((d.serv.ff i).fFile 32).toNat + 4095) / 4096 := rfl
      rw [max_toNat]
      omega
    refine ⟨n, i, f, hr.symm, hwe.oFile, ⟨⟨?_, ?_, ?_, ?_⟩, ?_, ?_, fun p x hx => ?_⟩⟩
    · show c₀.Window nb f n i (rounds (BitVec.ofNat 32 (c₀.serv.fs.view.size f)))
      rw [hsize]
      exact hwe
    · rw [hffe, hff]
      exact hsize.symm
    · show _ = (BitVec.ofNat 32 (c₀.serv.fs.view.size f)).toNat
      rw [hsize, hlength]
    · show ¬MAXFILESIZE < BitVec.ofNat 32 (c₀.serv.fs.view.size f)
      rw [hsize, BitVec.lt_def]
      omega
    · exact hlength.trans_le hmax
    · have hoffset : c₀.rest i 1 = (0 : Word) := by
        rw [haside.offset, heq]
        exact hs.offset
      rw [hoffset]
      rfl
    · exact Option.some.inj ((if_pos ((fileBytes c₀ f).bound p x hx)).symm.trans hx)

/-- Every sequence of calls on the descriptor obeys the law. -/
private theorem all_obey {a : ByteFile Byte} (xs : List FileOp) {n : Fin MAXFD} {i : Fin MAXOPEN}
    (hm : c.Models nb f n i a) :
    FileOp.AllObey f n xs c a := by
  induction xs generalizing c a with
  | nil => trivial
  | cons x xs ih =>
    intro hfit
    obtain ⟨hlaw, hends⟩ := obeys hm hfit
    refine ⟨fun l q d hrun => ?_, hends⟩
    obtain ⟨hconf, hmod⟩ := hlaw l q d hrun
    exact ⟨hconf, ih hmod⟩

/-- After `open`, the calls on the descriptor do what they do on an array of bytes, as long as no sum of the offset and
a length wraps around into the file. -/
theorem openFile_obeys (h : openFile path mode c = some (l, q, c₀)) (hmode : mode &&& O_ACCMODE = O_RDWR)
    (hok : ¬(returned q).slt 0 = true) (hc : c.InOrder nb) (hg : c.Gives path mode) :
    ∃ (n : Fin MAXFD) (i : Fin MAXOPEN) (f : FilePtr), returned q = BitVec.ofNat 32 n ∧
      c₀.map.page (fdVpn n) = some (.sent (.desc i)) ∧ (c₀.serv.opentab i).oFile = some f ∧
        ∀ xs, FileOp.AllObey f n xs c₀ (fileBytes c₀ f) := by
  obtain ⟨n, i, f, hr, hf, hm⟩ := openFile_models h hmode hok hc hg
  exact ⟨n, i, f, hr, (hm.holds.window.desc _).2 rfl, hf, fun xs => all_obey xs hm⟩

/-! ### The small disk -/

/-- What the server sends for `a`: the descriptor of a file of one block that is no directory, and then this block. -/
def sendsA (c : Client) (fd : Word) : Bool :=
  (c.ask (.open [97] O_RDWR)).any fun p => match p.1.2 with
    | some (.desc i) => (p.2.serv.opentab i).oFile == some FileSys.fileA &&
      !decide (p.2.serv.fs.view.IsDir FileSys.fileA) && (p.2.serv.ff i).fFile 32 == 4096 &&
      ((p.2.arrive fd (.desc i)).ask (.map (p.2.serv.ff i).fFileid (BitVec.ofNat 32 (0 * 4096)))).any fun q =>
        match q.1.2 with
        | some (.block _) => q.1.1 == 0 && q.2.room (PDX (fd2data fd + BitVec.ofNat 32 (0 * 4096)))
        | _ => false
    | _ => false

private theorem inOrder_new {disk : View} (hd : WellFormed disk) : (newClient disk).InOrder (disk.get 1 1).toNat where
  fs := by
    have hopened : (newClient disk).serv.Opened = fun _ => False := by
      funext f
      refine eq_false ?_
      rintro ⟨i, hi⟩
      cases hi
    rw [hopened]
    exact FsOp.ok_mount hd 10
  slots i := by
    apply Fin.ext
    show (BitVec.ofNat 32 i.val).toNat % 1024 = i.val
    have hlt : i.val < 1024 := i.isLt
    rw [BitVec.toNat_ofNat]
    omega
  free _ _ _ h := by cases h

private theorem gives_new : (newClient FileSys.smallDisk).Gives [97] O_RDWR := by
  have hsends : (newClient FileSys.smallDisk).freeFd.all (sendsA (newClient FileSys.smallDisk)) = true := by
    decide +kernel
  have hfirst : (newClient FileSys.smallDisk).freeFd.isSome = true := by decide +kernel
  have hcalm : (ServProc.serve none (.open [97] O_RDWR) (newClient FileSys.smallDisk).serv).all
      (fun p => p.1.all fun o => !o.stale) = true := by decide +kernel
  have hfile : ∀ fd i d f, (newClient FileSys.smallDisk).freeFd = some fd →
      (newClient FileSys.smallDisk).ask (.open [97] O_RDWR) = some ((0, some (.desc i)), d) →
      (d.serv.opentab i).oFile = some f → ¬d.serv.fs.view.IsDir f ∧ (d.serv.ff i).fFile 32 = 4096 ∧
        ∃ b d', (d.arrive fd (.desc i)).ask (.map (d.serv.ff i).fFileid (BitVec.ofNat 32 (0 * 4096))) =
          some ((0, some (.block b)), d') ∧ d'.room (PDX (fd2data fd + BitVec.ofNat 32 (0 * 4096))) = true := by
    intro fd i d f hfd hask hf
    rw [hfd, Option.all_some] at hsends
    unfold sendsA at hsends
    rw [hask] at hsends
    simp only [Option.any_some, Bool.and_eq_true, beq_iff_eq, Bool.not_eq_true', decide_eq_false_iff_not,
      Option.any_eq_true] at hsends
    obtain ⟨⟨⟨ha, hdir⟩, hsize⟩, ⟨⟨r, page⟩, d'⟩, hmap, hblock⟩ := hsends
    obtain rfl := Option.some.inj (hf.symm.trans ha)
    refine ⟨hdir, hsize, ?_⟩
    cases page with
    | none => cases hblock
    | some page =>
      cases page with
      | desc => cases hblock
      | block b =>
        simp only [Bool.and_eq_true, beq_iff_eq] at hblock
        obtain ⟨rfl, hroom⟩ := hblock
        exact ⟨b, d', hmap, hroom⟩
  refine ⟨fun l r t hs o ho => ?_, fun i d f hask hf => ?_, fun fd i d f hfd hask hf => ?_⟩
  · have hs : ServProc.serve none (.open [97] O_RDWR) (newClient FileSys.smallDisk).serv = some (l, r, t) := hs
    rw [hs] at hcalm
    simpa using List.all_eq_true.1 hcalm o ho
  · obtain ⟨fd, hfd⟩ := Option.isSome_iff_exists.1 hfirst
    exact (hfile fd i d f hfd hask hf).1
  · obtain ⟨-, hsize, b, d', hmap, hroom⟩ := hfile fd i d f hfd hask hf
    rw [hsize]
    exact ⟨fun h => absurd h (by decide), b, d', hmap, hroom, trivial⟩

/-- `a` is the only file that is open, and has 4096 bytes. -/
def openedA (r : Word) (c : Client) : Bool :=
  r == 0 && c.serv.fs.view.size FileSys.fileA == 4096 &&
    (List.finRange MAXOPEN).all fun i => (c.serv.opentab i).oFile.all (· == FileSys.fileA)

theorem openFile_obeys_a : ∃ (l : List Asked) (q : Except Word Word) (c₀ : Client) (n : Fin MAXFD) (i : Fin MAXOPEN),
    openFile [97] O_RDWR (newClient FileSys.smallDisk) = some (l, q, c₀) ∧
      (c₀.serv.opentab i).oFile = some FileSys.fileA ∧ c₀.serv.fs.view.size FileSys.fileA = 4096 ∧
        ∀ xs, FileOp.AllObey FileSys.fileA n xs c₀ (fileBytes c₀ FileSys.fileA) := by
  have hrun : (openFile [97] O_RDWR (newClient FileSys.smallDisk)).map (fun p => openedA (returned p.2.1) p.2.2) =
      some true := by decide +kernel
  obtain ⟨l, q, c₀, hx, hr⟩ := run_of_found openedA hrun
  obtain ⟨hr, honly⟩ := Bool.and_eq_true_iff.1 hr
  obtain ⟨hr, hsize⟩ := Bool.and_eq_true_iff.1 hr
  have h0 : returned q = 0 := beq_iff_eq.1 hr
  obtain ⟨n, i, f, -, -, hf, hall⟩ := openFile_obeys hx rfl (by rw [h0]; decide) (inOrder_new FileSys.wellFormed_small)
    gives_new
  have ha := List.all_eq_true.1 honly i (List.mem_finRange i)
  rw [hf, Option.all_some, beq_iff_eq] at ha
  subst ha
  exact ⟨l, q, c₀, n, i, hx, hf, beq_iff_eq.1 hsize, hall⟩

/-- `seek` goes to the last offset, and `write` writes one byte there. -/
def writesBefore (c : Client) : Bool :=
  ((seek 0 0xFFFFFFFF c).bind fun p => write 0 0x500000 1 p.2.2).any fun p => returned p.2.1 == 1

/-- The end of the request is far behind that of the largest file, but it is not refused. -/
theorem exists_not_conforms : ∃ (c₀ c₁ c₂ : Client) (l l₁ l₂ : List Asked) (q q₁ q₂ : Except Word Word) (f : FilePtr),
    openFile [98] O_RDWR (newClient FileSys.smallDisk) = some (l, q, c₀) ∧ returned q = 0 ∧
      (c₀.serv.opentab ⟨0, by decide⟩).oFile = some f ∧ (FileOp.seek 0xFFFFFFFF).run 0 c₀ = some (l₁, q₁, c₁) ∧
        (FileOp.write 0x500000 1).run 0 c₁ = some (l₂, q₂, c₂) ∧
          ¬(FileOp.write 0x500000 1).Conforms 0 c₁ ((FileOp.seek 0xFFFFFFFF).next c₀ (fileBytes c₀ f)) (returned q₂) c₂ := by
  have hrun : (openFile [98] O_RDWR (newClient FileSys.smallDisk)).map (fun p => returned p.2.1 == 0 &&
      (p.2.2.serv.opentab ⟨0, by decide⟩).oFile == some FileSys.fileB && writesBefore p.2.2) = some true := by decide +kernel
  obtain ⟨l, q, c₀, hx, hfound⟩ := run_of_found (fun r c => r == 0 &&
    (c.serv.opentab ⟨0, by decide⟩).oFile == some FileSys.fileB && writesBefore c) hrun
  unfold writesBefore at hfound
  simp only [Bool.and_eq_true, beq_iff_eq, Option.any_eq_true] at hfound
  obtain ⟨⟨h0, hf⟩, ⟨l₂, q₂, c₂⟩, hbind, h1⟩ := hfound
  obtain ⟨⟨l₁, q₁, c₁⟩, hseek, hwrite⟩ := Option.bind_eq_some_iff.1 hbind
  refine ⟨c₀, c₁, c₂, l, l₁, l₂, q, q₁, q₂, FileSys.fileB, hx, h0, hf, hseek, hwrite, fun hconf => ?_⟩
  have hresult := hconf.result
  have hbig : (FileOp.write 0x500000 1).TooBig ((FileOp.seek 0xFFFFFFFF).next c₀ (fileBytes c₀ FileSys.fileB)) := by
    show MAXFILESIZE.toNat < (0xFFFFFFFF : Word).toNat + (1 : Word).toNat
    decide
  rw [h1, FileOp.result, if_pos hbig] at hresult
  exact absurd hresult (by decide)

end UserFile

end Mos
