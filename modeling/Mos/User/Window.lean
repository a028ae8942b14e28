import Mos.Fs.Grow
import Mos.Lib.ByteFile
import Mos.User.FileTrunc

/-!
# The window of a file

The window of the descriptor of a file that is no directory has the first blocks of the file, each of which is where the
pointer of the file says.  What a program does with its own memory leaves the window alone.
-/

namespace Mos

open FdSpace (fdVpn dataVpn INDEX2FD fd2num fd2data rounds)

namespace Client

/-- The descriptor of a slot and the entry that the server has for it stay as they are. -/
structure Keeps (i : Fin MAXOPEN) (c d : Client) : Prop where
  ref : d.serv.ref i = c.serv.ref i
  opentab : d.serv.opentab = c.serv.opentab
  devId : (d.serv.ff i).fdDevId = (c.serv.ff i).fdDevId
  omode : (d.serv.ff i).fdOmode = (c.serv.ff i).fdOmode
  fileid : (d.serv.ff i).fFileid = (c.serv.ff i).fFileid
  desc : ∀ v, d.map.page v = some (.sent (.desc i)) ↔ c.map.page v = some (.sent (.desc i))

/-- The descriptor is one of the file, and its window has the first `m` blocks. -/
structure Window (c : Client) (nb : Nat) (f : FilePtr) (n : Fin MAXFD) (i : Fin MAXOPEN) (m : Nat) : Prop where
  serves : c.serv.fs.Serves nb f
  slot : Serv.slot (c.serv.ff i).fFileid = i
  used : c.serv.ref i ≠ 1
  entry : (c.serv.opentab i).oFileid = (c.serv.ff i).fFileid
  oFile : (c.serv.opentab i).oFile = some f
  devId : (c.serv.ff i).fdDevId = 102
  omode : (c.serv.ff i).fdOmode &&& O_ACCMODE = O_RDWR
  desc : ∀ v, c.map.page v = some (.sent (.desc i)) ↔ v = fdVpn n
  pages : ∀ k, k < m → ∃ hk : k < 1024,
    c.map.page (dataVpn n ⟨k, hk⟩) = some (.sent (.block (c.serv.fs.view.ptr f (.data k))))
  there : ∀ k, k < m → c.serv.fs.view.ptr f (.data k) ≠ 0 ∧ c.serv.fs.Mapped (c.serv.fs.view.ptr f (.data k))

namespace Keeps

variable {i : Fin MAXOPEN} {c d e : Client} {v : Vpn} {m : UserMap}

theorem refl (i : Fin MAXOPEN) (c : Client) : Keeps i c c := ⟨rfl, rfl, rfl, rfl, rfl, fun _ => Iff.rfl⟩

theorem trans (h : Keeps i c d) (h' : Keeps i d e) : Keeps i c e where
  ref := h'.ref.trans h.ref
  opentab := h'.opentab.trans h.opentab
  devId := h'.devId.trans h.devId
  omode := h'.omode.trans h.omode
  fileid := h'.fileid.trans h.fileid
  desc v := (h'.desc v).trans (h.desc v)

theorem of_eq (href : d.serv.ref i = c.serv.ref i) (htab : d.serv.opentab = c.serv.opentab) (hff : d.serv.ff = c.serv.ff)
    (hmap : ∀ v, d.map.page v = some (.sent (.desc i)) ↔ c.map.page v = some (.sent (.desc i))) : Keeps i c d :=
  ⟨href, htab, by rw [hff], by rw [hff], by rw [hff], hmap⟩

/-- A page that is not the descriptor is mapped in the place of another one, or it is unmapped. -/
theorem mapAt (hold : c.map.page v ≠ some (.sent (.desc i))) (hnew : m.page v ≠ some (.sent (.desc i)))
    (hm : ∀ w, w ≠ v → m.page w = c.map.page w) : Keeps i c (c.mapAt v m) := by
  have hdrop : (c.serv.dropRef (c.map.page v)).ref i = c.serv.ref i := by
    unfold Serv.dropRef
    split
    · next j hj =>
      have hne : i ≠ j := fun h => hold (h ▸ hj)
      exact Function.update_of_ne hne ..
    · rfl
  have hadd : ((c.serv.dropRef (c.map.page v)).addRef (m.page v)).ref i = c.serv.ref i := by
    unfold Serv.addRef
    split
    · next j hj =>
      have hne : i ≠ j := fun h => hnew (h ▸ hj)
      exact (Function.update_of_ne hne ..).trans hdrop
    · exact hdrop
  obtain ⟨ref, heq⟩ := c.mapAt_eq v m
  have hserv : (c.mapAt v m).serv.ref i = c.serv.ref i := hadd
  rw [heq] at hserv ⊢
  refine .of_eq hserv rfl rfl fun w => ?_
  rcases eq_or_ne w v with rfl | hw
  · exact ⟨fun h => absurd h hnew, fun h => absurd h hold⟩
  · show m.page w = _ ↔ _
    rw [hm w hw]

theorem withTable (c : Client) (j : Idx) : Keeps i c (c.withTable j) := by
  obtain ⟨mem, h⟩ := c.withTable_eq j
  rw [h]
  exact .of_eq rfl rfl rfl fun _ => Iff.rfl

end Keeps

namespace Window

variable {nb : Nat} {f : FilePtr} {n : Fin MAXFD} {i : Fin MAXOPEN} {m m' : Nat} {c d : Client}

/-- The file of the descriptor. -/
theorem fileOf (h : c.Window nb f n i m) : c.serv.fileOf (c.serv.ff i).fFileid = some f := by
  unfold Serv.fileOf Serv.openLookup
  rw [h.slot, if_neg (by
    rw [h.entry]
    exact fun hor => hor.elim h.used fun hne => hne rfl)]
  exact h.oFile

theorem fd_ne (h : c.Window nb f n i m) {v : Vpn} (hv : v ≠ fdVpn n) : c.map.page v ≠ some (.sent (.desc i)) :=
  fun hp => hv ((h.desc v).1 hp)

theorem keep (h : c.Window nb f n i m) (hk : Keeps i c d) (hserves : d.serv.fs.Serves nb f)
    (hptr : ∀ k, k < m' → d.serv.fs.view.ptr f (.data k) = c.serv.fs.view.ptr f (.data k))
    (hmapped : ∀ b, c.serv.fs.Mapped b → d.serv.fs.Mapped b)
    (hpages : ∀ k, k < m' → ∀ hk : k < 1024, d.map.page (dataVpn n ⟨k, hk⟩) = c.map.page (dataVpn n ⟨k, hk⟩))
    (hm : m' ≤ m) : d.Window nb f n i m' where
  serves := hserves
  slot := by rw [hk.fileid, h.slot]
  used := by rw [hk.ref]; exact h.used
  entry := by rw [hk.opentab, hk.fileid, h.entry]
  oFile := by rw [hk.opentab, h.oFile]
  devId := hk.devId.trans h.devId
  omode := by rw [hk.omode, h.omode]
  desc v := (hk.desc v).trans (h.desc v)
  pages k hlt := by
    obtain ⟨hk', hp⟩ := h.pages k (by omega)
    exact ⟨hk', by rw [hpages k hlt hk', hp, hptr k hlt]⟩
  there k hlt := by
    obtain ⟨h0, hmap⟩ := h.there k (by omega)
    rw [hptr k hlt]
    exact ⟨h0, hmapped _ hmap⟩

end Window

/-! ### The program's own memory -/

/-- Only the program's own memory is another one. -/
structure Apart (c d : Client) : Prop where
  serv : ∃ mem, d.serv = { c.serv with fs := { c.serv.fs with mem := mem } }
  rest : d.rest = c.rest
  sent : ∀ v p, d.map.page v = some (.sent p) ↔ c.map.page v = some (.sent p)

namespace Apart

variable {c d e : Client}

theorem refl (c : Client) : Apart c c := ⟨⟨c.serv.fs.mem, rfl⟩, rfl, fun _ _ => Iff.rfl⟩

theorem trans (h : Apart c d) (h' : Apart d e) : Apart c e where
  serv := by
    obtain ⟨mem, hd⟩ := h.serv
    obtain ⟨mem', he⟩ := h'.serv
    exact ⟨mem', by rw [he, hd]⟩
  rest := h'.rest.trans h.rest
  sent v p := (h'.sent v p).trans (h.sent v p)

theorem view (h : Apart c d) : d.serv.fs.view = c.serv.fs.view := by
  obtain ⟨mem, hd⟩ := h.serv
  rw [hd]
  rfl

theorem ff (h : Apart c d) : d.serv.ff = c.serv.ff := by
  obtain ⟨mem, hd⟩ := h.serv
  rw [hd]

private theorem mapped (h : Apart c d) (b : Nat) : d.serv.fs.Mapped b ↔ c.serv.fs.Mapped b := by
  obtain ⟨mem, hd⟩ := h.serv
  rw [hd]
  exact Iff.rfl

private theorem keeps (h : Apart c d) (i : Fin MAXOPEN) : Keeps i c d := by
  obtain ⟨mem, hd⟩ := h.serv
  exact .of_eq (by rw [hd]) (by rw [hd]) h.ff fun v => h.sent v _

theorem window (h : Apart c d) {nb : Nat} {f : FilePtr} {n : Fin MAXFD} {i : Fin MAXOPEN} {m : Nat}
    (hw : c.Window nb f n i m) : d.Window nb f n i m := by
  refine hw.keep (h.keeps i) (hw.serves.congr h.view fun b hb => (h.mapped b).2 hb) (fun k _ => by rw [h.view])
    (fun b hb => (h.mapped b).2 hb) (fun k hk hk' => ?_) (Nat.le_refl m)
  obtain ⟨_, hp⟩ := hw.pages k hk
  rw [hp]
  exact (h.sent _ _).2 hp

end Apart

variable {c d : Client} {va : Word}

/-- An access finds a page, or a clear one of the program's own is allocated. -/
theorem access_cases (h : c.access va = some d) : ((c.map.page (VPN va)).isSome ∧ d = c) ∨
    c.map.page (VPN va) = none ∧ Apart c d ∧ d.map = c.map.alloc (VPN va) ∧
      d.own = Function.update c.own c.map.next (fun _ => 0) ∧ d.touched = c.touched := by
  unfold access at h
  split at h
  · cases h
  split at h
  · next hsome => exact .inl ⟨hsome, (Option.some.inj h).symm⟩
  next hnone =>
  have hnone : c.map.page (VPN va) = none := Option.not_isSome_iff_eq_none.1 hnone
  unfold pageFault at h
  split at h
  · cases h
  obtain ⟨-, h⟩ := Option.ite_none_right_eq_some.1 h
  cases h
  refine .inr ⟨hnone, ⟨?_, ?_, fun v p => ?_⟩, rfl, ?_, ?_⟩
  · obtain ⟨mem, hmem⟩ := (c.setMem (c.serv.fs.mem - 1)).withTable_eq (PDX va)
    rw [hmem]
    have hpage : (c.map.alloc (VPN va)).page (VPN va) = some (.own c.map.next) := Function.update_self ..
    refine ⟨mem, ?_⟩
    show Serv.addRef (Serv.dropRef _ (c.map.page (VPN va))) ((c.map.alloc (VPN va)).page (VPN va)) = _
    rw [hnone, hpage]
    rfl
  · obtain ⟨mem, hmem⟩ := (c.setMem (c.serv.fs.mem - 1)).withTable_eq (PDX va)
    rw [hmem]
    rfl
  · show (c.map.alloc (VPN va)).page v = _ ↔ _
    rcases eq_or_ne v (VPN va) with rfl | hv
    · have hpage : (c.map.alloc (VPN va)).page (VPN va) = some (.own c.map.next) := Function.update_self ..
      rw [hpage, hnone]
      simp
    · have hpage : (c.map.alloc (VPN va)).page v = c.map.page v := Function.update_of_ne hv ..
      rw [hpage]
  · rfl
  · obtain ⟨mem, hmem⟩ := (c.setMem (c.serv.fs.mem - 1)).withTable_eq (PDX va)
    rw [hmem]
    rfl

theorem access_present (hp : (c.map.page (VPN va)).isSome) (hva : ¬ULIM ≤ va) : c.access va = some c := by
  unfold access
  rw [if_neg hva, if_pos hp]

/-! ### Places in the window -/

/-- The place of a byte of the file in the window. -/
def place (n : Fin MAXFD) (pos : Nat) : Word := fd2data (INDEX2FD (BitVec.ofNat 32 n)) + BitVec.ofNat 32 pos

variable {n : Fin MAXFD} {pos : Nat} {x : Byte}

theorem place_toNat (n : Fin MAXFD) (hpos : pos < 2 ^ 22) : (place n pos).toNat = (384 + n) * 1024 * 4096 + pos := by
  have hn : n.val < 32 := n.isLt
  unfold place
  rw [BitVec.toNat_add, FdSpace.fd2data_toNat (UserFile.fdnum_toNat n), BitVec.toNat_ofNat]
  omega

theorem VPN_place (n : Fin MAXFD) (hpos : pos < 2 ^ 22) : VPN (place n pos) = dataVpn n ⟨pos / 4096, by omega⟩ := by
  apply FdSpace.pageNo_inj
  rw [FdSpace.pageNo_VPN, place_toNat n hpos, FdSpace.pageNo_data]
  show _ = _ + pos / 4096
  omega

private theorem wordIdx_place (n : Fin MAXFD) (hpos : pos < 2 ^ 22) : (wordIdx (place n pos)).val = pos % 4096 / 4 := by
  show (place n pos).toNat % 4096 / 4 = _
  rw [place_toNat n hpos]
  omega

private theorem place_mod (n : Fin MAXFD) (hpos : pos < 2 ^ 22) : (place n pos).toNat % 4 = pos % 4 := by
  rw [place_toNat n hpos]
  omega

private theorem place_lt (n : Fin MAXFD) (hpos : pos < 2 ^ 22) : (place n pos).toNat < UTOP.toNat := by
  have hn : n.val < 32 := n.isLt
  have htop : UTOP.toNat = 0x7F400000 := by decide
  rw [place_toNat n hpos]
  omega

theorem fdVpn_ne_data (n : Fin MAXFD) (k : Idx) : dataVpn n k ≠ fdVpn n := fun h =>
  FdSpace.fdVpn_ne_dataVpn n n k h.symm

namespace Window

variable {nb : Nat} {f : FilePtr} {i : Fin MAXOPEN} {m : Nat}

private theorem page (h : c.Window nb f n i m) (hpos : pos / 4096 < m) (hlt : pos < 2 ^ 22) :
    c.map.page (VPN (place n pos)) = some (.sent (.block (c.serv.fs.view.ptr f (.data (pos / 4096))))) := by
  obtain ⟨_, hp⟩ := h.pages _ hpos
  rw [VPN_place n hlt, hp]

/-- An access to the window changes nothing. -/
theorem access (h : c.Window nb f n i m) (hpos : pos / 4096 < m) (hlt : pos < 2 ^ 22) :
    c.access (place n pos) = some c := by
  refine access_present (by rw [h.page hpos hlt]; rfl) fun hge => ?_
  have hplace := place_lt n hlt
  have hulim : ULIM.toNat = 0x80000000 := by decide
  have htop : UTOP.toNat = 0x7F400000 := by decide
  have hge := BitVec.le_def.1 hge
  omega

/-- The word of a byte of the file. -/
private theorem word (h : c.Window nb f n i m) (hpos : pos / 4096 < m) (k : Idx) :
    c.serv.fs.word? (c.serv.fs.view.ptr f (.data (pos / 4096))) k =
      some (c.serv.fs.view.get (c.serv.fs.view.ptr f (.data (pos / 4096))) k) := by
  obtain ⟨pg, hpg⟩ := Option.isSome_iff_exists.1 (h.there _ hpos).2
  have hsome : c.serv.fs.word? (c.serv.fs.view.ptr f (.data (pos / 4096))) k = some (pg.data k) := by
    unfold Fs.word?
    rw [hpg, Option.bind_some, dif_pos k.isLt]
  rw [hsome, ← Fs.word?_view hsome]

/-- The window has the bytes of the file. -/
theorem load (h : c.Window nb f n i m) (hpos : pos / 4096 < m) (hlt : pos < 2 ^ 22) :
    c.load (place n pos) = some (c.serv.fs.view.byteAt f pos) := by
  unfold Client.load
  rw [h.page hpos hlt, Option.bind_some]
  show (c.serv.fs.word? _ _).map _ = _
  rw [h.word hpos, wordIdx_place n hlt, place_mod n hlt]
  have hblk : BY2BLK = 4096 := rfl
  unfold View.byteAt
  rw [hblk, if_neg (h.there _ hpos).1]
  rfl

end Window

end Client

/-- A byte of a block of the file is another one. -/
private theorem View.byteAt_set {nb : Nat} {M : Nat → Prop} {O : FilePtr → Prop} {v u : View} {f : FilePtr} {pos pos' : Nat}
    {x : Byte} (h : v.Good nb M O) (hf : v.Live O f) (h0 : v.ptr f (.data (pos / 4096)) ≠ 0)
    (hptr : ∀ k, u.ptr f k = v.ptr f k) (hu : u = v.set (v.ptr f (.data (pos / 4096))) (pos % 4096 / 4)
      (setByte (v.get (v.ptr f (.data (pos / 4096))) (pos % 4096 / 4)) (pos % 4) x)) :
    u.byteAt f pos' = if pos' = pos then x else v.byteAt f pos' := by
  have hoff : pos % 4096 / 4 < 1024 := by omega
  have hblk : BY2BLK = 4096 := rfl
  unfold View.byteAt
  rw [hptr, hblk]
  by_cases h0' : v.ptr f (.data (pos' / 4096)) = 0
  · have hne : pos' ≠ pos := fun heq => h0 (heq ▸ h0')
    rw [if_pos h0', if_pos h0', if_neg hne]
  rw [if_neg h0', if_neg h0', hu, View.get_set hoff]
  by_cases hsame : v.ptr f (.data (pos' / 4096)) = v.ptr f (.data (pos / 4096)) ∧ pos' % 4096 / 4 = pos % 4096 / 4
  · rw [if_pos hsame, byteOf_setByte (by omega) (by omega), hsame.1, hsame.2]
    have hblock : pos' / 4096 = pos / 4096 := by
      obtain ⟨-, hk⟩ := h.inj f f _ _ hf hf h0' hsame.1
      injection hk
    by_cases hpos : pos' = pos
    · rw [if_pos hpos, if_pos (by rw [hpos])]
    · rw [if_neg hpos, if_neg (by omega)]
  · rw [if_neg hsame]
    have hne : pos' ≠ pos := fun heq => hsame ⟨by rw [heq], by rw [heq]⟩
    rw [if_neg hne]

namespace Client

variable {c d : Client} {n : Fin MAXFD} {pos : Nat} {nb : Nat} {f : FilePtr} {i : Fin MAXOPEN} {m : Nat}

/-- A byte is stored in the window. -/
theorem Window.store (h : c.Window nb f n i m) (hpos : pos / 4096 < m) (hlt : pos < 2 ^ 22) (x : Byte) :
    ∃ fs, c.store (place n pos) x = some (c.setServ { c.serv with fs := fs }) ∧
      (c.setServ { c.serv with fs := fs }).Window nb f n i m ∧ fs.view.size f = c.serv.fs.view.size f ∧
        ∀ pos', fs.view.byteAt f pos' = if pos' = pos then x else c.serv.fs.view.byteAt f pos' := by
  obtain ⟨h0, hmap⟩ := h.there _ hpos
  obtain ⟨pg, hpg⟩ := Option.isSome_iff_exists.1 hmap
  have hoff : pos % 4096 / 4 < 1024 := by omega
  have hidx : wordIdx (place n pos) = ⟨pos % 4096 / 4, hoff⟩ := Fin.ext (wordIdx_place n hlt)
  obtain ⟨fs, hfs⟩ : ∃ fs, c.serv.fs.setWord? (c.serv.fs.view.ptr f (.data (pos / 4096))) (pos % 4096 / 4)
      (setByte (c.serv.fs.view.get (c.serv.fs.view.ptr f (.data (pos / 4096))) (pos % 4096 / 4)) (pos % 4) x) = some fs := by
    unfold Fs.setWord?
    rw [hpg, Option.bind_some, dif_pos hoff]
    exact ⟨_, rfl⟩
  obtain ⟨hserves, hview, hptr, hsize, hmapped⟩ := h.serves.setWord h0 hfs
  refine ⟨fs, ?_, ?_, hsize, fun pos' => View.byteAt_set h.serves.ok.good h.serves.live h0 hptr hview⟩
  · have hlow : ¬UTOP ≤ place n pos := fun hge => by
      have hge := BitVec.le_def.1 hge
      have hplace := place_lt n hlt
      omega
    have hword := h.word hpos ⟨pos % 4096 / 4, hoff⟩
    unfold Client.store
    rw [if_neg hlow, h.page hpos hlt, Option.bind_some, place_mod n hlt, hidx]
    show (c.serv.fs.word? _ _).bind _ = _
    rw [hword, Option.bind_some]
    show (c.serv.fs.setWord? _ _ _).map _ = _
    rw [hfs]
    rfl
  · exact h.keep (.of_eq rfl rfl rfl fun _ => Iff.rfl) hserves (fun k _ => hptr _) (fun b hb => (hmapped b).2 hb)
      (fun _ _ _ => rfl) (Nat.le_refl m)

/-! ### Buffers -/

/-- The buffer is in pages of the program's own, each of them at one address, or in such that are still to come. -/
structure Buffer (c : Client) (n : Fin MAXFD) (buf : Word) (len : Nat) : Prop where
  fits : buf.toNat + len < 2 ^ 32
  outside : ∀ j, j < len → ∀ k, VPN (buf + BitVec.ofNat 32 j) ≠ dataVpn n k
  own : ∀ j, j < len → ∀ p, c.map.page (VPN (buf + BitVec.ofNat 32 j)) = some p → ∃ a, p = .own a
  alone : ∀ j, j < len → ∀ j', j' < len → ∀ a, c.map.page (VPN (buf + BitVec.ofNat 32 j)) = some (.own a) →
    c.map.page (VPN (buf + BitVec.ofNat 32 j')) = some (.own a) →
      VPN (buf + BitVec.ofNat 32 j) = VPN (buf + BitVec.ofNat 32 j')

/-- The pages of the buffer are there, and the program may write to them. -/
def Present (c : Client) (buf : Word) (len : Nat) : Prop :=
  ∀ j, j < len → (c.map.page (VPN (buf + BitVec.ofNat 32 j))).isSome ∧ ¬UTOP ≤ buf + BitVec.ofNat 32 j

/-- Other contents of a page of the program's own. -/
def setOwn (c : Client) (a : Nat) (b : Block) : Client := { c with own := Function.update c.own a b }

/-- The byte that the program finds at an address; a page that is still to come is clear. -/
def peek (c : Client) (va : Word) : Byte := if (c.map.page (VPN va)).isSome then (c.load va).getD 0 else 0

variable {buf va va' : Word} {len j : Nat} {x : Byte} {a : Nat}

theorem Buffer.toNat (h : c.Buffer n buf len) (hj : j < len) : (buf + BitVec.ofNat 32 j).toNat = buf.toNat + j := by
  have hfits := h.fits
  rw [BitVec.toNat_add, BitVec.toNat_ofNat]
  omega

theorem load_own (hp : c.map.page (VPN va) = some (.own a)) :
    c.load va = some (byteOf (c.own a (wordIdx va)) (va.toNat % 4)) := by
  unfold Client.load
  rw [hp]
  rfl

/-- A byte is stored in a page of the program's own. -/
theorem store_own (hp : c.map.page (VPN va) = some (.own a)) (hlow : ¬UTOP ≤ va) :
    c.store va x = some (c.setOwn a
      (Function.update (c.own a) (wordIdx va) (setByte (c.own a (wordIdx va)) (va.toNat % 4) x))) := by
  unfold Client.store
  rw [if_neg hlow, hp]
  rfl

private theorem addr_eq (hv : VPN va = VPN va') (hk : wordIdx va = wordIdx va') (hb : va.toNat % 4 = va'.toNat % 4) : va =
    va' := by
  have hpage := congrArg FdSpace.pageNo hv
  rw [FdSpace.pageNo_VPN, FdSpace.pageNo_VPN] at hpage
  have hidx : va.toNat % 4096 / 4 = va'.toNat % 4096 / 4 := congrArg Fin.val hk
  apply BitVec.eq_of_toNat_eq
  omega

/-- What is loaded after that, from the same page or another one. -/
theorem load_store_own {a' : Nat} (hp : c.map.page (VPN va) = some (.own a)) (hp' : c.map.page (VPN va') = some (.own a'))
    (hone : a' = a → VPN va' = VPN va) (h : c.store va x = some d) :
    d.load va' = if va' = va then some x else c.load va' := by
  have hlow : ¬UTOP ≤ va := fun hge => by
    unfold Client.store at h
    rw [if_pos hge] at h
    cases h
  rw [store_own hp hlow] at h
  cases h
  rw [load_own (c := c.setOwn a _) hp', load_own hp']
  dsimp only [setOwn]
  by_cases ha : a' = a
  · subst ha
    have hv := hone rfl
    by_cases hk : wordIdx va' = wordIdx va
    · rw [Function.update_self, hk, Function.update_self, byteOf_setByte (by omega) (by omega)]
      by_cases hb : va'.toNat % 4 = va.toNat % 4
      · rw [if_pos hb, if_pos (addr_eq hv hk hb)]
      · rw [if_neg hb, if_neg fun heq => hb (by rw [heq])]
    · rw [Function.update_self, Function.update_of_ne hk, if_neg fun heq => hk (by rw [heq])]
  · have hne : va' ≠ va := fun heq => by
      rw [heq, hp] at hp'
      cases hp'
      exact ha rfl
    rw [Function.update_of_ne ha, if_neg hne]

end Client

end Mos
