import Mos.User.Resize

/-!
# A file as an array of bytes (`read`, `write`, `seek` and `ftruncate`)

As long as no sum of the offset and a length wraps around into the file, and no request is refused, the calls on a
descriptor of a file do what they do on an array of bytes.
-/

namespace Mos

open FdSpace (fdVpn dataVpn INDEX2FD fd2num fd2data rounds)

/-- A call on the descriptor of a file. -/
inductive FileOp where
  | seek (offset : Word)
  | read (buf n : Word)
  | write (buf n : Word)
  | ftruncate (size : Word)

namespace FileOp

def run (fdnum : Word) : FileOp → UserProc Word
  | .seek offset => UserFile.seek fdnum offset
  | .read buf n => UserFile.read fdnum buf n
  | .write buf n => UserFile.write fdnum buf n
  | .ftruncate size => UserFile.ftruncate fdnum size

/-- The end of the request is behind that of the largest file. -/
def TooBig (a : ByteFile Byte) : FileOp → Prop
  | .write _ n => MAXFILESIZE.toNat < a.pos + n.toNat
  | .ftruncate size => MAXFILESIZE.toNat < size.toNat
  | _ => False

instance (a : ByteFile Byte) : (x : FileOp) → Decidable (x.TooBig a)
  | .seek _ => inferInstanceAs (Decidable False)
  | .read _ _ => inferInstanceAs (Decidable False)
  | .write _ n => inferInstanceAs (Decidable (MAXFILESIZE.toNat < a.pos + n.toNat))
  | .ftruncate size => inferInstanceAs (Decidable (MAXFILESIZE.toNat < size.toNat))

/-- What the call returns. -/
def result (a : ByteFile Byte) (x : FileOp) : Word :=
  if x.TooBig a then -E_NO_DISK
  else match x with
    | .read _ n => BitVec.ofNat 32 (a.count n.toNat)
    | .write _ n => n
    | _ => 0

/-- What it does to the bytes; those that are written come from the memory of the program. -/
def next (c : Client) (a : ByteFile Byte) (x : FileOp) : ByteFile Byte :=
  if x.TooBig a then a
  else match x with
    | .seek offset => a.seek offset.toNat
    | .read _ n => a.read n.toNat
    | .write buf n => a.write n.toNat fun j => c.peek (buf + BitVec.ofNat 32 j)
    | .ftruncate size => a.truncate size.toNat

/-- An address in the buffer of the call. -/
def InBuffer (va : Word) : FileOp → Prop
  | .read buf n => ∃ k, k < n.toNat ∧ va = buf + BitVec.ofNat 32 k
  | .write buf n => ∃ k, k < n.toNat ∧ va = buf + BitVec.ofNat 32 k
  | _ => False

/-- The call does on the client what it does on the bytes, and touches nothing but its buffer and the window. -/
structure Conforms (n : Fin MAXFD) (c : Client) (a : ByteFile Byte) (x : FileOp) (r : Word) (c' : Client) : Prop where
  result : r = x.result a
  refused : x.TooBig a → c' = c
  bytes : ∀ buf nw, x = .read buf nw → ∀ j, j < a.count nw.toNat → ∀ y, a.byte (a.pos + j) = some y →
    c'.load (buf + BitVec.ofNat 32 j) = some y
  touched : ∀ va ∈ c'.touched, va ∈ c.touched ∨ x.InBuffer va ∨ ∃ pos, pos < MAXFILESIZE.toNat ∧ va = Client.place n pos

/-- The sum of the offset and the length does not wrap around, or not into the file; the buffer is one of the program's
own; and the requests that there are to be made are granted. -/
def Fits (f : FilePtr) (n : Fin MAXFD) (c : Client) (a : ByteFile Byte) : FileOp → Prop
  | .seek _ => True
  | .read buf nw =>
    (a.pos ≤ a.size → a.pos + nw.toNat < 2 ^ 32 ∨ a.size < a.pos + nw.toNat - 2 ^ 32) ∧ c.Buffer n buf (a.count nw.toNat)
  | .write buf nw =>
    (a.pos + nw.toNat < 2 ^ 32 ∨ MAXFILESIZE.toNat < a.pos + nw.toNat - 2 ^ 32) ∧
      (a.pos + nw.toNat ≤ MAXFILESIZE.toNat → c.Buffer n buf nw.toNat ∧
        (a.size < a.pos + nw.toNat → c.Supplied f (BitVec.ofNat 32 n) (BitVec.ofNat 32 (a.pos + nw.toNat))))
  | .ftruncate size => size.toNat ≤ MAXFILESIZE.toNat → c.Supplied f (BitVec.ofNat 32 n) size

/-- The pages of the buffer that the call needs are there. -/
def Ready (c : Client) (a : ByteFile Byte) : FileOp → Prop
  | .read buf nw => c.Present buf (a.count nw.toNat)
  | .write buf nw => c.Present buf nw.toNat
  | _ => True

end FileOp

/-- The client has this file. -/
structure Client.Models (c : Client) (nb : Nat) (f : FilePtr) (n : Fin MAXFD) (i : Fin MAXOPEN) (a : ByteFile Byte) :
    Prop where
  holds : c.Holds nb f n i (BitVec.ofNat 32 a.size)
  small : a.size ≤ MAXFILESIZE.toNat
  pos : (c.rest i 1).toNat = a.pos
  bytes : ∀ p x, a.byte p = some x → c.serv.fs.view.byteAt f p = x

namespace FileOp

/-- Every execution of the call conforms to the bytes, and there is one if the pages are there. -/
structure Obeys (nb : Nat) (f : FilePtr) (n : Fin MAXFD) (i : Fin MAXOPEN) (c : Client) (a : ByteFile Byte) (x : FileOp) :
    Prop where
  law : ∀ l q d, x.run (BitVec.ofNat 32 n) c = some (l, q, d) →
    x.Conforms n c a (returned q) d ∧ d.Models nb f n i (x.next c a)
  ends : x.Ready c a → ∃ l q d, x.run (BitVec.ofNat 32 n) c = some (l, q, d)

/-- It is enough to know the only execution. -/
private theorem Obeys.of_run {nb : Nat} {f : FilePtr} {n : Fin MAXFD} {i : Fin MAXOPEN} {c d : Client} {a : ByteFile Byte}
    {x : FileOp} {l : List Asked} {q : Except Word Word} (h : x.run (BitVec.ofNat 32 n) c = some (l, q, d))
    (hconf : x.Conforms n c a (returned q) d) (hmod : d.Models nb f n i (x.next c a)) : x.Obeys nb f n i c a where
  law l' q' d' h' := by
    rw [h] at h'
    cases h'
    exact ⟨hconf, hmod⟩
  ends _ := ⟨l, q, d, h⟩

end FileOp

namespace UserFile

open Proc Client

variable {c d : Client} {n : Fin MAXFD} {nb : Nat} {f : FilePtr} {i : Fin MAXOPEN} {m : Nat} {buf nw size r : Word}
  {a : ByteFile Byte} {l : List Asked} {q : Except Word Word}

theorem max_toNat : MAXFILESIZE.toNat = 0x400000 := by decide

private theorem Models.size_toNat (h : c.Models nb f n i a) : (BitVec.ofNat 32 a.size).toNat = a.size := by
  have hmax := max_toNat
  have hsmall := h.small
  rw [BitVec.toNat_ofNat]
  omega

/-- `read` and `write` get to the function of a file. -/
private theorem transfer_open {mode : Word} {x : Word → Word → UserProc Word} (hw : c.Window nb f n i m)
    (hmode : O_RDWR ≠ mode) :
    transfer mode x (BitVec.ofNat 32 n) c = (x (INDEX2FD (BitVec.ofNat 32 n)) (c.rest i 1) >>=
      advance (INDEX2FD (BitVec.ofNat 32 n))) c := by
  have hdev : fdDevId (INDEX2FD (BitVec.ofNat 32 n)) c = some ([], .ok 102, c) := by
    have hword := fdWord_open hw 0
    rwa [show (c.serv.ff i).word (c.rest i) 0 = 102 from hw.devId] at hword
  have hmode' : fdOmode (INDEX2FD (BitVec.ofNat 32 n)) c = some ([], .ok (c.serv.ff i).fdOmode, c) := fdWord_open hw 2
  have hoffset : fdOffset (INDEX2FD (BitVec.ofNat 32 n)) c = some ([], .ok (c.rest i 1), c) := fdWord_open hw 1
  refine (bind_eq (fdLookup_open hw)).trans ((bind_eq hdev).trans ((bind_eq (u := c) (a := ()) rfl).trans
    ((bind_eq hmode').trans ?_)))
  rw [hw.omode, if_neg hmode]
  exact bind_eq hoffset

/-- The offset goes on by what is returned. -/
def moved (c : Client) (i : Fin MAXOPEN) (r : Word) : Client :=
  if (0 : Word).slt r then c.setDesc i 1 (c.rest i 1 + r) else c

private theorem advance_open (hw : c.Window nb f n i m) (r : Word) :
    advance (INDEX2FD (BitVec.ofNat 32 n)) r c = some ([], .ok r, moved c i r) := by
  unfold advance moved
  split
  · exact (bind_eq (fdWord_open hw 1)).trans ((bind_eq (setFdWord_open hw 1 _)).trans rfl)
  · rfl

private theorem moved_window (hw : c.Window nb f n i m) (r : Word) : (moved c i r).Window nb f n i m := by
  unfold moved
  split
  · exact hw.setDesc (by decide) (by decide) (by decide) _
  · exact hw

private theorem moved_same (c : Client) (i : Fin MAXOPEN) (r : Word) : (moved c i r).serv.fs = c.serv.fs ∧
    (moved c i r).map = c.map ∧ (moved c i r).own = c.own ∧ (moved c i r).touched = c.touched := by
  unfold moved
  split <;> exact ⟨rfl, rfl, rfl, rfl⟩

private theorem moved_fSize (c : Client) (i : Fin MAXOPEN) (r : Word) :
    ((moved c i r).serv.ff i).fFile 32 = (c.serv.ff i).fFile 32 := by
  unfold moved
  split
  · rw [setDesc_ff]
    rfl
  · rfl

private theorem slt_of_small (hr : r.toNat ≤ MAXFILESIZE.toNat) : (0 : Word).slt r = true ↔ r ≠ 0 := by
  have hmax := max_toNat
  rw [BitVec.slt_eq_decide, decide_eq_true_iff, BitVec.toInt_eq_toNat_of_lt (by omega : 2 * r.toNat < 2 ^ 32)]
  have hzero : (0 : Word).toInt = 0 := rfl
  rw [hzero, Ne, BitVec.toNat_eq]
  show _ ↔ ¬r.toNat = 0
  omega

/-- The offset of the file that a call of `read` or `write` leaves. -/
private theorem moved_offset (hr : r.toNat ≤ MAXFILESIZE.toNat) (hsum : (c.rest i 1).toNat + r.toNat < 2 ^ 32) :
    ((moved c i r).rest i 1).toNat = (c.rest i 1).toNat + r.toNat := by
  unfold moved
  split
  · show (Function.update c.rest i _ i 1).toNat = _
    rw [Function.update_self, Function.update_self, BitVec.toNat_add, Nat.mod_eq_of_lt hsum]
  · next hneg =>
    have hzero : r = 0 := by
      by_contra hne
      exact hneg ((slt_of_small hr).2 hne)
    rw [hzero]
    rfl

/-- The file that a call of `read` or `write` leaves. -/
private theorem moved_models (hh : c.Holds nb f n i (BitVec.ofNat 32 a.size)) (hsmall : a.size ≤ MAXFILESIZE.toNat)
    (hr : r.toNat ≤ MAXFILESIZE.toNat) (hsum : (c.rest i 1).toNat + r.toNat < 2 ^ 32)
    (hpos : (c.rest i 1).toNat + r.toNat = a.pos) (hbytes : ∀ p x, a.byte p = some x → c.serv.fs.view.byteAt f p = x) :
    (moved c i r).Models nb f n i a := by
  obtain ⟨hfs, -, -, -⟩ := moved_same c i r
  refine ⟨⟨moved_window hh.window r, ?_, ?_, hh.max⟩, hsmall, ?_, ?_⟩
  · rw [moved_fSize, hh.fSize]
  · rw [hfs, hh.length]
  · rw [moved_offset hr hsum, hpos]
  · rw [hfs]
    exact hbytes

/-- The end of `read` and `write`, after the copy. -/
private theorem copy_advance {x : UserProc Unit} {P : Client → Prop}
    (hx : ∀ l q d, x c = some (l, q, d) → l = [] ∧ q = .ok () ∧ P d) (hw : ∀ d, P d → d.Window nb f n i m) (r : Word) :
    (∀ l q e, ((x >>= fun _ => pure r) >>= advance (INDEX2FD (BitVec.ofNat 32 n))) c = some (l, q, e) →
      ∃ d, P d ∧ q = .ok r ∧ e = moved d i r) ∧
    ∀ d, x c = some ([], .ok (), d) →
      ((x >>= fun _ => pure r) >>= advance (INDEX2FD (BitVec.ofNat 32 n))) c = some ([], .ok r, moved d i r) := by
  have hend (d : Client) (hd : x c = some ([], .ok (), d)) :
      ((x >>= fun _ => pure r) >>= advance (INDEX2FD (BitVec.ofNat 32 n))) c = some ([], .ok r, moved d i r) := by
    obtain ⟨-, -, hP⟩ := hx _ _ _ hd
    have hret : (x >>= fun _ => pure r) c = some ([], .ok r, d) := (bind_eq hd).trans rfl
    exact (bind_eq hret).trans (advance_open (hw d hP) r)
  refine ⟨fun l q e h => ?_, hend⟩
  rcases bind_some h with ⟨e', hxs, -⟩ | ⟨l₁, y, d, l₂, hxs, -, -⟩
  · rcases bind_some hxs with ⟨e'', hxs, -⟩ | ⟨l₁, y, d, l₂, hxs, hr, -⟩
    · cases (hx _ _ _ hxs).2.1
    · cases hr
  · rcases bind_some hxs with ⟨e'', hxs, -⟩ | ⟨l₁, y, d, l₂, hxs, hr, -⟩
    · cases (hx _ _ _ hxs).2.1
    · obtain ⟨rfl, -, hP⟩ := hx _ _ _ hxs
      rw [hend _ hxs] at h
      cases h
      exact ⟨d, hP, rfl, rfl⟩

/-- The number of bytes that are read. -/
private theorem clip_toNat {offset : Word} (hsize : size.toNat = a.size) (hpos : offset.toNat = a.pos)
    (hle : a.pos ≤ a.size)
    (hfit : a.pos + nw.toNat < 2 ^ 32 ∨ a.size < a.pos + nw.toNat - 2 ^ 32) :
    (clip size offset nw).toNat = a.count nw.toNat := by
  have hn : nw.toNat < 2 ^ 32 := nw.isLt
  have hs : size.toNat < 2 ^ 32 := size.isLt
  have hsum : (offset + nw).toNat = (a.pos + nw.toNat) % 2 ^ 32 := by rw [BitVec.toNat_add, hpos]
  have hsub : (size - offset).toNat = a.size - a.pos := by
    rw [BitVec.toNat_sub_of_le (by rw [BitVec.le_def]; omega), hsize, hpos]
  unfold clip ByteFile.count
  split
  · next hlt =>
    rw [BitVec.lt_def, hsum] at hlt
    rw [hsub]
    omega
  · next hnot =>
    rw [BitVec.lt_def, hsum] at hnot
    omega

private theorem fSize_open (hm : c.Models nb f n i a) :
    fSize (INDEX2FD (BitVec.ofNat 32 n)) c = some ([], .ok (BitVec.ofNat 32 a.size), c) := by
  rw [← hm.holds.fSize]
  exact fdWord_open hm.holds.window 36

private theorem le_blocks (hm : c.Models nb f n i a) : a.size ≤ rounds (BitVec.ofNat 32 a.size) * 4096 := by
  show a.size ≤ ((BitVec.ofNat 32 a.size).toNat + 4095) / 4096 * 4096
  rw [Models.size_toNat hm]
  omega

private theorem place_pos (hm : c.Models nb f n i a) :
    fd2data (INDEX2FD (BitVec.ofNat 32 n)) + c.rest i 1 = place n a.pos := by
  unfold place
  rw [← hm.pos, BitVec.ofNat_toNat, BitVec.setWidth_eq]

private theorem read_run (hm : c.Models nb f n i a) (buf nw : Word) : (FileOp.read buf nw).run (BitVec.ofNat 32 n) c =
    (fileRead (INDEX2FD (BitVec.ofNat 32 n)) buf nw (c.rest i 1) >>= advance (INDEX2FD (BitVec.ofNat 32 n))) c :=
  transfer_open hm.holds.window (by decide)

/-- There is nothing behind the end. -/
private theorem read_past (hm : c.Models nb f n i a) (hlt : a.size < a.pos) : (FileOp.read buf nw).Obeys nb f n i c a := by
  have hcount : a.count nw.toNat = 0 := a.count_of_size_le (by omega)
  have hpast : BitVec.ofNat 32 a.size < c.rest i 1 := by
    rw [BitVec.lt_def, Models.size_toNat hm, hm.pos]
    exact hlt
  have hzero : fileRead (INDEX2FD (BitVec.ofNat 32 n)) buf nw (c.rest i 1) c = some ([], .ok 0, c) := by
    refine (bind_eq (fSize_open hm)).trans ?_
    rw [if_pos hpast]
    rfl
  refine .of_run ((read_run hm buf nw).trans ((bind_eq hzero).trans (advance_open hm.holds.window 0)))
    ⟨?_, nofun, ?_, fun va hva => .inl hva⟩ ?_
  · show (0 : Word) = BitVec.ofNat 32 (a.count nw.toNat)
    rw [hcount]
    rfl
  · intro buf' nw' heq j hj
    cases heq
    omega
  · refine moved_models hm.holds hm.small (by decide) (c.rest i 1).isLt ?_ hm.bytes
    show _ = a.pos + a.count nw.toNat
    rw [hcount, hm.pos]
    rfl

/-- The bytes up to the end. -/
private theorem read_inside (hm : c.Models nb f n i a) (hle : a.pos ≤ a.size)
    (hwrap : a.pos + nw.toNat < 2 ^ 32 ∨ a.size < a.pos + nw.toNat - 2 ^ 32) (hb : c.Buffer n buf (a.count nw.toNat)) :
    (FileOp.read buf nw).Obeys nb f n i c a := by
  have hsize := Models.size_toNat hm
  have hmax := max_toNat
  have hsmall := hm.small
  have hblocks := le_blocks hm
  have hcount := a.pos_add_count (n := nw.toNat) hle
  obtain ⟨r, hr⟩ : ∃ r, clip (BitVec.ofNat 32 a.size) (c.rest i 1) nw = r := ⟨_, rfl⟩
  have hclip : r.toNat = a.count nw.toNat := hr ▸ clip_toNat hsize hm.pos hle hwrap
  have hrun : (FileOp.read buf nw).run (BitVec.ofNat 32 n) c =
      ((memcpy buf (place n a.pos) r >>= fun _ => pure r) >>= advance (INDEX2FD (BitVec.ofNat 32 n))) c := by
    have hpast : ¬BitVec.ofNat 32 a.size < c.rest i 1 := by
      rw [BitVec.lt_def, hsize, hm.pos]
      omega
    refine (read_run hm buf nw).trans (bind_congr ((bind_eq (fSize_open hm)).trans ?_))
    rw [if_neg hpast, hr, place_pos hm]
  -- All blocks of the file are in the window, so that every byte that is copied is there.
  have hend : a.pos + a.count nw.toNat ≤ rounds (BitVec.ofNat 32 a.size) * 4096 := by omega
  obtain ⟨hcopy, hthere⟩ := memcpy_fetched hm.holds.window hb hclip hend (by omega)
  obtain ⟨hlaw, hends⟩ := copy_advance hcopy (fun d hd => hd.window) r
  refine ⟨fun l q e h => ?_, fun hp => ?_⟩
  · rw [hrun] at h
    obtain ⟨d, hd, rfl, rfl⟩ := hlaw l q e h
    obtain ⟨hfs, hmap, hown, htouched⟩ := moved_same d i r
    refine ⟨⟨?_, nofun, ?_, fun va hva => ?_⟩, ?_⟩
    · show r = BitVec.ofNat 32 (a.count nw.toNat)
      rw [← hclip, BitVec.ofNat_toNat, BitVec.setWidth_eq]
    · intro buf' nw' heq j hj y hy
      cases heq
      obtain ⟨k, hk⟩ := hd.own j hj
      have hload := hd.bytes j hj
      rw [load_own hk, hm.bytes _ _ hy] at hload
      rw [load_own (hmap ▸ hk), hown]
      exact hload
    · rw [htouched] at hva
      rcases hd.touched va hva with hold | ⟨k, hk, rfl⟩ | ⟨k, hk, rfl⟩
      · exact .inl hold
      · exact .inr (.inl ⟨k, Nat.lt_of_lt_of_le hk a.count_le, rfl⟩)
      · exact .inr (.inr ⟨a.pos + k, by omega, rfl⟩)
    · have hff := hd.apart.ff
      have hview := hd.apart.view
      have hrest := hd.apart.rest
      refine moved_models ⟨hd.window, ?_, ?_, hm.holds.max⟩ hm.small (by omega) ?_ ?_ ?_
      · rw [hff]
        exact hm.holds.fSize
      · rw [hview]
        exact hm.holds.length
      · rw [hrest, hm.pos]
        omega
      · show _ = a.pos + a.count nw.toNat
        rw [hrest, hm.pos, hclip]
      · rw [hview]
        exact hm.bytes
  · obtain ⟨d, hd⟩ := hthere hp
    exact ⟨_, _, _, hrun.trans (hends d hd)⟩

private theorem read_obeys (hm : c.Models nb f n i a) (hfit : (FileOp.read buf nw).Fits f n c a) :
    (FileOp.read buf nw).Obeys nb f n i c a := by
  rcases Nat.lt_or_ge a.size a.pos with hlt | hle
  · exact read_past hm hlt
  · exact read_inside hm hle (hfit.1 hle) hfit.2

/-- The file is made longer for what is written. -/
private theorem extend_supplied {tot : Word} (hm : c.Models nb f n i a) (hmax : tot.toNat ≤ MAXFILESIZE.toNat)
    (hs : a.size < tot.toNat → c.Supplied f (BitVec.ofNat 32 n) tot) :
    ∃ l d, extend (INDEX2FD (BitVec.ofNat 32 n)) tot c = some (l, .ok (), d) ∧
      d.Holds nb f n i (BitVec.ofNat 32 (max a.size tot.toNat)) ∧ Aside n i c d ∧
        ∀ p, p < a.size → d.serv.fs.view.byteAt f p = c.serv.fs.view.byteAt f p := by
  have hsize := Models.size_toNat hm
  by_cases hlt : BitVec.ofNat 32 a.size < tot
  · have hlt' := BitVec.lt_def.1 hlt
    rw [hsize] at hlt'
    obtain ⟨l, d, hd, hholds, haside, hbytes⟩ := ftruncate_supplied hm.holds
      (fun h => Nat.not_lt.2 hmax (BitVec.lt_def.1 h)) (hs hlt')
    have hnum : fd2num (INDEX2FD (BitVec.ofNat 32 n)) = BitVec.ofNat 32 n := fd2num_eq (fdnum_toNat n)
    have hattempt : attempt (ftruncate (fd2num (INDEX2FD (BitVec.ofNat 32 n))) tot) c = some (l, .ok (.ok 0), d) := by
      show (ftruncate _ _ _).map _ = _
      rw [hnum, hd]
      rfl
    refine ⟨l ++ [], d, ?_, ?_, haside, fun p hp => hbytes p (by omega) (by omega)⟩
    · refine (bind_eq (fSize_open hm)).trans ?_
      rw [if_pos hlt]
      exact bind_of_ok hattempt rfl
    · rwa [Nat.max_eq_right (Nat.le_of_lt hlt'), BitVec.ofNat_toNat, BitVec.setWidth_eq]
  · refine ⟨[], c, ?_, ?_, .refl n i c, fun _ _ => rfl⟩
    · refine (bind_eq (fSize_open hm)).trans ?_
      rw [if_neg hlt]
      rfl
    · rw [BitVec.lt_def, hsize] at hlt
      rw [Nat.max_eq_left (by omega)]
      exact hm.holds

private theorem write_run (hm : c.Models nb f n i a) (buf nw : Word) : (FileOp.write buf nw).run (BitVec.ofNat 32 n) c =
    (fileWrite (INDEX2FD (BitVec.ofNat 32 n)) buf nw (c.rest i 1) >>= advance (INDEX2FD (BitVec.ofNat 32 n))) c :=
  transfer_open hm.holds.window (by decide)

/-- A call that is refused at once. -/
private theorem refused_obeys {x : FileOp} (hm : c.Models nb f n i a) (hbig : x.TooBig a)
    (h : x.run (BitVec.ofNat 32 n) c = some ([], .ok (-E_NO_DISK), c)) : x.Obeys nb f n i c a := by
  refine .of_run h ⟨?_, fun _ => rfl, fun buf nw heq => ?_, fun va hva => .inl hva⟩ ?_
  · unfold FileOp.result
    rw [if_pos hbig]
    rfl
  · rw [heq] at hbig
    exact hbig.elim
  · unfold FileOp.next
    rw [if_pos hbig]
    exact hm

private theorem write_big (hm : c.Models nb f n i a) (hbig : MAXFILESIZE.toNat < a.pos + nw.toNat)
    (hwrap : a.pos + nw.toNat < 2 ^ 32 ∨ MAXFILESIZE.toNat < a.pos + nw.toNat - 2 ^ 32) :
    (FileOp.write buf nw).Obeys nb f n i c a := by
  have hn : nw.toNat < 2 ^ 32 := nw.isLt
  have hpos : a.pos < 2 ^ 32 := hm.pos ▸ (c.rest i 1).isLt
  have hend : MAXFILESIZE < c.rest i 1 + nw := by
    rw [BitVec.lt_def, BitVec.toNat_add, hm.pos]
    omega
  have hwrite : fileWrite (INDEX2FD (BitVec.ofNat 32 n)) buf nw (c.rest i 1) c = some ([], .ok (-E_NO_DISK), c) := by
    unfold fileWrite
    rw [if_pos hend]
    rfl
  exact refused_obeys hm hbig ((write_run hm buf nw).trans ((bind_eq hwrite).trans (advance_open hm.holds.window _)))

/-- The bytes are put into the window, which is made longer before. -/
private theorem write_inside (hm : c.Models nb f n i a) (hle : a.pos + nw.toNat ≤ MAXFILESIZE.toNat)
    (hb : c.Buffer n buf nw.toNat)
    (hs : a.size < a.pos + nw.toNat → c.Supplied f (BitVec.ofNat 32 n) (BitVec.ofNat 32 (a.pos + nw.toNat))) :
    (FileOp.write buf nw).Obeys nb f n i c a := by
  have hmax := max_toNat
  have hsmall := hm.small
  have htot : (c.rest i 1 + nw).toNat = a.pos + nw.toNat := by
    rw [BitVec.toNat_add, hm.pos, Nat.mod_eq_of_lt (by omega)]
  have hword : BitVec.ofNat 32 (a.pos + nw.toNat) = c.rest i 1 + nw := by
    rw [← htot, BitVec.ofNat_toNat, BitVec.setWidth_eq]
  rw [hword, ← htot] at hs
  obtain ⟨l₁, d, hext, hholds, haside, hkept⟩ := extend_supplied hm (by omega) hs
  rw [htot] at hholds
  -- First the file is made longer, then the bytes are copied into the window, which reaches that far now.
  have hrun : (FileOp.write buf nw).run (BitVec.ofNat 32 n) c =
      (((memcpy (place n a.pos) buf nw >>= fun _ => pure nw) >>= advance (INDEX2FD (BitVec.ofNat 32 n))) d).map
        fun p => (l₁ ++ p.1, p.2) := by
    have hfit : ¬MAXFILESIZE < c.rest i 1 + nw := by
      rw [BitVec.lt_def, htot]
      omega
    rw [write_run hm, ← place_pos hm]
    unfold fileWrite
    rw [if_neg hfit]
    exact bind_bind_after hext
  have hend : a.pos + nw.toNat ≤ rounds (BitVec.ofNat 32 (max a.size (a.pos + nw.toNat))) * 4096 := by
    show _ ≤ ((BitVec.ofNat 32 _).toNat + 4095) / 4096 * 4096
    rw [BitVec.toNat_ofNat]
    omega
  obtain ⟨hcopy, hthere⟩ := memcpy_stored hholds.window (haside.buffer hb) rfl hend (by omega)
  obtain ⟨hlaw, hends⟩ := copy_advance hcopy (fun d hd => hd.window) nw
  refine ⟨fun l q e h => ?_, fun hp => ?_⟩
  · rw [hrun] at h
    obtain ⟨⟨l₂, q₂, e₂⟩, hrest, h⟩ := Option.map_eq_some_iff.1 h
    cases h
    obtain ⟨s, hst, rfl, rfl⟩ := hlaw l₂ q e hrest
    obtain ⟨-, -, -, htouched⟩ := moved_same s i nw
    have hfine : ¬(FileOp.write buf nw).TooBig a := Nat.not_lt.2 hle
    refine ⟨⟨?_, fun hbig => absurd hbig hfine, fun _ _ heq => ?_, fun va hva => ?_⟩, ?_⟩
    · unfold FileOp.result
      rw [if_neg hfine]
      rfl
    · cases heq
    · rw [htouched] at hva
      rcases hst.touched va hva with hold | ⟨k, hk, rfl⟩ | ⟨k, hk, rfl⟩
      · exact .inl (haside.touched ▸ hold)
      · exact .inr (.inl ⟨k, hk, rfl⟩)
      · exact .inr (.inr ⟨a.pos + k, by omega, rfl⟩)
    · unfold FileOp.next
      rw [if_neg hfine]
      have hoffset : (s.rest i 1).toNat = a.pos := by rw [hst.rest, haside.offset, hm.pos]
      refine moved_models ⟨hst.window, ?_, ?_, hholds.max⟩ ?_ (by omega) (by omega) ?_ fun p x hx => ?_
      · rw [hst.ff]
        exact hholds.fSize
      · rw [hst.size]
        exact hholds.length
      · exact Nat.max_le.2 ⟨hsmall, hle⟩
      · rw [hoffset]
        rfl
      · rw [hst.bytes]
        by_cases hin : a.pos ≤ p ∧ p < a.pos + nw.toNat
        · have hbyte : (a.write nw.toNat fun j => c.peek (buf + BitVec.ofNat 32 j)).byte p =
              some (c.peek (buf + BitVec.ofNat 32 (p - a.pos))) := if_pos hin
          rw [hbyte] at hx
          rw [if_pos hin, haside.peek hb (by omega)]
          exact Option.some.inj hx
        · rw [ByteFile.byte_write_of_not hin] at hx
          rw [if_neg hin, hkept p (a.bound p x hx)]
          exact hm.bytes p x hx
  · obtain ⟨e, he⟩ := hthere (haside.present hb hp)
    exact ⟨_, _, _, hrun.trans (congrArg (Option.map _) (hends e he))⟩

private theorem write_obeys (hm : c.Models nb f n i a) (hfit : (FileOp.write buf nw).Fits f n c a) :
    (FileOp.write buf nw).Obeys nb f n i c a := by
  rcases Nat.lt_or_ge MAXFILESIZE.toNat (a.pos + nw.toNat) with hlt | hle
  · exact write_big hm hlt hfit.1
  · exact write_inside hm hle (hfit.2 hle).1 (hfit.2 hle).2

private theorem ftruncate_obeys (hm : c.Models nb f n i a) (hfit : (FileOp.ftruncate size).Fits f n c a) :
    (FileOp.ftruncate size).Obeys nb f n i c a := by
  rcases Nat.lt_or_ge MAXFILESIZE.toNat size.toNat with hlt | hle
  · have hrefused : ftruncate (BitVec.ofNat 32 n) size c = some ([], .ok (-E_NO_DISK), c) := by
      unfold ftruncate
      rw [if_pos (BitVec.lt_def.2 hlt)]
      rfl
    exact refused_obeys hm hlt hrefused
  have hfine : ¬(FileOp.ftruncate size).TooBig a := Nat.not_lt.2 hle
  obtain ⟨l, d, hd, hholds, haside, hbytes⟩ := ftruncate_supplied hm.holds (fun h => Nat.not_lt.2 hle (BitVec.lt_def.1 h))
    (hfit hle)
  refine .of_run hd ⟨?_, fun hbig => absurd hbig hfine, fun _ _ heq => ?_, fun va hva => .inl (haside.touched ▸ hva)⟩ ?_
  · unfold FileOp.result
    rw [if_neg hfine]
    rfl
  · cases heq
  · unfold FileOp.next
    rw [if_neg hfine]
    refine ⟨?_, hle, ?_, fun p x hx => ?_⟩
    · show d.Holds nb f n i (BitVec.ofNat 32 size.toNat)
      rwa [BitVec.ofNat_toNat, BitVec.setWidth_eq]
    · rw [haside.offset]
      exact hm.pos
    · have hsize := Models.size_toNat hm
      obtain ⟨hlt, hx⟩ := Option.ite_none_right_eq_some.1 hx
      have hold := a.bound p x hx
      rw [hbytes p (by omega) hlt]
      exact hm.bytes p x hx

private theorem seek_obeys (hm : c.Models nb f n i a) (offset : Word) : (FileOp.seek offset).Obeys nb f n i c a := by
  have hw := hm.holds.window
  have hrun : (FileOp.seek offset).run (BitVec.ofNat 32 n) c = some ([], .ok 0, c.setDesc i 1 offset) :=
    (bind_eq (fdLookup_open hw)).trans ((bind_eq (setFdWord_open hw 1 offset)).trans rfl)
  have hfine : ¬(FileOp.seek offset).TooBig a := id
  refine .of_run hrun ⟨rfl, fun hbig => hbig.elim, fun _ _ heq => ?_, fun va hva => .inl hva⟩ ?_
  · cases heq
  · refine ⟨⟨hw.setDesc (by decide) (by decide) (by decide) offset, ?_, hm.holds.length, hm.holds.max⟩, hm.small, ?_,
      hm.bytes⟩
    · rw [setDesc_ff]
      exact hm.holds.fSize
    · show (Function.update c.rest i _ i 1).toNat = _
      rw [Function.update_self, Function.update_self]
      rfl

/-- Each of the calls obeys the law of a file. -/
theorem obeys {x : FileOp} (hm : c.Models nb f n i a) (hfit : x.Fits f n c a) : x.Obeys nb f n i c a := by
  cases x with
  | seek offset => exact seek_obeys hm offset
  | read buf nw => exact read_obeys hm hfit
  | write buf nw => exact write_obeys hm hfit
  | ftruncate size => exact ftruncate_obeys hm hfit

end UserFile

end Mos
