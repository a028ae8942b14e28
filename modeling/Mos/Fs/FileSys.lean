import Mos.Fs.FileSpec
import Mos.Fs.ServSpec
import Mos.Lib.Run

/-!
# The file server and the pages that its clients have

A client that has mapped a block of a file shares the page in the cache with the server, and may write to it at any time.
-/

namespace Mos

/-- A byte of a word. -/
def setByte (w : Word) (k : Nat) (x : Byte) : Word := (w &&& ~~~(0xff#32 <<< (8 * k))) ||| (x.setWidth 32 <<< (8 * k))

private theorem getLsbD_byteOf {w : Word} {k i : Nat} (hi : i < 8) : (byteOf w k).getLsbD i = w.getLsbD (8 * k + i) := by
  unfold byteOf
  rw [BitVec.getLsbD_setWidth, BitVec.getLsbD_ushiftRight]
  simp [hi]

theorem byteOf_setByte {w : Word} {k k' : Nat} {x : Byte} (hk : k < 4) (hk' : k' < 4) :
    byteOf (setByte w k x) k' = if k' = k then x else byteOf w k' := by
  have hmask (j : Nat) : (0xff#32).getLsbD j = decide (j < 8) := by
    have hones : 0xff#32 = (BitVec.allOnes 8).setWidth 32 := by decide
    rw [hones, BitVec.getLsbD_setWidth, BitVec.getLsbD_allOnes]
    by_cases hj : j < 8
    · simp [hj, Nat.lt_trans hj (by decide : 8 < 32)]
    · simp [hj]
  apply BitVec.eq_of_getLsbD_eq
  intro i hi
  have hlt : 8 * k' + i < 32 := by omega
  rw [getLsbD_byteOf hi]
  unfold setByte
  rw [BitVec.getLsbD_or, BitVec.getLsbD_and, BitVec.getLsbD_not, BitVec.getLsbD_shiftLeft, BitVec.getLsbD_shiftLeft,
    hmask, BitVec.getLsbD_setWidth]
  split
  · next h =>
    subst h
    have hge : ¬ 8 * k' + i < 8 * k' := by omega
    have hi' : i < 32 := by omega
    simp [hlt, hge, hi, hi']
  · next h =>
    rw [getLsbD_byteOf hi]
    by_cases hk8 : 8 * k' + i < 8 * k
    · simp [hlt, hk8]
    · have hout : ¬ 8 * k' + i - 8 * k < 8 := by omega
      have hx : x.getLsbD (8 * k' + i - 8 * k) = false := BitVec.getLsbD_of_ge _ _ (by omega)
      simp [hlt, hk8, hout, hx]

/-- A page that a client got for a block of a file; `dir` says whether the file was a directory. -/
structure Hold (ι : Type) where
  client : ι
  file : FilePtr
  filebno : Nat
  bno : Nat
  dir : Bool
  deriving DecidableEq

structure FileSys (ι : Type) where
  serv : Serv
  held : List (Hold ι)
  /-- Not in the code: the places of a file that nobody has written to since the file was extended over them. -/
  fresh : FilePtr → Nat → Bool

inductive FileEvent (ι : Type) where
  /-- The server handles a request, and the client gets what is sent. -/
  | request (e : ι) (req : FsReq) (junk : Option (Fin MAXOPEN))
  /-- A client writes a byte to a page that it has. -/
  | store (h : Hold ι) (off : Nat) (x : Byte)
  | unmap (h : Hold ι)
  /-- The free memory changes, and clients get and give up pages of descriptors. -/
  | memory (mem : Nat) (ref : Fin MAXOPEN → Nat)

/-- The file of a request with an id. -/
def Serv.fileOf (s : Serv) (fileid : Word) : Option FilePtr := (s.openLookup fileid).bind fun i => (s.opentab i).oFile

/-- The blocks in the replies. -/
def ServLog.block : ServLog → Option Nat
  | .reply _ (some (.block b)) => some b
  | .reply _ _ => none
  | .fs _ => none

/-- A byte of a file; a block that is not there is zero. -/
def View.byteAt (v : View) (f : FilePtr) (pos : Nat) : Byte :=
  if v.ptr f (.data (pos / BY2BLK)) = 0 then 0
  else byteOf (v.get (v.ptr f (.data (pos / BY2BLK))) (pos % BY2BLK / 4)) (pos % 4)

namespace FileSys

variable {ι : Type} [DecidableEq ι]

/-- What a client gets. -/
def newHolds (s t : Serv) (e : ι) (l : List ServLog) : FsReq → List (Hold ι)
  | .map fileid offset => match s.fileOf fileid with
    | some f => (l.filterMap ServLog.block).map fun b =>
        ⟨e, f, offset.toNat / BY2BLK, b, t.fs.view.get f.blk (f.off + 33) == FTYPE_DIR⟩
    | none => []
  | _ => []

/-- The places that a file is extended over. -/
def extends? (s : Serv) : FsReq → FilePtr → Nat → Bool
  | .setSize fileid newsize, f, pos => s.fileOf fileid = some f ∧ s.fs.view.size f ≤ pos ∧ pos < newsize.toNat
  | _, _, _ => false

def request (s : FileSys ι) (e : ι) (req : FsReq) (junk : Option (Fin MAXOPEN)) : Option (FileSys ι) :=
  (ServProc.serve junk req s.serv).map fun p =>
    { serv := p.2.2
      held := newHolds s.serv p.2.2 e p.1 req ++ s.held
      fresh := fun f pos => s.fresh f pos || extends? s.serv req f pos }

/-- The page is shared, and a place of a file is written to if the block is still there. -/
def store (s : FileSys ι) (h : Hold ι) (off : Nat) (x : Byte) : Option (FileSys ι) :=
  if h ∈ s.held ∧ off < BY2BLK then
    (s.serv.fs.word? h.bno (off / 4)).bind fun w =>
      (s.serv.fs.setWord? h.bno (off / 4) (setByte w (off % 4) x)).map fun fs =>
        { s with
          serv := { s.serv with fs := fs }
          fresh := fun f pos => s.fresh f pos &&
            !decide (f = h.file ∧ pos = h.filebno * BY2BLK + off ∧ s.serv.fs.view.ptr f (.data h.filebno) = h.bno) }
  else none

def step (s : FileSys ι) : FileEvent ι → Option (FileSys ι)
  | .request e req junk => s.request e req junk
  | .store h off x => s.store h off x
  | .unmap h => some { s with held := s.held.filter (· ≠ h) }
  | .memory mem ref => some { s with serv := { s.serv with fs := { s.serv.fs with mem := mem }, ref := ref } }

end FileSys

/-- A disk image that is well formed: every block that a file can reach is in use, none is used twice, and none is a block
of the superblock or the bitmap. -/
structure WellFormed (disk : View) : Prop where
  used : ∀ b, b ≤ lastMeta (disk.get 1 1).toNat → ¬ disk.IsFree b
  own : ∀ f k, disk.Reachable f → disk.ptr f k ≠ 0 →
    lastMeta (disk.get 1 1).toNat < disk.ptr f k ∧ disk.ptr f k < (disk.get 1 1).toNat ∧ ¬ disk.IsFree (disk.ptr f k)
  inj : ∀ f g k k', disk.Reachable f → disk.Reachable g → disk.ptr f k ≠ 0 → disk.ptr f k = disk.ptr g k' → f = g ∧ k = k'

/-- The file server after `fs_init`, which leaves a copy of the superblock in block 0 of the cache. -/
def Fs.mount (disk : View) (mem : Nat) : Fs where
  disk := disk
  cache b := if b ≤ lastMeta (disk.get 1 1).toNat then some ⟨if b = 0 then disk 1 else disk b, false⟩ else none
  mem := mem

def FileSys.start {ι : Type} (disk : View) (mem : Nat) : FileSys ι := ⟨.init (.mount disk mem), [], fun _ _ => false⟩

/-- A file server that has started from a well formed image. -/
def fileSys (ι : Type) [DecidableEq ι] : System (FileSys ι) (FileEvent ι) :=
  ⟨fun s => ∃ disk mem, WellFormed disk ∧ s = .start disk mem, FileSys.step⟩

end Mos
