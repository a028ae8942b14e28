import Mos.Inv.Device
import Mos.Fs.Block

/-!
# The disk (`fs/ide.c`)

The registers of the disk are those of `include/drivers/dev_disk.h`: an offset in bytes in two words, the number of the
disk, a word that starts an operation, and the status.  An operation moves a sector between the buffer and the disk, and
always succeeds.  `sector_setting` is aligned and in user memory, so that a system call on it moves the one word.
-/

namespace Mos

def DEV_DISK_ADDRESS : Word := 0x13000000
def DEV_DISK_OFFSET : Word := 0x0000
def DEV_DISK_OFFSET_HIGH32 : Word := 0x0008
def DEV_DISK_ID : Word := 0x0010
def DEV_DISK_START_OPERATION : Word := 0x0020
def DEV_DISK_BUFFER : Word := 0x4000
def DEV_DISK_OPERATION_READ : Word := 0
def DEV_DISK_OPERATION_WRITE : Word := 1

def BY2SECT : Word := 512
def SECT2BLK : Word := 8

/-- The disk; the bytes of the buffer are named by the addresses that the kernel has for them. -/
structure Disk where
  offset : Word
  offsetHigh32 : Word
  id : Word
  status : Word
  buffer : Word → Byte
  data : Word → Nat → Byte

/-- The file server, as far as it uses the disk: its memory besides `sector_setting`. -/
structure Ide where
  mem : Word → Byte
  sectorSetting : Word
  disk : Disk

/-- Some assignments of single bytes. -/
def moveBytes (dst src : Word → Byte) (l : List (Word × Word)) : Word → Byte :=
  l.foldl (fun f p => Function.update f p.1 (src p.2)) dst

namespace Disk

/-- The address of the first byte of the buffer. -/
def bufferVa : Word := Device.KSEG1 ||| (DEV_DISK_ADDRESS ||| DEV_DISK_BUFFER)

/-- Where the offset registers point to. -/
def pos (d : Disk) : Nat := d.offsetHigh32.toNat * 2 ^ 32 + d.offset.toNat

/-- A word is written to `DEV_DISK_START_OPERATION`. -/
def start (d : Disk) (op : Word) : Disk :=
  if op = DEV_DISK_OPERATION_READ then
    { d with status := 1,
             buffer := fun a => if (a - bufferVa).toNat < 512 then d.data d.id (d.pos + (a - bufferVa).toNat) else d.buffer a }
  else if op = DEV_DISK_OPERATION_WRITE then
    { d with status := 1,
             data := Function.update d.data d.id fun x =>
               if d.pos ≤ x ∧ x < d.pos + 512 then d.buffer (bufferVa + BitVec.ofNat 32 (x - d.pos)) else d.data d.id x }
  else d

/-- A word is written to a register. -/
def setReg (d : Disk) (reg w : Word) : Disk :=
  if reg = DEV_DISK_OFFSET then { d with offset := w }
  else if reg = DEV_DISK_OFFSET_HIGH32 then { d with offsetHigh32 := w }
  else if reg = DEV_DISK_ID then { d with id := w }
  else if reg = DEV_DISK_START_OPERATION then d.start w
  else d

end Disk

namespace Ide

/-- `sector_setting = w;` and the `SYS_write_dev` of it. -/
def writeReg (s : Ide) (reg w : Word) : Ide := { s with sectorSetting := w, disk := s.disk.setReg reg w }

/-- `SYS_write_dev` to the buffer; an error is a panic. -/
def writeBuffer (s : Ide) (va : Word) : Option Ide :=
  (Device.sysWriteDev va (DEV_DISK_ADDRESS ||| DEV_DISK_BUFFER) BY2SECT).bind fun (r, l) =>
    if r ≠ 0 then none
    else some { s with disk := { s.disk with buffer := moveBytes s.disk.buffer s.mem (l.flatMap Device.Move.bytes) } }

/-- `SYS_read_dev` of the buffer; an error is a panic. -/
def readBuffer (s : Ide) (va : Word) : Option Ide :=
  (Device.sysReadDev va (DEV_DISK_ADDRESS ||| DEV_DISK_BUFFER) BY2SECT).bind fun (r, l) =>
    if r ≠ 0 then none else some { s with mem := moveBytes s.mem s.disk.buffer (l.flatMap Device.Move.bytes) }

/-- `SYS_read_dev` of the status, and the check of it. -/
def checkStatus (s : Ide) : Option Ide :=
  if s.disk.status = 0 then none else some { s with sectorSetting := s.disk.status }

def setLocation (s : Ide) (secno high32 offset : Word) : Ide :=
  ((s.writeReg DEV_DISK_OFFSET offset).writeReg DEV_DISK_OFFSET_HIGH32 high32).writeReg DEV_DISK_ID secno

/-- The loops over the sectors, for less than `n` rounds. -/
def loop (body : Word → Ide → Option Ide) (begin fin : Word) : Nat → Word → Ide → Option Ide
  | 0, _, _ => none
  | n + 1, off, s => if begin + off < fin then (body off s).bind (loop body begin fin n (off + BY2SECT)) else some s

def readSector (diskno begin dst off : Word) (s : Ide) : Option Ide :=
  (((s.setLocation diskno 0 (begin + off)).writeReg DEV_DISK_START_OPERATION DEV_DISK_OPERATION_READ).checkStatus).bind
    fun s => s.readBuffer (dst + off)

def writeSector (diskno begin src off : Word) (s : Ide) : Option Ide :=
  ((s.setLocation diskno 0 (begin + off)).writeBuffer (src + off)).bind fun s =>
    (s.writeReg DEV_DISK_START_OPERATION DEV_DISK_OPERATION_WRITE).checkStatus

/-- There are never more rounds than sectors. -/
def ideRead (diskno secno dst nsecs : Word) (s : Ide) : Option Ide :=
  let begin := secno * BY2SECT
  loop (readSector diskno begin dst) begin (begin + nsecs * BY2SECT) (nsecs.toNat + 1) 0 s

def ideWrite (diskno secno src nsecs : Word) (s : Ide) : Option Ide :=
  let begin := secno * BY2SECT
  loop (writeSector diskno begin src) begin (begin + nsecs * BY2SECT) (nsecs.toNat + 1) 0 s

end Ide

/-- A page of user memory. -/
abbrev UserPage := { va : Word // Device.InRange va 4096 }

/-- A block that has an address in the cache. -/
abbrev DiskBlock := { b : Word // b.toNat < DISKMAX / BY2BLK }

/-- The calls of `write_block` and `read_block`. -/
inductive IdeOp where
  | write (b : DiskBlock) (src : UserPage)
  | read (b : DiskBlock) (dst : UserPage)

namespace IdeOp

def exec (s : Ide) : IdeOp → Option Ide
  | .write b src => s.ideWrite 0 (b.1 * SECT2BLK) src.1 SECT2BLK
  | .read b dst => s.ideRead 0 (b.1 * SECT2BLK) dst.1 SECT2BLK

def block : IdeOp → DiskBlock
  | .write b _ => b
  | .read b _ => b

end IdeOp

/-! ### Moving bytes -/

private theorem moveBytes_append (dst src : Word → Byte) (l l' : List (Word × Word)) :
    moveBytes dst src (l ++ l') = moveBytes (moveBytes dst src l) src l' := List.foldl_append ..

private theorem add_sub_self (d i : Word) : d + i - d = i := by
  rw [BitVec.add_comm, BitVec.add_sub_cancel]

private theorem moveBytes_from (dst src : Word → Byte) (d s : Word) {n : Nat} (hn : n < 2 ^ 32) (a : Word) :
    moveBytes dst src (Device.bytesFrom d s n) a = if (a - d).toNat < n then src (s + (a - d)) else dst a := by
  induction n generalizing a with
  | zero => simp [moveBytes, Device.bytesFrom]
  | succ n ih =>
    have hlast : Device.bytesFrom (d + BitVec.ofNat 32 n) (s + BitVec.ofNat 32 n) 1 =
        [(d + BitVec.ofNat 32 n, s + BitVec.ofNat 32 n)] := by
      simp [Device.bytesFrom]
    rw [Device.bytesFrom_add, moveBytes_append, hlast]
    show Function.update _ _ _ a = _
    by_cases ha : a = d + BitVec.ofNat 32 n
    · have hsub : a - d = BitVec.ofNat 32 n := by rw [ha, add_sub_self]
      have hnat : (BitVec.ofNat 32 n).toNat = n := Nat.mod_eq_of_lt (by omega)
      rw [hsub, hnat, if_pos (Nat.lt_succ_self n), ← ha, Function.update_self]
    · have hsub : (a - d).toNat ≠ n := by
        intro heq
        refine ha ?_
        have hbv : a - d = BitVec.ofNat 32 n := BitVec.eq_of_toNat_eq (by rw [heq, BitVec.toNat_ofNat]; omega)
        rw [← hbv, BitVec.add_comm, BitVec.sub_add_cancel]
      rw [Function.update_of_ne ha, ih (by omega)]
      have hiff : (a - d).toNat < n ↔ (a - d).toNat < n + 1 := by omega
      simp only [hiff]

namespace Ide

variable {s t : Ide} {va : Word}

/-- The addresses of a sector of memory. -/
private theorem buffer_calls (h : Device.InRange va BY2SECT) :
    (∃ l, Device.sysWriteDev va (DEV_DISK_ADDRESS ||| DEV_DISK_BUFFER) BY2SECT = some (0, l) ∧
      l.flatMap Device.Move.bytes = Device.bytesFrom Disk.bufferVa va 512) ∧
    ∃ l, Device.sysReadDev va (DEV_DISK_ADDRESS ||| DEV_DISK_BUFFER) BY2SECT = some (0, l) ∧
      l.flatMap Device.Move.bytes = Device.bytesFrom va Disk.bufferVa 512 :=
  Device.answers_copied h (by decide) (by decide)

private theorem writeBuffer_eq (h : Device.InRange va BY2SECT) : ∃ buf, s.writeBuffer va =
    some { s with disk := { s.disk with
    buffer := buf } } ∧ ∀ i < 512, buf (Disk.bufferVa + BitVec.ofNat 32 i) = s.mem (va + BitVec.ofNat 32 i) := by
  obtain ⟨l, hl, hbytes⟩ := (buffer_calls h).1
  refine ⟨moveBytes s.disk.buffer s.mem (l.flatMap Device.Move.bytes), ?_, fun i hi => ?_⟩
  · simp [writeBuffer, hl]
  · have hnat : (BitVec.ofNat 32 i).toNat = i := Nat.mod_eq_of_lt (by omega)
    rw [hbytes, moveBytes_from _ _ _ _ (by decide), add_sub_self, hnat, if_pos hi]

private theorem readBuffer_eq (h : Device.InRange va BY2SECT) : ∃ m, s.readBuffer va = some { s with mem := m } ∧
    ∀ a, m a = if (a - va).toNat < 512 then s.disk.buffer (Disk.bufferVa + (a - va)) else s.mem a := by
  obtain ⟨l, hl, hbytes⟩ := (buffer_calls h).2
  refine ⟨moveBytes s.mem s.disk.buffer (l.flatMap Device.Move.bytes), ?_, fun a => ?_⟩
  · simp [readBuffer, hl]
  · rw [hbytes, moveBytes_from _ _ _ _ (by decide)]

/-! ### One sector -/

private theorem setLocation_eq (s : Ide) (secno high32 offset : Word) : ∃ w, s.setLocation secno high32 offset =
    { s with sectorSetting := w, disk := { s.disk with offset := offset, offsetHigh32 := high32, id := secno } } :=
  ⟨_, rfl⟩

private theorem writeSector_eq (begin : Word) {src off : Word} (h : Device.InRange (src + off) BY2SECT) :
    ∃ t, writeSector 0 begin src off s = some t ∧ t.mem = s.mem ∧ ∀ id x, t.disk.data id x =
      if id = 0 ∧ (begin + off).toNat ≤ x ∧ x < (begin + off).toNat + 512 then
        s.mem (src + off + BitVec.ofNat 32 (x - (begin + off).toNat))
      else s.disk.data id x := by
  obtain ⟨w, hw⟩ := setLocation_eq s 0 0 (begin + off)
  obtain ⟨buf, hbuf, hbytes⟩ := writeBuffer_eq (s := s.setLocation 0 0 (begin + off)) h
  rw [hw] at hbuf hbytes
  unfold writeSector
  rw [hw, hbuf, Option.bind_some]
  refine ⟨_, rfl, rfl, fun id x => ?_⟩
  show Function.update s.disk.data 0 _ id x = _
  have hpos : (0 : Word).toNat * 2 ^ 32 + (begin + off).toNat = (begin + off).toNat := by simp
  by_cases hid : id = 0
  · subst hid
    rw [Function.update_self]
    simp only [Disk.pos, hpos, true_and]
    split
    case isTrue hx => exact hbytes _ (by omega)
    case isFalse => rfl
  · rw [Function.update_of_ne hid, if_neg fun h => hid h.1]

private theorem readSector_eq (begin : Word) {dst off : Word} (h : Device.InRange (dst + off) BY2SECT) :
    ∃ t, readSector 0 begin dst off s = some t ∧ t.disk.data = s.disk.data ∧ ∀ a, t.mem a =
      if (a - (dst + off)).toNat < 512 then s.disk.data 0 ((begin + off).toNat + (a - (dst + off)).toNat) else s.mem a := by
  obtain ⟨w, hw⟩ := setLocation_eq s 0 0 (begin + off)
  unfold readSector
  rw [hw]
  obtain ⟨m, hm, hbytes⟩ := readBuffer_eq h
  refine ⟨_, hm, rfl, fun a => (hbytes a).trans ?_⟩
  have hpos : (0 : Word).toNat * 2 ^ 32 + (begin + off).toNat = (begin + off).toNat := by simp
  split
  case isTrue ha =>
    show (if (Disk.bufferVa + (a - (dst + off)) - Disk.bufferVa).toNat < 512 then _ else _) = _
    rw [add_sub_self, if_pos ha]
    show s.disk.data 0 (_ * 2 ^ 32 + _ + _) = _
    rw [hpos]
  case isFalse => rfl

/-! ### A block -/

/-- The loop, with an invariant that says how many sectors have been moved. -/
private theorem loop_run {body : Word → Ide → Option Ide} {begin fin : Word} {n : Nat} (I : Nat → Ide → Prop)
    (hlt : ∀ k < n, begin + BitVec.ofNat 32 (512 * k) < fin) (hend : ¬ begin + BitVec.ofNat 32 (512 * n) < fin)
    (hstep : ∀ k < n, ∀ s, I k s → ∃ t, body (BitVec.ofNat 32 (512 * k)) s = some t ∧ I (k + 1) t) (m : Nat) :
    ∀ {k : Nat} {s : Ide}, k ≤ n → n - k < m → I k s →
      ∃ t, loop body begin fin m (BitVec.ofNat 32 (512 * k)) s = some t ∧ I n t := by
  induction m with
  | zero => exact fun _ hm => absurd hm (Nat.not_lt_zero _)
  | succ m ih =>
    intro k s hk hm hI
    unfold loop
    by_cases hkn : k = n
    · subst hkn
      rw [if_neg hend]
      exact ⟨s, rfl, hI⟩
    · have hklt : k < n := by omega
      obtain ⟨t, ht, hI'⟩ := hstep k hklt s hI
      have hoff : BitVec.ofNat 32 (512 * k) + BY2SECT = BitVec.ofNat 32 (512 * (k + 1)) := by
        rw [Nat.mul_succ, BitVec.ofNat_add]
        rfl
      rw [if_pos (hlt k hklt), ht, Option.bind_some, hoff]
      exact ih (by omega) (by omega) hI'

/-- The loop for a block. -/
private theorem loop_block {body : Word → Ide → Option Ide} {begin fin : Word} {s : Ide} (I : Nat → Ide → Prop)
    (hlt : ∀ k < 8, begin + BitVec.ofNat 32 (512 * k) < fin) (hend : ¬ begin + BitVec.ofNat 32 (512 * 8) < fin)
    (hstep : ∀ k < 8, ∀ s, I k s → ∃ t, body (BitVec.ofNat 32 (512 * k)) s = some t ∧ I (k + 1) t) (h0 : I 0 s) :
    ∃ t, loop body begin fin (SECT2BLK.toNat + 1) 0 s = some t ∧ I 8 t := by
  have h9 : SECT2BLK.toNat + 1 = 9 := by decide
  have hoff : (0 : Word) = BitVec.ofNat 32 (512 * 0) := by decide
  rw [h9, hoff]
  exact loop_run I hlt hend hstep 9 (by decide) (by decide) h0

/-- The address of a byte of a block is not out of range. -/
private theorem blockPos (b : DiskBlock) {k : Nat} (hk : k ≤ 8) :
    (b.1 * SECT2BLK * BY2SECT + BitVec.ofNat 32 (512 * k)).toNat = b.1.toNat * 4096 + 512 * k := by
  have hb : b.1.toNat < 0x40000 := b.2
  have h8 : SECT2BLK.toNat = 8 := by decide
  have h512 : BY2SECT.toNat = 512 := by decide
  rw [BitVec.toNat_add, BitVec.toNat_mul, BitVec.toNat_mul, BitVec.toNat_ofNat, h8, h512]
  omega

/-- The bounds of the loops. -/
private theorem loop_bounds (b : DiskBlock) :
    (∀ k < 8, b.1 * SECT2BLK * BY2SECT + BitVec.ofNat 32 (512 * k) < b.1 * SECT2BLK * BY2SECT + SECT2BLK * BY2SECT) ∧
      ¬ b.1 * SECT2BLK * BY2SECT + BitVec.ofNat 32 (512 * 8) < b.1 * SECT2BLK * BY2SECT + SECT2BLK * BY2SECT := by
  have h8 : SECT2BLK * BY2SECT = BitVec.ofNat 32 (512 * 8) := by decide
  rw [h8]
  constructor
  · intro k hk
    rw [BitVec.lt_def, blockPos b (by omega), blockPos b (Nat.le_refl 8)]
    omega
  · rw [BitVec.lt_def]
    exact Nat.lt_irrefl _

private theorem sector_inRange (p : UserPage) {k : Nat} (hk : k < 8) :
    Device.InRange (p.1 + BitVec.ofNat 32 (512 * k)) BY2SECT := by
  have htop : UTOP.toNat = 0x7F400000 := by decide
  have h512 : BY2SECT.toNat = 512 := by decide
  have h4096 : (4096 : Word).toNat = 4096 := by decide
  obtain ⟨hlo, hhi⟩ := p.2.resolve_left (by decide)
  refine .inr ?_
  rw [BitVec.toNat_add, BitVec.toNat_ofNat, h512]
  omega

end Ide

namespace IdeOp

variable {s t : Ide}

/-- A byte of the page at an address. -/
def InPage (p a : Word) : Prop := (a - p).toNat < 4096

instance (p a : Word) : Decidable (InPage p a) := inferInstanceAs (Decidable (_ < _))

/-- What a call is to do: the block gets the bytes of the page, or the page those of the block, and nothing else changes. -/
def Does (s t : Ide) : IdeOp → Prop
  | .write b src => t.mem = s.mem ∧ ∀ id x, t.disk.data id x =
      if id = 0 ∧ b.1.toNat * 4096 ≤ x ∧ x < b.1.toNat * 4096 + 4096 then
        s.mem (src.1 + BitVec.ofNat 32 (x - b.1.toNat * 4096))
      else s.disk.data id x
  | .read b dst => t.disk.data = s.disk.data ∧ ∀ a, t.mem a =
      if InPage dst.1 a then s.disk.data 0 (b.1.toNat * 4096 + (a - dst.1).toNat) else s.mem a

private theorem exec_write (s : Ide) (b : DiskBlock) (src : UserPage) :
    ∃ t, exec s (.write b src) = some t ∧ Does s t (.write b src) := by
  obtain ⟨hlt, hend⟩ := Ide.loop_bounds b
  unfold exec Does Ide.ideWrite
  refine Ide.loop_block (fun k t => t.mem = s.mem ∧ ∀ id x, t.disk.data id x =
      if id = 0 ∧ b.1.toNat * 4096 ≤ x ∧ x < b.1.toNat * 4096 + 512 * k then
        s.mem (src.1 + BitVec.ofNat 32 (x - b.1.toNat * 4096))
      else s.disk.data id x) hlt hend (fun k hk u hI => ?_) ⟨rfl, fun id x => ?_⟩
  · obtain ⟨t, ht, hmem, hdata⟩ := Ide.writeSector_eq (s := u) (b.1 * SECT2BLK * BY2SECT) (Ide.sector_inRange src hk)
    refine ⟨t, ht, hmem.trans hI.1, fun id x => ?_⟩
    rw [hdata, hI.1, hI.2, Ide.blockPos b (by omega), BitVec.add_assoc, ← BitVec.ofNat_add]
    -- the sector that is written now, those before it, and the rest of the disk
    by_cases hnew : id = 0 ∧ b.1.toNat * 4096 + 512 * k ≤ x ∧ x < b.1.toNat * 4096 + 512 * k + 512
    · have hall : id = 0 ∧ b.1.toNat * 4096 ≤ x ∧ x < b.1.toNat * 4096 + 512 * (k + 1) := ⟨hnew.1, by omega, by omega⟩
      have hsum : 512 * k + (x - (b.1.toNat * 4096 + 512 * k)) = x - b.1.toNat * 4096 := by omega
      rw [if_pos hnew, if_pos hall, hsum]
    · have hiff : (id = 0 ∧ b.1.toNat * 4096 ≤ x ∧ x < b.1.toNat * 4096 + 512 * k) ↔
          id = 0 ∧ b.1.toNat * 4096 ≤ x ∧ x < b.1.toNat * 4096 + 512 * (k + 1) := by
        refine and_congr_right fun hid => ?_
        have hnew' : ¬ (b.1.toNat * 4096 + 512 * k ≤ x ∧ x < b.1.toNat * 4096 + 512 * k + 512) := fun h => hnew ⟨hid, h⟩
        omega
      rw [if_neg hnew]
      simp only [hiff]
  · rw [if_neg (by omega)]

private theorem exec_read (s : Ide) (b : DiskBlock) (dst : UserPage) :
    ∃ t, exec s (.read b dst) = some t ∧ Does s t (.read b dst) := by
  obtain ⟨hlt, hend⟩ := Ide.loop_bounds b
  unfold exec Does Ide.ideRead
  refine Ide.loop_block (fun k t => t.disk.data = s.disk.data ∧ ∀ a, t.mem a =
      if (a - dst.1).toNat < 512 * k then s.disk.data 0 (b.1.toNat * 4096 + (a - dst.1).toNat) else s.mem a) hlt hend
    (fun k hk u hI => ?_) ⟨rfl, fun a => ?_⟩
  · obtain ⟨t, ht, hdata, hmem⟩ := Ide.readSector_eq (s := u) (b.1 * SECT2BLK * BY2SECT) (Ide.sector_inRange dst hk)
    refine ⟨t, ht, hdata.trans hI.1, fun a => ?_⟩
    have hlt32 := (a - dst.1).isLt
    have hsub : (a - (dst.1 + BitVec.ofNat 32 (512 * k))).toNat = ((a - dst.1).toNat + (2 ^ 32 - 512 * k)) % 2 ^ 32 := by
      have hassoc : a - (dst.1 + BitVec.ofNat 32 (512 * k)) = a - dst.1 - BitVec.ofNat 32 (512 * k) := by
        rw [BitVec.sub_sub]
      rw [hassoc, BitVec.toNat_sub, BitVec.toNat_ofNat]
      omega
    rw [hmem, hI.1, hI.2, hsub, Ide.blockPos b (by omega)]
    by_cases hnew : 512 * k ≤ (a - dst.1).toNat ∧ (a - dst.1).toNat < 512 * k + 512
    · have hall : (a - dst.1).toNat < 512 * (k + 1) := by omega
      have hsum : b.1.toNat * 4096 + 512 * k + ((a - dst.1).toNat + (2 ^ 32 - 512 * k)) % 2 ^ 32 =
          b.1.toNat * 4096 + (a - dst.1).toNat := by omega
      rw [if_pos (by omega), if_pos hall, hsum]
    · have hiff : (a - dst.1).toNat < 512 * k ↔ (a - dst.1).toNat < 512 * (k + 1) := by omega
      rw [if_neg (by omega)]
      simp only [hiff]
  · rw [if_neg (by omega)]

/-- Every call succeeds, and does what it is to do. -/
private theorem exec_does (s : Ide) (op : IdeOp) : ∃ t, op.exec s = some t ∧ op.Does s t := by
  cases op with
  | write b src => exact exec_write s b src
  | read b dst => exact exec_read s b dst

/-! ### Several calls -/

def execAll (s : Ide) : List IdeOp → Option Ide
  | [] => some s
  | op :: ops => (op.exec s).bind fun s => execAll s ops

/-- A call that writes another block, or none. -/
def Spares (b : DiskBlock) : IdeOp → Prop
  | .write b' _ => b' ≠ b
  | .read _ _ => True

/-- The places of two blocks on the disk. -/
private theorem block_apart {b b' : DiskBlock} (hne : b' ≠ b) {x : Nat}
    (hx : b.1.toNat * 4096 ≤ x ∧ x < b.1.toNat * 4096 + 4096) :
    ¬ (b'.1.toNat * 4096 ≤ x ∧ x < b'.1.toNat * 4096 + 4096) := by
  have hnat : b'.1.toNat ≠ b.1.toNat := fun h => hne (Subtype.ext (BitVec.eq_of_toNat_eq h))
  omega

private theorem Does.spares {op : IdeOp} (h : op.Does s t) {b : DiskBlock} (hop : op.Spares b) {x : Nat}
    (hx : b.1.toNat * 4096 ≤ x ∧ x < b.1.toNat * 4096 + 4096) : t.disk.data 0 x = s.disk.data 0 x := by
  cases op with
  | write b' src => rw [h.2, if_neg fun hb' => block_apart hop hx hb'.2]
  | read b' dst => rw [h.1]

/-- A block keeps what is in it while none of the calls writes it. -/
private theorem execAll_spares {b : DiskBlock} {ops : List IdeOp} (hops : ∀ op ∈ ops, op.Spares b) : ∀ s, ∃ t,
    execAll s ops = some t ∧
      ∀ x, b.1.toNat * 4096 ≤ x ∧ x < b.1.toNat * 4096 + 4096 → t.disk.data 0 x = s.disk.data 0 x := by
  induction ops with
  | nil => exact fun s => ⟨s, rfl, fun _ _ => rfl⟩
  | cons op ops ih =>
    intro s
    obtain ⟨u, hu, hdoes⟩ := exec_does s op
    obtain ⟨t, ht, hdata⟩ := ih (fun op' h => hops op' (List.mem_cons_of_mem _ h)) u
    refine ⟨t, ?_, fun x hx => ?_⟩
    · rw [execAll, hu]
      exact ht
    · rw [hdata x hx, hdoes.spares (hops op List.mem_cons_self) hx]

private theorem execAll_append (s : Ide) (ops ops' : List IdeOp) :
    execAll s (ops ++ ops') = (execAll s ops).bind fun t => execAll t ops' := by
  induction ops generalizing s with
  | nil => rfl
  | cons op ops ih =>
    rw [List.cons_append, execAll, execAll, Option.bind_assoc]
    exact congrArg _ (funext ih)

/-- A read returns what was last written. -/
private theorem read_last (s : Ide) (b : DiskBlock) (src dst : UserPage) {ops : List IdeOp}
    (hops : ∀ op ∈ ops, op.Spares b) :
    ∃ t, execAll s (.write b src :: ops ++ [.read b dst]) = some t ∧
      ∀ j < 4096, t.mem (dst.1 + BitVec.ofNat 32 j) = s.mem (src.1 + BitVec.ofNat 32 j) := by
  obtain ⟨u, hu, -, hdata⟩ := exec_write s b src
  obtain ⟨v, hv, hsame⟩ := execAll_spares hops u
  obtain ⟨t, ht, -, hmem⟩ := exec_read v b dst
  refine ⟨t, ?_, fun j hj => ?_⟩
  · rw [List.cons_append, execAll, hu, Option.bind_some, execAll_append, hv, Option.bind_some, execAll, ht]
    rfl
  · have hnat : (BitVec.ofNat 32 j).toNat = j := Nat.mod_eq_of_lt (by omega)
    have hin : InPage dst.1 (dst.1 + BitVec.ofNat 32 j) := by
      unfold InPage
      rw [add_sub_self, hnat]
      exact hj
    rw [hmem, if_pos hin, add_sub_self, hnat, hsame _ (by omega), hdata, if_pos ⟨rfl, by omega, by omega⟩,
      Nat.add_sub_cancel_left]

/-- The page in memory. -/
def page : IdeOp → UserPage
  | .write _ src => src
  | .read _ dst => dst

/-- Two calls that only read memory, or whose pages do not meet. -/
def Apart : IdeOp → IdeOp → Prop
  | .write _ _, .write _ _ => True
  | op, op' => ∀ a, ¬ (InPage op.page.1 a ∧ InPage op'.page.1 a)

/-- The bytes of a page have addresses in it. -/
private theorem inPage_add (p : Word) {j : Nat} (hj : j < 4096) : InPage p (p + BitVec.ofNat 32 j) := by
  unfold InPage
  rw [add_sub_self, BitVec.toNat_ofNat]
  omega

/-- Calls for different blocks commute. -/
private theorem exec_comm (s : Ide) {op op' : IdeOp} (hblk : op.block ≠ op'.block) (hpage : op.Apart op') :
    ∃ t u, execAll s [op, op'] = some t ∧ execAll s [op', op] = some u ∧ t.disk.data = u.disk.data ∧ t.mem = u.mem := by
  obtain ⟨v, hv, hdo⟩ := exec_does s op
  obtain ⟨t, ht, hdot⟩ := exec_does v op'
  obtain ⟨w, hw, hdo'⟩ := exec_does s op'
  obtain ⟨u, hu, hdou⟩ := exec_does w op
  refine ⟨t, u, by rw [execAll, hv, Option.bind_some, execAll, ht]; rfl,
    by rw [execAll, hw, Option.bind_some, execAll, hu]; rfl, ?_⟩
  -- Two writes go to different blocks, two reads to different pages; else what is read is not what is written.
  cases op with
  | write b src =>
    cases op' with
    | write b' src' =>
      change b ≠ b' at hblk
      refine ⟨?_, by rw [hdot.1, hdo.1, hdou.1, hdo'.1]⟩
      funext id x
      rw [hdot.2, hdo.2, hdou.2, hdo'.2, hdo.1, hdo'.1]
      by_cases hx : id = 0 ∧ b.1.toNat * 4096 ≤ x ∧ x < b.1.toNat * 4096 + 4096
      · rw [if_pos hx, if_pos hx, if_neg fun hx' => block_apart (Ne.symm hblk) hx.2 hx'.2]
      · rw [if_neg hx, if_neg hx]
    | read b' dst' =>
      change b ≠ b' at hblk
      change ∀ a, ¬ (InPage src.1 a ∧ InPage dst'.1 a) at hpage
      refine ⟨?_, ?_⟩
      · funext id x
        rw [hdot.1, hdo.2, hdou.2, hdo'.1]
        split
        case isTrue hx =>
          have hout : ¬ InPage dst'.1 (src.1 + BitVec.ofNat 32 (x - b.1.toNat * 4096)) :=
            fun h => hpage _ ⟨inPage_add src.1 (by omega), h⟩
          rw [hdo'.2, if_neg hout]
        case isFalse => rfl
      · funext a
        rw [hdot.2, hdo.1, hdou.1, hdo'.2]
        split
        case isTrue ha =>
          unfold InPage at ha
          rw [hdo.2, if_neg fun hx => block_apart hblk ⟨by omega, by omega⟩ hx.2]
        case isFalse => rfl
  | read b dst =>
    cases op' with
    | write b' src' =>
      change b ≠ b' at hblk
      change ∀ a, ¬ (InPage dst.1 a ∧ InPage src'.1 a) at hpage
      refine ⟨?_, ?_⟩
      · funext id x
        rw [hdot.2, hdo.1, hdou.1, hdo'.2]
        split
        case isTrue hx =>
          have hout : ¬ InPage dst.1 (src'.1 + BitVec.ofNat 32 (x - b'.1.toNat * 4096)) :=
            fun h => hpage _ ⟨h, inPage_add src'.1 (by omega)⟩
          rw [hdo.2, if_neg hout]
        case isFalse => rfl
      · funext a
        rw [hdot.1, hdo.2, hdou.2, hdo'.1]
        split
        case isTrue ha =>
          unfold InPage at ha
          rw [hdo'.2, if_neg fun hx => block_apart (Ne.symm hblk) ⟨by omega, by omega⟩ hx.2]
        case isFalse => rfl
    | read b' dst' =>
      change ∀ a, ¬ (InPage dst.1 a ∧ InPage dst'.1 a) at hpage
      refine ⟨by rw [hdot.1, hdo.1, hdou.1, hdo'.1], ?_⟩
      funext a
      rw [hdot.2, hdo.2, hdou.2, hdo'.2, hdo.1, hdo'.1]
      by_cases ha : InPage dst.1 a
      · rw [if_pos ha, if_pos ha, if_neg fun ha' => hpage a ⟨ha, ha'⟩]
      · rw [if_neg ha, if_neg ha]

end IdeOp

/-- Writing a block changes exactly its sectors, reading it returns the page last written, and calls for different blocks
commute. -/
theorem ide_blocks (s : Ide) :
    (∀ op : IdeOp, ∃ t, op.exec s = some t ∧ op.Does s t) ∧
    (∀ (b : DiskBlock) (src dst : UserPage) (ops : List IdeOp), (∀ op ∈ ops, op.Spares b) →
      ∃ t, IdeOp.execAll s (.write b src :: ops ++ [.read b dst]) = some t ∧
        ∀ j < 4096, t.mem (dst.1 + BitVec.ofNat 32 j) = s.mem (src.1 + BitVec.ofNat 32 j)) ∧
    ∀ op op' : IdeOp, op.block ≠ op'.block → op.Apart op' → ∃ t u, IdeOp.execAll s [op, op'] = some t ∧
      IdeOp.execAll s [op', op] = some u ∧ t.disk.data = u.disk.data ∧ t.mem = u.mem :=
  ⟨IdeOp.exec_does s, fun b src dst _ hops => IdeOp.read_last s b src dst hops, fun _ _ => IdeOp.exec_comm s⟩

/-- An empty disk, and a memory in which every byte is the lowest one of its address. -/
def Ide.counting : Ide := ⟨fun a => a.setWidth 8, 0, ⟨0, 0, 0, 0, fun _ => 0, fun _ _ => 0⟩⟩

theorem ide_blocks_counting : (∃ t, IdeOp.execAll .counting (.write ⟨1, by decide⟩ ⟨UTEXT, by decide⟩ ::
      [.write ⟨2, by decide⟩ ⟨UTEXT + BY2PG, by decide⟩] ++ [.read ⟨1, by decide⟩ ⟨UTEXT + BY2PG, by decide⟩]) = some t ∧
        ∀ j < 4096, t.mem (UTEXT + BY2PG + BitVec.ofNat 32 j) = (UTEXT + BitVec.ofNat 32 j).setWidth 8) ∧
    ∃ t u, IdeOp.execAll .counting [.write ⟨1, by decide⟩ ⟨UTEXT, by decide⟩, .write ⟨2, by decide⟩ ⟨UTEXT, by decide⟩] = some t ∧
      IdeOp.execAll .counting [.write ⟨2, by decide⟩ ⟨UTEXT, by decide⟩, .write ⟨1, by decide⟩ ⟨UTEXT, by decide⟩] = some u ∧
      t.disk.data = u.disk.data ∧ t.mem = u.mem := by
  refine ⟨(ide_blocks .counting).2.1 ⟨1, by decide⟩ ⟨UTEXT, by decide⟩ ⟨UTEXT + BY2PG, by decide⟩ _ fun op hop => ?_,
    (ide_blocks .counting).2.2 _ _ (fun h => ?_) trivial⟩
  · obtain rfl := List.mem_singleton.1 hop
    exact fun h => absurd (congrArg Subtype.val h) (by decide)
  · exact absurd (congrArg Subtype.val h) (by decide)

end Mos
