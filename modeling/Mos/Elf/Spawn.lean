import Mos.Elf.Load
import Mos.Fs.Block
import Mos.Kern.Syscall
import Mos.User.PipeRef

/-!
# Loading a program (`kern/env.c`, `user/lib/spawn.c`)

`load_icode` reads the image where it lies; `spawn` reads a file into a buffer and builds the child with system calls.  The
file is open for reading, its bytes are those that are mapped at the data of its descriptor, and nothing else runs while
`spawn` does.  What `close` tells the file server is left out.
-/

namespace Mos

def E_NOT_EXEC : Word := 13

/-! ### Headers -/

/-- The fields of `Elf32_Ehdr` that the loaders use. -/
structure Ehdr where
  eEntry : Word
  ePhoff : Word
  ePhentsize : BitVec 16
  ePhnum : BitVec 16

section

variable (b : Nat → Byte)

def readHalf (o : Nat) : BitVec 16 := b (o + 1) ++ b o

def readWord (o : Nat) : Word := b (o + 3) ++ b (o + 2) ++ b (o + 1) ++ b o

/-- The header at the beginning of some bytes, like the next one without any check. -/
def ehdrAt : Ehdr := ⟨readWord b 24, readWord b 28, readHalf b 42, readHalf b 44⟩

def phdrAt : Phdr := ⟨readWord b 0, readWord b 4, readWord b 8, readWord b 16, readWord b 20, readWord b 24⟩

/-- Whether `elf_from` returns the header. -/
def elfFrom (size : Word) : Bool :=
  52 ≤ size && b 0 = 0x7f && b 1 = 0x45 && b 2 = 0x4c && b 3 = 0x46 && readHalf b 16 = 2

end

/-- What `p + n` points to. -/
def shift (b : Nat → Byte) (n : Word) : Nat → Byte := fun j => b (n.toNat + j)

/-! ### `load_icode` -/

namespace Elf

/-- `ELF_FOREACH_PHDR_OFF`, with `n` more headers from `ph_off` on; `panic_on` does not return. -/
def loadPhdrs (rounds pgdir : Nat) (asid : Asid) (binary : Nat → Byte) : Nat → Word → Pmap → Option Pmap
  | 0, _, m => some m
  | n + 1, phOff, m =>
    let ph := phdrAt (shift binary phOff)
    (if ph.pType = PT_LOAD then
      (elfLoadSeg (loadIcodeMapper pgdir asid) rounds ph (shift binary ph.pOffset) m).bind fun (r, m) =>
        if r = 0 then some m else none
    else some m).bind fun m => loadPhdrs rounds pgdir asid binary n (phOff + (ehdrAt binary).ePhentsize.setWidth 32) m

def loadIcode (rounds pgdir : Nat) (asid : Asid) (binary : Nat → Byte) (size : Word) (m : Pmap) : Option Pmap :=
  if elfFrom binary size then
    loadPhdrs rounds pgdir asid binary (ehdrAt binary).ePhnum.toNat (ehdrAt binary).ePhoff m
  else none

/-- An error of `env_alloc` is not looked at; what `e` is then is outside of the model, like a panic. -/
def envCreate (rounds : Nat) (k : Kern) (binary : Nat → Byte) (size priority : Word) : Option (EnvPtr × Kern) :=
  (k.envAlloc 0).bind fun (e, k) =>
    let k := k.setEnv e fun env => { env with envPri := priority, envStatus := .RUNNABLE }
    (k.envs e).envPgdir.bind fun pgdir =>
      (loadIcode rounds pgdir (k.envs e).envAsid binary size k.pm).map fun pm =>
        let k := (k.setPm pm).setEnv e fun env => { env with
          envTf := { env.envTf with cp0Epc := (ehdrAt binary).eEntry } }
        (e, k.setSched (k.sched.insertHead e))

end Elf

/-! ### The file -/

structure ElfFile where
  size : Word
  data : Nat → Byte

/-- What `file_read` returns. -/
def ElfFile.readSize (f : ElfFile) (n offset : Word) : Word :=
  if f.size < offset then 0 else if f.size < offset + n then f.size - offset else n

/-- `memcpy` of `n` bytes to `buf + tot`. -/
def copyTo (buf : Nat → Byte) (tot : Nat) (src : Nat → Byte) (n : Nat) : Nat → Byte :=
  fun x => if tot ≤ x ∧ x < tot + n then src (x - tot) else buf x

/-- The loop of `readn` from `tot` on, with the seek position: what it returns, the buffer, and the new position. -/
def ElfFile.readLoop (f : ElfFile) (n : Word) : Nat → (Nat → Byte) → Word → Word → Option (Word × (Nat → Byte) × Word)
  | 0, _, _, _ => none
  | rounds + 1, buf, pos, tot =>
    if tot < n then
      let m := f.readSize (n - tot) pos
      let buf := copyTo buf tot.toNat (shift f.data pos) m.toNat
      let pos := if (0 : Word).slt m then pos + m else pos
      if m.slt 0 then some (m, buf, pos)
      else if m = 0 then some (tot, buf, pos)
      else f.readLoop n rounds buf pos (tot + m)
    else some (tot, buf, pos)

/-- `readn` into `elfbuf`; what lies behind it on the stack must not be written. -/
def ElfFile.readn (f : ElfFile) (buf : Nat → Byte) (pos n : Word) : Option (Word × (Nat → Byte) × Word) :=
  if n ≤ 512 then f.readLoop n (n.toNat + 1) buf pos 0 else none

/-- The bytes at `*blk`, or the error code. -/
def ElfFile.readMap (f : ElfFile) (offset : Word) : Except Word (Nat → Byte) :=
  if MAXFILESIZE ≤ offset then .error (-E_NO_DISK)
  else if offset.toNat / 4096 < (f.size.toNat + 4095) / 4096 then .ok (shift f.data offset)
  else .error (-E_NO_DISK)

/-! ### `spawn` -/

namespace Kern

/-- The frame that the caller writes to at `va`; a write where nothing is mapped is outside of the model. -/
def frameAt (k : Kern) (cur : EnvPtr) (va : Word) : Option Nat := (k.pageLookupEnv cur va).join

/-- A system call that returns, with its result. -/
def returning (x : Option Ret) : Option (Word × Kern) := x.bind fun (k, r) => r.map fun r => (r, k)

/-- `init_stack`, where `page` is what it writes to the stack page, or `none` where the arguments do not fit. -/
def initStack (cur : EnvPtr) (child : Word) (page : Option (Idx → Word)) (k : Kern) : Option (Word × Kern) :=
  match page with
  | none => some (-E_NO_MEM, k)
  | some page =>
    (returning (k.sysMemAlloc cur 0 UTEMP PTE_D)).bind fun (r, k) =>
      if r.slt 0 then some (r, k)
      else (k.frameAt cur UTEMP).bind fun pp =>
        let k := k.setPm (k.pm.setFrame pp page)
        (returning (k.sysMemMap cur 0 UTEMP child (USTACKTOP - BY2PG) PTE_D)).bind fun (r, k) =>
          if r.slt 0 then (returning (k.sysMemUnmap cur 0 UTEMP)).map fun (_, k) => (r, k)
          else
            (returning (k.sysMemUnmap cur 0 UTEMP)).bind fun (r, k) =>
              if r.slt 0 then (returning (k.sysMemUnmap cur 0 UTEMP)).map fun (_, k) => (r, k)
              else some (0, k)

def spawnMapper (cur : EnvPtr) (child : Word) : ElfMapper Kern := fun k va offset perm src len =>
  orReturn (returning (k.sysMemAlloc cur child va perm)) Prod.mk fun k =>
    match src with
    | none => some (0, k)
    | some src =>
      (returning (k.sysMemMap cur child va 0 UTEMP (perm ||| PTE_D))).bind fun (r, k) =>
        if r ≠ 0 then (returning (k.sysMemUnmap cur child va)).map fun (_, k) => (r, k)
        else (k.frameAt cur UTEMP).bind fun pp =>
          returning ((k.setPm (k.pm.memcpy (pp * 4096 + offset.toNat) src len.toNat)).sysMemUnmap cur 0 UTEMP)

/-- The loop over the program headers, which are read into the buffer that the macro reads the ELF header from; an error
comes with the value of `r`. -/
def spawnPhdrs (rounds : Nat) (cur : EnvPtr) (child : Word) (f : ElfFile) : Nat → Nat → Word → (Nat → Byte) → Kern →
    Option (Except Word Unit × Kern)
  | 0, _, _, _, _ => none
  | n + 1, idx, phOff, elfbuf, k =>
    if idx < (ehdrAt elfbuf).ePhnum.toNat then
      (f.readn elfbuf phOff ((ehdrAt elfbuf).ePhentsize.setWidth 32)).bind fun (r, elfbuf, _) =>
        if r.slt 0 then some (.error r, k)
        else
          let ph := phdrAt elfbuf
          let next := fun k => spawnPhdrs rounds cur child f n (idx + 1)
            (phOff + (ehdrAt elfbuf).ePhentsize.setWidth 32) elfbuf k
          if ph.pType = PT_LOAD then
            match f.readMap ph.pOffset with
            | .error _ => some (.error r, k)
            | .ok bin =>
              (elfLoadSeg (spawnMapper cur child) rounds ph bin k).bind fun (r', k) =>
                if r'.slt 0 then some (.error r, k) else next k
          else next k
    else some (.ok (), k)

/-- The pages that `close` unmaps: those of the data, and that of the descriptor. -/
def closeFile (cur : EnvPtr) (fdnum size : Word) (k : Kern) : Option Kern :=
  ((List.range ((size.toNat + 4095) / 4096)).foldlM (fun k i =>
    (returning (k.sysMemUnmap cur 0 (FILEBASE + fdnum * PDMAP + BitVec.ofNat 32 i * BY2PG))).map (·.2)) k).bind fun k =>
      (returning (k.sysMemUnmap cur 0 (FDTABLE + fdnum * BY2PG))).map (·.2)

/-- The entry that `cur` sees at `vpt[pn]`, or `none` where the directory has none. -/
def vpt (k : Kern) (cur : EnvPtr) (v : Vpn) : Option Word :=
  (k.envs cur).envPgdir.bind fun d =>
    if has (k.pm.word d v.1) PTE_V then some (k.pm.word (PPN (k.pm.word d v.1)) v.2) else none

/-- One round of the inner loop at the end: the page `v` is shared if it is a library page. -/
def sharePage (cur : EnvPtr) (child : Word) (k : Kern) (v : Vpn) : Option (Word × Kern) :=
  match k.vpt cur v with
  | none => some (0, k)
  | some pte =>
    if has pte PTE_V && has pte PTE_LIBRARY then
      returning (k.sysMemMap cur 0 (pageVa v) child (pageVa v) (pte &&& 0xFFF))
    else some (0, k)

/-- A loop that ends with the first error. -/
def loopWhileOk {α : Type} (f : Kern → α → Option (Word × Kern)) : List α → Kern → Option (Word × Kern)
  | [], k => some (0, k)
  | x :: l, k => (f k x).bind fun (r, k) => if r.slt 0 then some (r, k) else loopWhileOk f l k

/-- One round of the outer loop. -/
def shareTable (cur : EnvPtr) (child : Word) (k : Kern) (pdeno : Idx) : Option (Word × Kern) :=
  if (k.vpt cur (pdeno, 0)).isSome then
    loopWhileOk (fun k pteno => sharePage cur child k (pdeno, pteno)) (List.finRange 1024) k
  else some (0, k)

/-- The directory indices up to that of `USTACKTOP`. -/
def sharedTables : List Idx := (List.finRange 1024).filter fun i => decide (i ≤ PDX USTACKTOP)

/-- Behind `err2`. -/
def spawnErr2 (cur : EnvPtr) (child r : Word) (k : Kern) : Option (Except Word Word × Kern) :=
  (k.sysEnvDestroy cur child).map fun (k, _) => (.error r, k)

/-- What `spawn` is called with besides the file: the descriptor, what `init_stack` makes of the arguments, what is on the
stack before it is written, and where the trapframe is on it. -/
structure SpawnArgs where
  fdnum : Word
  stack : Option (Idx → Word)
  sp : Word
  elfbuf : Nat → Byte
  tf : Word

/-- The rest of `spawn` from the creation of the child on.  A child is returned as `ok`, and what the error paths return as
`error`. -/
def spawnChild (rounds : Nat) (cur : EnvPtr) (f : ElfFile) (args : SpawnArgs) (elfbuf : Nat → Byte) (r : Word) (k : Kern) :
    Option (Except Word Word × Kern) :=
  let entrypoint := (ehdrAt elfbuf).eEntry
  let err1 := fun child r k => (spawnErr2 cur child r k).bind fun (res, k) =>
    (closeFile cur args.fdnum f.size k).map fun k => (res, k)
  (returning (k.sysExofork cur)).bind fun (child, k) =>
    (initStack cur child args.stack k).bind fun (r', k) =>
      if r'.slt 0 then err1 child r k
      else
        (spawnPhdrs rounds cur child f 65536 0 (ehdrAt elfbuf).ePhoff elfbuf k).bind fun
          | (.error r, k) => err1 child r k
          | (.ok (), k) =>
            (closeFile cur args.fdnum f.size k).bind fun k =>
              let tf := (k.envs (ENVX child)).envTf
              let tf := { tf.setReg 29 args.sp with cp0Epc := entrypoint }
              (k.ustoreWords args.tf tf.word 38).bind fun k =>
                (returning (k.sysSetTrapframe cur child args.tf)).bind fun (r, k) =>
                  if r ≠ 0 then spawnErr2 cur child r k
                  else
                    (loopWhileOk (shareTable cur child) sharedTables k).bind fun (r, k) =>
                      if r.slt 0 then spawnErr2 cur child r k
                      else
                        (returning (k.sysSetEnvStatus cur child 1)).bind fun (r, k) =>
                          if r.slt 0 then spawnErr2 cur child r k else some (.ok child, k)

/-- `spawn` after `open`. -/
def spawn (rounds : Nat) (cur : EnvPtr) (f : ElfFile) (args : SpawnArgs) (k : Kern) : Option (Except Word Word × Kern) :=
  let err := fun r k => (closeFile cur args.fdnum f.size k).map fun k => (.error r, k)
  (f.readn args.elfbuf 0 52).bind fun (r, elfbuf, _) =>
    if r ≠ 52 then err r k
    else if elfFrom elfbuf 52 then spawnChild rounds cur f args elfbuf r k
    else err (-E_NOT_EXEC) k

end Kern

end Mos
