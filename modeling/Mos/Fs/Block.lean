import Mos.Kern.Mmu
import Mos.Lib.Proc
import Mathlib.Data.Fin.Basic
import Mathlib.Logic.Function.Basic

/-!
# Blocks of the file system (the first half of `fs/fs.c`)

A block is a page of 1024 words.  The cache has a page for some blocks, at `DISKMAP` and above; a page that is there once
stays there.  A `user_panic` of the server, and a memory access that it cannot make, stop the program.
-/

namespace Mos

def E_NO_DISK : Word := 8
def E_MAX_OPEN : Word := 9
def E_NOT_FOUND : Word := 10
def E_BAD_PATH : Word := 11

def BY2BLK : Nat := 4096
def BIT2BLK : Nat := 32768
def MAXFILESIZE : Word := 0x400000
def DISKMAP : Nat := 0x10000000
def DISKMAX : Nat := 0x40000000

/-- The words of a block. -/
abbrev Block := Fin 1024 → Word

/-- A page of the cache; `dirty` is `PTE_DIRTY`. -/
structure CachePage where
  data : Block
  dirty : Bool

/-- The disk and the memory of the file server after `fs_init`. -/
structure Fs where
  disk : Nat → Block
  cache : Nat → Option CachePage
  /-- How many pages the kernel has left. -/
  mem : Nat

/-- A pointer to a `struct File`: the block and the word in it. -/
structure FilePtr where
  blk : Nat
  off : Nat
  deriving DecidableEq

/-- What the file server does: `alloc_block` gives out a block, whose page may be there already; `free_block` takes one
back; a word of a `struct File` or of its indirect block is written. -/
inductive FsLog where
  | alloc (bno : Nat) (mapped : Bool)
  | free (bno : Nat)
  | touch (f : FilePtr) (blk off : Nat)
  deriving DecidableEq

/-- A function of the file server; errors are the negative results. -/
abbrev FsProc := Proc Fs FsLog Word

namespace Fs

/-- A word of a page. -/
def word? (s : Fs) (b off : Nat) : Option Word :=
  (s.cache b).bind fun pg => if h : off < 1024 then some (pg.data ⟨off, h⟩) else none

def setPage (s : Fs) (b : Nat) (pg : CachePage) : Fs := { s with cache := Function.update s.cache b (some pg) }

def setWord? (s : Fs) (b off : Nat) (w : Word) : Option Fs :=
  (s.cache b).bind fun pg =>
    if h : off < 1024 then some (s.setPage b { pg with data := Function.update pg.data ⟨off, h⟩ w }) else none

/-- `block_is_mapped`.  From `DISKMAX` on, the address is one of something else. -/
def isMapped? (s : Fs) (b : Nat) : Option Bool := if b < DISKMAX / BY2BLK then some (s.cache b).isSome else none

/-- `syscall_mem_alloc` for a page of the cache; `none` is `-E_NO_MEM`. -/
def memAlloc (s : Fs) (b : Nat) (data : Block) : Option Fs :=
  if s.mem = 0 then none else some { s.setPage b ⟨data, false⟩ with mem := s.mem - 1 }

end Fs

namespace FsProc

def word (b off : Nat) : FsProc Word := .read fun s => s.word? b off

def setWord (b off : Nat) (w : Word) : FsProc Unit := .update fun s => s.setWord? b off w

def blockIsMapped (b : Nat) : FsProc Bool := .read fun s => s.isMapped? b

/-- `super->s_nblocks`. -/
def nblocks : FsProc Nat := do
  let w ← word 1 1
  pure w.toNat

/-- The word of `bitmap` with the bit of a block; `bitmap` is at block 2. -/
def bitmapWord (b : Nat) : FsProc Word := word (2 + b / 32 / 1024) (b / 32 % 1024)

def setBitmapWord (b : Nat) (w : Word) : FsProc Unit := setWord (2 + b / 32 / 1024) (b / 32 % 1024) w

def blockIsFree (b : Nat) : FsProc Bool := do
  let n ← nblocks
  if n ≤ b then pure false
  else do
    let w ← bitmapWord b
    pure (w.getLsbD (b % 32))

def blockIsDirty (b : Nat) : FsProc Bool := do
  let m ← blockIsMapped b
  if m then .read fun s => (s.cache b).map (·.dirty) else pure false

def dirtyBlock (b : Nat) : FsProc Unit := do
  let m ← blockIsMapped b
  if m then .update fun s => (s.cache b).map fun pg => s.setPage b { pg with dirty := true }
  else .fail (-E_NOT_FOUND)

def writeBlock (b : Nat) : FsProc Unit := do
  let m ← blockIsMapped b
  if m then .update fun s => (s.cache b).map fun pg => { s with disk := Function.update s.disk b pg.data }
  else .stop

/-- `ide_read` into a new page; without memory, it has nowhere to write to. -/
def loadBlock (b : Nat) : FsProc Unit := .update fun s => s.memAlloc b (s.disk b)

def readBlock (b : Nat) : FsProc Unit := do
  let n ← nblocks
  if n ≤ b then .stop
  else do
    let free ← blockIsFree b
    if free then .stop
    else do
      let m ← blockIsMapped b
      if m then pure () else loadBlock b

/-- A new page is zero. -/
def mapBlock (b : Nat) : FsProc Unit := do
  let m ← blockIsMapped b
  if m then pure ()
  else do
    let full ← .read fun s => some (s.mem == 0)
    if full then .fail (-E_NO_MEM) else .update fun s => s.memAlloc b fun _ => 0

def freeBlock (b : Nat) : FsProc Unit := do
  let n ← nblocks
  if b = 0 ∨ n ≤ b then pure ()
  else do
    let w ← bitmapWord b
    setBitmapWord b (w ||| 1#32 <<< (b % 32))
    .write (.free b)

/-- The loop of `alloc_block_num`, over block numbers. -/
def allocFrom : List Nat → FsProc Nat
  | [] => .fail (-E_NO_DISK)
  | b :: bs => do
    let w ← bitmapWord b
    if w.getLsbD (b % 32) then do
      setBitmapWord b (w &&& ~~~(1#32 <<< (b % 32)))
      writeBlock (b / BIT2BLK + 2)
      pure b
    else allocFrom bs

def allocBlockNum : FsProc Nat := do
  let n ← nblocks
  allocFrom (List.range' 3 (n - 3))

def allocBlock : FsProc Nat := do
  let b ← allocBlockNum
  let m ← blockIsMapped b
  .write (.alloc b m)
  let r ← .attempt (mapBlock b)
  match r with
  | .ok _ => pure b
  | .error e => do
    freeBlock b
    .fail e

/-- `fs_sync`. -/
def fsSync : FsProc Unit := do
  let n ← nblocks
  .each (fun b => do
    let d ← blockIsDirty b
    if d then writeBlock b else pure ()) (List.range n)

end FsProc

end Mos
