import Mos.Fs.Block

/-!
# Files (the second half of `fs/fs.c`)

A `struct File` is a part of a block, in the superblock for the root directory and in a block of a directory for all
others.
-/

namespace Mos

def NDIRECT : Nat := 10
def NINDIRECT : Nat := 1024
def MAXNAMELEN : Nat := 128
def FILE2BLK : Nat := 16
def FTYPE_DIR : Word := 1

/-- `super->s_root`. -/
def FilePtr.root : FilePtr := ⟨1, 2⟩

/-- The `j`-th `struct File` in a block of a directory. -/
def FilePtr.entry (b j : Nat) : FilePtr := ⟨b, 64 * j⟩

/-- The address, as it is kept in `f_dir`. -/
def FilePtr.addr (f : FilePtr) : Word := BitVec.ofNat 32 (DISKMAP + BY2BLK * f.blk + 4 * f.off)

/-- What a pointer in `f_dir` points to, if that is in the cache. -/
def FilePtr.ofAddr (w : Word) : Option FilePtr :=
  if DISKMAP ≤ w.toNat ∧ w.toNat < DISKMAP + DISKMAX ∧ w.toNat % 4 = 0 then
    some ⟨(w.toNat - DISKMAP) / BY2BLK, (w.toNat - DISKMAP) % BY2BLK / 4⟩
  else none

/-- The `i`-th byte of a word. -/
def byteOf (w : Word) (i : Nat) : Byte := (w >>> (8 * i)).setWidth 8

/-- `strcmp(f->f_name, name) == 0`, for a `struct File` at a word of a page. -/
def nameIs (data : Block) (off : Nat) (name : List Byte) : Bool :=
  (name ++ [0]).zipIdx.all fun x => byteOf (data (Fin.ofNat 1024 (off + x.2 / 4))) (x.2 % 4) == x.1

/-- The components of a path: what is between slashes, up to the end of the string. -/
def pathElems (path : List Byte) : List (List Byte) := ((path.takeWhile (· ≠ 0)).splitOn 47).filter (· ≠ [])

namespace FsProc

/-- `f_size`. -/
def fSize (f : FilePtr) : FsProc Word := word f.blk (f.off + 32)

/-- A write to a file, at a place of its own or in its indirect block. -/
def setIn (f : FilePtr) (b off : Nat) (w : Word) : FsProc Unit := do
  .write (.touch f b off)
  setWord b off w

def setFSize (f : FilePtr) (w : Word) : FsProc Unit := setIn f f.blk (f.off + 32) w

/-- `f_type`. -/
def fType (f : FilePtr) : FsProc Word := word f.blk (f.off + 33)

/-- `f_indirect`. -/
def fIndirect (f : FilePtr) : FsProc Word := word f.blk (f.off + 44)

def setFIndirect (f : FilePtr) (w : Word) : FsProc Unit := setIn f f.blk (f.off + 44) w

/-- `f_dir`. -/
def fDir (f : FilePtr) : FsProc Word := word f.blk (f.off + 45)

def setFDir (f : FilePtr) (w : Word) : FsProc Unit := setIn f f.blk (f.off + 45) w

/-- The indirect block of a file, in memory. -/
def indirectBlock (f : FilePtr) (alloc : Bool) : FsProc Nat := do
  let ind ← fIndirect f
  if ind = 0 then
    if alloc then do
      let b ← allocBlock
      setFIndirect f (BitVec.ofNat 32 b)
      readBlock b
      pure b
    else .fail (-E_NOT_FOUND)
  else do
    readBlock ind.toNat
    pure ind.toNat

/-- Where the number of a block of a file is: the block and the word. -/
def fileBlockWalk (f : FilePtr) (filebno : Nat) (alloc : Bool) : FsProc (Nat × Nat) :=
  if filebno < NDIRECT then pure (f.blk, f.off + 34 + filebno)
  else if filebno < NINDIRECT then do
    let b ← indirectBlock f alloc
    pure (b, filebno)
  else .fail (-E_INVAL)

def fileMapBlock (f : FilePtr) (filebno : Nat) (alloc : Bool) : FsProc Nat := do
  let p ← fileBlockWalk f filebno alloc
  let w ← word p.1 p.2
  if w = 0 then
    if alloc then do
      let b ← allocBlock
      setIn f p.1 p.2 (BitVec.ofNat 32 b)
      pure b
    else .fail (-E_NOT_FOUND)
  else pure w.toNat

def fileClearBlock (f : FilePtr) (filebno : Nat) : FsProc Unit := do
  let p ← fileBlockWalk f filebno false
  let w ← word p.1 p.2
  if w = 0 then pure ()
  else do
    freeBlock w.toNat
    setIn f p.1 p.2 0

def fileGetBlock (f : FilePtr) (filebno : Nat) : FsProc Nat := do
  let b ← fileMapBlock f filebno true
  readBlock b
  pure b

def fileDirty (f : FilePtr) (offset : Word) : FsProc Unit := do
  let b ← fileMapBlock f (offset.toNat / BY2BLK) false
  dirtyBlock b

/-- The first file in a block of a directory that has the name. -/
def findName (b : Nat) (name : List Byte) : FsProc (Option FilePtr) :=
  .read fun s => (s.cache b).map fun pg =>
    ((List.range FILE2BLK).find? fun j => nameIs pg.data (64 * j) name).map (FilePtr.entry b)

/-- The loop of `dir_lookup`, over the blocks of the directory. -/
def lookupIn (dir : FilePtr) (name : List Byte) : List Nat → FsProc FilePtr
  | [] => .fail (-E_NOT_FOUND)
  | i :: is => do
    let b ← fileGetBlock dir i
    let found ← findName b name
    match found with
    | some f => do
      setFDir f dir.addr
      pure f
    | none => lookupIn dir name is

def dirLookup (dir : FilePtr) (name : List Byte) : FsProc FilePtr := do
  let size ← fSize dir
  lookupIn dir name (List.range (size.toNat / BY2BLK))

/-- One component of a path in `walk_path`. -/
def walkStep (f : FilePtr) (name : List Byte) : FsProc FilePtr :=
  if MAXNAMELEN ≤ name.length then .fail (-E_BAD_PATH)
  else do
    let t ← fType f
    if t ≠ FTYPE_DIR then .fail (-E_NOT_FOUND) else dirLookup f name

/-- `walk_path`, from a file on. -/
def walkFrom (f : FilePtr) : List (List Byte) → FsProc FilePtr
  | [] => pure f
  | name :: names => do
    let g ← walkStep f name
    walkFrom g names

def walkPath (path : List Byte) : FsProc FilePtr := walkFrom .root (pathElems path)

def fileOpen (path : List Byte) : FsProc FilePtr := walkPath path

/-- The indirect block is freed if there is one. -/
def clearIndirect (f : FilePtr) : FsProc Unit := do
  let ind ← fIndirect f
  if ind = 0 then pure ()
  else do
    freeBlock ind.toNat
    setFIndirect f 0

/-- `file_clear_block` for some blocks; an error is not an end. -/
def clearBlocks (f : FilePtr) (bnos : List Nat) : FsProc Unit :=
  .each (fun bno => do
    let _ ← .attempt (fileClearBlock f bno)
    pure ()) bnos

def fileTruncate (f : FilePtr) (newsize : Word) : FsProc Unit := do
  let size ← fSize f
  let old := size.toNat / BY2BLK + 1
  let new := if newsize = 0 then 0 else newsize.toNat / BY2BLK + 1
  clearBlocks f (List.range' new (old - new))
  .when (new ≤ NDIRECT) (clearIndirect f)
  setFSize f newsize

/-- A block of a file in `file_flush`. -/
def flushBlock (f : FilePtr) (bno : Nat) : FsProc Unit := do
  let r ← .attempt (fileMapBlock f bno false)
  match r with
  | .error _ => pure ()
  | .ok b => do
    let d ← blockIsDirty b
    if d then writeBlock b else pure ()

def fileFlush (f : FilePtr) : FsProc Unit := do
  let size ← fSize f
  .each (flushBlock f) (List.range (size.toNat / BY2BLK + 1))

/-- `if (f->f_dir) file_flush(f->f_dir)`. -/
def flushDir (f : FilePtr) : FsProc Unit := do
  let w ← fDir f
  if w = 0 then pure ()
  else match FilePtr.ofAddr w with
    | some dir => fileFlush dir
    | none => .stop

def fileSetSize (f : FilePtr) (newsize : Word) : FsProc Unit := do
  let size ← fSize f
  .when (newsize < size) (fileTruncate f newsize)
  setFSize f newsize
  flushDir f

def fileClose (f : FilePtr) : FsProc Unit := do
  fileFlush f
  flushDir f

/-- `f_name[0] = '\0'`. -/
def clearName (f : FilePtr) : FsProc Unit := do
  let w ← word f.blk f.off
  setIn f f.blk f.off (w &&& ~~~0xff#32)

def fileRemove (path : List Byte) : FsProc Unit := do
  let f ← walkPath path
  fileTruncate f 0
  clearName f
  fileFlush f
  flushDir f

end FsProc

end Mos
