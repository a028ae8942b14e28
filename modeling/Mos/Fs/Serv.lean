import Mos.Fs.File

/-!
# The file server (`fs/serv.c`)

A request comes with a page; the kernel sets `PTE_V` in the permissions of every message, so that the check for the page
in `serve` always passes.  A handler uses the open-file table and sends its replies.
-/

namespace Mos

def MAXOPEN : Nat := 1024

/-- `struct Open`; `o_ff` is a fixed address. -/
structure Open where
  oFile : Option FilePtr
  oFileid : Word
  oMode : Word

/-- The page of a descriptor: `f_fd.fd_dev_id`, `f_fd.fd_omode`, `f_fileid` and `f_file`. -/
structure Filefd where
  fdDevId : Word
  fdOmode : Word
  fFileid : Word
  fFile : Fin 64 → Word

structure Serv where
  fs : Fs
  opentab : Fin MAXOPEN → Open
  /-- The page at `o_ff`, and its reference count: 0 if the server has no page there. -/
  ff : Fin MAXOPEN → Filefd
  ref : Fin MAXOPEN → Nat

/-- A page in a reply: a descriptor or a block. -/
inductive ReplyPage where
  | desc (i : Fin MAXOPEN)
  | block (bno : Nat)
  deriving DecidableEq

inductive ServLog where
  | fs (o : FsLog)
  | reply (r : Word) (page : Option ReplyPage)
  deriving DecidableEq

abbrev ServProc := Proc Serv ServLog Word

/-- A request: its code and what the handler finds in the page. -/
inductive FsReq where
  | open (path : List Byte) (omode : Word)
  | map (fileid offset : Word)
  | setSize (fileid size : Word)
  | close (fileid : Word)
  | dirty (fileid offset : Word)
  | remove (path : List Byte)
  | sync
  /-- Any other code. -/
  | other (code : Word)
  deriving DecidableEq

namespace Serv

/-- `serve_init`. -/
def init (fs : Fs) : Serv where
  fs := fs
  opentab i := ⟨none, BitVec.ofNat 32 i, if i.val = 0 then 1 else 0⟩
  ff _ := ⟨0, 0, 0, fun _ => 0⟩
  ref _ := 0

def setOpen (s : Serv) (i : Fin MAXOPEN) (o : Open) : Serv := { s with opentab := Function.update s.opentab i o }

def setFf (s : Serv) (i : Fin MAXOPEN) (f : Filefd) : Serv := { s with ff := Function.update s.ff i f }

def setRef (s : Serv) (i : Fin MAXOPEN) (n : Nat) : Serv := { s with ref := Function.update s.ref i n }

/-- The slot of a file id. -/
def slot (fileid : Word) : Fin MAXOPEN := ⟨fileid.toNat % MAXOPEN, Nat.mod_lt _ (by decide)⟩

/-- `pageref(o->o_ff) == 1 || o->o_fileid != fileid` is the error; the caller does not matter. -/
def openLookup (s : Serv) (fileid : Word) : Option (Fin MAXOPEN) :=
  if s.ref (slot fileid) = 1 ∨ (s.opentab (slot fileid)).oFileid ≠ fileid then none else some (slot fileid)

/-- The first slot that no client has. -/
@[irreducible] def freeSlot (s : Serv) : Option (Fin MAXOPEN) := (List.finRange MAXOPEN).find? fun i => decide (s.ref i ≤ 1)

/-- A slot for a new descriptor: its number goes up, and its page is clear. -/
def takeSlot (s : Serv) (i : Fin MAXOPEN) : Serv :=
  (s.setOpen i { s.opentab i with oFileid := (s.opentab i).oFileid + BitVec.ofNat 32 MAXOPEN }).setFf i
    ⟨0, 0, 0, fun _ => 0⟩

/-- `open_alloc`: its result, and the slot that `*o` is set to.  A page is allocated where there is none. -/
def openAlloc (s : Serv) : Word × Option (Fin MAXOPEN) × Serv :=
  match s.freeSlot with
  | none => (-E_MAX_OPEN, none, s)
  | some i =>
    if s.ref i = 0 then
      if s.fs.mem = 0 then (-E_NO_MEM, none, s)
      else
        let t := ({ s with fs := { s.fs with mem := s.fs.mem - 1 } }.setRef i 1).takeSlot i
        ((t.opentab i).oFileid, some i, t)
    else
      let t := s.takeSlot i
      ((t.opentab i).oFileid, some i, t)

end Serv

namespace ServProc

/-- A function of `fs.c`. -/
def ofFs {α : Type} (x : FsProc α) : ServProc α := fun s =>
  (x s.fs).map fun p => (p.1.map .fs, p.2.1, { s with fs := p.2.2 })

/-- `ipc_send` to the requester. -/
def reply (r : Word) (page : Option ReplyPage) : ServProc Unit := .write (.reply r page)

def openLookup (fileid : Word) : ServProc (Fin MAXOPEN) := fun s =>
  match s.openLookup fileid with
  | some i => some ([], .ok i, s)
  | none => some ([], .error (-E_INVAL), s)

def openAlloc : ServProc (Word × Option (Fin MAXOPEN)) := fun s =>
  some ([], .ok (s.openAlloc.1, s.openAlloc.2.1), s.openAlloc.2.2)

/-- The file of an entry; a null pointer cannot be used. -/
def file (i : Fin MAXOPEN) : ServProc FilePtr := .read fun s => (s.opentab i).oFile

/-- `*f`. -/
def fileWords (f : FilePtr) : ServProc (Fin 64 → Word) :=
  .read fun s => (s.fs.cache f.blk).map fun pg k => pg.data (Fin.ofNat 1024 (f.off + k))

/-- The rest of `serve_open`, once the file is found; `devfile.dev_id` is `'f'`.  Nothing is written where there is no
page. -/
def fillOpen (i : Fin MAXOPEN) (f : FilePtr) (omode : Word) : ServProc Unit := do
  let ws ← fileWords f
  .update fun s =>
    if s.ref i = 0 then none
    else some ((s.setOpen i { s.opentab i with oFile := some f, oMode := omode }).setFf i
      ⟨102, omode, (s.opentab i).oFileid, ws⟩)
  reply 0 (some (.desc i))

/-- The reply to an error of `open_alloc`, after which `serve_open` goes on. -/
def allocError (r : Word) : ServProc Unit := if r.slt 0 then reply r none else pure ()

/-- `serve_open`.  The result of `open_alloc` is an `int`; where it did not set the pointer `o`, that holds `junk`. -/
def serveOpen (path : List Byte) (omode : Word) (junk : Option (Fin MAXOPEN)) : ServProc Unit := do
  let r ← openAlloc
  allocError r.1
  let q ← .attempt (ofFs (FsProc.fileOpen path))
  match q with
  | .error e => reply e none
  | .ok f => match r.2.or junk with
    | some i => fillOpen i f omode
    | none => .stop

/-- The reply after a function of `fs.c`. -/
def replyTo {α : Type} (x : FsProc α) (page : α → Option ReplyPage) : ServProc Unit := do
  let r ← .attempt (ofFs x)
  match r with
  | .error e => reply e none
  | .ok a => reply 0 (page a)

/-- A handler that looks up the descriptor first. -/
def withOpen {α : Type} (fileid : Word) (x : FilePtr → FsProc α) (page : α → Option ReplyPage) : ServProc Unit := do
  let r ← .attempt (openLookup fileid)
  match r with
  | .error e => reply e none
  | .ok i => do
    let f ← file i
    replyTo (x f) page

def serveMap (fileid offset : Word) : ServProc Unit :=
  withOpen fileid (fun f => FsProc.fileGetBlock f (offset.toNat / BY2BLK)) fun b => some (.block b)

def serveSetSize (fileid size : Word) : ServProc Unit := withOpen fileid (fun f => FsProc.fileSetSize f size) fun _ => none

def serveClose (fileid : Word) : ServProc Unit := withOpen fileid FsProc.fileClose fun _ => none

def serveDirty (fileid offset : Word) : ServProc Unit :=
  withOpen fileid (fun f => FsProc.fileDirty f offset) fun _ => none

def serveRemove (path : List Byte) : ServProc Unit := replyTo (FsProc.fileRemove path) fun _ => none

def serveSync : ServProc Unit := replyTo FsProc.fsSync fun _ => none

/-- The handler in the loop of `serve`; a code that is not known only gives a message on the console. -/
def serve (junk : Option (Fin MAXOPEN)) : FsReq → ServProc Unit
  | .open path omode => serveOpen path omode junk
  | .map fileid offset => serveMap fileid offset
  | .setSize fileid size => serveSetSize fileid size
  | .close fileid => serveClose fileid
  | .dirty fileid offset => serveDirty fileid offset
  | .remove path => serveRemove path
  | .sync => serveSync
  | .other _ => pure ()

end ServProc

end Mos
