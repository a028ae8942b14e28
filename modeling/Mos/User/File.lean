import Mos.Fs.Errors
import Mos.Fs.FileSys
import Mos.Kern.Tlbex
import Mos.User.Dup

/-!
# Files in a program (`user/lib/file.c`, `fd.c`, `fsipc.c`)

A page of the program is one that the file server has sent, which it shares with the server, or one of its own; an
address that has no page gets one at the first access.  The server handles a request while the program waits, and nobody
else sends one.
-/

namespace Mos

def MAXPATHLEN : Nat := 1024

def O_RDONLY : Word := 0
def O_WRONLY : Word := 1
def O_RDWR : Word := 2
def O_ACCMODE : Word := 3

inductive ClientPage where
  | sent (p : ReplyPage)
  | own (n : Nat)
  deriving DecidableEq

/-- The page table of a program, and the number of its own pages so far. -/
structure UserMap where
  page : Vpn → Option ClientPage
  table : Idx → Bool
  next : Nat
  backed : ∀ v, (page v).isSome → table v.1 = true
  known : ∀ v n, page v = some (.own n) → n < next

namespace UserMap

/-- Another page at an address; for a page there is a table. -/
def set (m : UserMap) (v : Vpn) (p : Option ClientPage) (next : Nat) (hle : m.next ≤ next)
    (hp : ∀ n, p = some (.own n) → n < next) : UserMap where
  page := Function.update m.page v p
  table i := m.table i || (p.isSome && i == v.1)
  next := next
  backed w hw := by
    by_cases h : w = v
    · rw [h, Function.update_self] at hw
      simp [h, hw]
    · rw [Function.update_of_ne h] at hw
      rw [m.backed w hw, Bool.true_or]
  known w n hw := by
    by_cases h : w = v
    · rw [h, Function.update_self] at hw
      exact hp n hw
    · rw [Function.update_of_ne h] at hw
      exact Nat.lt_of_lt_of_le (m.known w n hw) hle

def insert (m : UserMap) (v : Vpn) (p : ReplyPage) : UserMap := m.set v (some (.sent p)) m.next (Nat.le_refl _) nofun

/-- A new page. -/
def alloc (m : UserMap) (v : Vpn) : UserMap :=
  m.set v (some (.own m.next)) (m.next + 1) (Nat.le_succ _) fun n h => by
    cases h
    exact Nat.lt_succ_self _

/-- The page at one address is mapped at another one. -/
def share (m : UserMap) (v v' : Vpn) : UserMap := m.set v' (m.page v) m.next (Nat.le_refl _) (m.known v)

def remove (m : UserMap) (v : Vpn) : UserMap := m.set v none m.next (Nat.le_refl _) nofun

end UserMap

/-- A program, and the file server that it uses. -/
structure Client where
  serv : Serv
  /-- What the pointer in `serve_open` is before `open_alloc`. -/
  junk : Option (Fin MAXOPEN)
  map : UserMap
  own : Nat → Block
  /-- The words of the pages of descriptors that the server does not fill in, `fd_offset` among them. -/
  rest : Fin MAXOPEN → Block
  /-- Not in the code: the addresses that `memcpy` has read and written. -/
  touched : List Word

/-- A request, the server before it, and the answer. -/
structure Asked where
  serv : Serv
  req : FsReq
  answer : Word

/-- A function of the program; an error is a `return` of a function that was called.  A program that a system call or the
kernel stops, or that waits for good, has no execution. -/
abbrev UserProc := Proc Client Asked Word

/-- What a function returns. -/
def returned : Except Word Word → Word
  | .ok r => r
  | .error r => r

/-- A word of the page of a descriptor. -/
def Filefd.word (f : Filefd) (rest : Block) (k : Idx) : Word :=
  if k.val = 0 then f.fdDevId
  else if k.val = 2 then f.fdOmode
  else if k.val = 3 then f.fFileid
  else if h : 4 ≤ k.val ∧ k.val < 68 then f.fFile ⟨k.val - 4, by omega⟩
  else rest k

def Filefd.setWord (f : Filefd) (k : Idx) (w : Word) : Filefd where
  fdDevId := if k.val = 0 then w else f.fdDevId
  fdOmode := if k.val = 2 then w else f.fdOmode
  fFileid := if k.val = 3 then w else f.fFileid
  fFile j := if k.val = j.val + 4 then w else f.fFile j

/-- A page that is mapped, or not any more, is counted if it is that of a descriptor. -/
def Serv.addRef (s : Serv) : Option ClientPage → Serv
  | some (.sent (.desc i)) => s.setRef i (s.ref i + 1)
  | _ => s

def Serv.dropRef (s : Serv) : Option ClientPage → Serv
  | some (.sent (.desc i)) => s.setRef i (s.ref i - 1)
  | _ => s

/-- The reply to an error of `open_alloc`, after which the server goes on and may come to grief. -/
def Serv.refusal (s : Serv) : FsReq → Option Word
  | .open _ _ => if s.openAlloc.1.slt 0 then some s.openAlloc.1 else none
  | _ => none

namespace Client

/-! ### Memory -/

def setServ (c : Client) (s : Serv) : Client := { c with serv := s }

def setMem (c : Client) (n : Nat) : Client := c.setServ { c.serv with fs := { c.serv.fs with mem := n } }

/-- A word of a page; a block that the program has a page of is in the cache. -/
def word (c : Client) (k : Idx) : ClientPage → Option Word
  | .sent (.block b) => c.serv.fs.word? b k
  | .sent (.desc i) => some ((c.serv.ff i).word (c.rest i) k)
  | .own n => some (c.own n k)

def setWord (c : Client) (k : Idx) (w : Word) : ClientPage → Option Client
  | .sent (.block b) => (c.serv.fs.setWord? b k w).map fun fs => c.setServ { c.serv with fs := fs }
  | .sent (.desc i) => some { c with
      serv := c.serv.setFf i ((c.serv.ff i).setWord k w)
      rest := Function.update c.rest i (Function.update (c.rest i) k w) }
  | .own n => some { c with own := Function.update c.own n (Function.update (c.own n) k w) }

/-- Another page at an address, or none. -/
def mapAt (c : Client) (v : Vpn) (m : UserMap) : Client :=
  { c with serv := (c.serv.dropRef (c.map.page v)).addRef (m.page v), map := m }

/-- There is a table, or a page for one. -/
def room (c : Client) (i : Idx) : Bool := c.map.table i || c.serv.fs.mem != 0

/-- The page for a table. -/
def withTable (c : Client) (i : Idx) : Client := if c.map.table i then c else c.setMem (c.serv.fs.mem - 1)

/-- `passive_alloc`, which the kernel does not survive if there is no page. -/
def pageFault (c : Client) (va : Word) : Option Client :=
  if va < UTEMP ∨ Kern.forbidden va ∨ c.serv.fs.mem = 0 then none
  else
    let c := c.setMem (c.serv.fs.mem - 1)
    if c.room (PDX va) then
      some { (c.withTable (PDX va)).mapAt (VPN va) (c.map.alloc (VPN va)) with
        own := Function.update c.own c.map.next fun _ => 0 }
    else none

/-- A program only gets at the addresses below `ULIM`. -/
def access (c : Client) (va : Word) : Option Client :=
  if ULIM ≤ va then none else if (c.map.page (VPN va)).isSome then some c else c.pageFault va

/-- The word of an address in its page. -/
def wordIdx (va : Word) : Idx := ⟨va.toNat % 4096 / 4, by omega⟩

/-- The byte at an address that has a page. -/
def load (c : Client) (va : Word) : Option Byte :=
  (c.map.page (VPN va)).bind fun p => (c.word (wordIdx va) p).map fun w => byteOf w (va.toNat % 4)

def store (c : Client) (va : Word) (x : Byte) : Option Client :=
  if UTOP ≤ va then none
  else (c.map.page (VPN va)).bind fun p => (c.word (wordIdx va) p).bind fun w =>
    c.setWord (wordIdx va) (setByte w (va.toNat % 4) x) p

/-! ### System calls -/

/-- A page that comes with a message is mapped, unless there is no page for the table. -/
def arrive (c : Client) (va : Word) (p : ReplyPage) : Client :=
  if c.room (PDX va) then (c.withTable (PDX va)).mapAt (VPN va) (c.map.insert (VPN va) p) else c

/-- `syscall_mem_map` inside of the program. -/
def memMap (c : Client) (srcva dstva : Word) : Word × Client :=
  if isIllegalVa srcva || isIllegalVa dstva then (-E_INVAL, c)
  else if (c.map.page (VPN srcva)).isSome then
    if c.room (PDX dstva) then
      (0, (c.withTable (PDX dstva)).mapAt (VPN dstva) (c.map.share (VPN srcva) (VPN dstva)))
    else (-E_NO_MEM, c)
  else (-E_INVAL, c)

def memUnmap (c : Client) (va : Word) : Word × Client :=
  if isIllegalVa va then (-E_INVAL, c) else (0, c.mapAt (VPN va) (c.map.remove (VPN va)))

/-- The first descriptor that has no page; the last number is left out. -/
def freeFd (c : Client) : Option Word :=
  ((List.range (MAXFD - 1)).map fun i => FdSpace.INDEX2FD (BitVec.ofNat 32 i)).find? fun fd => (c.map.page (VPN fd)).isNone

/-- The server handles a request, and the program gets the first reply; the page of a new descriptor was clear. -/
def ask (c : Client) (req : FsReq) : Option ((Word × Option ReplyPage) × Client) :=
  match ServProc.serve c.junk req c.serv with
  | some (l, _, t) => (l.findSome? ServLog.answer).map fun a => (a, { c with
      serv := t
      rest := match a.2 with
        | some (.desc i) => Function.update c.rest i fun _ => 0
        | _ => c.rest })
  | none => (c.serv.refusal req).map fun r => ((r, none), c)

end Client

namespace UserFile

open FdSpace (INDEX2FD fd2num fd2data rounds)

/-! ### `string.c` -/

def lb (va : Word) : UserProc Byte := do
  .update fun c => c.access va
  .read fun c => c.load va

def sb (va : Word) (x : Byte) : UserProc Unit := do
  .update fun c => c.access va
  .update fun c => c.store va x

def copyByte (dst src : Word) : UserProc Unit := do
  let x ← lb src
  sb dst x
  .update fun c => some { c with touched := dst :: src :: c.touched }

/-- Nothing is copied if `dst + n` wraps around. -/
def copyLen (dst n : Word) : Nat := if dst ≤ dst + n then n.toNat else 0

/-- `memcpy`, for two areas that do not meet. -/
def memcpy (dst src n : Word) : UserProc Unit :=
  .each (fun j => copyByte (dst + BitVec.ofNat 32 j) (src + BitVec.ofNat 32 j)) (List.range (copyLen dst n))

/-! ### `fsipc.c` -/

/-- `fsipc`, with the panic of `ipc_recv` for an illegal address. -/
def fsipc (req : FsReq) (dstva : Word) : UserProc Word := fun c =>
  if dstva ≠ 0 ∧ isIllegalVa dstva then none
  else (c.ask req).map fun p =>
    ([⟨c.serv, req, p.1.1⟩], .ok p.1.1, p.1.2.elim p.2 (p.2.arrive dstva))

def fsipcOpen (path : List Byte) (omode fd : Word) : UserProc Word :=
  if MAXPATHLEN ≤ path.length then pure (-E_BAD_PATH) else fsipc (.open path omode) fd

/-- The permissions that the server gives, and those of a reply without a page, are not unexpected. -/
def fsipcMap (fileid offset dstva : Word) : UserProc Word := do
  let r ← fsipc (.map fileid offset) dstva
  if r.slt 0 then pure r else pure 0

def fsipcSetSize (fileid size : Word) : UserProc Word := fsipc (.setSize fileid size) 0

def fsipcClose (fileid : Word) : UserProc Word := fsipc (.close fileid) 0

def fsipcDirty (fileid offset : Word) : UserProc Word := fsipc (.dirty fileid offset) 0

/-! ### `fd.c` -/

/-- A word of the page at `fd`. -/
def fdWord (fd : Word) (k : Idx) : UserProc Word := do
  .update fun c => c.access fd
  .read fun c => (c.map.page (VPN fd)).bind (c.word k)

def setFdWord (fd : Word) (k : Idx) (w : Word) : UserProc Unit := do
  .update fun c => c.access fd
  .update fun c => (c.map.page (VPN fd)).bind (c.setWord k w)

def fdDevId (fd : Word) : UserProc Word := fdWord fd 0
def fdOffset (fd : Word) : UserProc Word := fdWord fd 1
def fdOmode (fd : Word) : UserProc Word := fdWord fd 2
def fFileid (fd : Word) : UserProc Word := fdWord fd 3
def fSize (fd : Word) : UserProc Word := fdWord fd 36

def setFdOffset (fd w : Word) : UserProc Unit := setFdWord fd 1 w
def setFSize (fd w : Word) : UserProc Unit := setFdWord fd 36 w

def fdAlloc : UserProc Word := do
  let fd ← .read fun c => some c.freeFd
  match fd with
  | some fd => pure fd
  | none => .fail (-E_MAX_OPEN)

/-- The number is signed. -/
def fdLookup (fdnum : Word) : UserProc Word :=
  if ¬fdnum.slt 32 then .fail (-E_INVAL)
  else do
    let p ← .read fun c => some (c.map.page (VPN (INDEX2FD fdnum)))
    if p.isSome then pure (INDEX2FD fdnum) else .fail (-E_INVAL)

/-- `dev_lookup`: `'f'`, `'c'` and `'p'` are the devices. -/
def devLookup (devId : Word) : UserProc Unit :=
  if devId = 102 ∨ devId = 99 ∨ devId = 112 then pure () else .fail (-E_INVAL)

/-- `dev_read` or `dev_write` of a file; those of the console and of pipes are not here. -/
def devFile {α : Type} (devId : Word) (x : UserProc α) : UserProc α := if devId = 102 then x else .stop

def memUnmap (va : Word) : UserProc Word := fun c => some ([], .ok (c.memUnmap va).1, (c.memUnmap va).2)

def memMap (srcva dstva : Word) : UserProc Word := fun c =>
  some ([], .ok (c.memMap srcva dstva).1, (c.memMap srcva dstva).2)

/-! ### `file.c` -/

/-- A loop that maps pages of a file, up to the first error. -/
def mapPages (fileid va : Word) : List Nat → UserProc Word
  | [] => pure 0
  | i :: is => do
    let r ← fsipcMap fileid (BitVec.ofNat 32 (i * 4096)) (va + BitVec.ofNat 32 (i * 4096))
    if r.slt 0 then pure r else mapPages fileid va is

/-- A loop that unmaps pages of a file, up to the first error. -/
def unmapPages (va : Word) : List Nat → UserProc Word
  | [] => pure 0
  | i :: is => do
    let r ← memUnmap (va + BitVec.ofNat 32 (i * 4096))
    if r.slt 0 then pure r else unmapPages va is

/-- Steps 3 to 5 of `open`; a block from `NINDIRECT` on is refused, so that the loop ends. -/
def openPages (fd : Word) : UserProc Word := do
  let size ← fSize fd
  let fileid ← fFileid fd
  let r ← mapPages fileid (fd2data fd) (List.range (rounds size))
  if r ≠ 0 then pure r else pure (fd2num fd)

/-- `open`. -/
def openFile (path : List Byte) (mode : Word) : UserProc Word := do
  let fd ← fdAlloc
  let r ← fsipcOpen path mode fd
  if r ≠ 0 then pure r else openPages fd

/-- `file_close`; the loops do not end where the last round would wrap around. -/
def fileClose (fd : Word) : UserProc Word := do
  let fileid ← fFileid fd
  let size ← fSize fd
  if 0xFFFFF000 < size then .stop
  else do
    .each (fun i => do
      let _ ← fsipcDirty fileid (BitVec.ofNat 32 (i * 4096))
      pure ()) (List.range (rounds size))
    let r ← fsipcClose fileid
    if r.slt 0 then pure r else unmapPages (fd2data fd) (List.range (rounds size))

/-- The number of bytes that `file_read` copies, from an offset in the file. -/
def clip (size offset n : Word) : Word := if size < offset + n then size - offset else n

def fileRead (fd buf n offset : Word) : UserProc Word := do
  let size ← fSize fd
  if size < offset then pure 0
  else do
    memcpy buf (fd2data fd + offset) (clip size offset n)
    pure (clip size offset n)

/-- The pages from one size on up to another. -/
def pagesBetween (size size' : Word) : List Nat :=
  List.range' ((ROUND size BY2PG).toNat / 4096) ((ROUND size' BY2PG).toNat / 4096 - (ROUND size BY2PG).toNat / 4096)

/-- `ftruncate` after the size is set in the descriptor; the `user_panic` is for a page that cannot be unmapped. -/
def resize (fd fileid oldsize size : Word) : UserProc Word := do
  let r ← fsipcSetSize fileid size
  if r.slt 0 then pure r
  else do
    let r ← mapPages fileid (fd2data fd) (pagesBetween oldsize size)
    if r.slt 0 then do
      let _ ← fsipcSetSize fileid oldsize
      pure r
    else do
      let r ← unmapPages (fd2data fd) (pagesBetween size oldsize)
      if r.slt 0 then .stop else pure 0

def ftruncate (fdnum size : Word) : UserProc Word :=
  if MAXFILESIZE < size then pure (-E_NO_DISK)
  else do
    let fd ← fdLookup fdnum
    let devId ← fdDevId fd
    if devId ≠ 102 then pure (-E_INVAL)
    else do
      let fileid ← fFileid fd
      let oldsize ← fSize fd
      setFSize fd size
      resize fd fileid oldsize size

/-- The part of `file_write` that makes the file longer. -/
def extend (fd tot : Word) : UserProc Unit := do
  let size ← fSize fd
  if size < tot then do
    let r ← .attempt (ftruncate (fd2num fd) tot)
    match r with
    | .ok r => if r.slt 0 then .fail r else pure ()
    | .error e => .fail e
  else pure ()

def fileWrite (fd buf n offset : Word) : UserProc Word :=
  if MAXFILESIZE < offset + n then pure (-E_NO_DISK)
  else do
    extend fd (offset + n)
    memcpy (fd2data fd + offset) buf n
    pure n

/-! ### `fd.c`, continued -/

/-- The end of `read` and `write`. -/
def advance (fd r : Word) : UserProc Word :=
  if (0 : Word).slt r then do
    let offset ← fdOffset fd
    setFdOffset fd (offset + r)
    pure r
  else pure r

/-- `read` and `write`: the mode that they must not find, and the function of the device. -/
def transfer (mode : Word) (x : Word → Word → UserProc Word) (fdnum : Word) : UserProc Word := do
  let fd ← fdLookup fdnum
  let devId ← fdDevId fd
  devLookup devId
  let omode ← fdOmode fd
  if omode &&& O_ACCMODE = mode then pure (-E_INVAL)
  else do
    let offset ← fdOffset fd
    let r ← devFile devId (x fd offset)
    advance fd r

def read (fdnum buf n : Word) : UserProc Word := transfer O_WRONLY (fun fd offset => fileRead fd buf n offset) fdnum

def write (fdnum buf n : Word) : UserProc Word := transfer O_RDONLY (fun fd offset => fileWrite fd buf n offset) fdnum

def seek (fdnum offset : Word) : UserProc Word := do
  let fd ← fdLookup fdnum
  setFdOffset fd offset
  pure 0

def pipeClose (fd : Word) : UserProc Word := do
  let _ ← memUnmap fd
  let _ ← memUnmap (fd2data fd)
  pure 0

/-- `dev_close`; that of the console does nothing. -/
def devClose (devId fd : Word) : UserProc Word :=
  if devId = 102 then fileClose fd else if devId = 99 then pure 0 else pipeClose fd

def close (fdnum : Word) : UserProc Word := do
  let fd ← fdLookup fdnum
  let devId ← fdDevId fd
  devLookup devId
  let r ← devClose devId fd
  let _ ← memUnmap fd
  pure r

/-- The first loop of `dup`, up to the first error. -/
def copyPages (ova nva : Word) : List Nat → UserProc Word
  | [] => pure 0
  | i :: is => do
    let p ← .read fun c => some (c.map.page (VPN (ova + BitVec.ofNat 32 (i * 4096))))
    if p.isSome then do
      let r ← memMap (ova + BitVec.ofNat 32 (i * 4096)) (nva + BitVec.ofNat 32 (i * 4096))
      if r.slt 0 then pure r else copyPages ova nva is
    else copyPages ova nva is

/-- What `dup` does at `err`. -/
def undo (newfd nva : Word) : UserProc Unit := do
  let _ ← memUnmap newfd
  .each (fun i => do
    let _ ← memUnmap (nva + BitVec.ofNat 32 (i * 4096))
    pure ()) (List.range 1024)

def dup (oldfdnum newfdnum : Word) : UserProc Word := do
  let oldfd ← fdLookup oldfdnum
  let _ ← .attempt (close newfdnum)
  let newfd := INDEX2FD newfdnum
  let r ← copyPages (fd2data oldfd) (fd2data newfd) (List.range 1024)
  if r.slt 0 then do
    undo newfd (fd2data newfd)
    pure r
  else do
    let r ← memMap oldfd newfd
    if r.slt 0 then do
      undo newfd (fd2data newfd)
      pure r
    else pure newfdnum

end UserFile

end Mos
