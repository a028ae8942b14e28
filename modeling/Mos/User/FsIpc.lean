import Mos.Kern.Env
import Mos.Lib.Run

/-!
# Requests to the file server (`user/lib/fsipc.c`, `ipc.c`, the loop of `fs/serv.c`)

A client sends its request to `envs[1]` and then waits for a message.  The server waits for a request, handles it, and
sends what it has to say back.  Everybody may send messages to everybody, signal handlers may do so in the middle of a
call of `fsipc`, and environments come and go.
-/

namespace Mos

open Kern

/-- `envs[1]`, the file server. -/
def fsEnv : EnvPtr := ⟨1, by decide⟩

/-- `REQVA`, where the server takes the page of a request. -/
def reqVa : Word := 0x0ffff000

/-- A value and the page that comes with it. -/
structure Content where
  value : Word
  page : Option Nat
  deriving DecidableEq

/-- The mailbox of an environment.  `about` and `asked` are not in the code: the number of the request of a client that the
message makes or answers, and that of the last message that the file server had taken from the receiver by then. -/
structure IpcMail where
  content : Content
  sender : Word
  about : Option Nat
  asked : Option Nat
  /-- Where the page goes, and whether `page_insert` has put it there. -/
  dstva : Word
  mapped : Bool

/-- Where an environment is in `fsipc`; the calls are numbered. -/
inductive ClientPc where
  | user
  /-- In the loop of `ipc_send`. -/
  | sending (req : Content) (dstva : Word) (n : Nat)
  | receiving (dstva : Word) (n : Nat)
  /-- In `syscall_ipc_recv`, or not yet at the reading of `env_ipc_value`. -/
  | waiting (dstva : Word) (n : Nat)

/-- Where the file server is in `serve`. -/
inductive ServerPc where
  | receiving
  | waiting
  /-- What it still has to send to the requester. -/
  | replying (whom : Word) (about : Option Nat) (todo : List Content)
  | panicked

structure FsIpc where
  status : EnvPtr → EnvStatus
  envId : EnvPtr → Word
  recving : EnvPtr → Bool
  dstva : EnvPtr → Word
  mail : EnvPtr → IpcMail
  pc : EnvPtr → ClientPc
  /-- What the signal handlers of an environment have interrupted. -/
  under : EnvPtr → List ClientPc
  server : ServerPc
  /-- How many requests were made. -/
  count : Nat
  /-- What the last message of an environment that the server has taken is about. -/
  last : EnvPtr → Option Nat

/-- What `sys_ipc_try_send` comes to. -/
inductive TrySend where
  | sent (s : FsIpc)
  | notRecv
  | badEnv

inductive FsIpcEvent where
  /-- A free slot is given to a new environment. -/
  | create (e : EnvPtr) (id : Word)
  | destroy (e : EnvPtr)
  /-- Outside `fsipc`, an environment sends and receives as it likes.  In a send, `mapped` is what becomes of
  `page_insert`. -/
  | trySend (e : EnvPtr) (whom : Word) (m : Content) (mapped : Bool)
  | recv (e : EnvPtr) (dstva : Word)
  | fsipc (e : EnvPtr) (req : Content) (dstva : Word)
  | fsSend (e : EnvPtr) (mapped : Bool)
  | fsRecv (e : EnvPtr)
  | fsReturn (e : EnvPtr)
  /-- A signal handler starts, wherever the environment is, and returns. -/
  | signal (e : EnvPtr)
  | sigReturn (e : EnvPtr)
  | serverRecv
  /-- The server reads a request and handles it; `todo` is what it has to send back. -/
  | serverGet (todo : List Content)
  | serverSend (mapped : Bool)

namespace FsIpc

def setStatus (s : FsIpc) (e : EnvPtr) (st : EnvStatus) : FsIpc := { s with status := Function.update s.status e st }

def setPc (s : FsIpc) (e : EnvPtr) (pc : ClientPc) : FsIpc := { s with pc := Function.update s.pc e pc }

def setServer (s : FsIpc) (pc : ServerPc) : FsIpc := { s with server := pc }

def envid2env (s : FsIpc) (cur : EnvPtr) (envid : Word) : Option EnvPtr :=
  if envid = 0 then some cur
  else if s.status (ENVX envid) = .FREE ∨ s.envId (ENVX envid) ≠ envid then none
  else some (ENVX envid)

/-- Step 2 of `sys_ipc_recv` and what follows. -/
def ipcRecv (s : FsIpc) (e : EnvPtr) (dstva : Word) : FsIpc :=
  { s with recving := Function.update s.recving e true, dstva := Function.update s.dstva e dstva,
           status := Function.update s.status e .NOT_RUNNABLE }

/-- Step 4 of `sys_ipc_try_send` and what follows; a `page_insert` that fails makes no difference but that the page is not
there. -/
def deliver (s : FsIpc) (cur e : EnvPtr) (m : Content) (mapped : Bool) (about : Option Nat) : FsIpc :=
  { s with mail := Function.update s.mail e ⟨m, s.envId cur, about, s.last e, s.dstva e, mapped⟩,
           recving := Function.update s.recving e false, status := Function.update s.status e .RUNNABLE,
           last := if e = fsEnv then Function.update s.last cur about else s.last }

def ipcTrySend (s : FsIpc) (cur : EnvPtr) (whom : Word) (m : Content) (mapped : Bool) (about : Option Nat) : TrySend :=
  match s.envid2env cur whom with
  | none => .badEnv
  | some e => if s.recving e then .sent (s.deliver cur e m mapped about) else .notRecv

/-- `e` is an environment beside the server, and runs. -/
def runs (s : FsIpc) (e : EnvPtr) : Bool := e ≠ fsEnv && s.status e == .RUNNABLE

/-- `mkenvid` puts the slot into the low bits. -/
def create (s : FsIpc) (e : EnvPtr) (id : Word) : Option FsIpc :=
  if e ≠ fsEnv ∧ s.status e = .FREE ∧ ENVX id = e then
    some { s with status := Function.update s.status e .RUNNABLE, envId := Function.update s.envId e id,
                  pc := Function.update s.pc e .user, under := Function.update s.under e [] }
  else none

def destroy (s : FsIpc) (e : EnvPtr) : Option FsIpc :=
  if e ≠ fsEnv ∧ s.status e ≠ .FREE then some (s.setStatus e .FREE) else none

/-- A message of a program; if it does not get through, the program goes on all the same. -/
def userSend (s : FsIpc) (e : EnvPtr) (whom : Word) (m : Content) (mapped : Bool) : FsIpc :=
  match s.ipcTrySend e whom m mapped none with
  | .sent t => t
  | _ => s

/-- The loop of `ipc_send` in `fsipc`: it yields if the server does not receive, and panics on other errors. -/
def fsSend (s : FsIpc) (e : EnvPtr) (req : Content) (dstva : Word) (n : Nat) (mapped : Bool) : FsIpc :=
  match s.ipcTrySend e (s.envId fsEnv) req mapped (some n) with
  | .sent t => t.setPc e (.receiving dstva n)
  | .notRecv => s
  | .badEnv => s.setStatus e .FREE

/-- The loop of `ipc_send` in the server. -/
def serverSend (s : FsIpc) (whom : Word) (about : Option Nat) (m : Content) (todo : List Content) (mapped : Bool) : FsIpc :=
  match s.ipcTrySend fsEnv whom m mapped about with
  | .sent t => t.setServer (.replying whom about todo)
  | .notRecv => s
  | .badEnv => (s.setStatus fsEnv .FREE).setServer .panicked

/-- `do_signal` leaves for a handler. -/
def signal (s : FsIpc) (e : EnvPtr) : FsIpc :=
  { s.setPc e .user with under := Function.update s.under e (s.pc e :: s.under e) }

/-- The handler is done, and the environment is where it was. -/
def sigReturn (s : FsIpc) (e : EnvPtr) (pc : ClientPc) (under : List ClientPc) : FsIpc :=
  { s.setPc e pc with under := Function.update s.under e under }

def step (s : FsIpc) : FsIpcEvent → Option FsIpc
  | .create e id => s.create e id
  | .destroy e => s.destroy e
  | .trySend e whom m mapped => match s.runs e, s.pc e with
    | true, .user => some (s.userSend e whom m mapped)
    | _, _ => none
  | .recv e dstva => match s.runs e, s.pc e with
    | true, .user => some (s.ipcRecv e dstva)
    | _, _ => none
  | .fsipc e req dstva => match s.runs e, s.pc e with
    | true, .user => some { s.setPc e (.sending req dstva s.count) with count := s.count + 1 }
    | _, _ => none
  | .fsSend e mapped => match s.runs e, s.pc e with
    | true, .sending req dstva n => some (s.fsSend e req dstva n mapped)
    | _, _ => none
  | .fsRecv e => match s.runs e, s.pc e with
    | true, .receiving dstva n => some ((s.ipcRecv e dstva).setPc e (.waiting dstva n))
    | _, _ => none
  | .fsReturn e => match s.runs e, s.pc e with
    | true, .waiting _ _ => some (s.setPc e .user)
    | _, _ => none
  | .signal e => if s.runs e then some (s.signal e) else none
  | .sigReturn e => match s.runs e, s.pc e, s.under e with
    | true, .user, pc :: under => some (s.sigReturn e pc under)
    | _, _, _ => none
  | .serverRecv => match s.server with
    | .receiving => some ((s.ipcRecv fsEnv reqVa).setServer .waiting)
    | .replying _ _ [] => some ((s.ipcRecv fsEnv reqVa).setServer .waiting)
    | _ => none
  | .serverGet todo => match s.server, s.status fsEnv with
    | .waiting, .RUNNABLE => some (s.setServer (.replying (s.mail fsEnv).sender (s.mail fsEnv).about todo))
    | _, _ => none
  | .serverSend mapped => match s.server with
    | .replying whom about (m :: todo) => some (s.serverSend whom about m todo mapped)
    | _ => none

/-- The server has not received anything yet, nobody is in `fsipc`, and no message answers a request. -/
structure Init (s : FsIpc) : Prop where
  fsStatus : s.status fsEnv = .RUNNABLE
  fsId : s.envId fsEnv ≠ 0
  ids : ∀ e, s.status e ≠ .FREE → ENVX (s.envId e) = e
  fsRecving : s.recving fsEnv = false
  pc : ∀ e, s.pc e = .user
  under : ∀ e, s.under e = []
  mail : ∀ e, (s.mail e).about = none ∧ (s.mail e).asked = none
  server : s.server = .receiving

end FsIpc

/-- The file server and all others. -/
def fsIpc : System FsIpc FsIpcEvent := ⟨FsIpc.Init, FsIpc.step⟩

end Mos
