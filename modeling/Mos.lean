import Mos.Lib.Run
import Mos.Lib.TailQueue
import Mos.Kern.Boot
import Mos.Inv.Live
import Mos.Inv.Scan
import Mos.Inv.Sched
import Mos.Inv.Delivery
import Mos.Inv.Mask
import Mos.Inv.Status
import Mos.Inv.Handler
import Mos.Inv.Access
import Mos.Inv.Core
import Mos.Inv.Entry
import Mos.Inv.Ids
import Mos.Inv.Ipc
import Mos.Inv.Overflow
import Mos.Inv.Reuse
import Mos.Inv.Coherence
import Mos.User.PipeFifo
import Mos.User.PipeClose
import Mos.User.FsReply
import Mos.User.PipeEof
import Mos.Fs.OpenTab
import Mos.Fs.Reply
import Mos.Fs.Isolation
import Mos.Inv.Auth
import Mos.Inv.Low
import Mos.Inv.Device
import Mos.Inv.Send
import Mos.Inv.Alloc
import Mos.Inv.RoundRobin
import Mos.Inv.Free
import Mos.Print.Render
import Mos.Elf.Segment
import Mos.Elf.Mapper
import Mos.Elf.Stack
import Mos.Inv.PageMap
import Mos.Fs.Truncate
import Mos.Fs.WalkSpec
import Mos.Fs.Remove
import Mos.Fs.Create
import Mos.Fs.Grow
import Mos.User.Sigset
import Mos.Inv.Signo
import Mos.Elf.Headers
import Mos.Elf.Share
import Mos.Elf.Child
import Mos.Elf.Loaders
import Mos.Cow.Store
import Mos.Cow.Kernel
import Mos.Cow.Dup
import Mos.Cow.ForkSpec
import Mos.Cow.Break
import Mos.Cow.Isolation
import Mos.Elf.Readelf
import Mos.Fs.Ide
import Mos.User.Lexer
import Mos.User.Readline
import Mos.Kern.Resume
import Mos.User.Runcmd
import Mos.User.Dup
import Mos.User.ReadOnly
import Mos.User.FileRun
import Mos.User.FdAgree
import Mos.Kern.Queue
import Mos.Str.Copies
import Mos.User.Debugf
import Mos.Inv.High
import Mos.Inv.Refill
