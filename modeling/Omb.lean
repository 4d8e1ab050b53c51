import Omb.Lib.PointerList
import Omb.Lib.Run
import Omb.Lib.PartialMap
import Omb.Lib.Relocation
import Omb.Lib.Traced
import Omb.Lib.Arm
import Omb.Lib.Cover
import Omb.Kern.Head
import Omb.Am335x.Mem
import Omb.Kern.Proc
import Omb.Kern.Sys
import Omb.Kern.Machine
import Omb.Kern.Queue
import Omb.Kern.Sched
import Omb.Kern.ProcLinks
import Omb.Kern.Invariant
import Omb.Kern.Primitives
import Omb.Kern.Moves
import Omb.Kern.Reach
import Omb.Kern.Wakeup
import Omb.Kern.Create
import Omb.Kern.Rendezvous
import Omb.Kern.Outbox
import Omb.Lib.SyncCall
import Omb.Kern.Refinement
import Omb.Kern.Removal
import Omb.Kern.Overtaking
import Omb.Kern.Deadlock
import Omb.Kern.Progress
import Omb.Kern.Turns
import Omb.Kern.NoTransfer
import Omb.Kern.Receive
import Omb.Kern.RoundRobin
import Omb.Kern.Stretch
import Omb.Kern.Preempt
import Omb.Kern.Context
import Omb.Kern.Confine
import Omb.Am335x.Vectors
import Omb.Am335x.Translate
import Omb.Am335x.PageTable
import Omb.Am335x.Attributes
import Omb.Am335x.Imap
import Omb.Am335x.Interrupt
import Omb.Am335x.SystemCall
import Omb.Am335x.FirstContext
import Omb.Am335x.Idle
import Omb.Am335x.Proc0
import Omb.Am335x.Allocator
import Omb.Am335x.Devices
import Omb.Am335x.IoRequests
import Omb.Am335x.Remainders
import Omb.Am335x.Splits
import Omb.Am335x.PageGrants
import Omb.Kern.Transfer
import Omb.Kern.Frames
import Omb.Kern.Accept
import Omb.Kern.Handover
import Omb.Kern.FailedAccept
import Omb.Kern.Rights
import Omb.Kern.OfferReuse
import Omb.Kern.Iterations
import Omb.Am335x.Refusals
import Omb.Am335x.Uart
import Omb.Kern.Accesses
import Omb.Kern.Aborts
import Omb.Libstring.Strings
import Omb.Libstring.RoundTrip
import Omb.Libstring.LongLiterals
import Omb.Lib.Numeral
import Omb.Lib.Checked
import Omb.Libstring.Rendering
import Omb.Libstring.Printint
import Omb.Libstring.Buffer
import Omb.Libstring.Scanning
import Omb.Libstring.FormatReads
import Omb.Libstring.Strtol
import Omb.Lib.Fields
import Omb.Libstring.Strtok
import Omb.Kern.Viewpoint
import Omb.Am335x.Server
import Omb.Am335x.System
import Omb.Am335x.Service
import Omb.Am335x.Board
import Omb.Am335x.Progress
