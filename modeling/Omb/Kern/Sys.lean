import Omb.Kern.Proc
import Omb.Am335x.Mem

/-!
# `kern/sys.c`

The message primitives `ksend`, `krecv`, `kreply` and `kreply_recv`, the system calls over
them, and the transfer of pages between address spaces.

A kernel function called by the running process `u` either comes back to its caller or calls
`schedule`, which does not come back before `u` is chosen again; `Flow` tells the two apart.
What follows such a call of `schedule` in the source is under the matching `Label` in
`resume`, in `Omb.Kern.Machine`.  So each definition is one stretch of kernel code without a
switch in it, and a function of the source with a call of `schedule` in the middle is in two
places.

Pids are words that user code has passed in.  `findProc` gives a pointer for each of them, and
the test for nil behind it is kept, though it is never taken; the table is accessed where the
source does so, and `deref` goes wrong there for a pid that is not one of it.

`sys_addr_accept` calls `get_page` of `kern/sys.c`, which returns nil.  `acceptFrom` and what
is under it take a list of pages to return instead, so that results can be proved for any
`get_page`, and a system call passes the empty list.

## Main definitions

* `ksend`, `krecv`, `kreply`, `kreplyRecv`: the message primitives
* `sysSend`, `sysRecv`, `sysReply`, `sysReplyRecv`, `sysProcCreate`: the system calls over
  them
* `sysAddrOffer`, `sysAddrAccept`: offers of addresses, and their transfer
-/

namespace Omb

/-- How a stretch of kernel code of the running process ends: it returns a value to its
caller, or it has switched. -/
inductive Flow (α : Type) where
  /-- It returns `a` to the caller. -/
  | ret (a : α) (out : Out)
  /-- It called `schedule`. -/
  | switched (out : Out)

/-- End a stretch by `schedule(n)`, to go on at `k`. -/
def Flow.schedule {α : Type} (s : State) (k : Label) (n : Option ProcRef) :
    Except Stuck (Flow α) :=
  match Omb.schedule s k n with
  | .error e => .error e
  | .ok out => .ok (.switched out)

/-! ## Message passing -/

/-- `ksend(p)`.  The caller blocks before it is known whether there is a receiver; one that is
receiving is handed the CPU. -/
def ksend (s : State) (u p : ProcRef) : Except Stuck (Flow Word) :=
  if (s.procs p).state = .dead then .ok (.ret err (s, []))
  else
    let s := s.modifyProc u fun q => { q with waitingOn := some p }
    match procListAdd s p u with
    | .error e => .error e
    | .ok none => .ok (.ret err (s, []))
    | .ok (some s) =>
        let s := s.modifyProc u fun q => { q with state := .send }
        let next := if (s.procs p).state = .recv then some p else none
        match schedule s .ksend next with
        | .error e => .error e
        | .ok (s, evs) => .ok (.switched (s, .sent u p :: evs))

/-- One turn of the loop of `krecv(pid)`.  The turn that finds nothing ends in `schedule`, and
the next one starts when that comes back.  Whether the sender that is taken matches `pid` is
not looked at here. -/
def krecv (s : State) (u : ProcRef) (pid : Word) (caller : RecvCaller) :
    Except Stuck (Flow ProcRef) :=
  match procListRemove s u pid with
  | .error e => .error e
  | .ok (some (w, s)) =>
      let s := s.modifyPage (s.procs u).page fun g => { g with mIn := (s.pageOf w).mOut }
      let s := s.modifyProc w fun q => { q with state := .reply }
      .ok (.ret w (s, [.received u w]))
  | .ok none =>
      Flow.schedule (s.modifyProc u fun q => { q with state := .recv })
        (.krecv pid caller) none

/-- `p->state != PROC_reply || p->waiting_on != up` does not hold. -/
def awaitsReply (s : State) (u p : ProcRef) : Prop :=
  (s.procs p).state = .reply ∧ (s.procs p).waitingOn = some u

instance (s : State) (u p : ProcRef) : Decidable (awaitsReply s u p) :=
  inferInstanceAs (Decidable (_ ∧ _))

/-- `memcpy(p->page->m_in, up->page->m_out, MESSAGE_LEN); p->page->m_ret = ret;`  The reply is
the message that is in the page of the one who replies. -/
def deliverReply (s : State) (u p : ProcRef) (ret : Word) : State :=
  let out := (s.pageOf u).mOut
  s.modifyPage (s.procs p).page fun g => { g with mIn := out, mRet := ret }

/-- `kreply(p, ret)`.  It is refused unless `p` awaits a reply of the caller, and otherwise
the CPU is handed to `p`, with the caller ready to go on. -/
def kreply (s : State) (u p : ProcRef) (ret : Word) (caller : ReplyCaller) :
    Except Stuck (Flow Word) :=
  if awaitsReply s u p then
    match schedule (deliverReply s u p ret) (.kreply caller) (some p) with
    | .error e => .error e
    | .ok (s, evs) => .ok (.switched (s, .replied u p ret :: evs))
  else .ok (.ret err (s, []))

/-- `kreply_recv(p, ret, pid)`; the result none is its result nil.  The state is
set to `PROC_recv` before the queue has been looked at. -/
def kreplyRecv (s : State) (u p : ProcRef) (ret pid : Word) :
    Except Stuck (Flow (Option ProcRef)) :=
  if awaitsReply s u p then
    let s := deliverReply s u p ret
    let s := s.modifyProc u fun q => { q with state := .recv }
    match schedule s (.kreplyRecv pid) (some p) with
    | .error e => .error e
    | .ok (s, evs) => .ok (.switched (s, .replied u p ret :: evs))
  else .ok (.ret none (s, []))

/-! ## System calls -/

/-- A system call of `u` returns `v` to its user code. -/
def returnToUser (u : ProcRef) (v : Word) (out : Out) : Out :=
  ({ out.1 with control := .user }, out.2 ++ [.returned u v])

/-- A system call that ends as the kernel function it called does. -/
def Flow.toUser (u : ProcRef) : Flow Word → Out
  | .ret v out => returnToUser u v out
  | .switched out => out

/-- The test of `find_proc`'s result that starts the system calls with a pid.  The result is
never nil, so the body is always reached. -/
def withProc (s : State) (u : ProcRef) (pid : Word)
    (body : ℤ → Except Stuck Out) : Except Stuck Out :=
  match findProc pid with
  | none => .ok (returnToUser u err (s, []))
  | some i => body i

/-- `sys_send`. -/
def sysSend (s : State) (u : ProcRef) (pid : Word) : Except Stuck Out :=
  withProc s u pid fun i =>
    match deref i with
    | .error e => .error e
    | .ok p => (ksend s u p).map (Flow.toUser u)

/-- `krecv` for a system call: the pid of the sender is returned. -/
def recvToUser (s : State) (u : ProcRef) (pid : Word) : Except Stuck Out :=
  match krecv s u pid .sysRecv with
  | .error e => .error e
  | .ok (.ret w out) => .ok (returnToUser u (out.1.procs w).pid out)
  | .ok (.switched out) => .ok out

/-- `sys_recv`. -/
def sysRecv (s : State) (u : ProcRef) (pid : Word) : Except Stuck Out :=
  recvToUser s u pid

/-- `sys_reply`. -/
def sysReply (s : State) (u : ProcRef) (pid ret : Word) : Except Stuck Out :=
  withProc s u pid fun i =>
    match deref i with
    | .error e => .error e
    | .ok p => (kreply s u p ret .sysReply).map (Flow.toUser u)

/-- `sys_reply_recv`.  If there is nobody to reply to, the error is all there is, and nothing
is received. -/
def sysReplyRecv (s : State) (u : ProcRef) (pid ret rpid : Word) : Except Stuck Out :=
  withProc s u pid fun i =>
    match deref i with
    | .error e => .error e
    | .ok p =>
        match kreplyRecv s u p ret rpid with
        | .error e => .error e
        | .ok (.ret none out) => .ok (returnToUser u err out)
        | .ok (.ret (some w) out) => .ok (returnToUser u (out.1.procs w).pid out)
        | .ok (.switched out) => .ok out

/-- `sys_proc_create`.  `proc_new` gives no nil to test for.  Neither argument is checked; they
are taken to be pages of their own. -/
def sysProcCreate (s : State) (u : ProcRef) (page spacePage : Word) : Except Stuck Out :=
  let s := { s with mem := memsetPage s.mem spacePage }
  match procNew s spacePage page with
  | .error e => .error e
  | .ok (p, s) => .ok (returnToUser u (s.procs p).pid (s, []))

/-- `sys_addr_offer`. -/
def sysAddrOffer (s : State) (u : ProcRef) (pid start len flags : Word) : Except Stuck Out :=
  withProc s u pid fun _ =>
    let s := s.modifyProc u fun q =>
      { q with addrOffer := { start := start, len := len, flags := flags, toPid := pid } }
    .ok (returnToUser u ok (s, []))

/-- What the two take bits of a transfer select: from which process to which, and at which
address in the space of each. -/
structure Transfer where
  giver : ProcRef
  taker : ProcRef
  vf : Word
  vt : Word

/-- `sys_addr_accept` up to the loop: the checks against the offer of `p`, and the direction
of the transfer; `none` where they return `ERR`.  The offer itself is left as it is. -/
def acceptedTransfer (s : State) (u p : ProcRef) (start len flags : Word) :
    Option Transfer :=
  let offer := (s.procs p).addrOffer
  if (s.procs u).pid ≠ offer.toPid then none
  else if len ≠ offer.len then none
  else if flags.sshiftRight 1 ≠ offer.flags.sshiftRight 1 then none
  else if flags &&& addrTake = 0 ∧ offer.flags &&& addrTake ≠ 0 then
    some { giver := u, taker := p, vf := start, vt := offer.start }
  else if flags &&& addrTake ≠ 0 ∧ offer.flags &&& addrTake = 0 then
    some { giver := p, taker := u, vf := offer.start, vt := start }
  else none

/-- The loop of `sys_addr_accept` from `l` on: the result, the memory and the
supply of pages it leaves.  `fuel` bounds the turns; `none` is a loop that is not
over by then.  The `if (p == nil)` after `space_find` tests the process, which is
not nil, so it is not taken. -/
def acceptLoop (giver taker vf vt len flags : Word) :
    ℕ → Word → Mem → List Word → Option (Word × Mem × List Word)
  | 0, _, _, _ => none
  | fuel + 1, l, m, supply =>
      if l < len then
        let pa := (spaceFind m giver (vf + l)).1
        match spaceMap m taker pa (vt + l) flags supply with
        | (false, m, supply) => some (err, m, supply)
        | (true, m, supply) =>
            acceptLoop giver taker vf vt len flags fuel (l + pageSize)
              (spaceUnmap m giver (vf + l)) supply
      else some (ok, m, supply)

/-- Turns after which `l` has taken every value it can, as it goes up in steps of a page and
wraps around. -/
abbrev acceptFuel : ℕ := 2 ^ 20 + 1

/-- `sys_addr_accept` once `find_proc` has found `p`, with the pages `supply` for
`get_page` to return. -/
def acceptFrom (s : State) (u p : ProcRef) (start len flags : Word)
    (supply : List Word) : Except Stuck (Word × State) :=
  match acceptedTransfer s u p start len flags with
  | none => .ok (err, s)
  | some t =>
      match acceptLoop (s.procs t.giver).space (s.procs t.taker).space t.vf t.vt len flags
          acceptFuel 0 s.mem supply with
      | none => .error .diverges
      | some (r, m, _) => .ok (r, { s with mem := m })

/-- `sys_addr_accept`. -/
def sysAddrAccept (s : State) (u : ProcRef) (pid start len flags : Word)
    (supply : List Word) : Except Stuck Out :=
  withProc s u pid fun i =>
    match deref i with
    | .error e => .error e
    | .ok p =>
        match acceptFrom s u p start len flags supply with
        | .error e => .error e
        | .ok (r, s) => .ok (returnToUser u r (s, []))

end Omb
