import Omb.Kern.Head
import Omb.Lib.PointerList

/-!
# `kern/proc.c`

The process table, the list of alive processes with the scheduler that walks it, and the pool
of wait-queue nodes.  Each function has the name it has in the source and is written after its
text, loop by loop; what it comes to is proved in later modules, and these are the definitions
that they are about.

Loops over linked nodes run on fuel; `Stuck.diverges` is the answer of a loop that meets more
nodes than the array it walks has, which only a cycle can do.  Invariants show that no run
from boot with up to `MAX_PROCS` processes comes to that.

A `cas` is taken to succeed whenever the word holds the expected value, since nothing comes
between the load in front of it and the `cas` in a system call that is not interrupted.
`Omb.Kern.ProcLinks` has `add_to_list_back` with its `cas` and the loop around it, and
`Omb.Kern.Removal` takes `proc_list_remove` one access at a time.

What the code does not test is not tested here: `find_proc` gives an address for every pid,
and `proc_new` fills in the slot at `nextpid` whatever is in it.

## Main definitions

* `nextProc`, `schedule`: choice of the next process, context switch
* `procNew`, `findProc`: making and finding processes
* `procListAdd`, `procListRemove`: the wait queues
-/

namespace Omb

/-! ## The scheduler -/

/-- `return p != nil && p->state == PROC_ready ? p : nil;` -/
def readyOrNil (s : State) (p : Option ProcRef) : Option ProcRef :=
  p.filter fun q => (s.procs q).state = .ready

/-- The `do .. while (p != up)` loop of `next_proc`.  It goes on from the head of the list
when it has come to its end, and stops at `up`; if nothing runs that is nil, so it stops at
the end. -/
def nextProcLoop (s : State) : ℕ → Option ProcRef → Except Stuck (Option ProcRef)
  | 0, _ => .error .diverges
  | fuel + 1, none =>
      if s.alive = s.up then .ok (readyOrNil s s.alive)
      else nextProcLoop s fuel s.alive
  | fuel + 1, some p =>
      if (s.procs p).state = .ready then .ok (some p)
      else if (s.procs p).next = s.up then .ok (readyOrNil s (s.procs p).next)
      else nextProcLoop s fuel (s.procs p).next

/-- `next_proc`.  The fuel is for two times around a list of all processes. -/
def nextProc (s : State) : Except Stuck (Option ProcRef) :=
  match s.alive with
  | none => .ok none
  | some a =>
      match s.up with
      | some u => nextProcLoop s (2 * maxProcs + 2) (s.procs u).next
      | none => nextProcLoop s (2 * maxProcs + 2) (some a)

/-- The first half of `schedule`: the running process stops being `PROC_oncpu` and `set_label`
saves where it is to go on.  One that blocks has set its state before, and keeps it. -/
def saveLabel (s : State) (k : Label) : State :=
  match s.up with
  | none => s
  | some u =>
      s.modifyProc u fun p =>
        { p with
          state := if p.state = .oncpu then .ready else p.state
          label := k }

/-- The second half of `schedule`: `goto_label(&up->label)`, or the idle loop.  The process
switched to is made `PROC_oncpu` whatever its state was. -/
def switchTo (s : State) : Option ProcRef → State
  | some q =>
      { s.modifyProc q (fun p => { p with state := .oncpu }) with
        up := some q
        control := .resume }
  | none => { s with up := none, control := .idle }

/-- `schedule(n)`, called where `k` is to go on.  Only with nil for `n` is `next_proc` asked;
the process that is handed over need not be ready. -/
def schedule (s : State) (k : Label) (n : Option ProcRef) : Except Stuck Out :=
  let handed := Event.scheduled (n.map fun q => (q, (s.procs q).state))
  match n with
  | some q => .ok (switchTo (saveLabel s k) (some q), [handed])
  | none =>
      match nextProc (saveLabel s k) with
      | .error e => .error e
      | .ok q => .ok (switchTo (saveLabel s k) q, [handed])

/-! ## Processes -/

/-- `add_to_list_back(&alive, p)`.  The walk does not end on a list with a cycle, which is
what adding a process twice leads to. -/
def addToListBack (s : State) (p : ProcRef) : Except Stuck State :=
  let s := s.modifyProc p fun q => { q with next := none }
  match PointerList.lastNode (fun q => (s.procs q).next) (maxProcs + 1) s.alive with
  | none => .error .diverges
  | some none => .ok { s with alive := some p }
  | some (some pp) => .ok (s.modifyProc pp fun q => { q with next := some p })

/-- The slot as `proc_new` fills it in, before it is put on the list.  `func_label` makes the
label go on in `proc_start`. -/
def freshProc (pid space page : Word) : Proc :=
  { Proc.zero with
    pid := pid
    page := page
    space := space
    label := .procStart
    state := .ready }

/-- `proc_new(space, sys_page)`.  The slot is the one `nextpid` names, whatever
it holds; nothing makes the call return nil. -/
def procNew (s : State) (space sysPage : Word) : Except Stuck (ProcRef × State) :=
  let pid := s.nextpid
  let word := BitVec.ofNat 32 pid.val
  let s := { s with nextpid := pid + 1 }
  let s := s.modifyProc pid fun _ => freshProc word space sysPage
  let s := s.modifyPage sysPage fun _ => { ProcPage.zero with pid := word }
  match addToListBack s pid with
  | .error e => .error e
  | .ok s => .ok (pid, s)

/-- `find_proc(pid)`: the address `&procs[pid]`, as an index.  It is not compared
with anything, so it is never nil. -/
def findProc (pid : Word) : Option ℤ :=
  some pid.toInt

/-- Access to `procs[i]`.  With an index that is not one of the table the access is to
whatever is there, and the model stops. -/
def deref (i : ℤ) : Except Stuck ProcRef :=
  if h : 0 ≤ i ∧ i < maxProcs then .ok ⟨i.toNat, by omega⟩
  else .error (.wild i)

/-! ## Wait queues -/

/-- The loop of `proc_list_add` over `proc_lists` for a slot to claim: the first one without a
process. -/
def freeSlot (s : State) : Option ListRef :=
  PointerList.scan (fun i => (s.lists i).proc = none) maxProcLists 0

/-- The `do .. while` of `proc_list_add`: walk to the end of `l`'s queue and link
`n` there. -/
def linkEntry (s : State) (l : ProcRef) (n : ListRef) : Except Stuck State :=
  match PointerList.lastNode (fun i => (s.lists i).next) (maxProcLists + 1)
      (s.procs l).waiting with
  | none => .error .diverges
  | some none => .ok (s.modifyProc l fun q => { q with waiting := some n })
  | some (some i) => .ok (s.modifyList i fun e => { e with next := some n })

/-- `proc_list_add(&l->waiting, p)`; `none` is its result false, when no slot is free.  The
slot is filled in before it is linked. -/
def procListAdd (s : State) (l p : ProcRef) : Except Stuck (Option State) :=
  match freeSlot s with
  | none => .ok none
  | some n =>
      (linkEntry (s.modifyList n fun _ => { proc := some p, next := none }) l n).map some

/-- The `while` loop of `proc_list_remove`: the node it stops at, with the node before it and
the process in it.  It stops at a node of process `pid`, and otherwise at the last node, which
is what `PID_ALL` selects, as no process has it. -/
def findEntry (s : State) (pid : Word) :
    ℕ → Option ListRef → Option ListRef →
      Except Stuck (Option (Option ListRef × ListRef × ProcRef))
  | 0, _, _ => .error .diverges
  | _ + 1, _, none => .ok none
  | fuel + 1, prev, some n =>
      match (s.lists n).proc with
      | none => .error .nilDeref
      | some w =>
          if (s.procs w).pid = pid then .ok (some (prev, n, w))
          else
            match (s.lists n).next with
            | none => .ok (some (prev, n, w))
            | some m => findEntry s pid fuel (some n) (some m)

/-- `cas(l, n, n->next); n->proc = nil;` where `l` is the head pointer of `l`'s
queue or the pointer in the node before `n`. -/
def unlinkEntry (s : State) (l : ProcRef) (prev : Option ListRef) (n : ListRef) : State :=
  let next := (s.lists n).next
  let s :=
    match prev with
    | none => s.modifyProc l fun q => { q with waiting := next }
    | some j => s.modifyList j fun e => { e with next := next }
  s.modifyList n fun e => { e with proc := none }

/-- `proc_list_remove(&l->waiting, pid)`; `none` is its result nil, which it has for an empty
queue only. -/
def procListRemove (s : State) (l : ProcRef) (pid : Word) :
    Except Stuck (Option (ProcRef × State)) :=
  match findEntry s pid (maxProcLists + 1) none (s.procs l).waiting with
  | .error e => .error e
  | .ok none => .ok none
  | .ok (some (prev, n, w)) => .ok (some (w, unlinkEntry s l prev n))

end Omb
