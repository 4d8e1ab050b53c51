import Mathlib.Algebra.Group.Nat.Defs
import Mathlib.Logic.Function.Basic
import Mathlib.Data.Int.Notation
import Mathlib.Data.Nat.Notation

/-!
# Kernel data

The data the kernel works on, after `kern/head.h`, `include/c.h` and
`am335x/kern/head.h`.

Every `int`, `reg_t` and `size_t` is a 32-bit `Word`.  A `proc_t` that points
into `procs` is a `ProcRef`, a `proc_list_t` that points into `proc_lists` a
`ListRef`, and nil is `none`; a pointer computed from an untrusted pid is kept
as an integer until it is dereferenced (`deref`), where one that leaves the
table goes wrong.

A suspended kernel context is what `set_label` saved or `func_label` built.  The
registers in it only matter through the code they resume, so a `Label` names
that code and the locals it still needs.

Memory is split by what the kernel keeps in it: `pages` holds the process pages
(`struct proc_page`) by address, `mem` the words of the translation tables.  The kernel's own
variables are fields of the `State`, not memory.  So the page and the space that `proc_create`
is handed, which it does not check, are taken to lie apart from each other, from the pages and
spaces that are there, and from the kernel's image.  `proc0` sees to that, as it hands out RAM
that the kernel has published (`memory_apart_of_system`); where it matters to a result about
other callers, the result says so (`State.HomesApart`).

How deep the kernel goes on the stack of a process is not in the state either.  It is bounded,
but for the idle loop, which takes ticks on the stack of the last process: that is taken up in
`Omb.Am335x.Idle`.

## Main definitions

* `Proc`, `ProcList`, `ProcPage`: the structures of the same names
* `State`: the kernel's variables and the control it is left in between steps
* `Event`: what a step is observed to do
-/

namespace Omb

/-- `int`, `reg_t`, `size_t` and pointers of the am335x. -/
abbrev Word := BitVec 32

abbrev maxProcs : ℕ := 512

instance : @NeZero ℕ Zero.ofOfNat0 maxProcs := Nat.instNeZeroSucc

abbrev maxProcLists : ℕ := 2048

abbrev messageLen : ℕ := 64

abbrev pageSize : Word := 4096

/-- `nil`, the null pointer as a word. -/
abbrev nil : Word := 0

/-- `OK`. -/
abbrev ok : Word := 0

/-- `ERR`, that is `-1`. -/
abbrev err : Word := 0xffffffff

/-- `PID_ALL`, that is `-1`. -/
abbrev pidAll : Word := 0xffffffff

/-- A `proc_t` that points into `procs`. -/
abbrev ProcRef := Fin maxProcs

/-- A `proc_list_t` that points into `proc_lists`. -/
abbrev ListRef := Fin maxProcLists

/-- `procstate_t`. -/
inductive ProcState where
  | dead
  | enter
  | ready
  | oncpu
  | send
  | reply
  | recv
  | recving
  deriving DecidableEq

/-- The `MESSAGE_LEN` bytes of `m_in` or `m_out`. -/
abbrev Message := Vector UInt8 messageLen

def Message.byte (m : Message) (i : ℕ) : BitVec 8 :=
  (m[i]?.getD 0).toBitVec

/-- The `i`-th 32-bit field of a message, least significant byte first. -/
def Message.field (m : Message) (i : ℕ) : Word :=
  m.byte (4 * i + 3) ++ m.byte (4 * i + 2) ++ m.byte (4 * i + 1) ++ m.byte (4 * i)

/-- `struct proc_page`. -/
structure ProcPage where
  pid : Word
  mIn : Message
  mOut : Message
  mRet : Word

/-- A page after `memset(page, 0, PAGE_SIZE)`. -/
def ProcPage.zero : ProcPage where
  pid := 0
  mIn := Vector.replicate messageLen 0
  mOut := Vector.replicate messageLen 0
  mRet := 0

/-- Who called `krecv`, where it returns to: the system call `sys_recv` or the start of a
process. -/
inductive RecvCaller where
  | sysRecv
  | procStart
  deriving DecidableEq

/-- Who called `kreply`; `proc_start` holds the user `pc` and `sp` it has already
read from the request. -/
inductive ReplyCaller where
  | sysReply
  | procStart (pc sp : Word)
  deriving DecidableEq

/-- The code a saved context resumes, with the locals that it still needs.  A slot in which no
process was made has none. -/
inductive Label where
  /-- The zeroed label of a slot no process was made in. -/
  | unset
  /-- `func_label(.., &proc_start)` -/
  | procStart
  /-- `func_label(.., &proc0_start)` -/
  | proc0Start
  /-- `schedule(nil)` of `systick_handler`, over user code. -/
  | trap
  /-- The call of `schedule` in `ksend`. -/
  | ksend
  /-- The call of `schedule` in the loop of `krecv(pid)`. -/
  | krecv (pid : Word) (caller : RecvCaller)
  /-- The call of `schedule` in `kreply`. -/
  | kreply (caller : ReplyCaller)
  /-- The call of `schedule` in `kreply_recv(.., pid)`. -/
  | kreplyRecv (pid : Word)
  deriving DecidableEq

/-- The `addr_offer` field of `struct proc`. -/
structure AddrOffer where
  start : Word
  len : Word
  flags : Word
  toPid : Word
  deriving DecidableEq

def AddrOffer.zero : AddrOffer where
  start := 0
  len := 0
  flags := 0
  toPid := 0

/-- `struct proc`.  The bytes of `kstack` are represented by the label.  The fields are those
of the source, with the saved offer of addresses in a structure of its own. -/
structure Proc where
  label : Label
  state : ProcState
  pid : Word
  next : Option ProcRef
  page : Word
  waitingOn : Option ProcRef
  waiting : Option ListRef
  addrOffer : AddrOffer
  space : Word

/-- A slot after `memset(p, 0, sizeof(struct proc))`. -/
def Proc.zero : Proc where
  label := .unset
  state := .dead
  pid := 0
  next := none
  page := 0
  waitingOn := none
  waiting := none
  addrOffer := .zero
  space := 0

/-- `struct proc_list`. -/
structure ProcList where
  proc : Option ProcRef
  next : Option ListRef

/-- Addresses fixed by the linker.  Nothing is assumed of them here; results that need them
apart say so. -/
structure Image where
  proc0Page : Word
  proc0StackPage : Word
  proc0SpacePage : Word
  proc0TextStart : Word
  kernelPage : Word

/-- Where the processor is between two steps: in the user code of `up`, at the
`goto_label(&up->label)` that ends `schedule`, or in the loop `schedule` falls into when
nothing is ready.  The timer may tick in the first and in the last. -/
inductive Control where
  | user
  | resume
  | idle
  deriving DecidableEq

/-- The kernel's variables, and the control.  Arrays are functions of their indices, as they
have a fixed size and are never copied. -/
structure State where
  procs : ProcRef → Proc
  alive : Option ProcRef
  up : Option ProcRef
  nextpid : ProcRef
  lists : ListRef → ProcList
  pages : Word → ProcPage
  mem : Word → Word
  control : Control
  image : Image

/-- Ways for kernel code not to come to an end of its own: it follows nil, indexes `procs`
with a pid that is not in it, walks in a circle, or goes to a label nobody has set.
`disabled` is no code at all. -/
inductive Stuck where
  /-- A loop that never ends. -/
  | diverges
  /-- A read through a null pointer. -/
  | nilDeref
  /-- A read or write of `procs[i]` outside the table. -/
  | wild (i : ℤ)
  /-- A jump to a label nothing was saved in. -/
  | unsetLabel
  /-- The action does not exist in this control state. -/
  | disabled
  deriving DecidableEq

/-- What a step is observed to do.  Events have no part in what the kernel computes; they are
what properties of runs speak about. -/
inductive Event where
  /-- `a` blocked in `ksend(b)`. -/
  | sent (a b : ProcRef)
  /-- `b` dequeued `a` in `krecv`. -/
  | received (b a : ProcRef)
  /-- `kreply(a, ret)` or `kreply_recv(a, ret, ..)` of `b` went through. -/
  | replied (b a : ProcRef) (ret : Word)
  /-- The `ksend` that `a` had blocked in returned `ret`. -/
  | resumed (a : ProcRef) (ret : Word)
  /-- A system call of `p` returned `ret` to its user code. -/
  | returned (p : ProcRef) (ret : Word)
  /-- `schedule(n)` was called with `n` in the given state. -/
  | scheduled (n : Option (ProcRef × ProcState))
  /-- `p` was dropped to user code for the first time. -/
  | dropped (p : ProcRef) (pc sp : Word)
  deriving DecidableEq

/-- The state after a stretch of kernel code, and what happened in it. -/
abbrev Out := State × List Event

namespace State

variable (s : State)

def modifyProc (p : ProcRef) (f : Proc → Proc) : State :=
  { s with procs := Function.update s.procs p (f (s.procs p)) }

def modifyList (i : ListRef) (f : ProcList → ProcList) : State :=
  { s with lists := Function.update s.lists i (f (s.lists i)) }

def modifyPage (a : Word) (f : ProcPage → ProcPage) : State :=
  { s with pages := Function.update s.pages a (f (s.pages a)) }

/-- The page of a process. -/
def pageOf (p : ProcRef) : ProcPage :=
  s.pages (s.procs p).page

variable {s}

@[simp] theorem modifyProc_procs_self (p : ProcRef) (f : Proc → Proc) :
    (s.modifyProc p f).procs p = f (s.procs p) :=
  Function.update_self ..

@[simp] theorem modifyProc_procs_of_ne {p q : ProcRef} (hne : q ≠ p)
    (f : Proc → Proc) : (s.modifyProc p f).procs q = s.procs q :=
  Function.update_of_ne hne ..

theorem modifyProc_procs (p q : ProcRef) (f : Proc → Proc) :
    (s.modifyProc p f).procs q = if q = p then f (s.procs p) else s.procs q :=
  Function.update_apply ..

/-- A field that the update keeps is the same function of the process, whichever process is
looked at. -/
theorem modifyProc_field {β : Sort*} (g : Proc → β) {p : ProcRef}
    {f : Proc → Proc} (hf : g (f (s.procs p)) = g (s.procs p)) (q : ProcRef) :
    g ((s.modifyProc p f).procs q) = g (s.procs q) := by
  by_cases hq : q = p
  · subst hq
    rw [modifyProc_procs_self, hf]
  · rw [modifyProc_procs_of_ne hq]

@[simp] theorem modifyProc_alive (p f) : (s.modifyProc p f).alive = s.alive := rfl
@[simp] theorem modifyProc_up (p f) : (s.modifyProc p f).up = s.up := rfl
@[simp] theorem modifyProc_nextpid (p f) : (s.modifyProc p f).nextpid = s.nextpid := rfl
@[simp] theorem modifyProc_lists (p f) : (s.modifyProc p f).lists = s.lists := rfl
@[simp] theorem modifyProc_pages (p f) : (s.modifyProc p f).pages = s.pages := rfl
@[simp] theorem modifyProc_mem (p f) : (s.modifyProc p f).mem = s.mem := rfl
@[simp] theorem modifyProc_control (p f) : (s.modifyProc p f).control = s.control := rfl
@[simp] theorem modifyProc_image (p f) : (s.modifyProc p f).image = s.image := rfl

@[simp] theorem modifyList_lists_self (i : ListRef) (f : ProcList → ProcList) :
    (s.modifyList i f).lists i = f (s.lists i) :=
  Function.update_self ..

@[simp] theorem modifyList_lists_of_ne {i j : ListRef} (hne : j ≠ i)
    (f : ProcList → ProcList) : (s.modifyList i f).lists j = s.lists j :=
  Function.update_of_ne hne ..

/-- A field that the update keeps is the same function of the node. -/
theorem modifyList_field {β : Sort*} (g : ProcList → β) {i : ListRef}
    {f : ProcList → ProcList} (hf : g (f (s.lists i)) = g (s.lists i)) (j : ListRef) :
    g ((s.modifyList i f).lists j) = g (s.lists j) := by
  by_cases hj : j = i
  · subst hj
    rw [modifyList_lists_self, hf]
  · rw [modifyList_lists_of_ne hj]

/-- Storing a pointer in a node updates the pointers of the pool. -/
theorem modifyList_next (i : ListRef) (v : Option ListRef) :
    (fun j => ((s.modifyList i fun e => { e with next := v }).lists j).next) =
      Function.update (fun j => (s.lists j).next) i v := by
  funext j
  by_cases hj : j = i
  · subst hj
    simp
  · rw [modifyList_lists_of_ne hj, Function.update_of_ne hj]

@[simp] theorem modifyList_procs (i f) : (s.modifyList i f).procs = s.procs := rfl
@[simp] theorem modifyList_alive (i f) : (s.modifyList i f).alive = s.alive := rfl
@[simp] theorem modifyList_up (i f) : (s.modifyList i f).up = s.up := rfl
@[simp] theorem modifyList_nextpid (i f) : (s.modifyList i f).nextpid = s.nextpid := rfl
@[simp] theorem modifyList_pages (i f) : (s.modifyList i f).pages = s.pages := rfl
@[simp] theorem modifyList_mem (i f) : (s.modifyList i f).mem = s.mem := rfl
@[simp] theorem modifyList_control (i f) : (s.modifyList i f).control = s.control := rfl
@[simp] theorem modifyList_image (i f) : (s.modifyList i f).image = s.image := rfl

@[simp] theorem modifyPage_procs (a f) : (s.modifyPage a f).procs = s.procs := rfl
@[simp] theorem modifyPage_alive (a f) : (s.modifyPage a f).alive = s.alive := rfl
@[simp] theorem modifyPage_up (a f) : (s.modifyPage a f).up = s.up := rfl
@[simp] theorem modifyPage_nextpid (a f) : (s.modifyPage a f).nextpid = s.nextpid := rfl
@[simp] theorem modifyPage_lists (a f) : (s.modifyPage a f).lists = s.lists := rfl
@[simp] theorem modifyPage_mem (a f) : (s.modifyPage a f).mem = s.mem := rfl
@[simp] theorem modifyPage_control (a f) : (s.modifyPage a f).control = s.control := rfl
@[simp] theorem modifyPage_image (a f) : (s.modifyPage a f).image = s.image := rfl

end State

end Omb
