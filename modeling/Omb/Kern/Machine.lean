import Omb.Kern.Sys
import Omb.Lib.Run

/-!
# The kernel as a machine

One step is a stretch of kernel code that no other process and no interrupt breaks up: from a
trap out of user code, from the `goto_label` at the end of `schedule`, or from a timer tick in
the idle loop, up to the return to user code or to the next context switch.  Between traps the
running process may write anything into its own page.

`step` is that step function, `kmain` the boot that precedes the first one, and `KernelRun` a
run from boot.  Which action comes next is up to the run, so what is proved of all runs holds
for any user code and for any times of the ticks.

System calls run with interrupts masked, so they are atomic up to their next call of
`schedule`, and what goes on behind it is another such stretch.  `proc_start` is taken to be
atomic in the same way here, though interrupts are enabled in it: `Omb.Kern.Preempt` and
`Omb.Kern.Context` break it up, and show what a tick in it does.  Ticks come in user code and
in the idle loop otherwise.

## Main definitions

* `Action`: what may come next: a system call, a write to its page by the running process, a
  tick, or the end of a switch
* `step`: what the kernel does then
* `KernelRun`: runs from boot, whatever is in memory at first
* `exampleRun`: a boot and given actions, to evaluate
-/

namespace Omb

/-- The system calls, with the arguments user code passes in. -/
inductive Syscall where
  | getProcPage
  | getKernelPage
  | send (pid : Word)
  | recv (pid : Word)
  | reply (pid ret : Word)
  | replyRecv (pid ret rpid : Word)
  | procCreate (page spacePage : Word)
  | addrOffer (pid start len flags : Word)
  | addrAccept (pid start len flags : Word)

/-- What may happen next.  Each is possible in some controls of the kernel only, and `step`
says `disabled` in the others. -/
inductive Action where
  /-- The running process makes a system call. -/
  | syscall (c : Syscall)
  /-- The running process writes its own page. -/
  | write (page : ProcPage)
  /-- The timer interrupts user code or the idle loop. -/
  | tick
  /-- The process just switched to goes on from its label. -/
  | resume

/-- The system call handlers of `systab`.  The `get_page` of the source returns nil whenever
it is called, which is an empty supply of pages. -/
def syscall (s : State) (u : ProcRef) : Syscall → Except Stuck Out
  | .getProcPage => .ok (returnToUser u (s.procs u).page (s, []))
  | .getKernelPage => .ok (returnToUser u s.image.kernelPage (s, []))
  | .send pid => sysSend s u pid
  | .recv pid => sysRecv s u pid
  | .reply pid ret => sysReply s u pid ret
  | .replyRecv pid ret rpid => sysReplyRecv s u pid ret rpid
  | .procCreate page spacePage => sysProcCreate s u page spacePage
  | .addrOffer pid start len flags => sysAddrOffer s u pid start len flags
  | .addrAccept pid start len flags => sysAddrAccept s u pid start len flags []

/-! ## Going on from a label -/

/-- `drop_to_user` with the given `pc` and `sp`. -/
def dropToUser (u : ProcRef) (pc sp : Word) (out : Out) : Out :=
  ({ out.1 with control := .user }, out.2 ++ [.dropped u pc sp])

/-- `proc_start` from the return of `krecv` on: take `pc` and `sp` out of the
request of `w`, reply, drop to user code. -/
def procStartReply (u w : ProcRef) (out : Out) : Except Stuck Out :=
  let req := (out.1.pageOf u).mIn
  let pc := req.field 1
  let sp := req.field 2
  match kreply out.1 u w ok (.procStart pc sp) with
  | .error e => .error e
  | .ok (.ret _ (s, evs)) => .ok (dropToUser u pc sp (s, out.2 ++ evs))
  | .ok (.switched (s, evs)) => .ok (s, out.2 ++ evs)

/-- `proc_start`, from a turn of the loop in its `krecv(pid)` on.  It comes to an end in user
code if there is a sender, and in `schedule` otherwise. -/
def procStart (s : State) (u : ProcRef) (pid : Word) : Except Stuck Out :=
  match krecv s u pid .procStart with
  | .error e => .error e
  | .ok (.ret w out) => procStartReply u w out
  | .ok (.switched out) => .ok out

/-- What the code saved in `u`'s label does next: the rest of the kernel function that has
called `schedule`, up to user code or to the next switch. -/
def resume (s : State) (u : ProcRef) : Label → Except Stuck Out
  | .unset => .error .unsetLabel
  | .procStart => procStart s u pidAll
  | .proc0Start =>
      .ok (dropToUser u s.image.proc0TextStart (s.image.proc0StackPage + pageSize) (s, []))
  | .trap => .ok ({ s with control := .user }, [])
  | .ksend =>
      let ret := (s.pageOf u).mRet
      .ok (returnToUser u ret (s, [.resumed u ret]))
  | .krecv pid .sysRecv => recvToUser s u pid
  | .krecv pid .procStart => procStart s u pid
  | .kreply .sysReply => .ok (returnToUser u ok (s, []))
  | .kreply (.procStart pc sp) => .ok (dropToUser u pc sp (s, []))
  | .kreplyRecv pid => recvToUser s u pid

/-- One step.  A tick is `schedule(nil)` on top of whatever was interrupted, which goes on at
`trap`. -/
def step (s : State) (a : Action) : Except Stuck Out :=
  match s.control, s.up, a with
  | .user, some u, .syscall c => syscall s u c
  | .user, some u, .write page => .ok (s.modifyPage (s.procs u).page fun _ => page, [])
  | .user, some _, .tick => schedule s .trap none
  | .idle, none, .tick => schedule s .trap none
  | .resume, some u, .resume => resume s u (s.procs u).label
  | _, _, _ => .error .disabled

/-! ## Boot -/

/-- The kernel's variables at reset: the table, the pool and the pointers are
zero. -/
def reset (img : Image) (pages : Word → ProcPage) (mem : Mem) : State where
  procs := fun _ => .zero
  alive := none
  up := none
  nextpid := 0
  lists := fun _ => { proc := none, next := none }
  pages := pages
  mem := mem
  control := .idle
  image := img

/-- `init_proc0`.  Its space is cleared, and its label is set to go straight to user code,
with no `proc_start` to wait in. -/
def initProc0 (s : State) : Except Stuck (ProcRef × State) :=
  let s := { s with mem := memsetPage s.mem s.image.proc0SpacePage }
  match procNew s s.image.proc0SpacePage s.image.proc0Page with
  | .error e => .error e
  | .ok (p, s) => .ok (p, s.modifyProc p fun q => { q with label := .proc0Start })

/-- `kmain`, up to the first `goto_label`. -/
def kmain (img : Image) (pages : Word → ProcPage) (mem : Mem) : Except Stuck Out :=
  match initProc0 (reset img pages mem) with
  | .error e => .error e
  | .ok (p0, s) => schedule s .unset (some p0)

/-- A step taken in a run of the kernel. -/
abbrev KStep := Machine.Transition State Action Event

/-- A run of the kernel from boot.  The linker's addresses and what is in memory before are
arbitrary. -/
def KernelRun (tr : List KStep) (s : State) : Prop :=
  ∃ img pages mem s₀ evs, kmain img pages mem = .ok (s₀, evs) ∧
    Machine.Run step s₀ tr s

/-- Boot, then the given actions. -/
def bootRun (img : Image) (pages : Word → ProcPage) (mem : Mem) (acts : List Action) :
    Except Stuck (List KStep × State) :=
  match kmain img pages mem with
  | .error e => .error e
  | .ok (s, _) => Machine.replay step s acts

theorem KernelRun.of_bootRun {img : Image} {pages : Word → ProcPage} {mem : Mem}
    {acts : List Action} {tr : List KStep} {s : State}
    (h : bootRun img pages mem acts = .ok (tr, s)) : KernelRun tr s := by
  unfold bootRun at h
  split at h
  · cases h
  · rename_i s₀ evs hk
    exact ⟨img, pages, mem, s₀, evs, hk, .of_replay h⟩

/-- A boot with zeroed memory, to start concrete runs from. -/
def exampleRun (acts : List Action) : Except Stuck (List KStep × State) :=
  bootRun
    { proc0Page := 0x1000
      proc0StackPage := 0x2000
      proc0SpacePage := 0x3000
      proc0TextStart := 0x4000
      kernelPage := 0x5000 }
    (fun _ => .zero) (fun _ => 0) acts

/-- A concrete run found by evaluation.  `P` is decided together with the run, so that the
states in it need not be written down. -/
theorem exists_exampleRun (acts : List Action) (P : List KStep → State → Bool)
    (h : (match exampleRun acts with
      | .ok (tr, s) => P tr s
      | .error _ => false) = true) :
    ∃ tr s, exampleRun acts = .ok (tr, s) ∧ P tr s = true := by
  split at h
  · rename_i tr s hrun
    exact ⟨tr, s, hrun, h⟩
  · cases h

/-- That boot is one of `kmain`. -/
theorem kmain_of_exampleRun {tr : List KStep} {s : State} (h : exampleRun [] = .ok (tr, s)) :
    ∃ img pages mem evs, kmain img pages mem = .ok (s, evs) := by
  unfold exampleRun bootRun at h
  split at h
  · cases h
  · rename_i s₀ evs hk
    cases h
    exact ⟨_, _, _, evs, hk⟩

theorem acts_of_exampleRun {acts : List Action} {tr : List KStep} {s : State}
    (h : exampleRun acts = .ok (tr, s)) : tr.map (fun t => t.act) = acts := by
  unfold exampleRun bootRun at h
  split at h
  · cases h
  · exact Machine.map_act_of_replay h

theorem KernelRun.snoc {tr : List KStep} {s s' : State} {a : Action} {evs : List Event}
    (h : KernelRun tr s) (hs : step s a = .ok (s', evs)) :
    KernelRun (tr ++ [⟨s, a, evs, s'⟩]) s' := by
  obtain ⟨img, pages, mem, s₀, evs₀, hk, hrun⟩ := h
  exact ⟨img, pages, mem, s₀, evs₀, hk, .snoc hrun hs⟩

/-- The action makes a process. -/
def Action.creates : Action → Bool
  | .syscall (.procCreate _ _) => true
  | _ => false

/-- The number of processes made up to the end of a run, `proc0` included.  Where it is above
`MAX_PROCS` slots have been used twice. -/
def created (tr : List KStep) : ℕ :=
  1 + tr.countP fun t => t.act.creates

end Omb
