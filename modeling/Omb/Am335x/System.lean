import Omb.Am335x.Server
import Omb.Kern.Viewpoint

/-!
# The kernel with proc0 on it

A `System` is the kernel together with the program of its first process.  proc0 runs from one
system call to the next, with what the kernel and it itself have left in its page; everybody
else does what they like, in any order, with ticks in between.

A step of proc0 is one that leaves its page as its program does, and makes the call.  The
steps of the kernel are as in `Omb.Kern.Machine`, so a system call runs up to where it returns,
blocks or hands over, and a tick comes in user code and in the idle loop.

A run of the system is a run of the kernel and one of proc0 (`SystemRun.kernel`,
`SystemRun.server`).  What the kernel is promised there holds by the program of proc0:
processes are made on pages that no other process has (`SystemRun.freshPages`), as long as
proc0 is the only one that makes processes (`ByProc0Only`).  For this the accounts of proc0's
allocator are put beside what the kernel has made processes on.

`Provided` is what the image and the regions have to be for that: the published RAM is not
that of proc0's own pages, and there are three pages for each process.

## Main results

* `SystemRun.kernelRun`, `SystemRun.serverRun`: the two runs
* `SystemRun.freshPages`: proc0 makes processes on fresh pages
* `synchronous_of_system`: the system is one of synchronous calls
* `memory_apart_of_system`: all memory is apart
-/

namespace Omb

open Cover

/-! ## The system -/

structure System where
  kernel : State
  server : Server

/-- What may happen next.  Where proc0 is in its own code it goes on by its program, and in no
other way. -/
inductive SystemAction where
  /-- proc0, which is in its own code, goes on to its next system call and makes it. -/
  | proc0
  /-- Anything else, by another process or by the timer. -/
  | kernel (a : Action)

/-- What has happened in a step, in the kernel and in proc0. -/
inductive SystemEvent where
  | kernel (t : KStep)
  | proc0 (t : ServerStep)

inductive SystemStop where
  | kernel (e : Stuck)
  | proc0 (e : ServerStop)
  /-- The action is not one of the process that is running. -/
  | disabled

/-- The action is one of proc0's program. -/
def Action.ByProc0 (s : State) : Action → Prop
  | .syscall _ | .write _ => s.up = some 0
  | .tick | .resume => False

instance (s : State) : DecidablePred (Action.ByProc0 s) := fun a => by
  cases a <;> unfold Action.ByProc0 <;> infer_instance

/-- proc0 sees its system call return, if the step of the kernel has returned to it. -/
def Server.hear (regions : List Region) (procs : List Word) (x : Server) (evs : List Event) :
    Except ServerStop (Server × List ServerStep) :=
  match returnedTo 0 evs with
  | none => .ok (x, [])
  | some r =>
      match serverStep regions procs x (.ret r) with
      | .error e => .error e
      | .ok (y, cs) => .ok (y, [⟨x, .ret r, cs, y⟩])

/-- A step of the kernel. -/
def kernelStep (regions : List Region) (procs : List Word) (y : System) (a : Action) :
    Except SystemStop (System × List SystemEvent) :=
  match step y.kernel a with
  | .error e => .error (.kernel e)
  | .ok (k, evs) =>
      match y.server.hear regions procs evs with
      | .error e => .error (.proc0 e)
      | .ok (x, ts) => .ok (⟨k, x⟩, .kernel ⟨y.kernel, a, evs, k⟩ :: ts.map .proc0)

/-- proc0 makes a system call with what it has left in its page.  To the kernel these are two
steps. -/
def makeCall (regions : List Region) (procs : List Word) (y : System) (c : ServerCall) :
    Except SystemStop (System × List SystemEvent) :=
  match kernelStep regions procs y (.write c.page) with
  | .error e => .error e
  | .ok (y, evs) =>
      match kernelStep regions procs y (.syscall c.call) with
      | .error e => .error e
      | .ok (y, evs') => .ok (y, evs ++ evs')

/-- One step. -/
def systemStep (regions : List Region) (procs : List Word) (y : System) :
    SystemAction → Except SystemStop (System × List SystemEvent)
  | .proc0 =>
      if y.kernel.up = some 0 ∧ y.kernel.control = .user then
        let page := y.kernel.pageOf 0
        match y.server.run regions procs page with
        | .error e => .error (.proc0 e)
        | .ok (x, c) =>
            match makeCall regions procs ⟨y.kernel, x⟩ c with
            | .error e => .error e
            | .ok (y', evs) => .ok (y', .proc0 ⟨y.server, .run page, [c], x⟩ :: evs)
      else .error .disabled
  | .kernel a => if a.ByProc0 y.kernel then .error .disabled else kernelStep regions procs y a

abbrev SystemStep := Machine.Transition System SystemAction SystemEvent

/-- A run from boot. -/
def SystemRun (img : Image) (regions : List Region) (procs : List Word) (tr : List SystemStep)
    (y : System) : Prop :=
  ∃ pages mem k₀ evs, kmain img pages mem = .ok (k₀, evs) ∧
    Machine.Run (systemStep regions procs) ⟨k₀, .boot⟩ tr y

/-! ## The two runs -/

def SystemEvent.kernelStep : SystemEvent → Option KStep
  | .kernel t => some t
  | .proc0 _ => none

def SystemEvent.serverStep : SystemEvent → Option ServerStep
  | .kernel _ => none
  | .proc0 t => some t

/-- What the kernel does in the run. -/
def kernelSteps (tr : List SystemStep) : List KStep :=
  tr.flatMap fun t => t.events.filterMap SystemEvent.kernelStep

/-- What proc0 does in the run. -/
def serverSteps (tr : List SystemStep) : List ServerStep :=
  tr.flatMap fun t => t.events.filterMap SystemEvent.serverStep

variable {img : Image} {regions : List Region} {procs : List Word} {y y' : System}
  {evs : List SystemEvent} {a : Action} {tr : List SystemStep}

/-- How proc0 takes a step of the kernel. -/
inductive Server.Hears (x : Server) (evs : List Event) : Server → List ServerStep → Prop
  | nothing (h : returnedTo 0 evs = none) : Hears x evs x []
  | returned {r : Word} {place : ServerPlace} (h : returnedTo 0 evs = some r)
      (hafter : Server.after r x.place = some place) :
      Hears x evs { x with place := place } [⟨x, .ret r, [], { x with place := place }⟩]

theorem Server.hears_of_hear {x x' : Server} {evs : List Event} {ts : List ServerStep}
    (h : x.hear regions procs evs = .ok (x', ts)) : x.Hears evs x' ts := by
  rw [hear] at h
  cases hret : returnedTo 0 evs with
  | none =>
      rw [hret] at h
      cases h
      exact .nothing hret
  | some r =>
      rw [hret] at h
      dsimp only at h
      cases hs : serverStep regions procs x (.ret r) with
      | error e =>
          rw [hs] at h
          cases h
      | ok z =>
          rw [hs] at h
          cases h
          rcases serverStep_cases hs with ⟨page, c, hrun, -⟩ | ⟨r', place, hrr, hcs, hafter, hz⟩
          · cases hrun
          · cases hrr
            rw [hcs, hz]
            exact .returned hret hafter

theorem kernelStep_cases (h : kernelStep regions procs y a = .ok (y', evs)) :
    ∃ kevs ts, step y.kernel a = .ok (y'.kernel, kevs) ∧ y.server.Hears kevs y'.server ts ∧
      evs = .kernel ⟨y.kernel, a, kevs, y'.kernel⟩ :: ts.map .proc0 := by
  rw [kernelStep] at h
  split at h
  · cases h
  · rename_i k kevs hstep
    split at h
    · cases h
    · rename_i x ts hhear
      cases h
      exact ⟨kevs, ts, hstep, Server.hears_of_hear hhear, rfl⟩

/-- A system call is a step that writes the page, and a step that enters the kernel. -/
theorem makeCall_cases {c : ServerCall} (hup : y.kernel.up = some 0)
    (hc : y.kernel.control = .user) (h : makeCall regions procs y c = .ok (y', evs)) :
    ∃ k kevs ts, step y.kernel (.write c.page) = .ok (k, []) ∧
      k = y.kernel.modifyPage (y.kernel.procs 0).page (fun _ => c.page) ∧
      step k (.syscall c.call) = .ok (y'.kernel, kevs) ∧ y.server.Hears kevs y'.server ts ∧
      evs = .kernel ⟨y.kernel, .write c.page, [], k⟩ ::
        .kernel ⟨k, .syscall c.call, kevs, y'.kernel⟩ :: ts.map .proc0 := by
  have hwrite : step y.kernel (.write c.page) =
      .ok (y.kernel.modifyPage (y.kernel.procs 0).page (fun _ => c.page), []) := by
    simp only [step, hc, hup]
  rw [makeCall, kernelStep, hwrite] at h
  dsimp only [Server.hear, returnedTo, List.map_nil] at h
  split at h
  · cases h
  · rename_i z evs' hcall
    cases h
    obtain ⟨kevs, ts, hstep, hhears, rfl⟩ := kernelStep_cases hcall
    exact ⟨_, kevs, ts, hwrite, rfl, hstep, hhears, rfl⟩

/-- The ways a step can go.  This is all that is used of `systemStep` below. -/
inductive SystemMove (regions : List Region) (procs : List Word) (y : System) :
    SystemAction → List SystemEvent → System → Prop
  /-- proc0 makes a system call. -/
  | call {x : Server} {c : ServerCall} {k : State} {kevs : List Event} {ts : List ServerStep}
      {y' : System} (hup : y.kernel.up = some 0) (hc : y.kernel.control = .user)
      (hrun : serverStep regions procs y.server (.run (y.kernel.pageOf 0)) = .ok (x, [c]))
      (hmove : ServerMove regions procs y.server (y.kernel.pageOf 0) x c)
      (hwrite : step y.kernel (.write c.page) = .ok (k, []))
      (hk : k = y.kernel.modifyPage (y.kernel.procs 0).page fun _ => c.page)
      (hcall : step k (.syscall c.call) = .ok (y'.kernel, kevs))
      (hhears : x.Hears kevs y'.server ts) :
      SystemMove regions procs y .proc0
        (.proc0 ⟨y.server, .run (y.kernel.pageOf 0), [c], x⟩ ::
          .kernel ⟨y.kernel, .write c.page, [], k⟩ ::
          .kernel ⟨k, .syscall c.call, kevs, y'.kernel⟩ :: ts.map .proc0) y'
  | other {a : Action} {kevs : List Event} {ts : List ServerStep} {y' : System}
      (hother : ¬ a.ByProc0 y.kernel) (hstep : step y.kernel a = .ok (y'.kernel, kevs))
      (hhears : y.server.Hears kevs y'.server ts) :
      SystemMove regions procs y (.kernel a)
        (.kernel ⟨y.kernel, a, kevs, y'.kernel⟩ :: ts.map .proc0) y'

theorem systemStep_move {sa : SystemAction} (h : systemStep regions procs y sa = .ok (y', evs)) :
    SystemMove regions procs y sa evs y' := by
  cases sa with
  | proc0 =>
      rw [systemStep] at h
      split_ifs at h with hrunning
      dsimp only at h
      split at h
      · cases h
      · rename_i x c hrun
        split at h
        · cases h
        · rename_i z evs' hmake
          cases h
          obtain ⟨k, kevs, ts, hwrite, hk, hcall, hhears, rfl⟩ :=
            @makeCall_cases _ _ ⟨y.kernel, x⟩ _ _ _ hrunning.1 hrunning.2 hmake
          refine .call hrunning.1 hrunning.2 ?_ (Server.run_move hrun) hwrite hk hcall hhears
          rw [serverStep, hrun]
          rfl
  | kernel a =>
      rw [systemStep] at h
      split_ifs at h with hother
      obtain ⟨kevs, ts, hstep, hhears, rfl⟩ := kernelStep_cases h
      exact .other hother hstep hhears

theorem kernelSteps_snoc (tr : List SystemStep) (t : SystemStep) :
    kernelSteps (tr ++ [t]) = kernelSteps tr ++ t.events.filterMap SystemEvent.kernelStep := by
  simp [kernelSteps]

theorem serverSteps_snoc (tr : List SystemStep) (t : SystemStep) :
    serverSteps (tr ++ [t]) = serverSteps tr ++ t.events.filterMap SystemEvent.serverStep := by
  simp [serverSteps]

theorem kernelStep_map_proc0 (ts : List ServerStep) :
    (ts.map SystemEvent.proc0).filterMap SystemEvent.kernelStep = [] := by
  simp [List.filterMap_map, Function.comp_def, SystemEvent.kernelStep]

theorem serverStep_map_proc0 (ts : List ServerStep) :
    (ts.map SystemEvent.proc0).filterMap SystemEvent.serverStep = ts := by
  simp [List.filterMap_map, Function.comp_def, SystemEvent.serverStep]

theorem Server.Hears.run {x x' : Server} {evs : List Event} {ts : List ServerStep}
    (h : x.Hears evs x' ts) : Machine.Run (Omb.serverStep regions procs) x ts x' := by
  cases h with
  | nothing => exact .nil
  | returned h hafter =>
      refine Machine.Run.snoc .nil ?_
      rw [serverStep, hafter]

namespace SystemMove

variable {sa : SystemAction}

theorem kernel_run (h : SystemMove regions procs y sa evs y') :
    Machine.Run step y.kernel (evs.filterMap SystemEvent.kernelStep) y'.kernel := by
  cases h with
  | call hup hc hrun hmove hwrite hk hcall hhears =>
      simp only [List.filterMap_cons, SystemEvent.kernelStep, kernelStep_map_proc0]
      exact Machine.Run.snoc (.snoc .nil hwrite) hcall
  | other hother hstep hhears =>
      simp only [List.filterMap_cons, SystemEvent.kernelStep, kernelStep_map_proc0]
      exact Machine.Run.snoc .nil hstep

theorem server_run (h : SystemMove regions procs y sa evs y') :
    Machine.Run (serverStep regions procs) y.server (evs.filterMap SystemEvent.serverStep)
      y'.server := by
  cases h with
  | call hup hc hrun hmove hwrite hk hcall hhears =>
      simp only [List.filterMap_cons, SystemEvent.serverStep, serverStep_map_proc0]
      exact (Machine.Run.snoc .nil hrun).append hhears.run
  | other hother hstep hhears =>
      simp only [List.filterMap_cons, SystemEvent.serverStep, serverStep_map_proc0]
      exact hhears.run

end SystemMove

theorem SystemRun.kernel (h : SystemRun img regions procs tr y) :
    ∃ pages mem k₀ evs, kmain img pages mem = .ok (k₀, evs) ∧
      Machine.Run step k₀ (kernelSteps tr) y.kernel := by
  obtain ⟨pages, mem, k₀, evs, hk, hrun⟩ := h
  refine ⟨pages, mem, k₀, evs, hk, ?_⟩
  induction hrun with
  | nil => exact .nil
  | snoc _ hs ih =>
      rw [kernelSteps_snoc]
      exact ih.append (systemStep_move hs).kernel_run

/-- A run of the system is a run of the kernel, so all that holds of those holds of it. -/
theorem SystemRun.kernelRun (h : SystemRun img regions procs tr y) :
    KernelRun (kernelSteps tr) y.kernel :=
  ⟨img, h.kernel⟩

/-- And one of proc0. -/
theorem SystemRun.serverRun (h : SystemRun img regions procs tr y) :
    ServerRun regions procs (serverSteps tr) y.server := by
  obtain ⟨pages, mem, k₀, evs, hk, hrun⟩ := h
  induction hrun with
  | nil => exact .nil
  | snoc _ hs ih =>
      rw [serverSteps_snoc]
      exact Machine.Run.append ih (systemStep_move hs).server_run

/-! ## The pages of the processes -/

/-- The pages that processes have been made on. -/
def newPages (tr : List KStep) : List Word :=
  tr.flatMap fun t => t.act.newPages

theorem newPages_append (tr tr' : List KStep) :
    newPages (tr ++ tr') = newPages tr ++ newPages tr' :=
  List.flatMap_append

theorem newPages_of_not_creates {a : Action} (h : a.creates = false) : a.newPages = [] := by
  cases a with
  | syscall c => cases c <;> first | rfl | cases h
  | _ => rfl

/-- The page and the space of each of the first `n` processes. -/
def State.homes (s : State) (n : ℕ) : List Word :=
  (firstProcs n).flatMap fun p => [(s.procs p).page, (s.procs p).space]

theorem homes_congr {s s' : State} {n : ℕ} (h : ∀ p : ProcRef, p.val < n →
      (s'.procs p).page = (s.procs p).page ∧ (s'.procs p).space = (s.procs p).space) :
    s'.homes n = s.homes n := by
  refine List.flatMap_congr fun p hp => ?_
  obtain ⟨hpage, hspace⟩ := h p (mem_firstProcs.mp hp)
  rw [hpage, hspace]

/-- **The homes of the processes** are two pages of the image for proc0, and for everybody
else what `proc_create` has been handed, in turn.  Beyond `MAX_PROCS` a slot would have had
others before. -/
theorem homes_of_run {pages : Word → ProcPage} {mem : Mem} {k₀ s : State} {evs : List Event}
    {tr : List KStep} (hk : kmain img pages mem = .ok (k₀, evs))
    (hrun : Machine.Run step k₀ tr s) (hn : created tr ≤ maxProcs) :
    s.homes (created tr) = [img.proc0Page, img.proc0SpacePage] ++ newPages tr := by
  induction hrun with
  | nil =>
      obtain ⟨alive, nexts, hkmain, -⟩ := kmain_spec img pages mem
      rw [hkmain] at hk
      cases hk
      have hfirst : firstProcs (created []) = [0] := firstProcs_succ (by decide)
      rw [State.homes, hfirst]
      simp [bootState, State.switchFrom_eq, State.spawn, freshProc, reset, newPages]
  | @snoc tr s s' a evs' hrun hs ih =>
      rw [created_snoc] at hn ⊢
      have hkrun : KernelRun tr s := ⟨img, pages, mem, k₀, evs, hk, hrun⟩
      obtain ⟨Q, hinv⟩ := hkrun.inv (by omega)
      obtain ⟨hmove, Q', hinv'⟩ := step_move hinv (fun hcreates => by
        rw [hcreates, Bool.toNat_true] at hn
        omega) hs
      rw [newPages_append, ← List.append_assoc, ← ih (by omega)]
      cases hcreates : a.creates with
      | false =>
          rw [Bool.toNat_false, Nat.add_zero]
          have hnone : newPages [⟨s, a, evs', s'⟩] = [] := by
            simp [newPages, newPages_of_not_creates hcreates]
          rw [hnone, List.append_nil]
          exact homes_congr fun p _ => ⟨hmove.page_eq hcreates p, hmove.space_eq hcreates p⟩
      | true =>
          cases hmove with
          | quiet _ _ hc | receive _ hc | start _ hc | park _ hc => simp [hcreates] at hc
          | write | preempt | send | reply | replyRecv | resumed =>
              simp [Action.creates] at hcreates
          | @create u page spacePage mem alive nexts hup hc hdead =>
              have hlt : created tr < maxProcs := by
                rw [hcreates, Bool.toNat_true] at hn
                omega
              have hnext : s.nextpid = ⟨created tr, hlt⟩ := by
                have hmod := hinv.table.nextpid
                rw [Nat.mod_eq_of_lt hlt] at hmod
                exact Fin.ext hmod
              rw [Bool.toNat_true, State.homes, firstProcs_succ hlt, List.flatMap_append]
              congr 1
              · refine homes_congr fun p hp => ?_
                have hne : p ≠ s.nextpid := by
                  rw [hnext]
                  exact fun heq => absurd (congrArg Fin.val heq) (ne_of_lt hp)
                simp [State.spawn, hne]
              · simp [State.spawn, freshProc, newPages, Action.newPages, hnext]

/-- **Processes are made on fresh pages** if no page is handed to `proc_create` twice. -/
theorem freshPages_of_nodup {pages : Word → ProcPage} {mem : Mem} {k₀ s : State}
    {evs : List Event} {tr : List KStep} (hk : kmain img pages mem = .ok (k₀, evs))
    (hrun : Machine.Run step k₀ tr s) (hn : created tr ≤ maxProcs)
    (hnodup : ([img.proc0Page, img.proc0SpacePage] ++ newPages tr).Nodup) :
    ∀ t ∈ tr, FreshPages t := by
  refine hrun.forall_transition fun tr' s a s' evs' hrun' hpre _ p hp hmem => ?_
  obtain ⟨rest, rfl⟩ := hpre
  have hle : created tr' ≤ maxProcs := by
    simp only [created, List.append_assoc, List.countP_append] at hn ⊢
    omega
  obtain ⟨Q, hinv⟩ := KernelRun.inv ⟨img, pages, mem, k₀, evs, hk, hrun'⟩ hle
  -- the page of a process is one of the homes so far
  have hold : (s.procs p).page ∈ [img.proc0Page, img.proc0SpacePage] ++ newPages tr' := by
    rw [← homes_of_run hk hrun' hle]
    refine List.mem_flatMap.mpr ⟨p, mem_firstProcs.mpr (hinv.table.lt_of_ne_dead hp), ?_⟩
    exact List.mem_cons_self
  have hnew : newPages [⟨s, a, evs', s'⟩] = a.newPages := List.flatMap_singleton ..
  rw [newPages_append, newPages_append, hnew, ← List.append_assoc, ← List.append_assoc] at hnodup
  exact (List.nodup_append.mp (List.nodup_append.mp hnodup).1).2.2 _ hold _ hmem rfl

/-! ## Processes are made by proc0 -/

/-- No process but proc0 makes others.  The kernel would let any of them. -/
def ByProc0Only (t : SystemStep) : Prop :=
  match t.act with
  | .proc0 => True
  | .kernel a => a.creates = false

theorem length_newPages (tr : List KStep) : (newPages tr).length = 2 * (created tr - 1) := by
  induction tr with
  | nil => rfl
  | cons t tr ih =>
      have hpages : newPages (t :: tr) = t.act.newPages ++ newPages tr := List.flatMap_cons
      have hlen : t.act.newPages.length = 2 * t.act.creates.toNat := by
        cases t.act with
        | syscall c => cases c <;> rfl
        | _ => rfl
      rw [hpages, List.length_append, ih, hlen, created, created, List.countP_cons]
      cases t.act.creates <;> simp
      omega

theorem SystemMove.newPages_eq {sa : SystemAction} (h : SystemMove regions procs y sa evs y')
    (honly : ByProc0Only ⟨y, sa, evs, y'⟩) :
    newPages (evs.filterMap SystemEvent.kernelStep) =
      serverNewPages (evs.filterMap SystemEvent.serverStep) := by
  have hhears : ∀ {x x' : Server} {evs : List Event} {ts : List ServerStep},
      x.Hears evs x' ts → serverNewPages ts = [] := by
    rintro x x' evs ts (_ | _) <;> rfl
  cases h with
  | @call x c k kevs ts y' hup hc hrun hmove hwrite hk hcall hh =>
      simp only [List.filterMap_cons, SystemEvent.kernelStep, SystemEvent.serverStep,
        kernelStep_map_proc0, serverStep_map_proc0]
      have hcons : ∀ t : ServerStep, serverNewPages (t :: ts) =
          t.events.flatMap (fun c => (Action.syscall c.call).newPages) ++ serverNewPages ts :=
        fun _ => List.flatMap_cons
      rw [hcons, hhears hh]
      simp only [newPages, List.flatMap_cons, List.flatMap_nil, List.append_nil]
      rfl
  | @other a kevs ts y' hother hstep hh =>
      simp only [List.filterMap_cons, SystemEvent.kernelStep, SystemEvent.serverStep,
        kernelStep_map_proc0, serverStep_map_proc0, hhears hh]
      simp [newPages, newPages_of_not_creates honly]

/-- What the kernel makes processes on is what proc0 has taken for it. -/
theorem SystemRun.newPages_eq (h : SystemRun img regions procs tr y)
    (honly : ∀ t ∈ tr, ByProc0Only t) :
    newPages (kernelSteps tr) = serverNewPages (serverSteps tr) := by
  obtain ⟨pages, mem, k₀, evs, hk, hrun⟩ := h
  induction hrun with
  | nil => rfl
  | snoc _ hs ih =>
      rw [List.forall_mem_append, List.forall_mem_singleton] at honly
      have hnew : ∀ tr tr' : List ServerStep,
          serverNewPages (tr ++ tr') = serverNewPages tr ++ serverNewPages tr' :=
        fun _ _ => List.flatMap_append
      rw [kernelSteps_snoc, serverSteps_snoc, newPages_append, hnew, ih honly.1,
        (systemStep_move hs).newPages_eq honly.2]

/-- What the linker and the kernel promise to proc0: the RAM that is published is not that of
proc0 itself, and suffices for three pages for each process; and there is a slot for each. -/
structure Provided (img : Image) (regions : List Region) (procs : List Word) : Prop where
  published : RamPublished regions
  own : (addresses img.proc0Page pageSize).Apart (addresses img.proc0SpacePage pageSize)
  apart : ∀ r ∈ regions, r.type = .ram →
    (addresses img.proc0Page pageSize).Apart r.extent ∧
      (addresses img.proc0SpacePage pageSize).Apart r.extent
  pages : ∀ st, initSections regions = some st → 3 * procs.length ≤ freePages st
  slots : procs.length < maxProcs

namespace SystemRun

variable (h : SystemRun img regions procs tr y) (hprovided : Provided img regions procs)
  (honly : ∀ t ∈ tr, ByProc0Only t)

include h hprovided honly

theorem created_le : created (kernelSteps tr) ≤ maxProcs := by
  have hlen := length_newPages (kernelSteps tr)
  rw [h.newPages_eq honly] at hlen
  have hle := h.serverRun.length_newPages_le
  have hslots := hprovided.slots
  omega

/-- The homes of all processes and the RAM of the clients. -/
theorem homes_apart :
    ((([img.proc0Page, img.proc0SpacePage] ++ newPages (kernelSteps tr)).map pageGrant ++
      clientRam (serverSteps tr)).map Grant.extent).Pairwise Extent.Apart := by
  obtain ⟨hapart, hram⟩ := h.serverRun.apart hprovided.pages hprovided.published
  rw [h.newPages_eq honly]
  have hout : ∀ a : Word, (∀ r ∈ regions, r.type = .ram →
        (addresses a pageSize).Apart r.extent) →
      ∀ e ∈ ((serverNewPages (serverSteps tr)).map pageGrant ++
        clientRam (serverSteps tr)).map Grant.extent, (pageGrant a).extent.Apart e := by
    rintro a ha e he z ⟨hz, hze⟩
    obtain ⟨g, hg, rfl⟩ := List.mem_map.mp he
    obtain ⟨-, -, r, hr, htype, -, hwithin, -, -⟩ := hram g hg
    exact ha r hr htype z ⟨hz, hwithin z hze⟩
  change ((pageGrant img.proc0Page).extent :: (pageGrant img.proc0SpacePage).extent ::
    ((serverNewPages (serverSteps tr)).map pageGrant ++
      clientRam (serverSteps tr)).map Grant.extent).Pairwise Extent.Apart
  refine List.pairwise_cons.mpr ⟨?_, List.pairwise_cons.mpr ⟨?_, hapart⟩⟩
  · intro e he
    rcases List.mem_cons.mp he with rfl | he
    · exact hprovided.own
    · exact hout _ (fun r hr htype => (hprovided.apart r hr htype).1) e he
  · exact hout _ fun r hr htype => (hprovided.apart r hr htype).2

/-- **proc0 makes processes on fresh pages.**  They have been taken for it, and what is taken
is apart. -/
theorem freshPages : ∀ t ∈ kernelSteps tr, FreshPages t := by
  obtain ⟨pages, mem, k₀, evs, hk, hrun⟩ := h.kernel
  refine freshPages_of_nodup hk hrun (h.created_le hprovided honly) ?_
  have hapart := h.homes_apart hprovided honly
  rw [List.map_append] at hapart
  have hhomes := (List.pairwise_append.mp hapart).1
  rw [List.map_map, List.pairwise_map] at hhomes
  refine hhomes.imp fun hab heq => ?_
  subst heq
  exact hab _ ⟨⟨le_refl _, by simp [pageGrant, Grant.extent, addresses]⟩,
    ⟨le_refl _, by simp [pageGrant, Grant.extent, addresses]⟩⟩

end SystemRun

/-- What is in the image of the kernel is not RAM that it publishes, so `Provided` asks for
nothing that the linker does not do. -/
theorem image_apart (l : LinkerSymbols) {a : Word} (hlo : l.kernelStart.toNat ≤ a.toNat)
    (hhi : a.toNat + 4096 ≤ l.kernelEnd.toNat) {r : Region} (hr : r ∈ publishedRegions l)
    (htype : r.type = .ram) : (addresses a pageSize).Apart r.extent := by
  have hstart := l.ramStart_lt
  have hend := l.kernelEnd_lt
  rw [BitVec.lt_def] at hstart hend
  have hlow : (l.kernelStart - l.ramStart).toNat = l.kernelStart.toNat - l.ramStart.toNat :=
    BitVec.toNat_sub_of_le (BitVec.le_of_lt l.ramStart_lt)
  have hpage : (pageSize : Word).toNat = 4096 := rfl
  simp only [publishedRegions, List.mem_cons, List.not_mem_nil, or_false] at hr
  rcases hr with rfl | rfl | rfl | rfl | rfl | rfl | rfl | rfl | rfl | rfl | rfl
  · refine .of_le (.inr ?_)
    simp only [Region.extent, addresses, hlow]
    omega
  · refine .of_le (.inl ?_)
    simp only [Region.extent, addresses, hpage]
    omega
  all_goals cases htype

/-- The image of the board, with the pages of proc0 in the kernel. -/
def exampleImage : Image where
  proc0Page := 0x82001000
  proc0StackPage := 0x82002000
  proc0SpacePage := 0x82003000
  proc0TextStart := 0x82004000
  kernelPage := 0x82005000

theorem provided_exampleImage :
    Provided exampleImage (publishedRegions exampleSymbols) [0x100] where
  published := ramPublished_publishedRegions exampleSymbols
  own := .of_le (.inl (by decide))
  apart r hr htype := ⟨image_apart exampleSymbols (by decide) (by decide) hr htype,
    image_apart exampleSymbols (by decide) (by decide) hr htype⟩
  pages st hst := by
    have hall : (initSections (publishedRegions exampleSymbols)).all
        (fun st => 3 ≤ freePages st) = true := by decide +kernel
    rw [hst] at hall
    exact of_decide_eq_true hall
  slots := by decide

/-- Boot of that image, and the given actions. -/
def exampleSystem (acts : List SystemAction) : Option (List SystemStep × System) :=
  match kmain exampleImage (fun _ => .zero) (fun _ => 0) with
  | .error _ => none
  | .ok (k, _) =>
      match Machine.replay (systemStep (publishedRegions exampleSymbols) [0x100]) ⟨k, .boot⟩
          acts with
      | .error _ => none
      | .ok r => some r

instance (t : SystemStep) : Decidable (ByProc0Only t) := by
  unfold ByProc0Only
  split <;> infer_instance

/-- A concrete run found by evaluation. -/
theorem exists_exampleSystem (acts : List SystemAction) (P : List SystemStep → System → Bool)
    (h : (exampleSystem acts).any (fun r => P r.1 r.2) = true) :
    ∃ tr y, SystemRun exampleImage (publishedRegions exampleSymbols) [0x100] tr y ∧
      P tr y = true := by
  rw [exampleSystem] at h
  split at h
  · cases h
  · rename_i k evs hk
    split at h
    · cases h
    · rename_i r hr
      exact ⟨r.1, r.2, ⟨_, _, k, evs, hk, .of_replay hr⟩, h⟩

/-- **The system is one of synchronous calls**, with nothing promised about the pages that
processes are made on.  `honly` is what is left of that: another process could hand the kernel
a page in use. -/
theorem synchronous_of_system (h : SystemRun img regions procs tr y)
    (hprovided : Provided img regions procs) (honly : ∀ t ∈ tr, ByProc0Only t) :
    (∀ t ∈ kernelSteps tr, FreshPages t) ∧
      SyncCall.Runs bootCalls (calls (kernelSteps tr)) y.kernel.call := by
  have hfresh := h.freshPages hprovided honly
  exact ⟨hfresh, h.kernelRun.refines (h.created_le hprovided honly) hfresh⟩

/-- proc0 makes a process and sends to it. -/
theorem synchronous_of_first_process :
    ∃ tr y, SystemRun exampleImage (publishedRegions exampleSymbols) [0x100] tr y ∧
      newPages (kernelSteps tr) = [0x81ffe000, 0x81ffd000] ∧
      (∀ t ∈ kernelSteps tr, FreshPages t) ∧
      SyncCall.Runs bootCalls (calls (kernelSteps tr)) y.kernel.call := by
  obtain ⟨tr, y, hrun, h⟩ := exists_exampleSystem
    [.kernel .resume, .proc0, .proc0, .proc0, .proc0]
    (fun tr _ => (∀ t ∈ tr, ByProc0Only t) ∧
      newPages (kernelSteps tr) = [0x81ffe000, 0x81ffd000]) (by decide +kernel)
  obtain ⟨honly, hpages⟩ := of_decide_eq_true h
  exact ⟨tr, y, hrun, hpages, synchronous_of_system hrun provided_exampleImage honly⟩

/-- **All memory is apart**: the pages of the processes, their address spaces, and the RAM
that proc0 has found for clients, whether the kernel then moves it or not. -/
theorem memory_apart_of_system (h : SystemRun img regions procs tr y)
    (hprovided : Provided img regions procs) (honly : ∀ t ∈ tr, ByProc0Only t) :
    (((y.kernel.homes (created (kernelSteps tr))).map pageGrant ++
      clientRam (serverSteps tr)).map Grant.extent).Pairwise Extent.Apart := by
  obtain ⟨pages, mem, k₀, evs, hk, hrun⟩ := h.kernel
  rw [homes_of_run hk hrun (h.created_le hprovided honly)]
  exact h.homes_apart hprovided honly

/-- The process asks for RAM. -/
theorem memory_apart_of_first_request :
    ∃ tr y, SystemRun exampleImage (publishedRegions exampleSymbols) [0x100] tr y ∧
      clientRam (serverSteps tr) = [⟨.ram, 0x81ffa000, 0x2000⟩] ∧
      (((y.kernel.homes (created (kernelSteps tr))).map pageGrant ++
        clientRam (serverSteps tr)).map Grant.extent).Pairwise Extent.Apart := by
  let request : ProcPage :=
    { ProcPage.zero with mOut := ProcPage.zero.mOut.store 8 (intBytes 0x1234) }
  obtain ⟨tr, y, hrun, h⟩ := exists_exampleSystem
    [.kernel .resume, .proc0, .proc0, .proc0, .proc0, .kernel .resume, .kernel .resume, .proc0,
      .kernel .resume, .kernel (.write request), .kernel (.syscall (.send 0)), .kernel .resume,
      .proc0]
    (fun tr _ => (∀ t ∈ tr, ByProc0Only t) ∧
      clientRam (serverSteps tr) = [⟨.ram, 0x81ffa000, 0x2000⟩]) (by decide +kernel)
  obtain ⟨honly, hram⟩ := of_decide_eq_true h
  exact ⟨tr, y, hrun, hram, memory_apart_of_system hrun provided_exampleImage honly⟩

end Omb
