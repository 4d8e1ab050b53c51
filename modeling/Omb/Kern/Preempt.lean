import Omb.Kern.Stretch

/-!
# The first receive of a process, with ticks inside

`proc_new` has `func_label` build the label of a new process, with interrupts enabled, so
`proc_start` and the `krecv` it calls may be interrupted between any two steps.  Here
that `krecv` is taken apart: it looks at the waiting list, sets `PROC_recv` and calls
`schedule`, and a tick may come before each of them (`fineStep`).  The rest of the kernel
runs with interrupts disabled and goes on in the steps of `Omb.Kern.Machine`.

When a tick comes after the look at the list, and a message after the tick, the process
still goes to sleep in `PROC_recv` (`missed_init`).  In runs in which `PROC_recv` is only set
with nobody in the list it does not (`no_missed_init`).  That condition is all there is to it:
nothing is asked of the number of processes, nor of who sends what to whom.

With no tick inside, the three steps are one turn of the `krecv` of the other modules
(`pointSteps_eq_procStart`).

## Main results

* `pointSteps_eq_procStart`: the steps taken together
* `FirstReceives.step`: what a step keeps, where `PROC_recv` is set with nobody in the list
* `no_missed_init`: the same over runs
* `missed_init`: a run with a tick in between
-/

namespace Omb

/-! ## The machine -/

/-- Where `proc_start` is in its `krecv`: before it looks at the list, before it sets
`PROC_recv`, and before it calls `schedule`. -/
inductive Point where
  /-- At the call of `proc_list_remove`. -/
  | remove
  /-- Where that call has returned nil. -/
  | setRecv
  /-- Where the state is `PROC_recv`, at the call of `schedule`. -/
  | callSchedule
  deriving DecidableEq

/-- The kernel, where the running process is in its first receive, and for each process
what the tick interrupted that it was last suspended by. -/
structure Fine where
  kernel : State
  point : Option Point
  under : ProcRef → Option Point

/-- The next step of the running process in its first receive.  The last one saves a label of
the ordinary machine, and the process goes on there when it is switched to. -/
def pointStep (x : Fine) (u : ProcRef) : Point → Except Stuck (Fine × List Event)
  | .remove =>
      match procListRemove x.kernel u pidAll with
      | .error e => .error e
      | .ok none => .ok ({ x with point := some .setRecv }, [])
      | .ok (some _) =>
          match procStart x.kernel u pidAll with
          | .error e => .error e
          | .ok (s, evs) => .ok ({ x with kernel := s, point := none }, evs)
  | .setRecv =>
      .ok ({ x with
        kernel := x.kernel.modifyProc u fun q => { q with state := .recv }
        point := some .callSchedule }, [])
  | .callSchedule =>
      match schedule x.kernel (.krecv pidAll .procStart) none with
      | .error e => .error e
      | .ok (s, evs) => .ok ({ x with kernel := s, point := none }, evs)

/-- A tick that interrupts the process `u` at `pt`, or in user code. -/
def interrupt (x : Fine) (u : ProcRef) (pt : Option Point) : Except Stuck (Fine × List Event) :=
  match schedule x.kernel .trap none with
  | .error e => .error e
  | .ok (s, evs) =>
      .ok ({ kernel := s, point := none, under := Function.update x.under u pt }, evs)

/-- Where the label of `u` leads, when that is into its first receive. -/
def Fine.resumePoint (x : Fine) (u : ProcRef) : Option Point :=
  if (x.kernel.procs u).label.FirstReceive then some .remove
  else if (x.kernel.procs u).label = .trap then x.under u
  else none

/-- A step as in `Omb.Kern.Machine`. -/
def coarseStep (x : Fine) (a : Action) : Except Stuck (Fine × List Event) :=
  match step x.kernel a with
  | .error e => .error e
  | .ok (s, evs) => .ok ({ x with kernel := s }, evs)

/-- One step: of a first receive if the running process is in one, and of `Omb.Kern.Machine`
otherwise. -/
def fineStep (x : Fine) (a : Action) : Except Stuck (Fine × List Event) :=
  match x.point, x.kernel.control, x.kernel.up, a with
  | some pt, _, some u, .resume => pointStep x u pt
  | some pt, _, some u, .tick => interrupt x u (some pt)
  | some _, _, _, _ => .error .disabled
  | none, .user, some u, .tick => interrupt x u none
  | none, .resume, some u, .resume =>
      match x.resumePoint u with
      | some pt => .ok ({ x with point := some pt }, [])
      | none => coarseStep x .resume
  | none, _, _, a => coarseStep x a

/-- A run of it from boot. -/
def FineRun (tr : List (Machine.Transition Fine Action Event)) (x : Fine) : Prop :=
  ∃ img pages mem s₀ evs, kmain img pages mem = .ok (s₀, evs) ∧
    Machine.Run fineStep ⟨s₀, none, fun _ => none⟩ tr x

/-- **Without a tick inside**, the steps of a first receive that finds nobody are one turn
of `krecv`. -/
theorem pointSteps_eq_procStart {x : Fine} {u : ProcRef}
    (hnone : procListRemove x.kernel u pidAll = .ok none) :
    ∃ x₁ x₂, pointStep x u .remove = .ok (x₁, []) ∧ x₁.point = some .setRecv ∧
      pointStep x₁ u .setRecv = .ok (x₂, []) ∧ x₂.point = some .callSchedule ∧
      pointStep x₂ u .callSchedule = (procStart x.kernel u pidAll).map fun out =>
        ({ x with kernel := out.1, point := none }, out.2) := by
  refine ⟨{ x with point := some .setRecv },
    { x with
      kernel := x.kernel.modifyProc u fun q => { q with state := .recv }
      point := some .callSchedule }, ?_, rfl, rfl, rfl, ?_⟩
  · simp only [pointStep, hnone]
  · simp only [pointStep, procStart, krecv, hnone, Flow.schedule]
    cases schedule (x.kernel.modifyProc u fun q => { q with state := .recv })
      (.krecv pidAll .procStart) none <;> rfl

/-! ## The invariant -/

/-- The suspended process `p` has not received its first message. -/
def Fine.InFirst (x : Fine) (p : ProcRef) : Prop :=
  (x.kernel.procs p).label.FirstReceive ∨
    ((x.kernel.procs p).label = .trap ∧ x.under p ≠ none)

/-- Who sleeps in its first receive has nobody waiting for it.  Who has been interrupted on
the way to sleep, with `PROC_recv` set, has nobody waiting either. -/
structure FirstReceives (x : Fine) : Prop where
  suspended : ∀ p, x.kernel.up ≠ some p → x.InFirst p →
    (x.kernel.procs p).state = .recv → (x.kernel.procs p).waiting = none
  running : ∀ pt, x.point = some pt → ∃ u, x.kernel.up = some u ∧
    ((x.kernel.procs u).state = .recv →
      pt = .callSchedule ∧ (x.kernel.procs u).waiting = none)
  resumed : x.point = none → x.kernel.control = .resume →
    ∃ q, x.kernel.up = some q ∧ (x.kernel.procs q).state = .oncpu

/-- The step does not set `PROC_recv` when somebody is waiting.  Without a tick after the look
at the list it never does. -/
def SetsRecvUnsent (t : Machine.Transition Fine Action Event) : Prop :=
  t.pre.point = some .setRecv → t.act = .resume →
    ∀ u, t.pre.kernel.up = some u → (t.pre.kernel.procs u).waiting = none

variable {x x' : Fine} {s' : State} {u : ProcRef} {evs : List Event}

/-- The others keep the invariant over a stretch; the process it suspends has to be looked
at. -/
theorem FirstReceives.stretch (h : FirstReceives x) {K : Label → Prop}
    {m : Option ProcRef} (hst : Stretch K m x.kernel s') {under : ProcRef → Option Point}
    (hunder : ∀ p, x.kernel.up ≠ some p → under p = x.under p)
    (hself : ∀ u, x.kernel.up = some u → s'.up ≠ some u → K (s'.procs u).label →
      Fine.InFirst ⟨s', none, under⟩ u → (s'.procs u).state = .recv →
      (s'.procs u).waiting = none) :
    FirstReceives ⟨s', none, under⟩ := by
  refine ⟨fun p hp hfirst hrecv => ?_, fun pt hpt => (by cases hpt), fun _ hc => hst.resumed hc⟩
  by_cases hup : x.kernel.up = some p
  · have hc : s'.control ≠ .user := fun hc => hp ((hst.user hc).trans hup)
    exact hself p hup hp (hst.suspended p hup hc) hfirst hrecv
  · by_cases hm : m = some p
    · rw [(hst.made p hm).1.state] at hrecv
      cases hrecv
    · have hquiet := hst.others p hup hp hm
      obtain ⟨hrecv', hwaiting⟩ := hquiet.recv hrecv
      have hfirst' : x.InFirst p := by
        rcases hfirst with hlabel | ⟨hlabel, hne⟩
        · exact .inl (by rwa [← hquiet.label])
        · exact .inr ⟨by rwa [← hquiet.label], by rwa [← hunder p hup]⟩
      rw [hwaiting]
      exact h.suspended p hup hfirst' hrecv'

/-- A label of a system call is not in a first receive. -/
theorem Label.OfCall.not_first {k : Label} (h : k.OfCall) : ¬ k.FirstReceive ∧ k ≠ .trap := by
  cases k with
  | krecv pid caller => cases caller <;> simp_all [Label.OfCall, Label.FirstReceive]
  | _ => simp_all [Label.OfCall, Label.FirstReceive]

theorem FirstReceives.call (h : FirstReceives x) {m : Option ProcRef}
    (hst : Stretch Label.OfCall m x.kernel s') :
    FirstReceives ⟨s', none, x.under⟩ := by
  refine h.stretch hst (fun _ _ => rfl) fun u _ _ hk hfirst _ => ?_
  rcases hfirst with hlabel | ⟨hlabel, -⟩
  · exact absurd hlabel hk.not_first.1
  · exact absurd hlabel hk.not_first.2

/-- Whoever `schedule` suspends in `PROC_recv` was in it. -/
theorem suspended_recv {s : State} {k : Label} (h : schedule s k none = .ok (s', evs))
    (hup : s.up = some u) (hne : s'.up ≠ some u) (hrecv : (s'.procs u).state = .recv) :
    (s.procs u).state = .recv ∧ (s'.procs u).waiting = (s.procs u).waiting := by
  obtain ⟨r, rfl, -⟩ := schedule_eq h
  rw [State.switchFrom_up] at hne
  rw [State.switchFrom_state, if_neg hne, if_pos hup, savedState] at hrecv
  split_ifs at hrecv
  exact ⟨hrecv, by rw [State.switchFrom_waiting]⟩

/-- A suspension of a process that has nobody waiting when it is in `PROC_recv`. -/
theorem FirstReceives.suspend (h : FirstReceives x) (hup : x.kernel.up = some u) {k : Label}
    (hs : schedule x.kernel k none = .ok (s', evs)) {under : ProcRef → Option Point}
    (hunder : ∀ p, x.kernel.up ≠ some p → under p = x.under p)
    (hnone : (x.kernel.procs u).state = .recv → (x.kernel.procs u).waiting = none) :
    FirstReceives ⟨s', none, under⟩ := by
  have hst : Stretch (fun _ => True) none x.kernel s' :=
    Calm.schedule hup (.refl u none x.kernel) hs trivial
  refine h.stretch hst hunder fun v hv hne _ _ hrecv => ?_
  obtain rfl := Option.some.inj (hup.symm.trans hv)
  obtain ⟨hrecv', hwaiting⟩ := suspended_recv hs hup hne hrecv
  rw [hwaiting]
  exact hnone hrecv'

/-! ## Steps -/

theorem FirstReceives.pointStep (h : FirstReceives x) (hup : x.kernel.up = some u) {pt : Point}
    (hpt : x.point = some pt) (hset : pt = .setRecv → (x.kernel.procs u).waiting = none)
    (hs : Omb.pointStep x u pt = .ok (x', evs)) : FirstReceives x' := by
  have hrunning : (x.kernel.procs u).state = .recv →
      pt = .callSchedule ∧ (x.kernel.procs u).waiting = none := by
    obtain ⟨v, hv, hrecv⟩ := h.running pt hpt
    obtain rfl := Option.some.inj (hup.symm.trans hv)
    exact hrecv
  cases pt with
  | remove =>
      rw [Omb.pointStep] at hs
      split at hs
      · cases hs
      · cases hs
        refine ⟨h.suspended, fun pt' hpt' => ⟨u, hup, fun hrecv => ?_⟩, fun hnone => ?_⟩
        · exact absurd (hrunning hrecv).1 (by simp)
        · cases hnone
      · rename_i r hfound
        split at hs
        · cases hs
        · rename_i s evs' hstart
          cases hs
          exact h.call (procStart_stretch hup hfound hstart)
  | setRecv =>
      cases hs
      refine ⟨fun p hp hfirst hrecv => ?_, fun pt' hpt' => ⟨u, hup, fun _ => ?_⟩,
        fun hnone => by cases hnone⟩
      · have hpu : p ≠ u := fun heq => hp (by rw [heq]; exact hup)
        simp only [Fine.InFirst, State.modifyProc_procs_of_ne hpu] at hfirst hrecv ⊢
        exact h.suspended p hp hfirst hrecv
      · obtain rfl : .callSchedule = pt' := Option.some.inj hpt'
        simpa using hset rfl
  | callSchedule =>
      rw [Omb.pointStep] at hs
      split at hs
      · cases hs
      · rename_i s evs' hsched
        cases hs
        exact h.suspend hup hsched (fun _ _ => rfl) fun hrecv => (hrunning hrecv).2

theorem FirstReceives.interrupt (h : FirstReceives x) (hup : x.kernel.up = some u)
    {pt : Option Point} (hs : Omb.interrupt x u pt = .ok (x', evs))
    (hnone : pt ≠ none → (x.kernel.procs u).state = .recv → (x.kernel.procs u).waiting = none) :
    FirstReceives x' := by
  unfold Omb.interrupt at hs
  split at hs
  · cases hs
  · rename_i s evs' hsched
    cases hs
    have hunder : ∀ p, x.kernel.up ≠ some p → Function.update x.under u pt p = x.under p :=
      fun p hp => Function.update_of_ne (fun heq => hp (by rw [hup, heq])) _ _
    cases pt with
    | some pt => exact h.suspend hup hsched hunder (hnone (by simp))
    | none =>
        -- user code is not in a first receive
        refine h.stretch (tick_stretch hup hsched) hunder fun v hv _ hk hfirst _ => ?_
        obtain rfl := Option.some.inj (hup.symm.trans hv)
        rcases hfirst with hlabel | ⟨-, hne⟩
        · rw [hk] at hlabel
          cases hlabel
        · exact absurd (Function.update_self ..) hne

theorem FirstReceives.coarseStep (h : FirstReceives x) {a : Action}
    (hs : Omb.coarseStep x a = .ok (x', evs)) (hpoint : x.point = none)
    (htick : a = .tick → x.kernel.up = none)
    (hfirst : x.kernel.control = .resume → ∀ u, x.kernel.up = some u →
      ¬ (x.kernel.procs u).label.FirstReceive) : FirstReceives x' := by
  unfold Omb.coarseStep at hs
  split at hs
  · cases hs
  · rename_i s evs' hstep
    cases hs
    rw [hpoint]
    refine h.stretch (step_stretch hstep hfirst) (fun _ _ => rfl) fun u hup _ hk hlabel _ => ?_
    have hcall : (s.procs u).label.OfCall := by
      cases a with
      | tick =>
          rw [htick rfl] at hup
          cases hup
      | syscall _ | write _ | resume => exact hk
    rcases hlabel with hlabel | ⟨hlabel, -⟩
    · exact absurd hlabel hcall.not_first.1
    · exact absurd hlabel hcall.not_first.2

/-- A coarse step is one of `Omb.Kern.Machine`. -/
theorem coarseStep_ok {a : Action} (hs : Omb.coarseStep x a = .ok (x', evs)) :
    ∃ out, Omb.step x.kernel a = .ok out := by
  unfold Omb.coarseStep at hs
  split at hs
  · cases hs
  · exact ⟨_, ‹_›⟩

theorem control_of_tick {s : State} {out : Out} (h : step s .tick = .ok out)
    (hup : s.up = some u) : s.control = .user := by
  cases hc : s.control with
  | user => rfl
  | resume | idle => simp [Omb.step, hc, hup] at h

theorem act_of_resume {s : State} {a : Action} {out : Out} (h : step s a = .ok out)
    (hc : s.control = .resume) : a = .resume := by
  cases a with
  | resume => rfl
  | syscall _ | write _ | tick => simp [Omb.step, hc] at h

/-- **One step keeps the invariant**, when it does not set `PROC_recv` with somebody
waiting. -/
theorem FirstReceives.step (h : FirstReceives x) {a : Action}
    (hs : fineStep x a = .ok (x', evs)) (hset : SetsRecvUnsent ⟨x, a, evs, x'⟩) :
    FirstReceives x' := by
  unfold fineStep at hs
  split at hs
  · rename_i hpt hup
    exact h.pointStep hup hpt (fun heq => hset (heq ▸ hpt) rfl _ hup) hs
  · rename_i hpt hup
    refine h.interrupt hup hs fun _ hrecv => ?_
    obtain ⟨v, hv, hrunning⟩ := h.running _ hpt
    obtain rfl := Option.some.inj (hup.symm.trans hv)
    exact (hrunning hrecv).2
  · cases hs
  · rename_i hup
    exact h.interrupt hup hs fun hne => absurd rfl hne
  · rename_i hpt hc hup
    split at hs
    · cases hs
      refine ⟨h.suspended, fun _ _ => ⟨_, hup, fun hrecv => ?_⟩, fun hnone => by cases hnone⟩
      obtain ⟨q, hq, honcpu⟩ := h.resumed hpt hc
      obtain rfl := Option.some.inj (hup.symm.trans hq)
      rw [honcpu] at hrecv
      cases hrecv
    · rename_i hresume
      refine h.coarseStep hs hpt (fun ha => by cases ha) fun _ v hv hfirst => ?_
      obtain rfl := Option.some.inj (hup.symm.trans hv)
      rw [Fine.resumePoint, if_pos hfirst] at hresume
      cases hresume
  · rename_i hpt htick hresume
    -- only user code and the idle loop are left
    obtain ⟨out, hstep⟩ := coarseStep_ok hs
    refine h.coarseStep hs hpt (fun ha => ?_) fun hc u hup _ => ?_
    · cases hup : x.kernel.up with
      | none => rfl
      | some u =>
          rw [ha] at hstep
          exact (htick u (control_of_tick hstep hup) hup ha).elim
    · exact (hresume u hc hup (act_of_resume hstep hc)).elim

/-! ## Runs -/

/-- `w` is in a node of the waiting list of `p`. -/
def OnWaiting (s : State) (p w : ProcRef) : Prop :=
  ∃ nodes, PointerList.Seg (fun i => (s.lists i).next) (s.procs p).waiting nodes ∧
    ∃ i ∈ nodes, (s.lists i).proc = some w

/-- The process `p` is switched out in `PROC_recv` in its first receive, while `w` is in
`PROC_send` on its waiting list. -/
structure MissedInit (x : Fine) (p w : ProcRef) : Prop where
  switchedOut : x.kernel.up ≠ some p
  first : x.InFirst p
  recv : (x.kernel.procs p).state = .recv
  send : (x.kernel.procs w).state = .send
  onWaiting : OnWaiting x.kernel p w

theorem not_onWaiting {s : State} {p w : ProcRef} (h : (s.procs p).waiting = none) :
    ¬ OnWaiting s p w := by
  rintro ⟨nodes, hseg, i, hi, -⟩
  rw [h] at hseg
  rw [hseg.eq_nil] at hi
  cases hi

theorem FirstReceives.not_missed (h : FirstReceives x) (p w : ProcRef) :
    ¬ MissedInit x p w := fun hmissed =>
  not_onWaiting (h.suspended p hmissed.switchedOut hmissed.first hmissed.recv) hmissed.onWaiting

theorem FirstReceives.kmain {img : Image} {pages : Word → ProcPage} {mem : Mem} {s : State}
    (h : Omb.kmain img pages mem = .ok (s, evs)) :
    FirstReceives ⟨s, none, fun _ => none⟩ := by
  obtain ⟨hcontrol, hup, honcpu, -, hothers⟩ := kmain_state h
  refine ⟨fun p hp _ hrecv => ?_, fun pt hpt => (by cases hpt), fun _ _ => ⟨0, hup, honcpu⟩⟩
  -- no process is in `PROC_recv` at reset
  have hp0 : p ≠ 0 := fun heq => hp (by rw [heq]; exact hup)
  have hreset := ((hothers p hp0).recv hrecv).1
  cases hreset

/-- **No init message is missed** in a run in which `proc_start` never sets `PROC_recv` when
somebody waits for it.  `hset` is a condition on the states in front of the steps that set it,
and nothing else is asked of the run.  The window is between the receive that finds nothing
and that step: a send that comes there finds a process which is not receiving yet, and does
not wake it. -/
theorem no_missed_init {tr : List (Machine.Transition Fine Action Event)} (h : FineRun tr x)
    (hset : ∀ t ∈ tr, SetsRecvUnsent t) (p w : ProcRef) : ¬ MissedInit x p w := by
  obtain ⟨img, pages, mem, s₀, evs₀, hk, hrun⟩ := h
  have hinv : FirstReceives x := by
    refine Machine.Run.invariant (P := fun _ => FirstReceives) (.kmain hk) ?_ hrun hset
    intro tr y a y' evs _ hy hset hs
    exact hy.step hs hset
  exact hinv.not_missed p w

/-! ## Two runs -/

/-- Boot, then the given actions. -/
def fineRun (acts : List Action) :
    Except Stuck (List (Machine.Transition Fine Action Event) × Fine) :=
  match exampleRun [] with
  | .error e => .error e
  | .ok (_, s) => Machine.replay fineStep ⟨s, none, fun _ => none⟩ acts

theorem FineRun.of_fineRun {acts : List Action}
    {tr : List (Machine.Transition Fine Action Event)} (h : fineRun acts = .ok (tr, x)) :
    FineRun tr x := by
  unfold fineRun at h
  split at h
  · cases h
  · rename_i tr₀ s₀ hboot
    obtain ⟨img, pages, mem, evs, hk⟩ := kmain_of_exampleRun hboot
    exact ⟨img, pages, mem, s₀, evs, hk, .of_replay h⟩

theorem exists_fineRun (acts : List Action)
    (P : List (Machine.Transition Fine Action Event) → Fine → Bool)
    (h : (match fineRun acts with
      | .ok (tr, x) => P tr x
      | .error _ => false) = true) :
    ∃ tr x, FineRun tr x ∧ P tr x = true := by
  split at h
  · rename_i tr x hrun
    exact ⟨tr, x, .of_fineRun hrun, h⟩
  · cases h

/-- `proc0` makes process 1, which a tick interrupts when it has found its list empty.
Then `proc0` sends to it. -/
def missedActs : List Action :=
  [.resume, .syscall (.procCreate 0x10000 0x11000), .tick, .resume, .resume, .tick, .resume,
    .syscall (.send 1), .resume, .resume, .resume]

/-- Process 1 goes to sleep with the message of `proc0` on its list. -/
theorem missed_init : ∃ tr x, FineRun tr x ∧ MissedInit x 1 0 := by
  obtain ⟨tr, x, hrun, hP⟩ := exists_fineRun missedActs
    (fun _ x => x.kernel.up = none ∧ (x.kernel.procs 1).label.FirstReceive ∧
      (x.kernel.procs 1).state = .recv ∧ (x.kernel.procs 0).state = .send ∧
      (x.kernel.procs 1).waiting = some 0 ∧ (x.kernel.lists 0).next = none ∧
      (x.kernel.lists 0).proc = some 0) (by decide +kernel)
  obtain ⟨hup, hlabel, hrecv, hsend, hwaiting, hnext, hproc⟩ := of_decide_eq_true hP
  refine ⟨tr, x, hrun, by simp [hup], .inl hlabel, hrecv, hsend, [0], ?_, 0, by simp, hproc⟩
  rw [hwaiting]
  refine .cons ?_
  rw [hnext]
  exact .nil

/-- The same, with the tick before process 1 looks at its list. -/
def receivedActs : List Action :=
  [.resume, .syscall (.procCreate 0x10000 0x11000), .tick, .resume, .tick, .resume,
    .syscall (.send 1), .resume, .resume, .resume]

/-- There it receives the message. -/
theorem received_init :
    ∃ tr x, FineRun tr x ∧ (∃ t ∈ tr, Event.received 1 0 ∈ t.events) ∧ ¬ MissedInit x 1 0 := by
  obtain ⟨tr, x, hrun, hP⟩ := exists_fineRun receivedActs
    (fun tr _ => (tr.any fun t => Event.received 1 0 ∈ t.events) ∧
      tr.all fun t => t.pre.point ≠ some .setRecv ∨
        t.pre.kernel.up.all fun u => (t.pre.kernel.procs u).waiting = none)
    (by decide +kernel)
  obtain ⟨hreceived, hset⟩ := of_decide_eq_true hP
  refine ⟨tr, x, hrun, by simpa using hreceived, no_missed_init hrun (fun t ht => ?_) 1 0⟩
  intro hpoint _ u hup
  rcases of_decide_eq_true (List.all_eq_true.mp hset t ht) with hne | hall
  · exact absurd hpoint hne
  · rw [hup] at hall
    exact of_decide_eq_true hall

end Omb
