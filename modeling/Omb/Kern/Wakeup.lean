import Omb.Kern.Moves

/-!
# Parked receivers and queued senders

A process parked in `PROC_recv` is only run again by a sender or by the scheduler handing it
over, so a message that is already queued when it parks stays there.  `krecv` looks at the
queue before it parks; `kreply_recv` parks first.

`noLostWakeup_iff` says which runs are free of lost wakeups: those in which every
`kreply_recv` that goes through is made with no matching sender queued.  `lost_wakeup` is a
run that is not among them, and `noLostWakeup_after_replyRecv` one with a `kreply_recv` that
is.

A sender that is queued at a parked receiver without a lost wakeup is there because it does
not match: the receiver waits for another pid.  The queue is looked at again when the receiver
is woken, and then `krecv` takes whatever is in it, matching or not.

The invariant behind it, `NoMatchQueued`, is about all senders and all parked receivers; there
is one lemma for each kind of move, and only `kreply_recv` needs the condition.

## Main results

* `Move.noMatchQueued`: one step, with the condition for `kreply_recv`
* `noLostWakeup_iff`: the runs without lost wakeups
-/

namespace Omb

open PointerList

/-- The pid that the receive suspended at a label is for. -/
def Label.awaitedPid : Label → Option Word
  | .krecv pid _ => some pid
  | .kreplyRecv pid => some pid
  | _ => none

/-- The pid of the process fits `krecv(pid)`: it is `pid`, or any pid will do. -/
def Proc.Matches (q : Proc) (pid : Word) : Prop :=
  pid = pidAll ∨ q.pid = pid

/-- `w` is in the waiting list of `p`. -/
def Queued (s : State) (p w : ProcRef) : Prop :=
  ∃ nodes, Seg (fun i => (s.lists i).next) (s.procs p).waiting nodes ∧
    ∃ i ∈ nodes, (s.lists i).proc = some w

/-- No process that is parked in a receive has a matching sender in its waiting list.  Where
there is one, the receiver is not run for it. -/
def NoLostWakeup (s : State) : Prop :=
  ∀ p pid, s.up ≠ some p → (s.procs p).state = .recv →
    (s.procs p).label.awaitedPid = some pid →
      ∀ w, Queued s p w → ¬ (s.procs w).Matches pid

/-- If the step is a `kreply_recv` that goes through, no sender that matches its last argument
is in the waiting list of its caller.  This can be told before the step is taken. -/
def RepliesWithNoMatch (t : KStep) : Prop :=
  ∀ u p pid ret rpid, t.act = .syscall (.replyRecv pid ret rpid) →
    t.pre.up = some u → pid.toInt = p.val → awaitsReply t.pre u p →
      ∀ w, Queued t.pre u w → ¬ (t.pre.procs w).Matches rpid

variable {s s' : State} {n : ℕ} {Q : ProcRef → List ProcRef}

theorem Core.queued_iff (h : Core s n Q) {p w : ProcRef} :
    Queued s p w ↔ (s.procs w).state = .send ∧ (s.procs w).waitingOn = some p := by
  obtain ⟨nodes, hrep⟩ := h.queues
  rw [← h.mem_iff]
  constructor
  · rintro ⟨ns, hseg, i, hi, hw⟩
    obtain rfl := hseg.unique (hrep.family.seg p)
    exact hrep.mem_of_node hi hw
  · intro hw
    exact ⟨nodes p, hrep.family.seg p, hrep.node_of_mem hw⟩

/-! ## The invariant -/

/-- A sender queued at a parked receiver does not match, whoever is running.  A running
process does not receive, so this is the same as `NoLostWakeup` between steps. -/
def NoMatchQueued (s : State) : Prop :=
  ∀ p pid w, (s.procs p).state = .recv → (s.procs p).label.awaitedPid = some pid →
    (s.procs w).state = .send → (s.procs w).waitingOn = some p →
      ¬ (s.procs w).Matches pid

theorem Inv.noLost_iff_noMatchQueued (h : Inv s n Q) : NoLostWakeup s ↔ NoMatchQueued s := by
  constructor
  · intro hs p pid w hrecv hpid hsend hon
    refine hs p pid ?_ hrecv hpid w (h.queued_iff.mpr ⟨hsend, hon⟩)
    intro hup
    simp [h.running p hup] at hrecv
  · intro hs p pid _ hrecv hpid w hw
    obtain ⟨hsend, hon⟩ := h.queued_iff.mp hw
    exact hs p pid w hrecv hpid hsend hon

/-- Only the states, labels, pids and waits of the processes matter. -/
theorem NoMatchQueued.congr (h : NoMatchQueued s)
    (hprocs : ∀ p, (s'.procs p).state = (s.procs p).state ∧
      (s'.procs p).label = (s.procs p).label ∧ (s'.procs p).pid = (s.procs p).pid ∧
      (s'.procs p).waitingOn = (s.procs p).waitingOn) : NoMatchQueued s' := by
  intro p pid w hrecv hpid hsend hon hmatch
  rw [(hprocs p).1] at hrecv
  rw [(hprocs p).2.1] at hpid
  rw [(hprocs w).1] at hsend
  rw [(hprocs w).2.2.2] at hon
  refine h p pid w hrecv hpid hsend hon ?_
  rwa [Proc.Matches, (hprocs w).2.2.1] at hmatch

/-- After a context switch the receivers are those not switched to, and the one
switched from is parked where its label was just saved. -/
theorem NoMatchQueued.switchFrom {k : Label} {r : Option ProcRef}
    (h : ∀ p pid w, r ≠ some p → (s.procs p).state = .recv →
      (if s.up = some p then k else (s.procs p).label).awaitedPid = some pid →
      (s.procs w).state = .send → (s.procs w).waitingOn = some p →
        ¬ (s.procs w).Matches pid) : NoMatchQueued (s.switchFrom k r) := by
  intro p pid w hrecv hpid hsend hon
  rw [State.switchFrom_state_iff _ _ _ (by simp) (by simp)] at hrecv hsend
  rw [State.switchFrom_label] at hpid
  rw [State.switchFrom_waitingOn] at hon
  rw [Proc.Matches, State.switchFrom_pid]
  exact h p pid w hrecv.1 hrecv.2 hpid hsend.2 hon

/-- A process parks in a receive, and no sender queued at it matches. -/
theorem NoMatchQueued.parked {u : ProcRef} {k : Label} {r : Option ProcRef}
    (h : NoMatchQueued s) (hup : s.up = some u)
    (hnone : ∀ pid w, k.awaitedPid = some pid → (s.procs w).state = .send →
      (s.procs w).waitingOn = some u → ¬ (s.procs w).Matches pid) :
    NoMatchQueued ((s.receiving u).switchFrom k r) := by
  refine .switchFrom fun p pid w hne hrecv hpid hsend hon => ?_
  have hwu : w ≠ u := by
    rintro rfl
    simp [State.receiving_state] at hsend
  rw [State.receiving_state, if_neg hwu] at hsend
  rw [State.receiving_field Proc.waitingOn fun _ => rfl] at hon
  rw [Proc.Matches, State.receiving_field Proc.pid fun _ => rfl]
  have hup' : (s.receiving u).up = some u := hup
  rcases eq_or_ne p u with rfl | hpu
  · rw [if_pos hup'] at hpid
    exact hnone pid w hpid hsend hon
  · rw [State.receiving_state, if_neg hpu] at hrecv
    rw [if_neg fun hp => hpu (Option.some.inj (hp.symm.trans hup')),
      State.receiving_field Proc.label fun _ => rfl] at hpid
    exact h p pid w hrecv hpid hsend hon

/-- The new process is ready, so it neither receives nor sends. -/
theorem NoMatchQueued.spawn (hs : NoMatchQueued s) {mem : Mem} {spacePage page : Word}
    {alive : Option ProcRef} {nexts : ProcRef → Option ProcRef} {c : Control} :
    NoMatchQueued { ({ s with mem := mem } : State).spawn spacePage page alive nexts with
      control := c } := by
  intro p pid w hrecv hpid hsend hon
  rcases eq_or_ne p s.nextpid with rfl | hp
  · simp [State.spawn, freshProc] at hrecv
  rcases eq_or_ne w s.nextpid with rfl | hw
  · simp [State.spawn, freshProc] at hsend
  simp only [State.spawn, if_neg hp] at hrecv hpid
  simp only [State.spawn, if_neg hw] at hsend hon
  simpa [State.spawn, hw, Proc.Matches] using hs p pid w hrecv hpid hsend hon

/-- A sender queues at `p₀`; if that receives, it is handed the CPU and is not parked. -/
theorem NoMatchQueued.send (hs : NoMatchQueued s) {u p₀ : ProcRef} (hup : s.up = some u)
    {lists : ListRef → ProcList} {waiting : ProcRef → Option ListRef} {r : Option ProcRef}
    (hwake : (s.procs p₀).state = .recv → r = some p₀) :
    NoMatchQueued ((s.blockOn u p₀ lists waiting).switchFrom .ksend r) := by
  refine .switchFrom fun p pid w hne hrecv hpid hsend hon => ?_
  -- the sender itself is not parked in a receive
  have hpu : p ≠ u := by
    rintro rfl
    simp [State.blockOn] at hrecv
  have hup' : (s.blockOn u p₀ lists waiting).up ≠ some p := by
    intro hup'
    exact hpu (Option.some.inj (hup'.symm.trans hup))
  rw [if_neg hup'] at hpid
  simp only [State.blockOn, if_neg hpu] at hrecv hpid
  rcases eq_or_ne w u with rfl | hwu
  · simp only [State.blockOn, if_true] at hon
    obtain rfl := Option.some.inj hon
    exact absurd (hwake hrecv) hne
  · simp only [State.blockOn, if_neg hwu] at hsend hon
    exact hs p pid w hrecv hpid hsend hon

/-- A process whose message is taken no longer sends, and it has not received either. -/
theorem NoMatchQueued.takeMessage (hs : NoMatchQueued s) (u w₀ : ProcRef)
    (lists : ListRef → ProcList) (waiting : ProcRef → Option ListRef) :
    NoMatchQueued (s.takeMessage u w₀ lists waiting) := by
  intro p pid w hrecv hpid hsend hon
  have hp : p ≠ w₀ := by
    rintro rfl
    simp [State.takeMessage] at hrecv
  have hw : w ≠ w₀ := by
    rintro rfl
    simp [State.takeMessage] at hsend
  simp only [State.takeMessage, if_neg hp] at hrecv
  simp only [State.takeMessage, if_neg hw] at hsend
  exact hs p pid w hrecv hpid hsend hon

/-- A switch from a process that does not receive parks nobody. -/
theorem NoMatchQueued.switchFrom_running (hs : NoMatchQueued s)
    (hrun : ∀ p, s.up = some p → (s.procs p).state ≠ .recv) {k : Label} {r : Option ProcRef} :
    NoMatchQueued (s.switchFrom k r) := by
  refine .switchFrom fun p pid w hne hrecv hpid => ?_
  rw [if_neg fun hup => hrun p hup hrecv] at hpid
  exact hs p pid w hrecv hpid

/-- **One step.**  A move keeps parked receivers clear of matching senders, if a
`kreply_recv` does. -/
theorem Move.noMatchQueued {a : Action} {evs : List Event} (hmove : Move s a evs s')
    (h : Inv s n Q) (hs : NoMatchQueued s) (ht : RepliesWithNoMatch ⟨s, a, evs, s'⟩) :
    NoMatchQueued s' := by
  have hrun : ∀ p, s.up = some p → (s.procs p).state ≠ .recv := by
    intro p hup hrecv
    simp [h.running p hup] at hrecv
  cases hmove with
  | quiet hu hs' =>
      refine hs.congr fun p => ?_
      rw [← hs'.procs p]
      exact ⟨rfl, rfl, rfl, rfl⟩
  | write page hup hc => exact hs.congr fun _ => ⟨rfl, rfl, rfl, rfl⟩
  | create hup hc hdead => exact hs.spawn
  | preempt hc hr => exact hs.switchFrom_running hrun
  | send hup hc hpid₀ hlive hr hhanded hwake => exact hs.send hup hwake
  | @receive _ u w₀ lists waiting hu hcreates hsend₀ hon₀ =>
      exact (hs.takeMessage u w₀ lists waiting).congr fun _ => ⟨rfl, rfl, rfl, rfl⟩
  | @start _ u w₀ lists waiting pc sp hu hcreates hsend₀ hon₀ =>
      have htaken : NoMatchQueued (deliverReply (s.takeMessage u w₀ lists waiting) u w₀ ok) :=
        (hs.takeMessage u w₀ lists waiting).congr fun _ => ⟨rfl, rfl, rfl, rfl⟩
      refine htaken.switchFrom_running fun p hup hrecv => hrun p hup ?_
      rcases eq_or_ne p w₀ with rfl | hp
      · simp [State.takeMessage, deliverReply, State.modifyPage] at hrecv
      · simpa [State.takeMessage, deliverReply, State.modifyPage, hp] using hrecv
  | @park _ u pid₀ caller r hu hcreates hempty hr =>
      exact hs.parked hu.1 fun _ w _ hsend hon => absurd ⟨hsend, hon⟩ (hempty w)
  | @reply u p₀ pid₀ ret hup hc hpid₀ hawait =>
      have hreplied : NoMatchQueued (deliverReply s u p₀ ret) :=
        hs.congr fun _ => ⟨rfl, rfl, rfl, rfl⟩
      exact hreplied.switchFrom_running hrun
  | @replyRecv u p₀ pid₀ ret rpid hup hc hpid₀ hawait =>
      have hreplied : NoMatchQueued (deliverReply s u p₀ ret) :=
        hs.congr fun _ => ⟨rfl, rfl, rfl, rfl⟩
      refine hreplied.parked hup fun pid w hpid hsend hon => ?_
      -- it parks without a look at its queue: here the condition is needed
      obtain rfl : rpid = pid := Option.some.inj hpid
      exact ht u p₀ pid₀ ret rpid rfl hup hpid₀ hawait w (h.queued_iff.mpr ⟨hsend, hon⟩)
  | resumed hup hc hlabel => exact hs.congr fun _ => ⟨rfl, rfl, rfl, rfl⟩

/-! ## Runs -/

/-- A `kreply_recv` that goes through leaves its caller parked, with the queue it
had. -/
theorem noMatch_of_replyRecv (h : Inv s n Q) {u p : ProcRef} {pid ret rpid : Word}
    {evs : List Event} (hup : s.up = some u) (hpid : pid.toInt = p.val)
    (hawait : awaitsReply s u p)
    (hs : step s (.syscall (.replyRecv pid ret rpid)) = .ok (s', evs))
    (hpost : NoMatchQueued s') {w : ProcRef} (hw : Queued s u w) :
    ¬ (s.procs w).Matches rpid := by
  obtain ⟨hsend, hon⟩ := h.queued_iff.mp hw
  have hc : s.control = .user := by
    cases hc : s.control with
    | user => rfl
    | resume | idle => simp [step, hc] at hs
  have hs' : s' = ((deliverReply s u p ret).receiving u).switchFrom (.kreplyRecv rpid)
      (some p) := by
    simp only [step, hc, hup, syscall] at hs
    rw [sysReplyRecv, withProc_eq, deref_val hpid] at hs
    simp only [(kreplyRecv_spec h hup hawait ret rpid).1] at hs
    cases hs
    rfl
  -- neither the caller nor its queued sender is the process replied to
  have hpu : p ≠ u := by
    rintro rfl
    have hst := hawait.1
    rw [h.running p hup] at hst
    cases hst
  have hwp : w ≠ p := by
    rintro rfl
    rw [hawait.1] at hsend
    cases hsend
  have hwu : w ≠ u := by
    rintro rfl
    simp [h.running w hup] at hsend
  have hne : ∀ x, x ≠ p → (some p : Option ProcRef) ≠ some x := fun x hx heq =>
    hx (Option.some.inj heq).symm
  subst hs'
  have hclear := hpost u rpid w
  rw [State.switchFrom_state_iff _ _ _ (by simp) (by simp),
    State.switchFrom_state_iff _ _ _ (by simp) (by simp), State.switchFrom_label,
    State.switchFrom_waitingOn, Proc.Matches, State.switchFrom_pid,
    State.receiving_state, State.receiving_state, if_pos rfl, if_neg hwu,
    State.receiving_field Proc.waitingOn fun _ => rfl,
    State.receiving_field Proc.pid fun _ => rfl] at hclear
  refine hclear ⟨hne u (Ne.symm hpu), rfl⟩ ?_ ⟨hne w hwp, hsend⟩ hon
  rw [if_pos (show ((deliverReply s u p ret).receiving u).up = some u from hup)]
  rfl

/-- Nobody receives at boot. -/
theorem bootState_noMatchQueued (img : Image) (pages : Word → ProcPage) (mem : Mem)
    (alive : Option ProcRef) (nexts : ProcRef → Option ProcRef) :
    NoMatchQueued (bootState img pages mem alive nexts) := by
  intro p pid w hrecv
  rw [bootState, State.switchFrom_state_iff _ _ _ (by simp) (by simp),
    State.modifyProc_field Proc.state rfl] at hrecv
  rcases eq_or_ne p 0 with rfl | hp
  · exact absurd rfl hrecv.1
  · simp [State.spawn, reset, Proc.zero, hp] at hrecv

/-- **The runs without lost wakeups** are exactly those in which each `kreply_recv` that goes
through finds no matching sender queued at its caller.  `hn` is for the queues to be what they
should; the condition itself is both needed and enough, step by step.  No other step can lose
one: `krecv` looks at its list before it blocks, and a sender on a list looks at the receiver
before it goes to sleep. -/
theorem noLostWakeup_iff {tr : List KStep} {s : State} (h : KernelRun tr s)
    (hn : created tr ≤ maxProcs) :
    (NoLostWakeup s ∧ ∀ t ∈ tr, NoLostWakeup t.pre ∧ NoLostWakeup t.post) ↔
      ∀ t ∈ tr, RepliesWithNoMatch t := by
  constructor
  · rintro ⟨-, hclear⟩ t ht u p pid ret rpid hact hup hpid hawait w hw
    obtain ⟨hs, -, ⟨n, Q, hinv⟩, n', Q', hinv'⟩ := h.forall_step hn t ht
    rw [hact] at hs
    exact noMatch_of_replyRecv hinv hup hpid hawait hs
      (hinv'.noLost_iff_noMatchQueued.mp (hclear t ht).2) hw
  · intro hC
    have hrun := KernelRun.invariant
      (P := fun tr s => NoMatchQueued s ∧
        ∀ t ∈ tr, NoLostWakeup t.pre ∧ NoLostWakeup t.post)
      (C := RepliesWithNoMatch)
      (fun img pages mem alive nexts =>
        ⟨bootState_noMatchQueued img pages mem alive nexts, by simp⟩)
      (fun tr s a evs s' Q Q' hinv hinv' ⟨hs, htr⟩ ht _ hmove => by
        have hs' := hmove.noMatchQueued hinv hs ht
        refine ⟨hs', fun t ht => ?_⟩
        rcases List.mem_append.mp ht with ht | ht
        · exact htr t ht
        · obtain rfl := List.mem_singleton.mp ht
          exact ⟨hinv.noLost_iff_noMatchQueued.mpr hs, hinv'.noLost_iff_noMatchQueued.mpr hs'⟩)
      h hn hC
    obtain ⟨⟨Q, hinv⟩, hsafe, htr⟩ := hrun
    exact ⟨hinv.noLost_iff_noMatchQueued.mpr hsafe, htr⟩

/-- `proc0` makes two processes, starts both, takes a message of the second and,
with one of the first in its queue, calls `kreply_recv` for anybody. -/
def lostWakeupActs : List Action :=
  [.resume, .syscall (.procCreate 0x10000 0x11000), .syscall (.procCreate 0x20000 0x21000),
    .syscall (.send 1), .resume, .resume, .syscall (.send 2), .resume, .syscall (.send 0),
    .resume, .resume, .tick, .resume, .syscall (.send 0), .resume,
    .syscall (.recv pidAll), .syscall (.replyRecv 2 0 pidAll), .resume]

/-- At the end of this run `proc0` is parked, and the first process is queued at it. -/
theorem lost_wakeup :
    ∃ tr s, exampleRun lostWakeupActs = .ok (tr, s) ∧ KernelRun tr s ∧
      created tr ≤ maxProcs ∧ ¬ NoLostWakeup s := by
  obtain ⟨tr, s, hrun, hP⟩ := exists_exampleRun lostWakeupActs
    (fun tr s => created tr ≤ maxProcs ∧ s.up ≠ some 0 ∧ (s.procs 0).state = .recv ∧
      (s.procs 0).label = .kreplyRecv pidAll ∧ (s.procs 0).waiting = some 1 ∧
      (s.lists 1).next = none ∧ (s.lists 1).proc = some 1) (by decide +kernel)
  rw [decide_eq_true_eq] at hP
  obtain ⟨hn, hup, hrecv, hlabel, hwaiting, hnext, hproc⟩ := hP
  refine ⟨tr, s, hrun, .of_bootRun hrun, hn, fun hclear => ?_⟩
  refine hclear 0 pidAll hup hrecv ?_ 1 ⟨[1], ?_, 1, by simp, hproc⟩ (.inl rfl)
  · rw [hlabel]
    rfl
  · rw [hwaiting]
    refine .cons ?_
    rw [hnext]
    exact .nil

/-- Nobody is queued where the head pointer is nil. -/
theorem not_queued_of_waiting {p w : ProcRef} (h : (s.procs p).waiting = none) :
    ¬ Queued s p w := by
  rintro ⟨ns, hseg, i, hi, -⟩
  rw [h] at hseg
  rw [hseg.eq_nil] at hi
  exact absurd hi List.not_mem_nil

/-- The action is a call of `reply_recv`. -/
def Action.isReplyRecv : Action → Bool
  | .syscall (.replyRecv _ _ _) => true
  | _ => false

/-- The same, but `proc0` takes both messages before it replies to the second process. -/
def emptyQueueActs : List Action :=
  lostWakeupActs.take 16 ++ [.syscall (.recv pidAll), .syscall (.replyRecv 2 0 pidAll)]

/-- Its `kreply_recv` goes through with nobody in the queue, and no wakeup is lost. -/
theorem noLostWakeup_after_replyRecv :
    ∃ tr s, exampleRun emptyQueueActs = .ok (tr, s) ∧
      (tr.getLast?.map fun t => t.events) =
        some [.replied 0 2 0, .scheduled (some (2, .reply))] ∧
      NoLostWakeup s ∧ ∀ t ∈ tr, NoLostWakeup t.pre ∧ NoLostWakeup t.post := by
  obtain ⟨tr, s, hrun, hP⟩ := exists_exampleRun emptyQueueActs
    (fun tr _ => created tr ≤ maxProcs ∧
      (tr.getLast?.map fun t => t.events) =
        some [.replied 0 2 0, .scheduled (some (2, .reply))] ∧
      ∀ t ∈ tr, t.act.isReplyRecv → t.pre.up = some 0 ∧ (t.pre.procs 0).waiting = none)
    (by decide +kernel)
  rw [decide_eq_true_eq] at hP
  obtain ⟨hn, hlast, hempty⟩ := hP
  refine ⟨tr, s, hrun, hlast, (noLostWakeup_iff (.of_bootRun hrun) hn).mpr ?_⟩
  intro t ht u p pid ret rpid hact hup _ _ w hw
  obtain ⟨hzero, hnone⟩ := hempty t ht (by rw [hact]; rfl)
  obtain rfl : u = 0 := Option.some.inj (hup.symm.trans hzero)
  exact absurd hw (not_queued_of_waiting hnone)

end Omb
