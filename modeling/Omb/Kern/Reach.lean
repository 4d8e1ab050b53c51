import Omb.Kern.Moves

/-!
# The state invariants, read off the kernel's own data

`Inv` speaks about queues `Q` that the kernel does not have.  Here it is turned into
statements about what is in memory: the nodes linked from each `waiting` pointer, the slots of
the pool, the states and the labels.

`WaitQueues` says that the waiting lists are finite, share no node, and link each process that
is sending, and no other, exactly once.  So the lists have together as many nodes as there are
processes in `PROC_send`, which is at most one for each slot of the table; and as the pool is
larger than the table `proc_list_add` never fails, and `ksend` never returns for that reason.

`SchedulerState` says who runs and where the others go on.  Nobody but `up` is `PROC_oncpu`,
and the kernel idles only when nothing is ready.

## Main results

* `waitQueues_of_run`: a process is in `PROC_send` exactly when it is linked, once, in the
  waiting list of the process it waits on, and the pool never runs out
* `schedulerState_of_run`: one process on the CPU, or none and nothing ready, and everybody
  else suspended where the state says

Both are about runs that make at most `MAX_PROCS` processes.  With one more a slot that is in
use is cleared, and a process may be linked in a list that it does not wait in.
-/

namespace Omb

open PointerList

/-! ## The waiting lists -/

/-- `nodes p` are the nodes linked in the waiting list of `p`, for every `p`.  Each holds a
process, and the nodes of different lists differ. -/
structure WaitQueues (s : State) (nodes : ProcRef → List ListRef) : Prop where
  /-- Following the pointers from `p->waiting` gives `nodes p` and then nil. -/
  linked : ∀ p, Seg (fun i => (s.lists i).next) (s.procs p).waiting (nodes p)
  acyclic : ∀ p, (nodes p).Nodup
  disjoint : ∀ p q, ∀ i ∈ nodes p, i ∈ nodes q → p = q
  /-- The slots in use are the linked ones. -/
  used : ∀ i, (s.lists i).proc ≠ none ↔ ∃ p, i ∈ nodes p
  send_iff : ∀ w, (s.procs w).state = .send ↔
    ∃ p, ∃ i ∈ nodes p, (s.lists i).proc = some w
  /-- A linked process waits on the owner of the list, and is linked nowhere else. -/
  once : ∀ w p, ∀ i ∈ nodes p, (s.lists i).proc = some w →
    (s.procs w).waitingOn = some p ∧
      ∀ q, ∀ j ∈ nodes q, (s.lists j).proc = some w → q = p ∧ j = i

variable {s : State} {n : ℕ} {Q : ProcRef → List ProcRef}

theorem Core.waitQueues (h : Core s n Q) : ∃ nodes, WaitQueues s nodes := by
  obtain ⟨nodes, hrep⟩ := h.queues
  refine ⟨nodes, hrep.family.seg, fun p => (hrep.family.seg p).nodup,
    hrep.family.disjoint, hrep.used, ?_, ?_⟩
  · intro w
    constructor
    · intro hsend
      obtain ⟨p, hon, -⟩ := h.blocked w (.inl hsend)
      exact ⟨p, hrep.node_of_mem ((h.mem_iff p w).mpr ⟨hsend, hon⟩)⟩
    · rintro ⟨p, i, hi, hw⟩
      exact ((h.mem_iff p w).mp (hrep.mem_of_node hi hw)).1
  · intro w p i hi hw
    refine ⟨((h.mem_iff p w).mp (hrep.mem_of_node hi hw)).2, fun q j hj hw' => ?_⟩
    exact ⟨h.queue_unique q p w (hrep.mem_of_node hj hw') (hrep.mem_of_node hi hw),
      hrep.proc_injective h.nodup h.queue_unique hw' hw⟩

/-- The slots in use hold different processes. -/
theorem WaitQueues.card_le {nodes : ProcRef → List ListRef} (h : WaitQueues s nodes) :
    Fintype.card { i : ListRef // (s.lists i).proc ≠ none } ≤ maxProcs := by
  have hholds : ∀ i : { i : ListRef // (s.lists i).proc ≠ none },
      ∃ w, (s.lists i).proc = some w := fun i => Option.ne_none_iff_exists'.mp i.2
  choose w hw using hholds
  have hinj : Function.Injective w := by
    intro i j hij
    obtain ⟨p, hip⟩ := (h.used i).mp i.2
    obtain ⟨q, hjq⟩ := (h.used j).mp j.2
    have hsame := (h.once (w i) p i hip (hw i)).2 q j hjq (hij ▸ hw j)
    exact Subtype.ext hsame.2.symm
  simpa using Fintype.card_le_of_injective w hinj

/-- `proc_list_add` finds a slot, whoever is put on whatever queue. -/
theorem Core.procListAdd_ok (h : Core s n Q) (u p : ProcRef) :
    ∃ s', procListAdd (s.modifyProc u fun q => { q with waitingOn := some p }) p u =
      .ok (some s') := by
  obtain ⟨nodes, hrep⟩ := h.queues
  have hrep' : QueueRep (s.modifyProc u fun q => { q with waitingOn := some p }) nodes Q :=
    hrep.congr rfl (State.modifyProc_field Proc.waiting rfl)
  obtain ⟨i, hfree⟩ := hrep'.exists_freeSlot h.nodup h.queue_unique
  obtain ⟨lists, waiting, hadd, -⟩ := procListAdd_spec (l := p) (p := u) hrep' hfree
  exact ⟨_, hadd⟩

/-- **The wait-queue invariant.**  In every state a run from boot leads to, the waiting lists
hold exactly the processes in `PROC_send`, each once and at the process it waits on; no more
slots are in use than there can be processes, and the `proc_list_add` of a `ksend` does not
fail. `hn` is all that is asked of the run: its user code may call what it likes, with any
arguments, and may be preempted anywhere.  Past `MAX_PROCS` processes `proc_new` clears slots
that are linked, and none of this holds. -/
theorem waitQueues_of_run {tr : List KStep} {s : State} (h : KernelRun tr s)
    (hn : created tr ≤ maxProcs) :
    (∃ nodes, WaitQueues s nodes) ∧
      Fintype.card { i : ListRef // (s.lists i).proc ≠ none } ≤ maxProcs ∧
      ∀ u p, ∃ s', procListAdd
        (s.modifyProc u fun q => { q with waitingOn := some p }) p u = .ok (some s') := by
  obtain ⟨Q, hinv⟩ := h.inv hn
  obtain ⟨nodes, hqueues⟩ := hinv.waitQueues
  exact ⟨⟨nodes, hqueues⟩, hqueues.card_le, hinv.procListAdd_ok⟩

/-- `proc0` makes a process and sends to it. -/
theorem waitQueues_of_first_send :
    ∃ tr s, KernelRun tr s ∧ (s.procs 0).state = .send ∧
      (∃ nodes, WaitQueues s nodes) ∧
      Fintype.card { i : ListRef // (s.lists i).proc ≠ none } ≤ maxProcs ∧
      ∀ u p, ∃ s', procListAdd
        (s.modifyProc u fun q => { q with waitingOn := some p }) p u = .ok (some s') := by
  obtain ⟨tr, s, hrun, hP⟩ := exists_exampleRun
    [.resume, .syscall (.procCreate 0x10000 0x11000), .syscall (.send 1)]
    (fun tr s => created tr ≤ maxProcs ∧ (s.procs 0).state = .send) (by decide +kernel)
  rw [decide_eq_true_eq] at hP
  have h := KernelRun.of_bootRun hrun
  exact ⟨tr, s, h, hP.2, waitQueues_of_run h hP.1⟩

/-! ## The scheduler -/

/-- Who runs, and where the others are suspended.  A process that is not running goes on at a
label that fits its state. -/
structure SchedulerState (s : State) : Prop where
  idle_iff : s.control = .idle ↔ s.up = none
  /-- The running process is on the CPU, alone. -/
  running : ∀ u, s.up = some u →
    (s.procs u).state = .oncpu ∧ ∀ p, p ≠ u → (s.procs p).state ≠ .oncpu
  /-- The kernel idles only when nothing can run. -/
  idle : s.up = none → ∀ p, (s.procs p).state ≠ .oncpu ∧ (s.procs p).state ≠ .ready
  blocked : ∀ p, (s.procs p).state = .send ∨ (s.procs p).state = .reply →
    (s.procs p).label = .ksend
  receiving : ∀ p, (s.procs p).state = .recv →
    (∃ pid caller, (s.procs p).label = .krecv pid caller) ∨
      ∃ pid, (s.procs p).label = .kreplyRecv pid

theorem Inv.schedulerState (h : Inv s n Q) : SchedulerState s where
  idle_iff := h.control
  running := fun _ hu => ⟨h.running _ hu, fun _ hp => (h.suspended hu hp).ne_oncpu⟩
  idle := fun hup p => ⟨(h.parked p (by simp [hup])).ne_oncpu, h.idle hup p⟩
  blocked := by
    intro p hp
    have hup : s.up ≠ some p := by
      intro hup
      simp [h.running p hup] at hp
    exact (h.parked p hup).label_of_blocked hp
  receiving := by
    intro p hp
    have hup : s.up ≠ some p := by
      intro hup
      simp [h.running p hup] at hp
    have hpar := h.parked p hup
    rw [hp] at hpar
    exact hpar.label_of_recv

/-- The state a process is in when it is handed to `schedule`: it has been made, and it is in
no waiting list. -/
def HandedState (e : Event) : Prop :=
  ∀ q st, e = .scheduled (some (q, st)) → st ≠ .send ∧ st ≠ .dead

theorem Move.handedState {a : Action} {evs : List Event} {s' : State}
    (h : Move s a evs s') : ∀ e ∈ evs, HandedState e := by
  intro e he q st heq
  subst heq
  cases h with
  | quiet _ _ _ hevs =>
      rcases hevs _ he with ⟨v, hv⟩ | ⟨pc, sp, hd⟩
      · cases hv
      · cases hd
  | send _ _ _ _ _ hhanded _ =>
      simp only [List.mem_cons, reduceCtorEq, Event.scheduled.injEq, List.not_mem_nil,
        or_false, false_or] at he
      rw [hhanded q st he.symm]
      simp
  | start =>
      simp at he
      simp [he.2]
  | reply =>
      simp at he
      simp [he.2]
  | replyRecv =>
      simp at he
      simp [he.2]
  | write | create | preempt | receive | park | resumed => simp at he

/-- **The scheduler invariant.**  It holds in every state a run from boot leads to, and on the
way, boot included, `schedule` is never handed a process that is sending or dead.  That is why
it may make `PROC_oncpu` whatever it is handed.  As before only `hn` is asked of the run. -/
theorem schedulerState_of_run {img : Image} {pages : Word → ProcPage} {mem : Mem}
    {s₀ s : State} {evs₀ : List Event} {tr : List KStep}
    (hk : kmain img pages mem = .ok (s₀, evs₀)) (hrun : Machine.Run step s₀ tr s)
    (hn : created tr ≤ maxProcs) :
    SchedulerState s ∧ ∀ e ∈ evs₀ ++ tr.flatMap fun t => t.events, HandedState e := by
  have h : KernelRun tr s := ⟨img, pages, mem, s₀, evs₀, hk, hrun⟩
  obtain ⟨Q, hinv⟩ := h.inv hn
  refine ⟨hinv.schedulerState, fun e he => ?_⟩
  rcases List.mem_append.mp he with he | he
  · obtain ⟨alive, nexts, hkmain, -⟩ := kmain_spec img pages mem
    rw [hkmain] at hk
    cases hk
    obtain rfl := List.mem_singleton.mp he
    rintro q st heq
    cases heq
    simp
  · obtain ⟨t, ht, he⟩ := List.mem_flatMap.mp he
    exact (h.forall_step hn t ht).2.1.handedState e he

/-- Two processes exchange a message and then both wait, so the kernel idles. -/
theorem schedulerState_of_idling :
    ∃ img pages mem s₀ evs₀ tr s, kmain img pages mem = .ok (s₀, evs₀) ∧
      Machine.Run step s₀ tr s ∧ s.up = none ∧ tr.length = 9 ∧
      SchedulerState s ∧ ∀ e ∈ evs₀ ++ tr.flatMap fun t => t.events, HandedState e := by
  obtain ⟨tr, s, hboot, hP⟩ := exists_exampleRun
    [.resume, .syscall (.procCreate 0x10000 0x11000), .syscall (.send 1),
      .resume, .resume, .syscall (.recv pidAll), .resume, .syscall (.recv pidAll), .tick]
    (fun tr s => created tr ≤ maxProcs ∧ s.up = none ∧ tr.length = 9) (by decide +kernel)
  rw [decide_eq_true_eq] at hP
  obtain ⟨img, pages, mem, s₀, evs₀, hk, hrun⟩ := KernelRun.of_bootRun hboot
  exact ⟨img, pages, mem, s₀, evs₀, tr, s, hk, hrun, hP.2.1, hP.2.2,
    schedulerState_of_run hk hrun hP.1⟩

end Omb
