import Omb.Kern.Queue
import Omb.Kern.Sched

/-!
# The invariant of the process table

`Core s n Q` is what ties the table, the list of alive processes, the wait queues and the
saved labels together when `n` processes have been made and the queues are `Q`.  It says
nothing about the running process, whose state is written on the way into `schedule`; `Inv`
adds what holds of it whenever control is not inside a stretch of kernel code.

The heart of `Core` is `mem_iff`: being in the queue of `p` is the same as being in
`PROC_send` and waiting on `p`.  Since it is stated for every process and every queue, it
gives both halves of "queued exactly once, at the process it waits on".

The labels are part of it, as a process goes on in the code that its label names:
`SuspendedAt` says for each state where a process in it can have been suspended.  A process in
`PROC_recv` goes on in a receive, one in `PROC_send` or `PROC_reply` in `ksend`, and one that
is ready anywhere but there.

All of it rests on `n ≤ maxProcs`, which is a field of `Table`: the next process overwrites a
slot that is in use, and everything the invariant says of that one is gone.

## Main definitions

* `Table`: the table and the list of alive processes
* `SuspendedAt`: where a process in a given state goes on
* `Core`, `Inv`: the invariant, inside a stretch of kernel code and between two of them

## Main results

* `Core.switch`: a context switch leads from `Core` to `Inv`
* `Core.schedule_none`, `Core.schedule_some`: so do the two kinds of `schedule`
-/

namespace Omb

open PointerList

/-! ## The processes made so far -/

/-- The first `n` slots of the table. -/
def firstProcs (n : ℕ) : List ProcRef :=
  (List.finRange maxProcs).take n

@[simp] theorem mem_firstProcs {n : ℕ} {p : ProcRef} : p ∈ firstProcs n ↔ p.val < n := by
  rw [firstProcs, List.mem_take_iff_getElem]
  constructor
  · rintro ⟨i, hi, rfl⟩
    simp at hi ⊢
    omega
  · intro hp
    exact ⟨p.val, by simp [hp], by simp⟩

theorem firstProcs_succ {n : ℕ} (hn : n < maxProcs) :
    firstProcs (n + 1) = firstProcs n ++ [⟨n, hn⟩] := by
  rw [firstProcs, List.take_succ_eq_append_getElem (by simpa using hn)]
  simp [firstProcs]

/-- The process table and the list of alive processes after `n` calls of `proc_new`: the first
`n` slots are in use, in this order, and each has its index as its pid. -/
structure Table (s : State) (n : ℕ) : Prop where
  count : n ≤ maxProcs
  alive : Seg s.nexts s.alive (firstProcs n)
  dead_iff : ∀ p, (s.procs p).state = .dead ↔ n ≤ p.val
  nextpid : s.nextpid.val = n % maxProcs
  pid : ∀ p, p.val < n → (s.procs p).pid = BitVec.ofNat 32 p.val

namespace Table

variable {s s' : State} {n : ℕ}

theorem lt_of_ne_dead (h : Table s n) {p : ProcRef} (hp : (s.procs p).state ≠ .dead) :
    p.val < n := by
  rw [Ne, h.dead_iff] at hp
  omega

theorem congr (h : Table s n) (hnexts : ∀ p, (s'.procs p).next = (s.procs p).next)
    (halive : s'.alive = s.alive)
    (hdead : ∀ p, (s'.procs p).state = .dead ↔ (s.procs p).state = .dead)
    (hnextpid : s'.nextpid = s.nextpid)
    (hpid : ∀ p, (s'.procs p).pid = (s.procs p).pid) : Table s' n where
  count := h.count
  alive := by
    have hn : s'.nexts = s.nexts := funext hnexts
    rw [hn, halive]
    exact h.alive
  dead_iff := fun p => (hdead p).trans (h.dead_iff p)
  nextpid := by
    rw [hnextpid]
    exact h.nextpid
  pid := fun p hp => (hpid p).trans (h.pid p hp)

end Table

/-! ## Where a process that is not running is suspended -/

/-- A process in state `st` that is not running goes on at `k`.  No process that is not
running is `PROC_oncpu`. -/
def SuspendedAt : ProcState → Label → Prop
  | .dead, .unset => True
  | .ready, .procStart => True
  | .ready, .proc0Start => True
  | .ready, .trap => True
  | .ready, .kreply _ => True
  | .send, .ksend => True
  | .reply, .ksend => True
  | .recv, .krecv _ _ => True
  | .recv, .kreplyRecv _ => True
  | _, _ => False

theorem SuspendedAt.ne_oncpu {st : ProcState} {k : Label} (h : SuspendedAt st k) :
    st ≠ .oncpu := by
  rintro rfl
  cases k <;> exact h

/-- Only a process in `PROC_send` or `PROC_reply` is suspended in `ksend`. -/
theorem SuspendedAt.ksend {st : ProcState} (h : SuspendedAt st .ksend) :
    st = .send ∨ st = .reply := by
  cases st <;> simp_all [SuspendedAt]

theorem SuspendedAt.label_of_blocked {st : ProcState} {k : Label} (h : SuspendedAt st k)
    (hst : st = .send ∨ st = .reply) : k = .ksend := by
  rcases hst with rfl | rfl <;> cases k <;> simp_all [SuspendedAt]

theorem SuspendedAt.label_of_recv {k : Label} (h : SuspendedAt .recv k) :
    (∃ pid caller, k = .krecv pid caller) ∨ ∃ pid, k = .kreplyRecv pid := by
  cases k <;> simp_all [SuspendedAt]

/-! ## The invariant -/

/-- The process table, the queues and the labels of the processes that are not running.  This
holds in the middle of a system call as well, between its writes to a process' state and to
the queues. -/
structure Core (s : State) (n : ℕ) (Q : ProcRef → List ProcRef) : Prop where
  table : Table s n
  queues : ∃ nodes, QueueRep s nodes Q
  nodup : ∀ p, (Q p).Nodup
  /-- Queued at `p` means sending to `p`. -/
  mem_iff : ∀ p w, w ∈ Q p ↔ (s.procs w).state = .send ∧ (s.procs w).waitingOn = some p
  /-- A blocked sender waits on a process that has been made. -/
  blocked : ∀ w, (s.procs w).state = .send ∨ (s.procs w).state = .reply →
    ∃ b, (s.procs w).waitingOn = some b ∧ b.val < n
  parked : ∀ p, s.up ≠ some p → SuspendedAt (s.procs p).state (s.procs p).label

/-- The invariant between two stretches of kernel code.  It is what every step is proved to
preserve. -/
structure Inv (s : State) (n : ℕ) (Q : ProcRef → List ProcRef) : Prop
    extends Core s n Q where
  running : ∀ u, s.up = some u → (s.procs u).state = .oncpu
  /-- The kernel idles only when nothing is ready. -/
  idle : s.up = none → ∀ p, (s.procs p).state ≠ .ready
  control : s.control = .idle ↔ s.up = none

namespace Core

variable {s s' : State} {n : ℕ} {Q : ProcRef → List ProcRef}

/-- No process is queued at two others, as it waits on one. -/
theorem queue_unique (h : Core s n Q) (p p' w : ProcRef) (hw : w ∈ Q p)
    (hw' : w ∈ Q p') : p = p' := by
  have hon := ((h.mem_iff p w).mp hw).2
  rw [((h.mem_iff p' w).mp hw').2] at hon
  exact (Option.some.inj hon).symm

/-- Nobody is sending to a process whose queue is empty. -/
theorem no_sender (h : Core s n Q) {p : ProcRef} (hempty : Q p = []) (w : ProcRef) :
    ¬ ((s.procs w).state = .send ∧ (s.procs w).waitingOn = some p) := by
  rw [← h.mem_iff, hempty]
  exact List.not_mem_nil

/-- A slot no process was made in has an empty queue. -/
theorem queue_eq_nil (h : Core s n Q) {p : ProcRef} (hp : n ≤ p.val) : Q p = [] := by
  refine List.eq_nil_iff_forall_not_mem.mpr fun w hw => ?_
  obtain ⟨hsend, hon⟩ := (h.mem_iff p w).mp hw
  obtain ⟨b, hb, hlt⟩ := h.blocked w (.inl hsend)
  obtain rfl := Option.some.inj (hon.symm.trans hb)
  omega

/-- The fields the invariant does not mention may change. -/
theorem congr (h : Core s n Q) (hup : s'.up = s.up) (halive : s'.alive = s.alive)
    (hnextpid : s'.nextpid = s.nextpid) (hlists : s'.lists = s.lists)
    (hprocs : ∀ p, (s'.procs p).state = (s.procs p).state ∧
      (s'.procs p).label = (s.procs p).label ∧ (s'.procs p).pid = (s.procs p).pid ∧
      (s'.procs p).next = (s.procs p).next ∧
      (s'.procs p).waitingOn = (s.procs p).waitingOn ∧
      (s'.procs p).waiting = (s.procs p).waiting) : Core s' n Q := by
  obtain ⟨nodes, hrep⟩ := h.queues
  refine ⟨?_, ⟨nodes, ?_⟩, h.nodup, ?_, ?_, ?_⟩
  · exact h.table.congr (fun p => (hprocs p).2.2.2.1) halive
      (fun p => by rw [(hprocs p).1]) hnextpid fun p => (hprocs p).2.2.1
  · exact hrep.congr hlists fun p => (hprocs p).2.2.2.2.2
  · intro p w
    rw [h.mem_iff, (hprocs w).1, (hprocs w).2.2.2.2.1]
  · intro w hw
    rw [(hprocs w).2.2.2.2.1]
    exact h.blocked w ((hprocs w).1 ▸ hw)
  · intro p hp
    rw [(hprocs p).1, (hprocs p).2.1]
    exact h.parked p (hup ▸ hp)

/-- The label of a process may be replaced by another one fit for its state, as `init_proc0`
does. -/
theorem relabel (h : Core s n Q) {p : ProcRef} {k : Label}
    (hk : SuspendedAt (s.procs p).state k) :
    Core (s.modifyProc p fun q => { q with label := k }) n Q := by
  obtain ⟨nodes, hrep⟩ := h.queues
  have hfield : ∀ {β : Type} (g : Proc → β), (∀ q, g { q with label := k } = g q) → ∀ q,
      g ((s.modifyProc p fun q => { q with label := k }).procs q) = g (s.procs q) :=
    fun g hg q => State.modifyProc_field g (hg _) q
  have hstate := hfield Proc.state fun _ => rfl
  have hon := hfield Proc.waitingOn fun _ => rfl
  refine
    { table := h.table.congr (hfield Proc.next fun _ => rfl) rfl (fun q => by rw [hstate q])
        rfl (hfield Proc.pid fun _ => rfl)
      queues := ⟨nodes, hrep.congr rfl (hfield Proc.waiting fun _ => rfl)⟩
      nodup := h.nodup
      mem_iff := ?_
      blocked := ?_
      parked := ?_ }
  · intro q w
    rw [h.mem_iff, hstate w, hon w]
  · intro w hw
    rw [hstate w] at hw
    rw [hon w]
    exact h.blocked w hw
  · intro q hq
    rcases eq_or_ne q p with rfl | hqp
    · rw [State.modifyProc_procs_self]
      exact hk
    · rw [State.modifyProc_procs_of_ne hqp]
      exact h.parked q hq

/-- **A context switch re-establishes the invariant.**  The process switched from must be
suspended where its state says, and the one switched to must not be queued anywhere: it is
made `PROC_oncpu` with no look at its state. -/
theorem switch (h : Core s n Q) {k : Label} {r : Option ProcRef}
    (hk : ∀ u, s.up = some u → SuspendedAt (savedState (s.procs u).state) k)
    (hr : ∀ q, r = some q → q.val < n ∧ (s.procs q).state ≠ .send)
    (hidle : r = none → ∀ p, p.val < n → ((saveLabel s k).procs p).state ≠ .ready) :
    Inv (s.switchFrom k r) n Q := by
  obtain ⟨nodes, hrep⟩ := h.queues
  have hstate : ∀ p, ∀ st, st ≠ .ready → st ≠ .oncpu →
      (((s.switchFrom k r).procs p).state = st ↔ r ≠ some p ∧ (s.procs p).state = st) :=
    fun p st hready honcpu => s.switchFrom_state_iff k r hready honcpu p
  have hparked : ∀ p, r ≠ some p →
      SuspendedAt ((s.switchFrom k r).procs p).state ((s.switchFrom k r).procs p).label := by
    intro p hp
    rw [State.switchFrom_state, State.switchFrom_label, if_neg hp]
    by_cases hu : s.up = some p
    · rw [if_pos hu, if_pos hu]
      exact hk p hu
    · rw [if_neg hu, if_neg hu]
      exact h.parked p hu
  have htable : Table (s.switchFrom k r) n := by
    refine h.table.congr (fun p => by simp) (by simp) (fun p => ?_) (by simp)
      fun p => by simp
    rw [hstate p .dead (by simp) (by simp)]
    refine ⟨And.right, fun hdead => ⟨fun hp => ?_, hdead⟩⟩
    have hlt := (hr p hp).1
    have hge := (h.table.dead_iff p).mp hdead
    omega
  refine
    { table := htable
      queues := ⟨nodes, hrep.congr (by simp) fun p => by simp⟩
      nodup := h.nodup
      mem_iff := ?_
      blocked := ?_
      parked := ?_
      running := ?_
      idle := ?_
      control := ?_ }
  · intro p w
    rw [h.mem_iff, hstate w .send (by simp) (by simp), State.switchFrom_waitingOn]
    refine ⟨fun hw => ⟨⟨fun heq => (hr w heq).2 hw.1, hw.1⟩, hw.2⟩, fun hw => ?_⟩
    exact ⟨hw.1.2, hw.2⟩
  · intro w hw
    rw [State.switchFrom_waitingOn]
    rcases hw with hw | hw
    · exact h.blocked w (.inl ((hstate w _ (by simp) (by simp)).mp hw).2)
    · exact h.blocked w (.inr ((hstate w _ (by simp) (by simp)).mp hw).2)
  · intro p hp
    exact hparked p (by simpa using hp)
  · intro u hu
    rw [State.switchFrom_up] at hu
    rw [State.switchFrom_state, if_pos hu]
  · intro hup p hready
    rw [State.switchFrom_up] at hup
    by_cases hlt : p.val < n
    · refine hidle hup p hlt ?_
      rw [State.switchFrom_state, if_neg (by simp [hup])] at hready
      rw [saveLabel_procs]
      exact hready
    · have hdead := (htable.dead_iff p).mpr (by omega)
      rw [hdead] at hready
      cases hready
  · rw [State.switchFrom_control, State.switchFrom_up]
    cases r <;> simp

/-- `schedule` with a process to switch to. -/
theorem schedule_some (h : Core s n Q) {k : Label} {q : ProcRef}
    (hk : ∀ u, s.up = some u → SuspendedAt (savedState (s.procs u).state) k)
    (hdead : (s.procs q).state ≠ .dead) (hsend : (s.procs q).state ≠ .send) :
    Inv (s.switchFrom k (some q)) n Q := by
  refine h.switch hk ?_ (fun hnone => by simp at hnone)
  rintro q' hq'
  obtain rfl := Option.some.inj hq'
  exact ⟨h.table.lt_of_ne_dead hdead, hsend⟩

/-- `schedule(nil)`. -/
theorem schedule_none (h : Core s n Q) {k : Label}
    (hk : ∀ u, s.up = some u → SuspendedAt (savedState (s.procs u).state) k)
    (hlive : ∀ u, s.up = some u → (s.procs u).state ≠ .dead) :
    ∃ r, schedule s k none = .ok (s.switchFrom k r, [.scheduled none]) ∧
      Inv (s.switchFrom k r) n Q ∧
      ∀ q, r = some q → ((saveLabel s k).procs q).state = .ready := by
  obtain ⟨r, hsched, hready, hnone⟩ := Omb.schedule_none h.table.alive
    (fun u hu => mem_firstProcs.mpr (h.table.lt_of_ne_dead (hlive u hu))) k
  refine ⟨r, hsched, h.switch hk ?_ ?_, fun q hq => (hready q hq).2⟩
  · intro q hq
    obtain ⟨hmem, hst⟩ := hready q hq
    refine ⟨mem_firstProcs.mp hmem, fun hsend => ?_⟩
    rw [saveLabel_procs] at hst
    simp [hsend, savedState] at hst
  · intro hr p hp
    exact hnone hr p (mem_firstProcs.mpr hp)

end Core

end Omb
