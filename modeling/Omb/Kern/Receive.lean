import Omb.Kern.Wakeup

/-!
# Which sender a receive takes

The loop of `proc_list_remove` leaves on a match, at the end of the list or on an empty list,
and the code behind it tells only the last of these from the others.  So a walk that finds no
match takes the last entry, and since no process has the pid `PID_ALL`, a walk for it always
does.

`selectiveReceive_iff` says when a receive from one process is selective: when the list is
empty or the process is in it.  `receiveAny_iff` says when a list behaves as a queue: when
each removal finds at most one process in it.  Both are statements of the list as well as of
`krecv`, in which the kernel's invariant keeps a process from being queued twice.

For the list alone sequences of operations are runs of a machine of their own, `queueStep`,
whose events a first-come-first-served queue (`fifo`) may or may not have.  One operation is a
step of that queue exactly if it is no removal, or there is one process on the list, and the
induction over the run is `inOrder_iff`.

## Main definitions

* `RemovesSelectively`, `ReceivesSelectively`: what a receive from one process should do
* `fifo`, `InOrder`: what a receive from anyone should do

## Main results

* `selectiveReceive_iff`: receiving from one process
* `receiveAny_iff`: receiving from anyone
-/

namespace Omb

open PointerList

/-- The waiting lists of the state hold the processes `Q`. -/
def Queues (s : State) (Q : ProcRef → List ProcRef) : Prop :=
  ∃ nodes, QueueRep s nodes Q

/-- `procListRemove_spec` without the nodes. -/
theorem Queues.remove {s : State} {Q : ProcRef → List ProcRef} (h : Queues s Q) {l : ProcRef}
    (hne : Q l ≠ []) (pid : Word) :
    ∃ pre w post lists waiting, Q l = pre ++ w :: post ∧
      StopsAt (fun x => (s.procs x).pid = pid) pre w post ∧
      procListRemove s l pid = .ok (some (w, s.withQueues lists waiting)) ∧
      Queues (s.withQueues lists waiting) (Function.update Q l (pre ++ post)) := by
  obtain ⟨nodes, hrep⟩ := h
  obtain ⟨pre, w, post, lists, waiting, nodes', hsplit, hstop, hremove, hrep'⟩ :=
    procListRemove_spec hrep hne pid
  exact ⟨pre, w, post, lists, waiting, hsplit, hstop, hremove, nodes', hrep'⟩

theorem Queues.unique {s : State} {Q Q' : ProcRef → List ProcRef} (h : Queues s Q)
    (h' : Queues s Q') : Q = Q' := by
  obtain ⟨nodes, hrep⟩ := h
  obtain ⟨nodes', hrep'⟩ := h'
  funext p
  have hentries := hrep.entries p
  rw [(hrep.family.seg p).unique (hrep'.family.seg p), hrep'.entries p] at hentries
  exact List.map_injective_iff.mpr (Option.some_injective _) hentries.symm

theorem Queues.remove_nil {s : State} {Q : ProcRef → List ProcRef} (h : Queues s Q)
    {l : ProcRef} (hempty : Q l = []) (pid : Word) : procListRemove s l pid = .ok none := by
  obtain ⟨nodes, hrep⟩ := h
  exact procListRemove_nil hrep hempty pid

/-! ## Receiving from one process -/

/-- `proc_list_remove(&l->waiting, pid)` takes out the first entry of that pid and leaves the
others in order, or there is none and it returns nil.  This is what a caller that names a pid
expects. -/
def RemovesSelectively (s : State) (Q : ProcRef → List ProcRef) (l : ProcRef)
    (pid : Word) : Prop :=
  (∃ pre w post s', Q l = pre ++ w :: post ∧ (∀ x ∈ pre, (s.procs x).pid ≠ pid) ∧
    (s.procs w).pid = pid ∧ procListRemove s l pid = .ok (some (w, s')) ∧
    Queues s' (Function.update Q l (pre ++ post))) ∨
  ((∀ x ∈ Q l, (s.procs x).pid ≠ pid) ∧ procListRemove s l pid = .ok none)

/-- `krecv(pid)` returns a queued sender of that pid, or there is none and it blocks. -/
def ReceivesSelectively (s : State) (Q : ProcRef → List ProcRef) (u : ProcRef)
    (pid : Word) (caller : RecvCaller) : Prop :=
  (∃ w ∈ Q u, (s.procs w).pid = pid ∧ ∃ out, krecv s u pid caller = .ok (.ret w out)) ∨
  ((∀ x ∈ Q u, (s.procs x).pid ≠ pid) ∧ ∃ out, krecv s u pid caller = .ok (.switched out))

/-- The list is empty, or a process of that pid is in it.  It can be told before the list is
looked at. -/
def EmptyOrQueued (s : State) (Q : ProcRef → List ProcRef) (l : ProcRef)
    (pid : Word) : Prop :=
  Q l = [] ∨ ∃ w ∈ Q l, (s.procs w).pid = pid

/-- Where a process with the property is on the list, the walk stops at one. -/
theorem StopsAt.holds {P : ProcRef → Prop} {pre post : List ProcRef} {w : ProcRef}
    (h : StopsAt P pre w post) (hex : ∃ x ∈ pre ++ w :: post, P x) : P w := by
  obtain ⟨hpre, hw | rfl⟩ := h
  · exact hw
  · obtain ⟨x, hx, hP⟩ := hex
    rcases List.mem_append.mp hx with hx | hx
    · exact absurd hP (hpre x hx)
    · rwa [← List.mem_singleton.mp hx]

variable {s : State} {n : ℕ} {Q : ProcRef → List ProcRef} {u l : ProcRef}

theorem removesSelectively_iff (h : Queues s Q) (l : ProcRef) (pid : Word) :
    RemovesSelectively s Q l pid ↔ EmptyOrQueued s Q l pid := by
  constructor
  · rintro (⟨pre, w, post, s', hsplit, -, hw, -, -⟩ | ⟨hnone, hnil⟩)
    · right
      exact ⟨w, by simp [hsplit], hw⟩
    · left
      -- a list with an entry never yields nil
      by_contra hne
      obtain ⟨pre, w, post, lists, waiting, -, -, hremove, -⟩ := h.remove hne pid
      rw [hremove] at hnil
      cases hnil
  · rintro (hempty | hex)
    · right
      refine ⟨fun x hx => ?_, h.remove_nil hempty pid⟩
      rw [hempty] at hx
      cases hx
    · left
      have hne : Q l ≠ [] := by
        obtain ⟨w, hw, -⟩ := hex
        exact List.ne_nil_of_mem hw
      obtain ⟨pre, w, post, lists, waiting, hsplit, hstop, hremove, hqueues⟩ :=
        h.remove hne pid
      rw [hsplit] at hex
      exact ⟨pre, w, post, _, hsplit, hstop.1, hstop.holds hex, hremove, hqueues⟩

theorem receivesSelectively_iff (h : Inv s n Q) (hup : s.up = some u) (pid : Word)
    (caller : RecvCaller) :
    ReceivesSelectively s Q u pid caller ↔ EmptyOrQueued s Q u pid := by
  rcases krecv_spec h hup pid caller with
    ⟨hempty, r, hrecv, -, -⟩ | ⟨pre, w, post, lists, waiting, hsplit, hstop, hrecv, -⟩
  · refine iff_of_true (.inr ⟨fun x hx => ?_, _, hrecv⟩) (.inl hempty)
    rw [hempty] at hx
    cases hx
  · constructor
    · rintro (⟨x, hx, hpid, -⟩ | ⟨-, out, hblocked⟩)
      · exact .inr ⟨x, hx, hpid⟩
      · rw [hrecv] at hblocked
        cases hblocked
    · rintro (hempty | hex)
      · simp [hsplit] at hempty
      · left
        rw [hsplit] at hex
        exact ⟨w, by simp [hsplit], hstop.holds hex, _, hrecv⟩

/-- **A receive from one process is selective** exactly when nobody is queued or that process
is, whether the list is looked at alone or through `krecv`.  Otherwise the last process of the
list is received from, whoever it is: the loop stops at the end of the list as it does at the
process. -/
theorem selectiveReceive_iff {s : State} {Q : ProcRef → List ProcRef} (h : Queues s Q)
    (l : ProcRef) (pid : Word) :
    (RemovesSelectively s Q l pid ↔ EmptyOrQueued s Q l pid) ∧
      ∀ {n : ℕ}, Inv s n Q → s.up = some l → ∀ caller,
        (ReceivesSelectively s Q l pid caller ↔ EmptyOrQueued s Q l pid) :=
  ⟨removesSelectively_iff h l pid, fun hinv hup => receivesSelectively_iff hinv hup pid⟩

/-- Two processes queued at a third one, which runs: the first part of
`lostWakeupActs`. -/
theorem exists_twoSenders :
    ∃ tr s n Q, KernelRun tr s ∧ Inv s n Q ∧ s.up = some 0 ∧ Q 0 = [1, 2] ∧
      (s.procs 1).pid = 1 ∧ (s.procs 2).pid = 2 := by
  obtain ⟨tr, s, hrun, hP⟩ := exists_exampleRun (lostWakeupActs.take 15)
    (fun tr s => created tr ≤ maxProcs ∧ s.up = some 0 ∧ (s.procs 0).waiting = some 1 ∧
      (s.lists 1).next = some 0 ∧ (s.lists 0).next = none ∧ (s.lists 1).proc = some 1 ∧
      (s.lists 0).proc = some 2 ∧ (s.procs 1).pid = 1 ∧ (s.procs 2).pid = 2)
    (by decide +kernel)
  rw [decide_eq_true_eq] at hP
  obtain ⟨hn, hup, hwaiting, hnext₁, hnext₀, hproc₁, hproc₀, hpid₁, hpid₂⟩ := hP
  have h := KernelRun.of_bootRun hrun
  obtain ⟨Q, hinv⟩ := h.inv hn
  refine ⟨tr, s, created tr, Q, h, hinv, hup, ?_, hpid₁, hpid₂⟩
  obtain ⟨nodes, hrep⟩ := hinv.queues
  -- the two nodes linked at `proc0`
  have hseg : Seg (fun i => (s.lists i).next) (s.procs 0).waiting [1, 0] := by
    rw [hwaiting]
    refine .cons ?_
    rw [hnext₁]
    refine .cons ?_
    rw [hnext₀]
    exact .nil
  have hentries := hrep.entries 0
  rw [(hrep.family.seg 0).unique hseg, List.map_cons, List.map_singleton, hproc₁, hproc₀]
    at hentries
  exact List.map_injective_iff.mpr (Option.some_injective _) hentries.symm

/-- Asked for a process that has not sent anything, `proc_list_remove` and `krecv`
deliver another one. -/
theorem receives_unasked_sender :
    ∃ tr s n Q, KernelRun tr s ∧ Inv s n Q ∧ Queues s Q ∧ s.up = some 0 ∧ Q 0 = [1, 2] ∧
      ¬ RemovesSelectively s Q 0 7 ∧ ¬ ReceivesSelectively s Q 0 7 .sysRecv := by
  obtain ⟨tr, s, n, Q, hrun, hinv, hup, hQ, hpid₁, hpid₂⟩ := exists_twoSenders
  have hnot : ¬ EmptyOrQueued s Q 0 7 := by
    rintro (hempty | ⟨w, hw, hpid⟩)
    · rw [hQ] at hempty
      cases hempty
    · rw [hQ] at hw
      simp only [List.mem_cons, List.not_mem_nil, or_false] at hw
      rcases hw with rfl | rfl
      · rw [hpid₁] at hpid
        exact absurd hpid (by decide)
      · rw [hpid₂] at hpid
        exact absurd hpid (by decide)
  refine ⟨tr, s, n, Q, hrun, hinv, hinv.queues, hup, hQ, ?_, ?_⟩
  · rwa [removesSelectively_iff hinv.queues]
  · rwa [receivesSelectively_iff hinv hup]

/-- Asked for the first of the two it delivers that one. -/
theorem receives_asked_sender :
    ∃ tr s n Q, KernelRun tr s ∧ Inv s n Q ∧ Q 0 = [1, 2] ∧
      (RemovesSelectively s Q 0 1 ↔ EmptyOrQueued s Q 0 1) ∧
      (ReceivesSelectively s Q 0 1 .sysRecv ↔ EmptyOrQueued s Q 0 1) ∧
      EmptyOrQueued s Q 0 1 := by
  obtain ⟨tr, s, n, Q, hrun, hinv, hup, hQ, hpid₁, -⟩ := exists_twoSenders
  obtain ⟨hremoves, hreceives⟩ := selectiveReceive_iff hinv.queues 0 1
  refine ⟨tr, s, n, Q, hrun, hinv, hQ, hremoves, hreceives hinv hup .sysRecv,
    .inr ⟨1, ?_, hpid₁⟩⟩
  rw [hQ]
  exact List.mem_cons_self ..

/-! ## Receiving from anyone -/

/-- An operation on one waiting list. -/
inductive QueueOp where
  /-- `proc_list_add(list, p)` -/
  | add (p : ProcRef)
  /-- `proc_list_remove(list, PID_ALL)` -/
  | removeAny
  deriving DecidableEq

/-- What an operation came to. -/
inductive QueueEvent where
  | added (p : ProcRef)
  /-- `proc_list_add` found no free slot. -/
  | refused (p : ProcRef)
  | removed (w : Option ProcRef)

/-- One operation on the waiting list of `l`. -/
def queueStep (l : ProcRef) (s : State) : QueueOp → Except Stuck (State × List QueueEvent)
  | .add p =>
      match procListAdd s l p with
      | .error e => .error e
      | .ok none => .ok (s, [.refused p])
      | .ok (some s') => .ok (s', [.added p])
  | .removeAny =>
      match procListRemove s l pidAll with
      | .error e => .error e
      | .ok none => .ok (s, [.removed none])
      | .ok (some (w, s')) => .ok (s', [.removed (some w)])

/-- A first-come-first-served queue: its content after the events, if each removal among them
took out the first of the processes in it.  A removal that finds nothing is an event of an
empty queue. -/
def fifo : List ProcRef → List QueueEvent → Option (List ProcRef)
  | q, [] => some q
  | q, .added p :: evs => fifo (q ++ [p]) evs
  | q, .refused _ :: evs => fifo q evs
  | q, .removed w :: evs => if w = q.head? then fifo q.tail evs else none

/-- A sequence of operations on a waiting list. -/
abbrev QStep := Machine.Transition State QueueOp QueueEvent

/-- The events of a run. -/
def eventsOf (tr : List QStep) : List QueueEvent :=
  tr.flatMap fun t => t.events

/-- The list has behaved as a first-come-first-served queue, and holds what that queue would.
-/
def InOrder (l : ProcRef) (q₀ : List ProcRef) (tr : List QStep) (s : State) : Prop :=
  ∃ Q, Queues s Q ∧ fifo q₀ (eventsOf tr) = some (Q l)

/-- All entries of the list are of one process.  In the kernel that means that there is one
entry at most. -/
def HoldsOne (s : State) (l : ProcRef) : Prop :=
  ∀ Q, Queues s Q → ∀ p ∈ Q l, ∀ q ∈ Q l, p = q

theorem fifo_append (q : List ProcRef) (evs evs' : List QueueEvent) :
    fifo q (evs ++ evs') = (fifo q evs).bind fun q' => fifo q' evs' := by
  induction evs generalizing q with
  | nil => rfl
  | cons ev evs ih =>
      cases ev with
      | added p => exact ih (q ++ [p])
      | refused p => exact ih q
      | removed w =>
          simp only [List.cons_append, fifo]
          split_ifs with hw
          · exact ih q.tail
          · rfl

/-- A list that is the same without its first and without its last entry has only one
kind of entry. -/
theorem eq_of_tail_eq {α : Type*} {pre : List α} {w x : α} (hhead : (pre ++ [w]).head? = some w)
    (htail : (pre ++ [w]).tail = pre) (hx : x ∈ pre ++ [w]) : x = w := by
  induction pre with
  | nil => simpa using hx
  | cons a pre ih =>
      obtain rfl : a = w := by simpa using hhead
      have hpre : pre ++ [a] = a :: pre := by simpa using htail
      rcases List.mem_cons.mp hx with rfl | hx
      · rfl
      · refine ih ?_ ?_ hx
        · rw [hpre, List.head?_cons]
        · rw [hpre, List.tail_cons]

/-- Without an entry of its one process, a list is what is left when the first is gone. -/
theorem tail_of_all_eq {α : Type*} {pre post : List α} {w : α}
    (h : ∀ x ∈ pre ++ w :: post, x = w) :
    (pre ++ w :: post).head? = some w ∧ (pre ++ w :: post).tail = pre ++ post := by
  have hsame : pre ++ w :: post = w :: (pre ++ post) := by
    rw [List.eq_replicate_of_mem h]
    have hrest : ∀ x ∈ pre ++ post, x = w := by
      intro x hx
      rcases List.mem_append.mp hx with hx | hx
      · exact h x (List.mem_append_left _ hx)
      · exact h x (List.mem_append_right _ (List.mem_cons_of_mem _ hx))
    rw [List.eq_replicate_of_mem hrest, ← List.replicate_succ]
    congr 1
    simp only [List.length_append, List.length_cons]
    omega
  rw [hsame]
  exact ⟨rfl, rfl⟩

/-! ### One operation -/

/-- An operation leaves the pids alone. -/
def SamePids (s s' : State) : Prop :=
  ∀ p, (s'.procs p).pid = (s.procs p).pid

theorem queueStep_add (h : Queues s Q) (l p : ProcRef) :
    ∃ s' ev Q', queueStep l s (.add p) = .ok (s', [ev]) ∧ Queues s' Q' ∧
      fifo (Q l) [ev] = some (Q' l) ∧ SamePids s s' := by
  obtain ⟨nodes, hrep⟩ := h
  cases hfree : freeSlot s with
  | none =>
      refine ⟨s, .refused p, Q, ?_, ⟨nodes, hrep⟩, rfl, fun _ => rfl⟩
      simp [queueStep, procListAdd, hfree]
  | some n =>
      obtain ⟨lists, waiting, hadd, hrep'⟩ := procListAdd_spec (l := l) (p := p) hrep hfree
      refine ⟨s.withQueues lists waiting, .added p, _, ?_, ⟨_, hrep'⟩, ?_, fun _ => rfl⟩
      · rw [queueStep, hadd]
      · rw [Function.update_self]
        rfl

/-- The removal takes an entry of the list, the last one if no process has the pid
`PID_ALL`. -/
theorem queueStep_removeAny (h : Queues s Q) (l : ProcRef) :
    (Q l = [] ∧ queueStep l s .removeAny = .ok (s, [.removed none])) ∨
    ∃ pre w post s', Q l = pre ++ w :: post ∧
      ((∀ p, (s.procs p).pid ≠ pidAll) → post = []) ∧
      queueStep l s .removeAny = .ok (s', [.removed (some w)]) ∧
      Queues s' (Function.update Q l (pre ++ post)) ∧ SamePids s s' := by
  rcases eq_or_ne (Q l) [] with hempty | hne
  · left
    refine ⟨hempty, ?_⟩
    rw [queueStep, h.remove_nil hempty]
  · right
    obtain ⟨pre, w, post, lists, waiting, hsplit, hstop, hremove, hqueues⟩ :=
      h.remove hne pidAll
    refine ⟨pre, w, post, _, hsplit, fun hpid => ?_, ?_, hqueues, fun _ => rfl⟩
    · exact hstop.2.resolve_left (hpid w)
    · rw [queueStep, hremove]

theorem queueStep_ok (h : Queues s Q) (l : ProcRef) (op : QueueOp) :
    ∃ out, queueStep l s op = .ok out := by
  cases op with
  | add p =>
      obtain ⟨s', ev, Q', hstep, -⟩ := queueStep_add h l p
      exact ⟨_, hstep⟩
  | removeAny =>
      rcases queueStep_removeAny h l with ⟨-, hstep⟩ | ⟨pre, w, post, s', -, -, hstep, -⟩
      · exact ⟨_, hstep⟩
      · exact ⟨_, hstep⟩

/-- One operation on a list whose entries are of one process, if it removes one, is an
operation of a first-come-first-served queue. -/
theorem queueStep_fifo (h : Queues s Q) {l : ProcRef} {op : QueueOp}
    (hone : op = .removeAny → HoldsOne s l) {s' : State} {evs : List QueueEvent}
    (hstep : queueStep l s op = .ok (s', evs)) :
    ∃ Q', Queues s' Q' ∧ fifo (Q l) evs = some (Q' l) ∧ SamePids s s' := by
  cases op with
  | add p =>
      obtain ⟨s₁, ev, Q', hadd, hqueues, hfifo, hpids⟩ := queueStep_add h l p
      rw [hadd] at hstep
      cases hstep
      exact ⟨Q', hqueues, hfifo, hpids⟩
  | removeAny =>
      rcases queueStep_removeAny h l with
        ⟨hempty, hremove⟩ | ⟨pre, w, post, s₁, hsplit, -, hremove, hqueues, hpids⟩
      · rw [hremove] at hstep
        cases hstep
        refine ⟨Q, h, ?_, fun _ => rfl⟩
        rw [hempty]
        rfl
      · rw [hremove] at hstep
        cases hstep
        have hall : ∀ x ∈ pre ++ w :: post, x = w := fun x hx =>
          hone rfl Q h x (hsplit ▸ hx) w (by simp [hsplit])
        obtain ⟨hhead, htail⟩ := tail_of_all_eq hall
        refine ⟨_, hqueues, ?_, hpids⟩
        rw [Function.update_self, hsplit, fifo, if_pos hhead.symm, htail]
        rfl

/-- A removal that is one of a first-come-first-served queue was made on a list of
entries of one process. -/
theorem holdsOne_of_fifo (h : Queues s Q) {l : ProcRef}
    (hpid : ∀ p, (s.procs p).pid ≠ pidAll) {s' : State} {Q' : ProcRef → List ProcRef}
    {evs : List QueueEvent} (hstep : queueStep l s .removeAny = .ok (s', evs))
    (h' : Queues s' Q') (hfifo : fifo (Q l) evs = some (Q' l)) : HoldsOne s l := by
  intro Q₁ hQ₁ p hp q hq
  obtain rfl := hQ₁.unique h
  rcases queueStep_removeAny h l with
    ⟨hempty, -⟩ | ⟨pre, w, post, s₁, hsplit, hlast, hremove, hqueues, -⟩
  · rw [hempty] at hp
    cases hp
  · obtain rfl := hlast hpid
    rw [hremove] at hstep
    cases hstep
    obtain rfl := h'.unique hqueues
    rw [hsplit, Function.update_self, List.append_nil, fifo] at hfifo
    split_ifs at hfifo with hhead
    have htail : (pre ++ [w]).tail = pre := Option.some.inj hfifo
    rw [hsplit] at hp hq
    rw [eq_of_tail_eq hhead.symm htail hp, eq_of_tail_eq hhead.symm htail hq]

/-! ### Sequences of operations -/

theorem eventsOf_snoc (tr : List QStep) (t : QStep) :
    eventsOf (tr ++ [t]) = eventsOf tr ++ t.events := by
  simp [eventsOf]

variable {s₀ : State} {Q₀ : ProcRef → List ProcRef} {tr : List QStep}

theorem Run.inOrder (h₀ : Queues s₀ Q₀) (hrun : Machine.Run (queueStep l) s₀ tr s)
    (hone : ∀ t ∈ tr, t.act = .removeAny → HoldsOne t.pre l) : InOrder l (Q₀ l) tr s := by
  refine Machine.Run.invariant (P := fun tr s => InOrder l (Q₀ l) tr s)
    (C := fun t => t.act = .removeAny → HoldsOne t.pre l) ⟨Q₀, h₀, rfl⟩ ?_ hrun hone
  rintro tr s op s' evs - ⟨Q, hQ, hfifo⟩ hone hstep
  obtain ⟨Q', hQ', hfifo', -⟩ := queueStep_fifo hQ hone hstep
  refine ⟨Q', hQ', ?_⟩
  rw [eventsOf_snoc, fifo_append, hfifo]
  exact hfifo'

/-- The lists stay lists, and nobody gets the pid `PID_ALL`. -/
theorem Run.queues (h₀ : Queues s₀ Q₀) (hpid : ∀ p, (s₀.procs p).pid ≠ pidAll)
    (hrun : Machine.Run (queueStep l) s₀ tr s) :
    (∃ Q, Queues s Q) ∧ ∀ p, (s.procs p).pid ≠ pidAll := by
  refine Machine.Run.invariant
    (P := fun _ s => (∃ Q, Queues s Q) ∧ ∀ p, (s.procs p).pid ≠ pidAll)
    (C := fun _ => True) ⟨⟨Q₀, h₀⟩, hpid⟩ ?_ hrun fun _ _ => trivial
  rintro tr s op s' evs - ⟨⟨Q, hQ⟩, hpid⟩ - hstep
  have hpids : (∃ Q, Queues s' Q) ∧ SamePids s s' := by
    cases op with
    | add p =>
        obtain ⟨Q', hQ', -, hpids⟩ := queueStep_fifo hQ (fun hop => by cases hop) hstep
        exact ⟨⟨Q', hQ'⟩, hpids⟩
    | removeAny =>
        rcases queueStep_removeAny hQ l with
          ⟨-, hremove⟩ | ⟨pre, w, post, s₁, -, -, hremove, hqueues, hpids⟩
        · rw [hremove] at hstep
          cases hstep
          exact ⟨⟨Q, hQ⟩, fun _ => rfl⟩
        · rw [hremove] at hstep
          cases hstep
          exact ⟨⟨_, hqueues⟩, hpids⟩
  refine ⟨hpids.1, fun p => ?_⟩
  rw [hpids.2 p]
  exact hpid p

/-- **The list is in order throughout** exactly when each removal finds one process.  `hpid`
says that no process has the pid `PID_ALL`, which is so as pids are indices of the table. -/
theorem inOrder_iff (h₀ : Queues s₀ Q₀) (hpid : ∀ p, (s₀.procs p).pid ≠ pidAll)
    (hrun : Machine.Run (queueStep l) s₀ tr s) :
    (∀ tr₁ s₁, Machine.Run (queueStep l) s₀ tr₁ s₁ → tr₁ <+: tr →
      InOrder l (Q₀ l) tr₁ s₁) ↔
    ∀ t ∈ tr, t.act = .removeAny → HoldsOne t.pre l := by
  constructor
  · intro horder
    refine hrun.forall_transition fun tr' s op s' evs hrun' hpre hstep hop => ?_
    obtain rfl : op = .removeAny := hop
    obtain ⟨-, hpid'⟩ := Run.queues h₀ hpid hrun'
    obtain ⟨Q, hQ, hfifo⟩ := horder _ _ hrun' ((List.prefix_append ..).trans hpre)
    obtain ⟨Q', hQ', hfifo'⟩ := horder _ _ (.snoc hrun' hstep) hpre
    rw [eventsOf_snoc, fifo_append, hfifo] at hfifo'
    exact holdsOne_of_fifo hQ hpid' hstep hQ' hfifo'
  · intro hone tr₁ s₁ hrun₁ hpre
    exact Run.inOrder h₀ hrun₁ fun t ht => hone t (hpre.subset ht)

/-- `krecv(PID_ALL)` takes the last entry of the list. -/
theorem krecv_any (h : Inv s n Q) (hup : s.up = some u) (caller : RecvCaller)
    (hne : Q u ≠ []) :
    ∃ pre w out, Q u = pre ++ [w] ∧ krecv s u pidAll caller = .ok (.ret w out) := by
  rcases krecv_spec h hup pidAll caller with
    ⟨hempty, -⟩ | ⟨pre, w, post, lists, waiting, hsplit, hstop, hrecv, -⟩
  · exact absurd hempty hne
  · obtain ⟨-, hw | rfl⟩ := hstop
    · -- the sender is one of the processes made, whose pids are their slots
      have hsend := ((h.mem_iff u w).mp (by simp [hsplit])).1
      have hlt := h.table.lt_of_ne_dead (p := w) (by rw [hsend]; simp)
      rw [h.table.pid w hlt] at hw
      have hw' := congrArg BitVec.toNat hw
      have hmax : w.val < 512 := w.isLt
      have hall : pidAll.toNat = 0xffffffff := rfl
      rw [BitVec.toNat_ofNat, hall] at hw'
      omega
    · exact ⟨pre, w, _, hsplit, hrecv⟩

/-- The sender that has been queued longest is the one received from exactly when at
most one is queued. -/
theorem krecv_oldest_iff (h : Inv s n Q) (hup : s.up = some u) (caller : RecvCaller) :
    (∀ w rest, Q u = w :: rest → ∃ out, krecv s u pidAll caller = .ok (.ret w out)) ↔
      (Q u).length ≤ 1 := by
  constructor
  · intro holdest
    by_contra hlong
    have hne : Q u ≠ [] := by
      rintro hempty
      simp [hempty] at hlong
    obtain ⟨pre, w, out, hsplit, hrecv⟩ := krecv_any h hup caller hne
    cases pre with
    | nil => simp [hsplit] at hlong
    | cons a pre =>
        obtain ⟨out', hrecv'⟩ := holdest a (pre ++ [w]) hsplit
        rw [hrecv] at hrecv'
        cases hrecv'
        have hnodup := h.nodup u
        simp [hsplit] at hnodup
  · intro hshort w rest hQ
    obtain ⟨pre, w', out, hsplit, hrecv⟩ := krecv_any h hup caller (by simp [hQ])
    rw [hQ, List.length_cons] at hshort
    obtain rfl : rest = [] := List.length_eq_zero_iff.mp (by omega)
    have hends : [] ++ [w] = pre ++ [w'] := hQ.symm.trans hsplit
    obtain ⟨-, hw⟩ := List.append_inj' hends rfl
    obtain rfl : w = w' := by simpa using hw
    exact ⟨out, hrecv⟩

/-- **Receiving from anyone is first come, first served** exactly when the removals find at
most one process on the list: over every sequence of operations on one waiting list, and for
`krecv` in the kernel, where no process is queued twice.  With two senders it is the one that
has come last. -/
theorem receiveAny_iff {l : ProcRef} {s₀ s : State} {Q₀ : ProcRef → List ProcRef}
    {tr : List QStep} (h₀ : Queues s₀ Q₀) (hpid : ∀ p, (s₀.procs p).pid ≠ pidAll)
    (hrun : Machine.Run (queueStep l) s₀ tr s) :
    (∀ op, ∃ out, queueStep l s op = .ok out) ∧
    ((∀ tr₁ s₁, Machine.Run (queueStep l) s₀ tr₁ s₁ → tr₁ <+: tr →
        InOrder l (Q₀ l) tr₁ s₁) ↔
      ∀ t ∈ tr, t.act = .removeAny → HoldsOne t.pre l) ∧
    ∀ {s : State} {n : ℕ} {Q : ProcRef → List ProcRef} {u : ProcRef}, Inv s n Q →
      s.up = some u → ∀ caller,
        ((∀ w rest, Q u = w :: rest →
            ∃ out, krecv s u pidAll caller = .ok (.ret w out)) ↔
          (Q u).length ≤ 1) := by
  refine ⟨fun op => ?_, inOrder_iff h₀ hpid hrun, krecv_oldest_iff⟩
  obtain ⟨⟨Q, hQ⟩, -⟩ := Run.queues h₀ hpid hrun
  exact queueStep_ok hQ _ op

/-- The operations on the waiting list of slot 0 at reset. -/
def exampleList (ops : List QueueOp) : Except Stuck (List QStep × State) :=
  Machine.replay (queueStep 0)
    (reset ⟨0x1000, 0x2000, 0x3000, 0x4000, 0x5000⟩ (fun _ => .zero) fun _ => 0) ops

theorem exists_exampleList (ops : List QueueOp) (P : List QStep → State → Bool)
    (h : (exampleList ops).toOption.any (fun r => P r.1 r.2) = true) :
    ∃ s₀ tr s, Queues s₀ (fun _ => []) ∧ (∀ p, (s₀.procs p).pid ≠ pidAll) ∧
      Machine.Run (queueStep 0) s₀ tr s ∧ tr.map (fun t => t.act) = ops ∧ P tr s = true := by
  cases hrun : exampleList ops with
  | error e => simp [hrun, Except.toOption] at h
  | ok r =>
      obtain ⟨tr, s⟩ := r
      refine ⟨_, tr, s, (reset_inv _ _ _).queues, fun p => ?_, .of_replay hrun,
        Machine.map_act_of_replay hrun, by simpa [hrun, Except.toOption] using h⟩
      change (0 : Word) ≠ pidAll
      decide

/-- Two processes added to an empty list come out the other way round, and `krecv`
takes the one that has come last. -/
theorem last_in_first_out :
    (∃ s₀ tr s, Queues s₀ (fun _ => []) ∧ (∀ p, (s₀.procs p).pid ≠ pidAll) ∧
      Machine.Run (queueStep 0) s₀ tr s ∧
      tr.map (fun t => t.act) = [.add 1, .add 2, .removeAny] ∧ ¬ InOrder 0 [] tr s) ∧
    ∃ tr s n Q, KernelRun tr s ∧ Inv s n Q ∧ s.up = some 0 ∧ Q 0 = [1, 2] ∧
      ∃ out, krecv s 0 pidAll .sysRecv = .ok (.ret 2 out) := by
  constructor
  · obtain ⟨s₀, tr, s, hempty, hpid, hrun, hops, hP⟩ :=
      exists_exampleList [.add 1, .add 2, .removeAny]
        (fun tr _ => fifo [] (eventsOf tr) = none) (by decide +kernel)
    rw [decide_eq_true_eq] at hP
    refine ⟨s₀, tr, s, hempty, hpid, hrun, hops, ?_⟩
    rintro ⟨Q, -, hfifo⟩
    rw [hP] at hfifo
    cases hfifo
  · obtain ⟨tr, s, n, Q, hrun, hinv, hup, hQ, -, -⟩ := exists_twoSenders
    obtain ⟨pre, w, out, hsplit, hrecv⟩ := krecv_any hinv hup .sysRecv (by simp [hQ])
    have hends : [1] ++ [2] = pre ++ [w] := hQ.symm.trans hsplit
    obtain ⟨-, hw⟩ := List.append_inj' hends rfl
    obtain rfl : 2 = w := by simpa using hw
    exact ⟨tr, s, n, Q, hrun, hinv, hup, hQ, out, hrecv⟩

/-- A list of one node. -/
theorem holdsOne_of_next_none {i : ListRef} (hwaiting : (s.procs l).waiting = some i)
    (hnext : (s.lists i).next = none) : HoldsOne s l := by
  rintro Q ⟨nodes, hrep⟩ p hp q hq
  have hseg : Seg (fun i => (s.lists i).next) (s.procs l).waiting [i] := by
    rw [hwaiting]
    refine .cons ?_
    rw [hnext]
    exact .nil
  have hlen := hrep.length_eq l
  rw [(hrep.family.seg l).unique hseg, List.length_singleton] at hlen
  obtain ⟨w, hw⟩ := List.length_eq_one_iff.mp hlen.symm
  rw [hw, List.mem_singleton] at hp hq
  rw [hp, hq]

/-- Two processes that come one after the other, each taken out before the next one
comes. -/
theorem in_order_one_by_one :
    ∃ s₀ tr s, tr.map (fun t => t.act) = [.add 1, .removeAny, .add 2, .removeAny] ∧
      Machine.Run (queueStep 0) s₀ tr s ∧
      (∀ tr₁ s₁, Machine.Run (queueStep 0) s₀ tr₁ s₁ → tr₁ <+: tr → InOrder 0 [] tr₁ s₁) ∧
      ∃ s n Q, Inv s n Q ∧
        ((∀ w rest, Q 0 = w :: rest →
          ∃ out, krecv s 0 pidAll .sysRecv = .ok (.ret w out)) ↔ (Q 0).length ≤ 1) := by
  obtain ⟨s₀, tr, s, hempty, hpid, hrun, hops, hP⟩ :=
    exists_exampleList [.add 1, .removeAny, .add 2, .removeAny]
      (fun tr _ => tr.all fun t => t.act ≠ .removeAny ∨
        (t.pre.procs 0).waiting.any fun i => (t.pre.lists i).next = none)
      (by decide +kernel)
  have hone : ∀ t ∈ tr, t.act = .removeAny → HoldsOne t.pre 0 := by
    intro t ht hact
    have hshape := of_decide_eq_true (List.all_eq_true.mp hP t ht)
    obtain ⟨i, hwaiting, hnext⟩ :=
      (Option.any_eq_true _ _).mp (hshape.resolve_left fun hne => hne hact)
    exact holdsOne_of_next_none hwaiting (of_decide_eq_true hnext)
  obtain ⟨-, s', n, Q, -, hinv, hup, -, -⟩ := exists_twoSenders
  obtain ⟨-, horder, hkrecv⟩ := receiveAny_iff hempty hpid hrun
  exact ⟨s₀, tr, s, hops, hrun, horder.mpr hone, s', n, Q, hinv, hkrecv hinv hup .sysRecv⟩

end Omb
