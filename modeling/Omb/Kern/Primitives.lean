import Omb.Kern.Machine
import Omb.Kern.Invariant

/-!
# What the kernel functions do

One specification for each kernel function, from states in which the invariant holds: the
state it leaves in closed form, what it returns or that it switches, and the invariant
afterwards. Later proofs use these and do not unfold the functions.

The closed forms are `State.blockOn` (`ksend`), `State.takeMessage` (`krecv`), `deliverReply`
(`kreply`) and `State.spawn` (`proc_new`); a context switch on top of one of them is
`State.switchFrom`.  They say what becomes of every field of every process, and leave open
only which nodes of the pool are used (`lists`, `waiting`) and how the list of alive processes
is linked (`alive`, `nexts`); the invariant says what these stand for.

The functions are specified for a caller that is running, since that is what keeps it out of
all queues: it is not in `PROC_send`, so it can be put on a queue once (`Inv.not_mem_queue`).

## Main results

* `ksend_spec`, `krecv_spec`, `kreply_spec`, `kreplyRecv_spec`: the message primitives
* `procNew_spec`: making a process, while there is a slot for it
-/

namespace Omb

open PointerList

variable {s : State} {n : ℕ} {Q : ProcRef → List ProcRef} {u : ProcRef}

/-- A running process is not suspended, so it is in no queue.  This is what makes it safe to
put it on one. -/
theorem Inv.not_mem_queue (h : Inv s n Q) (hup : s.up = some u) (p : ProcRef) :
    u ∉ Q p := by
  intro hmem
  have hsend := ((h.mem_iff p u).mp hmem).1
  rw [h.running u hup] at hsend
  cases hsend

/-- Every process but the running one is suspended. -/
theorem Inv.suspended (h : Inv s n Q) (hup : s.up = some u) {p : ProcRef} (hp : p ≠ u) :
    SuspendedAt (s.procs p).state (s.procs p).label :=
  h.parked p fun heq => hp (Option.some.inj (hup ▸ heq)).symm

/-- The invariant does not depend on which code of `up` runs next. -/
theorem Inv.toUser (h : Inv s n Q) (hup : s.up = some u) :
    Inv { s with control := .user } n Q where
  toCore := h.toCore.congr rfl rfl rfl rfl fun _ => ⟨rfl, rfl, rfl, rfl, rfl, rfl⟩
  running := h.running
  idle := h.idle
  control := by simp [hup]

/-! ## `ksend` -/

/-- `u` is in `PROC_send` on the queue of `p`.  Who it waits on, its state and the queue are
written one after the other in the source, and this is when all is done. -/
def State.blockOn (s : State) (u p : ProcRef) (lists : ListRef → ProcList)
    (waiting : ProcRef → Option ListRef) : State :=
  { s with
    lists := lists
    procs := fun q =>
      { s.procs q with
        waiting := waiting q
        waitingOn := if q = u then some p else (s.procs q).waitingOn
        state := if q = u then .send else (s.procs q).state } }

/-- `ksend` up to its call of `schedule`.  The state it leaves is not one between two steps
yet, so only `Core` holds of it. -/
theorem Inv.blockOn (h : Inv s n Q) (hup : s.up = some u) {p : ProcRef} (hp : p.val < n) :
    ∃ lists waiting,
      procListAdd (s.modifyProc u fun q => { q with waitingOn := some p }) p u =
        .ok (some ((s.modifyProc u fun q => { q with waitingOn := some p }).withQueues
          lists waiting)) ∧
      (((s.modifyProc u fun q => { q with waitingOn := some p }).withQueues
        lists waiting).modifyProc u fun q => { q with state := .send }) =
          s.blockOn u p lists waiting ∧
      Core (s.blockOn u p lists waiting) n (Function.update Q p (Q p ++ [u])) := by
  obtain ⟨nodes, hrep⟩ := h.queues
  let s₁ := s.modifyProc u fun q => { q with waitingOn := some p }
  have hrep₁ : QueueRep s₁ nodes Q :=
    hrep.congr rfl fun q => State.modifyProc_field Proc.waiting rfl q
  obtain ⟨i, hfree⟩ := hrep₁.exists_freeSlot h.nodup h.queue_unique
  obtain ⟨lists, waiting, hadd, hrep₂⟩ := procListAdd_spec (l := p) (p := u) hrep₁ hfree
  have hclosed : ((s₁.withQueues lists waiting).modifyProc u fun q =>
      { q with state := .send }) = s.blockOn u p lists waiting := by
    unfold State.blockOn State.modifyProc
    congr 1
    funext q
    by_cases hq : q = u
    · subst hq
      simp [State.withQueues, s₁]
    · simp [State.withQueues, s₁, hq]
  refine ⟨lists, waiting, hadd, hclosed, ?_⟩
  have hnot := h.not_mem_queue hup
  have hqueue : ∀ k w, w ∈ Function.update Q p (Q p ++ [u]) k ↔
      w ∈ Q k ∨ (w = u ∧ k = p) := by
    intro k w
    by_cases hk : k = p
    · subst hk
      simp
    · simp [hk]
  have hu := h.running u hup
  refine
    { table := ?_
      queues := ⟨_, hrep₂.congr rfl fun q => rfl⟩
      nodup := ?_
      mem_iff := ?_
      blocked := ?_
      parked := ?_ }
  · refine h.table.congr (fun q => rfl) rfl (fun q => ?_) rfl fun q => rfl
    by_cases hq : q = u
    · subst hq
      simp [State.blockOn, hu]
    · simp [State.blockOn, hq]
  · intro k
    by_cases hk : k = p
    · subst hk
      rw [Function.update_self]
      exact (h.nodup k).append (List.nodup_singleton u)
        (List.disjoint_singleton.mpr (hnot k))
    · rw [Function.update_of_ne hk]
      exact h.nodup k
  · intro k w
    rw [hqueue]
    by_cases hw : w = u
    · subst hw
      simp [State.blockOn, hnot k, eq_comm]
    · simp [State.blockOn, hw, h.mem_iff k w]
  · intro w hw
    by_cases hwu : w = u
    · exact ⟨p, by simp [State.blockOn, hwu], hp⟩
    · simp only [State.blockOn, if_neg hwu] at hw ⊢
      exact h.blocked w hw
  · intro q hq
    have hqu : q ≠ u := fun heq => hq (heq ▸ hup)
    simp only [State.blockOn, if_neg hqu]
    exact h.parked q hq

/-- **`ksend`** to a dead process is refused; to any other it blocks the caller on that
process' queue, and hands the CPU over if the process is receiving.  Otherwise whoever is next
gets it, so that a process which sends never goes on at once. -/
theorem ksend_spec (h : Inv s n Q) (hup : s.up = some u) (p : ProcRef) :
    ((s.procs p).state = .dead ∧ ksend s u p = .ok (.ret err (s, []))) ∨
    ((s.procs p).state ≠ .dead ∧ ∃ lists waiting r handed,
      ksend s u p = .ok (.switched ((s.blockOn u p lists waiting).switchFrom .ksend r,
        [.sent u p, .scheduled handed])) ∧
      Inv ((s.blockOn u p lists waiting).switchFrom .ksend r) n
        (Function.update Q p (Q p ++ [u])) ∧
      (∀ q, r = some q → q ≠ u ∧
        ((s.procs q).state = .ready ∨ (s.procs q).state = .recv)) ∧
      (∀ q st, handed = some (q, st) → st = .recv) ∧
      ((s.procs p).state = .recv → r = some p)) := by
  by_cases hdead : (s.procs p).state = .dead
  · exact .inl ⟨hdead, by rw [ksend, if_pos hdead]⟩
  · right
    refine ⟨hdead, ?_⟩
    obtain ⟨lists, waiting, hadd, hclosed, hcore⟩ :=
      h.blockOn hup (h.table.lt_of_ne_dead hdead)
    have hk : ∀ v, (s.blockOn u p lists waiting).up = some v →
        SuspendedAt (savedState ((s.blockOn u p lists waiting).procs v).state) .ksend := by
      intro v hv
      obtain rfl := Option.some.inj (hup.symm.trans hv)
      simp [State.blockOn, savedState, SuspendedAt]
    unfold ksend
    rw [if_neg hdead]
    simp only [hadd, hclosed]
    by_cases hrecv : ((s.blockOn u p lists waiting).procs p).state = .recv
    · -- the receiver is parked: hand over to it
      have hpu : p ≠ u := by
        rintro rfl
        simp [State.blockOn] at hrecv
      have hst : (s.procs p).state = .recv := by
        simpa [State.blockOn, hpu] using hrecv
      refine ⟨lists, waiting, some p, some (p, .recv), ?_, ?_, ?_, ?_, fun _ => rfl⟩
      · rw [if_pos hrecv, schedule_some, hrecv]
      · exact hcore.schedule_some hk (by simp [hrecv]) (by simp [hrecv])
      · rintro q hq
        obtain rfl := Option.some.inj hq
        exact ⟨hpu, .inr hst⟩
      · rintro q st heq
        exact (Prod.ext_iff.mp (Option.some.inj heq)).2.symm
    · obtain ⟨r, hsched, hinv, hready⟩ := hcore.schedule_none hk (by
        intro v hv
        obtain rfl := Option.some.inj (hup.symm.trans hv)
        simp [State.blockOn])
      refine ⟨lists, waiting, r, none, ?_, hinv, ?_, by simp, ?_⟩
      · rw [if_neg hrecv, hsched]
      · intro q hq
        have hst := hready q hq
        rw [saveLabel_procs] at hst
        by_cases hqu : q = u
        · subst hqu
          simp [State.blockOn, hup, savedState] at hst
        · have hup' : (s.blockOn u p lists waiting).up ≠ some q := fun heq =>
            hqu (Option.some.inj (hup.symm.trans heq)).symm
          simp only [if_neg hup'] at hst
          simp only [State.blockOn, if_neg hqu] at hst
          exact ⟨hqu, .inl hst⟩
      · intro hst
        refine absurd ?_ hrecv
        have hpu : p ≠ u := by
          rintro rfl
          rw [h.running p hup] at hst
          cases hst
        simpa [State.blockOn, hpu] using hst

/-! ## `krecv` -/

/-- `u` has taken the message of `w`, which now awaits its reply, and `w` is not in the queue
any more. -/
def State.takeMessage (s : State) (u w : ProcRef) (lists : ListRef → ProcList)
    (waiting : ProcRef → Option ListRef) : State :=
  { s with
    lists := lists
    pages := Function.update s.pages (s.procs u).page
      { s.pageOf u with mIn := (s.pageOf w).mOut }
    procs := fun q =>
      { s.procs q with
        waiting := waiting q
        state := if q = w then .reply else (s.procs q).state } }

/-- `u` in `PROC_recv`, before the context switch. -/
def State.receiving (s : State) (u : ProcRef) : State :=
  s.modifyProc u fun q => { q with state := .recv }

theorem State.receiving_state (s : State) (u p : ProcRef) :
    ((s.receiving u).procs p).state = if p = u then .recv else (s.procs p).state := by
  unfold receiving
  rw [modifyProc_procs]
  split_ifs with hp
  · rfl
  · rfl

theorem State.receiving_field {β : Sort*} (g : Proc → β)
    (hg : ∀ p, g { p with state := .recv } = g p) (s : State) (u p : ProcRef) :
    g ((s.receiving u).procs p) = g (s.procs p) :=
  State.modifyProc_field g (hg _) p

theorem Inv.receiving (h : Inv s n Q) (hup : s.up = some u) : Core (s.receiving u) n Q := by
  obtain ⟨nodes, hrep⟩ := h.queues
  have hu := h.running u hup
  have hother : ∀ p, p ≠ u → ((s.receiving u).procs p).state = (s.procs p).state := by
    intro p hp
    rw [State.receiving_state, if_neg hp]
  have hself : ((s.receiving u).procs u).state = .recv := by
    rw [State.receiving_state, if_pos rfl]
  -- `u` stops running but is neither dead, nor sending, nor awaiting a reply
  have hstate : ∀ p st, st ≠ .recv → st ≠ .oncpu →
      (((s.receiving u).procs p).state = st ↔ (s.procs p).state = st) := by
    intro p st hrecv honcpu
    by_cases hp : p = u
    · subst hp
      rw [hself, hu]
      exact iff_of_false (Ne.symm hrecv) (Ne.symm honcpu)
    · rw [hother p hp]
  have hon : ∀ p, ((s.receiving u).procs p).waitingOn = (s.procs p).waitingOn :=
    State.receiving_field Proc.waitingOn (fun _ => rfl) s u
  refine
    { table := ?_
      queues := ⟨nodes, hrep.congr rfl
        (State.receiving_field Proc.waiting (fun _ => rfl) s u)⟩
      nodup := h.nodup
      mem_iff := ?_
      blocked := ?_
      parked := ?_ }
  · exact h.table.congr (State.receiving_field Proc.next (fun _ => rfl) s u) rfl
      (fun p => hstate p .dead (by simp) (by simp)) rfl
      (State.receiving_field Proc.pid (fun _ => rfl) s u)
  · intro p w
    rw [h.mem_iff, hstate w .send (by simp) (by simp), hon]
  · intro w hw
    rw [hon]
    rcases hw with hw | hw
    · exact h.blocked w (.inl ((hstate w _ (by simp) (by simp)).mp hw))
    · exact h.blocked w (.inr ((hstate w _ (by simp) (by simp)).mp hw))
  · intro p hp
    have hpu : p ≠ u := fun heq => hp (heq ▸ hup)
    rw [hother p hpu, State.receiving_field Proc.label (fun _ => rfl)]
    exact h.parked p hp

/-- Nobody is queued twice, so when the entry of `w` is out of its queue `w` is in none. -/
theorem Core.mem_update_of_split (h : Core s n Q) {pre post : List ProcRef} {w : ProcRef}
    (hsplit : Q u = pre ++ w :: post) :
    (pre ++ post).Nodup ∧
      ∀ p x, x ∈ Function.update Q u (pre ++ post) p ↔ x ∈ Q p ∧ x ≠ w := by
  have hw : w ∈ Q u := by
    rw [hsplit]
    simp
  have hnodup : (pre ++ post).Nodup ∧ w ∉ pre ++ post := by
    have hdup := h.nodup u
    rw [hsplit, List.nodup_middle, List.nodup_cons] at hdup
    exact ⟨hdup.2, hdup.1⟩
  refine ⟨hnodup.1, fun p x => ?_⟩
  by_cases hp : p = u
  · subst hp
    rw [Function.update_self, hsplit, List.mem_append, List.mem_append, List.mem_cons]
    constructor
    · intro hx
      refine ⟨hx.elim .inl fun hx => .inr (.inr hx), ?_⟩
      rintro rfl
      exact hnodup.2 (List.mem_append.mpr hx)
    · rintro ⟨hx | hx | hx, hne⟩
      · exact .inl hx
      · exact absurd hx hne
      · exact .inr hx
  · rw [Function.update_of_ne hp]
    refine ⟨fun hx => ⟨hx, ?_⟩, And.left⟩
    rintro rfl
    exact hp (h.queue_unique p u x hx hw)

theorem Inv.takeMessage (h : Inv s n Q) (hup : s.up = some u) {pre post : List ProcRef}
    {w : ProcRef} (hsplit : Q u = pre ++ w :: post) {lists : ListRef → ProcList}
    {waiting : ProcRef → Option ListRef} {nodes : ProcRef → List ListRef}
    (hrep : QueueRep (s.withQueues lists waiting) nodes
      (Function.update Q u (pre ++ post))) :
    Inv (s.takeMessage u w lists waiting) n (Function.update Q u (pre ++ post)) := by
  have hw : w ∈ Q u := by
    rw [hsplit]
    simp
  obtain ⟨hsend, hon⟩ := (h.mem_iff u w).mp hw
  have hwu : u ≠ w := fun heq => h.not_mem_queue hup u (heq ▸ hw)
  obtain ⟨hnodup, hqueue⟩ := h.toCore.mem_update_of_split hsplit
  refine
    { table := ?_
      queues := ⟨nodes, hrep.congr rfl fun _ => rfl⟩
      nodup := ?_
      mem_iff := ?_
      blocked := ?_
      parked := ?_
      running := ?_
      idle := ?_
      control := h.control }
  · refine h.table.congr (fun _ => rfl) rfl (fun p => ?_) rfl fun _ => rfl
    by_cases hp : p = w
    · subst hp
      simp [State.takeMessage, hsend]
    · simp [State.takeMessage, hp]
  · intro p
    by_cases hp : p = u
    · subst hp
      rw [Function.update_self]
      exact hnodup
    · rw [Function.update_of_ne hp]
      exact h.nodup p
  · intro p x
    rw [hqueue, h.mem_iff]
    by_cases hx : x = w
    · subst hx
      simp [State.takeMessage]
    · simp [State.takeMessage, hx]
  · intro x hx
    by_cases hxw : x = w
    · refine ⟨u, by simp [State.takeMessage, hxw, hon], h.table.lt_of_ne_dead ?_⟩
      simp [h.running u hup]
    · simp only [State.takeMessage, if_neg hxw] at hx ⊢
      exact h.blocked x hx
  · intro p hp
    have hpar := h.parked p hp
    by_cases hpw : p = w
    · subst hpw
      rw [hsend] at hpar
      have hk := hpar.label_of_blocked (.inl rfl)
      simp [State.takeMessage, hk, SuspendedAt]
    · simpa only [State.takeMessage, if_neg hpw] using hpar
  · intro v hv
    obtain rfl := Option.some.inj (hup.symm.trans hv)
    simp only [State.takeMessage, if_neg hwu]
    exact h.running u hup
  · intro hnone
    exact absurd (hup.symm.trans hnone) (by simp)

/-- **`krecv`** parks the caller exactly when its queue is empty; otherwise it takes the entry
`proc_list_remove` stops at, which is the last one if no sender matches. -/
theorem krecv_spec (h : Inv s n Q) (hup : s.up = some u) (pid : Word)
    (caller : RecvCaller) :
    (Q u = [] ∧ ∃ r,
      krecv s u pid caller = .ok (.switched
        ((s.receiving u).switchFrom (.krecv pid caller) r, [.scheduled none])) ∧
      Inv ((s.receiving u).switchFrom (.krecv pid caller) r) n Q ∧
      ∀ q, r = some q → q ≠ u ∧ (s.procs q).state = .ready) ∨
    (∃ pre w post lists waiting, Q u = pre ++ w :: post ∧
      StopsAt (fun x => (s.procs x).pid = pid) pre w post ∧
      krecv s u pid caller =
        .ok (.ret w (s.takeMessage u w lists waiting, [.received u w])) ∧
      Inv (s.takeMessage u w lists waiting) n (Function.update Q u (pre ++ post))) := by
  obtain ⟨nodes, hrep⟩ := h.queues
  by_cases hempty : Q u = []
  · left
    refine ⟨hempty, ?_⟩
    have hup' : (s.receiving u).up = some u := hup
    obtain ⟨r, hsched, hinv, hready⟩ := (h.receiving hup).schedule_none
      (k := .krecv pid caller)
      (fun v hv => by
        obtain rfl := Option.some.inj (hup'.symm.trans hv)
        rw [State.receiving_state, if_pos rfl]
        exact trivial)
      (fun v hv => by
        obtain rfl := Option.some.inj (hup'.symm.trans hv)
        rw [State.receiving_state, if_pos rfl]
        simp)
    refine ⟨r, ?_, hinv, fun q hq => ?_⟩
    · unfold krecv
      rw [procListRemove_nil hrep hempty pid]
      change Flow.schedule (s.receiving u) (.krecv pid caller) none = _
      rw [Flow.schedule, hsched]
    · have hst := hready q hq
      rw [saveLabel_procs, hup'] at hst
      by_cases hqu : q = u
      · subst hqu
        simp [State.receiving_state, savedState] at hst
      · have hne : some u ≠ some q := fun heq => hqu (Option.some.inj heq).symm
        simp only [if_neg hne, State.receiving_state, if_neg hqu] at hst
        exact ⟨hqu, hst⟩
  · right
    obtain ⟨pre, w, post, lists, waiting, nodes', hsplit, hstop, hremove, hrep'⟩ :=
      procListRemove_spec hrep hempty pid
    refine ⟨pre, w, post, lists, waiting, hsplit, hstop, ?_,
      h.takeMessage hup hsplit hrep'⟩
    unfold krecv
    rw [hremove]
    have hclosed : (((s.withQueues lists waiting).modifyPage
        ((s.withQueues lists waiting).procs u).page fun g =>
          { g with mIn := ((s.withQueues lists waiting).pageOf w).mOut }).modifyProc w
            fun q => { q with state := .reply }) = s.takeMessage u w lists waiting := by
      unfold State.takeMessage State.modifyProc State.modifyPage
      congr 1
      funext q
      by_cases hq : q = w
      · subst hq
        simp [State.withQueues]
      · simp [State.withQueues, hq]
    exact congrArg (fun t => Except.ok (Flow.ret w (t, [Event.received u w]))) hclosed

/-! ## `kreply` and `kreply_recv` -/

theorem Inv.deliverReply (h : Inv s n Q) (p : ProcRef) (ret : Word) :
    Inv (deliverReply s u p ret) n Q where
  toCore := h.toCore.congr rfl rfl rfl rfl fun _ => ⟨rfl, rfl, rfl, rfl, rfl, rfl⟩
  running := h.running
  idle := h.idle
  control := h.control

theorem kreply_refused {p : ProcRef} (hawait : ¬ awaitsReply s u p) (ret : Word)
    (caller : ReplyCaller) : kreply s u p ret caller = .ok (.ret err (s, [])) := by
  rw [kreply, if_neg hawait]

theorem kreplyRecv_refused {p : ProcRef} (hawait : ¬ awaitsReply s u p) (ret pid : Word) :
    kreplyRecv s u p ret pid = .ok (.ret none (s, [])) := by
  rw [kreplyRecv, if_neg hawait]

/-- **`kreply`** to a process that awaits it delivers and hands the CPU over.  The process
replied to is not queued anywhere, so it may run. -/
theorem kreply_spec (h : Inv s n Q) {p : ProcRef}
    (hawait : awaitsReply s u p) (ret : Word) (caller : ReplyCaller) :
    kreply s u p ret caller = .ok (.switched
      ((deliverReply s u p ret).switchFrom (.kreply caller) (some p),
        [.replied u p ret, .scheduled (some (p, .reply))])) ∧
    Inv ((deliverReply s u p ret).switchFrom (.kreply caller) (some p)) n Q := by
  have hst : ((deliverReply s u p ret).procs p).state = .reply := hawait.1
  constructor
  · unfold kreply
    rw [if_pos hawait, schedule_some, hst]
  · refine (h.deliverReply p ret).toCore.schedule_some ?_ (by simp [hst]) (by simp [hst])
    intro v hv
    have hrun : ((deliverReply s u p ret).procs v).state = .oncpu := h.running v hv
    rw [hrun]
    exact trivial

/-- **`kreply_recv`** to a process that awaits it delivers, parks the caller in `PROC_recv`
and hands the CPU over; the queue of the caller is not looked at. -/
theorem kreplyRecv_spec (h : Inv s n Q) (hup : s.up = some u) {p : ProcRef}
    (hawait : awaitsReply s u p) (ret pid : Word) :
    kreplyRecv s u p ret pid = .ok (.switched
      (((deliverReply s u p ret).receiving u).switchFrom (.kreplyRecv pid) (some p),
        [.replied u p ret, .scheduled (some (p, .reply))])) ∧
    Inv (((deliverReply s u p ret).receiving u).switchFrom (.kreplyRecv pid) (some p)) n Q := by
  have hup' : (deliverReply s u p ret).up = some u := hup
  have hpu : p ≠ u := by
    rintro rfl
    have hrun := h.running p hup
    rw [hawait.1] at hrun
    cases hrun
  have hst : (((deliverReply s u p ret).receiving u).procs p).state = .reply := by
    rw [State.receiving_state, if_neg hpu]
    exact hawait.1
  constructor
  · unfold kreplyRecv
    rw [if_pos hawait]
    simp only [schedule_some]
    rw [← hst]
    rfl
  · refine ((h.deliverReply p ret).receiving hup').schedule_some ?_ (by simp [hst])
      (by simp [hst])
    intro v hv
    obtain rfl := Option.some.inj (hup.symm.trans hv)
    rw [State.receiving_state, if_pos rfl]
    exact trivial

/-! ## `proc_new` -/

/-- A new process in the slot `nextpid`, last on the list `alive`, `nexts`.  Its page is
cleared but for its pid. -/
def State.spawn (s : State) (space page : Word) (alive : Option ProcRef)
    (nexts : ProcRef → Option ProcRef) : State :=
  { s with
    nextpid := s.nextpid + 1
    alive := alive
    pages := Function.update s.pages page
      { ProcPage.zero with pid := BitVec.ofNat 32 s.nextpid.val }
    procs := fun q =>
      { (if q = s.nextpid then freshProc (BitVec.ofNat 32 s.nextpid.val) space page
          else s.procs q) with
        next := nexts q } }

/-- `proc_new` after the slot has been filled in. -/
theorem procNew_of_add {s s' : State} {space page : Word}
    (h : addToListBack ((({ s with nextpid := s.nextpid + 1 } : State).modifyProc s.nextpid
        fun _ => freshProc (BitVec.ofNat 32 s.nextpid.val) space page).modifyPage page
      fun _ => { ProcPage.zero with pid := BitVec.ofNat 32 s.nextpid.val }) s.nextpid = .ok s') :
    procNew s space page = .ok (s.nextpid, s') := by
  simp only [procNew, h]

/-- `proc_new` when the slot it is about to use is not on the list.  Whether it is dead is not
looked at. -/
theorem procNew_eq {nodes : List ProcRef} (halive : Seg s.nexts s.alive nodes)
    (hfresh : s.nextpid ∉ nodes) (space page : Word) :
    ∃ alive nexts,
      procNew s space page = .ok (s.nextpid, s.spawn space page alive nexts) ∧
      Seg nexts alive (nodes ++ [s.nextpid]) := by
  let word : Word := BitVec.ofNat 32 s.nextpid.val
  let s₁ := (({ s with nextpid := s.nextpid + 1 } : State).modifyProc s.nextpid
    fun _ => freshProc word space page).modifyPage page
      fun _ => { ProcPage.zero with pid := word }
  have hother : ∀ q, q ≠ s.nextpid → s₁.procs q = s.procs q := fun q hq =>
    Function.update_of_ne hq ..
  have hseg : Seg s₁.nexts s₁.alive nodes :=
    halive.congr fun q hq => by
      rw [State.nexts, hother q (ne_of_mem_of_not_mem hq hfresh)]
  obtain ⟨alive, nexts, hadd, hseg'⟩ := addToListBack_spec hseg hfresh
  refine ⟨alive, nexts, ?_, hseg'⟩
  have hclosed : s₁.withAlive alive nexts = s.spawn space page alive nexts := by
    unfold State.withAlive State.spawn
    congr 1
    funext q
    by_cases hq : q = s.nextpid
    · subst hq
      simp [s₁, word]
    · rw [hother q hq, if_neg hq]
  rw [hclosed] at hadd
  exact procNew_of_add hadd

/-- Everybody but the new process keeps what it has, but for its place on the list. -/
theorem State.spawn_procs_of_ne {alive : Option ProcRef} {nexts : ProcRef → Option ProcRef}
    {space page : Word} {q : ProcRef} (hq : q ≠ s.nextpid) :
    (s.spawn space page alive nexts).procs q = { s.procs q with next := nexts q } := by
  simp [State.spawn, hq]

theorem State.spawn_procs_nextpid {alive : Option ProcRef} {nexts : ProcRef → Option ProcRef}
    {space page : Word} :
    (s.spawn space page alive nexts).procs s.nextpid =
      { freshProc (BitVec.ofNat 32 s.nextpid.val) space page with next := nexts s.nextpid } := by
  simp [State.spawn]

/-- The table has one more process, which is the last one of the list. -/
theorem Table.spawn (h : Table s n) (hn : n < maxProcs) (hslot : s.nextpid.val = n)
    {space page : Word} {alive : Option ProcRef} {nexts : ProcRef → Option ProcRef}
    (hseg : Seg nexts alive (firstProcs n ++ [s.nextpid])) :
    Table (s.spawn space page alive nexts) (n + 1) := by
  have hlt : ∀ q : ProcRef, q ≠ s.nextpid → (q.val < n + 1 ↔ q.val < n) := by
    intro q hq
    have hne : q.val ≠ n := fun heq => hq (Fin.ext (heq.trans hslot.symm))
    omega
  refine ⟨hn, ?_, ?_, ?_, ?_⟩
  · have hlast : s.nextpid = ⟨n, hn⟩ := Fin.ext hslot
    rw [firstProcs_succ hn, ← hlast]
    exact hseg
  · intro q
    by_cases hq : q = s.nextpid
    · subst hq
      rw [State.spawn_procs_nextpid]
      exact iff_of_false (by simp [freshProc]) (by omega)
    · rw [State.spawn_procs_of_ne hq]
      change (s.procs q).state = .dead ↔ n + 1 ≤ q.val
      rw [h.dead_iff]
      have hltq := hlt q hq
      omega
  · change (s.nextpid + 1).val = (n + 1) % maxProcs
    rw [Fin.val_add, hslot]
    rfl
  · intro q hq
    by_cases hqn : q = s.nextpid
    · subst hqn
      rw [State.spawn_procs_nextpid]
      rfl
    · rw [State.spawn_procs_of_ne hqn]
      exact h.pid q ((hlt q hqn).mp hq)

/-- **`proc_new`** takes the next slot of the table while there is one.  The slot was dead, so
it has no queue and is in none. -/
theorem procNew_spec (h : Inv s n Q) (hn : n < maxProcs) (space page : Word) :
    ∃ alive nexts,
      procNew s space page = .ok (s.nextpid, s.spawn space page alive nexts) ∧
      s.nextpid.val = n ∧ Core (s.spawn space page alive nexts) (n + 1) Q := by
  have hslot : s.nextpid.val = n := by
    rw [h.table.nextpid, Nat.mod_eq_of_lt hn]
  have hfresh : s.nextpid ∉ firstProcs n := by
    rw [mem_firstProcs]
    omega
  obtain ⟨alive, nexts, hnew, hseg⟩ := procNew_eq h.table.alive hfresh space page
  obtain ⟨nodes, hrep⟩ := h.queues
  have hdead : (s.procs s.nextpid).state = .dead := (h.table.dead_iff _).mpr hslot.ge
  have hhead : (s.procs s.nextpid).waiting = none :=
    (hrep.family.seg _).head_none_iff.mpr
      ((hrep.nodes_eq_nil_iff _).mpr (h.queue_eq_nil hslot.ge))
  have hwaiting : ∀ q, ((s.spawn space page alive nexts).procs q).waiting =
      (s.procs q).waiting := by
    intro q
    by_cases hq : q = s.nextpid
    · subst hq
      rw [State.spawn_procs_nextpid, hhead]
      rfl
    · rw [State.spawn_procs_of_ne hq]
  refine ⟨alive, nexts, hnew, hslot,
    { table := h.table.spawn hn hslot hseg
      queues := ⟨nodes, hrep.congr rfl hwaiting⟩
      nodup := h.nodup
      mem_iff := ?_
      blocked := ?_
      parked := ?_ }⟩
  · intro p w
    rw [h.mem_iff]
    by_cases hw : w = s.nextpid
    · subst hw
      rw [State.spawn_procs_nextpid, hdead]
      simp [freshProc]
    · rw [State.spawn_procs_of_ne hw]
  · intro w hw
    by_cases hwn : w = s.nextpid
    · subst hwn
      rw [State.spawn_procs_nextpid] at hw
      simp [freshProc] at hw
    · rw [State.spawn_procs_of_ne hwn] at hw ⊢
      obtain ⟨b, hb, hbn⟩ := h.blocked w hw
      exact ⟨b, hb, by omega⟩
  · intro p hp
    by_cases hpn : p = s.nextpid
    · subst hpn
      rw [State.spawn_procs_nextpid]
      exact trivial
    · rw [State.spawn_procs_of_ne hpn]
      exact h.parked p hp

end Omb
