import Omb.Kern.Accept
import Omb.Kern.Confine
import Omb.Kern.Rendezvous

/-!
# The kernel does not get stuck

In every state that boot leads to, the loops of the scheduler and of the waiting lists come to
their ends, no null pointer is followed, and the label switched to is one that has been saved.
What can go wrong is what a system call brings with it: a pid that is no index of the table
(`Inv.derefs_inRange`), a transfer that does not end, or an address where there is no memory.
Of the last two `Omb.Kern.Aborts` has more to say.

Every function is taken up once, with what it leaves alone (`Completes`).  That needs the
invariant `Inv` of the queues, and with it that no more than `MAX_PROCS` processes have been
made; only the code at a label needs more, that there is one (`KernelRun.labelled`).

## Main results

* `KernelRun.labelled`: every process that has been made has a label to go on from
* `Inv.step_ok`: a step that exists comes to its end
-/

namespace Omb

variable {s s' : State} {n n' : ℕ} {Q Q' : ProcRef → List ProcRef} {u : ProcRef}

/-- Nothing has changed that transfers are about. -/
structure SameSpaces (s s' : State) : Prop where
  mem : s'.mem = s.mem
  space : ∀ p, (s'.procs p).space = (s.procs p).space
  addrOffer : ∀ p, (s'.procs p).addrOffer = (s.procs p).addrOffer

/-- The code comes to its end, and has left spaces and offers alone.  Only `sys_proc_create`
and the calls about addresses are not of this kind. -/
def Completes (s : State) (x : Except Stuck Out) : Prop :=
  ∃ s' evs, x = .ok (s', evs) ∧ SameSpaces s s'

theorem SameSpaces.refl (s : State) : SameSpaces s s :=
  ⟨rfl, fun _ => rfl, fun _ => rfl⟩

theorem SameSpaces.switchFrom {s₁ : State} (h : SameSpaces s s₁) (k : Label)
    (r : Option ProcRef) : SameSpaces s (s₁.switchFrom k r) := by
  rw [State.switchFrom_eq]
  exact ⟨h.mem, h.space, h.addrOffer⟩

theorem SameSpaces.receiving {s₁ : State} (h : SameSpaces s s₁) (u : ProcRef) :
    SameSpaces s (s₁.receiving u) where
  mem := h.mem
  space p := (State.receiving_field Proc.space (fun _ => rfl) s₁ u p).trans (h.space p)
  addrOffer p :=
    (State.receiving_field Proc.addrOffer (fun _ => rfl) s₁ u p).trans (h.addrOffer p)

/-! ## The primitives -/

theorem Inv.sysSend_completes (h : Inv s n Q) (hup : s.up = some u) {pid : Word}
    (hpid : InRange pid) : Completes s (sysSend s u pid) := by
  obtain ⟨p, hp⟩ := deref_of_inRange hpid
  rw [sysSend, withProc_eq]
  simp only [hp]
  rcases ksend_spec h hup p with ⟨-, hret⟩ | ⟨-, lists, waiting, r, handed, hsw, -⟩
  · rw [hret]
    exact ⟨_, _, rfl, rfl, fun _ => rfl, fun _ => rfl⟩
  · rw [hsw]
    have hblock : SameSpaces s (s.blockOn u p lists waiting) := ⟨rfl, fun _ => rfl, fun _ => rfl⟩
    exact ⟨_, _, rfl, hblock.switchFrom _ _⟩

theorem Inv.recvToUser_completes (h : Inv s n Q) (hup : s.up = some u) (pid : Word) :
    Completes s (recvToUser s u pid) := by
  unfold recvToUser
  rcases krecv_spec h hup pid .sysRecv with
    ⟨-, r, hsw, -⟩ | ⟨_, w, _, lists, waiting, -, -, hret, -⟩
  · rw [hsw]
    exact ⟨_, _, rfl, ((SameSpaces.refl s).receiving u).switchFrom _ _⟩
  · rw [hret]
    exact ⟨_, _, rfl, rfl, fun _ => rfl, fun _ => rfl⟩

theorem Inv.procStart_completes (h : Inv s n Q) (hup : s.up = some u) (pid : Word) :
    Completes s (procStart s u pid) := by
  unfold procStart
  rcases krecv_spec h hup pid .procStart with ⟨-, r, hsw, -⟩ |
    ⟨pre, w, post, lists, waiting, hsplit, -, hret, hinv⟩
  · rw [hsw]
    exact ⟨_, _, rfl, ((SameSpaces.refl s).receiving u).switchFrom _ _⟩
  · rw [hret]
    obtain ⟨-, hon⟩ := (h.mem_iff u w).mp (by simp [hsplit])
    have hawait : awaitsReply (s.takeMessage u w lists waiting) u w := by
      constructor
      · simp [State.takeMessage]
      · exact hon
    simp only [procStartReply]
    rw [(kreply_spec hinv hawait ok _).1]
    have hdeliver : SameSpaces s (Omb.deliverReply (s.takeMessage u w lists waiting) u w ok) :=
      ⟨rfl, fun _ => rfl, fun _ => rfl⟩
    exact ⟨_, _, rfl, hdeliver.switchFrom _ _⟩

theorem Inv.sysReply_completes (h : Inv s n Q) {pid : Word} (hpid : InRange pid) (ret : Word) :
    Completes s (sysReply s u pid ret) := by
  obtain ⟨p, hp⟩ := deref_of_inRange hpid
  rw [sysReply, withProc_eq]
  simp only [hp]
  by_cases hawait : awaitsReply s u p
  · rw [(kreply_spec h hawait ret .sysReply).1]
    have hdeliver : SameSpaces s (Omb.deliverReply s u p ret) := ⟨rfl, fun _ => rfl, fun _ => rfl⟩
    exact ⟨_, _, rfl, hdeliver.switchFrom _ _⟩
  · rw [kreply_refused hawait]
    exact ⟨_, _, rfl, rfl, fun _ => rfl, fun _ => rfl⟩

theorem Inv.sysReplyRecv_completes (h : Inv s n Q) (hup : s.up = some u) {pid : Word}
    (hpid : InRange pid) (ret rpid : Word) : Completes s (sysReplyRecv s u pid ret rpid) := by
  obtain ⟨p, hp⟩ := deref_of_inRange hpid
  rw [sysReplyRecv, withProc_eq]
  simp only [hp]
  by_cases hawait : awaitsReply s u p
  · rw [(kreplyRecv_spec h hup hawait ret rpid).1]
    have hdeliver : SameSpaces s (Omb.deliverReply s u p ret) := ⟨rfl, fun _ => rfl, fun _ => rfl⟩
    exact ⟨_, _, rfl, (hdeliver.receiving u).switchFrom _ _⟩
  · rw [kreplyRecv_refused hawait]
    exact ⟨_, _, rfl, rfl, fun _ => rfl, fun _ => rfl⟩

theorem Inv.schedule_completes (h : Inv s n Q) : Completes s (schedule s .trap none) := by
  obtain ⟨r, hsched, -⟩ := h.toCore.schedule_none (k := .trap)
    (fun v hv => by
      rw [h.running v hv]
      exact trivial)
    (fun v hv => by simp [h.running v hv])
  exact ⟨_, _, hsched, (SameSpaces.refl s).switchFrom _ _⟩

/-- The code at any label that has been saved. -/
theorem Inv.resume_completes (h : Inv s n Q) (hup : s.up = some u) {k : Label} (hk : k ≠ .unset) :
    Completes s (resume s u k) := by
  cases k with
  | unset => exact absurd rfl hk
  | procStart => exact h.procStart_completes hup pidAll
  | proc0Start | trap | ksend => exact ⟨_, _, rfl, rfl, fun _ => rfl, fun _ => rfl⟩
  | krecv pid caller =>
      cases caller with
      | sysRecv => exact h.recvToUser_completes hup pid
      | procStart => exact h.procStart_completes hup pid
  | kreply caller => cases caller <;> exact ⟨_, _, rfl, rfl, fun _ => rfl, fun _ => rfl⟩
  | kreplyRecv pid => exact h.recvToUser_completes hup pid

/-! ## Labels -/

/-- Every process that has been made has a label to go on from.  A slot gets one with its
process, and never loses it. -/
def State.Labelled (s : State) : Prop :=
  ∀ p, (s.procs p).state ≠ .dead → (s.procs p).label ≠ .unset

theorem State.Labelled.switchFrom {s₁ : State} {k : Label} {r : Option ProcRef} (h : s.Labelled)
    (hlabel : ∀ p, (s₁.procs p).label = (s.procs p).label) (hk : k ≠ .unset)
    (hdead : ∀ p, ((s₁.switchFrom k r).procs p).state = .dead ↔ (s.procs p).state = .dead) :
    (s₁.switchFrom k r).Labelled := by
  intro p hp
  rw [State.switchFrom_label, hlabel]
  split_ifs with hup
  · exact hk
  · exact h p (mt (hdead p).mpr hp)

/-- **A step leaves every process with a label to go on from.** -/
theorem Move.labelled {act : Action} {evs : List Event} (hmove : Move s act evs s')
    (h : Inv s n Q) (h' : Inv s' (n + act.creates.toNat) Q') (hlab : s.Labelled) :
    s'.Labelled := by
  have hdead : act.creates = false →
      ∀ p, (s'.procs p).state = .dead ↔ (s.procs p).state = .dead := by
    intro hcreates p
    rw [hcreates] at h'
    rw [h.table.dead_iff, h'.table.dead_iff]
    rfl
  cases hmove with
  | quiet hu hs' hcreates hevs =>
      intro p hp
      have hp' := hlab p (mt (hdead hcreates p).mpr hp)
      rw [← hs'.procs p] at hp'
      exact hp'
  | write | resumed => exact hlab
  | @create u page spacePage mem alive nexts hup hc hdead =>
      intro p
      by_cases hp : p = s.nextpid
      · subst hp
        simp [State.spawn, freshProc]
      · simpa [State.spawn, hp] using hlab p
  | preempt => exact hlab.switchFrom (fun _ => rfl) (by simp) (hdead rfl)
  | send => exact hlab.switchFrom (fun _ => rfl) (by simp) (hdead rfl)
  | receive hu hcreates =>
      intro p hp
      exact hlab p (mt (hdead hcreates p).mpr hp)
  | start hu hcreates => exact hlab.switchFrom (fun _ => rfl) (by simp) (hdead hcreates)
  | park hu hcreates =>
      exact hlab.switchFrom (State.receiving_field Proc.label (fun _ => rfl) _ _) (by simp)
        (hdead hcreates)
  | reply => exact hlab.switchFrom (fun _ => rfl) (by simp) (hdead rfl)
  | replyRecv =>
      exact hlab.switchFrom (State.receiving_field Proc.label (fun _ => rfl) _ _) (by simp)
        (hdead rfl)

theorem bootState_labelled (img : Image) (pages : Word → ProcPage) (mem : Mem)
    (alive : Option ProcRef) (nexts : ProcRef → Option ProcRef) :
    (bootState img pages mem alive nexts).Labelled := by
  intro p hp
  rw [bootState_state] at hp
  obtain rfl : p = 0 := by
    by_contra hne
    simp [hne] at hp
  exact Label.noConfusion

theorem KernelRun.labelled {tr : List KStep} {s : State} (h : KernelRun tr s)
    (hn : created tr ≤ maxProcs) : s.Labelled := by
  refine (KernelRun.invariant (P := fun _ s => s.Labelled) (C := fun _ => True) ?_ ?_ h hn
    fun _ _ => trivial).2
  · exact bootState_labelled
  · intro tr s a evs s' Q Q' hinv hinv' hlab _ _ hmove
    exact hmove.labelled hinv hinv' hlab

/-! ## One step -/

/-- The action exists where the kernel is.  A tick in the middle of a switch is not one, since
interrupts are masked there. -/
def Enabled (s : State) : Action → Prop
  | .syscall _ => s.control = .user
  | .write _ => s.control = .user
  | .tick => s.control ≠ .resume
  | .resume => s.control = .resume

/-- The pid with which the table is accessed.  `addr_offer` only stores the pid that it is
given. -/
def Action.derefs : Action → Option Word
  | .syscall (.addrOffer _ _ _ _) => none
  | .syscall c => c.pidArg
  | _ => none

theorem deref_of_not_inRange {pid : Word} (h : ¬ InRange pid) :
    deref pid.toInt = .error (.wild pid.toInt) :=
  dif_neg h

theorem Inv.syscall_ok (h : Inv s n Q) (hup : s.up = some u) {c : Syscall}
    (hroom : (Action.syscall c).creates → n < maxProcs)
    (hpid : ∀ pid ∈ (Action.syscall c).derefs, InRange pid)
    (haccept : ∀ pid start len flags p, c = .addrAccept pid start len flags →
      deref pid.toInt = .ok p → ∃ out, acceptFrom s u p start len flags [] = .ok out) :
    ∃ out, syscall s u c = .ok out := by
  have hok : ∀ {x : Except Stuck Out}, Completes s x → ∃ out, x = .ok out :=
    fun ⟨s', evs, hx, _⟩ => ⟨(s', evs), hx⟩
  cases c with
  | getProcPage | getKernelPage | addrOffer => exact ⟨_, rfl⟩
  | send pid => exact hok (h.sysSend_completes hup (hpid pid rfl))
  | recv pid => exact hok (h.recvToUser_completes hup pid)
  | reply pid ret => exact hok (h.sysReply_completes (hpid pid rfl) ret)
  | replyRecv pid ret rpid => exact hok (h.sysReplyRecv_completes hup (hpid pid rfl) ret rpid)
  | procCreate page spacePage =>
      obtain ⟨alive, nexts, hnew, -⟩ :=
        procNew_spec (h.withMem (memsetPage s.mem spacePage)) (hroom rfl) spacePage page
      simp only [syscall, sysProcCreate, hnew]
      exact ⟨_, rfl⟩
  | addrAccept pid start len flags =>
      obtain ⟨p, hp⟩ := deref_of_inRange (hpid pid rfl)
      obtain ⟨⟨r, s'⟩, hout⟩ := haccept pid start len flags p rfl hp
      simp only [syscall, sysAddrAccept, withProc_eq, hp, hout]
      exact ⟨_, rfl⟩

/-- With a pid outside the table the call leaves it. -/
theorem syscall_of_not_inRange {c : Syscall} {pid : Word}
    (hpid : pid ∈ (Action.syscall c).derefs) (hout : ¬ InRange pid) :
    syscall s u c = .error (.wild pid.toInt) := by
  have hwild := deref_of_not_inRange hout
  cases c with
  | getProcPage | getKernelPage | recv | procCreate | addrOffer => cases hpid
  | send p | reply p | replyRecv p | addrAccept p =>
      obtain rfl : p = pid := Option.some.inj hpid
      simp only [syscall, sysSend, sysReply, sysReplyRecv, sysAddrAccept, withProc_eq, hwild]

theorem enabled_of_step {a : Action} {out : Out} (h : step s a = .ok out) : Enabled s a := by
  unfold step at h
  split at h <;> simp_all [Enabled]

/-- Somebody runs, or is to go on. -/
theorem Inv.exists_up (h : Inv s n Q) (hc : s.control ≠ .idle) : ∃ u, s.up = some u := by
  rw [Ne, h.control] at hc
  exact Option.ne_none_iff_exists'.mp hc

/-- A system call whose pid is not in the table does not come to its end. -/
theorem Inv.derefs_inRange (h : Inv s n Q) {a : Action} {out : Out} (hs : step s a = .ok out) :
    ∀ pid ∈ a.derefs, InRange pid := by
  intro pid hpid
  by_contra hrange
  cases a with
  | write | tick | resume => cases hpid
  | syscall c =>
      have hc : s.control = .user := enabled_of_step hs
      obtain ⟨u, hup⟩ := h.exists_up (by simp [hc])
      simp only [step, hc, hup, syscall_of_not_inRange hpid hrange] at hs
      cases hs

/-- **The kernel comes to the end of a step that exists**, if there is a slot for a process
that is made, the pid is in the table, and a transfer comes to its end.  What
`sys_addr_accept` does is a hypothesis here (`haccept`), and taken up in
`Omb.Kern.NoTransfer`. -/
theorem Inv.step_ok (h : Inv s n Q) (hlab : s.Labelled) {a : Action}
    (hroom : a.creates → n < maxProcs) (hen : Enabled s a)
    (hpid : ∀ pid ∈ a.derefs, InRange pid)
    (haccept : ∀ u pid start len flags p, s.up = some u →
      a = .syscall (.addrAccept pid start len flags) → deref pid.toInt = .ok p →
        ∃ out, acceptFrom s u p start len flags [] = .ok out) : ∃ out, step s a = .ok out := by
  cases a with
  | syscall c =>
      have hc : s.control = .user := hen
      obtain ⟨u, hup⟩ := h.exists_up (by simp [hc])
      simp only [step, hc, hup]
      exact h.syscall_ok hup hroom hpid fun pid start len flags p hcall =>
        haccept u pid start len flags p hup (congrArg Action.syscall hcall)
  | write page =>
      have hc : s.control = .user := hen
      obtain ⟨u, hup⟩ := h.exists_up (by simp [hc])
      simp only [step, hc, hup]
      exact ⟨_, rfl⟩
  | tick =>
      obtain ⟨s', evs, hsched, -⟩ := h.schedule_completes
      cases hc : s.control with
      | user =>
          obtain ⟨u, hup⟩ := h.exists_up (by simp [hc])
          simp only [step, hc, hup]
          exact ⟨_, hsched⟩
      | idle =>
          simp only [step, hc, h.control.mp hc]
          exact ⟨_, hsched⟩
      | resume => exact absurd hc hen
  | resume =>
      have hc : s.control = .resume := hen
      obtain ⟨u, hup⟩ := h.exists_up (by simp [hc])
      obtain ⟨s', evs, hres, -⟩ := h.resume_completes hup (hlab u (by simp [h.running u hup]))
      simp only [step, hc, hup]
      exact ⟨_, hres⟩

end Omb
