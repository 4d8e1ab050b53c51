import Omb.Kern.Primitives

/-!
# What one step can do

`Move s a evs s'` lists the ways in which a step can lead from `s` to `s'`, each with the
state it leaves in closed form and the events it shows.  `step_move` says that a step from a
state in which the invariant holds is one of them, and that the invariant holds again
afterwards; this is the only place where `step` is taken apart.  What is claimed of all runs
is then a case analysis over `Move` and an induction over the run.

The moves are fewer than the system calls: a receive is one move whether a system call or
`proc_start` makes it, and all that only reads, or is refused, or changes offers and
translation tables, is `quiet`.  What a case of a later proof needs to know is among the
arguments of its move, guards included, so that no proof has to go back to the code.

`KernelRun.invariant` is the rule for runs from boot, and `KernelRun.afterwards` the one for
what follows a run.  Both hand the step lemma the invariant before and after.

## Main results

* `step_move`: every step is a `Move` and preserves `Inv`
* `KernelRun.inv`: the invariant of all runs from boot
* `KernelRun.invariant`, `KernelRun.afterwards`: the rules by which properties of runs are
  proved

The hypothesis `created tr ≤ maxProcs` of most results is there for `step_move`: the process
that is made after the last slot is used overwrites one that is there, and what follows is no
move.
-/

namespace Omb

open PointerList

/-! ## The shapes of a step -/

/-- Nothing has changed but the offers, the translation tables and the control, which is in
user code. -/
structure Untouched (s s' : State) : Prop where
  up : s'.up = s.up
  alive : s'.alive = s.alive
  nextpid : s'.nextpid = s.nextpid
  lists : s'.lists = s.lists
  pages : s'.pages = s.pages
  control : s'.control = .user
  procs : ∀ p, { s'.procs p with addrOffer := (s.procs p).addrOffer } = s.procs p

/-- `u` is running, and not on its way out of `ksend`.  This is so in user code, and in
`proc_start` and the receives. -/
def State.OutsideKsend (s : State) (u : ProcRef) : Prop :=
  s.up = some u ∧ (s.control = .resume → (s.procs u).label ≠ .ksend)

/-- The ways a step can go, with what is known of the state before.  `lists`, `waiting`,
`alive` and `nexts` are what the invariant of the state after is about. -/
inductive Move (s : State) : Action → List Event → State → Prop
  /-- The step concerns its own process and page tables only, or is refused. -/
  | quiet {a : Action} {u : ProcRef} {evs : List Event} {s' : State}
      (hu : s.OutsideKsend u) (hs' : Untouched s s') (hcreates : a.creates = false)
      (hevs : ∀ e ∈ evs, (∃ v, e = .returned u v) ∨ ∃ pc sp, e = .dropped u pc sp) :
      Move s a evs s'
  | write {u : ProcRef} (page : ProcPage) (hup : s.up = some u) (hc : s.control = .user) :
      Move s (.write page) [] (s.modifyPage (s.procs u).page fun _ => page)
  | create {u : ProcRef} {page spacePage : Word} {mem : Mem} {alive : Option ProcRef}
      {nexts : ProcRef → Option ProcRef} (hup : s.up = some u) (hc : s.control = .user)
      (hdead : (s.procs s.nextpid).state = .dead) :
      Move s (.syscall (.procCreate page spacePage))
        [.returned u (BitVec.ofNat 32 s.nextpid.val)]
        { ({ s with mem := mem } : State).spawn spacePage page alive nexts with
          control := .user }
  /-- The timer tick. -/
  | preempt {r : Option ProcRef} (hc : s.control ≠ .resume)
      (hr : ∀ q, r = some q → s.up = some q ∨ (s.procs q).state = .ready) :
      Move s .tick [.scheduled none] (s.switchFrom .trap r)
  | send {u p : ProcRef} {pid : Word} {lists : ListRef → ProcList}
      {waiting : ProcRef → Option ListRef} {r : Option ProcRef}
      {handed : Option (ProcRef × ProcState)} (hup : s.up = some u)
      (hc : s.control = .user) (hpid : pid.toInt = p.val)
      (hlive : (s.procs p).state ≠ .dead)
      (hr : ∀ q, r = some q → q ≠ u ∧
        ((s.procs q).state = .ready ∨ (s.procs q).state = .recv))
      (hhanded : ∀ q st, handed = some (q, st) → st = .recv)
      (hwake : (s.procs p).state = .recv → r = some p) :
      Move s (.syscall (.send pid)) [.sent u p, .scheduled handed]
        ((s.blockOn u p lists waiting).switchFrom .ksend r)
  /-- `krecv` finds a sender, for a system call. -/
  | receive {a : Action} {u w : ProcRef} {lists : ListRef → ProcList}
      {waiting : ProcRef → Option ListRef} (hu : s.OutsideKsend u)
      (hcreates : a.creates = false) (hsend : (s.procs w).state = .send)
      (hon : (s.procs w).waitingOn = some u) :
      Move s a [.received u w, .returned u (s.procs w).pid]
        { s.takeMessage u w lists waiting with control := .user }
  /-- `krecv` finds a sender, for `proc_start`, which replies to it. -/
  | start {a : Action} {u w : ProcRef} {lists : ListRef → ProcList}
      {waiting : ProcRef → Option ListRef} {pc sp : Word} (hu : s.OutsideKsend u)
      (hcreates : a.creates = false) (hsend : (s.procs w).state = .send)
      (hon : (s.procs w).waitingOn = some u) :
      Move s a [.received u w, .replied u w ok, .scheduled (some (w, .reply))]
        ((deliverReply (s.takeMessage u w lists waiting) u w ok).switchFrom
          (.kreply (.procStart pc sp)) (some w))
  /-- `krecv` finds nobody. -/
  | park {a : Action} {u : ProcRef} {pid : Word} {caller : RecvCaller}
      {r : Option ProcRef} (hu : s.OutsideKsend u) (hcreates : a.creates = false)
      (hempty : ∀ w, ¬ ((s.procs w).state = .send ∧ (s.procs w).waitingOn = some u))
      (hr : ∀ q, r = some q → q ≠ u ∧ (s.procs q).state = .ready) :
      Move s a [.scheduled none] ((s.receiving u).switchFrom (.krecv pid caller) r)
  | reply {u p : ProcRef} {pid ret : Word} (hup : s.up = some u) (hc : s.control = .user)
      (hpid : pid.toInt = p.val) (hawait : awaitsReply s u p) :
      Move s (.syscall (.reply pid ret))
        [.replied u p ret, .scheduled (some (p, .reply))]
        ((deliverReply s u p ret).switchFrom (.kreply .sysReply) (some p))
  | replyRecv {u p : ProcRef} {pid ret rpid : Word} (hup : s.up = some u)
      (hc : s.control = .user) (hpid : pid.toInt = p.val) (hawait : awaitsReply s u p) :
      Move s (.syscall (.replyRecv pid ret rpid))
        [.replied u p ret, .scheduled (some (p, .reply))]
        (((deliverReply s u p ret).receiving u).switchFrom (.kreplyRecv rpid) (some p))
  /-- `ksend` returns. -/
  | resumed {u : ProcRef} (hup : s.up = some u) (hc : s.control = .resume)
      (hlabel : (s.procs u).label = .ksend) :
      Move s .resume [.resumed u (s.pageOf u).mRet, .returned u (s.pageOf u).mRet]
        { s with control := .user }

/-! ## The system calls -/

variable {s s' : State} {n : ℕ} {Q : ProcRef → List ProcRef} {u : ProcRef}
  {evs : List Event}

theorem withProc_eq (s : State) (u : ProcRef) (pid : Word)
    (body : ℤ → Except Stuck Out) : withProc s u pid body = body pid.toInt := rfl

theorem deref_ok {i : ℤ} {p : ProcRef} (h : deref i = .ok p) : i = p.val := by
  unfold deref at h
  split at h
  · cases h
    simp only
    omega
  · cases h

theorem deref_val {i : ℤ} {p : ProcRef} (h : i = p.val) : deref i = .ok p := by
  subst h
  rw [deref, dif_pos (by omega)]
  rfl

theorem toInt_ofNat (a : ProcRef) : (BitVec.ofNat 32 a.val).toInt = a.val := by
  have hlt : a.val < 512 := a.isLt
  have hnat : (BitVec.ofNat 32 a.val).toNat = a.val := by
    rw [BitVec.toNat_ofNat, Nat.mod_eq_of_lt]
    omega
  rw [BitVec.toInt_eq_toNat_of_lt, hnat]
  omega

/-- A move and the invariant after it. -/
def MovesTo (s : State) (n : ℕ) (a : Action) (evs : List Event) (s' : State) : Prop :=
  Move s a evs s' ∧ ∃ Q, Inv s' (n + a.creates.toNat) Q

theorem Untouched.toUser (s : State) (hc : s' = { s with control := .user }) :
    Untouched s s' := by
  subst hc
  exact ⟨rfl, rfl, rfl, rfl, rfl, rfl, fun _ => rfl⟩

/-- What is untouched keeps its invariant. -/
theorem Untouched.inv (hs : Untouched s s') (h : Inv s n Q) (hup : s.up = some u) :
    Inv s' n Q where
  toCore := by
    refine h.toCore.congr hs.up hs.alive hs.nextpid hs.lists fun p => ?_
    rw [← hs.procs p]
    exact ⟨rfl, rfl, rfl, rfl, rfl, rfl⟩
  running := by
    intro v hv
    rw [hs.up] at hv
    have hrun := h.running v hv
    rw [← hs.procs v] at hrun
    exact hrun
  idle := by
    intro hnone
    rw [hs.up, hup] at hnone
    cases hnone
  control := by simp [hs.control, hs.up, hup]

/-- A step that returns to user code with nothing but `Untouched` changes. -/
theorem MovesTo.quiet {a : Action} (h : Inv s n Q) (hu : s.OutsideKsend u)
    (hcreates : a.creates = false) (hs : Untouched s s')
    (hevs : ∀ e ∈ evs, (∃ v, e = .returned u v) ∨ ∃ pc sp, e = .dropped u pc sp) :
    MovesTo s n a evs s' := by
  refine ⟨.quiet hu hs hcreates hevs, Q, ?_⟩
  rw [hcreates]
  exact hs.inv h hu.1

theorem MovesTo.returned {a : Action} (h : Inv s n Q) (hu : s.OutsideKsend u)
    (hcreates : a.creates = false) (v : Word) (hs : Untouched s s') :
    MovesTo s n a [.returned u v] s' :=
  .quiet h hu hcreates hs (by simp)

theorem State.OutsideKsend.of_user (hup : s.up = some u) (hc : s.control = .user) :
    s.OutsideKsend u :=
  ⟨hup, fun hresume => by simp [hc] at hresume⟩

theorem sysSend_move (h : Inv s n Q) (hup : s.up = some u) (hc : s.control = .user)
    {pid : Word} (hs : sysSend s u pid = .ok (s', evs)) :
    MovesTo s n (.syscall (.send pid)) evs s' := by
  rw [sysSend, withProc_eq] at hs
  split at hs
  · cases hs
  · rename_i p hderef
    rcases ksend_spec h hup p with ⟨-, hret⟩ | ⟨hlive, lists, waiting, r, handed, hsw,
      hinv, hr, hhanded, hwake⟩
    · rw [hret] at hs
      cases hs
      exact .returned h (.of_user hup hc) rfl err (.toUser s rfl)
    · rw [hsw] at hs
      cases hs
      exact ⟨.send hup hc (deref_ok hderef) hlive hr hhanded hwake, _, hinv⟩

/-- `krecv` for a system call, from either of its callers. -/
theorem recvToUser_move {a : Action} (h : Inv s n Q) (hu : s.OutsideKsend u)
    (hcreates : a.creates = false) {pid : Word}
    (hs : recvToUser s u pid = .ok (s', evs)) : MovesTo s n a evs s' := by
  unfold recvToUser at hs
  rcases krecv_spec h hu.1 pid .sysRecv with ⟨hempty, r, hsw, hinv, hr⟩ |
    ⟨pre, w, post, lists, waiting, hsplit, -, hret, hinv⟩
  · rw [hsw] at hs
    cases hs
    refine ⟨.park hu hcreates (h.no_sender hempty) hr, Q, ?_⟩
    rw [hcreates]
    exact hinv
  · rw [hret] at hs
    cases hs
    have hw : w ∈ Q u := by simp [hsplit]
    obtain ⟨hsend, hon⟩ := (h.mem_iff u w).mp hw
    refine ⟨.receive hu hcreates hsend hon, Function.update Q u (pre ++ post), ?_⟩
    rw [hcreates]
    exact hinv.toUser hu.1

theorem sysReply_move (h : Inv s n Q) (hup : s.up = some u) (hc : s.control = .user)
    {pid ret : Word} (hs : sysReply s u pid ret = .ok (s', evs)) :
    MovesTo s n (.syscall (.reply pid ret)) evs s' := by
  rw [sysReply, withProc_eq] at hs
  split at hs
  · cases hs
  · rename_i p hderef
    by_cases hawait : awaitsReply s u p
    · obtain ⟨hsw, hinv⟩ := kreply_spec h hawait ret .sysReply
      rw [hsw] at hs
      cases hs
      exact ⟨.reply hup hc (deref_ok hderef) hawait, Q, hinv⟩
    · rw [kreply_refused hawait] at hs
      cases hs
      exact .returned h (.of_user hup hc) rfl err (.toUser s rfl)

theorem sysReplyRecv_move (h : Inv s n Q) (hup : s.up = some u) (hc : s.control = .user)
    {pid ret rpid : Word} (hs : sysReplyRecv s u pid ret rpid = .ok (s', evs)) :
    MovesTo s n (.syscall (.replyRecv pid ret rpid)) evs s' := by
  rw [sysReplyRecv, withProc_eq] at hs
  split at hs
  · cases hs
  · rename_i p hderef
    by_cases hawait : awaitsReply s u p
    · obtain ⟨hsw, hinv⟩ := kreplyRecv_spec h hup hawait ret rpid
      rw [hsw] at hs
      cases hs
      exact ⟨.replyRecv hup hc (deref_ok hderef) hawait, Q, hinv⟩
    · rw [kreplyRecv_refused hawait] at hs
      cases hs
      exact .returned h (.of_user hup hc) rfl err (.toUser s rfl)

/-- The invariant does not depend on the translation tables. -/
theorem Inv.withMem (h : Inv s n Q) (mem : Mem) : Inv { s with mem := mem } n Q where
  toCore := h.toCore.congr rfl rfl rfl rfl fun _ => ⟨rfl, rfl, rfl, rfl, rfl, rfl⟩
  running := h.running
  idle := h.idle
  control := h.control

theorem sysProcCreate_move (h : Inv s n Q) (hup : s.up = some u) (hc : s.control = .user)
    (hn : n < maxProcs) {page spacePage : Word}
    (hs : sysProcCreate s u page spacePage = .ok (s', evs)) :
    MovesTo s n (.syscall (.procCreate page spacePage)) evs s' := by
  have hmem := h.withMem (memsetPage s.mem spacePage)
  obtain ⟨alive, nexts, hnew, hslot, hcore⟩ := procNew_spec hmem hn spacePage page
  have hdead : (s.procs s.nextpid).state = .dead := (h.table.dead_iff _).mpr hslot.ge
  have hpid : ((({ s with mem := memsetPage s.mem spacePage } : State).spawn
      spacePage page alive nexts).procs s.nextpid).pid = BitVec.ofNat 32 s.nextpid.val := by
    simp [State.spawn, freshProc]
  simp only [sysProcCreate, hnew, hpid] at hs
  cases hs
  refine ⟨.create hup hc hdead, Q, ?_⟩
  -- the running process is not the new one
  have hne : u ≠ s.nextpid := by
    rintro rfl
    have hrun := h.running _ hup
    rw [hdead] at hrun
    cases hrun
  refine
    { toCore := hcore.congr rfl rfl rfl rfl fun _ => ⟨rfl, rfl, rfl, rfl, rfl, rfl⟩
      running := ?_
      idle := fun hnone => by simp [State.spawn, hup] at hnone
      control := by simp [State.spawn, hup] }
  intro v hv
  obtain rfl := Option.some.inj (hup.symm.trans hv)
  simp [State.spawn, hne, h.running u hup]

theorem sysAddrOffer_move (h : Inv s n Q) (hup : s.up = some u) (hc : s.control = .user)
    {pid start len flags : Word}
    (hs : sysAddrOffer s u pid start len flags = .ok (s', evs)) :
    MovesTo s n (.syscall (.addrOffer pid start len flags)) evs s' := by
  rw [sysAddrOffer, withProc_eq] at hs
  cases hs
  refine .returned h (.of_user hup hc) rfl ok ⟨rfl, rfl, rfl, rfl, rfl, rfl, fun p => ?_⟩
  simp only [State.modifyProc_procs]
  split_ifs with hp
  · rw [hp]
  · rfl

theorem acceptFrom_eq {p : ProcRef} {start len flags r : Word} {supply : List Word}
    (hs : acceptFrom s u p start len flags supply = .ok (r, s')) :
    ∃ mem, s' = { s with mem := mem } := by
  unfold acceptFrom at hs
  split at hs
  · cases hs
    exact ⟨s.mem, rfl⟩
  · split at hs
    · cases hs
    · cases hs
      exact ⟨_, rfl⟩

theorem sysAddrAccept_move (h : Inv s n Q) (hup : s.up = some u) (hc : s.control = .user)
    {pid start len flags : Word} {supply : List Word}
    (hs : sysAddrAccept s u pid start len flags supply = .ok (s', evs)) :
    MovesTo s n (.syscall (.addrAccept pid start len flags)) evs s' := by
  rw [sysAddrAccept, withProc_eq] at hs
  split at hs
  · cases hs
  · split at hs
    · cases hs
    · rename_i r s₁ haccept
      obtain ⟨mem, rfl⟩ := acceptFrom_eq haccept
      cases hs
      exact .returned h (.of_user hup hc) rfl r ⟨rfl, rfl, rfl, rfl, rfl, rfl, fun _ => rfl⟩

theorem syscall_move (h : Inv s n Q) (hup : s.up = some u) (hc : s.control = .user)
    (c : Syscall) (hn : (Action.syscall c).creates → n < maxProcs)
    (hs : syscall s u c = .ok (s', evs)) : MovesTo s n (.syscall c) evs s' := by
  have hu := State.OutsideKsend.of_user hup hc
  cases c with
  | getProcPage =>
      cases hs
      exact .returned h hu rfl _ (.toUser s rfl)
  | getKernelPage =>
      cases hs
      exact .returned h hu rfl _ (.toUser s rfl)
  | send pid => exact sysSend_move h hup hc hs
  | recv pid => exact recvToUser_move h hu rfl hs
  | reply pid ret => exact sysReply_move h hup hc hs
  | replyRecv pid ret rpid => exact sysReplyRecv_move h hup hc hs
  | procCreate page spacePage => exact sysProcCreate_move h hup hc (hn rfl) hs
  | addrOffer pid start len flags => exact sysAddrOffer_move h hup hc hs
  | addrAccept pid start len flags => exact sysAddrAccept_move h hup hc hs

/-! ## Going on from a label -/

/-- **`proc_start` replies to whom it has received from**: its `kreply` is not refused,
whatever sender `krecv` returned, since that one awaits a reply by then. -/
theorem procStart_move {a : Action} (h : Inv s n Q) (hu : s.OutsideKsend u)
    (hcreates : a.creates = false) {pid : Word}
    (hs : procStart s u pid = .ok (s', evs)) : MovesTo s n a evs s' := by
  unfold procStart at hs
  rcases krecv_spec h hu.1 pid .procStart with ⟨hempty, r, hsw, hinv, hr⟩ |
    ⟨pre, w, post, lists, waiting, hsplit, -, hret, hinv⟩
  · rw [hsw] at hs
    cases hs
    refine ⟨.park hu hcreates (h.no_sender hempty) hr, Q, ?_⟩
    rw [hcreates]
    exact hinv
  · rw [hret] at hs
    have hw : w ∈ Q u := by simp [hsplit]
    obtain ⟨hsend, hon⟩ := (h.mem_iff u w).mp hw
    have hawait : awaitsReply (s.takeMessage u w lists waiting) u w := by
      constructor
      · simp [State.takeMessage]
      · exact hon
    simp only [procStartReply] at hs
    obtain ⟨hsw, hinv'⟩ := kreply_spec hinv hawait ok
      (.procStart ((s.takeMessage u w lists waiting).pageOf u |>.mIn.field 1)
        ((s.takeMessage u w lists waiting).pageOf u |>.mIn.field 2))
    rw [hsw] at hs
    cases hs
    refine ⟨.start hu hcreates hsend hon, Function.update Q u (pre ++ post), ?_⟩
    rw [hcreates]
    exact hinv'

theorem resume_move (h : Inv s n Q) (hup : s.up = some u) (hc : s.control = .resume)
    (hs : resume s u (s.procs u).label = .ok (s', evs)) : MovesTo s n .resume evs s' := by
  -- every label but that of `ksend` is outside it
  have hout : (s.procs u).label ≠ .ksend → s.OutsideKsend u := fun hne => ⟨hup, fun _ => hne⟩
  cases hlabel : (s.procs u).label with
  | unset =>
      rw [hlabel] at hs
      cases hs
  | procStart =>
      rw [hlabel] at hs
      exact procStart_move h (hout (by simp [hlabel])) rfl hs
  | proc0Start =>
      rw [hlabel] at hs
      cases hs
      exact .quiet h (hout (by simp [hlabel])) rfl (.toUser s rfl) (by simp)
  | trap =>
      rw [hlabel] at hs
      cases hs
      exact .quiet h (hout (by simp [hlabel])) rfl (.toUser s rfl) (by simp)
  | ksend =>
      rw [hlabel] at hs
      cases hs
      exact ⟨.resumed hup hc hlabel, Q, h.toUser hup⟩
  | krecv pid caller =>
      rw [hlabel] at hs
      cases caller with
      | sysRecv => exact recvToUser_move h (hout (by simp [hlabel])) rfl hs
      | procStart => exact procStart_move h (hout (by simp [hlabel])) rfl hs
  | kreply caller =>
      rw [hlabel] at hs
      cases caller with
      | sysReply =>
          cases hs
          exact .returned h (hout (by simp [hlabel])) rfl ok (.toUser s rfl)
      | procStart pc sp =>
          cases hs
          exact .quiet h (hout (by simp [hlabel])) rfl (.toUser s rfl) (by simp)
  | kreplyRecv pid =>
      rw [hlabel] at hs
      exact recvToUser_move h (hout (by simp [hlabel])) rfl hs

/-! ## Any step -/

theorem tick_move (h : Inv s n Q) (hc : s.control ≠ .resume)
    (hs : schedule s .trap none = .ok (s', evs)) : MovesTo s n .tick evs s' := by
  obtain ⟨r, hsched, hinv, hready⟩ := h.toCore.schedule_none (k := .trap)
    (fun v hv => by
      rw [h.running v hv]
      exact trivial)
    (fun v hv => by simp [h.running v hv])
  rw [hsched] at hs
  cases hs
  refine ⟨.preempt hc fun q hq => ?_, Q, hinv⟩
  rcases eq_or_ne s.up (some q) with hup | hup
  · exact .inl hup
  · have hst := hready q hq
    rw [saveLabel_procs] at hst
    simp only [if_neg hup] at hst
    exact .inr hst

/-- **Every step is one of the moves and keeps the invariant**, as long as it does not make
more processes than the table has slots.  A step that goes wrong is not considered;
`Omb.Kern.Progress` says when there is none. -/
theorem step_move (h : Inv s n Q) {a : Action} (hn : a.creates → n < maxProcs)
    (hs : step s a = .ok (s', evs)) : MovesTo s n a evs s' := by
  unfold step at hs
  split at hs
  · rename_i u c hc hup
    exact syscall_move h hup hc c hn hs
  · rename_i u page hc hup
    cases hs
    refine ⟨.write page hup hc, Q, ?_⟩
    exact
      { toCore := h.toCore.congr rfl rfl rfl rfl fun _ => ⟨rfl, rfl, rfl, rfl, rfl, rfl⟩
        running := h.running
        idle := h.idle
        control := h.control }
  · rename_i u hc hup
    exact tick_move h (by simp [hc]) hs
  · rename_i hc hup
    exact tick_move h (by simp [hc]) hs
  · rename_i u hc hup
    exact resume_move h hup hc hs
  · cases hs

/-! ## Boot -/

/-- At reset no process has been made. -/
theorem reset_inv (img : Image) (pages : Word → ProcPage) (mem : Mem) :
    Inv (reset img pages mem) 0 fun _ => [] where
  table :=
    { count := Nat.zero_le _
      alive := .nil
      dead_iff := fun _ => iff_of_true rfl (Nat.zero_le _)
      nextpid := rfl
      pid := fun p hp => absurd hp (Nat.not_lt_zero _) }
  queues := by
    refine ⟨fun _ => [], ⟨fun _ => .nil, ?_⟩, ?_, fun _ => rfl⟩
    · intro p p' i hi
      simp at hi
    · intro i
      exact iff_of_false (by simp [reset]) (by simp)
  nodup := fun _ => List.nodup_nil
  mem_iff := fun p w => iff_of_false (by simp) (by simp [reset, Proc.zero])
  blocked := by
    intro w hw
    simp [reset, Proc.zero] at hw
  parked := fun _ _ => trivial
  running := fun u hu => by cases hu
  idle := fun _ p hp => by cases hp
  control := iff_of_true rfl rfl

/-- `proc0` as `kmain` leaves it. -/
def bootState (img : Image) (pages : Word → ProcPage) (mem : Mem)
    (alive : Option ProcRef) (nexts : ProcRef → Option ProcRef) : State :=
  (((({ reset img pages mem with mem := memsetPage mem img.proc0SpacePage } : State).spawn
    img.proc0SpacePage img.proc0Page alive nexts).modifyProc 0
      fun q => { q with label := .proc0Start }).switchFrom .unset (some 0))

/-- **`kmain`** comes to its end, with `proc0` the only process and on the CPU, whatever is in
memory. -/
theorem kmain_spec (img : Image) (pages : Word → ProcPage) (mem : Mem) :
    ∃ alive nexts,
      kmain img pages mem =
        .ok (bootState img pages mem alive nexts, [.scheduled (some (0, .ready))]) ∧
      Inv (bootState img pages mem alive nexts) 1 fun _ => [] := by
  let s₀ := reset img pages mem
  have hmem := (reset_inv img pages mem).withMem (memsetPage s₀.mem s₀.image.proc0SpacePage)
  obtain ⟨alive, nexts, hnew, -, hcore⟩ :=
    procNew_spec hmem (by simp [maxProcs]) s₀.image.proc0SpacePage s₀.image.proc0Page
  refine ⟨alive, nexts, ?_, ?_⟩
  · simp only [kmain, initProc0]
    rw [hnew]
    rfl
  · have hready : ((({ s₀ with mem := memsetPage s₀.mem s₀.image.proc0SpacePage } :
        State).spawn s₀.image.proc0SpacePage s₀.image.proc0Page alive nexts).procs 0).state =
          .ready := rfl
    have hcore₀ := hcore.relabel (p := 0) (k := .proc0Start) (by rw [hready]; trivial)
    refine hcore₀.schedule_some (fun u hu => by cases hu) ?_ ?_
    · intro hdead
      cases hready.symm.trans hdead
    · intro hsend
      cases hready.symm.trans hsend

/-! ## Runs from boot -/

theorem created_snoc (tr : List KStep) (t : KStep) :
    created (tr ++ [t]) = created tr + t.act.creates.toNat := by
  cases hcreates : t.act.creates <;> simp [created, hcreates, Nat.add_assoc]

/-- **The invariant rule for runs of the kernel**: a property of boot that every move
preserves holds after every run.  `C` is what the run is known to do at each of its steps.
The run must not make more processes than there are slots (`hn`). -/
theorem KernelRun.invariant {P : List KStep → State → Prop} {C : KStep → Prop}
    (hboot : ∀ img pages mem alive nexts, P [] (bootState img pages mem alive nexts))
    (hstep : ∀ tr s a evs s' Q Q', Inv s (created tr) Q →
      Inv s' (created tr + a.creates.toNat) Q' → P tr s → C ⟨s, a, evs, s'⟩ →
      step s a = .ok (s', evs) → Move s a evs s' → P (tr ++ [⟨s, a, evs, s'⟩]) s')
    {tr : List KStep} {s : State} (h : KernelRun tr s) (hn : created tr ≤ maxProcs)
    (hC : ∀ t ∈ tr, C t) : (∃ Q, Inv s (created tr) Q) ∧ P tr s := by
  obtain ⟨img, pages, mem, s₀, evs₀, hk, hrun⟩ := h
  obtain ⟨alive, nexts, hkmain, hinv₀⟩ := kmain_spec img pages mem
  rw [hkmain] at hk
  cases hk
  refine Machine.Run.invariant (P := fun tr s => created tr ≤ maxProcs →
    (∃ Q, Inv s (created tr) Q) ∧ P tr s) (C := C) ?_ ?_ hrun hC hn
  · intro _
    exact ⟨⟨_, hinv₀⟩, hboot img pages mem alive nexts⟩
  · intro tr s a s' evs _ ih hCt hs hle
    rw [created_snoc] at hle
    obtain ⟨⟨Q, hinv⟩, hP⟩ := ih (by omega)
    obtain ⟨hmove, Q', hinv'⟩ := step_move hinv (fun hcreates => by
      simp only [hcreates, Bool.toNat_true] at hle
      omega) hs
    refine ⟨⟨Q', ?_⟩, hstep tr s a evs s' Q Q' hinv hinv' hP hCt hs hmove⟩
    rw [created_snoc]
    exact hinv'

/-- **The invariant holds in every state that boot leads to** while there are slots for the
processes made.  `hn` cannot be left out: one process more, and the list of alive processes is
a loop (`creationSafe_iff`). -/
theorem KernelRun.inv {tr : List KStep} {s : State} (h : KernelRun tr s)
    (hn : created tr ≤ maxProcs) : ∃ Q, Inv s (created tr) Q :=
  (KernelRun.invariant (P := fun _ _ => True) (C := fun _ => True)
    (fun _ _ _ _ _ => trivial) (fun _ _ _ _ _ _ _ _ _ _ _ _ _ => trivial) h hn
    fun _ _ => trivial).1

/-- Every step of a run is a move between states that satisfy the invariant, which is how a
property of steps is proved of all steps of a run. -/
theorem KernelRun.forall_step {tr : List KStep} {s : State} (h : KernelRun tr s)
    (hn : created tr ≤ maxProcs) : ∀ t ∈ tr, step t.pre t.act = .ok (t.post, t.events) ∧
      Move t.pre t.act t.events t.post ∧ (∃ n Q, Inv t.pre n Q) ∧ ∃ n Q, Inv t.post n Q := by
  refine (KernelRun.invariant (C := fun _ => True)
    (P := fun tr _ => ∀ t ∈ tr, step t.pre t.act = .ok (t.post, t.events) ∧
      Move t.pre t.act t.events t.post ∧ (∃ n Q, Inv t.pre n Q) ∧ ∃ n Q, Inv t.post n Q)
    ?_ ?_ h hn fun _ _ => trivial).2
  · intro _ _ _ _ _ t ht
    simp at ht
  · intro tr s a evs s' Q Q' hinv hinv' ih _ hs hmove t ht
    rcases List.mem_append.mp ht with ht | ht
    · exact ih t ht
    · obtain rfl := List.mem_singleton.mp ht
      exact ⟨hs, hmove, ⟨_, Q, hinv⟩, _, Q', hinv'⟩

/-- **The invariant rule for what follows a run**: a property of where it starts that every
move preserves holds wherever it leads. -/
theorem KernelRun.afterwards {P : List KStep → State → Prop} {tr tr' : List KStep}
    {s s' : State} (h : KernelRun tr s) (hrun : Machine.Run step s tr' s')
    (hn : created (tr ++ tr') ≤ maxProcs) (hinit : P [] s)
    (hstep : ∀ tr₀ m a evs m' Q Q', Inv m (created (tr ++ tr₀)) Q →
      Inv m' (created (tr ++ tr₀) + a.creates.toNat) Q' → P tr₀ m → step m a = .ok (m', evs) →
      Move m a evs m' → P (tr₀ ++ [⟨m, a, evs, m'⟩]) m') : P tr' s' := by
  refine Machine.Run.invariant (P := fun tr₀ m => created (tr ++ tr₀) ≤ maxProcs → P tr₀ m)
    (C := fun _ => True) (fun _ => hinit) ?_ hrun (fun _ _ => trivial) hn
  intro tr₀ m a m' evs hrun₀ ih _ hs hle
  rw [← List.append_assoc, created_snoc] at hle
  have hle₀ : created (tr ++ tr₀) ≤ maxProcs := by omega
  obtain ⟨img, pages, mem, s₀, evs₀, hk, hrun'⟩ := h
  obtain ⟨Q, hinv⟩ := KernelRun.inv ⟨img, pages, mem, s₀, evs₀, hk, hrun'.append hrun₀⟩ hle₀
  obtain ⟨hmove, Q', hinv'⟩ := step_move hinv (fun hcreates => by
    simp only [hcreates, Bool.toNat_true] at hle
    omega) hs
  exact hstep tr₀ m a evs m' Q Q' hinv hinv' (ih hle₀) hs hmove

end Omb
