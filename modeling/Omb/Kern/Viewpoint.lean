import Omb.Kern.Outbox
import Omb.Kern.Refinement

/-!
# The kernel as one process sees it

A process notices little of what the kernel does: that a system call of its has returned, and
what is in its page then.  `State.codeOf` is where it goes on, in its own code or in that of a
call, and `returnedTo` what has returned to it in a step.

While another process is running nothing of this changes (`Move.elsewhere`), a tick only puts
its own code off (`tick_seen`), and where it goes on from a label is where it has stopped
(`Inv.resumes`).

This is what a program that runs on the kernel is verified with: its own steps are put in
between, and all that is not its own is one of three cases.  `Seen` says for each step where
the process goes on, what has returned to it, and which calls of other processes it has served
by it, so that a server can be followed without a look at its clients.

## Main definitions

* `State.codeOf`: where a process goes on
* `Seen`: what of a step concerns a process

## Main results

* `Move.elsewhere`: a step of another process
* `tick_seen`, `Inv.resumes`: its own code put off, and taken up again
-/

namespace Omb

/-- The code in which `p` goes on: its own, or what its label says.  One that has been
interrupted goes on through the label `trap`. -/
def State.codeOf (s : State) (p : ProcRef) : Option Label :=
  if s.up = some p ∧ s.control = .user then none else some (s.procs p).label

/-- What a system call of `p` has returned in a step with these events. -/
def returnedTo (p : ProcRef) : List Event → Option Word
  | [] => none
  | .returned q r :: evs => if q = p then some r else returnedTo p evs
  | _ :: evs => returnedTo p evs

/-- What a step does to the calls that `p` serves. -/
def KStep.servedBy (p : ProcRef) (t : KStep) : List CallLabel :=
  t.calls.filter fun l => l.server = some p

variable {s s' : State} {n : ℕ} {Q : ProcRef → List ProcRef} {p u : ProcRef} {act : Action}
  {evs : List Event}

theorem codeOf_of_user (hup : s.up = some p) (hc : s.control = .user) : s.codeOf p = none :=
  if_pos ⟨hup, hc⟩

theorem codeOf_of_up_ne (hup : s.up ≠ some p) : s.codeOf p = some (s.procs p).label :=
  if_neg fun h => hup h.1

theorem codeOf_of_control_ne (hc : s.control ≠ .user) : s.codeOf p = some (s.procs p).label :=
  if_neg fun h => hc h.2

/-- Who is switched from goes on at its label, and everybody else where they were. -/
theorem codeOf_switchFrom (s : State) (k : Label) (r : Option ProcRef) (p : ProcRef) :
    (s.switchFrom k r).codeOf p = some (if s.up = some p then k else (s.procs p).label) := by
  rw [codeOf_of_control_ne, State.switchFrom_label]
  rw [State.switchFrom_control]
  split_ifs <;> simp

theorem servedBy_eq (p : ProcRef) (t : KStep) :
    t.servedBy p = (t.events.filterMap t.callOf).filter fun l => l.server = some p := by
  rw [KStep.servedBy, KStep.calls, List.filter_append]
  split_ifs <;> simp [SyncCall.Label.server]

theorem returnedTo_eq_none (h : ∀ e ∈ evs, ∀ r, e ≠ .returned p r) : returnedTo p evs = none := by
  induction evs with
  | nil => rfl
  | cons e evs ih =>
      have hevs := ih fun e he => h e (List.mem_cons_of_mem _ he)
      cases e with
      | returned q r =>
          rw [returnedTo, if_neg, hevs]
          rintro rfl
          exact h _ List.mem_cons_self r rfl
      | _ => exact hevs

/-- What of a step concerns `p`: where it goes on, what has returned to it, and the calls that
it has served. -/
structure Seen (p : ProcRef) (t : KStep) (code : Option Label) (ret : Option Word)
    (served : List CallLabel) : Prop where
  code : t.post.codeOf p = code
  returned : returnedTo p t.events = ret
  served : t.servedBy p = served

/-! ## While another process is running -/

/-- **A step of another process means nothing to `p`.**  It may take a message that `p` has
sent, or reply to it, but `p` goes on where it would have. -/
theorem Move.elsewhere (hmove : Move s act evs s') (hp : (s.procs p).state ≠ .dead)
    (hup : s.up ≠ some p) : Seen p ⟨s, act, evs, s'⟩ (s.codeOf p) none [] := by
  have hne : ∀ {u}, s.up = some u → u ≠ p := fun hu heq => hup (heq ▸ hu)
  have hcode := codeOf_of_up_ne hup
  have hswitch : ∀ {m : State} (k : Label) (r : Option ProcRef), m.up = s.up →
      (m.procs p).label = (s.procs p).label → (m.switchFrom k r).codeOf p = s.codeOf p := by
    intro m k r hm hlabel
    rw [codeOf_switchFrom, hm, if_neg hup, hlabel, hcode]
  have hstay : ∀ {m : State}, m.up = s.up → (m.procs p).label = (s.procs p).label →
      m.codeOf p = s.codeOf p := by
    intro m hm hlabel
    rw [codeOf_of_up_ne (hm ▸ hup), hlabel, hcode]
  cases hmove with
  | quiet hu hs' hcreates hevs =>
      have hlabel := congrArg Proc.label (hs'.procs p)
      refine ⟨hstay hs'.up hlabel, returnedTo_eq_none ?_, ?_⟩
      · rintro e he r rfl
        rcases hevs _ he with ⟨v, hv⟩ | ⟨pc, sp, hv⟩
        · cases hv
          exact hup hu.1
        · cases hv
      · rw [servedBy_eq, List.filterMap_eq_nil_iff.mpr, List.filter_nil]
        intro e he
        rcases hevs e he with ⟨v, rfl⟩ | ⟨pc, sp, rfl⟩ <;> rfl
  | write page hu => exact ⟨hstay rfl rfl, rfl, rfl⟩
  | create hu hc hdead =>
      have hnew : p ≠ s.nextpid := by
        rintro rfl
        exact hp hdead
      refine ⟨hstay rfl ?_, by simp [returnedTo, hne hu], rfl⟩
      simp [State.spawn, hnew]
  | preempt => exact ⟨hswitch _ _ rfl rfl, rfl, rfl⟩
  | send hu =>
      refine ⟨hswitch _ _ rfl rfl, rfl, ?_⟩
      simp [servedBy_eq, KStep.callOf, SyncCall.Label.server]
  | receive hu =>
      refine ⟨hstay rfl rfl, by simp [returnedTo, hne hu.1], ?_⟩
      simp [servedBy_eq, KStep.callOf, SyncCall.Label.server, hne hu.1]
  | start hu =>
      refine ⟨hswitch _ _ rfl rfl, rfl, ?_⟩
      simp [servedBy_eq, KStep.callOf, SyncCall.Label.server, hne hu.1]
  | @park _ u pid caller r hu =>
      refine ⟨hswitch _ _ rfl ?_, rfl, by simp [servedBy_eq, KStep.callOf]⟩
      exact State.receiving_field Proc.label (fun _ => rfl) s u p
  | reply hu =>
      refine ⟨hswitch _ _ rfl rfl, rfl, ?_⟩
      simp [servedBy_eq, KStep.callOf, SyncCall.Label.server, hne hu]
  | @replyRecv u w pid ret rpid hu =>
      refine ⟨hswitch _ _ rfl ?_, rfl, ?_⟩
      · exact State.receiving_field Proc.label (fun _ => rfl) _ u p
      · simp [servedBy_eq, KStep.callOf, SyncCall.Label.server, hne hu]
  | resumed hu =>
      refine ⟨hstay rfl rfl, by simp [returnedTo, hne hu], ?_⟩
      simp [servedBy_eq, KStep.callOf, SyncCall.Label.server]

/-! ## A system call -/

/-- The call has come back, and no client was concerned. -/
def ReturnsTo (p : ProcRef) (t : KStep) : Prop :=
  ∃ r, Seen p t none (some r) []

/-- The call has come back with a client, or `p` waits for one.  A client that comes back with
a call awaits a reply of `p` from then on. -/
inductive ReceivesFor (p : ProcRef) (t : KStep) : Prop
  | client (w : ProcRef) (hsend : (t.pre.procs w).state = .send)
      (h : Seen p t none (some (t.pre.procs w).pid) [.receive p w (t.post.pageOf p).mIn])
  | nobody (pid : Word) (h : Seen p t (some (.krecv pid .sysRecv)) none [])

theorem Inv.recvToUser_seen (h : Inv s n Q) (hup : s.up = some p) {pid : Word} (act : Action)
    (hs : recvToUser s p pid = .ok (s', evs)) : ReceivesFor p ⟨s, act, evs, s'⟩ := by
  rw [recvToUser] at hs
  rcases krecv_spec h hup pid .sysRecv with ⟨-, r, hsw, -, -⟩ |
    ⟨pre, w, post, lists, waiting, hsplit, -, hret, -⟩
  · rw [hsw] at hs
    cases hs
    refine .nobody pid ⟨?_, rfl, by simp [servedBy_eq, KStep.callOf]⟩
    rw [codeOf_switchFrom]
    exact congrArg some (if_pos hup)
  · rw [hret] at hs
    cases hs
    have hw : w ∈ Q p := by simp [hsplit]
    refine .client w ((h.mem_iff p w).mp hw).1 ⟨codeOf_of_user hup rfl, ?_, ?_⟩
    · simp [returnedTo, State.takeMessage]
    · simp [servedBy_eq, KStep.callOf, SyncCall.Label.server]

theorem Inv.sysSend_seen (h : Inv s n Q) (hup : s.up = some p) {pid : Word} (act : Action)
    (hs : sysSend s p pid = .ok (s', evs)) :
    Seen p ⟨s, act, evs, s'⟩ none (some err) [] ∨
      Seen p ⟨s, act, evs, s'⟩ (some .ksend) none [] := by
  rw [sysSend, withProc_eq] at hs
  split at hs
  · cases hs
  · rename_i w hderef
    rcases ksend_spec h hup w with ⟨-, hret⟩ | ⟨-, lists, waiting, r, handed, hsw, -⟩
    · rw [hret] at hs
      cases hs
      exact .inl ⟨codeOf_of_user hup rfl, if_pos rfl, by simp [servedBy_eq, KStep.callOf]⟩
    · rw [hsw] at hs
      cases hs
      refine .inr ⟨?_, rfl, by simp [servedBy_eq, KStep.callOf, SyncCall.Label.server]⟩
      rw [codeOf_switchFrom]
      exact congrArg some (if_pos hup)

/-- **`reply_recv` to a process that awaits it** goes through. -/
theorem Inv.sysReplyRecv_seen (h : Inv s n Q) (hup : s.up = some p) {pid ret rpid : Word}
    {w : ProcRef} (hpid : pid.toInt = w.val) (hawait : awaitsReply s p w) (act : Action)
    (hs : sysReplyRecv s p pid ret rpid = .ok (s', evs)) :
    Seen p ⟨s, act, evs, s'⟩ (some (.kreplyRecv rpid)) none
      [.reply p w ret (s.pageOf p).mOut] := by
  rw [sysReplyRecv, withProc_eq, deref_val hpid] at hs
  dsimp only at hs
  rw [(kreplyRecv_spec h hup hawait ret rpid).1] at hs
  cases hs
  refine ⟨?_, rfl, by simp [servedBy_eq, KStep.callOf, SyncCall.Label.server]⟩
  rw [codeOf_switchFrom]
  exact congrArg some (if_pos hup)

/-- Any other call comes back at once. -/
theorem Inv.syscall_returns (h : Inv s n Q) (hup : s.up = some p) (hc : s.control = .user)
    {c : Syscall} (hn : (Action.syscall c).creates → n < maxProcs)
    (hquick : c = .getProcPage ∨ c = .getKernelPage ∨
      (∃ page spacePage, c = .procCreate page spacePage) ∨
      ∃ pid start len flags, c = .addrAccept pid start len flags)
    (hs : syscall s p c = .ok (s', evs)) : ReturnsTo p ⟨s, act, evs, s'⟩ := by
  have hreturned : ∀ {m : State} (r : Word), m.up = some p → m.control = .user →
      ReturnsTo p ⟨s, act, [.returned p r], m⟩ := by
    intro m r hm hmc
    exact ⟨r, codeOf_of_user hm hmc, if_pos rfl, by simp [servedBy_eq, KStep.callOf]⟩
  rcases hquick with rfl | rfl | ⟨page, spacePage, rfl⟩ | ⟨pid, start, len, flags, rfl⟩
  · cases hs
    exact hreturned _ hup rfl
  · cases hs
    exact hreturned _ hup rfl
  · obtain ⟨hmove, -⟩ := sysProcCreate_move h hup hc (hn rfl) hs
    cases hmove with
    | create hu hc' hdead =>
        obtain rfl := Option.some.inj (hup.symm.trans hu)
        exact hreturned _ hup rfl
    | quiet _ _ hcreates | receive _ hcreates | start _ hcreates | park _ hcreates =>
        cases hcreates
  · rw [syscall, sysAddrAccept, withProc_eq] at hs
    split at hs
    · cases hs
    · split at hs
      · cases hs
      · rename_i r m haccept
        cases hs
        obtain ⟨mem, rfl⟩ := acceptFrom_eq haccept
        exact hreturned r hup rfl

/-! ## Interrupts and labels -/

/-- **A tick puts the code of `p` off**, and leaves its page alone. -/
theorem tick_seen (hup : s.up = some p) (act : Action)
    (hs : schedule s .trap none = .ok (s', evs)) :
    Seen p ⟨s, act, evs, s'⟩ (some .trap) none [] ∧ s'.pageOf p = s.pageOf p := by
  rw [schedule] at hs
  split at hs
  · cases hs
  · rename_i r hnext
    cases hs
    refine ⟨⟨?_, rfl, by simp [servedBy_eq, KStep.callOf]⟩, State.switchFrom_pageOf s .trap r p⟩
    have hcode := codeOf_switchFrom s .trap r p
    rw [if_pos hup] at hcode
    exact hcode

/-- What `p` sees of going on from a label: its own code, or the end of its call. -/
def ContinuesAt (p : ProcRef) (t : KStep) : Label → Prop
  | .proc0Start | .trap => Seen p t none none [] ∧ t.post.pageOf p = t.pre.pageOf p
  | .ksend => ReturnsTo p t
  | .krecv _ .sysRecv | .kreplyRecv _ => ReceivesFor p t
  | _ => True

/-- **Where `p` goes on is where it has stopped.**  What it finds in its page is what the call
that it has stopped in returns. -/
theorem Inv.resumes (h : Inv s n Q) (hup : s.up = some p) {k : Label} (act : Action)
    (hs : resume s p k = .ok (s', evs)) : ContinuesAt p ⟨s, act, evs, s'⟩ k := by
  cases k with
  | unset | procStart | kreply => trivial
  | proc0Start | trap =>
      cases hs
      exact ⟨⟨codeOf_of_user hup rfl, rfl, by simp [servedBy_eq, KStep.callOf]⟩, rfl⟩
  | ksend =>
      cases hs
      refine ⟨(s.pageOf p).mRet, codeOf_of_user hup rfl, by simp [returnedTo], ?_⟩
      simp [servedBy_eq, KStep.callOf, SyncCall.Label.server]
  | kreplyRecv pid => exact h.recvToUser_seen hup act hs
  | krecv pid caller =>
      cases caller with
      | sysRecv => exact h.recvToUser_seen hup act hs
      | procStart => trivial

end Omb
