import Omb.Kern.Rendezvous
import Omb.Lib.SyncCall

/-!
# Deadlock

A process in `ksend` waits for the process it has sent to.  The kernel has nothing that
ends such a wait from outside: no time limit, no signal, no process that dies.  So
processes that wait for each other do so for ever, and a send to one of them is one
more.

`State.WaitsFor` is the relation, and `State.Deadlocked` says that it leads on from a process
without end; what follows from that alone is in `Omb.Lib.SyncCall`, over any relation of
waiting.  What the kernel adds is one fact for each `Move`: which waits the step ends, and which
it makes (`WaitsStep`).  A wait is ended only by the process that is waited for, when it replies,
and for that it has to run; so a wait for a process that waits is not ended.

## Main results

* `Move.waits`: what one step does to who waits for whom
* `deadlock_of_run`: a deadlock stays, and who sends to a deadlocked process joins it
* `deadlock_step_iff`: the sends that make a deadlock are those that close a chain of waiting

Both are about runs from boot that make at most `MAX_PROCS` processes.  One more takes a slot in
use, and the process in it, with its wait, is gone.
-/

namespace Omb

/-- `a` is in `ksend(b)`, with its message taken or not.  A process waits for one other at
most, or for itself. -/
def State.WaitsFor (s : State) (a b : ProcRef) : Prop :=
  ((s.procs a).state = .send ∨ (s.procs a).state = .reply) ∧ (s.procs a).waitingOn = some b

instance (s : State) (a b : ProcRef) : Decidable (s.WaitsFor a b) :=
  inferInstanceAs (Decidable (_ ∧ _))

/-- `a` waits for a process that waits for a process, and so on without end. -/
def State.Deadlocked (s : State) : ProcRef → Prop :=
  SyncCall.Stalled s.WaitsFor

variable {s s' : State} {n n' : ℕ} {Q Q' : ProcRef → List ProcRef} {a b c u p : ProcRef}

theorem State.WaitsFor.not_running (h : Inv s n Q) (hab : s.WaitsFor a b) : s.up ≠ some a := by
  intro hup
  have hrun := h.running a hup
  rcases hab.1 with hst | hst <;> simp [hrun] at hst

/-- `a` is as it was, as far as waiting goes. -/
def SameWait (s s' : State) (a : ProcRef) : Prop :=
  (s'.procs a).state = (s.procs a).state ∧ (s'.procs a).waitingOn = (s.procs a).waitingOn

theorem SameWait.waitsFor (h : SameWait s s' a) (hab : s.WaitsFor a b) : s'.WaitsFor a b := by
  rw [State.WaitsFor, h.1, h.2]
  exact hab

/-- What a step does to who waits for whom: whom nobody but the sender waits for anew, and
which waits go on. -/
structure WaitsStep (s : State) (evs : List Event) (s' : State) : Prop where
  /-- A wait for a process that waits is not ended. -/
  kept : ∀ a b c, s.WaitsFor a b → s.WaitsFor b c → SameWait s s' a
  /-- Only a send makes a process wait. -/
  made : ∀ a b, s'.WaitsFor a b → .sent a b ∈ evs ∨ s.WaitsFor a b
  /-- A send ends no wait, and there is one in a step at most. -/
  sent : ∀ a b, .sent a b ∈ evs → s.up = some a ∧ s'.WaitsFor a b ∧
    (∀ x y, s.WaitsFor x y → s'.WaitsFor x y) ∧ ∀ x y, .sent x y ∈ evs → x = a ∧ y = b

theorem WaitsStep.of_silent {evs : List Event} (hevs : ∀ a b, .sent a b ∉ evs)
    (hkept : ∀ a b c, s.WaitsFor a b → s.WaitsFor b c → SameWait s s' a)
    (hmade : ∀ a b, s'.WaitsFor a b → s.WaitsFor a b) : WaitsStep s evs s' where
  kept := hkept
  made := fun a b hab => .inr (hmade a b hab)
  sent := fun a b he => absurd he (hevs a b)

/-- A context switch ends no wait but that of the process it is to. -/
theorem switchFrom_waitsFor {s₁ : State} {k : Label} {r : Option ProcRef} :
    (s₁.switchFrom k r).WaitsFor a b ↔ r ≠ some a ∧ s₁.WaitsFor a b := by
  rw [State.WaitsFor, State.switchFrom_state_iff _ _ _ (by simp) (by simp),
    State.switchFrom_state_iff _ _ _ (by simp) (by simp), State.switchFrom_waitingOn,
    State.WaitsFor]
  tauto

theorem switchFrom_sameWait {s₁ : State} {k : Label} {r : Option ProcRef}
    (hab : s₁.WaitsFor a b) (hr : r ≠ some a) : SameWait s₁ (s₁.switchFrom k r) a := by
  refine ⟨?_, State.switchFrom_waitingOn ..⟩
  obtain ⟨hst, -⟩ := hab
  refine (State.switchFrom_state_iff _ _ _ ?_ ?_ a).mpr ⟨hr, rfl⟩
  · rcases hst with hst | hst <;> simp [hst]
  · rcases hst with hst | hst <;> simp [hst]

/-- A wait goes on over a switch from `m`, where it is as in `s`. -/
theorem SameWait.switchFrom {m : State} {k : Label} {r : Option ProcRef}
    (h : SameWait s m a) (hab : s.WaitsFor a b) (hr : r ≠ some a) :
    SameWait s (m.switchFrom k r) a := by
  have hswitch := switchFrom_sameWait (k := k) (h.waitsFor hab) hr
  exact ⟨hswitch.1.trans h.1, hswitch.2.trans h.2⟩

/-- Who waits for a process that waits does not wait for the running one. -/
theorem State.WaitsFor.ne_running (h : Inv s n Q) (hup : s.up = some u) (hab : s.WaitsFor a b)
    (hbc : s.WaitsFor b c) : b ≠ u ∧ a ≠ u := by
  constructor
  · rintro rfl
    exact hbc.not_running h hup
  · rintro rfl
    exact hab.not_running h hup

/-! ### The moves -/

section Moves

variable {lists : ListRef → ProcList} {waiting : ProcRef → Option ListRef} {w : ProcRef}
  {r : Option ProcRef} {evs : List Event}

/-- Who is ready does not wait. -/
theorem State.WaitsFor.not_ready (hab : s.WaitsFor a b) : (s.procs a).state ≠ .ready := by
  rcases hab.1 with hst | hst <;> simp [hst]

theorem WaitsStep.of_untouched (hs' : Untouched s s')
    (hevs : ∀ e ∈ evs, (∃ v, e = .returned u v) ∨ ∃ pc sp, e = .dropped u pc sp) :
    WaitsStep s evs s' := by
  have hsame : ∀ a, SameWait s s' a := fun a => by
    rw [SameWait, ← hs'.procs a]
    exact ⟨rfl, rfl⟩
  refine .of_silent ?_ (fun a _ _ _ _ => hsame a) fun a b hab => ?_
  · intro a b he
    rcases hevs _ he with ⟨v, hv⟩ | ⟨pc, sp, hd⟩
    · cases hv
    · cases hd
  · rwa [State.WaitsFor, (hsame a).1, (hsame a).2] at hab

/-- The new process takes a slot in which nobody waits, and does not wait itself. -/
theorem WaitsStep.spawn {page spacePage v : Word} {mem : Mem} {alive : Option ProcRef}
    {nexts : ProcRef → Option ProcRef} (hdead : (s.procs s.nextpid).state = .dead) :
    WaitsStep s [.returned u v]
      { ({ s with mem := mem } : State).spawn spacePage page alive nexts with
        control := .user } := by
  have hold : ∀ a, a ≠ s.nextpid → SameWait s { ({ s with mem := mem } : State).spawn
      spacePage page alive nexts with control := .user } a := fun a ha => by
    simp [SameWait, State.spawn, ha]
  refine .of_silent (by simp) (fun a b c hab _ => hold a ?_) fun a b hab => ?_
  · rintro rfl
    rcases hab.1 with hst | hst <;> simp [hdead] at hst
  · have ha : a ≠ s.nextpid := by
      rintro rfl
      simp [State.WaitsFor, State.spawn, freshProc] at hab
    rwa [State.WaitsFor, (hold a ha).1, (hold a ha).2] at hab

theorem WaitsStep.preempt (h : Inv s n Q)
    (hr : ∀ q, r = some q → s.up = some q ∨ (s.procs q).state = .ready) :
    WaitsStep s [.scheduled none] (s.switchFrom .trap r) := by
  refine .of_silent (by simp) (fun a b c hab _ => ?_) fun a b hab =>
    (switchFrom_waitsFor.mp hab).2
  refine switchFrom_sameWait hab fun heq => ?_
  rcases hr a heq with hup | hready
  · exact hab.not_running h hup
  · exact hab.not_ready hready

/-- `ksend` makes one wait, and ends none. -/
theorem WaitsStep.block {handed : Option (ProcRef × ProcState)} (h : Inv s n Q)
    (hup : s.up = some u)
    (hr : ∀ q, r = some q → q ≠ u ∧ ((s.procs q).state = .ready ∨ (s.procs q).state = .recv)) :
    WaitsStep s [.sent u p, .scheduled handed]
      ((s.blockOn u p lists waiting).switchFrom .ksend r) := by
  have hkept : ∀ a b, s.WaitsFor a b →
      SameWait s ((s.blockOn u p lists waiting).switchFrom .ksend r) a := by
    intro a b hab
    have ha : a ≠ u := by
      rintro rfl
      exact hab.not_running h hup
    refine SameWait.switchFrom (m := s.blockOn u p lists waiting) ?_ hab fun heq => ?_
    · simp [SameWait, State.blockOn, ha]
    · rcases hab.1 with hst | hst <;> simpa [hst] using (hr a heq).2
  refine ⟨fun a b c hab _ => hkept a b hab, fun a b hab => ?_, fun a b he => ?_⟩
  · obtain ⟨-, hblock⟩ := switchFrom_waitsFor.mp hab
    rcases eq_or_ne a u with rfl | ha
    · obtain rfl : p = b := by simpa [State.WaitsFor, State.blockOn] using hblock
      exact .inl (by simp)
    · exact .inr (by simpa [State.WaitsFor, State.blockOn, ha] using hblock)
  · obtain ⟨rfl, rfl⟩ : a = u ∧ b = p := by simpa using he
    refine ⟨hup, switchFrom_waitsFor.mpr ⟨fun heq => (hr a heq).1 rfl, ?_⟩,
      fun x y hxy => (hkept x y hxy).waitsFor hxy, by simp⟩
    simp [State.WaitsFor, State.blockOn]

/-- Who waits for a process that waits has not sent to the running one. -/
theorem State.WaitsFor.ne_sender (h : Inv s n Q) (hup : s.up = some u)
    (hon : (s.procs w).waitingOn = some u) (hab : s.WaitsFor a b) (hbc : s.WaitsFor b c) :
    a ≠ w := by
  rintro rfl
  obtain rfl := Option.some.inj (hab.2.symm.trans hon)
  exact hbc.not_running h hup

/-- Who has its message taken waits on, for the reply. -/
theorem WaitsStep.receive (h : Inv s n Q) (hup : s.up = some u)
    (hsend : (s.procs w).state = .send) (hon : (s.procs w).waitingOn = some u) {v : Word} :
    WaitsStep s [.received u w, .returned u v]
      { s.takeMessage u w lists waiting with control := .user } := by
  refine .of_silent (by simp) (fun a b c hab hbc => ?_) fun a b hab => ?_
  · have ha := hab.ne_sender h hup hon hbc
    simp [SameWait, State.takeMessage, ha]
  · rcases eq_or_ne a w with rfl | ha
    · exact ⟨.inl hsend, hab.2⟩
    · simpa [State.WaitsFor, State.takeMessage, ha] using hab

theorem WaitsStep.start (h : Inv s n Q) (hup : s.up = some u)
    (hon : (s.procs w).waitingOn = some u) {k : Label} :
    WaitsStep s [.received u w, .replied u w ok, .scheduled (some (w, .reply))]
      ((deliverReply (s.takeMessage u w lists waiting) u w ok).switchFrom k (some w)) := by
  refine .of_silent (by simp) (fun a b c hab hbc => ?_) fun a b hab => ?_
  · have ha := hab.ne_sender h hup hon hbc
    refine SameWait.switchFrom (m := deliverReply (s.takeMessage u w lists waiting) u w ok)
      ?_ hab fun heq => ha (Option.some.inj heq).symm
    simp [SameWait, deliverReply, State.takeMessage, ha]
  · obtain ⟨hr, hab⟩ := switchFrom_waitsFor.mp hab
    have ha : a ≠ w := fun heq => hr (heq ▸ rfl)
    simpa [State.WaitsFor, deliverReply, State.takeMessage, ha] using hab

/-- `krecv` sets the state of the running process, which does not wait then. -/
theorem receiving_sameWait {m : State} (hm : ∀ a, SameWait s m a) (ha : a ≠ u) :
    SameWait s (m.receiving u) a := by
  rw [SameWait, State.receiving_state, if_neg ha, State.receiving_field Proc.waitingOn
    fun _ => rfl]
  exact hm a

/-- A switch away from a process that has begun to receive. -/
theorem WaitsStep.receiving {m : State} {k : Label} (h : Inv s n Q) (hup : s.up = some u)
    (hm : ∀ a, SameWait s m a) (hevs : ∀ a b, .sent a b ∉ evs)
    (hr : ∀ a b c, s.WaitsFor a b → s.WaitsFor b c → r ≠ some a) :
    WaitsStep s evs ((m.receiving u).switchFrom k r) := by
  refine .of_silent hevs (fun a b c hab hbc => ?_) fun a b hab => ?_
  · have ha := (hab.ne_running h hup hbc).2
    exact SameWait.switchFrom (receiving_sameWait hm ha) hab (hr a b c hab hbc)
  · obtain ⟨-, hab⟩ := switchFrom_waitsFor.mp hab
    have ha : a ≠ u := by
      rintro rfl
      simp [State.WaitsFor, State.receiving_state] at hab
    have hsame := receiving_sameWait hm ha
    rwa [State.WaitsFor, hsame.1, hsame.2] at hab

theorem WaitsStep.reply (h : Inv s n Q) (hup : s.up = some u) (hawait : awaitsReply s u p)
    {ret : Word} {k : Label} :
    WaitsStep s [.replied u p ret, .scheduled (some (p, .reply))]
      ((deliverReply s u p ret).switchFrom k (some p)) := by
  refine .of_silent (by simp) (fun a b c hab hbc => ?_) fun a b hab => ?_
  · refine SameWait.switchFrom (m := deliverReply s u p ret) ⟨rfl, rfl⟩ hab fun heq => ?_
    exact hab.ne_sender h hup hawait.2 hbc (Option.some.inj heq).symm
  · exact (switchFrom_waitsFor.mp hab).2

end Moves

/-- **What one step does to who waits for whom.**  Each kind of move has a lemma above, and
those that are left touch nobody's wait. -/
theorem Move.waits {act : Action} {evs : List Event} (hmove : Move s act evs s')
    (h : Inv s n Q) : WaitsStep s evs s' := by
  cases hmove with
  | quiet hu hs' hcreates hevs => exact .of_untouched hs' hevs
  | write page hup hc =>
      exact .of_silent (by simp) (fun _ _ _ _ _ => ⟨rfl, rfl⟩) fun _ _ hab => hab
  | create hup hc hdead => exact .spawn hdead
  | preempt hc hr => exact .preempt h hr
  | send hup hc hpid hlive hr hhanded hwake => exact .block h hup hr
  | receive hu hcreates hsend hon => exact .receive h hu.1 hsend hon
  | start hu hcreates hsend hon => exact .start h hu.1 hon
  | park hu hcreates hempty hr =>
      refine .receiving h hu.1 (fun _ => ⟨rfl, rfl⟩) (by simp) fun a b c hab _ heq => ?_
      exact hab.not_ready (hr a heq).2
  | @replyRecv u p pid ret rpid hup hc hpid hawait =>
      refine .receiving (m := deliverReply s u p ret) h hup (fun _ => ⟨rfl, rfl⟩) (by simp)
        fun a b c hab hbc heq => ?_
      exact hab.ne_sender h hup hawait.2 hbc (Option.some.inj heq).symm
  | reply hup hc hpid hawait => exact .reply h hup hawait
  | resumed hup hc hlabel =>
      exact .of_silent (by simp) (fun _ _ _ _ _ => ⟨rfl, rfl⟩) fun _ _ hab => hab

/-! ## A deadlock stays -/

theorem State.Deadlocked.not_running (h : Inv s n Q) (ha : s.Deadlocked a) : s.up ≠ some a := by
  obtain ⟨b, hab, -⟩ := ha.waits
  exact hab.not_running h

theorem WaitsStep.deadlocked {evs : List Event} (hstep : WaitsStep s evs s')
    (ha : s.Deadlocked a) : s'.Deadlocked a ∧ SameWait s s' a := by
  obtain ⟨b, hab, hb⟩ := ha.waits
  obtain ⟨c, hbc, -⟩ := hb.waits
  exact ⟨ha.mono fun x y z hxy hyz => (hstep.kept x y z hxy hyz).waitsFor hxy,
    hstep.kept a b c hab hbc⟩

/-- **A deadlock is for ever.**  Whatever happens after it, a deadlocked process never runs
again and its call stays where it is; and who sends to it is deadlocked, too.  `hn` counts the
processes of both parts of the run: one too many would clear a slot, with whoever waits in it.
-/
theorem deadlock_of_run {tr tr' : List KStep} {s s' : State} (h : KernelRun tr s)
    (hrun : Machine.Run step s tr' s') (hn : created (tr ++ tr') ≤ maxProcs) {a : ProcRef}
    (ha : s.Deadlocked a) :
    s'.Deadlocked a ∧ SameWait s s' a ∧
      (∀ t ∈ tr', t.pre.up ≠ some a ∧ t.post.up ≠ some a) ∧
      ∀ t ∈ tr', ∀ u, .sent u a ∈ t.events → t.post.Deadlocked u := by
  refine h.afterwards (P := fun tr m => m.Deadlocked a ∧ SameWait s m a ∧
    (∀ t ∈ tr, t.pre.up ≠ some a ∧ t.post.up ≠ some a) ∧
      ∀ t ∈ tr, ∀ u, .sent u a ∈ t.events → t.post.Deadlocked u) hrun hn ?_ ?_
  · exact ⟨ha, ⟨rfl, rfl⟩, by simp, by simp⟩
  · rintro tr₀ m act evs m' Q Q' hinv hinv' ⟨hdead, hsame, hups, hsent⟩ - hmove
    have hwaits := hmove.waits hinv
    obtain ⟨hdead', hsame'⟩ := hwaits.deadlocked hdead
    refine ⟨hdead', ⟨hsame'.1.trans hsame.1, hsame'.2.trans hsame.2⟩, ?_, ?_⟩
    · intro t ht
      rcases List.mem_append.mp ht with ht | ht
      · exact hups t ht
      · obtain rfl := List.mem_singleton.mp ht
        exact ⟨hdead.not_running hinv, hdead'.not_running hinv'⟩
    · intro t ht u he
      rcases List.mem_append.mp ht with ht | ht
      · exact hsent t ht u he
      · obtain rfl := List.mem_singleton.mp ht
        exact .of_waits (hwaits.sent u a he).2.1 hdead'

/-- `proc0` starts processes 1 and 2, and then sends to 1 while 1 sends to it. -/
def cycleActs : List Action :=
  [.resume, .syscall (.procCreate 0x10000 0x11000), .syscall (.procCreate 0x12000 0x13000),
    .syscall (.send 1), .resume, .resume, .syscall (.send 2), .resume, .tick, .resume, .resume,
    .syscall (.send 1), .resume, .syscall (.send 0)]

/-- Process 2 sends to `proc0` after that, and is deadlocked, too; the kernel idles. -/
theorem deadlock_of_two :
    ∃ tr s tr' s', exampleRun cycleActs = .ok (tr, s) ∧ s.WaitsFor 0 1 ∧ s.WaitsFor 1 0 ∧
      Machine.Run step s tr' s' ∧ s'.WaitsFor 2 0 ∧ s'.control = .idle ∧
      s'.Deadlocked 0 ∧ SameWait s s' 0 ∧
      (∀ t ∈ tr', t.pre.up ≠ some 0 ∧ t.post.up ≠ some 0) ∧
      ∀ t ∈ tr', ∀ u, .sent u 0 ∈ t.events → t.post.Deadlocked u := by
  obtain ⟨tr, s, hrun, hP⟩ := exists_exampleRun cycleActs
    (fun tr s => s.WaitsFor 0 1 ∧ s.WaitsFor 1 0 ∧
      ((Machine.replay step s [.resume, .syscall (.send 0), .tick]).map fun out =>
        decide (created (tr ++ out.1) ≤ maxProcs ∧ out.2.WaitsFor 2 0 ∧
          out.2.control = .idle)) = .ok true)
    (by decide +kernel)
  rw [decide_eq_true_eq] at hP
  obtain ⟨h01, h10, hreplay⟩ := hP
  obtain ⟨tr', s', hrun', -, hlater⟩ := Machine.exists_of_replay hreplay
  rw [decide_eq_true_eq] at hlater
  obtain ⟨hn, h20, hidle⟩ : created (tr ++ tr') ≤ maxProcs ∧ s'.WaitsFor 2 0 ∧
    s'.control = .idle := hlater
  exact ⟨tr, s, tr', s', hrun, h01, h10, hrun', h20, hidle,
    deadlock_of_run (.of_bootRun hrun) hrun' hn (.of_cycle h01 (.single h10))⟩

/-! ## How a deadlock comes about -/

/-- A wait of `u` for `p` that leads from `p` back to `u`, or to a deadlock.  It is told from
the state before the send. -/
def State.Closes (s : State) (u p : ProcRef) : Prop :=
  s.Deadlocked p ∨ Relation.ReflTransGen s.WaitsFor p u

/-- Exactly the sends that close a chain make a deadlock: of those that lead to the
sender. -/
theorem WaitsStep.deadlocked_iff {evs : List Event} (h : Inv s n Q)
    (hstep : WaitsStep s evs s') (a : ProcRef) :
    s'.Deadlocked a ↔ s.Deadlocked a ∨ ∃ u p, .sent u p ∈ evs ∧ s.Closes u p ∧
      Relation.ReflTransGen s.WaitsFor a u := by
  constructor
  · intro ha
    by_cases hsend : ∃ u p, .sent u p ∈ evs
    · obtain ⟨u, p, he⟩ := hsend
      obtain ⟨hup, -, -, honly⟩ := hstep.sent u p he
      have hold : ∀ x y, s'.WaitsFor x y → x = u ∧ y = p ∨ s.WaitsFor x y := fun x y hxy =>
        (hstep.made x y hxy).imp_left (honly x y)
      have hfree : ∀ y, ¬ s.WaitsFor u y := fun y huy => huy.not_running h hup
      rcases SyncCall.Stalled.of_added hfree hold ha with hdead | ⟨hau, hcloses⟩
      · exact .inl hdead
      · exact .inr ⟨u, p, he, hcloses, hau⟩
    · refine .inl (ha.mono fun x y _ hxy _ => ?_)
      exact (hstep.made x y hxy).resolve_left fun he => hsend ⟨x, y, he⟩
  · rintro (ha | ⟨u, p, he, hcloses, hau⟩)
    · exact (hstep.deadlocked ha).1
    · obtain ⟨-, hup, hkept, -⟩ := hstep.sent u p he
      refine .of_chain (Relation.ReflTransGen.mono hkept _ _ hau) ?_
      rcases hcloses with hp | hpu
      · exact .of_waits hup (hstep.deadlocked hp).1
      · exact .of_cycle hup (Relation.ReflTransGen.mono hkept _ _ hpu)

/-- **When a deadlock comes about.**  In every run from boot, a step leaves a process
deadlocked that was not exactly when it is a send that closes a chain of waiting, to which the
process leads.  There is no deadlock at boot, so this says where all of them come from.  `hn`
is for the slots to be those of one process each; beyond it a wait could be for a process that
has been replaced. -/
theorem deadlock_step_iff {tr : List KStep} {s : State} (h : KernelRun tr s)
    (hn : created tr ≤ maxProcs) : ∀ t ∈ tr, ∀ a, t.post.Deadlocked a ↔
      t.pre.Deadlocked a ∨ ∃ u p, .sent u p ∈ t.events ∧ t.pre.Closes u p ∧
        Relation.ReflTransGen t.pre.WaitsFor a u := by
  intro t ht a
  obtain ⟨-, hmove, ⟨n, Q, hinv⟩, -⟩ := h.forall_step hn t ht
  exact (hmove.waits hinv).deadlocked_iff hinv a

/-- The send of process 1 closes a chain of two, and that of process 2 leads to it. -/
theorem deadlock_step_of_two :
    ∃ tr s, exampleRun (cycleActs ++ [.resume, .syscall (.send 0)]) = .ok (tr, s) ∧
      s.Deadlocked 0 ∧ s.Deadlocked 1 ∧ s.Deadlocked 2 ∧
      ∀ t ∈ tr, ∀ a, t.post.Deadlocked a ↔
        t.pre.Deadlocked a ∨ ∃ u p, .sent u p ∈ t.events ∧ t.pre.Closes u p ∧
          Relation.ReflTransGen t.pre.WaitsFor a u := by
  obtain ⟨tr, s, hrun, hP⟩ := exists_exampleRun (cycleActs ++ [.resume, .syscall (.send 0)])
    (fun tr s => created tr ≤ maxProcs ∧ s.WaitsFor 0 1 ∧ s.WaitsFor 1 0 ∧ s.WaitsFor 2 0)
    (by decide +kernel)
  rw [decide_eq_true_eq] at hP
  obtain ⟨hn, h01, h10, h20⟩ := hP
  have h0 : s.Deadlocked 0 := .of_cycle h01 (.single h10)
  exact ⟨tr, s, hrun, h0, .of_waits h10 h0, .of_waits h20 h0,
    deadlock_step_iff (.of_bootRun hrun) hn⟩

end Omb
