import Omb.Kern.Moves

/-!
# The rendezvous of a client with its server

What the message primitives are for: a process that sends is answered exactly once, by the
process it sent to, after that process has taken its message.

The purpose is stated as an automaton, `Exchange`, over the events that concern one client:
send, receive, reply, return, over and over, with the messages and the result handed on.
`PhaseOk` ties each phase of the automaton to the kernel's state, and `Move.stepsExchange`
shows that every step of the kernel is a step of the automaton, or none.  There is a lemma for
each kind of move, and in most of them the client is not concerned (`PhaseOk.frame`,
`PhaseOk.switchFrom`).

Messages are in the pages of the processes, so the exchange is only about messages as long as
no two processes share a page.  That is `FreshPages`: a process is made on pages none of which
is the page of another process.  The kernel does not check it.

## Main results

* `Move.stepsExchange`: one step
* `KernelRun.exchange`: the kernel's runs are runs of the automaton, client by client
* `rendezvous_of_run`: what follows for the order of the events, for the contents of the pages
  and for which replies go through
-/

namespace Omb

/-! ## The exchange of one client -/

/-- The client an event concerns. -/
def Event.client : Event → Option ProcRef
  | .sent a _ => some a
  | .received _ a => some a
  | .replied _ a _ => some a
  | .resumed a _ => some a
  | _ => none

/-- An event of a run, with the states before and after its step, from which the pages can be
read. -/
structure Occurrence where
  pre : State
  event : Event
  post : State

/-- What a step does that concerns the client `a`. -/
def KStep.occurrences (a : ProcRef) (t : KStep) : List Occurrence :=
  (t.events.filter fun e => e.client = some a).map fun e => ⟨t.pre, e, t.post⟩

/-- What a run does that concerns the client `a`. -/
def history (a : ProcRef) (tr : List KStep) : List Occurrence :=
  tr.flatMap (KStep.occurrences a)

/-- How far the client is.  The phases after a send hold whom it has sent to, and those in
which a message is under way hold that message. -/
inductive Phase where
  | idle
  /-- It has sent `m` to `b`. -/
  | sent (b : ProcRef) (m : Message)
  /-- `b` has its message. -/
  | received (b : ProcRef)
  /-- `b` has answered with `ret` and `m`. -/
  | replied (b : ProcRef) (ret : Word) (m : Message)

/-- `Exchange a h ph`: the events `h` of the client `a` are complete exchanges followed by the
part of one that ends in the phase `ph`.  Each constructor says what the pages hold when its
event happens. -/
inductive Exchange (a : ProcRef) : List Occurrence → Phase → Prop
  | nil : Exchange a [] .idle
  | sent {h : List Occurrence} {o : Occurrence} {b : ProcRef} :
      Exchange a h .idle → o.event = .sent a b →
        Exchange a (h ++ [o]) (.sent b (o.pre.pageOf a).mOut)
  | received {h : List Occurrence} {o : Occurrence} {b : ProcRef} {m : Message} :
      Exchange a h (.sent b m) → o.event = .received b a →
        (o.pre.pageOf a).mOut = m → (o.post.pageOf b).mIn = m →
          Exchange a (h ++ [o]) (.received b)
  | replied {h : List Occurrence} {o : Occurrence} {b : ProcRef} {ret : Word} :
      Exchange a h (.received b) → o.event = .replied b a ret →
        (o.post.pageOf a).mIn = (o.pre.pageOf b).mOut →
          Exchange a (h ++ [o]) (.replied b ret (o.pre.pageOf b).mOut)
  | resumed {h : List Occurrence} {o : Occurrence} {b : ProcRef} {ret : Word}
      {m : Message} :
      Exchange a h (.replied b ret m) → o.event = .resumed a ret →
        (o.post.pageOf a).mIn = m → Exchange a (h ++ [o]) .idle

/-! ## The phases in the kernel's state -/

/-- `a` is about to return from `ksend`. -/
def State.Returning (s : State) (a : ProcRef) : Prop :=
  s.up = some a ∧ s.control = .resume ∧ (s.procs a).label = .ksend

/-- What the kernel's state is when the client is in a phase.  A client in `PROC_send` or
`PROC_reply` is in the middle of an exchange, and one whose return from `ksend` is still to
come has its result in its page. -/
def PhaseOk (s : State) (a : ProcRef) : Phase → Prop
  | .idle =>
      (s.procs a).state ≠ .send ∧ (s.procs a).state ≠ .reply ∧ ¬ s.Returning a
  | .sent b m =>
      (s.procs a).state = .send ∧ (s.procs a).waitingOn = some b ∧ (s.pageOf a).mOut = m
  | .received b => (s.procs a).state = .reply ∧ (s.procs a).waitingOn = some b
  | .replied _ ret m =>
      s.Returning a ∧ (s.pageOf a).mRet = ret ∧ (s.pageOf a).mIn = m

/-- No two processes share a page.  Slots in which no process was made do not count. -/
def PagesDistinct (s : State) : Prop :=
  ∀ p q, (s.procs p).state ≠ .dead → (s.procs q).state ≠ .dead →
    (s.procs p).page = (s.procs q).page → p = q

/-- The pages a process is made on. -/
def Action.newPages : Action → List Word
  | .syscall (.procCreate page spacePage) => [page, spacePage]
  | _ => []

/-- A process is made on pages none of which is the page of another process. -/
def FreshPages (t : KStep) : Prop :=
  ∀ p, (t.pre.procs p).state ≠ .dead → (t.pre.procs p).page ∉ t.act.newPages

instance (t : KStep) : Decidable (FreshPages t) :=
  inferInstanceAs (Decidable (∀ _ : ProcRef, _))

variable {s s' : State} {n : ℕ} {Q Q' : ProcRef → List ProcRef} {a : ProcRef} {ph : Phase}

/-- A client stays in its phase when nothing of it changes that the phase is
about. -/
theorem PhaseOk.frame (h : PhaseOk s a ph) (hret : ¬ s.Returning a)
    (hstate : ∀ st, st = .send ∨ st = .reply →
      ((s'.procs a).state = st ↔ (s.procs a).state = st))
    (hon : (s.procs a).state = .send ∨ (s.procs a).state = .reply →
      (s'.procs a).waitingOn = (s.procs a).waitingOn)
    (hout : (s.procs a).state = .send → (s'.pageOf a).mOut = (s.pageOf a).mOut)
    (hret' : ¬ s'.Returning a) : PhaseOk s' a ph := by
  have hsend := hstate .send (.inl rfl)
  have hreply := hstate .reply (.inr rfl)
  cases ph with
  | idle => exact ⟨fun hs => h.1 (hsend.mp hs), fun hs => h.2.1 (hreply.mp hs), hret'⟩
  | sent b m => exact ⟨hsend.mpr h.1, (hon (.inl h.1)).trans h.2.1, (hout h.1).trans h.2.2⟩
  | received b => exact ⟨hreply.mpr h.1, (hon (.inr h.1)).trans h.2⟩
  | replied b ret m => exact absurd h.1 hret

/-- The running process is idle, or on its way out of `ksend`. -/
theorem PhaseOk.of_running (h : Inv s n Q) (hup : s.up = some a) (hph : PhaseOk s a ph) :
    ph = .idle ∨ ∃ b ret m, ph = .replied b ret m := by
  have hrun := h.running a hup
  cases ph with
  | idle => exact .inl rfl
  | sent b m => simp [PhaseOk, hrun] at hph
  | received b => simp [PhaseOk, hrun] at hph
  | replied b ret m => exact .inr ⟨b, ret, m, rfl⟩

theorem PhaseOk.of_send (hst : (s.procs a).state = .send) {b : ProcRef}
    (hon : (s.procs a).waitingOn = some b) (h : Inv s n Q) (hph : PhaseOk s a ph) :
    ph = .sent b (s.pageOf a).mOut := by
  cases ph with
  | idle => exact absurd hst hph.1
  | sent b' m =>
      obtain ⟨-, hon', hm⟩ := hph
      obtain rfl := Option.some.inj (hon'.symm.trans hon)
      rw [hm]
  | received b' => simp [PhaseOk, hst] at hph
  | replied b' ret m =>
      have hrun := h.running a hph.1.1
      rw [hst] at hrun
      cases hrun

theorem PhaseOk.of_reply (hst : (s.procs a).state = .reply) {b : ProcRef}
    (hon : (s.procs a).waitingOn = some b) (h : Inv s n Q) (hph : PhaseOk s a ph) :
    ph = .received b := by
  cases ph with
  | idle => exact absurd hst hph.2.1
  | sent b' m => simp [PhaseOk, hst] at hph
  | received b' =>
      obtain rfl := Option.some.inj (hph.2.symm.trans hon)
      rfl
  | replied b' ret m =>
      have hrun := h.running a hph.1.1
      rw [hst] at hrun
      cases hrun

theorem State.OutsideKsend.not_returning {u : ProcRef} (hu : s.OutsideKsend u)
    (a : ProcRef) : ¬ s.Returning a := by
  rintro ⟨hup, hc, hlabel⟩
  obtain rfl := Option.some.inj (hu.1.symm.trans hup)
  exact hu.2 hc hlabel

/-- A client stays in its phase over a context switch, if it is not one that a
blocked client or one in `ksend` is switched to by. -/
theorem PhaseOk.switchFrom {s₁ : State} (h : PhaseOk s a ph) (hret : ¬ s.Returning a)
    {k : Label} {r : Option ProcRef}
    (hstate : ∀ st, st = .send ∨ st = .reply →
      ((s₁.procs a).state = st ↔ (s.procs a).state = st))
    (hon : (s.procs a).state = .send ∨ (s.procs a).state = .reply →
      (s₁.procs a).waitingOn = (s.procs a).waitingOn)
    (hout : (s₁.pageOf a).mOut = (s.pageOf a).mOut)
    (hr : r = some a → (s.procs a).state ≠ .send ∧ (s.procs a).state ≠ .reply ∧
      (if s₁.up = some a then k else (s₁.procs a).label) ≠ .ksend) :
    PhaseOk (s₁.switchFrom k r) a ph := by
  refine h.frame hret (fun st hst => ?_) (fun hst => ?_) (fun _ => ?_) ?_
  · have hne : st ≠ .ready ∧ st ≠ .oncpu := by rcases hst with rfl | rfl <;> simp
    rw [State.switchFrom_state_iff _ _ _ hne.1 hne.2, hstate st hst]
    refine ⟨And.right, fun hs => ⟨fun heq => ?_, hs⟩⟩
    obtain ⟨hsend, hreply, -⟩ := hr heq
    rcases hst with rfl | rfl
    · exact hsend hs
    · exact hreply hs
  · rw [State.switchFrom_waitingOn]
    exact hon hst
  · rw [State.switchFrom_pageOf, hout]
  · rintro ⟨hup, -, hlabel⟩
    rw [State.switchFrom_up] at hup
    rw [State.switchFrom_label] at hlabel
    exact (hr hup).2.2 hlabel

/-! ## The pages -/

theorem Untouched.page_eq (h : Untouched s s') (p : ProcRef) :
    (s'.procs p).page = (s.procs p).page := by
  rw [← h.procs p]

theorem Untouched.pageOf_eq (h : Untouched s s') (p : ProcRef) : s'.pageOf p = s.pageOf p := by
  rw [State.pageOf, State.pageOf, h.page_eq, h.pages]

@[simp] theorem takeMessage_mOut (s : State) (u w : ProcRef) (lists : ListRef → ProcList)
    (waiting : ProcRef → Option ListRef) (p : ProcRef) :
    ((s.takeMessage u w lists waiting).pageOf p).mOut = (s.pageOf p).mOut := by
  show (Function.update s.pages (s.procs u).page _ (s.procs p).page).mOut = _
  rw [Function.update_apply]
  split_ifs with hp
  · exact congrArg (fun x => (s.pages x).mOut) hp.symm
  · rfl

theorem takeMessage_mIn (s : State) (u w : ProcRef) (lists : ListRef → ProcList)
    (waiting : ProcRef → Option ListRef) :
    ((s.takeMessage u w lists waiting).pageOf u).mIn = (s.pageOf w).mOut := by
  show (Function.update s.pages (s.procs u).page _ (s.procs u).page).mIn = _
  rw [Function.update_self]

@[simp] theorem deliverReply_mOut (s : State) (u w : ProcRef) (ret : Word) (p : ProcRef) :
    ((deliverReply s u w ret).pageOf p).mOut = (s.pageOf p).mOut := by
  show (Function.update s.pages (s.procs w).page _ (s.procs p).page).mOut = _
  rw [Function.update_apply]
  split_ifs with hp
  · exact congrArg (fun x => (s.pages x).mOut) hp.symm
  · rfl

theorem deliverReply_pageOf (s : State) (u w : ProcRef) (ret : Word) :
    (deliverReply s u w ret).pageOf w =
      { s.pageOf w with mIn := (s.pageOf u).mOut, mRet := ret } := by
  show Function.update s.pages (s.procs w).page _ (s.procs w).page = _
  rw [Function.update_self]
  rfl

theorem deliverReply_pageOf_ne {u w p : ProcRef} (hne : (s.procs p).page ≠ (s.procs w).page)
    (ret : Word) : (deliverReply s u w ret).pageOf p = s.pageOf p := by
  show Function.update s.pages (s.procs w).page _ (s.procs p).page = _
  rw [Function.update_of_ne hne]
  rfl

theorem receiving_pageOf (s : State) (u p : ProcRef) :
    (s.receiving u).pageOf p = s.pageOf p := by
  rw [State.pageOf, State.receiving_field Proc.page fun _ => rfl]
  rfl

/-! ## One step -/

/-- The step takes the exchange of `a` on by its events about `a`, from whatever phase `a` is
in. -/
def StepsExchange (a : ProcRef) (t : KStep) : Prop :=
  ∀ h ph, Exchange a h ph → PhaseOk t.pre a ph →
    ∃ ph', Exchange a (h ++ t.occurrences a) ph' ∧ PhaseOk t.post a ph'

theorem KStep.occurrences_one {t : KStep} {e : Event}
    (h : t.events.filter (fun e => e.client = some a) = [e]) :
    t.occurrences a = [⟨t.pre, e, t.post⟩] := by
  rw [KStep.occurrences, h, List.map_singleton]

theorem StepsExchange.unchanged {t : KStep} (hocc : t.occurrences a = [])
    (hframe : ∀ ph, PhaseOk t.pre a ph → PhaseOk t.post a ph) : StepsExchange a t := by
  intro h ph hex hph
  rw [hocc, List.append_nil]
  exact ⟨ph, hex, hframe ph hph⟩

/-- The label of a process that is neither running nor blocked is not in `ksend`. -/
theorem Inv.label_ne_ksend (h : Inv s n Q) {q : ProcRef} (hup : s.up ≠ some q)
    (hst : (s.procs q).state = .ready ∨ (s.procs q).state = .recv) :
    (s.procs q).label ≠ .ksend := by
  intro hlabel
  have hpar := h.parked q hup
  rw [hlabel] at hpar
  rcases hpar.ksend with hs | hs <;> simp [hs] at hst

theorem Untouched.stepsExchange {act : Action} {evs : List Event} {u : ProcRef}
    (hs' : Untouched s s') (hu : s.OutsideKsend u)
    (hevs : ∀ e ∈ evs, (∃ v, e = .returned u v) ∨ ∃ pc sp, e = .dropped u pc sp) (a : ProcRef) :
    StepsExchange a ⟨s, act, evs, s'⟩ := by
  refine .unchanged ?_ fun ph hph => hph.frame (hu.not_returning a) ?_ ?_ ?_ ?_
  · rw [KStep.occurrences, List.filter_eq_nil_iff.mpr, List.map_nil]
    intro e he
    rcases hevs e he with ⟨v, rfl⟩ | ⟨pc, sp, rfl⟩ <;> simp [Event.client]
  · intro st _
    show (s'.procs a).state = st ↔ (s.procs a).state = st
    rw [← hs'.procs a]
  · intro _
    show (s'.procs a).waitingOn = (s.procs a).waitingOn
    rw [← hs'.procs a]
  · intro _
    rw [hs'.pageOf_eq]
  · rintro ⟨-, hc, -⟩
    rw [hs'.control] at hc
    cases hc

/-- A client that sends goes from idle to sent. -/
theorem send_stepsExchange (h : Inv s n Q) {u p : ProcRef} (hup : s.up = some u)
    (hc : s.control = .user) {act : Action} {lists : ListRef → ProcList}
    {waiting : ProcRef → Option ListRef} {r : Option ProcRef}
    {handed : Option (ProcRef × ProcState)}
    (hr : ∀ q, r = some q → q ≠ u ∧
      ((s.procs q).state = .ready ∨ (s.procs q).state = .recv)) (a : ProcRef) :
    StepsExchange a ⟨s, act, [.sent u p, .scheduled handed],
      (s.blockOn u p lists waiting).switchFrom .ksend r⟩ := by
  have hu := State.OutsideKsend.of_user hup hc
  rcases eq_or_ne a u with rfl | ha
  · intro h' ph hex hph
    rcases hph.of_running h hup with rfl | ⟨b, ret, m, rfl⟩
    · refine ⟨.sent p (s.pageOf a).mOut, ?_, ?_, ?_, ?_⟩
      · rw [KStep.occurrences_one (e := .sent a p) (by simp [Event.client])]
        exact hex.sent rfl
      · rw [State.switchFrom_state_iff _ _ _ (by simp) (by simp)]
        refine ⟨fun heq => (hr a heq).1 rfl, ?_⟩
        simp [State.blockOn]
      · simp [State.blockOn]
      · rw [State.switchFrom_pageOf]
        rfl
    · exact absurd hph.1 (hu.not_returning a)
  · refine .unchanged (by simp [KStep.occurrences, Event.client, ha.symm]) fun ph hph => ?_
    have hproc : (s.blockOn u p lists waiting).procs a =
        { s.procs a with waiting := waiting a } := by
      simp [State.blockOn, ha]
    refine hph.switchFrom (hu.not_returning a) (fun st _ => by rw [hproc])
      (fun _ => by rw [hproc]) rfl fun heq => ?_
    have hst := (hr a heq).2
    have hup' : s.up ≠ some a := fun heq' => ha (Option.some.inj (heq'.symm.trans hup))
    refine ⟨by rcases hst with hs | hs <;> simp [hs], by rcases hst with hs | hs <;> simp [hs], ?_⟩
    rw [if_neg (show (s.blockOn u p lists waiting).up ≠ some a from hup'), hproc]
    exact h.label_ne_ksend hup' hst

/-- A client whose message is taken, for a system call, goes from sent to received. -/
theorem receive_stepsExchange (h : Inv s n Q) {u w : ProcRef} {act : Action}
    {lists : ListRef → ProcList} {waiting : ProcRef → Option ListRef}
    (hu : s.OutsideKsend u) (hsend : (s.procs w).state = .send)
    (hon : (s.procs w).waitingOn = some u) (v : Word) (a : ProcRef) :
    StepsExchange a ⟨s, act, [.received u w, .returned u v],
      { s.takeMessage u w lists waiting with control := .user }⟩ := by
  rcases eq_or_ne a w with rfl | ha
  · intro h' ph hex hph
    obtain rfl := hph.of_send hsend hon h
    refine ⟨.received u, ?_, ?_, ?_⟩
    · rw [KStep.occurrences_one (e := .received u a) (by simp [Event.client])]
      exact hex.received rfl rfl (takeMessage_mIn s u a lists waiting)
    · simp [State.takeMessage]
    · exact hon
  · refine .unchanged (by simp [KStep.occurrences, Event.client, ha.symm]) fun ph hph => ?_
    refine hph.frame (hu.not_returning a) (fun st _ => ?_) (fun _ => rfl)
      (fun _ => takeMessage_mOut s u w lists waiting a) ?_
    · simp [State.takeMessage, ha]
    · rintro ⟨-, hc, -⟩
      cases hc

/-- A client whose message `proc_start` takes goes from sent to replied. -/
theorem start_stepsExchange (h : Inv s n Q) (hpages : PagesDistinct s) {u w : ProcRef}
    {act : Action} {lists : ListRef → ProcList} {waiting : ProcRef → Option ListRef}
    {pc sp : Word} (hu : s.OutsideKsend u) (hsend : (s.procs w).state = .send)
    (hon : (s.procs w).waitingOn = some u) (a : ProcRef) :
    StepsExchange a ⟨s, act, [.received u w, .replied u w ok, .scheduled (some (w, .reply))],
      (deliverReply (s.takeMessage u w lists waiting) u w ok).switchFrom
        (.kreply (.procStart pc sp)) (some w)⟩ := by
  have hwu : w ≠ u := by
    rintro rfl
    simp [h.running w hu.1] at hsend
  rcases eq_or_ne a w with rfl | ha
  · intro h' ph hex hph
    obtain rfl := hph.of_send hsend hon h
    have hlabel : (s.procs a).label = .ksend := by
      have hpar := h.suspended hu.1 hwu
      exact hpar.label_of_blocked (.inl hsend)
    -- the page of the server is not the one the reply is written to
    have hpage : (s.procs u).page ≠ (s.procs a).page := fun heq =>
      hwu (hpages u a (by simp [h.running u hu.1]) (by simp [hsend]) heq).symm
    have hup : (s.takeMessage u a lists waiting).up ≠ some a := fun heq =>
      hwu (Option.some.inj (heq.symm.trans hu.1))
    let s₁ := s.takeMessage u a lists waiting
    let s₂ := (deliverReply s₁ u a ok).switchFrom (.kreply (.procStart pc sp)) (some a)
    have hrecv := hex.received (o := ⟨s, .received u a, s₂⟩) rfl rfl (by
      show ((s₂).pageOf u).mIn = _
      rw [State.switchFrom_pageOf, deliverReply_pageOf_ne (s := s₁) hpage]
      exact takeMessage_mIn ..)
    have hreply := hrecv.replied (o := ⟨s, .replied u a ok, s₂⟩) rfl (by
      show ((s₂).pageOf a).mIn = _
      rw [State.switchFrom_pageOf, deliverReply_pageOf]
      exact takeMessage_mOut ..)
    refine ⟨.replied u ok (s.pageOf u).mOut, ?_, ⟨?_, ?_, ?_⟩, ?_, ?_⟩
    · rw [show KStep.occurrences a _ = [⟨s, .received u a, s₂⟩, ⟨s, .replied u a ok, s₂⟩] by
        simp [KStep.occurrences, Event.client, s₁, s₂], List.append_cons]
      exact hreply
    · exact State.switchFrom_up ..
    · exact State.switchFrom_control ..
    · rw [State.switchFrom_label, if_neg (show (deliverReply s₁ u a ok).up ≠ some a from hup)]
      exact hlabel
    · rw [State.switchFrom_pageOf, deliverReply_pageOf]
    · rw [State.switchFrom_pageOf, deliverReply_pageOf]
      exact takeMessage_mOut ..
  · refine .unchanged (by simp [KStep.occurrences, Event.client, ha.symm]) fun ph hph => ?_
    show PhaseOk ((deliverReply (s.takeMessage u w lists waiting) u w ok).switchFrom
      (.kreply (.procStart pc sp)) (some w)) a ph
    refine hph.switchFrom (hu.not_returning a) (fun st _ => ?_) ?_ ?_ fun heq => ?_
    · simp [deliverReply, State.takeMessage, ha]
    · exact fun _ => rfl
    · rw [deliverReply_mOut, takeMessage_mOut]
    · exact absurd (Option.some.inj heq).symm ha

/-- A client that is replied to goes from received to replied, whether the server
parks (`s₁`) or not. -/
theorem reply_stepsExchange (h : Inv s n Q) {u p : ProcRef} {act : Action} {ret : Word}
    (hup : s.up = some u) (hc : s.control = .user) (hawait : awaitsReply s u p)
    (s₁ : State) {k : Label} (hup₁ : s₁.up = some u)
    (hproc : ∀ q, q ≠ u → s₁.procs q = s.procs q) (hself : (s₁.procs u).state ≠ .send ∧
      (s₁.procs u).state ≠ .reply)
    (hpage : ∀ q, s₁.pageOf q = (deliverReply s u p ret).pageOf q) (a : ProcRef) :
    StepsExchange a ⟨s, act, [.replied u p ret, .scheduled (some (p, .reply))],
      s₁.switchFrom k (some p)⟩ := by
  have hu := State.OutsideKsend.of_user hup hc
  have hpu : p ≠ u := by
    rintro rfl
    have hst := hawait.1
    rw [h.running p hup] at hst
    cases hst
  rcases eq_or_ne a p with rfl | ha
  · intro h' ph hex hph
    obtain rfl := hph.of_reply hawait.1 hawait.2 h
    have hlabel : (s.procs a).label = .ksend :=
      (h.suspended hup hpu).label_of_blocked (.inr hawait.1)
    refine ⟨.replied u ret (s.pageOf u).mOut, ?_, ⟨?_, ?_, ?_⟩, ?_, ?_⟩
    · rw [KStep.occurrences_one (e := .replied u a ret) (by simp [Event.client])]
      refine hex.replied rfl ?_
      show ((s₁.switchFrom k (some a)).pageOf a).mIn = _
      rw [State.switchFrom_pageOf, hpage, deliverReply_pageOf]
    · exact State.switchFrom_up ..
    · exact State.switchFrom_control ..
    · rw [State.switchFrom_label, if_neg, hproc a hpu]
      · exact hlabel
      · exact fun heq => hpu (Option.some.inj (heq.symm.trans hup₁))
    · rw [State.switchFrom_pageOf, hpage, deliverReply_pageOf]
    · rw [State.switchFrom_pageOf, hpage, deliverReply_pageOf]
  · refine .unchanged (by simp [KStep.occurrences, Event.client, ha.symm]) fun ph hph => ?_
    show PhaseOk (s₁.switchFrom k (some p)) a ph
    refine hph.switchFrom (hu.not_returning a) (fun st hst => ?_) (fun hst => ?_) ?_
      fun heq => ?_
    · rcases eq_or_ne a u with rfl | hau
      · rw [h.running a hup]
        rcases hst with rfl | rfl
        · exact iff_of_false hself.1 (by simp)
        · exact iff_of_false hself.2 (by simp)
      · rw [hproc a hau]
    · have hau : a ≠ u := by
        rintro rfl
        simp [h.running a hup] at hst
      rw [hproc a hau]
    · rw [hpage, deliverReply_mOut]
    · exact absurd (Option.some.inj heq).symm ha

/-- A client that returns from `ksend` goes from replied to idle. -/
theorem resumed_stepsExchange (h : Inv s n Q) {u : ProcRef} (hup : s.up = some u)
    (hc : s.control = .resume) (hlabel : (s.procs u).label = .ksend) (a : ProcRef) :
    StepsExchange a ⟨s, .resume, [.resumed u (s.pageOf u).mRet, .returned u (s.pageOf u).mRet],
      { s with control := .user }⟩ := by
  rcases eq_or_ne a u with rfl | ha
  · intro h' ph hex hph
    rcases hph.of_running h hup with rfl | ⟨b, ret, m, rfl⟩
    · exact absurd ⟨hup, hc, hlabel⟩ hph.2.2
    · obtain ⟨-, hret, hm⟩ := hph
      refine ⟨.idle, ?_, ?_, ?_, ?_⟩
      · rw [KStep.occurrences_one (e := .resumed a (s.pageOf a).mRet) (by simp [Event.client])]
        exact hex.resumed (by rw [← hret]) hm
      · simp [h.running a hup]
      · simp [h.running a hup]
      · rintro ⟨-, hc', -⟩
        cases hc'
  · refine .unchanged (by simp [KStep.occurrences, Event.client, ha.symm]) fun ph hph => ?_
    refine hph.frame ?_ (fun _ _ => Iff.rfl) (fun _ => rfl) (fun _ => rfl) ?_
    · rintro ⟨hup', -, -⟩
      exact ha (Option.some.inj (hup'.symm.trans hup))
    · rintro ⟨-, hc', -⟩
      cases hc'

/-- A write to the page of the process that runs is to nobody else's message: a client that
has sent is another process, and has a page of its own. -/
theorem write_stepsExchange (h : Inv s n Q) (hpages : PagesDistinct s) {u : ProcRef}
    (hup : s.up = some u) (hc : s.control = .user) (page : ProcPage) (a : ProcRef) :
    StepsExchange a ⟨s, .write page, [], s.modifyPage (s.procs u).page fun _ => page⟩ := by
  have hu := State.OutsideKsend.of_user hup hc
  refine .unchanged rfl fun ph hph => ?_
  refine hph.frame (hu.not_returning a) (fun _ _ => Iff.rfl) (fun _ => rfl) ?_ ?_
  · intro hsend
    have hne : (s.procs a).page ≠ (s.procs u).page := by
      intro heq
      obtain rfl := hpages a u (by rw [show (s.procs a).state = .send from hsend]; simp)
        (by simp [h.running u hup]) heq
      simp [h.running a hup] at hsend
    show (Function.update s.pages (s.procs u).page _ (s.procs a).page).mOut = _
    rw [Function.update_of_ne hne]
    rfl
  · exact hu.not_returning a

/-- The new process was dead, so it was in no phase but idle; and its page is fresh, so it is
not the one that another client's message is in. -/
theorem create_stepsExchange {u : ProcRef} {page spacePage : Word} {mem : Mem}
    {alive : Option ProcRef} {nexts : ProcRef → Option ProcRef} (hup : s.up = some u)
    (hc : s.control = .user) (hdead : (s.procs s.nextpid).state = .dead)
    (hfresh : ∀ p, (s.procs p).state ≠ .dead → (s.procs p).page ∉ [page, spacePage])
    (a : ProcRef) :
    StepsExchange a ⟨s, .syscall (.procCreate page spacePage),
      [.returned u (BitVec.ofNat 32 s.nextpid.val)],
      { ({ s with mem := mem } : State).spawn spacePage page alive nexts with
        control := .user }⟩ := by
  have hu := State.OutsideKsend.of_user hup hc
  refine .unchanged (by simp [KStep.occurrences, Event.client]) fun ph hph => ?_
  rcases eq_or_ne a s.nextpid with rfl | ha
  · refine hph.frame (hu.not_returning _) ?_ ?_ ?_ ?_
    · intro st hst
      rw [hdead]
      rcases hst with rfl | rfl <;> simp [State.spawn, freshProc]
    · intro hst
      simp [hdead] at hst
    · intro hst
      simp [hdead] at hst
    · rintro ⟨-, hc', -⟩
      cases hc'
  · refine hph.frame (hu.not_returning a) ?_ ?_ ?_ ?_
    · intro st _
      simp [State.spawn, ha]
    · intro _
      simp [State.spawn, ha]
    · intro hsend
      have hne : (s.procs a).page ≠ page := fun heq =>
        hfresh a (by
          rw [show (s.procs a).state = .send from hsend]
          simp) (heq ▸ List.mem_cons_self ..)
      simp [State.spawn, State.pageOf, ha, Function.update_of_ne hne]
    · rintro ⟨-, hc', -⟩
      cases hc'

/-- A tick takes the CPU from a process that is not in a system call and gives it to a ready
one, neither of which is a client that waits. -/
theorem preempt_stepsExchange (h : Inv s n Q) {r : Option ProcRef} (hc : s.control ≠ .resume)
    (hr : ∀ q, r = some q → s.up = some q ∨ (s.procs q).state = .ready) (a : ProcRef) :
    StepsExchange a ⟨s, .tick, [.scheduled none], s.switchFrom .trap r⟩ := by
  refine .unchanged (by simp [KStep.occurrences, Event.client]) fun ph hph => ?_
  refine hph.switchFrom (fun hret => hc hret.2.1) (fun _ _ => Iff.rfl) (fun _ => rfl) rfl ?_
  intro heq
  rcases eq_or_ne s.up (some a) with hup | hup
  · simp [h.running a hup, hup]
  · have hst := (hr a heq).resolve_left hup
    rw [if_neg hup]
    exact ⟨by simp [hst], by simp [hst], h.label_ne_ksend hup (.inl hst)⟩

/-- So does a receiver that parks, and its own message is not under way. -/
theorem park_stepsExchange (h : Inv s n Q) {act : Action} {u : ProcRef} {pid : Word}
    {caller : RecvCaller} {r : Option ProcRef} (hu : s.OutsideKsend u)
    (hr : ∀ q, r = some q → q ≠ u ∧ (s.procs q).state = .ready) (a : ProcRef) :
    StepsExchange a ⟨s, act, [.scheduled none],
      (s.receiving u).switchFrom (.krecv pid caller) r⟩ := by
  refine .unchanged (by simp [KStep.occurrences, Event.client]) fun ph hph => ?_
  refine hph.switchFrom (hu.not_returning a) ?_ ?_ ?_ ?_
  · intro st hst
    rw [State.receiving_state]
    split_ifs with hau
    · subst hau
      rw [h.running a hu.1]
      rcases hst with rfl | rfl <;> simp
    · rfl
  · intro _
    exact State.receiving_field Proc.waitingOn (fun _ => rfl) s u a
  · rw [receiving_pageOf]
  · intro heq
    obtain ⟨hau, hst⟩ := hr a heq
    have hup : s.up ≠ some a := fun heq' => hau (Option.some.inj (heq'.symm.trans hu.1))
    rw [if_neg (show (s.receiving u).up ≠ some a from hup),
      State.receiving_field Proc.label fun _ => rfl]
    exact ⟨by simp [hst], by simp [hst], h.label_ne_ksend hup (.inl hst)⟩

/-- **Every step of the kernel is a step of each client's exchange**, or none.  `hpages` and
`hfresh` keep the messages of one client out of the reach of the others. -/
theorem Move.stepsExchange {act : Action} {evs : List Event} (hmove : Move s act evs s')
    (h : Inv s n Q) (hpages : PagesDistinct s) (hfresh : FreshPages ⟨s, act, evs, s'⟩)
    (a : ProcRef) : StepsExchange a ⟨s, act, evs, s'⟩ := by
  cases hmove with
  | quiet hu hs' hcreates hevs => exact hs'.stepsExchange hu hevs a
  | write page hup hc => exact write_stepsExchange h hpages hup hc page a
  | create hup hc hdead => exact create_stepsExchange hup hc hdead hfresh a
  | preempt hc hr => exact preempt_stepsExchange h hc hr a
  | send hup hc hpid hlive hr hhanded hwake => exact send_stepsExchange h hup hc hr a
  | receive hu hcreates hsend hon => exact receive_stepsExchange h hu hsend hon _ a
  | start hu hcreates hsend hon => exact start_stepsExchange h hpages hu hsend hon a
  | park hu hcreates hempty hr => exact park_stepsExchange h hu hr a
  | @reply u p pid ret hup hc hpid hawait =>
      refine reply_stepsExchange h hup hc hawait (deliverReply s u p ret) hup
        (fun _ _ => rfl) ?_ (fun _ => rfl) a
      rw [show ((deliverReply s u p ret).procs u).state = .oncpu from h.running u hup]
      simp
  | @replyRecv u p pid ret rpid hup hc hpid hawait =>
      refine reply_stepsExchange h hup hc hawait ((deliverReply s u p ret).receiving u) hup
        (fun q hq => State.modifyProc_procs_of_ne hq _) ?_ (receiving_pageOf _ u) a
      rw [State.receiving_state, if_pos rfl]
      simp
  | resumed hup hc hlabel => exact resumed_stepsExchange h hup hc hlabel a

/-- Only making a process gives one a page. -/
theorem Move.page_eq {act : Action} {evs : List Event} (hmove : Move s act evs s')
    (hcreates : act.creates = false) (p : ProcRef) :
    (s'.procs p).page = (s.procs p).page := by
  cases hmove with
  | quiet hu hs' => exact hs'.page_eq p
  | create => simp [Action.creates] at hcreates
  | write | receive | resumed => rfl
  | preempt => exact State.switchFrom_page ..
  | send | start | reply => exact State.switchFrom_page ..
  | park | replyRecv =>
      rw [State.switchFrom_page]
      exact State.receiving_field Proc.page (fun _ => rfl) ..

/-- Only making a process gives one a space. -/
theorem Move.space_eq {act : Action} {evs : List Event} (hmove : Move s act evs s')
    (hcreates : act.creates = false) (p : ProcRef) :
    (s'.procs p).space = (s.procs p).space := by
  have hswitch : ∀ (m : State) k r, ((m.switchFrom k r).procs p).space = (m.procs p).space := by
    intro m k r
    rw [State.switchFrom_eq]
  cases hmove with
  | quiet hu hs' =>
      have hspace := congrArg Proc.space (hs'.procs p)
      exact hspace
  | create => cases hcreates
  | write | receive | resumed => rfl
  | preempt | send | start | reply => exact hswitch ..
  | park | replyRecv =>
      rw [hswitch]
      exact State.receiving_field Proc.space (fun _ => rfl) ..

/-- Who has been made stays where its page and its space are. -/
theorem Move.keepsHome {act : Action} {evs : List Event} (hmove : Move s act evs s')
    (h : Inv s n Q) (h' : Inv s' (n + act.creates.toNat) Q') {p : ProcRef}
    (hp : (s.procs p).state ≠ .dead) :
    (s'.procs p).state ≠ .dead ∧ (s'.procs p).page = (s.procs p).page ∧
      (s'.procs p).space = (s.procs p).space := by
  have hlt := h.table.lt_of_ne_dead hp
  have hmade : (s'.procs p).state ≠ .dead := by
    rw [Ne, h'.table.dead_iff, not_le]
    omega
  cases hcreates : act.creates with
  | false => exact ⟨hmade, hmove.page_eq hcreates p, hmove.space_eq hcreates p⟩
  | true =>
      refine ⟨hmade, ?_⟩
      cases hmove with
      | quiet hu hs' hc | receive hu hc | start hu hc | park hu hc => simp [hcreates] at hc
      | write | preempt | send | reply | replyRecv | resumed => simp [Action.creates] at hcreates
      | create hup hc hdead =>
          have hne : p ≠ s.nextpid := by
            rintro rfl
            exact hp hdead
          simp [State.spawn, hne]

/-- Pages stay distinct as long as processes are made on fresh ones. -/
theorem Move.pagesDistinct {act : Action} {evs : List Event} (hmove : Move s act evs s')
    (h : Inv s n Q) (h' : Inv s' (n + act.creates.toNat) Q') (hpages : PagesDistinct s)
    (hfresh : FreshPages ⟨s, act, evs, s'⟩) : PagesDistinct s' := by
  have halive : ∀ p, (s'.procs p).state ≠ .dead ↔ p.val < n + act.creates.toNat := by
    intro p
    rw [Ne, h'.table.dead_iff, not_le]
  have halive₀ : ∀ p, (s.procs p).state ≠ .dead ↔ p.val < n := by
    intro p
    rw [Ne, h.table.dead_iff, not_le]
  cases hcreates : act.creates with
  | false =>
      intro p q hp hq heq
      rw [halive, hcreates] at hp hq
      rw [hmove.page_eq hcreates, hmove.page_eq hcreates] at heq
      exact hpages p q ((halive₀ p).mpr hp) ((halive₀ q).mpr hq) heq
  | true =>
      cases hmove with
      | quiet hu hs' hc | receive hu hc | start hu hc | park hu hc =>
          simp [hcreates] at hc
      | write | preempt | send | reply | replyRecv | resumed =>
          simp [Action.creates] at hcreates
      | @create u page spacePage mem alive nexts hup hc hdead =>
          -- the page of the new process is none of the old ones
          have hslot : n ≤ s.nextpid.val := (h.table.dead_iff _).mp hdead
          have hlt : ∀ p : ProcRef, p ≠ s.nextpid → p.val < n + 1 → p.val < n := by
            intro p hp hpn
            have hmod := h.table.nextpid
            have hcount := h'.table.count
            rw [hcreates, Bool.toNat_true] at hcount
            rw [Nat.mod_eq_of_lt (by omega)] at hmod
            have hne : p.val ≠ s.nextpid.val := fun heq => hp (Fin.ext heq)
            omega
          have hfresh' : ∀ p : ProcRef, p.val < n → page ≠ (s.procs p).page := fun p hp =>
            fun heq => hfresh p ((halive₀ p).mpr hp) (heq ▸ List.mem_cons_self ..)
          intro p q hp hq heq
          rw [halive, hcreates] at hp hq
          rcases eq_or_ne p s.nextpid with rfl | hpn
          · rcases eq_or_ne q s.nextpid with rfl | hqn
            · rfl
            · simp only [State.spawn, freshProc, if_true, if_neg hqn] at heq
              exact absurd heq (hfresh' q (hlt q hqn hq))
          · rcases eq_or_ne q s.nextpid with rfl | hqn
            · simp only [State.spawn, freshProc, if_true, if_neg hpn] at heq
              exact absurd heq.symm (hfresh' p (hlt p hpn hp))
            · simp only [State.spawn, if_neg hpn, if_neg hqn] at heq
              exact hpages p q ((halive₀ p).mpr (hlt p hpn hp))
                ((halive₀ q).mpr (hlt q hqn hq)) heq

/-! ## Runs -/

theorem history_snoc (a : ProcRef) (tr : List KStep) (t : KStep) :
    history a (tr ++ [t]) = history a tr ++ t.occurrences a := by
  simp [history]

theorem bootState_state (img : Image) (pages : Word → ProcPage) (mem : Mem)
    (alive : Option ProcRef) (nexts : ProcRef → Option ProcRef) (p : ProcRef) :
    ((bootState img pages mem alive nexts).procs p).state = if p = 0 then .oncpu else .dead := by
  rw [bootState, State.switchFrom_state]
  rcases eq_or_ne p 0 with rfl | hp
  · rfl
  · have hne : (some 0 : Option ProcRef) ≠ some p := fun heq => hp (Option.some.inj heq).symm
    rw [if_neg hne, if_neg hp, State.modifyProc_field Proc.state rfl]
    simp [State.spawn, reset, Proc.zero, hp]

theorem bootState_pagesDistinct (img : Image) (pages : Word → ProcPage) (mem : Mem)
    (alive : Option ProcRef) (nexts : ProcRef → Option ProcRef) :
    PagesDistinct (bootState img pages mem alive nexts) := by
  intro p q hp hq _
  rw [bootState_state] at hp hq
  split_ifs at hp hq with hp0 hq0
  · rw [hp0, hq0]
  all_goals simp at hp hq

theorem KernelRun.pagesDistinct {tr : List KStep} {s : State} (h : KernelRun tr s)
    (hn : created tr ≤ maxProcs) (hfresh : ∀ t ∈ tr, FreshPages t) : PagesDistinct s :=
  (KernelRun.invariant (P := fun _ s => PagesDistinct s) (C := FreshPages)
    bootState_pagesDistinct
    (fun _ _ _ _ _ _ _ hinv hinv' hpages hfr _ hmove =>
      hmove.pagesDistinct hinv hinv' hpages hfr) h hn hfresh).2

/-- **The kernel's runs are runs of the automaton**, for every client, and its state is the
one of the phase the client is in. -/
theorem KernelRun.exchange {tr : List KStep} {s : State} (h : KernelRun tr s)
    (hn : created tr ≤ maxProcs) (hfresh : ∀ t ∈ tr, FreshPages t) (a : ProcRef) :
    ∃ ph, Exchange a (history a tr) ph ∧ PhaseOk s a ph := by
  refine ((KernelRun.invariant (P := fun tr s => PagesDistinct s ∧
    ∀ a, ∃ ph, Exchange a (history a tr) ph ∧ PhaseOk s a ph) (C := FreshPages)
    ?_ ?_ h hn hfresh).2).2 a
  · intro img pages mem alive nexts
    refine ⟨bootState_pagesDistinct img pages mem alive nexts, fun a => ⟨.idle, .nil, ?_, ?_, ?_⟩⟩
    · rw [bootState_state]
      split_ifs <;> simp
    · rw [bootState_state]
      split_ifs <;> simp
    · rintro ⟨hup, -, hlabel⟩
      obtain rfl : (0 : ProcRef) = a := Option.some.inj hup
      cases hlabel
  · rintro tr s act evs s' Q Q' hinv hinv' ⟨hpages, hex⟩ hfr - hmove
    refine ⟨hmove.pagesDistinct hinv hinv' hpages hfr, fun a => ?_⟩
    obtain ⟨ph, hexa, hpha⟩ := hex a
    rw [history_snoc]
    exact hmove.stepsExchange hinv hpages hfr a _ ph hexa hpha

/-! ## What the automaton says -/

namespace Exchange

/-- What has happened first is an exchange, too. -/
theorem prefix_of_append {h₁ h₂ : List Occurrence} (h : Exchange a (h₁ ++ h₂) ph) :
    ∃ ph₁, Exchange a h₁ ph₁ := by
  induction h₂ using List.reverseRecOn generalizing ph with
  | nil =>
      rw [List.append_nil] at h
      exact ⟨ph, h⟩
  | append_singleton h₂ o ih =>
      rw [← List.append_assoc] at h
      generalize hh : h₁ ++ h₂ ++ [o] = h' at h
      cases h with
      | nil => simp at hh
      | sent h | received h | replied h | resumed h =>
          obtain ⟨rfl, -⟩ := List.append_inj' hh rfl
          exact ih h

theorem of_sent {h : List Occurrence} {b : ProcRef} {m : Message}
    (hx : Exchange a h (.sent b m)) :
    ∃ h₀ o, h = h₀ ++ [o] ∧ o.event = .sent a b ∧ (o.pre.pageOf a).mOut = m := by
  cases hx with
  | sent _ hev => exact ⟨_, _, rfl, hev, rfl⟩

theorem of_received {h : List Occurrence} {b : ProcRef} (hx : Exchange a h (.received b)) :
    ∃ h₀ o m, h = h₀ ++ [o] ∧ Exchange a h₀ (.sent b m) ∧ o.event = .received b a ∧
      (o.pre.pageOf a).mOut = m ∧ (o.post.pageOf b).mIn = m := by
  cases hx with
  | received h hev hout hin => exact ⟨_, _, _, rfl, h, hev, hout, hin⟩

theorem of_replied {h : List Occurrence} {b : ProcRef} {ret : Word} {m : Message}
    (hx : Exchange a h (.replied b ret m)) :
    ∃ h₀ o, h = h₀ ++ [o] ∧ Exchange a h₀ (.received b) ∧ o.event = .replied b a ret ∧
      (o.pre.pageOf b).mOut = m ∧ (o.post.pageOf a).mIn = m := by
  cases hx with
  | replied h hev hin => exact ⟨_, _, rfl, h, hev, rfl, hin⟩

/-- A return from `ksend` comes after a reply. -/
theorem of_resumed {h : List Occurrence} {o : Occurrence} {ret : Word}
    (hx : Exchange a (h ++ [o]) ph) (hev : o.event = .resumed a ret) :
    ∃ b m, Exchange a h (.replied b ret m) ∧ (o.post.pageOf a).mIn = m := by
  generalize hh : h ++ [o] = h' at hx
  cases hx with
  | nil => simp at hh
  | sent h hev' | received h hev' | replied h hev' =>
      obtain ⟨-, ho⟩ := List.append_inj' hh rfl
      obtain rfl := (List.cons.inj ho).1
      rw [hev] at hev'
      cases hev'
  | resumed h hev' hin =>
      obtain ⟨rfl, ho⟩ := List.append_inj' hh rfl
      obtain rfl := (List.cons.inj ho).1
      rw [hev] at hev'
      cases hev'
      exact ⟨_, _, h, hin⟩

/-- The last event tells who has the message of the client. -/
theorem last_received_iff {h : List Occurrence} (hx : Exchange a h ph) (b : ProcRef) :
    h.getLast?.map Occurrence.event = some (.received b a) ↔ ph = .received b := by
  cases hx with
  | nil => simp
  | sent _ hev | received _ hev | replied _ hev | resumed _ hev => simp [hev]

theorem last_sent {h : List Occurrence} (hx : Exchange a h ph) {b : ProcRef}
    (hlast : h.getLast?.map Occurrence.event = some (.sent a b)) :
    ∃ m, ph = .sent b m := by
  cases hx with
  | nil => simp at hlast
  | sent _ hev | received _ hev | replied _ hev | resumed _ hev => simp_all

end Exchange

/-- The last event of a history. -/
def lastEvent (h : List Occurrence) : Option Event :=
  h.getLast?.map Occurrence.event

/-- `a`'s events `h` up to a return with `ret` at `o` end in one send, one receive by the
process sent to, and one reply of that process with `ret`; the messages are handed over from
`m_out` to `m_in`. -/
def Answered (a : ProcRef) (h : List Occurrence) (o : Occurrence) (ret : Word) : Prop :=
  ∃ b h₀ sent recv rep, h = h₀ ++ [sent, recv, rep] ∧
    sent.event = .sent a b ∧ recv.event = .received b a ∧ rep.event = .replied b a ret ∧
    (recv.pre.pageOf a).mOut = (sent.pre.pageOf a).mOut ∧
    (recv.post.pageOf b).mIn = (recv.pre.pageOf a).mOut ∧
    (rep.post.pageOf a).mIn = (rep.pre.pageOf b).mOut ∧
    (o.post.pageOf a).mIn = (rep.pre.pageOf b).mOut

theorem Exchange.answered {h : List Occurrence} {o : Occurrence} {ret : Word}
    (hx : Exchange a (h ++ [o]) ph) (hev : o.event = .resumed a ret) : Answered a h o ret := by
  obtain ⟨b, m, hreplied, hm⟩ := hx.of_resumed hev
  obtain ⟨h₁, rep, rfl, hreceived, hrep, hout, hin⟩ := hreplied.of_replied
  obtain ⟨h₂, recv, m', rfl, hsent, hrecv, hout', hin'⟩ := hreceived.of_received
  obtain ⟨h₃, sent, rfl, hsend, hout''⟩ := hsent.of_sent
  exact ⟨b, h₃, sent, recv, rep, by simp, hsend, hrecv, hrep, hout'.trans hout''.symm,
    hin'.trans hout'.symm, hin.trans hout.symm, hm.trans hout.symm⟩

/-- What a run that ends in `s` means for the client `a`: each of its returns has been
answered, and who may reply to it is who has its message. -/
structure Rendezvous (tr : List KStep) (s : State) (a : ProcRef) : Prop where
  /-- Whenever `a` returns from `ksend`, it has been answered. -/
  returns : ∀ h₁ o h₂ ret, history a tr = h₁ ++ o :: h₂ → o.event = .resumed a ret →
    Answered a h₁ o ret
  /-- Until its message is taken `a` stays blocked on the process it sent to. -/
  sending : ∀ b, lastEvent (history a tr) = some (.sent a b) →
    (s.procs a).state = .send ∧ (s.procs a).waitingOn = some b ∧ s.up ≠ some a
  /-- Then it stays blocked until that process replies. -/
  awaiting : ∀ b, lastEvent (history a tr) = some (.received b a) →
    (s.procs a).state = .reply ∧ (s.procs a).waitingOn = some b ∧ s.up ≠ some a
  /-- The first reply of the process that has the message goes through. -/
  firstReply : ∀ u (pid : Word), s.up = some u → s.control = .user → pid.toInt = a.val →
    lastEvent (history a tr) = some (.received u a) → ∀ ret,
      (∃ s' evs, step s (.syscall (.reply pid ret)) = .ok (s', .replied u a ret :: evs)) ∧
      ∀ rpid, ∃ s' evs,
        step s (.syscall (.replyRecv pid ret rpid)) = .ok (s', .replied u a ret :: evs)
  /-- Every other reply to `a` is refused, and changes nothing. -/
  otherReply : ∀ u (pid : Word), s.up = some u → s.control = .user → pid.toInt = a.val →
    lastEvent (history a tr) ≠ some (.received u a) → ∀ ret,
      step s (.syscall (.reply pid ret)) = .ok (s, [.returned u err]) ∧
      ∀ rpid, step s (.syscall (.replyRecv pid ret rpid)) = .ok (s, [.returned u err])
  /-- Who takes `a`'s message gets its pid, or is `proc_start` and replies at once. -/
  taken : ∀ t ∈ tr, ∀ u, .received u a ∈ t.events →
    .replied u a ok ∈ t.events ∨
      ∃ pid : Word, .returned u pid ∈ t.events ∧ pid.toInt = a.val

/-- The pid of a process that has been made finds it again. -/
theorem Table.pid_toInt (h : Table s n) {p : ProcRef} (hp : p.val < n) :
    (s.procs p).pid.toInt = p.val := by
  rw [h.pid p hp]
  have hlt : p.val < 512 := p.isLt
  rw [BitVec.toInt_eq_toNat_of_lt]
  · simp
    omega
  · simp
    omega

theorem Move.taken {act : Action} {evs : List Event} (hmove : Move s act evs s')
    (h : Inv s n Q) {u : ProcRef} (hmem : .received u a ∈ evs) :
    .replied u a ok ∈ evs ∨
      ∃ pid : Word, .returned u pid ∈ evs ∧ pid.toInt = a.val := by
  cases hmove with
  | quiet hu hs' hcreates hevs =>
      rcases hevs _ hmem with ⟨v, hv⟩ | ⟨pc, sp, hd⟩
      · cases hv
      · cases hd
  | @receive _ u' w lists waiting hu hcreates hsend hon =>
      obtain ⟨rfl, rfl⟩ : u = u' ∧ a = w := by simpa using hmem
      refine .inr ⟨(s.procs a).pid, by simp, ?_⟩
      exact h.table.pid_toInt (h.table.lt_of_ne_dead (by simp [hsend]))
  | @start _ u' w lists waiting pc sp hu hcreates hsend hon =>
      obtain ⟨rfl, rfl⟩ : u = u' ∧ a = w := by simpa using hmem
      exact .inl (by simp)
  | write | create | preempt | send | park | reply | replyRecv | resumed => simp at hmem

/-- A reply goes through exactly when the client awaits it. -/
theorem Inv.step_reply (h : Inv s n Q) {u : ProcRef} (hup : s.up = some u)
    (hc : s.control = .user) {pid : Word} (hpid : pid.toInt = a.val) (ret : Word) :
    (awaitsReply s u a →
      (∃ s' evs, step s (.syscall (.reply pid ret)) = .ok (s', .replied u a ret :: evs)) ∧
      ∀ rpid, ∃ s' evs,
        step s (.syscall (.replyRecv pid ret rpid)) = .ok (s', .replied u a ret :: evs)) ∧
    (¬ awaitsReply s u a →
      step s (.syscall (.reply pid ret)) = .ok (s, [.returned u err]) ∧
      ∀ rpid, step s (.syscall (.replyRecv pid ret rpid)) = .ok (s, [.returned u err])) := by
  have hsame : ({ s with control := .user } : State) = s := by rw [← hc]
  simp only [step, hc, hup, syscall, sysReply, sysReplyRecv, withProc_eq, deref_val hpid]
  constructor
  · intro hawait
    rw [(kreply_spec h hawait ret .sysReply).1]
    refine ⟨⟨_, _, rfl⟩, fun rpid => ?_⟩
    rw [(kreplyRecv_spec h hup hawait ret rpid).1]
    exact ⟨_, _, rfl⟩
  · intro hawait
    rw [kreply_refused hawait]
    refine ⟨?_, fun rpid => ?_⟩
    · show Except.ok (returnToUser u err (s, [])) = _
      rw [returnToUser, hsame]
      rfl
    · rw [kreplyRecv_refused hawait]
      show Except.ok (returnToUser u err (s, [])) = _
      rw [returnToUser, hsame]
      rfl

/-- **The rendezvous is exactly-once and cannot be forged**, in every run from boot that makes
at most `MAX_PROCS` processes, each on fresh pages.  With a shared page (`hfresh`) a process
could write the message or the reply of another; with one process too many (`hn`) a client
could be cleared while it waits. -/
theorem rendezvous_of_run {tr : List KStep} {s : State} (h : KernelRun tr s)
    (hn : created tr ≤ maxProcs) (hfresh : ∀ t ∈ tr, FreshPages t) (a : ProcRef) :
    Rendezvous tr s a := by
  obtain ⟨Q, hinv⟩ := h.inv hn
  obtain ⟨ph, hex, hph⟩ := h.exchange hn hfresh a
  -- having the client's message and being awaited by it are the same
  have hawait : ∀ u, awaitsReply s u a ↔ lastEvent (history a tr) = some (.received u a) := by
    intro u
    rw [lastEvent, hex.last_received_iff]
    constructor
    · intro hawait
      exact hph.of_reply hawait.1 hawait.2 hinv
    · rintro rfl
      exact hph
  refine
    { returns := ?_
      sending := ?_
      awaiting := ?_
      firstReply := ?_
      otherReply := ?_
      taken := ?_ }
  · intro h₁ o h₂ ret heq hev
    rw [heq, List.append_cons] at hex
    obtain ⟨ph₁, hex₁⟩ := hex.prefix_of_append
    exact hex₁.answered hev
  · intro b hlast
    obtain ⟨m, rfl⟩ := hex.last_sent hlast
    refine ⟨hph.1, hph.2.1, fun hup => ?_⟩
    have hrun := hinv.running a hup
    rw [hph.1] at hrun
    cases hrun
  · intro b hlast
    obtain ⟨hst, hon⟩ := (hawait b).mpr hlast
    refine ⟨hst, hon, fun hup => ?_⟩
    have hrun := hinv.running a hup
    rw [hst] at hrun
    cases hrun
  · intro u pid hup hc hpid hlast ret
    exact (hinv.step_reply hup hc hpid ret).1 ((hawait u).mpr hlast)
  · intro u pid hup hc hpid hlast ret
    exact (hinv.step_reply hup hc hpid ret).2 fun haw => hlast ((hawait u).mp haw)
  · intro t ht u hmem
    obtain ⟨-, hmove, ⟨n, Q, hinv'⟩, -⟩ := h.forall_step hn t ht
    exact hmove.taken hinv' hmem

/-- `proc0` sends to a new process and returns with its reply. -/
theorem rendezvous_of_first_send :
    ∃ tr s, exampleRun [.resume, .syscall (.procCreate 0x10000 0x11000), .syscall (.send 1),
        .resume, .resume] = .ok (tr, s) ∧
      lastEvent (history 0 tr) = some (.resumed 0 ok) ∧ Rendezvous tr s 0 := by
  obtain ⟨tr, s, hrun, hP⟩ := exists_exampleRun
    [.resume, .syscall (.procCreate 0x10000 0x11000), .syscall (.send 1), .resume, .resume]
    (fun tr _ => created tr ≤ maxProcs ∧ (∀ t ∈ tr, FreshPages t) ∧
      lastEvent (history 0 tr) = some (.resumed 0 ok)) (by decide +kernel)
  rw [decide_eq_true_eq] at hP
  exact ⟨tr, s, hrun, hP.2.2, rendezvous_of_run (.of_bootRun hrun) hP.1 hP.2.1 0⟩

end Omb
