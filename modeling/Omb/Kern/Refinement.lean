import Omb.Kern.Rendezvous
import Omb.Lib.SyncCall

/-!
# The kernel refines synchronous calls

What the message primitives are for, as a system of its own, is `SyncCall`: parties that send,
are received from, are replied to, and go on.  `State.call` reads off the kernel's state how
far the call of each process is, and `KStep.calls` what a step does to calls, with the
contents of the pages: what is sent and replied is read where it is put, and what is received
and returned with where it arrives.

Preemption, waiting lists, labels and the idle loop are gone there.  `Move.refines` shows that
a step of the kernel is some steps of that system, or none, and `synchronous_of_run` that a
run is a run.  Most steps are one or none; `proc_start` takes a message and replies to it
without coming to user code in between, which is two.

The proof goes through the exchanges of the clients: each step takes the exchange of one
client on, or of none (`Move.stepsExchange`), the phase of a client tells how far its call is
(`PhaseOk.call_eq`), and the calls of all others stay as they are.

## Main results

* `synchronous_of_run`: the kernel's runs are runs of `SyncCall`
* `transport_of_run`: in which no message and no reply is lost, repeated or altered
-/

namespace Omb

/-! ## The abstraction -/

abbrev CallStatus := SyncCall.Status ProcRef Message Word

abbrev CallConfig := SyncCall.Config ProcRef Message Word

abbrev CallLabel := SyncCall.Label ProcRef Message Word

instance (s : State) (a : ProcRef) : Decidable (s.Returning a) :=
  inferInstanceAs (Decidable (_ ∧ _))

/-- How far the call of `a` is, with the message or the reply in it as it stands in the pages.
-/
def State.call (s : State) (a : ProcRef) : CallStatus :=
  match (s.procs a).state, (s.procs a).waitingOn with
  | .dead, _ => .absent
  | .send, some b => .sending b (s.pageOf a).mOut
  | .reply, some b => .awaiting b
  | _, _ => if s.Returning a then .answered (s.pageOf a).mRet (s.pageOf a).mIn else .free

/-- What an event of the step does to calls. -/
def KStep.callOf (t : KStep) : Event → Option CallLabel
  | .sent a b => some (.send a b (t.pre.pageOf a).mOut)
  | .received b a => some (.receive b a (t.post.pageOf b).mIn)
  | .replied b a ret => some (.reply b a ret (t.pre.pageOf b).mOut)
  | .resumed a ret => some (.resume a ret (t.post.pageOf a).mIn)
  | _ => none

/-- What the step does to calls.  Events of other kinds, such as switches, are none. -/
def KStep.calls (t : KStep) : List CallLabel :=
  (if t.act.creates then [.join t.pre.nextpid] else []) ++ t.events.filterMap t.callOf

/-- What the run does to calls. -/
def calls (tr : List KStep) : List CallLabel :=
  tr.flatMap KStep.calls

/-- The call in a phase of the exchange. -/
def Phase.status : Phase → CallStatus
  | .idle => .free
  | .sent b m => .sending b m
  | .received b => .awaiting b
  | .replied _ ret m => .answered ret m

variable {s s' : State} {n n' : ℕ} {Q Q' : ProcRef → List ProcRef} {a : ProcRef} {ph ph' : Phase}

theorem State.call_of_dead (h : (s.procs a).state = .dead) : s.call a = .absent := by
  rw [State.call, h]

theorem State.call_ne_absent (h : (s.procs a).state ≠ .dead) : s.call a ≠ .absent := by
  unfold State.call
  split
  · exact absurd ‹_› h
  · simp
  · simp
  · split_ifs <;> simp

theorem State.call_of_not_blocked (hdead : (s.procs a).state ≠ .dead)
    (hsend : (s.procs a).state ≠ .send) (hreply : (s.procs a).state ≠ .reply) :
    s.call a =
      if s.Returning a then .answered (s.pageOf a).mRet (s.pageOf a).mIn else .free := by
  unfold State.call
  split
  · exact absurd ‹_› hdead
  · exact absurd ‹_› hsend
  · exact absurd ‹_› hreply
  · rfl

/-- The phase of the client tells how far its call is. -/
theorem PhaseOk.call_eq (hph : PhaseOk s a ph) (h : Inv s n Q)
    (hlive : (s.procs a).state ≠ .dead) : s.call a = ph.status := by
  cases ph with
  | idle =>
      obtain ⟨hsend, hreply, hret⟩ := hph
      rw [State.call_of_not_blocked hlive hsend hreply, if_neg hret]
      rfl
  | sent b m =>
      obtain ⟨hst, hon, hm⟩ := hph
      rw [State.call, hst, hon]
      exact congrArg _ hm
  | received b =>
      obtain ⟨hst, hon⟩ := hph
      rw [State.call, hst, hon]
      rfl
  | replied b ret m =>
      obtain ⟨hret, hr, hm⟩ := hph
      have hrun := h.running a hret.1
      rw [State.call_of_not_blocked hlive (by simp [hrun]) (by simp [hrun]), if_pos hret, hr, hm]
      rfl

/-- Who runs outside `ksend` is not in a call. -/
theorem State.OutsideKsend.call_eq {u : ProcRef} (hu : s.OutsideKsend u) (h : Inv s n Q) :
    s.call u = .free := by
  have hrun := h.running u hu.1
  rw [State.call_of_not_blocked (by simp [hrun]) (by simp [hrun]) (by simp [hrun]),
    if_neg (hu.not_returning u)]

/-! ## The exchange, one event at a time -/

/-- The exchange of `a` goes from one phase to the next by the occurrence. -/
inductive PhaseStep (a : ProcRef) (o : Occurrence) : Phase → Phase → Prop
  | sent {b : ProcRef} : o.event = .sent a b →
      PhaseStep a o .idle (.sent b (o.pre.pageOf a).mOut)
  | received {b : ProcRef} {m : Message} : o.event = .received b a →
      (o.post.pageOf b).mIn = m → PhaseStep a o (.sent b m) (.received b)
  | replied {b : ProcRef} {ret : Word} : o.event = .replied b a ret →
      PhaseStep a o (.received b) (.replied b ret (o.pre.pageOf b).mOut)
  | resumed {b : ProcRef} {ret : Word} {m : Message} : o.event = .resumed a ret →
      (o.post.pageOf a).mIn = m → PhaseStep a o (.replied b ret m) .idle

namespace Exchange

theorem of_snoc {h : List Occurrence} {o : Occurrence} (hx : Exchange a (h ++ [o]) ph') :
    ∃ ph, Exchange a h ph ∧ PhaseStep a o ph ph' := by
  generalize hh : h ++ [o] = h' at hx
  cases hx with
  | nil => simp at hh
  | sent hx hev =>
      obtain ⟨rfl, ho⟩ := List.append_inj' hh rfl
      obtain rfl := List.head_eq_of_cons_eq ho
      exact ⟨_, hx, .sent hev⟩
  | received hx hev hout hin =>
      obtain ⟨rfl, ho⟩ := List.append_inj' hh rfl
      obtain rfl := List.head_eq_of_cons_eq ho
      exact ⟨_, hx, .received hev hin⟩
  | replied hx hev hin =>
      obtain ⟨rfl, ho⟩ := List.append_inj' hh rfl
      obtain rfl := List.head_eq_of_cons_eq ho
      exact ⟨_, hx, .replied hev⟩
  | resumed hx hev hin =>
      obtain ⟨rfl, ho⟩ := List.append_inj' hh rfl
      obtain rfl := List.head_eq_of_cons_eq ho
      exact ⟨_, hx, .resumed hev hin⟩

/-- The events determine the phase. -/
theorem unique {h : List Occurrence} (hx : Exchange a h ph) (hx' : Exchange a h ph') :
    ph = ph' := by
  induction h using List.reverseRecOn generalizing ph ph' with
  | nil =>
      have hidle : ∀ {ph : Phase}, Exchange a [] ph → ph = .idle := by
        intro ph hx
        generalize hh : ([] : List Occurrence) = h at hx
        cases hx with
        | nil => rfl
        | sent | received | replied | resumed => simp at hh
      rw [hidle hx, hidle hx']
  | append_singleton h o ih =>
      obtain ⟨ph₁, hx₁, hs₁⟩ := hx.of_snoc
      obtain ⟨ph₂, hx₂, hs₂⟩ := hx'.of_snoc
      obtain rfl := ih hx₁ hx₂
      cases hs₁ <;> cases hs₂ <;> simp_all

end Exchange

/-! ## One step -/

/-- What is known of every process before a step: its exchange is where the state says.  It
comes from `KernelRun.exchange` in a run. -/
def Exchanging (s : State) : Prop :=
  ∀ a, ∃ h ph, Exchange a h ph ∧ PhaseOk s a ph

variable {t : KStep}

/-- The call of a process the step says nothing about stays as it is. -/
theorem call_of_silent (h : Inv t.pre n Q) (h' : Inv t.post n' Q') (hex : Exchanging t.pre)
    (hstep : StepsExchange a t) (hocc : t.occurrences a = [])
    (hdead : (t.post.procs a).state = .dead ↔ (t.pre.procs a).state = .dead) :
    t.post.call a = t.pre.call a := by
  by_cases hd : (t.pre.procs a).state = .dead
  · rw [State.call_of_dead hd, State.call_of_dead (hdead.mpr hd)]
  · obtain ⟨hist, ph, hx, hph⟩ := hex a
    obtain ⟨ph', hx', hph'⟩ := hstep hist ph hx hph
    rw [hocc, List.append_nil] at hx'
    obtain rfl := hx.unique hx'
    rw [hph.call_eq h hd, hph'.call_eq h' (mt hdead.mp hd)]

/-- The call of the process the step is about goes on. -/
theorem call_of_occurrence (h : Inv t.pre n Q) (h' : Inv t.post n' Q') (hex : Exchanging t.pre)
    (hstep : StepsExchange a t) {o : Occurrence} (hocc : t.occurrences a = [o])
    (hdead : (t.post.procs a).state = .dead ↔ (t.pre.procs a).state = .dead)
    (hlive : (t.pre.procs a).state ≠ .dead) :
    ∃ ph ph', PhaseStep a o ph ph' ∧ t.pre.call a = ph.status ∧ t.post.call a = ph'.status := by
  obtain ⟨hist, ph, hx, hph⟩ := hex a
  obtain ⟨ph', hx', hph'⟩ := hstep hist ph hx hph
  rw [hocc] at hx'
  obtain ⟨ph₁, hx₁, hs⟩ := hx'.of_snoc
  obtain rfl := hx.unique hx₁
  exact ⟨ph, ph', hs, hph.call_eq h hlive, hph'.call_eq h' (mt hdead.mp hlive)⟩

theorem KStep.callOf_of_no_client {e : Event} (he : e.client = none) : t.callOf e = none := by
  cases e <;> first | rfl | cases he

/-- A step whose events concern no client changes no call. -/
theorem refines_of_silent (h : Inv t.pre n Q) (h' : Inv t.post n Q') (hex : Exchanging t.pre)
    (hstep : ∀ a, StepsExchange a t) (hcreates : t.act.creates = false)
    (hevs : ∀ e ∈ t.events, e.client = none) : SyncCall.Runs t.pre.call t.calls t.post.call := by
  have hcalls : t.calls = [] := by
    have hnone : t.events.filterMap t.callOf = [] :=
      List.filterMap_eq_nil_iff.mpr fun e he => KStep.callOf_of_no_client (hevs e he)
    rw [KStep.calls, hcreates, hnone]
    rfl
  have heq : t.post.call = t.pre.call := by
    funext a
    refine call_of_silent h h' hex (hstep a) ?_ (by rw [h.table.dead_iff, h'.table.dead_iff])
    rw [KStep.occurrences, List.filter_eq_nil_iff.mpr fun e he => by simp [hevs e he]]
    rfl
  rw [hcalls, heq]
  exact .nil

/-- A step about one client changes the call of that client. -/
theorem call_update (h : Inv t.pre n Q) (h' : Inv t.post n Q') (hex : Exchanging t.pre)
    (hstep : ∀ a, StepsExchange a t) (hocc : ∀ b, b ≠ a → t.occurrences b = []) {st : CallStatus}
    (hst : t.post.call a = st) : t.post.call = Function.update t.pre.call a st := by
  funext b
  rcases eq_or_ne b a with rfl | hb
  · rw [Function.update_self, hst]
  · rw [Function.update_of_ne hb]
    exact call_of_silent h h' hex (hstep b) (hocc b hb)
      (by rw [h.table.dead_iff, h'.table.dead_iff])

namespace PhaseStep

variable {o : Occurrence} {b : ProcRef} {ret : Word}

theorem of_sent (hs : PhaseStep a o ph ph') (hev : o.event = .sent a b) :
    ph = .idle ∧ ph' = .sent b (o.pre.pageOf a).mOut := by
  cases hs <;> simp_all

theorem of_received (hs : PhaseStep a o ph ph') (hev : o.event = .received b a) :
    ph = .sent b (o.post.pageOf b).mIn ∧ ph' = .received b := by
  cases hs <;> simp_all

theorem of_replied (hs : PhaseStep a o ph ph') (hev : o.event = .replied b a ret) :
    ph = .received b ∧ ph' = .replied b ret (o.pre.pageOf b).mOut := by
  cases hs <;> simp_all

theorem of_resumed (hs : PhaseStep a o ph ph') (hev : o.event = .resumed a ret) :
    (∃ b, ph = .replied b ret (o.post.pageOf a).mIn) ∧ ph' = .idle := by
  cases hs <;> simp_all

end PhaseStep

/-- A step with one event about a client takes the call of that client on. -/
theorem refines_of_occurrence (h : Inv t.pre n Q) (h' : Inv t.post n Q') (hex : Exchanging t.pre)
    (hstep : ∀ a, StepsExchange a t) (hcreates : t.act.creates = false) {e : Event} {l : CallLabel}
    (hevs : t.events.filter (fun e => e.client ≠ none) = [e]) (ha : e.client = some a)
    (hlive : (t.pre.procs a).state ≠ .dead) (hl : t.callOf e = some l)
    (hcall : ∀ ph ph', PhaseStep a ⟨t.pre, e, t.post⟩ ph ph' → t.pre.call a = ph.status →
      SyncCall.Step t.pre.call l (Function.update t.pre.call a ph'.status)) :
    SyncCall.Runs t.pre.call t.calls t.post.call := by
  -- the events about a client are `e` or none
  have hfilter : ∀ b, t.events.filter (fun e => e.client = some b) =
      [e].filter fun e => e.client = some b := by
    intro b
    rw [← hevs, List.filter_filter]
    refine List.filter_congr fun e' _ => ?_
    cases e'.client <;> simp
  have hocc : t.occurrences a = [⟨t.pre, e, t.post⟩] :=
    KStep.occurrences_one ((hfilter a).trans (by simp [ha]))
  have hothers : ∀ b, b ≠ a → t.occurrences b = [] := by
    intro b hb
    rw [KStep.occurrences, hfilter b]
    simp [ha, hb.symm]
  have hcalls : t.calls = [l] := by
    have hone : t.events.filterMap t.callOf = [e].filterMap t.callOf := by
      rw [← hevs, List.filterMap_filter]
      refine List.filterMap_congr fun e' _ => ?_
      split_ifs with hc
      · rfl
      · exact KStep.callOf_of_no_client (by simpa using hc)
    rw [KStep.calls, hcreates, hone]
    simp [hl]
  have hdead : (t.post.procs a).state = .dead ↔ (t.pre.procs a).state = .dead := by
    rw [h.table.dead_iff, h'.table.dead_iff]
  obtain ⟨ph, ph', hs, hpre, hpost⟩ :=
    call_of_occurrence h h' hex (hstep a) hocc hdead hlive
  rw [hcalls, call_update h h' hex hstep hothers hpost]
  exact .single (hcall ph ph' hs hpre)

/-- `proc_start` takes a message and replies to it in one step, which is two steps of the
call.  The reply is what is in the page of the process that starts. -/
theorem start_refines (h : Inv s n Q) (h' : Inv s' n Q') (hpages : PagesDistinct s)
    (hex : Exchanging s) {u w : ProcRef} {act : Action} {lists : ListRef → ProcList}
    {waiting : ProcRef → Option ListRef} {pc sp : Word} (hu : s.OutsideKsend u)
    (hcreates : act.creates = false) (hsend : (s.procs w).state = .send)
    (hon : (s.procs w).waitingOn = some u)
    (hs' : s' = (deliverReply (s.takeMessage u w lists waiting) u w ok).switchFrom
      (.kreply (.procStart pc sp)) (some w)) :
    SyncCall.Runs s.call
      (KStep.calls ⟨s, act, [.received u w, .replied u w ok, .scheduled (some (w, .reply))], s'⟩)
      s'.call := by
  let t : KStep := ⟨s, act, [.received u w, .replied u w ok, .scheduled (some (w, .reply))], s'⟩
  have hstep : ∀ a, StepsExchange a t := by
    intro a
    subst hs'
    exact start_stepsExchange h hpages hu hsend hon a
  have hwu : w ≠ u := by
    rintro rfl
    simp [h.running w hu.1] at hsend
  have hlive : (s.procs w).state ≠ .dead := by simp [hsend]
  have hdead : (s'.procs w).state = .dead ↔ (s.procs w).state = .dead := by
    rw [h.table.dead_iff, h'.table.dead_iff]
  -- the two events about `w`, one after the other
  obtain ⟨hist, ph, hx, hph⟩ := hex w
  obtain ⟨ph', hx', hph'⟩ := hstep w hist ph hx hph
  have hocc : t.occurrences w = [⟨s, .received u w, s'⟩, ⟨s, .replied u w ok, s'⟩] := by
    simp [t, KStep.occurrences, Event.client]
  rw [hocc, List.append_cons] at hx'
  obtain ⟨ph₁, hx₁, hreplied⟩ := hx'.of_snoc
  obtain ⟨ph₀, hx₀, hreceived⟩ := hx₁.of_snoc
  obtain rfl := hx.unique hx₀
  obtain ⟨hsent, rfl⟩ := hreceived.of_received rfl
  obtain ⟨-, rfl⟩ := hreplied.of_replied rfl
  have hpre : s.call w = .sending u (s'.pageOf u).mIn :=
    (hph.call_eq h hlive).trans (congrArg Phase.status hsent)
  have hfree : s.call u = .free := hu.call_eq h
  have hothers : ∀ b, b ≠ w → t.occurrences b = [] := by
    intro b hb
    simp [t, KStep.occurrences, Event.client, hb.symm]
  have hcalls : t.calls =
      [.receive u w (s'.pageOf u).mIn, .reply u w ok (s.pageOf u).mOut] := by
    simp [t, KStep.calls, KStep.callOf, hcreates]
  have hpost := call_update (t := t) h h' hex hstep hothers (hph'.call_eq h' (mt hdead.mp hlive))
  rw [show t.post.call = s'.call from rfl] at hpost
  rw [hpost, show KStep.calls _ = _ from hcalls]
  have hreceive := SyncCall.Step.receive hfree hpre
  have hreply := SyncCall.Step.reply (r := ok) (m := (s.pageOf u).mOut)
    (c := Function.update s.call w (.awaiting u)) (b := u) (a := w)
    (by rw [Function.update_of_ne hwu.symm, hfree]) (Function.update_self ..)
  rw [Function.update_idem] at hreply
  exact (SyncCall.Runs.single hreceive).snoc hreply

/-- Making a process lets it join. -/
theorem create_refines (h : Inv s n Q) (h' : Inv s' n' Q') (hex : Exchanging s)
    {page spacePage : Word} {mem : Mem} {alive : Option ProcRef}
    {nexts : ProcRef → Option ProcRef} {evs : List Event}
    (hstep : ∀ a, StepsExchange a ⟨s, .syscall (.procCreate page spacePage), evs, s'⟩)
    (hevs : ∀ e ∈ evs, e.client = none)
    (hdead : (s.procs s.nextpid).state = .dead)
    (hs' : s' = { ({ s with mem := mem } : State).spawn spacePage page alive nexts with
      control := .user }) :
    SyncCall.Runs s.call (KStep.calls ⟨s, .syscall (.procCreate page spacePage), evs, s'⟩)
      s'.call := by
  have hcalls : KStep.calls ⟨s, .syscall (.procCreate page spacePage), evs, s'⟩ =
      [.join s.nextpid] := by
    rw [KStep.calls, List.filterMap_eq_nil_iff.mpr fun e he =>
      KStep.callOf_of_no_client (hevs e he)]
    rfl
  have hnew : s'.call s.nextpid = .free := by
    have hst : (s'.procs s.nextpid).state = .ready := by
      rw [hs']
      simp [State.spawn, freshProc]
    rw [State.call_of_not_blocked (by simp [hst]) (by simp [hst]) (by simp [hst]), if_neg]
    rintro ⟨-, hc, -⟩
    rw [hs'] at hc
    cases hc
  have hpost : s'.call = Function.update s.call s.nextpid .free := by
    funext a
    rcases eq_or_ne a s.nextpid with rfl | ha
    · rw [Function.update_self, hnew]
    · rw [Function.update_of_ne ha]
      refine call_of_silent (t := ⟨s, .syscall (.procCreate page spacePage), evs, s'⟩) h h' hex
        (hstep a) ?_ ?_
      · rw [KStep.occurrences, List.filter_eq_nil_iff.mpr fun e he => by simp [hevs e he]]
        rfl
      · rw [hs']
        simp [State.spawn, ha]
  rw [hcalls, hpost]
  exact .single (.join (State.call_of_dead hdead))

/-- **A step of the kernel is some steps of the calls, or none.**  The configurations are
those of the states before and after. -/
theorem Move.refines {act : Action} {evs : List Event} (hmove : Move s act evs s')
    (h : Inv s n Q) (h' : Inv s' (n + act.creates.toNat) Q') (hpages : PagesDistinct s)
    (hfresh : FreshPages ⟨s, act, evs, s'⟩) (hex : Exchanging s) :
    SyncCall.Runs s.call (KStep.calls ⟨s, act, evs, s'⟩) s'.call := by
  have hstep := fun a => hmove.stepsExchange h hpages hfresh a
  cases hmove with
  | quiet hu hs' hcreates hevs =>
      rw [hcreates] at h'
      refine refines_of_silent (t := ⟨s, act, evs, s'⟩) h h' hex hstep hcreates fun e he => ?_
      rcases hevs e he with ⟨v, rfl⟩ | ⟨pc, sp, rfl⟩ <;> rfl
  | write page hup hc =>
      exact refines_of_silent (t := ⟨s, _, _, _⟩) h h' hex hstep rfl (by simp)
  | create hup hc hdead =>
      exact create_refines h h' hex hstep (by simp [Event.client]) hdead rfl
  | preempt hc hr =>
      exact refines_of_silent (t := ⟨s, _, _, _⟩) h h' hex hstep rfl (by simp [Event.client])
  | @send u p pid lists waiting r handed hup hc hpid hlive hr hhanded hwake =>
      refine refines_of_occurrence (t := ⟨s, _, _, _⟩) (a := u) (e := .sent u p) h h' hex hstep
        rfl (by simp [Event.client]) rfl (by simp [h.running u hup]) rfl fun ph ph' hs hpre => ?_
      obtain ⟨rfl, rfl⟩ := hs.of_sent rfl
      exact .send hpre (State.call_ne_absent hlive)
  | @receive _ u w lists waiting hu hcreates hsend hon =>
      rw [hcreates] at h'
      refine refines_of_occurrence (t := ⟨s, act, _, _⟩) (a := w) (e := .received u w) h h' hex
        hstep hcreates (by simp [Event.client]) rfl (by simp [hsend]) rfl fun ph ph' hs hpre => ?_
      obtain ⟨rfl, rfl⟩ := hs.of_received rfl
      exact .receive (hu.call_eq h) hpre
  | @start _ u w lists waiting pc sp hu hcreates hsend hon =>
      rw [hcreates] at h'
      exact start_refines h h' hpages hex hu hcreates hsend hon rfl
  | park hu hcreates hempty hr =>
      rw [hcreates] at h'
      exact refines_of_silent (t := ⟨s, act, _, _⟩) h h' hex hstep hcreates (by simp [Event.client])
  | @reply u p pid ret hup hc hpid hawait =>
      refine refines_of_occurrence (t := ⟨s, _, _, _⟩) (a := p) (e := .replied u p ret) h h' hex
        hstep rfl (by simp [Event.client]) rfl (by simp [hawait.1]) rfl fun ph ph' hs hpre => ?_
      obtain ⟨rfl, rfl⟩ := hs.of_replied rfl
      exact .reply ((State.OutsideKsend.of_user hup hc).call_eq h) hpre
  | @replyRecv u p pid ret rpid hup hc hpid hawait =>
      refine refines_of_occurrence (t := ⟨s, _, _, _⟩) (a := p) (e := .replied u p ret) h h' hex
        hstep rfl (by simp [Event.client]) rfl (by simp [hawait.1]) rfl fun ph ph' hs hpre => ?_
      obtain ⟨rfl, rfl⟩ := hs.of_replied rfl
      exact .reply ((State.OutsideKsend.of_user hup hc).call_eq h) hpre
  | @resumed u hup hc hlabel =>
      refine refines_of_occurrence (t := ⟨s, _, _, _⟩) (a := u)
        (e := .resumed u (s.pageOf u).mRet) h h' hex hstep rfl (by simp [Event.client]) rfl
        (by simp [h.running u hup]) rfl fun ph ph' hs hpre => ?_
      obtain ⟨⟨b, rfl⟩, rfl⟩ := hs.of_resumed rfl
      exact .resume hpre

/-! ## Runs -/

/-- At boot `proc0` is the only party, and not in a call. -/
def bootCalls : CallConfig :=
  Function.update (fun _ => .absent) 0 .free

theorem bootState_call (img : Image) (pages : Word → ProcPage) (mem : Mem)
    (alive : Option ProcRef) (nexts : ProcRef → Option ProcRef) :
    (bootState img pages mem alive nexts).call = bootCalls := by
  funext a
  have hst := bootState_state img pages mem alive nexts a
  rcases eq_or_ne a 0 with rfl | ha
  · rw [if_pos rfl] at hst
    rw [State.call_of_not_blocked (by simp [hst]) (by simp [hst]) (by simp [hst]), if_neg]
    · rfl
    · rintro ⟨-, -, hlabel⟩
      cases hlabel
  · rw [if_neg ha] at hst
    rw [State.call_of_dead hst, bootCalls, Function.update_of_ne ha]

theorem calls_snoc (tr : List KStep) (t : KStep) : calls (tr ++ [t]) = calls tr ++ t.calls := by
  simp [calls]

/-- Every step of a run is some steps of the calls, or none. -/
theorem KernelRun.step_refines {tr : List KStep} {s : State} (h : KernelRun tr s)
    (hn : created tr ≤ maxProcs) (hfresh : ∀ t ∈ tr, FreshPages t) :
    ∀ t ∈ tr, SyncCall.Runs t.pre.call t.calls t.post.call := by
  obtain ⟨img, pages, mem, s₀, evs₀, hk, hrun⟩ := h
  refine hrun.forall_transition fun tr' s act s' evs hrun' hprefix hs => ?_
  obtain ⟨rest, rfl⟩ := hprefix
  have hn' : created tr' + act.creates.toNat ≤ maxProcs := by
    rw [← created_snoc tr' ⟨s, act, evs, s'⟩]
    refine le_trans ?_ hn
    simp only [created, List.countP_append]
    omega
  have hfresh' : ∀ t ∈ tr', FreshPages t := fun t ht => hfresh t (by simp [ht])
  have hkrun : KernelRun tr' s := ⟨img, pages, mem, s₀, evs₀, hk, hrun'⟩
  obtain ⟨Q, hinv⟩ := hkrun.inv (by omega)
  obtain ⟨hmove, Q', hinv'⟩ := step_move hinv (fun hcreates => by
    simp only [hcreates, Bool.toNat_true] at hn'
    omega) hs
  exact hmove.refines hinv hinv' (hkrun.pagesDistinct (by omega) hfresh') (hfresh _ (by simp))
    fun a => ⟨history a tr', hkrun.exchange (by omega) hfresh' a⟩

/-- A run from boot is a run of the calls. -/
theorem KernelRun.refines {tr : List KStep} {s : State} (h : KernelRun tr s)
    (hn : created tr ≤ maxProcs) (hfresh : ∀ t ∈ tr, FreshPages t) :
    SyncCall.Runs bootCalls (calls tr) s.call := by
  have hsteps := h.step_refines hn hfresh
  obtain ⟨img, pages, mem, s₀, evs₀, hk, hrun⟩ := h
  refine Machine.Run.invariant (P := fun tr s => SyncCall.Runs bootCalls (calls tr) s.call)
    (C := fun t : KStep => SyncCall.Runs t.pre.call t.calls t.post.call) ?_ ?_ hrun hsteps
  · obtain ⟨alive, nexts, hkmain, -⟩ := kmain_spec img pages mem
    rw [hkmain] at hk
    cases hk
    rw [bootState_call]
    exact .nil
  · intro tr s act s' evs _ ih hstep _
    rw [calls_snoc]
    exact ih.trans hstep

/-- **The kernel's runs are runs of synchronous calls**, step by step and as a whole, in every
run from boot that makes at most `MAX_PROCS` processes, each on fresh pages.  `hfresh` is what
makes the messages those that were sent; it is asked of the run here, and follows from the
program of `proc0` in `Omb.Am335x.System`. -/
theorem synchronous_of_run {tr : List KStep} {s : State} (h : KernelRun tr s)
    (hn : created tr ≤ maxProcs) (hfresh : ∀ t ∈ tr, FreshPages t) :
    (∀ t ∈ tr, SyncCall.Runs t.pre.call t.calls t.post.call) ∧
      SyncCall.Runs bootCalls (calls tr) s.call :=
  ⟨h.step_refines hn hfresh, h.refines hn hfresh⟩

/-- A process sends to another, which takes the message in `proc_start` and replies. -/
theorem synchronous_of_first_send :
    ∃ tr s, exampleRun [.resume, .syscall (.procCreate 0x10000 0x11000), .syscall (.send 1),
        .resume, .resume] = .ok (tr, s) ∧ (calls tr).length = 5 ∧
      (∀ t ∈ tr, SyncCall.Runs t.pre.call t.calls t.post.call) ∧
      SyncCall.Runs bootCalls (calls tr) s.call := by
  obtain ⟨tr, s, hrun, hP⟩ := exists_exampleRun
    [.resume, .syscall (.procCreate 0x10000 0x11000), .syscall (.send 1), .resume, .resume]
    (fun tr _ => created tr ≤ maxProcs ∧ (∀ t ∈ tr, FreshPages t) ∧ (calls tr).length = 5)
    (by decide +kernel)
  rw [decide_eq_true_eq] at hP
  exact ⟨tr, s, hrun, hP.2.2, synchronous_of_run (.of_bootRun hrun) hP.1 hP.2.1⟩

/-! ## What arrives -/

/-- What a run does to the messages and replies, in the order they were sent in, between any
two processes.  What is still under way is told by the states of the processes. -/
structure Transport (tr : List KStep) (s : State) : Prop where
  /-- What `b` has received from `a` is what `a` has sent to it, but for the message of
  a call that is still in the queue. -/
  messages : ∀ a b, (calls tr).flatMap (SyncCall.Label.sentBy a b) =
    (calls tr).flatMap (SyncCall.Label.receivedFrom a b) ++
      if (s.procs a).state = .send ∧ (s.procs a).waitingOn = some b then [(s.pageOf a).mOut]
      else []
  /-- Those who have replied to `a` are those who have received from it, but for the one
  that has yet to. -/
  takers : ∀ a, (calls tr).flatMap (SyncCall.Label.takes a) =
    (calls tr).flatMap (SyncCall.Label.answers a) ++
      if (s.procs a).state = .reply then (s.procs a).waitingOn.toList else []
  /-- What `a` has returned with is what has been replied to it, but for the reply it is
  just about to return with. -/
  replies : ∀ a, (calls tr).flatMap (SyncCall.Label.repliedTo a) =
    (calls tr).flatMap (SyncCall.Label.resumedBy a) ++
      if s.Returning a then [((s.pageOf a).mRet, (s.pageOf a).mIn)] else []

theorem bootCalls_idle (a : ProcRef) :
    (∀ b, (bootCalls a).message b = []) ∧ (bootCalls a).taker = [] ∧ (bootCalls a).reply = [] := by
  rcases eq_or_ne a 0 with rfl | ha
  · exact ⟨fun _ => rfl, rfl, rfl⟩
  · rw [bootCalls, Function.update_of_ne ha]
    exact ⟨fun _ => rfl, rfl, rfl⟩

/-- What the call of `a` holds, in the kernel's terms. -/
theorem Inv.call_holds (h : Inv s n Q) (a : ProcRef) :
    (∀ b, (s.call a).message b =
      if (s.procs a).state = .send ∧ (s.procs a).waitingOn = some b then [(s.pageOf a).mOut]
      else []) ∧
    (s.call a).taker =
      (if (s.procs a).state = .reply then (s.procs a).waitingOn.toList else []) ∧
    (s.call a).reply =
      if s.Returning a then [((s.pageOf a).mRet, (s.pageOf a).mIn)] else [] := by
  have hrunning : s.Returning a → (s.procs a).state = .oncpu := fun hret => h.running a hret.1
  by_cases hret : s.Returning a
  · have hst := hrunning hret
    rw [State.call_of_not_blocked (by simp [hst]) (by simp [hst]) (by simp [hst]), if_pos hret]
    simp [SyncCall.Status.message, SyncCall.Status.taker, SyncCall.Status.reply, hst, hret]
  · unfold State.call
    split
    · simp_all [SyncCall.Status.message, SyncCall.Status.taker, SyncCall.Status.reply]
    · simp_all [SyncCall.Status.message, SyncCall.Status.taker, SyncCall.Status.reply]
    · simp_all [SyncCall.Status.message, SyncCall.Status.taker, SyncCall.Status.reply]
    · rename_i hdead hsend hreply
      simp only [if_neg hret, SyncCall.Status.message, SyncCall.Status.taker,
        SyncCall.Status.reply]
      refine ⟨fun b => (if_neg fun hb => hsend b hb.1 hb.2).symm, ?_, trivial⟩
      split_ifs with hst
      · rw [Option.eq_none_iff_forall_ne_some.mpr fun b hb => hreply b hst hb]
        rfl
      · rfl

/-- **No message and no reply is lost, repeated, reordered or altered**, whichever processes
send to each other and however they are preempted.  The conservation laws of `SyncCall` say so
of its runs, and the kernel's runs are among them.  `hfresh` is needed: a message is kept in
the page of its sender, and in a page that two processes had one would overwrite that of the
other. -/
theorem transport_of_run {tr : List KStep} {s : State} (h : KernelRun tr s)
    (hn : created tr ≤ maxProcs) (hfresh : ∀ t ∈ tr, FreshPages t) : Transport tr s := by
  obtain ⟨Q, hinv⟩ := h.inv hn
  have hruns := h.refines hn hfresh
  refine { messages := fun a b => ?_, takers := fun a => ?_, replies := fun a => ?_ }
  · rw [← (hinv.call_holds a).1 b, ← hruns.messages a b, (bootCalls_idle a).1 b, List.nil_append]
  · rw [← (hinv.call_holds a).2.1, ← hruns.takers a, (bootCalls_idle a).2.1, List.nil_append]
  · rw [← (hinv.call_holds a).2.2, ← hruns.replies a, (bootCalls_idle a).2.2, List.nil_append]

/-- A process sends to another twice; the second message is still in the queue. -/
theorem transport_of_two_sends :
    ∃ tr s, exampleRun [.resume, .syscall (.procCreate 0x10000 0x11000), .syscall (.send 1),
        .resume, .resume, .syscall (.send 1)] = .ok (tr, s) ∧
      ((calls tr).flatMap (SyncCall.Label.sentBy 0 1)).length = 2 ∧
      ((calls tr).flatMap (SyncCall.Label.receivedFrom 0 1)).length = 1 ∧ Transport tr s := by
  obtain ⟨tr, s, hrun, hP⟩ := exists_exampleRun
    [.resume, .syscall (.procCreate 0x10000 0x11000), .syscall (.send 1), .resume, .resume,
      .syscall (.send 1)]
    (fun tr _ => created tr ≤ maxProcs ∧ (∀ t ∈ tr, FreshPages t) ∧
      ((calls tr).flatMap (SyncCall.Label.sentBy 0 1)).length = 2 ∧
      ((calls tr).flatMap (SyncCall.Label.receivedFrom 0 1)).length = 1) (by decide +kernel)
  rw [decide_eq_true_eq] at hP
  exact ⟨tr, s, hrun, hP.2.2.1, hP.2.2.2, transport_of_run (.of_bootRun hrun) hP.1 hP.2.1⟩

end Omb
