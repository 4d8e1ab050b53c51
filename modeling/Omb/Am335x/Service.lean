import Omb.Am335x.System
import Omb.Kern.NoTransfer

/-!
# What proc0 does for its clients

proc0 has one client at a time.  `recv` gives it the pid of the client, `handle_addr_request`
and `reply_recv` are given that pid again, and in between nothing is received.  That this
works out depends on the kernel too: the message must still be in `m_in` when proc0 comes to
look at it, and the client must still be waiting when proc0 replies.

`Serving` is the invariant that ties the place of proc0's program to what the kernel has saved
of it, and to the call it has in hand.  It has one parameter, the answers that are allowed for
a message: with `Answers` for it the result is that requests are served in turn, and with
`ERR` only that all of them are refused.

A step of the system is one of three kinds for it: one that proc0 does not notice, as other
processes run; one in which a call returns to it; and a system call of its own.  The middle
ones are told apart by the place proc0 is in (`Serving.received`, `Serving.replied`,
`Serving.accepted`).

Both results are of runs in which only proc0 makes processes (`ByProc0Only`) and of an image
with the pages it needs (`Provided`).  From these comes what the kernel's results need, that
there are no more than `MAX_PROCS` processes and that their pages are fresh.

## Main results

* `serves_in_turn`: each request is answered once, before the next one is received
* `every_request_refused`: and with `ERR`, where accepts take pages into covered addresses
-/

namespace Omb

/-- The places in which proc0 is in its own code.  In the others it has called the kernel. -/
def ServerPlace.InOwnCode : ServerPlace → Prop
  | .start | .gotPage | .gotKernel | .starting _ | .created .. | .handling _ | .replying .. => True
  | _ => False

/-- The place fits the code that the kernel goes on with: a wait for a message is one in
`recv` or `reply_recv`, and so on. -/
def ServerPlace.GoesOnAt (place : ServerPlace) : Option Label → Prop
  | none | some .trap | some .proc0Start => place.InOwnCode
  | some .ksend => ∃ i, place = .sendingInit i
  | some (.krecv _ .sysRecv) | some (.kreplyRecv _) => place = .receiving
  | _ => False

/-- The client whose request is being answered, by the pid that the program has. -/
def ServerPlace.client : ServerPlace → Option Word
  | .handling pid | .accepting pid | .replying pid _ => some pid
  | _ => none

abbrev Request := ProcRef × Message

/-- The kernel and proc0 agree: on where proc0 is, on the request it has in hand, and on what
has been done with it.  `ls` are the calls it has served, and `A` are the answers allowed for
a message. -/
structure Serving (A : Message → Word → Prop) (ls : List CallLabel) (s : State) (x : Server)
    (o : Option Request) : Prop where
  code : x.place.GoesOnAt (s.codeOf 0)
  turn : SyncCall.InTurn (fun _ => A) 0 ls o
  client : x.place.client = o.map fun c => BitVec.ofNat 32 c.1.val
  message : ∀ pid, x.place = .handling pid → o.map Prod.snd = some (s.pageOf 0).mIn
  answer : ∀ pid r, x.place = .replying pid r → ∀ c ∈ o, A c.2 r

variable {A : Message → Word → Prop} {ls : List CallLabel} {s s' : State} {x x' : Server}
  {o : Option Request} {n : ℕ} {Q : ProcRef → List ProcRef} {t : KStep} {ts : List ServerStep}
  {code : Option Label}

/-! ## Steps that proc0 does not notice -/

/-- Nothing has returned to proc0. -/
theorem Serving.unheard (h : Serving A ls t.pre x o) (hseen : Seen 0 t code none [])
    (hhears : x.Hears t.events x' ts) (hcode : x.place.GoesOnAt code)
    (hpage : ∀ pid, x.place = .handling pid → (t.post.pageOf 0).mIn = (t.pre.pageOf 0).mIn) :
    Serving A (ls ++ t.servedBy 0) t.post x' o := by
  cases hhears with
  | returned hret => cases hseen.returned.symm.trans hret
  | nothing =>
      rw [hseen.served, List.append_nil]
      refine ⟨hseen.code ▸ hcode, h.turn, h.client, fun pid hp => ?_, h.answer⟩
      rw [h.message pid hp, hpage pid hp]

/-! ## Calls that return -/

/-- The call is one for proc0 itself, so that its return is about no client. -/
def ServerPlace.AsksForItself : ServerPlace → Prop
  | .gettingPage | .gettingKernel | .creating .. | .sendingInit _ => True
  | _ => False

theorem Serving.returned (hturn : SyncCall.InTurn (fun _ => A) 0 ls none)
    (hseen : ReturnsTo 0 t) (hhears : x.Hears t.events x' ts) (hplace : x.place.AsksForItself) :
    Serving A (ls ++ t.servedBy 0) t.post x' none := by
  obtain ⟨r, hcode, hret, hserved⟩ := hseen
  cases hhears with
  | nothing hnone => cases hnone.symm.trans hret
  | returned _ hafter =>
      rw [hserved, List.append_nil]
      revert hafter hplace
      cases x.place <;> rintro ⟨⟩ ⟨⟩ <;>
        exact ⟨hcode ▸ trivial, hturn, rfl, fun _ hp => (by cases hp), fun _ _ hp => (by cases hp)⟩

/-- proc0 receives the next request, or waits for it. -/
theorem Serving.received (hturn : SyncCall.InTurn (fun _ => A) 0 ls none) (h : Inv t.pre n Q)
    (hseen : ReceivesFor 0 t) (hhears : x.Hears t.events x' ts) (hplace : x.place = .receiving) :
    ∃ o, Serving A (ls ++ t.servedBy 0) t.post x' o := by
  cases hseen with
  | nobody pid hseen =>
      cases hhears with
      | returned hret => cases hseen.returned.symm.trans hret
      | nothing =>
          rw [hseen.served, List.append_nil]
          refine ⟨none, ?_, hturn, by rw [hplace]; rfl, ?_, ?_⟩
          · rw [hseen.code, hplace]
            rfl
          · rw [hplace]
            rintro _ ⟨⟩
          · rw [hplace]
            rintro _ _ ⟨⟩
  | client w hsend hseen =>
      cases hhears with
      | nothing hnone => cases hnone.symm.trans hseen.returned
      | @returned r place hret hafter =>
          have hlive : (t.pre.procs w).state ≠ .dead := by
            rw [hsend]
            exact ProcState.noConfusion
          have hr : r = BitVec.ofNat 32 w.val := by
            rw [← h.table.pid w (h.table.lt_of_ne_dead hlive)]
            exact Option.some.inj (hret.symm.trans hseen.returned)
          rw [hplace] at hafter
          cases hafter
          rw [hseen.served]
          refine ⟨some (w, (t.post.pageOf 0).mIn), ?_, hturn.receive w _, ?_, fun _ _ => rfl, ?_⟩
          · rw [hseen.code]
            trivial
          · exact congrArg some hr
          · rintro _ _ ⟨⟩

/-- proc0 has replied. -/
theorem Serving.replied {a : ProcRef} {m m' : Message} {r : Word} {pid : Word}
    (hturn : SyncCall.InTurn (fun _ => A) 0 ls (some (a, m))) (hA : A m r)
    (hseen : Seen 0 t (some (.kreplyRecv pid)) none [.reply 0 a r m'])
    (hhears : x.Hears t.events x' ts) (hplace : x.place = .receiving) :
    Serving A (ls ++ t.servedBy 0) t.post x' none := by
  cases hhears with
  | returned hret => cases hseen.returned.symm.trans hret
  | nothing =>
      rw [hseen.served]
      refine ⟨?_, hturn.reply m' hA, by rw [hplace]; rfl, ?_, ?_⟩
      · rw [hseen.code, hplace]
        rfl
      · rw [hplace]
        rintro _ ⟨⟩
      · rw [hplace]
        rintro _ _ ⟨⟩

/-- The kernel has moved the range to the client, or refused to. -/
theorem Serving.accepted (hturn : SyncCall.InTurn (fun _ => A) 0 ls o) {pid : Word}
    (hclient : o.map (fun c => BitVec.ofNat 32 c.1.val) = some pid) (hseen : ReturnsTo 0 t)
    (hA : ∀ r, returnedTo 0 t.events = some r → ∀ c ∈ o, A c.2 r)
    (hhears : x.Hears t.events x' ts) (hplace : x.place = .accepting pid) :
    Serving A (ls ++ t.servedBy 0) t.post x' o := by
  obtain ⟨r, hcode, hret, hserved⟩ := hseen
  cases hhears with
  | nothing hnone => cases hnone.symm.trans hret
  | @returned r' place hret' hafter =>
      rw [hplace] at hafter
      cases hafter
      rw [hserved, List.append_nil]
      refine ⟨hcode ▸ trivial, hturn, hclient.symm, ?_, ?_⟩
      · rintro _ ⟨⟩
      · rintro _ _ ⟨⟩
        exact hA r' hret'

/-! ## One step -/

theorem Inv.state_of_own_code (h : Inv s n Q) (hup : s.up ≠ some 0) {place : ServerPlace}
    (hcode : place.GoesOnAt (s.codeOf 0)) (hplace : place.InOwnCode) :
    (s.procs 0).state = .ready := by
  have hparked := h.parked 0 hup
  rw [codeOf_of_up_ne hup] at hcode
  revert hcode hparked
  cases (s.procs 0).label with
  | trap | proc0Start =>
      intro _ hparked
      revert hparked
      cases (s.procs 0).state <;> rintro ⟨⟩
      rfl
  | ksend =>
      rintro ⟨i, rfl⟩ -
      cases hplace
  | kreplyRecv =>
      rintro rfl -
      cases hplace
  | krecv pid caller =>
      cases caller with
      | sysRecv =>
          rintro rfl -
          cases hplace
      | procStart => rintro ⟨⟩
  | unset | procStart | kreply => rintro ⟨⟩

/-- proc0 goes on from its label. -/
theorem Serving.resumed {kevs : List Event} (h : Serving A ls s x o) (hinv : Inv s n Q)
    (hup : s.up = some 0) (hc : s.control = .resume)
    (hs : resume s 0 (s.procs 0).label = .ok (s', kevs)) (hhears : x.Hears kevs x' ts) :
    ∃ o, Serving A (ls ++ KStep.servedBy 0 ⟨s, .resume, kevs, s'⟩) s' x' o := by
  have hseen := hinv.resumes hup .resume hs
  have hcode := h.code
  have hclient := h.client
  rw [codeOf_of_control_ne (by rw [hc]; exact Control.noConfusion)] at hcode
  have hnone : x.place.client = none → o = none := by
    intro hp
    rw [hp] at hclient
    exact Option.map_eq_none_iff.mp hclient.symm
  revert hseen hcode
  cases (s.procs 0).label with
  | trap | proc0Start =>
      rintro ⟨hseen, hpage⟩ hcode
      exact ⟨o, h.unheard (t := ⟨s, .resume, kevs, s'⟩) hseen hhears hcode
        fun _ _ => congrArg ProcPage.mIn hpage⟩
  | ksend =>
      rintro hseen ⟨i, hp⟩
      obtain rfl := hnone (by rw [hp]; rfl)
      exact ⟨none, .returned (t := ⟨s, .resume, kevs, s'⟩) h.turn hseen hhears
        (by rw [hp]; trivial)⟩
  | kreplyRecv pid =>
      intro hseen hp
      obtain rfl := hnone (by rw [hp]; rfl)
      exact Serving.received (t := ⟨s, .resume, kevs, s'⟩) h.turn hinv hseen hhears hp
  | krecv pid caller =>
      cases caller with
      | sysRecv =>
          intro hseen hp
          obtain rfl := hnone (by rw [hp]; rfl)
          exact Serving.received (t := ⟨s, .resume, kevs, s'⟩) h.turn hinv hseen hhears hp
      | procStart => rintro - ⟨⟩
  | unset | procStart | kreply => rintro - ⟨⟩

/-- **A step that is not one of proc0's program** keeps the two in step.  Its page is written
by nobody else while it looks at a request. -/
theorem Serving.other {a : Action} {kevs : List Event} (h : Serving A ls s x o)
    (hinv : Inv s n Q) (hpages : PagesDistinct s) (hlive : (s.procs 0).state ≠ .dead)
    (hfresh : FreshPages ⟨s, a, kevs, s'⟩) (hmove : Move s a kevs s')
    (hother : ¬ a.ByProc0 s) (hs : step s a = .ok (s', kevs)) (hhears : x.Hears kevs x' ts) :
    ∃ o, Serving A (ls ++ KStep.servedBy 0 ⟨s, a, kevs, s'⟩) s' x' o := by
  by_cases hup : s.up = some 0
  · cases a with
    | syscall | write => exact absurd hup hother
    | tick =>
        have hidle := hinv.control
        cases hc : s.control with
        | user =>
            simp only [step, hc, hup] at hs
            obtain ⟨hseen, hpage⟩ := tick_seen hup .tick hs
            have hcode := h.code
            rw [codeOf_of_user hup hc] at hcode
            exact ⟨o, h.unheard (t := ⟨s, .tick, kevs, s'⟩) hseen hhears hcode
              fun _ _ => congrArg ProcPage.mIn hpage⟩
        | resume => simp [step, hc] at hs
        | idle => simp [step, hc, hup] at hs
    | resume =>
        cases hc : s.control with
        | resume =>
            simp only [step, hc, hup] at hs
            exact h.resumed hinv hup hc hs hhears
        | user | idle => simp [step, hc] at hs
  · have hseen := hmove.elsewhere hlive hup
    refine ⟨o, h.unheard (t := ⟨s, a, kevs, s'⟩) hseen hhears h.code fun pid hp => ?_⟩
    have hready := hinv.state_of_own_code hup h.code (by rw [hp]; trivial)
    exact congrArg ProcPage.mIn (hmove.pageOf_kept hinv hpages hfresh hready hup)

/-! ## A step of proc0 -/

theorem awaitsReply_of_call {a b : ProcRef} (h : s.call a = .awaiting b) : awaitsReply s b a := by
  rw [State.call] at h
  split at h
  · cases h
  · cases h
  · rename_i b' hstate hon
    cases h
    exact ⟨hstate, hon⟩
  · split_ifs at h

/-- What is found for a request is as long as the request, in pages, and not empty. -/
theorem handleAddrRequest_len {st st' : Sections} {addr len : Word} {a : Accept}
    (h : handleAddrRequest st addr len = (some a, st')) :
    a.len = pageAlign len ∧ a.len ≠ 0 := by
  rw [handleAddrRequest] at h
  dsimp only at h
  split_ifs at h <;> cases h <;> exact ⟨rfl, ‹_›⟩

/-- What an `addr_accept` may return, given that the range was found for a request of that
length. -/
def Permits (A : Message → Word → Prop) (t : KStep) : Prop :=
  ∀ pid start len flags r, t.act = .syscall (.addrAccept pid start len flags) → len ≠ 0 →
    returnedTo 0 t.events = some r → ∀ m : Message, m.byte 0 = Uart.messageAddr →
      pageAlign (m.field 2) = len → A m r

/-- **A system call of proc0** keeps the two in step.  `herr` is for the requests that it
refuses on its own. -/
theorem Serving.call {regions : List Region} {procs : List Word} {c : ServerCall} {x₁ : Server}
    {kevs : List Event} (herr : ∀ m, A m err) (h : Serving A ls s x o)
    (hawait : ∀ a, o.map Prod.fst = some a → awaitsReply s 0 a) (hup : s.up = some 0)
    (hc : s.control = .user) (hmove : ServerMove regions procs x (s.pageOf 0) x₁ c)
    {k : State} (hk : k = s.modifyPage (s.procs 0).page fun _ => c.page) (hinv : Inv k n Q)
    (hn : (Action.syscall c.call).creates → n < maxProcs)
    (hs : syscall k 0 c.call = .ok (s', kevs)) (hhears : x₁.Hears kevs x' ts)
    (hA : Permits A ⟨k, .syscall c.call, kevs, s'⟩) :
    ∃ o, Serving A (ls ++ KStep.servedBy 0 ⟨k, .syscall c.call, kevs, s'⟩) s' x' o := by
  have hupk : k.up = some 0 := by rw [hk]; exact hup
  have hck : k.control = .user := by rw [hk]; exact hc
  have hawaitk : ∀ a, o.map Prod.fst = some a → awaitsReply k 0 a := by
    rw [hk]
    exact hawait
  have hclient := h.client
  have hnone : x.place.client = none → o = none := by
    intro hp
    rw [hp] at hclient
    exact Option.map_eq_none_iff.mp hclient.symm
  have hreply : ∀ {pid r : Word} {page : ProcPage} {st : Sections},
      x₁ = ⟨.receiving, st⟩ → c = ⟨page, .replyRecv pid r pidAll, []⟩ →
      x.place.client = some pid → (∀ c ∈ o, A c.2 r) →
      ∃ o, Serving A (ls ++ KStep.servedBy 0 ⟨k, .syscall c.call, kevs, s'⟩) s' x' o := by
    rintro pid r page st rfl rfl hp hr
    rw [hp] at hclient
    obtain ⟨⟨a, m⟩, rfl, hpid⟩ := Option.map_eq_some_iff.mp hclient.symm
    have hpid' : pid.toInt = a.val := by rw [← hpid, toInt_ofNat]
    have hseen := hinv.sysReplyRecv_seen hupk hpid' (hawaitk a rfl)
      (.syscall (.replyRecv pid r pidAll)) hs
    exact ⟨none, .replied (t := ⟨k, _, kevs, s'⟩) h.turn (hr _ rfl) hseen hhears rfl⟩
  cases hmove with
  | asksPage hp | asksKernelPage hp =>
      obtain rfl := hnone (by rw [hp]; rfl)
      refine ⟨none, .returned (t := ⟨k, _, kevs, s'⟩) h.turn ?_ hhears trivial⟩
      exact hinv.syscall_returns hupk hck hn (by simp) hs
  | sendsInit hp =>
      obtain rfl := hnone (by rw [hp]; rfl)
      rcases hinv.sysSend_seen hupk (.syscall (.send _)) hs with hseen | hseen
      · exact ⟨none, .returned (t := ⟨k, _, kevs, s'⟩) h.turn ⟨err, hseen⟩ hhears trivial⟩
      · cases hhears with
        | returned hret => cases hseen.returned.symm.trans hret
        | nothing =>
            rw [hseen.served, List.append_nil]
            refine ⟨none, ?_, h.turn, rfl, ?_, ?_⟩
            · rw [hseen.code]
              exact ⟨_, rfl⟩
            · rintro _ ⟨⟩
            · rintro _ _ ⟨⟩
  | answers hp =>
      exact hreply rfl rfl (by rw [hp]; rfl) (h.answer _ _ hp)
  | @turns i st page' hturn =>
      obtain rfl : o = none := hnone (by cases hturn with | first hp | next hp => rw [hp]; rfl)
      rcases lt_or_ge i procs.length with hi | hi
      · rw [Server.turn_of_lt hi] at hn hs hhears ⊢
        refine ⟨none, .returned (t := ⟨k, _, kevs, s'⟩) h.turn ?_ hhears trivial⟩
        exact hinv.syscall_returns hupk hck hn (by simp) hs
      · rw [Server.turn_of_le hi] at hs hhears ⊢
        refine Serving.received (t := ⟨k, _, kevs, s'⟩) h.turn hinv ?_ hhears rfl
        exact hinv.recvToUser_seen hupk _ hs
  | @handles pid hp =>
      rcases Server.handle_cases x.st (s.pageOf 0) pid with
        ⟨st', heq⟩ | ⟨a, st', htype, hfound, heq⟩
      · exact hreply (congrArg Prod.fst heq) (congrArg Prod.snd heq) (by rw [hp]; rfl)
          fun c _ => herr c.2
      · rw [heq] at hn hs hhears hA ⊢
        obtain ⟨hlen, hne⟩ := handleAddrRequest_len hfound
        have hmessage := h.message pid hp
        rw [hp] at hclient
        refine ⟨o, .accepted (t := ⟨k, _, kevs, s'⟩) h.turn hclient.symm ?_ ?_ hhears rfl⟩
        · exact hinv.syscall_returns hupk hck hn (by simp) hs
        · intro r hret c hco
          have hm : c.2 = (s.pageOf 0).mIn := by
            rw [hco] at hmessage
            exact Option.some.inj hmessage
          rw [hm]
          exact hA _ _ _ _ r rfl hne hret _ htype hlen.symm

/-! ## Runs -/

/-- The calls that proc0 has served. -/
def servedCalls (tr : List KStep) : List CallLabel :=
  (calls tr).filter fun l => l.server = some 0

theorem servedCalls_snoc (tr : List KStep) (t : KStep) :
    servedCalls (tr ++ [t]) = servedCalls tr ++ t.servedBy 0 := by
  rw [servedCalls, calls_snoc, List.filter_append]
  rfl

theorem bootState_codeOf (img : Image) (pages : Word → ProcPage) (mem : Mem)
    (alive : Option ProcRef) (nexts : ProcRef → Option ProcRef) :
    (bootState img pages mem alive nexts).codeOf 0 = some .proc0Start := by
  rw [bootState, codeOf_switchFrom]
  simp [State.spawn, reset]

/-- Whom proc0 has in hand awaits its reply, and nobody else does.  It is read off the
synchronous calls that the run of the kernel refines to. -/
theorem KernelRun.awaits_iff {tr : List KStep} (h : KernelRun tr s) (hn : created tr ≤ maxProcs)
    (hfresh : ∀ t ∈ tr, FreshPages t)
    (hturn : SyncCall.InTurn (fun _ => A) 0 (servedCalls tr) o) (a : ProcRef) :
    s.call a = .awaiting 0 ↔ o.map Prod.fst = some a :=
  hturn.awaiting_iff (fun a => (bootCalls_idle a).2.1) (h.refines hn hfresh) a

/-- proc0 stays in the table. -/
theorem KernelRun.proc0_alive {tr : List KStep} (h : KernelRun tr s) (hn : created tr ≤ maxProcs) :
    (s.procs 0).state ≠ .dead := by
  obtain ⟨Q, hinv⟩ := h.inv hn
  rw [Ne, hinv.table.dead_iff, not_le]
  exact Nat.lt_of_lt_of_le Nat.one_pos (Nat.le_add_right 1 _)

variable {img : Image} {regions : List Region} {procs : List Word} {tr : List SystemStep}
  {y y' : System}

/-- **A step of the system** keeps the kernel and proc0 in step. -/
theorem SystemMove.serving {sa : SystemAction} {evs : List SystemEvent}
    (hmove : SystemMove regions procs y sa evs y') (herr : ∀ m, A m err) {trk : List KStep}
    (hrun : KernelRun trk y.kernel)
    (hn : created (trk ++ evs.filterMap SystemEvent.kernelStep) ≤ maxProcs)
    (hfresh : ∀ t ∈ trk ++ evs.filterMap SystemEvent.kernelStep, FreshPages t)
    (hA : ∀ t ∈ evs.filterMap SystemEvent.kernelStep, Permits A t)
    (h : Serving A (servedCalls trk) y.kernel y.server o) :
    ∃ o, Serving A (servedCalls (trk ++ evs.filterMap SystemEvent.kernelStep)) y'.kernel
      y'.server o := by
  cases hmove with
  | @other a kevs ts y' hother hstep hhears =>
      simp only [List.filterMap_cons, SystemEvent.kernelStep, kernelStep_map_proc0]
        at hn hfresh hA ⊢
      rw [created_snoc] at hn
      obtain ⟨Q, hinv⟩ := hrun.inv (by omega)
      obtain ⟨hm, -⟩ := step_move hinv (fun hcreates => by
        rw [hcreates, Bool.toNat_true] at hn
        omega) hstep
      rw [servedCalls_snoc]
      refine h.other hinv ?_ (hrun.proc0_alive (by omega)) ?_ hm hother hstep hhears
      · exact hrun.pagesDistinct (by omega) fun t ht => hfresh t (List.mem_append_left _ ht)
      · exact hfresh _ (List.mem_append_right _ (List.mem_singleton_self _))
  | @call x c k kevs ts y' hup hc hrun' hm hwrite hk hcall hhears =>
      simp only [List.filterMap_cons, SystemEvent.kernelStep, kernelStep_map_proc0]
        at hn hfresh hA ⊢
      have hsplit : ∀ w t : KStep, trk ++ [w, t] = trk ++ [w] ++ [t] := by simp
      rw [hsplit] at hn hfresh ⊢
      rw [created_snoc] at hn
      have hrunk : KernelRun (trk ++ [⟨y.kernel, .write c.page, [], k⟩]) k := hrun.snoc hwrite
      obtain ⟨Q, hinv⟩ := hrunk.inv (by omega)
      have hquiet : KStep.servedBy 0 ⟨y.kernel, .write c.page, [], k⟩ = [] := rfl
      rw [servedCalls_snoc, servedCalls_snoc, hquiet, List.append_nil]
      rw [created_snoc] at hn
      have hawait : ∀ a, o.map Prod.fst = some a → awaitsReply y.kernel 0 a := by
        intro a ha
        refine awaitsReply_of_call ((hrun.awaits_iff (by omega) (fun t ht => ?_) h.turn a).mpr ha)
        exact hfresh t (List.mem_append_left _ (List.mem_append_left _ ht))
      have hsys : syscall k 0 c.call = .ok (y'.kernel, kevs) := by
        have hupk : k.up = some 0 := by rw [hk]; exact hup
        have hck : k.control = .user := by rw [hk]; exact hc
        simpa only [step, hck, hupk] using hcall
      refine h.call herr hawait hup hc hm hk hinv (fun hcreates => ?_) hsys hhears ?_
      · rw [created_snoc]
        dsimp only at hn ⊢
        rw [hcreates, Bool.toNat_true] at hn
        omega
      · exact hA _ (by simp)

theorem SystemRun.serving (h : SystemRun img regions procs tr y) (herr : ∀ m, A m err)
    (hn : created (kernelSteps tr) ≤ maxProcs) (hfresh : ∀ t ∈ kernelSteps tr, FreshPages t)
    (hA : ∀ t ∈ kernelSteps tr, Permits A t) :
    ∃ o, Serving A (servedCalls (kernelSteps tr)) y.kernel y.server o := by
  obtain ⟨pages, mem, k₀, evs, hk, hrun⟩ := h
  induction hrun with
  | nil =>
      obtain ⟨alive, nexts, hkmain, -⟩ := kmain_spec img pages mem
      rw [hkmain] at hk
      cases hk
      refine ⟨none, ?_, .nil, rfl, ?_, ?_⟩
      · rw [bootState_codeOf]
        trivial
      · rintro _ ⟨⟩
      · rintro _ _ ⟨⟩
  | @snoc tr y y' sa evs' hrun hs ih =>
      have hkrun : KernelRun (kernelSteps tr) y.kernel :=
        SystemRun.kernelRun ⟨pages, mem, k₀, evs, hk, hrun⟩
      rw [kernelSteps_snoc] at hn hfresh hA ⊢
      have hle : created (kernelSteps tr) ≤ maxProcs := by
        simp only [created, List.countP_append] at hn ⊢
        omega
      obtain ⟨o, ho⟩ := ih hle (fun t ht => hfresh t (List.mem_append_left _ ht))
        fun t ht => hA t (List.mem_append_left _ ht)
      exact (systemStep_move hs).serving herr hkrun hn hfresh
        (fun t ht => hA t (List.mem_append_right _ ht)) ho

theorem awaitsReply_iff_call {a b : ProcRef} : awaitsReply s b a ↔ s.call a = .awaiting b := by
  refine ⟨fun h => ?_, awaitsReply_of_call⟩
  rw [State.call, h.1, h.2]

/-- The answer to a request for no memory, or to one that is no request for memory, is `ERR`.
Any other may get what `addr_accept` returns. -/
def Answers (m : Message) (r : Word) : Prop :=
  r = err ∨ m.byte 0 = Uart.messageAddr ∧ pageAlign (m.field 2) ≠ 0

/-- **proc0 serves its clients in turn.**  Each request it receives it answers once, and to
the one it is from, before it receives the next.  Who awaits a reply of it is the client it
has in hand, and nobody else.  `honly` is needed: a client that made processes of its own
could wrap the table around, and proc0 with it. -/
theorem serves_in_turn (h : SystemRun img regions procs tr y)
    (hprovided : Provided img regions procs) (honly : ∀ t ∈ tr, ByProc0Only t) :
    ∃ o : Option Request,
      SyncCall.InTurn (fun _ => Answers) 0 (servedCalls (kernelSteps tr)) o ∧
      y.server.place.client = o.map (fun c => BitVec.ofNat 32 c.1.val) ∧
      ∀ a, awaitsReply y.kernel 0 a ↔ o.map Prod.fst = some a := by
  have hn := h.created_le hprovided honly
  have hfresh := h.freshPages hprovided honly
  have hpermits : ∀ t ∈ kernelSteps tr, Permits Answers t := by
    rintro t - pid start len flags r - hlen - m htype rfl
    exact .inr ⟨htype, hlen⟩
  obtain ⟨o, ho⟩ := h.serving (A := Answers) (fun _ => .inl rfl) hn hfresh hpermits
  refine ⟨o, ho.turn, ho.client, fun a => ?_⟩
  rw [awaitsReply_iff_call, h.kernelRun.awaits_iff hn hfresh ho.turn]

/-- A process that asks for RAM, up to what `addr_accept` returns. -/
def exampleRequest : List SystemAction :=
  [.kernel .resume, .proc0, .proc0, .proc0, .proc0, .kernel .resume, .kernel .resume, .proc0,
    .kernel .resume,
    .kernel (.write { ProcPage.zero with mOut := ProcPage.zero.mOut.store 8 (intBytes 0x1234) }),
    .kernel (.syscall (.addrOffer 0 0x10000 0x2000
      (addrRead ||| addrWrite ||| addrCache ||| addrTake))),
    .kernel (.syscall (.send 0)), .kernel .resume, .proc0]

/-- The request of process 1 is in hand. -/
theorem serves_one_request :
    ∃ tr y, SystemRun exampleImage (publishedRegions exampleSymbols) [0x100] tr y ∧
      y.server.place = .replying 1 err ∧ ∃ o : Option Request,
      SyncCall.InTurn (fun _ => Answers) 0 (servedCalls (kernelSteps tr)) o ∧
      y.server.place.client = o.map (fun c => BitVec.ofNat 32 c.1.val) ∧
      ∀ a, awaitsReply y.kernel 0 a ↔ o.map Prod.fst = some a := by
  obtain ⟨tr, y, hrun, h⟩ := exists_exampleSystem exampleRequest
    (fun tr y => (∀ t ∈ tr, ByProc0Only t) ∧ y.server.place = .replying 1 err) (by decide +kernel)
  obtain ⟨honly, hplace⟩ := of_decide_eq_true h
  exact ⟨tr, y, hrun, hplace, serves_in_turn hrun provided_exampleImage honly⟩

/-- As no page is ever transferred, `addr_accept` returns `ERR` to proc0. -/
theorem KernelRun.permits_err {tr : List KStep} {s : State} (h : KernelRun tr s)
    (hn : created tr ≤ maxProcs) (hcov : ∀ t ∈ tr, CoveredAccept t) :
    ∀ t ∈ tr, Permits (fun _ r => r = err) t := by
  intro t ht pid start len flags r hact hlen hret _ _ _
  obtain ⟨-, hno⟩ := (h.noTransfer hn hcov).2 t ht
  obtain ⟨-, ⟨u, hevs⟩ | hzero⟩ := hno pid start len flags hact
  · rw [hevs, returnedTo] at hret
    split_ifs at hret
    · exact (Option.some.inj hret).symm
    · cases hret
  · exact absurd hzero hlen

/-- **Every request is refused**, as no page is ever transferred: in a run in which accepts
take pages into covered addresses all that proc0 replies is `ERR`.  `hcov` is about the
accepts of all processes, as one at 1 GiB or above looks for its entry in whatever page is
behind the table. -/
theorem every_request_refused (h : SystemRun img regions procs tr y)
    (hprovided : Provided img regions procs) (honly : ∀ t ∈ tr, ByProc0Only t)
    (hcov : ∀ t ∈ kernelSteps tr, CoveredAccept t) :
    ∃ o : Option Request,
      SyncCall.InTurn (fun _ _ r => r = err) 0 (servedCalls (kernelSteps tr)) o := by
  have hn := h.created_le hprovided honly
  obtain ⟨o, ho⟩ := h.serving (A := fun _ r => r = err) (fun _ => rfl) hn
    (h.freshPages hprovided honly) (h.kernelRun.permits_err hn hcov)
  exact ⟨o, ho.turn⟩

/-- The offer of process 1 fits the request, and it gets `ERR` all the same. -/
theorem refuses_one_request :
    ∃ tr y, SystemRun exampleImage (publishedRegions exampleSymbols) [0x100] tr y ∧
      (servedCalls (kernelSteps tr)).length = 2 ∧ ∃ o : Option Request,
      SyncCall.InTurn (fun _ _ r => r = err) 0 (servedCalls (kernelSteps tr)) o := by
  obtain ⟨tr, y, hrun, h⟩ := exists_exampleSystem (exampleRequest ++ [.proc0])
    (fun tr _ => (∀ t ∈ tr, ByProc0Only t) ∧ (∀ t ∈ kernelSteps tr, CoveredAccept t) ∧
      (servedCalls (kernelSteps tr)).length = 2) (by decide +kernel)
  obtain ⟨honly, hcov, hlen⟩ := of_decide_eq_true h
  exact ⟨tr, y, hrun, hlen, every_request_refused hrun provided_exampleImage honly hcov⟩

end Omb
