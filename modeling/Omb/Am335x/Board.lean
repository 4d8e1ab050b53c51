import Omb.Am335x.Service

/-!
# The board

All there is on the board is the kernel, proc0 and the one process that proc0 makes, the UART
server; nothing is open but when the timer ticks.  A `Board` puts the three together: a step
is one of the system, and what it returns to process 1 is heard by the program of the server.

The server asks proc0 for its registers before it prints anything.  But proc0 refuses every
request, as no page is ever transferred, so the server's `send(0)` comes back with `ERR`, and
it goes into the endless loop behind that.  Nothing is printed, not even its greeting
(`board_never_prints`).

What has to be shown for this is that a run of the board is a run of the system in which
accepts take pages into covered addresses, so that the results on `proc0` hold of it.  Only
the server makes offers, at one address of its own below 1 GiB (`OnBoard`, `OffersCovered`),
and proc0 takes its accepts to the address of the offer.  Then the reply of proc0 is `ERR`,
and a process that sends to proc0 only comes back with nothing else (`KernelRun.resume_err`).

Where the server is in its program is followed along the run, from the code that the kernel
says it goes on in (`BoardRun.follows`).

## Main results

* `KernelRun.resume_err`: who sends to proc0 only comes back with `ERR`
* `BoardRun.follows`: where the server is, in every state the board comes to
* `board_never_prints`: the transmitter of the UART is never written by its server
-/

namespace Omb

/-! ## The board -/

structure Board where
  system : System
  uart : Uart

/-- What may happen next; `behind` is behind the page of the server when it is looked at, for
the strings that it looks for there. -/
inductive BoardAction where
  /-- proc0 goes on to its next system call and makes it. -/
  | proc0
  | tick
  /-- Who has been switched to goes on. -/
  | resume (behind : List Byte)
  /-- The server goes on to its next system call and makes it. -/
  | uart (behind : List Byte)

inductive BoardEvent where
  | system (t : SystemStep)
  | uart (e : UartEvent)

inductive BoardStop where
  | system (e : SystemStop)
  | uart (e : UartStop)
  /-- The action is not one of the process that is running. -/
  | disabled

/-- The server sees its system call return. -/
def Uart.hear (x : Uart) (k : State) (behind : List Byte) (evs : List Event) :
    Except UartStop Uart :=
  match returnedTo 1 evs with
  | none => .ok x
  | some r =>
      match Uart.after r x.place with
      | none => .error .disabled
      | some place => .ok ⟨place, k.pageOf 1, behind⟩

/-- Steps of the system, which the server `x` hears of at their end. -/
def Board.perform (regions : List Region) (entry : Word) (y : System) (x : Uart)
    (behind : List Byte) (acts : List SystemAction) :
    Except BoardStop (Board × List BoardEvent) :=
  match Machine.replay (systemStep regions [entry]) y acts with
  | .error e => .error (.system e)
  | .ok (ts, y') =>
      match x.hear y'.kernel behind ((kernelSteps ts).flatMap fun t => t.events) with
      | .error e => .error (.uart e)
      | .ok x' => .ok (⟨y', x'⟩, ts.map .system)

/-- The system call that the server has come to. -/
def callOf (evs : List UartEvent) : Option Syscall :=
  evs.getLast?.bind fun
    | .call c => some c
    | _ => none

/-- One step; `entry` is the offset of the server in the image.  Processes other than the two
are not there to take steps. -/
def boardStep (regions : List Region) (entry : Word) (y : Board) :
    BoardAction → Except BoardStop (Board × List BoardEvent)
  | .proc0 => Board.perform regions entry y.system y.uart [] [.proc0]
  | .tick => Board.perform regions entry y.system y.uart [] [.kernel .tick]
  | .resume behind => Board.perform regions entry y.system y.uart behind [.kernel .resume]
  | .uart behind =>
      if y.system.kernel.up = some 1 ∧ y.system.kernel.control = .user then
        match Uart.run ⟨y.uart.place, y.system.kernel.pageOf 1, behind⟩ with
        | .error e => .error (.uart e)
        | .ok (x, evs) =>
            match callOf evs with
            | none => .ok (⟨y.system, x⟩, evs.map .uart)
            | some c =>
                match Board.perform regions entry y.system x behind
                    [.kernel (.write x.page), .kernel (.syscall c)] with
                | .error e => .error e
                | .ok (y', evs') => .ok (y', evs.map .uart ++ evs')
      else .error .disabled

abbrev BoardStep := Machine.Transition Board BoardAction BoardEvent

/-- A run from boot.  The linker's addresses, the regions and the offset of the server are
arbitrary. -/
def BoardRun (img : Image) (regions : List Region) (entry : Word) (tr : List BoardStep)
    (y : Board) : Prop :=
  ∃ pages mem k₀ evs page behind, kmain img pages mem = .ok (k₀, evs) ∧
    Machine.Run (boardStep regions entry) ⟨⟨k₀, .boot⟩, ⟨.start, page, behind⟩⟩ tr y

def BoardEvent.systemStep : BoardEvent → Option SystemStep
  | .system t => some t
  | .uart _ => none

/-- What the system does in the run. -/
def systemSteps (tr : List BoardStep) : List SystemStep :=
  tr.flatMap fun t => t.events.filterMap BoardEvent.systemStep

/-! ## The programs of the board, as the kernel sees them -/

/-- The system calls of proc0. -/
def Syscall.OfProc0 : Syscall → Prop
  | .addrOffer .. => False
  | .addrAccept _ _ _ flags => flags &&& addrTake = 0
  | _ => True

/-- The system calls of the server. -/
def Syscall.OfUart : Syscall → Prop
  | .getProcPage | .recv _ | .replyRecv .. => True
  | .addrOffer _ start _ _ => start = 0xa0000
  | .send pid => pid = 0
  | _ => False

/-- A system call in this step is one of the two programs.  Ticks and switches are nobody's.
-/
def OnBoard (t : KStep) : Prop :=
  ∀ c, t.act = .syscall c → t.pre.up = some 0 ∧ c.OfProc0 ∨ t.pre.up = some 1 ∧ c.OfUart

variable {s s' : State} {n n' : ℕ} {Q Q' : ProcRef → List ProcRef} {a : Action} {evs : List Event}
  {t : KStep} {tr : List KStep}

/-- Only the server offers addresses. -/
theorem OnBoard.offer {pid start len flags : Word} (h : OnBoard t)
    (hact : t.act = .syscall (.addrOffer pid start len flags)) : start = 0xa0000 := by
  rcases h _ hact with ⟨-, hof⟩ | ⟨-, hof⟩
  · exact absurd hof id
  · exact hof

/-- Only proc0 accepts addresses. -/
theorem OnBoard.accept {pid start len flags : Word} (h : OnBoard t)
    (hact : t.act = .syscall (.addrAccept pid start len flags)) : flags &&& addrTake = 0 := by
  rcases h _ hact with ⟨-, hof⟩ | ⟨-, hof⟩
  · exact hof
  · exact absurd hof id

/-! ### Offers -/

/-- Offers are of covered addresses, those of slots without a process included. -/
def OffersCovered (s : State) : Prop :=
  ∀ p, Covered (s.procs p).addrOffer.start

theorem OffersCovered.step (h : OffersCovered s) (hinv : Inv s n Q) (hlab : s.Labelled)
    (hinv' : Inv s' (n + a.creates.toNat) Q') (hs : step s a = .ok (s', evs))
    (hboard : OnBoard ⟨s, a, evs, s'⟩) : OffersCovered s' := by
  by_cases ha : a.LeavesSpaces
  · intro p
    rw [(hinv.step_sameSpaces hlab ha hs).addrOffer p]
    exact h p
  · cases a with
    | write | tick | resume => exact absurd trivial ha
    | syscall c =>
        obtain ⟨u, hup, -, hcall⟩ := hinv.syscall_of_step hs
        cases c with
        | procCreate page spacePage =>
            have hroom : n < maxProcs := by
              have hcount := hinv'.table.count
              rw [show (Action.syscall (.procCreate page spacePage)).creates = true from rfl,
                Bool.toNat_true] at hcount
              omega
            obtain ⟨alive, nexts, hnew, -⟩ :=
              procNew_spec (hinv.withMem (memsetPage s.mem spacePage)) hroom spacePage page
            simp only [syscall, sysProcCreate, hnew] at hcall
            cases hcall
            intro p
            by_cases hp : p = s.nextpid
            · simp only [State.spawn, if_pos hp]
              show Covered 0
              decide
            · simp only [State.spawn, if_neg hp]
              exact h p
        | addrOffer pid start len flags =>
            cases hcall
            intro p
            by_cases hp : p = u
            · subst hp
              obtain rfl := hboard.offer rfl
              simp only [State.modifyProc_procs_self]
              decide
            · simp only [State.modifyProc_procs_of_ne hp]
              exact h p
        | addrAccept pid start len flags =>
            rw [syscall, sysAddrAccept, withProc_eq] at hcall
            split at hcall
            · cases hcall
            · split at hcall
              · cases hcall
              · rename_i r m haccept
                cases hcall
                obtain ⟨mem, rfl⟩ := acceptFrom_eq haccept
                exact h
        | _ => exact absurd trivial ha

/-- Who gives does so into the addresses of the offer. -/
theorem acceptedTransfer_of_gives {u p : ProcRef} {start len flags : Word} {tr : Transfer}
    (hflags : flags &&& addrTake = 0) (h : acceptedTransfer s u p start len flags = some tr) :
    tr.vt = (s.procs p).addrOffer.start := by
  rw [acceptedTransfer] at h
  split at h
  · cases h
  · split at h
    · cases h
    · split at h
      · cases h
      · split at h
        · cases h
          rfl
        · split at h
          · rename_i htake
            exact absurd hflags htake.1
          · cases h

theorem OffersCovered.accept (h : OffersCovered t.pre) (hboard : OnBoard t) : CoveredAccept t := by
  unfold CoveredAccept
  split
  · rename_i pid start len flags u hact hup
    split
    · intro tr htr
      rw [acceptedTransfer_of_gives (hboard.accept hact) htr]
      exact h _
    · trivial
  · trivial

theorem bootState_offersCovered (img : Image) (pages : Word → ProcPage) (mem : Mem)
    (alive : Option ProcRef) (nexts : ProcRef → Option ProcRef) :
    OffersCovered (bootState img pages mem alive nexts) := by
  intro p
  have hzero : ((bootState img pages mem alive nexts).procs p).addrOffer = .zero := by
    rw [bootState, ((SameSpaces.refl _).switchFrom ..).addrOffer,
      State.modifyProc_field Proc.addrOffer rfl]
    simp only [State.spawn]
    split_ifs <;> rfl
  rw [hzero]
  decide

theorem KernelRun.coveredAccept (h : KernelRun tr s) (hn : created tr ≤ maxProcs)
    (hboard : ∀ t ∈ tr, OnBoard t) : ∀ t ∈ tr, CoveredAccept t := by
  refine (KernelRun.invariant (C := OnBoard)
    (P := fun tr s => s.Labelled ∧ OffersCovered s ∧ ∀ t ∈ tr, CoveredAccept t)
    ?_ ?_ h hn hboard).2.2.2
  · intro img pages mem alive nexts
    exact ⟨bootState_labelled img pages mem alive nexts,
      bootState_offersCovered img pages mem alive nexts,
      fun t ht => absurd ht List.not_mem_nil⟩
  · intro tr s a evs s' Q Q' hinv hinv' ⟨hlab, hoffers, hall⟩ hbd hs hmove
    refine ⟨hmove.labelled hinv hinv' hlab, hoffers.step hinv hlab hinv' hs hbd, fun t ht => ?_⟩
    rcases List.mem_append.mp ht with ht | ht
    · exact hall t ht
    · obtain rfl := List.mem_singleton.mp ht
      exact hoffers.accept hbd

/-! ### Answers -/

/-- The process has sent. -/
theorem Move.of_sent {p b : ProcRef} (hmove : Move s a evs s') (h : .sent p b ∈ evs) :
    s.up = some p ∧ ∃ pid, a = .syscall (.send pid) ∧ pid.toInt = b.val := by
  cases hmove with
  | @send u q pid lists waiting r handed hup hc hpid =>
      rcases List.mem_cons.mp h with heq | h
      · cases heq
        exact ⟨hup, pid, rfl, hpid⟩
      · simp at h
  | quiet _ _ _ hevs =>
      rcases hevs _ h with ⟨v, hv⟩ | ⟨pc, sp, hv⟩ <;> cases hv
  | _ => simp at h

/-- Labels of sends are those of the events. -/
theorem sent_of_mem_calls {p b : ProcRef} {m : Message} (h : .send p b m ∈ t.calls) :
    .sent p b ∈ t.events := by
  rw [KStep.calls, List.mem_append] at h
  rcases h with h | h
  · split_ifs at h <;> simp at h
  · obtain ⟨e, he, heq⟩ := List.mem_filterMap.mp h
    cases e with
    | sent a b' =>
        cases heq
        exact he
    | _ => cases heq

/-- **Who sends to proc0 only** comes back with `ERR`, as that is all that proc0 replies.  The
refinement to synchronous calls is used for it: what a client returns with is what its server
has replied. -/
theorem KernelRun.resume_err {o : Option Request} (h : KernelRun tr s)
    (hn : created tr ≤ maxProcs) (hfresh : ∀ t ∈ tr, FreshPages t)
    (hturn : SyncCall.InTurn (fun _ _ r => r = err) 0 (servedCalls tr) o) {p : ProcRef}
    (hsend : ∀ t ∈ tr, t.pre.up = some p → ∀ pid, t.act = .syscall (.send pid) → pid = 0) :
    ∀ r m, .resume p r m ∈ calls tr → r = err := by
  refine ((h.refines hn hfresh).through (a := p) (b := 0) (A := fun r => r = err) ?_ ?_ ?_).2
  · rw [bootCalls]
    rcases eq_or_ne p 0 with rfl | hp
    · rw [Function.update_self]
      trivial
    · rw [Function.update_of_ne hp]
      trivial
  · intro b m hmem
    obtain ⟨t, ht, hcall⟩ := List.mem_flatMap.mp hmem
    obtain ⟨-, hmove, -⟩ := h.forall_step hn t ht
    obtain ⟨hup, pid, hact, hpid⟩ := hmove.of_sent (sent_of_mem_calls hcall)
    rw [hsend t ht hup pid hact] at hpid
    exact Fin.ext (Int.ofNat_inj.mp hpid.symm)
  · intro a r m hmem
    have hserved : .reply 0 a r m ∈ servedCalls tr :=
      List.mem_filter.mpr ⟨hmem, by simp [SyncCall.Label.server]⟩
    obtain ⟨m', hr⟩ := hturn.reply_mem hserved
    exact hr

/-! ## Where the server is -/

/-- The server is in its own code, and has printed nothing.  The places behind a request that
is granted are not among these. -/
def Place.Quiet : Place → Prop
  | .start | .gotPage | .offered | .halted => True
  | _ => False

/-- The place fits the code that the kernel goes on with. -/
def Place.GoesOnAt (place : Place) : Option Label → Prop
  | none | some .trap => place.Quiet
  | some .ksend => place = .sending
  | some .unset | some .procStart | some (.krecv _ .procStart)
  | some (.kreply (.procStart ..)) => place = .start
  | _ => False

theorem Place.GoesOnAt.quiet_or_sending {place : Place} {code : Option Label}
    (h : place.GoesOnAt code) : place.Quiet ∨ place = .sending := by
  have hstart : place = .start → place.Quiet := by
    rintro rfl
    trivial
  cases code with
  | none => exact .inl h
  | some k =>
      cases k with
      | trap => exact .inl h
      | ksend => exact .inr h
      | unset | procStart => exact .inl (hstart h)
      | krecv pid caller =>
          cases caller with
          | sysRecv => exact absurd h id
          | procStart => exact .inl (hstart h)
      | kreply caller =>
          cases caller with
          | sysReply => exact absurd h id
          | procStart => exact .inl (hstart h)
      | proc0Start | kreplyRecv => exact absurd h id

/-- The kernel and the server agree on where the server is. -/
inductive Follows (s : State) (place : Place) : Prop
  /-- It has not been made. -/
  | unborn (hdead : (s.procs 1).state = .dead) (hp : place = .start)
  | alive (hlive : (s.procs 1).state ≠ .dead) (hcode : place.GoesOnAt (s.codeOf 1))

/-- Where the server goes on after these events. -/
def Place.hear (place : Place) (evs : List Event) : Option Place :=
  match returnedTo 1 evs with
  | none => some place
  | some r => Uart.after r place

variable {place : Place}

theorem Place.hear_nothing (h : returnedTo 1 evs = none) : place.hear evs = some place := by
  rw [Place.hear, h]

/-- Whom a call has returned to has been running. -/
theorem Move.up_of_returned {p : ProcRef} {r : Word} (hmove : Move s a evs s')
    (h : returnedTo p evs = some r) : s.up = some p := by
  by_contra hup
  have hnone : returnedTo p evs = none := by
    refine returnedTo_eq_none fun e he r heq => ?_
    subst heq
    cases hmove with
    | quiet hu _ _ hevs =>
        rcases hevs _ he with ⟨v, hv⟩ | ⟨pc, sp, hv⟩
        · cases hv
          exact hup hu.1
        · cases hv
    | create hu | resumed hu =>
        simp at he
        exact hup (he.1 ▸ hu)
    | receive hu =>
        simp at he
        exact hup (he.1 ▸ hu.1)
    | _ => simp at he
  rw [hnone] at h
  cases h

/-- A process that has come into being is at the beginning of `proc_start`. -/
theorem Move.label_of_born {p : ProcRef} (hmove : Move s a evs s') (hinv : Inv s n Q)
    (hinv' : Inv s' (n + a.creates.toNat) Q') (hdead : (s.procs p).state = .dead)
    (hlive : (s'.procs p).state ≠ .dead) :
    s'.up = s.up ∧ (s'.procs p).label = .procStart := by
  rw [hinv.table.dead_iff] at hdead
  rw [Ne, hinv'.table.dead_iff] at hlive
  have hcreates : a.creates = true := by
    by_contra hnot
    rw [Bool.not_eq_true] at hnot
    rw [hnot] at hlive
    exact hlive hdead
  rw [hcreates, Bool.toNat_true] at hlive
  have hnew : s.nextpid = p := by
    refine Fin.ext ?_
    rw [hinv.table.nextpid, Nat.mod_eq_of_lt] <;> omega
  cases hmove with
  | create =>
      refine ⟨rfl, ?_⟩
      simp only [State.spawn, if_pos hnew.symm]
      rfl
  | quiet _ _ hc | receive _ hc | start _ hc | park _ hc => rw [hcreates] at hc; cases hc
  | _ => cases hcreates

/-- A step of another process. -/
theorem Follows.elsewhere (h : Follows s place) (hinv : Inv s n Q)
    (hinv' : Inv s' (n + a.creates.toNat) Q') (hmove : Move s a evs s') (hup : s.up ≠ some 1) :
    place.hear evs = some place ∧ Follows s' place := by
  cases h with
  | alive hlive hcode =>
      have hseen := hmove.elsewhere hlive hup
      refine ⟨Place.hear_nothing hseen.returned, .alive ?_ ?_⟩
      · rw [Ne, hinv.table.dead_iff] at hlive
        rw [Ne, hinv'.table.dead_iff]
        omega
      · rw [hseen.code]
        exact hcode
  | unborn hdead hp =>
      refine ⟨Place.hear_nothing ?_, ?_⟩
      · by_contra hne
        obtain ⟨r, hr⟩ := Option.ne_none_iff_exists'.mp hne
        exact hup (hmove.up_of_returned hr)
      · by_cases hdead' : (s'.procs 1).state = .dead
        · exact .unborn hdead' hp
        · refine .alive hdead' ?_
          obtain ⟨hup', hlabel⟩ := hmove.label_of_born hinv hinv' hdead hdead'
          rw [codeOf_of_up_ne (hup' ▸ hup), hlabel]
          exact hp

theorem Follows.of_user (hinv : Inv s n Q) (hup : s.up = some 1) (hc : s.control = .user)
    (hp : place.Quiet) : Follows s place := by
  refine .alive ?_ ?_
  · rw [hinv.running 1 hup]
    decide
  · rw [codeOf_of_user hup hc]
    exact hp

theorem Follows.quiet (h : Follows s place) (hinv : Inv s n Q) (hup : s.up = some 1)
    (hc : s.control = .user) : place.Quiet := by
  cases h with
  | unborn hdead =>
      rw [hinv.running 1 hup] at hdead
      cases hdead
  | alive _ hcode =>
      rw [codeOf_of_user hup hc] at hcode
      exact hcode

/-- The timer interrupts the server. -/
theorem Follows.tick (h : Follows s place) (hinv : Inv s n Q) (hup : s.up = some 1)
    (hc : s.control = .user) (hlive : (s'.procs 1).state ≠ .dead)
    (hs : schedule s .trap none = .ok (s', evs)) :
    place.hear evs = some place ∧ Follows s' place := by
  obtain ⟨hseen, -⟩ := tick_seen hup .tick hs
  refine ⟨Place.hear_nothing hseen.returned, .alive hlive ?_⟩
  rw [hseen.code]
  exact h.quiet hinv hup hc

/-- Who has been running is still there. -/
theorem Inv.live_of_up {p : ProcRef} (h : Inv s n Q) (h' : Inv s' n' Q') (hle : n ≤ n')
    (hup : s.up = some p) : (s'.procs p).state ≠ .dead := by
  have hlive : ¬ (s.procs p).state = .dead := by
    rw [h.running p hup]
    decide
  rw [h.table.dead_iff] at hlive
  rw [Ne, h'.table.dead_iff]
  omega

/-- `proc_start` goes on. -/
theorem procStart_follows (hinv : Inv s n Q) (hup : s.up = some 1) {pid : Word}
    (hlive : (s'.procs 1).state ≠ .dead) (hs : procStart s 1 pid = .ok (s', evs)) :
    Place.start.hear evs = some .start ∧ Follows s' .start := by
  have hswitched : ∀ {m : State} {k : Label} {r : Option ProcRef}, s' = m.switchFrom k r →
      m.up = some 1 → Place.start.GoesOnAt (some k) → Follows s' .start := by
    intro m k r heq hm hk
    refine .alive hlive ?_
    rw [heq, codeOf_switchFrom, if_pos hm]
    exact hk
  rw [procStart] at hs
  rcases krecv_spec hinv hup pid .procStart with ⟨-, r, hsw, -, -⟩ |
    ⟨pre, w, post, lists, waiting, hsplit, -, hret, hinv'⟩
  · rw [hsw] at hs
    cases hs
    exact ⟨Place.hear_nothing rfl, hswitched rfl hup rfl⟩
  · rw [hret] at hs
    have hw : w ∈ Q 1 := by simp [hsplit]
    have hawait : awaitsReply (s.takeMessage 1 w lists waiting) 1 w := by
      constructor
      · simp [State.takeMessage]
      · exact ((hinv.mem_iff 1 w).mp hw).2
    obtain ⟨hsw, -⟩ := kreply_spec hinv' hawait ok
      (.procStart ((s.takeMessage 1 w lists waiting).pageOf 1 |>.mIn.field 1)
        ((s.takeMessage 1 w lists waiting).pageOf 1 |>.mIn.field 2))
    simp only [procStartReply] at hs
    rw [hsw] at hs
    cases hs
    exact ⟨Place.hear_nothing rfl, hswitched rfl hup rfl⟩

/-- The server goes on from its label; its `ksend` has come back with `ERR`. -/
theorem Follows.resume (h : Follows s place) (hinv : Inv s n Q) (hinv' : Inv s' n Q')
    (hup : s.up = some 1) (hc : s.control = .resume) (hlive : (s'.procs 1).state ≠ .dead)
    (hs : Omb.resume s 1 (s.procs 1).label = .ok (s', evs))
    (herr : ∀ r, .resumed 1 r ∈ evs → r = err) :
    ∃ place', place.hear evs = some place' ∧ Follows s' place' := by
  cases h with
  | unborn hdead =>
      rw [hinv.running 1 hup] at hdead
      cases hdead
  | alive _ hcode =>
      rw [codeOf_of_control_ne (by rw [hc]; exact Control.noConfusion)] at hcode
      revert hs hcode
      cases (s.procs 1).label with
      | unset => rintro ⟨⟩
      | procStart =>
          rintro hs rfl
          exact ⟨_, procStart_follows hinv hup hlive hs⟩
      | trap =>
          rintro hs hp
          cases hs
          exact ⟨place, Place.hear_nothing rfl, .of_user hinv' hup rfl hp⟩
      | ksend =>
          rintro hs rfl
          cases hs
          have hr : (s.pageOf 1).mRet = err := herr _ (by simp)
          rw [hr]
          exact ⟨.halted, rfl, .of_user hinv' hup rfl trivial⟩
      | krecv pid caller =>
          cases caller with
          | sysRecv => rintro - ⟨⟩
          | procStart =>
              rintro hs rfl
              exact ⟨_, procStart_follows hinv hup hlive hs⟩
      | kreply caller =>
          cases caller with
          | sysReply => rintro - ⟨⟩
          | procStart pc sp =>
              rintro hs rfl
              cases hs
              exact ⟨.start, Place.hear_nothing rfl, .of_user hinv' hup rfl trivial⟩
      | proc0Start | kreplyRecv => rintro - ⟨⟩

/-- A system call of the server, at the end of a run of its program. -/
theorem Follows.call {page : ProcPage} {behind : List Byte} {x : Uart} {uevs : List UartEvent}
    {c : Syscall} (hp : place.Quiet) (hrun : Uart.run ⟨place, page, behind⟩ = .ok (x, uevs))
    (hcall : callOf uevs = some c) (hinv : Inv s n Q) (hinv' : Inv s' n' Q') (hup : s.up = some 1)
    (hlive : (s'.procs 1).state ≠ .dead) (hs : syscall s 1 c = .ok (s', evs)) :
    ∃ place', x.place.hear evs = some place' ∧ Follows s' place' := by
  cases place with
  | start =>
      cases hrun
      cases hcall
      cases hs
      exact ⟨.gotPage, rfl, .of_user hinv' hup rfl trivial⟩
  | gotPage =>
      cases hrun
      cases hcall
      cases hs
      exact ⟨.offered, rfl, .of_user hinv' hup rfl trivial⟩
  | offered =>
      cases hrun
      cases hcall
      rcases hinv.sysSend_seen hup (.syscall (.send 0)) hs with hseen | hseen
      · refine ⟨.halted, ?_, .alive hlive ?_⟩
        · rw [Place.hear, hseen.returned]
          rfl
        · rw [hseen.code]
          trivial
      · refine ⟨.sending, Place.hear_nothing hseen.returned, .alive hlive ?_⟩
        rw [hseen.code]
        rfl
  | halted =>
      cases hrun
      cases hcall
  | _ => exact absurd hp id

/-! ## One step of the board -/

variable {img : Image} {regions : List Region} {entry : Word} {y y' : Board} {act : BoardAction}
  {bevs : List BoardEvent} {btr : List BoardStep}

/-- What has happened in the kernel in a step of the system. -/
def kernelEvents (evs : List SystemEvent) : List Event :=
  (evs.filterMap SystemEvent.kernelStep).flatMap fun t => t.events

/-- The ways a step can go. -/
inductive BoardMove (regions : List Region) (entry : Word) (y : Board) :
    BoardAction → List BoardEvent → Board → Prop
  /-- A step of the system that is not one of the server's program. -/
  | system {act : BoardAction} {sa : SystemAction} {evs : List SystemEvent} {y' : Board}
      (hact : sa = .proc0 ∨ sa = .kernel .tick ∨ sa = .kernel .resume)
      (hproc0 : sa = .proc0 → act = .proc0)
      (hs : systemStep regions [entry] y.system sa = .ok (y'.system, evs))
      (hhear : y.uart.place.hear (kernelEvents evs) = some y'.uart.place) :
      BoardMove regions entry y act [.system ⟨y.system, sa, evs, y'.system⟩] y'
  /-- The server makes a system call. -/
  | call {behind : List Byte} {x : Uart} {uevs : List UartEvent} {c : Syscall} {m : System}
      {evs₁ evs₂ : List SystemEvent} {y' : Board} (hup : y.system.kernel.up = some 1)
      (hc : y.system.kernel.control = .user)
      (hrun : Uart.run ⟨y.uart.place, y.system.kernel.pageOf 1, behind⟩ = .ok (x, uevs))
      (hcall : callOf uevs = some c)
      (hwrite : systemStep regions [entry] y.system (.kernel (.write x.page)) = .ok (m, evs₁))
      (hsys : systemStep regions [entry] m (.kernel (.syscall c)) = .ok (y'.system, evs₂))
      (hhear : x.place.hear (kernelEvents evs₁ ++ kernelEvents evs₂) = some y'.uart.place) :
      BoardMove regions entry y (.uart behind)
        (uevs.map .uart ++ [.system ⟨y.system, .kernel (.write x.page), evs₁, m⟩,
          .system ⟨m, .kernel (.syscall c), evs₂, y'.system⟩]) y'
  /-- The server goes round its last loop. -/
  | halted {behind : List Byte} {x : Uart} {uevs : List UartEvent}
      (hup : y.system.kernel.up = some 1) (hc : y.system.kernel.control = .user)
      (hrun : Uart.run ⟨y.uart.place, y.system.kernel.pageOf 1, behind⟩ = .ok (x, uevs))
      (hcall : callOf uevs = none) :
      BoardMove regions entry y (.uart behind) (uevs.map .uart) ⟨y.system, x⟩

theorem Uart.hear_place {x x' : Uart} {k : State} {behind : List Byte} {evs : List Event}
    (h : x.hear k behind evs = .ok x') : x.place.hear evs = some x'.place := by
  rw [Uart.hear] at h
  rw [Place.hear]
  split at h
  · cases h
    rfl
  · split at h
    · cases h
    · rename_i place hafter
      cases h
      exact hafter

/-- What the server hears of is what has happened in the kernel. -/
theorem perform_cases {ys : System} {x : Uart} {behind : List Byte} {acts : List SystemAction}
    (h : Board.perform regions entry ys x behind acts = .ok (y', bevs)) :
    ∃ ts, Machine.replay (systemStep regions [entry]) ys acts = .ok (ts, y'.system) ∧
      bevs = ts.map .system ∧
      x.place.hear ((kernelSteps ts).flatMap fun t => t.events) = some y'.uart.place := by
  rw [Board.perform] at h
  split at h
  · cases h
  · rename_i ts ys' hreplay
    split at h
    · cases h
    · rename_i hhear
      cases h
      exact ⟨ts, hreplay, rfl, Uart.hear_place hhear⟩

theorem perform_one {sa : SystemAction} {behind : List Byte}
    (hact : sa = .proc0 ∨ sa = .kernel .tick ∨ sa = .kernel .resume)
    (hproc0 : sa = .proc0 → act = .proc0)
    (h : Board.perform regions entry y.system y.uart behind [sa] = .ok (y', bevs)) :
    BoardMove regions entry y act bevs y' := by
  obtain ⟨ts, hreplay, rfl, hhear⟩ := perform_cases h
  obtain ⟨m, evs, ts', hs, hrest, rfl⟩ := Machine.replay_cons hreplay
  cases hrest
  refine .system hact hproc0 hs ?_
  simpa [kernelSteps, kernelEvents] using hhear

theorem boardStep_move (h : boardStep regions entry y act = .ok (y', bevs)) :
    BoardMove regions entry y act bevs y' := by
  cases act with
  | proc0 => exact perform_one (.inl rfl) (fun _ => rfl) h
  | tick => exact perform_one (.inr (.inl rfl)) (fun heq => by cases heq) h
  | resume behind => exact perform_one (.inr (.inr rfl)) (fun heq => by cases heq) h
  | uart behind =>
      rw [boardStep] at h
      split at h
      · rename_i hup
        split at h
        · cases h
        · rename_i x uevs hrun
          split at h
          · rename_i hcall
            cases h
            exact .halted hup.1 hup.2 hrun hcall
          · rename_i c hcall
            split at h
            · cases h
            · rename_i y₁ bevs₁ hperform
              cases h
              obtain ⟨ts, hreplay, rfl, hhear⟩ := perform_cases hperform
              obtain ⟨m, evs₁, ts', hwrite, hrest, rfl⟩ := Machine.replay_cons hreplay
              obtain ⟨m', evs₂, ts'', hsys, hrest', rfl⟩ := Machine.replay_cons hrest
              cases hrest'
              refine .call hup.1 hup.2 hrun hcall hwrite hsys ?_
              simpa [kernelSteps, kernelEvents] using hhear
      · cases h

/-! ### The calls of the programs -/

theorem handleAddrRequest_gives {st st' : Sections} {addr len : Word} {r : Accept}
    (h : handleAddrRequest st addr len = (some r, st')) : r.flags &&& addrTake = 0 := by
  have hio : (addrRead ||| addrWrite) &&& addrTake = 0 := by decide
  have hram : (addrRead ||| addrWrite ||| addrCache) &&& addrTake = 0 := by decide
  unfold handleAddrRequest at h
  dsimp only at h
  split_ifs at h <;> cases h
  · exact hio
  · exact hram

theorem ServerMove.ofProc0 {procs : List Word} {x x' : Server} {page : ProcPage} {c : ServerCall}
    (h : ServerMove regions procs x page x' c) : c.call.OfProc0 := by
  cases h with
  | @turns i st page' =>
      rw [Server.turn]
      split <;> trivial
  | @handles pid =>
      rcases Server.handle_cases x.st page pid with ⟨st', heq⟩ | ⟨r, st', -, hreq, heq⟩
      · rw [heq]
        trivial
      · rw [heq]
        exact handleAddrRequest_gives hreq
  | _ => trivial

theorem callOf_snoc (evs : List UartEvent) (c : Syscall) : callOf (evs ++ [.call c]) = some c := by
  rw [callOf, List.getLast?_concat]
  rfl

theorem Uart.putsThen_ofUart {x x' : Uart} {str : List Byte} {c c' : Syscall}
    {uevs : List UartEvent} (h : x.putsThen str c = .ok (x', uevs)) (hc : callOf uevs = some c') :
    c' = c := by
  rw [putsThen] at h
  split at h
  · cases h
  · cases h
    rw [callOf_snoc] at hc
    exact (Option.some.inj hc).symm

theorem Uart.run_ofUart {x x' : Uart} {uevs : List UartEvent} {c : Syscall}
    (h : x.run = .ok (x', uevs)) (hc : callOf uevs = some c) : c.OfUart := by
  obtain ⟨place, page, behind⟩ := x
  cases place with
  | start | gotPage | offered =>
      cases h
      cases hc
      trivial
  | sent | printing =>
      rw [run] at h
      dsimp only at h
      rw [putsThen_ofUart h hc]
      trivial
  | halted =>
      cases h
      cases hc
  | _ => cases h

section

variable {page : ProcPage} {behind : List Byte} {x : Uart} {uevs : List UartEvent}

/-- Before it has been answered the server prints nothing. -/
theorem Place.Quiet.run (hp : place.Quiet) (h : Uart.run ⟨place, page, behind⟩ = .ok (x, uevs))
    (c : Byte) : .emit c ∉ uevs := by
  cases place with
  | start | gotPage | offered | halted =>
      cases h
      simp
  | _ => exact absurd hp id

/-- It makes no call in its last loop only. -/
theorem Place.Quiet.spins (hp : place.Quiet)
    (h : Uart.run ⟨place, page, behind⟩ = .ok (x, uevs)) (hcall : callOf uevs = none) :
    x.place = place := by
  cases place with
  | start | gotPage | offered =>
      cases h
      cases hcall
  | halted =>
      cases h
      rfl
  | _ => exact absurd hp id

end

theorem onBoard_of_not_syscall (h : ∀ c, t.act ≠ .syscall c) : OnBoard t :=
  fun c hact => absurd hact (h c)

namespace SystemMove

variable {procs : List Word} {ys ys' : System} {sevs : List SystemEvent}

theorem kernel_step (h : SystemMove regions procs ys (.kernel a) sevs ys') :
    ∃ kevs, step ys.kernel a = .ok (ys'.kernel, kevs) ∧
      sevs.filterMap SystemEvent.kernelStep = [⟨ys.kernel, a, kevs, ys'.kernel⟩] := by
  cases h with
  | @other _ kevs ts _ hother hstep hhears =>
      refine ⟨kevs, hstep, ?_⟩
      rw [List.filterMap_cons, kernelStep_map_proc0]
      rfl

theorem proc0_steps (h : SystemMove regions procs ys .proc0 sevs ys') :
    ∃ (c : ServerCall) (k : State) (kevs : List Event), c.call.OfProc0 ∧
      ys.kernel.up = some 0 ∧ k.up = some 0 ∧
      step ys.kernel (.write c.page) = .ok (k, []) ∧
      step k (.syscall c.call) = .ok (ys'.kernel, kevs) ∧
      sevs.filterMap SystemEvent.kernelStep =
        [⟨ys.kernel, .write c.page, [], k⟩, ⟨k, .syscall c.call, kevs, ys'.kernel⟩] := by
  cases h with
  | @call x c k kevs ts _ hup hc hrun hmove hwrite hk hcall hhears =>
      refine ⟨c, k, kevs, hmove.ofProc0, hup, by rw [hk]; exact hup, hwrite, hcall, ?_⟩
      simp only [List.filterMap_cons, SystemEvent.kernelStep, kernelStep_map_proc0]

/-- Only proc0 and the server make system calls. -/
theorem onBoard {sa : SystemAction} (h : SystemMove regions procs ys sa sevs ys')
    (hact : sa = .proc0 ∨ sa = .kernel .tick ∨ sa = .kernel .resume) :
    ∀ t ∈ sevs.filterMap SystemEvent.kernelStep, OnBoard t := by
  rcases hact with rfl | rfl | rfl
  · obtain ⟨c, k, kevs, hof, hup, hupk, -, -, heq⟩ := h.proc0_steps
    rw [heq]
    rintro t (_ | ⟨_, _ | ⟨_, ⟨⟩⟩⟩)
    · exact onBoard_of_not_syscall fun c' heq' => by cases heq'
    · rintro c' ⟨⟩
      exact .inl ⟨hupk, hof⟩
  all_goals
    obtain ⟨kevs, -, heq⟩ := h.kernel_step
    rw [heq]
    rintro t (_ | ⟨_, ⟨⟩⟩)
    exact onBoard_of_not_syscall fun c' heq' => by cases heq'

end SystemMove

/-- The steps that a board step takes in the kernel. -/
def kernelStepsOf (bevs : List BoardEvent) : List KStep :=
  kernelSteps (bevs.filterMap BoardEvent.systemStep)

theorem systemStep_append_uart (uevs : List UartEvent) (bevs : List BoardEvent) :
    (uevs.map BoardEvent.uart ++ bevs).filterMap BoardEvent.systemStep =
      bevs.filterMap BoardEvent.systemStep := by
  have hnone : (uevs.map BoardEvent.uart).filterMap BoardEvent.systemStep = [] := by
    rw [List.filterMap_eq_nil_iff]
    intro e he
    obtain ⟨u, -, rfl⟩ := List.mem_map.mp he
    rfl
  rw [List.filterMap_append, hnone, List.nil_append]

theorem kernelStepsOf_append_uart (uevs : List UartEvent) (bevs : List BoardEvent) :
    kernelStepsOf (uevs.map BoardEvent.uart ++ bevs) = kernelStepsOf bevs := by
  rw [kernelStepsOf, systemStep_append_uart, kernelStepsOf]

theorem kernelStepsOf_system (t : SystemStep) (bevs : List BoardEvent) :
    kernelStepsOf (.system t :: bevs) =
      t.events.filterMap SystemEvent.kernelStep ++ kernelStepsOf bevs := by
  rfl

theorem kernelStepsOf_singleton (t : SystemStep) :
    kernelStepsOf [.system t] = t.events.filterMap SystemEvent.kernelStep := by
  rw [kernelStepsOf_system]
  exact List.append_nil _

theorem write_eq {u : ProcRef} {page : ProcPage} (hup : s.up = some u) (hc : s.control = .user)
    (hs : step s (.write page) = .ok (s', evs)) :
    s' = s.modifyPage (s.procs u).page (fun _ => page) ∧ evs = [] := by
  simp only [step, hc, hup] at hs
  cases hs
  exact ⟨rfl, rfl⟩

namespace BoardMove

/-- **The system calls on the board** are those of the two programs. -/
theorem onBoard (h : BoardMove regions entry y act bevs y') :
    ∀ t ∈ kernelStepsOf bevs, OnBoard t := by
  cases h with
  | @system act sa evs y' hact _ hs hhear =>
      rw [kernelStepsOf_singleton]
      exact (systemStep_move hs).onBoard hact
  | @call behind x uevs c m evs₁ evs₂ y' hup hc hrun hcall hwrite hsys hhear =>
      rw [kernelStepsOf_append_uart, kernelStepsOf_system, kernelStepsOf_system]
      obtain ⟨kevs₁, hstep₁, heq₁⟩ := (systemStep_move hwrite).kernel_step
      obtain ⟨kevs₂, -, heq₂⟩ := (systemStep_move hsys).kernel_step
      rw [heq₁, heq₂]
      rintro t (_ | ⟨_, _ | ⟨_, ⟨⟩⟩⟩)
      · exact onBoard_of_not_syscall fun c' heq' => by cases heq'
      · rintro c' ⟨⟩
        refine .inr ⟨?_, Uart.run_ofUart hrun hcall⟩
        show m.kernel.up = some 1
        rw [(write_eq hup hc hstep₁).1]
        exact hup
  | @halted behind x uevs hup hc hrun hcall =>
      rw [← List.append_nil (uevs.map BoardEvent.uart), kernelStepsOf_append_uart]
      exact fun t ht => absurd ht List.not_mem_nil

/-- proc0 is the only one that makes processes. -/
theorem byProc0Only (h : BoardMove regions entry y act bevs y') :
    ∀ t ∈ bevs.filterMap BoardEvent.systemStep, ByProc0Only t := by
  cases h with
  | system hact _ hs hhear =>
      rintro t (_ | ⟨_, ⟨⟩⟩)
      rcases hact with rfl | rfl | rfl
      · trivial
      · rfl
      · rfl
  | @call behind x uevs c m evs₁ evs₂ y' hup hc hrun hcall hwrite hsys hhear =>
      rw [systemStep_append_uart]
      rintro t (_ | ⟨_, _ | ⟨_, ⟨⟩⟩⟩)
      · rfl
      · have hof := Uart.run_ofUart hrun hcall
        show (Action.syscall c).creates = false
        cases c with
        | procCreate => exact absurd hof id
        | _ => rfl
  | @halted behind x uevs hup hc hrun hcall =>
      rw [← List.append_nil (uevs.map BoardEvent.uart), systemStep_append_uart]
      exact fun t ht => absurd ht List.not_mem_nil

theorem system_run (h : BoardMove regions entry y act bevs y') :
    Machine.Run (systemStep regions [entry]) y.system (bevs.filterMap BoardEvent.systemStep)
      y'.system := by
  cases h with
  | system hact _ hs hhear => exact .snoc .nil hs
  | @call behind x uevs c m evs₁ evs₂ y' hup hc hrun hcall hwrite hsys hhear =>
      rw [systemStep_append_uart]
      exact .snoc (.snoc .nil hwrite) hsys
  | @halted behind x uevs hup hc hrun hcall =>
      rw [← List.append_nil (uevs.map BoardEvent.uart), systemStep_append_uart]
      exact .nil

end BoardMove

/-! ### The server and the kernel -/

/-- **A step that is not one of the server's program** is one that the server can follow. -/
theorem Follows.step (h : Follows s place) (hrun : KernelRun tr s)
    (hn : created (tr ++ [⟨s, a, evs, s'⟩]) ≤ maxProcs) (hs : step s a = .ok (s', evs))
    (hact : s.up = some 1 → a = .tick ∨ a = .resume)
    (herr : ∀ r, .resumed 1 r ∈ evs → r = err) :
    ∃ place', place.hear evs = some place' ∧ Follows s' place' := by
  rw [created_snoc] at hn
  obtain ⟨Q, hinv⟩ := hrun.inv (by omega)
  obtain ⟨hmove, Q', hinv'⟩ := step_move hinv (fun hcreates => by
    rw [hcreates, Bool.toNat_true] at hn
    omega) hs
  by_cases hup : s.up = some 1
  · have hlive := hinv.live_of_up hinv' (by omega) hup
    rcases hact hup with rfl | rfl
    · cases hc : s.control with
      | user =>
          simp only [Omb.step, hc, hup] at hs
          exact ⟨place, h.tick hinv hup hc hlive hs⟩
      | resume | idle => simp [Omb.step, hc, hup] at hs
    · cases hc : s.control with
      | resume =>
          simp only [Omb.step, hc, hup] at hs
          exact h.resume hinv hinv' hup hc hlive hs herr
      | user | idle => simp [Omb.step, hc] at hs
  · exact ⟨place, h.elsewhere hinv hinv' hmove hup⟩

/-- A return from `ksend` is a label. -/
theorem resume_mem_calls {p : ProcRef} {r : Word} (h : .resumed p r ∈ t.events) (ht : t ∈ tr) :
    ∃ m, .resume p r m ∈ calls tr := by
  refine ⟨(t.post.pageOf p).mIn, List.mem_flatMap.mpr ⟨t, ht, ?_⟩⟩
  exact List.mem_append_right _ (List.mem_filterMap.mpr ⟨_, h, rfl⟩)

theorem created_le_append (tr tr' : List KStep) : created tr ≤ created (tr ++ tr') := by
  rw [created, created, List.countP_append]
  omega

section

variable {place : Place} {ys m ys' : System} {sevs sevs' : List SystemEvent}

/-- proc0 makes its next system call. -/
theorem Follows.proc0 (h : Follows ys.kernel place) (hrun : KernelRun tr ys.kernel)
    (hmove : SystemMove regions [entry] ys .proc0 sevs ys')
    (hn : created (tr ++ sevs.filterMap SystemEvent.kernelStep) ≤ maxProcs)
    (herr : ∀ t ∈ sevs.filterMap SystemEvent.kernelStep, ∀ r, .resumed 1 r ∈ t.events → r = err) :
    ∃ place', place.hear (kernelEvents sevs) = some place' ∧ Follows ys'.kernel place' := by
  obtain ⟨c, k, kevs, -, hup, hupk, hwrite, hcall, heq⟩ := hmove.proc0_steps
  have hevents : kernelEvents sevs = kevs := by
    rw [kernelEvents, heq, List.flatMap_cons, List.flatMap_singleton]
    rfl
  have hne : ∀ {s : State}, s.up = some 0 → s.up ≠ some 1 := by
    intro s h₀ h₁
    cases h₀.symm.trans h₁
  rw [heq, List.append_cons] at hn
  rw [heq] at herr
  obtain ⟨place₁, hplace₁, hf₁⟩ := h.step hrun ((created_le_append _ _).trans hn) hwrite
    (fun h₁ => absurd h₁ (hne hup)) (fun r hr => absurd hr List.not_mem_nil)
  cases hplace₁
  rw [hevents]
  exact hf₁.step (hrun.snoc hwrite) hn hcall (fun h₁ => absurd h₁ (hne hupk))
    (herr _ (List.mem_cons_of_mem _ List.mem_cons_self))

/-- A tick, or somebody goes on. -/
theorem Follows.kernel (h : Follows ys.kernel place) (hrun : KernelRun tr ys.kernel)
    (ha : a = .tick ∨ a = .resume) (hmove : SystemMove regions [entry] ys (.kernel a) sevs ys')
    (hn : created (tr ++ sevs.filterMap SystemEvent.kernelStep) ≤ maxProcs)
    (herr : ∀ t ∈ sevs.filterMap SystemEvent.kernelStep, ∀ r, .resumed 1 r ∈ t.events → r = err) :
    ∃ place', place.hear (kernelEvents sevs) = some place' ∧ Follows ys'.kernel place' := by
  obtain ⟨kevs, hstep, heq⟩ := hmove.kernel_step
  rw [heq] at hn herr
  rw [kernelEvents, heq, List.flatMap_singleton]
  exact h.step hrun hn hstep (fun _ => ha) (herr _ List.mem_cons_self)

/-- The server makes its next system call. -/
theorem Follows.uart {page : ProcPage} {behind : List Byte} {x : Uart} {uevs : List UartEvent}
    {c : Syscall} (hp : place.Quiet) (hrun : KernelRun tr ys.kernel)
    (hup : ys.kernel.up = some 1) (hc : ys.kernel.control = .user)
    (huart : Uart.run ⟨place, page, behind⟩ = .ok (x, uevs)) (hcall : callOf uevs = some c)
    (hwrite : SystemMove regions [entry] ys (.kernel (.write x.page)) sevs m)
    (hsys : SystemMove regions [entry] m (.kernel (.syscall c)) sevs' ys')
    (hn : created (tr ++ sevs.filterMap SystemEvent.kernelStep ++
      sevs'.filterMap SystemEvent.kernelStep) ≤ maxProcs) :
    ∃ place', x.place.hear (kernelEvents sevs ++ kernelEvents sevs') = some place' ∧
      Follows ys'.kernel place' := by
  obtain ⟨kevs₁, hstep₁, heq₁⟩ := hwrite.kernel_step
  obtain ⟨kevs₂, hstep₂, heq₂⟩ := hsys.kernel_step
  obtain ⟨hk, rfl⟩ := write_eq hup hc hstep₁
  have hupm : m.kernel.up = some 1 := by
    rw [hk]
    exact hup
  have hcm : m.kernel.control = .user := by
    rw [hk]
    exact hc
  have hevents : kernelEvents sevs ++ kernelEvents sevs' = kevs₂ := by
    rw [kernelEvents, kernelEvents, heq₁, heq₂, List.flatMap_singleton, List.flatMap_singleton,
      List.nil_append]
  rw [heq₁, heq₂, created_snoc] at hn
  obtain ⟨Q, hinv⟩ := (hrun.snoc hstep₁).inv (by omega)
  obtain ⟨-, Q', hinv'⟩ := step_move hinv (fun hcreates => by
    rw [hcreates, Bool.toNat_true] at hn
    omega) hstep₂
  have hlive := hinv.live_of_up hinv' (by omega) hupm
  simp only [Omb.step, hcm, hupm] at hstep₂
  rw [hevents]
  exact Follows.call hp huart hcall hinv hinv' hupm hlive hstep₂

end

/-- **A step of the board** keeps the kernel and the server in step, and nothing is printed. -/
theorem BoardMove.follows (h : BoardMove regions entry y act bevs y')
    (hrun : KernelRun tr y.system.kernel) (hn : created (tr ++ kernelStepsOf bevs) ≤ maxProcs)
    (herr : ∀ t ∈ kernelStepsOf bevs, ∀ r, .resumed 1 r ∈ t.events → r = err)
    (hf : Follows y.system.kernel y.uart.place) :
    Follows y'.system.kernel y'.uart.place ∧ ∀ c, .uart (.emit c) ∉ bevs := by
  obtain ⟨Q, hinv⟩ := hrun.inv ((created_le_append _ _).trans hn)
  cases h with
  | @system act sa evs y' hact _ hs hhear =>
      rw [kernelStepsOf_singleton] at hn herr
      have hmove := systemStep_move hs
      obtain ⟨place', hplace, hf'⟩ : ∃ place',
          y.uart.place.hear (kernelEvents evs) = some place' ∧
            Follows y'.system.kernel place' := by
        rcases hact with rfl | rfl | rfl
        · exact hf.proc0 hrun hmove hn herr
        · exact hf.kernel hrun (.inl rfl) hmove hn herr
        · exact hf.kernel hrun (.inr rfl) hmove hn herr
      obtain rfl := Option.some.inj (hplace.symm.trans hhear)
      exact ⟨hf', fun c hc => by simp at hc⟩
  | @call behind x uevs c m evs₁ evs₂ y' hup hc hrun' hcall hwrite hsys hhear =>
      have hp := hf.quiet hinv hup hc
      rw [kernelStepsOf_append_uart, kernelStepsOf_system, kernelStepsOf_singleton,
        ← List.append_assoc] at hn
      obtain ⟨place', hplace, hf'⟩ := Follows.uart hp hrun hup hc hrun' hcall
        (systemStep_move hwrite) (systemStep_move hsys) hn
      obtain rfl := Option.some.inj (hplace.symm.trans hhear)
      refine ⟨hf', fun c' hmem => ?_⟩
      have hemit : .emit c' ∈ uevs := by simpa using hmem
      exact hp.run hrun' c' hemit
  | @halted behind x uevs hup hc hrun' hcall =>
      have hp := hf.quiet hinv hup hc
      refine ⟨?_, fun c hmem => ?_⟩
      · rw [hp.spins hrun' hcall]
        exact hf
      · have hemit : .emit c ∈ uevs := by simpa using hmem
        exact hp.run hrun' c hemit

/-! ## Runs -/

theorem systemSteps_snoc (btr : List BoardStep) (t : BoardStep) :
    systemSteps (btr ++ [t]) = systemSteps btr ++ t.events.filterMap BoardEvent.systemStep := by
  simp [systemSteps]

theorem kernelSteps_systemSteps_snoc (btr : List BoardStep) (t : BoardStep) :
    kernelSteps (systemSteps (btr ++ [t])) =
      kernelSteps (systemSteps btr) ++ kernelStepsOf t.events := by
  rw [systemSteps_snoc, kernelSteps, List.flatMap_append]
  rfl

/-- What process 1 sends comes back with `ERR`. -/
theorem SystemRun.resume_err {ys : System} {str : List SystemStep}
    (h : SystemRun img regions [entry] str ys) (hprovided : Provided img regions [entry])
    (honly : ∀ t ∈ str, ByProc0Only t) (hboard : ∀ t ∈ kernelSteps str, OnBoard t) :
    ∀ r m, .resume 1 r m ∈ calls (kernelSteps str) → r = err := by
  have hn := h.created_le hprovided honly
  have hfresh := h.freshPages hprovided honly
  obtain ⟨o, ho⟩ := h.serving (A := fun _ r => r = err) (fun _ => rfl) hn hfresh
    (h.kernelRun.permits_err hn (h.kernelRun.coveredAccept hn hboard))
  refine h.kernelRun.resume_err hn hfresh ho.turn fun t ht hup pid hact => ?_
  rcases hboard t ht _ hact with ⟨hup', -⟩ | ⟨-, hof⟩
  · cases hup.symm.trans hup'
  · exact hof

namespace BoardRun

variable (h : BoardRun img regions entry btr y)

include h

/-- A run of the board is a run of the system. -/
theorem systemRun : SystemRun img regions [entry] (systemSteps btr) y.system := by
  obtain ⟨pages, mem, k₀, evs, page, behind, hk, hrun⟩ := h
  refine ⟨pages, mem, k₀, evs, hk, ?_⟩
  induction hrun with
  | nil => exact .nil
  | snoc _ hs ih =>
      rw [systemSteps_snoc]
      exact ih.append (boardStep_move hs).system_run

theorem moves : ∀ t ∈ btr, BoardMove regions entry t.pre t.act t.events t.post := by
  obtain ⟨pages, mem, k₀, evs, page, behind, hk, hrun⟩ := h
  exact hrun.forall_transition fun _ _ _ _ _ _ _ hs => boardStep_move hs

theorem onBoard : ∀ t ∈ kernelSteps (systemSteps btr), OnBoard t := by
  intro t ht
  obtain ⟨st, hst, hmem⟩ := List.mem_flatMap.mp ht
  obtain ⟨bt, hbt, hmem'⟩ := List.mem_flatMap.mp hst
  exact (h.moves bt hbt).onBoard t (List.mem_flatMap.mpr ⟨st, hmem', hmem⟩)

theorem byProc0Only : ∀ t ∈ systemSteps btr, ByProc0Only t := by
  intro t ht
  obtain ⟨bt, hbt, hmem⟩ := List.mem_flatMap.mp ht
  exact (h.moves bt hbt).byProc0Only t hmem

/-- The server's `send(0)` comes back with `ERR`. -/
theorem resume_err (hprovided : Provided img regions [entry]) :
    ∀ r m, .resume 1 r m ∈ calls (kernelSteps (systemSteps btr)) → r = err :=
  h.systemRun.resume_err hprovided h.byProc0Only h.onBoard

end BoardRun

theorem BoardRun.follows (h : BoardRun img regions entry btr y)
    (hprovided : Provided img regions [entry]) :
    Follows y.system.kernel y.uart.place ∧ ∀ t ∈ btr, ∀ c, .uart (.emit c) ∉ t.events := by
  obtain ⟨pages, mem, k₀, evs, page, behind, hk, hrun⟩ := h
  induction hrun with
  | nil =>
      obtain ⟨alive, nexts, hkmain, -⟩ := kmain_spec img pages mem
      rw [hkmain] at hk
      cases hk
      refine ⟨.unborn ?_ rfl, fun t ht => absurd ht List.not_mem_nil⟩
      rw [bootState_state]
      decide
  | @snoc btr y y' act bevs hrun hs ih =>
      have h : BoardRun img regions entry btr y := ⟨pages, mem, k₀, evs, page, behind, hk, hrun⟩
      have h' : BoardRun img regions entry (btr ++ [⟨y, act, bevs, y'⟩]) y' :=
        ⟨pages, mem, k₀, evs, page, behind, hk, hrun.snoc hs⟩
      have hn := h'.systemRun.created_le hprovided h'.byProc0Only
      have herr := h'.resume_err hprovided
      rw [kernelSteps_systemSteps_snoc] at hn herr
      have hresumed : ∀ t ∈ kernelStepsOf bevs, ∀ r, .resumed 1 r ∈ t.events → r = err := by
        intro t ht r hr
        obtain ⟨m, hm⟩ := resume_mem_calls hr (List.mem_append_right _ ht)
        exact herr r m hm
      obtain ⟨hf, hquiet⟩ := ih
      obtain ⟨hf', hquiet'⟩ :=
        (boardStep_move hs).follows h.systemRun.kernelRun hn hresumed hf
      refine ⟨hf', fun t ht => ?_⟩
      rcases List.mem_append.mp ht with ht | ht
      · exact hquiet t ht
      · obtain rfl := List.mem_singleton.mp ht
        exact hquiet'

/-- Boot of the example image with the server behind the first offset, and the given actions. -/
def exampleBoard (acts : List BoardAction) : Option (List BoardStep × Board) :=
  match kmain exampleImage (fun _ => .zero) (fun _ => 0) with
  | .error _ => none
  | .ok (k, _) =>
      match Machine.replay (boardStep (publishedRegions exampleSymbols) 0x100)
          ⟨⟨k, .boot⟩, ⟨.start, .zero, []⟩⟩ acts with
      | .error _ => none
      | .ok r => some r

/-- A concrete run found by evaluation. -/
theorem exists_exampleBoard (acts : List BoardAction) (P : List BoardStep → Board → Bool)
    (h : (exampleBoard acts).any (fun r => P r.1 r.2) = true) :
    ∃ btr y, BoardRun exampleImage (publishedRegions exampleSymbols) 0x100 btr y ∧
      P btr y = true := by
  rw [exampleBoard] at h
  split at h
  · cases h
  · rename_i k evs hk
    split at h
    · cases h
    · rename_i r hr
      exact ⟨r.1, r.2, ⟨_, _, k, evs, _, _, hk, .of_replay hr⟩, h⟩

/-- **Nothing is ever printed**, not even the greeting of the server: its request for the
registers is refused, and it stops in the loop behind its failed `send(0)`.  `hprovided` is
what the linker and the kernel promise to proc0; with no page for the server it would not be
made at all. -/
theorem board_never_prints (h : BoardRun img regions entry btr y)
    (hprovided : Provided img regions [entry]) :
    (∀ t ∈ btr, ∀ c, .uart (.emit c) ∉ t.events) ∧
      (y.uart.place.Quiet ∨ y.uart.place = .sending) := by
  obtain ⟨hf, hquiet⟩ := h.follows hprovided
  refine ⟨hquiet, ?_⟩
  cases hf with
  | unborn _ hp =>
      rw [hp]
      exact .inl trivial
  | alive _ hcode => exact hcode.quiet_or_sending

/-- The server gets its answer, and goes on into the loop behind its `send(0)`. -/
theorem board_never_prints_of_halted :
    ∃ btr y, BoardRun exampleImage (publishedRegions exampleSymbols) 0x100 btr y ∧
      btr.length = 16 ∧ y.uart.place = .halted ∧
      (∀ t ∈ btr, ∀ c, .uart (.emit c) ∉ t.events) ∧
      (y.uart.place.Quiet ∨ y.uart.place = .sending) := by
  obtain ⟨btr, y, hrun, h⟩ := exists_exampleBoard
    [.resume [], .proc0, .proc0, .proc0, .proc0, .resume [], .resume [], .proc0, .resume [],
      .uart [], .uart [], .uart [], .resume [], .proc0, .proc0, .resume []]
    (fun btr y => btr.length = 16 ∧ y.uart.place = .halted) (by decide +kernel)
  obtain ⟨hlen, hplace⟩ := of_decide_eq_true h
  exact ⟨btr, y, hrun, hlen, hplace, board_never_prints hrun provided_exampleImage⟩

end Omb
