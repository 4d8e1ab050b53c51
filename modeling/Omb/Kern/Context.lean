import Omb.Kern.Removal
import Omb.Kern.Stretch

/-!
# Saved contexts, with ticks inside `schedule`

`func_label` gives a new process a `psr` with interrupts enabled.  `proc_start`, the
`krecv` and `kreply` it calls, and the `schedule` these call then run with interrupts
enabled too, up to the load of a label that has them disabled.  Here this code is taken
apart into the steps a tick may come between (`Spot`): `proc_list_remove` access by access,
as in `Omb.Kern.Removal`, and of `set_label` and `goto_label` the two stores and the two
loads.  The handler of the tick, and what a trap out of user code runs, have interrupts
disabled and go on in the steps of `Omb.Kern.Machine`; with no tick inside, so do the steps
of a `schedule` here (`switch_run`).

A label has two halves, each stored and loaded at once.  The `psr` and `sp` say on whose
kernel stack the code goes on, and which kernel code the handler of a tick, when the label is
in one, goes back to: that is `SavedAt`.  The other registers, with the `lr` as `pc`, say where
it goes on: that is the `Label` of `Omb.Kern.Head`.  A label whose halves are of two different
calls of `set_label` leads to code on a stack it was not left on; what that does the machine
does not say, and no such label is loaded in the runs of the main result.

`schedule` sets `up` before `goto_label` loads the stack pointer, so a tick in between
saves the old process in the label of the new one (`label_on_other_stack`).  A tick between
the first store of `set_label` and the last load of `goto_label` has its handler store the
label once more, and the process, when it goes on, stores the other half of it over that, or
leaves without another store (`label_of_two_halves`).  In runs with no tick in the first place
and with no process going on from the second, every label belongs to its process
(`contexts_own`).  Both conditions are load-bearing: each of the two runs meets one of them.
-/

namespace Omb

/-! ## The machine -/

/-- Where kernel code that runs with interrupts enabled is: in front of which step, with the
locals that it has by then. -/
inductive Spot where
  /-- In `proc0_start`, at the call of `drop_to_user`. -/
  | proc0Start
  /-- In `proc_start`, in the `proc_list_remove` that its `krecv` calls. -/
  | removing (pt : RemovePoint)
  /-- Where that call has returned `w`. -/
  | take (w : ProcRef)
  /-- Where its message is copied. -/
  | setReply (w : ProcRef)
  /-- Where it has returned nil. -/
  | setRecv
  /-- Where `krecv` has returned `w`. -/
  | request (w : ProcRef)
  /-- At the call of `kreply(w, OK)`. -/
  | reply (w : ProcRef) (pc sp : Word)
  /-- In that call, where `w` has been found to wait for the reply. -/
  | deliver (w : ProcRef) (pc sp : Word)
  /-- At the call of `drop_to_user`. -/
  | drop (pc sp : Word)
  /-- At the start of `schedule(n)`, called where `k` is to go on. -/
  | enter (k : Label) (n : Option ProcRef)
  /-- In it, at `up->state = PROC_ready`. -/
  | setReady (k : Label) (n : Option ProcRef)
  /-- In `set_label(&up->label)`, at the store of `psr` and `sp`. -/
  | storeSp (k : Label) (n : Option ProcRef)
  /-- At the store of the other registers. -/
  | storeRegs (k : Label) (n : Option ProcRef)
  /-- Where `set_label` has returned 0. -/
  | pick (k : Label) (n : Option ProcRef)
  /-- Where `r` has been found to go on. -/
  | setUp (k : Label) (r : Option ProcRef)
  /-- Where `up` has been set. -/
  | setOncpu
  /-- In `goto_label`, at the load of `psr` and `sp`. -/
  | loadSp
  /-- At the load of the other registers; the label goes on with `k`, and `under` is what came
  with the `psr` and `sp`. -/
  | loadRegs (k : Label) (under : Option Spot)
  /-- Where a label that goes on with `k` has been loaded, with such a `psr` and `sp`. -/
  | loaded (k : Label) (under : Option Spot)

/-- What the `psr` and `sp` of a label say: on whose kernel stack the code goes on, and
whether it is the handler of a tick over other kernel code. -/
structure SavedAt where
  /-- The process whose `kstack` the stack pointer is in. -/
  stack : Option ProcRef
  /-- The kernel code that is interrupted, when the label is in the handler of a tick. -/
  under : Option Spot

/-- The kernel, and the CPU: on whose stack it is, which code it is in, and for each process
what its label says. -/
structure Switching where
  kernel : State
  /-- The process whose `kstack` the stack pointer is in. -/
  stack : Option ProcRef
  /-- Where the kernel code is, when it runs with interrupts enabled. -/
  spot : Option Spot
  saved : ProcRef → SavedAt
  /-- Ghost: where the code on the stack of `p` was left last, or how it starts. -/
  left : ProcRef → Label × Option Spot
  /-- Ghost: every store to `up->label`, as `up` and the stack the code was on. -/
  stored : List (ProcRef × Option ProcRef)

namespace Switching

variable (x : Switching)

/-- The code on the stack of the CPU is left, to go on at `k`.  This is where the process
would have to go on to lose nothing. -/
def leave (k : Label) (under : Option Spot) : ProcRef → Label × Option Spot :=
  match x.stack with
  | some o => Function.update x.left o (k, under)
  | none => x.left

/-- The `psr` and `sp` of `u`'s label are stored. -/
def setLabel (u : ProcRef) (under : Option Spot) : ProcRef → SavedAt :=
  Function.update x.saved u ⟨x.stack, under⟩

/-- `schedule` was called with interrupts disabled, by the handler of a tick over `under`
or by a system call, and left the kernel in `s`. -/
def switched (under : Option Spot) (s : State) : Switching :=
  match x.kernel.up with
  | none =>
      { x with
        kernel := s
        spot := none
        stack := s.up.elim x.stack fun q => (x.saved q).stack }
  | some u =>
      { kernel := s
        spot := none
        stack := s.up.elim x.stack fun q => (x.setLabel u under q).stack
        saved := x.setLabel u under
        left := x.leave (s.procs u).label under
        stored := x.stored ++ [(u, x.stack)] }

/-- A stretch of code with interrupts disabled has left the kernel in `s`. -/
def after (s : State) : Switching :=
  if s.control = .user then { x with kernel := s, spot := none }
  else x.switched none s

/-- `func_label`, for the process made in the slot. -/
def made : Option ProcRef → Switching
  | none => x
  | some p =>
      { x with
        saved := Function.update x.saved p ⟨some p, none⟩
        left := Function.update x.left p (.procStart, none) }

/-- `drop_to_user(.., up->kstack, KSTACK_LEN)`. -/
def dropToUser (u : ProcRef) (pc sp : Word) : Switching × List Event :=
  ({ x with
      kernel := { x.kernel with control := .user }
      stack := some u
      spot := none }, [.dropped u pc sp])

/-- The code goes on at another place. -/
def goto (s : State) (pt : Spot) : Switching :=
  { x with kernel := s, spot := some pt }

/-- Which code the CPU has loaded a label for, and not begun with. -/
def entering : Option (Label × Option Spot) :=
  match x.spot, x.kernel.control, x.kernel.up with
  | some (.loaded k under), _, _ => some (k, under)
  | none, .resume, some u => some ((x.kernel.procs u).label, (x.saved u).under)
  | _, _, _ => none

end Switching

/-- Where the code of a label goes on, when that is with interrupts enabled. -/
def Label.spot : Label → Option Spot → Option Spot
  | .trap, under => under
  | .procStart, _ => some (.removing (.load none))
  | .krecv _ .procStart, _ => some (.removing (.load none))
  | .kreply (.procStart pc sp), _ => some (.drop pc sp)
  | .proc0Start, _ => some .proc0Start
  | _, _ => none

/-- What the code of a label does next. -/
def enterCode (x : Switching) (u : ProcRef) (k : Label) (under : Option Spot) :
    Except Stuck (Switching × List Event) :=
  match k.spot under with
  | some pt => .ok (x.goto x.kernel pt, [])
  | none =>
      match resume x.kernel u k with
      | .error e => .error e
      | .ok (s, evs) => .ok (x.after s, evs)

/-- What `schedule(n)` sets `up` to. -/
def nextUp (s : State) : Option ProcRef → Except Stuck (Option ProcRef)
  | some q => .ok (some q)
  | none => nextProc s

/-- Where `krecv` is while `proc_list_remove` is at a point, or has returned. -/
def RemovePoint.spot : RemovePoint → Spot
  | .done none => .setRecv
  | .done (some w) => .take w
  | pt => .removing pt

/-- The next step of code that runs with interrupts enabled.  Each store to a label and each
load from one is a step of its own. -/
def spotStep (x : Switching) (u : ProcRef) : Spot → Except Stuck (Switching × List Event)
  | .proc0Start =>
      .ok (x.dropToUser u x.kernel.image.proc0TextStart
        (x.kernel.image.proc0StackPage + pageSize))
  | .removing pt =>
      match removePoint x.kernel u pidAll pt with
      | .error e => .error e
      | .ok (s, pt) => .ok (x.goto s pt.spot, [])
  | .take w =>
      .ok (x.goto (x.kernel.modifyPage (x.kernel.procs u).page fun g =>
        { g with mIn := (x.kernel.pageOf w).mOut }) (.setReply w), [])
  | .setReply w =>
      .ok (x.goto (x.kernel.modifyProc w fun q => { q with state := .reply }) (.request w),
        [.received u w])
  | .setRecv =>
      .ok (x.goto (x.kernel.modifyProc u fun q => { q with state := .recv })
        (.enter (.krecv pidAll .procStart) none), [])
  | .request w =>
      let req := (x.kernel.pageOf u).mIn
      .ok (x.goto x.kernel (.reply w (req.field 1) (req.field 2)), [])
  | .reply w pc sp =>
      if awaitsReply x.kernel u w then .ok (x.goto x.kernel (.deliver w pc sp), [])
      else .ok (x.goto x.kernel (.drop pc sp), [])
  | .deliver w pc sp =>
      .ok (x.goto (deliverReply x.kernel u w ok) (.enter (.kreply (.procStart pc sp)) (some w)),
        [.replied u w ok])
  | .drop pc sp => .ok (x.dropToUser u pc sp)
  | .enter k n =>
      .ok (x.goto x.kernel
        (if (x.kernel.procs u).state = .oncpu then .setReady k n else .storeSp k n),
        [.scheduled (n.map fun q => (q, (x.kernel.procs q).state))])
  | .setReady k n =>
      .ok (x.goto (x.kernel.modifyProc u fun q => { q with state := .ready }) (.storeSp k n), [])
  | .storeSp k n =>
      .ok ({ x with
        spot := some (.storeRegs k n)
        saved := x.setLabel u none
        stored := x.stored ++ [(u, x.stack)] }, [])
  | .storeRegs k n =>
      .ok ({ x with
        kernel := x.kernel.modifyProc u fun q => { q with label := k }
        spot := some (.pick k n)
        stored := x.stored ++ [(u, x.stack)] }, [])
  | .pick k n =>
      match nextUp x.kernel n with
      | .error e => .error e
      | .ok r => .ok (x.goto x.kernel (.setUp k r), [])
  | .setUp k (some q) =>
      .ok ({ x with
        kernel := { x.kernel with up := some q }
        spot := some .setOncpu
        left := x.leave k none }, [])
  | .setUp k none =>
      .ok ({ x with
        kernel := { x.kernel with up := none, control := .idle }
        spot := none
        left := x.leave k none }, [])
  | .setOncpu =>
      .ok (x.goto { x.kernel.modifyProc u (fun q => { q with state := .oncpu }) with
        control := .resume } .loadSp, [])
  | .loadSp =>
      .ok ({ x with
        stack := (x.saved u).stack
        spot := some (.loadRegs (x.kernel.procs u).label (x.saved u).under) }, [])
  | .loadRegs _ under =>
      .ok (x.goto x.kernel (.loaded (x.kernel.procs u).label under), [])
  | .loaded k under => enterCode x u k under

/-- A tick that interrupts the kernel code at `under`, user code or the idle loop.  It is
`schedule(nil)` on the same stack. -/
def tickOver (x : Switching) (under : Option Spot) : Except Stuck (Switching × List Event) :=
  match schedule x.kernel .trap none with
  | .error e => .error e
  | .ok (s, evs) => .ok (x.switched under s, evs)

/-- A step of code that runs with interrupts disabled, or of user code. -/
def maskedStep (x : Switching) (a : Action) : Except Stuck (Switching × List Event) :=
  match x.kernel.control, x.kernel.up, a with
  | .user, some u, .syscall c =>
      match syscall x.kernel u c with
      | .error e => .error e
      | .ok (s, evs) => .ok ((x.after s).made (c.makes x.kernel), evs)
  | .user, some u, .write page =>
      .ok ({ x with
        kernel := x.kernel.modifyPage (x.kernel.procs u).page fun _ => page }, [])
  | .user, some _, .tick => tickOver x none
  | .idle, none, .tick => tickOver x none
  | .resume, some u, .resume => enterCode x u (x.kernel.procs u).label (x.saved u).under
  | _, _, _ => .error .disabled

/-- One step.  Where kernel code is interruptible that is a step of it or a tick, and
otherwise a step of `Omb.Kern.Machine`. -/
def switchStep (x : Switching) (a : Action) : Except Stuck (Switching × List Event) :=
  match x.spot, x.kernel.up, a with
  | some pt, some u, .resume => spotStep x u pt
  | some pt, some _, .tick => tickOver x (some pt)
  | some _, _, _ => .error .disabled
  | none, _, a => maskedStep x a

/-- The machine when `kmain` has loaded the label of `proc0`. -/
def Switching.boot (s : State) : Switching where
  kernel := s
  stack := some 0
  spot := none
  saved := fun p => ⟨some p, none⟩
  left := fun p => ((s.procs p).label, none)
  stored := []

/-- A step of a run. -/
abbrev SwitchStep := Machine.Transition Switching Action Event

/-- A run of it from boot. -/
def SwitchRun (tr : List SwitchStep) (x : Switching) : Prop :=
  ∃ img pages mem s₀ evs, kmain img pages mem = .ok (s₀, evs) ∧
    Machine.Run switchStep (.boot s₀) tr x

/-! ## A switch without ticks -/

section

variable {x : Switching} {s : State} {u : ProcRef} {evs : List Event}

/-- `x'` is reached from `x` with no tick. -/
def Unticked (x x' : Switching) : Prop :=
  ∃ tr, Machine.Run switchStep x tr x' ∧ ∀ t ∈ tr, t.act = .resume

theorem Unticked.refl (x : Switching) : Unticked x x := ⟨[], .nil, by simp⟩

/-- One more step in front. -/
theorem Unticked.head {x' x'' : Switching} {pt : Spot} (hspot : x.spot = some pt)
    (hup : x.kernel.up = some u) (hs : spotStep x u pt = .ok (x', evs)) (h : Unticked x' x'') :
    Unticked x x'' := by
  obtain ⟨tr, hrun, hall⟩ := h
  have hstep : switchStep x .resume = .ok (x', evs) := by
    simp only [switchStep, hspot, hup, hs]
  refine ⟨_, Machine.Run.append (.snoc .nil hstep) hrun, fun t ht => ?_⟩
  rcases List.mem_append.mp ht with ht | ht
  · obtain rfl := List.mem_singleton.mp ht
    rfl
  · exact hall t ht

/-- `schedule` in its two halves. -/
theorem schedule_halves {k : Label} {n : Option ProcRef} {s₀ : State}
    (h : schedule s₀ k n = .ok (s, evs)) :
    ∃ r, nextUp (saveLabel s₀ k) n = .ok r ∧ s = switchTo (saveLabel s₀ k) r := by
  cases n with
  | some q =>
      cases h
      exact ⟨some q, rfl, rfl⟩
  | none =>
      unfold schedule at h
      simp only at h
      split at h
      · cases h
      · rename_i r hr
        cases h
        exact ⟨r, hr, rfl⟩

/-- Only what the change makes of the process matters. -/
theorem modifyProc_congr {s : State} {p : ProcRef} {f g : Proc → Proc}
    (h : f (s.procs p) = g (s.procs p)) : s.modifyProc p f = s.modifyProc p g := by
  rw [State.modifyProc, State.modifyProc, h]

/-- `saveLabel`, when the label is stored after the state. -/
theorem saveLabel_of_stores {s₀ : State} {k : Label} {f : Proc → Proc} (hup : s₀.up = some u)
    (h : ({ f (s₀.procs u) with label := k } : Proc) =
      { s₀.procs u with state := savedState (s₀.procs u).state, label := k }) :
    ((s₀.modifyProc u f).modifyProc u fun q => { q with label := k }) = saveLabel s₀ k := by
  have htwo : ((s₀.modifyProc u f).modifyProc u fun q => { q with label := k }) =
      s₀.modifyProc u fun q => { f q with label := k } := by
    simp [State.modifyProc]
  rw [htwo, saveLabel, hup]
  exact modifyProc_congr h

/-- `x` with the label of `u` stored, to go on at `pt`. -/
def Switching.labelled (x : Switching) (u : ProcRef) (k : Label) (pt : Spot) : Switching :=
  { x with
    kernel := saveLabel x.kernel k
    spot := some pt
    saved := x.setLabel u none
    stored := x.stored ++ [(u, x.stack)] ++ [(u, x.stack)] }

/-- The first half: the state and the label of `up` are stored. -/
theorem unticked_labelled {x' : Switching} {k : Label} {n : Option ProcRef}
    (hup : x.kernel.up = some u) (hspot : x.spot = some (.enter k n))
    (h : Unticked (x.labelled u k (.pick k n)) x') : Unticked x x' := by
  -- the two stores of `set_label`, whatever has become of the state
  have hstores : ∀ s₁ : State, s₁.up = some u →
      (s₁.modifyProc u fun q => { q with label := k }) = saveLabel x.kernel k →
      Unticked (x.goto s₁ (.storeSp k n)) x' := by
    intro s₁ hup₁ hsave
    refine .head rfl hup₁ rfl (.head rfl hup₁ rfl ?_)
    change Unticked { x with
      kernel := s₁.modifyProc u fun q => { q with label := k }
      spot := some (.pick k n)
      saved := x.setLabel u none
      stored := x.stored ++ [(u, x.stack)] ++ [(u, x.stack)] } x'
    rw [hsave]
    exact h
  refine .head hspot hup rfl ?_
  by_cases hst : (x.kernel.procs u).state = .oncpu
  · rw [if_pos hst]
    have hready := saveLabel_of_stores (k := k) (f := fun q => { q with state := .ready }) hup
      (by simp [savedState, hst])
    exact .head rfl hup rfl (hstores _ hup hready)
  · rw [if_neg hst]
    refine hstores _ hup ?_
    have hsame : (x.kernel.modifyProc u fun q => q) = x.kernel := by simp [State.modifyProc]
    rw [← saveLabel_of_stores (f := fun q => q) hup (by simp [savedState, hst]), hsame]

/-- The second half: `up` is set, and its label is loaded. -/
theorem unticked_switchTo {k : Label} {n r : Option ProcRef} (hup : x.kernel.up = some u)
    (hr : nextUp (saveLabel x.kernel k) n = .ok r) :
    Unticked (x.labelled u k (.pick k n))
      { x.labelled u k (.pick k n) with
        kernel := switchTo (saveLabel x.kernel k) r
        stack := r.elim x.stack fun q => (x.setLabel u none q).stack
        spot := r.map fun q =>
          .loaded ((switchTo (saveLabel x.kernel k) r).procs q).label (x.setLabel u none q).under
        left := x.leave k none } := by
  have hup' : (saveLabel x.kernel k).up = some u := by
    rw [saveLabel, hup]
    exact hup
  have hpick : spotStep (x.labelled u k (.pick k n)) u (.pick k n) =
      .ok (x.labelled u k (.setUp k r), []) := by
    simp only [spotStep, Switching.labelled, hr]
    rfl
  refine .head rfl hup' hpick ?_
  cases r with
  | none => exact .head rfl hup' rfl (.refl _)
  | some q => exact .head rfl hup' rfl (.head rfl rfl rfl (.head rfl rfl rfl (.head rfl rfl rfl
      (.refl _))))

/-- **Without a tick inside**, the steps of a `schedule` are one call of it. -/
theorem switch_run {k : Label} {n : Option ProcRef} (hup : x.kernel.up = some u)
    (hspot : x.spot = some (.enter k n)) (h : schedule x.kernel k n = .ok (s, evs)) :
    ∃ tr x', Machine.Run switchStep x tr x' ∧ (∀ t ∈ tr, t.act = .resume) ∧
      (s.up = none → x'.spot = none) ∧
      (∀ q, s.up = some q →
        x'.spot = some (.loaded (s.procs q).label ((x.switched none s).saved q).under)) ∧
      { x' with spot := none, stored := [] } = { x.switched none s with stored := [] } := by
  obtain ⟨r, hr, rfl⟩ := schedule_halves h
  obtain ⟨tr, hrun, hall⟩ := unticked_labelled hup hspot (unticked_switchTo hup hr)
  have hlabel : ((switchTo (saveLabel x.kernel k) r).procs u).label = k :=
    (x.kernel.switchFrom_label k r u).trans (if_pos hup)
  refine ⟨tr, _, hrun, hall, ?_, ?_, ?_⟩
  · intro hnone
    cases r with
    | none => rfl
    | some q => cases hnone
  · intro q hq
    cases r with
    | none => cases hq
    | some q' =>
        obtain rfl : q' = q := Option.some.inj hq
        simp only [Switching.switched, hup]
        rfl
  · simp only [Switching.switched, hup, hlabel]
    cases r <;> rfl

end

/-! ## The invariant -/

/-- In `schedule` between the first store of `set_label` and the last load of `goto_label`.  A
process that a tick has interrupted there must not go on. -/
def Spot.Torn : Spot → Prop
  | .storeRegs _ _ | .pick _ _ | .setUp _ _ | .setOncpu | .loadSp | .loadRegs _ _ => True
  | _ => False

instance : DecidablePred Spot.Torn := fun pt => by
  cases pt <;> unfold Spot.Torn <;> infer_instance

/-- The label `set_label` has stored, until `up` is set. -/
def Spot.labelStored : Spot → Option Label
  | .pick k _ | .setUp k _ => some k
  | _ => none

theorem Spot.torn_of_labelStored {pt : Spot} {k : Label} (h : pt.labelStored = some k) :
    pt.Torn := by
  cases pt with
  | pick | setUp => trivial
  | _ => cases h

namespace Switching

/-- `up` has been set, and its stack pointer is not loaded yet. -/
def InSwitch (x : Switching) : Prop :=
  x.spot = some .setOncpu ∨ x.spot = some .loadSp

/-- The label of `q` is on its own stack, where the code on that stack was left last, or
starts. -/
def Kept (x : Switching) (q : ProcRef) : Prop :=
  (x.kernel.procs q).label = (x.left q).1 ∧ x.saved q = ⟨some q, (x.left q).2⟩

/-- Labels belong to their processes.  The last parts are about a switch that is under way,
whose label is stored in halves. -/
structure Owned (x : Switching) : Prop where
  own : ∀ u, x.kernel.up = some u → ¬ x.InSwitch → x.stack = some u
  kept : ∀ q, x.kernel.up = none ∨ x.stack ≠ some q ∨ x.InSwitch → x.Kept q
  /-- After the first store of `set_label`. -/
  spStored : ∀ k n o, x.spot = some (.storeRegs k n) → x.stack = some o →
    x.saved o = ⟨some o, none⟩
  /-- After both. -/
  labelStored : ∀ pt k o, x.spot = some pt → pt.labelStored = some k → x.stack = some o →
    (x.kernel.procs o).label = k ∧ x.saved o = ⟨some o, none⟩
  /-- After the first load of `goto_label`. -/
  spLoaded : ∀ k under u, x.spot = some (.loadRegs k under) → x.kernel.up = some u →
    (x.kernel.procs u).label = k ∧ x.saved u = ⟨some u, under⟩
  stored : ∀ e ∈ x.stored, e.2 = some e.1

variable {x x' : Switching} {s : State} {u q : ProcRef} {evs : List Event}

theorem not_inSwitch (h : x.spot = none) : ¬ x.InSwitch := by
  rintro (hspot | hspot) <;> cases h.symm.trans hspot

theorem not_inSwitch_of_spot {pt : Spot} (h : x.spot = some pt) (hpt : ¬ pt.Torn) :
    ¬ x.InSwitch := by
  rintro (hspot | hspot) <;> cases h.symm.trans hspot <;> exact hpt trivial

/-- A store to the process's label on its own stack. -/
theorem Owned.stored_snoc (h : Owned x) (hstack : x.stack = some u) :
    ∀ e ∈ x.stored ++ [(u, x.stack)], e.2 = some e.1 := by
  rw [List.forall_mem_append, List.forall_mem_singleton]
  exact ⟨h.stored, hstack⟩

/-- Outside a switch only the first two matter. -/
theorem Owned.of_not_torn (hspot : ∀ pt, x.spot = some pt → ¬ pt.Torn)
    (hown : ∀ u, x.kernel.up = some u → x.stack = some u)
    (hkept : ∀ q, x.kernel.up = none ∨ x.stack ≠ some q → x.Kept q)
    (hstored : ∀ e ∈ x.stored, e.2 = some e.1) : Owned x where
  own := fun u hu _ => hown u hu
  kept := fun q hq => hkept q <| by
    rcases hq with hq | hq | hq | hq
    · exact .inl hq
    · exact .inr hq
    · exact absurd trivial (hspot _ hq)
    · exact absurd trivial (hspot _ hq)
  spStored := fun _ _ _ h => absurd trivial (hspot _ h)
  labelStored := fun _ _ _ h hk => absurd (Spot.torn_of_labelStored hk) (hspot _ h)
  spLoaded := fun _ _ _ h => absurd trivial (hspot _ h)
  stored := hstored

/-- Where no kernel code is interruptible, too. -/
theorem Owned.of_none (hspot : x.spot = none)
    (hown : ∀ u, x.kernel.up = some u → x.stack = some u)
    (hkept : ∀ q, x.kernel.up = none ∨ x.stack ≠ some q → x.Kept q)
    (hstored : ∀ e ∈ x.stored, e.2 = some e.1) : Owned x :=
  .of_not_torn (fun pt hpt => by cases hspot.symm.trans hpt) hown hkept hstored

/-- Code that touches no label. -/
theorem Owned.goto (h : Owned x) (hsw : ¬ x.InSwitch) (hup : s.up = x.kernel.up)
    (hlabel : ∀ p, (s.procs p).label = (x.kernel.procs p).label) {pt : Spot}
    (hpt : ¬ pt.Torn) : Owned (x.goto s pt) := by
  refine .of_not_torn (fun pt' hpt' => ?_) (fun v hv => h.own v (hup ▸ hv) hsw) (fun q hq => ?_)
    h.stored
  · obtain rfl := Option.some.inj hpt'
    exact hpt
  · have hold : x.Kept q := by
      refine h.kept q ?_
      rw [← hup]
      exact hq.imp_right .inl
    exact ⟨(hlabel q).trans hold.1, hold.2⟩

/-- The other processes, while `u` is on its own stack. -/
theorem Owned.kept_of_ne (h : Owned x) (hstack : x.stack = some u) (hq : q ≠ u) : x.Kept q := by
  refine h.kept q (.inr (.inl ?_))
  rw [hstack]
  exact fun heq => hq (Option.some.inj heq).symm

/-- Where `u` is on its own stack, it is not one of the others. -/
theorem ne_of_running (hq : x.kernel.up = none ∨ x.stack ≠ some q ∨ x.InSwitch)
    (hup : x.kernel.up = some u) (hstack : x.stack = some u) (hsw : ¬ x.InSwitch) : q ≠ u := by
  rintro rfl
  rcases hq with hq | hq | hq
  · cases hup.symm.trans hq
  · exact hq hstack
  · exact hsw hq

/-- The code of `u` is left at its label, and the others stay where they are. -/
theorem kept_leave {label : ProcRef → Label} {saved : ProcRef → SavedAt} {under : Option Spot}
    {k : Label} (hstack : x.stack = some u) (hu : label u = k ∧ saved u = ⟨some u, under⟩)
    (hne : ∀ q, q ≠ u → label q = (x.left q).1 ∧ saved q = ⟨some q, (x.left q).2⟩) (q : ProcRef) :
    label q = (x.leave k under q).1 ∧ saved q = ⟨some q, (x.leave k under q).2⟩ := by
  simp only [leave, hstack]
  by_cases hq : q = u
  · subst hq
    rw [Function.update_self]
    exact hu
  · rw [Function.update_of_ne hq]
    exact hne q hq

/-- **A switch** away from code on the stack of `up`: every label is then kept. -/
theorem Owned.switched (h : Owned x) (hsw : ¬ x.InSwitch) (under : Option Spot)
    (hlabel : ∀ p, x.kernel.up ≠ some p → (s.procs p).label = (x.kernel.procs p).label) :
    Owned (x.switched under s) := by
  cases hup : x.kernel.up with
  | none =>
      have hkept : ∀ q, (s.procs q).label = (x.left q).1 ∧
          x.saved q = ⟨some q, (x.left q).2⟩ := fun q =>
        ⟨(hlabel q (by simp [hup])).trans (h.kept q (.inl hup)).1, (h.kept q (.inl hup)).2⟩
      simp only [Switching.switched, hup]
      refine .of_none rfl (fun v hv => ?_) (fun q _ => hkept q) h.stored
      change s.up.elim x.stack (fun q => (x.saved q).stack) = some v
      rw [show s.up = some v from hv, Option.elim_some, (hkept v).2]
  | some u =>
      have hstack := h.own u hup hsw
      have hkept : ∀ q, (s.procs q).label = (x.leave (s.procs u).label under q).1 ∧
          x.setLabel u under q = ⟨some q, (x.leave (s.procs u).label under q).2⟩ := by
        refine kept_leave hstack ⟨rfl, ?_⟩ fun q hq => ?_
        · rw [setLabel, Function.update_self, hstack]
        · have hold := h.kept_of_ne hstack hq
          rw [setLabel, Function.update_of_ne hq]
          exact ⟨(hlabel q (by simpa [hup] using hq.symm)).trans hold.1, hold.2⟩
      simp only [Switching.switched, hup]
      refine .of_none rfl (fun v hv => ?_) (fun q _ => hkept q) fun e he => ?_
      · change s.up.elim x.stack (fun q => (x.setLabel u under q).stack) = some v
        rw [show s.up = some v from hv, Option.elim_some, (hkept v).2]
      · exact h.stored_snoc hstack e he

/-- **A stretch of masked code**, which may have made a process. -/
theorem Owned.after (h : Owned x) (hsw : ¬ x.InSwitch) (hup : x.kernel.up = some u)
    {K : Label → Prop} {m : Option ProcRef} (hst : Stretch K m x.kernel s) :
    Owned ((x.after s).made m) := by
  unfold Switching.after
  split_ifs with hc
  · have hstack := h.own u hup hsw
    have hup' : s.up = some u := (hst.user hc).trans hup
    have hown : ∀ v, s.up = some v → x.stack = some v := fun v hv =>
      hstack.trans (hup'.symm.trans hv)
    have hother : ∀ q, s.up = none ∨ x.stack ≠ some q → x.kernel.up ≠ some q ∧ x.Kept q := by
      intro q hq
      have hne : x.stack ≠ some q := hq.resolve_left (by simp [hup'])
      exact ⟨by rwa [hup, ← hstack], h.kept q (.inr (.inl hne))⟩
    cases m with
    | none =>
        refine .of_none rfl hown (fun q hq => ?_) h.stored
        obtain ⟨hne, hold⟩ := hother q hq
        exact ⟨(hst.label hne (by simp)).trans hold.1, hold.2⟩
    | some p =>
        refine .of_none rfl hown (fun q hq => ?_) h.stored
        obtain ⟨hne, hold⟩ := hother q hq
        by_cases hqp : q = p
        · subst hqp
          exact ⟨by simpa [Switching.made] using (hst.made q rfl).1.label,
            by simp [Switching.made]⟩
        · have hlabel := hst.label hne fun heq => hqp (Option.some.inj heq).symm
          simp only [Kept, Switching.made, Function.update_of_ne hqp]
          exact ⟨hlabel.trans hold.1, hold.2⟩
  · cases m with
    | none => exact h.switched hsw none fun p hp => hst.label hp (by simp)
    | some p => exact absurd (hst.made p rfl).2 hc

end Switching

/-! ## Steps -/

variable {x x' : Switching} {s : State} {u : ProcRef} {evs : List Event}

open Switching

theorem Label.spot_of_first {k : Label} (h : k.FirstReceive) (under : Option Spot) :
    k.spot under = some (.removing (.load none)) := by
  cases k with
  | procStart => rfl
  | krecv pid caller =>
      cases caller with
      | procStart => rfl
      | sysRecv => cases h
  | _ => cases h

/-- Only a handler of a tick can go on in the middle of a switch. -/
theorem Label.torn_of_spot {k : Label} {under : Option Spot} {pt : Spot}
    (h : k.spot under = some pt) (hpt : pt.Torn) : k = .trap ∧ under = some pt := by
  cases k with
  | trap => exact ⟨rfl, h⟩
  | procStart | proc0Start =>
      cases h
      cases hpt
  | krecv pid caller =>
      cases caller with
      | procStart =>
          cases h
          cases hpt
      | sysRecv => cases h
  | kreply caller =>
      cases caller with
      | procStart pc sp =>
          cases h
          cases hpt
      | sysReply => cases h
  | unset | ksend | kreplyRecv pid => cases h

theorem Switching.Owned.enterCode (h : Owned x) (hsw : ¬ x.InSwitch) (hup : x.kernel.up = some u)
    {k : Label} {under : Option Spot} (htorn : ∀ pt, k = .trap → under = some pt → ¬ pt.Torn)
    (hs : Omb.enterCode x u k under = .ok (x', evs)) : Owned x' := by
  unfold Omb.enterCode at hs
  split at hs
  · rename_i pt hspot
    cases hs
    refine h.goto hsw rfl (fun _ => rfl) fun hpt => ?_
    obtain ⟨hk, hunder⟩ := Label.torn_of_spot hspot hpt
    exact htorn pt hk hunder hpt
  · rename_i hspot
    split at hs
    · cases hs
    · rename_i s evs' hresume
      cases hs
      have hfirst : ¬ k.FirstReceive := fun hfirst => by
        rw [Label.spot_of_first hfirst under] at hspot
        cases hspot
      exact h.after hsw hup (resume_stretch hup hfirst hresume)

theorem Switching.Owned.tickOver (h : Owned x) (hsw : ¬ x.InSwitch) {under : Option Spot}
    (hs : Omb.tickOver x under = .ok (x', evs)) : Owned x' := by
  unfold Omb.tickOver at hs
  split at hs
  · cases hs
  · rename_i s evs' hsched
    cases hs
    obtain ⟨r, rfl, -⟩ := schedule_eq hsched
    exact h.switched hsw under fun p hp => by rw [State.switchFrom_label, if_neg hp]

theorem Switching.Owned.dropToUser (h : Owned x) (hsw : ¬ x.InSwitch)
    (hup : x.kernel.up = some u) (pc sp : Word) : Owned (x.dropToUser u pc sp).1 := by
  have hstack := h.own u hup hsw
  refine .of_none rfl (fun v hv => ?_) (fun q hq => ?_) h.stored
  · exact hup.symm.trans hv
  · refine h.kept q ?_
    rcases hq with hq | hq
    · exact .inl hq
    · exact .inr (.inl (by rwa [hstack]))

/-- Kernel code that writes no label and does not leave the stack. -/
def Spot.Plain : Spot → Prop
  | .removing _ | .take _ | .setReply _ | .setRecv | .request _ | .reply _ _ _ | .deliver _ _ _
  | .enter _ _ | .setReady _ _ => True
  | _ => False

/-- A step that changes the kernel state, but no label and not `up`, and goes on at a next
spot outside a switch. -/
def Switching.KeepsLabels (x x' : Switching) : Prop :=
  ∃ s pt, x' = x.goto s pt ∧ s.up = x.kernel.up ∧
    (∀ p, (s.procs p).label = (x.kernel.procs p).label) ∧ ¬ pt.Torn

theorem Switching.KeepsLabels.of_ok {pt : Spot} {evs' : List Event}
    (hs : Except.ok (ε := Stuck) (x.goto s pt, evs') = .ok (x', evs))
    (hup : s.up = x.kernel.up) (hlabel : ∀ p, (s.procs p).label = (x.kernel.procs p).label)
    (hpt : ¬ pt.Torn) : x.KeepsLabels x' := by
  obtain ⟨rfl, -⟩ := Prod.mk.inj (Except.ok.inj hs)
  exact ⟨s, pt, rfl, hup, hlabel, hpt⟩

/-- `proc_list_remove` touches list pointers only. -/
theorem removePoint_keeps {s₀ : State} {pid : Word} {pt pt' : RemovePoint}
    (h : removePoint s₀ u pid pt = .ok (s, pt')) :
    s.up = s₀.up ∧ ∀ p, (s.procs p).label = (s₀.procs p).label := by
  -- one access stores to a link, and one to a node
  have hlink : ∀ l v, (s₀.setLink u l v).up = s₀.up ∧
      ∀ p, ((s₀.setLink u l v).procs p).label = (s₀.procs p).label := by
    intro l v
    cases l with
    | none =>
        exact ⟨rfl, State.modifyProc_field (p := u) (f := fun q => { q with waiting := v })
          (·.label) rfl⟩
    | some j => exact ⟨rfl, fun _ => rfl⟩
  cases pt with
  | load | compare | test | advance =>
      simp only [removePoint] at h
      split at h <;> cases h
      all_goals exact ⟨rfl, fun _ => rfl⟩
  | proc | next | take | clear =>
      cases h
      exact ⟨rfl, fun _ => rfl⟩
  | cas l n v =>
      rw [removePoint] at h
      split at h <;> cases h
      · exact hlink l v
      · exact ⟨rfl, fun _ => rfl⟩
  | done => cases h

theorem RemovePoint.not_torn_spot (pt : RemovePoint) : ¬ pt.spot.Torn := by
  cases pt with
  | done p => cases p <;> exact id
  | _ => exact id

/-- **What a step of plain code can do.** -/
theorem spotStep_plain {pt : Spot} (hpt : pt.Plain) (hs : spotStep x u pt = .ok (x', evs)) :
    x.KeepsLabels x' := by
  cases pt with
  | removing pt =>
      rw [Omb.spotStep] at hs
      split at hs
      · cases hs
      · rename_i hremove
        obtain ⟨hup, hlabel⟩ := removePoint_keeps hremove
        exact .of_ok hs hup hlabel (RemovePoint.not_torn_spot _)
  | take w => exact .of_ok hs rfl (fun _ => rfl) id
  | setReply w => exact .of_ok hs rfl (State.modifyProc_field (·.label) rfl) id
  | setRecv => exact .of_ok hs rfl (State.modifyProc_field (·.label) rfl) id
  | request w => exact .of_ok hs rfl (fun _ => rfl) id
  | reply w pc sp =>
      rw [Omb.spotStep] at hs
      split_ifs at hs
      · exact .of_ok hs rfl (fun _ => rfl) id
      · exact .of_ok hs rfl (fun _ => rfl) id
  | deliver w pc sp => exact .of_ok hs rfl (fun _ => rfl) id
  | enter k n =>
      refine .of_ok hs rfl (fun _ => rfl) ?_
      split_ifs <;> exact id
  | setReady k n => exact .of_ok hs rfl (State.modifyProc_field (·.label) rfl) id
  | _ => exact absurd hpt id

namespace Switching.Owned

theorem keepsLabels (h : Owned x) (hsw : ¬ x.InSwitch) (hx : x.KeepsLabels x') : Owned x' := by
  obtain ⟨s, pt, rfl, hup, hlabel, hpt⟩ := hx
  exact h.goto hsw hup hlabel hpt

/-! ### The two stores of `set_label` -/

theorem storeSp (h : Owned x) (hup : x.kernel.up = some u) {k : Label} {n : Option ProcRef}
    (hspot : x.spot = some (.storeSp k n))
    (hs : Omb.spotStep x u (.storeSp k n) = .ok (x', evs)) : Owned x' := by
  obtain ⟨rfl, -⟩ := Prod.mk.inj (Except.ok.inj hs)
  have hsw := not_inSwitch_of_spot hspot id
  have hstack := h.own u hup hsw
  refine ⟨fun v hv _ => h.own v hv hsw, fun q hq => ?_, fun k' n' o _ ho => ?_,
    fun pt k' o hpt hk _ => (by cases hpt; cases hk), fun k' under v hpt => (by cases hpt),
    h.stored_snoc hstack⟩
  · have hqu := ne_of_running hq hup hstack (by rintro (hpt | hpt) <;> cases hpt)
    simp only [Kept, Switching.setLabel, Function.update_of_ne hqu]
    exact h.kept_of_ne hstack hqu
  · obtain rfl := Option.some.inj (hstack.symm.trans ho)
    simp [Switching.setLabel, hstack]

theorem storeRegs (h : Owned x) (hup : x.kernel.up = some u) {k : Label} {n : Option ProcRef}
    (hspot : x.spot = some (.storeRegs k n))
    (hs : Omb.spotStep x u (.storeRegs k n) = .ok (x', evs)) : Owned x' := by
  obtain ⟨rfl, -⟩ := Prod.mk.inj (Except.ok.inj hs)
  have hsw : ¬ x.InSwitch := by
    rintro (heq | heq) <;> cases hspot.symm.trans heq
  have hstack := h.own u hup hsw
  refine ⟨fun v hv _ => h.own v hv hsw, fun q hq => ?_, fun k' n' o hpt => (by cases hpt),
    fun pt k' o hpt hk ho => ?_, fun k' under v hpt => (by cases hpt), h.stored_snoc hstack⟩
  · have hqu := ne_of_running hq hup hstack (by rintro (hpt | hpt) <;> cases hpt)
    simp only [Kept, State.modifyProc_procs_of_ne hqu]
    exact h.kept_of_ne hstack hqu
  · cases hpt
    cases hk
    obtain rfl := Option.some.inj (hstack.symm.trans ho)
    exact ⟨by simp, h.spStored k n u hspot hstack⟩

/-! ### Between them and the loads -/

theorem pick (h : Owned x) (hup : x.kernel.up = some u) {k : Label} {n : Option ProcRef}
    (hspot : x.spot = some (.pick k n))
    (hs : Omb.spotStep x u (.pick k n) = .ok (x', evs)) : Owned x' := by
  have hsw : ¬ x.InSwitch := by
    rintro (heq | heq) <;> cases hspot.symm.trans heq
  have hstack := h.own u hup hsw
  rw [Omb.spotStep] at hs
  split at hs
  · cases hs
  · obtain ⟨rfl, -⟩ := Prod.mk.inj (Except.ok.inj hs)
    refine ⟨fun v hv _ => h.own v hv hsw, fun q hq => ?_, fun k' n' o hpt => (by cases hpt),
      fun pt k' o hpt hk ho => ?_, fun k' under v hpt => (by cases hpt), h.stored⟩
    · have hqu := ne_of_running hq hup hstack (by rintro (hpt | hpt) <;> cases hpt)
      exact h.kept_of_ne hstack hqu
    · cases hpt
      cases hk
      exact h.labelStored _ k o hspot rfl ho

/-- What `set_label` has stored is where the code is left. -/
theorem kept_leave_setUp (h : Owned x) (hup : x.kernel.up = some u) {k : Label}
    {r : Option ProcRef} (hspot : x.spot = some (.setUp k r)) (q : ProcRef) :
    (x.kernel.procs q).label = (x.leave k none q).1 ∧
      x.saved q = ⟨some q, (x.leave k none q).2⟩ := by
  have hsw : ¬ x.InSwitch := by
    rintro (heq | heq) <;> cases hspot.symm.trans heq
  have hstack := h.own u hup hsw
  have hkept : ∀ q, (fun q => (x.kernel.procs q).label) q = (x.leave k none q).1 ∧
      x.saved q = ⟨some q, (x.leave k none q).2⟩ :=
    kept_leave hstack (h.labelStored _ k u hspot rfl hstack) fun q hq => h.kept_of_ne hstack hq
  exact hkept q

theorem setUp (h : Owned x) (hup : x.kernel.up = some u) {k : Label} {r : Option ProcRef}
    (hspot : x.spot = some (.setUp k r))
    (hs : Omb.spotStep x u (.setUp k r) = .ok (x', evs)) : Owned x' := by
  have hkept := h.kept_leave_setUp hup hspot
  cases r with
  | some q =>
      obtain ⟨rfl, -⟩ := Prod.mk.inj (Except.ok.inj hs)
      exact ⟨fun v _ hnot => absurd (.inl rfl) hnot, fun q _ => hkept q,
        fun k' n' o hpt => (by cases hpt), fun pt k' o hpt hk _ => (by cases hpt; cases hk),
        fun k' under v hpt => (by cases hpt), h.stored⟩
  | none =>
      obtain ⟨rfl, -⟩ := Prod.mk.inj (Except.ok.inj hs)
      exact .of_none rfl (fun v hv => by cases hv) (fun q _ => hkept q) h.stored

theorem setOncpu (h : Owned x) (hspot : x.spot = some .setOncpu)
    (hs : Omb.spotStep x u .setOncpu = .ok (x', evs)) : Owned x' := by
  obtain ⟨rfl, -⟩ := Prod.mk.inj (Except.ok.inj hs)
  refine ⟨fun v _ hnot => absurd (.inr rfl) hnot, fun q _ => ?_, fun k n o hpt => (by cases hpt),
    fun pt k o hpt hk _ => (by cases hpt; cases hk), fun k under v hpt => (by cases hpt),
    h.stored⟩
  obtain ⟨hlabel, hsaved⟩ := h.kept q (.inr (.inr (.inl hspot)))
  refine ⟨Eq.trans ?_ hlabel, hsaved⟩
  exact State.modifyProc_field (p := u) (f := fun r => { r with state := .oncpu }) (·.label) rfl q

/-! ### The two loads of `goto_label` -/

theorem loadSp (h : Owned x) (hup : x.kernel.up = some u) (hspot : x.spot = some .loadSp)
    (hs : Omb.spotStep x u .loadSp = .ok (x', evs)) : Owned x' := by
  obtain ⟨rfl, -⟩ := Prod.mk.inj (Except.ok.inj hs)
  have hkept : ∀ q, x.Kept q := fun q => h.kept q (.inr (.inr (.inr hspot)))
  refine ⟨fun v hv _ => ?_, fun q _ => hkept q, fun k n o hpt => (by cases hpt),
    fun pt k o hpt hk _ => (by cases hpt; cases hk), fun k under v hpt hv => ?_, h.stored⟩
  · obtain rfl := Option.some.inj (hup.symm.trans hv)
    exact congrArg SavedAt.stack (hkept u).2
  · obtain rfl := Option.some.inj (hup.symm.trans hv)
    cases hpt
    refine ⟨rfl, ?_⟩
    change x.saved u = ⟨some u, (x.saved u).under⟩
    rw [(hkept u).2]

theorem loadRegs (h : Owned x) {k : Label} {under : Option Spot}
    (hspot : x.spot = some (.loadRegs k under))
    (hs : Omb.spotStep x u (.loadRegs k under) = .ok (x', evs)) : Owned x' := by
  obtain ⟨rfl, -⟩ := Prod.mk.inj (Except.ok.inj hs)
  have hsw : ¬ x.InSwitch := by
    rintro (heq | heq) <;> cases hspot.symm.trans heq
  exact h.goto hsw rfl (fun _ => rfl) id

/-- **A step of interruptible code.** -/
theorem spotStep (h : Owned x) (hup : x.kernel.up = some u) {pt : Spot}
    (hspot : x.spot = some pt)
    (htorn : ∀ k under pt', pt = .loaded k under → k = .trap → under = some pt' → ¬ pt'.Torn)
    (hs : Omb.spotStep x u pt = .ok (x', evs)) : Owned x' := by
  have hsw : ¬ pt.Torn → ¬ x.InSwitch := not_inSwitch_of_spot hspot
  cases pt with
  | proc0Start =>
      obtain rfl := congrArg Prod.fst (Except.ok.inj hs)
      exact h.dropToUser (hsw id) hup _ _
  | drop pc sp =>
      obtain rfl := congrArg Prod.fst (Except.ok.inj hs)
      exact h.dropToUser (hsw id) hup _ _
  | storeSp k n => exact h.storeSp hup hspot hs
  | storeRegs k n => exact h.storeRegs hup hspot hs
  | pick k n => exact h.pick hup hspot hs
  | setUp k r => exact h.setUp hup hspot hs
  | setOncpu => exact h.setOncpu hspot hs
  | loadSp => exact h.loadSp hup hspot hs
  | loadRegs k under => exact h.loadRegs hspot hs
  | loaded k under => exact h.enterCode (hsw id) hup (fun pt' => htorn k under pt' rfl) hs
  | _ =>
      refine h.keepsLabels (hsw id) (spotStep_plain ?_ hs)
      trivial

end Switching.Owned

theorem Switching.Owned.maskedStep (h : Owned x) (hspot : x.spot = none) {a : Action}
    (htorn : ∀ u pt, x.kernel.control = .resume → x.kernel.up = some u → a = .resume →
      (x.kernel.procs u).label = .trap → (x.saved u).under = some pt → ¬ pt.Torn)
    (hs : Omb.maskedStep x a = .ok (x', evs)) : Owned x' := by
  have hsw := not_inSwitch hspot
  unfold Omb.maskedStep at hs
  split at hs
  · rename_i u c hc hup
    split at hs
    · cases hs
    · rename_i s evs' hcall
      cases hs
      exact h.after hsw hup (syscall_stretch hup hcall)
  · cases hs
    refine .of_none hspot (fun v hv => h.own v hv hsw) (fun q hq => ?_) h.stored
    exact h.kept q (hq.imp_right .inl)
  · exact h.tickOver hsw hs
  · exact h.tickOver hsw hs
  · rename_i hc hup
    exact h.enterCode hsw hup (fun pt hk hunder => htorn _ pt hc hup rfl hk hunder) hs
  · cases hs

/-- No tick comes where `up` has been set and `sp` not been loaded, and no process goes on
that a tick has interrupted between the first store of `set_label` and the last load of
`goto_label`.  Both are told from the state before the step. -/
def SwitchWhole (t : SwitchStep) : Prop :=
  (t.act = .tick → ¬ t.pre.InSwitch) ∧
    (t.act = .resume → ∀ pt, t.pre.entering = some (.trap, some pt) → ¬ pt.Torn)

/-- **One step keeps the invariant**, when it does not tear a switch. -/
theorem Switching.Owned.step (h : Owned x) {a : Action} (hs : switchStep x a = .ok (x', evs))
    (hwhole : SwitchWhole ⟨x, a, evs, x'⟩) : Owned x' := by
  unfold switchStep at hs
  split at hs
  · rename_i pt u hspot hup
    refine h.spotStep hup hspot (fun k under pt' hpt hk hunder => ?_) hs
    subst hpt
    refine hwhole.2 rfl pt' ?_
    rw [entering, hspot, hk, hunder]
  · exact h.tickOver (hwhole.1 rfl) hs
  · cases hs
  · rename_i hspot
    refine h.maskedStep hspot (fun u pt hc hup ha hk hunder => ?_) hs
    refine hwhole.2 ha pt ?_
    simp only [entering, hspot, hc, hup, hk, hunder]

/-! ## Runs -/

/-- A saved context belongs to its process: every store to a label was of a process on its own
stack, and a process that is not running goes on where it was left last. -/
structure ContextsOwn (x : Switching) : Prop where
  /-- Every store of `set_label(&up->label)` was made on the stack of `up`. -/
  stored : ∀ e ∈ x.stored, e.2 = some e.1
  /-- The label of a process that is not executing is on the process' own stack, where the
  code on that stack was left last, or where it starts. -/
  kept : ∀ q, x.kernel.up = none ∨ x.stack ≠ some q → x.Kept q
  /-- `goto_label` loads one label, of the process that goes on. -/
  resumes : ∀ k under q, x.spot = some (.loadRegs k under) → x.kernel.up = some q →
    x.stack = some q ∧ (x.kernel.procs q).label = k ∧ x.saved q = ⟨some q, under⟩
  /-- After it the CPU is on the stack of `up`. -/
  running : ∀ q, x.spot = none → x.kernel.up = some q → x.stack = some q

theorem Switching.Owned.contextsOwn (h : Owned x) : ContextsOwn x where
  stored := h.stored
  kept := fun q hq => h.kept q (hq.imp_right .inl)
  resumes := fun k under q hspot hup =>
    ⟨h.own q hup (by rintro (heq | heq) <;> cases hspot.symm.trans heq),
      h.spLoaded k under q hspot hup⟩
  running := fun q hspot hup => h.own q hup (not_inSwitch hspot)

theorem Switching.Owned.boot {img : Image} {pages : Word → ProcPage} {mem : Mem}
    (h : kmain img pages mem = .ok (s, evs)) : Owned (.boot s) := by
  obtain ⟨-, hup, -⟩ := kmain_state h
  refine .of_none rfl (fun u hu => hup.symm.trans hu) (fun q _ => ⟨rfl, rfl⟩) fun e he => ?_
  cases he

/-- **A saved context belongs to its process**, in every run in which no switch is torn.
Nothing is asked of the queues or of the number of processes: a slot that is used twice gets a
new context, which belongs to the new process. -/
theorem contexts_own {tr : List SwitchStep} (h : SwitchRun tr x)
    (hwhole : ∀ t ∈ tr, SwitchWhole t) : ContextsOwn x := by
  obtain ⟨img, pages, mem, s₀, evs₀, hk, hrun⟩ := h
  have hinv : Owned x := by
    refine Machine.Run.invariant (P := fun _ => Owned) (.boot hk) ?_ hrun hwhole
    intro tr y a y' evs _ hy hwhole hs
    exact hy.step hs hwhole
  exact hinv.contextsOwn

/-! ## Two runs -/

/-- Boot, then the given actions. -/
def switchRun (acts : List Action) : Except Stuck (List SwitchStep × Switching) :=
  match exampleRun [] with
  | .error e => .error e
  | .ok (_, s) => Machine.replay switchStep (.boot s) acts

theorem SwitchRun.of_switchRun {acts : List Action} {tr : List SwitchStep}
    (h : switchRun acts = .ok (tr, x)) : SwitchRun tr x := by
  unfold switchRun at h
  split at h
  · cases h
  · rename_i tr₀ s₀ hboot
    obtain ⟨img, pages, mem, evs, hk⟩ := kmain_of_exampleRun hboot
    exact ⟨img, pages, mem, s₀, evs, hk, .of_replay h⟩

theorem exists_switchRun (acts : List Action) (P : List SwitchStep → Switching → Bool)
    (h : (match switchRun acts with
      | .ok (tr, x) => P tr x
      | .error _ => false) = true) :
    ∃ tr x, SwitchRun tr x ∧ P tr x = true := by
  split at h
  · rename_i tr x hrun
    exact ⟨tr, x, .of_switchRun hrun, h⟩
  · cases h

/-- `proc0` makes process 1, which finds its list empty and calls `schedule`.  A tick comes
when that has set `up` to `proc0`. -/
def tornActs : List Action :=
  [.resume, .resume, .syscall (.procCreate 0x10000 0x11000), .tick, .resume, .resume, .resume,
    .resume, .resume, .resume, .resume, .resume, .tick]

/-- The tick saves process 1 in the label of `proc0`. -/
theorem label_on_other_stack :
    ∃ tr x, SwitchRun tr x ∧ (0, some 1) ∈ x.stored ∧ ¬ ContextsOwn x := by
  obtain ⟨tr, x, hrun, hP⟩ := exists_switchRun tornActs
    (fun _ x => (0, some 1) ∈ x.stored) (by decide +kernel)
  have hmem := of_decide_eq_true hP
  refine ⟨tr, x, hrun, hmem, fun hown => ?_⟩
  exact absurd (hown.stored _ hmem) (by decide)

def Action.isTick : Action → Bool
  | .tick => true
  | _ => false

/-- Between the setting of `up` and the load of `sp`. -/
def Spot.inSwitch : Spot → Bool
  | .setOncpu | .loadSp => true
  | _ => false

/-- The same, with the tick between the two stores of `set_label`. -/
def wholeActs : List Action :=
  [.resume, .resume, .syscall (.procCreate 0x10000 0x11000), .tick, .resume, .resume, .resume,
    .resume, .resume, .tick, .resume]

/-- There the tick saves process 1 in its own label. -/
theorem label_on_own_stack :
    ∃ tr x, SwitchRun tr x ∧ (1, some 1) ∈ x.stored ∧ ContextsOwn x := by
  obtain ⟨tr, x, hrun, hP⟩ := exists_switchRun wholeActs
    (fun tr x => (1, some 1) ∈ x.stored ∧ tr.all fun t =>
      (t.act.isTick → ¬ t.pre.spot.any Spot.inSwitch) ∧
        t.pre.entering.all fun c => c.2.all fun pt => ¬ pt.Torn) (by decide +kernel)
  obtain ⟨hmem, hall⟩ := of_decide_eq_true hP
  refine ⟨tr, x, hrun, hmem, contexts_own hrun fun t ht => ?_⟩
  obtain ⟨htick, hresume⟩ := of_decide_eq_true (List.all_eq_true.mp hall t ht)
  refine ⟨fun hact hsw => htick (by rw [hact]; rfl) ?_, fun _ pt hentering => ?_⟩
  · rcases hsw with hspot | hspot <;> rw [hspot] <;> rfl
  · rw [hentering] at hresume
    exact of_decide_eq_true hresume

/-- When process 1 goes on from there, it stores the other half of its label over what the tick
has stored, and is left with the `psr` and `sp` of the one and the registers of the other. -/
theorem label_of_two_halves :
    ∃ tr x, SwitchRun tr x ∧ (∀ e ∈ x.stored, e.2 = some e.1) ∧
      (x.kernel.procs 1).label = (x.left 1).1 ∧ ¬ ContextsOwn x := by
  obtain ⟨tr, x, hrun, hP⟩ := exists_switchRun
    (wholeActs ++ [.syscall (.send 1), .resume, .resume, .resume, .resume])
    (fun _ x => x.stored.all (fun e => e.2 = some e.1) ∧ x.kernel.up = none ∧
      (x.kernel.procs 1).label = (x.left 1).1 ∧ (x.saved 1).under.isSome ∧ (x.left 1).2.isNone)
    (by decide +kernel)
  obtain ⟨hstored, hup, hlabel, hunder, hleft⟩ := of_decide_eq_true hP
  refine ⟨tr, x, hrun, fun e he => ?_, hlabel, fun hown => ?_⟩
  · exact of_decide_eq_true (List.all_eq_true.mp hstored e he)
  · rw [(hown.kept 1 (.inl hup)).2, Option.isNone_iff_eq_none.mp hleft] at hunder
    cases hunder

end Omb
