import Omb.Kern.Moves
import Mathlib.Tactic.Linarith

/-!
# How long a ready process waits

`next_proc` goes round the list, so a ready process is passed by at most once by each of the
others, wherever the walk starts.  But `schedule` walks only when it is given nothing: `ksend`
to a receiver, `kreply` and `kreply_recv` hand the CPU over, and the walk then goes on from
where the receiver stands in the list.

`ahead` counts who is looked at before a process.  A selection makes it smaller, a new process
larger by one, and a handover may make it anything (`ahead_step`); `bounded_wait_of_run` is
what that comes to over a run.  It takes no more than `MAX_PROCS` processes, as the walk goes
along the list of all of them, and that list is linked to itself once a slot is taken again.

There is no bound on the handovers themselves: a client and a server that take turns keep
everybody else waiting (`handovers_unbounded`), and are back where they were after each turn.

## Main results

* `SelectedFrom.ahead_lt`: who is selected comes before everybody who is still ready
* `bounded_wait_of_run`: how many selections a ready process waits for
* `ClientTurn.rounds`: a client and its server go on as long as they like
* `handovers_unbounded`: the same from any state of a run in which there are two such processes
-/

namespace Omb

/-! ## The order of the walk -/

/-- How many of the first `n` processes the walk from behind `u` looks at before `p`.  If `u`
is `p` itself that is all the others. -/
def ahead (n : ℕ) (u p : ProcRef) : ℕ :=
  if u.val < p.val then p.val - u.val - 1 else n + p.val - u.val - 1

variable {n : ℕ} {u v p : ProcRef}

theorem ahead_le (hp : p.val < n) (hne : u ≠ p) : ahead n u p ≤ n - 2 := by
  have hval : u.val ≠ p.val := fun h => hne (Fin.ext h)
  rw [ahead]
  split_ifs <;> omega

theorem ahead_succ_le (n : ℕ) (u p : ProcRef) : ahead (n + 1) u p ≤ ahead n u p + 1 := by
  rw [ahead, ahead]
  split_ifs <;> omega

/-- From a process on the way to `p`, less of the way is left. -/
theorem ahead_lt (hu : u.val < n) (hp : p.val < n) (hlt : ahead n u v < ahead n u p) :
    ahead n v p < ahead n u p := by
  rw [ahead, ahead] at hlt
  rw [ahead, ahead]
  split_ifs at hlt ⊢ <;> omega

theorem pairwise_firstProcs (n : ℕ) : (firstProcs n).Pairwise (· < ·) :=
  (List.pairwise_lt_finRange maxProcs).sublist (List.take_sublist ..)

/-- The walk looks at the processes in the order of `ahead`. -/
theorem pairwise_rotation (hu : u.val < n) :
    (rotation (firstProcs n) (some u)).Pairwise fun a b => ahead n u a < ahead n u b := by
  obtain ⟨pre, post, hsplit⟩ := List.append_of_mem (mem_firstProcs.mpr hu)
  have hsorted := pairwise_firstProcs n
  have hmem : ∀ q ∈ pre ++ u :: post, q.val < n := fun q hq =>
    mem_firstProcs.mp (hsplit ▸ hq)
  have hnodup : (pre ++ u :: post).Nodup := hsplit ▸ hsorted.imp ne_of_lt
  rw [hsplit] at hsorted ⊢
  rw [rotation_split hnodup]
  obtain ⟨hpre, hupost, hcross⟩ := List.pairwise_append.mp hsorted
  obtain ⟨hpost, hpost'⟩ := List.pairwise_cons.mp hupost
  have hlt : ∀ q ∈ pre, q.val < u.val := fun q hq => hcross q hq u List.mem_cons_self
  have hgt : ∀ q ∈ post, u.val < q.val := fun q hq => hpost q hq
  have hle : ∀ q ∈ pre ++ [u], q.val ≤ u.val := by
    intro q hq
    rcases List.mem_append.mp hq with hq | hq
    · exact (hlt q hq).le
    · rw [List.mem_singleton.mp hq]
  refine List.pairwise_append.mpr ⟨?_, ?_, ?_⟩
  · refine hpost'.imp_of_mem fun {a b} ha hb hab => ?_
    have ha := hgt a ha
    have hb := hgt b hb
    have hab : a.val < b.val := hab
    rw [ahead, ahead, if_pos ha, if_pos hb]
    omega
  · have hfront : (pre ++ [u]).Pairwise (· < ·) := by
      refine List.pairwise_append.mpr ⟨hpre, List.pairwise_singleton .., fun a ha b hb => ?_⟩
      rw [List.mem_singleton.mp hb]
      exact hlt a ha
    refine hfront.imp_of_mem fun {a b} ha hb hab => ?_
    have ha := hle a ha
    have hb := hle b hb
    have hab : a.val < b.val := hab
    rw [ahead, ahead, if_neg (by omega), if_neg (by omega)]
    omega
  · intro a ha b hb
    have han := hmem a (by simp [ha])
    have ha := hgt a ha
    have hb := hle b hb
    rw [ahead, ahead, if_pos ha, if_neg (by omega)]
    omega

/-! ## One selection -/

/-- `s'` is `s` after a call of `schedule(nil)`, but for what `schedule` does not look at. -/
def SelectedFrom (s s' : State) : Prop :=
  ∃ (m : State) (k : Label) (evs : List Event), m.alive = s.alive ∧ m.nexts = s.nexts ∧
    m.up = s.up ∧ schedule m k none = .ok (s', evs)

variable {s s' : State} {Q Q' : ProcRef → List ProcRef} {act : Action} {evs : List Event}

/-- **Who is selected comes before everybody who is still ready**, so the next walk, which
begins behind it, has less of the way to them. -/
theorem SelectedFrom.ahead_lt (hsel : SelectedFrom s s') (h : Inv s n Q) (hup : s.up = some u)
    (hp : (s'.procs p).state = .ready) (hpn : p.val < n) :
    ∃ v, s'.up = some v ∧ ahead n u v < ahead n u p := by
  obtain ⟨m, k, evs, halive, hnexts, hmup, hsched⟩ := hsel
  have hu : u.val < n := by
    refine h.table.lt_of_ne_dead ?_
    rw [h.running u hup]
    decide
  have hseg : PointerList.Seg m.nexts m.alive (firstProcs n) := by
    rw [hnexts, halive]
    exact h.table.alive
  rw [schedule_rotation hseg fun w hw => ?_] at hsched
  · cases hsched
    rw [hmup, hup] at hp ⊢
    set r := (rotation (firstProcs n) (some u)).find? (saveLabel m k).isReady with hr
    have hrp : r ≠ some p := by
      intro heq
      rw [State.switchFrom_state, if_pos heq] at hp
      cases hp
    -- `p` was ready when the walk was made
    have hready : (saveLabel m k).isReady p := by
      rw [State.switchFrom_state, if_neg hrp] at hp
      refine decide_eq_true ?_
      rw [saveLabel_procs]
      exact hp
    have hmem : p ∈ rotation (firstProcs n) (some u) :=
      mem_rotation.mpr (mem_firstProcs.mpr hpn)
    cases hfind : r with
    | none => exact absurd hready (List.find?_eq_none.mp (hr.symm.trans hfind) p hmem)
    | some v =>
        refine ⟨v, State.switchFrom_up .., ?_⟩
        obtain ⟨-, pre, post, hsplit, hpre⟩ :=
          List.find?_eq_some_iff_append.mp (hr.symm.trans hfind)
        have hsorted := pairwise_rotation hu
        rw [hsplit] at hmem hsorted
        have hcases : p ∈ pre ∨ p = v ∨ p ∈ post := by simpa using hmem
        rcases hcases with hin | rfl | hin
        · have hnot := hpre p hin
          rw [hready] at hnot
          cases hnot
        · exact absurd hfind hrp
        · exact (List.pairwise_cons.mp (List.pairwise_append.mp hsorted).2.1).1 p hin
  · rw [hmup, hup] at hw
    cases hw
    exact mem_firstProcs.mpr hu

/-! ## What selects -/

theorem nexts_modifyProc (s : State) (q : ProcRef) {f : Proc → Proc}
    (hf : ∀ p, (f p).next = p.next) : (s.modifyProc q f).nexts = s.nexts := by
  funext p
  exact State.modifyProc_field Proc.next (hf _) p

/-- Linking an entry leaves the alive list and `up` alone. -/
theorem procListAdd_frame {l p : ProcRef} (hs : procListAdd s l p = .ok (some s')) :
    s'.alive = s.alive ∧ s'.nexts = s.nexts ∧ s'.up = s.up := by
  unfold procListAdd at hs
  split at hs
  · cases hs
  · unfold linkEntry at hs
    split at hs
    · cases hs
    · cases hs
      exact ⟨rfl, nexts_modifyProc _ _ fun _ => rfl, rfl⟩
    · cases hs
      exact ⟨rfl, rfl, rfl⟩

/-- A step that selects leads to a state that has been selected from its own, by the walk of
`next_proc`. -/
def Selects (s : State) (evs : List Event) (s' : State) : Prop :=
  Event.scheduled none ∈ evs → SelectedFrom s s'

theorem Selects.of_events (hevs : ∀ e ∈ evs, e ≠ .scheduled none) : Selects s evs s' :=
  fun hev => absurd rfl (hevs _ hev)

theorem ksend_selects {f : Flow Word} (hs : ksend s u p = .ok f) :
    (∃ v m, f = .ret v (m, [])) ∨ ∃ m evs, f = .switched (m, evs) ∧ Selects s evs m := by
  unfold ksend at hs
  split at hs
  · cases hs
    exact .inl ⟨_, _, rfl⟩
  · simp only at hs
    split at hs
    · cases hs
    · cases hs
      exact .inl ⟨_, _, rfl⟩
    · rename_i m hadd
      obtain ⟨halive, hnexts, hup⟩ := procListAdd_frame hadd
      split at hs
      · cases hs
      · rename_i m' evs' hsched
        cases hs
        refine .inr ⟨m', _, rfl, ?_⟩
        split_ifs at hsched with hrecv
        · rw [schedule_some] at hsched
          cases hsched
          exact .of_events (by simp)
        · refine fun _ => ⟨m.modifyProc u fun q => { q with state := .send }, .ksend, evs',
            halive, ?_, hup, hsched⟩
          calc (m.modifyProc u fun q => { q with state := .send }).nexts
              = m.nexts := nexts_modifyProc m u fun _ => rfl
            _ = (s.modifyProc u fun q => { q with waitingOn := some p }).nexts := hnexts
            _ = s.nexts := nexts_modifyProc s u fun _ => rfl

theorem krecv_selects {pid : Word} {caller : RecvCaller}
    (hs : krecv s u pid caller = .ok (.switched (s', evs))) : SelectedFrom s s' := by
  unfold krecv at hs
  split at hs
  · cases hs
  · cases hs
  · unfold Flow.schedule at hs
    split at hs
    · cases hs
    · rename_i out hsched
      cases hs
      exact ⟨s.receiving u, _, evs, rfl, nexts_modifyProc s u fun _ => rfl, rfl, hsched⟩

theorem krecv_events {pid : Word} {caller : RecvCaller} {w : ProcRef}
    (hs : krecv s u pid caller = .ok (.ret w (s', evs))) : evs = [.received u w] := by
  unfold krecv at hs
  split at hs
  · cases hs
  · cases hs
    rfl
  · unfold Flow.schedule at hs
    split at hs <;> cases hs

/-- A reply is a handover. -/
theorem kreply_events {ret : Word} {caller : ReplyCaller} {f : Flow Word}
    (hs : kreply s u p ret caller = .ok f) :
    (∃ v, f = .ret v (s, [])) ∨
      ∃ m st, f = .switched (m, [.replied u p ret, .scheduled (some (p, st))]) := by
  unfold kreply at hs
  split at hs
  · rw [schedule_some] at hs
    cases hs
    exact .inr ⟨_, _, rfl⟩
  · cases hs
    exact .inl ⟨_, rfl⟩

theorem recvToUser_selects {pid : Word} (hs : recvToUser s u pid = .ok (s', evs)) :
    Selects s evs s' := by
  unfold recvToUser at hs
  split at hs
  · cases hs
  · rename_i w out hrecv
    cases hs
    exact .of_events (by simp [krecv_events hrecv])
  · rename_i out hrecv
    cases hs
    exact fun _ => krecv_selects hrecv

theorem procStart_selects {pid : Word} (hs : procStart s u pid = .ok (s', evs)) :
    Selects s evs s' := by
  unfold procStart at hs
  split at hs
  · cases hs
  · rename_i w out hrecv
    simp only [procStartReply] at hs
    split at hs
    · cases hs
    · rename_i v m evs' hreply
      cases hs
      rcases kreply_events hreply with ⟨_, hf⟩ | ⟨_, _, hf⟩
      · cases hf
        exact .of_events (by simp [krecv_events hrecv])
      · cases hf
    · rename_i m evs' hreply
      cases hs
      rcases kreply_events hreply with ⟨_, hf⟩ | ⟨_, _, hf⟩
      · cases hf
      · cases hf
        exact .of_events (by simp [krecv_events hrecv])
  · rename_i out hrecv
    cases hs
    exact fun _ => krecv_selects hrecv

theorem syscall_selects {c : Syscall} (hs : syscall s u c = .ok (s', evs)) :
    Selects s evs s' := by
  cases c with
  | getProcPage =>
      cases hs
      exact .of_events (by simp)
  | getKernelPage =>
      cases hs
      exact .of_events (by simp)
  | send pid =>
      rw [syscall, sysSend, withProc_eq] at hs
      split at hs
      · cases hs
      · rename_i q hderef
        cases hsend : ksend s u q with
        | error e =>
            rw [hsend] at hs
            cases hs
        | ok f =>
            rw [hsend] at hs
            rcases ksend_selects hsend with ⟨v, m, rfl⟩ | ⟨m, evs', rfl, hsel⟩
            · cases hs
              exact .of_events (by simp)
            · cases hs
              exact hsel
  | recv pid => exact recvToUser_selects hs
  | reply pid ret =>
      rw [syscall, sysReply, withProc_eq] at hs
      split at hs
      · cases hs
      · rename_i q hderef
        cases hreply : kreply s u q ret .sysReply with
        | error e =>
            rw [hreply] at hs
            cases hs
        | ok f =>
            rw [hreply] at hs
            rcases kreply_events hreply with ⟨v, rfl⟩ | ⟨m, st, rfl⟩
            · cases hs
              exact .of_events (by simp)
            · cases hs
              exact .of_events (by simp)
  | replyRecv pid ret rpid =>
      rw [syscall, sysReplyRecv, withProc_eq] at hs
      split at hs
      · cases hs
      · unfold kreplyRecv at hs
        split_ifs at hs with hawait
        · simp only [schedule_some] at hs
          cases hs
          exact .of_events (by simp)
        · cases hs
          exact .of_events (by simp)
  | procCreate page spacePage =>
      rw [syscall, sysProcCreate] at hs
      split at hs
      · cases hs
      · cases hs
        exact .of_events (by simp)
  | addrOffer pid start len flags =>
      cases hs
      exact .of_events (by simp)
  | addrAccept pid start len flags =>
      rw [syscall, sysAddrAccept, withProc_eq] at hs
      split at hs
      · cases hs
      · split at hs
        · cases hs
        · cases hs
          exact .of_events (by simp)

theorem resume_selects {k : Label} (hs : resume s u k = .ok (s', evs)) : Selects s evs s' := by
  cases k with
  | unset => cases hs
  | procStart => exact procStart_selects hs
  | proc0Start =>
      cases hs
      exact .of_events (by simp)
  | trap =>
      cases hs
      exact .of_events (by simp)
  | ksend =>
      cases hs
      exact .of_events (by simp)
  | krecv pid caller =>
      cases caller with
      | sysRecv => exact recvToUser_selects hs
      | procStart => exact procStart_selects hs
  | kreply caller =>
      cases caller with
      | sysReply =>
          cases hs
          exact .of_events (by simp)
      | procStart pc sp =>
          cases hs
          exact .of_events (by simp)
  | kreplyRecv pid => exact recvToUser_selects hs

/-- **A step that calls `schedule(nil)` selects by the walk from its own process.**  Nothing
is asked of the state. -/
theorem step_selects (hs : step s act = .ok (s', evs)) : Selects s evs s' := by
  unfold step at hs
  split at hs
  · exact syscall_selects hs
  · cases hs
    exact .of_events (by simp)
  · exact fun _ => ⟨s, .trap, evs, rfl, rfl, rfl, hs⟩
  · exact fun _ => ⟨s, .trap, evs, rfl, rfl, rfl, hs⟩
  · exact resume_selects hs
  · cases hs

/-! ## One step -/

/-- A call of `schedule` with a process to switch to. -/
def Event.handsOver : Event → Bool
  | .scheduled (some _) => true
  | _ => false

/-- How often the run calls `schedule(nil)`, as every tick does. -/
def selections (tr : List KStep) : ℕ :=
  (tr.flatMap fun t => t.events).count (.scheduled none)

/-- How often the run hands the CPU over. -/
def handovers (tr : List KStep) : ℕ :=
  (tr.flatMap fun t => t.events).countP Event.handsOver

/-- What a step does to who runs: nothing, a selection, or a handover.  No step does two of
these. -/
inductive Schedules (s : State) (act : Action) (evs : List Event) (s' : State) : Prop
  | never (hup : s'.up = s.up) (hsel : evs.count (.scheduled none) = 0)
      (hover : evs.countP Event.handsOver = 0)
  | selects (hcreates : act.creates = false) (hsel : evs.count (.scheduled none) = 1)
      (hover : evs.countP Event.handsOver = 0)
  | handsOver (hcreates : act.creates = false) (hsel : evs.count (.scheduled none) = 0)
      (hover : evs.countP Event.handsOver = 1)

theorem Move.schedules (h : Move s act evs s') : Schedules s act evs s' := by
  cases h with
  | quiet hu hs' hcreates hevs =>
      refine .never hs'.up (List.count_eq_zero.mpr fun he => ?_)
        (List.countP_eq_zero.mpr fun e he => ?_)
      · rcases hevs _ he with ⟨v, hv⟩ | ⟨pc, sp, hv⟩ <;> cases hv
      · rcases hevs e he with ⟨v, rfl⟩ | ⟨pc, sp, rfl⟩ <;> exact Bool.false_ne_true
  | write page hup hc => exact .never rfl rfl rfl
  | create hup hc hdead => exact .never rfl rfl rfl
  | preempt hc hr => exact .selects rfl rfl rfl
  | @send u p pid lists waiting r handed hup hc hpid hlive hr hhanded hwake =>
      cases handed with
      | none => exact .selects rfl rfl rfl
      | some q => exact .handsOver rfl rfl rfl
  | receive hu hcreates hsend hon => exact .never rfl rfl rfl
  | start hu hcreates hsend hon => exact .handsOver hcreates rfl rfl
  | park hu hcreates hempty hr => exact .selects hcreates rfl rfl
  | reply hup hc hpid hawait => exact .handsOver rfl rfl rfl
  | replyRecv hup hc hpid hawait => exact .handsOver rfl rfl rfl
  | resumed hup hc hlabel => exact .never rfl rfl rfl

/-- A switch leaves a ready process ready unless it is switched to. -/
theorem State.switchFrom_ready {m : State} {k : Label} {r : Option ProcRef}
    (hready : (m.procs p).state = .ready) (hne : (m.switchFrom k r).up ≠ some p) :
    ((m.switchFrom k r).procs p).state = .ready := by
  rw [State.switchFrom_up] at hne
  rw [State.switchFrom_state, if_neg hne, hready]
  exact ite_self _

/-- **A ready process stays ready until it is switched to.** -/
theorem Move.ready (hmove : Move s act evs s') (h : Inv s n Q)
    (hready : (s.procs p).state = .ready) (hne : s'.up ≠ some p) :
    (s'.procs p).state = .ready := by
  have hrun : ∀ {u}, s.up = some u → p ≠ u := by
    rintro u hup rfl
    rw [h.running p hup] at hready
    cases hready
  have hsender : ∀ {w}, (s.procs w).state = .send → p ≠ w := by
    rintro w hsend rfl
    rw [hready] at hsend
    cases hsend
  cases hmove with
  | quiet hu hs' hcreates hevs =>
      have hstate := congrArg Proc.state (hs'.procs p)
      exact hstate.trans hready
  | write page hup hc => exact hready
  | create hup hc hdead =>
      have hnew : p ≠ s.nextpid := by
        rintro rfl
        rw [hready] at hdead
        cases hdead
      simp [State.spawn, hnew, hready]
  | preempt hc hr => exact State.switchFrom_ready hready hne
  | send hup hc hpid hlive hr hhanded hwake =>
      refine State.switchFrom_ready ?_ hne
      simp [State.blockOn, hrun hup, hready]
  | receive hu hcreates hsend hon => simp [State.takeMessage, hsender hsend, hready]
  | start hu hcreates hsend hon =>
      refine State.switchFrom_ready ?_ hne
      simp [deliverReply, State.takeMessage, hsender hsend, hready]
  | park hu hcreates hempty hr =>
      refine State.switchFrom_ready ?_ hne
      rw [State.receiving_state, if_neg (hrun hu.1), hready]
  | reply hup hc hpid hawait => exact State.switchFrom_ready hready hne
  | replyRecv hup hc hpid hawait =>
      refine State.switchFrom_ready ?_ hne
      rw [State.receiving_state, if_neg (hrun hup)]
      exact hready
  | resumed hup hc hlabel => exact hready

theorem Inv.lt_of_ready (h : Inv s n Q) (hready : (s.procs p).state = .ready) : p.val < n := by
  refine h.table.lt_of_ne_dead ?_
  rw [hready]
  decide

/-- While a process is ready another one runs. -/
theorem Inv.up_of_ready (h : Inv s n Q) (hready : (s.procs p).state = .ready) :
    ∃ u, s.up = some u ∧ u ≠ p ∧ u.val < n := by
  cases hup : s.up with
  | none => exact absurd hready (h.idle hup p)
  | some u =>
      have hrun := h.running u hup
      refine ⟨u, rfl, ?_, h.table.lt_of_ne_dead ?_⟩
      · rintro rfl
        rw [hready] at hrun
        cases hrun
      · rw [hrun]
        decide

/-- How many processes the walk would look at before `p`. -/
def State.ahead (s : State) (n : ℕ) (p : ProcRef) : ℕ :=
  match s.up with
  | some u => Omb.ahead n u p
  | none => 0

/-- **What one step does to the turn of a ready process.**  A handover may make it as long as
it can be, which is why the bound below counts them. -/
theorem ahead_step (hmove : Move s act evs s') (hs : step s act = .ok (s', evs))
    (h : Inv s n Q) (h' : Inv s' (n + act.creates.toNat) Q')
    (hready : (s.procs p).state = .ready) (hready' : (s'.procs p).state = .ready) :
    evs.count (.scheduled none) + s'.ahead (n + act.creates.toNat) p ≤
      s.ahead n p + act.creates.toNat + evs.countP Event.handsOver * (n - 2) := by
  have hpn := h.lt_of_ready hready
  obtain ⟨u, hup, hne, hun⟩ := h.up_of_ready hready
  obtain ⟨v, hup', hne', hvn⟩ := h'.up_of_ready hready'
  rw [State.ahead, State.ahead, hup, hup']
  dsimp only
  rcases hmove.schedules with ⟨hstay, hsel, hover⟩ | ⟨hcreates, hsel, hover⟩ |
    ⟨hcreates, hsel, hover⟩
  · obtain rfl : u = v := Option.some.inj (hup.symm.trans (hstay.symm.trans hup'))
    rw [hsel, hover]
    cases act.creates with
    | false => simp
    | true =>
        have hsucc := ahead_succ_le n u p
        simpa using hsucc
  · obtain ⟨w, hw, hlt⟩ := (step_selects hs (List.count_pos_iff.mp (by omega))).ahead_lt h hup
      hready' hpn
    obtain rfl : w = v := Option.some.inj (hw.symm.trans hup')
    have hless := ahead_lt hun hpn hlt
    simp only [hsel, hover, hcreates, Bool.toNat_false, Nat.add_zero, Nat.zero_mul]
    omega
  · simp only [hcreates, Bool.toNat_false, Nat.add_zero] at hvn
    have hle := ahead_le hpn hne'
    simp only [hsel, hover, hcreates, Bool.toNat_false, Nat.add_zero, Nat.one_mul]
    omega

/-! ## Runs -/

theorem selections_append (tr tr' : List KStep) :
    selections (tr ++ tr') = selections tr + selections tr' := by
  simp [selections]

theorem handovers_append (tr tr' : List KStep) :
    handovers (tr ++ tr') = handovers tr + handovers tr' := by
  simp [handovers]

theorem selections_snoc (tr : List KStep) (t : KStep) :
    selections (tr ++ [t]) = selections tr + t.events.count (.scheduled none) := by
  simp [selections]

theorem handovers_snoc (tr : List KStep) (t : KStep) :
    handovers (tr ++ [t]) = handovers tr + t.events.countP Event.handsOver := by
  simp [handovers]

theorem Inv.two_le (h : Inv s n Q) (hready : (s.procs p).state = .ready) : 2 ≤ n := by
  obtain ⟨u, -, hne, hun⟩ := h.up_of_ready hready
  have hpn := h.lt_of_ready hready
  have hval : u.val ≠ p.val := fun heq => hne (Fin.ext heq)
  omega

theorem Inv.ahead_le (h : Inv s n Q) (hready : (s.procs p).state = .ready) :
    s.ahead n p ≤ n - 2 := by
  obtain ⟨u, hup, hne, -⟩ := h.up_of_ready hready
  have hpn := h.lt_of_ready hready
  rw [State.ahead, hup]
  exact Omb.ahead_le hpn hne

/-- **A ready process does not wait long**: from any state of a run from boot it is switched
to before `schedule(nil)` has been called more than `n - 2` times for each handover and once
more, `n` being the number of processes made by then.  `hn` keeps the list of alive processes
from being linked to itself, with processes in it that the walk never comes to. -/
theorem bounded_wait_of_run {tr tr' : List KStep} {s s' : State} (h : KernelRun tr s)
    (hrun : Machine.Run step s tr' s') (hn : created (tr ++ tr') ≤ maxProcs) {p : ProcRef}
    (hready : (s.procs p).state = .ready)
    (hmany : (handovers tr' + 1) * (created (tr ++ tr') - 2) < selections tr') :
    ∃ t ∈ tr', t.post.up = some p := by
  by_contra hnever
  push Not at hnever
  have hwait := h.afterwards
    (P := fun tr₀ m => (∀ t ∈ tr₀, t.post.up ≠ some p) → (m.procs p).state = .ready ∧
      selections tr₀ + m.ahead (created (tr ++ tr₀)) p ≤
        (handovers tr₀ + 1) * (created (tr ++ tr₀) - 2)) hrun hn ?_ ?_ hnever
  · omega
  · intro _
    obtain ⟨Q, hinv⟩ := h.inv (by
      have hle : created tr ≤ created (tr ++ tr') := by simp [created]
      omega)
    refine ⟨hready, ?_⟩
    have hahead := hinv.ahead_le hready
    simpa [selections, handovers] using hahead
  · intro tr₀ m act evs m' Q Q' hinv hinv' ih hs hmove hnot
    obtain ⟨hr, hle⟩ := ih fun t ht => hnot t (List.mem_append_left _ ht)
    have hr' := hmove.ready hinv hr (hnot _ (List.mem_append_right _ (List.mem_singleton_self _)))
    refine ⟨hr', ?_⟩
    have hone := ahead_step hmove hs hinv hinv' hr hr'
    rw [selections_snoc, handovers_snoc, ← List.append_assoc, created_snoc]
    have htwo := hinv.two_le hr
    set c := act.creates.toNat
    have hsum : created (tr ++ tr₀) + c - 2 = created (tr ++ tr₀) - 2 + c := by omega
    calc selections tr₀ + evs.count (.scheduled none) + m'.ahead (created (tr ++ tr₀) + c) p
        ≤ (handovers tr₀ + 1) * (created (tr ++ tr₀) - 2) +
            (evs.countP Event.handsOver * (created (tr ++ tr₀) - 2) + c) := by omega
      _ ≤ (handovers tr₀ + evs.countP Event.handsOver + 1) * (created (tr ++ tr₀) - 2 + c) := by
        generalize created (tr ++ tr₀) - 2 = b
        generalize handovers tr₀ = k
        generalize evs.countP Event.handsOver = e
        nlinarith [Nat.zero_le (k * c), Nat.zero_le (e * c)]
      _ = _ := by rw [hsum]

/-- Two processes are ready while `proc0` runs: the second is switched to at the second call. -/
theorem waits_for_two_selections :
    ∃ tr s tr' s', exampleRun [.resume, .syscall (.procCreate 0x10000 0x11000),
        .syscall (.procCreate 0x12000 0x13000)] = .ok (tr, s) ∧
      Machine.Run step s tr' s' ∧ tr'.length = 2 ∧ ∃ t ∈ tr', t.post.up = some 2 := by
  obtain ⟨tr, s, hrun, hP⟩ := exists_exampleRun
    [.resume, .syscall (.procCreate 0x10000 0x11000), .syscall (.procCreate 0x12000 0x13000)]
    (fun tr s => created tr = 3 ∧ (s.procs 2).state = .ready ∧
      ((Machine.replay step s [.tick, .resume]).map fun out =>
        decide (created out.1 = 1 ∧ handovers out.1 = 0 ∧ selections out.1 = 2 ∧
          out.1.length = 2)) = .ok true)
    (by decide +kernel)
  rw [decide_eq_true_eq] at hP
  obtain ⟨hn, hready, hreplay⟩ := hP
  obtain ⟨tr', s', hrun', -, hlater⟩ := Machine.exists_of_replay hreplay
  rw [decide_eq_true_eq] at hlater
  obtain ⟨hn', hover, hsel, hlen⟩ :
    created tr' = 1 ∧ handovers tr' = 0 ∧ selections tr' = 2 ∧ tr'.length = 2 := hlater
  have hcreated : created (tr ++ tr') = 3 := by
    have hadd : created (tr ++ tr') + 1 = created tr + created tr' := by
      simp only [created, List.countP_append]
      omega
    omega
  refine ⟨tr, s, tr', s', hrun, hrun', hlen, ?_⟩
  refine bounded_wait_of_run (.of_bootRun hrun) hrun' ?_ hready ?_
  · rw [hcreated]
    decide
  · rw [hcreated, hover, hsel]
    decide

/-! ## Handovers without end -/

/-- Linking an entry for `l` leaves the other processes alone. -/
theorem procListAdd_procs {l q : ProcRef} (hs : procListAdd s l p = .ok (some s')) (hq : q ≠ l) :
    s'.procs q = s.procs q := by
  unfold procListAdd at hs
  split at hs
  · cases hs
  · unfold linkEntry at hs
    split at hs
    · cases hs
    · cases hs
      exact State.modifyProc_procs_of_ne hq _
    · cases hs
      rfl

/-- So does taking one from its queue. -/
theorem procListRemove_procs {l q w : ProcRef} {pid : Word}
    (hs : procListRemove s l pid = .ok (some (w, s'))) (hq : q ≠ l) :
    s'.procs q = s.procs q := by
  unfold procListRemove at hs
  split at hs
  · cases hs
  · cases hs
  · rename_i prev i _ _
    cases hs
    cases prev with
    | none =>
        show (s.modifyProc l fun e => { e with waiting := (s.lists i).next }).procs q = _
        exact State.modifyProc_procs_of_ne hq _
    | some j => rfl

theorem krecv_procs {pid : Word} {caller : RecvCaller} {w : ProcRef}
    (hs : krecv s u pid caller = .ok (.ret w (s', evs))) (hu : p ≠ u) (hw : p ≠ w) :
    s'.procs p = s.procs p := by
  unfold krecv at hs
  split at hs
  · cases hs
  · rename_i m hremove
    cases hs
    have hkept := procListRemove_procs hremove hu
    exact (State.modifyProc_procs_of_ne hw _).trans hkept
  · unfold Flow.schedule at hs
    split at hs <;> cases hs

/-- A switch is about the process that runs and the next one. -/
theorem State.switchFrom_procs {m : State} (k : Label) (hup : m.up = some u) (hu : p ≠ u)
    (hv : p ≠ v) : (m.switchFrom k (some v)).procs p = m.procs p := by
  rw [State.switchFrom_eq]
  simp [hup, hu.symm, hv.symm]

/-- `ksend` to a receiver hands the CPU over to it. -/
theorem ksend_to_receiver (h : Inv s n Q) (hup : s.up = some u)
    (hrecv : (s.procs v).state = .recv) :
    ∃ lists waiting,
      ksend s u v = .ok (.switched ((s.blockOn u v lists waiting).switchFrom .ksend (some v),
        [.sent u v, .scheduled (some (v, .recv))])) ∧
      Inv ((s.blockOn u v lists waiting).switchFrom .ksend (some v)) n
        (Function.update Q v (Q v ++ [u])) ∧
      ∀ p, p ≠ u → p ≠ v → (s.blockOn u v lists waiting).procs p = s.procs p := by
  have hdead : (s.procs v).state ≠ .dead := by simp [hrecv]
  have hvu : v ≠ u := by
    rintro rfl
    rw [h.running v hup] at hrecv
    cases hrecv
  obtain ⟨lists, waiting, hadd, hclosed, hcore⟩ := h.blockOn hup (h.table.lt_of_ne_dead hdead)
  have hrecv' : ((s.blockOn u v lists waiting).procs v).state = .recv := by
    simp [State.blockOn, hvu, hrecv]
  refine ⟨lists, waiting, ?_, hcore.schedule_some ?_ (by simp [hrecv']) (by simp [hrecv']), ?_⟩
  · unfold ksend
    rw [if_neg hdead]
    simp only [hadd, hclosed]
    rw [if_pos hrecv', schedule_some, hrecv']
  · intro w hw
    obtain rfl := Option.some.inj (hup.symm.trans hw)
    simp [State.blockOn, savedState, SuspendedAt]
  · intro p hpu hpv
    rw [← hclosed, State.modifyProc_procs_of_ne hpu, procListAdd_procs hadd hpv,
      State.modifyProc_procs_of_ne hpu]

/-- `u` runs, and the server `v` is in `reply_recv` or `recv` with nobody waiting. -/
structure ClientTurn (s : State) (n : ℕ) (Q : ProcRef → List ProcRef) (u v : ProcRef) : Prop where
  inv : Inv s n Q
  user : s.control = .user
  up : s.up = some u
  recv : (s.procs v).state = .recv
  label : ∀ pid, (s.procs v).label ≠ .krecv pid .procStart
  empty : Q v = []

/-- `v` runs and has taken the message of `u`. -/
structure ServerTurn (s : State) (n : ℕ) (Q : ProcRef → List ProcRef) (u v : ProcRef) : Prop where
  inv : Inv s n Q
  user : s.control = .user
  up : s.up = some v
  await : awaitsReply s v u
  empty : Q v = []

/-- The run is one of `u` and `v`, in which nobody is selected and the others stay as they
are, in every field of their records. -/
structure LeavesOut (s : State) (u v : ProcRef) (tr : List KStep) (s' : State) : Prop where
  run : Machine.Run step s tr s'
  never : selections tr = 0
  turns : ∀ t ∈ tr, t.post.up = some u ∨ t.post.up = some v
  others : ∀ p, p ≠ u → p ≠ v → s'.procs p = s.procs p

theorem LeavesOut.single (hs : step s act = .ok (s', evs))
    (hsel : evs.count (.scheduled none) = 0) (hup : s'.up = some u ∨ s'.up = some v)
    (hothers : ∀ p, p ≠ u → p ≠ v → s'.procs p = s.procs p) :
    LeavesOut s u v [⟨s, act, evs, s'⟩] s' where
  run := Machine.Run.nil.snoc hs
  never := by simpa [selections] using hsel
  turns := by simpa using hup
  others := hothers

theorem LeavesOut.trans {tr tr' : List KStep} {s'' : State} (h : LeavesOut s u v tr s')
    (h' : LeavesOut s' u v tr' s'') : LeavesOut s u v (tr ++ tr') s'' where
  run := h.run.append h'.run
  never := by simp [selections_append, h.never, h'.never]
  turns t ht := (List.mem_append.mp ht).elim (h.turns t) (h'.turns t)
  others p hu hv := (h'.others p hu hv).trans (h.others p hu hv)

theorem ClientTurn.ne (h : ClientTurn s n Q u v) : v ≠ u := by
  rintro rfl
  have hrun := h.inv.running v h.up
  rw [h.recv] at hrun
  cases hrun

theorem ServerTurn.ne (h : ServerTurn s n Q u v) : u ≠ v := by
  rintro rfl
  have hrun := h.inv.running u h.up
  rw [h.await.1] at hrun
  cases hrun

/-- A server that waits in a system call goes on with it. -/
theorem ClientTurn.resume_eq (h : ClientTurn s n Q u v) :
    ∃ pid, ∀ m, resume m v (s.procs v).label = recvToUser m v pid := by
  have hsusp := h.inv.suspended h.up h.ne
  rw [h.recv] at hsusp
  rcases hsusp.label_of_recv with ⟨pid, caller, hlabel⟩ | ⟨pid, hlabel⟩
  · cases caller with
    | sysRecv => exact ⟨pid, fun m => by rw [hlabel, resume]⟩
    | procStart => exact absurd hlabel (h.label pid)
  · exact ⟨pid, fun m => by rw [hlabel, resume]⟩

/-- `u` sends, and `v` goes on and receives. -/
theorem ClientTurn.send (h : ClientTurn s n Q u v) :
    ∃ tr s' Q', LeavesOut s u v tr s' ∧ handovers tr = 1 ∧ ServerTurn s' n Q' u v := by
  have hvu := h.ne
  obtain ⟨lists, waiting, hsend, hinv₁, hframe⟩ := ksend_to_receiver h.inv h.up h.recv
  set m := s.blockOn u v lists waiting with hm
  have hup : m.up = some u := h.up
  set s₁ := m.switchFrom .ksend (some v) with hs₁
  have hstep₁ : step s (.syscall (.send (BitVec.ofNat 32 v.val))) =
      .ok (s₁, [.sent u v, .scheduled (some (v, .recv))]) := by
    simp only [step, h.user, h.up, syscall, sysSend, withProc_eq, deref_val (toInt_ofNat v),
      hsend]
    rfl
  have hothers₁ : ∀ p, p ≠ u → p ≠ v → s₁.procs p = s.procs p := fun p hpu hpv =>
    (State.switchFrom_procs .ksend hup hpu hpv).trans (hframe p hpu hpv)
  have hlabel : (s₁.procs v).label = (s.procs v).label := by
    rw [hs₁, State.switchFrom_label, hup, if_neg fun heq => hvu (Option.some.inj heq).symm]
    rfl
  -- the queue of `v` is `u` alone
  obtain ⟨pid, hresume⟩ := h.resume_eq
  have hqueue : Function.update Q v (Q v ++ [u]) v = [u] := by
    rw [Function.update_self, h.empty, List.nil_append]
  rcases krecv_spec hinv₁ rfl pid .sysRecv with ⟨hnil, -⟩ |
    ⟨pre, w, post, lists', waiting', hsplit, -, hrecv, hinv₂⟩
  · rw [hqueue] at hnil
    cases hnil
  obtain ⟨rfl, rfl, rfl⟩ : pre = [] ∧ w = u ∧ post = [] := by
    rw [hqueue] at hsplit
    rcases List.singleton_eq_append_iff.mp hsplit with ⟨rfl, hcons⟩ | ⟨-, hnil⟩
    · obtain ⟨rfl, rfl⟩ := List.cons.inj hcons
      exact ⟨rfl, rfl, rfl⟩
    · cases hnil
  set s₂ : State := { s₁.takeMessage v w lists' waiting' with control := .user } with hs₂
  have hstep₂ : step s₁ .resume = .ok (s₂, [.received v w, .returned v (s₁.procs w).pid]) := by
    rw [show step s₁ .resume = resume s₁ v (s₁.procs v).label from rfl, hlabel, hresume,
      recvToUser, hrecv]
    rfl
  have hothers₂ : ∀ p, p ≠ w → p ≠ v → s₂.procs p = s₁.procs p := by
    intro p hpw hpv
    have hkept := krecv_procs hrecv hpv hpw
    exact hkept
  have htr := (LeavesOut.single hstep₁ rfl (.inr rfl) hothers₁).trans
    (.single hstep₂ rfl (.inr rfl) hothers₂)
  refine ⟨_, s₂, _, htr, rfl, hinv₂.toUser rfl, rfl, rfl, ⟨?_, ?_⟩, Function.update_self ..⟩
  · simp [hs₂, State.takeMessage]
  · simp [hs₂, hs₁, hm, State.takeMessage, State.blockOn]

/-- `v` replies and waits, and `u` goes on. -/
theorem ServerTurn.reply (h : ServerTurn s n Q u v) :
    ∃ tr s' Q', LeavesOut s u v tr s' ∧ handovers tr = 1 ∧ ClientTurn s' n Q' u v := by
  have huv := h.ne
  obtain ⟨hreply, hinv₁⟩ := kreplyRecv_spec h.inv h.up h.await ok pidAll
  set m := (deliverReply s v u ok).receiving v with hm
  have hup : m.up = some v := h.up
  have hstate : ∀ p, (m.procs p).state = if p = v then .recv else (s.procs p).state :=
    fun p => State.receiving_state ..
  set s₁ := m.switchFrom (.kreplyRecv pidAll) (some u) with hs₁
  have hstep₁ : step s (.syscall (.replyRecv (BitVec.ofNat 32 u.val) ok pidAll)) =
      .ok (s₁, [.replied v u ok, .scheduled (some (u, .reply))]) := by
    simp only [step, h.user, h.up, syscall, sysReplyRecv, withProc_eq,
      deref_val (toInt_ofNat u), hreply]
  have hothers : ∀ p, p ≠ u → p ≠ v → s₁.procs p = s.procs p := fun p hpu hpv =>
    (State.switchFrom_procs (.kreplyRecv pidAll) hup hpv hpu).trans
      (State.modifyProc_procs_of_ne hpv _)
  have hlabel : (s₁.procs u).label = .ksend := by
    rw [hs₁, State.switchFrom_label, hup, if_neg fun heq => huv (Option.some.inj heq).symm,
      State.receiving_field Proc.label fun _ => rfl]
    exact (h.inv.suspended h.up huv).label_of_blocked (.inr h.await.1)
  have hrecv : (s₁.procs v).state = .recv := by
    rw [hs₁, State.switchFrom_state, if_neg fun heq => huv (Option.some.inj heq), hup,
      if_pos rfl, hstate, if_pos rfl, savedState, if_neg (by decide)]
  have hwaits : (s₁.procs v).label = .kreplyRecv pidAll := by
    rw [hs₁, State.switchFrom_label, hup, if_pos rfl]
  have hstep₂ : step s₁ .resume = .ok ({ s₁ with control := .user },
      [.resumed u (s₁.pageOf u).mRet, .returned u (s₁.pageOf u).mRet]) := by
    rw [show step s₁ .resume = resume s₁ u (s₁.procs u).label from rfl, hlabel]
    rfl
  have htr := (LeavesOut.single hstep₁ rfl (.inl rfl) hothers).trans
    (.single hstep₂ rfl (.inl rfl) fun _ _ _ => rfl)
  refine ⟨_, _, Q, htr, rfl, hinv₁.toUser rfl, rfl, rfl, hrecv, fun pid heq => ?_, h.empty⟩
  cases hwaits.symm.trans heq

/-- They can go on like this for as long as they like, and are back in the same kind of state
after each turn. -/
theorem ClientTurn.rounds (h : ClientTurn s n Q u v) (k : ℕ) :
    ∃ tr s' Q', LeavesOut s u v tr s' ∧ handovers tr = 2 * k ∧ ClientTurn s' n Q' u v := by
  induction k generalizing s Q with
  | zero => exact ⟨[], s, Q, ⟨.nil, rfl, by simp, fun _ _ _ => rfl⟩, rfl, h⟩
  | succ k ih =>
      obtain ⟨tr₁, s₁, Q₁, hout₁, hover₁, hserver⟩ := h.send
      obtain ⟨tr₂, s₂, Q₂, hout₂, hover₂, hclient⟩ := hserver.reply
      obtain ⟨tr₃, s₃, Q₃, hout₃, hover₃, hclient'⟩ := ih hclient
      refine ⟨_, s₃, Q₃, (hout₁.trans hout₂).trans hout₃, ?_, hclient'⟩
      rw [handovers_append, handovers_append, hover₁, hover₂, hover₃]
      omega

/-- A queue is empty if its head pointer is nil. -/
theorem Inv.waiting_eq_none_iff (h : Inv s n Q) (p : ProcRef) :
    (s.procs p).waiting = none ↔ Q p = [] := by
  obtain ⟨nodes, hrep⟩ := h.queues
  have hseg := hrep.family.seg p
  rw [← hrep.nodes_eq_nil_iff p]
  constructor
  · intro hnone
    rw [hnone] at hseg
    exact hseg.eq_nil
  · intro hnil
    rw [hnil] at hseg
    cases hw : (s.procs p).waiting with
    | none => rfl
    | some i =>
        rw [hw] at hseg
        obtain ⟨t, ht, -⟩ := hseg.exists_tail
        cases ht

/-- `u` runs in user code, and `v` is in `recv` or `reply_recv` with nobody in its queue. -/
structure TakeTurns (s : State) (u v : ProcRef) : Prop where
  user : s.control = .user
  up : s.up = some u
  recv : (s.procs v).state = .recv
  /-- It is in the system call, and not in `proc_start`. -/
  label : ∀ pid, (s.procs v).label ≠ .krecv pid .procStart
  empty : (s.procs v).waiting = none

/-- **Handovers can keep everybody else waiting.**  From any state of a run from boot in which
a process runs in user code and another one waits in `recv` or `reply_recv` with nobody in its
queue, the two can hand the CPU to each other any number of times without a call of
`schedule(nil)`.  The run is back where it started then, and the kernel's records of the others
are what they were.  That no more than `MAX_PROCS` processes have been made (`hn`) is for the
lists to be what they should; nothing is asked of the others, which may all be ready. -/
theorem handovers_unbounded {tr : List KStep} {s : State} (h : KernelRun tr s)
    (hn : created tr ≤ maxProcs) {u v : ProcRef} (hturn : TakeTurns s u v) (k : ℕ) :
    ∃ tr' s', Machine.Run step s tr' s' ∧ TakeTurns s' u v ∧ handovers tr' = 2 * k ∧
      selections tr' = 0 ∧ (∀ t ∈ tr', t.post.up = some u ∨ t.post.up = some v) ∧
      ∀ p, p ≠ u → p ≠ v → s'.procs p = s.procs p := by
  obtain ⟨Q, hinv⟩ := h.inv hn
  have hempty : Q v = [] := (hinv.waiting_eq_none_iff v).mp hturn.empty
  obtain ⟨tr', s', Q', hout, hover, hback⟩ := ClientTurn.rounds
    ⟨hinv, hturn.user, hturn.up, hturn.recv, hturn.label, hempty⟩ k
  have hturn' : TakeTurns s' u v := ⟨hback.user, hback.up, hback.recv, hback.label,
    (hback.inv.waiting_eq_none_iff v).mpr hback.empty⟩
  exact ⟨tr', s', hout.run, hturn', hover, hout.never, hout.turns, hout.others⟩

/-- `proc0` and its server hand the CPU over two hundred times while another process is
ready. -/
theorem handovers_past_a_third :
    ∃ tr s tr' s', exampleRun [.resume, .syscall (.procCreate 0x10000 0x11000),
        .syscall (.send 1), .resume, .resume, .tick, .resume, .syscall (.recv pidAll), .resume,
        .syscall (.procCreate 0x12000 0x13000)] = .ok (tr, s) ∧
      (s.procs 2).state = .ready ∧ Machine.Run step s tr' s' ∧ TakeTurns s' 0 1 ∧
      handovers tr' = 2 * 100 ∧ selections tr' = 0 ∧
      (∀ t ∈ tr', t.post.up = some 0 ∨ t.post.up = some 1) ∧
      ∀ p, p ≠ 0 → p ≠ 1 → s'.procs p = s.procs p := by
  obtain ⟨tr, s, hrun, hP⟩ := exists_exampleRun [.resume, .syscall (.procCreate 0x10000 0x11000),
      .syscall (.send 1), .resume, .resume, .tick, .resume, .syscall (.recv pidAll), .resume,
      .syscall (.procCreate 0x12000 0x13000)]
    (fun tr s => created tr = 3 ∧ (s.procs 2).state = .ready ∧ s.control = .user ∧
      s.up = some 0 ∧ (s.procs 1).state = .recv ∧
      (s.procs 1).label = .krecv pidAll .sysRecv ∧ (s.procs 1).waiting = none)
    (by decide +kernel)
  rw [decide_eq_true_eq] at hP
  obtain ⟨hn, hready, hc, hup, hrecv, hlabel, hempty⟩ := hP
  obtain ⟨tr', s', hrest⟩ := handovers_unbounded (.of_bootRun hrun) (by rw [hn]; decide)
    ⟨hc, hup, hrecv, fun pid => by simp [hlabel], hempty⟩ 100
  exact ⟨tr, s, tr', s', hrun, hready, hrest⟩

end Omb
