import Omb.Kern.Sched
import Omb.Lib.Run

/-!
# `next_proc` is round-robin

`nextProc_eq` gives the choice of `next_proc` as the first ready process of a rotation of the
alive list.  A rotation of a rotation is a rotation (`rotation_rotation`), so while the list
stays as it is, `schedule(nil)` goes round it and passes no process that is ready.

`roundStep` is what may happen between two selections of one process: calls of
`schedule(nil)`, and anything else that leaves the list and `up` alone and takes no process
out of `PROC_ready`.  Every other process that is ready is selected in between
(`nextProc_roundRobin`).

`BeforeTurn` is the invariant for that: the walk has come from `p` to some process before `q`,
with `q` still in front of it and `p` behind `q`.  A selection goes on within the part before
`q`, or is of `q` (`BeforeTurn.schedule`), and so a selection of `p` comes after one of `q`.

Handovers, in which `schedule` is told whom to switch to, are not selections and may come at
any time in the kernel; what they do to a ready process is in `Omb.Kern.Turns`.

## Main results

* `BeforeTurn.schedule`: the next selection
* `nextProc_roundRobin`: the choice of `next_proc`, and that everybody has a turn
-/

namespace Omb

open PointerList

/-! ## Rotations -/

theorem nodup_rotation {nodes : List ProcRef} (h : nodes.Nodup) (up : Option ProcRef) :
    (rotation nodes up).Nodup := by
  cases up with
  | none => exact h
  | some u =>
      rw [rotation, List.nodup_append_comm, List.take_append_drop]
      exact h

/-- The list cut behind `x` is the same when it has been cut elsewhere before.  So it makes no
difference where the walk began. -/
theorem rotation_rotation {nodes : List ProcRef} (h : nodes.Nodup) {p x : ProcRef}
    (hp : p ∈ nodes) (hx : x ∈ nodes) :
    rotation (rotation nodes (some p)) (some x) = rotation nodes (some x) := by
  have hcut := nodup_rotation h (some p)
  obtain ⟨pre, post, rfl⟩ := List.append_of_mem hp
  rw [rotation_split h] at hcut ⊢
  have hcases : x ∈ pre ∨ x = p ∨ x ∈ post := by simpa using hx
  rcases hcases with hpre | rfl | hpost
  · obtain ⟨c, d, rfl⟩ := List.append_of_mem hpre
    have hlist : c ++ x :: d ++ p :: post = c ++ x :: (d ++ p :: post) := by simp
    have hlist' : post ++ (c ++ x :: d ++ [p]) = (post ++ c) ++ x :: (d ++ [p]) := by simp
    rw [hlist] at h ⊢
    rw [hlist'] at hcut ⊢
    rw [rotation_split h, rotation_split hcut]
    simp
  · have hlist' : post ++ (pre ++ [x]) = (post ++ pre) ++ x :: [] := by simp
    rw [hlist'] at hcut ⊢
    rw [rotation_split h, rotation_split hcut]
    simp
  · obtain ⟨c, d, rfl⟩ := List.append_of_mem hpost
    have hlist : pre ++ p :: (c ++ x :: d) = (pre ++ p :: c) ++ x :: d := by simp
    have hlist' : c ++ x :: d ++ (pre ++ [p]) = c ++ x :: (d ++ (pre ++ [p])) := by simp
    rw [hlist] at h ⊢
    rw [hlist'] at hcut ⊢
    rw [rotation_split h, rotation_split hcut]
    simp

/-- The first ready process behind `up` comes before every other ready one. -/
theorem find?_split {P : ProcRef → Bool} {c d : List ProcRef} {q r : ProcRef} (hq : P q)
    (h : (c ++ q :: d).find? P = some r) : r = q ∨ r ∈ c := by
  rw [List.find?_append, Option.or_eq_some_iff, List.find?_cons_of_pos hq] at h
  rcases h with hr | ⟨-, hr⟩
  · exact .inr (List.mem_of_find?_eq_some hr)
  · exact .inl (Option.some.inj hr).symm

/-! ## Between two selections -/

/-- A call of `schedule(nil)` that is to go on at `k`, or something else that leaves the
state `s'`. -/
inductive RoundAction where
  | schedule (k : Label)
  | other (s' : State)

/-- One step, with the process it selects.  A step of the second kind is any change of the
state; what is asked of it is `KeepsReady`. -/
def roundStep (s : State) : RoundAction → Except Stuck (State × List ProcRef)
  | .schedule k =>
      match schedule s k none with
      | .error e => .error e
      | .ok (s', _) => .ok (s', s'.up.toList)
  | .other s' => .ok (s', [])

abbrev RoundStep := Machine.Transition State RoundAction ProcRef

/-- A step that is not a call of `schedule` leaves the list and `up` alone, and the
processes that are ready. -/
def KeepsReady (t : RoundStep) : Prop :=
  ∀ s', t.act = .other s' → s'.alive = t.pre.alive ∧ s'.nexts = t.pre.nexts ∧
    s'.up = t.pre.up ∧ ∀ p, t.pre.isReady p → s'.isReady p

/-- `q` is ready, and `schedule` has come from `p` to a process before it: the list is
`nodes`, with `c` from `p` to `q` and `d` from `q` to `p`. -/
structure BeforeTurn (nodes : List ProcRef) (p q : ProcRef) (c d : List ProcRef) (s : State) :
    Prop where
  alive : Seg s.nexts s.alive nodes
  mem : p ∈ nodes
  split : rotation nodes (some p) = c ++ q :: d
  ready : s.isReady q
  up : ∃ x, s.up = some x ∧ (x = p ∨ x ∈ c)

namespace BeforeTurn

variable {nodes c d : List ProcRef} {p q : ProcRef} {s s' : State}

theorem nodup (h : BeforeTurn nodes p q c d s) : (c ++ q :: d).Nodup := by
  rw [← h.split]
  exact nodup_rotation h.alive.nodup _

/-- The walk ends at `p`. -/
theorem notMem (h : BeforeTurn nodes p q c d s) : p ∉ c := by
  intro hp
  obtain ⟨pre, post, hnodes⟩ := List.append_of_mem h.mem
  have hnodup := h.alive.nodup
  have hsplit := h.split
  rw [hnodes] at hnodup hsplit
  rw [rotation_split hnodup] at hsplit
  have hlast := congrArg List.getLast? hsplit
  have hend : (c ++ q :: d).getLast? = (q :: d).getLast? := List.getLast?_append_cons ..
  rw [hend, ← List.append_assoc, List.getLast?_concat] at hlast
  have hpd : p ∈ q :: d := List.mem_of_getLast? hlast.symm
  have hdisj := (List.nodup_append.mp h.nodup).2.2
  exact hdisj p hp p hpd rfl

theorem isReady_saveLabel (k : Label) (h : s.isReady q) : (saveLabel s k).isReady q := by
  have hready : (s.procs q).state = .ready := of_decide_eq_true h
  refine decide_eq_true ?_
  rw [saveLabel_procs]
  simp [hready, savedState]

/-- The processes before `q` are on the list. -/
theorem mem_of_before (h : BeforeTurn nodes p q c d s) {x : ProcRef} (hx : x ∈ c) : x ∈ nodes := by
  have hrot : x ∈ rotation nodes (some p) := by
    rw [h.split]
    exact List.mem_append_left _ hx
  exact mem_rotation.mp hrot

/-- From any process before `q` the walk comes to `q` before it comes back. -/
theorem rotation_up (h : BeforeTurn nodes p q c d s) :
    ∃ e f, rotation nodes s.up = e ++ q :: f ∧ ∀ r ∈ e, r ∈ c := by
  obtain ⟨x, hup, rfl | hx⟩ := h.up
  · rw [hup]
    exact ⟨c, d, h.split, fun _ hr => hr⟩
  · obtain ⟨c₁, c₂, rfl⟩ := List.append_of_mem hx
    have hlist : c₁ ++ x :: c₂ ++ q :: d = c₁ ++ x :: (c₂ ++ q :: d) := by simp
    have hmem := h.mem_of_before hx
    have hnodup := h.nodup
    rw [hlist] at hnodup
    refine ⟨c₂, d ++ (c₁ ++ [x]), ?_, fun r hr => ?_⟩
    · rw [hup, ← rotation_rotation h.alive.nodup h.mem hmem, h.split, hlist,
        rotation_split hnodup]
      simp
    · exact List.mem_append_right _ (List.mem_cons_of_mem _ hr)

/-- **The next selection** is of `q` or of a process that comes before it.  The walk ends
there at the latest, as `q` is ready. -/
theorem schedule (h : BeforeTurn nodes p q c d s) (k : Label) :
    ∃ r, Omb.schedule s k none = .ok (s.switchFrom k (some r), [.scheduled none]) ∧
      (r = q ∨ r ∈ c ∧ BeforeTurn nodes p q c d (s.switchFrom k (some r))) := by
  obtain ⟨e, f, hrot, hsub⟩ := h.rotation_up
  have hq := isReady_saveLabel k h.ready
  have hup : ∀ u, s.up = some u → u ∈ nodes := by
    intro u hu
    obtain ⟨x, hx, hmem⟩ := h.up
    obtain rfl : x = u := Option.some.inj (hx.symm.trans hu)
    rcases hmem with rfl | hc
    · exact h.mem
    · exact h.mem_of_before hc
  rcases hfind : (rotation nodes s.up).find? (saveLabel s k).isReady with _ | r
  · -- `q` itself would have been found
    have hmem : q ∈ rotation nodes s.up := by simp [hrot]
    exact absurd hq (List.find?_eq_none.mp hfind q hmem)
  · refine ⟨r, by rw [schedule_rotation h.alive hup k, hfind], ?_⟩
    rw [hrot] at hfind
    rcases find?_split hq hfind with rfl | hr
    · exact .inl rfl
    · have hrc := hsub r hr
      have hne : r ≠ q := by
        rintro rfl
        exact (List.nodup_append.mp h.nodup).2.2 r hrc r (List.mem_cons_self ..) rfl
      refine .inr ⟨hrc, ?_, h.mem, h.split, ?_, r, State.switchFrom_up .., .inr hrc⟩
      · have hnexts : (s.switchFrom k (some r)).nexts = s.nexts :=
          funext fun _ => State.switchFrom_next ..
        rw [hnexts, State.switchFrom_alive]
        exact h.alive
      · have hready : (s.procs q).state = .ready := of_decide_eq_true h.ready
        refine decide_eq_true ?_
        rw [State.switchFrom_state, if_neg fun heq => hne (Option.some.inj heq)]
        simp [hready, savedState]

/-- What leaves the list alone leaves `q` its turn. -/
theorem other (h : BeforeTurn nodes p q c d s) (halive : s'.alive = s.alive)
    (hnexts : s'.nexts = s.nexts) (hup : s'.up = s.up)
    (hready : ∀ r, s.isReady r → s'.isReady r) : BeforeTurn nodes p q c d s' where
  alive := by
    rw [hnexts, halive]
    exact h.alive
  mem := h.mem
  split := h.split
  ready := hready q h.ready
  up := by
    rw [hup]
    exact h.up

end BeforeTurn

/-- As long as `q` is not selected, its turn is still to come, and nobody is selected but
processes before it. -/
theorem beforeTurn_of_run {nodes c d : List ProcRef} {p q : ProcRef} {s s' : State}
    {tr : List RoundStep} (h : BeforeTurn nodes p q c d s)
    (hrun : Machine.Run roundStep s tr s') (hkeeps : ∀ t ∈ tr, KeepsReady t)
    (hnot : ∀ t ∈ tr, t.events ≠ [q]) :
    BeforeTurn nodes p q c d s' ∧ ∀ t ∈ tr, ∀ r ∈ t.events, r ∈ c := by
  refine Machine.Run.invariant
    (P := fun tr s' => BeforeTurn nodes p q c d s' ∧ ∀ t ∈ tr, ∀ r ∈ t.events, r ∈ c)
    (C := fun t => KeepsReady t ∧ t.events ≠ [q]) ⟨h, fun _ ht => absurd ht List.not_mem_nil⟩
    ?_ hrun fun t ht => ⟨hkeeps t ht, hnot t ht⟩
  rintro tr s a s' evs - ⟨hs, htr⟩ ⟨hkeep, hne⟩ hstep
  cases a with
  | schedule k =>
      obtain ⟨r, hsched, hr⟩ := hs.schedule k
      simp only [roundStep, hsched, State.switchFrom_up] at hstep
      cases hstep
      obtain ⟨hrc, hs'⟩ := hr.resolve_left fun heq => hne (by rw [heq]; rfl)
      refine ⟨hs', fun t ht => ?_⟩
      rcases List.mem_append.mp ht with ht | ht
      · exact htr t ht
      · obtain rfl := List.mem_singleton.mp ht
        intro x hx
        obtain rfl := List.mem_singleton.mp hx
        exact hrc
  | other s₁ =>
      cases hstep
      obtain ⟨halive, hnexts, hup, hready⟩ := hkeep _ rfl
      refine ⟨hs.other halive hnexts hup hready, fun t ht => ?_⟩
      rcases List.mem_append.mp ht with ht | ht
      · exact htr t ht
      · obtain rfl := List.mem_singleton.mp ht
        exact fun _ hx => absurd hx List.not_mem_nil

/-- **`next_proc` is round-robin.**  On a finite alive list it comes to an end with the
first ready process behind `up` in the order of the list taken round, `up` itself last, and
with nil only if no process is ready.  When `p` runs and is selected again, each other
process that was ready all the time has been selected in between. -/
theorem nextProc_roundRobin {s : State} {nodes : List ProcRef}
    (h : Seg s.nexts s.alive nodes) (hup : ∀ u, s.up = some u → u ∈ nodes) :
    (∃ r, nextProc s = .ok r ∧ r = (rotation nodes s.up).find? s.isReady ∧
      (r = none ↔ ∀ q ∈ nodes, (s.procs q).state ≠ .ready)) ∧
    ∀ (p q : ProcRef) (tr : List RoundStep) (t : RoundStep) (s' : State), s.up = some p →
      q ∈ nodes → q ≠ p → (s.procs q).state = .ready →
      Machine.Run roundStep s (tr ++ [t]) s' → (∀ t' ∈ tr ++ [t], KeepsReady t') →
      t.events = [p] → ∃ t' ∈ tr, t'.events = [q] := by
  refine ⟨⟨_, nextProc_eq h hup, rfl, ?_⟩, fun p q tr t s' hp hq hne hready hrun hkeeps ht => ?_⟩
  · rw [List.find?_eq_none]
    simp only [mem_rotation, State.isReady, decide_eq_true_eq]
  · have hmem := hup p hp
    obtain ⟨c, d, hsplit⟩ := List.append_of_mem (mem_rotation.mpr hq : q ∈ rotation nodes (some p))
    have hbefore : BeforeTurn nodes p q c d s :=
      ⟨h, hmem, hsplit, decide_eq_true hready, p, hp, .inl rfl⟩
    by_contra hnever
    push Not at hnever
    have hnot : ∀ t' ∈ tr ++ [t], t'.events ≠ [q] := by
      intro t' ht'
      rcases List.mem_append.mp ht' with ht' | ht'
      · exact hnever t' ht'
      · obtain rfl := List.mem_singleton.mp ht'
        rw [ht]
        exact fun heq => hne (List.cons.inj heq).1.symm
    have hpc := (beforeTurn_of_run hbefore hrun hkeeps hnot).2 t
      (List.mem_append_right _ (List.mem_singleton_self t)) p (by simp [ht])
    exact hbefore.notMem hpc

/-- Three processes on the list, of which 0 runs. -/
def threeProcs : State where
  procs p :=
    if p = 0 then { Proc.zero with state := .oncpu, next := some 1 }
    else if p = 1 then { Proc.zero with state := .ready, pid := 1, next := some 2 }
    else if p = 2 then { Proc.zero with state := .ready, pid := 2 }
    else .zero
  alive := some 0
  up := some 0
  nextpid := 3
  lists _ := { proc := none, next := none }
  pages _ := .zero
  mem _ := 0
  control := .user
  image :=
    { proc0Page := 0x1000
      proc0StackPage := 0x2000
      proc0SpacePage := 0x3000
      proc0TextStart := 0x4000
      kernelPage := 0x5000 }

/-- Process 2 is selected before process 0 is again, also when 1 stops in between. -/
theorem selected_in_turn :
    ∃ tr t s', Machine.Run roundStep threeProcs (tr ++ [t]) s' ∧ t.events = [0] ∧
      ∃ t' ∈ tr, t'.events = [2] := by
  have hseg : Seg threeProcs.nexts threeProcs.alive [0, 1, 2] := .cons (.cons (.cons .nil))
  have hup : ∀ u, threeProcs.up = some u → u ∈ [0, 1, 2] := by
    intro u hu
    obtain rfl := Option.some.inj hu
    exact List.mem_cons_self ..
  -- 1 is selected first, then it stops
  let s₁ := threeProcs.switchFrom .trap (some 1)
  let s₂ := s₁.modifyProc 1 fun q => { q with state := .recv }
  let s₃ := s₂.switchFrom .trap (some 2)
  have h₁ : roundStep threeProcs (.schedule .trap) = .ok (s₁, [1]) := by
    rw [roundStep, schedule_rotation hseg hup]
    rfl
  have hseg₂ : Seg s₂.nexts s₂.alive [0, 1, 2] := .cons (.cons (.cons .nil))
  have h₃ : roundStep s₂ (.schedule .trap) = .ok (s₃, [2]) := by
    rw [roundStep, schedule_rotation hseg₂ fun u hu => ?_]
    · rfl
    · obtain rfl := Option.some.inj hu
      simp
  have hseg₃ : Seg s₃.nexts s₃.alive [0, 1, 2] := .cons (.cons (.cons .nil))
  have h₄ : roundStep s₃ (.schedule .trap) = .ok (s₃.switchFrom .trap (some 0), [0]) := by
    rw [roundStep, schedule_rotation hseg₃ fun u hu => ?_]
    · rfl
    · obtain rfl := Option.some.inj hu
      simp
  have hrun : Machine.Run roundStep threeProcs
      ([⟨threeProcs, .schedule .trap, [1], s₁⟩, ⟨s₁, .other s₂, [], s₂⟩,
        ⟨s₂, .schedule .trap, [2], s₃⟩] ++
        [⟨s₃, .schedule .trap, [0], s₃.switchFrom .trap (some 0)⟩]) _ :=
    (((Machine.Run.nil.snoc h₁).snoc rfl).snoc h₃).snoc h₄
  refine ⟨_, _, _, hrun, rfl, ?_⟩
  refine (nextProc_roundRobin hseg hup).2 0 2 _ _ _ rfl (by simp) (by decide) rfl hrun ?_ rfl
  intro t' ht' s' hact
  simp only [List.cons_append, List.nil_append, List.mem_cons, List.not_mem_nil, or_false] at ht'
  rcases ht' with rfl | rfl | rfl | rfl
  · cases hact
  · cases hact
    refine ⟨rfl, ?_, rfl, fun p hp => ?_⟩
    · funext p
      exact State.modifyProc_field Proc.next rfl p
    · rcases eq_or_ne p 1 with rfl | hne
      · exact absurd hp (by decide)
      · rw [State.isReady, State.modifyProc_procs_of_ne hne]
        exact hp
  · cases hact
  · cases hact

end Omb
