import Omb.Kern.Removal

/-!
# Who is lost while an entry is taken out

The `cas` at the end of `proc_list_remove` never fails, since nobody else takes entries out of
the list of the running process (`removal_wait_free`).  What it does not notice is that the
node it unlinks has got a successor: it stores the `n->next` that was loaded before.  Who is
appended between the load of a nil `n->next` and that `cas` is lost, and nobody else is
(`removal_loses_overtaking`).

Both results are about a call that begins in a state a run from boot reaches.  There the lists
are linked as `QueueRep` says, which is where `Stage` starts; and that needs at most
`MAX_PROCS` processes to have been made, for one more takes a slot in use, whose list is then
lost.

`Stage` says how far a removal has come and what has been appended at which time; every step
keeps it, those of others (`Stage.others`) and those of the removal (`Stage.own`).  `AtPoint`
counts the loads along the walk, five for each node passed, and a list has no more than
`MAX_PROC_LISTS` nodes: hence the bound.  Calls of others make the list longer while it is
walked, but only behind, and never longer than the pool.

## Main results

* `Stage.others`, `Stage.own`: what a step does to a removal
* `removal_wait_free`: the removal comes to its end within a fixed number of accesses
* `removal_loses_overtaking`: who is lost to it
-/

namespace Omb

open PointerList

/-! ## Who has been appended -/

/-- Who has been put on the list of `u`. -/
def RemovingStep.appends (u : ProcRef) (t : RemovingStep) : List ProcRef :=
  t.events.filterMap fun | .added l p => if l = u then some p else none

/-- Who has been put on the list of `u`, in order. -/
def appended (u : ProcRef) (tr : List RemovingStep) : List ProcRef :=
  tr.flatMap (RemovingStep.appends u)

/-- The `cas` is about to store the nil it has loaded from `n->next`. -/
def RemovePoint.CutsOff : RemovePoint → Prop
  | .cas _ _ none => True
  | _ => False

instance (point : RemovePoint) : Decidable point.CutsOff :=
  match point with
  | .cas _ _ none => .isTrue trivial
  | .cas _ _ (some _) => .isFalse id
  | .load _ | .proc _ _ | .compare _ _ _ | .test _ _ | .advance _ | .next _ _ | .take _ | .clear _ _
  | .done _ => .isFalse id

/-- Who has been put on the list of `u` between the load of a nil `n->next` and the `cas`.
There is one such interval in a removal at most. -/
def overtaking (u : ProcRef) (tr : List RemovingStep) : List ProcRef :=
  tr.flatMap fun t => if t.pre.point.CutsOff then t.appends u else []

/-- How many accesses the removal has made. -/
def ownSteps (tr : List RemovingStep) : ℕ :=
  tr.countP fun t => t.act = .own

variable {s s' : State} {u l p w : ProcRef} {i n : ListRef} {ns ms : List ListRef}
  {spare : Set ListRef} {limbo v : Option ListRef} {nodes : Option ProcRef → List ListRef}
  {pre post : List ListRef}

/-! ## Where the removal can be -/

variable {pid : Word} {point : RemovePoint} {x x' : Removing} {a : RemovingAction}
  {evs : List RemovingEvent} {tr : List RemovingStep} {q₀ : List ProcRef} {t : RemovingStep}

/-- Where the walk is in a list of the nodes `ns`, after `k` accesses.  The nodes in front of
it have been passed, at five accesses each. -/
inductive AtPoint : RemovePoint → List ListRef → ℕ → Prop
  /-- Only an empty list has nothing behind the link. -/
  | load {pre post : List ListRef} {k : ℕ} (hpost : post = [] → pre = [])
      (hk : k ≤ 5 * pre.length) :
      AtPoint (.load pre.getLast?) (pre ++ post) k
  | proc {pre post : List ListRef} {n : ListRef} {k : ℕ} (hk : k ≤ 5 * pre.length + 1) :
      AtPoint (.proc pre.getLast? n) (pre ++ n :: post) k
  | compare {pre post : List ListRef} {n : ListRef} {w : ProcRef} {k : ℕ}
      (hk : k ≤ 5 * pre.length + 2) :
      AtPoint (.compare pre.getLast? n (some w)) (pre ++ n :: post) k
  | test {pre post : List ListRef} {n : ListRef} {k : ℕ} (hk : k ≤ 5 * pre.length + 3) :
      AtPoint (.test pre.getLast? n) (pre ++ n :: post) k
  | advance {pre post : List ListRef} {n : ListRef} {k : ℕ} (hpost : post ≠ [])
      (hk : k ≤ 5 * pre.length + 4) :
      AtPoint (.advance pre.getLast?) (pre ++ n :: post) k
  | next {pre post : List ListRef} {n : ListRef} {k : ℕ} (hk : k ≤ 5 * pre.length + 4) :
      AtPoint (.next pre.getLast? n) (pre ++ n :: post) k
  | cas {pre post : List ListRef} {n m : ListRef} {k : ℕ} (hk : k ≤ 5 * pre.length + 5) :
      AtPoint (.cas pre.getLast? n (some m)) (pre ++ n :: m :: post) k

/-- What is put behind the list does not matter. -/
theorem AtPoint.append {k : ℕ} (h : AtPoint point ns k) (ms : List ListRef) :
    AtPoint point (ns ++ ms) k := by
  cases h with
  | @load pre post k hpost hk =>
      rw [List.append_assoc]
      exact .load (fun hnil => hpost (List.append_eq_nil_iff.mp hnil).1) hk
  | proc hk =>
      rw [List.append_assoc, List.cons_append]
      exact .proc hk
  | compare hk =>
      rw [List.append_assoc, List.cons_append]
      exact .compare hk
  | test hk =>
      rw [List.append_assoc, List.cons_append]
      exact .test hk
  | advance hpost hk =>
      rw [List.append_assoc, List.cons_append]
      exact .advance (fun hnil => hpost (List.append_eq_nil_iff.mp hnil).1) hk
  | next hk =>
      rw [List.append_assoc, List.cons_append]
      exact .next hk
  | cas hk =>
      rw [List.append_assoc, List.cons_append, List.cons_append]
      exact .cas hk

theorem AtPoint.not_cutsOff {k : ℕ} (h : AtPoint point ns k) : ¬ point.CutsOff := by
  cases h <;> exact id

theorem AtPoint.steps_le {k : ℕ} (h : AtPoint point ns k) : k ≤ 5 * ns.length := by
  cases h <;>
    · simp only [List.length_append, List.length_cons]
      omega

/-- The `cas` of a walk finds the pointer it has loaded. -/
theorem Held.link_of_cas {k : ℕ} {link : Option ListRef} (h : Held s spare limbo nodes)
    (hpoint : AtPoint (.cas link n v) (nodes (some u)) k) : s.link u link = some n := by
  generalize hu : nodes (some u) = ns at hpoint
  cases hpoint
  exact h.link_eq hu

/-- After the `cas`, with `w` in the node it has taken out. -/
inductive Ending (s : State) (w : ProcRef) : RemovePoint → Set ListRef → ℕ → Prop
  | take {n : ListRef} {k : ℕ} (hw : (s.lists n).proc = some w) (hk : k ≤ 5 * maxProcLists + 1) :
      Ending s w (.take n) {n} k
  | clear {n : ListRef} {k : ℕ} (hk : k ≤ 5 * maxProcLists + 2) :
      Ending s w (.clear n (some w)) {n} k
  | done {k : ℕ} (hk : k ≤ 5 * maxProcLists + 3) : Ending s w (.done (some w)) ∅ k

theorem Ending.congr {k : ℕ} (h : Ending s w point spare k)
    (hagree : ∀ i ∈ spare, (s'.lists i).proc = (s.lists i).proc) : Ending s' w point spare k := by
  cases h with
  | take hw hk => exact .take ((hagree _ (Set.mem_singleton _)).trans hw) hk
  | clear hk => exact .clear hk
  | done hk => exact .done hk

theorem Ending.not_cutsOff {k : ℕ} (h : Ending s w point spare k) : ¬ point.CutsOff := by
  cases h <;> exact id

/-- **How far the removal has come**, with `q₀` on the list when it began.  Once the nil has
been loaded, those who come are kept apart; once the `cas` has been made, what is left of
them. -/
inductive Stage (u : ProcRef) (q₀ : List ProcRef) (tr : List RemovingStep) (x : Removing) : Prop
  /-- Nothing has been stored. -/
  | walking {nodes : Option ProcRef → List ListRef} (held : Held x.kernel ∅ none nodes)
      (empty : nodes none = [])
      (at_point : AtPoint x.point (nodes (some u)) (ownSteps tr))
      (carry : Carry x.kernel (nodes (some u)) (q₀ ++ appended u tr))
      (quiet : overtaking u tr = [])
  /-- A nil is about to be stored in front of `n`; `post` has come since it was loaded. -/
  | cutting {nodes : Option ProcRef → List ListRef} {pre post : List ListRef}
      {n : ListRef} (before : List ProcRef) (held : Held x.kernel ∅ none nodes)
      (empty : nodes none = []) (at_point : x.point = .cas pre.getLast? n none)
      (steps : ownSteps tr ≤ 5 * pre.length + 5)
      (split : nodes (some u) = pre ++ n :: post)
      (carry : Carry x.kernel (pre ++ [n]) (q₀ ++ before))
      (carry_post : Carry x.kernel post (overtaking u tr))
      (joined : appended u tr = before ++ overtaking u tr)
  /-- `w` has been taken out, and who has overtaken is cut off. -/
  | unlinked {nodes : Option ProcRef → List ListRef} {spare : Set ListRef}
      {limbo : Option ListRef} {w : ProcRef} {pre kept before : List ProcRef} (after : List ProcRef)
      (held : Held x.kernel spare limbo nodes)
      (ending : Ending x.kernel w x.point spare (ownSteps tr))
      (taken : q₀ ++ before = pre ++ w :: kept)
      (carry : Carry x.kernel (nodes (some u)) (pre ++ kept ++ after))
      (carry_lost : Carry x.kernel (nodes none) (overtaking u tr))
      (joined : appended u tr = before ++ overtaking u tr ++ after)
  /-- The list was empty. -/
  | nothing {nodes : Option ProcRef → List ListRef} (held : Held x.kernel ∅ none nodes)
      (at_point : x.point = .done none) (steps : ownSteps tr ≤ 1) (nil : q₀ = [])
      (carry : Carry x.kernel (nodes (some u)) (appended u tr)) (quiet : overtaking u tr = [])

/-! ### What a step adds to the trace -/

theorem appended_snoc : appended u (tr ++ [t]) = appended u tr ++ t.appends u := by
  simp [appended]

theorem overtaking_snoc_of_not (h : ¬ t.pre.point.CutsOff) :
    overtaking u (tr ++ [t]) = overtaking u tr := by
  simp [overtaking, h]

theorem overtaking_snoc (h : t.pre.point.CutsOff) :
    overtaking u (tr ++ [t]) = overtaking u tr ++ t.appends u := by
  simp [overtaking, h]

theorem ownSteps_snoc : ownSteps (tr ++ [t]) = ownSteps tr + if t.act = .own then 1 else 0 := by
  simp [ownSteps, List.countP_append, List.countP_singleton]

/-! ### Steps of others -/

/-- A call of another process: the list of `u` gets the nodes `ms`, with who is appended.  All
other lists are as linked as they were. -/
theorem Held.others (h : Held x.kernel spare limbo nodes)
    (hstep : removingStep u pid x a = .ok (x', evs)) (ha : a ≠ .own) :
    x'.point = x.point ∧ ∃ nodes' ms, Held x'.kernel spare limbo nodes' ∧
      nodes' none = nodes none ∧ nodes' (some u) = nodes (some u) ++ ms ∧
      Carry x'.kernel ms (RemovingStep.appends u ⟨x, a, evs, x'⟩) ∧
      ∀ i, i ∈ nodes (some u) ∨ i ∈ nodes none ∨ i ∈ spare →
        (x'.kernel.lists i).proc = (x.kernel.lists i).proc := by
  cases a with
  | own => exact absurd rfl ha
  | add l p =>
      rw [removingStep] at hstep
      split at hstep
      · cases hstep
      · cases hstep
        exact ⟨rfl, nodes, [], h, rfl, by simp, carry_nil, fun i _ => rfl⟩
      · rename_i s' hadd
        cases hstep
        obtain ⟨n, hheld, hn, hsame⟩ := h.add hadd
        have hused : ∀ i, i ∈ nodes (some u) ∨ i ∈ nodes none ∨ i ∈ spare →
            (s'.lists i).proc = (x.kernel.lists i).proc := by
          rintro i (hi | hi | hi)
          · exact hsame i ((h.used i).mpr (.inl ⟨_, hi⟩))
          · exact hsame i ((h.used i).mpr (.inl ⟨_, hi⟩))
          · exact hsame i ((h.used i).mpr (.inr hi))
        have hnone : Function.update nodes (some l) (nodes (some l) ++ [n]) none = nodes none :=
          Function.update_of_ne (Option.some_ne_none l).symm ..
        by_cases hl : l = u
        · subst hl
          refine ⟨rfl, _, [n], hheld, hnone, Function.update_self .., ?_, hused⟩
          simpa [RemovingStep.appends] using carry_singleton hn
        · refine ⟨rfl, _, [], hheld, hnone, ?_, ?_, hused⟩
          · rw [Function.update_of_ne (fun heq => hl (Option.some.inj heq).symm), List.append_nil]
          · simpa [RemovingStep.appends, hl] using carry_nil
  | remove l pid' =>
      rw [removingStep] at hstep
      split at hstep
      · cases hstep
      · rename_i hl
        split at hstep
        · cases hstep
        · cases hstep
          exact ⟨rfl, nodes, [], h, rfl, by simp, carry_nil, fun i _ => rfl⟩
        · rename_i w s' hremove
          cases hstep
          obtain ⟨ns, hheld, hsame⟩ := h.remove hremove
          refine ⟨rfl, _, [], hheld, Function.update_of_ne (Option.some_ne_none l).symm .., ?_,
            carry_nil, ?_⟩
          · rw [Function.update_of_ne (fun heq => hl (Option.some.inj heq).symm), List.append_nil]
          · rintro i (hi | hi | hi)
            · exact hsame i fun hi' =>
                hl (Option.some.inj (h.family.disjoint _ _ i hi hi')).symm
            · exact hsame i fun hi' =>
                Option.some_ne_none l (h.family.disjoint _ _ i hi hi').symm
            · exact hsame i (h.apart i hi _)

theorem Stage.others (h : Stage u q₀ tr x)
    (hstep : removingStep u pid x a = .ok (x', evs)) (ha : a ≠ .own) :
    Stage u q₀ (tr ++ [⟨x, a, evs, x'⟩]) x' := by
  have hsteps : ownSteps (tr ++ [⟨x, a, evs, x'⟩]) = ownSteps tr := by
    rw [ownSteps_snoc, if_neg ha, Nat.add_zero]
  cases h with
  | @walking nodes held empty at_point carry quiet =>
      obtain ⟨hpoint, nodes', ms, held', hnone, hu, hms, hsame⟩ := held.others hstep ha
      refine .walking held' (hnone.trans empty) ?_ ?_ ?_
      · rw [hpoint, hu, hsteps]
        exact at_point.append ms
      · rw [appended_snoc, ← List.append_assoc, hu]
        exact (carry.congr fun i hi => hsame i (.inl hi)).append hms
      · rw [overtaking_snoc_of_not at_point.not_cutsOff, quiet]
  | @cutting nodes pre post n before held empty at_point steps split carry carry_post joined =>
      obtain ⟨hpoint, nodes', ms, held', hnone, hu, hms, hsame⟩ := held.others hstep ha
      have hcuts : x.point.CutsOff := by
        rw [at_point]
        trivial
      rw [split] at hsame
      have hpost : Carry x'.kernel (post ++ ms) (overtaking u (tr ++ [⟨x, a, evs, x'⟩])) := by
        rw [overtaking_snoc hcuts]
        exact (carry_post.congr fun i hi => hsame i (.inl (by simp [hi]))).append hms
      refine .cutting before held' (hnone.trans empty) (hpoint.trans at_point) (hsteps ▸ steps) ?_
        (carry.congr fun i hi => hsame i (.inl ?_)) hpost ?_
      · rw [hu, split, List.append_assoc, List.cons_append]
      · simp only [List.mem_append, List.mem_cons] at hi ⊢
        tauto
      · rw [appended_snoc, overtaking_snoc hcuts, joined, List.append_assoc]
  | @unlinked nodes spare limbo w pre kept before after held ending taken carry carry_lost joined =>
      obtain ⟨hpoint, nodes', ms, held', hnone, hu, hms, hsame⟩ := held.others hstep ha
      refine .unlinked (after ++ RemovingStep.appends u ⟨x, a, evs, x'⟩) held' ?_ taken ?_ ?_ ?_
      · rw [hpoint, hsteps]
        exact ending.congr fun i hi => hsame i (.inr (.inr hi))
      · rw [hu, ← List.append_assoc]
        exact (carry.congr fun i hi => hsame i (.inl hi)).append hms
      · rw [hnone, overtaking_snoc_of_not ending.not_cutsOff]
        exact carry_lost.congr fun i hi => hsame i (.inr (.inl hi))
      · rw [appended_snoc, overtaking_snoc_of_not ending.not_cutsOff, joined,
          List.append_assoc _ after]
  | @nothing nodes held at_point steps nil carry quiet =>
      obtain ⟨hpoint, nodes', ms, held', hnone, hu, hms, hsame⟩ := held.others hstep ha
      refine .nothing held' (hpoint.trans at_point) (hsteps ▸ steps) nil ?_ ?_
      · rw [appended_snoc, hu]
        exact (carry.congr fun i hi => hsame i (.inl hi)).append hms
      · rw [overtaking_snoc_of_not (by rw [at_point]; exact id), quiet]

/-! ### Steps of the removal -/

theorem appended_own : appended u (tr ++ [⟨x, .own, [], x'⟩]) = appended u tr := by
  rw [appended_snoc]
  exact List.append_nil _

theorem overtaking_own : overtaking u (tr ++ [⟨x, .own, [], x'⟩]) = overtaking u tr := by
  by_cases h : x.point.CutsOff
  · rw [overtaking_snoc h]
    exact List.append_nil _
  · exact overtaking_snoc_of_not h

theorem ownSteps_own : ownSteps (tr ++ [⟨x, .own, [], x'⟩]) = ownSteps tr + 1 := by
  rw [ownSteps_snoc, if_pos rfl]

/-- A load leads on along the list. -/
theorem Held.walk_on {point' : RemovePoint} (held : Held s ∅ none nodes) (empty : nodes none = [])
    (at_point : AtPoint point' (nodes (some u)) (ownSteps tr + 1))
    (carry : Carry s (nodes (some u)) (q₀ ++ appended u tr)) (quiet : overtaking u tr = []) :
    Stage u q₀ (tr ++ [⟨⟨s, point⟩, .own, [], ⟨s, point'⟩⟩]) ⟨s, point'⟩ := by
  refine .walking held empty ?_ ?_ ?_
  · rw [ownSteps_own]
    exact at_point
  · rw [appended_own]
    exact carry
  · rw [overtaking_own, quiet]

/-- The `cas` takes `n` out from in front of `m`. -/
theorem Held.take_next {m : ListRef} (held : Held s ∅ none nodes) (empty : nodes none = [])
    (steps : ownSteps tr ≤ 5 * pre.length + 5) (split : nodes (some u) = pre ++ n :: m :: post)
    (carry : Carry s (nodes (some u)) (q₀ ++ appended u tr)) (quiet : overtaking u tr = []) :
    ∃ s' point', removePoint s u pid (.cas pre.getLast? n (some m)) = .ok (s', point') ∧
      Stage u q₀ (tr ++ [⟨⟨s, .cas pre.getLast? n (some m)⟩, .own, [], ⟨s', point'⟩⟩])
        ⟨s', point'⟩ := by
  have hlink := held.link_eq split
  have hlen := held.length_le (some u)
  have hunlink := held.unlink split
  rw [held.next_eq split, insert_empty_eq] at hunlink
  rw [split] at carry hlen
  obtain ⟨q₁, q₂, hq, hq₁, hq₂⟩ := carry.split
  obtain ⟨w, kept, rfl, hw, hkept⟩ := hq₂.cons_inv
  refine ⟨s.setLink u pre.getLast? (some m), .take n, ?_,
    .unlinked [] hunlink ?_ hq ?_ ?_ ?_⟩
  · rw [removePoint, hlink]
    exact if_pos rfl
  · rw [ownSteps_own]
    refine .take ((setLink_proc ..).trans hw) ?_
    simp only [List.length_append, List.length_cons] at hlen
    omega
  · rw [Function.update_self, List.append_nil]
    exact (hq₁.append hkept).congr fun i _ => setLink_proc ..
  · rw [Function.update_of_ne (Option.some_ne_none u).symm, empty, overtaking_own, quiet]
    exact carry_nil
  · rw [appended_own, overtaking_own, quiet, List.append_nil, List.append_nil]

/-- The `cas` succeeds: nobody else takes entries out.  What has come behind `n` is cut off. -/
theorem Held.cut_off {before : List ProcRef} (held : Held s ∅ none nodes)
    (empty : nodes none = []) (steps : ownSteps tr ≤ 5 * pre.length + 5)
    (split : nodes (some u) = pre ++ n :: post) (carry : Carry s (pre ++ [n]) (q₀ ++ before))
    (carry_post : Carry s post (overtaking u tr))
    (joined : appended u tr = before ++ overtaking u tr) :
    ∃ s' point', removePoint s u pid (.cas pre.getLast? n none) = .ok (s', point') ∧
      Stage u q₀ (tr ++ [⟨⟨s, .cas pre.getLast? n none⟩, .own, [], ⟨s', point'⟩⟩])
        ⟨s', point'⟩ := by
  have hlink := held.link_eq split
  have hcut := held.cut split empty
  rw [insert_empty_eq] at hcut
  obtain ⟨q₁, q₂, hq, hq₁, hq₂⟩ := carry.split
  obtain ⟨w, kept, rfl, hw, hkept⟩ := hq₂.cons_inv
  obtain rfl := hkept.eq_nil
  have hne : (none : Option ProcRef) ≠ some u := (Option.some_ne_none u).symm
  refine ⟨s.setLink u pre.getLast? none, .take n, ?_, .unlinked [] hcut ?_ hq ?_ ?_ ?_⟩
  · rw [removePoint, hlink]
    exact if_pos rfl
  · have hlen := held.length_le (some u)
    rw [split, List.length_append, List.length_cons] at hlen
    rw [ownSteps_own]
    exact .take ((setLink_proc ..).trans hw) (by omega)
  · rw [Function.update_of_ne hne.symm, Function.update_self, List.append_nil, List.append_nil]
    exact hq₁.congr fun i _ => setLink_proc ..
  · rw [Function.update_self, overtaking_own]
    exact carry_post.congr fun i _ => setLink_proc ..
  · rw [appended_own, overtaking_own, joined, List.append_nil]

/-- The walk goes on, or is over at an empty list, or at the node it takes out. -/
theorem Held.walk (held : Held s ∅ none nodes) (empty : nodes none = [])
    (at_point : AtPoint point (nodes (some u)) (ownSteps tr))
    (carry : Carry s (nodes (some u)) (q₀ ++ appended u tr)) (quiet : overtaking u tr = []) :
    ∃ s' point', removePoint s u pid point = .ok (s', point') ∧
      Stage u q₀ (tr ++ [⟨⟨s, point⟩, .own, [], ⟨s', point'⟩⟩]) ⟨s', point'⟩ := by
  -- most accesses are loads
  have hwalk : ∀ point', AtPoint point' (nodes (some u)) (ownSteps tr + 1) →
      Stage u q₀ (tr ++ [⟨⟨s, point⟩, .own, [], ⟨s, point'⟩⟩]) ⟨s, point'⟩ :=
    fun point' hpoint => held.walk_on empty hpoint carry quiet
  generalize hu : nodes (some u) = ns at at_point hwalk carry
  generalize hk : ownSteps tr = k at at_point hwalk
  cases at_point with
  | @load pre post k hpost hle =>
      have hlink := held.link_eq hu
      cases post with
      | nil =>
          obtain rfl := hpost rfl
          refine ⟨s, .done none, ?_, .nothing held rfl ?_ ?_ ?_ ?_⟩
          · rw [removePoint, hlink]
            rfl
          · rw [ownSteps_own, hk]
            simpa using hle
          · exact (List.append_eq_nil_iff.mp carry.eq_nil).1
          · rw [appended_own, hu, (List.append_eq_nil_iff.mp carry.eq_nil).2]
            exact carry_nil
          · rw [overtaking_own, quiet]
      | cons n post =>
          refine ⟨s, .proc pre.getLast? n, ?_, hwalk _ (.proc (by omega))⟩
          rw [removePoint, hlink]
          rfl
  | @proc pre post n k hle =>
      obtain ⟨w, hw⟩ := held.exists_proc (k := some u) (i := n) (by simp [hu])
      refine ⟨s, .compare pre.getLast? n (some w), ?_, hwalk _ (.compare (by omega))⟩
      rw [removePoint, hw]
  | @compare pre post n w k hle =>
      rw [removePoint]
      by_cases hpid : (s.procs w).pid = pid
      · exact ⟨s, .next pre.getLast? n, by simp [hpid], hwalk _ (.next (by omega))⟩
      · exact ⟨s, .test pre.getLast? n, by simp [hpid], hwalk _ (.test (by omega))⟩
  | @test pre post n k hle =>
      have hnext := held.next_eq hu
      rw [removePoint, hnext]
      cases post with
      | nil => exact ⟨s, .next pre.getLast? n, rfl, hwalk _ (.next (by omega))⟩
      | cons m post =>
          exact ⟨s, .advance pre.getLast?, rfl,
            hwalk _ (.advance (List.cons_ne_nil m post) (by omega))⟩
  | @advance pre post n k hpost hle =>
      have hlink := held.link_eq hu
      have hlast : (pre ++ [n]).getLast? = some n := List.getLast?_concat
      refine ⟨s, .load (some n), ?_, hwalk _ ?_⟩
      · rw [removePoint, hlink]
        rfl
      · rw [← hlast, List.append_cons pre n post]
        refine .load (fun hnil => absurd hnil hpost) ?_
        rw [List.length_append, List.length_singleton]
        omega
  | @next pre post n k hle =>
      have hnext := held.next_eq hu
      rw [removePoint, hnext]
      cases post with
      | nil =>
          refine ⟨s, .cas pre.getLast? n none, rfl, ?_⟩
          refine .cutting (appended u tr) held empty rfl ?_ hu ?_ ?_ ?_
          · rw [ownSteps_own, hk]
            omega
          · exact carry
          · rw [overtaking_own, quiet]
            exact carry_nil
          · rw [appended_own, overtaking_own, quiet, List.append_nil]
      | cons m post =>
          exact ⟨s, .cas pre.getLast? n (some m), rfl, hwalk _ (.cas (by omega))⟩
  | @cas pre post n m k hle =>
      refine held.take_next empty ?_ hu ?_ quiet
      · rw [hk]
        exact hle
      · rw [hu]
        exact carry

/-- **One access.**  It comes off, unless the removal has returned. -/
theorem Stage.own (h : Stage u q₀ tr x) (hdone : ∀ p, x.point ≠ .done p) (pid : Word) :
    ∃ s' point', removePoint x.kernel u pid x.point = .ok (s', point') ∧
      Stage u q₀ (tr ++ [⟨x, .own, [], ⟨s', point'⟩⟩]) ⟨s', point'⟩ := by
  obtain ⟨s, point⟩ := x
  cases h with
  | walking held empty at_point carry quiet => exact held.walk empty at_point carry quiet
  | cutting before held empty at_point steps split carry carry_post joined =>
      cases at_point
      exact held.cut_off empty steps split carry carry_post joined
  | @unlinked nodes spare limbo w pre kept before after held ending taken carry carry_lost joined =>
      generalize hk : ownSteps tr = k at ending
      cases ending with
      | @take n k hw hle =>
          refine ⟨s, .clear n (s.lists n).proc, rfl, ?_⟩
          simp only at hw
          rw [hw]
          refine .unlinked after held ?_ taken carry ?_ ?_
          · rw [ownSteps_own, hk]
            exact .clear (by omega)
          · rw [overtaking_own]
            exact carry_lost
          · rw [appended_own, overtaking_own]
            exact joined
      | @clear n k hle =>
          have hclear := held.clear (Set.mem_singleton n)
          have hsame : ∀ k, ∀ i ∈ nodes k,
              ((s.modifyList n fun e => { e with proc := none }).lists i).proc =
                (s.lists i).proc := by
            intro k i hi
            rw [State.modifyList_lists_of_ne]
            rintro rfl
            exact held.apart i (Set.mem_singleton i) k hi
          rw [sdiff_self] at hclear
          refine ⟨_, .done (some w), rfl, .unlinked after hclear ?_ taken ?_ ?_ ?_⟩
          · rw [ownSteps_own, hk]
            exact .done (by omega)
          · exact carry.congr (hsame _)
          · rw [overtaking_own]
            exact carry_lost.congr (hsame _)
          · rw [appended_own, overtaking_own]
            exact joined
      | done hle => exact absurd rfl (hdone _)
  | nothing held at_point steps nil carry quiet => exact absurd at_point (hdone none)

/-! ## Runs -/

theorem Stage.step (h : Stage u q₀ tr x) (hstep : removingStep u pid x a = .ok (x', evs)) :
    Stage u q₀ (tr ++ [⟨x, a, evs, x'⟩]) x' := by
  by_cases ha : a = .own
  · subst ha
    have hdone : ∀ p, x.point ≠ .done p := by
      intro p hp
      rw [removingStep, hp] at hstep
      cases hstep
    obtain ⟨s', point', hown, hstage⟩ := h.own hdone pid
    rw [removingStep, hown] at hstep
    cases hstep
    exact hstage
  · exact h.others hstep ha

/-- A call of `proc_list_remove` in a state of the kernel, with others inside. -/
theorem stage_of_run {tr₀ : List KStep} (hrun : KernelRun tr₀ s) (hn : created tr₀ ≤ maxProcs)
    (h : Machine.Run (removingStep u pid) ⟨s, .load none⟩ tr x) :
    ∃ q₀, Linked s u q₀ ∧ Stage u q₀ tr x := by
  obtain ⟨Q, hinv⟩ := hrun.inv hn
  obtain ⟨nodes, hrep⟩ := hinv.queues
  refine ⟨Q u, hrep.held.linked (hrep.entries u), ?_⟩
  refine Machine.Run.invariant (C := fun _ => True) ?_ ?_ h fun _ _ => trivial
  · refine .walking hrep.held rfl ?_ ?_ rfl
    · exact @AtPoint.load [] _ _ (fun _ => rfl) (Nat.zero_le _)
    · exact (hrep.entries u).trans (by simp [appended])
  · exact fun tr x a x' evs _ hstage _ hstep => hstage.step hstep

theorem Stage.steps_le (h : Stage u q₀ tr x) : ownSteps tr ≤ 5 * maxProcLists + 3 := by
  cases h with
  | walking held empty at_point =>
      have hlen := held.length_le (some u)
      have hle := at_point.steps_le
      omega
  | cutting before held empty at_point steps split =>
      have hlen := held.length_le (some u)
      rw [split, List.length_append, List.length_cons] at hlen
      omega
  | unlinked after held ending =>
      generalize x.point = point at ending
      cases ending <;> omega
  | nothing held at_point steps => omega

theorem Stage.link_of_cas {link : Option ListRef} (h : Stage u q₀ tr x)
    (hpoint : x.point = .cas link n v) : x.kernel.link u link = some n := by
  cases h with
  | walking held empty at_point =>
      rw [hpoint] at at_point
      exact held.link_of_cas at_point
  | cutting before held empty at_point steps split =>
      rw [hpoint] at at_point
      cases at_point
      exact held.link_eq split
  | unlinked after held ending =>
      rw [hpoint] at ending
      cases ending
  | nothing held at_point =>
      rw [hpoint] at at_point
      cases at_point

/-- A run in which process 2 is put on the list of process 1 just before the `cas` that takes
process 0 out of it. -/
theorem exists_overtaking :
    ∃ tr₀ s tr x, KernelRun tr₀ s ∧ created tr₀ ≤ maxProcs ∧
      Machine.Run (removingStep 1 0) ⟨s, .load none⟩ tr x ∧ x.point = .done (some 0) ∧
      overtaking 1 tr = [2] := by
  obtain ⟨tr₀, s, hrun, hP⟩ := exists_exampleRun
    [.resume, .syscall (.procCreate 0x10000 0x11000), .syscall (.procCreate 0x12000 0x13000),
      .syscall (.send 1)]
    (fun tr s => created tr ≤ maxProcs ∧
      ((Machine.replay (removingStep 1 0) ⟨s, .load none⟩
        [.own, .own, .own, .own, .add 1 2, .own, .own, .own]).map fun out =>
          decide (out.2.point = .done (some 0) ∧ overtaking 1 out.1 = [2])) = .ok true)
    (by decide +kernel)
  rw [decide_eq_true_eq] at hP
  obtain ⟨tr, x, hrun', -, hout⟩ := Machine.exists_of_replay hP.2
  rw [decide_eq_true_eq] at hout
  exact ⟨tr₀, s, tr, x, KernelRun.of_bootRun hrun, hP.1, hrun', hout⟩

/-- **`proc_list_remove` never waits.**  Whatever comes in between, its `cas` does not fail,
it follows no nil pointer, and it returns within `5 * MAX_PROC_LISTS + 3` accesses.  `hrun`
and `hn` are for the lists to be in order when it begins; nothing is asked of what comes in
between but that others leave the list of `u` to `u`, as `removingStep` says. -/
theorem removal_wait_free {tr₀ : List KStep} (hrun : KernelRun tr₀ s)
    (hn : created tr₀ ≤ maxProcs)
    (h : Machine.Run (removingStep u pid) ⟨s, .load none⟩ tr x) :
    ownSteps tr ≤ 5 * maxProcLists + 3 ∧
      (∀ l n v, x.point = .cas l n v → x.kernel.link u l = some n) ∧
      ((∀ p, x.point ≠ .done p) → ∃ x', removingStep u pid x .own = .ok (x', [])) := by
  obtain ⟨q₀, -, hstage⟩ := stage_of_run hrun hn h
  refine ⟨hstage.steps_le, fun l n v hpoint => hstage.link_of_cas hpoint, fun hdone => ?_⟩
  obtain ⟨s', point', hown, -⟩ := hstage.own hdone pid
  refine ⟨⟨s', point'⟩, ?_⟩
  rw [removingStep, hown]
  rfl

/-- Process 0 is taken out of the list of process 1 while process 2 is put there. -/
theorem removal_wait_free_of_overtaking :
    ∃ tr₀ s tr x, KernelRun tr₀ s ∧
      Machine.Run (removingStep 1 0) ⟨s, .load none⟩ tr x ∧ overtaking 1 tr = [2] ∧
      ownSteps tr ≤ 5 * maxProcLists + 3 ∧
      (∀ l n v, x.point = .cas l n v → x.kernel.link 1 l = some n) ∧
      ((∀ p, x.point ≠ .done p) → ∃ x', removingStep 1 0 x .own = .ok (x', [])) := by
  obtain ⟨tr₀, s, tr, x, h, hn, hrun, -, hover⟩ := exists_overtaking
  exact ⟨tr₀, s, tr, x, h, hrun, hover, removal_wait_free h hn hrun⟩

/-- **Who is lost.**  The list is as if the entry had been taken out at once, and everybody
appended before or after, except for those who come between the load of a nil `n->next` and
the `cas`: their nodes stay in use and are in no list.  So they wait for ever, and the pool
has fewer nodes. -/
theorem removal_loses_overtaking {tr₀ : List KStep} {result : Option ProcRef}
    (hrun : KernelRun tr₀ s) (hn : created tr₀ ≤ maxProcs)
    (h : Machine.Run (removingStep u pid) ⟨s, .load none⟩ tr x) (hdone : x.point = .done result) :
    ∃ q₀, Linked s u q₀ ∧
      (result = none → q₀ = [] ∧ overtaking u tr = [] ∧ Linked x.kernel u (appended u tr)) ∧
      ∀ w, result = some w → ∃ before after pre kept,
        appended u tr = before ++ overtaking u tr ++ after ∧
        q₀ ++ before = pre ++ w :: kept ∧ Linked x.kernel u (pre ++ kept ++ after) ∧
        ∃ lost, Carry x.kernel lost (overtaking u tr) ∧
          ∀ l ns, Seg (fun i => (x.kernel.lists i).next) (x.kernel.procs l).waiting ns →
            ∀ i ∈ lost, i ∉ ns := by
  obtain ⟨q₀, hlinked, hstage⟩ := stage_of_run hrun hn h
  refine ⟨q₀, hlinked, ?_⟩
  cases hstage with
  | walking held empty at_point =>
      rw [hdone] at at_point
      cases at_point
  | cutting before held empty at_point =>
      rw [hdone] at at_point
      cases at_point
  | @unlinked nodes spare limbo w pre kept before after held ending taken carry carry_lost joined =>
      rw [hdone] at ending
      cases ending with
      | done hle =>
          refine ⟨fun hnone => absurd hnone (Option.some_ne_none w), fun w' hw => ?_⟩
          obtain rfl := Option.some.inj hw
          refine ⟨before, after, pre, kept, joined, taken, held.linked carry, nodes none,
            carry_lost, fun l ns hseg i hi hmem => ?_⟩
          rw [hseg.unique (held.family.seg (some l))] at hmem
          exact Option.some_ne_none l (held.family.disjoint _ _ i hmem hi)
  | nothing held at_point steps nil carry quiet =>
      rw [hdone] at at_point
      cases at_point
      exact ⟨fun _ => ⟨nil, quiet, held.linked carry⟩,
        fun w hw => absurd hw.symm (Option.some_ne_none w)⟩

/-- Process 2 is lost. -/
theorem removal_loses_process_two :
    ∃ tr₀ s tr x q₀, KernelRun tr₀ s ∧
      Machine.Run (removingStep 1 0) ⟨s, .load none⟩ tr x ∧ overtaking 1 tr = [2] ∧
      Linked s 1 q₀ ∧ ∃ before after pre kept,
        appended 1 tr = before ++ overtaking 1 tr ++ after ∧
        q₀ ++ before = pre ++ 0 :: kept ∧ Linked x.kernel 1 (pre ++ kept ++ after) ∧
        ∃ lost, Carry x.kernel lost (overtaking 1 tr) ∧
          ∀ l ns, Seg (fun i => (x.kernel.lists i).next) (x.kernel.procs l).waiting ns →
            ∀ i ∈ lost, i ∉ ns := by
  obtain ⟨tr₀, s, tr, x, h, hn, hrun, hdone, hover⟩ := exists_overtaking
  obtain ⟨q₀, hlinked, -, hlost⟩ := removal_loses_overtaking h hn hrun hdone
  exact ⟨tr₀, s, tr, x, q₀, h, hrun, hover, hlinked, hlost 0 rfl⟩

end Omb
