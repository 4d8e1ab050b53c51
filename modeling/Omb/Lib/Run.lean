import Mathlib.Data.List.Basic

/-!
# Runs of a step function

A machine is a partial step function `step : σ → α → Except ξ (σ × List ε)`: in state `s` the
action `a` either goes wrong (`.error`) or leads to a next state and the events that happened
on the way.  A `Run` is a finite sequence of such steps, recorded as a trace of `Transition`s
with the state before and after each of them, so that a property of runs can speak about both.

The induction over runs is done here once.  `Run.invariant` turns a step lemma into a run
lemma; what the run is known to do at each of its steps (that it makes no process, say) is a
predicate `C` on transitions, which the step lemma may use and the run lemma asks of the whole
trace.  Since the invariant may depend on the trace so far, it can count what has happened.

Runs are built up at their end, so `Run.snoc` is the constructor and `Run.cons_inv` a lemma.
`replay` is the executable side: it performs given actions, and what it computes is a run.

## Main results

* `Run.invariant`: what holds initially and is preserved by a step holds after every run
* `Run.forall_transition`: what an invariant says of one step, for every step of the trace
* `Run.append`, `Run.split`: runs compose, and come apart at any point
* `Run.of_replay`, `exists_of_replay`: the run of a given list of actions, by evaluation
-/

namespace Machine

variable {σ α ε ξ : Type*}

/-- One step of a run: the action, the events that happened, and the states before and after.
-/
structure Transition (σ α ε : Type*) where
  pre : σ
  act : α
  events : List ε
  post : σ

/-- `Run step init tr s`: the steps `tr` lead from `init` to `s`.  A step that goes wrong is
in no run. -/
inductive Run (step : σ → α → Except ξ (σ × List ε)) (init : σ) :
    List (Transition σ α ε) → σ → Prop
  | nil : Run step init [] init
  | snoc {tr : List (Transition σ α ε)} {s s' : σ} {a : α} {evs : List ε} :
      Run step init tr s → step s a = .ok (s', evs) →
        Run step init (tr ++ [⟨s, a, evs, s'⟩]) s'

namespace Run

variable {step : σ → α → Except ξ (σ × List ε)} {init s : σ}
  {tr : List (Transition σ α ε)}

/-- **The invariant rule.**  `C` is what the run is known to do at each of its steps; the
invariant may depend on the trace so far.  In the step lemma the run up to the state is at
hand as well, so that other invariants can be used there. -/
theorem invariant {P : List (Transition σ α ε) → σ → Prop}
    {C : Transition σ α ε → Prop} (hinit : P [] init)
    (hstep : ∀ tr s a s' evs, Run step init tr s → P tr s →
      C ⟨s, a, evs, s'⟩ → step s a = .ok (s', evs) →
      P (tr ++ [⟨s, a, evs, s'⟩]) s')
    (h : Run step init tr s) (hC : ∀ t ∈ tr, C t) : P tr s := by
  induction h with
  | nil => exact hinit
  | snoc hrun hs ih =>
      refine hstep _ _ _ _ _ hrun (ih fun t ht => ?_) ?_ hs
      · exact hC t (List.mem_append_left _ ht)
      · exact hC _ (List.mem_append_right _ (List.mem_singleton_self _))

/-- Every step of a trace was taken from a state that a shorter run reaches.  What follows of
one step from an invariant of the state before holds of all steps therefore. -/
theorem forall_transition {Q : Transition σ α ε → Prop}
    (hQ : ∀ tr' s a s' evs, Run step init tr' s →
      tr' ++ [⟨s, a, evs, s'⟩] <+: tr → step s a = .ok (s', evs) →
      Q ⟨s, a, evs, s'⟩)
    (h : Run step init tr s) : ∀ t ∈ tr, Q t := by
  induction h with
  | nil => simp
  | snoc hrun hs ih =>
      intro t ht
      rcases List.mem_append.mp ht with ht | ht
      · refine ih (fun tr' s a s' evs hrun' hpre => ?_) t ht
        exact hQ tr' s a s' evs hrun' (hpre.trans (List.prefix_append ..))
      · obtain rfl := List.mem_singleton.mp ht
        exact hQ _ _ _ _ _ hrun (List.prefix_refl _) hs

end Run

/-- Perform the actions one after the other.  The result is the trace with the last state, or
what went wrong first. -/
def replay (step : σ → α → Except ξ (σ × List ε)) :
    σ → List α → Except ξ (List (Transition σ α ε) × σ)
  | s, [] => .ok ([], s)
  | s, a :: as =>
      match step s a with
      | .error e => .error e
      | .ok (s', evs) =>
          match replay step s' as with
          | .error e => .error e
          | .ok (tr, s'') => .ok (⟨s, a, evs, s'⟩ :: tr, s'')

/-- Runs compose. -/
theorem Run.append {step : σ → α → Except ξ (σ × List ε)} {init s s' : σ}
    {tr tr' : List (Transition σ α ε)} (h : Run step init tr s)
    (h' : Run step s tr' s') : Run step init (tr ++ tr') s' := by
  induction h' with
  | nil => simpa using h
  | snoc _ hs ih =>
      rw [← List.append_assoc]
      exact .snoc ih hs

/-- A run passes through the states between the parts of its trace. -/
theorem Run.split {step : σ → α → Except ξ (σ × List ε)} {init s : σ}
    {tr tr₁ tr₂ : List (Transition σ α ε)} (h : Run step init tr s) (htr : tr = tr₁ ++ tr₂) :
    ∃ m, Run step init tr₁ m ∧ Run step m tr₂ s := by
  induction h generalizing tr₂ with
  | nil =>
      obtain ⟨rfl, rfl⟩ := List.nil_eq_append_iff.mp htr
      exact ⟨init, .nil, .nil⟩
  | @snoc tr s s' a evs hrun hs ih =>
      rcases tr₂.eq_nil_or_concat with rfl | ⟨tr₂, t, rfl⟩
      · rw [List.append_nil] at htr
        exact ⟨s', htr ▸ hrun.snoc hs, .nil⟩
      · rw [List.concat_eq_append, ← List.append_assoc] at htr
        obtain ⟨hinit, hlast⟩ := List.append_inj' htr rfl
        obtain ⟨m, h₁, h₂⟩ := ih hinit
        obtain rfl := List.head_eq_of_cons_eq hlast
        exact ⟨m, h₁, by rw [List.concat_eq_append]; exact h₂.snoc hs⟩

/-- A run without steps stays where it is. -/
theorem Run.eq_init {step : σ → α → Except ξ (σ × List ε)} {init s : σ}
    {tr : List (Transition σ α ε)} (h : Run step init tr s) (htr : tr = []) : s = init := by
  cases h with
  | nil => rfl
  | snoc => exact absurd (List.append_eq_nil_iff.mp htr).2 (List.cons_ne_nil _ _)

/-- A run of one step. -/
theorem Run.singleton_inv {step : σ → α → Except ξ (σ × List ε)} {init s : σ}
    {t : Transition σ α ε} {tr : List (Transition σ α ε)} (h : Run step init tr s)
    (htr : tr = [t]) : t.pre = init ∧ t.post = s ∧ step t.pre t.act = .ok (t.post, t.events) := by
  cases h with
  | nil => cases htr
  | @snoc tr' s₁ _ a evs hrun hs =>
      have hlists : tr' ++ [⟨s₁, a, evs, s⟩] = [] ++ [t] := htr
      obtain ⟨hnil, hlast⟩ := List.append_inj' hlists rfl
      obtain rfl := hrun.eq_init hnil
      obtain rfl := List.head_eq_of_cons_eq hlast
      exact ⟨rfl, rfl, hs⟩

/-- The first step of a run. -/
theorem Run.cons_inv {step : σ → α → Except ξ (σ × List ε)} {init s : σ}
    {t : Transition σ α ε} {tr : List (Transition σ α ε)} (h : Run step init (t :: tr) s) :
    t.pre = init ∧ step t.pre t.act = .ok (t.post, t.events) ∧ Run step t.post tr s := by
  obtain ⟨m, hone, hrest⟩ := h.split List.singleton_append.symm
  obtain ⟨hpre, rfl, hs⟩ := hone.singleton_inv rfl
  exact ⟨hpre, hs, hrest⟩

/-- The first step of a replay. -/
theorem replay_cons {step : σ → α → Except ξ (σ × List ε)} {s s' : σ} {a : α} {as : List α}
    {tr : List (Transition σ α ε)} (h : replay step s (a :: as) = .ok (tr, s')) :
    ∃ m evs tr', step s a = .ok (m, evs) ∧ replay step m as = .ok (tr', s') ∧
      tr = ⟨s, a, evs, m⟩ :: tr' := by
  rw [replay] at h
  split at h
  · cases h
  · rename_i m evs hs
    split at h
    · cases h
    · rename_i tr' s'' hrest
      cases h
      exact ⟨m, evs, tr', hs, hrest, rfl⟩

/-- What `replay` computes is a run. -/
theorem Run.of_replay {step : σ → α → Except ξ (σ × List ε)} {s s' : σ}
    {as : List α} {tr : List (Transition σ α ε)}
    (h : replay step s as = .ok (tr, s')) : Run step s tr s' := by
  induction as generalizing s tr with
  | nil =>
      cases h
      exact .nil
  | cons a as ih =>
      obtain ⟨m, evs, tr', hs, hrest, rfl⟩ := replay_cons h
      exact Run.append (.snoc .nil hs) (ih hrest)

/-- A replay takes the given actions. -/
theorem map_act_of_replay {step : σ → α → Except ξ (σ × List ε)} {s s' : σ}
    {as : List α} {tr : List (Transition σ α ε)}
    (h : replay step s as = .ok (tr, s')) : tr.map Transition.act = as := by
  induction as generalizing s tr with
  | nil =>
      cases h
      rfl
  | cons a as ih =>
      obtain ⟨m, evs, tr', -, hrest, rfl⟩ := replay_cons h
      rw [List.map_cons, ih hrest]

/-- A run found by evaluation, with what was observed of it.  Only the observation `f` is
evaluated to a value, so that states, which hold functions, need not be compared. -/
theorem exists_of_replay {β : Type*} {step : σ → α → Except ξ (σ × List ε)} {s : σ} {as : List α}
    {f : List (Transition σ α ε) × σ → β} {b : β} (h : (replay step s as).map f = .ok b) :
    ∃ tr s', Run step s tr s' ∧ tr.map Transition.act = as ∧ f (tr, s') = b := by
  cases hreplay : replay step s as with
  | error e =>
      rw [hreplay] at h
      cases h
  | ok out =>
      rw [hreplay] at h
      exact ⟨out.1, out.2, .of_replay hreplay, map_act_of_replay hreplay, Except.ok.inj h⟩

end Machine
