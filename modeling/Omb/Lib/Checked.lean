import Mathlib.Data.List.Basic

/-!
# Computations that may fail, with a trace

`Checked ε ξ α` is a computation that returns an `α` or goes wrong with a `ξ`, and in either
case leaves a trace of events `ε`, in the order they happen.  What goes wrong still has the
events up to there: a program that reads behind a buffer and faults has read behind it.

There is no state.  A program that is a function of its input, such as a parser, is given its
input as an argument, and the events are the places it has looked at.

`Always P x` says that each event of `x` satisfies `P`.  It is reduced to the parts of `x` by
`always_bind`, where the second part counts only if the first one returns; and `result_bind`
does the same for what `x` returns, so that a computation can be compared with the function it
is a version of.

`trace_bind_of_ok` and `trace_bind_of_error` compute traces themselves, for statements about
what exactly is read.

## Main results

* `result_bind`: the result of a bind
* `always_bind`: the rule for bind
-/

universe u v w

/-- A trace of events, and what is returned.  The trace is there in any case. -/
structure Checked (ε : Type u) (ξ : Type v) (α : Type w) where
  trace : List ε
  result : Except ξ α

namespace Checked

variable {ε : Type u} {ξ : Type v} {α β : Type w}

/-- What happens after a computation: nothing if it has gone wrong, so there are no more
events then. -/
def andThen (r : Except ξ α) (f : α → Checked ε ξ β) : Checked ε ξ β :=
  match r with
  | .ok a => f a
  | .error e => ⟨[], .error e⟩

instance : Monad (Checked ε ξ) where
  pure a := ⟨[], .ok a⟩
  bind x f := ⟨x.trace ++ (andThen x.result f).trace, (andThen x.result f).result⟩

/-- One event. -/
def event (e : ε) : Checked ε ξ PUnit := ⟨[e], .ok ⟨⟩⟩

/-- Events one after the other. -/
def events (l : List ε) : Checked ε ξ PUnit := ⟨l, .ok ⟨⟩⟩

/-- To go wrong. -/
def fail (x : ξ) : Checked ε ξ α := ⟨[], .error x⟩

/-- A computation without events. -/
def lift (r : Except ξ α) : Checked ε ξ α := ⟨[], r⟩

variable {x : Checked ε ξ α} {f : α → Checked ε ξ β} {k : PUnit → Checked ε ξ β}

/-! ## Without the trace -/

@[simp] theorem result_event_bind (e : ε) : (event e >>= k).result = (k ⟨⟩).result := rfl

/-- **The result of a `bind`**: that of the second part, or the error of the first.  Traces
play no role in it. -/
theorem result_bind : (x >>= f).result =
    match x.result with
    | .ok a => (f a).result
    | .error e => .error e := by
  show (andThen x.result f).result = _
  cases x.result <;> rfl

theorem result_bind_of_ok {a : α} (h : x.result = .ok a) :
    (x >>= f).result = (f a).result := by
  rw [result_bind, h]

/-- After what has returned. -/
theorem mk_bind (t : List ε) (a : α) : ((⟨t, .ok a⟩ : Checked ε ξ α) >>= f) =
    ⟨t ++ (f a).trace, (f a).result⟩ := rfl

/-! ## The trace -/

@[simp] theorem trace_pure (a : α) : (pure a : Checked ε ξ α).trace = [] := rfl

@[simp] theorem trace_event_bind (e : ε) : (event e >>= k).trace = e :: (k ⟨⟩).trace := rfl

theorem trace_bind_of_ok {a : α} (h : x.result = .ok a) :
    (x >>= f).trace = x.trace ++ (f a).trace := by
  show x.trace ++ (andThen x.result f).trace = _
  rw [h]
  rfl

theorem trace_bind_of_error {e : ξ} (h : x.result = .error e) : (x >>= f).trace = x.trace := by
  show x.trace ++ (andThen x.result f).trace = _
  rw [h]
  exact List.append_nil _

/-! ## Events that all satisfy a predicate -/

/-- All events of `x` satisfy `P`. -/
def Always (P : ε → Prop) (x : Checked ε ξ α) : Prop :=
  ∀ e ∈ x.trace, P e

variable {P : ε → Prop}

@[simp] theorem always_pure (a : α) : Always P (pure a : Checked ε ξ α) :=
  fun _ he => absurd he List.not_mem_nil

@[simp] theorem always_fail (e : ξ) : Always P (fail e : Checked ε ξ α) :=
  fun _ he => absurd he List.not_mem_nil

theorem always_event_bind (e : ε) : Always P (event e >>= k) ↔ P e ∧ Always P (k ⟨⟩) :=
  List.forall_mem_cons

/-- **The rule for `bind`.**  The second part has events only if the first one has returned.
-/
theorem always_bind :
    Always P (x >>= f) ↔ Always P x ∧ ∀ a, x.result = .ok a → Always P (f a) := by
  cases h : x.result with
  | ok a =>
      rw [Always, trace_bind_of_ok h, List.forall_mem_append]
      simp only [Except.ok.injEq, forall_eq', Always]
  | error e =>
      rw [Always, trace_bind_of_error h]
      simp only [reduceCtorEq, false_imp_iff, implies_true, and_true, Always]

end Checked
