import Mathlib.Data.List.Basic

/-!
# Computations with a trace

`Traced σ ε α` is a computation on a state `σ` that returns an `α` and leaves a trace of
events `ε`, in the order they happen.  A computation is put together from `read`s and
`write`s, each of which is one event, and `silent` changes of the state.

`value` and `state` forget the trace, so that a computation can be compared with the function
it is a traced version of: the two are the same but for the events, and what is proved of the
function holds of the computation.

`Always P x s` says that each event of `x` from `s` satisfies `P`.  It is reduced to the parts
of `x` by `always_bind`, and where `x` starts with a read, a write or a silent change by
`always_read_bind`, `always_write_bind` and `always_silent_bind`.  So a statement about all
accesses of a piece of code is proved along its text, with the state that each part starts
from.

`bind_of_eq` is for parts of which the value, the state and the trace are known together, from
an induction over a loop for instance.

## Main results

* `value_bind`, `state_bind`: a bind without its trace
* `always_bind`: the rule for bind, from which those for reads and writes follow
-/

universe u v w

/-- A computation on `σ` with events `ε`: a function from the state to what is returned, the
state in the end and the events on the way. -/
def Traced (σ : Type u) (ε : Type v) (α : Type w) : Type (max u v w) :=
  σ → α × σ × List ε

namespace Traced

variable {σ : Type u} {ε : Type v} {α β : Type w}

/-- What is returned. -/
def value (x : Traced σ ε α) (s : σ) : α := (x s).1

/-- The state in the end. -/
def state (x : Traced σ ε α) (s : σ) : σ := (x s).2.1

/-- The events on the way. -/
def trace (x : Traced σ ε α) (s : σ) : List ε := (x s).2.2

instance : Monad (Traced σ ε) where
  pure a := fun s => (a, s, [])
  bind x f := fun s =>
    (value (f (value x s)) (state x s), state (f (value x s)) (state x s),
      trace x s ++ trace (f (value x s)) (state x s))

/-- Read from the state, with the event `e`. -/
def read (e : ε) (g : σ → α) : Traced σ ε α :=
  fun s => (g s, s, [e])

/-- Change the state, with the event `e`. -/
def write (e : ε) (g : σ → σ) : Traced σ ε PUnit :=
  fun s => (⟨⟩, g s, [e])

/-- Change the state without an event. -/
def silent (g : σ → σ) : Traced σ ε PUnit :=
  fun s => (⟨⟩, g s, [])

variable {x : Traced σ ε α} {f : α → Traced σ ε β} {k : PUnit → Traced σ ε β} {s : σ}

/-! ## Without the trace -/

theorem value_bind : value (x >>= f) s = value (f (value x s)) (state x s) := rfl

theorem state_bind : state (x >>= f) s = state (f (value x s)) (state x s) := rfl

theorem value_read_bind (e : ε) (g : σ → α) : value (read e g >>= f) s = value (f (g s)) s := rfl

theorem state_read_bind (e : ε) (g : σ → α) : state (read e g >>= f) s = state (f (g s)) s := rfl

/-- What is known of the first part of a computation.  Its events come before those of the
second. -/
theorem bind_of_eq {a : α} {s₁ : σ} {es : List ε} (h : x s = (a, s₁, es)) :
    (x >>= f) s = (value (f a) s₁, state (f a) s₁, es ++ trace (f a) s₁) := by
  show (value (f (x s).1) (x s).2.1, state (f (x s).1) (x s).2.1,
    (x s).2.2 ++ trace (f (x s).1) (x s).2.1) = _
  rw [h]

/-! ## Events that all satisfy a predicate -/

/-- All events of `x` from `s` satisfy `P`.  What happens from another state is left open. -/
def Always (P : ε → Prop) (x : Traced σ ε α) (s : σ) : Prop :=
  ∀ e ∈ trace x s, P e

variable {P : ε → Prop}

theorem always_pure (a : α) : Always P (pure a : Traced σ ε α) s :=
  fun _ he => absurd he List.not_mem_nil

theorem always_write (e : ε) (g : σ → σ) : Always P (write e g : Traced σ ε PUnit) s ↔ P e :=
  List.forall_mem_singleton

/-- **The rule for `bind`.**  The second part starts from the value and the state that the
first one leaves. -/
theorem always_bind :
    Always P (x >>= f) s ↔ Always P x s ∧ Always P (f (value x s)) (state x s) :=
  List.forall_mem_append

theorem always_read_bind (e : ε) (g : σ → α) :
    Always P (read e g >>= f) s ↔ P e ∧ Always P (f (g s)) s :=
  List.forall_mem_cons

theorem always_write_bind (e : ε) (g : σ → σ) :
    Always P (write e g >>= k) s ↔ P e ∧ Always P (k ⟨⟩) (g s) :=
  List.forall_mem_cons

theorem always_silent_bind (g : σ → σ) :
    Always P (silent g >>= k) s ↔ Always P (k ⟨⟩) (g s) :=
  Iff.rfl

end Traced
