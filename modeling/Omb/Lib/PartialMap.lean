import Mathlib.Algebra.Order.BigOperators.Group.Finset
import Mathlib.Algebra.Order.Group.Multiset
import Mathlib.Data.Fintype.Basic

/-!
# Moving the values of a finite partial map

A partial map over a finite type of keys holds the multiset `values f` of its values. `move f
src dst` takes the value at `src` to `dst`; `moves f src dst n` does so at the keys `src i`,
`dst i` for each `i < n` in turn.

A move never makes a value occur more often, and loses exactly what `dst` held before it
(`values_move`).  So a series of moves loses what its targets hold when their turn comes
(`values_moves`), and the values afterwards are at most those before.

For a series whose targets all differ, `values_moves_eq_iff` says when nothing is lost: each
target has to be free from the start, or to have been the source of an earlier move.  That the
targets differ is needed for that: a target that is used twice holds what the first of the two
moves has put there.

Multisets make the statement about values and not about where they are, which is what is asked
of a transfer: no value is duplicated and none is lost.

## Main results

* `values_move`: one move loses what was at its target
* `values_moves`: what a series of moves loses
* `values_moves_eq_iff`: when a series of moves loses nothing
-/

namespace PartialMap

variable {κ α : Type*}

/-- At most one value, as a multiset. -/
def ofOption (o : Option α) : Multiset α :=
  o.elim 0 fun a => {a}

@[simp] theorem ofOption_none : ofOption (none : Option α) = 0 := rfl

theorem ofOption_eq_zero {o : Option α} : ofOption o = 0 ↔ o = none := by
  cases o with
  | none => simp
  | some a => simp [ofOption]

/-- The values of the map, each as often as it is held.  A comparison of such multisets must
not enumerate the keys, of which there may be `2 ^ 32`. -/
@[irreducible] def values [Fintype κ] (f : κ → Option α) : Multiset α :=
  ∑ k, ofOption (f k)

variable [DecidableEq κ] {f : κ → Option α}

theorem values_update [Fintype κ] (f : κ → Option α) (k : κ) (o : Option α) :
    values (Function.update f k o) + ofOption (f k) = values f + ofOption o := by
  have hold := Finset.add_sum_erase Finset.univ (fun j => ofOption (f j)) (Finset.mem_univ k)
  have hnew := Finset.add_sum_erase Finset.univ (fun j => ofOption (Function.update f k o j))
    (Finset.mem_univ k)
  have hrest : ∑ j ∈ Finset.univ.erase k, ofOption (Function.update f k o j) =
      ∑ j ∈ Finset.univ.erase k, ofOption (f j) := by
    apply Finset.sum_congr rfl
    intro j hj
    rw [Function.update_of_ne (Finset.ne_of_mem_erase hj)]
  rw [hrest, Function.update_self] at hnew
  unfold values
  rw [← hold, ← hnew]
  ac_rfl

/-! ## One move -/

/-- Take the value at `src` to `dst`.  If the two are the same key its value is lost. -/
def move (f : κ → Option α) (src dst : κ) : κ → Option α :=
  Function.update (Function.update f dst (f src)) src none

theorem move_apply (f : κ → Option α) (src dst k : κ) :
    move f src dst k = if k = src then none else if k = dst then f src else f k := by
  rw [move, Function.update_apply, Function.update_apply]

/-- A move loses what was at its target, and nothing else. -/
theorem values_move [Fintype κ] (f : κ → Option α) (src dst : κ) :
    values (move f src dst) + ofOption (f dst) = values f := by
  rcases eq_or_ne src dst with rfl | hne
  · have hself : move f src src = Function.update f src none := by
      rw [move, Function.update_eq_self]
    rw [hself, values_update, ofOption_none, add_zero]
  · have hclear := values_update (Function.update f dst (f src)) src none
    rw [Function.update_of_ne hne, ofOption_none, add_zero] at hclear
    apply add_right_cancel (b := ofOption (f src))
    calc values (move f src dst) + ofOption (f dst) + ofOption (f src)
        = values (move f src dst) + ofOption (f src) + ofOption (f dst) := by ac_rfl
      _ = values (Function.update f dst (f src)) + ofOption (f dst) := by rw [move, hclear]
      _ = values f + ofOption (f src) := values_update f dst (f src)

/-! ## Moves in turn -/

/-- The moves from `src i` to `dst i`, for `i < n` in turn.  Each is a move of the map that
the moves before it have left. -/
def moves (f : κ → Option α) (src dst : ℕ → κ) : ℕ → κ → Option α
  | 0 => f
  | n + 1 => move (moves f src dst n) (src n) (dst n)

variable {src dst : ℕ → κ}

/-- Moves lose what their targets hold when their turn comes. -/
theorem values_moves [Fintype κ] (f : κ → Option α) (src dst : ℕ → κ) (n : ℕ) :
    values (moves f src dst n) +
      ∑ i ∈ Finset.range n, ofOption (moves f src dst i (dst i)) = values f := by
  induction n with
  | zero => rw [Finset.sum_range_zero, add_zero, moves]
  | succ n ih =>
      rw [Finset.sum_range_succ, moves, ← ih, ← values_move (moves f src dst n) (src n) (dst n)]
      ac_rfl

/-- A key that is no target yet holds what it held, unless it has been a source. -/
theorem moves_apply_of_ne {n : ℕ} {k : κ} (hk : ∀ i < n, dst i ≠ k) :
    moves f src dst n k = none ↔ f k = none ∨ ∃ i < n, src i = k := by
  induction n with
  | zero => simp [moves]
  | succ n ih =>
      have hne : k ≠ dst n := (hk n (Nat.lt_succ_self n)).symm
      rw [moves, move_apply, if_neg hne, Nat.exists_lt_succ_right, ← or_assoc,
        ← ih fun i hi => hk i (Nat.lt_succ_of_lt hi)]
      rcases eq_or_ne k (src n) with rfl | hsrc
      · simp
      · simp [hsrc, hsrc.symm]

/-- A key that is no source yet goes on holding a value, when all sources hold one. -/
theorem moves_ne_none {n : ℕ} (hinj : ∀ i < n, ∀ j < i, src j ≠ src i)
    (hsrc : ∀ i < n, f (src i) ≠ none) :
    ∀ i ≤ n, ∀ k, f k ≠ none → (∀ j < i, src j ≠ k) → moves f src dst i k ≠ none := by
  intro i
  induction i with
  | zero => exact fun _ k hk _ => hk
  | succ i ih =>
      intro hi k hk hne
      rw [moves, move_apply, if_neg (hne i (Nat.lt_succ_self i)).symm]
      split_ifs
      · exact ih (by omega) _ (hsrc i hi) (hinj i hi)
      · exact ih (by omega) k hk fun j hj => hne j (Nat.lt_succ_of_lt hj)

theorem values_moves_le [Fintype κ] (f : κ → Option α) (src dst : ℕ → κ) (n : ℕ) :
    values (moves f src dst n) ≤ values f := by
  rw [← values_moves f src dst n]
  exact Multiset.le_add_right _ _

/-- **When moves lose nothing**, for targets that differ: what was at a target has to have
been moved away before its turn comes, if there was anything. -/
theorem values_moves_eq_iff [Fintype κ] {n : ℕ} (hdst : ∀ i < n, ∀ j < i, dst j ≠ dst i) :
    values (moves f src dst n) = values f ↔
      ∀ i < n, f (dst i) = none ∨ ∃ j < i, src j = dst i := by
  have hlost := values_moves f src dst n
  have hzero : values (moves f src dst n) = values f ↔
      ∑ i ∈ Finset.range n, ofOption (moves f src dst i (dst i)) = 0 := by
    rw [← hlost]
    exact left_eq_add
  rw [hzero, Finset.sum_eq_zero_iff]
  constructor
  · intro h i hi
    rw [← moves_apply_of_ne (hdst i hi), ← ofOption_eq_zero]
    exact h i (Finset.mem_range.mpr hi)
  · intro h i hi
    have hin := Finset.mem_range.mp hi
    rw [ofOption_eq_zero, moves_apply_of_ne (hdst i hin)]
    exact h i hin

end PartialMap
