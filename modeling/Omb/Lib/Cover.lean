import Mathlib.Data.List.Count
import Mathlib.Data.List.Basic
import Mathlib.Data.List.Pairwise
import Mathlib.Order.Lattice

/-!
# How often a list of ranges covers a point

An `Extent` is a half-open range of some linear order, and `cover l x` the number of ranges of
the list `l` that contain `x`.  What hands out parts of ranges and keeps the rest never covers
a point more often than before: a range is cut at a point (`cover_cut`), dropped or moved to
another place (`cover_perm`).

Ranges are pairwise apart when no point is covered twice (`pairwise_apart_iff_cover_le_one`).
That is why an allocator is better described by `cover` than by the ranges themselves: each of
its steps is an equation between numbers, for all points at once, in which the order of its
lists and the way ranges are split play no role, and a sum of equations is one again.

Empty extents are apart from everything and cover nothing, so that a remainder of length zero
does no harm.

## Main definitions

* `Extent`: a half-open range
* `cover`: how many ranges of a list contain a point

## Main results

* `cover_cut`: a range cut in two covers what it covered
* `cover_modify`: one entry of a list changed
* `pairwise_apart_iff_cover_le_one`: pairwise apart means that no point is covered twice
* `pairwise_apart_of_cover_le`: who covers no more than pairwise apart ranges is pairwise
  apart
-/

namespace Cover

variable {α : Type*} [LinearOrder α]

/-- The points from `lo` up to `hi`, without `hi`.  There are none if `hi` is not above `lo`.
-/
structure Extent (α : Type*) where
  lo : α
  hi : α

namespace Extent

/-- The extent contains the point. -/
def Has (e : Extent α) (x : α) : Prop :=
  e.lo ≤ x ∧ x < e.hi

instance (e : Extent α) (x : α) : Decidable (e.Has x) :=
  inferInstanceAs (Decidable (_ ∧ _))

/-- No point is in both. -/
def Apart (e f : Extent α) : Prop :=
  ∀ x, ¬ (e.Has x ∧ f.Has x)

theorem Apart.symm {e f : Extent α} (h : Apart e f) : Apart f e :=
  fun x hx => h x hx.symm

theorem Apart.of_le {e f : Extent α} (h : e.hi ≤ f.lo ∨ f.hi ≤ e.lo) : Apart e f := by
  rintro x ⟨he, hf⟩
  rcases h with h | h
  · exact absurd (lt_of_lt_of_le he.2 h) (not_lt_of_ge hf.1)
  · exact absurd (lt_of_lt_of_le hf.2 h) (not_lt_of_ge he.1)

/-- `e` is a part of `f`. -/
def Within (e f : Extent α) : Prop :=
  ∀ x, e.Has x → f.Has x

theorem Within.of_le {e f : Extent α} (hlo : f.lo ≤ e.lo) (hhi : e.hi ≤ f.hi) :
    e.Within f :=
  fun _ hx => ⟨hlo.trans hx.1, lt_of_lt_of_le hx.2 hhi⟩

/-- An empty extent has no points. -/
theorem not_has_of_le {e : Extent α} (h : e.hi ≤ e.lo) (x : α) : ¬ e.Has x :=
  fun hx => absurd (lt_of_le_of_lt hx.1 hx.2) (not_lt_of_ge h)

end Extent

open Extent

/-- The number of extents that contain `x`.  An extent that is in the list twice counts twice.
-/
def cover (l : List (Extent α)) (x : α) : ℕ :=
  l.countP fun e => e.Has x

variable {l l' : List (Extent α)} {e f : Extent α} {x : α}

@[simp] theorem cover_nil (x : α) : cover ([] : List (Extent α)) x = 0 := rfl

theorem cover_cons (e : Extent α) (l : List (Extent α)) (x : α) :
    cover (e :: l) x = cover [e] x + cover l x := by
  rw [cover, cover, cover, ← List.countP_append, List.singleton_append]

@[simp] theorem cover_append (l l' : List (Extent α)) (x : α) :
    cover (l ++ l') x = cover l x + cover l' x :=
  List.countP_append

theorem cover_perm (h : l.Perm l') (x : α) : cover l x = cover l' x :=
  h.countP_eq _

theorem cover_singleton (e : Extent α) (x : α) :
    cover [e] x = if e.Has x then 1 else 0 := by
  rw [cover, List.countP_singleton]
  simp

/-- An empty extent covers nothing. -/
theorem cover_empty (h : e.hi ≤ e.lo) (x : α) : cover [e] x = 0 := by
  rw [cover_singleton, if_neg (not_has_of_le h x)]

/-- An extent cut in two covers each point as often as it did whole. -/
theorem cover_cut {a b c : α} (hab : a ≤ b) (hbc : b ≤ c) (x : α) :
    cover [⟨a, b⟩] x + cover [⟨b, c⟩] x = cover [(⟨a, c⟩ : Extent α)] x := by
  simp only [cover_singleton, Has]
  rcases lt_or_ge x b with hx | hx
  · have hxc : x < c := lt_of_lt_of_le hx hbc
    simp [hx, hxc, not_le_of_gt hx]
  · have hax : a ≤ x := hab.trans hx
    simp [hx, hax, not_lt_of_ge hx]

/-- One entry of a list of things with extents changed.  In `ℕ` the difference is stated as an
equation between sums. -/
theorem cover_modify {β : Type*} (extent : β → Extent α) (f : β → β) {items : List β} {k : ℕ}
    {b : β} (hk : items[k]? = some b) (x : α) :
    cover ((items.modify k f).map extent) x + cover [extent b] x =
      cover (items.map extent) x + cover [extent (f b)] x := by
  induction items generalizing k with
  | nil => simp at hk
  | cons c items ih =>
      cases k with
      | zero =>
          obtain rfl : c = b := by simpa using hk
          rw [List.modify_zero_cons, List.map_cons, List.map_cons, cover_cons,
            cover_cons (extent c) (items.map extent)]
          omega
      | succ k =>
          have hrest := ih (by simpa using hk)
          rw [List.modify_succ_cons, List.map_cons, List.map_cons, cover_cons,
            cover_cons (extent c) (items.map extent)]
          omega

/-- What is in the list covers its points. -/
theorem one_le_cover (he : e ∈ l) (hx : e.Has x) : 1 ≤ cover l x :=
  List.countP_pos_iff.mpr ⟨e, he, decide_eq_true hx⟩

theorem cover_le_of_mem (he : e ∈ l) (x : α) : cover [e] x ≤ cover l x := by
  rw [cover_singleton]
  split_ifs with hx
  · exact one_le_cover he hx
  · exact Nat.zero_le _

/-- **Extents are pairwise apart** exactly when no point is covered twice.  Two equal entries
of the list that are not empty are not apart. -/
theorem pairwise_apart_iff_cover_le_one :
    l.Pairwise Apart ↔ ∀ x, cover l x ≤ 1 := by
  induction l with
  | nil => simp
  | cons e l ih =>
      rw [List.pairwise_cons, ih]
      constructor
      · rintro ⟨hhead, htail⟩ x
        rw [cover_cons, cover_singleton]
        split_ifs with he
        · -- nothing behind the first extent has a point of it
          have hzero : cover l x = 0 := List.countP_eq_zero.mpr fun f hf hx =>
            hhead f hf x ⟨he, of_decide_eq_true hx⟩
          rw [hzero]
        · rw [Nat.zero_add]
          exact htail x
      · intro hle
        refine ⟨fun f hf x hx => ?_, fun x => ?_⟩
        · have hx₁ := hle x
          rw [cover_cons, cover_singleton, if_pos hx.1] at hx₁
          have hx₂ := one_le_cover hf hx.2
          omega
        · have hx₁ := hle x
          rw [cover_cons] at hx₁
          omega

/-- A list that covers no more than pairwise apart extents do is pairwise apart. -/
theorem pairwise_apart_of_cover_le (h : l'.Pairwise Apart)
    (hle : ∀ x, cover l x ≤ cover l' x) : l.Pairwise Apart :=
  pairwise_apart_iff_cover_le_one.mpr fun x =>
    (hle x).trans (pairwise_apart_iff_cover_le_one.mp h x)

end Cover
