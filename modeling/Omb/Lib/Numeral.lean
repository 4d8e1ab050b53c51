import Mathlib.Data.Nat.Digits.Lemmas

/-!
# Numerals

`numeral b n` is the numeral of `n` in base `b`, the most significant digit first: without
leading zeros, and `0` for zero.  It takes its last digit from division by the base
(`numeral_of_le`), which is how it is computed by programs that fill a buffer from its end,
and it has as many digits as it needs (`length_numeral_le`), so that a bound on the number is
one on the buffer.

`value b ds` is the number that digits stand for, whether they are below the base or not.  A
program that reads digits without a look at the base computes it as well, from the front:
`value_concat` is one turn of its loop.  `isValueOf` finds out whether a number is one of
digits of a given kind, by going backwards from the last digit.

`IsNumeral b n ds` says what a numeral is without computing one, and there is only one of each
number (`isNumeral_iff`).  That is the specification to be read by somebody who does not want
to know how digits are computed.

## Main results

* `numeral_of_le`, `numeral_of_lt`: the recursion that computes a numeral
* `length_numeral_le`: a bound on the number of digits
* `value_numeral`: a numeral stands for its number
* `isNumeral_iff`: a number has one numeral
-/

namespace Numeral

variable {b n : ℕ}

/-- The digits of `n`, the most significant first; zero has the digit `0`, where `Nat.digits`
has none. -/
def numeral (b n : ℕ) : List ℕ :=
  if n = 0 then [0] else (Nat.digits b n).reverse

theorem numeral_of_pos (hn : n ≠ 0) : numeral b n = (Nat.digits b n).reverse :=
  if_neg hn

/-- A number below the base is a digit. -/
theorem numeral_of_lt (h : n < b) : numeral b n = [n] := by
  by_cases hn : n = 0
  · rw [numeral, if_pos hn, hn]
  · rw [numeral_of_pos hn, Nat.digits_of_lt b n hn h, List.reverse_singleton]

/-- The other numerals end in the remainder.  In front of it is the numeral of the quotient,
which is not zero and so has no leading zero. -/
theorem numeral_of_le (hb : 1 < b) (h : b ≤ n) :
    numeral b n = numeral b (n / b) ++ [n % b] := by
  have hn : 0 < n := by omega
  have hdiv : n / b ≠ 0 := (Nat.div_pos h (by omega)).ne'
  rw [numeral_of_pos hn.ne', numeral_of_pos hdiv, Nat.digits_def' hb hn, List.reverse_cons]

theorem numeral_ne_nil (b n : ℕ) : numeral b n ≠ [] := by
  by_cases hn : n = 0
  · rw [numeral, if_pos hn]
    exact List.cons_ne_nil _ _
  · rw [numeral_of_pos hn, Ne, List.reverse_eq_nil_iff, Nat.digits_eq_nil_iff_eq_zero]
    exact hn

theorem lt_of_mem_numeral (hb : 1 < b) {d : ℕ} (hd : d ∈ numeral b n) : d < b := by
  by_cases hn : n = 0
  · rw [numeral, if_pos hn, List.mem_singleton] at hd
    omega
  · rw [numeral_of_pos hn, List.mem_reverse] at hd
    exact Nat.digits_lt_base hb hd

/-- A number below `b ^ k` has up to `k` digits. -/
theorem length_numeral_le (hb : 1 < b) {k : ℕ} (hk : 0 < k) (h : n < b ^ k) :
    (numeral b n).length ≤ k := by
  by_cases hn : n = 0
  · rw [numeral, if_pos hn]
    exact hk
  · rw [numeral_of_pos hn, List.length_reverse]
    exact (Nat.digits_length_le_iff hb n).mpr h

/-! ## Values -/

/-- The number that digits stand for, the most significant first.  Digits may be as large as
they like. -/
def value (b : ℕ) (ds : List ℕ) : ℕ :=
  Nat.ofDigits b ds.reverse

@[simp] theorem value_nil (b : ℕ) : value b [] = 0 := rfl

theorem value_concat (b : ℕ) (ds : List ℕ) (d : ℕ) :
    value b (ds ++ [d]) = value b ds * b + d := by
  rw [value, List.reverse_append, List.reverse_singleton, List.singleton_append,
    Nat.ofDigits_cons, Nat.add_comm, Nat.mul_comm, value]

/-- A numeral stands for its number. -/
theorem value_numeral (b n : ℕ) : value b (numeral b n) = n := by
  by_cases hn : n = 0
  · rw [numeral, if_pos hn, hn]
    rfl
  · rw [numeral_of_pos hn, value, List.reverse_reverse, Nat.ofDigits_digits]

section Maps

variable {α : Type*} (f g : α → ℕ) (l : List α)

theorem value_map_concat (b : ℕ) (a : α) :
    value b ((l ++ [a]).map f) = value b (l.map f) * b + f a := by
  rw [List.map_append, List.map_singleton, value_concat]

/-- Digits that are sums. -/
theorem value_map_add (b : ℕ) :
    value b (l.map fun a => f a + g a) = value b (l.map f) + value b (l.map g) := by
  induction l using List.reverseRecOn with
  | nil => rfl
  | append_singleton l a ih =>
      rw [value_map_concat, value_map_concat, value_map_concat, ih, Nat.add_mul]
      omega

variable {f g l}

/-- A bound on each digit is one on the value. -/
theorem value_map_le {m k : ℕ} (h : ∀ a ∈ l, m * f a ≤ k * g a) (b : ℕ) :
    m * value b (l.map f) ≤ k * value b (l.map g) := by
  induction l using List.reverseRecOn with
  | nil => exact le_refl _
  | append_singleton l a ih =>
      rw [List.forall_mem_append, List.forall_mem_singleton] at h
      calc m * value b ((l ++ [a]).map f)
          = m * value b (l.map f) * b + m * f a := by
            rw [value_map_concat, Nat.mul_add, Nat.mul_assoc]
        _ ≤ k * value b (l.map g) * b + k * g a :=
            Nat.add_le_add (Nat.mul_le_mul_right b (ih h.1)) h.2
        _ = k * value b ((l ++ [a]).map g) := by
            rw [value_map_concat, Nat.mul_add, Nat.mul_assoc]

end Maps

theorem value_eq_zero_iff (hb : 0 < b) (ds : List ℕ) : value b ds = 0 ↔ ∀ d ∈ ds, d = 0 := by
  induction ds using List.reverseRecOn with
  | nil => exact iff_of_true rfl fun _ h => absurd h List.not_mem_nil
  | append_singleton ds d ih =>
      rw [value_concat, Nat.add_eq_zero_iff, Nat.mul_eq_zero, or_iff_left hb.ne', ih,
        List.forall_mem_append, List.forall_mem_singleton]

/-- Whether `n` is the value of up to `k` digits that are taken from `allowed`, which need not be
below the base: the last digit leaves the remainder of `n`, and the others make up the rest. -/
def isValueOf (b : ℕ) (allowed : List ℕ) : ℕ → ℕ → Bool
  | 0, n => n = 0
  | k + 1, n => n = 0 || allowed.any fun d =>
      d ≤ n && d % b = n % b && isValueOf b allowed k ((n - d) / b)

theorem isValueOf_value (hb : 0 < b) {allowed ds : List ℕ} (h : ∀ d ∈ ds, d ∈ allowed) {k : ℕ}
    (hk : value b ds < b ^ k) : isValueOf b allowed k (value b ds) = true := by
  induction ds using List.reverseRecOn generalizing k with
  | nil => cases k <;> simp [isValueOf]
  | append_singleton ds d ih =>
      rw [List.forall_mem_append, List.forall_mem_singleton] at h
      rw [value_concat] at hk ⊢
      cases k with
      | zero => simpa [isValueOf] using hk
      | succ k =>
          have hrest : value b ds < b ^ k := by
            rw [pow_succ] at hk
            exact Nat.lt_of_mul_lt_mul_right (Nat.lt_of_le_of_lt (Nat.le_add_right _ _) hk)
          have hmod : d % b = (value b ds * b + d) % b := (Nat.mul_add_mod_self_right ..).symm
          have hdiv : (value b ds * b + d - d) / b = value b ds := by
            rw [Nat.add_sub_cancel, Nat.mul_div_cancel _ hb]
          rw [isValueOf, Bool.or_eq_true, List.any_eq_true]
          refine .inr ⟨d, h.2, ?_⟩
          rw [hdiv, ih h.1 hrest, Bool.and_true, Bool.and_eq_true, decide_eq_true_iff,
            decide_eq_true_iff]
          exact ⟨Nat.le_add_left .., hmod⟩

/-! ## What a numeral is -/

/-- `ds` is a numeral of `n`: digits below the base that stand for it, and no zero before
other digits. -/
structure IsNumeral (b n : ℕ) (ds : List ℕ) : Prop where
  digits : ∀ d ∈ ds, d < b
  value_eq : value b ds = n
  ne_nil : ds ≠ []
  no_leading_zero : ds.head? = some 0 → ds = [0]

theorem isNumeral_numeral (hb : 1 < b) (n : ℕ) : IsNumeral b n (numeral b n) where
  digits _ hd := lt_of_mem_numeral hb hd
  value_eq := value_numeral b n
  ne_nil := numeral_ne_nil b n
  no_leading_zero hzero := by
    by_cases hn : n = 0
    · rw [numeral, if_pos hn]
    · have hne : Nat.digits b n ≠ [] := Nat.digits_ne_nil_iff_ne_zero.mpr hn
      have hlast := Nat.getLast_digit_ne_zero b hn
      rw [numeral_of_pos hn, List.head?_reverse, List.getLast?_eq_some_getLast hne,
        Option.some_inj] at hzero
      exact absurd hzero hlast

theorem IsNumeral.eq_numeral (hb : 1 < b) {ds : List ℕ} (h : IsNumeral b n ds) :
    ds = numeral b n := by
  by_cases hn : n = 0
  · -- the digits of zero are zeros, and there is only one of them
    have hzeros := (value_eq_zero_iff (by omega) ds).mp (h.value_eq.trans hn)
    obtain ⟨d, ds, rfl⟩ := List.exists_cons_of_ne_nil h.ne_nil
    rw [numeral, if_pos hn]
    exact h.no_leading_zero (by rw [List.head?_cons, hzeros d List.mem_cons_self])
  · have hdigits := Nat.digits_ofDigits b hb ds.reverse
      (fun d hd => h.digits d (List.mem_reverse.mp hd)) (fun hne hlast => ?_)
    · rw [numeral_of_pos hn, ← h.value_eq, value, hdigits, List.reverse_reverse]
    · rw [List.getLast_reverse] at hlast
      have hds := h.no_leading_zero (by rw [List.head?_eq_some_head h.ne_nil, hlast])
      refine hn ?_
      rw [← h.value_eq, hds]
      rfl

/-- **A number has one numeral**, and `numeral` computes it.  The base has to be at least two:
in base one there are no digits but zero. -/
theorem isNumeral_iff (hb : 1 < b) {ds : List ℕ} : IsNumeral b n ds ↔ ds = numeral b n :=
  ⟨IsNumeral.eq_numeral hb, fun h => h ▸ isNumeral_numeral hb n⟩

end Numeral
