import Omb.Libstring.RoundTrip

/-!
# Numerals that are parsed

`strtolFrom` is `strtol` with its `endptr` and the place where it comes to.  It is to consume
the longest run of digits of its base behind white space and a sign, to return their value
where it fits in a `long`, and to store the place where it stops (`ParsesNumeral`).

The source never looks at `endptr`.  It takes each character up to white space for a digit,
and all of them for decimal ones, so that a letter is too large by 39, or by 7 in upper case
(`digitExcess`).  `parsesNumeral_iff` says that this is right for decimal digits only, where
the value fits: no sum of such excesses is a multiple of `2 ^ 32`.

For this the excesses are summed up in the base.  A digit has an excess of less than four
times its value, so of a number that fits in a `long` the sum is below `2 ^ 33`, and `2 ^ 32`
is the only multiple to be excluded.  A search for digits 0, 7 and 39 that make it up finds
none in any base from 11 to 36 (`not_isValueOf`).

Where the value does not fit in a `long` nothing is asked of what is returned.  With nil for
`endptr` the function is `strtol` (`strtolFrom_value`).

What `printint` writes is read back in base ten and below (`strtol_numeralText`).

## Main results

* `ofNat_code_eq_iff`: what the loop computes is the value if no digit is a letter
* `parsesNumeral_iff`: when `strtol` parses a numeral
* `strtol_numeralText`: in base ten and below `strtol` undoes `printint`
-/

namespace Omb

open Numeral

/-! ## `strtol` -/

/-- What `strtol` returns, where `nptr` is at the end, and what it stores at which address. -/
structure Parsed where
  value : Word
  rest : Str
  stores : List (ℕ × Str)
  deriving DecidableEq

/-- Whether `positive` is true after the sign, and `nptr` behind it. -/
def takeSign : Str → Bool × Str
  | [] => (true, [])
  | c :: nptr =>
      if c = chr '+' then (true, nptr)
      else if c = chr '-' then (false, nptr)
      else (true, c :: nptr)

/-- The last loop of `strtol`, with `nptr` behind it. -/
def strtolLoop (base : Word) : Word → Str → Word × Str
  | n, [] => (n, [])
  | n, c :: nptr =>
      if isspace c then (n, c :: nptr)
      else strtolLoop base (n * base + (c.setWidth 32 - (chr '0').setWidth 32)) nptr

/-- `strtol(nptr, endptr, base)`; `endptr` is an address, or nil.  The source never stores to
it. -/
def strtolFrom (nptr : Str) (_endptr : Option ℕ) (base : Word) : Parsed :=
  let sign := takeSign (nptr.dropWhile isspace)
  let r := strtolLoop base 0 sign.2
  ⟨if sign.1 then r.1 else -r.1, r.2, []⟩

theorem strtolLoop_eq (base n : Word) (s : Str) :
    strtolLoop base n s = (strtolDigits base n s, s.dropWhile fun c => !isspace c) := by
  induction s generalizing n with
  | nil => rfl
  | cons c s ih =>
      rw [strtolLoop, strtolDigits, List.dropWhile_cons]
      cases isspace c
      · exact ih _
      · rfl

/-- With nil for `endptr` this is `strtol`. -/
theorem strtolFrom_value (nptr : Str) (endptr : Option ℕ) (base : Word) :
    (strtolFrom nptr endptr base).value = strtol nptr base := by
  rw [strtolFrom, strtol]
  dsimp only
  rw [strtolLoop_eq]
  rcases nptr.dropWhile isspace with _ | ⟨c, s⟩
  · rfl
  · dsimp only [takeSign]
    split_ifs <;> first | rfl | contradiction

/-! ## Numerals -/

/-- The digit that a character stands for: letters for values above nine. -/
def digitOf (c : Byte) : Option ℕ :=
  if 48 ≤ c.toNat ∧ c.toNat ≤ 57 then some (c.toNat - 48)
  else if 97 ≤ c.toNat ∧ c.toNat ≤ 122 then some (c.toNat - 87)
  else if 65 ≤ c.toNat ∧ c.toNat ≤ 90 then some (c.toNat - 55)
  else none

/-- A digit of the base. -/
def isDigitOf (base : ℕ) (c : Byte) : Bool :=
  (digitOf c).any (· < base)

/-- The digits at the front of a text. -/
def digitRun (base : ℕ) (s : Str) : Str :=
  s.takeWhile (isDigitOf base)

/-- The number that a run of digits stands for. -/
def runValue (base : ℕ) (s : Str) : ℕ :=
  value base (s.map fun c => (digitOf c).getD 0)

/-- What is behind white space and a sign. -/
def unsignedPart (nptr : Str) : Str :=
  (takeSign (nptr.dropWhile isspace)).2

/-- The number at the front of a string, with its sign. -/
def numeralValue (base : ℕ) (nptr : Str) : ℤ :=
  if (takeSign (nptr.dropWhile isspace)).1 then runValue base (digitRun base (unsignedPart nptr))
  else -runValue base (digitRun base (unsignedPart nptr))

/-- The range of a `long`. -/
def FitsLong (v : ℤ) : Prop :=
  -2 ^ 31 ≤ v ∧ v < 2 ^ 31

/-- `strtol` parses the numeral at the front of a string: it comes to the end of its digits,
returns its value if that fits, and stores where it has come to. -/
def ParsesNumeral (nptr : Str) (endptr : Option ℕ) (base : Word) : Prop :=
  (strtolFrom nptr endptr base).rest = (unsignedPart nptr).dropWhile (isDigitOf base.toNat) ∧
    (FitsLong (numeralValue base.toNat nptr) →
      (strtolFrom nptr endptr base).value.toInt = numeralValue base.toNat nptr) ∧
    ∀ a, endptr = some a →
      (a, (strtolFrom nptr endptr base).rest) ∈ (strtolFrom nptr endptr base).stores

/-- The characters that `strtol` takes for digits. -/
def field (nptr : Str) : Str :=
  (unsignedPart nptr).takeWhile fun c => !isspace c

/-! ## Runs of digits -/

theorem dropWhile_eq_iff {α : Type*} {p q : α → Bool} (h : ∀ a, q a = true → p a = true)
    (l : List α) : l.dropWhile p = l.dropWhile q ↔ ∀ a ∈ l.takeWhile p, q a = true := by
  induction l with
  | nil => exact iff_of_true rfl fun _ h => absurd h List.not_mem_nil
  | cons a l ih =>
      cases hq : q a with
      | true => simp [h a hq, hq, ih]
      | false =>
          cases hp : p a with
          | false => simp [hp, hq]
          | true =>
              have hlen := (List.dropWhile_suffix p (l := l)).length_le
              refine iff_of_false (fun heq => ?_) (by simp [hp, hq])
              have hcons := congrArg List.length heq
              simp [hp, hq] at hcons
              omega

/-- The two runs are then the same. -/
theorem takeWhile_eq {α : Type*} {p q : α → Bool} {l : List α}
    (h : l.dropWhile p = l.dropWhile q) : l.takeWhile p = l.takeWhile q := by
  have hp := List.takeWhile_append_dropWhile (p := p) (l := l)
  have hq := List.takeWhile_append_dropWhile (p := q) (l := l)
  rw [h] at hp
  exact List.append_cancel_right (hp.trans hq.symm)

/-- How much more `*nptr - '0'` is than the digit: nothing, or the distance between the
letters and the digits. -/
def digitExcess (c : Byte) : ℕ :=
  if 97 ≤ c.toNat then 39 else if 65 ≤ c.toNat then 7 else 0

/-- A digit of some base. -/
structure DigitFacts (base : ℕ) (c : Byte) : Prop where
  split : c.toNat - 48 = (digitOf c).getD 0 + digitExcess c
  le : 48 ≤ c.toNat
  excess : 10 * digitExcess c ≤ 39 * (digitOf c).getD 0
  letter : digitExcess c ≠ 0 → 10 < base
  decimal : digitExcess c = 0 ↔ IsDigit c

theorem digitFacts_letter {base d : ℕ} {c : Byte} (hdigit : digitOf c = some d)
    (hchar : c.toNat = 48 + d + digitExcess c) (hletter : 10 ≤ d) (hlt : d < base)
    (hexcess : digitExcess c = 7 ∨ digitExcess c = 39) : DigitFacts base c where
  split := by rw [hdigit, Option.getD_some]; omega
  le := by omega
  excess := by rw [hdigit, Option.getD_some]; omega
  letter _ := by omega
  decimal := iff_of_false (by omega) fun h => absurd h.2 (by omega)

theorem digitFacts {base : ℕ} {c : Byte} (h : isDigitOf base c = true) : DigitFacts base c := by
  unfold isDigitOf digitOf at h
  split_ifs at h with hdecimal hlower hupper
  · have hdigit : digitOf c = some (c.toNat - 48) := if_pos hdecimal
    have hexcess : digitExcess c = 0 := by
      rw [digitExcess, if_neg (by omega), if_neg (by omega)]
    exact ⟨by rw [hdigit, hexcess]; rfl, hdecimal.1, by rw [hexcess]; omega,
      fun hne => absurd hexcess hne, iff_of_true hexcess hdecimal⟩
  · have hdigit : digitOf c = some (c.toNat - 87) := by
      rw [digitOf, if_neg hdecimal, if_pos hlower]
    have hexcess : digitExcess c = 39 := if_pos hlower.1
    have hlt : c.toNat - 87 < base := of_decide_eq_true h
    exact digitFacts_letter hdigit (by omega) (by omega) hlt (.inr hexcess)
  · have hdigit : digitOf c = some (c.toNat - 55) := by
      rw [digitOf, if_neg hdecimal, if_neg hlower, if_pos hupper]
    have hexcess : digitExcess c = 7 := by
      rw [digitExcess, if_neg (by omega), if_pos hupper.1]
    have hlt : c.toNat - 55 < base := of_decide_eq_true h
    exact digitFacts_letter hdigit (by omega) (by omega) hlt (.inl hexcess)
  · cases h

theorem not_isspace_of_digit {base : ℕ} {c : Byte} (h : isDigitOf base c = true) :
    (!isspace c) = true := by
  rw [not_isspace_of_le (digitFacts h).le]
  rfl

/-! ## Excesses -/

section Excess

variable {base : ℕ} {s : Str}

theorem digitExcess_mem (c : Byte) : digitExcess c ∈ [0, 7, 39] := by
  unfold digitExcess
  split_ifs <;> decide

theorem excess_eq_zero_iff (hb : 0 < base) (h : ∀ c ∈ s, isDigitOf base c = true) :
    value base (s.map digitExcess) = 0 ↔ ∀ c ∈ s, IsDigit c := by
  rw [value_eq_zero_iff hb, List.forall_mem_map]
  exact forall₂_congr fun c hc => (digitFacts (h c hc)).decimal

/-- No digits of 0, 7 and 39 make up `2 ^ 32`. -/
theorem not_isValueOf : ∀ b < 37, 10 < b → isValueOf b [0, 7, 39] 10 (2 ^ 32) = false := by
  decide +kernel

theorem excess_ne (hb : 0 < base) (hb' : base ≤ 36) (h : ∀ c ∈ s, isDigitOf base c = true) :
    value base (s.map digitExcess) ≠ 2 ^ 32 := by
  intro heq
  have hletter : 10 < base := by
    by_contra hle
    have hzero : value base (s.map digitExcess) = 0 := by
      rw [value_eq_zero_iff hb, List.forall_mem_map]
      intro c hc
      by_contra hne
      exact hle ((digitFacts (h c hc)).letter hne)
    omega
  have hlt : value base (s.map digitExcess) < base ^ 10 := by
    have hpow : 11 ^ 10 ≤ base ^ 10 := Nat.pow_le_pow_left hletter 10
    omega
  have hmem : ∀ d ∈ s.map digitExcess, d ∈ [0, 7, 39] := by
    rw [List.forall_mem_map]
    exact fun c _ => digitExcess_mem c
  have hvalue := isValueOf_value hb hmem hlt
  rw [heq, not_isValueOf base (by omega) hletter] at hvalue
  cases hvalue

/-- What the loop computes is the value of the digits if none is a letter. -/
theorem ofNat_code_eq_iff (hb : 0 < base) (hb' : base ≤ 36)
    (h : ∀ c ∈ s, isDigitOf base c = true) (hfits : runValue base s ≤ 2 ^ 31) :
    BitVec.ofNat 32 (value base (s.map fun c => c.toNat - 48)) =
      BitVec.ofNat 32 (runValue base s) ↔ ∀ c ∈ s, IsDigit c := by
  have hsplit : value base (s.map fun c => c.toNat - 48) =
      runValue base s + value base (s.map digitExcess) := by
    rw [runValue, ← value_map_add, List.map_congr_left fun c hc => (digitFacts (h c hc)).split]
  have hle : 10 * value base (s.map digitExcess) ≤ 39 * runValue base s :=
    value_map_le (fun c hc => (digitFacts (h c hc)).excess) base
  have hne := excess_ne hb hb' h
  rw [← excess_eq_zero_iff hb h, hsplit, ← BitVec.toNat_inj, BitVec.toNat_ofNat,
    BitVec.toNat_ofNat]
  omega

end Excess

/-! ## The whole string -/

/-- The word of a `long`. -/
theorem toInt_eq_iff {v : ℤ} (hv : FitsLong v) (w : Word) :
    w.toInt = v ↔ w = BitVec.ofInt 32 v := by
  constructor
  · rintro rfl
    exact BitVec.ofInt_toInt.symm
  · rintro rfl
    exact BitVec.toInt_ofInt_eq_self (by decide) hv.1 hv.2

theorem strtolDigits_takeWhile (base n : Word) (s : Str) :
    strtolDigits base n s = strtolDigits base n (s.takeWhile fun c => !isspace c) := by
  induction s generalizing n with
  | nil => rfl
  | cons c s ih =>
      cases hspace : isspace c with
      | true => simp [strtolDigits, hspace]
      | false => simpa [strtolDigits, hspace] using ih _

theorem rest_eq_iff (nptr : Str) (endptr : Option ℕ) (base : Word) :
    (strtolFrom nptr endptr base).rest = (unsignedPart nptr).dropWhile (isDigitOf base.toNat) ↔
      ∀ c ∈ field nptr, isDigitOf base.toNat c = true := by
  rw [strtolFrom]
  dsimp only
  rw [strtolLoop_eq]
  exact dropWhile_eq_iff (fun _ hc => not_isspace_of_digit hc) _

/-- The value, where what `strtol` takes for digits are digits of the base. -/
theorem value_eq_iff {nptr : Str} {base : Word} (hb : 2 ≤ base.toNat) (hb' : base.toNat ≤ 36)
    (h : ∀ c ∈ field nptr, isDigitOf base.toNat c = true) (endptr : Option ℕ)
    (hfits : FitsLong (numeralValue base.toNat nptr)) :
    (strtolFrom nptr endptr base).value.toInt = numeralValue base.toNat nptr ↔
      ∀ c ∈ field nptr, IsDigit c := by
  have hrun : digitRun base.toNat (unsignedPart nptr) = field nptr :=
    (takeWhile_eq ((dropWhile_eq_iff (fun _ hc => not_isspace_of_digit hc) _).mpr h)).symm
  have hcode : strtolDigits base 0 (unsignedPart nptr) =
      BitVec.ofNat 32 (value base.toNat ((field nptr).map fun c => c.toNat - 48)) := by
    rw [strtolDigits_takeWhile]
    exact strtolDigits_value fun c hc => (digitFacts (h c hc)).le
  have hiff := ofNat_code_eq_iff (s := field nptr) (by omega) hb' h
  rw [toInt_eq_iff hfits, strtolFrom]
  rw [numeralValue, hrun] at hfits ⊢
  dsimp only
  rw [strtolLoop_eq]
  dsimp only
  rw [← unsignedPart, hcode]
  split_ifs at hfits ⊢ with hsign
  · rw [BitVec.ofInt_natCast]
    exact hiff (by have := hfits.2; omega)
  · rw [BitVec.ofInt_neg, BitVec.ofInt_natCast, BitVec.neg_inj]
    exact hiff (by have := hfits.1; omega)

/-- **When `strtol` parses a numeral**: if `endptr` is nil, all characters up to white space
are digits of the base, and they are decimal ones or the value does not fit in a `long`.  A
digit run that is empty is one of decimal digits. -/
theorem parsesNumeral_iff (nptr : Str) (endptr : Option ℕ) {base : Word} (hb : 2 ≤ base.toNat)
    (hb' : base.toNat ≤ 36) :
    ParsesNumeral nptr endptr base ↔
      endptr = none ∧ (∀ c ∈ field nptr, isDigitOf base.toNat c = true) ∧
        ((∀ c ∈ field nptr, IsDigit c) ∨ ¬ FitsLong (numeralValue base.toNat nptr)) := by
  have hstored : (∀ a, endptr = some a →
      (a, (strtolFrom nptr endptr base).rest) ∈ (strtolFrom nptr endptr base).stores) ↔
        endptr = none := by
    cases endptr with
    | none => exact iff_of_true (fun _ h => nomatch h) rfl
    | some a => exact iff_of_false (fun h => List.not_mem_nil (h a rfl)) (Option.some_ne_none a)
  rw [ParsesNumeral, rest_eq_iff, hstored]
  constructor
  · rintro ⟨hdigits, hvalue, hnil⟩
    refine ⟨hnil, hdigits, ?_⟩
    by_cases hfits : FitsLong (numeralValue base.toNat nptr)
    · exact .inl ((value_eq_iff hb hb' hdigits endptr hfits).mp (hvalue hfits))
    · exact .inr hfits
  · rintro ⟨hnil, hdigits, hdecimal⟩
    exact ⟨hdigits, fun hfits => (value_eq_iff hb hb' hdigits endptr hfits).mpr
      (hdecimal.resolve_right (not_not_intro hfits)), hnil⟩

/-- A negative number between blanks. -/
theorem number_parsed :
    ParsesNumeral [chr ' ', chr '-', chr '1', chr '2', chr ' '] none 10 := by
  have hdigits : ∀ c ∈ field [chr ' ', chr '-', chr '1', chr '2', chr ' '],
      isDigitOf 10 c = true := by
    decide
  have hdecimal : ∀ c ∈ field [chr ' ', chr '-', chr '1', chr '2', chr ' '],
      48 ≤ c.toNat ∧ c.toNat ≤ 57 := by
    decide
  exact (parsesNumeral_iff _ none (by decide) (by decide)).mpr ⟨rfl, hdigits, .inl hdecimal⟩

/-- A letter in base 16, punctuation behind a number, and an `endptr`. -/
theorem numerals_misread :
    ¬ ParsesNumeral [chr 'f'] none 16 ∧ ¬ ParsesNumeral [chr '7', chr ';'] none 10 ∧
      ¬ ParsesNumeral [chr '7'] (some 0x8000) 10 := by
  refine ⟨fun h => ?_, fun h => ?_, fun h => ?_⟩
  · have hfits : FitsLong (numeralValue 16 [chr 'f']) := ⟨by decide, by decide⟩
    exact absurd (h.2.1 hfits) (by decide)
  · exact absurd h.1 (by decide)
  · exact absurd (h.2.2 0x8000 rfl) List.not_mem_nil

/-! ## Formatted numbers -/

/-- **In base ten and below** `strtol` undoes `printint`.  The numeral is not one of letters
there. -/
theorem strtol_numeralText {base : Word} (hb : 2 ≤ base.toNat) (hb' : base.toNat ≤ 10) (n : ℕ) :
    strtol (numeralText base.toNat n) base = BitVec.ofNat 32 n := by
  obtain ⟨c, s, hs⟩ := List.exists_cons_of_ne_nil (numeralText_ne_nil base.toNat n)
  have hc : IsDigit c := isDigit_of_mem_numeralText hb hb' n (by rw [hs]; exact List.mem_cons_self)
  have hloop := strtolDigits_numeralText hb hb' n
  rw [hs] at hloop ⊢
  rw [strtol_of_isDigit hc, hloop]

end Omb
