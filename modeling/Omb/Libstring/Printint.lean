import Omb.Libstring.Rendering

/-!
# The scratch array of `printint`

`printint` puts the digits into an array of 32 entries, the last digit first, and copies them
to `str` from the back while there is room.  `printintIn` has both loops with the array and
the counters; the first one is given turns, so that to terminate is to need no more than some.

The array is filled exactly when the number is one of 32 digits, so no more than 32 turns are
taken, and `printintIn` returns what `printint` does (`printintIn_eq`).

The bases are those from 2 to 16, which the directives of `vsnprintf` are among.  In base 1
the loop would run out of the array.

What is in the array before the call does not matter, as no entry is copied that has not been
written.  The bound on the digits is that of `Omb.Lib.Numeral`, for numbers below `2 ^ 32`.

## Main results

* `printintLoop_eq`, `printintCopy_eq`: what the two loops do
* `printintIn_eq`: the array is large enough, and with it `printint` is the same
* `printint_canonical`: `printint` writes the one numeral, as far as there is room
-/

namespace Omb

open Numeral

/-! ## The loops -/

/-- `s` and `c` of `printint`: the first `c` entries have been written. -/
structure Scratch where
  s : Vector Byte 32
  c : ℕ
  le : c ≤ 32

namespace Scratch

/-- `s[c++] = ch` -/
def push (sc : Scratch) (ch : Byte) : Except Fault Scratch :=
  if h : sc.c < 32 then .ok ⟨sc.s.set sc.c ch h, sc.c + 1, h⟩ else .error .pastDigits

/-- The entries that have been written. -/
def written (sc : Scratch) : Str :=
  sc.s.toList.take sc.c

theorem length_written (sc : Scratch) : sc.written.length = sc.c := by
  rw [written, List.length_take, Vector.length_toList, Nat.min_eq_left sc.le]

/-- What has been written stays, with one more entry behind it. -/
theorem push_of_lt {sc : Scratch} (h : sc.c < 32) (ch : Byte) :
    ∃ sc', sc.push ch = .ok sc' ∧ sc'.written = sc.written ++ [ch] := by
  refine ⟨_, dif_pos h, ?_⟩
  rw [written, written, Vector.toList_set, List.take_add_one,
    List.take_set_of_le (le_refl _), List.getElem?_set_self (by rwa [Vector.length_toList])]
  rfl

end Scratch

/-- The `do .. while` of `printint`, if it ends in so many turns.  The first turn is taken for
0 too. -/
def printintLoop (base : Word) : ℕ → Scratch → Word → Option (Except Fault Scratch)
  | 0, _, _ => none
  | turns + 1, sc, i =>
      let d := i / base
      let i := i % base
      match sc.push (if i > 9 then chr 'a' + (i - 10).setWidth 8
          else chr '0' + i.setWidth 8) with
      | .error e => some (.error e)
      | .ok sc => if d > 0 then printintLoop base turns sc d else some (.ok sc)

/-- The `while` of `printint`, where `str` has been written; its length is `d`. -/
def printintCopy (max : ℕ) (s : Vector Byte 32) : (c : ℕ) → c ≤ 32 → Str → Str
  | 0, _, str => str
  | c + 1, h, str =>
      if str.length < max then printintCopy max s c (Nat.le_of_lt h) (str ++ [s[c]]) else str

/-- `printint`, on a scratch array with any contents. -/
def printintIn (turns max : ℕ) (s : Vector Byte 32) (i base : Word) : Option (Except Fault Str) :=
  (printintLoop base turns ⟨s, 0, Nat.zero_le _⟩ i).map fun r =>
    r.map fun sc => printintCopy max sc.s sc.c sc.le []

/-! ## What they do -/

/-- The digits go behind what has been written, and no turn is needed that does not write. -/
theorem printintLoop_eq (base : Word) {turns : ℕ} {sc : Scratch} (hturns : 32 - sc.c < turns)
    {i : Word} {t : Str} (h : printintDigits base (32 - sc.c) i = .ok t) :
    ∃ sc', printintLoop base turns sc i = some (.ok sc') ∧ sc'.written = sc.written ++ t := by
  induction turns generalizing sc i t with
  | zero => omega
  | succ turns ih =>
      have hlt : sc.c < 32 := by
        by_contra hfull
        rw [Nat.sub_eq_zero_of_le (not_lt.mp hfull)] at h
        cases h
      obtain ⟨room, hroom⟩ : ∃ room, 32 - sc.c = room + 1 := ⟨31 - sc.c, by omega⟩
      rw [hroom, printintDigits] at h
      rw [printintLoop]
      set ch := if i % base > 9 then chr 'a' + (i % base - 10).setWidth 8
        else chr '0' + (i % base).setWidth 8
      obtain ⟨sc₁, hpush, hwritten⟩ := Scratch.push_of_lt hlt ch
      have hc : sc₁.c = sc.c + 1 := by
        rw [← sc₁.length_written, hwritten, List.length_append, sc.length_written]
        rfl
      rw [hpush]
      dsimp only
      by_cases hmore : i / base > 0
      · rw [if_pos hmore] at h ⊢
        obtain ⟨t₁, ht₁, rfl⟩ : ∃ t₁, printintDigits base room (i / base) = .ok t₁ ∧
            t = ch :: t₁ := by
          cases hrest : printintDigits base room (i / base) with
          | error e => rw [hrest] at h; cases h
          | ok t₁ => rw [hrest] at h; cases h; exact ⟨t₁, rfl, rfl⟩
        have hleft : 32 - sc₁.c = room := by omega
        obtain ⟨sc', hloop, hsc'⟩ := ih (by omega) (hleft ▸ ht₁)
        refine ⟨sc', hloop, ?_⟩
        rw [hsc', hwritten, List.append_assoc]
        rfl
      · rw [if_neg hmore] at h ⊢
        cases h
        exact ⟨sc₁, rfl, hwritten⟩

/-- The copy takes the entries from the back, as long as there is room. -/
theorem printintCopy_eq (max : ℕ) (s : Vector Byte 32) {c : ℕ} (hc : c ≤ 32) (str : Str) :
    printintCopy max s c hc str =
      str ++ (s.toList.take c).reverse.take (max - str.length) := by
  induction c generalizing str with
  | zero => simp [printintCopy]
  | succ c ih =>
      have hlast : (s.toList.take (c + 1)).reverse = s[c] :: (s.toList.take c).reverse := by
        rw [List.take_add_one, List.getElem?_eq_getElem (by rwa [Vector.length_toList]),
          Vector.getElem_toList]
        simp
      rw [printintCopy, hlast]
      split_ifs with hroom
      · obtain ⟨room, hroom'⟩ : ∃ room, max - str.length = room + 1 :=
          ⟨max - str.length - 1, by omega⟩
        have hleft : max - (str ++ [s[c]]).length = room := by
          rw [List.length_append, List.length_singleton]
          omega
        rw [ih, hleft, hroom', List.take_succ_cons, List.append_assoc]
        rfl
      · rw [Nat.sub_eq_zero_of_le (not_lt.mp hroom), List.take_zero, List.append_nil]

/-- **The array is large enough**, whatever was in it: with it and its loops, `printint` ends
after the turns that fill it, and returns the same. -/
theorem printintIn_eq {turns : ℕ} (hturns : 32 < turns) {base : Word} (hb : 1 < base.toNat)
    (hb' : base.toNat ≤ 16) (max : ℕ) (s : Vector Byte 32) (i : Word) :
    printintIn turns max s i base = some (printint max i base) := by
  have hi : i.toNat < base.toNat ^ 32 :=
    lt_of_lt_of_le i.isLt (Nat.pow_le_pow_left hb 32)
  have hdigits := printintDigits_eq hb hb' (by omega) hi
  have hstart : 32 - (⟨s, 0, Nat.zero_le _⟩ : Scratch).c < turns := hturns
  obtain ⟨sc, hloop, hwritten⟩ := printintLoop_eq base hstart hdigits
  rw [printintIn, hloop, printint, hdigits]
  simp only [Option.map_some, Except.map, printintCopy_eq]
  rw [List.nil_append, List.length_nil, Nat.sub_zero]
  congr 4

/-- **`printint` is canonical and bounded**: on an array of 32 entries with any contents it
ends, stays within it, and writes the first `max` characters of the one numeral of `i`.  That
there is one only is about numerals: no leading zero, and digits below the base. -/
theorem printint_canonical {base : Word} (hb : 2 ≤ base.toNat) (hb' : base.toNat ≤ 16) (max : ℕ)
    (i : Word) :
    ∃ ds, (∀ ds', IsNumeral base.toNat i.toNat ds' ↔ ds' = ds) ∧ ds.length ≤ 32 ∧
      ∀ s, ∃ turns out, printintIn turns max s i base = some (.ok out) ∧
        out = (ds.map digitChr).take max ∧ out.length = min max ds.length := by
  have hi : i.toNat < base.toNat ^ 32 :=
    lt_of_lt_of_le i.isLt (Nat.pow_le_pow_left hb 32)
  refine ⟨numeral base.toNat i.toNat, fun ds' => isNumeral_iff hb,
    length_numeral_le hb (by omega) hi, fun s => ⟨33, _, ?_, rfl, ?_⟩⟩
  · rw [printintIn_eq (by omega) hb hb', printint_eq hb hb']
    rfl
  · rw [List.length_take, List.length_map]

/-- The largest number in base 2, which fills the array. -/
theorem printint_full :
    ∃ ds, (∀ ds', IsNumeral 2 (2 ^ 32 - 1) ds' ↔ ds' = ds) ∧ ds.length ≤ 32 ∧
      ∀ s, ∃ turns out, printintIn turns 40 s (BitVec.allOnes 32) 2 = some (.ok out) ∧
        out = (ds.map digitChr).take 40 ∧ out.length = min 40 ds.length :=
  @printint_canonical 2 (by decide) (by decide) 40 (BitVec.allOnes 32)

end Omb
