import Omb.Libstring.Rendering
import Mathlib.Tactic.IntervalCases

/-!
# Scanning what was formatted

For formats of `%i` directives with literal text before, between and after them, `sscanf` is
to undo `snprintf`: it consumes the text, stores the ints and returns their number (`Undone`).

Here are the formats with which it does (`vsscanf_format`).  That it does with no others is in
`Omb.Libstring.LongLiterals`.

A token ends at the character that the format goes on with, so that character must not be one
of an int.  A literal text between two directives is therefore not empty, and it does not
begin with a digit or a sign (`Format`).

What `%i` writes for a negative int is its sign and the magnitude, and the magnitude of the
least `int` is not an `int`; `strtol` computes with words that wrap around, and so comes to it
all the same (`strtol_intText`).

## Main definitions

* `Format`: a format as its literal texts
* `Undone`: `sscanf` undoes what `snprintf` did
* `Scannable`: the formats with which it does

## Main results

* `strtol_intText`: `strtol` undoes `%i`
* `vsscanf_format`: in a scannable format every directive gets its own int
-/

namespace Omb

open Numeral

/-! ## Numerals -/

/-- A decimal digit. -/
def IsDigit (c : Byte) : Prop := 48 ≤ c.toNat ∧ c.toNat ≤ 57

theorem not_isspace_of_le {c : Byte} (h : 48 ≤ c.toNat) : isspace c = false := by
  have hne : ∀ d : Byte, d.toNat < 48 → c ≠ d := fun d hd heq => by
    subst heq
    exact absurd h (by omega)
  simp only [isspace, Bool.or_eq_false_iff, decide_eq_false_iff_not]
  exact ⟨⟨hne _ (by decide), hne _ (by decide)⟩, hne _ (by decide)⟩

theorem IsDigit.not_isspace {c : Byte} (h : IsDigit c) : isspace c = false :=
  not_isspace_of_le h.1

theorem strtolDigits_append {base n : Word} {s r : Str} (hs : ∀ c ∈ s, isspace c = false) :
    strtolDigits base n (s ++ r) = strtolDigits base (strtolDigits base n s) r := by
  induction s generalizing n with
  | nil => rfl
  | cons c s ih =>
      have hc := hs c List.mem_cons_self
      simp only [List.cons_append, strtolDigits, hc]
      exact ih fun d hd => hs d (List.mem_cons_of_mem _ hd)

/-- **The loop of `strtol`**, where no character is below `0`: a sum of what the characters
are behind it, in the base, in words that wrap around. -/
theorem strtolDigits_value {base : Word} {s : Str} (hs : ∀ c ∈ s, 48 ≤ c.toNat) :
    strtolDigits base 0 s = BitVec.ofNat 32 (value base.toNat (s.map fun c => c.toNat - 48)) := by
  induction s using List.reverseRecOn with
  | nil => rfl
  | append_singleton s c ih =>
      rw [List.forall_mem_append, List.forall_mem_singleton] at hs
      obtain ⟨hs, hc⟩ := hs
      have hspaces : ∀ d ∈ s, isspace d = false := fun d hd => not_isspace_of_le (hs d hd)
      have hchar : c.setWidth 32 - (chr '0').setWidth 32 = BitVec.ofNat 32 (c.toNat - 48) := by
        have hzero : (chr '0').toNat = 48 := rfl
        apply BitVec.eq_of_toNat_eq
        rw [BitVec.toNat_sub, BitVec.toNat_setWidth, BitVec.toNat_setWidth, hzero,
          BitVec.toNat_ofNat]
        omega
      have hbase : base = BitVec.ofNat 32 base.toNat := (BitVec.ofNat_toNat 32 base).symm
      rw [strtolDigits_append hspaces, ih hs, value_map_concat, BitVec.ofNat_add,
        BitVec.ofNat_mul, ← hbase, ← hchar]
      simp only [strtolDigits, not_isspace_of_le hc, Bool.false_eq_true, if_false]

theorem digitChr_toNat {d : ℕ} (h : d < 10) : (digitChr d).toNat = 48 + d := by
  interval_cases d <;> rfl

section Numerals

variable {b : ℕ} (hb : 1 < b) (hb' : b ≤ 10) (n : ℕ)

include hb hb'

/-- The characters of a numeral in base ten or below. -/
theorem toNat_of_mem_numeralText {c : Byte} (hc : c ∈ numeralText b n) :
    48 ≤ c.toNat ∧ c.toNat < 48 + b := by
  obtain ⟨d, hd, rfl⟩ := List.mem_map.mp hc
  have hlt := lt_of_mem_numeral hb hd
  rw [digitChr_toNat (by omega)]
  omega

theorem isDigit_of_mem_numeralText {c : Byte} (hc : c ∈ numeralText b n) : IsDigit c := by
  have hchar := toNat_of_mem_numeralText hb hb' n hc
  exact ⟨hchar.1, by omega⟩

theorem map_numeralText : (numeralText b n).map (fun c => c.toNat - 48) = numeral b n := by
  have hchar : ∀ d ∈ numeral b n, (digitChr d).toNat - 48 = id d := fun d hd => by
    have hlt := lt_of_mem_numeral hb hd
    rw [digitChr_toNat (by omega), Nat.add_sub_cancel_left, id]
  rw [numeralText, List.map_map]
  exact (List.map_congr_left hchar).trans (List.map_id _)

end Numerals

/-- The loop on a numeral in base ten or below. -/
theorem strtolDigits_numeralText {base : Word} (hb : 1 < base.toNat) (hb' : base.toNat ≤ 10)
    (n : ℕ) : strtolDigits base 0 (numeralText base.toNat n) = BitVec.ofNat 32 n := by
  rw [strtolDigits_value fun c hc => (toNat_of_mem_numeralText hb hb' n hc).1,
    map_numeralText hb hb', value_numeral]

theorem numeralText_ne_nil (b n : ℕ) : numeralText b n ≠ [] := fun h =>
  numeral_ne_nil b n (List.map_eq_nil_iff.mp h)

/-- The digits `printint` writes for `i`. -/
def digits (i : Word) : Str :=
  match printintDigits 10 32 i with
  | .ok s => s.reverse
  | .error _ => []

theorem printintDigits_ten (i : Word) :
    printintDigits 10 32 i = .ok (numeralText 10 i.toNat).reverse := by
  have hi : i.toNat < 10 ^ 32 := i.isLt.trans (by decide)
  exact printintDigits_eq (by decide) (by decide) (by decide) hi

/-- They are the numeral. -/
theorem digits_eq (i : Word) : digits i = numeralText 10 i.toNat := by
  rw [digits, printintDigits_ten]
  exact List.reverse_reverse _

theorem digits_spec (i : Word) :
    printintDigits 10 32 i = .ok (digits i).reverse ∧ digits i ≠ [] ∧ (digits i).length ≤ 10 ∧
      (∀ c ∈ digits i, IsDigit c) ∧ strtolDigits 10 0 (digits i) = i := by
  have hi : i.toNat < 10 ^ 10 := i.isLt.trans (by decide)
  have hlen := length_numeral_le (b := 10) (by omega) (by omega) hi
  have hvalue : strtolDigits 10 0 (numeralText 10 i.toNat) = BitVec.ofNat 32 i.toNat :=
    strtolDigits_numeralText (by decide) (by decide) i.toNat
  rw [digits_eq]
  refine ⟨printintDigits_ten i, numeralText_ne_nil _ _, ?_, ?_, ?_⟩
  · rw [numeralText, List.length_map]
    exact hlen
  · exact fun c => isDigit_of_mem_numeralText (by omega) (by omega) _
  · exact hvalue.trans (BitVec.ofNat_toNat 32 i)

/-- What `%i` writes for `x`. -/
def intText (x : Word) : Str :=
  if x.slt 0 then chr '-' :: digits (-x) else digits x

theorem intText_eq (x : Word) : intText x = signedText x := by
  rw [intText, signedText, digits_eq, digits_eq]
  by_cases hneg : x.toInt < 0
  · rw [if_pos (slt_zero_iff.mpr hneg), if_pos hneg, toNat_neg_of_toInt hneg]
  · rw [if_neg fun h => hneg (slt_zero_iff.mp h), if_neg hneg, toNat_of_toInt hneg]

/-- The sign or the first digit, and then digits. -/
theorem intText_chars {x : Word} : ∀ c ∈ intText x, IsDigit c ∨ c = chr '-' := by
  intro c hc
  unfold intText at hc
  split_ifs at hc
  · rcases List.mem_cons.mp hc with hc | hc
    · exact .inr hc
    · exact .inl ((digits_spec _).2.2.2.1 c hc)
  · exact .inl ((digits_spec _).2.2.2.1 c hc)

theorem intText_length (x : Word) : (intText x).length ≤ 11 := by
  unfold intText
  split_ifs
  · exact Nat.succ_le_succ (digits_spec (-x)).2.2.1
  · exact (digits_spec x).2.2.1.trans (by decide)

theorem IsDigit.ne_sign {c : Byte} (h : IsDigit c) : c ≠ chr '+' ∧ c ≠ chr '-' := by
  refine ⟨?_, ?_⟩ <;>
  · rintro rfl
    exact absurd h.1 (by decide)

/-- A number without a sign. -/
theorem strtol_of_isDigit {c : Byte} (hc : IsDigit c) (base : Word) (s : Str) :
    strtol (c :: s) base = strtolDigits base 0 (c :: s) := by
  rw [strtol, List.dropWhile_cons, hc.not_isspace]
  simp only [Bool.false_eq_true, if_false, if_neg hc.ne_sign.1, if_neg hc.ne_sign.2]

/-- **`strtol` undoes `%i`**, the least `int` included. -/
theorem strtol_intText (x : Word) : strtol (intText x) 10 = x := by
  unfold intText
  split_ifs
  · obtain ⟨-, -, -, -, hvalue⟩ := digits_spec (-x)
    have hdrop : (chr '-' :: digits (-x)).dropWhile isspace = chr '-' :: digits (-x) := rfl
    have hplus : ¬ chr '-' = chr '+' := by decide
    rw [strtol, hdrop]
    simp only [if_neg hplus, if_true, hvalue, BitVec.neg_neg]
  · obtain ⟨-, hne, -, hdigits, hvalue⟩ := digits_spec x
    obtain ⟨c, s, hs⟩ := List.exists_cons_of_ne_nil hne
    have hc : IsDigit c := hdigits c (by rw [hs]; exact List.mem_cons_self)
    rw [hs] at hvalue ⊢
    rw [strtol_of_isDigit hc, hvalue]

/-! ## Formats -/

/-- A literal text of a format: characters that are neither zero nor a `%`, and of which the first
is neither one of an int nor white space. -/
structure IsLiteral (s : Str) : Prop where
  chars : ∀ c ∈ s, c ≠ 0 ∧ c ≠ chr '%'
  first : ∀ c, s.head? = some c → ¬ IsDigit c ∧ c ≠ chr '+' ∧ c ≠ chr '-' ∧ isspace c = false

/-- A format of `%i` directives: the text before the first one, and the text behind each. -/
structure Format where
  lead : Str
  behind : List Str
  literal : ∀ s ∈ lead :: behind, IsLiteral s
  apart : ∀ s ∈ behind.dropLast, s ≠ []

/-- The format from a literal text on. -/
def formatFrom : Str → List Str → Str
  | f, [] => f
  | f, g :: gs => f ++ chr '%' :: chr 'i' :: formatFrom g gs

/-- The text it makes of ints. -/
def textFrom : Str → List Str → List Word → Str
  | f, g :: gs, x :: xs => f ++ intText x ++ textFrom g gs xs
  | f, _, _ => f

def Format.fmt (F : Format) : Str :=
  formatFrom F.lead F.behind

/-- `sscanf` undoes what `snprintf` did: it returns the number of the ints, has come to the
end of the text, and the objects are the ints. -/
def Undone (fmt : Str) (ints : List Word) (objs : List Obj) : Prop :=
  ∃ text, (∀ max, text.length < max → snprintf max fmt (ints.map .int) = .ok text) ∧
    sscanf text fmt objs = .ok ⟨ints.length, ints.map intBytes, [0]⟩

/-! ## Formatting -/

theorem vsnprintf_literal {max : ℕ} {s fmt out : Str} {ap : List Arg}
    (hs : ∀ c ∈ s, c ≠ 0 ∧ c ≠ chr '%') (hmax : out.length + s.length ≤ max) :
    vsnprintf max (s ++ fmt) ap out = vsnprintf max fmt ap (out ++ s) := by
  induction s generalizing out with
  | nil => simp
  | cons c s ih =>
      obtain ⟨hzero, hpercent⟩ := hs c List.mem_cons_self
      have hroom : ¬ (c = 0 ∨ max ≤ out.length) := by
        rw [List.length_cons] at hmax
        exact not_or_intro hzero (by omega)
      rw [List.cons_append, vsnprintf_text hroom hpercent,
        ih (fun d hd => hs d (List.mem_cons_of_mem _ hd)) (by simp at hmax ⊢; omega)]
      simp

theorem vsnprintf_int {max : ℕ} {fmt out : Str} {x : Word} {ap : List Arg}
    (hmax : out.length + (intText x).length < max) :
    vsnprintf max (chr '%' :: chr 'i' :: fmt) (.int x :: ap) out =
      vsnprintf max fmt ap (out ++ intText x) := by
  have hroom : out.length < max := by omega
  have hwhole : (out ++ intText x).take max = out ++ intText x := by
    rw [List.take_of_length_le]
    rw [List.length_append]
    omega
  have hint := formatSigned_eq hroom x ap
  rw [← intText_eq, hwhole] at hint
  exact vsnprintf_directive hroom hint

theorem vsnprintf_format {max : ℕ} {f out : Str} {fs : List Str} {xs : List Word}
    (hlit : ∀ s ∈ f :: fs, IsLiteral s) (hxs : xs.length = fs.length)
    (hmax : out.length + (textFrom f fs xs).length < max) :
    vsnprintf max (formatFrom f fs ++ [0]) (xs.map .int) out = .ok (out ++ textFrom f fs xs) := by
  have hf := (hlit f List.mem_cons_self).chars
  induction fs generalizing f out xs with
  | nil =>
      obtain rfl := List.length_eq_zero_iff.mp hxs
      simp only [formatFrom, textFrom] at hmax ⊢
      rw [vsnprintf_literal hf (by omega), vsnprintf, if_pos (.inl rfl)]
  | cons g gs ih =>
      obtain ⟨x, xs, rfl⟩ := List.exists_cons_of_length_eq_add_one hxs
      simp only [textFrom, List.length_append] at hmax
      have hg : ∀ s ∈ g :: gs, IsLiteral s := fun s hs => hlit s (List.mem_cons_of_mem _ hs)
      rw [formatFrom, List.append_assoc, vsnprintf_literal hf (by omega), List.map_cons,
        List.cons_append, List.cons_append, vsnprintf_int (by simp; omega),
        ih hg (by simpa using hxs) (by simp; omega) (hg g List.mem_cons_self).chars]
      simp [textFrom]

/-! ## Scanning -/

/-- A token ends at the character the format goes on with, or with the string. -/
theorem token_append {f s : Byte} {fmt str : List Byte} {t : Str}
    (ht : ∀ c ∈ t, c ≠ 0 ∧ c ≠ f) (hs : s = 0 ∨ s = f) :
    token (f :: fmt) (t ++ s :: str) = .ok (t, s :: str) := by
  induction t with
  | nil =>
      rw [List.nil_append, token]
      by_cases hzero : s = 0
      · rw [if_pos hzero]
      · rw [if_neg hzero]
        simp only [if_pos (hs.resolve_left hzero)]
  | cons c t ih =>
      obtain ⟨hzero, hstop⟩ := ht c List.mem_cons_self
      rw [List.cons_append, token, if_neg hzero]
      simp only [if_neg hstop, ih fun d hd => ht d (List.mem_cons_of_mem _ hd)]
      rfl

/-- At most one literal character, and a directive.  The literal character goes into the code
for the directive, which takes the next one for its `%`. -/
theorem vsscanf_field {f : Str} (hf : ∀ c ∈ f, c ≠ 0 ∧ c ≠ chr '%') (hlen : f.length ≤ 1)
    (t : Byte) (fmt str : List Byte) (n : ℤ) (ap : List Obj) :
    vsscanf (f ++ chr '%' :: t :: fmt) (f ++ str) n ap =
      Conversion.andThen (scanDirective n t fmt str ap) fun str ap =>
        vsscanf fmt str (n + 1) ap := by
  have hzero : ¬ chr '%' = 0 := by decide
  match f with
  | [] =>
      rw [List.nil_append, List.nil_append, vsscanf.eq_def]
      simp only [if_neg hzero, if_true]
  | [c] =>
      obtain ⟨hc, hpercent⟩ := hf c List.mem_cons_self
      rw [List.singleton_append, List.singleton_append, vsscanf.eq_def]
      simp only [if_neg hc, if_neg hpercent, if_true]
  | _ :: _ :: _ => simp at hlen

/-- The format and the text go on with the same character, at which no int continues. -/
theorem heads_agree {g : Str} {gs : List Str} (hg : IsLiteral g)
    (hlast : g = [] → gs = []) (xs : List Word) :
    ∃ s fmt str, formatFrom g gs ++ [0] = s :: fmt ∧ textFrom g gs xs ++ [0] = s :: str ∧
      ¬ IsDigit s ∧ s ≠ chr '-' := by
  cases g with
  | nil =>
      obtain rfl := hlast rfl
      refine ⟨0, [], [], rfl, ?_, by simp [IsDigit], by decide⟩
      cases xs <;> rfl
  | cons c g =>
      obtain ⟨hdigit, -, hminus, -⟩ := hg.first c rfl
      cases gs with
      | nil => exact ⟨c, g ++ [0], g ++ [0], rfl, by cases xs <;> rfl, hdigit, hminus⟩
      | cons g' gs =>
          cases xs with
          | nil => exact ⟨c, _, _, rfl, rfl, hdigit, hminus⟩
          | cons x xs => exact ⟨c, _, _, rfl, rfl, hdigit, hminus⟩

theorem length_intBytes (v : Word) : (intBytes v).length = 4 := rfl

theorem store_full {o s : List Byte} (h : s.length = o.length) : store o s = .ok s := by
  rw [store, if_pos h.le, h, List.drop_length, List.append_nil]

/-- **A directive** takes the text of its int, and stores it. -/
theorem scanDirective_int {n : ℤ} {g : Str} {gs : List Str} {x : Word} {xs : List Word}
    {o : Obj} {ap : List Obj} (hg : IsLiteral g) (hlast : g = [] → gs = [])
    (ho : o.length = 4) :
    scanDirective n (chr 'i') (formatFrom g gs ++ [0]) (intText x ++ (textFrom g gs xs ++ [0]))
      (o :: ap) = .ok (.next (textFrom g gs xs ++ [0]) [intBytes x] ap) := by
  obtain ⟨s, fmt, str, hfmt, hstr, hdigit, hminus⟩ := heads_agree hg hlast xs
  have hpercent : ¬ chr 'i' = chr '%' := by decide
  have htoken : token (s :: fmt) (intText x ++ s :: str) = .ok (intText x, s :: str) := by
    refine token_append (fun c hc => ?_) (.inr rfl)
    rcases intText_chars c hc with h | rfl
    · exact ⟨fun heq => absurd h.1 (by rw [heq]; decide), fun heq => hdigit (heq ▸ h)⟩
    · exact ⟨by decide, fun heq => hminus heq.symm⟩
  have hroom : ¬ 32 ≤ (intText x).length := by
    have := intText_length x
    omega
  rw [hfmt, hstr, scanDirective.eq_def]
  simp only [if_neg hpercent, if_true, htoken, if_neg hroom, strtol_intText]
  rw [store_full (by rw [ho, length_intBytes])]
  rfl

/-- The first directive, and the rest of the format. -/
theorem vsscanf_first {f g : Str} {gs : List Str} {x : Word} {xs : List Word} {o : Obj}
    {objs : List Obj} (hf : ∀ c ∈ f, c ≠ 0 ∧ c ≠ chr '%') (hlen : f.length ≤ 1)
    (hg : IsLiteral g) (hlast : g = [] → gs = []) (ho : o.length = 4) (n : ℤ) :
    vsscanf (formatFrom f (g :: gs) ++ [0]) (textFrom f (g :: gs) (x :: xs) ++ [0]) n
        (o :: objs) =
      (vsscanf (formatFrom g gs ++ [0]) (textFrom g gs xs ++ [0]) (n + 1) objs).map fun r =>
        { r with objs := intBytes x :: r.objs } := by
  have hfield := vsscanf_field hf hlen (chr 'i') (formatFrom g gs ++ [0])
    (intText x ++ (textFrom g gs xs ++ [0])) n (o :: objs)
  simp only [formatFrom, textFrom, List.append_assoc, List.cons_append]
  rw [hfield, scanDirective_int hg hlast ho]
  rfl

theorem lastApart {g : Str} {gs : List Str} (hapart : ∀ s ∈ (g :: gs).dropLast, s ≠ []) :
    (g = [] → gs = []) ∧ ∀ s ∈ gs.dropLast, s ≠ [] := by
  cases gs with
  | nil => exact ⟨fun _ => rfl, fun s hs => by cases hs⟩
  | cons g' gs =>
      refine ⟨fun hg => absurd hg (hapart g List.mem_cons_self), fun s hs => ?_⟩
      exact hapart s (List.mem_cons_of_mem _ hs)

/-- No directive has more than one literal character before it, and the format ends in a
directive, or is empty. -/
def Scannable : Str → List Str → Prop
  | f, [] => f = []
  | f, g :: gs => f.length ≤ 1 ∧ Scannable g gs

/-- **In such a format** every directive gets its own int, and the scan comes to the end of
format and text at the same time. -/
theorem vsscanf_format {f : Str} {fs : List Str} {xs : List Word} {objs : List Obj} {n : ℤ}
    (hlit : ∀ s ∈ f :: fs, IsLiteral s) (hapart : ∀ s ∈ fs.dropLast, s ≠ [])
    (hxs : xs.length = fs.length) (hobjs : objs.length = fs.length)
    (ho : ∀ o ∈ objs, o.length = 4) (hscan : Scannable f fs) :
    vsscanf (formatFrom f fs ++ [0]) (textFrom f fs xs ++ [0]) n objs =
      .ok ⟨n + fs.length, xs.map intBytes, [0]⟩ := by
  induction fs generalizing f xs objs n with
  | nil =>
      obtain rfl := List.length_eq_zero_iff.mp hxs
      obtain rfl := List.length_eq_zero_iff.mp hobjs
      obtain rfl : f = [] := hscan
      simp [formatFrom, textFrom, vsscanf]
  | cons g gs ih =>
      obtain ⟨x, xs, rfl⟩ := List.exists_cons_of_length_eq_add_one hxs
      obtain ⟨o, objs, rfl⟩ := List.exists_cons_of_length_eq_add_one hobjs
      have hg : ∀ s ∈ g :: gs, IsLiteral s := fun s hs => hlit s (List.mem_cons_of_mem _ hs)
      obtain ⟨hlast, hapart'⟩ := lastApart hapart
      rw [vsscanf_first (hlit f List.mem_cons_self).chars hscan.1 (hg g List.mem_cons_self) hlast
        (ho o List.mem_cons_self), ih hg hapart' (by simpa using hxs) (by simpa using hobjs)
        (fun o ho' => ho o (List.mem_cons_of_mem _ ho')) hscan.2]
      simp only [Except.map, List.map_cons, List.length_cons]
      congr 2
      push_cast
      ring

end Omb
