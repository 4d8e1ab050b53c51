import Omb.Lib.Numeral
import Omb.Libstring.Strings

/-!
# What `vsnprintf` renders

`rendered fmt ap` is the text a format stands for, with its numerals from `Omb.Lib.Numeral`,
so that it says nothing about how `printint` finds the digits or where the buffer ends.  It is
total: a `%` at the end of the format and unknown directives stand for nothing.

`snprintf_renders` says that `snprintf` stores as much of it as there is room for, for formats
in which a character follows each `%` (`Followed`) and arguments of the right types (`Fits`).

The two conditions are of different kinds.  Arguments of the wrong type are undefined
behaviour in C; a `%` at the end of the format is not, until the source takes the terminator
for a directive and goes on behind it (`vsnprintf_pastEnd`).

A text is cut off wherever the buffer ends, in the middle of a numeral too, and what is cut
off once stays so: the text of a format is one row of characters, of which a prefix is stored
(`take_append_take`).

## Main definitions

* `rendered`, `directiveText`: the text of a format and of a directive
* `Followed`, `Fits`: a directive behind each `%`, and arguments for them

## Main results

* `printint_eq`, `formatDirective_eq`: a number, and a directive
* `vsnprintf_eq`: `vsnprintf` from any place on
* `snprintf_renders`: `snprintf` renders its format
-/

namespace Omb

open Numeral

/-! ## The text of a format -/

/-- The character of a digit. -/
def digitChr (d : ℕ) : Byte :=
  ("0123456789abcdef".toList.map chr).getD d 0

/-- A numeral as text. -/
def numeralText (b n : ℕ) : Str :=
  (numeral b n).map digitChr

/-- An `int` in decimal, with a sign if it is negative.  The magnitude of the least one is not
an `int`, but it is a number. -/
def signedText (i : Word) : Str :=
  if i.toInt < 0 then chr '-' :: numeralText 10 i.toInt.natAbs
  else numeralText 10 i.toInt.natAbs

/-- A string argument; nil is `(null)`. -/
def stringText (s : Option Str) : Str :=
  s.getD ("(null)".toList.map chr)

/-- The text of an argument that is an `int`, and the arguments behind it. -/
def intArg (text : Word → Str) : List Arg → Str × List Arg
  | .int i :: ap => (text i, ap)
  | ap => ([], ap)

/-- The text of an argument that is a string, and the arguments behind it. -/
def strArg : List Arg → Str × List Arg
  | .str s :: ap => (stringText s, ap)
  | ap => ([], ap)

/-- The text of the directive `d`, and the arguments that are left. -/
def directiveText (d : Byte) (ap : List Arg) : Str × List Arg :=
  if d = chr '%' then ([chr '%'], ap)
  else if d = chr 'i' then intArg signedText ap
  else if d = chr 'u' then intArg (fun u => numeralText 10 u.toNat) ap
  else if d = chr 'h' then intArg (fun u => numeralText 16 u.toNat) ap
  else if d = chr 'b' then intArg (fun u => numeralText 2 u.toNat) ap
  else if d = chr 'c' then intArg (fun i => [i.setWidth 8]) ap
  else if d = chr 's' then strArg ap
  else ([], ap)

/-- The text of a format.  It is defined for all arguments, so that equations for it need no
conditions. -/
def rendered : Str → List Arg → Str
  | [], _ => []
  | f :: fmt, ap =>
      if f = chr '%' then
        match fmt with
        | [] => []
        | d :: fmt => (directiveText d ap).1 ++ rendered fmt (directiveText d ap).2
      else f :: rendered fmt ap

/-- There is a character behind each `%`. -/
def Followed : Str → Prop
  | [] => True
  | f :: fmt =>
      if f = chr '%' then
        match fmt with
        | [] => False
        | _ :: fmt => Followed fmt
      else Followed fmt

/-- The first argument is what the directive `d` takes, if it takes one. -/
def ArgFits (d : Byte) (ap : List Arg) : Prop :=
  (d ∈ [chr 'i', chr 'u', chr 'h', chr 'b', chr 'c'] → ∃ i ap', ap = .int i :: ap') ∧
    (d = chr 's' → ∃ s ap', ap = .str s :: ap')

/-- The arguments are what the directives take. -/
def Fits : Str → List Arg → Prop
  | [], _ => True
  | f :: fmt, ap =>
      if f = chr '%' then
        match fmt with
        | [] => True
        | d :: fmt => ArgFits d ap ∧ Fits fmt (directiveText d ap).2
      else Fits fmt ap

section Items

variable {f : Byte} (d : Byte) (fmt : Str) (ap : List Arg)

@[simp] theorem rendered_nil : rendered [] ap = [] := rfl

@[simp] theorem rendered_lone : rendered [chr '%'] ap = [] := rfl

@[simp] theorem rendered_directive : rendered (chr '%' :: d :: fmt) ap =
    (directiveText d ap).1 ++ rendered fmt (directiveText d ap).2 := rfl

theorem rendered_text (h : f ≠ chr '%') : rendered (f :: fmt) ap = f :: rendered fmt ap := by
  rw [rendered.eq_def]
  simp only [if_neg h]

@[simp] theorem not_followed_lone : ¬ Followed [chr '%'] := id

@[simp] theorem followed_directive : Followed (chr '%' :: d :: fmt) ↔ Followed fmt := Iff.rfl

theorem followed_text (h : f ≠ chr '%') : Followed (f :: fmt) ↔ Followed fmt := by
  rw [Followed.eq_def]
  simp only [if_neg h]

@[simp] theorem fits_directive :
    Fits (chr '%' :: d :: fmt) ap ↔ ArgFits d ap ∧ Fits fmt (directiveText d ap).2 := Iff.rfl

theorem fits_text (h : f ≠ chr '%') : Fits (f :: fmt) ap ↔ Fits fmt ap := by
  rw [Fits.eq_def]
  simp only [if_neg h]

theorem fits_int (i : Word) : Fits [chr '%', chr 'i'] [.int i] :=
  ⟨⟨fun _ => ⟨_, _, rfl⟩, fun h => absurd h (by decide)⟩, trivial⟩

end Items

/-! ## `printint` -/

/-- The character that `printint` finds for a digit. -/
theorem digitChr_eq {r : Word} (h : r.toNat < 16) :
    (if r > 9 then chr 'a' + (r - 10).setWidth 8 else chr '0' + r.setWidth 8) =
      digitChr r.toNat := by
  have hall : ∀ d : Fin 16, (if BitVec.ofNat 32 d.val > 9 then
      chr 'a' + (BitVec.ofNat 32 d.val - 10).setWidth 8
      else chr '0' + (BitVec.ofNat 32 d.val).setWidth 8) = digitChr d.val := by
    decide
  have hr : BitVec.ofNat 32 r.toNat = r := BitVec.ofNat_toNat 32 r
  have hd := hall ⟨r.toNat, h⟩
  rwa [hr] at hd

/-- The digits come out last first, and there is room for them. -/
theorem printintDigits_eq {base : Word} (hb : 1 < base.toNat) (hb' : base.toNat ≤ 16) {room : ℕ}
    (hroom : 0 < room) {i : Word} (hi : i.toNat < base.toNat ^ room) :
    printintDigits base room i = .ok (numeralText base.toNat i.toNat).reverse := by
  induction room generalizing i with
  | zero => omega
  | succ room ih =>
      have hdiv : (i / base).toNat = i.toNat / base.toNat := BitVec.toNat_udiv
      have hmod : (i % base).toNat = i.toNat % base.toNat := BitVec.toNat_umod
      have hlt : i.toNat % base.toNat < base.toNat := Nat.mod_lt _ (by omega)
      have hchr := digitChr_eq (r := i % base) (by omega)
      have hpos : i / base > 0 ↔ base.toNat ≤ i.toNat := by
        rw [gt_iff_lt, BitVec.lt_def, hdiv]
        exact Nat.div_pos_iff.trans (and_iff_right (by omega))
      rw [printintDigits]
      simp only [hchr, hmod]
      by_cases hle : base.toNat ≤ i.toNat
      · have hroom' : 0 < room := by
          by_contra h0
          obtain rfl : room = 0 := by omega
          rw [Nat.zero_add, pow_one] at hi
          omega
        have hi' : (i / base).toNat < base.toNat ^ room := by
          rw [hdiv]
          exact Nat.div_lt_of_lt_mul (by rwa [pow_succ'] at hi)
        rw [if_pos (hpos.mpr hle), ih hroom' hi', hdiv, numeralText, numeralText,
          numeral_of_le hb hle]
        simp [Except.map]
      · rw [if_neg fun h => hle (hpos.mp h), numeralText, numeral_of_lt (not_le.mp hle),
          Nat.mod_eq_of_lt (not_le.mp hle)]
        rfl

/-- **`printint`** writes the numeral as far as there is room, of the most significant digits.
-/
theorem printint_eq {base : Word} (hb : 1 < base.toNat) (hb' : base.toNat ≤ 16) (max : ℕ)
    (i : Word) : printint max i base = .ok ((numeralText base.toNat i.toNat).take max) := by
  have hi : i.toNat < base.toNat ^ 32 :=
    lt_of_lt_of_le i.isLt (Nat.pow_le_pow_left hb 32)
  rw [printint, printintDigits_eq hb hb' (by omega) hi]
  simp [Except.map]

/-! ## Directives -/

/-- What is left of a text that is cut off. -/
theorem take_append_take {max : ℕ} {out : Str} (h : out.length ≤ max) (s : Str) :
    out ++ s.take (max - out.length) = (out ++ s).take max := by
  rw [List.take_append, List.take_of_length_le h]

theorem formatUnsigned_eq {max : ℕ} {out : Str} (hout : out.length ≤ max) {base : Word}
    (hb : 1 < base.toNat) (hb' : base.toNat ≤ 16) (u : Word) (ap : List Arg) :
    formatDirective.formatUnsigned max out (.int u :: ap) base =
      .ok (ap, (out ++ numeralText base.toNat u.toNat).take max) := by
  rw [formatDirective.formatUnsigned, printint_eq hb hb']
  simp only [Except.map, take_append_take hout]

theorem slt_zero_iff {i : Word} : i.slt 0 = true ↔ i.toInt < 0 := by
  rw [BitVec.slt_iff_toInt_lt]
  rfl

/-- The magnitude of a negative `int`, the least one included. -/
theorem toNat_neg_of_toInt {i : Word} (h : i.toInt < 0) : (-i).toNat = i.toInt.natAbs := by
  have hlt := i.isLt
  have hcond := BitVec.toInt_eq_toNat_cond i
  rw [BitVec.toNat_neg]
  split_ifs at hcond <;> omega

theorem toNat_of_toInt {i : Word} (h : ¬ i.toInt < 0) : i.toNat = i.toInt.natAbs := by
  have hlt := i.isLt
  have hcond := BitVec.toInt_eq_toNat_cond i
  split_ifs at hcond <;> omega

/-- `%i`, which writes the sign and then has no room for digits, or goes on with them. -/
theorem formatSigned_eq {max : ℕ} {out : Str} (hout : out.length < max) (i : Word)
    (ap : List Arg) :
    formatDirective max (chr 'i') (.int i :: ap) out =
      .ok (ap, (out ++ signedText i).take max) := by
  have hpercent : ¬ chr 'i' = chr '%' := by decide
  have hbase : ∀ max i, printint max i 10 = .ok ((numeralText 10 i.toNat).take max) :=
    printint_eq (by decide) (by decide)
  rw [formatDirective, if_neg hpercent, if_pos rfl, signedText]
  by_cases hneg : i.toInt < 0
  · have hslt := slt_zero_iff.mpr hneg
    have hsign : out ++ chr '-' :: numeralText 10 i.toInt.natAbs =
        out ++ [chr '-'] ++ numeralText 10 i.toInt.natAbs := List.append_cons ..
    simp only [hslt, if_true, if_pos hneg, hbase, toNat_neg_of_toInt hneg]
    split_ifs with hfull
    · rw [List.length_append, List.length_singleton] at hfull
      have hlen : (out ++ [chr '-']).length = max := by
        rw [List.length_append, List.length_singleton]
        omega
      rw [hsign, ← hlen, List.take_left]
    · rw [hsign, ← take_append_take (not_le.mp hfull).le]
      rfl
  · have hslt : ¬ i.slt 0 = true := fun h => hneg (slt_zero_iff.mp h)
    simp only [hslt, if_neg hneg, hbase, toNat_of_toInt hneg, Bool.false_eq_true, if_false,
      if_neg (not_le.mpr hout), ← take_append_take hout.le]
    rfl

/-- **A directive** adds its text, as far as there is room. -/
theorem formatDirective_eq {max : ℕ} {out : Str} (hout : out.length < max) {d : Byte}
    {ap : List Arg} (hfits : ArgFits d ap) :
    formatDirective max d ap out =
      .ok ((directiveText d ap).2, (out ++ (directiveText d ap).1).take max) := by
  have hone : ∀ c : Byte, out ++ [c] = (out ++ [c]).take max := fun c => by
    rw [List.take_of_length_le]
    rw [List.length_append, List.length_singleton]
    omega
  obtain ⟨hint, hstr⟩ := hfits
  by_cases hi : d = chr 'i'
  · subst hi
    obtain ⟨i, ap, rfl⟩ := hint (by simp)
    exact formatSigned_eq hout i ap
  unfold formatDirective directiveText
  split_ifs with hpercent hu hh hb hc hs
  · simp only [← hone]
  · obtain ⟨u, ap, rfl⟩ := hint (by simp [hu])
    exact formatUnsigned_eq hout.le (by decide) (by decide) u ap
  · obtain ⟨u, ap, rfl⟩ := hint (by simp [hh])
    exact formatUnsigned_eq hout.le (by decide) (by decide) u ap
  · obtain ⟨u, ap, rfl⟩ := hint (by simp [hb])
    exact formatUnsigned_eq hout.le (by decide) (by decide) u ap
  · obtain ⟨i, ap, rfl⟩ := hint (by simp [hc])
    simp only [intArg, ← hone]
  · obtain ⟨s, ap, rfl⟩ := hstr hs
    simp only [strArg, stringText, take_append_take hout.le]
  · rw [List.append_nil, List.take_of_length_le hout.le]

/-! ## Formats -/

/-- What has been cut off stays so. -/
theorem take_take_append (max : ℕ) (s t : Str) :
    (s.take max ++ t).take max = (s ++ t).take max := by
  rw [List.take_append, List.take_take, Nat.min_self, List.take_append, List.length_take]
  congr 2
  omega

theorem le_length_take_append (max : ℕ) (s t : Str) :
    max ≤ (s.take max ++ t).length ↔ max ≤ (s ++ t).length := by
  rw [List.length_append, List.length_append, List.length_take]
  omega

section Turns

variable {max : ℕ} {f d : Byte} {fmt : List Byte} {ap ap' : List Arg} {out out' : Str}

theorem vsnprintf_stop (h : f = 0 ∨ max ≤ out.length) :
    vsnprintf max (f :: fmt) ap out = .ok out := by
  rw [vsnprintf.eq_def]
  simp only [if_pos h]

theorem vsnprintf_text (hroom : ¬ (f = 0 ∨ max ≤ out.length)) (hpercent : f ≠ chr '%') :
    vsnprintf max (f :: fmt) ap out = vsnprintf max fmt ap (out ++ [f]) := by
  rw [vsnprintf.eq_def]
  simp only [if_neg hroom, if_neg hpercent]

theorem vsnprintf_directive (hroom : out.length < max)
    (h : formatDirective max d ap out = .ok (ap', out')) :
    vsnprintf max (chr '%' :: d :: fmt) ap out = vsnprintf max fmt ap' out' := by
  have hgo : ¬ (chr '%' = 0 ∨ max ≤ out.length) := not_or_intro (by decide) (not_le.mpr hroom)
  rw [vsnprintf.eq_def]
  simp only [if_neg hgo, if_true, h]

end Turns

/-- **`vsnprintf`** from any place on: what has been written and the text of the rest, as far
as there is room, if it comes to the end of the buffer or a character follows each `%`.  What
is behind the terminator of the format makes no difference. -/
theorem vsnprintf_eq {max : ℕ} {fmt : Str} (hchars : ∀ c ∈ fmt, c ≠ 0) {ap : List Arg} {out : Str}
    (hout : out.length ≤ max) (hfits : Fits fmt ap)
    (hends : Followed fmt ∨ max ≤ (out ++ rendered fmt ap).length) (beyond : List Byte) :
    vsnprintf max (fmt ++ 0 :: beyond) ap out = .ok ((out ++ rendered fmt ap).take max) := by
  induction fmt, ap using rendered.induct generalizing out with
  | case1 ap =>
      rw [List.nil_append, vsnprintf_stop (.inl rfl), rendered, List.append_nil,
        List.take_of_length_le hout]
  | case2 ap =>
      -- a lone `%` is not looked at
      rw [rendered_lone, List.append_nil] at hends ⊢
      have hfull := hends.resolve_left not_followed_lone
      rw [List.cons_append, vsnprintf_stop (.inr hfull), List.take_of_length_le hout]
  | case3 ap d fmt ih =>
      rw [rendered_directive, ← List.append_assoc] at hends ⊢
      rcases hout.lt_or_eq with hroom | hfull
      · obtain ⟨harg, hfits⟩ := hfits
        rw [followed_directive, ← le_length_take_append] at hends
        rw [List.cons_append, List.cons_append,
          vsnprintf_directive hroom (formatDirective_eq hroom harg),
          ih (fun c hc => hchars c (by simp [hc])) (List.length_take_le ..) hfits hends,
          take_take_append]
      · rw [List.cons_append, vsnprintf_stop (.inr hfull.ge), ← hfull, List.append_assoc,
          List.take_left]
  | case4 f fmt ap hpercent ih =>
      have hsplit : out ++ f :: rendered fmt ap = out ++ [f] ++ rendered fmt ap :=
        List.append_cons ..
      rw [rendered_text _ _ hpercent, hsplit] at hends ⊢
      rcases hout.lt_or_eq with hroom | hfull
      · have hgo : ¬ (f = 0 ∨ max ≤ out.length) :=
          not_or_intro (hchars f List.mem_cons_self) (not_le.mpr hroom)
        rw [fits_text _ _ hpercent] at hfits
        rw [followed_text _ hpercent] at hends
        rw [List.cons_append, vsnprintf_text hgo hpercent]
        refine ih (fun c hc => hchars c (List.mem_cons_of_mem _ hc)) ?_ hfits hends
        rw [List.length_append, List.length_singleton]
        omega
      · rw [List.cons_append, vsnprintf_stop (.inr hfull.ge), ← hfull, List.append_assoc,
          List.take_left]

/-- With room left at a `%` that ends the format, the terminator is taken for its directive. -/
theorem vsnprintf_pastEnd {max : ℕ} {fmt : Str} (hchars : ∀ c ∈ fmt, c ≠ 0) {ap : List Arg}
    {out : Str} (hfits : Fits fmt ap) (hlone : ¬ Followed fmt)
    (hroom : (out ++ rendered fmt ap).length < max) :
    vsnprintf max (fmt ++ [0]) ap out = .error .pastEnd := by
  have hlt : out.length < max := by
    rw [List.length_append] at hroom
    omega
  induction fmt, ap using rendered.induct generalizing out with
  | case1 ap => exact absurd trivial hlone
  | case2 ap =>
      have hzero : formatDirective max 0 ap out = .ok (ap, out) := rfl
      rw [List.singleton_append, vsnprintf_directive hlt hzero]
      rfl
  | case3 ap d fmt ih =>
      obtain ⟨harg, hfits⟩ := hfits
      rw [rendered_directive, ← List.append_assoc] at hroom
      have hcut : (out ++ (directiveText d ap).1).take max = out ++ (directiveText d ap).1 := by
        rw [List.take_of_length_le]
        rw [List.length_append] at hroom
        omega
      rw [List.cons_append, List.cons_append,
        vsnprintf_directive hlt (formatDirective_eq hlt harg), hcut]
      refine ih (fun c hc => hchars c (by simp [hc])) hfits hlone hroom ?_
      rw [List.length_append] at hroom
      omega
  | case4 f fmt ap hpercent ih =>
      have hgo : ¬ (f = 0 ∨ max ≤ out.length) :=
        not_or_intro (hchars f List.mem_cons_self) (not_le.mpr hlt)
      rw [fits_text _ _ hpercent] at hfits
      rw [followed_text _ hpercent] at hlone
      rw [rendered_text _ _ hpercent, List.append_cons] at hroom
      rw [List.cons_append, vsnprintf_text hgo hpercent]
      refine ih (fun c hc => hchars c (List.mem_cons_of_mem _ hc)) hfits hlone hroom ?_
      rw [List.length_append] at hroom
      omega

/-- **`snprintf` renders its format**, as far as there is room: what is stored before the
terminator is the first `max` characters of the text, and their number is returned.  A smaller
buffer gets a prefix of what a larger one does.  `hfollowed` is needed where the text does not
fill the buffer. -/
theorem snprintf_renders {fmt : Str} (hchars : ∀ c ∈ fmt, c ≠ 0) (hfollowed : Followed fmt)
    {ap : List Arg} (hfits : Fits fmt ap) (max : ℕ) :
    ∃ out, snprintf max fmt ap = .ok out ∧ out = (rendered fmt ap).take max ∧
      out.length = min max (rendered fmt ap).length ∧
      ∀ max' ≥ max, ∃ out', snprintf max' fmt ap = .ok out' ∧ out <+: out' := by
  have hcall : ∀ max, snprintf max fmt ap = .ok ((rendered fmt ap).take max) := fun max => by
    rw [snprintf, vsnprintf_eq hchars (Nat.zero_le max) hfits (.inl hfollowed) [],
      List.nil_append]
  refine ⟨_, hcall max, rfl, List.length_take, fun max' hle => ⟨_, hcall max', ?_⟩⟩
  exact List.take_prefix_take_left hle

/-- Room for the sign and one digit. -/
theorem int_cut_off :
    ∃ out, snprintf 2 [chr '%', chr 'i'] [.int (-12)] = .ok out ∧
      out = (signedText (-12)).take 2 := by
  have hchars : ∀ c ∈ [chr '%', chr 'i'], c ≠ 0 := by decide
  have hfollowed : Followed [chr '%', chr 'i'] := trivial
  obtain ⟨out, hout, htext, -⟩ := snprintf_renders hchars hfollowed (fits_int (-12)) 2
  refine ⟨out, hout, htext.trans ?_⟩
  rw [rendered_directive, rendered_nil, List.append_nil]
  rfl

end Omb
