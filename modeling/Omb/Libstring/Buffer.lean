import Omb.Lib.Checked
import Omb.Libstring.Rendering

/-!
# What `vsnprintf` accesses

`vsnprintfT` is `vsnprintf` with its accesses: each read of the format, by position, and each
store into the buffer, by index.  Without them it returns the same (`vsnprintfT_eq`).

All characters are stored at indices below `max`, but the terminator goes where the next one
would have gone: a text that fills the buffer has it behind the end.  `respectsBuffer_iff`
says that this is the only way out of the buffer, and that only a text that fills it keeps
`vsnprintf` from running past a `%` at the end of the format.

The arguments have the types that the directives take (`Fits`), as the behaviour of the source
is undefined otherwise, and the characters of the format are not zero.

What is in memory behind the format is arbitrary in `RespectsBuffer`, so that a call which
only stays inside its buffer by what it happens to find there does not count.

## Main results

* `vsnprintfT_eq`, `vsnprintfT_stores`: what it returns, and what it stores

* `respectsBuffer_iff`: when `vsnprintf` respects its buffer
-/

namespace Omb

open Checked

/-! ## Accesses -/

/-- An access of `vsnprintf` or `vsscanf`. -/
inductive StrAccess where
  /-- A read of the format at position `p`. -/
  | fmt (p : ℕ)
  /-- `str[i] = c` -/
  | put (i : ℕ) (c : Byte)
  /-- A store to `num[i]`. -/
  | num (i : ℕ)
  deriving DecidableEq

/-- `str[ind++] = c`, where `out` has been stored. -/
def put (out : Str) (c : Byte) : Checked StrAccess Fault Str := do
  event (.put out.length c)
  pure (out ++ [c])

/-- The characters of `s`, one after the other. -/
def puts : Str → Str → Checked StrAccess Fault Str
  | out, [] => pure out
  | out, c :: s => do
      let out ← put out c
      puts out s

/-- `formatDirective` with its stores.  Where `printint` stores a numeral it is the numeral
that is looked at here, as its own array is not the buffer. -/
def formatDirectiveT (max : ℕ) (d : Byte) (ap : List Arg) (out : Str) :
    Checked StrAccess Fault (List Arg × Str) :=
  if d = chr '%' then do
    let out ← put out (chr '%')
    pure (ap, out)
  else if d = chr 'i' then
    match ap with
    | .int i :: ap => do
        let out ← puts out (if i.slt 0 then [chr '-'] else [])
        let i := if i.slt 0 then -i else i
        if max ≤ out.length then pure (ap, out)
        else do
          let s ← lift (printint (max - out.length) i 10)
          let out ← puts out s
          pure (ap, out)
    | _ => fail .noArg
  else if d = chr 'u' then formatUnsignedT ap 10
  else if d = chr 'h' then formatUnsignedT ap 16
  else if d = chr 'b' then formatUnsignedT ap 2
  else if d = chr 'c' then
    match ap with
    | .int i :: ap => do
        let out ← put out (i.setWidth 8)
        pure (ap, out)
    | _ => fail .noArg
  else if d = chr 's' then
    match ap with
    | .str s :: ap => do
        let out ← puts out ((s.getD ("(null)".toList.map chr)).take (max - out.length))
        pure (ap, out)
    | _ => fail .noArg
  else pure (ap, out)
where
  formatUnsignedT (ap : List Arg) (base : Word) : Checked StrAccess Fault (List Arg × Str) :=
    match ap with
    | .int u :: ap => do
        let s ← lift (printint (max - out.length) u base)
        let out ← puts out s
        pure (ap, out)
    | _ => fail .noArg

/-- `vsnprintf` with its accesses, from position `p` of the format on.  The terminator of the
text is the last of its stores. -/
def vsnprintfT (max : ℕ) : ℕ → List Byte → List Arg → Str → Checked StrAccess Fault Str
  | p, [], _, _ => do
      event (.fmt p)
      fail .pastEnd
  | p, f :: fmt, ap, out => do
      event (.fmt p)
      if f = 0 ∨ max ≤ out.length then
        event (.put out.length 0)
        pure out
      else if f = chr '%' then
        match fmt with
        | [] => do
            event (.fmt (p + 1))
            fail .pastEnd
        | d :: fmt => do
            event (.fmt (p + 1))
            let r ← formatDirectiveT max d ap out
            vsnprintfT max (p + 2) fmt r.1 r.2
      else do
        let out ← put out f
        vsnprintfT max (p + 1) fmt ap out

/-! ## Without the accesses -/

variable {max : ℕ} {out : Str}

/-- The stores of the characters `s` from index `k` on. -/
def storesFrom : ℕ → Str → List StrAccess
  | _, [] => []
  | k, c :: s => .put k c :: storesFrom (k + 1) s

theorem storesFrom_append (k : ℕ) (s t : Str) :
    storesFrom k (s ++ t) = storesFrom k s ++ storesFrom (k + s.length) t := by
  induction s generalizing k with
  | nil => rfl
  | cons c s ih =>
      rw [List.cons_append, storesFrom, storesFrom, ih, List.length_cons, List.cons_append]
      congr 3
      omega

theorem mem_storesFrom {k : ℕ} {s : Str} {e : StrAccess} (h : e ∈ storesFrom k s) :
    ∃ i c, e = .put i c ∧ i < k + s.length := by
  induction s generalizing k with
  | nil => exact absurd h List.not_mem_nil
  | cons c s ih =>
      rcases List.mem_cons.mp h with rfl | h
      · exact ⟨k, c, rfl, by rw [List.length_cons]; omega⟩
      · obtain ⟨i, c, rfl, hi⟩ := ih h
        exact ⟨i, c, rfl, by rw [List.length_cons]; omega⟩

theorem puts_eq (out s : Str) : puts out s = ⟨storesFrom out.length s, .ok (out ++ s)⟩ := by
  induction s generalizing out with
  | nil => rw [List.append_nil]; rfl
  | cons c s ih =>
      have htail := ih (out ++ [c])
      rw [List.append_assoc, List.length_append] at htail
      have hput : puts out (c :: s) = ⟨.put out.length c :: (puts (out ++ [c]) s).trace,
        (puts (out ++ [c]) s).result⟩ := rfl
      rw [hput, htail]
      rfl

/-- What a directive stores is what it has written. -/
structure Stores (out : Str) (x : Checked StrAccess Fault (List Arg × Str))
    (r : Except Fault (List Arg × Str)) : Prop where
  result : x.result = r
  trace : ∀ ap' out', r = .ok (ap', out') → ∃ s, out' = out ++ s ∧
    x.trace = storesFrom out.length s

theorem stores_fail (e : Fault) : Stores out (fail e) (.error e) :=
  ⟨rfl, fun _ _ h => nomatch h⟩

theorem stores_pure (ap : List Arg) : Stores out (pure (ap, out)) (.ok (ap, out)) := by
  refine ⟨rfl, fun ap' out' h => ⟨[], ?_, rfl⟩⟩
  cases h
  exact (List.append_nil _).symm

theorem stores_puts (s : Str) (ap : List Arg) :
    Stores out (do let out ← puts out s; pure (ap, out)) (.ok (ap, out ++ s)) := by
  rw [puts_eq, mk_bind]
  refine ⟨rfl, fun ap' out' h => ⟨s, ?_, List.append_nil _⟩⟩
  cases h
  rfl

/-- A numeral, if there is one. -/
theorem stores_lift (r : Except Fault Str) (ap : List Arg) :
    Stores out (do let s ← lift r; let out ← puts out s; pure (ap, out))
      (r.map fun s => (ap, out ++ s)) := by
  cases r with
  | error e => exact stores_fail e
  | ok s => exact stores_puts s ap

/-- Characters stored before the others. -/
theorem Stores.after {x : Checked StrAccess Fault (List Arg × Str)}
    {r : Except Fault (List Arg × Str)} {s : Str} (h : Stores (out ++ s) x r) :
    Stores out ⟨storesFrom out.length s ++ x.trace, x.result⟩ r := by
  refine ⟨h.result, fun ap' out' hr => ?_⟩
  obtain ⟨t, rfl, htrace⟩ := h.trace ap' out' hr
  refine ⟨s ++ t, List.append_assoc .., ?_⟩
  rw [storesFrom_append, htrace, List.length_append]

/-- **A directive** stores what it writes, and returns what it does without. -/
theorem formatDirectiveT_stores (max : ℕ) (d : Byte) (ap : List Arg) (out : Str) :
    Stores out (formatDirectiveT max d ap out) (formatDirective max d ap out) := by
  have hunsigned : ∀ base, Stores out (formatDirectiveT.formatUnsignedT max out ap base)
      (formatDirective.formatUnsigned max out ap base) := by
    intro base
    unfold formatDirectiveT.formatUnsignedT formatDirective.formatUnsigned
    rcases ap with _ | ⟨_ | _, ap⟩
    · exact stores_fail _
    · exact stores_lift _ ap
    · exact stores_fail _
  unfold formatDirectiveT formatDirective
  split_ifs with hpercent hi hu hh hb hc hs
  · exact stores_puts [chr '%'] ap
  · rcases ap with _ | ⟨i | s, ap⟩
    · exact stores_fail _
    · -- the sign, and then the digits
      simp only
      rw [puts_eq, mk_bind]
      have hsign : (if i.slt 0 then out ++ [chr '-'] else out) =
          out ++ if i.slt 0 then [chr '-'] else [] := by
        split_ifs
        · rfl
        · exact (List.append_nil _).symm
      rw [hsign]
      generalize (if i.slt 0 then [chr '-'] else []) = sign
      generalize (if i.slt 0 then -i else i) = magnitude
      refine Stores.after ?_
      split_ifs
      · exact stores_pure ap
      · exact stores_lift _ ap
    · exact stores_fail _
  · exact hunsigned 10
  · exact hunsigned 16
  · exact hunsigned 2
  · rcases ap with _ | ⟨i | s, ap⟩
    · exact stores_fail _
    · exact stores_puts [i.setWidth 8] ap
    · exact stores_fail _
  · rcases ap with _ | ⟨i | s, ap⟩
    · exact stores_fail _
    · exact stores_fail _
    · exact stores_puts _ ap
  · exact stores_pure ap

/-! ## The loop -/

section Turns

variable {f d : Byte} {fmt : List Byte} {ap ap' : List Arg} {p : ℕ} {out' : Str}

theorem vsnprintfT_stop (h : f = 0 ∨ max ≤ out.length) :
    vsnprintfT max p (f :: fmt) ap out = ⟨[.fmt p, .put out.length 0], .ok out⟩ := by
  rw [vsnprintfT.eq_def]
  simp only [if_pos h]
  rfl

theorem vsnprintfT_text (hroom : ¬ (f = 0 ∨ max ≤ out.length)) (hpercent : f ≠ chr '%') :
    vsnprintfT max p (f :: fmt) ap out =
      ⟨[.fmt p, .put out.length f] ++ (vsnprintfT max (p + 1) fmt ap (out ++ [f])).trace,
        (vsnprintfT max (p + 1) fmt ap (out ++ [f])).result⟩ := by
  rw [vsnprintfT.eq_def]
  simp only [if_neg hroom, if_neg hpercent]
  rfl

theorem vsnprintfT_directive (fmt : List Byte) (hroom : ¬ (chr '%' = 0 ∨ max ≤ out.length))
    (h : formatDirective max d ap out = .ok (ap', out')) (p : ℕ) :
    ∃ s, out' = out ++ s ∧ vsnprintfT max p (chr '%' :: d :: fmt) ap out =
      ⟨[.fmt p, .fmt (p + 1)] ++ storesFrom out.length s ++
          (vsnprintfT max (p + 2) fmt ap' out').trace,
        (vsnprintfT max (p + 2) fmt ap' out').result⟩ := by
  have hstores := formatDirectiveT_stores max d ap out
  obtain ⟨s, hout, htrace⟩ := hstores.trace ap' out' h
  refine ⟨s, hout, ?_⟩
  have hx : formatDirectiveT max d ap out = ⟨storesFrom out.length s, .ok (ap', out')⟩ := by
    rw [← htrace, ← h, ← hstores.result]
  rw [vsnprintfT.eq_def]
  simp only [if_neg hroom, if_true, hx, mk_bind]
  rfl

theorem vsnprintfT_failed {e : Fault} (hroom : ¬ (chr '%' = 0 ∨ max ≤ out.length))
    (h : formatDirective max d ap out = .error e) (p : ℕ) :
    (vsnprintfT max p (chr '%' :: d :: fmt) ap out).result = .error e := by
  have hresult := (formatDirectiveT_stores max d ap out).result
  rw [vsnprintfT.eq_def]
  simp only [if_neg hroom, if_true, result_event_bind]
  rw [result_bind, hresult, h]

end Turns

/-- **Without its accesses** `vsnprintfT` is `vsnprintf`. -/
theorem vsnprintfT_eq (max : ℕ) (fmt : List Byte) (ap : List Arg) (out : Str) (p : ℕ) :
    (vsnprintfT max p fmt ap out).result = vsnprintf max fmt ap out := by
  induction fmt, ap, out using vsnprintf.induct max generalizing p with
  | case1 ap out => rfl
  | case2 f fmt ap out hstop => rw [vsnprintfT_stop hstop, vsnprintf_stop hstop]
  | case3 ap out hroom =>
      rw [vsnprintfT.eq_def, vsnprintf.eq_def]
      simp only [if_neg hroom, if_true]
      rfl
  | case4 ap out d fmt e hdirective hroom =>
      rw [vsnprintfT_failed hroom hdirective, vsnprintf.eq_def]
      simp only [if_neg hroom, if_true, hdirective]
  | case5 ap out d fmt ap' out' hdirective hroom ih =>
      obtain ⟨s, -, hturn⟩ := vsnprintfT_directive fmt hroom hdirective p
      rw [hturn, ih, vsnprintf_directive (not_le.mp (not_or.mp hroom).2) hdirective]
  | case6 f fmt ap out hroom hpercent ih =>
      rw [vsnprintfT_text hroom hpercent, ih, vsnprintf_text hroom hpercent]

/-- **The stores**: the terminator last, behind the characters that are returned, and all others
before it. -/
theorem vsnprintfT_stores {fmt : List Byte} {ap : List Arg} {out res : Str}
    (h : vsnprintf max fmt ap out = .ok res) (p : ℕ) :
    out.length ≤ res.length ∧ ∃ pre,
      (vsnprintfT max p fmt ap out).trace = pre ++ [.put res.length 0] ∧
        ∀ i c, .put i c ∈ pre → i < res.length := by
  induction fmt, ap, out using vsnprintf.induct max generalizing p with
  | case1 ap out => cases h
  | case2 f fmt ap out hstop =>
      rw [vsnprintf_stop hstop] at h
      cases h
      rw [vsnprintfT_stop hstop]
      exact ⟨le_refl _, [.fmt p], rfl, by simp⟩
  | case3 ap out hroom =>
      rw [vsnprintf.eq_def] at h
      simp only [if_neg hroom, if_true] at h
      cases h
  | case4 ap out d fmt e hdirective hroom =>
      rw [vsnprintf.eq_def] at h
      simp only [if_neg hroom, if_true, hdirective] at h
      cases h
  | case5 ap out d fmt ap' out' hdirective hroom ih =>
      rw [vsnprintf_directive (not_le.mp (not_or.mp hroom).2) hdirective] at h
      obtain ⟨s, rfl, hturn⟩ := vsnprintfT_directive fmt hroom hdirective p
      obtain ⟨hle, pre, hpre, hbefore⟩ := ih h (p + 2)
      rw [List.length_append] at hle
      rw [hturn, hpre]
      refine ⟨by omega, [.fmt p, .fmt (p + 1)] ++ storesFrom out.length s ++ pre,
        (List.append_assoc ..).symm, fun i c hput => ?_⟩
      rcases List.mem_append.mp hput with hput | hput
      · rcases List.mem_append.mp hput with hput | hput
        · simp at hput
        · obtain ⟨i', c', heq, hi⟩ := mem_storesFrom hput
          cases heq
          omega
      · exact hbefore i c hput
  | case6 f fmt ap out hroom hpercent ih =>
      rw [vsnprintf_text hroom hpercent] at h
      obtain ⟨hle, pre, hpre, hbefore⟩ := ih h (p + 1)
      rw [List.length_append, List.length_singleton] at hle
      rw [vsnprintfT_text hroom hpercent, hpre]
      refine ⟨by omega, [.fmt p, .put out.length f] ++ pre, (List.append_assoc ..).symm,
        fun i c hput => ?_⟩
      rcases List.mem_append.mp hput with hput | hput
      · obtain ⟨rfl, -⟩ : i = out.length ∧ c = f := by simpa using hput
        omega
      · exact hbefore i c hput

/-! ## The buffer -/

/-- The buffer after the accesses. -/
def bufferAfter (b : ℕ → Byte) : List StrAccess → ℕ → Byte
  | [] => b
  | .put i c :: tr => bufferAfter (Function.update b i c) tr
  | _ :: tr => bufferAfter b tr

theorem bufferAfter_snoc (b : ℕ → Byte) (tr : List StrAccess) (i : ℕ) (c : Byte) :
    bufferAfter b (tr ++ [.put i c]) i = c := by
  induction tr generalizing b with
  | nil => exact Function.update_self ..
  | cons e tr ih => cases e <;> exact ih _

/-- `vsnprintf(str, max, fmt, ap)` returns, has stored below `max` only, and leaves a
terminator there, whatever is in memory behind the format. -/
def RespectsBuffer (max : ℕ) (fmt : Str) (ap : List Arg) : Prop :=
  ∀ beyond, ∃ out, (vsnprintfT max 0 (fmt ++ 0 :: beyond) ap []).result = .ok out ∧
    (∀ i c, .put i c ∈ (vsnprintfT max 0 (fmt ++ 0 :: beyond) ap []).trace → i < max) ∧
      ∀ b, ∃ i < max, bufferAfter b (vsnprintfT max 0 (fmt ++ 0 :: beyond) ap []).trace i = 0

/-- **When `vsnprintf` respects its buffer**: if the text has less than `max` characters, and
a character follows each `%`.  In a buffer of no characters there is no room for the
terminator either. -/
theorem respectsBuffer_iff {max : ℕ} {fmt : Str} {ap : List Arg} (hchars : ∀ c ∈ fmt, c ≠ 0)
    (hfits : Fits fmt ap) :
    RespectsBuffer max fmt ap ↔ Followed fmt ∧ (rendered fmt ap).length < max := by
  have hcall : Followed fmt ∨ max ≤ (rendered fmt ap).length → ∀ beyond,
      vsnprintf max (fmt ++ 0 :: beyond) ap [] = .ok ((rendered fmt ap).take max) :=
    fun hends => vsnprintf_eq hchars (Nat.zero_le max) hfits hends
  constructor
  · intro h
    obtain ⟨out, hout, hstores, -⟩ := h []
    rw [vsnprintfT_eq] at hout
    have hends : Followed fmt ∨ max ≤ (rendered fmt ap).length := by
      by_contra hnot
      rw [not_or, not_le] at hnot
      rw [vsnprintf_pastEnd hchars hfits hnot.1 hnot.2] at hout
      cases hout
    obtain rfl := Except.ok.inj ((hcall hends []).symm.trans hout)
    obtain ⟨-, pre, hpre, -⟩ := vsnprintfT_stores hout 0
    have hlast := hstores ((rendered fmt ap).take max).length 0 <| by
      rw [hpre]
      exact List.mem_append_right _ (List.mem_singleton_self _)
    rw [List.length_take] at hlast
    have hlt : (rendered fmt ap).length < max := by omega
    exact ⟨hends.resolve_right (not_le.mpr hlt), hlt⟩
  · rintro ⟨hfollowed, hlt⟩ beyond
    have hout := hcall (.inl hfollowed) beyond
    rw [List.take_of_length_le hlt.le] at hout
    obtain ⟨-, pre, hpre, hbefore⟩ := vsnprintfT_stores hout 0
    refine ⟨_, (vsnprintfT_eq ..).trans hout, fun i c hput => ?_, fun b => ⟨_, hlt, ?_⟩⟩
    · rw [hpre] at hput
      rcases List.mem_append.mp hput with hput | hput
      · exact (hbefore i c hput).trans hlt
      · obtain ⟨rfl, -⟩ : i = _ ∧ c = 0 := by simpa using hput
        exact hlt
    · rw [hpre]
      exact bufferAfter_snoc ..

/-- A number with a sign and two digits, in a buffer of four characters. -/
theorem number_in_buffer : RespectsBuffer 4 [chr '%', chr 'i'] [.int (-12)] := by
  have hchars : ∀ c ∈ [chr '%', chr 'i'], c ≠ 0 := by decide
  refine (respectsBuffer_iff hchars (fits_int (-12))).mpr ⟨trivial, ?_⟩
  have hlen := Numeral.length_numeral_le (b := 10) (n := 12) (k := 2) (by omega) (by omega)
    (by omega)
  have htext : rendered [chr '%', chr 'i'] [.int (-12)] = chr '-' :: numeralText 10 12 := by
    rw [rendered_directive, rendered_nil, List.append_nil]
    rfl
  rw [htext, List.length_cons, numeralText, List.length_map]
  omega

/-- One character, in a buffer of one: the terminator goes behind it. -/
theorem terminator_behind_buffer :
    Fits [chr 'a'] [] ∧ .put 1 0 ∈ (vsnprintfT 1 0 [chr 'a', 0] [] []).trace ∧
      ¬ RespectsBuffer 1 [chr 'a'] [] := by
  have hput : .put 1 0 ∈ (vsnprintfT 1 0 [chr 'a', 0] [] []).trace := by decide
  refine ⟨trivial, hput, fun h => ?_⟩
  obtain ⟨-, -, hstores, -⟩ := h []
  exact absurd (hstores 1 0 hput) (lt_irrefl 1)

end Omb
