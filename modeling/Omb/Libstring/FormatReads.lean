import Omb.Libstring.Scanning

/-!
# Reads of a format

`vsnprintf` and `vsscanf` are to read a format up to its terminator and no further
(`ReadsInside`).  What is behind the terminator is memory of some kind.

Each runs past it in one way only.  `vsnprintf` takes the terminator for the directive of a
`%` that ends the format, unless the buffer is full before that.  `vsscanf` skips the
character behind a literal one that matches, which is the terminator if the literal character
is the last.

Both are followed from any place in the format on: the reads of what is left, at positions
that count from the start.  For `vsscanf` the places are those of `Scans`, and a run past the
end is a turn that comes to the terminator as a directive (`Leads.inside`).

Whether `vsscanf` matches its last character depends on the string, which is an argument here,
and so is what is behind the format.

## Main results

* `vsnprintfT_reads_iff`, `vsscanfT_reads_iff`: the reads of the two functions
* `readsInside_iff`: when formats are not run past
-/

namespace Omb

open Checked

/-- The format is read at positions up to its terminator. -/
def ReadsInside {α : Type} (fmt : Str) (x : Checked StrAccess Fault α) : Prop :=
  ∀ q, .fmt q ∈ x.trace → q ≤ fmt.length

/-! ## `vsnprintf` -/

section Formatting

variable {max p : ℕ} {fmt : Str} {ap : List Arg} {out : Str}

theorem fmt_mem_vsnprintfT (p : ℕ) (fmt : List Byte) :
    .fmt p ∈ (vsnprintfT max p fmt ap out).trace := by
  rw [vsnprintfT.eq_def]
  rcases fmt with _ | ⟨f, fmt⟩ <;> exact List.mem_cons_self

theorem fmt_notMem_storesFrom (k q : ℕ) (s : Str) : .fmt q ∉ storesFrom k s := fun h => by
  obtain ⟨i, c, heq, -⟩ := mem_storesFrom h
  cases heq

/-- A call that stops looks at one character. -/
theorem reads_of_stop {f : Byte} {fmt' : List Byte} (h : f = 0 ∨ max ≤ out.length) (k : ℕ) :
    ∀ q, .fmt q ∈ (vsnprintfT max p (f :: fmt') ap out).trace → q ≤ p + k := by
  intro q hq
  rw [vsnprintfT_stop h] at hq
  obtain rfl : q = p := by simpa using hq
  exact Nat.le_add_right ..

/-- So does one that finds the buffer full. -/
theorem reads_iff_of_full {f : Byte} {fmt' : List Byte} {P : Prop} (hfull : max ≤ out.length)
    (k : ℕ) (text : Str) :
    (∀ q, .fmt q ∈ (vsnprintfT max p (f :: fmt') ap out).trace → q ≤ p + k) ↔
      P ∨ max ≤ (out ++ text).length := by
  refine iff_of_true (reads_of_stop (.inr hfull) k) (.inr ?_)
  rw [List.length_append]
  omega

/-- **The reads of `vsnprintf`** from any place on, with room left in the buffer or none. -/
theorem vsnprintfT_reads_iff (hchars : ∀ c ∈ fmt, c ≠ 0) (hout : out.length ≤ max)
    (hfits : Fits fmt ap) (p : ℕ) (beyond : List Byte) :
    (∀ q, .fmt q ∈ (vsnprintfT max p (fmt ++ 0 :: beyond) ap out).trace → q ≤ p + fmt.length) ↔
      Followed fmt ∨ max ≤ (out ++ rendered fmt ap).length := by
  induction fmt, ap using rendered.induct generalizing out p with
  | case1 ap => exact iff_of_true (reads_of_stop (.inl rfl) _) (.inl trivial)
  | case2 ap =>
      rcases hout.lt_or_eq with hroom | hfull
      · -- the terminator is taken for the directive
        have hgo : ¬ (chr '%' = 0 ∨ max ≤ out.length) :=
          not_or_intro (by decide) (not_le.mpr hroom)
        have hzero : formatDirective max 0 ap out = .ok (ap, out) := rfl
        obtain ⟨s, -, hturn⟩ := vsnprintfT_directive beyond hgo hzero p
        rw [rendered_lone, List.append_nil, or_iff_right not_followed_lone]
        refine iff_of_false (fun hall => ?_) (not_le.mpr hroom)
        have hread := hall (p + 2) <| by
          rw [List.singleton_append, hturn]
          exact List.mem_append_right _ (fmt_mem_vsnprintfT _ _)
        rw [List.length_singleton] at hread
        omega
      · exact reads_iff_of_full hfull.ge _ _
  | case3 ap d fmt ih =>
      rcases hout.lt_or_eq with hroom | hfull
      · have hgo : ¬ (chr '%' = 0 ∨ max ≤ out.length) :=
          not_or_intro (by decide) (not_le.mpr hroom)
        obtain ⟨harg, hfits⟩ := hfits
        obtain ⟨s, -, hturn⟩ :=
          vsnprintfT_directive (fmt ++ 0 :: beyond) hgo (formatDirective_eq hroom harg) p
        have hlen := List.length_take_le max (out ++ (directiveText d ap).1)
        have hrest := ih (fun c hc => hchars c (by simp [hc])) hlen hfits (p + 2)
        rw [le_length_take_append, List.append_assoc] at hrest
        rw [rendered_directive, followed_directive, ← hrest, List.cons_append, List.cons_append,
          hturn]
        simp only [List.mem_append, fmt_notMem_storesFrom, List.mem_cons, List.not_mem_nil,
          StrAccess.fmt.injEq, or_false, List.length_cons]
        constructor
        · intro hall q hq
          exact (hall q (.inr hq)).trans (by omega)
        · rintro hall q ((rfl | rfl) | hq)
          · omega
          · omega
          · exact (hall q hq).trans (by omega)
      · exact reads_iff_of_full hfull.ge _ _
  | case4 f fmt ap hpercent ih =>
      rcases hout.lt_or_eq with hroom | hfull
      · have hgo : ¬ (f = 0 ∨ max ≤ out.length) :=
          not_or_intro (hchars f List.mem_cons_self) (not_le.mpr hroom)
        rw [fits_text _ _ hpercent] at hfits
        have hlen : (out ++ [f]).length ≤ max := by
          rw [List.length_append, List.length_singleton]
          omega
        have hrest := ih (fun c hc => hchars c (List.mem_cons_of_mem _ hc)) hlen hfits (p + 1)
        rw [List.append_assoc, List.singleton_append] at hrest
        rw [rendered_text _ _ hpercent, followed_text _ hpercent, ← hrest, List.cons_append,
          vsnprintfT_text hgo hpercent]
        simp only [List.mem_append, List.mem_cons, List.not_mem_nil, StrAccess.fmt.injEq,
          reduceCtorEq, or_false, List.length_cons]
        constructor
        · intro hall q hq
          exact (hall q (.inr hq)).trans (by omega)
        · rintro hall q (rfl | hq)
          · omega
          · exact (hall q hq).trans (by omega)
      · exact reads_iff_of_full hfull.ge _ _

end Formatting

/-! ## `vsscanf` -/

section Scanning

variable {fmt : Str} {beyond str : List Byte} {t : Byte}

/-- A turn from a place in the format comes to another one, or to its terminator, or matches the
last character. -/
theorem Leads.inside {fmt' str' : List Byte} (h : Leads (fmt ++ 0 :: beyond) str t fmt' str') :
    t = 0 ∨ (∃ f, fmt = [f] ∧ f ≠ chr '%' ∧ str = f :: str') ∨
      ∃ fmt₁, fmt' = fmt₁ ++ 0 :: beyond ∧ ∃ lead, fmt = lead ++ t :: fmt₁ := by
  generalize hF : fmt ++ 0 :: beyond = F at h
  cases h with
  | directive =>
      rcases fmt with _ | ⟨f, _ | ⟨x, fmt⟩⟩
      · exact absurd (List.cons.inj hF).1 (by decide)
      · simp only [List.cons_append, List.nil_append, List.cons.injEq] at hF
        exact .inl hF.2.1.symm
      · simp only [List.cons_append, List.cons.injEq] at hF
        obtain ⟨rfl, rfl, rfl⟩ := hF
        exact .inr (.inr ⟨fmt, rfl, [_], rfl⟩)
  | literal hzero hpercent =>
      rcases fmt with _ | ⟨f, _ | ⟨x, _ | ⟨y, fmt⟩⟩⟩
      · exact absurd (List.cons.inj hF).1.symm hzero
      · obtain ⟨rfl, -⟩ := List.cons.inj hF
        exact .inr (.inl ⟨f, rfl, hpercent, rfl⟩)
      · simp only [List.cons_append, List.nil_append, List.cons.injEq] at hF
        exact .inl hF.2.2.1.symm
      · simp only [List.cons_append, List.cons.injEq] at hF
        obtain ⟨rfl, rfl, rfl, rfl⟩ := hF
        exact .inr (.inr ⟨fmt, rfl, [_, _], rfl⟩)

/-- The scan comes to the last character of the format, a literal one, and it matches what is
next in the string. -/
def LastMatches (fmt : Str) (beyond str : List Byte) : Prop :=
  ∃ f str', f ≠ chr '%' ∧ Scans (fmt ++ 0 :: beyond, str) (f :: 0 :: beyond, f :: str')

theorem consumes_ne_zero {fmt str str' : List Byte} (h : Consumes fmt t str str') : t ≠ 0 := by
  cases h <;> decide

/-- **The places the scan comes to** are in the format, if its last character is not matched.
Each of them is what is left of the format, with its terminator. -/
theorem Scans.inside {y : List Byte × List Byte} (hlast : ¬ LastMatches fmt beyond str)
    (h : Scans (fmt ++ 0 :: beyond, str) y) :
    ∃ fmt₁, y.1 = fmt₁ ++ 0 :: beyond ∧ fmt₁ <:+ fmt := by
  induction h with
  | refl => exact ⟨fmt, rfl, List.suffix_refl _⟩
  | @tail y z hscans hturn ih =>
      obtain ⟨fmt₁, hy, hsuffix⟩ := ih
      obtain ⟨t, str', hleads, hconsumes⟩ := hturn
      obtain ⟨fmt', str₁⟩ := y
      subst hy
      rcases hleads.inside with rfl | ⟨f, rfl, hpercent, rfl⟩ | ⟨fmt₂, hz, lead, rfl⟩
      · exact absurd rfl (consumes_ne_zero hconsumes)
      · exact absurd ⟨f, str', hpercent, hscans⟩ hlast
      · exact ⟨fmt₂, hz, (List.suffix_cons t fmt₂).trans ((List.suffix_append ..).trans hsuffix)⟩

/-- **The reads of `vsscanf`.** -/
theorem vsscanfT_reads_iff (hchars : ∀ c ∈ fmt, c ≠ 0) (beyond str : List Byte) (n : ℤ) :
    ReadsInside fmt (vsscanfT 0 (fmt ++ 0 :: beyond) str n) ↔ ¬ LastMatches fmt beyond str := by
  constructor
  · rintro hreads ⟨f, str', hpercent, hscans⟩
    obtain ⟨pre, hpre⟩ := hscans.suffix.1
    obtain rfl : pre ++ [f] = fmt := List.append_cancel_right <| by
      rw [List.append_assoc]
      exact hpre
    have hzero : f ≠ 0 := hchars f (List.mem_append_right _ (List.mem_singleton_self f))
    have haccess : TurnAccess pre.length (f :: 0 :: beyond) (f :: str') (.fmt (pre.length + 2)) :=
      .literal hzero hpercent _ _
    have hread := hreads _ (mem_vsscanfT_iff.mpr ⟨_, _, hscans, by simp, haccess⟩)
    rw [List.length_append, List.length_singleton] at hread
    omega
  · intro hlast p hp
    obtain ⟨⟨fmt', str'⟩, q, hscans, hq, haccess⟩ := mem_vsscanfT_iff.mp hp
    obtain ⟨fmt₁, rfl, hsuffix⟩ := hscans.inside hlast
    have hle := hsuffix.length_le
    simp only [List.length_append] at hq
    dsimp only at haccess
    generalize hF : fmt₁ ++ 0 :: beyond = F at haccess
    generalize he : StrAccess.fmt p = e at haccess
    cases haccess with
    | test =>
        cases he
        omega
    | percent =>
        cases he
        rcases fmt₁ with _ | ⟨f, fmt₁⟩
        · exact absurd (List.cons.inj hF).1 (by decide)
        · rw [List.length_cons] at hq
          omega
    | literal hzero hpercent =>
        cases he
        rcases fmt₁ with _ | ⟨f, _ | ⟨x, fmt₁⟩⟩
        · exact absurd (List.cons.inj hF).1.symm hzero
        · obtain ⟨rfl, -⟩ := List.cons.inj hF
          exact absurd ⟨f, _, hpercent, hscans⟩ hlast
        · rw [List.length_cons, List.length_cons] at hq
          omega
    | directive hleads hr hmem =>
        subst hF he
        rcases always_scanDirectiveT _ hmem with ⟨hfmt, hzero⟩ | ⟨j, hj, -⟩
        · cases hfmt
          rcases hleads.inside with rfl | ⟨f, rfl, hpercent, rfl⟩ | ⟨fmt₂, rfl, lead, rfl⟩
          · exact absurd rfl hzero
          · exact absurd ⟨f, _, hpercent, hscans⟩ hlast
          · simp only [List.length_append, List.length_cons] at hq hr
            omega
        · cases hj

end Scanning

/-- **When formats are not run past**: `vsnprintf` reads inside its format, and returns, if a
character follows each `%` or the text fills the buffer; `vsscanf` does if it does not come to
match a literal character that the format ends in.  What the string is decides about the
second, as it is for the first what the arguments are. -/
theorem readsInside_iff {fmt : Str} (hchars : ∀ c ∈ fmt, c ≠ 0) {ap : List Arg}
    (hfits : Fits fmt ap) (max : ℕ) (beyond str : List Byte) :
    (ReadsInside fmt (vsnprintfT max 0 (fmt ++ 0 :: beyond) ap []) ∧
        (∃ out, (vsnprintfT max 0 (fmt ++ 0 :: beyond) ap []).result = .ok out) ↔
      Followed fmt ∨ max ≤ (rendered fmt ap).length) ∧
    (ReadsInside fmt (vsscanfT 0 (fmt ++ 0 :: beyond) str 0) ↔ ¬ LastMatches fmt beyond str) := by
  refine ⟨?_, vsscanfT_reads_iff hchars beyond str 0⟩
  have hempty : ([] : Str).length ≤ max := Nat.zero_le max
  have hreads := vsnprintfT_reads_iff hchars hempty hfits 0 beyond
  rw [Nat.zero_add, List.nil_append] at hreads
  exact ⟨fun h => hreads.mp h.1, fun h => ⟨hreads.mpr h, _, (vsnprintfT_eq ..).trans
    (vsnprintf_eq hchars (Nat.zero_le max) hfits h beyond)⟩⟩

/-- A number. -/
theorem number_reads_inside :
    ReadsInside [chr '%', chr 'i'] (vsnprintfT 8 0 [chr '%', chr 'i', 0] [.int 7] []) ∧
      ReadsInside [chr '%', chr 'i'] (vsscanfT 0 [chr '%', chr 'i', 0] [chr '7', 0] 0) := by
  have hchars : ∀ c ∈ [chr '%', chr 'i'], c ≠ 0 := by decide
  have hlast : ¬ LastMatches [chr '%', chr 'i'] [] [chr '7', 0] := by
    rintro ⟨f, str', -, hscans⟩
    rcases hscans.cases_head with h | ⟨⟨fmt', str₁⟩, ⟨t, str₂, hleads, -⟩, hrest⟩
    · have hlen := congrArg (fun x => x.1.length) h
      cases hlen
    · have hle := (Scans.suffix hrest).1.length_le
      cases hleads
      exact absurd hle (Nat.not_succ_le_self 1)
  obtain ⟨hformat, hscan⟩ := readsInside_iff hchars (fits_int 7) 8 [] [chr '7', 0]
  exact ⟨(hformat.mpr (.inl trivial)).1, hscan.mpr hlast⟩

/-- Formats that end in a `%` and in a literal character: what is behind the terminator is
read. -/
theorem terminator_skipped :
    .fmt 2 ∈ (vsnprintfT 8 0 [chr '%', 0] [] []).trace ∧
      .fmt 2 ∈ (vsscanfT 0 [chr 'a', 0] [chr 'a', 0] 0).trace ∧
      ¬ ReadsInside [chr '%'] (vsnprintfT 8 0 [chr '%', 0] [] []) ∧
      ¬ ReadsInside [chr 'a'] (vsscanfT 0 [chr 'a', 0] [chr 'a', 0] 0) := by
  have hformat : .fmt 2 ∈ (vsnprintfT 8 0 [chr '%', 0] [] []).trace := by decide
  have hscan : .fmt 2 ∈ (vsscanfT 0 [chr 'a', 0] [chr 'a', 0] 0).trace := by decide
  exact ⟨hformat, hscan, fun h => absurd (h 2 hformat) (by decide),
    fun h => absurd (h 2 hscan) (by decide)⟩

end Omb
