import Omb.Libstring.RoundTrip

/-!
# Literal text the scanner does not read

In `vsscanf` a literal character that matches falls into the code for a directive, which takes
the next character of the format for its `%` and the one behind it for the directive.  With a
`%` there it returns, with `i`, `c` or `s` it takes an argument that is not its own, with the
terminator or any other character it returns `ERR`, and behind the terminator it reads on.

So `sscanf` undoes `snprintf` exactly when no directive has more than one literal character
before it and the format ends in a directive (`undone_iff`).

That it does with these is in `Omb.Libstring.RoundTrip`.  For every other format there have to
be ints and objects which do not come back.  The ints are 0 or 1 and the object is `blank`, so
that a byte that is not written can be told from one that is.

The case with work in it is a long literal text with `i` as its second character: `strtol` is
then given the letter and what is behind it, and could in principle come to the right number.
It is odd where the digit is even, so not for both of 0 and 1 (`strtol_i_ne`).

## Main results

* `long_not_scanned`, `trailing_not_scanned`: the two kinds of text that are not read
* `exists_not_scanned`: in every other format there are ints that do not come back
* `undone_iff`: when `sscanf` undoes `snprintf`
-/

namespace Omb

/-! ## Objects and tokens -/

theorem intBytes_injective : Function.Injective intBytes := by
  intro v w h
  simp only [intBytes, List.cons.injEq, and_true] at h
  obtain ⟨h₀, h₁, h₂, h₃⟩ := h
  have h₀' := congrArg BitVec.toNat h₀
  have h₁' := congrArg BitVec.toNat h₁
  have h₂' := congrArg BitVec.toNat h₂
  have h₃' := congrArg BitVec.toNat h₃
  simp only [BitVec.toNat_setWidth, BitVec.toNat_ushiftRight, Nat.shiftRight_eq_div_pow]
    at h₀' h₁' h₂' h₃'
  have hv := v.isLt
  have hw := w.isLt
  exact BitVec.eq_of_toNat_eq (by omega)

/-- Of the second literal character on, `vsscanf` takes one for the `%` and one for the
directive. -/
theorem vsscanf_literals {a b : Byte} (ha : a ≠ 0 ∧ a ≠ chr '%') (t : Byte)
    (fmt str : List Byte) (n : ℤ) (ap : List Obj) :
    vsscanf (a :: b :: t :: fmt) (a :: str) n ap =
      Conversion.andThen (scanDirective n t fmt str ap) fun str ap =>
        vsscanf fmt str (n + 1) ap := by
  rw [vsscanf.eq_def]
  simp only [if_neg ha.1, if_neg ha.2, if_true]

/-- The object of the first argument is the one the first conversion wrote. -/
theorem written_first {c : Except Fault Conversion} {str : List Byte} {o o' : Obj}
    {ap objs : List Obj} {ret : ℤ} {rest : List Byte}
    {k : List Byte → List Obj → Except Fault Scanned} (hc : c = .ok (.next str [o'] ap))
    (h : Conversion.andThen c k = .ok ⟨ret, o :: objs, rest⟩) : o = o' := by
  subst hc
  simp only [Conversion.andThen] at h
  cases hk : k str ap with
  | error e =>
      rw [hk] at h
      cases h
  | ok r =>
      rw [hk] at h
      simp only [Except.map, Except.ok.injEq, Scanned.mk.injEq, List.singleton_append,
        List.cons.injEq] at h
      exact h.2.1.1.symm

/-- A token ends at the latest where the format's next character is. -/
theorem token_stop (f : Byte) (fmt str : List Byte) {s : Str} (hs : ∀ c ∈ s, c ≠ 0) :
    ∃ rest, token (f :: fmt) (s ++ f :: str) =
      .ok (s.takeWhile fun c => c ≠ f, rest) := by
  induction s with
  | nil =>
      exact ⟨f :: str, by simp [token]⟩
  | cons c s ih =>
      obtain ⟨rest, hrest⟩ := ih fun d hd => hs d (List.mem_cons_of_mem _ hd)
      have hc := hs c List.mem_cons_self
      by_cases hcf : c = f
      · exact ⟨c :: (s ++ f :: str), by simp [token, hcf]⟩
      · refine ⟨rest, ?_⟩
        rw [List.cons_append, token, if_neg hc]
        simp [hcf, hrest, Except.map]

theorem textFrom_chars {f : Str} {fs : List Str} {xs : List Word}
    (hlit : ∀ s ∈ f :: fs, ∀ c ∈ s, c ≠ 0 ∧ c ≠ chr '%') :
    ∀ c ∈ textFrom f fs xs, c ≠ 0 ∧ c ≠ chr '%' := by
  have hf := hlit f List.mem_cons_self
  induction fs generalizing f xs with
  | nil =>
      cases xs <;> exact hf
  | cons g gs ih =>
      cases xs with
      | nil => exact hf
      | cons x xs =>
          intro c hc
          have hg := fun s hs => hlit s (List.mem_cons_of_mem f hs)
          rcases List.mem_append.mp hc with hc | hc
          · rcases List.mem_append.mp hc with hc | hc
            · exact hf c hc
            · rcases intText_chars c hc with h | rfl
              · refine ⟨?_, ?_⟩ <;>
                · rintro rfl
                  exact absurd h.1 (by decide)
              · exact ⟨by decide, by decide⟩
          · exact ih hg (hg g List.mem_cons_self) c hc

/-! ## The text taken for a number -/

theorem strtolDigits_parity {n m : Word} (h : n.toNat % 2 = m.toNat % 2) (s : Str) :
    (strtolDigits 10 n s).toNat % 2 = (strtolDigits 10 m s).toNat % 2 := by
  induction s generalizing n m with
  | nil => exact h
  | cons c s ih =>
      simp only [strtolDigits]
      split_ifs
      · exact h
      · refine ih ?_
        simp only [BitVec.toNat_add, BitVec.toNat_mul]
        change (n.toNat * 10 % 2 ^ 32 + _) % 2 ^ 32 % 2 = (m.toNat * 10 % 2 ^ 32 + _) % 2 ^ 32 % 2
        omega

/-- The digits `0` and `1` before `s` do not both come out as themselves when odd `n` is
before them. -/
theorem strtolDigits_ne {n : Word} (hn : n.toNat % 2 = 1) {s : Str}
    (hs : ∀ c, s.head? = some c → isspace c = false) :
    strtolDigits 10 (n * 10) s ≠ 0 ∨ (strtolDigits 10 (n * 10 + 1) s).toNat % 2 = 0 := by
  cases s with
  | nil =>
      left
      intro h
      have h' := congrArg BitVec.toNat h
      simp only [strtolDigits, BitVec.toNat_mul] at h'
      change n.toNat * 10 % 2 ^ 32 = 0 at h'
      omega
  | cons c s =>
      have hc := hs c rfl
      by_cases h : strtolDigits 10 (n * 10) (c :: s) = 0
      · right
        have hzero := congrArg (fun v : Word => v.toNat % 2) h
        simp only [strtolDigits, hc, Bool.false_eq_true, if_false] at hzero ⊢
        rw [← show (0 : Word).toNat % 2 = 0 from rfl, ← hzero]
        refine strtolDigits_parity ?_ s
        simp only [BitVec.toNat_add, BitVec.toNat_mul]
        change ((n.toNat * 10 % 2 ^ 32 + 1) % 2 ^ 32 * 10 % 2 ^ 32 + _) % 2 ^ 32 % 2 =
          (n.toNat * 10 % 2 ^ 32 * 10 % 2 ^ 32 + _) % 2 ^ 32 % 2
        omega
      · exact .inl h

/-- The letter and the digit behind it. -/
theorem strtolDigits_i (n : Word) (s : Str) :
    strtolDigits 10 n (chr 'i' :: chr '0' :: s) = strtolDigits 10 ((n * 10 + 57) * 10) s ∧
      strtolDigits 10 n (chr 'i' :: chr '1' :: s) =
        strtolDigits 10 ((n * 10 + 57) * 10 + 1) s := by
  have hi : (chr 'i').setWidth 32 - (chr '0').setWidth 32 = (57 : Word) := by decide
  have hone : (chr '1').setWidth 32 - (chr '0').setWidth 32 = (1 : Word) := by decide
  have hspace : ∀ c ∈ [chr 'i', chr '0', chr '1'], isspace c = false := by decide
  refine ⟨?_, ?_⟩
  · simp only [strtolDigits, hspace (chr 'i') (by simp), hspace (chr '0') (by simp),
      Bool.false_eq_true, if_false, hi, BitVec.sub_self, BitVec.add_zero]
  · simp only [strtolDigits, hspace (chr 'i') (by simp), hspace (chr '1') (by simp),
      Bool.false_eq_true, if_false, hi, hone]

theorem odd_of_i (n : Word) : (n * 10 + 57).toNat % 2 = 1 := by
  rw [BitVec.toNat_add, BitVec.toNat_mul]
  change (n.toNat * 10 % 2 ^ 32 + 57) % 2 ^ 32 % 2 = 1
  omega

/-- How `strtol` begins with a character and the letter. -/
theorem strtol_i (b : Byte) :
    ∃ n : Word, (∀ s, strtol (b :: chr 'i' :: s) 10 = strtolDigits 10 n (chr 'i' :: s)) ∨
      ∀ s, strtol (b :: chr 'i' :: s) 10 = -strtolDigits 10 n (chr 'i' :: s) := by
  have hi : isspace (chr 'i') = false := by decide
  have hsign : ¬ chr 'i' = chr '+' ∧ ¬ chr 'i' = chr '-' := by decide
  by_cases hspace : isspace b = true
  · refine ⟨0, .inl fun s => ?_⟩
    rw [strtol, List.dropWhile_cons, if_pos hspace, List.dropWhile_cons, hi]
    simp only [Bool.false_eq_true, if_false, if_neg hsign.1, if_neg hsign.2]
  · have hdrop : ∀ s, (b :: chr 'i' :: s).dropWhile isspace = b :: chr 'i' :: s := fun s => by
      rw [List.dropWhile_cons, if_neg hspace]
    by_cases hplus : b = chr '+'
    · refine ⟨0, .inl fun s => ?_⟩
      rw [strtol, hdrop]
      simp only [if_pos hplus]
    · by_cases hminus : b = chr '-'
      · refine ⟨0, .inr fun s => ?_⟩
        rw [strtol, hdrop]
        simp only [if_neg hplus, if_pos hminus]
      · refine ⟨0 * 10 + (b.setWidth 32 - (chr '0').setWidth 32), .inl fun s => ?_⟩
        rw [strtol, hdrop]
        simp only [if_neg hplus, if_neg hminus]
        rw [strtolDigits, if_neg hspace]

/-- A character and the letter in front of a number make another number of it, for 0 or for 1.
-/
theorem strtol_i_ne (b : Byte) {s : Str} (hs : ∀ c, s.head? = some c → isspace c = false) :
    strtol (b :: chr 'i' :: chr '0' :: s) 10 ≠ 0 ∨
      strtol (b :: chr 'i' :: chr '1' :: s) 10 ≠ 1 := by
  obtain ⟨n, hpos | hneg⟩ := strtol_i b
  · rw [hpos, hpos, (strtolDigits_i n s).1, (strtolDigits_i n s).2]
    refine (strtolDigits_ne (odd_of_i n) hs).imp_right fun heven heq => ?_
    rw [heq] at heven
    exact absurd heven (by decide)
  · rw [hneg, hneg, (strtolDigits_i n s).1, (strtolDigits_i n s).2]
    rcases strtolDigits_ne (odd_of_i n) hs with hne | heven
    · left
      intro heq
      exact hne (by simpa using heq)
    · right
      intro heq
      have hminus := congrArg (fun v : Word => -v) heq
      simp only [BitVec.neg_neg] at hminus
      rw [hminus] at heven
      exact absurd heven (by decide)

/-! ## A literal text that is too long -/

/-- The object of an argument before the call, with no byte that any of the ints used here
has. -/
def blank : Obj := [255, 255, 255, 255]

theorem scanDirective_other {t : Byte} (hp : t ≠ chr '%') (hi : t ≠ chr 'i') (hc : t ≠ chr 'c')
    (hs : t ≠ chr 's') (n : ℤ) (fmt str : List Byte) (ap : List Obj) :
    scanDirective n t fmt str ap = .ok (.done ⟨-1, ap, str⟩) := by
  rw [scanDirective.eq_def]
  simp only [if_neg hp, if_neg hi, if_neg hc, if_neg hs]

theorem scanDirective_noArg {t : Byte} (ht : t = chr 'i' ∨ t = chr 'c' ∨ t = chr 's') (n : ℤ)
    (fmt str : List Byte) : scanDirective n t fmt str [] = .error .noArg := by
  rcases ht with rfl | rfl | rfl <;> rfl

theorem token_first {fmt str str' : List Byte} {b : Byte} {s : Str} (hb : b ≠ 0)
    (h : token fmt (b :: str) = .ok (s, str')) : s = [] ∨ ∃ s', s = b :: s' := by
  rw [token.eq_def] at h
  simp only [if_neg hb] at h
  split at h
  · cases h
  · split_ifs at h
    · left
      exact (congrArg Prod.fst (Except.ok.inj h)).symm
    · right
      rename_i f fmt' _
      cases htail : token (f :: fmt') str with
      | error e =>
          rw [htail] at h
          cases h
      | ok r =>
          rw [htail] at h
          exact ⟨r.1, (congrArg Prod.fst (Except.ok.inj h)).symm⟩

/-- `%c` writes one byte of an `int`. -/
theorem scan_char {n : ℤ} {fmt str : List Byte} {b : Byte} {ap : List Obj} {c : Conversion}
    (h : scanDirective n (chr 'c') fmt (b :: str) (blank :: ap) = .ok c) :
    ∃ str o, c = .next str [o] ap ∧ o ≠ intBytes 0 := by
  obtain rfl : Conversion.next str [[b, 255, 255, 255]] ap = c := Except.ok.inj h
  exact ⟨_, _, rfl, by simp [intBytes]⟩

/-- `%s` writes a character that is not nil, or nothing but the terminator. -/
theorem scan_string {n : ℤ} {fmt str : List Byte} {b : Byte} {ap : List Obj} {c : Conversion}
    (hb : b ≠ 0) (h : scanDirective n (chr 's') fmt (b :: str) (blank :: ap) = .ok c) :
    ∃ str o, c = .next str [o] ap ∧ o ≠ intBytes 0 := by
  have hother : ¬ chr 's' = chr '%' ∧ ¬ chr 's' = chr 'i' ∧ ¬ chr 's' = chr 'c' := by decide
  rw [scanDirective.eq_def] at h
  simp only [if_neg hother.1, if_neg hother.2.1, if_neg hother.2.2, if_true] at h
  split at h
  · cases h
  · rename_i s str' htoken
    cases hstore : store blank (s ++ [0]) with
    | error e =>
        rw [hstore] at h
        cases h
    | ok o =>
        rw [hstore] at h
        refine ⟨str', o, (Except.ok.inj h).symm, ?_⟩
        unfold store at hstore
        split_ifs at hstore
        obtain rfl := Except.ok.inj hstore
        -- the token is empty, or begins with `b`
        rcases token_first hb htoken with rfl | ⟨s', rfl⟩
        · exact fun heq => absurd heq (by decide)
        · intro heq
          simp only [List.cons_append, intBytes, List.cons.injEq] at heq
          exact hb heq.1

/-- `%i` writes an int, when the token has room. -/
theorem scan_int {n : ℤ} {fmt str : List Byte} {ap : List Obj} {c : Conversion}
    (h : scanDirective n (chr 'i') fmt str (blank :: ap) = .ok c) {s : Str} {rest : List Byte}
    (htoken : token fmt str = .ok (s, rest)) :
    c = .next rest [intBytes (strtol s 10)] ap := by
  have hother : ¬ chr 'i' = chr '%' := by decide
  rw [scanDirective.eq_def] at h
  simp only [if_neg hother, if_true, htoken] at h
  split_ifs at h
  rw [store_full (by rfl)] at h
  exact (Except.ok.inj h).symm

theorem textFrom_first {g : Str} {gs : List Str} (hg : IsLiteral g)
    (hlast : g = [] → gs = []) (xs : List Word) :
    ∀ c, (textFrom g gs xs).head? = some c → isspace c = false := by
  intro c hc
  cases g with
  | nil =>
      obtain rfl := hlast rfl
      cases xs <;> cases hc
  | cons d g =>
      have hhead : (textFrom (d :: g) gs xs).head? = some d := by
        cases gs <;> cases xs <;> rfl
      obtain rfl := Option.some.inj (hhead.symm.trans hc)
      exact (hg.first d rfl).2.2.2

/-- An int that the letter of a long literal text does not read. -/
theorem scan_int_ne {b : Byte} {r g : Str} {gs : List Str}
    (hr : ∀ c ∈ b :: chr 'i' :: r, c ≠ 0 ∧ c ≠ chr '%') (hlit : ∀ s ∈ g :: gs, IsLiteral s)
    (hlast : g = [] → gs = []) (xs : List Word) :
    ∃ x : Word, ∀ (n : ℤ) (ap : List Obj) (c : Conversion),
      scanDirective n (chr 'i') (formatFrom r (g :: gs) ++ [0])
        (b :: chr 'i' :: (textFrom r (g :: gs) (x :: xs) ++ [0])) (blank :: ap) = .ok c →
      ∃ str o, c = .next str [o] ap ∧ o ≠ intBytes x := by
  cases r with
  | cons c r =>
      -- the token is the same for every int
      let v := strtol ([b, chr 'i'].takeWhile fun d => d ≠ c) 10
      refine ⟨v + 1, fun n ap d h => ?_⟩
      have hchars : ∀ d ∈ [b, chr 'i'], d ≠ 0 := fun d hd =>
        (hr d (List.mem_append_left (c :: r) hd)).1
      obtain ⟨rest, htoken⟩ := token_stop c (r ++ chr '%' :: chr 'i' :: formatFrom g gs ++ [0])
        (r ++ intText (v + 1) ++ textFrom g gs xs ++ [0]) hchars
      refine ⟨rest, _, scan_int h htoken, fun heq => ?_⟩
      have hv : v = v + 1 := intBytes_injective heq
      simp at hv
  | nil =>
      have hpost := textFrom_first (hlit g List.mem_cons_self) hlast xs
      have htoken : ∀ x, token (formatFrom [] (g :: gs) ++ [0])
          (b :: chr 'i' :: (textFrom [] (g :: gs) (x :: xs) ++ [0])) =
            .ok (b :: chr 'i' :: (intText x ++ textFrom g gs xs), [0]) := by
        intro x
        have hchars : ∀ c ∈ b :: chr 'i' :: (intText x ++ textFrom g gs xs),
            c ≠ 0 ∧ c ≠ chr '%' := by
          intro c hc
          rcases List.mem_cons.mp hc with rfl | hc
          · exact hr _ List.mem_cons_self
          · rcases List.mem_cons.mp hc with rfl | hc
            · exact hr _ (by simp)
            · have hmem : c ∈ textFrom [] (g :: gs) (x :: xs) := hc
              refine textFrom_chars (fun s hs => ?_) c hmem
              rcases List.mem_cons.mp hs with rfl | hs
              · simp
              · exact (hlit s hs).chars
        exact token_append hchars (.inl rfl)
      have hzero : intText 0 = [chr '0'] := by decide
      have hone : intText 1 = [chr '1'] := by decide
      rcases strtol_i_ne b hpost with hne | hne
      · refine ⟨0, fun n ap d h => ⟨_, _, scan_int h (htoken 0), fun heq => hne ?_⟩⟩
        have heq' := intBytes_injective heq
        rwa [hzero] at heq'
      · refine ⟨1, fun n ap d h => ⟨_, _, scan_int h (htoken 1), fun heq => hne ?_⟩⟩
        have heq' := intBytes_injective heq
        rwa [hone] at heq'

/-- A conversion at the second character of a long literal text does not write the int. -/
theorem scanDirective_ne {b t : Byte} {r g : Str} {gs : List Str}
    (hr : ∀ c ∈ b :: t :: r, c ≠ 0 ∧ c ≠ chr '%') (hlit : ∀ s ∈ g :: gs, IsLiteral s)
    (hlast : g = [] → gs = []) (ht : t = chr 'i' ∨ t = chr 'c' ∨ t = chr 's') (xs : List Word) :
    ∃ x : Word, ∀ (n : ℤ) (ap : List Obj) (c : Conversion),
      scanDirective n t (formatFrom r (g :: gs) ++ [0])
        (b :: t :: (textFrom r (g :: gs) (x :: xs) ++ [0])) (blank :: ap) = .ok c →
      ∃ str o, c = .next str [o] ap ∧ o ≠ intBytes x := by
  rcases ht with rfl | rfl | rfl
  · exact scan_int_ne hr hlit hlast xs
  · exact ⟨0, fun n ap c h => scan_char h⟩
  · exact ⟨0, fun n ap c h => scan_string (hr b List.mem_cons_self).1 h⟩

/-- **More than one literal character** before a directive.  The second one is taken for the
`%`, and the third for the directive. -/
theorem long_not_scanned {a b : Byte} {r g : Str} {gs : List Str}
    (hlit : ∀ s ∈ (a :: b :: r) :: g :: gs, IsLiteral s) (hlast : g = [] → gs = []) :
    ∃ xs objs, xs.length = gs.length + 1 ∧ objs.length = gs.length + 1 ∧
      (∀ o ∈ objs, o.length = 4) ∧
      ∀ n : ℕ, vsscanf (formatFrom (a :: b :: r) (g :: gs) ++ [0])
        (textFrom (a :: b :: r) (g :: gs) xs ++ [0]) n objs ≠
          .ok ⟨n + (gs.length + 1), xs.map intBytes, [0]⟩ := by
  have hchars := (hlit _ List.mem_cons_self).chars
  have hg : ∀ s ∈ g :: gs, IsLiteral s := fun s hs => hlit s (List.mem_cons_of_mem _ hs)
  have ha := hchars a List.mem_cons_self
  let zeros : List Word := List.replicate gs.length 0
  let blanks : List Obj := List.replicate gs.length blank
  have hsizes : ∀ o ∈ blank :: blanks, o.length = 4 := by
    intro o ho
    rcases List.mem_cons.mp ho with rfl | ho
    · rfl
    · rw [List.eq_of_mem_replicate ho]
      rfl
  cases r with
  | nil =>
      -- the `%` of the directive is taken for one to be scanned
      have hb := (hchars b (by simp)).2
      refine ⟨0 :: zeros, blank :: blanks, by simp [zeros], by simp [blanks], hsizes,
        fun n h => ?_⟩
      have hscan := vsscanf_literals ha (chr '%') (chr 'i' :: formatFrom g gs ++ [0])
        (b :: (intText 0 ++ textFrom g gs zeros ++ [0])) n (blank :: blanks) (b := b)
      have hdone : scanDirective n (chr '%') (chr 'i' :: formatFrom g gs ++ [0])
          (b :: (intText 0 ++ textFrom g gs zeros ++ [0])) (blank :: blanks) =
            .ok (.done ⟨n, blank :: blanks, b :: (intText 0 ++ textFrom g gs zeros ++ [0])⟩) := by
        rw [scanDirective.eq_def]
        simp only [if_true, if_neg hb]
      rw [hdone] at hscan
      have hret := congrArg Scanned.ret (Except.ok.inj (hscan.symm.trans h))
      simp only at hret
      omega
  | cons t r =>
      have ht := (hchars t (by simp)).2
      by_cases hconv : t = chr 'i' ∨ t = chr 'c' ∨ t = chr 's'
      · obtain ⟨x, hx⟩ := scanDirective_ne (r := r)
          (fun c hc => hchars c (List.mem_cons_of_mem _ hc)) hg hlast hconv zeros
        refine ⟨x :: zeros, blank :: blanks, by simp [zeros], by simp [blanks], hsizes,
          fun n h => ?_⟩
        have hscan := vsscanf_literals ha t (formatFrom r (g :: gs) ++ [0])
          (b :: t :: (textFrom r (g :: gs) (x :: zeros) ++ [0])) n (blank :: blanks) (b := b)
        have h' := hscan.symm.trans h
        cases hc : scanDirective n t (formatFrom r (g :: gs) ++ [0])
            (b :: t :: (textFrom r (g :: gs) (x :: zeros) ++ [0])) (blank :: blanks) with
        | error e =>
            rw [hc] at h'
            cases h'
        | ok c =>
            obtain ⟨str, o, rfl, hne⟩ := hx n blanks c hc
            exact hne (written_first hc h').symm
      · simp only [not_or] at hconv
        refine ⟨0 :: zeros, blank :: blanks, by simp [zeros], by simp [blanks], hsizes,
          fun n h => ?_⟩
        have hscan := vsscanf_literals ha t (formatFrom r (g :: gs) ++ [0])
          (b :: t :: (textFrom r (g :: gs) (0 :: zeros) ++ [0])) n (blank :: blanks) (b := b)
        rw [scanDirective_other ht hconv.1 hconv.2.1 hconv.2.2] at hscan
        have hret := congrArg Scanned.ret (Except.ok.inj (hscan.symm.trans h))
        simp only at hret
        omega

/-- **A literal character** at the end of the format.  With one of them the terminator is
taken for the `%` of a directive, with more the second one is. -/
theorem trailing_not_scanned {f : Str} (hf : ∀ c ∈ f, c ≠ 0 ∧ c ≠ chr '%') (hne : f ≠ [])
    (n : ℕ) : vsscanf (f ++ [0]) (f ++ [0]) n [] ≠ .ok ⟨n, [], [0]⟩ := by
  match f with
  | [] => exact absurd rfl hne
  | [a] =>
      obtain ⟨ha, hpercent⟩ := hf a List.mem_cons_self
      rw [List.singleton_append, vsscanf.eq_def]
      simp only [if_neg ha, if_neg hpercent, if_true]
      simp
  | a :: b :: r =>
      have ha := hf a List.mem_cons_self
      intro h
      obtain ⟨t, fmt, hfmt, ht⟩ : ∃ t fmt, r ++ [0] = t :: fmt ∧ t ≠ chr '%' := by
        cases r with
        | nil => exact ⟨0, [], rfl, by decide⟩
        | cons t r => exact ⟨t, r ++ [0], rfl, (hf t (by simp)).2⟩
      rw [List.cons_append, List.cons_append, hfmt, vsscanf_literals ha] at h
      by_cases hconv : t = chr 'i' ∨ t = chr 'c' ∨ t = chr 's'
      · rw [scanDirective_noArg hconv] at h
        cases h
      · simp only [not_or] at hconv
        rw [scanDirective_other ht hconv.1 hconv.2.1 hconv.2.2] at h
        have hret := congrArg Scanned.ret (Except.ok.inj h)
        simp only at hret
        omega

/-- **In every other format** there are ints that do not come back.  The first text that is
too long decides, since everything before it is scanned as it should be. -/
theorem exists_not_scanned {f : Str} {fs : List Str} (hlit : ∀ s ∈ f :: fs, IsLiteral s)
    (hapart : ∀ s ∈ fs.dropLast, s ≠ []) (hscan : ¬ Scannable f fs) :
    ∃ xs objs, xs.length = fs.length ∧ objs.length = fs.length ∧ (∀ o ∈ objs, o.length = 4) ∧
      ∀ n : ℕ, vsscanf (formatFrom f fs ++ [0]) (textFrom f fs xs ++ [0]) n objs ≠
        .ok ⟨n + fs.length, xs.map intBytes, [0]⟩ := by
  induction fs generalizing f with
  | nil =>
      refine ⟨[], [], rfl, rfl, by simp, fun n => ?_⟩
      simpa [formatFrom, textFrom] using
        trailing_not_scanned (hlit f List.mem_cons_self).chars hscan n
  | cons g gs ih =>
      obtain ⟨hlast, hapart'⟩ := lastApart hapart
      have hg : ∀ s ∈ g :: gs, IsLiteral s := fun s hs => hlit s (List.mem_cons_of_mem _ hs)
      by_cases hlen : f.length ≤ 1
      · -- the first directive gets its int, and the rest of the format fails
        obtain ⟨xs, objs, hxs, hobjs, ho, hne⟩ :=
          ih hg hapart' fun h => hscan ⟨hlen, h⟩
        refine ⟨0 :: xs, blank :: objs, by simp [hxs], by simp [hobjs], ?_, fun n h => ?_⟩
        · intro o ho'
          rcases List.mem_cons.mp ho' with rfl | ho'
          · rfl
          · exact ho o ho'
        · rw [vsscanf_first (hlit f List.mem_cons_self).chars hlen (hg g List.mem_cons_self)
            hlast rfl] at h
          refine hne (n + 1) ?_
          cases hrest : vsscanf (formatFrom g gs ++ [0]) (textFrom g gs xs ++ [0]) (n + 1)
              objs with
          | error e =>
              rw [hrest] at h
              cases h
          | ok r =>
              rw [hrest] at h
              obtain ⟨ret, objs', rest⟩ := r
              simp only [Except.map, List.map_cons, Except.ok.injEq, Scanned.mk.injEq,
                List.cons.injEq, true_and] at h
              obtain ⟨rfl, rfl, rfl⟩ := h
              rw [Nat.cast_succ, hrest, List.length_cons, Nat.cast_succ]
              congr 2
              ring
      · obtain ⟨a, b, r, rfl⟩ : ∃ a b r, f = a :: b :: r := by
          cases f with
          | nil => simp at hlen
          | cons a f =>
              cases f with
              | nil => simp at hlen
              | cons b r => exact ⟨a, b, r, rfl⟩
        exact_mod_cast long_not_scanned hlit hlast

/-! ## The formats it scans -/

/-- `sscanf` undoes `snprintf` with the format exactly when no directive has more than one
literal character before it, and the format ends in a directive or is empty.  Ints and objects
are arbitrary, as many as there are directives. -/
theorem undone_iff (F : Format) :
    (∀ ints objs, ints.length = F.behind.length → objs.length = F.behind.length →
      (∀ o ∈ objs, o.length = 4) → Undone F.fmt ints objs) ↔ Scannable F.lead F.behind := by
  constructor
  · intro h
    by_contra hscan
    obtain ⟨xs, objs, hxs, hobjs, ho, hne⟩ := exists_not_scanned F.literal F.apart hscan
    obtain ⟨text, hprint, hback⟩ := h xs objs hxs hobjs ho
    -- the text is the one `snprintf` makes in a buffer that has room for either
    let size := text.length + (textFrom F.lead F.behind xs).length + 1
    have hformat : vsnprintf size (F.fmt ++ [0]) (xs.map .int) [] =
        .ok ([] ++ textFrom F.lead F.behind xs) :=
      vsnprintf_format F.literal hxs (by simp only [size, List.length_nil]; omega)
    have htext : text = textFrom F.lead F.behind xs :=
      Except.ok.inj ((hprint size (by omega)).symm.trans hformat)
    refine hne 0 ?_
    rw [htext, hxs] at hback
    simpa [sscanf, Format.fmt] using hback
  · intro hscan ints objs hints hobjs ho
    refine ⟨textFrom F.lead F.behind ints, fun max hmax => ?_, ?_⟩
    · exact vsnprintf_format F.literal hints (by simpa using hmax)
    · have h := vsscanf_format (n := 0) F.literal F.apart hints hobjs ho hscan
      rw [hints]
      simpa [sscanf, Format.fmt] using h

/-! ## A format it does not scan -/

/-- `"n=%i"`. -/
def assignFormat : Format where
  lead := [chr 'n', chr '=']
  behind := [[]]
  literal := by
    intro s hs
    simp only [List.mem_cons, List.not_mem_nil, or_false] at hs
    rcases hs with rfl | rfl
    · refine ⟨by decide, fun c hc => ?_⟩
      obtain rfl := Option.some.inj hc
      exact ⟨fun h => absurd h.2 (by decide), by decide⟩
    · exact ⟨by simp, fun c hc => by cases hc⟩
  apart := by simp

/-- It prints `n=5` and does not read it back. -/
theorem assign_not_undone : ¬ Undone assignFormat.fmt [5] [blank] := by
  rintro ⟨text, hprint, hback⟩
  have htext : text = [chr 'n', chr '=', chr '5'] := by
    have hsize := hprint (text.length + 4) (by omega)
    have hformat : vsnprintf (text.length + 4) (assignFormat.fmt ++ [0]) ([5].map .int) [] =
        .ok ([] ++ textFrom assignFormat.lead assignFormat.behind [5]) :=
      vsnprintf_format assignFormat.literal rfl
        (show 0 + 3 < text.length + 4 by omega)
    exact Except.ok.inj (hsize.symm.trans hformat)
  subst htext
  exact absurd hback (by decide)

end Omb
