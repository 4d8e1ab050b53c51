import Omb.Libstring.Buffer
import Mathlib.Logic.Relation

/-!
# What `vsscanf` accesses

`vsscanfT` is `vsscanf` with its reads of the format, by position, and its stores into `num`,
by index.  Where the source stores behind the end of `num`, it goes on as if there were room;
the objects of the arguments are left out.  It returns what `vsscanf` does (`vsscanfT_eq`).

`Turn` says what one turn of the loop takes from the format and from the string, in terms of
the text: a directive, perhaps a literal character in front of it, a token.  The accesses of a
call are those of the turns it comes to (`mem_vsscanfT_iff`), and `numInside_iff` says when
its stores into `num` are inside it.

A token is what is in front of the character that the format goes on with, or of the end of
the string (`IsToken`).  With `%i` its characters are stored into `num`, one index after the
other, and a terminator behind them, so a token of 32 characters has its terminator outside.

Where the scan comes to does not depend on the objects, nor on how many conversions have been
made (`trace_scanDirectiveT`); it does on the string, and so does whether it stays inside
`num`.

## Main definitions

* `Leads`, `Turn`, `Scans`: what a turn takes, and the places the loop comes to
* `IsToken`, `IntToken`: tokens, and those of a `%i`

## Main results

* `vsscanfT_eq`: without its accesses `vsscanfT` is `vsscanf`
* `mem_vsscanfT_iff`: the accesses of a run are those of its turns
* `numInside_iff`: when integer scanning stays in its buffer
-/

namespace Omb

open Checked

/-! ## Accesses -/

/-- The loop `while (*str != 0 && *str != *fmt) *s++ = *str++;` with the format at position
`p`, when `k` characters have been copied; `store` are the stores of interest. -/
def tokenT (p : ℕ) (fmt : List Byte) (store : ℕ → List StrAccess) :
    ℕ → List Byte → Checked StrAccess Fault (Str × List Byte)
  | _, [] => fail .pastEnd
  | k, s :: str =>
      if s = 0 then pure ([], s :: str)
      else do
        event (.fmt p)
        match fmt with
        | [] => fail .pastEnd
        | f :: _ =>
            if s = f then pure ([], s :: str)
            else do
              events (store k)
              let r ← tokenT p fmt store (k + 1) str
              pure (s :: r.1, r.2)

/-- The `switch` of `vsscanf` with its accesses: it returns, or goes on in the string. -/
def scanDirectiveT (p : ℕ) (n : ℤ) (t : Byte) (fmt str : List Byte) :
    Checked StrAccess Fault ((ℤ × List Byte) ⊕ List Byte) :=
  if t = chr '%' then
    match str with
    | [] => fail .pastEnd
    | s :: rest => if s = chr '%' then pure (.inr rest) else pure (.inl (n, str))
  else if t = chr 'i' then do
    let r ← tokenT p fmt (fun k => [.num k]) 0 str
    event (.num r.1.length)
    pure (.inr r.2)
  else if t = chr 'c' then
    match str with
    | [] => fail .pastEnd
    | _ :: str => pure (.inr str)
  else if t = chr 's' then do
    let r ← tokenT p fmt (fun _ => []) 0 str
    pure (.inr r.2)
  else pure (.inl (-1, str))

/-- The rest of the loop after the `switch`. -/
def goOn (k : List Byte → Checked StrAccess Fault (ℤ × List Byte)) :
    (ℤ × List Byte) ⊕ List Byte → Checked StrAccess Fault (ℤ × List Byte)
  | .inl r => pure r
  | .inr str => k str

/-- `vsscanf` with its accesses, from position `p` of the format on: what it returns, and
where it is in the string. -/
def vsscanfT : ℕ → List Byte → List Byte → ℤ → Checked StrAccess Fault (ℤ × List Byte)
  | p, [], _, _ => do
      event (.fmt p)
      fail .pastEnd
  | p, f :: fmt, str, n => do
      event (.fmt p)
      if f = 0 then pure (n, str)
      else if f = chr '%' then
        match fmt with
        | [] => do
            event (.fmt (p + 1))
            fail .pastEnd
        | t :: fmt => do
            event (.fmt (p + 1))
            let r ← scanDirectiveT (p + 2) n t fmt str
            goOn (fun str => vsscanfT (p + 2) fmt str (n + 1)) r
      else
        match str with
        | [] => fail .pastEnd
        | s :: rest =>
            if s = f then
              match fmt with
              | _ :: t :: fmt => do
                  event (.fmt (p + 2))
                  let r ← scanDirectiveT (p + 3) n t fmt rest
                  goOn (fun str => vsscanfT (p + 3) fmt str (n + 1)) r
              | _ => do
                  event (.fmt (p + 2))
                  fail .pastEnd
            else pure (n, str)

/-! ## Without the accesses -/

section Results

variable {p k : ℕ} {n : ℤ} {t : Byte} {fmt str str' : List Byte} {ap ap' written : List Obj}
  {r : Scanned}

theorem tokenT_eq (p k : ℕ) (fmt str : List Byte) (st : ℕ → List StrAccess) :
    (tokenT p fmt st k str).result = token fmt str := by
  induction str generalizing k with
  | nil => rfl
  | cons s str ih =>
      unfold tokenT token
      split_ifs with hzero
      · rfl
      · rcases fmt with _ | ⟨f, fmt⟩
        · rfl
        · rw [result_event_bind]
          dsimp only
          split_ifs with hf
          · rfl
          · rw [events, mk_bind, result_bind, ih]
            cases token (f :: fmt) str <;> rfl

/-- How the loop goes on, whatever has been written. -/
def Conversion.outcome : Conversion → (ℤ × List Byte) ⊕ List Byte
  | .done r => .inl (r.ret, r.rest)
  | .next str _ _ => .inr str

/-- What a directive that has written its object does. -/
theorem outcome_of_store {x : Except Fault Obj} {ap : List Obj} {c : Conversion}
    (h : (x.map fun o => Conversion.next str [o] ap) = .ok c) : c.outcome = .inr str := by
  cases x with
  | error e => cases h
  | ok o =>
      cases h
      rfl

theorem scanDirectiveT_eq {c : Conversion} (h : scanDirective n t fmt str ap = .ok c) (p : ℕ) :
    (scanDirectiveT p n t fmt str).result = .ok c.outcome := by
  unfold scanDirective at h
  unfold scanDirectiveT
  split_ifs at h ⊢ with hpercent hi hc hs
  · rcases str with _ | ⟨s, str⟩
    · cases h
    · dsimp only at h ⊢
      split_ifs at h ⊢
      · cases h
        rfl
      · cases h
        rfl
  · rcases ap with _ | ⟨o, ap⟩
    · cases h
    cases htoken : token fmt str with
    | error e => simp only [htoken] at h; cases h
    | ok num =>
        have hresult := (tokenT_eq p 0 fmt str fun k => [.num k]).trans htoken
        simp only [htoken] at h
        split_ifs at h
        rw [result_bind_of_ok hresult, outcome_of_store h]
        rfl
  · rcases ap with _ | ⟨o, ap⟩
    · cases h
    rcases str with _ | ⟨s, str⟩
    · cases h
    rw [outcome_of_store h]
    rfl
  · rcases ap with _ | ⟨o, ap⟩
    · cases h
    cases htoken : token fmt str with
    | error e => simp only [htoken] at h; cases h
    | ok s =>
        have hresult := (tokenT_eq p 0 fmt str fun _ => []).trans htoken
        simp only [htoken] at h
        rw [result_bind_of_ok hresult, outcome_of_store h]
        rfl
  · cases h
    rfl

/-- The loop goes on as it does without the accesses. -/
theorem andThen_eq {x : Except Fault Conversion}
    {y : Checked StrAccess Fault ((ℤ × List Byte) ⊕ List Byte)}
    {k : List Byte → List Obj → Except Fault Scanned}
    {k' : List Byte → Checked StrAccess Fault (ℤ × List Byte)}
    (hx : ∀ c, x = .ok c → y.result = .ok c.outcome)
    (hk : ∀ str ap r, k str ap = .ok r → (k' str).result = .ok (r.ret, r.rest))
    (h : Conversion.andThen x k = .ok r) : (y >>= goOn k').result = .ok (r.ret, r.rest) := by
  cases x with
  | error e => cases h
  | ok c =>
      rw [result_bind_of_ok (hx c rfl)]
      cases c with
      | done r' =>
          cases h
          rfl
      | next str written ap =>
          cases hr : k str ap with
          | error e => simp only [Conversion.andThen, hr] at h; cases h
          | ok r' =>
              simp only [Conversion.andThen, hr] at h
              cases h
              exact hk str ap r' hr

/-- **Without its accesses** `vsscanfT` is `vsscanf`, where that does not go wrong.  It may go
wrong where an argument has no room or there is none left. -/
theorem vsscanfT_eq (h : vsscanf fmt str n ap = .ok r) (p : ℕ) :
    (vsscanfT p fmt str n).result = .ok (r.ret, r.rest) := by
  induction hlen : fmt.length using Nat.strong_induction_on generalizing p fmt str n ap r with
  | _ len ih =>
      have hturn : ∀ {fmt' : List Byte}, fmt'.length < len → ∀ q t str',
          Conversion.andThen (scanDirective n t fmt' str' ap)
            (fun str ap => vsscanf fmt' str (n + 1) ap) = .ok r →
          (scanDirectiveT q n t fmt' str' >>=
            goOn fun str => vsscanfT q fmt' str (n + 1)).result = .ok (r.ret, r.rest) :=
        fun hlt q _ _ => andThen_eq (fun _ hc => scanDirectiveT_eq hc q)
          fun _ _ _ hk => ih _ hlt hk q rfl
      rcases fmt with _ | ⟨f, fmt⟩
      · cases h
      rw [List.length_cons] at hlen
      rw [vsscanf.eq_def] at h
      rw [vsscanfT.eq_def]
      dsimp only at h ⊢
      rw [result_event_bind]
      split_ifs at h ⊢ with hzero hpercent
      · cases h
        rfl
      · rcases fmt with _ | ⟨t, fmt⟩
        · cases h
        · rw [List.length_cons] at hlen
          exact hturn (by omega) _ _ _ h
      · rcases str with _ | ⟨s, str⟩
        · cases h
        dsimp only at h ⊢
        split_ifs at h ⊢ with hs
        · rcases fmt with _ | ⟨x, _ | ⟨t, fmt⟩⟩
          · cases h
          · cases h
          · rw [List.length_cons, List.length_cons] at hlen
            exact hturn (by omega) _ _ _ h
        · cases h
          rfl

end Results

/-! ## Turns -/

/-- From `fmt` and `str` a turn of the loop comes to the directive `t`, with `fmt'` behind it,
and to `str'`.  Behind a literal character that matches, one character of the format is
skipped. -/
inductive Leads : List Byte → List Byte → Byte → List Byte → List Byte → Prop where
  | directive (t : Byte) (fmt str : List Byte) : Leads (chr '%' :: t :: fmt) str t fmt str
  | literal {f : Byte} (hzero : f ≠ 0) (hpercent : f ≠ chr '%') (x t : Byte)
      (fmt str : List Byte) : Leads (f :: x :: t :: fmt) (f :: str) t fmt str

/-- A character that a token goes on with, in front of `fmt`. -/
def Copied (fmt : List Byte) (s : Byte) : Prop :=
  s ≠ 0 ∧ ∃ f, fmt.head? = some f ∧ s ≠ f

/-- A character that a token ends at. -/
def Ends (fmt : List Byte) (s : Byte) : Prop :=
  s = 0 ∨ fmt.head? = some s

/-- The token at the front of `str`, and what is behind it. -/
structure IsToken (fmt str tok str' : List Byte) : Prop where
  split : str = tok ++ str'
  copied : ∀ s ∈ tok, Copied fmt s
  ends : ∃ s rest, str' = s :: rest ∧ Ends fmt s

/-- What a directive that goes on takes from the string. -/
inductive Consumes (fmt : List Byte) : Byte → List Byte → List Byte → Prop where
  | percent (str : List Byte) : Consumes fmt (chr '%') (chr '%' :: str) str
  | char (s : Byte) (str : List Byte) : Consumes fmt (chr 'c') (s :: str) str
  | int {str tok str' : List Byte} (h : IsToken fmt str tok str') : Consumes fmt (chr 'i') str str'
  | string {str tok str' : List Byte} (h : IsToken fmt str tok str') :
      Consumes fmt (chr 's') str str'

/-- A turn that goes on, from the format and the string to what is left of them. -/
def Turn (x y : List Byte × List Byte) : Prop :=
  ∃ t str, Leads x.1 x.2 t y.1 str ∧ Consumes y.1 t str y.2

/-- The places the loop comes to. -/
abbrev Scans : List Byte × List Byte → List Byte × List Byte → Prop :=
  Relation.ReflTransGen Turn

/-! ## Tokens -/

section Tokens

variable {p k i : ℕ} {f s : Byte} {fmt str str' tok : List Byte} {st : ℕ → List StrAccess}

theorem tokenT_ends (h : Ends fmt s) (rest : List Byte) :
    tokenT p fmt st k (s :: rest) =
      ⟨if s = 0 then [] else [.fmt p], .ok ([], s :: rest)⟩ := by
  rw [tokenT.eq_def]
  by_cases hzero : s = 0
  · simp only [if_pos hzero]
    rfl
  · obtain ⟨fmt', rfl⟩ := List.head?_eq_some_iff.mp (h.resolve_left hzero)
    simp only [if_neg hzero, if_true]
    rfl

theorem tokenT_copied (h : Copied fmt s) (rest : List Byte) :
    tokenT p fmt st k (s :: rest) =
      (do event (.fmt p); events (st k); let r ← tokenT p fmt st (k + 1) rest
          pure (s :: r.1, r.2)) := by
  obtain ⟨hzero, f, hf, hne⟩ := h
  obtain ⟨fmt', rfl⟩ := List.head?_eq_some_iff.mp hf
  rw [tokenT.eq_def]
  simp only [if_neg hzero, if_neg hne]

theorem copied_or_ends (hfmt : fmt ≠ []) (s : Byte) : Copied fmt s ∨ Ends fmt s := by
  obtain ⟨f, fmt, rfl⟩ := List.exists_cons_of_ne_nil hfmt
  by_cases hzero : s = 0
  · exact .inr (.inl hzero)
  · by_cases hf : s = f
    · exact .inr (.inr (congrArg some hf.symm))
    · exact .inl ⟨hzero, f, rfl, hf⟩

/-- **The copy loop** stops at the end of the token, and there is only one. -/
theorem tokenT_result_iff (st : ℕ → List StrAccess) :
    (tokenT p fmt st k str).result = .ok (tok, str') ↔ IsToken fmt str tok str' := by
  constructor
  · intro h
    induction str generalizing k tok with
    | nil => cases h
    | cons s str ih =>
        by_cases hzero : s = 0
        · rw [tokenT_ends (.inl hzero)] at h
          cases h
          exact ⟨rfl, fun _ hs => absurd hs List.not_mem_nil, s, str, rfl, .inl hzero⟩
        · rcases eq_or_ne fmt [] with rfl | hfmt
          · rw [tokenT.eq_def] at h
            simp only [if_neg hzero] at h
            cases h
          rcases copied_or_ends hfmt s with hcopied | hends
          · rw [tokenT_copied hcopied, result_event_bind, events, mk_bind, result_bind] at h
            cases hr : (tokenT p fmt st (k + 1) str).result with
            | error e => rw [hr] at h; cases h
            | ok r =>
                rw [hr] at h
                cases h
                obtain ⟨hsplit, htok, hend⟩ := ih hr
                exact ⟨congrArg (s :: ·) hsplit, List.forall_mem_cons.mpr ⟨hcopied, htok⟩, hend⟩
          · rw [tokenT_ends hends] at h
            cases h
            exact ⟨rfl, fun _ hs => absurd hs List.not_mem_nil, s, str, rfl, hends⟩
  · rintro ⟨rfl, htok, s, rest, rfl, hends⟩
    induction tok generalizing k with
    | nil => rw [List.nil_append, tokenT_ends hends]
    | cons c tok ih =>
        obtain ⟨hc, htok⟩ := List.forall_mem_cons.mp htok
        rw [List.cons_append, tokenT_copied hc, result_event_bind, events, mk_bind,
          result_bind_of_ok (ih htok)]
        rfl

/-- The copy loop reads the format at its position only. -/
theorem always_tokenT (p k : ℕ) (fmt str : List Byte) (st : ℕ → List StrAccess) :
    Always (fun e => e = .fmt p ∨ ∃ j, e ∈ st j) (tokenT p fmt st k str) := by
  induction str generalizing k with
  | nil => exact always_fail _
  | cons s str ih =>
      unfold tokenT
      split_ifs with hzero
      · exact always_pure _
      · refine (always_event_bind _).mpr ⟨.inl rfl, ?_⟩
        rcases fmt with _ | ⟨f, fmt⟩
        · exact always_fail _
        · dsimp only
          split_ifs with hf
          · exact always_pure _
          · exact always_bind.mpr ⟨fun e he => .inr ⟨k, he⟩, fun _ _ =>
              always_bind.mpr ⟨ih (k + 1), fun _ _ => always_pure _⟩⟩

/-- What is stored into `num`. -/
theorem num_mem_tokenT (h : IsToken fmt str tok str') :
    .num i ∈ (tokenT p fmt (fun k => [.num k]) k str).trace ↔ k ≤ i ∧ i < k + tok.length := by
  obtain ⟨rfl, htok, hends⟩ := h
  induction tok generalizing k with
  | nil =>
      obtain ⟨s, rest, rfl, hs⟩ := hends
      have hno : .num i ∉ (tokenT p fmt (fun k => [.num k]) k (s :: rest)).trace := by
        rw [tokenT_ends hs]
        split_ifs <;> simp
      rw [List.nil_append]
      exact iff_of_false hno (by rw [List.length_nil]; omega)
  | cons c tok ih =>
      obtain ⟨hc, htok⟩ := List.forall_mem_cons.mp htok
      have hresult := (tokenT_result_iff (fun k => [.num k]) (p := p) (k := k + 1)).mpr
        ⟨rfl, htok, hends⟩
      rw [List.cons_append, tokenT_copied hc, trace_event_bind, events, mk_bind,
        trace_bind_of_ok hresult, trace_pure, List.append_nil, List.mem_cons, List.mem_append,
        ih htok, List.mem_singleton, List.length_cons]
      simp only [reduceCtorEq, false_or, StrAccess.num.injEq]
      omega

end Tokens

/-! ## Directives -/

section Directives

variable {p q i : ℕ} {n : ℤ} {t : Byte} {fmt str str' tok : List Byte}

/-- **A directive** goes on with what is behind the text it takes. -/
theorem scanDirectiveT_next_iff :
    (scanDirectiveT p n t fmt str).result = .ok (.inr str') ↔ Consumes fmt t str str' := by
  constructor
  · intro h
    unfold scanDirectiveT at h
    split_ifs at h with hpercent hi hc hs
    · subst hpercent
      rcases str with _ | ⟨s, str⟩
      · cases h
      · simp only at h
        split_ifs at h with hs
        · cases h
          subst hs
          exact .percent _
        · cases h
    · subst hi
      rw [result_bind] at h
      split at h
      · rename_i r hr
        cases h
        exact .int ((tokenT_result_iff _).mp hr)
      · cases h
    · subst hc
      rcases str with _ | ⟨s, str⟩
      · cases h
      · cases h
        exact .char s _
    · subst hs
      rw [result_bind] at h
      split at h
      · rename_i r hr
        cases h
        exact .string ((tokenT_result_iff _).mp hr)
      · cases h
    · cases h
  · intro h
    cases h with
    | percent => rfl
    | char => rfl
    | int h =>
        have hr := (tokenT_result_iff (fun k => [.num k]) (p := p) (k := 0)).mpr h
        show (tokenT p fmt (fun k => [.num k]) 0 str >>= _).result = _
        rw [result_bind_of_ok hr]
        rfl
    | string h =>
        have hr := (tokenT_result_iff (fun _ => []) (p := p) (k := 0)).mpr h
        show (tokenT p fmt (fun _ => []) 0 str >>= _).result = _
        rw [result_bind_of_ok hr]
        rfl

theorem always_scanDirectiveT :
    Always (fun e => (e = .fmt p ∧ t ≠ 0) ∨ ∃ j, e = .num j ∧ t = chr 'i')
      (scanDirectiveT p n t fmt str) := by
  unfold scanDirectiveT
  split_ifs with hpercent hi hc hs
  · rcases str with _ | ⟨s, str⟩
    · exact always_fail _
    · dsimp only
      split_ifs
      · exact always_pure _
      · exact always_pure _
  · have hzero : t ≠ 0 := by rw [hi]; decide
    refine always_bind.mpr ⟨fun e he => ?_, fun r _ => ?_⟩
    · rcases always_tokenT p 0 fmt str (fun k => [.num k]) e he with h | ⟨j, hj⟩
      · exact .inl ⟨h, hzero⟩
      · exact .inr ⟨j, List.mem_singleton.mp hj, hi⟩
    · exact (always_event_bind _).mpr ⟨.inr ⟨_, rfl, hi⟩, always_pure _⟩
  · rcases str with _ | ⟨s, str⟩
    · exact always_fail _
    · exact always_pure _
  · have hzero : t ≠ 0 := by rw [hs]; decide
    refine always_bind.mpr ⟨fun e he => ?_, fun _ _ => always_pure _⟩
    rcases always_tokenT p 0 fmt str (fun _ => []) e he with h | ⟨j, hj⟩
    · exact .inl ⟨h, hzero⟩
    · exact absurd hj List.not_mem_nil
  · exact always_pure _

/-- **`%i`** stores its token and a terminator. -/
theorem num_mem_scanDirectiveT (h : IsToken fmt str tok str') :
    .num i ∈ (scanDirectiveT p n (chr 'i') fmt str).trace ↔ i ≤ tok.length := by
  have hr := (tokenT_result_iff (fun k => [.num k]) (p := p) (k := 0)).mpr h
  show .num i ∈ (tokenT p fmt (fun k => [.num k]) 0 str >>= _).trace ↔ _
  rw [trace_bind_of_ok hr, trace_event_bind, trace_pure, List.mem_append, num_mem_tokenT h,
    List.mem_singleton, StrAccess.num.injEq]
  dsimp only
  omega

/-- The number of conversions makes no difference to the accesses. -/
theorem trace_scanDirectiveT (p : ℕ) (n m : ℤ) (t : Byte) (fmt str : List Byte) :
    (scanDirectiveT p n t fmt str).trace = (scanDirectiveT p m t fmt str).trace := by
  unfold scanDirectiveT
  split_ifs
  · rcases str with _ | ⟨s, str⟩
    · rfl
    · dsimp only
      split_ifs <;> rfl
  all_goals rfl

end Directives

/-! ## Runs -/

section Runs

variable {p q : ℕ} {n : ℤ} {t : Byte} {fmt fmt' str str' : List Byte} {e : StrAccess}

/-- The accesses of a turn, at position `p`.  A turn that does not go on has accesses too. -/
inductive TurnAccess (p : ℕ) : List Byte → List Byte → StrAccess → Prop where
  | test (fmt str : List Byte) : TurnAccess p fmt str (.fmt p)
  | percent (fmt str : List Byte) : TurnAccess p (chr '%' :: fmt) str (.fmt (p + 1))
  | literal {f : Byte} (hzero : f ≠ 0) (hpercent : f ≠ chr '%') (fmt str : List Byte) :
      TurnAccess p (f :: fmt) (f :: str) (.fmt (p + 2))
  | directive {fmt fmt' str str' : List Byte} {t : Byte} {q : ℕ} {e : StrAccess}
      (h : Leads fmt str t fmt' str') (hq : q + fmt'.length = p + fmt.length)
      (he : e ∈ (scanDirectiveT q 0 t fmt' str').trace) : TurnAccess p fmt str e

/-- A turn that comes to a directive. -/
theorem Leads.run (h : Leads fmt str t fmt' str') (p : ℕ) (n : ℤ) :
    ∃ j, fmt.length = fmt'.length + (j + 1) ∧ TurnAccess p fmt str (.fmt (p + j)) ∧
      vsscanfT p fmt str n =
        (do event (.fmt p)
            event (.fmt (p + j))
            let r ← scanDirectiveT (p + (j + 1)) n t fmt' str'
            goOn (fun str => vsscanfT (p + (j + 1)) fmt' str (n + 1)) r) := by
  cases h with
  | directive t fmt str =>
      refine ⟨1, rfl, .percent _ _, ?_⟩
      have hzero : ¬ chr '%' = 0 := by decide
      rw [vsscanfT.eq_def]
      simp only [if_neg hzero, if_true]
  | literal hzero hpercent x t fmt str =>
      refine ⟨2, rfl, .literal hzero hpercent _ _, ?_⟩
      rw [vsscanfT.eq_def]
      simp only [if_neg hzero, if_neg hpercent, if_true]

/-- The accesses from the directive on. -/
theorem mem_trace_run {j : ℕ} : e ∈ (do
      event (.fmt p)
      event (.fmt (p + j))
      let r ← scanDirectiveT (p + (j + 1)) n t fmt' str'
      goOn (fun str => vsscanfT (p + (j + 1)) fmt' str (n + 1)) r :
        Checked StrAccess Fault (ℤ × List Byte)).trace ↔
    e = .fmt p ∨ e = .fmt (p + j) ∨ e ∈ (scanDirectiveT (p + (j + 1)) 0 t fmt' str').trace ∨
      ∃ rest, Consumes fmt' t str' rest ∧ e ∈ (vsscanfT (p + (j + 1)) fmt' rest (n + 1)).trace := by
  rw [trace_event_bind, trace_event_bind, List.mem_cons, List.mem_cons,
    trace_scanDirectiveT _ 0 n]
  refine or_congr_right (or_congr_right ?_)
  cases hr : (scanDirectiveT (p + (j + 1)) n t fmt' str').result with
  | error f =>
      rw [trace_bind_of_error hr]
      refine (or_iff_left ?_).symm
      rintro ⟨rest, hconsumes, -⟩
      rw [scanDirectiveT_next_iff.mpr hconsumes] at hr
      cases hr
  | ok r =>
      rw [trace_bind_of_ok hr, List.mem_append]
      refine or_congr_right ?_
      cases r with
      | inl r =>
          refine iff_of_false List.not_mem_nil ?_
          rintro ⟨rest, hconsumes, -⟩
          rw [scanDirectiveT_next_iff.mpr hconsumes] at hr
          cases hr
      | inr rest =>
          refine ⟨fun h => ⟨rest, scanDirectiveT_next_iff.mp hr, h⟩, ?_⟩
          rintro ⟨rest', hconsumes, h⟩
          rw [scanDirectiveT_next_iff.mpr hconsumes] at hr
          cases hr
          exact h

theorem Leads.mem (hleads : Leads fmt str t fmt' str') (h : e ∈ (vsscanfT p fmt str n).trace) :
    TurnAccess p fmt str e ∨ ∃ y q, Turn (fmt, str) y ∧ q + y.1.length = p + fmt.length ∧
      e ∈ (vsscanfT q y.1 y.2 (n + 1)).trace := by
  obtain ⟨j, hlen, hfmt, hrun⟩ := hleads.run p n
  rw [hrun, mem_trace_run] at h
  rcases h with rfl | rfl | h | ⟨rest, hconsumes, h⟩
  · exact .inl (.test _ _)
  · exact .inl hfmt
  · exact .inl (.directive hleads (by omega) h)
  · exact .inr ⟨(fmt', rest), _, ⟨t, str', hleads, hconsumes⟩, by dsimp only; omega, h⟩

/-- The first turn, and what comes after it. -/
theorem mem_vsscanfT (h : e ∈ (vsscanfT p fmt str n).trace) :
    TurnAccess p fmt str e ∨ ∃ y q, Turn (fmt, str) y ∧ q + y.1.length = p + fmt.length ∧
      e ∈ (vsscanfT q y.1 y.2 (n + 1)).trace := by
  have htest : e ∈ [StrAccess.fmt p] → TurnAccess p fmt str e := fun he => by
    obtain rfl := List.mem_singleton.mp he
    exact .test _ _
  rcases fmt with _ | ⟨f, fmt⟩
  · exact .inl (htest h)
  by_cases hzero : f = 0
  · rw [vsscanfT.eq_def] at h
    simp only [if_pos hzero] at h
    exact .inl (htest h)
  by_cases hpercent : f = chr '%'
  · subst hpercent
    rcases fmt with _ | ⟨t, fmt⟩
    · rw [vsscanfT.eq_def] at h
      rcases List.mem_cons.mp h with rfl | h
      · exact .inl (.test _ _)
      · obtain rfl := List.mem_singleton.mp h
        exact .inl (.percent _ _)
    · exact (Leads.directive t fmt str).mem h
  · rcases str with _ | ⟨s, str⟩
    · rw [vsscanfT.eq_def] at h
      simp only [if_neg hzero, if_neg hpercent] at h
      exact .inl (htest h)
    by_cases hs : s = f
    · subst hs
      have hshort : e ∈ [StrAccess.fmt p, .fmt (p + 2)] → TurnAccess p (s :: fmt) (s :: str) e := by
        intro he
        rcases List.mem_cons.mp he with rfl | he
        · exact .test _ _
        · obtain rfl := List.mem_singleton.mp he
          exact .literal hzero hpercent _ _
      rcases fmt with _ | ⟨x, _ | ⟨t, fmt⟩⟩
      · rw [vsscanfT.eq_def] at h
        simp only [if_neg hzero, if_neg hpercent, if_true] at h
        exact .inl (hshort h)
      · rw [vsscanfT.eq_def] at h
        simp only [if_neg hzero, if_neg hpercent, if_true] at h
        exact .inl (hshort h)
      · exact (Leads.literal hzero hpercent x t fmt str).mem h
    · rw [vsscanfT.eq_def] at h
      simp only [if_neg hzero, if_neg hpercent, if_neg hs] at h
      exact .inl (htest h)

/-- A turn makes its accesses. -/
theorem TurnAccess.mem (h : TurnAccess p fmt str e) (n : ℤ) :
    e ∈ (vsscanfT p fmt str n).trace := by
  cases h with
  | test =>
      rw [vsscanfT.eq_def]
      rcases fmt with _ | ⟨f, fmt⟩ <;> exact List.mem_cons_self
  | percent fmt =>
      rw [vsscanfT.eq_def]
      rcases fmt with _ | ⟨t, fmt⟩
      · exact List.mem_cons_of_mem _ List.mem_cons_self
      · exact List.mem_cons_of_mem _ List.mem_cons_self
  | literal hzero hpercent fmt str =>
      rw [vsscanfT.eq_def]
      simp only [if_neg hzero, if_neg hpercent, if_true]
      rcases fmt with _ | ⟨x, _ | ⟨t, fmt⟩⟩ <;> exact List.mem_cons_of_mem _ List.mem_cons_self
  | directive hleads hq he =>
      obtain ⟨j, hlen, -, hrun⟩ := hleads.run p n
      rw [hrun, mem_trace_run]
      rename_i q
      obtain rfl : q = p + (j + 1) := by omega
      exact .inr (.inr (.inl he))

/-- What comes after a turn. -/
theorem Turn.mem {y : List Byte × List Byte} (h : Turn (fmt, str) y)
    (hq : q + y.1.length = p + fmt.length) (he : e ∈ (vsscanfT q y.1 y.2 (n + 1)).trace) :
    e ∈ (vsscanfT p fmt str n).trace := by
  obtain ⟨t, str', hleads, hconsumes⟩ := h
  obtain ⟨j, hlen, -, hrun⟩ := hleads.run p n
  dsimp only at hlen
  obtain rfl : q = p + (j + 1) := by omega
  rw [hrun, mem_trace_run]
  exact .inr (.inr (.inr ⟨_, hconsumes, he⟩))

theorem Turn.length_lt {x y : List Byte × List Byte} (h : Turn x y) :
    y.1.length < x.1.length := by
  obtain ⟨t, str', hleads, -⟩ := h
  obtain ⟨j, hlen, -⟩ := hleads.run 0 0
  omega

/-- **The accesses of a run** are those of the turns it comes to.  The induction is on the
format, which every turn makes shorter. -/
theorem mem_vsscanfT_iff : e ∈ (vsscanfT p fmt str n).trace ↔
    ∃ y q, Scans (fmt, str) y ∧ q + y.1.length = p + fmt.length ∧ TurnAccess q y.1 y.2 e := by
  constructor
  · intro h
    induction hlen : fmt.length using Nat.strong_induction_on generalizing p fmt str n with
    | _ len ih =>
        rcases mem_vsscanfT h with haccess | ⟨y, q, hturn, hq, he⟩
        · exact ⟨(fmt, str), p, .refl, hlen ▸ rfl, haccess⟩
        · obtain ⟨z, r, hscans, hr, haccess⟩ := ih _ (hlen ▸ hturn.length_lt) he rfl
          exact ⟨z, r, .head hturn hscans, by omega, haccess⟩
  · rintro ⟨y, q, hscans, hq, haccess⟩
    generalize hx : (fmt, str) = x at hscans
    induction hscans using Relation.ReflTransGen.head_induction_on generalizing fmt str p n with
    | refl =>
        subst hx
        obtain rfl : q = p := Nat.add_right_cancel hq
        exact haccess.mem n
    | @head x z hturn hscans ih =>
        subst hx
        have hlt : z.1.length < fmt.length := hturn.length_lt
        exact hturn.mem (q := p + fmt.length - z.1.length) (by omega) (ih (by omega) rfl)

end Runs

/-! ## `num` -/

theorem Leads.suffix {fmt fmt' str str' : List Byte} {t : Byte} (h : Leads fmt str t fmt' str') :
    t :: fmt' <:+ fmt ∧ str' <:+ str := by
  cases h with
  | directive => exact ⟨List.suffix_cons _ _, List.suffix_refl _⟩
  | literal _ _ x =>
      exact ⟨(List.suffix_cons x _).trans (List.suffix_cons _ _), List.suffix_cons _ _⟩

theorem Consumes.suffix {fmt str str' : List Byte} {t : Byte} (h : Consumes fmt t str str') :
    str' <:+ str := by
  cases h with
  | percent => exact List.suffix_cons _ _
  | char => exact List.suffix_cons _ _
  | int h => exact ⟨_, h.split.symm⟩
  | string h => exact ⟨_, h.split.symm⟩

theorem Scans.suffix {x y : List Byte × List Byte} (h : Scans x y) :
    y.1 <:+ x.1 ∧ y.2 <:+ x.2 := by
  induction h with
  | refl => exact ⟨List.suffix_refl _, List.suffix_refl _⟩
  | tail _ hturn ih =>
      obtain ⟨t, str, hleads, hconsumes⟩ := hturn
      exact ⟨(List.suffix_cons t _).trans (hleads.suffix.1.trans ih.1),
        hconsumes.suffix.trans (hleads.suffix.2.trans ih.2)⟩

theorem zero_mem_of_suffix {s str : List Byte} (h : s <:+ str ++ [0]) (hs : s ≠ []) : 0 ∈ s := by
  obtain ⟨t, ht⟩ := h
  have hlast := congrArg List.getLast? ht
  rw [List.getLast?_append_of_ne_nil _ hs, List.getLast?_concat] at hlast
  exact List.mem_of_getLast? hlast

/-- Every string with a terminator has a token at its front. -/
theorem exists_isToken {fmt str : List Byte} (hfmt : fmt ≠ []) (h : 0 ∈ str) :
    ∃ tok rest, IsToken fmt str tok rest := by
  induction str with
  | nil => cases h
  | cons s str ih =>
      rcases copied_or_ends hfmt s with hcopied | hends
      · have hmem := (List.mem_cons.mp h).resolve_left hcopied.1.symm
        obtain ⟨tok, rest, hsplit, htok, hrest⟩ := ih hmem
        exact ⟨s :: tok, rest, congrArg (s :: ·) hsplit,
          List.forall_mem_cons.mpr ⟨hcopied, htok⟩, hrest⟩
      · exact ⟨[], s :: str, rfl, fun _ hs => absurd hs List.not_mem_nil, s, str, rfl, hends⟩

/-- `tok` is the text of a `%i` that a call with the format `fmt` and the string `str` comes
to. -/
def IntToken (fmt str tok : List Byte) : Prop :=
  ∃ fmt₁ str₁ fmt₂ str₂ rest, Scans (fmt ++ [0], str ++ [0]) (fmt₁, str₁) ∧
    Leads fmt₁ str₁ (chr 'i') fmt₂ str₂ ∧ IsToken fmt₂ str₂ tok rest

/-- All that `vsscanf` stores into `num` is inside it.  The memory from `fmt` on ends in a zero,
and so does the memory from `str` on; there may be others before it. -/
def NumInside (fmt str : List Byte) : Prop :=
  ∀ i, .num i ∈ (vsscanfT 0 (fmt ++ [0]) (str ++ [0]) 0).trace → i < 32

/-- **When integer scanning stays in its buffer**: if no `%i` comes to a token of 32 or more
characters.  The characters themselves may be any, as they are copied before `strtol` looks at
them. -/
theorem numInside_iff (fmt str : List Byte) :
    NumInside fmt str ↔ ∀ tok, IntToken fmt str tok → tok.length < 32 := by
  constructor
  · rintro h tok ⟨fmt₁, str₁, fmt₂, str₂, rest, hscans, hleads, htok⟩
    have hsuffix : fmt₁.length ≤ (fmt ++ [0]).length := hscans.suffix.1.length_le
    have hlen := hleads.suffix.1.length_le
    rw [List.length_cons] at hlen
    have haccess : TurnAccess ((fmt ++ [0]).length - fmt₁.length) fmt₁ str₁ (.num tok.length) :=
      .directive hleads (Nat.sub_add_cancel (by omega)) ((num_mem_scanDirectiveT htok).mpr le_rfl)
    refine h tok.length (mem_vsscanfT_iff.mpr ⟨_, _, hscans, ?_, haccess⟩)
    dsimp only
    omega
  · intro h i hi
    obtain ⟨⟨fmt₁, str₁⟩, q, hscans, -, haccess⟩ := mem_vsscanfT_iff.mp hi
    dsimp only at haccess
    generalize he : StrAccess.num i = e at haccess
    cases haccess with
    | test => cases he
    | percent => cases he
    | literal => cases he
    | directive hleads hq hmem =>
        subst he
        rename_i fmt' str' t r
        rcases always_scanDirectiveT _ hmem with ⟨hfmt, -⟩ | ⟨j, hj, rfl⟩
        · cases hfmt
        have hnil : str' ≠ [] := by
          rintro rfl
          cases hmem
        have hzero := zero_mem_of_suffix (hleads.suffix.2.trans hscans.suffix.2) hnil
        have hfmt : fmt' ≠ [] := by
          rintro rfl
          have hi := zero_mem_of_suffix (hleads.suffix.1.trans hscans.suffix.1)
            (List.cons_ne_nil _ _)
          exact absurd (List.mem_singleton.mp hi) (by decide)
        obtain ⟨tok, rest, htok⟩ := exists_isToken hfmt hzero
        have hle := (num_mem_scanDirectiveT htok).mp hmem
        have hlt := h tok ⟨_, _, _, _, rest, hscans, hleads, htok⟩
        omega

/-- A number of 32 digits: its terminator goes behind `num`. -/
theorem terminator_behind_num :
    .num 32 ∈ (vsscanfT 0 [chr '%', chr 'i', 0] (List.replicate 32 (chr '1') ++ [0]) 0).trace ∧
      ¬ NumInside [chr '%', chr 'i'] (List.replicate 32 (chr '1')) := by
  have hnum : .num 32 ∈
      (vsscanfT 0 [chr '%', chr 'i', 0] (List.replicate 32 (chr '1') ++ [0]) 0).trace := by
    decide
  exact ⟨hnum, fun h => absurd (h 32 hnum) (lt_irrefl 32)⟩

end Omb
