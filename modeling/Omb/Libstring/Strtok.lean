import Omb.Lib.Fields
import Omb.Libstring.Strings

/-!
# `strtok`

`strtok` of `string.c`, with `strlen` and `strncmp`, on an array that it changes.  A pointer
into the array is an index; a pointer into the separator is what is behind it.  The loop over
the separators behind a field is given turns, since an empty separator does not take it
further, and a call that needs more of them is `running`.

What a call does to the text from `str` on is one step of `Fields.pieces`, with all but the
first character of the separator left in the text: `str[i++] = 0` goes on behind that one.  So
`strtok` finds the fields for separators of one character, and for others where they do not
occur (`splitsOn_iff`).

The fields of a text are what is between the separators in it, without those that are empty
between two of them, which is what the second loop is for (`Omb.Lib.Fields`).  As they are the
fields, they have no separator in them and the text is made up of them (`SplitsOn.between`).

An empty separator occurs everywhere.  The first loop finds it at once, and the second one
then skips it without coming any further, so that no number of turns is enough if the text has
more than one character (`strtok_empty`).

## Main definitions

* `strlen`, `strncmp`, `strtok`
* `strtokCalls`: the strings that call after call returns
* `SplitsOn`: the calls on a string return its fields

## Main results

* `strtok_last`, `strtok_field`: what one call does
* `strtokCalls_returns`: what all of them return
* `splitsOn_iff`: when `strtok` splits on its separator
-/

namespace Omb

open Fields

/-! ## The functions -/

/-- Why a call has not returned: it has left its memory, or has not ended in the turns it was
given. -/
inductive NoReturn where
  | fault (f : Fault)
  /-- It has not come to an end in the turns it was given. -/
  | running
  deriving DecidableEq

/-- `strlen` -/
def strlen : List Byte → Except NoReturn ℕ
  | [] => .error (.fault .pastEnd)
  | c :: s => if c = 0 then .ok 0 else (strlen s).map (· + 1)

/-- `strncmp(s1, s2, len)` -/
def strncmp : List Byte → List Byte → ℕ → Except NoReturn Bool
  | _, _, 0 => .ok true
  | c₁ :: s₁, c₂ :: s₂, len + 1 =>
      if c₁ = 0 ∧ c₂ = 0 then .ok true
      else if c₁ ≠ c₂ then .ok false
      else strncmp s₁ s₂ len
  | _, _, _ + 1 => .error (.fault .pastEnd)

/-- The array that is cut, and the static `str`. -/
structure Strtok where
  buf : List Byte
  str : Option ℕ

/-- The first `while` of `strtok`, with what is from `str[i]` on. -/
def strtokFind (sep : List Byte) (seplen : ℕ) : ℕ → List Byte → Except NoReturn ℕ
  | _, [] => .error (.fault .pastEnd)
  | i, c :: s =>
      if c = 0 then .ok i
      else
        match strncmp (c :: s) sep seplen with
        | .error e => .error e
        | .ok true => .ok i
        | .ok false => strtokFind sep seplen (i + 1) s

/-- The second `while`, over what is from `str` on. -/
def strtokSkip (sep : List Byte) (seplen : ℕ) (str : List Byte) : ℕ → ℕ → Except NoReturn ℕ
  | 0, _ => .error .running
  | turns + 1, i =>
      match str[i]? with
      | none => .error (.fault .pastEnd)
      | some c =>
          if c = 0 then .ok i
          else
            match strncmp (str.drop i) sep seplen with
            | .error e => .error e
            | .ok false => .ok i
            | .ok true => strtokSkip sep seplen str turns (i + seplen)

/-- `strtok(nstr, sep)`, with `turns` for the loop over the separators behind a field. -/
def strtok (sep : List Byte) (turns : ℕ) (nstr : Option ℕ) (x : Strtok) :
    Except NoReturn (Option ℕ × Strtok) :=
  match nstr.or x.str with
  | none => .ok (none, x)
  | some n => do
      let seplen ← strlen sep
      let i ← strtokFind sep seplen 0 (x.buf.drop n)
      match x.buf[n + i]? with
      | none => .error (.fault .pastEnd)
      | some c =>
          if c = 0 then .ok (some n, ⟨x.buf, none⟩)
          else do
            let buf := x.buf.set (n + i) 0
            let i ← strtokSkip sep seplen (buf.drop n) turns (i + 1)
            .ok (some n, ⟨buf, some (n + i)⟩)

/-- The string at a pointer. -/
def stringAt : List Byte → Except NoReturn Str
  | [] => .error (.fault .pastEnd)
  | c :: s => if c = 0 then .ok [] else (stringAt s).map (c :: ·)

/-- `strtok(nstr, sep)`, `strtok(nil, sep)`, .. up to the call that returns nil: the strings they
return. -/
def strtokCalls (sep : List Byte) (turns : ℕ) :
    ℕ → Option ℕ → Strtok → Except NoReturn (List Str)
  | 0, _, _ => .error .running
  | calls + 1, nstr, x => do
      let r ← strtok sep turns nstr x
      match r.1 with
      | none => .ok []
      | some n => do
          let f ← stringAt (r.2.buf.drop n)
          let fs ← strtokCalls sep turns calls none r.2
          .ok (f :: fs)

/-- The calls on `s`, wherever it is, return its fields.  What is in memory around the text
and behind the separator is arbitrary, and so is where the static `str` was. -/
def SplitsOn (sep s : Str) : Prop :=
  ∀ before beyond beyond' str, ∃ turns calls,
    strtokCalls (sep ++ 0 :: beyond') turns calls (some before.length)
      ⟨before ++ (s ++ 0 :: beyond), str⟩ = .ok (fields sep s)

/-- Then no string has a part of a separator in it: they are parts of the text, which is these
and others with the separator between any two. -/
theorem SplitsOn.between {sep s : Str} (h : SplitsOn sep s) (before beyond beyond' : List Byte)
    (str : Option ℕ) :
    ∃ turns calls fs all, strtokCalls (sep ++ 0 :: beyond') turns calls (some before.length)
        ⟨before ++ (s ++ 0 :: beyond), str⟩ = .ok fs ∧ fs.Sublist all ∧
      sep.intercalate all = s ∧ (sep ≠ [] → ∀ f ∈ all, ¬ sep <:+: f) := by
  obtain ⟨turns, calls, hcalls⟩ := h before beyond beyond' str
  exact ⟨turns, calls, _, cut sep s, hcalls, fields_sublist_cut sep s, intercalate_cut sep s,
    fun hne _ hf => not_infix_of_mem_cut hne hf⟩

/-! ## Reading strings -/

section Reading

variable {s sep : Str} (hs : ∀ c ∈ s, c ≠ 0) (hsep : ∀ c ∈ sep, c ≠ 0)
  (beyond beyond' : List Byte)

include hs in
theorem strlen_eq : strlen (s ++ 0 :: beyond) = .ok s.length := by
  induction s with
  | nil => rfl
  | cons c s ih =>
      rw [List.forall_mem_cons] at hs
      rw [List.cons_append, strlen, if_neg hs.1, ih hs.2]
      rfl

include hs in
theorem stringAt_eq : stringAt (s ++ 0 :: beyond) = .ok s := by
  induction s with
  | nil => rfl
  | cons c s ih =>
      rw [List.forall_mem_cons] at hs
      rw [List.cons_append, stringAt, if_neg hs.1, ih hs.2]
      rfl

include hs hsep in
/-- `strncmp` looks for the separator as a prefix. -/
theorem strncmp_eq : strncmp (s ++ 0 :: beyond) (sep ++ 0 :: beyond') sep.length =
    .ok (decide (sep <+: s)) := by
  induction sep generalizing s with
  | nil => simp [strncmp]
  | cons c sep ih =>
      rw [List.forall_mem_cons] at hsep
      cases s with
      | nil =>
          have hne : (0 : Byte) ≠ c := hsep.1.symm
          rw [List.nil_append, List.cons_append, List.length_cons, strncmp,
            if_neg fun h => hsep.1 h.2, if_pos hne]
          simp
      | cons d s =>
          rw [List.forall_mem_cons] at hs
          rw [List.cons_append, List.cons_append, List.length_cons, strncmp,
            if_neg fun h => hs.1 h.1, ih hs.2 hsep.2]
          by_cases hdc : d = c
          · rw [if_neg (not_not_intro hdc), hdc]
            simp
          · rw [if_pos hdc]
            simp [Ne.symm hdc]

include hs hsep in
/-- The first loop stops at the leftmost occurrence, or at the end. -/
theorem strtokFind_eq (i : ℕ) :
    strtokFind (sep ++ 0 :: beyond') sep.length i (s ++ 0 :: beyond) =
      .ok (i + ((splitFirst sep s).elim s.length fun r => r.1.length)) := by
  induction s generalizing i with
  | nil =>
      rw [List.nil_append, strtokFind, if_pos rfl, splitFirst]
      split_ifs <;> rfl
  | cons c s ih =>
      have hc := hs c List.mem_cons_self
      have hcmp := strncmp_eq hs hsep beyond beyond'
      rw [List.cons_append] at hcmp
      rw [List.cons_append, strtokFind, if_neg hc, hcmp]
      by_cases hpre : sep <+: c :: s
      · rw [splitFirst_at_start hpre]
        simp [hpre]
      · rw [splitFirst_cons hpre, decide_eq_false hpre]
        dsimp only
        rw [ih fun d hd => hs d (List.mem_cons_of_mem _ hd)]
        cases splitFirst sep s <;> simp <;> omega

end Reading

/-! ## Calls that need turns -/

/-- `x` returns `a`, unless it is given `few` turns.  Then it is running. -/
def Returns {α : Type} (x : Except NoReturn α) (a : α) (few : Prop) : Prop :=
  x = .ok a ∨ x = .error .running ∧ few

namespace Returns

variable {α β : Type} {x : Except NoReturn α} {a a' : α} {few few' : Prop}

theorem ok (h : Returns x a few) (henough : ¬ few) : x = .ok a :=
  h.resolve_right fun hrun => henough hrun.2

theorem eq_of_ok (h : Returns x a few) (hx : x = .ok a') : a' = a := by
  rcases h with h | ⟨h, -⟩
  · rw [hx] at h
    exact Except.ok.inj h
  · rw [hx] at h
    cases h

theorem mono (h : Returns x a few) (hfew : few → few') : Returns x a few' :=
  h.imp_right fun hrun => ⟨hrun.1, hfew hrun.2⟩

theorem bind (h : Returns x a few) {f : α → Except NoReturn β} {b : β}
    (hf : Returns (f a) b few) : Returns (x >>= f) b few := by
  rcases h with rfl | ⟨rfl, hfew⟩
  · exact hf
  · exact .inr ⟨rfl, hfew⟩

end Returns

theorem exists_of_bind_eq_ok {α β : Type} {x : Except NoReturn α} {f : α → Except NoReturn β}
    {b : β} (h : x >>= f = .ok b) : ∃ a, x = .ok a ∧ f a = .ok b := by
  cases x with
  | error e => cases h
  | ok a => exact ⟨a, rfl, h⟩

/-! ## One call -/

/-- The character at the end of what is before. -/
theorem getElem?_front (front s beyond : List Byte) :
    (front ++ (s ++ 0 :: beyond))[front.length]? = some (s.headD 0) := by
  rw [List.getElem?_append_right (le_refl _), Nat.sub_self]
  cases s <;> rfl

section Calls

variable {sep : Str} (hsep : ∀ c ∈ sep, c ≠ 0) (hne : sep ≠ []) (beyond beyond' : List Byte)

include hsep hne in
/-- The second loop skips the separators that follow, with a turn for each of them and one for
the end. -/
theorem strtokSkip_returns {s : Str} (hs : ∀ c ∈ s, c ≠ 0) (turns : ℕ) (front : List Byte) :
    Returns (strtokSkip (sep ++ 0 :: beyond') sep.length (front ++ (s ++ 0 :: beyond)) turns
      front.length) (front.length + (s.length - (skip sep s).length)) (turns ≤ s.length) := by
  induction s using skip_induction hne generalizing turns front with
  | stop s hpre =>
      cases turns with
      | zero => exact .inr ⟨rfl, Nat.zero_le _⟩
      | succ turns =>
          refine .inl ?_
          rw [strtokSkip, getElem?_front, List.drop_left, strncmp_eq hs hsep,
            decide_eq_false hpre, skip_eq_self hpre, Nat.sub_self]
          dsimp only
          split_ifs <;> rfl
  | more s ih =>
      cases turns with
      | zero => exact .inr ⟨rfl, Nat.zero_le _⟩
      | succ turns =>
          obtain ⟨c, t, rfl⟩ := List.exists_cons_of_ne_nil hne
          have hc : ((c :: t) ++ s).headD 0 ≠ 0 := hsep c List.mem_cons_self
          have hpre : c :: t <+: (c :: t) ++ s := List.prefix_append ..
          have hle := (skip_suffix hne s).length_le
          have hmore := ih (fun d hd => hs d (List.mem_append_right _ hd)) turns
            (front ++ (c :: t))
          rw [strtokSkip, getElem?_front, List.drop_left, strncmp_eq hs hsep, decide_eq_true hpre,
            skip_append hne]
          dsimp only
          rw [if_neg hc]
          rw [List.length_append, List.append_assoc, ← List.append_assoc (c :: t)] at hmore
          have hlen : front.length + (((c :: t) ++ s).length - (skip (c :: t) s).length) =
              front.length + (c :: t).length + (s.length - (skip (c :: t) s).length) := by
            rw [List.length_append]
            omega
          rw [hlen]
          refine hmore.mono fun hfew => ?_
          rw [List.length_append, List.length_cons]
          omega

variable {s pre rest : Str} (hs : ∀ c ∈ s, c ≠ 0) {nstr str : Option ℕ} {before : List Byte}
  (hstr : nstr.or str = some before.length) (turns : ℕ)

include hsep hs hstr in
/-- A call that finds no separator before the end returns all of the text. -/
theorem strtok_last (h : ((splitFirst sep s).elim s.length fun r => r.1.length) = s.length) :
    strtok (sep ++ 0 :: beyond') turns nstr ⟨before ++ (s ++ 0 :: beyond), str⟩ =
      .ok (some before.length, ⟨before ++ (s ++ 0 :: beyond), none⟩) := by
  have hfind := strtokFind_eq hs hsep beyond beyond' 0
  have hend : (before ++ (s ++ 0 :: beyond))[before.length + s.length]? = some 0 := by
    rw [← List.append_assoc, ← List.length_append]
    exact getElem?_front (before ++ s) [] beyond
  rw [h, Nat.zero_add] at hfind
  simp only [strtok, hstr, strlen_eq hsep, List.drop_left, bind, Except.bind, hfind, hend, if_true]

include hsep hs hstr in
/-- The next one returns nil. -/
theorem strtokCalls_last (h : ((splitFirst sep s).elim s.length fun r => r.1.length) = s.length)
    (calls : ℕ) :
    Returns (strtokCalls (sep ++ 0 :: beyond') turns calls nstr
      ⟨before ++ (s ++ 0 :: beyond), str⟩) [s] (calls ≤ 1) := by
  cases calls with
  | zero => exact .inr ⟨rfl, Nat.zero_le 1⟩
  | succ calls =>
      rw [strtokCalls, strtok_last hsep beyond beyond' hs hstr turns h]
      refine Returns.bind (.inl rfl) (.bind (.inl ?_) (.bind (a := []) ?_ (.inl rfl)))
      · rw [List.drop_left]
        exact stringAt_eq hs beyond
      · cases calls with
        | zero => exact .inr ⟨rfl, le_refl 1⟩
        | succ calls => exact .inl rfl

include hsep hne hs hstr in
/-- Other calls return what is before the first separator, and leave `str` behind the
separators that follow its first character. -/
theorem strtok_field (h : splitFirst sep s = some (pre, rest)) :
    ∃ before', Returns
      (strtok (sep ++ 0 :: beyond') turns nstr ⟨before ++ (s ++ 0 :: beyond), str⟩)
      (some before.length,
        ⟨before' ++ (skip sep (sep.tail ++ rest) ++ 0 :: beyond), some before'.length⟩)
      (turns ≤ s.length) ∧
      stringAt ((before' ++ (skip sep (sep.tail ++ rest) ++ 0 :: beyond)).drop before.length) =
        .ok pre := by
  obtain ⟨c, t, rfl⟩ := List.exists_cons_of_ne_nil hne
  obtain rfl := eq_of_splitFirst h
  obtain ⟨d, hd⟩ := skip_suffix hne (t ++ rest)
  have hpre : ∀ c ∈ pre, c ≠ 0 := fun c hc => hs c (by simp [hc])
  have hrest : ∀ c ∈ t ++ rest, c ≠ 0 := by
    intro b hb
    rw [List.append_assoc, List.cons_append] at hs
    exact hs b (List.mem_append_right _ (List.mem_cons_of_mem _ hb))
  refine ⟨before ++ (pre ++ 0 :: d), ?_, ?_⟩
  · have hc : c ≠ 0 := hsep c List.mem_cons_self
    have hfind := strtokFind_eq hs hsep beyond beyond' 0
    have hget : (before ++ (pre ++ c :: t ++ rest ++ 0 :: beyond))[before.length + pre.length]? =
        some c := by
      simp
    have hset : (before ++ (pre ++ c :: t ++ rest ++ 0 :: beyond)).set
        (before.length + pre.length) 0 =
          before ++ ((pre ++ [0]) ++ ((t ++ rest) ++ 0 :: beyond)) := by
      simp
    have hbuf : before ++ ((pre ++ [0]) ++ ((t ++ rest) ++ 0 :: beyond)) =
        before ++ (pre ++ 0 :: d) ++ (skip (c :: t) (t ++ rest) ++ 0 :: beyond) := by
      nth_rewrite 1 [← hd]
      simp
    have hd' := congrArg List.length hd
    rw [List.length_append] at hd'
    have hlen : (t ++ rest).length ≤ (pre ++ c :: t ++ rest).length := by
      simp only [List.length_append, List.length_cons]
      omega
    have hskip := strtokSkip_returns hsep hne beyond beyond' hrest turns (pre ++ [0])
    rw [List.length_append, List.length_singleton] at hskip
    rw [h, Option.elim_some, Nat.zero_add] at hfind
    simp only [strtok, hstr, strlen_eq hsep, List.drop_left, hset, bind, Except.bind, hfind,
      hget, if_neg hc]
    rcases hskip with hskip | ⟨hskip, hfew⟩
    · have hend : before.length + (pre.length + 1 +
          ((t ++ rest).length - (skip (c :: t) (t ++ rest)).length)) =
            (before ++ (pre ++ 0 :: d)).length := by
        simp only [List.length_append, List.length_cons] at hd' ⊢
        omega
      refine .inl ?_
      rw [hskip]
      dsimp only
      rw [hend, hbuf, List.tail_cons]
    · refine .inr ⟨?_, hfew.trans hlen⟩
      rw [hskip]
  · rw [List.append_assoc, List.drop_left, List.append_assoc, List.cons_append]
    exact stringAt_eq hpre _

include hsep hne hs hstr in
/-- **The calls return pieces**, with all but the first character of each separator left in
the text. -/
theorem strtokCalls_returns (calls : ℕ) :
    Returns (strtokCalls (sep ++ 0 :: beyond') turns calls nstr
        ⟨before ++ (s ++ 0 :: beyond), str⟩)
      (pieces sep sep.tail (length_tail_lt (List.length_pos_iff.mpr hne)) s)
      (turns ≤ s.length ∨ calls ≤ s.length + 1) := by
  induction hn : s.length using Nat.strong_induction_on generalizing s nstr str before calls with
  | _ n ih =>
      subst hn
      cases calls with
      | zero => exact .inr ⟨rfl, .inr (Nat.zero_le _)⟩
      | succ calls =>
          cases hsplit : splitFirst sep s with
          | none =>
              rw [pieces_of_none _ hsplit]
              refine (strtokCalls_last hsep beyond beyond' hs hstr turns ?_ _).mono fun hfew =>
                .inr (by omega)
              rw [hsplit]
              rfl
          | some r =>
              obtain ⟨pre, rest⟩ := r
              obtain ⟨before', hcall, hstring⟩ :=
                strtok_field hsep hne beyond beyond' hs hstr turns hsplit
              have hsuffix := skip_suffix hne (sep.tail ++ rest)
              have hle := hsuffix.length_le
              have hlen := length_of_splitFirst hsplit
              have hpos : 0 < sep.length := List.length_pos_iff.mpr hne
              rw [List.length_append, List.length_tail] at hle
              have hchars : ∀ c ∈ skip sep (sep.tail ++ rest), c ≠ 0 := by
                intro c hc
                refine hs c ?_
                rw [eq_of_splitFirst hsplit]
                rcases List.mem_append.mp (hsuffix.subset hc) with hc | hc
                · simp [List.mem_of_mem_tail hc]
                · simp [hc]
              have hmore : Returns (strtokCalls (sep ++ 0 :: beyond') turns calls none
                  ⟨before' ++ (skip sep (sep.tail ++ rest) ++ 0 :: beyond),
                    some before'.length⟩) _ _ :=
                ih _ (by omega) hchars rfl calls rfl
              rw [strtokCalls, pieces_of_some _ hsplit]
              refine (hcall.mono .inl).bind (.bind (.inl hstring) ?_)
              refine .bind (hmore.mono fun hfew => ?_) (.inl rfl)
              omega

end Calls

/-! ## An empty separator -/

section Empty

variable {c : Byte} (hc : c ≠ 0) (t beyond beyond' : List Byte) {nstr str : Option ℕ}
  {before : List Byte} (hstr : nstr.or str = some before.length) (turns : ℕ)

include hc hstr in
/-- An empty separator is found at once, and the first character is lost. -/
theorem strtok_empty :
    strtok (0 :: beyond') turns nstr ⟨before ++ (c :: t ++ 0 :: beyond), str⟩ =
      (strtokSkip (0 :: beyond') 0 (0 :: (t ++ 0 :: beyond)) turns 1).map fun i =>
        (some before.length,
          ⟨before ++ (0 :: (t ++ 0 :: beyond)), some (before.length + i)⟩) := by
  have hlen : strlen (0 :: beyond') = .ok 0 := rfl
  have hfind : strtokFind (0 :: beyond') 0 0 (c :: t ++ 0 :: beyond) = .ok 0 := by
    rw [List.cons_append, strtokFind, if_neg hc]
    rfl
  have hget : (before ++ (c :: t ++ 0 :: beyond))[before.length + 0]? = some c := by simp
  have hset : (before ++ (c :: t ++ 0 :: beyond)).set (before.length + 0) 0 =
      before ++ (0 :: (t ++ 0 :: beyond)) := by simp
  simp only [strtok, hstr, hlen, List.drop_left, bind, Except.bind, hfind, hget, if_neg hc, hset,
    Nat.zero_add]
  rfl

include hc hstr in
/-- So the first string is empty. -/
theorem head?_strtokCalls_empty {calls : ℕ} {fs : List Str}
    (h : strtokCalls (0 :: beyond') turns calls nstr ⟨before ++ (c :: t ++ 0 :: beyond), str⟩ =
      .ok fs) : fs.head? = some [] := by
  cases calls with
  | zero => cases h
  | succ calls =>
      rw [strtokCalls, strtok_empty hc t beyond beyond' hstr turns] at h
      obtain ⟨r, hr, h⟩ := exists_of_bind_eq_ok h
      cases hskip : strtokSkip (0 :: beyond') 0 (0 :: (t ++ 0 :: beyond)) turns 1 with
      | error e =>
          rw [hskip] at hr
          cases hr
      | ok i =>
          rw [hskip] at hr
          cases hr
          obtain ⟨f, hf, h⟩ := exists_of_bind_eq_ok h
          obtain ⟨fs, -, h⟩ := exists_of_bind_eq_ok h
          rw [List.drop_left] at hf
          cases hf
          cases h
          rfl

end Empty

/-! ## When the calls return the fields -/

variable {sep s : Str} (hsep : ∀ c ∈ sep, c ≠ 0) (hs : ∀ c ∈ s, c ≠ 0)

include hsep hs in
theorem splitsOn_iff_of_ne_nil (hne : sep ≠ []) :
    SplitsOn sep s ↔ sep.length = 1 ∨ ¬ sep <:+: s := by
  have hpos : 0 < sep.length := List.length_pos_iff.mpr hne
  rw [← pieces_tail_eq_iff hpos, ← fields_eq_pieces hpos]
  refine ⟨fun h => ?_, fun heq before beyond beyond' str => ?_⟩
  · obtain ⟨turns, calls, hcalls⟩ := h [] [] [] none
    exact ((strtokCalls_returns hsep hne [] [] hs rfl turns calls).eq_of_ok hcalls).symm
  · have hreturns : Returns (strtokCalls (sep ++ 0 :: beyond') (s.length + 1) (s.length + 2)
        (some before.length) ⟨before ++ (s ++ 0 :: beyond), str⟩) _ _ :=
      strtokCalls_returns hsep hne beyond beyond' hs rfl _ _
    refine ⟨s.length + 1, s.length + 2, ?_⟩
    rw [← heq]
    exact hreturns.ok (by omega)

include hs in
theorem splitsOn_nil_iff : SplitsOn [] s ↔ s = [] := by
  have hfields : fields [] s = [s] := by
    rw [fields, cut_nil]
    rfl
  refine ⟨fun h => ?_, ?_⟩
  · by_contra hne
    obtain ⟨c, t, rfl⟩ := List.exists_cons_of_ne_nil hne
    obtain ⟨turns, calls, hcalls⟩ := h [] [] [] none
    have hhead := head?_strtokCalls_empty (hs c List.mem_cons_self) t [] [] rfl turns hcalls
    rw [hfields] at hhead
    cases hhead
  · rintro rfl before beyond beyond' str
    have hlast : Returns (strtokCalls ([] ++ 0 :: beyond') 1 2 (some before.length)
        ⟨before ++ ([] ++ 0 :: beyond), str⟩) [[]] (2 ≤ 1) :=
      strtokCalls_last (List.forall_mem_nil _) beyond beyond' hs rfl 1 rfl 2
    rw [hfields]
    exact ⟨1, 2, hlast.ok (by omega)⟩

include hsep hs in
/-- **When `strtok` splits on the separator**: it is one character, or does not occur, or
there is no text.  For a longer one that occurs the rest of it is left in front of the next
string, and an empty one is found everywhere. -/
theorem splitsOn_iff : SplitsOn sep s ↔ sep.length = 1 ∨ ¬ sep <:+: s ∨ s = [] := by
  by_cases hne : sep = []
  · subst hne
    rw [splitsOn_nil_iff hs]
    simp
  · have hempty : s = [] → ¬ sep <:+: s := by
      rintro rfl
      rwa [List.infix_nil]
    rw [splitsOn_iff_of_ne_nil hsep hs hne, or_iff_left_of_imp hempty]

/-- Commas, with nothing before the first and between the next two. -/
theorem splitsOn_commas : SplitsOn [chr ','] [chr ',', chr 'a', chr ',', chr ',', chr 'b'] :=
  (splitsOn_iff (by decide) (by decide)).mpr (.inl rfl)

/-- A separator of two characters: its second one is part of the next string. -/
theorem not_splitsOn_dashes :
    ¬ SplitsOn [chr '-', chr '-'] [chr 'a', chr '-', chr '-', chr 'b'] := by
  have hocc : [chr '-', chr '-'] <:+: [chr 'a', chr '-', chr '-', chr 'b'] := by decide
  rw [splitsOn_iff_of_ne_nil (by decide) (by decide) (List.cons_ne_nil _ _)]
  exact fun h => h.elim (by decide) fun hno => hno hocc

example : strtokCalls [chr '-', chr '-', 0] 5 5 (some 0)
    ⟨[chr 'a', chr '-', chr '-', chr 'b', 0], none⟩ = .ok [[chr 'a'], [chr '-', chr 'b']] := rfl

end Omb
