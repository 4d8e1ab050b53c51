import Mathlib.Data.List.Basic
import Mathlib.Data.List.Infix
import Mathlib.Data.Nat.ModEq

/-!
# Fields between separators

A separator is a list that is looked for as a whole.  `splitFirst sep s` is what is before and
behind its leftmost occurrence in `s`, and `cut sep s` what is between the leftmost
occurrences that do not overlap; an empty separator separates nothing.  The text is its cut
with separators in between (`intercalate_cut`), and there is none in any part
(`not_infix_of_mem_cut`).  `fields sep s` leaves out what is empty between two occurrences,
and keeps the first and the last field even so.

A splitter that looks for an occurrence, gives away the text before it, jumps over the
occurrences that follow at once and goes on from there finds the pieces `pieces sep back`,
where `back` is as much of an occurrence as it leaves in the text when it goes on.  If it
leaves nothing these are the fields (`fields_eq_pieces`).  If it leaves all but the first
element, as one that marks the end of a field by overwriting a single element does, they are
not, unless there is no occurrence or the separator is that element (`pieces_tail_eq_iff`).

The proof of that goes by the shape of the separator.  One that is not one element repeated
does not start again in its own tail, so the splitter always has more text to go than there is
(`pieces_tail_ne`).  One that is `a` repeated is found again in what is left of it, and what
is skipped is a multiple of its length: then the text behind has another number of `a`s before
it (`pieces_replicate_ne`).

## Main definitions

* `splitFirst`: the leftmost occurrence
* `fields`: the fields of a text
* `pieces`: what a splitter finds that leaves some of each occurrence

## Main results

* `intercalate_cut`, `not_infix_of_mem_cut`: the cut is a cut
* `fields_eq_pieces`: a splitter that leaves nothing finds the fields
* `pieces_tail_eq_iff`: when one that leaves all but the first element does
-/

namespace Fields

variable {α : Type*} [DecidableEq α]

/-! ## The leftmost occurrence -/

/-- What is before the leftmost occurrence of `sep`, and what is behind it.  An empty
separator occurs at the start of every text. -/
def splitFirst (sep : List α) : List α → Option (List α × List α)
  | [] => if sep = [] then some ([], []) else none
  | a :: s =>
      if sep <+: a :: s then some ([], (a :: s).drop sep.length)
      else (splitFirst sep s).map fun r => (a :: r.1, r.2)

variable {sep s pre rest : List α}

theorem splitFirst_at_start (h : sep <+: s) :
    splitFirst sep s = some ([], s.drop sep.length) := by
  cases s with
  | nil => rw [splitFirst, if_pos (List.prefix_nil.mp h), List.drop_nil]
  | cons a s => rw [splitFirst, if_pos h]

theorem splitFirst_cons {a : α} (h : ¬ sep <+: a :: s) :
    splitFirst sep (a :: s) = (splitFirst sep s).map fun r => (a :: r.1, r.2) := by
  rw [splitFirst, if_neg h]

theorem eq_of_splitFirst (h : splitFirst sep s = some (pre, rest)) : s = pre ++ sep ++ rest := by
  induction s generalizing pre with
  | nil =>
      rw [splitFirst] at h
      split_ifs at h with hsep
      cases h
      rw [hsep]
      rfl
  | cons a s ih =>
      by_cases hpre : sep <+: a :: s
      · rw [splitFirst_at_start hpre] at h
        cases h
        exact (List.prefix_iff_eq_append.mp hpre).symm
      · rw [splitFirst_cons hpre, Option.map_eq_some_iff] at h
        obtain ⟨r, hr, hpair⟩ := h
        cases hpair
        rw [ih hr]
        rfl

/-- Nothing is found exactly where there is no occurrence. -/
theorem splitFirst_eq_none_iff : splitFirst sep s = none ↔ ¬ sep <:+: s := by
  induction s with
  | nil =>
      rw [splitFirst, List.infix_nil]
      split_ifs with hsep <;> simp [hsep]
  | cons a s ih =>
      by_cases hpre : sep <+: a :: s
      · rw [splitFirst_at_start hpre]
        simp [hpre.isInfix]
      · rw [splitFirst_cons hpre, Option.map_eq_none_iff, ih, List.infix_cons_iff,
          or_iff_right hpre]

theorem length_of_splitFirst (h : splitFirst sep s = some (pre, rest)) :
    s.length = pre.length + sep.length + rest.length := by
  rw [eq_of_splitFirst h, List.length_append, List.length_append]

/-- A text with nothing before an occurrence starts with it. -/
theorem prefix_of_splitFirst (h : splitFirst sep s = some ([], rest)) : sep <+: s :=
  ⟨rest, (eq_of_splitFirst h).symm⟩

/-- There is none before the leftmost one. -/
theorem not_infix_of_splitFirst (hsep : sep ≠ []) (h : splitFirst sep s = some (pre, rest)) :
    ¬ sep <:+: pre := by
  induction s generalizing pre with
  | nil =>
      rw [splitFirst, if_neg hsep] at h
      cases h
  | cons a s ih =>
      by_cases hpre : sep <+: a :: s
      · rw [splitFirst_at_start hpre] at h
        cases h
        rwa [List.infix_nil]
      · rw [splitFirst_cons hpre, Option.map_eq_some_iff] at h
        obtain ⟨r, hr, hpair⟩ := h
        cases hpair
        rw [List.infix_cons_iff, not_or]
        refine ⟨fun hp => hpre (hp.trans ?_), ih hr⟩
        rw [eq_of_splitFirst hr, List.append_assoc]
        exact List.prefix_append (a :: r.1) _

/-- What no occurrence starts in comes before the first one. -/
theorem splitFirst_append {t : List α} (h : ∀ x y, x ≠ [] → y ++ x = t → ¬ sep <+: x ++ s) :
    splitFirst sep (t ++ s) = (splitFirst sep s).map fun r => (t ++ r.1, r.2) := by
  induction t with
  | nil => simp
  | cons a t ih =>
      have hpre : ¬ sep <+: a :: (t ++ s) := h (a :: t) [] (List.cons_ne_nil _ _) rfl
      rw [List.cons_append, splitFirst_cons hpre,
        ih fun x y hx hy => h x (a :: y) hx (by rw [List.cons_append, hy]), Option.map_map]
      rfl

/-! ## Fields -/

/-- What is between the leftmost occurrences that do not overlap.  There is always at least
one part. -/
def cut (sep s : List α) : List (List α) :=
  match _hsplit : splitFirst sep s with
  | none => [s]
  | some (pre, rest) => if sep = [] then [s] else pre :: cut sep rest
termination_by s.length
decreasing_by
  have hlen := length_of_splitFirst _hsplit
  have hpos : 0 < sep.length := List.length_pos_iff.mpr ‹_›
  omega

/-- The fields behind an occurrence, without those that are empty and not the last one. -/
def inner (fs : List (List α)) : List (List α) :=
  fs.dropLast.filter (· ≠ []) ++ fs.getLast?.toList

/-- The fields of `s`, without those that are empty and between two occurrences.  The first
field may be empty, and so may the last. -/
def fields (sep s : List α) : List (List α) :=
  match cut sep s with
  | [] => []
  | f :: fs => f :: inner fs

theorem cut_nil (s : List α) : cut [] s = [s] := by
  rw [cut]
  split
  · rfl
  · rw [if_pos rfl]

theorem cut_of_none (h : splitFirst sep s = none) : cut sep s = [s] := by
  rw [cut]
  split <;> simp_all

theorem cut_of_some (hsep : sep ≠ []) (h : splitFirst sep s = some (pre, rest)) :
    cut sep s = pre :: cut sep rest := by
  rw [cut]
  split <;> simp_all

theorem cut_ne_nil (sep s : List α) : cut sep s ≠ [] := by
  by_cases hsep : sep = []
  · subst hsep
    rw [cut_nil]
    exact List.cons_ne_nil _ _
  · cases h : splitFirst sep s with
    | none =>
        rw [cut_of_none h]
        exact List.cons_ne_nil _ _
    | some r =>
        rw [cut_of_some hsep h]
        exact List.cons_ne_nil _ _

/-- The text is its cut with a separator between any two parts. -/
theorem intercalate_cut (sep s : List α) : sep.intercalate (cut sep s) = s := by
  induction s using cut.induct sep with
  | case1 s h => rw [cut_of_none h, List.intercalate_singleton]
  | case2 s =>
      rename_i hsep
      subst hsep
      rw [cut_nil, List.intercalate_singleton]
  | case3 s pre rest h hsep ih =>
      obtain ⟨f, fs, hfs⟩ := List.exists_cons_of_ne_nil (cut_ne_nil sep rest)
      rw [cut_of_some hsep h, hfs, List.intercalate_cons_cons, ← hfs, ih]
      exact (eq_of_splitFirst h).symm

/-- In no part is there an occurrence. -/
theorem not_infix_of_mem_cut (hsep : sep ≠ []) {f : List α} (hf : f ∈ cut sep s) :
    ¬ sep <:+: f := by
  induction s using cut.induct sep with
  | case1 s h =>
      rw [cut_of_none h, List.mem_singleton] at hf
      rw [hf, ← splitFirst_eq_none_iff]
      exact h
  | case2 s =>
      rename_i hnil
      exact absurd hnil hsep
  | case3 s pre rest h hne ih =>
      rw [cut_of_some hne h] at hf
      rcases List.mem_cons.mp hf with rfl | hf
      · exact not_infix_of_splitFirst hsep h
      · exact ih hf

omit [DecidableEq α] in
theorem inner_sublist (fs : List (List α)) : (inner fs).Sublist fs := by
  cases hlast : fs.getLast? with
  | none =>
      rw [List.getLast?_eq_none_iff.mp hlast]
      exact List.Sublist.refl _
  | some f =>
      have hfs : fs.dropLast ++ [f] = fs := List.dropLast_append_getLast? f hlast
      have hinner : inner fs = fs.dropLast.filter (· ≠ []) ++ [f] := by
        rw [inner, hlast]
        rfl
      rw [hinner]
      nth_rewrite 2 [← hfs]
      exact List.filter_sublist.append_right _

/-- The fields are parts of the cut. -/
theorem fields_sublist_cut (sep s : List α) : (fields sep s).Sublist (cut sep s) := by
  obtain ⟨f, fs, hcut⟩ := List.exists_cons_of_ne_nil (cut_ne_nil sep s)
  rw [fields, hcut]
  exact (inner_sublist fs).cons_cons f

/-! ## Pieces -/

/-- `s` without the occurrences it starts with, as many as there are. -/
def skip (sep s : List α) : List α :=
  if sep ≠ [] ∧ sep <+: s then skip sep (s.drop sep.length) else s
termination_by s.length
decreasing_by
  rename_i h
  have hpos : 0 < sep.length := List.length_pos_iff.mpr h.1
  have hle := h.2.length_le
  rw [List.length_drop]
  omega

theorem skip_at_start (hsep : sep ≠ []) (h : sep <+: s) :
    skip sep s = skip sep (s.drop sep.length) := by
  rw [skip, if_pos ⟨hsep, h⟩]

theorem skip_eq_self (h : ¬ sep <+: s) : skip sep s = s := by
  rw [skip, if_neg fun hp => h hp.2]

/-- An induction along the occurrences at the start. -/
theorem skip_induction {motive : List α → Prop} (hsep : sep ≠ [])
    (stop : ∀ s, ¬ sep <+: s → motive s) (more : ∀ s, motive s → motive (sep ++ s))
    (s : List α) : motive s := by
  by_cases h : sep <+: s
  · obtain ⟨t, ht⟩ := h
    have hpos : 0 < sep.length := List.length_pos_iff.mpr hsep
    have hlen : t.length < s.length := by
      rw [← ht, List.length_append]
      omega
    exact ht ▸ more t (skip_induction hsep stop more t)
  · exact stop s h
termination_by s.length

theorem skip_append (hsep : sep ≠ []) (s : List α) : skip sep (sep ++ s) = skip sep s := by
  rw [skip_at_start hsep (List.prefix_append sep s), List.drop_left]

theorem skip_suffix (hsep : sep ≠ []) (s : List α) : skip sep s <:+ s := by
  induction s using skip_induction hsep with
  | stop s h => rw [skip_eq_self h]
  | more s ih =>
      rw [skip_append hsep]
      exact ih.trans (List.suffix_append sep s)

theorem not_prefix_skip (hsep : sep ≠ []) (s : List α) : ¬ sep <+: skip sep s := by
  induction s using skip_induction hsep with
  | stop s h => rwa [skip_eq_self h]
  | more s ih => rwa [skip_append hsep]

/-- What a splitter finds that leaves `back` of each occurrence in the text.  It ends as
`back` is shorter than the separator. -/
def pieces (sep back : List α) (hback : back.length < sep.length) (s : List α) :
    List (List α) :=
  match _hsplit : splitFirst sep s with
  | none => [s]
  | some (pre, rest) => pre :: pieces sep back hback (skip sep (back ++ rest))
termination_by s.length
decreasing_by
  have hsep : sep ≠ [] := List.length_pos_iff.mp (by omega)
  have hlen := length_of_splitFirst _hsplit
  have hle := (skip_suffix hsep (back ++ rest)).length_le
  rw [List.length_append] at hle
  omega

section Pieces

variable {back : List α} (hback : back.length < sep.length)

theorem pieces_of_none (h : splitFirst sep s = none) : pieces sep back hback s = [s] := by
  rw [pieces]
  split <;> simp_all

theorem pieces_of_some (h : splitFirst sep s = some (pre, rest)) :
    pieces sep back hback s = pre :: pieces sep back hback (skip sep (back ++ rest)) := by
  rw [pieces]
  split <;> simp_all

/-- What is before the first occurrence, or all. -/
theorem head?_pieces (s : List α) : (pieces sep back hback s).head? =
    some (((splitFirst sep s).map Prod.fst).getD s) := by
  cases h : splitFirst sep s with
  | none => rw [pieces_of_none hback h]; rfl
  | some r => rw [pieces_of_some hback h]; rfl

theorem pieces_ne_nil (s : List α) : pieces sep back hback s ≠ [] := by
  intro hnil
  have hhead := head?_pieces hback s
  rw [hnil] at hhead
  cases hhead

end Pieces

/-! ## Leaving nothing -/

omit [DecidableEq α] in
theorem inner_cons {f : List α} {fs : List (List α)} (h : fs ≠ []) :
    inner (f :: fs) = if f = [] then inner fs else f :: inner fs := by
  rw [inner, List.dropLast_cons_of_ne_nil h, List.getLast?_cons_of_ne_nil h, List.filter_cons]
  split_ifs <;> simp_all [inner]

omit [DecidableEq α] in
theorem inner_singleton (f : List α) : inner [f] = [f] := rfl

theorem fields_of_none (h : splitFirst sep s = none) : fields sep s = [s] := by
  rw [fields, cut_of_none h]
  rfl

theorem fields_of_some (hsep : sep ≠ []) (h : splitFirst sep s = some (pre, rest)) :
    fields sep s = pre :: inner (cut sep rest) := by
  rw [fields, cut_of_some hsep h]

/-- What is skipped has no field but empty ones. -/
theorem inner_cut_skip (hsep : sep ≠ []) (s : List α) :
    inner (cut sep (skip sep s)) = inner (cut sep s) := by
  induction s using skip_induction hsep with
  | stop s h => rw [skip_eq_self h]
  | more s ih =>
      have hcut : cut sep (sep ++ s) = [] :: cut sep s := by
        have hsplit := splitFirst_at_start (List.prefix_append sep s)
        rw [List.drop_left] at hsplit
        exact cut_of_some hsep hsplit
      rw [skip_append hsep, ih, hcut, inner_cons (cut_ne_nil sep s), if_pos rfl]

/-- Without an occurrence at the start, the first field is not left out. -/
theorem inner_cut (hsep : sep ≠ []) (h : ¬ sep <+: s) : inner (cut sep s) = fields sep s := by
  cases hsplit : splitFirst sep s with
  | none => rw [fields_of_none hsplit, cut_of_none hsplit, inner_singleton]
  | some r =>
      obtain ⟨pre, rest⟩ := r
      have hpre : pre ≠ [] := by
        rintro rfl
        exact h (prefix_of_splitFirst hsplit)
      rw [fields_of_some hsep hsplit, cut_of_some hsep hsplit, inner_cons (cut_ne_nil sep rest),
        if_neg hpre]

/-- **A splitter that leaves nothing finds the fields.**  What it skips would be empty fields
between occurrences. -/
theorem fields_eq_pieces (hsep : 0 < sep.length) (s : List α) :
    fields sep s = pieces sep [] hsep s := by
  have hne : sep ≠ [] := List.length_pos_iff.mp hsep
  induction hlen : s.length using Nat.strong_induction_on generalizing s with
  | _ n ih =>
      cases hsplit : splitFirst sep s with
      | none => rw [fields_of_none hsplit, pieces_of_none _ hsplit]
      | some r =>
          obtain ⟨pre, rest⟩ := r
          have hrest := length_of_splitFirst hsplit
          have hle := (skip_suffix hne rest).length_le
          rw [fields_of_some hne hsplit, pieces_of_some _ hsplit, List.nil_append,
            ← inner_cut_skip hne, inner_cut hne (not_prefix_skip hne rest),
            ih _ (by omega) _ rfl]

/-! ## Leaving all but the first element -/

omit [DecidableEq α] in
theorem length_tail_lt (hsep : 0 < sep.length) : sep.tail.length < sep.length := by
  rw [List.length_tail]
  omega

omit [DecidableEq α] in
/-- A list that starts again behind its first element is that element repeated. -/
theorem eq_replicate_of_prefix_tail {a : α} {t x : List α} (h : a :: t <+: t ++ x) :
    a :: t = List.replicate (t.length + 1) a := by
  induction t generalizing a with
  | nil => rfl
  | cons b t ih =>
      rw [List.cons_append, List.cons_prefix_cons] at h
      obtain ⟨rfl, h⟩ := h
      rw [List.length_cons, List.replicate_succ, ← ih h]

/-- **A separator that is not one element repeated**: where the splitter has more text than
there is, what it finds differs.  `htail` says that no occurrence starts in what is left of
one, so the next one found is the next one of the text, with the rest before it. -/
theorem pieces_tail_ne (hsep : 0 < sep.length) (htail : ∀ x, ¬ sep <+: sep.tail ++ x)
    {t u : List α} (h : u.length < t.length) :
    pieces sep sep.tail (length_tail_lt hsep) t ≠ pieces sep [] hsep u := by
  have hne : sep ≠ [] := List.length_pos_iff.mp hsep
  induction hlen : t.length using Nat.strong_induction_on generalizing t u with
  | _ n ih =>
      cases ht : splitFirst sep t with
      | none =>
          cases hu : splitFirst sep u with
          | none =>
              rw [pieces_of_none _ ht, pieces_of_none _ hu]
              rintro heq
              cases heq
              omega
          | some r =>
              rw [pieces_of_none _ ht, pieces_of_some _ hu]
              rintro heq
              exact pieces_ne_nil _ _ (List.cons.inj heq).2.symm
      | some r =>
          obtain ⟨pre, rest⟩ := r
          cases hu : splitFirst sep u with
          | none =>
              rw [pieces_of_some _ ht, pieces_of_none _ hu]
              rintro heq
              exact pieces_ne_nil _ _ (List.cons.inj heq).2
          | some r' =>
              obtain ⟨pre', rest'⟩ := r'
              rw [pieces_of_some _ ht, pieces_of_some _ hu, skip_eq_self (htail rest)]
              intro heq
              obtain ⟨hpre, hmore⟩ := List.cons.inj heq
              have hrest := length_of_splitFirst ht
              have hrest' := length_of_splitFirst hu
              have hle := (skip_suffix hne ([] ++ rest')).length_le
              have htails := List.length_tail (l := sep)
              have hlonger : (sep.tail ++ rest).length = sep.tail.length + rest.length :=
                List.length_append
              rw [List.nil_append] at hle hmore
              rw [hpre] at hrest
              exact ih _ (by omega) (by omega) rfl hmore

section Repeated

variable {a : α} {z : List α} {L : ℕ}

omit [DecidableEq α] in
theorem not_prefix_replicate (hz : z.head? ≠ some a) {m : ℕ} (h : m < L) :
    ¬ List.replicate L a <+: List.replicate m a ++ z := by
  obtain ⟨L, rfl⟩ : ∃ L', L = L' + 1 := ⟨L - 1, by omega⟩
  induction m generalizing L with
  | zero =>
      rintro ⟨x, rfl⟩
      exact hz rfl
  | succ m ih =>
      obtain ⟨L, rfl⟩ : ∃ L', L = L' + 1 := ⟨L - 1, by omega⟩
      rw [List.replicate_succ, List.replicate_succ (n := m), List.cons_append,
        List.cons_prefix_cons]
      exact fun hp => ih L (by omega) hp.2

omit [DecidableEq α] in
theorem exists_replicate (a : α) (s : List α) :
    ∃ m z, s = List.replicate m a ++ z ∧ z.head? ≠ some a := by
  induction s with
  | nil => exact ⟨0, [], rfl, fun h => nomatch h⟩
  | cons b s ih =>
      by_cases hb : b = a
      · obtain ⟨m, z, hs, hz⟩ := ih
        exact ⟨m + 1, z, by rw [hb, hs]; rfl, hz⟩
      · exact ⟨0, b :: s, rfl, fun h => hb (Option.some.inj h)⟩

theorem skip_replicate (hL : 0 < L) (hz : z.head? ≠ some a) (m : ℕ) :
    skip (List.replicate L a) (List.replicate m a ++ z) = List.replicate (m % L) a ++ z := by
  induction m using Nat.strong_induction_on with
  | _ m ih =>
      by_cases hm : m < L
      · rw [skip_eq_self (not_prefix_replicate hz hm), Nat.mod_eq_of_lt hm]
      · have hne : List.replicate L a ≠ [] := by simpa using hL.ne'
        have hsplit : List.replicate m a = List.replicate L a ++ List.replicate (m - L) a := by
          rw [List.replicate_append_replicate, Nat.add_sub_cancel' (not_lt.mp hm)]
        rw [hsplit, List.append_assoc, skip_append hne, ih (m - L) (by omega),
          ← Nat.mod_eq_sub_mod (not_lt.mp hm)]

/-- Fewer elements than the separator has are not looked at twice. -/
theorem splitFirst_replicate (hz : z.head? ≠ some a) {p : ℕ} (hp : p < L) :
    splitFirst (List.replicate L a) (List.replicate p a ++ z) =
      (splitFirst (List.replicate L a) z).map fun r => (List.replicate p a ++ r.1, r.2) := by
  refine splitFirst_append fun x y hx hy => ?_
  have hrep : x = List.replicate x.length a :=
    List.eq_replicate_of_mem fun b hb => List.eq_of_mem_replicate
      (hy ▸ List.mem_append_right y hb)
  have hlen := congrArg List.length hy
  rw [List.length_append, List.length_replicate] at hlen
  rw [hrep]
  exact not_prefix_replicate hz (by omega)

theorem head?_pieces_replicate {back : List α} (hback : back.length < (List.replicate L a).length)
    (hz : z.head? ≠ some a) {p : ℕ} (hp : p < L) :
    (pieces (List.replicate L a) back hback (List.replicate p a ++ z)).head? =
      some (List.replicate p a ++ ((splitFirst (List.replicate L a) z).map Prod.fst).getD z) := by
  rw [head?_pieces, splitFirst_replicate hz hp]
  cases splitFirst (List.replicate L a) z <;> rfl

/-- **A separator that is one element repeated**: what is behind the first field starts with
another number of these elements. -/
theorem pieces_replicate_ne (hL : 2 ≤ L) (hsep : 0 < (List.replicate L a).length)
    (rest : List α) :
    pieces (List.replicate L a) (List.replicate L a).tail (length_tail_lt hsep)
        (skip (List.replicate L a) ((List.replicate L a).tail ++ rest)) ≠
      pieces (List.replicate L a) [] hsep (skip (List.replicate L a) rest) := by
  obtain ⟨m, z, rfl, hz⟩ := exists_replicate a rest
  have hpos : 0 < L := by omega
  have hleft : skip (List.replicate L a) ((List.replicate L a).tail ++ (List.replicate m a ++ z)) =
      List.replicate ((L - 1 + m) % L) a ++ z := by
    rw [List.tail_replicate, ← List.append_assoc, List.replicate_append_replicate,
      skip_replicate hpos hz]
  intro heq
  have hhead := congrArg List.head? heq
  rw [hleft, skip_replicate hpos hz, head?_pieces_replicate _ hz (Nat.mod_lt _ hpos),
    head?_pieces_replicate _ hz (Nat.mod_lt _ hpos), Option.some_inj] at hhead
  have hlen := congrArg List.length hhead
  simp only [List.length_append, List.length_replicate, Nat.add_right_cancel_iff] at hlen
  have hmod : L - 1 + m ≡ 0 + m [MOD L] := by rwa [Nat.zero_add]
  have hzero : (L - 1) % L = 0 := hmod.add_right_cancel' m
  rw [Nat.mod_eq_of_lt (by omega)] at hzero
  omega

end Repeated

/-- **A splitter that leaves all but the first element** finds the fields exactly where there
is nothing to find or the separator has no other element. -/
theorem pieces_tail_eq_iff (hsep : 0 < sep.length) (s : List α) :
    pieces sep sep.tail (length_tail_lt hsep) s = pieces sep [] hsep s ↔
      sep.length = 1 ∨ ¬ sep <:+: s := by
  cases hsplit : splitFirst sep s with
  | none =>
      rw [pieces_of_none _ hsplit, pieces_of_none _ hsplit]
      exact iff_of_true rfl (.inr (splitFirst_eq_none_iff.mp hsplit))
  | some r =>
      obtain ⟨pre, rest⟩ := r
      have hocc : sep <:+: s := by
        by_contra hno
        rw [splitFirst_eq_none_iff.mpr hno] at hsplit
        cases hsplit
      rw [pieces_of_some _ hsplit, pieces_of_some _ hsplit, List.cons.injEq, and_iff_right rfl,
        or_iff_left (not_not_intro hocc), List.nil_append]
      refine ⟨fun heq => ?_, fun hone => ?_⟩
      · by_contra hlen
        by_cases hagain : ∃ x, sep <+: sep.tail ++ x
        · obtain ⟨L, a, rfl⟩ : ∃ L a, sep = List.replicate L a := by
            obtain ⟨x, hx⟩ := hagain
            obtain ⟨a, t, rfl⟩ := List.exists_cons_of_length_pos hsep
            exact ⟨_, a, eq_replicate_of_prefix_tail hx⟩
          rw [List.length_replicate] at hlen
          have hpos : 0 < L := by simpa using hsep
          exact pieces_replicate_ne (by omega) hsep rest heq
        · push Not at hagain
          have hne : sep ≠ [] := List.length_pos_iff.mp hsep
          have hle := (skip_suffix hne rest).length_le
          rw [skip_eq_self (hagain rest)] at heq
          refine pieces_tail_ne hsep hagain ?_ heq
          rw [List.length_append, List.length_tail]
          omega
      · obtain ⟨a, rfl⟩ := List.length_eq_one_iff.mp hone
        rfl

end Fields
