import Mathlib.Data.Nat.Basic
import Mathlib.Data.Set.Basic

/-!
# Values taken from key to key

A total map `g 0` from keys to values is changed step by step: step `i` takes the value at
`src i` to `dst i`, where it is kept as `put` makes it, and leaves `src i` with `empty`.
`Moves K empty put src dst n g` says that `g 0`, …, `g n` are related this way on the keys
`K`, with sources that all differ and targets that all differ.  A target may be the source of
another step, before or after, and values are moved on then.

What a key holds in the end is known: `emptied`, `landed` and `untouched` are the three cases,
and `put_origin` traces a value that has been moved on back to the key it was at in the
beginning.  For that `put` has to be idempotent, as a value that is moved on is kept as `put`
makes it twice.

When do the steps change nothing at all?  For `OneWay` moves, where no value is moved to a
later source or none to an earlier one, exactly if the sources hold nothing but what the moves
leave there, and so do the targets at which something stays (`unchanged_iff`).  Ranges moved
by a fixed distance are one way; for moves in a circle the statement would be false, as a
circle of equal values is left as it was.

## Main definitions

* `Moves`: the maps between the steps of a series of moves
* `Origin`: where the value that a step moves was in the beginning
* `Lands`: something is moved to the key and stays there

## Main results

* `Moves.untouched`, `Moves.emptied`, `Moves.landed_origin`: what a key holds in the end
* `Moves.unchanged_iff`: when moves change nothing
-/

namespace Relocation

variable {κ α : Type*} [DecidableEq κ]

/-- `g 0`, …, `g n` are the maps between `n` moves.  Of keys outside `K` nothing is said. -/
structure Moves (K : Set κ) (empty : α) (put : α → α) (src dst : ℕ → κ) (n : ℕ)
    (g : ℕ → κ → α) : Prop where
  src_mem : ∀ i < n, src i ∈ K
  src_inj : ∀ i < n, ∀ j < n, src i = src j → i = j
  dst_inj : ∀ i < n, ∀ j < n, dst i = dst j → i = j
  move : ∀ i < n, ∀ k ∈ K, g (i + 1) k =
    if k = src i then empty else if k = dst i then put (g i (src i)) else g i k

/-- The value that step `i` moves was at `src o` in the beginning: nobody has moved anything
to `src i` before, or an earlier step has, and its value was at `src o`. -/
inductive Origin (src dst : ℕ → κ) : ℕ → ℕ → Prop
  | first {i : ℕ} (h : ∀ m < i, dst m ≠ src i) : Origin src dst i i
  | later {m i o : ℕ} (hm : m < i) (h : dst m = src i) (ho : Origin src dst m o) :
      Origin src dst i o

/-- A value is moved to `k` and stays there: no later step has `k` as its source. -/
def Lands (src dst : ℕ → κ) (n : ℕ) (k : κ) : Prop :=
  ∃ i < n, dst i = k ∧ ∀ m < n, i ≤ m → src m ≠ k

/-- Moves go one way: none to a later source, or none to an earlier one.  Moves of a range by
a fixed distance do. -/
def OneWay (src dst : ℕ → κ) (n : ℕ) : Prop :=
  (∀ m < n, ∀ i < m, dst i ≠ src m) ∨ ∀ m < n, ∀ i < m, dst m ≠ src i

theorem exists_origin (src dst : ℕ → κ) (i : ℕ) : ∃ o ≤ i, Origin src dst i o := by
  induction i using Nat.strong_induction_on with
  | _ i ih =>
      by_cases h : ∃ m < i, dst m = src i
      · obtain ⟨m, hm, hdst⟩ := h
        obtain ⟨o, ho, horigin⟩ := ih m hm
        exact ⟨o, ho.trans hm.le, .later hm hdst horigin⟩
      · push Not at h
        exact ⟨i, le_refl i, .first h⟩

namespace Moves

variable {K : Set κ} {empty : α} {put : α → α} {src dst : ℕ → κ} {n : ℕ} {g : ℕ → κ → α}

/-- The first moves of a series. -/
theorem mono (h : Moves K empty put src dst n g) {m : ℕ} (hm : m ≤ n) :
    Moves K empty put src dst m g where
  src_mem i hi := h.src_mem i (hi.trans_le hm)
  src_inj i hi j hj := h.src_inj i (hi.trans_le hm) j (hj.trans_le hm)
  dst_inj i hi j hj := h.dst_inj i (hi.trans_le hm) j (hj.trans_le hm)
  move i hi := h.move i (hi.trans_le hm)

/-! ## What a key holds -/

/-- A key that is no source and no target keeps its value. -/
theorem untouched (h : Moves K empty put src dst n g) {k : κ} (hk : k ∈ K) {i j : ℕ}
    (hij : i ≤ j) (hj : j ≤ n) (hsrc : ∀ m < j, i ≤ m → src m ≠ k)
    (hdst : ∀ m < j, i ≤ m → dst m ≠ k) : g j k = g i k := by
  induction j, hij using Nat.le_induction with
  | base => rfl
  | succ j hij ih =>
      rw [h.move j hj k hk, if_neg (hsrc j (Nat.lt_succ_self j) hij).symm,
        if_neg (hdst j (Nat.lt_succ_self j) hij).symm]
      exact ih (Nat.le_of_succ_le hj) (fun m hm => hsrc m (hm.trans (Nat.lt_succ_self j)))
        fun m hm => hdst m (hm.trans (Nat.lt_succ_self j))

/-- A source to which nothing is moved later is empty. -/
theorem emptied (h : Moves K empty put src dst n g) {i : ℕ} (hi : i < n)
    (hdst : ∀ m < n, i < m → dst m ≠ src i) : g n (src i) = empty := by
  have hafter : g (i + 1) (src i) = empty := by
    rw [h.move i hi _ (h.src_mem i hi), if_pos rfl]
  rw [← hafter]
  refine h.untouched (h.src_mem i hi) hi (le_refl n) (fun m hm him heq => ?_) hdst
  have hmi := h.src_inj m hm i hi heq
  omega

/-- A target that is no source any more holds what was moved to it. -/
theorem landed (h : Moves K empty put src dst n g) {i : ℕ} (hi : i < n) (hk : dst i ∈ K)
    (hsrc : ∀ m < n, i ≤ m → src m ≠ dst i) : g n (dst i) = put (g i (src i)) := by
  have hafter : g (i + 1) (dst i) = put (g i (src i)) := by
    rw [h.move i hi _ hk, if_neg (hsrc i hi (le_refl i)).symm, if_pos rfl]
  rw [← hafter]
  refine h.untouched hk hi (le_refl n) (fun m hm him => hsrc m hm (by omega)) ?_
  intro m hm him heq
  have hmi := h.dst_inj m hm i hi heq
  omega

/-- What step `i` moves, as it is kept at the target.  It may have been moved several times
before, and `put` is applied to it each time, which is the same as once. -/
theorem put_origin (h : Moves K empty put src dst n g) (hput : ∀ a, put (put a) = put a)
    {i o : ℕ} (ho : Origin src dst i o) (hi : i < n) :
    put (g i (src i)) = put (g 0 (src o)) := by
  induction ho with
  | @first i hfirst =>
      have hsame : g i (src i) = g 0 (src i) := by
        refine h.untouched (h.src_mem i hi) (Nat.zero_le i) hi.le (fun m hm _ heq => ?_)
          fun m hm _ => hfirst m hm
        have hmi := h.src_inj m (hm.trans hi) i hi heq
        omega
      rw [hsame]
  | @later m i o hm hdst _ ih =>
      have hland : g i (src i) = put (g m (src m)) := by
        rw [← hdst]
        refine (h.mono hi.le).landed hm (hdst ▸ h.src_mem i hi) fun m' hm' _ heq => ?_
        have hmi := h.src_inj m' (hm'.trans hi) i hi (heq.trans hdst)
        omega
      rw [hland, hput]
      exact ih (hm.trans hi)

/-- What is at the target of step `i` when all is done, if it has stayed there. -/
theorem landed_origin (h : Moves K empty put src dst n g) (hput : ∀ a, put (put a) = put a)
    {i o : ℕ} (ho : Origin src dst i o) (hi : i < n) (hk : dst i ∈ K)
    (hsrc : ∀ m < n, i ≤ m → src m ≠ dst i) : g n (dst i) = put (g 0 (src o)) := by
  rw [h.landed hi hk hsrc, h.put_origin hput ho hi]

/-! ## When nothing changes -/

/-- If all that is moved amounts to `empty`, targets hold `put empty`. -/
theorem lands_of_empty (h : Moves K empty put src dst n g) (hput : ∀ a, put (put a) = put a)
    (hempty : ∀ i < n, put (g 0 (src i)) = put empty) {k : κ} (hk : k ∈ K)
    (hlands : Lands src dst n k) : g n k = put empty := by
  obtain ⟨i, hi, rfl, hsrc⟩ := hlands
  obtain ⟨o, hoi, ho⟩ := exists_origin src dst i
  rw [h.landed_origin hput ho hi hk hsrc, hempty o (hoi.trans_lt hi)]

theorem not_lands (h : Moves K empty put src dst n g) {i : ℕ} (hi : i < n)
    (hlands : ¬ Lands src dst n (src i)) : ∀ m < n, i < m → dst m ≠ src i := by
  intro m hm him heq
  refine hlands ⟨m, hm, heq, fun m' hm' hmm' hsrc => ?_⟩
  have hmi := h.src_inj m' hm' i hi hsrc
  omega

/-- If nothing has changed, all that was moved amounts to `empty`. -/
theorem put_eq_of_unchanged (h : Moves K empty put src dst n g)
    (hput : ∀ a, put (put a) = put a) (hway : OneWay src dst n)
    (hsame : ∀ k ∈ K, g n k = g 0 k) {i : ℕ} (hi : i < n) :
    put (g 0 (src i)) = put empty := by
  -- from the last source down: what a source holds in the end comes from a later one
  induction hd : n - i using Nat.strong_induction_on generalizing i with
  | _ d ih =>
      by_cases hlands : Lands src dst n (src i)
      · obtain ⟨m, hm, hdst, hsrc⟩ := hlands
        have him : i < m := by
          by_contra hle
          exact hsrc i hi (by omega) rfl
        rcases hway with hway | hway
        · have hk : dst m ∈ K := hdst ▸ h.src_mem i hi
          have hland := h.landed_origin hput (.first (hway m hm)) hm hk (by rwa [hdst])
          rw [hdst, hsame _ (h.src_mem i hi)] at hland
          rw [hland, hput]
          exact ih (n - m) (by omega) hm rfl
        · exact absurd hdst (hway m hm i him)
      · rw [← hsame _ (h.src_mem i hi), h.emptied hi (h.not_lands hi hlands)]

/-- **When moves change nothing**: the sources hold nothing but what the moves leave there,
and so do the targets at which something stays.  `hway` is needed, as values moved in a circle
may all be the same. -/
theorem unchanged_iff (h : Moves K empty put src dst n g) (hput : ∀ a, put (put a) = put a)
    (hway : OneWay src dst n) :
    (∀ k ∈ K, g n k = g 0 k) ↔
      (∀ i < n, (Lands src dst n (src i) → g 0 (src i) = put empty) ∧
        (¬ Lands src dst n (src i) → g 0 (src i) = empty)) ∧
      ∀ i < n, dst i ∈ K → Lands src dst n (dst i) → g 0 (dst i) = put empty := by
  constructor
  · intro hsame
    have hempty : ∀ i < n, put (g 0 (src i)) = put empty := fun i hi =>
      h.put_eq_of_unchanged hput hway hsame hi
    refine ⟨fun i hi => ⟨fun hlands => ?_, fun hlands => ?_⟩, fun i hi hk hlands => ?_⟩
    · rw [← hsame _ (h.src_mem i hi)]
      exact h.lands_of_empty hput hempty (h.src_mem i hi) hlands
    · rw [← hsame _ (h.src_mem i hi)]
      exact h.emptied hi (h.not_lands hi hlands)
    · rw [← hsame _ hk]
      exact h.lands_of_empty hput hempty hk hlands
  · rintro ⟨hsources, htargets⟩ k hk
    have hempty : ∀ i < n, put (g 0 (src i)) = put empty := by
      intro i hi
      by_cases hlands : Lands src dst n (src i)
      · rw [(hsources i hi).1 hlands, hput]
      · rw [(hsources i hi).2 hlands]
    by_cases hlands : Lands src dst n k
    · obtain ⟨i, hi, rfl, -⟩ := id hlands
      rw [htargets i hi hk hlands, h.lands_of_empty hput hempty hk hlands]
    · by_cases hsrc : ∃ i < n, src i = k
      · obtain ⟨i, hi, rfl⟩ := hsrc
        rw [(hsources i hi).2 hlands, h.emptied hi (h.not_lands hi hlands)]
      · push Not at hsrc
        refine h.untouched hk (Nat.zero_le n) (le_refl n) (fun m hm _ => hsrc m hm) ?_
        intro m hm _ hdst
        exact hlands ⟨m, hm, hdst, fun m' hm' _ => hsrc m' hm'⟩

end Moves

end Relocation
