import Mathlib.Data.List.Nodup
import Mathlib.Logic.Function.Basic
import Mathlib.Data.Nat.Notation

/-!
# Singly linked lists in a pointer store

A store is a function `next : ι → Option ι`; a list is a head pointer into it.  `Seg next head
nodes` says that following `next` from `head` meets exactly `nodes`, in order, and then the
nil pointer.  A segment is therefore finite and acyclic by definition, and the node list is
determined by the head (`Seg.unique`), so no node can occur in it twice (`Seg.nodup`).

The destructive operations are stated on the store alone: appending a node behind the last one
(`Seg.push`), unlinking a node (`Seg.unlink`) and cutting a list off behind a node
(`Seg.cut`).  `Family` is the same for many lists that share one store without sharing a node;
there an operation on one list has to leave every other list alone.

The loops that walk along a list take a number of nodes left to visit and return `none` when
it does not suffice.  A list is shorter than any number that bounds its nodes, so where the
store is finite the walks end (`lastNode_eq`, `nodeBefore_of_mem`, `nodeBefore_of_notMem`); on
a cyclic store they would not, and there is no `Seg`.

## Main definitions

* `Seg`: the nodes a head pointer reaches
* `lastNode`: the loop that walks to the last node
* `nodeBefore`: the loop that walks to the node before a given one
* `scan`: the loop that looks for the first slot with a property
* `Family`: pairwise disjoint lists in one store

## Main results

* `Seg.push`, `Seg.unlink`, `Seg.cut`: what one write to the store does to one list
* `Family.push_empty`, `Family.push_last`: the same write, seen from all lists, when a node is
  appended
* `Family.unlink_head`, `Family.unlink_after`: when a node is taken out
* `Family.cut_head`, `Family.cut_after`: when what is behind a node is cut off, to be a list
  of its own
-/

namespace PointerList

variable {ι κ : Type*}

/-- Following `next` from `head` meets exactly `nodes`, then nil.  There is no segment from a
head that leads into a cycle. -/
inductive Seg (next : ι → Option ι) : Option ι → List ι → Prop
  | nil : Seg next none []
  | cons {i : ι} {l : List ι} : Seg next (next i) l → Seg next (some i) (i :: l)

namespace Seg

variable {next next' : ι → Option ι} {head : Option ι} {l l' : List ι} {i : ι}

theorem head_none_iff (h : Seg next head l) : head = none ↔ l = [] := by
  cases h <;> simp

theorem eq_nil (h : Seg next none l) : l = [] := by
  cases h
  rfl

theorem exists_tail (h : Seg next (some i) l) :
    ∃ t, l = i :: t ∧ Seg next (next i) t := by
  cases h with
  | cons ht => exact ⟨_, rfl, ht⟩

/-- The store determines the nodes. -/
theorem unique (h : Seg next head l) (h' : Seg next head l') : l = l' := by
  induction h generalizing l' with
  | nil => exact h'.eq_nil.symm
  | cons _ ih =>
      obtain ⟨t, rfl, ht⟩ := h'.exists_tail
      rw [ih ht]

theorem head_eq (h : Seg next head (i :: l)) : head = some i := by
  cases h
  rfl

theorem tail (h : Seg next head (i :: l)) : Seg next (next i) l := by
  cases h with
  | cons ht => exact ht

/-- The segment from any split point on is a segment of its own. -/
theorem suffix {pre : List ι} (h : Seg next head (pre ++ i :: l)) :
    Seg next (next i) l := by
  induction pre generalizing head with
  | nil => exact h.tail
  | cons j pre ih => exact ih h.tail

/-- The same, from the pointer behind the nodes before: that of the last of them, or the head. -/
theorem rest {pre : List ι} (h : Seg next head (pre ++ l)) :
    Seg next (pre.getLast?.elim head next) l := by
  cases hlast : pre.getLast? with
  | none =>
      obtain rfl := List.getLast?_eq_none_iff.mp hlast
      exact h
  | some i =>
      obtain ⟨pre, rfl⟩ := List.getLast?_eq_some_iff.mp hlast
      rw [List.append_assoc] at h
      exact h.suffix

/-- A segment never meets a node twice: the two occurrences would start two
segments of different length from the same pointer. -/
theorem nodup (h : Seg next head l) : l.Nodup := by
  induction h with
  | nil => exact List.nodup_nil
  | @cons i l ht ih =>
      refine List.nodup_cons.mpr ⟨fun hmem => ?_, ih⟩
      obtain ⟨pre, post, hsplit⟩ := List.append_of_mem hmem
      have hpost : Seg next (next i) post := suffix (hsplit ▸ ht)
      have hlen := congrArg List.length (ht.unique hpost)
      rw [hsplit] at hlen
      simp only [List.length_append, List.length_cons] at hlen
      omega

/-- Only the pointers of the segment's own nodes matter. -/
theorem congr (h : Seg next head l) (hagree : ∀ j ∈ l, next' j = next j) :
    Seg next' head l := by
  induction h with
  | nil => exact .nil
  | @cons i l _ ih =>
      refine .cons ?_
      rw [hagree i (List.mem_cons_self ..)]
      exact ih fun j hj => hagree j (List.mem_cons_of_mem _ hj)

theorem update_of_notMem [DecidableEq ι] (h : Seg next head l) {j : ι}
    (hj : j ∉ l) (v : Option ι) : Seg (Function.update next j v) head l :=
  h.congr fun _ hk => Function.update_of_ne (ne_of_mem_of_not_mem hk hj) ..

/-- **Append.**  Behind a last node `j`, redirecting `j` to a fresh node whose own pointer is
nil appends that node.  With a pointer that is not nil, what is behind the node would be
appended, too. -/
theorem push [DecidableEq ι] (h : Seg next head l) {j : ι}
    (hlast : l.getLast? = some j) (hi : i ∉ l) (hnil : next i = none) :
    Seg (Function.update next j (some i)) head (l ++ [i]) := by
  induction h with
  | nil => simp at hlast
  | @cons k l ht ih =>
      have hik : i ≠ k := fun heq => hi (heq ▸ List.mem_cons_self ..)
      cases l with
      | nil =>
          obtain rfl : k = j := by simpa using hlast
          refine .cons ?_
          rw [Function.update_self]
          refine .cons ?_
          rw [Function.update_of_ne hik, hnil]
          exact .nil
      | cons m t =>
          have hlast' : (m :: t).getLast? = some j := by
            rwa [List.getLast?_cons_cons] at hlast
          have hjk : k ≠ j := by
            rintro rfl
            exact (List.nodup_cons.mp (Seg.cons ht).nodup).1
              (List.mem_of_getLast? hlast')
          refine .cons ?_
          rw [Function.update_of_ne hjk]
          exact ih hlast' fun hmem => hi (List.mem_cons_of_mem _ hmem)

/-- **Unlink.**  Redirecting the predecessor `j` of a node `i` to the successor of `i` takes
`i` out of the segment.  The pointer of `i` itself is left as it is. -/
theorem unlink [DecidableEq ι] {pre post : List ι} {j : ι}
    (h : Seg next head (pre ++ i :: post)) (hprev : pre.getLast? = some j) :
    Seg (Function.update next j (next i)) head (pre ++ post) := by
  induction pre generalizing head with
  | nil => simp at hprev
  | cons k pre ih =>
      have hnodup := h.nodup
      cases h with
      | cons ht =>
          cases pre with
          | nil =>
              obtain rfl : k = j := by simpa using hprev
              refine .cons ?_
              rw [Function.update_self]
              refine ht.tail.update_of_notMem ?_ _
              simp only [List.cons_append, List.nil_append, List.nodup_cons,
                List.mem_cons, not_or] at hnodup
              exact hnodup.1.2
          | cons m pre =>
              rw [List.getLast?_cons_cons] at hprev
              have hjk : k ≠ j := by
                rintro rfl
                refine (List.nodup_cons.mp hnodup).1 ?_
                exact List.mem_append_left _ (List.mem_of_getLast? hprev)
              refine .cons ?_
              rw [Function.update_of_ne hjk]
              exact ih ht hprev

/-- **Cut.**  Redirecting a node `j` to nil leaves the segment up to it.  What was behind it
is still a segment, from the pointer that `j` had. -/
theorem cut [DecidableEq ι] {pre : List ι} {j : ι} (h : Seg next head (pre ++ l))
    (hprev : pre.getLast? = some j) : Seg (Function.update next j none) head pre := by
  induction pre generalizing head with
  | nil => simp at hprev
  | cons k pre ih =>
      have hnodup := h.nodup
      cases h with
      | cons ht =>
          cases pre with
          | nil =>
              obtain rfl : k = j := by simpa using hprev
              refine .cons ?_
              rw [Function.update_self]
              exact .nil
          | cons m pre =>
              rw [List.getLast?_cons_cons] at hprev
              have hjk : k ≠ j := by
                rintro rfl
                refine (List.nodup_cons.mp hnodup).1 ?_
                exact List.mem_append_left _ (List.mem_of_getLast? hprev)
              refine .cons ?_
              rw [Function.update_of_ne hjk]
              exact ih ht hprev

end Seg

/-! ## Walking to the last node -/

/-- `for (p = head; p != nil && p->next != nil; p = p->next);`, with `fuel` nodes left to
visit; `none` when they do not suffice.  It returns the nil pointer for an empty list. -/
def lastNode (next : ι → Option ι) : ℕ → Option ι → Option (Option ι)
  | 0, _ => none
  | _ + 1, none => some none
  | fuel + 1, some i =>
      match next i with
      | none => some (some i)
      | some j => lastNode next fuel (some j)

/-- The walk ends, at the segment's last node. -/
theorem lastNode_eq {next : ι → Option ι} {head : Option ι} {l : List ι}
    (h : Seg next head l) {fuel : ℕ} (hfuel : l.length < fuel) :
    lastNode next fuel head = some l.getLast? := by
  induction h generalizing fuel with
  | nil =>
      obtain ⟨m, rfl⟩ : ∃ m, fuel = m + 1 := ⟨fuel - 1, by omega⟩
      rfl
  | @cons i l ht ih =>
      obtain ⟨m, rfl⟩ : ∃ m, fuel = m + 1 := ⟨fuel - 1, by omega⟩
      simp only [List.length_cons] at hfuel
      cases hnext : next i with
      | none =>
          rw [hnext] at ht
          rw [ht.eq_nil]
          simp [lastNode, hnext]
      | some j =>
          rw [hnext] at ih ht
          obtain ⟨t, rfl, -⟩ := ht.exists_tail
          have hlast := @ih m (by omega)
          simpa [lastNode, hnext, List.getLast?_cons_cons] using hlast

/-- The walk stops at a nil pointer: the head, or that of the node it returns. -/
theorem lastNode_stop {next : ι → Option ι} {fuel : ℕ} {head r : Option ι}
    (h : lastNode next fuel head = some r) : r.elim head next = none := by
  induction fuel generalizing head with
  | zero => cases h
  | succ fuel ih =>
      cases head with
      | none =>
          cases h
          rfl
      | some i =>
          rw [lastNode] at h
          cases hnext : next i with
          | none =>
              rw [hnext] at h
              cases h
              exact hnext
          | some j =>
              rw [hnext] at h
              have hstop := @ih (some j) h
              cases r with
              | none => exact absurd hstop (Option.some_ne_none j)
              | some k => exact hstop

/-! ## Walking to the node before another -/

/-- `for (q = head; q != nil && q->next != p; q = q->next);`, with `fuel` nodes left to visit;
`none` when they do not suffice.  It does not look at the head itself, so it returns nil when
`p` is the first node. -/
def nodeBefore [DecidableEq ι] (next : ι → Option ι) (p : ι) :
    ℕ → Option ι → Option (Option ι)
  | 0, _ => none
  | _ + 1, none => some none
  | fuel + 1, some i =>
      if next i = some p then some (some i) else nodeBefore next p fuel (next i)

section NodeBefore

variable [DecidableEq ι] {next : ι → Option ι} {head : Option ι} {l pre post : List ι} {p : ι}
  {fuel : ℕ}

/-- Without `p`, the walk ends at nil. -/
theorem nodeBefore_of_notMem (h : Seg next head l) (hp : p ∉ l) (hfuel : l.length < fuel) :
    nodeBefore next p fuel head = some none := by
  induction h generalizing fuel with
  | nil =>
      obtain ⟨m, rfl⟩ : ∃ m, fuel = m + 1 := ⟨fuel - 1, by omega⟩
      rfl
  | @cons i l ht ih =>
      obtain ⟨m, rfl⟩ : ∃ m, fuel = m + 1 := ⟨fuel - 1, by omega⟩
      have hne : next i ≠ some p := by
        intro hnext
        rw [hnext] at ht
        obtain ⟨t, rfl, -⟩ := ht.exists_tail
        exact hp (by simp)
      rw [List.length_cons] at hfuel
      rw [nodeBefore, if_neg hne]
      exact ih (fun hmem => hp (List.mem_cons_of_mem _ hmem)) (by omega)

/-- Otherwise it ends at the node before `p`, unless that is the first one. -/
theorem nodeBefore_of_mem (h : Seg next head (pre ++ p :: post)) (hpre : pre ≠ [])
    (hfuel : pre.length < fuel) : nodeBefore next p fuel head = some pre.getLast? := by
  induction pre generalizing head fuel with
  | nil => exact absurd rfl hpre
  | cons i pre ih =>
      obtain ⟨m, rfl⟩ : ∃ m, fuel = m + 1 := ⟨fuel - 1, by omega⟩
      obtain rfl := h.head_eq
      have hnodup := h.tail.nodup
      rw [List.length_cons] at hfuel
      cases pre with
      | nil =>
          rw [nodeBefore, if_pos h.tail.head_eq]
          rfl
      | cons j pre =>
          have hne : next i ≠ some p := by
            rw [h.tail.head_eq, Ne, Option.some_inj]
            rintro rfl
            exact (List.nodup_cons.mp hnodup).1 (by simp)
          rw [nodeBefore, if_neg hne, List.getLast?_cons_cons]
          exact ih h.tail (List.cons_ne_nil _ _) (by omega)

end NodeBefore

/-! ## Looking for a slot -/

/-- `for (i = start; i < n; i++) if (P i) break;`, with `fuel` turns left.  The slot is the
first one from `start` on; there is none when the array ends before. -/
def scan {n : ℕ} (P : Fin n → Prop) [DecidablePred P] : ℕ → ℕ → Option (Fin n)
  | 0, _ => none
  | fuel + 1, i =>
      if h : i < n then
        if P ⟨i, h⟩ then some ⟨i, h⟩ else scan P fuel (i + 1)
      else none

theorem scan_some {n : ℕ} {P : Fin n → Prop} [DecidablePred P] {fuel start : ℕ}
    {i : Fin n} (h : scan P fuel start = some i) : P i := by
  induction fuel generalizing start with
  | zero => simp [scan] at h
  | succ fuel ih =>
      rw [scan] at h
      split at h
      · split at h
        · cases h
          assumption
        · exact ih h
      · cases h

/-- A scan that covers the whole array and finds nothing has seen every slot. -/
theorem scan_none {n : ℕ} {P : Fin n → Prop} [DecidablePred P] {fuel start : ℕ}
    (h : scan P fuel start = none) (hfuel : n ≤ start + fuel) :
    ∀ i : Fin n, start ≤ i.val → ¬ P i := by
  induction fuel generalizing start with
  | zero =>
      intro i hi
      exact absurd i.isLt (by omega)
  | succ fuel ih =>
      intro i hi
      rw [scan] at h
      split at h
      · split at h
        · cases h
        · rename_i hlt hP
          by_cases heq : i.val = start
          · subst heq
            exact hP
          · exact ih h (by omega) i (by omega)
      · exact absurd i.isLt (by omega)

/-! ## Disjoint lists in one store -/

/-- Lists with heads `head k` that share the store `next` but no node.  A write to the pointer
of a node then concerns at most one of them. -/
structure Family (next : ι → Option ι) (head : κ → Option ι)
    (nodes : κ → List ι) : Prop where
  seg : ∀ k, Seg next (head k) (nodes k)
  disjoint : ∀ k k' : κ, ∀ i ∈ nodes k, i ∈ nodes k' → k = k'

namespace Family

variable [DecidableEq ι] [DecidableEq κ] {next next' : ι → Option ι}
  {head head' : κ → Option ι} {nodes : κ → List ι} {k : κ} {i : ι}

omit [DecidableEq ι] [DecidableEq κ] in
/-- The lists do not see pointers of nodes outside them. -/
theorem congr (h : Family next head nodes)
    (hagree : ∀ k, ∀ i ∈ nodes k, next' i = next i) : Family next' head nodes :=
  ⟨fun k => (h.seg k).congr (hagree k), h.disjoint⟩

omit [DecidableEq ι] in
/-- Adding a node that is in no list to list `k` keeps the lists disjoint. -/
private theorem disjoint_push (h : Family next head nodes)
    (hfresh : ∀ k', i ∉ nodes k') (k₁ k₂ : κ) (j : ι)
    (h₁ : j ∈ Function.update nodes k (nodes k ++ [i]) k₁)
    (h₂ : j ∈ Function.update nodes k (nodes k ++ [i]) k₂) : k₁ = k₂ := by
  have key : ∀ k', j ∈ Function.update nodes k (nodes k ++ [i]) k' →
      j ∈ nodes k' ∨ (j = i ∧ k' = k) := by
    intro k' hj
    by_cases hk : k' = k
    · subst hk
      simpa using hj
    · left
      simpa [Function.update_of_ne hk] using hj
  rcases key k₁ h₁ with hm₁ | ⟨hji, hk₁⟩
  · rcases key k₂ h₂ with hm₂ | ⟨hji, -⟩
    · exact h.disjoint k₁ k₂ j hm₁ hm₂
    · exact absurd (hji ▸ hm₁) (hfresh k₁)
  · rcases key k₂ h₂ with hm₂ | ⟨-, hk₂⟩
    · exact absurd (hji ▸ hm₂) (hfresh k₂)
    · exact hk₁.trans hk₂.symm

omit [DecidableEq ι] in
/-- Appending to an empty list moves its head only.  The node has to be in no list yet, and
its pointer to be nil. -/
theorem push_empty (h : Family next head nodes) (hk : nodes k = [])
    (hfresh : ∀ k', i ∉ nodes k') (hnil : next i = none) :
    Family next (Function.update head k (some i))
      (Function.update nodes k (nodes k ++ [i])) := by
  refine ⟨fun k' => ?_, disjoint_push h hfresh⟩
  by_cases hkk : k' = k
  · subst hkk
    rw [Function.update_self, Function.update_self, hk]
    refine .cons ?_
    rw [hnil]
    exact .nil
  · rw [Function.update_of_ne hkk, Function.update_of_ne hkk]
    exact h.seg k'

/-- Appending to a non-empty list moves the pointer of its last node only, and no other list
has that node. -/
theorem push_last (h : Family next head nodes) {j : ι}
    (hlast : (nodes k).getLast? = some j) (hfresh : ∀ k', i ∉ nodes k')
    (hnil : next i = none) :
    Family (Function.update next j (some i)) head
      (Function.update nodes k (nodes k ++ [i])) := by
  refine ⟨fun k' => ?_, disjoint_push h hfresh⟩
  by_cases hkk : k' = k
  · subst hkk
    rw [Function.update_self]
    exact (h.seg k').push hlast (hfresh k') hnil
  · rw [Function.update_of_ne hkk]
    refine (h.seg k').update_of_notMem (fun hj => hkk ?_) _
    exact h.disjoint k' k j hj (List.mem_of_getLast? hlast)

omit [DecidableEq ι] in
/-- Taking a node out of list `k` keeps the lists disjoint. -/
private theorem disjoint_unlink (h : Family next head nodes) {pre post : List ι}
    (hk : nodes k = pre ++ i :: post) (k₁ k₂ : κ) (j : ι)
    (h₁ : j ∈ Function.update nodes k (pre ++ post) k₁)
    (h₂ : j ∈ Function.update nodes k (pre ++ post) k₂) : k₁ = k₂ := by
  have key : ∀ k', j ∈ Function.update nodes k (pre ++ post) k' → j ∈ nodes k' := by
    intro k' hj
    by_cases hkk : k' = k
    · subst hkk
      rw [Function.update_self] at hj
      rw [hk]
      rcases List.mem_append.mp hj with hj | hj
      · exact List.mem_append_left _ hj
      · exact List.mem_append_right _ (List.mem_cons_of_mem _ hj)
    · rwa [Function.update_of_ne hkk] at hj
  exact h.disjoint k₁ k₂ j (key k₁ h₁) (key k₂ h₂)

omit [DecidableEq ι] in
/-- Only that node has left the lists. -/
theorem mem_unlink (h : Family next head nodes) {pre post : List ι}
    (hk : nodes k = pre ++ i :: post) (j : ι) :
    (∃ k', j ∈ Function.update nodes k (pre ++ post) k') ↔ (∃ k', j ∈ nodes k') ∧ j ≠ i := by
  have hnodup : (pre ++ i :: post).Nodup := hk ▸ (h.seg k).nodup
  rw [List.nodup_middle, List.nodup_cons] at hnodup
  constructor
  · rintro ⟨k', hj⟩
    by_cases hkk : k' = k
    · subst hkk
      rw [Function.update_self] at hj
      refine ⟨⟨k', ?_⟩, ne_of_mem_of_not_mem hj hnodup.1⟩
      rw [hk]
      exact List.mem_append.mpr ((List.mem_append.mp hj).imp_right (List.mem_cons_of_mem _))
    · rw [Function.update_of_ne hkk] at hj
      refine ⟨⟨k', hj⟩, ?_⟩
      rintro rfl
      exact hkk (h.disjoint k' k j hj (by simp [hk]))
  · rintro ⟨⟨k', hj⟩, hne⟩
    refine ⟨k', ?_⟩
    by_cases hkk : k' = k
    · subst hkk
      rw [hk] at hj
      rw [Function.update_self]
      simpa [hne] using hj
    · rwa [Function.update_of_ne hkk]

omit [DecidableEq ι] in
/-- Unlinking the first node moves the head only. -/
theorem unlink_head (h : Family next head nodes) {post : List ι}
    (hk : nodes k = i :: post) :
    Family next (Function.update head k (next i))
      (Function.update nodes k post) := by
  have hk' : nodes k = [] ++ i :: post := hk
  refine ⟨fun k' => ?_, disjoint_unlink h hk'⟩
  by_cases hkk : k' = k
  · subst hkk
    rw [Function.update_self, Function.update_self]
    exact Seg.tail (hk ▸ h.seg k')
  · rw [Function.update_of_ne hkk, Function.update_of_ne hkk]
    exact h.seg k'

/-- Unlinking a later node moves the pointer of its predecessor only, and no other list has
that node. -/
theorem unlink_after (h : Family next head nodes) {pre post : List ι} {j : ι}
    (hk : nodes k = pre ++ i :: post) (hprev : pre.getLast? = some j) :
    Family (Function.update next j (next i)) head
      (Function.update nodes k (pre ++ post)) := by
  refine ⟨fun k' => ?_, disjoint_unlink h hk⟩
  by_cases hkk : k' = k
  · subst hkk
    rw [Function.update_self]
    exact Seg.unlink (hk ▸ h.seg k') hprev
  · rw [Function.update_of_ne hkk]
    refine (h.seg k').update_of_notMem (fun hj => hkk ?_) _
    refine h.disjoint k' k j hj ?_
    rw [hk]
    exact List.mem_append_left _ (List.mem_of_getLast? hprev)

omit [DecidableEq ι] in
/-- Moving the nodes behind `i` from list `k` to the empty list `k₀` keeps the lists
disjoint. -/
private theorem disjoint_cut (h : Family next head nodes) {k₀ : κ} {pre post : List ι}
    (hk : nodes k = pre ++ i :: post) (hempty : nodes k₀ = []) (k₁ k₂ : κ) (j : ι)
    (h₁ : j ∈ Function.update (Function.update nodes k pre) k₀ post k₁)
    (h₂ : j ∈ Function.update (Function.update nodes k pre) k₀ post k₂) : k₁ = k₂ := by
  have hnodup : (pre ++ i :: post).Nodup := hk ▸ (h.seg k).nodup
  have hdisj : ∀ x ∈ pre, x ∉ post := fun x hx hpost =>
    (List.nodup_append.mp hnodup).2.2 x hx x (List.mem_cons_of_mem _ hpost) rfl
  have hpost : ∀ x ∈ post, x ∈ nodes k := fun x hx => by simp [hk, hx]
  have hpre : ∀ x ∈ pre, x ∈ nodes k := fun x hx => by simp [hk, hx]
  -- a node of one list is behind `i`, in front of it, or where it was
  have key : ∀ k', j ∈ Function.update (Function.update nodes k pre) k₀ post k' →
      (k' = k₀ ∧ j ∈ post) ∨ (k' = k ∧ j ∈ pre) ∨ (k' ≠ k ∧ j ∈ nodes k') := by
    intro k' hj
    by_cases hk₀ : k' = k₀
    · subst hk₀
      rw [Function.update_self] at hj
      exact .inl ⟨rfl, hj⟩
    · rw [Function.update_of_ne hk₀] at hj
      by_cases hkk : k' = k
      · subst hkk
        rw [Function.update_self] at hj
        exact .inr (.inl ⟨rfl, hj⟩)
      · rw [Function.update_of_ne hkk] at hj
        exact .inr (.inr ⟨hkk, hj⟩)
  rcases key k₁ h₁ with ⟨rfl, hj₁⟩ | ⟨rfl, hj₁⟩ | ⟨hne₁, hj₁⟩ <;>
    rcases key k₂ h₂ with ⟨rfl, hj₂⟩ | ⟨rfl, hj₂⟩ | ⟨hne₂, hj₂⟩
  · rfl
  · exact absurd hj₁ (hdisj j hj₂)
  · exact absurd (h.disjoint _ _ j hj₂ (hpost j hj₁)) hne₂
  · exact absurd hj₂ (hdisj j hj₁)
  · rfl
  · exact absurd (h.disjoint _ _ j hj₂ (hpre j hj₁)) hne₂
  · exact absurd (h.disjoint _ _ j hj₁ (hpost j hj₂)) hne₁
  · exact absurd (h.disjoint _ _ j hj₁ (hpre j hj₂)) hne₁
  · exact h.disjoint k₁ k₂ j hj₁ hj₂

omit [DecidableEq ι] in
/-- Only `i` has left the lists. -/
theorem mem_cut (h : Family next head nodes) {k₀ : κ} {pre post : List ι}
    (hk : nodes k = pre ++ i :: post) (hne : k₀ ≠ k) (hempty : nodes k₀ = []) (j : ι) :
    (∃ k', j ∈ Function.update (Function.update nodes k pre) k₀ post k') ↔
      (∃ k', j ∈ nodes k') ∧ j ≠ i := by
  rw [← h.mem_unlink hk]
  constructor
  · rintro ⟨k', hj⟩
    by_cases hk₀ : k' = k₀
    · subst hk₀
      rw [Function.update_self] at hj
      refine ⟨k, ?_⟩
      rw [Function.update_self]
      exact List.mem_append_right _ hj
    · rw [Function.update_of_ne hk₀] at hj
      refine ⟨k', ?_⟩
      by_cases hkk : k' = k
      · subst hkk
        rw [Function.update_self] at hj ⊢
        exact List.mem_append_left _ hj
      · rwa [Function.update_of_ne hkk] at hj ⊢
  · rintro ⟨k', hj⟩
    by_cases hkk : k' = k
    · subst hkk
      rw [Function.update_self] at hj
      rcases List.mem_append.mp hj with hj | hj
      · refine ⟨k', ?_⟩
        rwa [Function.update_of_ne hne.symm, Function.update_self]
      · refine ⟨k₀, ?_⟩
        rwa [Function.update_self]
    · rw [Function.update_of_ne hkk] at hj
      have hk₀ : k' ≠ k₀ := by
        rintro rfl
        rw [hempty] at hj
        exact List.not_mem_nil hj
      refine ⟨k', ?_⟩
      rwa [Function.update_of_ne hk₀, Function.update_of_ne hkk]

omit [DecidableEq ι] in
/-- Setting the head to nil cuts the whole list off; what is behind its first node is a list
of its own. -/
theorem cut_head (h : Family next head nodes) {k₀ : κ} {post : List ι}
    (hk : nodes k = i :: post) (hne : k₀ ≠ k) (hempty : nodes k₀ = []) :
    Family next (Function.update (Function.update head k none) k₀ (next i))
      (Function.update (Function.update nodes k []) k₀ post) := by
  refine ⟨fun k' => ?_, disjoint_cut h (show nodes k = [] ++ i :: post from hk) hempty⟩
  by_cases hk₀ : k' = k₀
  · subst hk₀
    rw [Function.update_self, Function.update_self]
    exact Seg.tail (hk ▸ h.seg k)
  · rw [Function.update_of_ne hk₀, Function.update_of_ne hk₀]
    by_cases hkk : k' = k
    · subst hkk
      rw [Function.update_self, Function.update_self]
      exact .nil
    · rw [Function.update_of_ne hkk, Function.update_of_ne hkk]
      exact h.seg k'

/-- Setting the pointer of a node to nil cuts off what is behind it. -/
theorem cut_after (h : Family next head nodes) {k₀ : κ} {pre post : List ι} {j : ι}
    (hk : nodes k = pre ++ i :: post) (hprev : pre.getLast? = some j) (hne : k₀ ≠ k)
    (hempty : nodes k₀ = []) :
    Family (Function.update next j none) (Function.update head k₀ (next i))
      (Function.update (Function.update nodes k pre) k₀ post) := by
  have hj : j ∈ nodes k := by
    rw [hk]
    exact List.mem_append_left _ (List.mem_of_getLast? hprev)
  refine ⟨fun k' => ?_, disjoint_cut h hk hempty⟩
  by_cases hk₀ : k' = k₀
  · subst hk₀
    rw [Function.update_self, Function.update_self]
    refine (Seg.suffix (hk ▸ h.seg k)).update_of_notMem (fun hjp => ?_) _
    have hnodup : (pre ++ i :: post).Nodup := hk ▸ (h.seg k).nodup
    exact (List.nodup_append.mp hnodup).2.2 j (List.mem_of_getLast? hprev) j
      (List.mem_cons_of_mem _ hjp) rfl
  · rw [Function.update_of_ne hk₀, Function.update_of_ne hk₀]
    by_cases hkk : k' = k
    · subst hkk
      rw [Function.update_self]
      exact Seg.cut (hk ▸ h.seg k') hprev
    · rw [Function.update_of_ne hkk]
      exact (h.seg k').update_of_notMem (fun hjk => hkk (h.disjoint k' k j hjk hj)) _

end Family

end PointerList
