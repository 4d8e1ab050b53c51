import Omb.Kern.Sched

/-!
# Appending and removing processes

`add_to_list_back` and `remove_from_list` of `kern/proc.c` on any list of processes, with
their `cas` and the loops around it.  A list is a word `*l` and the `next` fields of the
processes; the two functions look at nothing else.

Where nothing comes between, the word that a `cas` expects is the one the walk has just read,
so the first turn is the last (`cas_of_load`).  What the words are then is `Seg.push` for a
process that is added, and `Seg.tail` or `Seg.unlink` for one that is removed.  So the number
of turns that the loops are given does not matter, as long as it is not zero.

A list holds each process once, or it would be a circle, and so it is shorter than the table
(`Holds.length_lt`).  That the process to be added is not on it is needed: a process that is
on the list already becomes its own successor, and the next walk does not end.

The kernel adds processes to the list that `alive` points to, and never takes one out.
`addToListBack_links` ties what is proved here to the model of `Omb.Kern.Proc`, in which the
`cas` has been left out.

## Main results

* `append_and_erase`: what the two functions do to a list
* `addToListBack_links`: on the list of the alive processes this is what the kernel does
-/

namespace Omb

open PointerList

/-- A list of processes: `*l`, and `p->next` for each process.  Processes that are on no list
have a `next` field, too, which is left alone. -/
structure ProcLinks where
  head : Option ProcRef
  next : ProcRef → Option ProcRef

namespace ProcLinks

/-! ## The functions -/

/-- The address of one of the words: `l` or `&p->next`. -/
inductive Slot where
  | head
  | next (p : ProcRef)

/-- `*a` -/
def load (c : ProcLinks) : Slot → Option ProcRef
  | .head => c.head
  | .next p => c.next p

/-- `*a = v` -/
def store (c : ProcLinks) (v : Option ProcRef) : Slot → ProcLinks
  | .head => { c with head := v }
  | .next p => { c with next := Function.update c.next p v }

/-- `cas(a, old, new)`, with nothing between its load and its store.  It says whether the word
held `old`. -/
def cas (c : ProcLinks) (a : Slot) (old new : Option ProcRef) : Bool × ProcLinks :=
  if c.load a = old then (true, c.store new a) else (false, c)

/-- The `while (true)` of `add_to_list_back`, if it ends in so many turns.  Each of them walks
along the whole list again. -/
def addTurns (p : ProcRef) : ℕ → ProcLinks → Except Stuck ProcLinks
  | 0, _ => .error .diverges
  | turns + 1, c =>
      match lastNode c.next (maxProcs + 1) c.head with
      | none => .error .diverges
      | some none =>
          match c.cas .head none (some p) with
          | (true, c) => .ok c
          | (false, c) => addTurns p turns c
      | some (some pp) =>
          match c.cas (.next pp) none (some p) with
          | (true, c) => .ok c
          | (false, c) => addTurns p turns c

/-- `add_to_list_back(l, p)` -/
def addToListBack (turns : ℕ) (c : ProcLinks) (p : ProcRef) : Except Stuck ProcLinks :=
  addTurns p turns (c.store none (.next p))

/-- `remove_from_list(l, p)`, if it ends in so many turns.  It says whether it has found the
process. -/
def removeFromList (p : ProcRef) : ℕ → ProcLinks → Except Stuck (Bool × ProcLinks)
  | 0, _ => .error .diverges
  | turns + 1, c =>
      if c.head = some p then
        match c.cas .head (some p) (c.next p) with
        | (true, c) => .ok (true, c)
        | (false, c) => removeFromList p turns c
      else
        match nodeBefore c.next p (maxProcs + 1) c.head with
        | none => .error .diverges
        | some none => .ok (false, c)
        | some (some pt) =>
            match c.cas (.next pt) (some p) (c.next p) with
            | (true, c) => .ok (true, c)
            | (false, c) => removeFromList p turns c

/-! ## What they do -/

variable {c c' : ProcLinks} {nodes : List ProcRef} {p : ProcRef} {turns : ℕ}

/-- The list has exactly these processes on it, in this order.  There is no such list if it
has a cycle. -/
def Holds (c : ProcLinks) (nodes : List ProcRef) : Prop :=
  Seg c.next c.head nodes

theorem cas_of_load {a : Slot} {old : Option ProcRef} (h : c.load a = old)
    (new : Option ProcRef) : c.cas a old new = (true, c.store new a) :=
  if_pos h

/-- A walk along the list is shorter than the table. -/
theorem Holds.length_lt (h : c.Holds nodes) : nodes.length < maxProcs + 1 := by
  have hcard := List.Nodup.length_le_card h.nodup
  rw [Fintype.card_fin] at hcard
  omega

/-- The word behind the process `q`, or the first one. -/
def behind : Option ProcRef → Slot
  | none => .head
  | some q => .next q

theorem load_behind (c : ProcLinks) (r : Option ProcRef) :
    c.load (behind r) = r.elim c.head c.next := by
  cases r <;> rfl

/-- One turn of `add_to_list_back` is enough. -/
theorem addTurns_eq {r : Option ProcRef} (h : lastNode c.next (maxProcs + 1) c.head = some r) :
    addTurns p (turns + 1) c = .ok (c.store (some p) (behind r)) := by
  have hnil : c.load (behind r) = none := by
    rw [load_behind]
    exact lastNode_stop h
  rw [addTurns, h]
  cases r with
  | none =>
      have hcas : c.cas .head none (some p) = _ := cas_of_load hnil (some p)
      simp only [hcas]
  | some pp =>
      have hcas : c.cas (.next pp) none (some p) = _ := cas_of_load hnil (some p)
      simp only [hcas]

/-- One turn of `remove_from_list` is enough for a process on the list. -/
theorem removeFromList_of_mem {pre post : List ProcRef} (h : c.Holds (pre ++ p :: post)) :
    removeFromList p (turns + 1) c = .ok (true, c.store (c.next p) (behind pre.getLast?)) := by
  have hload : c.load (behind pre.getLast?) = some p := by
    rw [load_behind]
    exact h.rest.head_eq
  rw [removeFromList]
  cases hlast : pre.getLast? with
  | none =>
      rw [hlast] at hload
      have hhead : c.head = some p := hload
      have hcas : c.cas .head (some p) (c.next p) = _ := cas_of_load hload _
      rw [if_pos hhead, hcas]
  | some pt =>
      rw [hlast] at hload
      have hpre : pre ≠ [] := by
        rintro rfl
        cases hlast
      have hhead : c.head ≠ some p := by
        obtain ⟨q, pre, rfl⟩ := List.exists_cons_of_ne_nil hpre
        rw [Seg.head_eq h, Ne, Option.some_inj]
        rintro rfl
        exact (List.nodup_cons.mp h.nodup).1 (by simp)
      have hbefore : nodeBefore c.next p (maxProcs + 1) c.head = some (some pt) := by
        have hlen := h.length_lt
        rw [List.length_append] at hlen
        rw [nodeBefore_of_mem h hpre (by omega), hlast]
      have hcas : c.cas (.next pt) (some p) (c.next p) = _ := cas_of_load hload _
      simp only [if_neg hhead, hbefore, hcas]

/-- So it is for one that is not, and nothing is stored. -/
theorem removeFromList_of_notMem (h : c.Holds nodes) (hp : p ∉ nodes) :
    removeFromList p (turns + 1) c = .ok (false, c) := by
  have hhead : c.head ≠ some p := by
    intro hhead
    unfold Holds at h
    rw [hhead] at h
    obtain ⟨t, rfl, -⟩ := h.exists_tail
    exact hp List.mem_cons_self
  rw [removeFromList, if_neg hhead, nodeBefore_of_notMem h hp h.length_lt]

/-! ## What the list is then -/

theorem Holds.store_own (h : c.Holds nodes) (hp : p ∉ nodes) (v : Option ProcRef) :
    (c.store v (.next p)).Holds nodes :=
  h.update_of_notMem hp v

theorem Holds.append (h : c.Holds nodes) (hp : p ∉ nodes) (hnil : c.next p = none) :
    (c.store (some p) (behind nodes.getLast?)).Holds (nodes ++ [p]) := by
  cases hlast : nodes.getLast? with
  | none =>
      obtain rfl := List.getLast?_eq_none_iff.mp hlast
      refine .cons ?_
      show Seg c.next (c.next p) []
      rw [hnil]
      exact .nil
  | some q => exact Seg.push h hlast hp hnil

theorem Holds.remove {pre post : List ProcRef} (h : c.Holds (pre ++ p :: post)) :
    (c.store (c.next p) (behind pre.getLast?)).Holds (pre ++ post) := by
  cases hlast : pre.getLast? with
  | none =>
      obtain rfl := List.getLast?_eq_none_iff.mp hlast
      exact Seg.tail h
  | some pt => exact Seg.unlink h hlast

theorem store_store (c : ProcLinks) (v w : Option ProcRef) (a : Slot) :
    (c.store v a).store w a = c.store w a := by
  cases a with
  | head => rfl
  | next q => exact congrArg (ProcLinks.mk c.head) (Function.update_idem ..)

/-- A word that is given what it holds. -/
theorem store_load {a : Slot} {v : Option ProcRef} (h : c.load a = v) : c.store v a = c := by
  cases a with
  | head =>
      subst h
      rfl
  | next q =>
      subst h
      exact congrArg (ProcLinks.mk c.head) (Function.update_eq_self ..)

/-- **`add_to_list_back`** appends. -/
theorem addToListBack_of_notMem (h : c.Holds nodes) (hp : p ∉ nodes) :
    addToListBack (turns + 1) c p =
      .ok ((c.store none (.next p)).store (some p) (behind nodes.getLast?)) := by
  have hown := h.store_own hp none
  exact addTurns_eq (lastNode_eq hown hown.length_lt)

/-- A process that has been added leaves every word but its own as it was. -/
theorem removeFromList_added (h : c.Holds nodes) (hp : p ∉ nodes) (hnil : c.next p = none) :
    removeFromList p (turns + 1) (c.store (some p) (behind nodes.getLast?)) = .ok (true, c) := by
  have hload : c.load (behind nodes.getLast?) = none := by
    have hrest : Seg c.next (nodes.getLast?.elim c.head c.next) [] :=
      Seg.rest (by rwa [List.append_nil])
    rw [load_behind]
    exact hrest.head_none_iff.mpr rfl
  have hnext : (c.store (some p) (behind nodes.getLast?)).next p = none := by
    cases hlast : nodes.getLast? with
    | none => exact hnil
    | some q =>
        have hne : p ≠ q := fun heq => hp (heq ▸ List.mem_of_getLast? hlast)
        exact (Function.update_of_ne hne _ _).trans hnil
  rw [removeFromList_of_mem (h.append hp hnil), hnext, store_store, store_load hload]

/-- **Append and erase**: on a list without cycles, `add_to_list_back` appends a process that
is not on it, `remove_from_list` erases one that is and says so, and otherwise changes
nothing.  A process that has just been added leaves the list as it was.  One turn is enough
for each cas, as nobody else runs here; `Omb.Kern.Removal` is about calls that come in
between, on the other kind of list. -/
theorem append_and_erase (h : c.Holds nodes) (p : ProcRef) (hturns : 0 < turns) :
    (p ∉ nodes → ∃ c', addToListBack turns c p = .ok c' ∧ c'.Holds (nodes ++ [p])) ∧
      (∃ found c', removeFromList p turns c = .ok (found, c') ∧ (found = true ↔ p ∈ nodes) ∧
        c'.Holds (nodes.erase p) ∧ (found = false → c' = c)) ∧
      (p ∉ nodes → ∃ c' c'', addToListBack turns c p = .ok c' ∧
        removeFromList p turns c' = .ok (true, c'') ∧ c''.Holds nodes ∧
        c''.head = c.head ∧ ∀ q ≠ p, c''.next q = c.next q) := by
  obtain ⟨turns, rfl⟩ := Nat.exists_eq_succ_of_ne_zero hturns.ne'
  have hnil : (c.store none (.next p)).next p = none := Function.update_self ..
  refine ⟨fun hp => ⟨_, addToListBack_of_notMem h hp, (h.store_own hp none).append hp hnil⟩,
    ?_, fun hp => ?_⟩
  · by_cases hp : p ∈ nodes
    · obtain ⟨pre, post, rfl⟩ := List.append_of_mem hp
      have hpre : p ∉ pre := fun hmem =>
        (List.nodup_append.mp h.nodup).2.2 p hmem p List.mem_cons_self rfl
      refine ⟨true, _, removeFromList_of_mem h, iff_of_true rfl hp, ?_, fun hf => nomatch hf⟩
      rw [List.erase_append_right _ hpre, List.erase_cons_head]
      exact h.remove
    · refine ⟨false, c, removeFromList_of_notMem h hp, iff_of_false Bool.false_ne_true hp, ?_,
        fun _ => rfl⟩
      rwa [List.erase_of_not_mem hp]
  · have hown := h.store_own hp none
    exact ⟨_, _, addToListBack_of_notMem h hp, removeFromList_added hown hp hnil, hown, rfl,
      fun q hq => Function.update_of_ne hq _ _⟩

/-- A process behind two others, and without it again. -/
theorem append_and_erase_third :
    ∃ c c' c'' : ProcLinks, c.Holds [0, 1] ∧ addToListBack 1 c 2 = .ok c' ∧
      removeFromList 2 1 c' = .ok (true, c'') ∧ c''.Holds [0, 1] := by
  have hseg : (ProcLinks.mk (some 0) fun q => if q = 0 then some 1 else none).Holds [0, 1] :=
    .cons (.cons .nil)
  obtain ⟨-, -, hboth⟩ := append_and_erase hseg 2 Nat.one_pos
  obtain ⟨c', c'', hadd, hremove, hholds, -⟩ := hboth (by decide)
  exact ⟨_, c', c'', hseg, hadd, hremove, hholds⟩

end ProcLinks

/-! ## The list of the alive processes -/

namespace State

/-- The list that `alive` points to. -/
def links (s : State) : ProcLinks :=
  ⟨s.alive, s.nexts⟩

/-- **`add_to_list_back(&alive, p)`** on the whole state is `add_to_list_back` on that list:
the same words are stored, and the same walks do not end.  This holds of any list, with cycles
or without. -/
theorem addToListBack_links (s : State) (p : ProcRef) (turns : ℕ) :
    addToListBack s p =
      (s.links.addToListBack (turns + 1) p).map fun c => s.withAlive c.head c.next := by
  have hwalk : ∀ r, lastNode (Function.update s.nexts p none) (maxProcs + 1) s.alive = r →
      lastNode (s.links.store none (.next p)).next (maxProcs + 1)
        (s.links.store none (.next p)).head = r := fun r h => h
  unfold addToListBack
  simp only [modifyProc_next]
  show (match lastNode (Function.update s.nexts p none) (maxProcs + 1) s.alive with
    | none => _
    | some none => _
    | some (some pp) => _) = _
  cases h : lastNode (Function.update s.nexts p none) (maxProcs + 1) s.alive with
  | none =>
      rw [ProcLinks.addToListBack, ProcLinks.addTurns, hwalk _ h]
      rfl
  | some r =>
      rw [ProcLinks.addToListBack, ProcLinks.addTurns_eq (hwalk _ h)]
      cases r <;> rfl

end State

end Omb
