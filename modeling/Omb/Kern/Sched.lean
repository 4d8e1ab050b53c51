import Omb.Kern.Proc
import Mathlib.Data.List.FinRange
import Mathlib.Data.Fintype.Card

/-!
# Choosing and switching

`next_proc` walks the list of alive processes from the one after `up` round to `up` itself.
`nextProc_eq` computes its result for every such list: the first ready process in that order
(`rotation`).  The list has to end, and `up` has to be on it, or the walk would not come to an
end; both hold in every run of up to `MAX_PROCS` processes.

`schedule` saves the context of the running process and switches to another one;
`State.switchFrom` is the state it leaves, and the lemmas about it say what each field of each
process is then.  A process that is `PROC_oncpu` when it is suspended becomes ready; one that
has blocked keeps the state it blocked in (`savedState`).

The last part is `add_to_list_back` on the list of alive processes, which `proc_new` calls.

## Main definitions

* `rotation`: the order in which `next_proc` looks at processes
* `State.switchFrom`: the state after a switch

## Main results

* `nextProc_eq`: what `next_proc` returns
* `schedule_none`, `schedule_some`: what `schedule` does, with and without a process handed to
  it
* `addToListBack_spec`: appending a process to the list
-/

namespace Omb

open PointerList

/-! ## `next_proc` -/

/-- `p->next` of every process. -/
abbrev State.nexts (s : State) : ProcRef → Option ProcRef :=
  fun p => (s.procs p).next

abbrev State.isReady (s : State) (p : ProcRef) : Bool :=
  (s.procs p).state = .ready

theorem readyOrNil_some (s : State) (p : ProcRef) :
    readyOrNil s (some p) = [p].find? s.isReady := by
  by_cases h : (s.procs p).state = .ready <;>
    simp [readyOrNil, State.isReady, Option.filter, h]

/-- With no running process the walk ends at the end of the list. -/
theorem nextProcLoop_to_nil {s : State} {l : List ProcRef} {p : Option ProcRef}
    (h : Seg s.nexts p l) (hne : l ≠ []) (hup : s.up = none) {fuel : ℕ}
    (hfuel : l.length ≤ fuel) : nextProcLoop s fuel p = .ok (l.find? s.isReady) := by
  induction h generalizing fuel with
  | nil => exact absurd rfl hne
  | @cons i l hl ih =>
      obtain ⟨m, rfl⟩ : ∃ m, fuel = m + 1 := ⟨fuel - 1, by simp at hfuel; omega⟩
      simp only [nextProcLoop, List.find?_cons]
      by_cases hready : (s.procs i).state = .ready
      · simp [State.isReady, hready]
      · have hfalse : s.isReady i = false := decide_eq_false hready
        rw [if_neg hready, hfalse, hup]
        cases hnext : (s.procs i).next with
        | none =>
            rw [State.nexts, hnext] at hl
            rw [hl.eq_nil]
            rfl
        | some j =>
            rw [State.nexts, hnext] at hl ih
            obtain ⟨t, rfl, -⟩ := hl.exists_tail
            rw [if_neg (by simp)]
            exact ih (by simp) (by simpa using hfuel)

/-- The walk stops when it comes to `up`, which it considers last. -/
theorem nextProcLoop_to_up {s : State} {u : ProcRef} {l rest : List ProcRef}
    {p : Option ProcRef} (h : Seg s.nexts p (l ++ u :: rest)) (hne : l ≠ [])
    (hup : s.up = some u) {fuel : ℕ} (hfuel : l.length ≤ fuel) :
    nextProcLoop s fuel p = .ok ((l ++ [u]).find? s.isReady) := by
  induction l generalizing p fuel with
  | nil => exact absurd rfl hne
  | cons i l ih =>
      have hnodup := h.nodup
      obtain ⟨m, rfl⟩ : ∃ m, fuel = m + 1 := ⟨fuel - 1, by simp at hfuel; omega⟩
      cases h with
      | cons hl =>
          simp only [nextProcLoop, List.cons_append, List.find?_cons]
          by_cases hready : (s.procs i).state = .ready
          · simp [State.isReady, hready]
          · have hfalse : s.isReady i = false := decide_eq_false hready
            rw [if_neg hready, hfalse, hup]
            cases l with
            | nil =>
                have hnext : (s.procs i).next = some u := hl.head_eq
                rw [if_pos hnext, hnext, readyOrNil_some]
                rfl
            | cons j l =>
                -- the next node is not `up`, or `up` would occur twice
                have hju : j ≠ u := by
                  rintro rfl
                  simp at hnodup
                have hnext : (s.procs i).next = some j := hl.head_eq
                rw [if_neg (by simp [hnext, hju])]
                exact ih hl (by simp) (by simpa using hfuel)

/-- Behind `up` the walk either finds a ready process or comes to nil. -/
theorem nextProcLoop_past {s : State} {u : ProcRef} {l : List ProcRef}
    {p : Option ProcRef} (h : Seg s.nexts p l) (hup : s.up = some u) (hu : u ∉ l)
    (fuel : ℕ) :
    nextProcLoop s (l.length + fuel) p =
      match l.find? s.isReady with
      | some q => .ok (some q)
      | none => nextProcLoop s fuel none := by
  induction h with
  | nil => simp
  | @cons i l hl ih =>
      rw [List.mem_cons, not_or] at hu
      rw [List.length_cons, Nat.add_right_comm, nextProcLoop, List.find?_cons]
      by_cases hready : (s.procs i).state = .ready
      · simp [State.isReady, hready]
      · have hfalse : s.isReady i = false := decide_eq_false hready
        rw [if_neg hready, hfalse]
        have hnext : (s.procs i).next ≠ s.up := by
          rw [hup]
          intro heq
          rw [State.nexts, heq] at hl
          obtain ⟨t, ht, -⟩ := hl.exists_tail
          exact hu.2 (ht ▸ List.mem_cons_self ..)
        rw [if_neg hnext]
        exact ih hu.2

/-- The alive processes in the order `next_proc` considers them: those behind `up`, then those
from the head up to `up` itself. -/
def rotation (nodes : List ProcRef) : Option ProcRef → List ProcRef
  | none => nodes
  | some u => nodes.drop (nodes.idxOf u + 1) ++ nodes.take (nodes.idxOf u + 1)

theorem mem_rotation {nodes : List ProcRef} {up : Option ProcRef} {q : ProcRef} :
    q ∈ rotation nodes up ↔ q ∈ nodes := by
  cases up with
  | none => rfl
  | some u =>
      simp only [rotation, List.mem_append]
      rw [or_comm, ← List.mem_append, List.take_append_drop]

theorem rotation_split {pre post : List ProcRef} {u : ProcRef}
    (h : (pre ++ u :: post).Nodup) :
    rotation (pre ++ u :: post) (some u) = post ++ (pre ++ [u]) := by
  have hu : u ∉ pre := fun hmem => by
    rw [List.nodup_middle, List.nodup_cons] at h
    exact h.1 (List.mem_append_left _ hmem)
  have hidx : (pre ++ u :: post).idxOf u = pre.length := by
    rw [List.idxOf_append_of_notMem hu, List.idxOf_cons_self, Nat.add_zero]
  rw [rotation, hidx]
  have hsplit : pre ++ u :: post = (pre ++ [u]) ++ post := by simp
  rw [hsplit, List.drop_left' (by simp), List.take_left' (by simp)]

/-- **`next_proc` is total on a well-formed list**, and its result is the first ready process
in rotation order.  `hup` is needed: the walk stops at `up`, and would go round for ever if
that were not on the list. -/
theorem nextProc_eq {s : State} {nodes : List ProcRef} (h : Seg s.nexts s.alive nodes)
    (hup : ∀ u, s.up = some u → u ∈ nodes) :
    nextProc s = .ok ((rotation nodes s.up).find? s.isReady) := by
  have hlen : nodes.length ≤ maxProcs := by
    simpa using h.nodup.length_le_card
  cases halive : s.alive with
  | none =>
      rw [halive] at h
      have hnil := h.eq_nil
      have hrot : rotation nodes s.up = [] :=
        List.eq_nil_iff_forall_not_mem.mpr fun q hq => by
          rw [mem_rotation, hnil] at hq
          simp at hq
      simp [nextProc, halive, hrot]
  | some a =>
      rw [halive] at h
      have hne : nodes ≠ [] := by
        obtain ⟨t, rfl, -⟩ := h.exists_tail
        simp
      cases hu : s.up with
      | none =>
          simp only [nextProc, halive, hu, rotation]
          exact nextProcLoop_to_nil h hne hu (by omega)
      | some u =>
          obtain ⟨pre, post, hsplit⟩ := List.append_of_mem (hup u hu)
          have hnodup := h.nodup
          rw [hsplit] at h hnodup
          simp only [nextProc, halive, hu]
          rw [hsplit, rotation_split hnodup, List.find?_append]
          -- first the processes behind `up`
          have hpost : Seg s.nexts (s.procs u).next post := h.suffix
          have hnotMem : u ∉ post := by
            rw [List.nodup_middle, List.nodup_cons] at hnodup
            exact fun hmem => hnodup.1 (List.mem_append_right _ hmem)
          have hplen : post.length ≤ maxProcs := by
            rw [hsplit] at hlen
            simp at hlen
            omega
          obtain ⟨m, hm⟩ : ∃ m, 2 * maxProcs + 2 = post.length + (m + 1) :=
            ⟨2 * maxProcs + 1 - post.length, by omega⟩
          rw [hm, nextProcLoop_past hpost hu hnotMem]
          cases hfind : post.find? s.isReady with
          | some q => simp
          | none =>
              -- then those from the head of the list on
              simp only [nextProcLoop, Option.none_or]
              cases pre with
              | nil =>
                  have hau : some a = some u := h.head_eq
                  rw [halive, hu, if_pos hau, hau, readyOrNil_some]
                  rfl
              | cons i pre =>
                  have hai : some a = some i := h.head_eq
                  have hau : a ≠ u := by
                    rintro rfl
                    rw [Option.some.injEq] at hai
                    simp [hai] at hnodup
                  rw [halive, hu, if_neg (by simp [hau])]
                  refine nextProcLoop_to_up h (by simp) hu ?_
                  rw [hsplit] at hlen
                  simp at hlen hm ⊢
                  omega

/-! ## The context switch -/

/-- What `schedule` makes of the state of the process it suspends. -/
def savedState (st : ProcState) : ProcState :=
  if st = .oncpu then .ready else st

theorem saveLabel_procs (s : State) (k : Label) (p : ProcRef) :
    (saveLabel s k).procs p =
      { s.procs p with
        label := if s.up = some p then k else (s.procs p).label
        state :=
          if s.up = some p then savedState (s.procs p).state else (s.procs p).state } := by
  unfold saveLabel
  cases hup : s.up with
  | none => simp
  | some u =>
      by_cases hp : p = u
      · subst hp
        simp [savedState]
      · have hne : some u ≠ some p := fun heq => hp (Option.some.inj heq).symm
        rw [if_neg hne, if_neg hne]
        exact State.modifyProc_procs_of_ne hp _

theorem saveLabel_eq (s : State) (k : Label) :
    saveLabel s k =
      { s with
        procs := fun p =>
          { s.procs p with
            label := if s.up = some p then k else (s.procs p).label
            state :=
              if s.up = some p then savedState (s.procs p).state
              else (s.procs p).state } } := by
  have hglobal : saveLabel s k = { s with procs := (saveLabel s k).procs } := by
    unfold saveLabel
    split <;> rfl
  rw [hglobal]
  congr 1
  funext p
  exact saveLabel_procs s k p

namespace State

/-- The state `schedule` leaves when it switches to `r`, or to nobody.  The label saved is
that of the running process, if there is one. -/
def switchFrom (s : State) (k : Label) (r : Option ProcRef) : State :=
  switchTo (saveLabel s k) r

variable (s : State) (k : Label) (r : Option ProcRef)

/-- Only the labels and states of the two processes, `up` and the control
change. -/
theorem switchFrom_eq :
    s.switchFrom k r =
      { s with
        procs := fun p =>
          { s.procs p with
            label := if s.up = some p then k else (s.procs p).label
            state :=
              if r = some p then .oncpu
              else if s.up = some p then savedState (s.procs p).state
              else (s.procs p).state }
        up := r
        control := if r = none then .idle else .resume } := by
  unfold switchFrom
  rw [saveLabel_eq]
  cases r with
  | none => rfl
  | some q =>
      simp only [switchTo, modifyProc]
      congr 1
      funext p
      by_cases hp : p = q
      · subst hp
        simp
      · have hne : some q ≠ some p := fun heq => hp (Option.some.inj heq).symm
        rw [Function.update_of_ne hp, if_neg hne]

@[simp] theorem switchFrom_pid (p) :
    ((s.switchFrom k r).procs p).pid = (s.procs p).pid := by
  rw [switchFrom_eq]

@[simp] theorem switchFrom_next (p) :
    ((s.switchFrom k r).procs p).next = (s.procs p).next := by
  rw [switchFrom_eq]

@[simp] theorem switchFrom_page (p) :
    ((s.switchFrom k r).procs p).page = (s.procs p).page := by
  rw [switchFrom_eq]

@[simp] theorem switchFrom_waitingOn (p) :
    ((s.switchFrom k r).procs p).waitingOn = (s.procs p).waitingOn := by
  rw [switchFrom_eq]

@[simp] theorem switchFrom_waiting (p) :
    ((s.switchFrom k r).procs p).waiting = (s.procs p).waiting := by
  rw [switchFrom_eq]

/-- The saved label is that of the running process. -/
theorem switchFrom_label (p) :
    ((s.switchFrom k r).procs p).label = if s.up = some p then k else (s.procs p).label := by
  rw [switchFrom_eq]

/-- The process switched to is on the CPU, and the one switched from is not. -/
theorem switchFrom_state (p) :
    ((s.switchFrom k r).procs p).state =
      if r = some p then .oncpu
      else if s.up = some p then savedState (s.procs p).state
      else (s.procs p).state := by
  rw [switchFrom_eq]

/-- A switch neither makes nor unmakes a state other than ready and oncpu. -/
theorem switchFrom_state_iff {st : ProcState} (hready : st ≠ .ready) (honcpu : st ≠ .oncpu)
    (p) : ((s.switchFrom k r).procs p).state = st ↔
      r ≠ some p ∧ (s.procs p).state = st := by
  rw [switchFrom_state]
  rcases eq_or_ne r (some p) with hp | hp
  · rw [if_pos hp]
    exact iff_of_false (Ne.symm honcpu) fun hne => hne.1 hp
  · rw [if_neg hp, savedState]
    split_ifs with hu hon
    · refine iff_of_false (Ne.symm hready) ?_
      rintro ⟨-, rfl⟩
      exact honcpu hon
    · simp [hp]
    · simp [hp]

@[simp] theorem switchFrom_up : (s.switchFrom k r).up = r := by
  rw [switchFrom_eq]

@[simp] theorem switchFrom_control :
    (s.switchFrom k r).control = if r = none then .idle else .resume := by
  rw [switchFrom_eq]

@[simp] theorem switchFrom_alive : (s.switchFrom k r).alive = s.alive := by
  rw [switchFrom_eq]

@[simp] theorem switchFrom_nextpid : (s.switchFrom k r).nextpid = s.nextpid := by
  rw [switchFrom_eq]

@[simp] theorem switchFrom_lists : (s.switchFrom k r).lists = s.lists := by
  rw [switchFrom_eq]

@[simp] theorem switchFrom_pages : (s.switchFrom k r).pages = s.pages := by
  rw [switchFrom_eq]

@[simp] theorem switchFrom_pageOf (p) : (s.switchFrom k r).pageOf p = s.pageOf p := by
  rw [switchFrom_eq]
  rfl

end State

/-- `schedule` with a process to switch to. -/
theorem schedule_some (s : State) (k : Label) (q : ProcRef) :
    schedule s k (some q) =
      .ok (s.switchFrom k (some q), [.scheduled (some (q, (s.procs q).state))]) := rfl

/-- `schedule(nil)` switches to the first ready process in rotation order, the one it
suspends among them. -/
theorem schedule_rotation {s : State} {nodes : List ProcRef}
    (h : Seg s.nexts s.alive nodes) (hup : ∀ u, s.up = some u → u ∈ nodes) (k : Label) :
    schedule s k none =
      .ok (s.switchFrom k ((rotation nodes s.up).find? (saveLabel s k).isReady),
        [.scheduled none]) := by
  have hsaved : Seg (saveLabel s k).nexts (saveLabel s k).alive nodes := by
    rw [saveLabel_eq]
    exact h
  have hupSaved : (saveLabel s k).up = s.up := by rw [saveLabel_eq]
  have hnext := nextProc_eq hsaved fun u hu => hup u (by rwa [hupSaved] at hu)
  rw [hupSaved] at hnext
  simp only [schedule, hnext]
  rfl

/-- `schedule(nil)` switches to a ready process of the list, and to none only if there is
none.  The process that is suspended is considered, too, if it has become ready. -/
theorem schedule_none {s : State} {nodes : List ProcRef}
    (h : Seg s.nexts s.alive nodes) (hup : ∀ u, s.up = some u → u ∈ nodes) (k : Label) :
    ∃ r, schedule s k none = .ok (s.switchFrom k r, [.scheduled none]) ∧
      (∀ q, r = some q → q ∈ nodes ∧ ((saveLabel s k).procs q).state = .ready) ∧
      (r = none → ∀ q ∈ nodes, ((saveLabel s k).procs q).state ≠ .ready) := by
  refine ⟨_, schedule_rotation h hup k, ?_, ?_⟩
  · intro q hq
    refine ⟨mem_rotation.mp (List.mem_of_find?_eq_some hq), ?_⟩
    simpa using List.find?_some hq
  · intro hnone q hq
    have hall := List.find?_eq_none.mp hnone q (mem_rotation.mpr hq)
    simpa using hall

/-! ## The list of alive processes -/

namespace State

/-- `s` with another list of alive processes. -/
def withAlive (s : State) (alive : Option ProcRef) (nexts : ProcRef → Option ProcRef) :
    State :=
  { s with
    alive := alive
    procs := fun p => { s.procs p with next := nexts p } }

/-- Storing a `next` pointer changes the list only. -/
theorem modifyProc_next (s : State) (p : ProcRef) (v : Option ProcRef) :
    (s.modifyProc p fun q => { q with next := v }) =
      s.withAlive s.alive (Function.update s.nexts p v) := by
  unfold modifyProc withAlive
  congr 1
  funext q
  by_cases hq : q = p
  · subst hq
    simp
  · simp [Function.update_of_ne hq]

end State

/-- **`add_to_list_back` appends** a process that is not on the list.  For one that is, the
list would become a circle. -/
theorem addToListBack_spec {s : State} {nodes : List ProcRef}
    (h : Seg s.nexts s.alive nodes) {p : ProcRef} (hp : p ∉ nodes) :
    ∃ alive nexts, addToListBack s p = .ok (s.withAlive alive nexts) ∧
      Seg nexts alive (nodes ++ [p]) := by
  have hlen : nodes.length ≤ maxProcs := by
    simpa using List.Nodup.length_le_card h.nodup
  have hseg : Seg (Function.update s.nexts p none) s.alive nodes :=
    h.update_of_notMem hp none
  have hlast : lastNode (fun q =>
        ((s.withAlive s.alive (Function.update s.nexts p none)).procs q).next) (maxProcs + 1)
      (s.withAlive s.alive (Function.update s.nexts p none)).alive = some nodes.getLast? :=
    lastNode_eq hseg (Nat.lt_succ_of_le hlen)
  unfold addToListBack
  simp only [State.modifyProc_next, hlast]
  cases hend : nodes.getLast? with
  | none =>
      obtain rfl := List.getLast?_eq_none_iff.mp hend
      refine ⟨some p, Function.update s.nexts p none, rfl, ?_⟩
      · refine .cons ?_
        rw [Function.update_self]
        exact .nil
  | some q =>
      refine ⟨s.alive, Function.update (Function.update s.nexts p none) q (some p), rfl, ?_⟩
      · exact hseg.push hend hp (Function.update_self ..)

end Omb
