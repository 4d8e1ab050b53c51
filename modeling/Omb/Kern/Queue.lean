import Omb.Kern.Proc
import Mathlib.Data.Fintype.Card

/-!
# The wait queues as lists of processes

`procListAdd` and `procListRemove` work on nodes of a shared pool that are linked into the
queues of all processes.  `QueueRep s nodes Q` says that in state `s` the queue of `p` is the
list of processes `Q p`, held by the nodes `nodes p`, and that no other node of the pool is in
use.

Through it the two operations become operations on `Q`: append at the back
(`procListAdd_spec`), and taking out the entry `findEntry` stops at (`procListRemove_spec`).
Neither changes anything of the state but the nodes and the head pointers
(`State.withQueues`).

The pool has `MAX_PROC_LISTS` nodes for all processes, and `proc_list_add` fails when there is
none left.  It never is as long as no process is queued twice, since there are more nodes than
processes (`exists_freeSlot`).  That is an invariant of the kernel and not of the queues, so
it is a hypothesis here.

## Main results

* `QueueRep.exists_freeSlot`: the pool is large enough
* `procListAdd_spec`: `proc_list_add` appends
* `procListRemove_spec`: `proc_list_remove` takes out the entry its walk stops at
-/

namespace Omb

open PointerList

namespace State

/-- `s` with other pool nodes and other queue heads.  This is all that an operation on a queue
can change. -/
def withQueues (s : State) (lists : ListRef → ProcList)
    (waiting : ProcRef → Option ListRef) : State :=
  { s with
    lists := lists
    procs := fun p => { s.procs p with waiting := waiting p } }

variable (s : State) (lists : ListRef → ProcList) (waiting : ProcRef → Option ListRef)

@[simp] theorem withQueues_state (p) :
    ((s.withQueues lists waiting).procs p).state = (s.procs p).state := rfl
@[simp] theorem withQueues_label (p) :
    ((s.withQueues lists waiting).procs p).label = (s.procs p).label := rfl
@[simp] theorem withQueues_pid (p) :
    ((s.withQueues lists waiting).procs p).pid = (s.procs p).pid := rfl
@[simp] theorem withQueues_next (p) :
    ((s.withQueues lists waiting).procs p).next = (s.procs p).next := rfl
@[simp] theorem withQueues_page (p) :
    ((s.withQueues lists waiting).procs p).page = (s.procs p).page := rfl
@[simp] theorem withQueues_waitingOn (p) :
    ((s.withQueues lists waiting).procs p).waitingOn = (s.procs p).waitingOn := rfl
@[simp] theorem withQueues_waiting (p) :
    ((s.withQueues lists waiting).procs p).waiting = waiting p := rfl
@[simp] theorem withQueues_lists : (s.withQueues lists waiting).lists = lists := rfl
@[simp] theorem withQueues_alive : (s.withQueues lists waiting).alive = s.alive := rfl
@[simp] theorem withQueues_up : (s.withQueues lists waiting).up = s.up := rfl
@[simp] theorem withQueues_nextpid : (s.withQueues lists waiting).nextpid = s.nextpid := rfl
@[simp] theorem withQueues_pages : (s.withQueues lists waiting).pages = s.pages := rfl
@[simp] theorem withQueues_control : (s.withQueues lists waiting).control = s.control := rfl
@[simp] theorem withQueues_pageOf (p) :
    (s.withQueues lists waiting).pageOf p = s.pageOf p := rfl

variable {s}

/-- Changing one head only. -/
theorem withQueues_modifyProc (l : ProcRef) (h : Option ListRef) :
    (s.modifyProc l fun q => { q with waiting := h }) =
      s.withQueues s.lists (Function.update (fun p => (s.procs p).waiting) l h) := by
  unfold modifyProc withQueues
  congr 1
  funext p
  by_cases hp : p = l
  · subst hp
    simp
  · simp [Function.update_of_ne hp]

end State

/-- The queues `Q`, held by the nodes `nodes`, are the ones linked in `s`.  Nodes that are in
no queue are free, so that nothing is lost from the pool. -/
structure QueueRep (s : State) (nodes : ProcRef → List ListRef)
    (Q : ProcRef → List ProcRef) : Prop where
  /-- The queues are finite, acyclic and share no node. -/
  family : Family (fun i => (s.lists i).next) (fun p => (s.procs p).waiting) nodes
  /-- A node is in use exactly when it is linked in a queue. -/
  used : ∀ i, (s.lists i).proc ≠ none ↔ ∃ p, i ∈ nodes p
  /-- The nodes hold the processes of the queue, in order. -/
  entries : ∀ p, (nodes p).map (fun i => (s.lists i).proc) = (Q p).map some

namespace QueueRep

variable {s : State} {nodes : ProcRef → List ListRef} {Q : ProcRef → List ProcRef}

/-- Only nodes and head pointers matter. -/
theorem congr (h : QueueRep s nodes Q) {s' : State} (hlists : s'.lists = s.lists)
    (hwaiting : ∀ p, (s'.procs p).waiting = (s.procs p).waiting) :
    QueueRep s' nodes Q := by
  have hheads : (fun p => (s'.procs p).waiting) = fun p => (s.procs p).waiting :=
    funext hwaiting
  refine ⟨?_, ?_, ?_⟩
  · rw [hheads, hlists]
    exact h.family
  · rw [hlists]
    exact h.used
  · rw [hlists]
    exact h.entries

theorem length_eq (h : QueueRep s nodes Q) (p : ProcRef) :
    (nodes p).length = (Q p).length := by
  simpa using congrArg List.length (h.entries p)

theorem nodes_eq_nil_iff (h : QueueRep s nodes Q) (p : ProcRef) :
    nodes p = [] ↔ Q p = [] := by
  rw [← List.length_eq_zero_iff, ← List.length_eq_zero_iff, h.length_eq p]

/-- The process in a linked node is in the queue. -/
theorem mem_of_node (h : QueueRep s nodes Q) {p w : ProcRef} {i : ListRef}
    (hi : i ∈ nodes p) (hw : (s.lists i).proc = some w) : w ∈ Q p := by
  have hmem : some w ∈ (nodes p).map fun i => (s.lists i).proc :=
    List.mem_map.mpr ⟨i, hi, hw⟩
  rw [h.entries p] at hmem
  simpa using hmem

/-- A process in the queue is in a linked node. -/
theorem node_of_mem (h : QueueRep s nodes Q) {p w : ProcRef} (hw : w ∈ Q p) :
    ∃ i ∈ nodes p, (s.lists i).proc = some w := by
  have hmem : some w ∈ (Q p).map some := List.mem_map.mpr ⟨w, hw, rfl⟩
  rw [← h.entries p] at hmem
  simpa using hmem

/-- A queue has no more entries than the pool has nodes. -/
theorem length_le (h : QueueRep s nodes Q) (p : ProcRef) :
    (nodes p).length ≤ maxProcLists := by
  simpa using (h.family.seg p).nodup.length_le_card

/-- Queues that hold each process once, and in one queue only, never hold two
nodes with the same process. -/
theorem proc_injective (h : QueueRep s nodes Q) (hnodup : ∀ p, (Q p).Nodup)
    (hone : ∀ p p' w, w ∈ Q p → w ∈ Q p' → p = p') {i j : ListRef} {w : ProcRef}
    (hi : (s.lists i).proc = some w) (hj : (s.lists j).proc = some w) : i = j := by
  obtain ⟨p, hip⟩ := (h.used i).mp (by simp [hi])
  obtain ⟨p', hjp⟩ := (h.used j).mp (by simp [hj])
  obtain rfl := hone p p' w (h.mem_of_node hip hi) (h.mem_of_node hjp hj)
  have hmap : ((nodes p).map fun i => (s.lists i).proc).Nodup := by
    rw [h.entries p]
    exact (hnodup p).map (Option.some_injective _)
  exact List.inj_on_of_nodup_map hmap hip hjp (hi.trans hj.symm)

/-- **The pool is large enough.**  As long as no process is queued twice, a slot is free: the
slots in use hold different processes, and there are more slots than processes. -/
theorem exists_freeSlot (h : QueueRep s nodes Q) (hnodup : ∀ p, (Q p).Nodup)
    (hone : ∀ p p' w, w ∈ Q p → w ∈ Q p' → p = p') :
    ∃ n, freeSlot s = some n := by
  cases hfree : freeSlot s with
  | some n => exact ⟨n, rfl⟩
  | none =>
      exfalso
      have hall : ∀ i : ListRef, ∃ w, (s.lists i).proc = some w := fun i =>
        Option.ne_none_iff_exists'.mp (scan_none hfree (by simp) i (Nat.zero_le _))
      choose w hw using hall
      have hinj : Function.Injective w := fun i j hij =>
        h.proc_injective hnodup hone (hw i) (hij ▸ hw j)
      have hcard := Fintype.card_le_of_injective w hinj
      simp [maxProcLists, maxProcs] at hcard

end QueueRep

theorem freeSlot_proc {s : State} {n : ListRef} (h : freeSlot s = some n) :
    (s.lists n).proc = none :=
  scan_some h

/-! ## Adding -/

/-- Linking a claimed slot `n` behind the queue of `l` appends it to the nodes of
that queue and changes no node's process. -/
theorem linkEntry_spec {s : State} {nodes : ProcRef → List ListRef} {l : ProcRef}
    {n : ListRef}
    (hfam : Family (fun i => (s.lists i).next) (fun p => (s.procs p).waiting) nodes)
    (hn : ∀ p, n ∉ nodes p) (hnil : (s.lists n).next = none) :
    ∃ lists waiting, linkEntry s l n = .ok (s.withQueues lists waiting) ∧
      Family (fun i => (lists i).next) waiting
        (Function.update nodes l (nodes l ++ [n])) ∧
      ∀ i, (lists i).proc = (s.lists i).proc := by
  have hlength : (nodes l).length ≤ maxProcLists := by
    simpa using (hfam.seg l).nodup.length_le_card
  have hlast := lastNode_eq (hfam.seg l) (Nat.lt_succ_of_le hlength)
  cases hend : (nodes l).getLast? with
  | none =>
      -- the queue is empty: its head moves
      rw [hend] at hlast
      refine ⟨s.lists, Function.update (fun p => (s.procs p).waiting) l (some n), ?_, ?_, ?_⟩
      · rw [linkEntry, hlast]
        exact congrArg Except.ok (State.withQueues_modifyProc l (some n))
      · exact hfam.push_empty (List.getLast?_eq_none_iff.mp hend) hn hnil
      · exact fun i => rfl
  | some j =>
      -- the last node gets the new one for its successor
      rw [hend] at hlast
      refine ⟨(s.modifyList j fun e => { e with next := some n }).lists,
        fun p => (s.procs p).waiting, ?_, ?_, ?_⟩
      · rw [linkEntry, hlast]
        rfl
      · rw [State.modifyList_next]
        exact hfam.push_last hend hn hnil
      · exact fun i => State.modifyList_field ProcList.proc rfl i

/-- **`proc_list_add` appends**, given a free slot.  The new nodes and heads hold the queues
with `p` at the back of that of `l`, and the others as they were. -/
theorem procListAdd_spec {s : State} {nodes : ProcRef → List ListRef}
    {Q : ProcRef → List ProcRef} (h : QueueRep s nodes Q) {l p : ProcRef}
    {n : ListRef} (hfree : freeSlot s = some n) :
    ∃ lists waiting, procListAdd s l p = .ok (some (s.withQueues lists waiting)) ∧
      QueueRep (s.withQueues lists waiting)
        (Function.update nodes l (nodes l ++ [n]))
        (Function.update Q l (Q l ++ [p])) := by
  have hn : ∀ k, n ∉ nodes k := fun k hk =>
    (h.used n).mpr ⟨k, hk⟩ (freeSlot_proc hfree)
  -- the claimed slot holds `p`, and its pointer is nil
  let s₁ := s.modifyList n fun _ => { proc := some p, next := none }
  have hother : ∀ i, i ≠ n → s₁.lists i = s.lists i := fun i hi =>
    State.modifyList_lists_of_ne hi _
  have hself : s₁.lists n = { proc := some p, next := none } :=
    State.modifyList_lists_self _ _
  have hfam : Family (fun i => (s₁.lists i).next) (fun q => (s₁.procs q).waiting) nodes :=
    h.family.congr fun k i hi => by
      simp only [hother i (ne_of_mem_of_not_mem hi (hn k))]
  obtain ⟨lists, waiting, hlink, hfam', hproc⟩ :=
    linkEntry_spec (l := l) hfam hn (by rw [hself])
  refine ⟨lists, waiting, ?_, hfam', ?_, ?_⟩
  · rw [procListAdd, hfree]
    exact congrArg (Except.map some) hlink
  · intro i
    rw [State.withQueues_lists, hproc i]
    by_cases hi : i = n
    · subst hi
      exact iff_of_true (by simp [hself]) ⟨l, by simp⟩
    · rw [hother i hi, h.used i]
      refine exists_congr fun k => ?_
      by_cases hk : k = l
      · subst hk
        simp [hi]
      · rw [Function.update_of_ne hk]
  · intro k
    simp only [State.withQueues_lists, hproc]
    have hold : (nodes k).map (fun i => (s₁.lists i).proc) = (Q k).map some := by
      rw [← h.entries k]
      refine List.map_congr_left fun i hi => ?_
      rw [hother i (ne_of_mem_of_not_mem hi (hn k))]
    by_cases hk : k = l
    · subst hk
      simp [hold, hself]
    · rw [Function.update_of_ne hk, Function.update_of_ne hk, hold]

/-! ## Removing -/

/-- The entry a walk for `P` stops at: the first one with `P`, else the last.  The list is not
empty then. -/
def StopsAt (P : ProcRef → Prop) (pre : List ProcRef) (w : ProcRef)
    (post : List ProcRef) : Prop :=
  (∀ x ∈ pre, ¬ P x) ∧ (P w ∨ post = [])

/-- The walk of `proc_list_remove` stops at a node, with the node before it. -/
theorem findEntry_spec {s : State} {pid : Word} {head : Option ListRef}
    {ns : List ListRef} {q : List ProcRef}
    (hseg : Seg (fun i => (s.lists i).next) head ns)
    (hentries : ns.map (fun i => (s.lists i).proc) = q.map some) (hne : ns ≠ [])
    {fuel : ℕ} (hfuel : ns.length < fuel) (prev : Option ListRef) :
    ∃ npre n npost qpre w qpost, ns = npre ++ n :: npost ∧ q = qpre ++ w :: qpost ∧
      npre.length = qpre.length ∧
      StopsAt (fun x => (s.procs x).pid = pid) qpre w qpost ∧
      findEntry s pid fuel prev head = .ok (some (npre.getLast?.or prev, n, w)) := by
  induction hseg generalizing q fuel prev with
  | nil => exact absurd rfl hne
  | @cons n ns hseg ih =>
      obtain ⟨m, rfl⟩ : ∃ m, fuel = m + 1 := ⟨fuel - 1, by omega⟩
      cases q with
      | nil => simp at hentries
      | cons w q =>
          simp only [List.map_cons, List.cons.injEq] at hentries
          obtain ⟨hw, hrest⟩ := hentries
          simp only [findEntry, hw]
          by_cases hpid : (s.procs w).pid = pid
          · refine ⟨[], n, ns, [], w, q, rfl, rfl, rfl, ⟨by simp, .inl hpid⟩, ?_⟩
            rw [if_pos hpid]
            rfl
          · rw [if_neg hpid]
            cases hnext : (s.lists n).next with
            | none =>
                -- nothing behind this node: it is taken though it does not match
                rw [hnext] at hseg
                obtain rfl := hseg.eq_nil
                obtain rfl : q = [] := by simpa using hrest.symm
                exact ⟨[], n, [], [], w, [], rfl, rfl, rfl, ⟨by simp, .inr rfl⟩, rfl⟩
            | some m' =>
                rw [hnext] at hseg ih
                obtain ⟨t, rfl, -⟩ := hseg.exists_tail
                simp only [List.length_cons] at hfuel
                obtain ⟨npre, n', npost, qpre, w', qpost, hns, hq, hlen, hstop, hfind⟩ :=
                  @ih q hrest (by simp) m (by simp; omega) (some n)
                refine ⟨n :: npre, n', npost, w :: qpre, w', qpost, by rw [hns]; rfl,
                  by rw [hq]; rfl, by simp [hlen], ⟨?_, hstop.2⟩, ?_⟩
                · intro x hx
                  rcases List.mem_cons.mp hx with rfl | hx
                  · exact hpid
                  · exact hstop.1 x hx
                · change findEntry s pid m (some n) (some m') = _
                  rw [hfind, List.getLast?_cons]
                  cases npre.getLast? <;> rfl

/-- Unlinking the node `n` of queue `l` takes it out of the nodes of that queue,
and clears the process of that node only. -/
theorem unlinkEntry_spec {s : State} {nodes : ProcRef → List ListRef} {l : ProcRef}
    {n : ListRef} {npre npost : List ListRef}
    (hfam : Family (fun i => (s.lists i).next) (fun p => (s.procs p).waiting) nodes)
    (hl : nodes l = npre ++ n :: npost) :
    ∃ lists waiting, unlinkEntry s l npre.getLast? n = s.withQueues lists waiting ∧
      Family (fun i => (lists i).next) waiting (Function.update nodes l (npre ++ npost)) ∧
      ∀ i, (lists i).proc = if i = n then none else (s.lists i).proc := by
  have hclear : ∀ (s' : State), (fun i =>
      ((s'.modifyList n fun e => { e with proc := none }).lists i).next)
      = fun i => (s'.lists i).next := fun s' =>
    funext fun i => State.modifyList_field ProcList.next rfl i
  cases hprev : npre.getLast? with
  | none =>
      obtain rfl := List.getLast?_eq_none_iff.mp hprev
      refine ⟨(s.modifyList n fun e => { e with proc := none }).lists,
        Function.update (fun p => (s.procs p).waiting) l (s.lists n).next, ?_, ?_, ?_⟩
      · simp only [unlinkEntry]
        rw [State.withQueues_modifyProc l (s.lists n).next]
        rfl
      · rw [hclear s]
        exact hfam.unlink_head hl
      · intro i
        by_cases hi : i = n
        · subst hi
          simp
        · rw [State.modifyList_lists_of_ne hi, if_neg hi]
  | some j =>
      let s₁ := s.modifyList j fun e => { e with next := (s.lists n).next }
      refine ⟨(s₁.modifyList n fun e => { e with proc := none }).lists,
        fun p => (s.procs p).waiting, rfl, ?_, ?_⟩
      · rw [hclear s₁, State.modifyList_next]
        exact hfam.unlink_after hl hprev
      · intro i
        have hj : (s₁.lists i).proc = (s.lists i).proc :=
          State.modifyList_field ProcList.proc rfl i
        by_cases hi : i = n
        · subst hi
          simp
        · rw [State.modifyList_lists_of_ne hi, if_neg hi, hj]

/-- `proc_list_remove` on an empty queue finds nothing. -/
theorem procListRemove_nil {s : State} {nodes : ProcRef → List ListRef}
    {Q : ProcRef → List ProcRef} (h : QueueRep s nodes Q) {l : ProcRef}
    (hempty : Q l = []) (pid : Word) : procListRemove s l pid = .ok none := by
  have hhead : (s.procs l).waiting = none :=
    (h.family.seg l).head_none_iff.mpr ((h.nodes_eq_nil_iff l).mpr hempty)
  simp [procListRemove, findEntry, hhead]

/-- **`proc_list_remove` takes out the entry its walk stops at**, and it finds one in every
queue that is not empty, whether or not a process in it has the pid. -/
theorem procListRemove_spec {s : State} {nodes : ProcRef → List ListRef}
    {Q : ProcRef → List ProcRef} (h : QueueRep s nodes Q) {l : ProcRef} (hne : Q l ≠ [])
    (pid : Word) :
    ∃ pre w post lists waiting nodes', Q l = pre ++ w :: post ∧
      StopsAt (fun x => (s.procs x).pid = pid) pre w post ∧
      procListRemove s l pid = .ok (some (w, s.withQueues lists waiting)) ∧
      QueueRep (s.withQueues lists waiting) nodes' (Function.update Q l (pre ++ post)) := by
  have hnodes : nodes l ≠ [] := fun hnil => hne ((h.nodes_eq_nil_iff l).mp hnil)
  obtain ⟨npre, n, npost, pre, w, post, hns, hq, hlen, hstop, hfind⟩ :=
    findEntry_spec (h.family.seg l) (h.entries l) hnodes
      (Nat.lt_succ_of_le (h.length_le l)) none
  obtain ⟨lists, waiting, hunlink, hfam, hproc⟩ := unlinkEntry_spec h.family hns
  -- the split of the nodes is the split of the queue
  have hsplit := h.entries l
  rw [hns, hq, List.map_append, List.map_append] at hsplit
  obtain ⟨hpre, hcons⟩ := List.append_inj hsplit (by simpa using hlen)
  rw [List.map_cons, List.map_cons, List.cons.injEq] at hcons
  have hn : ∀ k, ∀ i ∈ Function.update nodes l (npre ++ npost) k, i ≠ n := by
    rintro k i hi rfl
    have hmem : i ∈ nodes l := by
      rw [hns]
      simp
    by_cases hk : k = l
    · subst hk
      rw [Function.update_self] at hi
      have hdup := (h.family.seg k).nodup
      rw [hns, List.nodup_middle, List.nodup_cons] at hdup
      exact hdup.1 hi
    · rw [Function.update_of_ne hk] at hi
      exact hk (h.family.disjoint k l i hi hmem)
  refine ⟨pre, w, post, lists, waiting, _, hq, hstop, ?_, hfam, ?_, ?_⟩
  · rw [procListRemove, hfind]
    simp only [Option.or_none]
    rw [hunlink]
  · intro i
    rw [State.withQueues_lists, hproc i]
    by_cases hi : i = n
    · subst hi
      refine iff_of_false (by simp) ?_
      rintro ⟨k, hk⟩
      exact hn k i hk rfl
    · rw [if_neg hi, h.used i]
      refine exists_congr fun k => ?_
      by_cases hk : k = l
      · subst hk
        rw [Function.update_self, hns]
        simp [hi]
      · rw [Function.update_of_ne hk]
  · intro k
    have hold : (Function.update nodes l (npre ++ npost) k).map
        (fun i => ((s.withQueues lists waiting).lists i).proc) =
        (Function.update nodes l (npre ++ npost) k).map (fun i => (s.lists i).proc) := by
      refine List.map_congr_left fun i hi => ?_
      rw [State.withQueues_lists, hproc i, if_neg (hn k i hi)]
    rw [hold]
    by_cases hk : k = l
    · subst hk
      rw [Function.update_self, Function.update_self, List.map_append, List.map_append,
        hpre, hcons.2]
    · rw [Function.update_of_ne hk, Function.update_of_ne hk]
      exact h.entries k

end Omb
