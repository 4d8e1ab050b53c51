import Omb.Kern.Reach

/-!
# `proc_list_remove` with ticks inside

System calls run with interrupts disabled, but `proc_start` does not, nor does the `krecv` it
calls.  So its `proc_list_remove` may be interrupted between any two accesses to memory, and
while it is, other processes may append themselves to the list it takes an entry from: the walk
is taken apart into its accesses here (`removePoint`), and `removingStep` lets whole calls of
`proc_list_add`, and of `proc_list_remove` on other lists, come between any two of them.

A node costs five loads: `*l`, `n->proc`, the `pid` of that process, `n->next`, and `*l` again to
advance.  The `cas` at the end is an `ldrex` and a `strex`; it counts as one access, that is,
nothing is let in between these two.

What is linked is described by `Held`, in which nodes may be in use without being in a list: that
is so of the node the removal has taken out, until it clears it, and of nodes that have been cut
off.  Each store has a lemma for what it makes of that (`Held.unlink`, `Held.cut`, `Held.clear`),
and so has each call of others (`Held.add`, `Held.remove`).

With nothing in between, the accesses are those of `procListRemove`
(`alone_of_procListRemove`), which is what system calls run in `Omb.Kern.Machine`.  So the walk
here is the one the other modules know, and not a second model of it.
-/

namespace Omb

open PointerList

/-! ## The code, one access at a time -/

namespace State

/-- `*l`, where `l` is the head pointer of `u`'s list or the pointer in a node.  The walk
keeps the address and not the word. -/
def link (s : State) (u : ProcRef) : Option ListRef → Option ListRef
  | none => (s.procs u).waiting
  | some j => (s.lists j).next

/-- `*l = v` -/
def setLink (s : State) (u : ProcRef) (l v : Option ListRef) : State :=
  match l with
  | none => s.modifyProc u fun q => { q with waiting := v }
  | some j => s.modifyList j fun e => { e with next := v }

end State

/-- Where `proc_list_remove` is: in front of which access, with the locals that it has by
then. -/
inductive RemovePoint where
  /-- `(n = *l) != nil` -/
  | load (l : Option ListRef)
  /-- `n->proc`, to look at its `pid` -/
  | proc (l : Option ListRef) (n : ListRef)
  /-- `w->pid == pid`, where `w` has been loaded from `n->proc` -/
  | compare (l : Option ListRef) (n : ListRef) (w : Option ProcRef)
  /-- `n->next != nil` -/
  | test (l : Option ListRef) (n : ListRef)
  /-- `l = &(*l)->next` -/
  | advance (l : Option ListRef)
  /-- `n->next`, as an argument -/
  | next (l : Option ListRef) (n : ListRef)
  /-- `cas(l, n, v)` -/
  | cas (l : Option ListRef) (n : ListRef) (v : Option ListRef)
  /-- `p = n->proc` -/
  | take (n : ListRef)
  /-- `n->proc = nil` -/
  | clear (n : ListRef) (p : Option ProcRef)
  | done (p : Option ProcRef)
  deriving DecidableEq

/-- One access of `proc_list_remove(&u->waiting, pid)`.  What the source reads in one
expression is taken apart into its loads, `n->proc` and the `pid` of that process among them.
-/
def removePoint (s : State) (u : ProcRef) (pid : Word) :
    RemovePoint → Except Stuck (State × RemovePoint)
  | .load l =>
      match s.link u l with
      | none => .ok (s, .done none)
      | some n => .ok (s, .proc l n)
  | .proc l n => .ok (s, .compare l n (s.lists n).proc)
  | .compare l n p =>
      match p with
      | none => .error .nilDeref
      | some w => .ok (s, if (s.procs w).pid = pid then .next l n else .test l n)
  | .test l n =>
      match (s.lists n).next with
      | none => .ok (s, .next l n)
      | some _ => .ok (s, .advance l)
  | .advance l =>
      match s.link u l with
      | none => .error .nilDeref
      | some m => .ok (s, .load (some m))
  | .next l n => .ok (s, .cas l n (s.lists n).next)
  | .cas l n v =>
      if s.link u l = some n then .ok (s.setLink u l v, .take n) else .ok (s, .load none)
  | .take n => .ok (s, .clear n (s.lists n).proc)
  | .clear n p => .ok (s.modifyList n fun e => { e with proc := none }, .done p)
  | .done _ => .error .disabled

/-! ## What may come in between -/

/-- The kernel, and where the removal is. -/
structure Removing where
  kernel : State
  point : RemovePoint

inductive RemovingAction where
  /-- The removal goes on. -/
  | own
  /-- `proc_list_add(&l->waiting, p)` of another process. -/
  | add (l p : ProcRef)
  /-- `proc_list_remove(&l->waiting, pid)` of another process `l`. -/
  | remove (l : ProcRef) (pid : Word)
  deriving DecidableEq

/-- `p` has been put on the list of `l`. -/
inductive RemovingEvent where
  | added (l p : ProcRef)

/-- One step, while `u` takes an entry out of its list: an access of its own, or a whole call
of somebody else.  The others remove from other lists only, as each process takes from its
own. -/
def removingStep (u : ProcRef) (pid : Word) (x : Removing) :
    RemovingAction → Except Stuck (Removing × List RemovingEvent)
  | .own => (removePoint x.kernel u pid x.point).map fun y => (⟨y.1, y.2⟩, [])
  | .add l p =>
      match procListAdd x.kernel l p with
      | .error e => .error e
      | .ok none => .ok (x, [])
      | .ok (some s) => .ok ({ x with kernel := s }, [.added l p])
  | .remove l pid =>
      if l = u then .error .disabled
      else
        match procListRemove x.kernel l pid with
        | .error e => .error e
        | .ok none => .ok (x, [])
        | .ok (some (_, s)) => .ok ({ x with kernel := s }, [])

abbrev RemovingStep := Machine.Transition Removing RemovingAction RemovingEvent

/-- The nodes `ns` hold the processes `q`, in order. -/
def Carry (s : State) (ns : List ListRef) (q : List ProcRef) : Prop :=
  ns.map (fun i => (s.lists i).proc) = q.map some

/-- Following the list of `u` meets the processes `q`. -/
def Linked (s : State) (u : ProcRef) (q : List ProcRef) : Prop :=
  ∃ ns, Seg (fun i => (s.lists i).next) (s.procs u).waiting ns ∧ Carry s ns q

variable {s s' : State} {u l p w : ProcRef} {i n : ListRef} {ns ms : List ListRef}
  {q r : List ProcRef}

/-! ## What nodes hold -/

theorem carry_nil : Carry s [] [] := rfl

theorem carry_singleton (h : (s.lists n).proc = some w) : Carry s [n] [w] := by
  rw [Carry, List.map_singleton, h, List.map_singleton]

theorem Carry.append (h : Carry s ns q) (h' : Carry s ms r) : Carry s (ns ++ ms) (q ++ r) := by
  rw [Carry, List.map_append, List.map_append, h, h']

/-- What nodes in front and nodes behind hold. -/
theorem Carry.split (h : Carry s (ns ++ ms) q) :
    ∃ q₁ q₂, q = q₁ ++ q₂ ∧ Carry s ns q₁ ∧ Carry s ms q₂ := by
  rw [Carry, List.map_append] at h
  obtain ⟨q₁, q₂, rfl, h₁, h₂⟩ := List.map_eq_append_iff.mp h.symm
  exact ⟨q₁, q₂, rfl, h₁.symm, h₂.symm⟩

theorem Carry.cons_inv (h : Carry s (n :: ns) q) :
    ∃ w q', q = w :: q' ∧ (s.lists n).proc = some w ∧ Carry s ns q' := by
  cases q with
  | nil => exact absurd h (List.cons_ne_nil _ _)
  | cons w q' =>
      obtain ⟨hw, hrest⟩ := List.cons.inj h
      exact ⟨w, q', rfl, hw, hrest⟩

theorem Carry.eq_nil (h : Carry s [] q) : q = [] := List.map_eq_nil_iff.mp (Eq.symm h)

/-- Only the processes in these nodes matter. -/
theorem Carry.congr (h : Carry s ns q)
    (hagree : ∀ i ∈ ns, (s'.lists i).proc = (s.lists i).proc) : Carry s' ns q := by
  rw [Carry, ← h]
  exact List.map_congr_left hagree

/-! ## The lists while a node is out of them -/

/-- The heads of the lists, and of what has been cut off. -/
def State.heads (s : State) (limbo : Option ListRef) : Option ProcRef → Option ListRef
  | some p => (s.procs p).waiting
  | none => limbo

/-- The lists are linked in `s` by the nodes `nodes`, where list `none`, which starts at
`limbo`, has been cut off; besides these the nodes `spare` are in use.  Every other node is
free. -/
structure Held (s : State) (spare : Set ListRef) (limbo : Option ListRef)
    (nodes : Option ProcRef → List ListRef) : Prop where
  family : Family (fun i => (s.lists i).next) (s.heads limbo) nodes
  apart : ∀ i ∈ spare, ∀ k, i ∉ nodes k
  used : ∀ i, (s.lists i).proc ≠ none ↔ (∃ k, i ∈ nodes k) ∨ i ∈ spare

variable {spare : Set ListRef} {limbo limbo' v : Option ListRef} {k : Option ProcRef}
  {nodes nodes' : Option ProcRef → List ListRef} {pre post : List ListRef}

/-- Between calls nothing is cut off. -/
theorem QueueRep.held {nodes : ProcRef → List ListRef} {Q : ProcRef → List ProcRef}
    (h : QueueRep s nodes Q) : Held s ∅ none (fun k => k.elim [] nodes) where
  family := by
    refine ⟨fun k => ?_, fun k k' i hi hi' => ?_⟩
    · cases k with
      | none => exact .nil
      | some p => exact h.family.seg p
    · cases k with
      | none => exact absurd hi List.not_mem_nil
      | some p =>
          cases k' with
          | none => exact absurd hi' List.not_mem_nil
          | some p' => rw [h.family.disjoint p p' i hi hi']
  apart := fun _ hi => absurd hi (Set.notMem_empty _)
  used := by
    intro i
    rw [h.used i]
    constructor
    · rintro ⟨p, hp⟩
      exact .inl ⟨some p, hp⟩
    · rintro (⟨k, hk⟩ | hk)
      · cases k with
        | none => exact absurd hk List.not_mem_nil
        | some p => exact ⟨p, hk⟩
      · exact absurd hk (Set.notMem_empty _)

namespace Held

theorem linked (h : Held s spare limbo nodes) (hq : Carry s (nodes (some u)) q) : Linked s u q :=
  ⟨nodes (some u), h.family.seg (some u), hq⟩

/-- A linked node holds a process. -/
theorem exists_proc (h : Held s spare limbo nodes) (hi : i ∈ nodes k) :
    ∃ w, (s.lists i).proc = some w :=
  Option.ne_none_iff_exists'.mp ((h.used i).mpr (.inl ⟨k, hi⟩))

theorem exists_carry (h : Held s spare limbo nodes) (k : Option ProcRef) :
    ∃ q, Carry s (nodes k) q := by
  have hall : ∀ i ∈ nodes k, ∃ w, (s.lists i).proc = some w := fun i hi => h.exists_proc hi
  generalize nodes k = ns at hall
  induction ns with
  | nil => exact ⟨[], carry_nil⟩
  | cons i ns ih =>
      obtain ⟨w, hw⟩ := hall i (List.mem_cons_self ..)
      obtain ⟨q, hq⟩ := ih fun j hj => hall j (List.mem_cons_of_mem _ hj)
      exact ⟨w :: q, (carry_singleton hw).append hq⟩

theorem length_le (h : Held s spare limbo nodes) (k : Option ProcRef) :
    (nodes k).length ≤ maxProcLists := by
  simpa using (h.family.seg k).nodup.length_le_card

end Held

/-! ### Stores to a link -/

theorem setLink_proc (s : State) (u : ProcRef) (l v : Option ListRef) (i : ListRef) :
    ((s.setLink u l v).lists i).proc = (s.lists i).proc := by
  cases l with
  | none => rfl
  | some j =>
      show ((s.modifyList j fun e => { e with next := v }).lists i).proc = _
      exact State.modifyList_field ProcList.proc rfl i

theorem setLink_none (s : State) (u : ProcRef) (v limbo : Option ListRef) :
    (s.setLink u none v).heads limbo = Function.update (s.heads limbo) (some u) v := by
  funext k
  cases k with
  | none => rw [Function.update_of_ne (by simp)]; rfl
  | some p =>
      by_cases hp : p = u
      · subst hp
        rw [Function.update_self]
        simp [State.heads, State.setLink]
      · rw [Function.update_of_ne fun heq => hp (Option.some.inj heq)]
        simp [State.heads, State.setLink, hp]

theorem setLink_some (s : State) (u : ProcRef) (j : ListRef) (v : Option ListRef) :
    (fun i => ((s.setLink u (some j) v).lists i).next) =
      Function.update (fun i => (s.lists i).next) j v :=
  State.modifyList_next j v

theorem heads_limbo (s : State) (v limbo : Option ListRef) :
    s.heads v = Function.update (s.heads limbo) none v := by
  funext k
  cases k with
  | none => rw [Function.update_self]; rfl
  | some p => rw [Function.update_of_ne (Option.some_ne_none p)]; rfl

/-- A store to a link moves a head, or the pointer of a node. -/
theorem family_setLink {l : Option ListRef}
    (hhead : l = none →
      Family (fun i => (s.lists i).next) (Function.update (s.heads limbo) (some u) v) nodes)
    (hnode : ∀ j, l = some j →
      Family (Function.update (fun i => (s.lists i).next) j v) (s.heads limbo) nodes) :
    Family (fun i => ((s.setLink u l v).lists i).next) ((s.setLink u l v).heads limbo) nodes := by
  cases l with
  | none =>
      rw [setLink_none]
      exact hhead rfl
  | some j =>
      rw [setLink_some]
      exact hnode j rfl

namespace Held

/-- The link behind which a node is. -/
theorem link_eq (h : Held s spare limbo nodes) (hu : nodes (some u) = pre ++ ns) :
    s.link u pre.getLast? = ns.head? := by
  have hseg := (hu ▸ h.family.seg (some u)).rest
  have hlink : s.link u pre.getLast? =
      pre.getLast?.elim (s.heads limbo (some u)) fun i => (s.lists i).next := by
    cases pre.getLast? with
    | none => rfl
    | some j => rfl
  rw [hlink]
  cases ns with
  | nil => exact hseg.head_none_iff.mpr rfl
  | cons n post => exact hseg.head_eq

theorem next_eq (h : Held s spare limbo nodes) (hu : nodes (some u) = pre ++ n :: post) :
    (s.lists n).next = post.head? := by
  have hseg := (hu ▸ h.family.seg (some u)).suffix
  cases post with
  | nil => exact hseg.head_none_iff.mpr rfl
  | cons m post => exact hseg.head_eq

/-- A node that leaves the lists stays in use. -/
theorem take_out (h : Held s spare limbo nodes) (hn : n ∈ nodes k)
    (hfam : Family (fun i => (s'.lists i).next) (s'.heads limbo') nodes')
    (hproc : ∀ i, (s'.lists i).proc = (s.lists i).proc)
    (hmem : ∀ i, (∃ k, i ∈ nodes' k) ↔ (∃ k, i ∈ nodes k) ∧ i ≠ n) :
    Held s' (insert n spare) limbo' nodes' where
  family := hfam
  apart := by
    intro i hi k' hk'
    have hin := (hmem i).mp ⟨k', hk'⟩
    rcases Set.mem_insert_iff.mp hi with rfl | hi
    · exact hin.2 rfl
    · obtain ⟨k'', hk''⟩ := hin.1
      exact h.apart i hi k'' hk''
  used := by
    intro i
    rw [hproc, h.used, hmem, Set.mem_insert_iff]
    by_cases hi : i = n
    · subst hi
      exact iff_of_true (.inl ⟨k, hn⟩) (.inr (.inl rfl))
    · simp [hi]

/-- The `cas`, with the pointer that is in the node.  The node it takes out stays in use until
it is cleared. -/
theorem unlink (h : Held s spare limbo nodes) (hu : nodes (some u) = pre ++ n :: post) :
    Held (s.setLink u pre.getLast? (s.lists n).next) (insert n spare) limbo
      (Function.update nodes (some u) (pre ++ post)) := by
  refine h.take_out (k := some u) (by simp [hu]) ?_ (setLink_proc s u _ _) (h.family.mem_unlink hu)
  refine family_setLink (fun hpre => ?_) fun j hpre => h.family.unlink_after hu hpre
  obtain rfl := List.getLast?_eq_none_iff.mp hpre
  exact h.family.unlink_head hu

/-- The `cas`, with nil.  What has come behind the node in the meantime is in no list any
more, but in use. -/
theorem cut (h : Held s spare limbo nodes) (hu : nodes (some u) = pre ++ n :: post)
    (hempty : nodes none = []) :
    Held (s.setLink u pre.getLast? none) (insert n spare) (s.lists n).next
      (Function.update (Function.update nodes (some u) pre) none post) := by
  have hne : (none : Option ProcRef) ≠ some u := (Option.some_ne_none u).symm
  refine h.take_out (k := some u) (by simp [hu]) ?_ (setLink_proc s u _ _)
    (h.family.mem_cut hu hne hempty)
  refine family_setLink (fun hpre => ?_) fun j hpre => ?_
  · obtain rfl := List.getLast?_eq_none_iff.mp hpre
    rw [heads_limbo s _ limbo, Function.update_comm hne]
    exact h.family.cut_head hu hne hempty
  · rw [heads_limbo s _ limbo]
    exact h.family.cut_after hu hpre hne hempty

/-- `n->proc = nil` -/
theorem clear (h : Held s spare limbo nodes) (hn : n ∈ spare) :
    Held (s.modifyList n fun e => { e with proc := none }) (spare \ {n}) limbo nodes where
  family := h.family.congr fun k i _ => State.modifyList_field ProcList.next rfl i
  apart := fun i hi => h.apart i hi.1
  used := by
    intro i
    by_cases hi : i = n
    · subst hi
      refine iff_of_false (by simp) ?_
      rintro (⟨k, hk⟩ | hi)
      · exact h.apart i hn k hk
      · exact hi.2 rfl
    · rw [State.modifyList_lists_of_ne hi, h.used]
      simp [hi]

end Held

/-! ### Calls of others -/

theorem linkEntry_eq {last : Option ListRef}
    (hlast : lastNode (fun i => (s.lists i).next) (maxProcLists + 1) (s.procs l).waiting =
      some last) : linkEntry s l n = .ok (s.setLink l last (some n)) := by
  rw [linkEntry, hlast]
  cases last with
  | none => rfl
  | some j => rfl

theorem unlinkEntry_eq (s : State) (l : ProcRef) (prev : Option ListRef) (n : ListRef) :
    unlinkEntry s l prev n =
      (s.setLink l prev (s.lists n).next).modifyList n fun e => { e with proc := none } := by
  cases prev with
  | none => rfl
  | some j => rfl

namespace Held

/-- `proc_list_add` puts a node that was not in use behind the last one of the list. -/
theorem add (h : Held s spare limbo nodes) (hadd : procListAdd s l p = .ok (some s')) :
    ∃ n, Held s' spare limbo (Function.update nodes (some l) (nodes (some l) ++ [n])) ∧
      (s'.lists n).proc = some p ∧
      ∀ i, (s.lists i).proc ≠ none → (s'.lists i).proc = (s.lists i).proc := by
  rw [procListAdd] at hadd
  cases hfree : freeSlot s with
  | none =>
      rw [hfree] at hadd
      cases hadd
  | some n =>
      rw [hfree] at hadd
      let s₁ := s.modifyList n fun _ => { proc := some p, next := none }
      have hunused : ¬ ((∃ k, n ∈ nodes k) ∨ n ∈ spare) := fun hn =>
        (h.used n).mpr hn (freeSlot_proc hfree)
      have hn : ∀ k, n ∉ nodes k := fun k hk => hunused (.inl ⟨k, hk⟩)
      have hself : s₁.lists n = { proc := some p, next := none } := State.modifyList_lists_self _ _
      have hother : ∀ i, i ≠ n → s₁.lists i = s.lists i := fun i hi =>
        State.modifyList_lists_of_ne hi _
      have hfam : Family (fun i => (s₁.lists i).next) (s₁.heads limbo) nodes :=
        h.family.congr fun k i hi => by
          simp only [hother i (ne_of_mem_of_not_mem hi (hn k))]
      have hlast := lastNode_eq (hfam.seg (some l)) (Nat.lt_succ_of_le (h.length_le (some l)))
      have hs' : s' = s₁.setLink l (nodes (some l)).getLast? (some n) := by
        have hlink := hadd.symm.trans (congrArg (Except.map some) (linkEntry_eq (n := n) hlast))
        exact Option.some.inj (Except.ok.inj hlink)
      subst hs'
      refine ⟨n, ⟨?_, ?_, ?_⟩, ?_, ?_⟩
      · refine family_setLink (fun hpre => ?_) fun j hpre => hfam.push_last hpre hn (by rw [hself])
        exact hfam.push_empty (List.getLast?_eq_none_iff.mp hpre) hn (by rw [hself])
      · intro i hi k hk
        by_cases hkl : k = some l
        · subst hkl
          rw [Function.update_self] at hk
          rcases List.mem_append.mp hk with hk | hk
          · exact h.apart i hi (some l) hk
          · exact hunused (.inr (List.mem_singleton.mp hk ▸ hi))
        · rw [Function.update_of_ne hkl] at hk
          exact h.apart i hi k hk
      · intro i
        rw [setLink_proc]
        by_cases hi : i = n
        · subst hi
          exact iff_of_true (by simp [hself]) (.inl ⟨some l, by simp⟩)
        · rw [hother i hi, h.used i]
          refine or_congr_left (exists_congr fun k => ?_)
          by_cases hk : k = some l
          · subst hk
            simp [hi]
          · rw [Function.update_of_ne hk]
      · rw [setLink_proc, hself]
      · intro i hi
        rw [setLink_proc, hother i]
        rintro rfl
        exact hi (freeSlot_proc hfree)

/-- `proc_list_remove` leaves the other lists alone. -/
theorem remove {pid : Word} (h : Held s spare limbo nodes)
    (hremove : procListRemove s l pid = .ok (some (w, s'))) :
    ∃ ns, Held s' spare limbo (Function.update nodes (some l) ns) ∧
      ∀ i, i ∉ nodes (some l) → (s'.lists i).proc = (s.lists i).proc := by
  have hne : nodes (some l) ≠ [] := by
    intro hnil
    have hhead : (s.procs l).waiting = none := (h.family.seg (some l)).head_none_iff.mpr hnil
    rw [procListRemove, hhead] at hremove
    cases hremove
  obtain ⟨q, hq⟩ := h.exists_carry (some l)
  obtain ⟨pre, n, post, -, w', -, hns, -, -, -, hfind⟩ :=
    @findEntry_spec s pid _ _ _ (h.family.seg (some l)) hq hne _
      (Nat.lt_succ_of_le (h.length_le (some l))) none
  have hn : n ∈ nodes (some l) := by simp [hns]
  rw [procListRemove] at hremove
  simp only [State.heads] at hfind
  rw [hfind, Option.or_none] at hremove
  obtain ⟨rfl, rfl⟩ := Prod.mk.inj (Option.some.inj (Except.ok.inj hremove))
  rw [unlinkEntry_eq]
  refine ⟨pre ++ post, ?_, fun i hi => ?_⟩
  · have hspare : n ∉ spare := fun hn' => h.apart n hn' (some l) hn
    rw [← Set.insert_sdiff_self_of_notMem hspare]
    exact (h.unlink hns).clear (Set.mem_insert n spare)
  · rw [State.modifyList_lists_of_ne (ne_of_mem_of_not_mem hn hi).symm, setLink_proc]

end Held

/-! ## With nothing in between -/

/-- `x'` is reached from `x` by accesses of the removal only. -/
def Alone (u : ProcRef) (pid : Word) (x x' : Removing) : Prop :=
  ∃ tr, Machine.Run (removingStep u pid) x tr x' ∧ ∀ t ∈ tr, t.act = .own

section Alone

variable {pid : Word} {point point' : RemovePoint} {x x' x'' : Removing}

theorem Alone.refl (x : Removing) : Alone u pid x x := ⟨[], .nil, by simp⟩

/-- One more access in front. -/
theorem Alone.head (hown : removePoint s u pid point = .ok (s', point'))
    (h : Alone u pid ⟨s', point'⟩ x') : Alone u pid ⟨s, point⟩ x' := by
  obtain ⟨tr, hrun, hall⟩ := h
  have hstep : removingStep u pid ⟨s, point⟩ .own = .ok (⟨s', point'⟩, []) := by
    rw [removingStep, hown]
    rfl
  refine ⟨_, Machine.Run.append (.snoc .nil hstep) hrun, fun t ht => ?_⟩
  rcases List.mem_append.mp ht with ht | ht
  · obtain rfl := List.mem_singleton.mp ht
    rfl
  · exact hall t ht

theorem Alone.trans (h : Alone u pid x x') (h' : Alone u pid x' x'') : Alone u pid x x'' := by
  obtain ⟨tr, hrun, hall⟩ := h
  obtain ⟨tr', hrun', hall'⟩ := h'
  refine ⟨tr ++ tr', hrun.append hrun', fun t ht => ?_⟩
  exact (List.mem_append.mp ht).elim (hall t) (hall' t)

/-- The walk comes to the node that `findEntry` finds. -/
theorem alone_findEntry {fuel : ℕ} {prev prev' : Option ListRef}
    (h : findEntry s pid fuel prev (s.link u prev) = .ok (some (prev', n, w))) :
    Alone u pid ⟨s, .load prev⟩ ⟨s, .next prev' n⟩ ∧ s.link u prev' = some n ∧
      (s.lists n).proc = some w := by
  induction fuel generalizing prev with
  | zero => cases h
  | succ fuel ih =>
      cases hlink : s.link u prev with
      | none =>
          rw [hlink] at h
          cases h
      | some m =>
          rw [hlink, findEntry] at h
          have hload : removePoint s u pid (.load prev) = .ok (s, .proc prev m) := by
            rw [removePoint, hlink]
          split at h
          · cases h
          · rename_i w' hw
            have hproc : removePoint s u pid (.proc prev m) = .ok (s, .compare prev m w') := by
              rw [removePoint, hw]
            have hcompare : removePoint s u pid (.compare prev m w') =
                .ok (s, if (s.procs w').pid = pid then .next prev m else .test prev m) := by
              rw [removePoint]
            split at h
            · rename_i hpid
              cases h
              rw [if_pos hpid] at hcompare
              exact ⟨.head hload (.head hproc (.head hcompare (.refl _))), hlink, hw⟩
            · rename_i hpid
              rw [if_neg hpid] at hcompare
              split at h
              · rename_i hnext
                have htest : removePoint s u pid (.test prev m) = .ok (s, .next prev m) := by
                  rw [removePoint, hnext]
                cases h
                refine ⟨.head hload (.head hproc (.head hcompare ?_)), hlink, hw⟩
                exact .head htest (.refl _)
              · rename_i m' hnext
                have htest : removePoint s u pid (.test prev m) = .ok (s, .advance prev) := by
                  rw [removePoint, hnext]
                have hadvance : removePoint s u pid (.advance prev) = .ok (s, .load (some m)) := by
                  rw [removePoint, hlink]
                have hlink' : s.link u (some m) = some m' := hnext
                rw [← hlink'] at h
                obtain ⟨halone, hend⟩ := ih h
                refine ⟨.head hload (.head hproc (.head hcompare ?_)), hend⟩
                exact .head htest (.head hadvance halone)

theorem findEntry_some_ne_none {fuel : ℕ} {prev : Option ListRef} :
    findEntry s pid fuel prev (some n) ≠ .ok none := by
  induction fuel generalizing prev n with
  | zero => exact fun h => by cases h
  | succ fuel ih =>
      rw [findEntry]
      split
      · exact fun h => by cases h
      · split
        · exact fun h => by cases h
        · split
          · exact fun h => by cases h
          · exact ih

/-- **Left alone, the accesses are those of the whole call**, and they come to what
`procListRemove` does. -/
theorem alone_of_procListRemove {r : Option (ProcRef × State)}
    (h : procListRemove s u pid = .ok r) :
    Alone u pid ⟨s, .load none⟩ ⟨r.elim s Prod.snd, .done (r.map Prod.fst)⟩ := by
  have hhead : (s.procs u).waiting = s.link u none := rfl
  rw [procListRemove, hhead] at h
  split at h
  · cases h
  · rename_i hfind
    cases h
    have hlink : s.link u none = none := by
      cases hlink : s.link u none with
      | none => rfl
      | some n =>
          rw [hlink] at hfind
          exact absurd hfind findEntry_some_ne_none
    have hload : removePoint s u pid (.load none) = .ok (s, .done none) := by
      rw [removePoint, hlink]
    exact .head hload (.refl _)
  · rename_i prev n w' hfind
    cases h
    obtain ⟨halone, hlink, hw⟩ := alone_findEntry hfind
    refine halone.trans (.head rfl (.head (if_pos hlink) (.head rfl ?_)))
    rw [setLink_proc, hw]
    refine .head rfl ?_
    rw [unlinkEntry_eq]
    exact .refl _

end Alone

end Omb
