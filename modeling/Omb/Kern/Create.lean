import Omb.Kern.Moves

/-!
# Making processes

`proc_new` takes the slot that a counter names and advances the counter modulo `MAX_PROCS`; it
does not look at what is in the slot.  As long as the counter has not come round the slot is
free and a new process disturbs nobody.  The call after that clears the slot of `proc0`, which
heads the list of alive processes, and `add_to_list_back` then ties the list to itself.

`creationSafe_iff` says that this is the only way creation goes wrong, and
`overwritten_after_wrap` is the shortest run it happens in.  No process is ever taken off the
table, so the number of processes made so far decides.

The proof in one direction is the invariant, which holds while there are slots.  In the other
a run that makes more processes than that has a first step that makes one too many; it was
taken from a state in which the invariant still held with a full table, so it is known what it
does.

## Main results

* `step_procCreate_full`: what making one process too many does
* `creationSafe_iff`: the runs in which no process disturbs another by being made
-/

namespace Omb

open PointerList

/-- A step that makes a process either leaves the table and the list as they were, or takes a
dead slot, returns its pid and changes nothing else of the table but the links of the list. -/
def CreatesSafely (t : KStep) : Prop :=
  t.act.creates →
    (t.post.procs = t.pre.procs ∧ t.post.alive = t.pre.alive) ∨
    ∃ u p, (t.pre.procs p).state = .dead ∧ (t.post.procs p).state ≠ .dead ∧
      t.events = [.returned u (t.post.procs p).pid] ∧
      ∀ q, q ≠ p → t.post.procs q = { t.pre.procs q with next := (t.post.procs q).next }

/-- The list of alive processes is `nodes`: finite, without repetition, the processes that are
not dead, all with pids of their own. -/
structure AliveList (s : State) (nodes : List ProcRef) : Prop where
  linked : Seg s.nexts s.alive nodes
  acyclic : nodes.Nodup
  mem_iff : ∀ p, p ∈ nodes ↔ (s.procs p).state ≠ .dead
  pid_unique : ∀ p ∈ nodes, ∀ q ∈ nodes, (s.procs p).pid = (s.procs q).pid → p = q

/-- No process disturbs another by being made: in the run `tr` to `s` all steps
create safely, and the list is in order everywhere. -/
structure CreationSafe (tr : List KStep) (s : State) : Prop where
  steps : ∀ t ∈ tr, CreatesSafely t
  lists : ∀ t ∈ tr, (∃ nodes, AliveList t.pre nodes) ∧ ∃ nodes, AliveList t.post nodes
  /-- In the end the list holds as many processes as have been made. -/
  final : ∃ nodes, AliveList s nodes ∧ nodes.length = created tr

variable {s s' : State} {n : ℕ} {Q : ProcRef → List ProcRef} {u : ProcRef}

/-! ## While there are slots -/

theorem Table.aliveList (h : Table s n) : AliveList s (firstProcs n) where
  linked := h.alive
  acyclic := h.alive.nodup
  mem_iff := by
    intro p
    rw [mem_firstProcs, Ne, h.dead_iff, not_le]
  pid_unique := by
    intro p hp q hq heq
    rw [mem_firstProcs] at hp hq
    rw [h.pid p hp, h.pid q hq] at heq
    have hval := congrArg BitVec.toNat heq
    have hp' : p.val < 512 := p.isLt
    have hq' : q.val < 512 := q.isLt
    rw [BitVec.toNat_ofNat, BitVec.toNat_ofNat, Nat.mod_eq_of_lt (by omega),
      Nat.mod_eq_of_lt (by omega)] at hval
    exact Fin.ext hval

theorem Move.createsSafely {a : Action} {evs : List Event} (hmove : Move s a evs s') :
    CreatesSafely ⟨s, a, evs, s'⟩ := by
  intro hcreates
  cases hmove with
  | quiet hu hs' hc | receive hu hc | start hu hc | park hu hc => simp [hcreates] at hc
  | write | preempt | send | reply | replyRecv | resumed => simp [Action.creates] at hcreates
  | @create u page spacePage mem alive nexts hup hc hdead =>
      refine .inr ⟨u, s.nextpid, hdead, ?_, ?_, fun q hq => ?_⟩
      · simp [State.spawn, freshProc]
      · simp [State.spawn, freshProc]
      · simp [State.spawn, hq]

/-! ## After the last slot -/

/-- `add_to_list_back` of the process that heads the list ties it to itself. -/
theorem addToListBack_head {p : ProcRef} (h : s.alive = some p) :
    ∃ s', addToListBack s p = .ok s' ∧ (s'.procs p).next = some p := by
  let s₁ := s.modifyProc p fun q => { q with next := none }
  have hseg : Seg (fun q => (s₁.procs q).next) s₁.alive [p] := by
    rw [show s₁.alive = some p from h]
    refine .cons ?_
    rw [show (s₁.procs p).next = none by simp [s₁]]
    exact .nil
  have hlast := lastNode_eq hseg (show [p].length < maxProcs + 1 by simp)
  refine ⟨s₁.modifyProc p fun q => { q with next := some p }, ?_, by simp⟩
  unfold addToListBack
  simp only
  rw [show lastNode _ (maxProcs + 1) (s.modifyProc p _).alive = some (some p) from hlast]

theorem procNew_head (h : s.alive = some s.nextpid) (space page : Word) :
    ∃ s', procNew s space page = .ok (s.nextpid, s') ∧
      (s'.procs s.nextpid).next = some s.nextpid := by
  let s₁ := (({ s with nextpid := s.nextpid + 1 } : State).modifyProc s.nextpid
    fun _ => freshProc (BitVec.ofNat 32 s.nextpid.val) space page).modifyPage page
      fun _ => { ProcPage.zero with pid := BitVec.ofNat 32 s.nextpid.val }
  obtain ⟨s', hadd, hloop⟩ := addToListBack_head (s := s₁) h
  exact ⟨s', procNew_of_add hadd, hloop⟩

/-- With all slots taken the next one is that of `proc0`, the head of the list. -/
theorem Inv.nextpid_of_full (h : Inv s maxProcs Q) : s.nextpid = 0 ∧ s.alive = some 0 ∧
    (s.procs 0).next = some 1 := by
  have hfirst : ∃ rest, firstProcs maxProcs = 0 :: 1 :: rest := by
    have h₀ : List.finRange maxProcs = 0 :: (List.finRange 511).map Fin.succ :=
      List.finRange_succ
    have h₁ : List.finRange 511 = 0 :: (List.finRange 510).map Fin.succ := List.finRange_succ
    rw [firstProcs, List.take_of_length_le (by simp), h₀, h₁]
    exact ⟨_, rfl⟩
  obtain ⟨rest, hfirst⟩ := hfirst
  have hseg := h.table.alive
  rw [hfirst] at hseg
  exact ⟨Fin.ext h.table.nextpid, hseg.head_eq, hseg.tail.head_eq⟩

/-- One process more overwrites `proc0`, and the list has become a loop: `proc0` is its own
successor. -/
theorem step_procCreate_full (h : Inv s maxProcs Q) (hup : s.up = some u)
    (hc : s.control = .user) (page spacePage : Word) :
    ∃ s' v, step s (.syscall (.procCreate page spacePage)) = .ok (s', [.returned u v]) ∧
      (s'.procs 0).next = some 0 := by
  obtain ⟨hnext, halive, -⟩ := h.nextpid_of_full
  obtain ⟨s₁, hnew, hloop⟩ := procNew_head (s := { s with mem := memsetPage s.mem spacePage })
    (halive.trans (congrArg some hnext.symm)) spacePage page
  simp only [step, hc, hup, syscall, sysProcCreate]
  rw [hup, hc] at hnew
  rw [hnew]
  refine ⟨_, _, rfl, ?_⟩
  rw [← hnext]
  exact hloop

theorem not_createsSafely_of_full (h : Inv s maxProcs Q) {page spacePage : Word}
    {evs : List Event} (hs : step s (.syscall (.procCreate page spacePage)) = .ok (s', evs)) :
    ¬ CreatesSafely ⟨s, .syscall (.procCreate page spacePage), evs, s'⟩ := by
  intro hsafe
  -- the step is taken from user code
  obtain ⟨u, hup, hc⟩ : ∃ u, s.up = some u ∧ s.control = .user := by
    cases hc : s.control with
    | user =>
        cases hup : s.up with
        | none => simp [step, hc, hup] at hs
        | some u => exact ⟨u, rfl, rfl⟩
    | resume | idle => simp [step, hc] at hs
  obtain ⟨s₁, v, hstep, hloop⟩ := step_procCreate_full h hup hc page spacePage
  rw [hstep] at hs
  cases hs
  rcases hsafe rfl with ⟨hprocs, -⟩ | ⟨u', p, hdead, -⟩
  · have hnext := h.nextpid_of_full.2.2
    rw [show s'.procs = s.procs from hprocs, hnext] at hloop
    exact absurd hloop (by decide)
  · have hge := (h.table.dead_iff p).mp hdead
    have hlt := p.isLt
    omega

/-! ## Runs -/

/-- A run either stays within the table or has overwritten a process. -/
theorem KernelRun.created_le_or {tr : List KStep} {s : State} (h : KernelRun tr s) :
    created tr ≤ maxProcs ∨ ∃ t ∈ tr, ¬ CreatesSafely t := by
  obtain ⟨img, pages, mem, s₀, evs₀, hk, hrun⟩ := h
  induction hrun with
  | nil => exact .inl (by simp [created, maxProcs])
  | @snoc tr s s' a evs hrun hs ih =>
      rcases ih with hle | ⟨t, ht, hbad⟩
      · rcases le_or_gt (created (tr ++ [⟨s, a, evs, s'⟩])) maxProcs with hle' | hle'
        · exact .inl hle'
        · refine .inr ⟨_, List.mem_append_right _ (List.mem_singleton_self _), ?_⟩
          rw [created_snoc] at hle'
          obtain ⟨Q, hinv⟩ := KernelRun.inv ⟨img, pages, mem, s₀, evs₀, hk, hrun⟩ hle
          cases hcreates : a.creates with
          | false =>
              simp only [hcreates, Bool.toNat_false] at hle'
              omega
          | true =>
              simp only [hcreates, Bool.toNat_true] at hle'
              have hfull : created tr = maxProcs := by omega
              rw [hfull] at hinv
              obtain ⟨page, spacePage, rfl⟩ :
                  ∃ page spacePage, a = .syscall (.procCreate page spacePage) := by
                unfold Action.creates at hcreates
                split at hcreates
                · exact ⟨_, _, rfl⟩
                · cases hcreates
              exact not_createsSafely_of_full hinv hs
      · exact .inr ⟨t, List.mem_append_left _ ht, hbad⟩

/-- **Creation is safe exactly in the runs that make no more processes than the table has
slots.**  There is no other condition: which pages the processes are made on, and what they do
in between, makes no difference to the table.  No process is ever taken off it, so the count
of all that have been made is what matters, and the first one beyond `MAX_PROCS` gets a slot
in use. -/
theorem creationSafe_iff {tr : List KStep} {s : State} (h : KernelRun tr s) :
    CreationSafe tr s ↔ created tr ≤ maxProcs := by
  constructor
  · intro hsafe
    rcases h.created_le_or with hle | ⟨t, ht, hbad⟩
    · exact hle
    · exact absurd (hsafe.steps t ht) hbad
  · intro hn
    obtain ⟨Q, hinv⟩ := h.inv hn
    refine ⟨fun t ht => ?_, fun t ht => ?_, firstProcs (created tr), hinv.table.aliveList, ?_⟩
    · exact (h.forall_step hn t ht).2.1.createsSafely
    · obtain ⟨-, -, ⟨n, Q₁, hpre⟩, n', Q₂, hpost⟩ := h.forall_step hn t ht
      exact ⟨⟨_, hpre.table.aliveList⟩, _, hpost.table.aliveList⟩
    · simpa [firstProcs] using hn

/-- `proc0` does nothing but make `k` processes, each on two pages of its own. -/
def createActs (k : ℕ) : List Action :=
  .resume :: (List.range k).map fun i =>
    .syscall (.procCreate (BitVec.ofNat 32 (0x100000 + 0x2000 * i))
      (BitVec.ofNat 32 (0x101000 + 0x2000 * i)))

theorem createActs_succ (k : ℕ) : createActs (k + 1) = createActs k ++
    [.syscall (.procCreate (BitVec.ofNat 32 (0x100000 + 0x2000 * k))
      (BitVec.ofNat 32 (0x101000 + 0x2000 * k)))] := by
  rw [createActs, List.range_succ, List.map_append, List.map_singleton]
  rfl

/-- It can do so until the table is full. -/
theorem exists_createRun {k : ℕ} (hk : k < maxProcs) :
    ∃ tr s, KernelRun tr s ∧ tr.map (fun t => t.act) = createActs k ∧
      created tr = k + 1 ∧ s.up = some 0 ∧ s.control = .user := by
  induction k with
  | zero =>
      obtain ⟨tr, s, hrun, hP⟩ := exists_exampleRun [.resume]
        (fun tr s => created tr = 1 ∧ s.up = some 0 ∧ s.control = .user) (by decide +kernel)
      rw [decide_eq_true_eq] at hP
      exact ⟨tr, s, .of_bootRun hrun, acts_of_exampleRun hrun, hP⟩
  | succ k ih =>
      obtain ⟨tr, s, hrun, hacts, hcreated, hup, hc⟩ := ih (by omega)
      obtain ⟨Q, hinv⟩ := hrun.inv (by omega)
      rw [hcreated] at hinv
      let page := BitVec.ofNat 32 (0x100000 + 0x2000 * k)
      let spacePage := BitVec.ofNat 32 (0x101000 + 0x2000 * k)
      obtain ⟨alive, nexts, hnew, -, -⟩ := procNew_spec
        (hinv.withMem (memsetPage s.mem spacePage)) hk spacePage page
      have hstep : ∃ s' evs, step s (.syscall (.procCreate page spacePage)) = .ok (s', evs) ∧
          s'.up = some 0 ∧ s'.control = .user := by
        simp only [step, hc, hup, syscall, sysProcCreate]
        rw [hup, hc] at hnew
        rw [hnew]
        exact ⟨_, _, rfl, rfl, rfl⟩
      obtain ⟨s', evs, hstep, hup', hc'⟩ := hstep
      refine ⟨_, s', hrun.snoc hstep, ?_, ?_, hup', hc'⟩
      · rw [List.map_append, hacts, List.map_singleton, createActs_succ]
      · rw [created_snoc, hcreated]
        rfl

/-- The 512th process that `proc0` makes overwrites it: `proc0` itself is the first of the 512
that there is room for. -/
theorem overwritten_after_wrap :
    ∃ tr s, KernelRun tr s ∧ tr.map (fun t => t.act) = createActs 512 ∧
      ¬ CreationSafe tr s := by
  obtain ⟨tr, s, hrun, hacts, hcreated, hup, hc⟩ := exists_createRun (k := 511) (by simp)
  obtain ⟨Q, hinv⟩ := hrun.inv hcreated.le
  rw [hcreated] at hinv
  obtain ⟨s', v, hstep, -⟩ := step_procCreate_full hinv hup hc
    (BitVec.ofNat 32 (0x100000 + 0x2000 * 511)) (BitVec.ofNat 32 (0x101000 + 0x2000 * 511))
  refine ⟨_, s', hrun.snoc hstep, ?_, fun hsafe => ?_⟩
  · rw [List.map_append, hacts, List.map_singleton]
    exact (createActs_succ 511).symm
  · refine not_createsSafely_of_full hinv hstep (hsafe.steps _ ?_)
    exact List.mem_append_right _ (List.mem_singleton_self _)

/-- With one process made, the list holds both. -/
theorem creationSafe_of_one :
    ∃ tr s, exampleRun (createActs 1) = .ok (tr, s) ∧
      (CreationSafe tr s ↔ created tr ≤ maxProcs) := by
  obtain ⟨tr, s, hrun, -⟩ := exists_exampleRun (createActs 1) (fun _ _ => true)
    (by decide +kernel)
  exact ⟨tr, s, hrun, creationSafe_iff (.of_bootRun hrun)⟩

end Omb
