import Omb.Kern.Progress

/-!
# No page is ever transferred

The `get_page` that `sys_addr_accept` hands to `space_map` returns nil whenever it is asked.
A space starts as a zeroed page, so the first page to be mapped into a MiB of it needs a
table; and as there is none to be had, no MiB ever gets one.

`NothingMapped` is the invariant of the kernel's runs: the first-level entries of all spaces
are faults.  It holds as long as nobody asks for pages beyond the GiB that first-level tables
cover, where what lies after a table is taken for its entries.

A `State` keeps the messages in the pages of the processes and the words of the tables in two
maps, although on the machine both are in memory.  That is no difference while no page of a
process overlaps a space (`State.HomesApart`); where one does, a process writes table entries
with its messages, and the accepts of others may then succeed.  So the result is stated of every
memory that has the tables' words outside the pages and anything at all inside (`State.Holds`).

## Main results

* `KernelRun.noTransfer`: the invariant, and that every accept fails
* `no_transfer_of_run`: the same whatever the pages of the processes hold
-/

namespace Omb

variable {s s' : State} {n n' : ℕ} {Q Q' : ProcRef → List ProcRef} {u p : ProcRef}

/-- No process has a second-level table, and slots without a process offer nothing.  Spaces
are cleared when processes are made, so this holds of new ones. -/
structure NothingMapped (s : State) : Prop where
  faults : ∀ p, s.IsMade p → ∀ va, Covered va →
    s.mem (tabAddr (s.procs p).space (l1x va)) = l1Fault
  unoffered : ∀ p, ¬ s.IsMade p → (s.procs p).addrOffer.len = 0

/-- A call of `sys_addr_accept` that passes the checks takes pages into covered addresses.  A
call that fails them may name any address. -/
def CoveredAccept (t : KStep) : Prop :=
  match t.act, t.pre.up with
  | .syscall (.addrAccept pid start len flags), some u =>
      match deref pid.toInt with
      | .ok p => ∀ tr ∈ acceptedTransfer t.pre u p start len flags, Covered tr.vt
      | .error _ => True
  | _, _ => True

/-- No byte is in the page of a process and in the space of one. -/
def State.HomesApart (s : State) : Prop :=
  ∀ p q, s.IsMade p → s.IsMade q → ∀ w, w - (s.procs p).page < pageSize →
    ¬ w - (s.procs q).space < pageSize

/-- The memory of `s`, with anything at all in the pages of the processes. -/
def State.Holds (s : State) (m : Mem) : Prop :=
  ∀ w, (∀ p, s.IsMade p → ¬ w - (s.procs p).page < pageSize) → m w = s.mem w

instance (va : Word) : Decidable (Covered va) :=
  inferInstanceAs (Decidable (_ < _))

instance (t : KStep) : Decidable (CoveredAccept t) := by
  unfold CoveredAccept
  split
  · split <;> infer_instance
  · infer_instance

/-! ## Transfers -/

/-- A transfer comes to an end in its first turn. -/
theorem NothingMapped.acceptFrom_eq (h : NothingMapped s) (hu : s.IsMade u)
    {start len flags : Word}
    (hcov : ∀ tr ∈ acceptedTransfer s u p start len flags, Covered tr.vt) :
    ∃ r, acceptFrom s u p start len flags [] = .ok (r, s) ∧ (r = err ∨ len = 0) := by
  cases ht : acceptedTransfer s u p start len flags with
  | none => exact ⟨err, by rw [acceptFrom, ht], .inl rfl⟩
  | some t =>
      rcases eq_or_ne len 0 with rfl | hlen
      · exact ⟨ok, acceptFrom_of_len_zero ht, .inr rfl⟩
      · refine ⟨err, ?_, .inl rfl⟩
        obtain ⟨-, hoffer, -, hends⟩ := acceptedTransfer_eq_some ht
        have hp : s.IsMade p := by
          by_contra hp
          exact hlen (hoffer.symm.trans (h.unoffered p hp))
        have htaker : s.IsMade t.taker := by
          rcases hends with ⟨-, -, rfl⟩ | ⟨-, -, rfl⟩
          · exact hp
          · exact hu
        have hfault := h.faults t.taker htaker t.vt (hcov t ht)
        have hpos : (0 : Word) < len := by
          refine BitVec.lt_def.mpr (Nat.pos_of_ne_zero fun hzero => hlen ?_)
          exact BitVec.eq_of_toNat_eq hzero
        -- the first turn asks `get_page` for a table
        have hmap : ∀ pa, spaceMap s.mem (s.procs t.taker).space pa (t.vt + 0) flags [] =
            (false, s.mem, []) := by
          intro pa
          rw [show t.vt + 0 = t.vt by simp, spaceMap, if_pos hfault]
          rfl
        rw [acceptFrom, ht]
        simp only [acceptLoop, if_pos hpos, hmap]

/-! ## One step -/

theorem NothingMapped.congr (h : NothingMapped s) (hs : SameSpaces s s')
    (hmade : ∀ p, s'.IsMade p ↔ s.IsMade p) : NothingMapped s' where
  faults p hp va hva := by
    rw [hs.mem, hs.space]
    exact h.faults p ((hmade p).mp hp) va hva
  unoffered p hp := by
    rw [hs.addrOffer]
    exact h.unoffered p (mt (hmade p).mpr hp)

/-- What is written to a page makes no difference. -/
theorem NothingMapped.modifyPage (h : NothingMapped s) (a : Word) (f : ProcPage → ProcPage) :
    NothingMapped (s.modifyPage a f) :=
  h.congr ⟨rfl, fun _ => rfl, fun _ => rfl⟩ fun _ => Iff.rfl

/-- The entry of a covered address is in the page of the space. -/
theorem tabAddr_l1x_inside (space : Word) {va : Word} (hva : Covered va) :
    tabAddr space (l1x va) - space < pageSize :=
  tabAddr_sub_lt (l1x_lt hva)

/-- A space starts without tables. -/
theorem memsetPage_l1 (m : Mem) (space : Word) {va : Word} (hva : Covered va) :
    memsetPage m space (tabAddr space (l1x va)) = l1Fault := by
  rw [memsetPage, if_pos (tabAddr_l1x_inside space hva)]
  rfl

/-- **What the pages hold does not matter**, when they are apart from the spaces. -/
theorem NothingMapped.holds (h : NothingMapped s) (hapart : s.HomesApart) {m : Mem}
    (hm : s.Holds m) : NothingMapped { s with mem := m } where
  faults p hp va hva := by
    have hentry := tabAddr_l1x_inside (s.procs p).space hva
    exact (hm _ fun q hq hin => hapart q p hq hp _ hin hentry).trans (h.faults p hp va hva)
  unoffered := h.unoffered

theorem memsetPage_of_fault {m : Mem} {a page : Word} (h : m a = l1Fault) :
    memsetPage m page a = l1Fault := by
  unfold memsetPage
  split_ifs
  · rfl
  · exact h

theorem NothingMapped.spawn (h : NothingMapped s) (spacePage page : Word)
    (alive : Option ProcRef) (nexts : ProcRef → Option ProcRef) :
    NothingMapped { ({ s with mem := memsetPage s.mem spacePage } : State).spawn spacePage page
      alive nexts with control := .user } where
  faults p hp va hva := by
    by_cases hnew : p = s.nextpid
    · simp only [State.spawn, if_pos hnew, freshProc]
      exact memsetPage_l1 s.mem spacePage hva
    · simp only [State.IsMade, State.spawn, if_neg hnew] at hp ⊢
      exact memsetPage_of_fault (h.faults p hp va hva)
  unoffered p hp := by
    by_cases hnew : p = s.nextpid
    · simp only [State.spawn, if_pos hnew]
      rfl
    · simp only [State.IsMade, State.spawn, if_neg hnew] at hp ⊢
      exact h.unoffered p hp

theorem NothingMapped.addrOffer (h : NothingMapped s) (hu : s.IsMade u) (offer : AddrOffer) :
    NothingMapped { s.modifyProc u (fun q => { q with addrOffer := offer }) with
      control := .user } := by
  have hstate : ∀ p, ((s.modifyProc u fun q => { q with addrOffer := offer }).procs p).state =
      (s.procs p).state := State.modifyProc_field Proc.state rfl
  have hspace : ∀ p, ((s.modifyProc u fun q => { q with addrOffer := offer }).procs p).space =
      (s.procs p).space := State.modifyProc_field Proc.space rfl
  refine ⟨fun p hp va hva => ?_, fun p hp => ?_⟩
  · simp only [State.IsMade, hstate] at hp
    simp only [hspace]
    exact h.faults p hp va hva
  · simp only [State.IsMade, hstate] at hp
    have hne : p ≠ u := fun heq => hp (heq ▸ hu)
    simp only [State.modifyProc_procs_of_ne hne]
    exact h.unoffered p hp

/-- The step is no successful transfer. -/
def NoTransfer (t : KStep) : Prop :=
  ∀ pid start len flags, t.act = .syscall (.addrAccept pid start len flags) →
    t.post.mem = t.pre.mem ∧ ((∃ u, t.events = [.returned u err]) ∨ len = 0)

theorem Completes.of_eq {x : Except Stuck Out} {evs : List Event} (h : Completes s x)
    (hx : x = .ok (s', evs)) : SameSpaces s s' := by
  obtain ⟨s₁, evs₁, hx₁, hsame⟩ := h
  rw [hx] at hx₁
  cases hx₁
  exact hsame

theorem inRange_of_ok {c : Syscall} {out : Out} (hs : syscall s u c = .ok out) :
    ∀ pid ∈ (Action.syscall c).derefs, InRange pid := by
  intro pid hpid
  by_contra hrange
  rw [syscall_of_not_inRange hpid hrange] at hs
  cases hs

/-- The action is no system call about processes and memory. -/
def Action.LeavesSpaces : Action → Prop
  | .syscall (.procCreate ..) | .syscall (.addrOffer ..) | .syscall (.addrAccept ..) => False
  | _ => True

/-- Every other step leaves spaces and offers alone. -/
theorem Inv.step_sameSpaces (h : Inv s n Q) (hlab : s.Labelled) {a : Action} {evs : List Event}
    (ha : a.LeavesSpaces) (hs : Omb.step s a = .ok (s', evs)) : SameSpaces s s' := by
  have hen := enabled_of_step hs
  have hupOf : s.control ≠ .idle → ∃ u, s.up = some u := by
    intro hc
    rw [Ne, h.control] at hc
    exact Option.ne_none_iff_exists'.mp hc
  cases a with
  | syscall c =>
      have hc : s.control = .user := hen
      obtain ⟨u, hup⟩ := hupOf (by simp [hc])
      simp only [Omb.step, hc, hup] at hs
      have hpid := inRange_of_ok hs
      cases c with
      | getProcPage | getKernelPage =>
          cases hs
          exact ⟨rfl, fun _ => rfl, fun _ => rfl⟩
      | send pid => exact (h.sysSend_completes hup (hpid pid rfl)).of_eq hs
      | recv pid => exact (h.recvToUser_completes hup pid).of_eq hs
      | reply pid ret => exact (h.sysReply_completes (hpid pid rfl) ret).of_eq hs
      | replyRecv pid ret rpid =>
          exact (h.sysReplyRecv_completes hup (hpid pid rfl) ret rpid).of_eq hs
      | procCreate | addrOffer | addrAccept => exact absurd ha id
  | write page =>
      have hc : s.control = .user := hen
      obtain ⟨u, hup⟩ := hupOf (by simp [hc])
      simp only [Omb.step, hc, hup] at hs
      cases hs
      exact ⟨rfl, fun _ => rfl, fun _ => rfl⟩
  | tick =>
      have htick : schedule s .trap none = .ok (s', evs) := by
        rw [← hs]
        cases hc : s.control with
        | user =>
            obtain ⟨u, hup⟩ := hupOf (by simp [hc])
            simp only [Omb.step, hc, hup]
        | idle => simp only [Omb.step, hc, h.control.mp hc]
        | resume => exact absurd hc hen
      exact h.schedule_completes.of_eq htick
  | resume =>
      have hc : s.control = .resume := hen
      obtain ⟨u, hup⟩ := hupOf (by simp [hc])
      simp only [Omb.step, hc, hup] at hs
      exact (h.resume_completes hup (hlab u (by simp [h.running u hup]))).of_eq hs

/-- A process can make the system call. -/
theorem Inv.syscall_of_step (h : Inv s n Q) {c : Syscall} {out : Out}
    (hs : Omb.step s (.syscall c) = .ok out) :
    ∃ u, s.up = some u ∧ s.IsMade u ∧ syscall s u c = .ok out := by
  have hc : s.control = .user := enabled_of_step hs
  obtain ⟨u, hup⟩ : ∃ u, s.up = some u := by
    refine Option.ne_none_iff_exists'.mp fun hnone => ?_
    rw [h.control.mpr hnone] at hc
    cases hc
  simp only [Omb.step, hc, hup] at hs
  exact ⟨u, hup, by simp [State.IsMade, h.running u hup], hs⟩

/-- Every step leaves all spaces without tables.  Of those that concern spaces, making a
process clears one, and an accept stops at the first page. -/
theorem NothingMapped.step (hm : NothingMapped s) (hlab : s.Labelled) (h : Inv s n Q)
    {a : Action} {evs : List Event} (h' : Inv s' (n + a.creates.toNat) Q')
    (hs : Omb.step s a = .ok (s', evs)) (hcov : CoveredAccept ⟨s, a, evs, s'⟩) :
    NothingMapped s' ∧ NoTransfer ⟨s, a, evs, s'⟩ := by
  have hsame : a.creates = false → SameSpaces s s' → NothingMapped s' := by
    intro hcreates hsame
    refine hm.congr hsame fun p => not_congr ?_
    rw [hcreates] at h'
    rw [h.table.dead_iff, h'.table.dead_iff]
    rfl
  have hother : (∀ pid start len flags, a ≠ .syscall (.addrAccept pid start len flags)) →
      NoTransfer ⟨s, a, evs, s'⟩ :=
    fun hne pid start len flags heq => absurd heq (hne pid start len flags)
  by_cases ha : a.LeavesSpaces
  · refine ⟨hsame ?_ (h.step_sameSpaces hlab ha hs), hother ?_⟩
    · cases a with
      | syscall c => cases c <;> first | rfl | exact absurd ha id
      | _ => rfl
    · rintro pid start len flags rfl
      exact ha
  · cases a with
    | write | tick | resume => exact absurd trivial ha
    | syscall c =>
        obtain ⟨u, hup, hu, hcall⟩ := h.syscall_of_step hs
        cases c with
        | procCreate page spacePage =>
            have hroom : n < maxProcs := by
              have hcount := h'.table.count
              rw [show (Action.syscall (.procCreate page spacePage)).creates = true from rfl,
                Bool.toNat_true] at hcount
              omega
            obtain ⟨alive, nexts, hnew, -⟩ :=
              procNew_spec (h.withMem (memsetPage s.mem spacePage)) hroom spacePage page
            simp only [Omb.syscall, sysProcCreate, hnew] at hcall
            cases hcall
            exact ⟨hm.spawn spacePage page alive nexts, hother (by simp)⟩
        | addrOffer pid start len flags =>
            cases hcall
            exact ⟨hm.addrOffer hu _, hother (by simp)⟩
        | addrAccept pid start len flags =>
            obtain ⟨p, hp⟩ := deref_of_inRange (inRange_of_ok hcall pid rfl)
            simp only [CoveredAccept, hup, hp] at hcov
            obtain ⟨r, hout, hr⟩ := hm.acceptFrom_eq hu hcov
            simp only [Omb.syscall, sysAddrAccept, withProc_eq, hp, hout] at hcall
            cases hcall
            refine ⟨hsame rfl ⟨rfl, fun _ => rfl, fun _ => rfl⟩, ?_⟩
            rintro pid' start' len' flags' heq
            cases heq
            refine ⟨rfl, ?_⟩
            rcases hr with rfl | rfl
            · exact .inl ⟨u, rfl⟩
            · exact .inr rfl
        | _ => exact absurd trivial ha

/-! ## Runs -/

theorem bootState_nothingMapped (img : Image) (pages : Word → ProcPage) (mem : Mem)
    (alive : Option ProcRef) (nexts : ProcRef → Option ProcRef) :
    NothingMapped (bootState img pages mem alive nexts) := by
  have hmade : ∀ p, (bootState img pages mem alive nexts).IsMade p ↔ p = 0 := by
    intro p
    rw [State.IsMade, bootState_state]
    split_ifs with hp <;> simp [hp]
  have hsame : SameSpaces ((({ reset img pages mem with
      mem := memsetPage mem img.proc0SpacePage } : State).spawn img.proc0SpacePage img.proc0Page
        alive nexts).modifyProc 0 fun q => { q with label := .proc0Start })
      (bootState img pages mem alive nexts) := (SameSpaces.refl _).switchFrom ..
  refine ⟨fun p hp va hva => ?_, fun p hp => ?_⟩
  · obtain rfl := (hmade p).mp hp
    rw [hsame.mem, hsame.space]
    exact memsetPage_l1 mem img.proc0SpacePage hva
  · have hne : p ≠ 0 := mt (hmade p).mpr hp
    rw [hsame.addrOffer, State.modifyProc_procs_of_ne hne]
    simp only [State.spawn]
    split_ifs <;> rfl

/-- The homes of the processes are found where they have always been. -/
theorem KernelRun.keepsHomes {tr : List KStep} {s : State} (h : KernelRun tr s)
    (hn : created tr ≤ maxProcs) : ∀ t ∈ tr, ∀ p, t.pre.IsMade p → s.IsMade p ∧
      (s.procs p).page = (t.pre.procs p).page ∧ (s.procs p).space = (t.pre.procs p).space := by
  refine (KernelRun.invariant (C := fun _ => True) (P := fun tr s => ∀ t ∈ tr, ∀ p,
    t.pre.IsMade p → s.IsMade p ∧ (s.procs p).page = (t.pre.procs p).page ∧
      (s.procs p).space = (t.pre.procs p).space) ?_ ?_ h hn fun _ _ => trivial).2
  · intro _ _ _ _ _ t ht
    exact absurd ht List.not_mem_nil
  · intro tr s a evs s' Q Q' hinv hinv' ih _ _ hmove t ht p hp
    rcases List.mem_append.mp ht with ht | ht
    · obtain ⟨hmade, hpage, hspace⟩ := ih t ht p hp
      obtain ⟨hmade', hpage', hspace'⟩ := hmove.keepsHome hinv hinv' hmade
      exact ⟨hmade', hpage'.trans hpage, hspace'.trans hspace⟩
    · obtain rfl := List.mem_singleton.mp ht
      exact hmove.keepsHome hinv hinv' hp

theorem KernelRun.homesApart {tr : List KStep} {s : State} (h : KernelRun tr s)
    (hn : created tr ≤ maxProcs) (hapart : s.HomesApart) : ∀ t ∈ tr, t.pre.HomesApart := by
  intro t ht p q hp hq w hw
  obtain ⟨hp', hpage, -⟩ := h.keepsHomes hn t ht p hp
  obtain ⟨hq', -, hspace⟩ := h.keepsHomes hn t ht q hq
  rw [← hspace]
  exact hapart p q hp' hq' w (hpage ▸ hw)

theorem KernelRun.noTransfer {tr : List KStep} {s : State} (h : KernelRun tr s)
    (hn : created tr ≤ maxProcs) (hcov : ∀ t ∈ tr, CoveredAccept t) :
    NothingMapped s ∧ ∀ t ∈ tr, NothingMapped t.pre ∧ NoTransfer t := by
  refine (KernelRun.invariant
    (P := fun tr s => s.Labelled ∧ NothingMapped s ∧ ∀ t ∈ tr, NothingMapped t.pre ∧ NoTransfer t)
    (C := CoveredAccept) ?_ ?_ h hn hcov).2.2
  · intro img pages mem alive nexts
    exact ⟨bootState_labelled img pages mem alive nexts,
      bootState_nothingMapped img pages mem alive nexts, by simp⟩
  · rintro tr s a evs s' Q Q' hinv hinv' ⟨hlab, hm, hno⟩ hcovt hs hmove
    obtain ⟨hm', hno'⟩ := hm.step hlab hinv hinv' hs hcovt
    refine ⟨hmove.labelled hinv hinv' hlab, hm', fun t ht => ?_⟩
    rcases List.mem_append.mp ht with ht | ht
    · exact hno t ht
    · obtain rfl := List.mem_singleton.mp ht
      exact ⟨hm, hno'⟩

/-- Whatever the pages of the processes hold, the step is no successful transfer: the call
returns `ERR`, or is about an empty range, and leaves memory as it is. -/
def NeverTransfers (t : KStep) : Prop :=
  ∀ pid start len flags, t.act = .syscall (.addrAccept pid start len flags) →
    ∀ m, t.pre.Holds m → ∃ u r, (r = err ∨ len = 0) ∧
      step { t.pre with mem := m } t.act = .ok ({ t.post with mem := m }, [.returned u r])

/-- The call returns what the transfer does. -/
theorem step_addrAccept {pid start len flags r : Word} (hc : s.control = .user)
    (hup : s.up = some u) (hp : deref pid.toInt = .ok p)
    (hout : acceptFrom s u p start len flags [] = .ok (r, s')) :
    step s (.syscall (.addrAccept pid start len flags)) =
      .ok ({ s' with control := .user }, [.returned u r]) := by
  simp only [step, hc, hup, syscall, sysAddrAccept, withProc_eq, hp, hout]
  rfl

theorem NothingMapped.neverTransfers (hm : NothingMapped s) (h : Inv s n Q) {a : Action}
    {evs : List Event} (hapart : s.HomesApart) (hs : Omb.step s a = .ok (s', evs))
    (hcov : CoveredAccept ⟨s, a, evs, s'⟩) : NeverTransfers ⟨s, a, evs, s'⟩ := by
  rintro pid start len flags rfl m hholds
  obtain ⟨u, hup, hu, hcall⟩ := h.syscall_of_step hs
  obtain ⟨p, hp⟩ := deref_of_inRange (inRange_of_ok hcall pid rfl)
  have hc : s.control = .user := enabled_of_step hs
  simp only [CoveredAccept, hup, hp] at hcov
  -- one call on the memory of the model, and one on what memory holds
  obtain ⟨r₀, hout₀, -⟩ := hm.acceptFrom_eq hu hcov
  obtain ⟨r, hout, hr⟩ := (hm.holds hapart hholds).acceptFrom_eq hu hcov
  rw [step_addrAccept hc hup hp hout₀] at hs
  cases hs
  exact ⟨u, r, hr, step_addrAccept (s := { s with mem := m }) hc hup hp hout⟩

/-- **No page is ever transferred**, whichever processes offer and accept whatever they like
of the covered addresses, and whatever they write to their pages: every call of
`sys_addr_accept` about a range that is not empty returns `ERR`, none changes memory, and
nothing is mapped anywhere.  Without `hcov` an entry is made behind a first-level table, in
whatever is there; without `hapart` a process writes table entries with its messages. -/
theorem no_transfer_of_run {tr : List KStep} {s : State} (h : KernelRun tr s)
    (hn : created tr ≤ maxProcs) (hcov : ∀ t ∈ tr, CoveredAccept t) (hapart : s.HomesApart) :
    (∀ t ∈ tr, NeverTransfers t) ∧
      ∀ m, s.Holds m → ∀ p, s.IsMade p → ∀ va, Covered va →
        translate m (s.procs p).space va = l2Fault := by
  obtain ⟨hm, hno⟩ := h.noTransfer hn hcov
  refine ⟨fun t ht => ?_, fun m hholds p hp va hva => ?_⟩
  · obtain ⟨hs, -, ⟨n, Q, hinv⟩, -⟩ := h.forall_step hn t ht
    exact (hno t ht).1.neverTransfers hinv (h.homesApart hn hapart t ht) hs (hcov t ht)
  · rw [translate, if_pos]
    have hfault : m (tabAddr (s.procs p).space (l1x va)) = l1Fault :=
      (hm.holds hapart hholds).faults p hp va hva
    rw [tabOf, hfault]
    rfl

/-- The page and the space of the only process are apart. -/
theorem KernelRun.homesApart_of_one {tr : List KStep} {s : State} (h : KernelRun tr s)
    (hone : created tr = 1) (hpage : (s.procs 0).page = 0x1000)
    (hspace : (s.procs 0).space = 0x3000) : s.HomesApart := by
  obtain ⟨Q, hinv⟩ := h.inv (hone.trans_le (by decide))
  have hmade : ∀ p, s.IsMade p → p = 0 := fun p hp => by
    have hlt := hinv.table.lt_of_ne_dead hp
    rw [hone] at hlt
    exact Fin.ext (Nat.lt_one_iff.mp hlt)
  intro p q hp hq w hw hw'
  rw [hmade p hp, hpage] at hw
  rw [hmade q hq, hspace] at hw'
  unfold pageSize at hw hw'
  bv_omega

/-- `proc0` offers a page to itself and does not get it. -/
theorem no_transfer_of_own_offer :
    ∃ tr s, exampleRun [.resume, .syscall (.addrOffer 0 0x1000 0x1000 6),
        .syscall (.addrAccept 0 0x3000 0x1000 7)] = .ok (tr, s) ∧
      (tr.map fun t => t.events) = [[.dropped 0 0x4000 0x3000], [.returned 0 ok],
        [.returned 0 err]] ∧
      (∀ t ∈ tr, NeverTransfers t) ∧
      ∀ m, s.Holds m → ∀ p, s.IsMade p → ∀ va, Covered va →
        translate m (s.procs p).space va = l2Fault := by
  obtain ⟨tr, s, hrun, hP⟩ := exists_exampleRun
    [.resume, .syscall (.addrOffer 0 0x1000 0x1000 6), .syscall (.addrAccept 0 0x3000 0x1000 7)]
    (fun tr s => created tr = 1 ∧ (∀ t ∈ tr, CoveredAccept t) ∧
      (s.procs 0).page = 0x1000 ∧ (s.procs 0).space = 0x3000 ∧
      (tr.map fun t => t.events) = [[.dropped 0 0x4000 0x3000], [.returned 0 ok],
        [.returned 0 err]]) (by decide +kernel)
  rw [decide_eq_true_eq] at hP
  obtain ⟨hone, hcov, hpage, hspace, hevs⟩ := hP
  have h := KernelRun.of_bootRun hrun
  have hn : created tr ≤ maxProcs := hone.trans_le (by decide)
  exact ⟨tr, s, hrun, hevs,
    no_transfer_of_run h hn hcov (h.homesApart_of_one hone hpage hspace)⟩

end Omb
