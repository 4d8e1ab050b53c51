import Omb.Kern.Machine
import Omb.Kern.Sched

/-!
# What a stretch of kernel code does to the others

Whatever state the kernel is in, a stretch of code of the running process leaves the
other processes where they are suspended: it does not touch their labels, puts none of
them in `PROC_recv`, and adds to the waiting list of one that is in `PROC_recv` only when
it switches to that one (`step_stretch`).  The exception is a slot it makes a process in.

Nothing is assumed of the state: not the invariant of the queues, nor how many processes have
been made.  So this also holds of the states that interrupted kernel code leaves, in which the
invariant does not; that is what it is for.

Each function has a lemma of its own, which says that it returns in a `Calm` state or has
called `schedule` from one, and those of the system calls are put together in `syscall_stretch`.

## Main definitions

* `Calm`: what kernel code has done to the others before it calls `schedule`
* `Stretch`: what it has done when it is left

## Main results

* `syscall_stretch`, `resume_stretch`: one stretch of code
* `step_stretch`: one step of the machine
-/

namespace Omb

/-! ## Up to the call of `schedule` -/

/-- `p` is suspended where it was, and if it is in `PROC_recv` it was so before, with the same
waiting list. -/
structure Untroubled (s s' : State) (p : ProcRef) : Prop where
  label : (s'.procs p).label = (s.procs p).label
  recv : (s'.procs p).state = .recv →
    (s.procs p).state = .recv ∧ (s'.procs p).waiting = (s.procs p).waiting

/-- A process has just been made in the slot. -/
structure JustMade (s' : State) (p : ProcRef) : Prop where
  label : (s'.procs p).label = .procStart
  state : (s'.procs p).state = .ready

/-- Kernel code of `u` that has not called `schedule`, and will call it for `n`.  What is done
to `n` does not matter, as it is switched to. -/
structure Calm (u : ProcRef) (n : Option ProcRef) (s s' : State) : Prop where
  up : s'.up = s.up
  others : ∀ p, p ≠ u → n ≠ some p → Untroubled s s' p
  next : ∀ p, p ≠ u → (s'.procs p).label = (s.procs p).label

variable {s s' : State} {u p : ProcRef} {n : Option ProcRef} {k : Label}

theorem Untroubled.of_eq (hlabel : (s'.procs p).label = (s.procs p).label)
    (hstate : (s'.procs p).state = (s.procs p).state)
    (hwaiting : (s'.procs p).waiting = (s.procs p).waiting) : Untroubled s s' p :=
  ⟨hlabel, fun hrecv => ⟨hstate ▸ hrecv, hwaiting⟩⟩

/-- Nothing but the running process has been touched. -/
theorem Calm.of_procs (hup : s'.up = s.up) (h : ∀ p, p ≠ u → s'.procs p = s.procs p) :
    Calm u n s s' where
  up := hup
  others := fun p hp _ => .of_eq (by rw [h p hp]) (by rw [h p hp]) (by rw [h p hp])
  next := fun p hp => by rw [h p hp]

/-- Only the waiting list of one process has been touched. -/
structure QueueChange (l : ProcRef) (s s' : State) : Prop where
  up : s'.up = s.up
  label : ∀ p, (s'.procs p).label = (s.procs p).label
  state : ∀ p, (s'.procs p).state = (s.procs p).state
  waiting : ∀ p, p ≠ l → (s'.procs p).waiting = (s.procs p).waiting

theorem QueueChange.refl (l : ProcRef) (s : State) : QueueChange l s s :=
  ⟨rfl, fun _ => rfl, fun _ => rfl, fun _ _ => rfl⟩

theorem QueueChange.modifyList (h : QueueChange u s s') (i : ListRef)
    (f : ProcList → ProcList) : QueueChange u s (s'.modifyList i f) :=
  ⟨h.up, h.label, h.state, h.waiting⟩

theorem QueueChange.setWaiting (h : QueueChange u s s') (head : Option ListRef) :
    QueueChange u s (s'.modifyProc u fun q => { q with waiting := head }) where
  up := h.up
  label := fun p => (s'.modifyProc_field (·.label) rfl p).trans (h.label p)
  state := fun p => (s'.modifyProc_field (·.state) rfl p).trans (h.state p)
  waiting := fun p hp => by rw [State.modifyProc_procs_of_ne hp, h.waiting p hp]

theorem queueChange_procListAdd {l w : ProcRef} (h : procListAdd s l w = .ok (some s')) :
    QueueChange l s s' := by
  unfold procListAdd at h
  split at h
  · cases h
  · rename_i i hfree
    unfold linkEntry at h
    split at h
    · cases h
    · cases h
      exact ((QueueChange.refl l s).modifyList _ _).setWaiting _
    · cases h
      exact ((QueueChange.refl l s).modifyList _ _).modifyList _ _

theorem queueChange_procListRemove {l w : ProcRef} {pid : Word}
    (h : procListRemove s l pid = .ok (some (w, s'))) : QueueChange l s s' := by
  unfold procListRemove at h
  split at h
  · cases h
  · cases h
  · cases h
    unfold unlinkEntry
    split
    · exact ((QueueChange.refl l s).setWaiting _).modifyList _ _
    · exact ((QueueChange.refl l s).modifyList _ _).modifyList _ _

/-- `add_to_list_back` stores `next` pointers only. -/
theorem addToListBack_procs (h : addToListBack s u = .ok s') :
    s'.up = s.up ∧ ∀ p, (s'.procs p).label = (s.procs p).label ∧
      (s'.procs p).state = (s.procs p).state ∧ (s'.procs p).waiting = (s.procs p).waiting := by
  have hstore : ∀ (t : State) (q : ProcRef) (v : Option ProcRef) (p : ProcRef),
      ((t.modifyProc q fun r => { r with next := v }).procs p).label = (t.procs p).label ∧
      ((t.modifyProc q fun r => { r with next := v }).procs p).state = (t.procs p).state ∧
      ((t.modifyProc q fun r => { r with next := v }).procs p).waiting = (t.procs p).waiting :=
    fun t q v p => ⟨t.modifyProc_field (·.label) rfl p, t.modifyProc_field (·.state) rfl p,
      t.modifyProc_field (·.waiting) rfl p⟩
  unfold addToListBack at h
  simp only at h
  split at h
  · cases h
  · cases h
    exact ⟨rfl, hstore s u none⟩
  · rename_i q _
    cases h
    refine ⟨rfl, fun p => ?_⟩
    obtain ⟨hlabel, hstate, hwaiting⟩ := hstore (s.modifyProc u fun r => { r with next := none })
      q (some u) p
    obtain ⟨hlabel₀, hstate₀, hwaiting₀⟩ := hstore s u none p
    exact ⟨hlabel.trans hlabel₀, hstate.trans hstate₀, hwaiting.trans hwaiting₀⟩

/-- What `proc_new` leaves in the table. -/
theorem procNew_procs {space page : Word} {pid : ProcRef}
    (h : procNew s space page = .ok (pid, s')) :
    pid = s.nextpid ∧ s'.up = s.up ∧ JustMade s' pid ∧ ∀ p, p ≠ pid → Untroubled s s' p := by
  unfold procNew at h
  simp only at h
  split at h
  · cases h
  · rename_i s₁ hadd
    obtain ⟨rfl, rfl⟩ : s.nextpid = pid ∧ s₁ = s' := by simpa using h
    obtain ⟨hup, hprocs⟩ := addToListBack_procs hadd
    refine ⟨rfl, hup, ⟨?_, ?_⟩, fun p hp => ?_⟩
    · simp [(hprocs _).1, freshProc]
    · simp [(hprocs _).2.1, freshProc]
    · obtain ⟨hlabel, hstate, hwaiting⟩ := hprocs p
      simp only [State.modifyPage_procs, State.modifyProc_procs_of_ne hp]
        at hlabel hstate hwaiting
      exact .of_eq hlabel hstate hwaiting

/-! ## The whole stretch -/

/-- A label of a system call that called `schedule`. -/
def Label.OfCall : Label → Prop
  | .ksend | .krecv _ .sysRecv | .kreply _ | .kreplyRecv _ => True
  | _ => False

/-- What a stretch of kernel code does that goes on in user code or in a switch to another
process.  `K` are the labels the process it suspends may get, and `m` is the slot it makes a
process in, which need not be free. -/
structure Stretch (K : Label → Prop) (m : Option ProcRef) (s s' : State) : Prop where
  others : ∀ p, s.up ≠ some p → s'.up ≠ some p → m ≠ some p → Untroubled s s' p
  made : ∀ p, m = some p → JustMade s' p ∧ s'.control = .user
  next : ∀ p, s.up ≠ some p → s'.up = some p → (s'.procs p).label = (s.procs p).label
  user : s'.control = .user → s'.up = s.up
  suspended : ∀ u, s.up = some u → s'.control ≠ .user → K (s'.procs u).label
  resumed : s'.control = .resume → ∃ q, s'.up = some q ∧ (s'.procs q).state = .oncpu
  idle : s'.control = .idle → s'.up = none

/-- Only the process that is left, and the one that is made, get another label. -/
theorem Stretch.label {K : Label → Prop} {m : Option ProcRef} (h : Stretch K m s s')
    (hup : s.up ≠ some p) (hm : m ≠ some p) : (s'.procs p).label = (s.procs p).label := by
  by_cases hup' : s'.up = some p
  · exact h.next p hup hup'
  · exact (h.others p hup hup' hm).label

/-- `schedule` switches to the process it is given. -/
theorem schedule_eq {evs : List Event} (h : schedule s k n = .ok (s', evs)) :
    ∃ r, s' = s.switchFrom k r ∧ (n ≠ none → r = n) := by
  cases n with
  | some q =>
      rw [schedule_some] at h
      cases h
      exact ⟨some q, rfl, fun _ => rfl⟩
  | none =>
      unfold schedule at h
      simp only at h
      split at h
      · cases h
      · rename_i r hnext
        cases h
        exact ⟨r, rfl, fun hne => absurd rfl hne⟩

/-- A process that goes on is on the CPU. -/
theorem switchFrom_resume {r : Option ProcRef} (h : (s.switchFrom k r).control = .resume) :
    ∃ q, (s.switchFrom k r).up = some q ∧ ((s.switchFrom k r).procs q).state = .oncpu := by
  rw [State.switchFrom_control] at h
  split_ifs at h with hnone
  obtain ⟨q, rfl⟩ := Option.ne_none_iff_exists'.mp hnone
  refine ⟨q, ?_, ?_⟩
  · rw [State.switchFrom_up]
  · rw [State.switchFrom_state, if_pos rfl]

theorem switchFrom_idle {r : Option ProcRef} (h : (s.switchFrom k r).control = .idle) :
    (s.switchFrom k r).up = none := by
  rw [State.switchFrom_control] at h
  split_ifs at h with hnone
  rw [State.switchFrom_up, hnone]

/-- A process that is neither left nor switched to keeps all of its fields. -/
theorem switchFrom_untroubled {r : Option ProcRef} (hup : s.up ≠ some p) (hr : r ≠ some p) :
    Untroubled s (s.switchFrom k r) p := by
  rw [State.switchFrom_eq]
  exact .of_eq (if_neg hup) (by simp only [if_neg hr, if_neg hup]) rfl

theorem Untroubled.trans {s'' : State} (h : Untroubled s s' p) (h' : Untroubled s' s'' p) :
    Untroubled s s'' p where
  label := h'.label.trans h.label
  recv := fun hrecv =>
    ⟨(h.recv (h'.recv hrecv).1).1, (h'.recv hrecv).2.trans (h.recv (h'.recv hrecv).1).2⟩

/-- **`schedule` ends a stretch.** -/
theorem Calm.schedule {s₁ : State} (hup : s.up = some u) (hcalm : Calm u n s s₁)
    {evs : List Event} (h : Omb.schedule s₁ k n = .ok (s', evs)) {K : Label → Prop} (hk : K k) :
    Stretch K none s s' := by
  obtain ⟨r, rfl, hr⟩ := schedule_eq h
  have hup₁ : s₁.up = some u := hcalm.up.trans hup
  have hne : ∀ p, s.up ≠ some p → p ≠ u := fun p hp heq => hp (by rw [hup, heq])
  have hother : ∀ p, s.up ≠ some p → s₁.up ≠ some p := fun p hp => by rwa [hcalm.up]
  refine ⟨fun p hp hp' _ => ?_, fun p hp => (by cases hp), fun p hp hp' => ?_, fun hc => ?_,
    fun v hv _ => ?_, fun hc => ?_, fun hc => ?_⟩
  · rw [State.switchFrom_up] at hp'
    have hn : n ≠ some p := fun heq => hp' ((hr (by simp [heq])).trans heq)
    exact (hcalm.others p (hne p hp) hn).trans (switchFrom_untroubled (hother p hp) hp')
  · rw [State.switchFrom_eq]
    simpa only [if_neg (hother p hp)] using hcalm.next p (hne p hp)
  · rw [State.switchFrom_control] at hc
    split_ifs at hc
  · obtain rfl : u = v := Option.some.inj (hup.symm.trans hv)
    rw [State.switchFrom_eq]
    simpa only [if_pos hup₁] using hk
  · exact switchFrom_resume hc
  · exact switchFrom_idle hc

/-- A return to user code ends a stretch. -/
theorem Calm.toUser {s₁ : State} (hup : s.up = some u) (hcalm : Calm u none s s₁)
    {K : Label → Prop} : Stretch K none s { s₁ with control := .user } where
  others := fun p hp _ _ => by
    have hother := hcalm.others p (fun heq => hp (by rw [hup, heq])) (by simp)
    exact ⟨hother.label, hother.recv⟩
  made := fun p hp => by cases hp
  next := fun p hp _ => hcalm.next p fun heq => hp (by rw [hup, heq])
  user := fun _ => hcalm.up
  suspended := fun _ _ hc => absurd rfl hc
  resumed := fun hc => by cases hc
  idle := fun hc => by cases hc

theorem Calm.refl (u : ProcRef) (n : Option ProcRef) (s : State) : Calm u n s s :=
  .of_procs rfl fun _ _ => rfl

/-- The running process changes its own fields. -/
theorem Calm.modifySelf {s₁ : State} (h : Calm u n s s₁) (f : Proc → Proc) :
    Calm u n s (s₁.modifyProc u f) where
  up := h.up
  others := fun p hp hn => by
    have hother := h.others p hp hn
    exact hother.trans (.of_eq (by rw [State.modifyProc_procs_of_ne hp])
      (by rw [State.modifyProc_procs_of_ne hp]) (by rw [State.modifyProc_procs_of_ne hp]))
  next := fun p hp => by
    rw [State.modifyProc_procs_of_ne hp]
    exact h.next p hp

theorem Calm.modifyPage {s₁ : State} (h : Calm u n s s₁) (a : Word) (f : ProcPage → ProcPage) :
    Calm u n s (s₁.modifyPage a f) :=
  ⟨h.up, fun p hp hn => ⟨(h.others p hp hn).label, (h.others p hp hn).recv⟩, h.next⟩

/-- A process is made to wait for a reply. -/
theorem Calm.setReply {s₁ : State} (h : Calm u n s s₁) (w : ProcRef) :
    Calm u n s (s₁.modifyProc w fun q => { q with state := .reply }) where
  up := h.up
  others := fun p hp hn => by
    refine (h.others p hp hn).trans ⟨s₁.modifyProc_field (·.label) rfl p, fun hrecv => ?_⟩
    by_cases hpw : p = w
    · subst hpw
      simp at hrecv
    · rw [State.modifyProc_procs_of_ne hpw] at hrecv ⊢
      exact ⟨hrecv, rfl⟩
  next := fun p hp => (s₁.modifyProc_field (·.label) rfl p).trans (h.next p hp)

/-- A change of the waiting list of a process that is switched to, of one that is not in
`PROC_recv`, or of the running process. -/
theorem Calm.queueChange {s₁ s₂ : State} {l : ProcRef} (h : Calm u n s s₁)
    (hq : QueueChange l s₁ s₂) (hl : l = u ∨ n = some l ∨ (s₁.procs l).state ≠ .recv) :
    Calm u n s s₂ where
  up := hq.up.trans h.up
  others := fun p hp hn => by
    refine (h.others p hp hn).trans ⟨hq.label p, fun hrecv => ?_⟩
    rw [hq.state p] at hrecv
    refine ⟨hrecv, hq.waiting p ?_⟩
    rintro rfl
    rcases hl with hl | hl | hl
    · exact hp hl
    · exact hn hl
    · exact hl hrecv
  next := fun p hp => (hq.label p).trans (h.next p hp)

/-- How a kernel function leaves a stretch. -/
def FlowCalm (u : ProcRef) (s : State) {α : Type} : Flow α → Prop
  | .ret _ out => Calm u none s out.1
  | .switched out => Stretch Label.OfCall none s out.1

theorem ksend_calm (hup : s.up = some u) {f : Flow Word} (h : ksend s u p = .ok f) :
    FlowCalm u s f := by
  unfold ksend at h
  split_ifs at h with hdead
  · cases h
    exact .refl u none s
  · simp only at h
    have hself : Calm u none s (s.modifyProc u fun q => { q with waitingOn := some p }) :=
      (Calm.refl u none s).modifySelf _
    split at h
    · cases h
    · cases h
      exact hself
    · rename_i s₁ hadd
      split at h
      · cases h
      · rename_i s₂ evs hsched
        cases h
        refine Calm.schedule hup (Calm.modifySelf ?_ _) hsched trivial
        have hq := queueChange_procListAdd hadd
        have hself' : Calm u (if ((s₁.modifyProc u fun q => { q with state := .send }).procs
            p).state = .recv then some p else none) s
            (s.modifyProc u fun q => { q with waitingOn := some p }) :=
          (Calm.refl u _ s).modifySelf _
        refine hself'.queueChange hq ?_
        by_cases hpu : p = u
        · exact .inl hpu
        · right
          rw [State.modifyProc_procs_of_ne hpu]
          split_ifs with hrecv
          · exact .inl rfl
          · right
            rwa [← hq.state p]

/-- A turn of `krecv` that finds a sender. -/
theorem krecv_ret_calm {pid : Word} {caller : RecvCaller} {w : ProcRef} {out : Out}
    (h : krecv s u pid caller = .ok (.ret w out)) : Calm u none s out.1 := by
  unfold krecv at h
  split at h
  · cases h
  · rename_i w' s₁ hremove
    simp only [Except.ok.injEq, Flow.ret.injEq] at h
    obtain ⟨rfl, rfl⟩ := h
    have hq := queueChange_procListRemove hremove
    exact (((Calm.refl u none s).queueChange hq (.inl rfl)).modifyPage _ _).setReply w'
  · unfold Flow.schedule at h
    split at h <;> cases h

theorem krecv_calm (hup : s.up = some u) {pid : Word} {f : Flow ProcRef}
    (h : krecv s u pid .sysRecv = .ok f) : FlowCalm u s f := by
  cases f with
  | ret w out => exact krecv_ret_calm h
  | switched out =>
      unfold krecv at h
      split at h
      · cases h
      · cases h
      · unfold Flow.schedule at h
        split at h
        · cases h
        · rename_i out' hsched
          cases h
          exact Calm.schedule hup ((Calm.refl u none s).modifySelf _) hsched trivial

theorem deliverReply_calm (s : State) (u p : ProcRef) (ret : Word) (n : Option ProcRef) :
    Calm u n s (deliverReply s u p ret) := by
  unfold deliverReply
  exact (Calm.refl u n s).modifyPage _ _

theorem kreply_calm (hup : s.up = some u) {ret : Word} {caller : ReplyCaller} {f : Flow Word}
    (h : kreply s u p ret caller = .ok f) : FlowCalm u s f := by
  unfold kreply at h
  split_ifs at h
  · split at h
    · cases h
    · rename_i s₁ evs hsched
      cases h
      exact Calm.schedule hup (deliverReply_calm s u p ret _) hsched trivial
  · cases h
    exact .refl u none s

theorem kreplyRecv_calm (hup : s.up = some u) {ret pid : Word} {f : Flow (Option ProcRef)}
    (h : kreplyRecv s u p ret pid = .ok f) : FlowCalm u s f := by
  unfold kreplyRecv at h
  split_ifs at h
  · simp only at h
    split at h
    · cases h
    · rename_i s₁ evs hsched
      cases h
      exact Calm.schedule hup ((deliverReply_calm s u p ret _).modifySelf _) hsched trivial
  · cases h
    exact .refl u none s

/-! ## System calls -/

/-- The slot `proc_new` would use. -/
def Syscall.makes (s : State) : Syscall → Option ProcRef
  | .procCreate _ _ => some s.nextpid
  | _ => none

theorem FlowCalm.toUser (hup : s.up = some u) {f : Flow Word} (h : FlowCalm u s f) :
    Stretch Label.OfCall none s (Flow.toUser u f).1 := by
  cases f with
  | ret v out => exact Calm.toUser hup h
  | switched out => exact h

theorem recvToUser_stretch (hup : s.up = some u) {pid : Word} {evs : List Event}
    (h : recvToUser s u pid = .ok (s', evs)) : Stretch Label.OfCall none s s' := by
  unfold recvToUser at h
  split at h
  · cases h
  · rename_i w out hrecv
    cases h
    exact Calm.toUser hup (krecv_calm hup hrecv)
  · rename_i out hrecv
    cases h
    exact krecv_calm hup hrecv

/-- A system call that begins with `find_proc`. -/
theorem withProc_stretch (hup : s.up = some u) {pid : Word} {body : ℤ → Except Stuck Out}
    (hbody : ∀ i out, body i = .ok out → Stretch Label.OfCall none s out.1) {evs : List Event}
    (h : withProc s u pid body = .ok (s', evs)) : Stretch Label.OfCall none s s' := by
  unfold withProc at h
  split at h
  · cases h
    exact Calm.toUser hup (.refl u none s)
  · exact hbody _ _ h

/-- A call that returns what a kernel function does. -/
theorem map_toUser_stretch (hup : s.up = some u) {f : Except Stuck (Flow Word)}
    (hf : ∀ r, f = .ok r → FlowCalm u s r) {out : Out}
    (h : f.map (Flow.toUser u) = .ok out) : Stretch Label.OfCall none s out.1 := by
  cases f with
  | error e => cases h
  | ok r =>
      cases h
      exact (hf r rfl).toUser hup

theorem sysSend_stretch (hup : s.up = some u) {pid : Word} {evs : List Event}
    (h : sysSend s u pid = .ok (s', evs)) : Stretch Label.OfCall none s s' := by
  refine withProc_stretch hup (fun i out hi => ?_) h
  split at hi
  · cases hi
  · exact map_toUser_stretch hup (fun r hr => ksend_calm hup hr) hi

theorem sysReply_stretch (hup : s.up = some u) {pid ret : Word} {evs : List Event}
    (h : sysReply s u pid ret = .ok (s', evs)) : Stretch Label.OfCall none s s' := by
  refine withProc_stretch hup (fun i out hi => ?_) h
  split at hi
  · cases hi
  · exact map_toUser_stretch hup (fun r hr => kreply_calm hup hr) hi

theorem sysReplyRecv_stretch (hup : s.up = some u) {pid ret rpid : Word} {evs : List Event}
    (h : sysReplyRecv s u pid ret rpid = .ok (s', evs)) : Stretch Label.OfCall none s s' := by
  refine withProc_stretch hup (fun i out hi => ?_) h
  split at hi
  · cases hi
  · split at hi
    · cases hi
    · rename_i out' hf
      cases hi
      exact Calm.toUser hup (kreplyRecv_calm hup hf)
    · rename_i w out' hf
      cases hi
      exact Calm.toUser hup (kreplyRecv_calm hup hf)
    · rename_i out' hf
      cases hi
      exact kreplyRecv_calm hup hf

theorem sysProcCreate_stretch {page spacePage : Word} {evs : List Event}
    (h : sysProcCreate s u page spacePage = .ok (s', evs)) :
    Stretch Label.OfCall (some s.nextpid) s s' := by
  rw [sysProcCreate] at h
  split at h
  · cases h
  · rename_i pid s₁ hnew
    cases h
    obtain ⟨rfl, hup₁, hmade, hothers⟩ := procNew_procs hnew
    refine ⟨fun p _ _ hm => ?_, fun p hp => ?_,
      fun p hp hp' => absurd (hup₁.symm.trans hp') hp, fun _ => hup₁,
      fun _ _ hc => absurd rfl hc, fun hc => (by cases hc), fun hc => (by cases hc)⟩
    · have hquiet := hothers p fun heq => hm (congrArg some heq.symm)
      exact ⟨hquiet.label, hquiet.recv⟩
    · obtain rfl := Option.some.inj hp
      exact ⟨⟨hmade.label, hmade.state⟩, rfl⟩

/-- The accept changes the translation tables only. -/
theorem acceptFrom_procs {start len flags r : Word} {supply : List Word}
    (h : acceptFrom s u p start len flags supply = .ok (r, s')) :
    s'.procs = s.procs ∧ s'.up = s.up := by
  unfold acceptFrom at h
  split at h
  · cases h
    exact ⟨rfl, rfl⟩
  · split at h
    · cases h
    · cases h
      exact ⟨rfl, rfl⟩

theorem sysAddrAccept_stretch (hup : s.up = some u) {pid start len flags : Word}
    {supply : List Word} {evs : List Event}
    (h : sysAddrAccept s u pid start len flags supply = .ok (s', evs)) :
    Stretch Label.OfCall none s s' := by
  refine withProc_stretch hup (fun i out hi => ?_) h
  split at hi
  · cases hi
  · split at hi
    · cases hi
    · rename_i r s₁ haccept
      cases hi
      obtain ⟨hprocs, hup₁⟩ := acceptFrom_procs haccept
      exact Calm.toUser hup (.of_procs hup₁ fun p _ => by rw [hprocs])

/-- **A system call.**  Those that call `schedule` leave a label of their own, and the others
are back in user code. -/
theorem syscall_stretch (hup : s.up = some u) {c : Syscall} {evs : List Event}
    (h : syscall s u c = .ok (s', evs)) : Stretch Label.OfCall (c.makes s) s s' := by
  cases c with
  | getProcPage =>
      cases h
      exact Calm.toUser hup (.refl u none s)
  | getKernelPage =>
      cases h
      exact Calm.toUser hup (.refl u none s)
  | send pid => exact sysSend_stretch hup h
  | recv pid => exact recvToUser_stretch hup h
  | reply pid ret => exact sysReply_stretch hup h
  | replyRecv pid ret rpid => exact sysReplyRecv_stretch hup h
  | procCreate page spacePage => exact sysProcCreate_stretch h
  | addrOffer pid start len flags =>
      rw [syscall, sysAddrOffer] at h
      refine withProc_stretch hup (fun i out hi => ?_) h
      cases hi
      exact Calm.toUser hup ((Calm.refl u none s).modifySelf _)
  | addrAccept pid start len flags => exact sysAddrAccept_stretch hup h

/-! ## Steps -/

theorem Calm.trans_stretch {s₁ : State} (hup : s.up = some u) (h : Calm u none s s₁)
    {K : Label → Prop} {m : Option ProcRef} (h' : Stretch K m s₁ s') : Stretch K m s s' := by
  have hne : ∀ p, s.up ≠ some p → p ≠ u := fun p hp heq => hp (by rw [hup, heq])
  refine ⟨fun p hp hp' hm => ?_, h'.made, fun p hp hp' => ?_,
    fun hc => (h'.user hc).trans h.up, fun v hv => h'.suspended v (h.up.trans hv), h'.resumed,
    h'.idle⟩
  · exact (h.others p (hne p hp) (by simp)).trans (h'.others p (by rwa [h.up]) hp' hm)
  · exact (h'.next p (by rwa [h.up]) hp').trans (h.next p (hne p hp))

/-- `proc_start` with a sender queued: its `krecv` returns, and it replies. -/
theorem procStart_stretch (hup : s.up = some u) {pid : Word} {r : ProcRef × State}
    (hfound : procListRemove s u pid = .ok (some r)) {evs : List Event}
    (h : procStart s u pid = .ok (s', evs)) : Stretch Label.OfCall none s s' := by
  unfold procStart at h
  split at h
  · cases h
  · rename_i w out hrecv
    have hcalm := krecv_ret_calm hrecv
    unfold procStartReply at h
    simp only at h
    split at h
    · cases h
    · rename_i hreply
      cases h
      exact hcalm.trans_stretch hup (Calm.toUser (hcalm.up.trans hup)
        (kreply_calm (hcalm.up.trans hup) hreply))
    · rename_i hreply
      cases h
      exact hcalm.trans_stretch hup (kreply_calm (hcalm.up.trans hup) hreply)
  · rename_i out hrecv
    unfold krecv at hrecv
    rw [hfound] at hrecv
    cases hrecv

/-- The label is one `proc_start` has in its `krecv`, or has not come to it yet. -/
def Label.FirstReceive : Label → Prop
  | .procStart | .krecv _ .procStart => True
  | _ => False

instance : DecidablePred Label.FirstReceive := fun k => by
  cases k with
  | krecv pid caller => cases caller <;> unfold Label.FirstReceive <;> infer_instance
  | _ => unfold Label.FirstReceive; infer_instance

theorem resume_stretch (hup : s.up = some u) (hk : ¬ k.FirstReceive) {evs : List Event}
    (h : resume s u k = .ok (s', evs)) : Stretch Label.OfCall none s s' := by
  cases k with
  | unset => cases h
  | procStart => exact absurd trivial hk
  | proc0Start =>
      cases h
      exact Calm.toUser hup (.refl u none s)
  | trap =>
      cases h
      exact Calm.toUser hup (.refl u none s)
  | ksend =>
      cases h
      exact Calm.toUser hup (.refl u none s)
  | krecv pid caller =>
      cases caller with
      | sysRecv => exact recvToUser_stretch hup h
      | procStart => exact absurd trivial hk
  | kreply caller =>
      cases caller with
      | sysReply =>
          cases h
          exact Calm.toUser hup (.refl u none s)
      | procStart pc sp =>
          cases h
          exact Calm.toUser hup (.refl u none s)
  | kreplyRecv pid => exact recvToUser_stretch hup h

/-- A tick that interrupts the process. -/
theorem tick_stretch (hup : s.up = some u) {evs : List Event}
    (h : schedule s .trap none = .ok (s', evs)) : Stretch (· = .trap) none s s' :=
  Calm.schedule hup (.refl u none s) h rfl

/-- A tick in the idle loop. -/
theorem idle_stretch (hup : s.up = none) {evs : List Event}
    (h : schedule s k none = .ok (s', evs)) (K : Label → Prop) : Stretch K none s s' := by
  obtain ⟨r, rfl, -⟩ := schedule_eq h
  refine ⟨fun p hp hp' _ => ?_, fun p hp => (by cases hp), fun p hp _ => ?_, fun hc => ?_,
    fun v hv => ?_, fun hc => ?_, fun hc => ?_⟩
  · rw [State.switchFrom_up] at hp'
    exact switchFrom_untroubled hp hp'
  · rw [State.switchFrom_eq]
    simp only [if_neg hp]
  · rw [State.switchFrom_control] at hc
    split_ifs at hc
  · rw [hup] at hv
    cases hv
  · exact switchFrom_resume hc
  · exact switchFrom_idle hc

/-- The labels a process may get when it is suspended by the action. -/
def Action.Suspends : Action → Label → Prop
  | .tick, k => k = .trap
  | _, k => k.OfCall

/-- The slot the action makes a process in. -/
def Action.makes (s : State) : Action → Option ProcRef
  | .syscall c => c.makes s
  | _ => none

/-- **One step** that does not go on with a first receive leaves the others where they are
suspended.  It is stated for any state, since interrupted code leaves states in which no
invariant holds. -/
theorem step_stretch {a : Action} {evs : List Event} (h : step s a = .ok (s', evs))
    (hfirst : s.control = .resume → ∀ u, s.up = some u → ¬ (s.procs u).label.FirstReceive) :
    Stretch a.Suspends (a.makes s) s s' := by
  unfold step at h
  split at h
  · rename_i hup
    exact syscall_stretch hup h
  · rename_i hc hup
    cases h
    refine ⟨fun p _ _ _ => .of_eq rfl rfl rfl, fun p hp => (by cases hp), fun _ _ _ => rfl,
      fun _ => rfl,
      fun _ _ hc' => absurd hc hc', fun hc' => ?_, fun hc' => ?_⟩
    · exact absurd (hc.symm.trans hc') (by simp)
    · exact absurd (hc.symm.trans hc') (by simp)
  · rename_i hup
    exact tick_stretch hup h
  · rename_i hup
    exact idle_stretch hup h _
  · rename_i hc hup
    exact resume_stretch hup (hfirst hc _ hup) h
  · cases h

/-- **Boot** leaves every slot but the one of `proc0` as it is at reset. -/
theorem kmain_state {img : Image} {pages : Word → ProcPage} {mem : Mem} {evs : List Event}
    (h : kmain img pages mem = .ok (s', evs)) :
    s'.control = .resume ∧ s'.up = some 0 ∧ (s'.procs 0).state = .oncpu ∧
      (s'.procs 0).label = .proc0Start ∧ ∀ p, p ≠ 0 → Untroubled (reset img pages mem) s' p := by
  unfold kmain initProc0 at h
  simp only at h
  split at h
  · cases h
  · rename_i p0 s₁ hinit
    split at hinit
    · cases hinit
    · rename_i p0' s₀ hnew
      cases hinit
      obtain ⟨rfl, hup, -, hothers⟩ := procNew_procs hnew
      change schedule (s₀.modifyProc 0 fun q => { q with label := .proc0Start }) _ (some 0) = _
        at h
      rw [schedule_some] at h
      cases h
      have hup₀ : ∀ p, (s₀.modifyProc 0 fun q => { q with label := .proc0Start }).up ≠ some p :=
        fun p heq => by cases hup.symm.trans heq
      refine ⟨?_, State.switchFrom_up .., ?_, ?_, fun p hp => ?_⟩
      · rw [State.switchFrom_control, if_neg (by simp)]
      · rw [State.switchFrom_state, if_pos rfl]
      · rw [State.switchFrom_label, if_neg (hup₀ 0), State.modifyProc_procs_self]
      · have hquiet : Untroubled s₀ (s₀.modifyProc 0 fun q => { q with label := .proc0Start }) p :=
          .of_eq (by rw [State.modifyProc_procs_of_ne hp])
            (by rw [State.modifyProc_procs_of_ne hp]) (by rw [State.modifyProc_procs_of_ne hp])
        have hreset : Untroubled (reset img pages mem) s₀ p :=
          ⟨(hothers p hp).label, (hothers p hp).recv⟩
        exact (hreset.trans hquiet).trans
          (switchFrom_untroubled (hup₀ p) fun heq => hp (Option.some.inj heq).symm)

end Omb
