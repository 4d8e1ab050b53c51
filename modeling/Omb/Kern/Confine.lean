import Omb.Kern.Machine

/-!
# System calls and the bounds of the process table

`find_proc` turns a pid into the address of a slot without comparing it with anything, and its
callers take any result but nil for a process.  A system call therefore stays within `procs`
exactly when its pid is one of the table's indices: `confined_iff`, for every state and every
argument.

The dereference of the pointer is the only place a system call can leave the table at:
everything behind it works on slots (`InTable`).  That is a matter of types in the model,
where a slot is an index; and it is so in the source as the pointers that the kernel keeps
come from `procs`.

For a negative pid, which `PID_ALL` is, the address is in front of the table.  A receive takes
`PID_ALL` for any process and does not look it up, so it is not concerned.

## Main results

* `syscall_inTable`: with its pid in the table, a system call stays in the table
* `confined_iff`: and only then
-/

namespace Omb

/-- The pid a system call is given for `find_proc`. -/
def Syscall.pidArg : Syscall → Option Word
  | .send pid => some pid
  | .reply pid _ => some pid
  | .replyRecv pid _ _ => some pid
  | .addrOffer pid _ _ _ => some pid
  | .addrAccept pid _ _ _ => some pid
  | _ => none

/-- The computation does not touch `procs` outside the table.  It may go wrong in another way.
-/
def InTable {α : Type} (x : Except Stuck α) : Prop :=
  ∀ i, x ≠ .error (.wild i)

/-- What `find_proc` gives the system call `c` is nil, and `c` returns `ERR` and leaves the
state alone, or a slot of the table; and `c` stays within the table. -/
def Confined (s : State) (u : ProcRef) (c : Syscall) : Prop :=
  (∀ pid ∈ c.pidArg,
    (findProc pid = none ∧ syscall s u c = .ok (returnToUser u err (s, []))) ∨
    ∃ i, findProc pid = some i ∧ 0 ≤ i ∧ i < maxProcs) ∧
  InTable (syscall s u c)

/-! ## Behind `find_proc` -/

section

variable {α β : Type} (s : State) (u p : ProcRef)

theorem InTable.ok (a : α) : InTable (.ok a : Except Stuck α) := by
  intro i h
  cases h

theorem InTable.diverges : InTable (.error .diverges : Except Stuck α) := by
  intro i h
  cases h

theorem InTable.nilDeref : InTable (.error .nilDeref : Except Stuck α) := by
  intro i h
  cases h

theorem InTable.of_error {x : Except Stuck α} (h : InTable x) {e : Stuck}
    (heq : x = .error e) : InTable (.error e : Except Stuck β) := by
  subst heq
  intro i he
  cases he
  exact h i rfl

theorem InTable.map {x : Except Stuck α} (h : InTable x) (f : α → β) : InTable (x.map f) := by
  cases x with
  | ok a => exact .ok (f a)
  | error e =>
      intro i heq
      cases heq
      exact h i rfl

theorem nextProcLoop_inTable (fuel : ℕ) (q : Option ProcRef) :
    InTable (nextProcLoop s fuel q) := by
  induction fuel generalizing q with
  | zero => exact .diverges
  | succ fuel ih =>
      cases q with
      | none =>
          unfold nextProcLoop
          split_ifs
          · exact .ok _
          · exact ih _
      | some q =>
          unfold nextProcLoop
          split_ifs
          · exact .ok _
          · exact .ok _
          · exact ih _

theorem nextProc_inTable : InTable (nextProc s) := by
  unfold nextProc
  split
  · exact .ok _
  · split
    · exact nextProcLoop_inTable s _ _
    · exact nextProcLoop_inTable s _ _

theorem schedule_inTable (k : Label) (n : Option ProcRef) : InTable (schedule s k n) := by
  unfold schedule
  simp only
  split
  · exact .ok _
  · split
    · rename_i h
      exact (nextProc_inTable _).of_error h
    · exact .ok _

theorem addToListBack_inTable : InTable (addToListBack s p) := by
  unfold addToListBack
  simp only
  split
  · exact .diverges
  · exact .ok _
  · exact .ok _

theorem procNew_inTable (space page : Word) : InTable (procNew s space page) := by
  unfold procNew
  simp only
  split
  · rename_i h
    exact (addToListBack_inTable _ _).of_error h
  · exact .ok _

theorem procListAdd_inTable : InTable (procListAdd s p u) := by
  unfold procListAdd
  split
  · exact .ok _
  · refine .map ?_ some
    unfold linkEntry
    split
    · exact .diverges
    · exact .ok _
    · exact .ok _

theorem findEntry_inTable (pid : Word) (fuel : ℕ) (prev head : Option ListRef) :
    InTable (findEntry s pid fuel prev head) := by
  induction fuel generalizing prev head with
  | zero => exact .diverges
  | succ fuel ih =>
      cases head with
      | none => exact .ok _
      | some n =>
          unfold findEntry
          split
          · exact .nilDeref
          · split_ifs
            · exact .ok _
            · split
              · exact .ok _
              · exact ih _ _

theorem procListRemove_inTable (pid : Word) : InTable (procListRemove s p pid) := by
  unfold procListRemove
  split
  · rename_i h
    exact (findEntry_inTable s pid _ _ _).of_error h
  · exact .ok _
  · exact .ok _

theorem ksend_inTable : InTable (ksend s u p) := by
  unfold ksend
  split_ifs
  · exact .ok _
  · simp only
    split
    · rename_i h
      exact (procListAdd_inTable _ u p).of_error h
    · exact .ok _
    · split
      · rename_i h
        exact (schedule_inTable _ _ _).of_error h
      · exact .ok _

theorem krecv_inTable (pid : Word) (caller : RecvCaller) : InTable (krecv s u pid caller) := by
  unfold krecv
  split
  · rename_i h
    exact (procListRemove_inTable s u pid).of_error h
  · exact .ok _
  · unfold Flow.schedule
    split
    · rename_i h
      exact (schedule_inTable _ _ _).of_error h
    · exact .ok _

theorem recvToUser_inTable (pid : Word) : InTable (recvToUser s u pid) := by
  unfold recvToUser
  split
  · rename_i h
    exact (krecv_inTable s u pid .sysRecv).of_error h
  · exact .ok _
  · exact .ok _

theorem kreply_inTable (ret : Word) (caller : ReplyCaller) :
    InTable (kreply s u p ret caller) := by
  unfold kreply
  split_ifs
  · split
    · rename_i h
      exact (schedule_inTable _ _ _).of_error h
    · exact .ok _
  · exact .ok _

theorem kreplyRecv_inTable (ret pid : Word) : InTable (kreplyRecv s u p ret pid) := by
  unfold kreplyRecv
  split_ifs
  · simp only
    split
    · rename_i h
      exact (schedule_inTable _ _ _).of_error h
    · exact .ok _
  · exact .ok _

theorem acceptFrom_inTable (start len flags : Word) (supply : List Word) :
    InTable (acceptFrom s u p start len flags supply) := by
  unfold acceptFrom
  split
  · exact .ok _
  · split
    · exact .diverges
    · exact .ok _

end

/-! ## The system calls -/

/-- The pid is an index of `procs`.  As a signed number it is not negative, and it is below
`MAX_PROCS`. -/
def InRange (pid : Word) : Prop :=
  0 ≤ pid.toInt ∧ pid.toInt < maxProcs

instance (pid : Word) : Decidable (InRange pid) :=
  inferInstanceAs (Decidable (_ ∧ _))

theorem deref_of_inRange {pid : Word} (h : InRange pid) : ∃ p, deref pid.toInt = .ok p :=
  ⟨_, dif_pos h⟩

/-- With its pid in the table a system call stays in the table. -/
theorem syscall_inTable (s : State) (u : ProcRef) (c : Syscall)
    (h : ∀ pid, c.pidArg = some pid → InRange pid) : InTable (syscall s u c) := by
  cases c with
  | getProcPage => exact .ok _
  | getKernelPage => exact .ok _
  | send pid =>
      obtain ⟨p, hp⟩ := deref_of_inRange (h pid rfl)
      unfold syscall sysSend withProc findProc
      simp only [hp]
      exact (ksend_inTable s u p).map _
  | recv pid => exact recvToUser_inTable s u pid
  | reply pid ret =>
      obtain ⟨p, hp⟩ := deref_of_inRange (h pid rfl)
      unfold syscall sysReply withProc findProc
      simp only [hp]
      exact (kreply_inTable s u p ret .sysReply).map _
  | replyRecv pid ret rpid =>
      obtain ⟨p, hp⟩ := deref_of_inRange (h pid rfl)
      unfold syscall sysReplyRecv withProc findProc
      simp only [hp]
      split
      · rename_i hr
        exact (kreplyRecv_inTable s u p ret rpid).of_error hr
      · exact .ok _
      · exact .ok _
      · exact .ok _
  | procCreate page spacePage =>
      unfold syscall sysProcCreate
      simp only
      split
      · rename_i hn
        exact (procNew_inTable _ spacePage page).of_error hn
      · exact .ok _
  | addrOffer pid start len flags => exact .ok _
  | addrAccept pid start len flags =>
      obtain ⟨p, hp⟩ := deref_of_inRange (h pid rfl)
      unfold syscall sysAddrAccept withProc findProc
      simp only [hp]
      split
      · rename_i ha
        exact (acceptFrom_inTable s u p start len flags []).of_error ha
      · exact .ok _

/-- **A system call is confined to the process table exactly when its pid is an index of it**,
in every state and for every process that makes it.  Whether a process has been made in the
slot makes no difference, nor does anything else of the state; a negative pid is in front of
the table, and `pidAll` of a receive is none of these arguments. -/
theorem confined_iff (s : State) (u : ProcRef) (c : Syscall) :
    Confined s u c ↔ ∀ pid ∈ c.pidArg, InRange pid := by
  constructor
  · rintro ⟨hfind, -⟩ pid hpid
    rcases hfind pid hpid with ⟨hnil, -⟩ | ⟨i, hi, hrange⟩
    · cases hnil
    · cases hi
      exact hrange
  · intro h
    refine ⟨fun pid hpid => .inr ⟨pid.toInt, rfl, h pid hpid⟩, syscall_inTable s u c h⟩

/-- `proc0` sends to the pid after the last, and to `-2`. -/
theorem send_outside_table :
    ∃ tr s, exampleRun [.resume] = .ok (tr, s) ∧ s.up = some 0 ∧ s.control = .user ∧
      step s (.syscall (.send 512)) = .error (.wild 512) ∧
      step s (.syscall (.send (-2))) = .error (.wild (-2)) ∧
      ¬ Confined s 0 (.send 512) ∧ ¬ Confined s 0 (.send (-2)) := by
  obtain ⟨tr, s, hrun, hP⟩ := exists_exampleRun [.resume]
    (fun _ s => s.up = some 0 ∧ s.control = .user) (by decide +kernel)
  rw [decide_eq_true_eq] at hP
  obtain ⟨hup, hc⟩ := hP
  have h512 : syscall s 0 (.send 512) = .error (.wild 512) := rfl
  have hneg : syscall s 0 (.send (-2)) = .error (.wild (-2)) := rfl
  refine ⟨tr, s, hrun, hup, hc, ?_, ?_, fun h => h.2 _ h512, fun h => h.2 _ hneg⟩
  · simp only [step, hc, hup, h512]
  · simp only [step, hc, hup, hneg]

end Omb
