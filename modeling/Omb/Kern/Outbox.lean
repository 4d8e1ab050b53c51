import Omb.Kern.Rendezvous

/-!
# Who writes `m_out`

The kernel writes `m_in` and `m_ret` of a process page, and nothing else of it once the
process has been made.  So `m_out` is what its own process has last put there, whatever calls
it makes and whoever runs in between (`KernelRun.mOut_kept`).  That is what ties the messages
that the kernel carries to the programs that send them.

A process that is neither running nor blocked finds the whole page as it was
(`Move.pageOf_kept`), so being preempted makes no difference to what it reads there.

Both need the pages of different processes to be different, and the new ones to be fresh: the
kernel clears the page that a process is made on, and a process writes its own page at will.
The system of `proc0` and its clients has that by itself (`Omb.Am335x.System`).

## Main results

* `Move.mOut_kept`, `Move.pageOf_kept`: one step
* `KernelRun.mOut_kept`: what follows a run
-/

namespace Omb

variable {s s' : State} {n : ℕ} {Q : ProcRef → List ProcRef} {act : Action} {evs : List Event}
  {p : ProcRef}

/-- The pages that a step may write are those of other processes. -/
theorem page_ne_of_running (h : Inv s n Q) (hpages : PagesDistinct s)
    (hp : (s.procs p).state ≠ .dead) {u : ProcRef} (hup : s.up = some u) (hne : s.up ≠ some p) :
    (s.procs p).page ≠ (s.procs u).page := by
  intro heq
  obtain rfl := hpages p u hp (by simp [h.running u hup]) heq
  exact hne hup

theorem spawn_pageOf (hdead : (s.procs s.nextpid).state = .dead) {space page : Word}
    {alive : Option ProcRef} {nexts : ProcRef → Option ProcRef}
    (hp : (s.procs p).state ≠ .dead) (hpage : (s.procs p).page ≠ page) :
    (s.spawn space page alive nexts).pageOf p = s.pageOf p := by
  have hne : p ≠ s.nextpid := by
    rintro rfl
    exact hp hdead
  simp [State.spawn, State.pageOf, hne, Function.update_of_ne hpage]

/-- **A step keeps `m_out`**, unless the process writes its page.  A step that makes a process
on that page is excluded by `hfresh`. -/
theorem Move.mOut_kept (hmove : Move s act evs s') (h : Inv s n Q) (hpages : PagesDistinct s)
    (hfresh : FreshPages ⟨s, act, evs, s'⟩) (hp : (s.procs p).state ≠ .dead)
    (hwrite : ∀ page, act = .write page → s.up ≠ some p) :
    (s'.pageOf p).mOut = (s.pageOf p).mOut := by
  cases hmove with
  | quiet hu hs' => rw [hs'.pageOf_eq]
  | write page hup hc =>
      have hne := page_ne_of_running h hpages hp hup (hwrite page rfl)
      exact congrArg ProcPage.mOut (Function.update_of_ne hne ..)
  | @create u page spacePage mem alive nexts hup hc hdead =>
      have hpage : (s.procs p).page ≠ page := fun heq => hfresh p hp (heq ▸ List.mem_cons_self)
      have hspawn := @spawn_pageOf { s with mem := mem } p hdead spacePage page alive nexts hp hpage
      exact congrArg ProcPage.mOut hspawn
  | preempt => rw [State.switchFrom_pageOf]
  | send =>
      rw [State.switchFrom_pageOf]
      rfl
  | @receive _ u w lists waiting => exact takeMessage_mOut s u w lists waiting p
  | start => rw [State.switchFrom_pageOf, deliverReply_mOut, takeMessage_mOut]
  | park => rw [State.switchFrom_pageOf, receiving_pageOf]
  | reply => rw [State.switchFrom_pageOf, deliverReply_mOut]
  | replyRecv => rw [State.switchFrom_pageOf, receiving_pageOf, deliverReply_mOut]
  | resumed => rfl

/-- **A step keeps the page** of a process that is neither running nor blocked.  One that is
blocked may be given a message or a reply. -/
theorem Move.pageOf_kept (hmove : Move s act evs s') (h : Inv s n Q) (hpages : PagesDistinct s)
    (hfresh : FreshPages ⟨s, act, evs, s'⟩) (hp : (s.procs p).state = .ready)
    (hup : s.up ≠ some p) : s'.pageOf p = s.pageOf p := by
  have hlive : (s.procs p).state ≠ .dead := by
    rw [hp]
    exact ProcState.noConfusion
  have hblocked : ∀ {w : ProcRef} {st : ProcState}, (s.procs w).state = st → st ≠ .ready →
      st ≠ .dead → (s.procs p).page ≠ (s.procs w).page := by
    rintro w st hw hready hdead heq
    obtain rfl := hpages p w hlive (hw ▸ hdead) heq
    exact hready (hw.symm.trans hp)
  have htake : ∀ {u w : ProcRef} (lists : ListRef → ProcList) (waiting : ProcRef → Option ListRef),
      s.up = some u → (s.takeMessage u w lists waiting).pageOf p = s.pageOf p := by
    intro u w lists waiting hu
    exact Function.update_of_ne (page_ne_of_running h hpages hlive hu hup) ..
  cases hmove with
  | quiet hu hs' => rw [hs'.pageOf_eq]
  | write page hu hc =>
      exact Function.update_of_ne (page_ne_of_running h hpages hlive hu hup) ..
  | @create u page spacePage mem alive nexts hu hc hdead =>
      have hpage : (s.procs p).page ≠ page := fun heq =>
        hfresh p hlive (heq ▸ List.mem_cons_self)
      exact @spawn_pageOf { s with mem := mem } p hdead spacePage page alive nexts hlive hpage
  | preempt => rw [State.switchFrom_pageOf]
  | send =>
      rw [State.switchFrom_pageOf]
      rfl
  | @receive _ u w lists waiting hu => exact htake lists waiting hu.1
  | @start _ u w lists waiting pc sp hu hcreates hsend =>
      have hne : ((s.takeMessage u w lists waiting).procs p).page ≠
          ((s.takeMessage u w lists waiting).procs w).page := hblocked hsend (by simp) (by simp)
      rw [State.switchFrom_pageOf, deliverReply_pageOf_ne hne, htake lists waiting hu.1]
  | park => rw [State.switchFrom_pageOf, receiving_pageOf]
  | reply _ _ _ hawait =>
      have hne := hblocked hawait.1 (by simp) (by simp)
      rw [State.switchFrom_pageOf, deliverReply_pageOf_ne hne]
  | replyRecv _ _ _ hawait =>
      have hne := hblocked hawait.1 (by simp) (by simp)
      rw [State.switchFrom_pageOf, receiving_pageOf, deliverReply_pageOf_ne hne]
  | resumed => rfl

/-! ## Runs -/

/-- The process does not write its page in this step. -/
def LeavesOwnPage (p : ProcRef) (t : KStep) : Prop :=
  ∀ page, t.act = .write page → t.pre.up ≠ some p

/-- **Until its process writes it**, `m_out` stays as it is, in whatever follows a run. -/
theorem KernelRun.mOut_kept {tr tr' : List KStep} (h : KernelRun tr s)
    (hrun : Machine.Run step s tr' s') (hn : created (tr ++ tr') ≤ maxProcs)
    (hfresh : ∀ t ∈ tr ++ tr', FreshPages t) (hp : (s.procs p).state ≠ .dead)
    (hleaves : ∀ t ∈ tr', LeavesOwnPage p t) :
    (s'.procs p).state ≠ .dead ∧ (s'.pageOf p).mOut = (s.pageOf p).mOut := by
  induction hrun with
  | nil => exact ⟨hp, rfl⟩
  | @snoc tr' m m' a evs' hrun hs ih =>
      rw [← List.append_assoc] at hn hfresh
      rw [List.forall_mem_append, List.forall_mem_singleton] at hleaves hfresh
      rw [created_snoc] at hn
      obtain ⟨img, pages, mem, s₀, evs₀, hk, hrun₀⟩ := h
      have hm : KernelRun (tr ++ tr') m := ⟨img, pages, mem, s₀, evs₀, hk, hrun₀.append hrun⟩
      obtain ⟨Q, hinv⟩ := hm.inv (by omega)
      obtain ⟨hlive, hout⟩ := ih (by omega) hfresh.1 hleaves.1
      obtain ⟨hmove, Q', hinv'⟩ := step_move hinv (fun hcreates => by
        rw [hcreates, Bool.toNat_true] at hn
        omega) hs
      have hpages := hm.pagesDistinct (by omega) hfresh.1
      refine ⟨fun hdead => ?_, (hmove.mOut_kept hinv hpages hfresh.2 hlive hleaves.2).trans hout⟩
      -- there are no fewer processes than before
      have hlt := hinv.table.lt_of_ne_dead hlive
      have hle := (hinv'.table.dead_iff p).mp hdead
      omega

end Omb
