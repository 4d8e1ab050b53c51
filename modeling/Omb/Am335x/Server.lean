import Omb.Am335x.Refusals
import Omb.Am335x.Uart
import Mathlib.Algebra.GroupWithZero.Nat

/-!
# proc0

`main` of `am335x/proc0/main.c`: it takes over the memory the kernel publishes, starts the
processes of `procs`, and then answers one request after the other.  A step of a `Server` is
what it does from one system call to the next, or the return of a call.  Its page is not its
own: the kernel writes there too, so what is in it is an argument of the step.

The program runs on its own here.  What the calls return and what is in the page are
arbitrary; the kernel is put beside it in `Omb.Am335x.System`.

`get_ram` is called from two places, for the pages of the processes that `init_procs` starts
and for the requests of clients.  `ServerRun.accounts` is about both: whatever the calls
return, nothing is given away twice.

`init_procs` does not look at what `get_ram` returns, so with too little RAM it would make a
process on nil.  With three pages for each process there is no need to look
(`ServerRun.apart`): that many are free after `init_sections`, and each turn takes three
(`Server.Supplied`).

## Main results

* `serverStep_cases`, `Server.handle_cases`: what one step can do
* `ServerRun.accounts`: nothing is given away twice
* `ServerRun.uses_granted`, `ServerRun.apart`: what calls are about has been taken for them,
  and is apart
* `ServerRun.length_newPages_le`: no more processes are made than there are in `procs`
-/

namespace Omb

open Cover

/-! ## The program -/

/-- Where `main` is.  The places between a call and its return are those in which the kernel
has it. -/
inductive ServerPlace where
  | start
  /-- In `get_proc_page`. -/
  | gettingPage
  | gotPage
  /-- In `get_kernel_page`. -/
  | gettingKernel
  | gotKernel
  /-- In the loop of `init_procs`, at its head. -/
  | starting (i : ℕ)
  /-- In `proc_create`. -/
  | creating (i : ℕ) (stack : Word)
  | created (i : ℕ) (stack pid : Word)
  /-- In `send`. -/
  | sendingInit (i : ℕ)
  /-- In `recv` or `reply_recv`. -/
  | receiving
  /-- At the `switch`. -/
  | handling (pid : Word)
  /-- In `addr_accept`. -/
  | accepting (pid : Word)
  | replying (pid ret : Word)
  deriving DecidableEq

/-- `main`, with the lists `ram` and `io`. -/
structure Server where
  place : ServerPlace
  st : Sections

/-- A system call, with what is left in the page for it and what has been taken out of the
lists before.  The grants are for the accounts only. -/
structure ServerCall where
  page : ProcPage
  call : Syscall
  grants : List Grant

/-- Why it does not go on. -/
inductive ServerStop where
  /-- `io->next = nil`, where `io` is nil. -/
  | nilWrite
  /-- The action does not exist in this place. -/
  | disabled
  deriving DecidableEq

/-- What happens to it. -/
inductive ServerAction where
  /-- It goes on to its next system call, with this in its page. -/
  | run (page : ProcPage)
  /-- The call it is in returns. -/
  | ret (r : Word)

namespace Server

/-- At the beginning of `main`, with `ram` and `io` nil. -/
def boot : Server where
  place := .start
  st := { ram := [], io := [] }

/-- `MESSAGE_proc_init` -/
def messageProcInit : Byte := 1

/-- A page that `init_procs` takes. -/
def takePage (st : Sections) : Word × Sections :=
  getRam st pageSize

/-- `init_procs` from the head of its loop on, up to `proc_create` or, behind the loop, the
first `recv`.  `procs` is given up to its nil. -/
def turn (procs : List Word) (st : Sections) (i : ℕ) (page : ProcPage) : Server × ServerCall :=
  if i < procs.length then
    let (pagePage, st) := takePage st
    let (spacePage, st) := takePage st
    let (stackPage, st) := takePage st
    (⟨.creating i stackPage, st⟩,
      { page := page
        call := .procCreate pagePage spacePage
        grants := [pagePage, spacePage, stackPage].flatMap fun a => granted .ram a pageSize })
  else (⟨.receiving, st⟩, ⟨page, .recv pidAll, []⟩)

/-- `req->type = MESSAGE_proc_init`, with `req` in `m_out`. -/
def initType (page : ProcPage) : ProcPage :=
  { page with mOut := page.mOut.store 0 [messageProcInit] }

/-- `req->pc = 0x82006000 + procs[i]` and `req->sp = stack + PAGE_SIZE`. -/
def initRequest (page : ProcPage) (proc stack : Word) : ProcPage :=
  { page with
    mOut := (page.mOut.store 4 (intBytes (0x82006000 + proc))).store 8
      (intBytes (stack + pageSize)) }

/-- The `switch`, up to the next system call. -/
def handle (st : Sections) (page : ProcPage) (pid : Word) : Server × ServerCall :=
  if page.mIn.byte 0 = Uart.messageAddr then
    let addr := page.mIn.field 1
    match handleAddrRequest st addr (page.mIn.field 2) with
    | (none, st) => (⟨.receiving, st⟩, ⟨page, .replyRecv pid err pidAll, []⟩)
    | (some a, st) =>
        (⟨.accepting pid, st⟩,
          { page := page
            call := .addrAccept pid a.start a.len a.flags
            grants := [⟨if addr = nil then .ram else .io, a.start, a.len⟩] })
  else (⟨.receiving, st⟩, ⟨page, .replyRecv pid err pidAll, []⟩)

/-- `main`, from one system call to the next. -/
def run (regions : List Region) (procs : List Word) (x : Server) (page : ProcPage) :
    Except ServerStop (Server × ServerCall) :=
  match x.place with
  | .start => .ok (⟨.gettingPage, x.st⟩, ⟨page, .getProcPage, []⟩)
  | .gotPage => .ok (⟨.gettingKernel, x.st⟩, ⟨page, .getKernelPage, []⟩)
  | .gotKernel =>
      match initSections regions with
      | none => .error .nilWrite
      | some st => .ok (turn procs st 0 (initType page))
  | .starting i => .ok (turn procs x.st i page)
  | .created i stack pid =>
      .ok (⟨.sendingInit i, x.st⟩,
        ⟨initRequest page (procs[i]?.getD nil) stack, .send pid, []⟩)
  | .handling pid => .ok (handle x.st page pid)
  | .replying pid ret => .ok (⟨.receiving, x.st⟩, ⟨page, .replyRecv pid ret pidAll, []⟩)
  | _ => .error .disabled

/-- Where `main` goes on when a call returns. -/
def after (r : Word) : ServerPlace → Option ServerPlace
  | .gettingPage => some .gotPage
  | .gettingKernel => some .gotKernel
  | .creating i stack => some (.created i stack r)
  | .sendingInit i => some (.starting (i + 1))
  | .receiving => some (.handling r)
  | .accepting pid => some (.replying pid r)
  | _ => none

end Server

/-- One step. -/
def serverStep (regions : List Region) (procs : List Word) (x : Server) :
    ServerAction → Except ServerStop (Server × List ServerCall)
  | .run page => (x.run regions procs page).map fun r => (r.1, [r.2])
  | .ret r =>
      match Server.after r x.place with
      | none => .error .disabled
      | some place => .ok ({ x with place := place }, [])

abbrev ServerStep := Machine.Transition Server ServerAction ServerCall

/-- A run of proc0 from the beginning of `main`. -/
def ServerRun (regions : List Region) (procs : List Word) (tr : List ServerStep) (x : Server) :
    Prop :=
  Machine.Run (serverStep regions procs) Server.boot tr x

/-! ## What one step can do -/

/-- `main` comes to turn `i` of the loop of `init_procs`, out of `init_sections` or out of the
turn before. -/
inductive Server.AtTurn (regions : List Region) (x : Server) (page : ProcPage) :
    ℕ → Sections → ProcPage → Prop
  | first {st : Sections} (hp : x.place = .gotKernel) (hst : initSections regions = some st) :
      AtTurn regions x page 0 st (initType page)
  | next {i : ℕ} (hp : x.place = .starting i) : AtTurn regions x page i x.st page

/-- The ways from one system call to the next.  This is all that is used of `Server.run`
below. -/
inductive ServerMove (regions : List Region) (procs : List Word) (x : Server) (page : ProcPage) :
    Server → ServerCall → Prop
  | asksPage (hp : x.place = .start) :
      ServerMove regions procs x page ⟨.gettingPage, x.st⟩ ⟨page, .getProcPage, []⟩
  | asksKernelPage (hp : x.place = .gotPage) :
      ServerMove regions procs x page ⟨.gettingKernel, x.st⟩ ⟨page, .getKernelPage, []⟩
  | turns {i : ℕ} {st : Sections} {page' : ProcPage} (h : x.AtTurn regions page i st page') :
      ServerMove regions procs x page (Server.turn procs st i page').1
        (Server.turn procs st i page').2
  | sendsInit {i : ℕ} {stack pid : Word} {page' : ProcPage} (hp : x.place = .created i stack pid) :
      ServerMove regions procs x page ⟨.sendingInit i, x.st⟩ ⟨page', .send pid, []⟩
  | handles {pid : Word} (hp : x.place = .handling pid) :
      ServerMove regions procs x page (Server.handle x.st page pid).1
        (Server.handle x.st page pid).2
  | answers {pid ret : Word} (hp : x.place = .replying pid ret) :
      ServerMove regions procs x page ⟨.receiving, x.st⟩ ⟨page, .replyRecv pid ret pidAll, []⟩

variable {regions : List Region} {procs : List Word} {x y : Server} {page : ProcPage}
  {c : ServerCall} {st st' : Sections} {gs gs' : List Grant}

theorem Server.run_move (h : x.run regions procs page = .ok (y, c)) :
    ServerMove regions procs x page y c := by
  have hpair : ∀ {r : Server × ServerCall}, Except.ok (ε := ServerStop) r = .ok (y, c) →
      ServerMove regions procs x page r.1 r.2 → ServerMove regions procs x page y c := by
    rintro r hr hmove
    cases Except.ok.inj hr
    exact hmove
  rw [run] at h
  cases hp : x.place <;> rw [hp] at h <;> dsimp only at h
  case start => exact hpair h (.asksPage hp)
  case gotPage => exact hpair h (.asksKernelPage hp)
  case gotKernel =>
    split at h
    · cases h
    · rename_i st₀ hst
      exact hpair h (.turns (.first hp hst))
  case starting => exact hpair h (.turns (.next hp))
  case created => exact hpair h (.sendsInit hp)
  case handling => exact hpair h (.handles hp)
  case replying => exact hpair h (.answers hp)
  all_goals cases h

/-- A step runs on to the next system call, or a call returns. -/
theorem serverStep_cases {a : ServerAction} {cs : List ServerCall}
    (h : serverStep regions procs x a = .ok (y, cs)) :
    (∃ page c, a = .run page ∧ cs = [c] ∧ ServerMove regions procs x page y c) ∨
      ∃ r place, a = .ret r ∧ cs = [] ∧ Server.after r x.place = some place ∧
        y = { x with place := place } := by
  cases a with
  | run page =>
      rw [serverStep] at h
      cases hr : x.run regions procs page with
      | error e =>
          rw [hr] at h
          cases h
      | ok r =>
          rw [hr] at h
          cases h
          exact .inl ⟨page, r.2, rfl, rfl, Server.run_move hr⟩
  | ret r =>
      rw [serverStep] at h
      split at h
      · cases h
      · rename_i place hafter
        cases h
        exact .inr ⟨r, place, rfl, rfl, hafter, rfl⟩

theorem Server.turn_of_lt {i : ℕ} (hi : i < procs.length) :
    turn procs st i page =
      (⟨.creating i (takePage (takePage (takePage st).2).2).1,
          (takePage (takePage (takePage st).2).2).2⟩,
        { page := page
          call := .procCreate (takePage st).1 (takePage (takePage st).2).1
          grants := [(takePage st).1, (takePage (takePage st).2).1,
            (takePage (takePage (takePage st).2).2).1].flatMap
              fun a => granted .ram a pageSize }) := by
  rw [turn, if_pos hi]

theorem Server.turn_of_le {i : ℕ} (hi : procs.length ≤ i) :
    turn procs st i page = (⟨.receiving, st⟩, ⟨page, .recv pidAll, []⟩) := by
  rw [turn, if_neg (not_lt.mpr hi)]

theorem Server.turn_place (i : ℕ) : (turn procs st i page).1.place =
    if i < procs.length then .creating i (takePage (takePage (takePage st).2).2).1
    else .receiving := by
  split_ifs with hi
  · rw [turn_of_lt hi]
  · rw [turn_of_le (not_lt.mp hi)]

/-- A request is refused at once, or the kernel is asked to move what has been found. -/
theorem Server.handle_cases (st : Sections) (page : ProcPage) (pid : Word) :
    (∃ st', handle st page pid = (⟨.receiving, st'⟩, ⟨page, .replyRecv pid err pidAll, []⟩)) ∨
      ∃ a st', page.mIn.byte 0 = Uart.messageAddr ∧
        handleAddrRequest st (page.mIn.field 1) (page.mIn.field 2) = (some a, st') ∧
        handle st page pid = (⟨.accepting pid, st'⟩,
          { page := page
            call := .addrAccept pid a.start a.len a.flags
            grants := [⟨if page.mIn.field 1 = nil then .ram else .io, a.start, a.len⟩] }) := by
  rw [handle]
  by_cases htype : page.mIn.byte 0 = Uart.messageAddr
  · rw [if_pos htype]
    dsimp only
    rcases hr : handleAddrRequest st (page.mIn.field 1) (page.mIn.field 2) with ⟨_ | a, st'⟩
    · exact .inl ⟨st', rfl⟩
    · exact .inr ⟨a, st', htype, rfl, rfl⟩
  · rw [if_neg htype]
    exact .inl ⟨st, rfl⟩

/-! ## What has been given away -/

/-- Everything that has been taken out of the lists for a call. -/
def serverGrants (tr : List ServerStep) : List Grant :=
  tr.flatMap fun t => t.events.flatMap ServerCall.grants

/-- The pages that processes have been made on. -/
def serverNewPages (tr : List ServerStep) : List Word :=
  tr.flatMap fun t => t.events.flatMap fun c => (Action.syscall c.call).newPages

theorem ramGrants_append (gs gs' : List Grant) :
    ramGrants (gs ++ gs') = ramGrants gs ++ ramGrants gs' :=
  List.filter_append ..

theorem StepKeeps.refl (h : RamWellFormed regions st.ram) : StepKeeps regions st [] st where
  wellFormed := h
  inRam := fun _ hg => absurd hg List.not_mem_nil
  covered := fun _ => le_refl _

theorem StepKeeps.trans {st'' : Sections} (h : StepKeeps regions st gs st')
    (h' : StepKeeps regions st' gs' st'') : StepKeeps regions st (gs ++ gs') st'' where
  wellFormed := h'.wellFormed
  inRam := by
    intro g hg
    rw [ramGrants_append, List.mem_append] at hg
    exact hg.elim (h.inRam g) (h'.inRam g)
  covered := by
    intro x
    have hx := h.covered x
    have hx' := h'.covered x
    rw [ramGrants_append, List.map_append, cover_append]
    omega

namespace Server

theorem takePage_keeps (h : RamWellFormed regions st.ram) :
    StepKeeps regions st (granted .ram (takePage st).1 pageSize) (takePage st).2 :=
  getRam_keeps h (by decide) rfl (memStep_getRam st pageSize)

theorem turn_keeps (h : RamWellFormed regions st.ram) (i : ℕ) (page : ProcPage) :
    StepKeeps regions st (turn procs st i page).2.grants (turn procs st i page).1.st := by
  rcases lt_or_ge i procs.length with hi | hi
  · rw [turn_of_lt hi]
    have hpage := takePage_keeps h
    have hspace := takePage_keeps hpage.wellFormed
    have hstack := takePage_keeps hspace.wellFormed
    have hall := (hpage.trans hspace).trans hstack
    rw [List.append_assoc] at hall
    simpa only [List.flatMap_cons, List.flatMap_nil, List.append_nil] using hall
  · rw [turn_of_le hi]
    exact .refl h

theorem handleAddrRequest_keeps (h : RamWellFormed regions st.ram) (addr len : Word) :
    StepKeeps regions st
      ((handleAddrRequest st addr len).1.toList.map fun a =>
        ⟨if addr = nil then .ram else .io, a.start, a.len⟩)
      (handleAddrRequest st addr len).2 :=
  have hc : (MemCall.addrRequest addr len).WholePages := trivial
  memStep_keeps h hc rfl

theorem handle_keeps (h : RamWellFormed regions st.ram) (page : ProcPage) (pid : Word) :
    StepKeeps regions st (handle st page pid).2.grants (handle st page pid).1.st := by
  rw [handle]
  split_ifs with htype
  · have hkeeps := handleAddrRequest_keeps h (page.mIn.field 1) (page.mIn.field 2)
    dsimp only
    generalize handleAddrRequest st (page.mIn.field 1) (page.mIn.field 2) = r at hkeeps
    obtain ⟨_ | a, st₁⟩ := r <;> exact hkeeps
  · exact .refl h

end Server

/-- What is given away and what is left are in the published regions, and no address is there
twice. -/
structure Accounts (regions : List Region) (gs : List Grant) (st : Sections) : Prop where
  wellFormed : RamWellFormed regions st.ram
  inRam : ∀ g ∈ ramGrants gs, InRam regions g.start g.len
  covered : ∀ x, kept st x + cover ((ramGrants gs).map Grant.extent) x ≤
    cover (ramExtents regions) x

theorem Accounts.step (h : Accounts regions gs st) (hs : StepKeeps regions st gs' st') :
    Accounts regions (gs ++ gs') st' where
  wellFormed := hs.wellFormed
  inRam := by
    intro g hg
    rw [ramGrants_append, List.mem_append] at hg
    exact hg.elim (h.inRam g) (hs.inRam g)
  covered := by
    intro x
    have hx := h.covered x
    have hx' := hs.covered x
    rw [ramGrants_append, List.map_append, cover_append]
    omega

/-- `init_sections` has not been called. -/
def ServerPlace.Early (p : ServerPlace) : Prop :=
  p = .start ∨ p = .gettingPage ∨ p = .gotPage ∨ p = .gettingKernel ∨ p = .gotKernel

/-- Nothing is given away before `init_sections`, and from there on there are accounts. -/
def Server.Accounted (regions : List Region) (gs : List Grant) (x : Server) : Prop :=
  Accounts regions gs x.st ∧ (x.place.Early → gs = [])

theorem ServerMove.accounted (h : RamPublished regions) (hx : x.Accounted regions gs)
    (hmove : ServerMove regions procs x page y c) : y.Accounted regions (gs ++ c.grants) := by
  obtain ⟨hacc, hearly⟩ := hx
  cases hmove with
  | asksPage hp | asksKernelPage hp =>
      rw [List.append_nil]
      exact ⟨hacc, fun _ => hearly (by simp [ServerPlace.Early, hp])⟩
  | sendsInit | answers =>
      rw [List.append_nil]
      exact ⟨hacc, fun hy => by simp [ServerPlace.Early] at hy⟩
  | @turns i st page' hturn =>
      have hst : Accounts regions gs st := by
        cases hturn with
        | next => exact hacc
        | first hp hboot =>
            obtain ⟨hwf, hkept⟩ := boot_keeps h hboot
            rw [hearly (by simp [ServerPlace.Early, hp])]
            exact ⟨hwf, fun _ hg => absurd hg List.not_mem_nil, hkept⟩
      refine ⟨hst.step (Server.turn_keeps hst.wellFormed i page'), fun hy => ?_⟩
      rw [Server.turn_place] at hy
      split_ifs at hy <;> simp [ServerPlace.Early] at hy
  | @handles pid hp =>
      refine ⟨hacc.step (Server.handle_keeps hacc.wellFormed page pid), fun hy => ?_⟩
      rcases Server.handle_cases x.st page pid with ⟨st', heq⟩ | ⟨a, st', -, -, heq⟩ <;>
        simp [heq, ServerPlace.Early] at hy

theorem serverNewPages_snoc (tr : List ServerStep) (t : ServerStep) :
    serverNewPages (tr ++ [t]) = serverNewPages tr ++
      t.events.flatMap fun c => (Action.syscall c.call).newPages := by
  simp [serverNewPages]

theorem serverGrants_snoc (tr : List ServerStep) (t : ServerStep) :
    serverGrants (tr ++ [t]) = serverGrants tr ++ t.events.flatMap ServerCall.grants := by
  simp [serverGrants]

/-- **Nothing is given away twice**, whatever the system calls return and whatever is asked
for.  Only the regions have to be apart. -/
theorem ServerRun.accounts (h : RamPublished regions) {tr : List ServerStep}
    (hrun : ServerRun regions procs tr x) : Accounts regions (serverGrants tr) x.st := by
  have hinv : x.Accounted regions (serverGrants tr) := by
    refine Machine.Run.invariant (P := fun tr x => x.Accounted regions (serverGrants tr))
      (C := fun _ => True) ?_ ?_ hrun fun _ _ => trivial
    · exact ⟨⟨fun _ hs => absurd hs List.not_mem_nil, fun _ hg => absurd hg List.not_mem_nil,
        fun _ => Nat.zero_le _⟩, fun _ => rfl⟩
    · intro tr x a y cs _ hx _ hs
      rw [serverGrants_snoc]
      rcases serverStep_cases hs with ⟨page, c, rfl, rfl, hmove⟩ | ⟨r, place, rfl, rfl, hafter, rfl⟩
      · simpa using hmove.accounted h hx
      · rw [List.flatMap_nil, List.append_nil]
        refine ⟨hx.1, fun hearly => hx.2 ?_⟩
        revert hafter hearly
        cases x.place <;> rintro ⟨⟩ <;> simp [ServerPlace.Early]
  exact hinv.1

/-! ## The pages of the processes -/

/-- The pages that are free. -/
def freePages (st : Sections) : ℕ :=
  ((slots st.ram).map fun s => s.len.toNat / 4096).sum

/-- The page at an address, as what `get_ram` gives away. -/
def pageGrant (a : Word) : Grant where
  type := .ram
  start := a
  len := pageSize

/-- The RAM that a call is to move to a client. -/
def ServerCall.toClient (c : ServerCall) : List Grant :=
  match c.call with
  | .addrAccept .. => ramGrants c.grants
  | _ => []

/-- The RAM that clients have been found. -/
def clientRam (tr : List ServerStep) : List Grant :=
  tr.flatMap fun t => t.events.flatMap ServerCall.toClient

/-- The RAM that a call is about: the two pages of a `proc_create`, or the range of an
`addr_accept`. -/
def ServerCall.uses (c : ServerCall) : List Grant :=
  (Action.syscall c.call).newPages.map pageGrant ++ c.toClient

/-- There are pages enough for the processes that have not been started. -/
def Server.Supplied (procs : List Word) (x : Server) : Prop :=
  match x.place with
  | .starting i => 3 * (procs.length - i) ≤ freePages x.st
  | .creating i _ | .created i _ _ | .sendingInit i =>
      3 * (procs.length - (i + 1)) ≤ freePages x.st
  | _ => True

theorem sum_modify {α : Type*} (g : α → ℕ) (f : α → α) {l : List α} {k : ℕ} {a : α}
    (hk : l[k]? = some a) : ((l.modify k f).map g).sum + g a = (l.map g).sum + g (f a) := by
  induction l generalizing k with
  | nil => simp at hk
  | cons b l ih =>
      cases k with
      | zero =>
          obtain rfl := Option.some.inj hk
          simp only [List.modify_zero_cons, List.map_cons, List.sum_cons]
          omega
      | succ k =>
          have hl := ih hk
          simp only [List.modify_succ_cons, List.map_cons, List.sum_cons]
          omega

theorem sum_eq_zero_of_forall {α : Type*} {g : α → ℕ} {l : List α} (h : ∀ a ∈ l, g a = 0) :
    (l.map g).sum = 0 := by
  rw [List.sum_eq_zero]
  simpa using h

namespace Server

/-- **A page is found as long as one is free.**  Sections are whole pages, so each that is not
empty has one. -/
theorem takePage_spec (hwf : RamWellFormed regions st.ram) (hfree : freePages st ≠ 0) :
    (takePage st).1 ≠ nil ∧ freePages (takePage st).2 + 1 = freePages st := by
  cases hfind : findSlot (fun s => pageSize ≤ s.len) st.ram with
  | none =>
      refine absurd (sum_eq_zero_of_forall fun s hs => ?_) hfree
      have hlt := List.findIdx?_eq_none_iff.mp hfind s hs
      have hlen := BitVec.not_le.mp (of_decide_eq_false hlt)
      rw [BitVec.lt_def, toNat_page] at hlen
      exact Nat.div_eq_of_lt hlen
  | some k =>
      obtain ⟨s, hs⟩ := findsRam_of_find hfind
      have hle := hs.le
      have hne : s.len ≠ 0 := by
        intro h0
        rw [h0] at hle
        exact absurd hle (by decide)
      obtain ⟨-, -, hnil, -⟩ := (hwf s (List.mem_of_getElem? hs.slot) hne).cut hle (by decide) rfl
      have hsum := sum_modify (fun s : RangeSection => s.len.toNat / 4096)
        (fun s => { s with len := s.len - pageSize }) hs.slot
      rw [BitVec.le_def, toNat_page] at hle
      have hsub : (s.len - pageSize).toNat = s.len.toNat - 4096 := by
        rw [BitVec.toNat_sub_of_le hs.le, toNat_page]
      rw [takePage, hs.getRam_eq]
      refine ⟨hnil, ?_⟩
      rw [freePages, freePages, slots_modifySlot]
      simp only [hsub] at hsum
      omega

/-- A process is made on two pages that have been taken for it, neither of them nil. -/
theorem turn_uses (hwf : RamWellFormed regions st.ram) {i : ℕ} (hi : i < procs.length)
    (hfree : 3 ≤ freePages st) :
    (turn procs st i page).2.uses.Sublist (ramGrants (turn procs st i page).2.grants) ∧
      freePages (turn procs st i page).1.st + 3 = freePages st := by
  have hpage := takePage_keeps hwf
  have hspace := takePage_keeps hpage.wellFormed
  obtain ⟨hne₁, hfree₁⟩ := takePage_spec hwf (by omega)
  obtain ⟨hne₂, hfree₂⟩ := takePage_spec hpage.wellFormed (by omega)
  obtain ⟨hne₃, hfree₃⟩ := takePage_spec hspace.wellFormed (by omega)
  rw [turn_of_lt hi]
  refine ⟨?_, by dsimp only; omega⟩
  simp only [ServerCall.uses, ServerCall.toClient, List.flatMap_cons, List.flatMap_nil, granted,
    if_neg hne₁, if_neg hne₂, if_neg hne₃, Action.newPages]
  exact List.prefix_append [_, _] [_] |>.sublist

end Server

theorem ServerMove.supplied (hfree : ∀ st, initSections regions = some st →
      3 * procs.length ≤ freePages st) (hwf : RamPublished regions) (hx : x.Supplied procs)
    (hst : RamWellFormed regions x.st.ram) (hmove : ServerMove regions procs x page y c) :
    c.uses.Sublist (ramGrants c.grants) ∧ y.Supplied procs := by
  cases hmove with
  | asksPage | asksKernelPage | answers => exact ⟨List.nil_sublist _, trivial⟩
  | sendsInit hp =>
      rw [Server.Supplied, hp] at hx
      exact ⟨List.nil_sublist _, hx⟩
  | @handles pid hp =>
      rcases Server.handle_cases x.st page pid with ⟨st', heq⟩ | ⟨a, st', -, -, heq⟩ <;> rw [heq]
      · exact ⟨List.nil_sublist _, trivial⟩
      · exact ⟨List.Sublist.refl _, trivial⟩
  | @turns i st page' hturn =>
      have hst : RamWellFormed regions st.ram ∧ 3 * (procs.length - i) ≤ freePages st := by
        cases hturn with
        | first hp hboot => exact ⟨(boot_keeps hwf hboot).1, hfree _ hboot⟩
        | next hp =>
            rw [Server.Supplied, hp] at hx
            exact ⟨hst, hx⟩
      rcases lt_or_ge i procs.length with hi | hi
      · obtain ⟨huses, hleft⟩ := @Server.turn_uses _ procs page' _ hst.1 _ hi (by omega)
        refine ⟨huses, ?_⟩
        rw [Server.Supplied, Server.turn_place, if_pos hi]
        dsimp only
        omega
      · rw [Server.turn_of_le hi]
        exact ⟨List.nil_sublist _, trivial⟩

/-- What calls are about has been taken out of the lists for them, if there are three pages
for each process.  Otherwise a call might be about nil. -/
theorem ServerRun.uses_granted (hfree : ∀ st, initSections regions = some st →
      3 * procs.length ≤ freePages st) (hwf : RamPublished regions) {tr : List ServerStep}
    (hrun : ServerRun regions procs tr x) :
    (tr.flatMap fun t => t.events.flatMap ServerCall.uses).Sublist
      (ramGrants (serverGrants tr)) := by
  have hinv : (tr.flatMap fun t => t.events.flatMap ServerCall.uses).Sublist
      (ramGrants (serverGrants tr)) ∧ x.Supplied procs := by
    refine Machine.Run.invariant (P := fun tr x =>
      (tr.flatMap fun t => t.events.flatMap ServerCall.uses).Sublist
        (ramGrants (serverGrants tr)) ∧ x.Supplied procs)
      (C := fun _ => True) ?_ ?_ hrun fun _ _ => trivial
    · exact ⟨List.nil_sublist _, by simp [Server.Supplied, Server.boot]⟩
    intro tr x a y cs hrun hx _ hs
    rw [serverGrants_snoc, ramGrants_append, List.flatMap_append, List.flatMap_singleton]
    rcases serverStep_cases hs with ⟨page, c, rfl, rfl, hmove⟩ | ⟨r, place, rfl, rfl, hafter, rfl⟩
    · obtain ⟨huses, hy⟩ := hmove.supplied hfree hwf hx.2 (ServerRun.accounts hwf hrun).wellFormed
      refine ⟨hx.1.append ?_, hy⟩
      simpa using huses
    · refine ⟨by simpa [ramGrants] using hx.1, ?_⟩
      have hsup := hx.2
      revert hafter hsup
      rw [Server.Supplied, Server.Supplied]
      cases x.place <;> rintro ⟨⟩ hsup <;> trivial
  exact hinv.1

theorem cover_uses (tr : List ServerStep) (z : ℕ) :
    cover ((tr.flatMap fun t => t.events.flatMap ServerCall.uses).map Grant.extent) z =
      cover (((serverNewPages tr).map pageGrant ++ clientRam tr).map Grant.extent) z := by
  have hcalls : ∀ cs : List ServerCall, cover ((cs.flatMap ServerCall.uses).map Grant.extent) z =
      cover (((cs.flatMap fun c => (Action.syscall c.call).newPages).map pageGrant ++
        cs.flatMap ServerCall.toClient).map Grant.extent) z := by
    intro cs
    induction cs with
    | nil => rfl
    | cons c cs ih =>
        simp only [List.flatMap_cons, ServerCall.uses, List.map_append, cover_append] at ih ⊢
        omega
  induction tr with
  | nil => rfl
  | cons t tr ih =>
      have ht := hcalls t.events
      simp only [serverNewPages, clientRam, List.flatMap_cons, List.map_append,
        cover_append] at ih ht ⊢
      omega

/-- **The pages of the processes and the RAM of the clients are apart**, and all of it has
been published.  A range that has been found for a client counts even if the kernel then
refuses to move it. -/
theorem ServerRun.apart (hfree : ∀ st, initSections regions = some st →
      3 * procs.length ≤ freePages st) (hwf : RamPublished regions) {tr : List ServerStep}
    (hrun : ServerRun regions procs tr x) :
    (((serverNewPages tr).map pageGrant ++ clientRam tr).map Grant.extent).Pairwise
        Extent.Apart ∧
      ∀ g ∈ (serverNewPages tr).map pageGrant ++ clientRam tr, InRam regions g.start g.len := by
  have hacc := hrun.accounts hwf
  have hsub := hrun.uses_granted hfree hwf
  constructor
  · refine pairwise_apart_of_cover_le hwf.apart fun z => ?_
    rw [← cover_uses]
    have hle : cover ((tr.flatMap fun t => t.events.flatMap ServerCall.uses).map Grant.extent) z ≤
        cover ((ramGrants (serverGrants tr)).map Grant.extent) z :=
      (hsub.map Grant.extent).countP_le
    have hcov := hacc.covered z
    rw [ramExtents] at hcov
    omega
  · intro g hg
    refine hacc.inRam g (hsub.subset ?_)
    rw [List.mem_append, List.mem_map] at hg
    rw [List.mem_flatMap]
    rcases hg with ⟨a, ha, rfl⟩ | hg
    · obtain ⟨t, ht, ha⟩ := List.mem_flatMap.mp ha
      obtain ⟨c, hc, ha⟩ := List.mem_flatMap.mp ha
      refine ⟨t, ht, List.mem_flatMap.mpr ⟨c, hc, ?_⟩⟩
      exact List.mem_append_left _ (List.mem_map_of_mem ha)
    · obtain ⟨t, ht, hg⟩ := List.mem_flatMap.mp hg
      obtain ⟨c, hc, hg⟩ := List.mem_flatMap.mp hg
      exact ⟨t, ht, List.mem_flatMap.mpr ⟨c, hc, List.mem_append_right _ hg⟩⟩

/-- How many of `n` processes have been made. -/
def ServerPlace.started (n : ℕ) : ServerPlace → ℕ
  | .start | .gettingPage | .gotPage | .gettingKernel | .gotKernel => 0
  | .starting i => i
  | .creating i _ | .created i _ _ | .sendingInit i => i + 1
  | .receiving | .handling _ | .accepting _ | .replying _ _ => n

theorem ServerMove.started (hmove : ServerMove regions procs x page y c)
    (hx : x.place.started procs.length ≤ procs.length) :
    2 * y.place.started procs.length =
        2 * x.place.started procs.length + (Action.syscall c.call).newPages.length ∧
      y.place.started procs.length ≤ procs.length := by
  cases hmove with
  | asksPage hp | asksKernelPage hp | sendsInit hp | answers hp =>
      rw [hp] at hx ⊢
      exact ⟨rfl, hx⟩
  | @handles pid hp =>
      rw [hp]
      rcases Server.handle_cases x.st page pid with ⟨st', heq⟩ | ⟨a, st', -, -, heq⟩
      all_goals
        rw [heq]
        exact ⟨rfl, le_refl _⟩
  | @turns i st page' hturn =>
      have hi : x.place.started procs.length = i := by
        cases hturn with
        | first hp => rw [hp, ServerPlace.started]
        | next hp => rw [hp, ServerPlace.started]
      rw [hi] at hx ⊢
      rcases lt_or_ge i procs.length with hlt | hle
      · rw [Server.turn_of_lt hlt]
        exact ⟨rfl, hlt⟩
      · obtain rfl := le_antisymm hx hle
        rw [Server.turn_of_le hle]
        exact ⟨rfl, le_refl _⟩

theorem Server.after_started {r : Word} {p q : ServerPlace} (h : after r p = some q) (n : ℕ) :
    q.started n = p.started n := by
  revert h
  cases p <;> rintro ⟨⟩ <;> rfl

theorem ServerRun.started {tr : List ServerStep} (hrun : ServerRun regions procs tr x) :
    (serverNewPages tr).length = 2 * x.place.started procs.length ∧
      x.place.started procs.length ≤ procs.length := by
  refine Machine.Run.invariant (P := fun tr x =>
    (serverNewPages tr).length = 2 * x.place.started procs.length ∧
      x.place.started procs.length ≤ procs.length) (C := fun _ => True) ?_ ?_ hrun
    fun _ _ => trivial
  · exact ⟨rfl, Nat.zero_le _⟩
  · intro tr x a y cs _ hx _ hs
    rw [serverNewPages_snoc, List.length_append]
    rcases serverStep_cases hs with ⟨page, c, rfl, rfl, hmove⟩ | ⟨r, place, rfl, rfl, hafter, rfl⟩
    · obtain ⟨hstarted, hle⟩ := hmove.started hx.2
      simp only [List.flatMap_cons, List.flatMap_nil, List.append_nil]
      exact ⟨by omega, hle⟩
    · rw [List.flatMap_nil, List.length_nil, Nat.add_zero, Server.after_started hafter]
      exact hx

/-- No more processes are made than there are in `procs`. -/
theorem ServerRun.length_newPages_le {tr : List ServerStep}
    (hrun : ServerRun regions procs tr x) :
    (serverNewPages tr).length ≤ 2 * procs.length := by
  obtain ⟨hlen, hle⟩ := hrun.started
  omega

end Omb
