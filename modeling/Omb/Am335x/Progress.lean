import Omb.Am335x.Board
import Omb.Am335x.Refusals
import Omb.Kern.Aborts

/-!
# Nothing on the board goes wrong

The kernel comes to the end of every step whose pid is in the table, and aborts in none whose
pages are in memory (`Omb.Kern.Aborts`).  Here the programs that run on it are seen to keep to
that.  Every pid that proc0 hands to the kernel it has from the kernel, every page it hands to
`proc_create` is RAM that the kernel has published, there is a slot for each process it makes,
and whatever call returns is one that its program is in.  So proc0 comes to its next system call,
and the kernel to the end of it, whenever proc0 has the CPU and whatever its clients do
(`system_ok_iff`); and on the board the same holds of the server too (`board_ok_iff`).

There is one exception.  RAM and registers have addresses from 1 GiB on, behind the tables of
address spaces, so when proc0 gives some to a client `space_find` follows a word that is not of
proc0's table (`Omb.Kern.Accesses`).  Where that leads depends on what the word is, and nothing
is said of these calls (`SystemAction.CoveredEnds`).

## Main results

* `ramMapped_of_init_memory`: the RAM that `init_memory` publishes it also maps
* `SystemRun.homed`: the pages and spaces of all processes are in memory
* `system_ok_iff`: when a step of the kernel with proc0 comes off
* `board_ok_iff`: when a step of the board does
-/

namespace Omb

variable {img : Image} {regions : List Region} {procs : List Word} {tr : List SystemStep}
  {y y' : System} {sevs : List SystemEvent} {s s' : State} {evs : List Event} {a : Action}
  {x x' : Server} {page : ProcPage} {c : ServerCall} {n : ℕ} {Q : ProcRef → List ProcRef}
  {ttb : Ttb}

/-! ## Memory -/

/-- The kernel's table has the RAM that it publishes, and the page and the space of proc0.
Nothing is said of the registers of devices. -/
structure RamMapped (ttb : Ttb) (img : Image) (regions : List Region) : Prop where
  ram : ∀ r ∈ regions, r.type = .ram → ∀ w : Word, r.extent.Has w.toNat → Present ttb w
  page : PagePresent ttb img.proc0Page
  space : PagePresent ttb img.proc0SpacePage

/-- A page that does not wrap around, with memory for all its bytes. -/
theorem pagePresent_of_addresses {a : Word} (hend : a.toNat + 4096 ≤ 2 ^ 32)
    (h : ∀ w : Word, (addresses a pageSize).Has w.toNat → Present ttb w) : PagePresent ttb a := by
  have hhas : ∀ w : Word, (addresses a pageSize).Has w.toNat ↔
      a.toNat ≤ w.toNat ∧ w.toNat < a.toNat + 4096 := fun _ => Iff.rfl
  have hlast : (a + (pageSize - 1)).toNat = a.toNat + 4095 := by
    have htop : (pageSize - 1 : Word).toNat = 4095 := rfl
    rw [BitVec.toNat_add, htop]
    omega
  exact ⟨h _ ((hhas _).mpr ⟨le_refl _, by omega⟩),
    h _ ((hhas _).mpr ⟨by omega, by omega⟩)⟩

theorem RamMapped.pagePresent (h : RamMapped ttb img regions) {a : Word}
    (ha : InRam regions a pageSize) : PagePresent ttb a := by
  obtain ⟨-, -, r, hr, htype, -, hwithin, hend, -⟩ := ha
  exact pagePresent_of_addresses hend fun w hw => h.ram r hr htype w (hwithin _ hw)

/-- A section that some call of `imap` reaches has a descriptor in the end. -/
theorem foldl_mapSections_ne_fault {calls : List ImapCall} {c : ImapCall} {i : Word}
    (hc : c ∈ calls) (hi : c.Reaches i) : calls.foldl mapSections faultTtb i ≠ l1Fault := by
  rcases exists_last_reaching calls i with hnone | ⟨pre, d, post, rfl, hd, hpost⟩
  · exact absurd hi (hnone c hc)
  · rw [foldl_mapSections_of_last hd hpost]
    intro hfault
    have htype := imapMask_type i d.ap d.cachable
    rw [hfault] at htype
    exact absurd htype (by decide)

/-- **The RAM that `init_memory` publishes it also maps**, and what the linker puts there. -/
theorem ramMapped_of_init_memory (l : LinkerSymbols) (hend : l.ramEnd.toNat ≤ 0xFFF00000)
    (hpage : (addresses img.proc0Page pageSize).Within ⟨l.ramStart.toNat, l.ramEnd.toNat⟩)
    (hspace : (addresses img.proc0SpacePage pageSize).Within ⟨l.ramStart.toNat, l.ramEnd.toNat⟩) :
    ∃ ttb, imapAll (initMemoryCalls l.ramStart l.ramEnd) = .ok ttb ∧
      RamMapped ttb img (publishedRegions l) := by
  refine ⟨_, imapAll_eq (initMemoryCalls_inRange hend), ?_⟩
  have hram : ∀ w : Word, l.ramStart.toNat ≤ w.toNat → w.toNat < l.ramEnd.toNat →
      Present ((initMemoryCalls l.ramStart l.ramEnd).foldl mapSections faultTtb) w := by
    intro w hlo hhi
    refine foldl_mapSections_ne_fault (c := ⟨l.ramStart, l.ramEnd, apRwRw, true⟩)
      List.mem_cons_self ?_
    rw [ImapCall.Reaches, toNat_l1x]
    dsimp only
    omega
  have hpresent : ∀ a : Word,
      (addresses a pageSize).Within ⟨l.ramStart.toNat, l.ramEnd.toNat⟩ →
      PagePresent ((initMemoryCalls l.ramStart l.ramEnd).foldl mapSections faultTtb) a := by
    intro a ha
    have hsize : (pageSize : Word).toNat = 4096 := rfl
    obtain ⟨-, hlast⟩ := ha (a.toNat + 4095)
      ⟨Nat.le_add_right _ _, by simp only [addresses, hsize]; omega⟩
    dsimp only at hlast
    refine pagePresent_of_addresses (by omega) fun w hw => ?_
    obtain ⟨hlo, hhi⟩ := ha _ hw
    exact hram w hlo hhi
  refine ⟨?_, hpresent _ hpage, hpresent _ hspace⟩
  have hstart := l.ramStart_lt
  have hkernel := l.kernelStart_lt
  have hstop := l.kernelEnd_lt
  rw [BitVec.lt_def] at hstart hkernel hstop
  have hlow : (l.kernelStart - l.ramStart).toNat = l.kernelStart.toNat - l.ramStart.toNat :=
    BitVec.toNat_sub_of_le (BitVec.le_of_lt l.ramStart_lt)
  have hhigh : (l.ramEnd - l.kernelEnd).toNat = l.ramEnd.toNat - l.kernelEnd.toNat :=
    BitVec.toNat_sub_of_le (BitVec.le_of_lt l.kernelEnd_lt)
  intro r hr htype w hw
  simp only [publishedRegions, List.mem_cons, List.not_mem_nil, or_false] at hr
  rcases hr with rfl | rfl | rfl | rfl | rfl | rfl | rfl | rfl | rfl | rfl | rfl
  · -- below the kernel
    obtain ⟨hlo, hhi⟩ := hw
    simp only [Region.extent, addresses, hlow] at hlo hhi
    exact hram w hlo (by omega)
  · -- above it
    obtain ⟨hlo, hhi⟩ := hw
    simp only [Region.extent, addresses, hhigh] at hlo hhi
    exact hram w (by omega) (by omega)
  all_goals cases htype

/-! ## The program of proc0 -/

/-- The places in which proc0 waits for a call to return. -/
def ServerPlace.InCall : ServerPlace → Prop
  | .gettingPage | .gettingKernel | .creating .. | .sendingInit _ | .receiving | .accepting _ =>
      True
  | _ => False

theorem ServerPlace.InCall.after {place : ServerPlace} (h : place.InCall) (r : Word) :
    ∃ place', Server.after r place = some place' := by
  cases place with
  | start | gotPage | gotKernel | starting | created | handling | replying => exact absurd h id
  | _ => exact ⟨_, rfl⟩

/-- proc0 comes to its next call, if it finds a page for its lists.  Without one it writes
through nil. -/
theorem Server.run_ok (hplace : x.place.InOwnCode) (hinit : initSections regions ≠ none)
    (page : ProcPage) : ∃ x' c, x.run regions procs page = .ok (x', c) := by
  rw [run]
  cases hp : x.place with
  | gotKernel =>
      obtain ⟨st, hst⟩ := Option.ne_none_iff_exists'.mp hinit
      rw [hst]
      exact ⟨_, _, rfl⟩
  | gettingPage | gettingKernel | creating | sendingInit | receiving | accepting =>
      rw [hp] at hplace
      exact absurd hplace id
  | _ => exact ⟨_, _, rfl⟩

namespace ServerMove

variable (hmove : ServerMove regions procs x page x' c)

include hmove

theorem inCall : x'.place.InCall := by
  cases hmove with
  | @turns i st page' =>
      rw [Server.turn_place]
      split <;> trivial
  | @handles pid =>
      rcases Server.handle_cases x.st page pid with ⟨st', heq⟩ | ⟨r, st', -, -, heq⟩
      all_goals
        rw [heq]
        trivial
  | _ => trivial

/-- There is a process left to be made. -/
theorem started_lt (hcreates : (Action.syscall c.call).creates = true)
    (hx : x.place.started procs.length ≤ procs.length) :
    x.place.started procs.length < procs.length := by
  have hlen : (Action.syscall c.call).newPages.length = 2 := by
    cases hc : c.call with
    | procCreate page spacePage => rfl
    | _ =>
        rw [hc] at hcreates
        cases hcreates
  obtain ⟨hstarted, hle⟩ := hmove.started hx
  omega

/-- Every pid is one that the kernel has given to proc0. -/
theorem derefs_inRange
    (hcreated : ∀ i stack pid, x.place = .created i stack pid → InRange pid)
    (hclient : ∀ pid ∈ x.place.client, InRange pid) :
    ∀ pid ∈ (Action.syscall c.call).derefs, InRange pid := by
  have hnone : ∀ pid ∈ (none : Option Word), InRange pid := fun pid hpid => by cases hpid
  cases hmove with
  | asksPage | asksKernelPage => exact hnone
  | @turns i st page' =>
      rw [Server.turn]
      split <;> exact hnone
  | @sendsInit i stack pid page' hp =>
      rintro pid' ⟨⟩
      exact hcreated i stack pid hp
  | @handles pid hp =>
      have hpid : InRange pid := hclient pid (by rw [hp]; rfl)
      rcases Server.handle_cases x.st page pid with ⟨st', heq⟩ | ⟨r, st', -, -, heq⟩
      all_goals
        rw [heq]
        rintro pid' ⟨⟩
        exact hpid
  | @answers pid ret hp =>
      rintro pid' ⟨⟩
      exact hclient pid (by rw [hp]; rfl)

end ServerMove

/-! ## What returns to proc0 -/

theorem inRange_pid (p : ProcRef) : InRange (BitVec.ofNat 32 p.val) := by
  rw [InRange, toInt_ofNat]
  exact ⟨Int.natCast_nonneg _, Int.ofNat_lt.mpr p.isLt⟩

/-- `proc_create` returns the pid of a slot.  With none left it would return one beyond the
table. -/
theorem Inv.procCreate_inRange (h : Inv s n Q) (hroom : n < maxProcs) {u : ProcRef}
    {newPage spacePage r : Word} (hs : syscall s u (.procCreate newPage spacePage) = .ok (s', evs))
    (hr : returnedTo u evs = some r) : InRange r := by
  obtain ⟨alive, nexts, hnew, hslot, hcore⟩ :=
    procNew_spec (h.withMem (memsetPage s.mem spacePage)) hroom spacePage newPage
  simp only [syscall, sysProcCreate, hnew] at hs
  cases hs
  simp only [List.nil_append, returnedTo, if_true] at hr
  cases hr
  have hlt : s.nextpid.val < n + 1 := Nat.lt_succ_of_le (le_of_eq hslot)
  rw [hcore.table.pid _ hlt]
  exact inRange_pid _

theorem Server.creating_of_after {r pid stack : Word} {place : ServerPlace} {i : ℕ}
    (h : Server.after r place = some (.created i stack pid)) :
    place = .creating i stack ∧ r = pid := by
  cases place <;> cases h
  exact ⟨rfl, rfl⟩

theorem ServerMove.procCreate_of_creating (hmove : ServerMove regions procs x page x' c) {i : ℕ}
    {stack : Word} (hplace : x'.place = .creating i stack) :
    ∃ newPage spacePage, c.call = .procCreate newPage spacePage := by
  cases hmove with
  | @turns j st page' =>
      rw [Server.turn] at hplace ⊢
      split
      · exact ⟨_, _, rfl⟩
      · rename_i hj
        rw [if_neg hj] at hplace
        cases hplace
  | @handles pid =>
      rcases Server.handle_cases x.st page pid with ⟨st', heq⟩ | ⟨r, st', -, -, heq⟩
      all_goals
        rw [heq] at hplace
        cases hplace
  | _ => cases hplace

namespace SystemRun

variable (h : SystemRun img regions procs tr y) (hprovided : Provided img regions procs)
  (honly : ∀ t ∈ tr, ByProc0Only t)

include h hprovided honly

/-- The kernel goes on where proc0 is, and proc0 has its client in hand. -/
theorem agrees : ∃ o : Option Request, y.server.place.GoesOnAt (y.kernel.codeOf 0) ∧
    y.server.place.client = o.map fun c => BitVec.ofNat 32 c.1.val := by
  have hpermits : ∀ t ∈ kernelSteps tr, Permits (fun _ _ => True) t :=
    fun _ _ _ _ _ _ _ _ _ _ _ _ _ => trivial
  obtain ⟨o, ho⟩ := h.serving (fun _ => trivial) (h.created_le hprovided honly)
    (h.freshPages hprovided honly) hpermits
  exact ⟨o, ho.code, ho.client⟩

theorem client_inRange : ∀ pid ∈ y.server.place.client, InRange pid := by
  obtain ⟨o, -, hclient⟩ := h.agrees hprovided honly
  rw [hclient]
  intro pid hpid
  obtain ⟨c, -, rfl⟩ := Option.map_eq_some_iff.mp hpid
  exact inRange_pid c.1

omit hprovided in
/-- As many processes have been made as proc0 has got to. -/
theorem created_eq :
    created (kernelSteps tr) = y.server.place.started procs.length + 1 ∧
      y.server.place.started procs.length ≤ procs.length := by
  have hlen := length_newPages (kernelSteps tr)
  rw [h.newPages_eq honly] at hlen
  obtain ⟨hstarted, hle⟩ := h.serverRun.started
  have hpos : 1 ≤ created (kernelSteps tr) := Nat.le_add_right ..
  exact ⟨by omega, hle⟩

/-- Only calls that block return in a step that is not one of proc0. -/
theorem place_of_returned {kevs : List Event} {r : Word} (hother : ¬ a.ByProc0 y.kernel)
    (hcreates : a.creates = false) (hs : step y.kernel a = .ok (s', kevs))
    (hr : returnedTo 0 kevs = some r) :
    (∃ i, y.server.place = .sendingInit i) ∨ y.server.place = .receiving := by
  obtain ⟨Q, hinv⟩ := h.kernelRun.inv (h.created_le hprovided honly)
  obtain ⟨hmove, -⟩ := step_move hinv (fun hc => by rw [hcreates] at hc; cases hc) hs
  have hup := hmove.up_of_returned hr
  obtain ⟨o, hcode, -⟩ := h.agrees hprovided honly
  cases a with
  | syscall | write => exact absurd hup hother
  | tick =>
      cases hc : y.kernel.control with
      | user =>
          simp only [step, hc, hup] at hs
          rw [(tick_seen hup .tick hs).1.returned] at hr
          cases hr
      | resume | idle => simp [step, hc, hup] at hs
  | resume =>
      cases hc : y.kernel.control with
      | user | idle => simp [step, hc, hup] at hs
      | resume =>
          simp only [step, hc, hup] at hs
          have hcontinues := hinv.resumes hup .resume hs
          rw [codeOf_of_control_ne (by rw [hc]; exact Control.noConfusion)] at hcode
          cases hlabel : (y.kernel.procs 0).label with
          | trap | proc0Start =>
              rw [hlabel] at hcontinues
              rw [hcontinues.1.returned] at hr
              cases hr
          | ksend =>
              rw [hlabel] at hcode
              exact .inl hcode
          | krecv pid caller =>
              rw [hlabel] at hcode
              cases caller with
              | sysRecv => exact .inr hcode
              | procStart => exact absurd hcode id
          | kreplyRecv pid =>
              rw [hlabel] at hcode
              exact .inr hcode
          | unset | procStart | kreply =>
              rw [hlabel] at hcode
              exact absurd hcode id

end SystemRun

/-- **The pid of a process that proc0 has made** is one of the table. -/
theorem SystemRun.pid_created (h : SystemRun img regions procs tr y)
    (hprovided : Provided img regions procs) (honly : ∀ t ∈ tr, ByProc0Only t) :
    ∀ i stack pid, y.server.place = .created i stack pid → InRange pid := by
  obtain ⟨pages, mem, k₀, evs, hk, hrun⟩ := h
  induction hrun with
  | nil => rintro i stack pid ⟨⟩
  | @snoc tr y y' sa sevs hrun hs ih =>
      have honly' : ∀ t ∈ tr, ByProc0Only t := fun t ht => honly t (List.mem_append_left _ ht)
      have h : SystemRun img regions procs tr y := ⟨pages, mem, k₀, evs, hk, hrun⟩
      have h' : SystemRun img regions procs (tr ++ [⟨y, sa, sevs, y'⟩]) y' :=
        ⟨pages, mem, k₀, evs, hk, hrun.snoc hs⟩
      intro i stack pid hplace
      cases systemStep_move hs with
      | @call x c k kevs ts _ hup hc hrun' hmove hwrite hk hcall hhears =>
          have hin := hmove.inCall
          generalize hserver : y'.server = x' at hhears hplace
          cases hhears with
          | nothing =>
              rw [hplace] at hin
              exact absurd hin id
          | @returned r place hr hafter =>
              obtain ⟨hat, rfl⟩ := Server.creating_of_after (hafter.trans (congrArg some hplace))
              obtain ⟨newPage, spacePage, hnew⟩ := hmove.procCreate_of_creating hat
              have hhas := h.created_eq honly'
              have hlt := hmove.started_lt (by rw [hnew]; rfl) hhas.2
              have hrunk := h.kernelRun.snoc hwrite
              have hcount : created (kernelSteps tr ++ [⟨y.kernel, .write c.page, [], k⟩]) =
                  created (kernelSteps tr) := created_snoc ..
              have hslots := hprovided.slots
              obtain ⟨Q, hinv⟩ := hrunk.inv (by omega)
              have hupk : k.up = some 0 := by
                rw [hk]
                exact hup
              have hck : k.control = .user := by
                rw [hk]
                exact hc
              rw [hnew] at hcall
              simp only [step, hck, hupk] at hcall
              exact hinv.procCreate_inRange (by omega) hcall hr
      | @other a kevs ts _ hother hstep hhears =>
          generalize hserver : y'.server = x' at hhears hplace
          cases hhears with
          | nothing => exact ih honly' i stack pid hplace
          | @returned r place hr hafter =>
              have hcreates : a.creates = false :=
                honly ⟨y, .kernel a, _, y'⟩ (List.mem_append_right _ List.mem_cons_self)
              rcases h.place_of_returned hprovided honly' hother hcreates hstep hr with
                ⟨j, hat⟩ | hat
              all_goals
                rw [hat] at hafter
                cases hafter
                cases hplace

/-! ## The kernel with proc0 -/

/-- The step makes no accept for which the kernel looks behind the table of a space.  It is a
condition on the call that comes next and on the address alone. -/
def SystemAction.CoveredEnds (regions : List Region) (procs : List Word) (y : System) :
    SystemAction → Prop
  | .proc0 => ∀ x c, serverStep regions procs y.server (.run (y.kernel.pageOf 0)) = .ok (x, [c]) →
      (Action.syscall c.call).CoveredEnds y.kernel
  | .kernel a => a.CoveredEnds y.kernel

/-- No access of the step is to an address without memory. -/
def KStep.Backed (ttb : Ttb) (t : KStep) : Prop := t.act.Backed ttb t.pre

/-- The action exists where the system is, and hands no wild pid to the kernel. -/
def SystemEnabled (y : System) : SystemAction → Prop
  | .proc0 => y.kernel.up = some 0 ∧ y.kernel.control = .user
  | .kernel a => ¬ a.ByProc0 y.kernel ∧ Enabled y.kernel a ∧ ∀ pid ∈ a.derefs, InRange pid

theorem Server.hear_ok (h : ∀ r, returnedTo 0 evs = some r → x.place.InCall) :
    ∃ out, x.hear regions procs evs = .ok out := by
  rw [Server.hear]
  split
  · exact ⟨_, rfl⟩
  · rename_i r hr
    obtain ⟨place, hafter⟩ := (h r hr).after r
    rw [serverStep, hafter]
    exact ⟨_, rfl⟩

theorem byProc0Only_snoc {t : SystemStep} (h : ∀ t ∈ tr, ByProc0Only t) (ht : ByProc0Only t) :
    ∀ t' ∈ tr ++ [t], ByProc0Only t' := by
  intro t' hmem
  rcases List.mem_append.mp hmem with hmem | hmem
  · exact h t' hmem
  · obtain rfl := List.mem_singleton.mp hmem
    exact ht

theorem SystemRun.snoc {sa : SystemAction} (h : SystemRun img regions procs tr y)
    (hs : systemStep regions procs y sa = .ok (y', sevs)) :
    SystemRun img regions procs (tr ++ [⟨y, sa, sevs, y'⟩]) y' := by
  obtain ⟨pages, mem, k₀, evs, hk, hrun⟩ := h
  exact ⟨pages, mem, k₀, evs, hk, hrun.snoc hs⟩

theorem kernelStep_ok (hs : step y.kernel a = .ok (s', evs))
    (h : ∀ r, returnedTo 0 evs = some r → y.server.place.InCall) :
    ∃ x' sevs, kernelStep regions procs y a = .ok (⟨s', x'⟩, sevs) := by
  obtain ⟨⟨x', ts⟩, hhear⟩ : ∃ out, y.server.hear regions procs evs = .ok out :=
    Server.hear_ok h
  refine ⟨x', .kernel ⟨y.kernel, a, evs, s'⟩ :: ts.map .proc0, ?_⟩
  rw [kernelStep, hs]
  dsimp only
  rw [hhear]

theorem makeCall_ok {k : State} (hwrite : step y.kernel (.write c.page) = .ok (k, []))
    (hcall : step k (.syscall c.call) = .ok (s', evs)) (hin : y.server.place.InCall) :
    ∃ out, makeCall regions procs y c = .ok out := by
  have hfirst : kernelStep regions procs y (.write c.page) =
      .ok (⟨k, y.server⟩, [.kernel ⟨y.kernel, .write c.page, [], k⟩]) := by
    rw [kernelStep, hwrite]
    rfl
  obtain ⟨x', sevs, hsecond⟩ : ∃ x' sevs, kernelStep regions procs ⟨k, y.server⟩
      (.syscall c.call) = .ok (⟨s', x'⟩, sevs) := kernelStep_ok hcall fun _ _ => hin
  rw [makeCall, hfirst]
  dsimp only
  rw [hsecond]
  exact ⟨_, rfl⟩

namespace SystemRun

variable (h : SystemRun img regions procs tr y) (hprovided : Provided img regions procs)
  (honly : ∀ t ∈ tr, ByProc0Only t)

include h hprovided honly

/-- What `proc_create` is handed is RAM that the kernel has published. -/
theorem pagePresent_newPages (hmapped : RamMapped ttb img regions) :
    ∀ a ∈ newPages (kernelSteps tr), PagePresent ttb a := by
  obtain ⟨-, hram⟩ := h.serverRun.apart hprovided.pages hprovided.published
  intro a ha
  rw [h.newPages_eq honly] at ha
  exact hmapped.pagePresent (hram (pageGrant a) (List.mem_append_left _ (List.mem_map_of_mem ha)))

/-- **The pages and the spaces of all processes are in memory.**  Those of proc0 are in the
image, and the others have been handed to the kernel out of the RAM that it publishes. -/
theorem homed (hmapped : RamMapped ttb img regions) : y.kernel.Homed ttb := by
  obtain ⟨pages, mem, k₀, evs, hk, hrun⟩ := h.kernel
  have hn := h.created_le hprovided honly
  obtain ⟨Q, hinv⟩ := h.kernelRun.inv hn
  have hall : ∀ a ∈ y.kernel.homes (created (kernelSteps tr)), PagePresent ttb a := by
    rw [homes_of_run hk hrun hn]
    intro a ha
    rcases List.mem_append.mp ha with ha | ha
    · simp only [List.mem_cons, List.not_mem_nil, or_false] at ha
      rcases ha with rfl | rfl
      · exact hmapped.page
      · exact hmapped.space
    · exact h.pagePresent_newPages hprovided honly hmapped a ha
  intro p hp
  have hmem := mem_firstProcs.mpr (hinv.table.lt_of_ne_dead hp)
  exact ⟨hall _ (List.mem_flatMap.mpr ⟨p, hmem, by simp⟩),
    hall _ (List.mem_flatMap.mpr ⟨p, hmem, by simp⟩)⟩

variable (hcov : ∀ t ∈ kernelSteps tr, CoveredAccept t)

include hcov

/-- **proc0 comes to its next system call, and the kernel to the end of it.** -/
theorem proc0_ok (hinit : initSections regions ≠ none)
    (hends : SystemAction.proc0.CoveredEnds regions procs y) (hup : y.kernel.up = some 0)
    (hc : y.kernel.control = .user) : ∃ out, systemStep regions procs y .proc0 = .ok out := by
  obtain ⟨o, hcode, -⟩ := h.agrees hprovided honly
  rw [codeOf_of_user hup hc] at hcode
  obtain ⟨x, c, hrun⟩ := Server.run_ok hcode hinit (y.kernel.pageOf 0)
  have hmove := Server.run_move hrun
  have hwrite : step y.kernel (.write c.page) =
      .ok (y.kernel.modifyPage (y.kernel.procs 0).page fun _ => c.page, []) := by
    simp only [step, hc, hup]
  have hn := h.created_le hprovided honly
  have hhas := h.created_eq honly
  have hslots := hprovided.slots
  have hroom : (Action.syscall c.call).creates = true → created (kernelSteps tr) < maxProcs := by
    intro hcreates
    have hlt := hmove.started_lt hcreates hhas.2
    omega
  have hderefs := hmove.derefs_inRange (h.pid_created hprovided honly)
    (h.client_inRange hprovided honly)
  have hcall : (Action.syscall c.call).CoveredEnds y.kernel := hends x c (by
    rw [serverStep, hrun]
    rfl)
  -- it writes its page, which leaves everything else
  obtain ⟨Q, hinv⟩ := h.kernelRun.inv hn
  obtain ⟨-, Q', hinv'⟩ := step_move hinv (fun hcreates => by cases hcreates) hwrite
  have hnothing := (h.kernelRun.noTransfer hn hcov).1.modifyPage (y.kernel.procs 0).page
    fun _ => c.page
  obtain ⟨⟨s', kevs⟩, hstep⟩ :=
    hnothing.step_ok hinv' (h.kernelRun.labelled hn) hroom hcall hc hderefs
  obtain ⟨out, hmake⟩ : ∃ out, makeCall regions procs ⟨y.kernel, x⟩ c = .ok out :=
    makeCall_ok hwrite hstep hmove.inCall
  rw [systemStep, if_pos ⟨hup, hc⟩]
  dsimp only
  rw [hrun]
  dsimp only
  rw [hmake]
  exact ⟨_, rfl⟩

omit hcov

/-- Any other step of the kernel is one that proc0 can follow. -/
theorem kernel_ok {kevs : List Event} (hother : ¬ a.ByProc0 y.kernel)
    (hcreates : a.creates = false) (hs : step y.kernel a = .ok (s', kevs)) :
    ∃ x' sevs, systemStep regions procs y (.kernel a) = .ok (⟨s', x'⟩, sevs) := by
  rw [systemStep, if_neg hother]
  refine kernelStep_ok hs fun r hr => ?_
  rcases h.place_of_returned hprovided honly hother hcreates hs hr with ⟨i, hplace⟩ | hplace
  all_goals
    rw [hplace]
    trivial

theorem enabled_of_ok {sa : SystemAction}
    (hs : systemStep regions procs y sa = .ok (y', sevs)) : SystemEnabled y sa := by
  obtain ⟨Q, hinv⟩ := h.kernelRun.inv (h.created_le hprovided honly)
  cases systemStep_move hs with
  | call hup hc => exact ⟨hup, hc⟩
  | other hother hstep =>
      exact ⟨hother, enabled_of_step hstep, hinv.derefs_inRange hstep⟩

include hcov

theorem ok_of_enabled (hinit : initSections regions ≠ none) {sa : SystemAction}
    (hcreates : ∀ a, sa = .kernel a → a.creates = false)
    (hends : sa.CoveredEnds regions procs y) (henabled : SystemEnabled y sa) :
    ∃ out, systemStep regions procs y sa = .ok out := by
  cases sa with
  | proc0 => exact h.proc0_ok hprovided honly hcov hinit hends henabled.1 henabled.2
  | kernel a =>
      obtain ⟨hother, hen, hpid⟩ := henabled
      have hn := h.created_le hprovided honly
      obtain ⟨Q, hinv⟩ := h.kernelRun.inv hn
      obtain ⟨⟨s', kevs⟩, hs⟩ := (h.kernelRun.noTransfer hn hcov).1.step_ok hinv
        (h.kernelRun.labelled hn) (fun hc => by rw [hcreates a rfl] at hc; cases hc) hends hen hpid
      obtain ⟨x', sevs, hsys⟩ := h.kernel_ok hprovided honly hother (hcreates a rfl) hs
      exact ⟨_, hsys⟩

/-- **No access of a step is to an address without memory.** -/
theorem backed (hmapped : RamMapped ttb img regions) {sa : SystemAction}
    (hcreates : ∀ a, sa = .kernel a → a.creates = false)
    (hends : sa.CoveredEnds regions procs y)
    (hs : systemStep regions procs y sa = .ok (y', sevs)) :
    ∀ t ∈ sevs.filterMap SystemEvent.kernelStep, t.Backed ttb := by
  have hn := h.created_le hprovided honly
  obtain ⟨Q, hinv⟩ := h.kernelRun.inv hn
  have hnothing := (h.kernelRun.noTransfer hn hcov).1
  have hhomed := h.homed hprovided honly hmapped
  -- the pages that the step brings are among those of the run with it
  have hnew := (h.snoc hs).pagePresent_newPages hprovided
    (byProc0Only_snoc honly (t := ⟨y, sa, sevs, y'⟩) (by
      cases sa with
      | proc0 => trivial
      | kernel a => exact hcreates a rfl)) hmapped
  have hpages : ∀ t ∈ sevs.filterMap SystemEvent.kernelStep, t.act.PagesPresent ttb := by
    intro t ht page hpage
    refine hnew page (List.mem_flatMap.mpr ⟨t, ?_, hpage⟩)
    rw [kernelSteps_snoc]
    exact List.mem_append_right _ ht
  intro t ht
  have hpage := hpages t ht
  cases systemStep_move hs with
  | @call x c k kevs ts _ hup hc hrun hmove hwrite hk hcall hhears =>
      simp only [List.filterMap_cons, SystemEvent.kernelStep, kernelStep_map_proc0,
        List.mem_cons, List.not_mem_nil, or_false] at ht
      rcases ht with rfl | rfl
      · exact hpage
      · subst hk
        exact (hnothing.modifyPage _ _).backed hhomed hinv.isMade_up (hends x c hrun) hpage
  | @other a kevs ts _ hother hstep hhears =>
      simp only [List.filterMap_cons, SystemEvent.kernelStep, kernelStep_map_proc0,
        List.mem_cons, List.not_mem_nil, or_false] at ht
      subst ht
      exact hnothing.backed hhomed hinv.isMade_up hends hpage

end SystemRun

theorem initSections_exampleSymbols : initSections (publishedRegions exampleSymbols) ≠ none := by
  decide +kernel

/-- On the board, too, the RAM is mapped. -/
theorem exists_ramMapped_exampleSymbols :
    ∃ ttb, imapAll (initMemoryCalls exampleSymbols.ramStart exampleSymbols.ramEnd) = .ok ttb ∧
      RamMapped ttb exampleImage (publishedRegions exampleSymbols) :=
  ramMapped_of_init_memory exampleSymbols (by decide) (.of_le (by decide) (by decide))
    (.of_le (by decide) (by decide))

/-- The action exists where the board is. -/
def BoardEnabled (b : Board) : BoardAction → Prop
  | .proc0 => b.system.kernel.up = some 0 ∧ b.system.kernel.control = .user
  | .tick => b.system.kernel.control ≠ .resume
  | .resume _ => b.system.kernel.control = .resume
  | .uart _ => b.system.kernel.up = some 1 ∧ b.system.kernel.control = .user

variable {entry : Word} {btr : List BoardStep} {b : Board} {place : Place} {behind : List Byte}

theorem Uart.hear_ok {u : Uart} {k : State} (h : u.place.hear evs = some place) :
    ∃ u', u.hear k behind evs = .ok u' := by
  rw [Place.hear] at h
  rw [Uart.hear]
  cases hr : returnedTo 1 evs with
  | none => exact ⟨_, rfl⟩
  | some r =>
      rw [hr] at h
      dsimp only at h ⊢
      rw [h]
      exact ⟨_, rfl⟩

theorem perform_ok {ys ys' : System} {u : Uart} {acts : List SystemAction}
    {ts : List SystemStep}
    (hreplay : Machine.replay (systemStep regions [entry]) ys acts = .ok (ts, ys'))
    (hhear : u.place.hear ((kernelSteps ts).flatMap fun t => t.events) = some place) :
    ∃ out, Board.perform regions entry ys u behind acts = .ok out := by
  obtain ⟨u', hu⟩ : ∃ u', u.hear ys'.kernel behind
      ((kernelSteps ts).flatMap fun t => t.events) = .ok u' := Uart.hear_ok hhear
  rw [Board.perform, hreplay]
  dsimp only
  rw [hu]
  exact ⟨_, rfl⟩

/-- Until it has been answered the server comes to its next call, and the pid is that of proc0. -/
theorem Place.Quiet.run_ok (hp : place.Quiet) (page : ProcPage) (behind : List Byte) :
    ∃ u uevs, Uart.run ⟨place, page, behind⟩ = .ok (u, uevs) ∧ ∀ c, callOf uevs = some c →
      (Action.syscall c).creates = false ∧ (∀ s, (Action.syscall c).CoveredEnds s) ∧
        ∀ pid ∈ (Action.syscall c).derefs, InRange pid := by
  have hzero : InRange 0 := by decide
  cases place with
  | start | gotPage =>
      refine ⟨_, _, rfl, ?_⟩
      rintro c ⟨⟩
      exact ⟨rfl, fun _ => trivial, fun pid hpid => by cases hpid⟩
  | offered =>
      refine ⟨_, _, rfl, ?_⟩
      rintro c ⟨⟩
      refine ⟨rfl, fun _ => trivial, ?_⟩
      rintro pid ⟨⟩
      exact hzero
  | halted =>
      refine ⟨_, _, rfl, ?_⟩
      rintro c ⟨⟩
  | _ => exact absurd hp id

namespace BoardRun

variable (h : BoardRun img regions entry btr b) (hprovided : Provided img regions [entry])

include h hprovided

/-- The server can follow a step of the others. -/
theorem hears {sa : SystemAction}
    (hact : sa = .proc0 ∨ sa = .kernel .tick ∨ sa = .kernel .resume)
    (hs : systemStep regions [entry] b.system sa = .ok (y', sevs)) :
    ∃ place', b.uart.place.hear (kernelEvents sevs) = some place' := by
  have hmove := systemStep_move hs
  have hrun := h.systemRun.snoc hs
  have hby : ByProc0Only ⟨b.system, sa, sevs, y'⟩ := by
    rcases hact with rfl | rfl | rfl
    · trivial
    · rfl
    · rfl
  have honly := byProc0Only_snoc h.byProc0Only hby
  have hboard : ∀ t ∈ kernelSteps (systemSteps btr ++ [⟨b.system, sa, sevs, y'⟩]), OnBoard t := by
    rw [kernelSteps_snoc]
    intro t ht
    rcases List.mem_append.mp ht with ht | ht
    · exact h.onBoard t ht
    · exact hmove.onBoard hact t ht
  have hn := hrun.created_le hprovided honly
  have herr := hrun.resume_err hprovided honly hboard
  rw [kernelSteps_snoc] at hn herr
  have hresumed : ∀ t ∈ sevs.filterMap SystemEvent.kernelStep, ∀ r,
      .resumed 1 r ∈ t.events → r = err := by
    intro t ht r hr
    obtain ⟨m, hm⟩ := resume_mem_calls hr (List.mem_append_right _ ht)
    exact herr r m hm
  obtain ⟨hf, -⟩ := h.follows hprovided
  obtain ⟨place', hplace, -⟩ : ∃ place', b.uart.place.hear (kernelEvents sevs) = some place' ∧
      Follows y'.kernel place' := by
    rcases hact with rfl | rfl | rfl
    · exact hf.proc0 h.systemRun.kernelRun hmove hn hresumed
    · exact hf.kernel h.systemRun.kernelRun (.inl rfl) hmove hn hresumed
    · exact hf.kernel h.systemRun.kernelRun (.inr rfl) hmove hn hresumed
  exact ⟨place', hplace⟩

theorem perform_one_ok {sa : SystemAction}
    (hact : sa = .proc0 ∨ sa = .kernel .tick ∨ sa = .kernel .resume)
    (hs : ∃ out, systemStep regions [entry] b.system sa = .ok out) (behind : List Byte) :
    ∃ out, Board.perform regions entry b.system b.uart behind [sa] = .ok out := by
  obtain ⟨⟨y', sevs⟩, hs⟩ := hs
  obtain ⟨place', hplace⟩ := h.hears hprovided hact hs
  have hreplay : Machine.replay (systemStep regions [entry]) b.system [sa] =
      .ok ([⟨b.system, sa, sevs, y'⟩], y') := by
    rw [Machine.replay, hs]
    rfl
  refine perform_ok hreplay (Eq.trans ?_ hplace)
  simp [kernelSteps, kernelEvents]

theorem coveredAccept : ∀ t ∈ kernelSteps (systemSteps btr), CoveredAccept t :=
  h.systemRun.kernelRun.coveredAccept (h.systemRun.created_le hprovided h.byProc0Only) h.onBoard

omit h hprovided in
theorem creates_of_act {sa : SystemAction}
    (hact : sa = .proc0 ∨ sa = .kernel .tick ∨ sa = .kernel .resume) :
    ∀ a, sa = .kernel a → a.creates = false := by
  rintro a rfl
  rcases hact with ⟨⟨⟩⟩ | ⟨⟨⟩⟩ | ⟨⟨⟩⟩ <;> rfl

/-- A step of the others comes off if it does without the server. -/
theorem perform_ok_iff (hinit : initSections regions ≠ none) {sa : SystemAction}
    (hact : sa = .proc0 ∨ sa = .kernel .tick ∨ sa = .kernel .resume)
    (hends : sa.CoveredEnds regions [entry] b.system) (behind : List Byte) :
    (∃ out, Board.perform regions entry b.system b.uart behind [sa] = .ok out) ↔
      SystemEnabled b.system sa := by
  constructor
  · rintro ⟨⟨b', bevs⟩, hperform⟩
    obtain ⟨ts, hreplay, -, -⟩ := perform_cases hperform
    obtain ⟨m, sevs, ts', hs, -, -⟩ := Machine.replay_cons hreplay
    exact h.systemRun.enabled_of_ok hprovided h.byProc0Only hs
  · intro henabled
    exact h.perform_one_ok hprovided hact (h.systemRun.ok_of_enabled hprovided h.byProc0Only
      (h.coveredAccept hprovided) hinit (creates_of_act hact) hends henabled) behind

/-- **The server comes to its next system call, and the kernel to the end of it.** -/
theorem uart_ok (hup : b.system.kernel.up = some 1) (hc : b.system.kernel.control = .user)
    (behind : List Byte) : ∃ out, boardStep regions entry b (.uart behind) = .ok out := by
  have hrun := h.systemRun
  obtain ⟨hf, -⟩ := h.follows hprovided
  obtain ⟨Q, hinv⟩ := hrun.kernelRun.inv (hrun.created_le hprovided h.byProc0Only)
  have hp := hf.quiet hinv hup hc
  obtain ⟨u, uevs, huart, hcalls⟩ := hp.run_ok (b.system.kernel.pageOf 1) behind
  rw [boardStep, if_pos ⟨hup, hc⟩, huart]
  dsimp only
  cases hcall : callOf uevs with
  | none => exact ⟨_, rfl⟩
  | some c =>
      obtain ⟨hcreates, hends, hderefs⟩ := hcalls c hcall
      have hne : ¬ (some 1 : Option ProcRef) = some 0 := by decide
      -- it writes its page
      obtain ⟨k, hk, hwrite⟩ :
          ∃ k, k = b.system.kernel.modifyPage (b.system.kernel.procs 1).page (fun _ => u.page) ∧
            step b.system.kernel (.write u.page) = .ok (k, []) := by
        refine ⟨_, rfl, ?_⟩
        simp only [step, hc, hup]
      have hupk : k.up = some 1 := by
        rw [hk]
        exact hup
      have hck : k.control = .user := by
        rw [hk]
        exact hc
      obtain ⟨x₁, sevs₁, hsys₁⟩ := hrun.kernel_ok hprovided h.byProc0Only
        (a := .write u.page) (fun hby => hne (hup.symm.trans hby)) rfl hwrite
      have hrun₁ := hrun.snoc hsys₁
      have honly₁ := byProc0Only_snoc h.byProc0Only
        (t := ⟨b.system, .kernel (.write u.page), sevs₁, ⟨k, x₁⟩⟩) rfl
      -- and enters the kernel
      have hn₁ := hrun₁.created_le hprovided honly₁
      obtain ⟨Q₁, hinv₁⟩ := hrun₁.kernelRun.inv hn₁
      have hnothing : NothingMapped k := by
        rw [hk]
        exact (hrun.kernelRun.noTransfer (hrun.created_le hprovided h.byProc0Only)
          (h.coveredAccept hprovided)).1.modifyPage _ _
      obtain ⟨⟨s₂, kevs⟩, hstep⟩ := hnothing.step_ok (a := .syscall c) hinv₁
        (hrun₁.kernelRun.labelled hn₁) (fun hc' => by rw [hcreates] at hc'; cases hc') (hends k)
        hck hderefs
      obtain ⟨x₂, sevs₂, hsys₂⟩ := hrun₁.kernel_ok hprovided honly₁
        (a := .syscall c) (fun hby => hne (hupk.symm.trans hby)) hcreates hstep
      have hrun₂ := hrun₁.snoc hsys₂
      have honly₂ := byProc0Only_snoc honly₁
        (t := ⟨⟨k, x₁⟩, .kernel (.syscall c), sevs₂, ⟨s₂, x₂⟩⟩) hcreates
      have hn := hrun₂.created_le hprovided honly₂
      rw [kernelSteps_snoc, kernelSteps_snoc] at hn
      obtain ⟨place', hplace, -⟩ := Follows.uart hp hrun.kernelRun hup hc huart hcall
        (systemStep_move hsys₁) (systemStep_move hsys₂) hn
      have hreplay : Machine.replay (systemStep regions [entry]) b.system
          [.kernel (.write u.page), .kernel (.syscall c)] =
            .ok ([⟨b.system, .kernel (.write u.page), sevs₁, ⟨k, x₁⟩⟩,
              ⟨⟨k, x₁⟩, .kernel (.syscall c), sevs₂, ⟨s₂, x₂⟩⟩], ⟨s₂, x₂⟩) := by
        rw [Machine.replay, hsys₁]
        dsimp only
        rw [Machine.replay, hsys₂]
        rfl
      obtain ⟨⟨b', bevs⟩, hperform⟩ :
          ∃ out, Board.perform regions entry b.system u behind _ = .ok out := by
        refine perform_ok hreplay (Eq.trans ?_ hplace)
        simp [kernelSteps, kernelEvents]
      dsimp only
      rw [hperform]
      exact ⟨_, rfl⟩

/-- **No access of a step is to an address without memory.** -/
theorem backed (hmapped : RamMapped ttb img regions) {act : BoardAction}
    {bevs : List BoardEvent} {b' : Board}
    (hends : act = .proc0 → SystemAction.proc0.CoveredEnds regions [entry] b.system)
    (hs : boardStep regions entry b act = .ok (b', bevs)) :
    ∀ t ∈ kernelStepsOf bevs, t.Backed ttb := by
  have hrun := h.systemRun
  have hcov := h.coveredAccept hprovided
  cases boardStep_move hs with
  | @system _ sa evs _ hact hproc0 hsys hhear =>
      rw [kernelStepsOf_singleton]
      refine hrun.backed hprovided h.byProc0Only hcov hmapped (creates_of_act hact) ?_ hsys
      rcases hact with rfl | rfl | rfl
      · exact hends (hproc0 rfl)
      · trivial
      · trivial
  | @call behind x uevs c m evs₁ evs₂ _ hup hc huart hcall hwrite hsys hhear =>
      obtain ⟨Q, hinv⟩ := hrun.kernelRun.inv (hrun.created_le hprovided h.byProc0Only)
      obtain ⟨u, uevs', huart', hcalls⟩ := ((h.follows hprovided).1.quiet hinv hup hc).run_ok
        (b.system.kernel.pageOf 1) behind
      rw [huart] at huart'
      cases huart'
      obtain ⟨hcreates, hcovered, -⟩ := hcalls c hcall
      have hrun₁ := hrun.snoc hwrite
      have honly₁ := byProc0Only_snoc h.byProc0Only
        (t := ⟨b.system, .kernel (.write x.page), evs₁, m⟩) rfl
      obtain ⟨kevs, -, heq⟩ := (systemStep_move hwrite).kernel_step
      have hcov₁ : ∀ t ∈ kernelSteps (systemSteps btr ++
          [⟨b.system, .kernel (.write x.page), evs₁, m⟩]), CoveredAccept t := by
        rw [kernelSteps_snoc]
        intro t ht
        rcases List.mem_append.mp ht with ht | ht
        · exact hcov t ht
        · rw [heq] at ht
          obtain rfl := List.mem_singleton.mp ht
          trivial
      have hends₁ : (SystemAction.kernel (.write x.page)).CoveredEnds regions [entry] b.system :=
        trivial
      have hends₂ : (SystemAction.kernel (.syscall c)).CoveredEnds regions [entry] m :=
        hcovered _
      rw [kernelStepsOf_append_uart, kernelStepsOf_system, kernelStepsOf_singleton]
      intro t ht
      rcases List.mem_append.mp ht with ht | ht
      · refine hrun.backed hprovided h.byProc0Only hcov hmapped ?_ hends₁ hwrite t ht
        rintro a ⟨⟩
        rfl
      · refine hrun₁.backed hprovided honly₁ hcov₁ hmapped ?_ hends₂ hsys t ht
        rintro a ⟨⟩
        exact hcreates
  | halted hup hc huart hcall =>
      rw [← List.append_nil (List.map BoardEvent.uart _), kernelStepsOf_append_uart]
      exact fun t ht => absurd ht List.not_mem_nil

/-- Who runs is proc0 or the server. -/
theorem up_cases (hc : b.system.kernel.control = .user) :
    b.system.kernel.up = some 0 ∨ b.system.kernel.up = some 1 := by
  have hrun := h.systemRun
  obtain ⟨Q, hinv⟩ := hrun.kernelRun.inv (hrun.created_le hprovided h.byProc0Only)
  cases hup : b.system.kernel.up with
  | none =>
      have hidle := hinv.control.mpr hup
      rw [hc] at hidle
      cases hidle
  | some u =>
      have hlt : u.val < created (kernelSteps (systemSteps btr)) := by
        refine hinv.table.lt_of_ne_dead ?_
        rw [hinv.running u hup]
        decide
      obtain ⟨hcreated, hle⟩ := hrun.created_eq h.byProc0Only
      rw [List.length_singleton] at hcreated hle
      have hval : u.val = 0 ∨ u.val = 1 := by omega
      exact hval.imp (fun hu => congrArg some (Fin.ext hu)) fun hu => congrArg some (Fin.ext hu)

end BoardRun

/-- **Nothing on the board goes wrong**, save where proc0 gives away what is behind its table.
Whoever is to go on does: the kernel from where it has been left, and proc0 or the server,
whichever is running, to its next system call and the end of it; and the timer may tick at any
time that user code runs or nobody does.  All pages and spaces are in memory, and no access of a
step aborts. -/
theorem board_ok_iff (h : BoardRun img regions entry btr b)
    (hprovided : Provided img regions [entry]) (hinit : initSections regions ≠ none)
    (hmapped : RamMapped ttb img regions) :
    b.system.kernel.Homed ttb ∧
      (∀ act, (act = .proc0 → SystemAction.proc0.CoveredEnds regions [entry] b.system) →
        ((∃ b' bevs, boardStep regions entry b act = .ok (b', bevs) ∧
          ∀ t ∈ kernelStepsOf bevs, t.Backed ttb) ↔ BoardEnabled b act)) ∧
      (b.system.kernel.control = .user →
        BoardEnabled b .proc0 ∨ ∀ behind, BoardEnabled b (.uart behind)) := by
  refine ⟨h.systemRun.homed hprovided h.byProc0Only hmapped, fun act hends => ?_, fun hc => ?_⟩
  · have hok : (∃ out, boardStep regions entry b act = .ok out) ↔ BoardEnabled b act := by
      cases act with
      | proc0 => exact h.perform_ok_iff hprovided hinit (.inl rfl) (hends rfl) []
      | tick =>
          refine (h.perform_ok_iff hprovided hinit (.inr (.inl rfl)) trivial []).trans ?_
          simp [SystemEnabled, BoardEnabled, Enabled, Action.ByProc0, Action.derefs]
      | resume behind =>
          refine (h.perform_ok_iff hprovided hinit (.inr (.inr rfl)) trivial behind).trans ?_
          simp [SystemEnabled, BoardEnabled, Enabled, Action.ByProc0, Action.derefs]
      | uart behind =>
          constructor
          · rintro ⟨out, hs⟩
            rw [boardStep] at hs
            split at hs
            · rename_i henabled
              exact henabled
            · cases hs
          · rintro ⟨hup, hc⟩
            exact h.uart_ok hprovided hup hc behind
    rw [← hok]
    constructor
    · rintro ⟨b', bevs, hs, -⟩
      exact ⟨_, hs⟩
    · rintro ⟨⟨b', bevs⟩, hs⟩
      exact ⟨b', bevs, hs, h.backed hprovided hmapped hends hs⟩
  · rcases h.up_cases hprovided hc with hup | hup
    · exact .inl ⟨hup, hc⟩
    · exact .inr fun behind => ⟨hup, hc⟩

/-- The server runs. -/
theorem board_ok_in_server :
    ∃ ttb btr b, RamMapped ttb exampleImage (publishedRegions exampleSymbols) ∧
      BoardRun exampleImage (publishedRegions exampleSymbols) 0x100 btr b ∧
      b.system.kernel.up = some 1 ∧ b.system.kernel.control = .user ∧
      b.system.kernel.Homed ttb ∧
      (∀ act, (act = .proc0 → SystemAction.proc0.CoveredEnds (publishedRegions exampleSymbols)
          [0x100] b.system) →
        ((∃ b' bevs, boardStep (publishedRegions exampleSymbols) 0x100 b act = .ok (b', bevs) ∧
          ∀ t ∈ kernelStepsOf bevs, t.Backed ttb) ↔ BoardEnabled b act)) ∧
      (b.system.kernel.control = .user →
        BoardEnabled b .proc0 ∨ ∀ behind, BoardEnabled b (.uart behind)) := by
  obtain ⟨ttb, -, hmapped⟩ := exists_ramMapped_exampleSymbols
  obtain ⟨btr, b, hrun, h⟩ := exists_exampleBoard
    [.resume [], .proc0, .proc0, .proc0, .proc0, .resume [], .resume [], .proc0, .resume []]
    (fun _ b => b.system.kernel.up = some 1 ∧ b.system.kernel.control = .user)
    (by decide +kernel)
  obtain ⟨hup, hc⟩ := of_decide_eq_true h
  exact ⟨ttb, btr, b, hmapped, hrun, hup, hc,
    board_ok_iff hrun provided_exampleImage initSections_exampleSymbols hmapped⟩

end Omb
