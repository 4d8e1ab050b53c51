import Omb.Am335x.Interrupt
import Omb.Kern.Moves

/-!
# The stack of the idle loop

When `schedule` finds nothing to run it enables interrupts and loops, on the stack of the
process that called it.  A tick in the loop pushes an exception frame and calls `trap`, and
from there `schedule` is called again; when it finds nothing either, it enables interrupts and
loops where it is.  The frame of the tick is never popped.

`idleStep` is one such tick, through the assembly of `switch` and the C of the scheduler.
Whenever `next_proc` finds nothing in a state the kernel idles in, it finds nothing after the
tick, so the frames pile up without bound and the stack pointer leaves the stack
(`idleBounded_iff`); and in runs that make no more processes than there are slots it always
finds nothing (`nextProc_of_idle`).

How much of the stack the C code takes is up to the compiler, so it is a parameter
(`IdlePath`), which may be zero.  The assembly pushes sixteen words in any case.

This is the one place where the depth of `kstack` is taken up: in system calls the kernel goes
down a fixed number of frames.

## Main results

* `sp_enter`: what the assembly pushes
* `nextProc_of_idle`: nothing is ready while the kernel idles
* `idleBounded_iff`: when exception frames do not accumulate
-/

namespace Omb

open Arm

/-- `KSTACK_LEN`. -/
abbrev kstackLen : ℕ := 512

/-! ## The entry of the interrupt -/

/-- The stack at the branch to `_user`, whatever the two stacks hold. -/
theorem sp_switchRetrieve {c s : Cpu} (h : Saved c s) :
    bankOf (run s switchRetrieve).cpsr = .svc ∧
      (run s switchRetrieve).eq = decide (c.cpsr &&& 0xf = 0) ∧
      (run s switchRetrieve).sp .svc = c.sp .svc - 56 := by
  -- the five words retrieved from the IRQ-mode stack do not matter here
  obtain ⟨w₀, w₁, w₂, w₃, w₄, hload⟩ :
      ∃ w₀ w₁ w₂ w₃ w₄, load s.mem (c.sp .irq - 20) 5 = [w₀, w₁, w₂, w₃, w₄] :=
    ⟨_, _, _, _, _, rfl⟩
  simp only [BitVec.ofNat_eq_ofNat] at hload
  refine ⟨?_, ?_, ?_⟩ <;>
    simp [switchRetrieve, run, exec, Cpu.get, Cpu.set, Cpu.setAll, Cpu.bank, r5to9, h.bank,
      h.low, h.psr, h.sp, hload, Cpu.eq, eq_withFlags]

/-- **The kernel-mode branch of `switch`** pushes 16 words. -/
theorem sp_enter (ret : ReturnAddresses) {c : Cpu} (hmode : c.cpsr &&& 0x1f = 19) :
    (enter ret c).sp .svc = c.sp .svc - 64 ∧ bankOf (enter ret c).cpsr = .svc := by
  obtain ⟨hbank, heq, hsp⟩ := sp_switchRetrieve (saved_switchSave c)
  have hne : ¬ (19 : Arm.Word) &&& 0xf = 0 := by decide
  rw [mode_and_f, hmode, decide_eq_false hne] at heq
  rw [enter]
  generalize run (run (run (takeIrq c) irqEx) switchSave) switchRetrieve = s at hbank heq hsp
  have hpush : c.sp .svc - 56#32 - 8#32 = c.sp .svc - 64#32 := by bv_omega
  simp only [BitVec.ofNat_eq_ofNat] at hsp
  rw [if_neg (by simp [heq])]
  constructor <;>
    simp [kernelEnter, run, exec, Cpu.get, Cpu.set, Cpu.bank, hbank, hsp, hpush]

/-! ## Ticks in the idle loop -/

/-- The compiled C from the call of `trap` through `irq_handler`, `systick_handler` and
`schedule` into the idle loop.  It uses `frames` bytes of the stack, and none of its functions
returns. -/
structure IdlePath where
  ret : ReturnAddresses
  code : Cpu → Cpu
  frames : ℕ
  sp : ∀ a, (code a).sp .svc = a.sp .svc - BitVec.ofNat 32 frames
  mode : ∀ a, bankOf a.cpsr = .svc → (code a).cpsr &&& 0x1f = 19

/-- The idle loop: the kernel's variables, the CPU, and the exception frames that are on
the supervisor stack. -/
structure IdleLoop where
  kernel : State
  cpu : Cpu
  live : ℕ

/-- A tick does not end in the idle loop again. -/
inductive IdleEnd where
  /-- A process runs. -/
  | left
  | stuck (e : Stuck)

/-- A tick that comes to the idle loop again.  A tick that finds something to run leaves the
loop for good, as no process goes on in it. -/
def idleStep (path : IdlePath) (x : IdleLoop) (_ : Unit) :
    Except IdleEnd (IdleLoop × List Event) :=
  match step x.kernel .tick with
  | .error e => .error (.stuck e)
  | .ok (s, evs) =>
      if s.control = .idle then
        .ok ({ kernel := s, cpu := path.code (enter path.ret x.cpu), live := x.live + 1 }, evs)
      else .error .left

/-- What ticks lead to from the idle loop, as it is first entered. -/
def IdleReaches (path : IdlePath) (s : State) (c : Cpu) (x : IdleLoop) : Prop :=
  ∃ tr, Machine.Run (idleStep path) ⟨s, c, 0⟩ tr x

/-- A bound on the frames, and the stack pointer never below `stack`.  This is what one would
expect of an idle loop. -/
structure IdleBounded (path : IdlePath) (s : State) (c : Cpu) (stack : Word) : Prop where
  live : ∃ bound, ∀ x, IdleReaches path s c x → x.live ≤ bound
  sp : ∀ x, IdleReaches path s c x → stack.toNat ≤ (x.cpu.sp .svc).toNat

variable {s : State} {path : IdlePath} {c : Cpu} {x : IdleLoop}

theorem step_tick_idle (hidle : s.control = .idle) (hup : s.up = none) :
    step s .tick = schedule s .trap none := by
  simp only [step, hidle, hup]

/-- A tick that finds nothing leaves the kernel's variables as they are. -/
theorem step_tick_of_none (hidle : s.control = .idle) (hup : s.up = none)
    (hnone : nextProc s = .ok none) : step s .tick = .ok (s, [.scheduled none]) := by
  have hsave : saveLabel s .trap = s := by
    rw [saveLabel, hup]
  have hstay : { s with up := none, control := .idle } = s := by
    rw [← hup, ← hidle]
  rw [step_tick_idle hidle hup, schedule, hsave, hnone]
  simp [switchTo, hstay]

/-- It comes to the idle loop again only if it finds nothing. -/
theorem nextProc_of_tick (hidle : s.control = .idle) (hup : s.up = none) {s' : State}
    {evs : List Event} (h : step s .tick = .ok (s', evs)) (hidle' : s'.control = .idle) :
    nextProc s = .ok none := by
  have hsave : saveLabel s .trap = s := by
    rw [saveLabel, hup]
  rw [step_tick_idle hidle hup, schedule, hsave] at h
  cases hnext : nextProc s with
  | error e => simp [hnext] at h
  | ok r =>
      cases r with
      | none => rfl
      | some q =>
          simp only [hnext, Except.ok.injEq, Prod.mk.injEq] at h
          rw [← h.1, switchTo] at hidle'
          cases hidle'

/-- The state of the loop after `n` ticks. -/
structure After (path : IdlePath) (s : State) (c : Cpu) (n : ℕ) (x : IdleLoop) : Prop where
  kernel : x.kernel = s
  mode : x.cpu.cpsr &&& 0x1f = 19
  live : x.live = n
  sp : x.cpu.sp .svc = c.sp .svc - BitVec.ofNat 32 (n * (64 + path.frames))

/-- One more tick, one more frame. -/
theorem After.tick {n : ℕ} (h : After path s c n x) (hidle : s.control = .idle)
    (hup : s.up = none) (hnone : nextProc s = .ok none) :
    ∃ x', idleStep path x () = .ok (x', [.scheduled none]) ∧ After path s c (n + 1) x' := by
  obtain ⟨hsp, hbank⟩ := sp_enter path.ret h.mode
  refine ⟨⟨s, path.code (enter path.ret x.cpu), x.live + 1⟩, ?_, rfl, path.mode _ hbank,
    by rw [h.live], ?_⟩
  · rw [idleStep, h.kernel, step_tick_of_none hidle hup hnone]
    exact if_pos hidle
  · rw [path.sp, hsp, h.sp]
    have hsum : (n + 1) * (64 + path.frames) = n * (64 + path.frames) + 64 + path.frames := by
      rw [Nat.succ_mul, Nat.add_assoc]
    rw [hsum, BitVec.ofNat_add, BitVec.ofNat_add, BitVec.sub_sub, BitVec.sub_sub,
      BitVec.add_assoc]
    rfl

/-- The loop goes on for any number of ticks. -/
theorem exists_after (path : IdlePath) (hmode : c.cpsr &&& 0x1f = 19) (hidle : s.control = .idle)
    (hup : s.up = none) (hnone : nextProc s = .ok none) (n : ℕ) :
    ∃ x, IdleReaches path s c x ∧ After path s c n x := by
  induction n with
  | zero => exact ⟨⟨s, c, 0⟩, ⟨[], .nil⟩, rfl, hmode, rfl, by simp⟩
  | succ n ih =>
      obtain ⟨x, ⟨tr, hrun⟩, hx⟩ := ih
      obtain ⟨x', hstep, hx'⟩ := hx.tick hidle hup hnone
      exact ⟨x', ⟨_, .snoc hrun hstep⟩, hx'⟩

/-- A loop that a tick leaves was not entered again. -/
theorem IdleReaches.eq_of_ne (h : IdleReaches path s c x) (hidle : s.control = .idle)
    (hup : s.up = none) (hne : nextProc s ≠ .ok none) : x = ⟨s, c, 0⟩ := by
  obtain ⟨tr, hrun⟩ := h
  induction hrun with
  | nil => rfl
  | snoc hrun hs ih =>
      subst ih
      rw [idleStep] at hs
      split at hs
      · cases hs
      · rename_i s' evs htick
        split_ifs at hs with hidle'
        exact absurd (nextProc_of_tick hidle hup htick hidle') hne

/-! ## The stack of the loop -/

/-- After enough ticks the stack pointer is below the stack of the loop. -/
theorem exists_below (hmode : c.cpsr &&& 0x1f = 19) (hidle : s.control = .idle)
    (hup : s.up = none) (hnone : nextProc s = .ok none) {stack : Word}
    (hfrom : stack.toNat ≤ (c.sp .svc).toNat)
    (hto : (c.sp .svc).toNat ≤ stack.toNat + kstackLen)
    (hroom : 64 + path.frames ≤ stack.toNat) :
    ∃ x, IdleReaches path s c x ∧ x.live ≤ kstackLen / 64 + 1 ∧
      (x.cpu.sp .svc).toNat < stack.toNat := by
  -- the ticks it takes to use up what is left of the stack
  obtain ⟨left, hleft⟩ : ∃ left, (c.sp .svc).toNat = stack.toNat + left :=
    ⟨_, (Nat.add_sub_of_le hfrom).symm⟩
  obtain ⟨x, hreaches, hx⟩ :=
    exists_after path hmode hidle hup hnone (left / (64 + path.frames) + 1)
  have hpos : 0 < 64 + path.frames := by omega
  have hdiv := Nat.div_add_mod left (64 + path.frames)
  have hmod := Nat.mod_lt left hpos
  have hpushed : (left / (64 + path.frames) + 1) * (64 + path.frames) =
      (64 + path.frames) * (left / (64 + path.frames)) + (64 + path.frames) := by
    rw [Nat.succ_mul, Nat.mul_comm]
  have hticks : left / (64 + path.frames) ≤ kstackLen / 64 :=
    Nat.div_le_div (by omega) (by omega) (by omega)
  refine ⟨x, hreaches, by rw [hx.live]; omega, ?_⟩
  have hlt := (c.sp .svc).isLt
  generalize left / (64 + path.frames) = n at hdiv hpushed hx
  generalize (64 + path.frames) * n = m at hdiv hpushed
  rw [hx.sp, hpushed]
  have hused : (BitVec.ofNat 32 (m + (64 + path.frames))).toNat = m + (64 + path.frames) := by
    rw [BitVec.toNat_ofNat, Nat.mod_eq_of_lt (by omega)]
  have hle : BitVec.ofNat 32 (m + (64 + path.frames)) ≤ c.sp .svc := by
    rw [BitVec.le_def, hused]
    omega
  rw [BitVec.toNat_sub_of_le hle, hused]
  omega

/-- When `next_proc` finds nothing the frames are not bounded. -/
theorem not_idleBounded (hmode : c.cpsr &&& 0x1f = 19) (hidle : s.control = .idle)
    (hup : s.up = none) (hnone : nextProc s = .ok none) (stack : Word) :
    ¬ IdleBounded path s c stack := by
  rintro ⟨⟨bound, hbound⟩, -⟩
  obtain ⟨x, hreaches, hx⟩ := exists_after path hmode hidle hup hnone (bound + 1)
  have hle := hbound x hreaches
  rw [hx.live] at hle
  omega

/-- As long as no slot is used twice, it finds nothing in the states the kernel idles in: it
went idle as nothing was ready, and nothing becomes ready with nobody running. -/
theorem nextProc_of_idle {tr : List KStep} (hrun : KernelRun tr s)
    (hn : created tr ≤ maxProcs) (hup : s.up = none) : nextProc s = .ok none := by
  obtain ⟨Q, hinv⟩ := hrun.inv hn
  rw [nextProc_eq hinv.table.alive fun u hu => by rw [hup] at hu; cases hu]
  refine congrArg Except.ok (List.find?_eq_none.mpr fun p _ hready => ?_)
  exact hinv.idle hup p (of_decide_eq_true hready)

/-- **Idling accumulates exception frames**: they are bounded, and the stack pointer stays on
the stack, exactly when `next_proc` does not come to the conclusion that nothing is ready.
That is never so in runs that use no slot twice.  Otherwise a few ticks are enough for the
stack pointer to be below the stack. -/
theorem idleBounded_iff {tr : List KStep} (hrun : KernelRun tr s) (hidle : s.control = .idle)
    (hup : s.up = none) (path : IdlePath) (hmode : c.cpsr &&& 0x1f = 19) {stack : Word}
    (hfrom : stack.toNat ≤ (c.sp .svc).toNat)
    (hto : (c.sp .svc).toNat ≤ stack.toNat + kstackLen)
    (hroom : 64 + path.frames ≤ stack.toNat) :
    (IdleBounded path s c stack ↔ nextProc s ≠ .ok none) ∧
      (created tr ≤ maxProcs → nextProc s = .ok none) ∧
      (nextProc s = .ok none → ∃ x, IdleReaches path s c x ∧ x.live ≤ kstackLen / 64 + 1 ∧
        (x.cpu.sp .svc).toNat < stack.toNat) := by
  refine ⟨⟨fun h hnone => not_idleBounded hmode hidle hup hnone stack h, fun hne => ?_⟩,
    fun hn => nextProc_of_idle hrun hn hup,
    fun hnone => exists_below hmode hidle hup hnone hfrom hto hroom⟩
  refine ⟨⟨0, fun x hx => ?_⟩, fun x hx => ?_⟩
  · rw [hx.eq_of_ne hidle hup hne]
  · rw [hx.eq_of_ne hidle hup hne]
    exact hfrom

/-! ## A run that idles -/

/-- Two processes exchange a message and then both wait. -/
def idlingActs : List Action :=
  [.resume, .syscall (.procCreate 0x10000 0x11000), .syscall (.send 1), .resume, .resume,
    .syscall (.recv pidAll), .resume, .syscall (.recv pidAll)]

theorem exists_idling :
    ∃ tr s, KernelRun tr s ∧ created tr ≤ maxProcs ∧ s.control = .idle ∧ s.up = none := by
  obtain ⟨tr, s, hrun, hP⟩ := exists_exampleRun idlingActs
    (fun tr s => created tr ≤ maxProcs ∧ s.up = none) (by decide +kernel)
  rw [decide_eq_true_eq] at hP
  have h := KernelRun.of_bootRun hrun
  obtain ⟨Q, hinv⟩ := h.inv hP.1
  exact ⟨tr, s, h, hP.1, hinv.control.mpr hP.2, hP.2⟩

/-- The way into the idle loop with 40 bytes of C frames. -/
def examplePath : IdlePath where
  ret := ⟨0x100, 0x200, by decide⟩
  code := fun a =>
    { a with
      sp := Function.update a.sp .svc (a.sp .svc - 40)
      cpsr := 0x13 }
  frames := 40
  sp := fun a => by simp
  mode := fun a _ => show (0x13 : Arm.Word) &&& 0x1f = 19 by decide

/-- The CPU in the idle loop, 100 bytes into a stack at `0x82010000`. -/
def idleCpu : Cpu :=
  { exampleCpu with
    cpsr := 0x13
    sp := fun _ => 0x82010000 + 412 }

/-- The frames of a kernel that idles are not bounded. -/
theorem idle_frames_unbounded :
    ∃ tr s, KernelRun tr s ∧ s.control = .idle ∧ s.up = none ∧
      ¬ IdleBounded examplePath s idleCpu 0x82010000 := by
  obtain ⟨tr, s, hrun, hn, hidle, hup⟩ := exists_idling
  exact ⟨tr, s, hrun, hidle, hup,
    not_idleBounded (by decide) hidle hup (nextProc_of_idle hrun hn hup) _⟩

/-- Ten ticks bring the stack pointer of that kernel below its stack. -/
theorem idle_stack_left :
    ∃ tr s, KernelRun tr s ∧ s.control = .idle ∧
      (IdleBounded examplePath s idleCpu 0x82010000 ↔ nextProc s ≠ .ok none) ∧
      ∃ x, IdleReaches examplePath s idleCpu x ∧ x.live ≤ 9 ∧
        (x.cpu.sp .svc).toNat < 0x82010000 := by
  obtain ⟨tr, s, hrun, hn, hidle, hup⟩ := exists_idling
  have hfrom : (0x82010000 : Word).toNat ≤ (idleCpu.sp .svc).toNat := by decide
  have hto : (idleCpu.sp .svc).toNat ≤ (0x82010000 : Word).toNat + kstackLen := by decide
  have hroom : 64 + examplePath.frames ≤ (0x82010000 : Word).toNat := by decide
  obtain ⟨hiff, hnone, hbelow⟩ :=
    idleBounded_iff hrun hidle hup examplePath (by decide) hfrom hto hroom
  exact ⟨tr, s, hrun, hidle, hiff, hbelow (hnone hn)⟩

end Omb
