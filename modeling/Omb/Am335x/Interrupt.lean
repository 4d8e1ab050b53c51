import Omb.Lib.Arm
import Mathlib.Data.Fintype.Basic
import Mathlib.Tactic.FinCases

/-!
# `am335x/kern/vectors.S` and `asm.S`: interrupts and labels

The way of an IRQ through `irq_ex`, `switch` and `trap` and back, one instruction at a time,
for code of any register contents.  `switch` collects the interrupted registers in an
exception frame on the supervisor stack, in two parts, since the first five of them have been
on the IRQ-mode stack in the meantime.  `trap` may go through `set_label`, other processes and
`goto_label` before it returns; the frame is then popped again (`interrupt_transparent`).

Both branches are run: `_user`, which keeps 17 words on the stack, and the one for kernel
code, which keeps 16 of them and returns through the link register of the interrupted code,
put back last.

`trap` is compiled C and enters as a call that keeps to the calling convention (`Returned`):
it returns behind the call, with the stack pointer, `r4` to `r11` and the stack that is in use
as they were.  Of its switches all that is assumed is that the stack left behind and the label
are not overwritten before `goto_label` (`TrapCall`); that `goto_label` then is the second
return of `set_label` is shown of the instructions (`returned_gotoLabel`).

The two stacks are apart (`StacksApart`): what `irq_ex` stores on the IRQ-mode stack would
otherwise be overwritten before it is collected.

## Main results

* `returned_gotoLabel`: `goto_label` is the second return of `set_label`
* `TrapCall.returned`: `trap` returns as calls do
* `interrupt_transparent`: registers, status, resume address and stack pointer come back
-/

namespace Omb

open Arm

/-! ## The code -/

/-- `MODE_SVC` -/
def modeSvc : Arm.Word := 19

/-- `MODE_SYS` -/
def modeSys : Arm.Word := 31

/-- `ABORT_INTERRUPT` -/
def abortInterrupt : Arm.Word := 0

/-- `{r0 - r4}` -/
def r0to4 : List Reg := [.r 0, .r 1, .r 2, .r 3, .r 4]

/-- `{r5 - r9}` -/
def r5to9 : List Reg := [.r 5, .r 6, .r 7, .r 8, .r 9]

/-- `{r5 - r12}` -/
def r5to12 : List Reg := [.r 5, .r 6, .r 7, .r 8, .r 9, .r 10, .r 11, .r 12]

/-- `{r4 - r12, lr}` -/
def r4to12lr : List Reg := .r 4 :: (r5to12 ++ [.lr])

/-- `{r0 - r12}` -/
def r0to12 : List Reg := r0to4 ++ r5to12

/-- `irq_ex`, up to its branch to `switch`. -/
def irqEx : List Instr :=
  [.stmfd .sp false r0to4,
    .sub (.r 0) .lr 4,
    .movImm (.r 1) abortInterrupt]

/-- `switch`, up to where it has the registers from `r5` on and the interrupted `pc` on the
supervisor stack.  The other five are on the IRQ-mode stack still. -/
def switchSave : List Instr :=
  [.mrsSpsr (.r 2),
    .sub (.r 4) .sp 20,
    .clrex,
    .cpsid modeSvc,
    .sub .sp .sp 36,
    .stmia .sp true r5to12,
    .str (.r 0) .sp,
    .sub .sp .sp 52]

/-- `switch` from there on, up to its branch to `_user`: retrieve and store
`r0 - r4`. -/
def switchRetrieve : List Instr :=
  [.ldmia (.r 4) false r5to9,
    .stmia .sp false r5to9,
    .ands (.r 3) (.r 2) 0xf]

/-- Kernel mode interrupted: up to `trap`, which returns to `ret`. -/
def kernelEnter (ret : Arm.Word) : List Instr :=
  [.stmfd .sp true [.r 2, .lr],
    .bl ret]

/-- Kernel mode interrupted: from `trap` to the return from the interrupt. -/
def kernelRestore : List Instr :=
  [.ldmia .sp true [.r 2, .lr],
    .msrSpsr (.r 2)]

/-- `_user`, up to `trap`. -/
def userEnter (ret : Arm.Word) : List Instr :=
  [.mov (.r 3) .sp,
    .cpsid modeSys,
    .stmfd (.r 3) true [.r 2, .sp, .lr],
    .cpsid modeSvc,
    .mov .sp (.r 3),
    .bl ret]

/-- `_user`, from `trap` to the return from the interrupt. -/
def userRestore : List Instr :=
  [.mov (.r 3) .sp,
    .cpsid modeSys,
    .ldmia (.r 3) true [.r 2, .sp, .lr],
    .cpsid modeSvc,
    .mov .sp (.r 3),
    .msrSpsr (.r 2)]

/-- The return from the interrupt, the last instruction of both branches. -/
def returnIrq : List Instr :=
  [.ldmiaPc .sp r0to12]

/-- `set_label` -/
def setLabel : List Instr :=
  [.mrsCpsr (.r 1),
    .stmia (.r 0) false [.r 1, .sp],
    .add (.r 0) (.r 0) 28,
    .stmia (.r 0) false r4to12lr,
    .movImm (.r 0) 0,
    .movPc .lr]

/-- `goto_label` -/
def gotoLabel : List Instr :=
  [.ldmia (.r 0) false [.r 1, .sp],
    .add (.r 0) (.r 0) 28,
    .ldmia (.r 0) false r4to12lr,
    .movImm (.r 0) 1,
    .msrCpsr (.r 1),
    .movPc .lr]

/-- `add r1, r1, r2` -/
def addStackLen (c : Cpu) : Cpu :=
  c.set (.r 1) (c.get (.r 1) + c.get (.r 2))

/-- `drop_to_user` from there on, up to its last instruction. -/
def loadLabel : List Instr :=
  [.mov .sp (.r 1),
    .cpsid modeSys,
    .ldmia (.r 0) true [.r 1, .sp, .lr],
    .cpsid modeSvc,
    .msrSpsr (.r 1),
    .ldmia (.r 0) false (r0to12 ++ [.lr])]

/-- `movs pc, lr` -/
def movsPcLr (c : Cpu) : Cpu :=
  { c with pc := c.get .lr, cpsr := c.spsr c.bank }

/-- `drop_to_user`, with its arguments in `r0` to `r2`. -/
def dropToUserCode (c : Cpu) : Cpu :=
  movsPcLr (run (addStackLen c) loadLabel)

@[simp] theorem bankOf_modeSvc : bankOf modeSvc = .svc := by decide

@[simp] theorem bankOf_modeSys : bankOf modeSys = .usr := by decide

/-! ## Into the kernel -/

/-- The words of an exception frame: `r0` to `r12` and the interrupted `pc`. -/
def irqFrame (c : Cpu) : List Arm.Word :=
  r0to12.map c.get ++ [c.pc]

/-- The state after `switchSave`, for an IRQ taken at `c`: `r2` has the status that was
interrupted, and `r4` the place of the other registers. -/
structure Saved (c s : Cpu) : Prop where
  bank : bankOf s.cpsr = .svc
  psr : s.r 2 = c.cpsr
  low : s.r 4 = c.sp .irq - 20
  sp : s.sp = Function.update c.sp .svc (c.sp .svc - 56)
  lr : s.lr = Function.update c.lr .irq (c.pc + 4)
  mem : s.mem = Function.update
    (store (store c.mem (c.sp .irq - 20) (r0to4.map c.get)) (c.sp .svc - 36)
      (r5to12.map c.get)) (c.sp .svc - 4) c.pc

theorem saved_switchSave (c : Cpu) : Saved c (run (run (takeIrq c) irqEx) switchSave) := by
  have hpc : c.pc + 4#32 - 4#32 = c.pc := by bv_omega
  have hsp : c.sp .svc - 4#32 - 52#32 = c.sp .svc - 56#32 := by bv_omega
  have hpcAt : c.sp .svc - 36#32 + 32#32 = c.sp .svc - 4#32 := by bv_omega
  constructor <;>
    simp [irqEx, switchSave, run, exec, Cpu.get, Cpu.set, Cpu.bank, takeIrq, r0to4, r5to12,
      hpc, hsp, hpcAt]

/-- The IRQ-mode stack words that `irq_ex` writes are none of the 17 words below the
supervisor stack pointer.  These are the frame, and the three words that a call out of user
code takes below it. -/
def StacksApart (c : Cpu) : Prop :=
  ∀ x, InBlock (c.sp .irq - 20) 5 x → ¬ InBlock (c.sp .svc - 68) 17 x

/-- The state at the branch to `_user`, for an IRQ taken at `c`.  The flags tell the two modes
apart that can be interrupted. -/
structure Entered (c s : Cpu) : Prop where
  bank : bankOf s.cpsr = .svc
  eq : s.eq = decide (c.cpsr &&& 0xf = 0)
  psr : s.r 2 = c.cpsr
  sp : s.sp = Function.update c.sp .svc (c.sp .svc - 56)
  lr : s.lr = Function.update c.lr .irq (c.pc + 4)
  frame : load s.mem (c.sp .svc - 56) 14 = irqFrame c

/-- The parts of the frame, at their places above `a`. -/
theorem frame_parts {c : Cpu} {a : Arm.Word} (ha : c.sp .svc - 68 = a) :
    c.sp .svc - 56 = a + BitVec.ofNat 32 (4 * 3) ∧
      c.sp .svc - 36 = a + BitVec.ofNat 32 (4 * 8) ∧
      c.sp .svc - 4 = a + BitVec.ofNat 32 (4 * 16) := by
  subst ha
  refine ⟨?_, ?_, ?_⟩ <;> bv_omega

/-- `r0` to `r4` are still on the IRQ-mode stack. -/
theorem Saved.load_low {c s : Cpu} (h : Saved c s) (hapart : StacksApart c) :
    load s.mem (c.sp .irq - 20) 5 = r0to4.map c.get := by
  obtain ⟨-, hhigh, hpc⟩ := frame_parts (c := c) rfl
  have hlow : load (store c.mem (c.sp .irq - 20) (r0to4.map c.get)) (c.sp .irq - 20) 5 =
      r0to4.map c.get :=
    load_store (by simp [r0to4]) (by omega)
  have hlast : s.mem = store (store (store c.mem (c.sp .irq - 20) (r0to4.map c.get))
      (c.sp .svc - 36) (r5to12.map c.get)) (c.sp .svc - 4) [c.pc] := h.mem
  rw [hlast, load_store_of_disjoint, load_store_of_disjoint, hlow]
  · intro x hx hin
    rw [hhigh] at hin
    exact hapart x hx (hin.mono (by simp [r5to12]))
  · intro x hx hin
    rw [hpc] at hin
    exact hapart x hx (hin.mono (by simp))

/-- With them written below the rest, the frame is complete. -/
theorem Saved.frame {c s : Cpu} (h : Saved c s) :
    load (store s.mem (c.sp .svc - 56) (r0to4.map c.get)) (c.sp .svc - 56) 14 =
      irqFrame c := by
  obtain ⟨hlow, hhigh, hpc⟩ := frame_parts (c := c) rfl
  have hmem : s.mem = store (store (store c.mem (c.sp .irq - 20) (r0to4.map c.get))
      (c.sp .svc - 36) (r5to12.map c.get)) (c.sp .svc - 4) [c.pc] := h.mem
  generalize c.sp .svc - 68 = a at hlow hhigh hpc
  rw [hmem, hlow, hhigh, hpc]
  have hlow₅ : load (store (store (store (store c.mem (c.sp .irq - 20) (r0to4.map c.get))
      (a + BitVec.ofNat 32 (4 * 8)) (r5to12.map c.get)) (a + BitVec.ofNat 32 (4 * 16)) [c.pc])
      (a + BitVec.ofNat 32 (4 * 3)) (r0to4.map c.get)) (a + BitVec.ofNat 32 (4 * 3)) 5 =
      r0to4.map c.get :=
    load_store (by simp [r0to4]) (by omega)
  have hhigh₈ : ∀ m, load (store m (a + BitVec.ofNat 32 (4 * 8)) (r5to12.map c.get))
      (a + BitVec.ofNat 32 (4 * 8)) 8 = r5to12.map c.get := fun m =>
    load_store (by simp [r5to12]) (by omega)
  have hpc₁ : ∀ m, load (store m (a + BitVec.ofNat 32 (4 * 16)) [c.pc])
      (a + BitVec.ofNat 32 (4 * 16)) 1 = [c.pc] := fun m =>
    load_store (by simp) (by omega)
  rw [show (14 : ℕ) = 5 + (8 + 1) from rfl, load_append _ _ 5, hlow₅, offset_add,
    load_store_of_disjoint, load_append _ _ 8, load_store_of_disjoint, hhigh₈, offset_add, hpc₁]
  · simp [irqFrame, r0to12]
  · intro x hx hin
    exact hx.disjoint hin (by omega) (by simp)
  · intro x hx hin
    exact hin.disjoint hx (by simp [r0to4]) (by omega)

theorem entered_switchRetrieve {c s : Cpu} (h : Saved c s) (hapart : StacksApart c) :
    Entered c (run s switchRetrieve) := by
  have hlow := h.load_low hapart
  have hframe := h.frame
  simp only [r0to4, List.map_cons, List.map_nil, Cpu.get, BitVec.ofNat_eq_ofNat]
    at hlow hframe
  constructor <;>
    simp [switchRetrieve, run, exec, Cpu.get, Cpu.set, Cpu.setAll, Cpu.bank, r5to9, h.bank,
      h.low, h.psr, h.sp, h.lr, hlow, hframe, Cpu.eq, eq_withFlags]

/-! ## The call of `trap` -/

/-- What the calling convention says of a call made at `a` that returns in `b`, with the words
`live` of the stack in use: it returns behind the call, in supervisor mode, with `sp`, `r4` to
`r11` and the stack in use as they were.  Nothing is said of `r0` to `r3`, `r12` and the
flags. -/
structure Returned (live : Arm.Word → Prop) (a b : Cpu) : Prop where
  pc : b.pc = a.lr .svc
  bank : bankOf b.cpsr = .svc
  sp : b.sp .svc = a.sp .svc
  saved : ∀ i : Fin 13, 4 ≤ i.val → i.val ≤ 11 → b.r i = a.r i
  mem : ∀ x, live x → b.mem x = a.mem x

/-- A call of `trap`, made at `a`, as compiled. -/
inductive TrapCall (live : Arm.Word → Prop) (a : Cpu) : Cpu → Prop
  /-- It returns. -/
  | returns {f : Cpu} (h : Returned live a f) : TrapCall live a f
  /-- It comes to `set_label` in `b`; other processes run until one of them calls
  `goto_label` of the same label in `d`; the rest of the C code goes on from there.  The
  label is not on the stack, and neither it nor the suspended stack is overwritten.  The
  C code keeps to the calling convention if what it calls does. -/
  | switches {own : Arm.Word → Prop} {b d : Cpu} {rest : Cpu → Cpu}
      (hb : bankOf b.cpsr = .svc) (hd : bankOf d.cpsr = .svc) (hlabel : d.r 0 = b.r 0)
      (hapart : ∀ x, own x → ¬ InBlock (b.r 0) 17 x)
      (hkept : ∀ x, own x ∨ InBlock (b.r 0) 17 x → d.mem x = (run b setLabel).mem x)
      (hrest : ∀ e, Returned own b e → Returned live a (rest e)) :
      TrapCall live a (rest (run d gotoLabel))

/-- The words of a label that `set_label` fills in. -/
theorem mem_setLabel {b : Cpu} (hb : bankOf b.cpsr = .svc) :
    (run b setLabel).mem =
      store (store b.mem (b.r 0) [b.cpsr, b.sp .svc]) (b.r 0 + BitVec.ofNat 32 (4 * 7))
        [b.r 4, b.r 5, b.r 6, b.r 7, b.r 8, b.r 9, b.r 10, b.r 11, b.r 12, b.lr .svc] := by
  simp [setLabel, run, exec, Cpu.get, Cpu.set, Cpu.bank, hb, r4to12lr, r5to12]

/-- What `goto_label` takes out of a label.  The label is given by the words in memory,
whoever has stored them. -/
theorem run_gotoLabel {d : Cpu} {psr sp lr : Arm.Word} {r : Fin 13 → Arm.Word}
    (hd : bankOf d.cpsr = .svc) (hbank : bankOf psr = .svc)
    (hpsr : load d.mem (d.r 0) 2 = [psr, sp])
    (hregs : load d.mem (d.r 0 + 28) 10 =
      [r 4, r 5, r 6, r 7, r 8, r 9, r 10, r 11, r 12, lr]) :
    (run d gotoLabel).pc = lr ∧ (run d gotoLabel).cpsr = psr ∧
      (run d gotoLabel).sp = Function.update d.sp .svc sp ∧
      (run d gotoLabel).mem = d.mem ∧
      ∀ i : Fin 13, 4 ≤ i.val → (run d gotoLabel).r i = r i := by
  simp only [BitVec.ofNat_eq_ofNat] at hregs
  refine ⟨?_, ?_, ?_, ?_, fun i hi => ?_⟩
  · simp [gotoLabel, run, exec, Cpu.get, Cpu.set, Cpu.setAll, Cpu.bank, hd, hbank, r4to12lr,
      r5to12, hpsr, hregs]
  · simp [gotoLabel, run, exec, Cpu.get, Cpu.set, Cpu.setAll, Cpu.bank, hd, r4to12lr, r5to12,
      hpsr, hregs]
  · simp [gotoLabel, run, exec, Cpu.get, Cpu.set, Cpu.setAll, Cpu.bank, hd, r4to12lr, r5to12,
      hpsr, hregs]
  · simp [gotoLabel, run, exec, Cpu.get, Cpu.set, Cpu.setAll, Cpu.bank, r4to12lr, r5to12,
      hpsr, hregs]
  · fin_cases i <;> simp at hi <;>
      simp [gotoLabel, run, exec, Cpu.get, Cpu.set, Cpu.setAll, Cpu.bank, r4to12lr, r5to12,
        hpsr, hregs]

/-- **`goto_label` is the second return of `set_label`.**  The processes in between are free
in all but the label and the words `own` of the stack that was left; nothing is said of the
registers that they leave behind. -/
theorem returned_gotoLabel {own : Arm.Word → Prop} {b d : Cpu} (hb : bankOf b.cpsr = .svc)
    (hd : bankOf d.cpsr = .svc) (hlabel : d.r 0 = b.r 0)
    (hapart : ∀ x, own x → ¬ InBlock (b.r 0) 17 x)
    (hkept : ∀ x, own x ∨ InBlock (b.r 0) 17 x → d.mem x = (run b setLabel).mem x) :
    Returned own b (run d gotoLabel) := by
  have hmem := mem_setLabel hb
  have hzero : b.r 0 = b.r 0 + BitVec.ofNat 32 (4 * 0) := by simp
  -- the words of the label are there again
  have hpsr : load d.mem (d.r 0) 2 = [b.cpsr, b.sp .svc] := by
    rw [hlabel, load_congr (m := (run b setLabel).mem), hmem, load_store_of_disjoint]
    · exact load_store rfl (by omega)
    · intro x hx hin
      rw [hzero] at hx
      exact hx.disjoint hin (by omega) (by simp)
    · intro x hx
      rw [hzero] at hx
      exact hkept x (.inr (hx.mono (by omega)))
  have hregs : load d.mem (d.r 0 + 28) 10 =
      [b.r 4, b.r 5, b.r 6, b.r 7, b.r 8, b.r 9, b.r 10, b.r 11, b.r 12, b.lr .svc] := by
    have h28 : b.r 0 + 28 = b.r 0 + BitVec.ofNat 32 (4 * 7) := rfl
    rw [hlabel, h28, load_congr (m := (run b setLabel).mem), hmem]
    · exact load_store rfl (by omega)
    · intro x hx
      exact hkept x (.inr (hx.mono (by omega)))
  obtain ⟨hpc, hcpsr, hsp, hdmem, hr⟩ := run_gotoLabel hd hb hpsr hregs
  refine ⟨hpc, by rw [hcpsr, hb], by rw [hsp, Function.update_self],
    fun i hi _ => hr i hi, fun x hx => ?_⟩
  rw [hdmem, hkept x (.inl hx), hmem, store_of_not_inBlock, store_of_not_inBlock]
  · intro hin
    rw [hzero] at hin
    exact hapart x hx (hin.mono (by simp))
  · intro hin
    exact hapart x hx (hin.mono (by simp))

/-- **A call of `trap` returns as calls do**, whether or not other processes have run in the
meantime.  A switch is reduced to a call of `set_label` that returns, for which `hrest` is
assumed. -/
theorem TrapCall.returned {live : Arm.Word → Prop} {a f : Cpu} (h : TrapCall live a f) :
    Returned live a f := by
  cases h with
  | returns h => exact h
  | switches hb hd hlabel hapart hkept hrest =>
      exact hrest _ (returned_gotoLabel hb hd hlabel hapart hkept)

/-! ## Out of the kernel -/

/-- The last instruction of both branches puts back what is in the frame, and the status out
of `spsr`. -/
theorem run_return {c s : Cpu} (hbank : bankOf s.cpsr = .svc)
    (hframe : load s.mem (s.sp .svc) 14 = irqFrame c) :
    (run s returnIrq).r = c.r ∧ (run s returnIrq).pc = c.pc ∧
      (run s returnIrq).cpsr = s.spsr .svc ∧
      (run s returnIrq).sp =
        Function.update s.sp .svc (s.sp .svc + 56) ∧
      (run s returnIrq).lr = s.lr := by
  simp only [irqFrame, r0to12, r0to4, r5to12, List.cons_append, List.nil_append,
    List.map_cons, List.map_nil, Cpu.get] at hframe
  refine ⟨funext fun i => ?_, ?_, ?_, ?_, ?_⟩
  · fin_cases i <;>
      simp [returnIrq, run, exec, Cpu.get, Cpu.set, Cpu.setAll, Cpu.bank, hbank, r0to12, r0to4,
        r5to12, hframe]
  all_goals
    simp [returnIrq, run, exec, Cpu.get, Cpu.set, Cpu.setAll, Cpu.bank, hbank, r0to12, r0to4,
      r5to12, hframe]

/-! ## The whole path -/

/-- The code addresses behind the two calls of `trap`. -/
structure ReturnAddresses where
  kernel : Arm.Word
  user : Arm.Word
  ne : kernel ≠ user

/-- From the instruction an IRQ is taken at to the call of `trap`. -/
def enter (ret : ReturnAddresses) (c : Cpu) : Cpu :=
  let s := run (run (run (takeIrq c) irqEx) switchSave) switchRetrieve
  if s.eq then run s (userEnter ret.user) else run s (kernelEnter ret.kernel)

/-- From the return of `trap` on. -/
def leave (ret : ReturnAddresses) (c : Cpu) : Cpu :=
  if c.pc = ret.user then run c (userRestore ++ returnIrq)
  else run c (kernelRestore ++ returnIrq)

/-- User code, or kernel code in supervisor mode.  IRQs are off in the exception handlers
themselves. -/
def Interruptible (c : Cpu) : Prop :=
  c.cpsr &&& 0x1f = 16 ∨ c.cpsr &&& 0x1f = 19

/-- The registers, the status, the resume address and the supervisor stack are as they were.
What is below the stack pointer is not. -/
structure Restored (c c' : Cpu) : Prop where
  r : c'.r = c.r
  pc : c'.pc = c.pc
  cpsr : c'.cpsr = c.cpsr
  sp : c'.sp c.bank = c.sp c.bank
  lr : c'.lr c.bank = c.lr c.bank
  svcSp : c'.sp .svc = c.sp .svc

/-- The state at the branch to `_user`. -/
theorem entered (c : Cpu) (hapart : StacksApart c) :
    Entered c (run (run (run (takeIrq c) irqEx) switchSave) switchRetrieve) :=
  entered_switchRetrieve (saved_switchSave c) hapart

/-- The test of the mode that was interrupted. -/
theorem mode_and_f (c : Cpu) : c.cpsr &&& 0xf = c.cpsr &&& 0x1f &&& 0xf := by
  have hmask : (0x1f : Arm.Word) &&& 0xf = 0xf := by decide
  rw [BitVec.and_assoc, hmask]

/-- The state at the call of `trap`, kernel code interrupted. -/
theorem enter_kernel (ret : ReturnAddresses) {c : Cpu} (hapart : StacksApart c)
    (hmode : c.cpsr &&& 0x1f = 19) :
    (enter ret c).sp .svc = c.sp .svc - 64 ∧ (enter ret c).lr .svc = ret.kernel ∧
      load (enter ret c).mem (c.sp .svc - 64) 16 = [c.cpsr, c.lr .svc] ++ irqFrame c := by
  have h := entered c hapart
  have heq := h.eq
  have hne : ¬ (19 : Arm.Word) &&& 0xf = 0 := by decide
  rw [mode_and_f, hmode, decide_eq_false hne] at heq
  rw [enter]
  generalize run (run (run (takeIrq c) irqEx) switchSave) switchRetrieve = s at h heq
  have hsp : c.sp .svc - 56#32 - 8#32 = c.sp .svc - 64#32 := by bv_omega
  have hnext : c.sp .svc - 64 + BitVec.ofNat 32 (4 * 2) = c.sp .svc - 56 := by bv_omega
  rw [if_neg (by simp [heq])]
  refine ⟨?_, ?_, ?_⟩
  · simp [kernelEnter, run, exec, Cpu.get, Cpu.set, Cpu.bank, h.bank, h.sp, hsp]
  · simp [kernelEnter, run, exec, Cpu.get, Cpu.set, Cpu.bank, h.bank]
  · have hmem : (run s (kernelEnter ret.kernel)).mem =
        store s.mem (c.sp .svc - 64) [c.cpsr, c.lr .svc] := by
      simp [kernelEnter, run, exec, Cpu.get, Cpu.set, Cpu.bank, h.bank, h.sp, h.lr, h.psr, hsp]
    rw [hmem]
    refine (load_store_append (n := 2) (k := 14) rfl (by omega)).trans ?_
    rw [hnext, h.frame]

/-- The state at the call of `trap`, user code interrupted. -/
theorem enter_user (ret : ReturnAddresses) {c : Cpu} (hapart : StacksApart c)
    (hmode : c.cpsr &&& 0x1f = 16) :
    (enter ret c).sp .svc = c.sp .svc - 68 ∧ (enter ret c).lr .svc = ret.user ∧
      load (enter ret c).mem (c.sp .svc - 68) 17 =
        [c.cpsr, c.sp .usr, c.lr .usr] ++ irqFrame c := by
  have h := entered c hapart
  have heq := h.eq
  have hzero : (16 : Arm.Word) &&& 0xf = 0 := by decide
  rw [mode_and_f, hmode, decide_eq_true hzero] at heq
  rw [enter]
  generalize run (run (run (takeIrq c) irqEx) switchSave) switchRetrieve = s at h heq
  have hsp : c.sp .svc - 56#32 - 12#32 = c.sp .svc - 68#32 := by bv_omega
  have hnext : c.sp .svc - 68 + BitVec.ofNat 32 (4 * 3) = c.sp .svc - 56 := by bv_omega
  rw [if_pos heq]
  refine ⟨?_, ?_, ?_⟩
  · simp [userEnter, run, exec, Cpu.get, Cpu.set, Cpu.bank, h.bank, h.sp, hsp]
  · simp [userEnter, run, exec, Cpu.get, Cpu.set, Cpu.bank]
  · have hmem : (run s (userEnter ret.user)).mem =
        store s.mem (c.sp .svc - 68) [c.cpsr, c.sp .usr, c.lr .usr] := by
      simp [userEnter, run, exec, Cpu.get, Cpu.set, Cpu.bank, h.bank, h.sp, h.lr, h.psr, hsp]
    rw [hmem]
    refine (load_store_append (n := 3) (k := 14) rfl (by omega)).trans ?_
    rw [hnext, h.frame]

/-- Back in interrupted kernel code. -/
theorem leave_kernel (ret : ReturnAddresses) {c b : Cpu} (hmode : c.cpsr &&& 0x1f = 19)
    (hpc : b.pc = ret.kernel) (hbank : bankOf b.cpsr = .svc)
    (hsp : b.sp .svc = c.sp .svc - 64)
    (hload : load b.mem (c.sp .svc - 64) 16 = [c.cpsr, c.lr .svc] ++ irqFrame c) :
    Restored c (leave ret b) := by
  have hsvc : c.bank = bankOf modeSvc := bankOf_congr (hmode.trans (by decide))
  rw [bankOf_modeSvc] at hsvc
  have hnext : c.sp .svc - 64 + BitVec.ofNat 32 (4 * 2) = c.sp .svc - 56 := by bv_omega
  have htop : c.sp .svc - 56 + 56 = c.sp .svc := by bv_omega
  have hsplit : leave ret b =
      run (run b kernelRestore) returnIrq := by
    rw [leave, if_neg (by rw [hpc]; exact ret.ne)]
    rfl
  obtain ⟨hpush, hframe⟩ := load_split (n := 2) (k := 14) rfl hload
  rw [← hsp] at hpush hnext hframe
  rw [hnext] at hframe
  have hpopped : (run b kernelRestore).sp =
        Function.update b.sp .svc (c.sp .svc - 56) ∧
      (run b kernelRestore).lr .svc = c.lr .svc ∧
      (run b kernelRestore).spsr .svc = c.cpsr ∧
      bankOf (run b kernelRestore).cpsr = .svc ∧
      (run b kernelRestore).mem = b.mem := by
    simp only [BitVec.ofNat_eq_ofNat] at hnext
    refine ⟨?_, ?_, ?_, ?_, ?_⟩ <;>
      simp [kernelRestore, run, exec, Cpu.get, Cpu.set, Cpu.setAll, Cpu.bank, hbank, hpush,
        hnext]
  rw [hsplit]
  generalize run b kernelRestore = s at hpopped
  obtain ⟨hs, hlr, hspsr, hsbank, hmem⟩ := hpopped
  obtain ⟨hr, hpc', hcpsr, hsp', hlr'⟩ := run_return (c := c) hsbank (by
    rw [hmem, hs, Function.update_self]
    exact hframe)
  have hsvcSp : (run s returnIrq).sp .svc = c.sp .svc := by
    rw [hsp', Function.update_self, hs, Function.update_self, htop]
  refine ⟨hr, hpc', hcpsr.trans hspsr, ?_, ?_, hsvcSp⟩
  · rw [hsvc, hsvcSp]
  · rw [hsvc, hlr', hlr]

/-- Back in interrupted user code. -/
theorem leave_user (ret : ReturnAddresses) {c b : Cpu} (hmode : c.cpsr &&& 0x1f = 16)
    (hpc : b.pc = ret.user) (hbank : bankOf b.cpsr = .svc)
    (hsp : b.sp .svc = c.sp .svc - 68)
    (hload : load b.mem (c.sp .svc - 68) 17 =
      [c.cpsr, c.sp .usr, c.lr .usr] ++ irqFrame c) :
    Restored c (leave ret b) := by
  have h16 : bankOf 16 = .usr := by decide
  have husr : c.bank = bankOf 16 := bankOf_congr (hmode.trans (by decide))
  rw [h16] at husr
  have hnext : c.sp .svc - 68 + BitVec.ofNat 32 (4 * 3) = c.sp .svc - 56 := by bv_omega
  have htop : c.sp .svc - 56 + 56 = c.sp .svc := by bv_omega
  have hsplit : leave ret b = run (run b userRestore) returnIrq := by
    rw [leave, if_pos hpc]
    rfl
  obtain ⟨hpush, hframe⟩ := load_split (n := 3) (k := 14) rfl hload
  rw [← hsp] at hpush hnext hframe
  rw [hnext] at hframe
  have hpopped : (run b userRestore).sp .svc = c.sp .svc - 56 ∧
      (run b userRestore).sp .usr = c.sp .usr ∧ (run b userRestore).lr .usr = c.lr .usr ∧
      (run b userRestore).spsr .svc = c.cpsr ∧ bankOf (run b userRestore).cpsr = .svc ∧
      (run b userRestore).mem = b.mem := by
    simp only [BitVec.ofNat_eq_ofNat] at hnext
    refine ⟨?_, ?_, ?_, ?_, ?_, ?_⟩ <;>
      simp [userRestore, run, exec, Cpu.get, Cpu.set, Cpu.setAll, Cpu.bank, hbank, hpush, hnext]
  rw [hsplit]
  generalize run b userRestore = s at hpopped
  obtain ⟨hs, husp, hulr, hspsr, hsbank, hmem⟩ := hpopped
  obtain ⟨hr, hpc', hcpsr, hsp', hlr'⟩ := run_return (c := c) hsbank (by
    rw [hmem, hs]
    exact hframe)
  refine ⟨hr, hpc', hcpsr.trans hspsr, ?_, ?_, ?_⟩
  · rw [husr, hsp', Function.update_of_ne (by simp), husp]
  · rw [husr, hlr', hulr]
  · rw [hsp', Function.update_self, hs, htop]

/-- The words of the exception frame, from the stack pointer at the call of `trap` up to
the one before the interrupt. -/
def OnFrame (ret : ReturnAddresses) (c : Cpu) : Arm.Word → Prop :=
  InBlock ((enter ret c).sp .svc) (if c.cpsr &&& 0x1f = 19 then 16 else 17)

/-- **Interrupts are transparent to the code they interrupt.**  Whether `trap` just returns,
or switches away and comes back after other processes have run, the registers, the status, the
resume address and the supervisor stack pointer end up as they were.  `hapart` is needed for
the first five registers, and `htrap` is all that is assumed of the compiled code. -/
theorem interrupt_transparent (ret : ReturnAddresses) {c b : Cpu} (hc : Interruptible c)
    (hapart : StacksApart c) (htrap : TrapCall (OnFrame ret c) (enter ret c) b) :
    Restored c (leave ret b) := by
  have h := htrap.returned
  rcases hc with hmode | hmode
  · obtain ⟨hsp, hlr, hload⟩ := enter_user ret hapart hmode
    have hne : ¬ c.cpsr &&& 0x1f = 19 := by
      rw [hmode]
      decide
    refine leave_user ret hmode (h.pc.trans hlr) h.bank (h.sp.trans hsp) ?_
    rw [load_congr fun x hx => h.mem x (by rwa [OnFrame, if_neg hne, hsp]), hload]
  · obtain ⟨hsp, hlr, hload⟩ := enter_kernel ret hapart hmode
    refine leave_kernel ret hmode (h.pc.trans hlr) h.bank (h.sp.trans hsp) ?_
    rw [load_congr fun x hx => h.mem x (by rwa [OnFrame, if_pos hmode, hsp]), hload]

/-- User code with the supervisor stack below `0x1000` and the IRQ-mode stack below
`0x2000`. -/
def exampleCpu : Cpu where
  r := fun i => BitVec.ofNat 32 (i.val + 1)
  sp := fun bank => if bank = .svc then 0x1000 else if bank = .irq then 0x2000 else 0x3000
  lr := fun _ => 0x4000
  spsr := fun _ => 0
  cpsr := 0x60000010
  pc := 0x8000
  mem := fun _ => 0

/-- It is interrupted and switched away from; another process, with `0xdead` in its
registers, calls `goto_label`. -/
theorem interrupt_transparent_to_user :
    ∃ (ret : ReturnAddresses) (d b : Cpu), d.r 4 = 0xdead ∧ exampleCpu.r 4 = 5 ∧
      Restored exampleCpu (leave ret b) := by
  let ret : ReturnAddresses := ⟨0x100, 0x200, by decide⟩
  let a := enter ret exampleCpu
  -- the call of `set_label`, and the one of `goto_label` from the other process
  let b : Cpu := { a with r := Function.update a.r 0 0x5000 }
  let d : Cpu :=
    { run b setLabel with
      r := fun i => if i = 0 then 0x5000 else 0xdead
      lr := fun _ => 0xdead }
  let rest : Cpu → Cpu := fun e => { a with mem := e.mem, pc := a.lr .svc }
  have hirq : exampleCpu.sp .irq - 20 = 0x1fec := by decide
  have hsvc : exampleCpu.sp .svc - 68 = 0xfbc := by decide
  have h₁ : (0x1fec : Arm.Word).toNat = 0x1fec := rfl
  have h₂ : (0xfbc : Arm.Word).toNat = 0xfbc := rfl
  have h₃ : (0x5000 : Arm.Word).toNat = 0x5000 := rfl
  have hapart : StacksApart exampleCpu := by
    rintro x ⟨i, hi, rfl⟩ ⟨j, hj, heq⟩
    rw [hirq, hsvc] at heq
    have hnat := congrArg BitVec.toNat heq
    simp only [BitVec.toNat_add, BitVec.toNat_ofNat, h₁, h₂] at hnat
    omega
  obtain ⟨hsp, -, -⟩ := enter_user ret hapart (by decide)
  have hframe : OnFrame ret exampleCpu = InBlock 0xfbc 17 := by
    rw [OnFrame, if_neg (by decide), hsp, hsvc]
  have hb : bankOf b.cpsr = .svc := by decide +kernel
  have hd : bankOf d.cpsr = .svc := by decide +kernel
  have hlabel : ∀ x, OnFrame ret exampleCpu x → ¬ InBlock (b.r 0) 17 x := by
    rw [hframe]
    rintro x ⟨i, hi, rfl⟩ ⟨j, hj, heq⟩
    have hr : b.r 0 = 0x5000 := rfl
    rw [hr] at heq
    have hnat := congrArg BitVec.toNat heq
    simp only [BitVec.toNat_add, BitVec.toNat_ofNat, h₂, h₃] at hnat
    omega
  have hrest : ∀ e, Returned (OnFrame ret exampleCpu) b e →
      Returned (OnFrame ret exampleCpu) a (rest e) := fun e he =>
    ⟨rfl, hb, rfl, fun _ _ _ => rfl, he.mem⟩
  have hswitch : TrapCall (OnFrame ret exampleCpu) a (rest (run d gotoLabel)) :=
    .switches hb hd rfl hlabel (fun _ _ => rfl) hrest
  exact ⟨ret, d, rest (run d gotoLabel), rfl, rfl,
    interrupt_transparent ret (.inl (by decide)) hapart hswitch⟩

end Omb
