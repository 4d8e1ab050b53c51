import Omb.Am335x.Interrupt
import Omb.Kern.Machine

/-!
# The first context of a process

`proc_start` keeps a label `u` on the kernel stack, writes the `pc` and the `sp` of the
request into it, and hands it to `drop_to_user`, which loads all of its 17 words.  The other
15 are what was on the stack before: `psr`, `lr` and `r0` to `r12` of the new process.
`proc0_start` zeroes its label.

`first_context_iff` compares two runs of `proc_start` with the same request: the process
starts the same in both, in user mode, exactly if the stacks agree in these words and have
user mode where `psr` is.

Where the label is on the stack is up to the compiler, so its address is a parameter.  All
that is assumed is that nothing else in `proc_start` writes to it before the call (`AtDrop`):
what `krecv` and `kreply` put on the stack is below it.

The code of `drop_to_user` is run instruction by instruction, and `AtDrop.dropped` ties it to
the `drop_to_user` of the kernel's steps, which has the `pc` and the `sp` only.

## Main results

* `userContext_dropToUserCode`: `drop_to_user` loads the whole label
* `first_context_iff`: when the first context depends on the request only
-/

namespace Omb

open Arm

/-! ## `drop_to_user` -/

/-- `MODE_USR` -/
def modeUsr : Arm.Word := 16

/-- What user code starts with: the words of a `struct label`, and so every register that user
code can read. -/
@[ext] structure UserContext where
  psr : Arm.Word
  r : Fin 13 → Arm.Word
  sp : Arm.Word
  lr : Arm.Word
  pc : Arm.Word

def userContext (c : Cpu) : UserContext where
  psr := c.cpsr
  r := c.r
  sp := c.sp .usr
  lr := c.lr .usr
  pc := c.pc

/-- Word `i` of the `struct label` at `a`. -/
def labelWord (a : Arm.Word) (i : ℕ) : Arm.Word :=
  a + BitVec.ofNat 32 (4 * i)

/-- The `struct label` at `a`. -/
def labelAt (m : Arm.Mem) (a : Arm.Word) : UserContext where
  psr := m (labelWord a 0)
  sp := m (labelWord a 1)
  lr := m (labelWord a 2)
  r i := m (labelWord a (i.val + 3))
  pc := m (labelWord a 16)

/-- **`drop_to_user`** loads the whole label. -/
theorem userContext_dropToUserCode (c : Cpu) :
    userContext (dropToUserCode c) = labelAt c.mem (c.r 0) := by
  apply UserContext.ext
  case r =>
    funext i
    fin_cases i <;>
    simp [userContext, labelAt, labelWord, dropToUserCode, movsPcLr, loadLabel, addStackLen, run,
      exec, Cpu.get, Cpu.set, Cpu.setAll, Cpu.bank, r0to12, r0to4, r5to12, load, BitVec.add_assoc]
  all_goals
    simp [userContext, labelAt, labelWord, dropToUserCode, movsPcLr, loadLabel, addStackLen, run,
      exec, Cpu.get, Cpu.set, Cpu.setAll, Cpu.bank, r0to12, r0to4, r5to12, load, BitVec.add_assoc]

/-! ## `proc_start` -/

/-- `u.pc = req->pc; u.sp = req->sp;` -/
def fillLabel (a : Arm.Word) (req : Message) (m : Arm.Mem) : Arm.Mem :=
  Function.update (Function.update m (labelWord a 16) (req.field 1)) (labelWord a 1) (req.field 2)

/-- The processor at the call of `drop_to_user(&u, up->kstack, KSTACK_LEN)`, with `u` at `a`
and `m` in memory when `proc_start` was entered.  Nothing else is written to `u`: what `krecv`
and `kreply` keep on the stack is below it. -/
structure AtDrop (a : Arm.Word) (req : Message) (m : Arm.Mem) (c : Cpu) : Prop where
  label : c.r 0 = a
  words : ∀ i ≤ 16, c.mem (labelWord a i) = fillLabel a req m (labelWord a i)

/-- The words of a label are apart. -/
theorem labelWord_ne {i j : ℕ} (a : Arm.Word) (hi : i ≤ 16) (hj : j ≤ 16) (hne : i ≠ j) :
    labelWord a i ≠ labelWord a j := by
  rw [labelWord, labelWord, Ne, BitVec.add_right_inj, ← BitVec.toNat_inj, BitVec.toNat_ofNat,
    BitVec.toNat_ofNat]
  omega

section Drop

variable {a : Arm.Word} {req : Message} {m m₁ m₂ : Arm.Mem} {c c₁ c₂ : Cpu}

theorem AtDrop.pc (h : AtDrop a req m c) : c.mem (labelWord a 16) = req.field 1 := by
  rw [h.words 16 (le_refl _), fillLabel,
    Function.update_of_ne (labelWord_ne a (by omega) (by omega) (by omega)), Function.update_self]

theorem AtDrop.sp (h : AtDrop a req m c) : c.mem (labelWord a 1) = req.field 2 := by
  rw [h.words 1 (by omega), fillLabel, Function.update_self]

/-- The words that `proc_start` does not write. -/
theorem AtDrop.stale (h : AtDrop a req m c) {i : ℕ} (hi : i < 16) (hne : i ≠ 1) :
    c.mem (labelWord a i) = m (labelWord a i) := by
  rw [h.words i hi.le, fillLabel,
    Function.update_of_ne (labelWord_ne a hi.le (by omega) hne),
    Function.update_of_ne (labelWord_ne a hi.le (le_refl _) hi.ne)]

theorem AtDrop.userContext_eq (h : AtDrop a req m c) :
    userContext (dropToUserCode c) = labelAt c.mem a := by
  rw [userContext_dropToUserCode, h.label]

/-- What the kernel's steps say about the drop is what the code loads. -/
theorem AtDrop.dropped {u w : ProcRef} {out : Out} {s : State} {evs : List Event}
    {pc sp : Word} (h : AtDrop a (out.1.pageOf u).mIn m c)
    (hs : procStartReply u w out = .ok (s, evs)) (hev : Event.dropped u pc sp ∈ evs)
    (hnew : Event.dropped u pc sp ∉ out.2) :
    (userContext (dropToUserCode c)).pc = pc ∧ (userContext (dropToUserCode c)).sp = sp := by
  have hfields : pc = (out.1.pageOf u).mIn.field 1 ∧ sp = (out.1.pageOf u).mIn.field 2 := by
    rw [procStartReply, kreply] at hs
    by_cases hawaits : awaitsReply out.1 u w
    · -- `kreply` switches, and the drop is for later
      simp only [if_pos hawaits, schedule] at hs
      cases hs
      simp [hnew] at hev
    · simp only [if_neg hawaits, dropToUser] at hs
      cases hs
      simpa [hnew] using hev
  rw [h.userContext_eq, hfields.1, hfields.2]
  exact ⟨h.pc, h.sp⟩

/-- Two runs of `proc_start` start the process in the same way: where the request says, and in
user mode. -/
structure SameStart (req : Message) (c₁ c₂ : Cpu) : Prop where
  context : userContext (dropToUserCode c₁) = userContext (dropToUserCode c₂)
  pc : (userContext (dropToUserCode c₁)).pc = req.field 1
  sp : (userContext (dropToUserCode c₁)).sp = req.field 2
  mode : (userContext (dropToUserCode c₁)).psr &&& 0x1f = modeUsr

/-- **When the first context depends on the request only**: if the stacks agree in the words
of the label that `proc_start` does not write, and have user mode in its `psr`.  A kernel
stack of zeroes, as a new process has it, does not: zero is no mode. -/
theorem first_context_iff (h₁ : AtDrop a req m₁ c₁) (h₂ : AtDrop a req m₂ c₂) :
    SameStart req c₁ c₂ ↔
      (∀ i < 16, i ≠ 1 → m₁ (labelWord a i) = m₂ (labelWord a i)) ∧
        m₁ (labelWord a 0) &&& 0x1f = modeUsr := by
  have hctx₁ := h₁.userContext_eq
  have hctx₂ := h₂.userContext_eq
  have hpsr : (labelAt c₁.mem a).psr = m₁ (labelWord a 0) := h₁.stale (by omega) (by omega)
  constructor
  · intro h
    have hsame := h.context
    rw [hctx₁, hctx₂] at hsame
    refine ⟨fun i hi hne => ?_, ?_⟩
    · rw [← h₁.stale hi hne, ← h₂.stale hi hne]
      match i, hne with
      | 0, _ => exact congrArg UserContext.psr hsame
      | 2, _ => exact congrArg UserContext.lr hsame
      | i + 3, _ => exact congrFun (congrArg UserContext.r hsame) ⟨i, by omega⟩
    · have hmode := h.mode
      rwa [hctx₁, hpsr] at hmode
  · rintro ⟨hstale, hmode⟩
    have hagree : ∀ i < 16, i ≠ 1 → c₁.mem (labelWord a i) = c₂.mem (labelWord a i) :=
      fun i hi hne => by rw [h₁.stale hi hne, h₂.stale hi hne, hstale i hi hne]
    refine ⟨?_, ?_, ?_, ?_⟩
    · rw [hctx₁, hctx₂]
      apply UserContext.ext
      · exact hagree 0 (by omega) (by omega)
      · funext i
        exact hagree (i.val + 3) (by omega) (by omega)
      · exact h₁.sp.trans h₂.sp.symm
      · exact hagree 2 (by omega) (by omega)
      · exact h₁.pc.trans h₂.pc.symm
    · rw [hctx₁]
      exact h₁.pc
    · rw [hctx₁]
      exact h₁.sp
    · rw [hctx₁, hpsr]
      exact hmode

end Drop

/-- The processor at the call, with the label filled in and nothing else of interest. -/
def dropAt (a : Arm.Word) (req : Message) (m : Arm.Mem) : Cpu where
  r := fun _ => a
  sp := fun _ => 0
  lr := fun _ => 0
  spsr := fun _ => 0
  cpsr := modeSvc
  pc := 0
  mem := fillLabel a req m

theorem atDrop_dropAt (a : Arm.Word) (req : Message) (m : Arm.Mem) :
    AtDrop a req m (dropAt a req m) :=
  ⟨rfl, fun _ _ => rfl⟩

/-- A request. -/
def someRequest : Message := Vector.replicate messageLen 1

/-- Two stacks with user mode everywhere. -/
theorem user_mode_started :
    SameStart someRequest (dropAt 0x80004000 someRequest fun _ => 16)
      (dropAt 0x80004000 someRequest fun _ => 16) :=
  (first_context_iff (atDrop_dropAt ..) (atDrop_dropAt ..)).mpr ⟨fun _ _ _ => rfl, by decide⟩

/-- A stack as `proc_new` leaves it, and one that has the status register of the kernel where
`psr` is: the process starts with `psr` zero, or in supervisor mode. -/
theorem stale_psr_loaded :
    AtDrop 0x80004000 someRequest (fun _ => 0) (dropAt 0x80004000 someRequest fun _ => 0) ∧
      AtDrop 0x80004000 someRequest (fun _ => modeSvc)
        (dropAt 0x80004000 someRequest fun _ => modeSvc) ∧
      (userContext (dropToUserCode (dropAt 0x80004000 someRequest fun _ => 0))).psr = 0 ∧
      (userContext (dropToUserCode (dropAt 0x80004000 someRequest fun _ => modeSvc))).psr =
        modeSvc ∧
      ¬ SameStart someRequest (dropAt 0x80004000 someRequest fun _ => 0)
        (dropAt 0x80004000 someRequest fun _ => modeSvc) := by
  have hzero := atDrop_dropAt 0x80004000 someRequest fun _ => 0
  have hsvc := atDrop_dropAt 0x80004000 someRequest fun _ => modeSvc
  have hpsr₁ : (userContext (dropToUserCode (dropAt 0x80004000 someRequest fun _ => 0))).psr =
      0 := by
    rw [hzero.userContext_eq]
    exact hzero.stale (i := 0) (by omega) (by omega)
  have hpsr₂ :
      (userContext (dropToUserCode (dropAt 0x80004000 someRequest fun _ => modeSvc))).psr =
        modeSvc := by
    rw [hsvc.userContext_eq]
    exact hsvc.stale (i := 0) (by omega) (by omega)
  refine ⟨hzero, hsvc, hpsr₁, hpsr₂, fun hsame => ?_⟩
  have hmode := hsame.mode
  rw [hpsr₁] at hmode
  exact absurd hmode (by decide)

end Omb
