import Mathlib.Data.Fin.Basic
import Mathlib.Logic.Function.Basic
import Mathlib.Algebra.Group.Nat.Defs

/-!
# A little ARM

The registers of an ARM core with the banks of `sp`, `lr` and `spsr`, memory by word-aligned
address, and those instructions that exception handlers are made of: load and store multiple,
moves to and from the status registers, changes of mode.

Programs are straight-line lists of instructions; `run` executes one, and a branch is taken
between two of them by whoever runs them.  What an instruction does not say it does leaves the
processor as it is, so a handler's effect on a register is read off by simplification.

`store` and `load` work on blocks of consecutive words.  `load_store`,
`load_store_of_disjoint` and `load_append` are enough to follow a frame that is written in
parts and read as a whole, by code that only knows its start.  Addresses are words and wrap
around; a block is at most `0x40000000` words, so that it does not meet itself.

The modes differ in their banks only: which instructions are privileged is not modelled, and
the banked `r8` to `r12` of the FIQ mode are left out.  The flags are those that `ands`
sets, `N` and `Z`, of which conditional execution reads `Z`.

## Main definitions

* `Cpu`: the processor, with the memory it sees
* `Instr`, `exec`, `run`: the instructions and what they do
* `takeIrq`, `takeSvc`: the ways into an exception

## Main results

* `load_store`, `load_store_of_disjoint`: what is read back of a block, and what is left of
  another one
* `load_split`, `load_append`: blocks that are read in parts
* `InBlock.disjoint`: blocks at different distances from one address
-/

namespace Arm

abbrev Word := BitVec 32

/-- Memory, by word-aligned address. -/
abbrev Mem := Word → Word

/-! ## Blocks of words -/

/-- The words from `a` on, one after the other.  The address wraps around at the end of
memory. -/
def store : Mem → Word → List Word → Mem
  | m, _, [] => m
  | m, a, w :: ws => store (Function.update m a w) (a + 4) ws

/-- The `n` words from `a` on. -/
def load (m : Mem) : Word → ℕ → List Word
  | _, 0 => []
  | a, n + 1 => m a :: load m (a + 4) n

/-- `x` is the address of one of the `n` words from `a` on.  Blocks are described by this
predicate and not by an interval, as addresses wrap around. -/
def InBlock (a : Word) (n : ℕ) (x : Word) : Prop :=
  ∃ i < n, x = a + BitVec.ofNat 32 (4 * i)

/-- The address of the next word. -/
theorem offset_succ (a : Word) (i : ℕ) :
    a + BitVec.ofNat 32 (4 * (i + 1)) = a + 4 + BitVec.ofNat 32 (4 * i) := by
  rw [Nat.mul_add, Nat.add_comm, BitVec.ofNat_add, BitVec.add_assoc]
  rfl

theorem offset_add (a : Word) (j k : ℕ) :
    a + BitVec.ofNat 32 (4 * j) + BitVec.ofNat 32 (4 * k) =
      a + BitVec.ofNat 32 (4 * (j + k)) := by
  rw [BitVec.add_assoc, ← BitVec.ofNat_add, ← Nat.mul_add]

theorem inBlock_succ {a x : Word} {n : ℕ} :
    InBlock a (n + 1) x ↔ x = a ∨ InBlock (a + 4) n x := by
  constructor
  · rintro ⟨i, hi, rfl⟩
    cases i with
    | zero => exact .inl (by simp)
    | succ i => exact .inr ⟨i, by omega, offset_succ a i⟩
  · rintro (rfl | ⟨i, hi, rfl⟩)
    · exact ⟨0, by omega, by simp⟩
    · exact ⟨i + 1, by omega, (offset_succ a i).symm⟩

/-- The words of a block inside another one. -/
theorem InBlock.mono {a x : Word} {k n m : ℕ}
    (h : InBlock (a + BitVec.ofNat 32 (4 * k)) n x) (hm : k + n ≤ m) : InBlock a m x := by
  obtain ⟨i, hi, rfl⟩ := h
  exact ⟨k + i, by omega, offset_add a k i⟩

/-- Blocks at different distances from one address do not overlap. -/
theorem InBlock.disjoint {a x : Word} {j k n m : ℕ}
    (h : InBlock (a + BitVec.ofNat 32 (4 * j)) n x)
    (h' : InBlock (a + BitVec.ofNat 32 (4 * k)) m x) (hjk : j + n ≤ k)
    (hkm : k + m ≤ 0x40000000) : False := by
  obtain ⟨i, hi, rfl⟩ := h
  obtain ⟨i', hi', heq⟩ := h'
  rw [offset_add, offset_add, BitVec.add_right_inj, ← BitVec.toNat_inj, BitVec.toNat_ofNat,
    BitVec.toNat_ofNat] at heq
  omega

theorem store_of_not_inBlock {m : Mem} {a x : Word} {ws : List Word}
    (h : ¬ InBlock a ws.length x) : store m a ws x = m x := by
  induction ws generalizing m a with
  | nil => rfl
  | cons w ws ih =>
      rw [List.length_cons, inBlock_succ, not_or] at h
      rw [store, ih h.2, Function.update_of_ne h.1]

theorem load_congr {m m' : Mem} {a : Word} {n : ℕ} (h : ∀ x, InBlock a n x → m' x = m x) :
    load m' a n = load m a n := by
  induction n generalizing a with
  | zero => rfl
  | succ n ih =>
      rw [load, load, h a (inBlock_succ.mpr (.inl rfl)),
        ih fun x hx => h x (inBlock_succ.mpr (.inr hx))]

theorem load_append (m : Mem) (a : Word) (j k : ℕ) :
    load m a (j + k) = load m a j ++ load m (a + BitVec.ofNat 32 (4 * j)) k := by
  induction j generalizing a with
  | zero => simp [load]
  | succ j ih =>
      rw [Nat.succ_add, load, load, ih, List.cons_append, offset_succ]

/-- A block read back.  `h` keeps it from meeting itself after a turn around the memory. -/
theorem load_store {m : Mem} {a : Word} {ws : List Word} {n : ℕ} (hn : ws.length = n)
    (h : n ≤ 0x40000000) : load (store m a ws) a n = ws := by
  induction ws generalizing m a n with
  | nil =>
      subst hn
      rfl
  | cons w ws ih =>
      subst hn
      rw [List.length_cons] at h ⊢
      have hfirst : ¬ InBlock (a + 4) ws.length a := by
        intro hin
        have hself : InBlock (a + BitVec.ofNat 32 (4 * 0)) 1 a := ⟨0, by omega, by simp⟩
        exact hself.disjoint (k := 1) hin (by omega) (by omega)
      rw [load, store, store_of_not_inBlock hfirst, Function.update_self, ih rfl (by omega)]

/-- A block written elsewhere. -/
theorem load_store_of_disjoint {m : Mem} {a b : Word} {n : ℕ} {ws : List Word}
    (h : ∀ x, InBlock a n x → ¬ InBlock b ws.length x) :
    load (store m b ws) a n = load m a n :=
  load_congr fun x hx => store_of_not_inBlock (h x hx)

/-- A block written in front of another one. -/
theorem load_store_append {m : Mem} {a : Word} {ws : List Word} {n k : ℕ}
    (hn : ws.length = n) (h : n + k ≤ 0x40000000) :
    load (store m a ws) a (n + k) = ws ++ load m (a + BitVec.ofNat 32 (4 * n)) k := by
  rw [load_append, load_store hn (by omega), load_store_of_disjoint]
  intro x hx hin
  have hfront : InBlock (a + BitVec.ofNat 32 (4 * 0)) ws.length x := by simpa using hin
  exact hfront.disjoint hx (by omega) (by omega)

theorem length_load (m : Mem) (a : Word) (n : ℕ) : (load m a n).length = n := by
  induction n generalizing a with
  | zero => rfl
  | succ n ih => rw [load, List.length_cons, ih]

/-- The two parts of a block. -/
theorem load_split {m : Mem} {a : Word} {ws ws' : List Word} {n k : ℕ}
    (hn : ws.length = n) (h : load m a (n + k) = ws ++ ws') :
    load m a n = ws ∧ load m (a + BitVec.ofNat 32 (4 * n)) k = ws' := by
  rw [load_append] at h
  exact List.append_inj h (by rw [length_load, hn])

/-! ## The processor -/

/-- The sets of banked registers. -/
inductive Bank where
  | usr
  | fiq
  | irq
  | svc
  | abt
  | und
  deriving DecidableEq

/-- The bank of the mode in a status register; the system mode has the registers of the user
mode, and so has whatever is no mode. -/
def bankOf (psr : Word) : Bank :=
  if psr &&& 0x1f = 17 then .fiq
  else if psr &&& 0x1f = 18 then .irq
  else if psr &&& 0x1f = 19 then .svc
  else if psr &&& 0x1f = 23 then .abt
  else if psr &&& 0x1f = 27 then .und
  else .usr

structure Cpu where
  r : Fin 13 → Word
  sp : Bank → Word
  lr : Bank → Word
  spsr : Bank → Word
  cpsr : Word
  pc : Word
  mem : Mem

inductive Reg where
  | r (i : Fin 13)
  | sp
  | lr

/-- The bank in use. -/
def Cpu.bank (c : Cpu) : Bank := bankOf c.cpsr

def Cpu.get (c : Cpu) : Reg → Word
  | .r i => c.r i
  | .sp => c.sp c.bank
  | .lr => c.lr c.bank

def Cpu.set (c : Cpu) : Reg → Word → Cpu
  | .r i, w => { c with r := Function.update c.r i w }
  | .sp, w => { c with sp := Function.update c.sp c.bank w }
  | .lr, w => { c with lr := Function.update c.lr c.bank w }

/-- The values into the registers, one after the other. -/
def Cpu.setAll (c : Cpu) : List Reg → List Word → Cpu
  | reg :: regs, w :: ws => (c.set reg w).setAll regs ws
  | _, _ => c

/-- The instructions.  Lists of registers are in ascending order, which is the order of their
words in memory, whatever the direction in which a multiple transfer goes. -/
inductive Instr where
  | mov (rd rn : Reg)
  | movImm (rd : Reg) (imm : Word)
  | add (rd rn : Reg) (imm : Word)
  | sub (rd rn : Reg) (imm : Word)
  /-- `ands`, which sets the flags. -/
  | ands (rd rn : Reg) (imm : Word)
  | str (rt rn : Reg)
  /-- `stmia rn, {..}`, with `!` if `wback`. -/
  | stmia (rn : Reg) (wback : Bool) (regs : List Reg)
  /-- `stmfd rn, {..}`, which is also `push`. -/
  | stmfd (rn : Reg) (wback : Bool) (regs : List Reg)
  /-- `ldmia rn, {..}`, which is also `ldmfd` and `pop`. -/
  | ldmia (rn : Reg) (wback : Bool) (regs : List Reg)
  /-- `ldmia rn!, {.., pc}^`, the return from an exception. -/
  | ldmiaPc (rn : Reg) (regs : List Reg)
  | mrsCpsr (rd : Reg)
  | mrsSpsr (rd : Reg)
  | msrCpsr (rn : Reg)
  | msrSpsr (rn : Reg)
  /-- `cpsid if, #mode` -/
  | cpsid (mode : Word)
  | clrex
  /-- `mov pc, rn` -/
  | movPc (rn : Reg)
  /-- `bl`, up to the jump: the address behind it goes to `lr`. -/
  | bl (ret : Word)

/-- The status register after `cpsid if, #mode`. -/
def maskedMode (psr mode : Word) : Word :=
  psr &&& ~~~0x1f ||| (mode ||| 0xc0)

/-- The status register with the flags `N` and `Z` of a result. -/
def withFlags (psr res : Word) : Word :=
  psr &&& ~~~0xc0000000 ||| (if res.msb then 0x80000000 else 0) |||
    if res = 0 then 0x40000000 else 0

/-- The condition `eq`. -/
def Cpu.eq (c : Cpu) : Bool :=
  c.cpsr[30]

def exec (c : Cpu) : Instr → Cpu
  | .mov rd rn => c.set rd (c.get rn)
  | .movImm rd imm => c.set rd imm
  | .add rd rn imm => c.set rd (c.get rn + imm)
  | .sub rd rn imm => c.set rd (c.get rn - imm)
  | .ands rd rn imm =>
      let res := c.get rn &&& imm
      { c.set rd res with cpsr := withFlags c.cpsr res }
  | .str rt rn => { c with mem := Function.update c.mem (c.get rn) (c.get rt) }
  | .stmia rn wback regs =>
      let base := c.get rn
      let c := { c with mem := store c.mem base (regs.map c.get) }
      if wback then c.set rn (base + BitVec.ofNat 32 (4 * regs.length)) else c
  | .stmfd rn wback regs =>
      let base := c.get rn - BitVec.ofNat 32 (4 * regs.length)
      let c := { c with mem := store c.mem base (regs.map c.get) }
      if wback then c.set rn base else c
  | .ldmia rn wback regs =>
      let base := c.get rn
      let c := if wback then c.set rn (base + BitVec.ofNat 32 (4 * regs.length)) else c
      c.setAll regs (load c.mem base regs.length)
  | .ldmiaPc rn regs =>
      let base := c.get rn
      let words := load c.mem base (regs.length + 1)
      let psr := c.spsr c.bank
      let c := c.set rn (base + BitVec.ofNat 32 (4 * (regs.length + 1)))
      { c.setAll regs words with pc := words.getLast?.getD 0, cpsr := psr }
  | .mrsCpsr rd => c.set rd c.cpsr
  | .mrsSpsr rd => c.set rd (c.spsr c.bank)
  | .msrCpsr rn => { c with cpsr := c.get rn }
  | .msrSpsr rn => { c with spsr := Function.update c.spsr c.bank (c.get rn) }
  | .cpsid mode => { c with cpsr := maskedMode c.cpsr mode }
  | .clrex => c
  | .movPc rn => { c with pc := c.get rn }
  | .bl ret => c.set .lr ret

/-- The instructions one after the other.  Where a program branches its parts are run one by
one. -/
def run (c : Cpu) (prog : List Instr) : Cpu :=
  prog.foldl exec c

/-! ## Status registers -/

theorem bankOf_congr {psr psr' : Word} (h : psr &&& 0x1f = psr' &&& 0x1f) :
    bankOf psr = bankOf psr' := by
  rw [bankOf, bankOf, h]

/-- Cleared mode bits leave those that are set again. -/
theorem mode_of_cleared (psr set : Word) {cleared : Word} (h : ~~~cleared &&& 0x1f = 0) :
    (psr &&& ~~~cleared ||| set) &&& 0x1f = set &&& 0x1f := by
  rw [BitVec.and_or_distrib_right, BitVec.and_assoc, h]
  simp

@[simp] theorem bankOf_maskedMode (psr mode : Word) :
    bankOf (maskedMode psr mode) = bankOf mode := by
  refine bankOf_congr ?_
  rw [maskedMode, mode_of_cleared psr _ (by decide), BitVec.and_or_distrib_right]
  simp

@[simp] theorem bankOf_withFlags (psr res : Word) :
    bankOf (withFlags psr res) = bankOf psr := by
  refine bankOf_congr ?_
  have hkept : ~~~(0xc0000000 : Word) &&& 0x1f = 0x1f := by decide
  have hn : (if res.msb then (0x80000000 : Word) else 0) &&& 0x1f = 0 := by
    split_ifs <;> decide
  have hz : (if res = 0 then (0x40000000 : Word) else 0) &&& 0x1f = 0 := by
    split_ifs <;> decide
  rw [withFlags, BitVec.and_or_distrib_right, BitVec.and_or_distrib_right, hn, hz,
    BitVec.and_assoc, hkept]
  simp

/-- The condition `eq` after an instruction that set the flags. -/
theorem eq_withFlags (psr res : Word) : (withFlags psr res)[30] = decide (res = 0) := by
  have hzero : (0 : Word)[30] = false := by decide
  have hmsb : (0x80000000 : Word)[30] = false := by decide
  have hbit : (0x40000000 : Word)[30] = true := by decide
  have hn : (if res.msb then (0x80000000 : Word) else 0)[30] = false := by
    split_ifs
    · exact hmsb
    · exact hzero
  have hz : (if res = 0 then (0x40000000 : Word) else 0)[30] = decide (res = 0) := by
    split_ifs with h
    · rw [decide_eq_true h, hbit]
    · rw [decide_eq_false h, hzero]
  have hcleared : (~~~(0xc0000000 : Word))[30] = false := by decide
  have hkept : (psr &&& ~~~0xc0000000)[30] = false := by
    rw [BitVec.getElem_and, hcleared, Bool.and_false]
  simp only [withFlags, BitVec.getElem_or, hkept, hn, hz, Bool.false_or]

/-! ## Interrupts -/

/-- The status register on the way into an IRQ: interrupts and asynchronous aborts are masked,
and the core leaves Thumb state.  The flags are kept. -/
def irqPsr (psr : Word) : Word :=
  psr &&& ~~~0x0700fc3f ||| 0x192

@[simp] theorem bankOf_irqPsr (psr : Word) : bankOf (irqPsr psr) = .irq := by
  have hirq : bankOf 0x192 = .irq := by decide
  rw [← hirq]
  exact bankOf_congr (mode_of_cleared psr 0x192 (by decide))

/-- An IRQ before the instruction at `pc`.  The link register is four behind it, which
handlers know about. -/
def takeIrq (c : Cpu) : Cpu :=
  { c with
    lr := Function.update c.lr .irq (c.pc + 4)
    spsr := Function.update c.spsr .irq c.cpsr
    cpsr := irqPsr c.cpsr }

/-! ## System calls -/

/-- The status register on the way into a system call: interrupts are masked, and the core
leaves Thumb state. -/
def svcPsr (psr : Word) : Word :=
  psr &&& ~~~0x0700fc3f ||| 0x93

@[simp] theorem bankOf_svcPsr (psr : Word) : bankOf (svcPsr psr) = .svc := by
  have hset : (0x93 : Word) &&& 0x1f = 19 &&& 0x1f := by decide
  have hmode : svcPsr psr &&& 0x1f = 19 &&& 0x1f := by
    rw [svcPsr, mode_of_cleared psr _ (by decide), hset]
  rw [bankOf_congr hmode]
  decide

/-- `svc` at `pc`.  The link register is at the instruction behind it. -/
def takeSvc (c : Cpu) : Cpu :=
  { c with
    lr := Function.update c.lr .svc (c.pc + 4)
    spsr := Function.update c.spsr .svc c.cpsr
    cpsr := svcPsr c.cpsr }

end Arm
