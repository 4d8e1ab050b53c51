import Omb.Am335x.Interrupt
import Omb.Am335x.Vectors

/-!
# `am335x/kern/vectors.S` and `lib/libc/sys.S`: system calls

The way of a system call from a stub of libc through `swi_ex` into its handler and back, one
instruction at a time.  `swi_ex` keeps what belongs to user code in three registers that the
calling convention preserves, and those and the return address on the supervisor stack; so it
does not matter to the caller whether the handler just returns, or blocks and comes back after
other processes have run (`syscall_keeps_convention`).

The handlers are compiled C, which enters as a call that keeps to the calling convention, as
`trap` does (`TrapCall`).

There are two frames, one of four words on the supervisor stack and one of two on the stack of
the caller, for the registers that the stub uses.  They are below the two stack pointers, and
are the only memory that is written on the way to the handler.  That they do not overlap, and
`systab` is in neither, is assumed (`FramesApart`): the stack pointer of user code may be
anything.

`syscall_keeps_convention` is for every system call of the model, with whatever `systab` has
for its number.

## Main results

* `atHandler_swiEnter`: a number that is not refused leads to the handler
* `stubReturned`: the way back of a call of the handler
* `syscall_keeps_convention`: a system call keeps to the calling convention
-/

namespace Omb

open Arm

/-- For the numerals of registers. -/
local instance registers_ne_zero : @NeZero ℕ Zero.ofOfNat0 13 := ⟨by decide⟩

/-! ## The code -/

/-- The status register with other condition flags. -/
def withNzcv (psr : Arm.Word) (f : Flags) : Arm.Word :=
  psr &&& ~~~0xf0000000 ||| ((if f.n then 0x80000000 else 0) ||| (if f.z then 0x40000000 else 0) |||
    (if f.c then 0x20000000 else 0) ||| (if f.v then 0x10000000 else 0))

/-- `{r9, r10, r11}` -/
def r9to11 : List Reg := [.r 9, .r 10, .r 11]

/-- `cmp r12, #NSYSCALLS` -/
def compareNumber (c : Cpu) : Cpu :=
  { c with cpsr := withNzcv c.cpsr (cmp (c.get (.r 12)) (BitVec.ofNat 32 nsyscalls)) }

/-- `swi_ex`, from the number that is not refused up to where it looks it up. -/
def swiSave : List Instr :=
  [.stmfd .sp true (r9to11 ++ [.lr]),
    .mrsSpsr (.r 9),
    .cpsid modeSys,
    .mov (.r 10) .sp,
    .mov (.r 11) .lr,
    .cpsid modeSvc]

/-- `ldr lr, =systab; add r12, lr, r12, lsl #2` -/
def indexSystab (tab : Arm.Word) (c : Cpu) : Cpu :=
  let c := c.set .lr tab
  c.set (.r 12) (c.get .lr + c.get (.r 12) <<< 2)

/-- `ldr lr, =1f; ldr pc, [r12]` -/
def jumpHandler (ret : Arm.Word) (c : Cpu) : Cpu :=
  let c := c.set .lr ret
  { c with pc := c.mem (c.get (.r 12)) }

/-- `svc` and `swi_ex`, up to the handler or back to the caller: `systab` is at `tab` and the
label `1` at `ret`. -/
def swiEnter (tab ret : Arm.Word) (c : Cpu) : Cpu :=
  let s := compareNumber (takeSvc c)
  if (cmp (s.r 12) (BitVec.ofNat 32 nsyscalls)).pl then movsPcLr s
  else jumpHandler ret (indexSystab tab (run s swiSave))

/-- `swi_ex` from the label `1` on, up to its last instruction. -/
def swiRestore : List Instr :=
  [.cpsid modeSys,
    .mov .sp (.r 10),
    .mov .lr (.r 11),
    .cpsid modeSvc,
    .msrSpsr (.r 9)]

/-- `swi_ex` from the label `1` on. -/
def swiLeave (c : Cpu) : Cpu :=
  run (run c swiRestore) [.ldmiaPc .sp r9to11]

/-- A stub of libc for the system call `number`, up to its `svc`, which is at `svc`. -/
def stubEnter (svc number : Arm.Word) (c : Cpu) : Cpu :=
  { run c [.stmfd .sp true [.r 12, .lr], .movImm (.r 12) number] with pc := svc }

/-- `pop {r12, pc}` -/
def stubReturn (c : Cpu) : Cpu :=
  let base := c.get .sp
  let words := load c.mem base 2
  let c := (c.set .sp (base + 8)).setAll [.r 12] words
  { c with pc := words.getLast?.getD 0 }

@[simp] theorem bankOf_withNzcv (psr : Arm.Word) (f : Flags) :
    bankOf (withNzcv psr f) = bankOf psr := by
  refine bankOf_congr ?_
  have hkept : ~~~(0xf0000000 : Arm.Word) &&& 0x1f = 0x1f := by decide
  have hflags : ((if f.n then (0x80000000 : Arm.Word) else 0) |||
      (if f.z then 0x40000000 else 0) ||| (if f.c then 0x20000000 else 0) |||
      (if f.v then 0x10000000 else 0)) &&& 0x1f = 0 := by
    split_ifs <;> decide
  rw [withNzcv, BitVec.and_or_distrib_right, hflags, BitVec.and_assoc, hkept]
  simp

/-! ## Into the handler -/

/-- The frame of a system call: what `swi_ex` needs its three registers for, and the return
address. -/
def swiFrame (c : Cpu) : List Arm.Word :=
  r9to11.map c.get ++ [c.pc + 4]

/-- The state at the handler, for a system call made at `c`.  The three registers have the
status, the stack pointer and the link register of user code. -/
structure AtHandler (tab ret : Arm.Word) (c a : Cpu) : Prop where
  bank : bankOf a.cpsr = .svc
  args : ∀ i : Fin 13, i.val < 9 → a.r i = c.r i
  psr : a.r 9 = c.cpsr
  userSp : a.r 10 = c.sp .usr
  userLr : a.r 11 = c.lr .usr
  sp : a.sp = Function.update c.sp .svc (c.sp .svc - 16)
  lr : a.lr .svc = ret
  mem : a.mem = store c.mem (c.sp .svc - 16) (swiFrame c)
  pc : a.pc = a.mem (tabAddr tab (c.r 12))

variable {tab ret : Arm.Word} {c a b : Cpu}

/-- **A number that is not refused** leads to the handler that is stored at its index, if it
is one. -/
theorem atHandler_swiEnter (hnum : ¬ (cmp (c.r 12) (BitVec.ofNat 32 nsyscalls)).pl) :
    AtHandler tab ret c (swiEnter tab ret c) := by
  have henter : swiEnter tab ret c =
      jumpHandler ret (indexSystab tab (run (compareNumber (takeSvc c)) swiSave)) := by
    rw [swiEnter]
    exact if_neg hnum
  rw [henter]
  have hslot : tab + c.r 12 <<< 2 = tabAddr tab (c.r 12) := by
    rw [tabAddr, BitVec.shiftLeft_eq_mul_twoPow, BitVec.mul_comm]
    rfl
  refine ⟨?_, fun i hi => ?_, ?_, ?_, ?_, ?_, ?_, ?_, ?_⟩
  · simp [jumpHandler, indexSystab, swiSave, compareNumber, takeSvc, run, exec, Cpu.get, Cpu.set,
      Cpu.bank, r9to11]
  · fin_cases i <;> simp at hi <;>
      simp [jumpHandler, indexSystab, swiSave, compareNumber, takeSvc, run, exec, Cpu.get, Cpu.set,
        Cpu.bank, r9to11]
  all_goals
    simp [jumpHandler, indexSystab, swiSave, compareNumber, takeSvc, run, exec, Cpu.get, Cpu.set,
      Cpu.bank, r9to11, swiFrame, hslot]

/-! ## Out of the handler -/

/-- What `swi_ex` puts back. -/
theorem swiLeave_eq {w₉ w₁₀ w₁₁ pc : Arm.Word}
    (hframe : load b.mem (b.sp .svc) 4 = [w₉, w₁₀, w₁₁, pc]) :
    (swiLeave b).pc = pc ∧ (swiLeave b).cpsr = b.r 9 ∧
      (swiLeave b).sp = Function.update (Function.update b.sp .usr (b.r 10)) .svc
        (b.sp .svc + 16) ∧
      (swiLeave b).lr = Function.update b.lr .usr (b.r 11) ∧ (swiLeave b).mem = b.mem ∧
      (swiLeave b).r = Function.update (Function.update (Function.update b.r 9 w₉) 10 w₁₀) 11
        w₁₁ := by
  refine ⟨?_, ?_, ?_, ?_, ?_, ?_⟩ <;>
    simp [swiLeave, swiRestore, run, exec, Cpu.get, Cpu.set, Cpu.setAll, Cpu.bank, r9to11,
      hframe]

/-! ## The stubs -/

/-- The state at the `svc` of a stub. -/
structure AtSvc (svc number : Arm.Word) (c s : Cpu) : Prop where
  r : ∀ i : Fin 13, i ≠ 12 → s.r i = c.r i
  number : s.r 12 = number
  sp : s.sp = Function.update c.sp .usr (c.sp .usr - 8)
  lr : s.lr = c.lr
  cpsr : s.cpsr = c.cpsr
  mem : s.mem = store c.mem (c.sp .usr - 8) [c.r 12, c.lr .usr]
  pc : s.pc = svc

theorem bank_of_user (hmode : c.cpsr &&& 0x1f = 16) : bankOf c.cpsr = .usr := by
  have husr : bankOf 16 = .usr := by decide
  rw [← husr]
  exact bankOf_congr (hmode.trans (by decide))

theorem atSvc_stubEnter (svc number : Arm.Word) (hmode : c.cpsr &&& 0x1f = 16) :
    AtSvc svc number c (stubEnter svc number c) := by
  have hbank := bank_of_user hmode
  refine ⟨fun i hi => ?_, ?_, ?_, ?_, ?_, ?_, rfl⟩
  · simp [stubEnter, run, exec, Cpu.get, Cpu.set, Function.update_of_ne hi]
  all_goals simp [stubEnter, run, exec, Cpu.get, Cpu.set, Cpu.bank, hbank]

theorem stubReturn_eq {w pc : Arm.Word} (hbank : bankOf b.cpsr = .usr)
    (hframe : load b.mem (b.sp .usr) 2 = [w, pc]) :
    (stubReturn b).pc = pc ∧ (stubReturn b).cpsr = b.cpsr ∧
      (stubReturn b).sp = Function.update b.sp .usr (b.sp .usr + 8) ∧
      (stubReturn b).mem = b.mem ∧ (stubReturn b).r = Function.update b.r 12 w := by
  refine ⟨?_, ?_, ?_, ?_, ?_⟩ <;>
    simp [stubReturn, Cpu.get, Cpu.set, Cpu.setAll, Cpu.bank, hbank, hframe]

/-- What a stub and `swi_ex` have on the stacks of the process while the handler runs.  The
handler is a call that leaves these words as they are. -/
def OnStacks (c : Cpu) (x : Arm.Word) : Prop :=
  InBlock (c.sp .svc - 16) 4 x ∨ InBlock (c.sp .usr - 8) 2 x

/-- The two frames do not overlap, and `systab` is in neither of them. -/
structure FramesApart (tab : Arm.Word) (c : Cpu) : Prop where
  frames : ∀ x, InBlock (c.sp .usr - 8) 2 x → ¬ InBlock (c.sp .svc - 16) 4 x
  systab : ∀ k : Fin nsyscalls, ¬ OnStacks c (tabAddr tab (BitVec.ofNat 32 k.val))

/-- `systab` is in memory at `tab`, the handlers being at `addr`. -/
def SystabAt (tab : Arm.Word) (addr : Handler → Arm.Word) (m : Arm.Mem) : Prop :=
  ∀ (k : Fin nsyscalls) (h : Handler), systab.get k = some h →
    m (tabAddr tab (BitVec.ofNat 32 k.val)) = addr h

/-- The handler at `handler` is entered in `a`, with what the caller had in its argument
registers; only the two frames have been written. -/
structure HandlerEntered (handler : Arm.Word) (c a : Cpu) : Prop where
  pc : a.pc = handler
  args : ∀ i : Fin 13, i.val < 4 → a.r i = c.r i
  mem : ∀ x, ¬ OnStacks c x → a.mem x = c.mem x

/-- A function called at `c` has returned in `d` as the calling convention says, with the
result that the handler has left in `r0` of `b`, and with the memory of `b`; the supervisor
stack is as deep as it was. -/
structure StubReturned (b c d : Cpu) : Prop where
  pc : d.pc = c.lr .usr
  result : d.r 0 = b.r 0
  mem : d.mem = b.mem
  saved : ∀ i : Fin 13, 4 ≤ i.val → d.r i = c.r i
  sp : d.sp .usr = c.sp .usr
  cpsr : d.cpsr = c.cpsr
  svcSp : d.sp .svc = c.sp .svc

section Stub

variable {svc number : Arm.Word} {s : Cpu}

/-- The frame on the supervisor stack survives the handler, which has it as stack in use. -/
theorem AtHandler.load_frame (hs : AtSvc svc number c s) (ha : AtHandler tab ret s a)
    (h : Returned (OnStacks c) a b) : load b.mem (b.sp .svc) 4 = swiFrame s := by
  have hsvc : s.sp .svc = c.sp .svc := by simp [hs.sp]
  rw [h.sp, ha.sp, Function.update_self, hsvc, load_congr fun x hx => h.mem x (.inl hx), ha.mem,
    hsvc]
  exact load_store (by simp [swiFrame, r9to11]) (by omega)

/-- So does the one on the stack of the caller. -/
theorem AtHandler.load_pushed (hs : AtSvc svc number c s) (ha : AtHandler tab ret s a)
    (h : Returned (OnStacks c) a b) (hapart : FramesApart tab c) :
    load b.mem (c.sp .usr - 8) 2 = [c.r 12, c.lr .usr] := by
  have hsvc : s.sp .svc = c.sp .svc := by simp [hs.sp]
  rw [load_congr fun x hx => h.mem x (.inr hx), ha.mem, hsvc, load_store_of_disjoint, hs.mem]
  · exact load_store (by simp) (by omega)
  · intro x hx hin
    refine hapart.frames x hx ?_
    simpa [swiFrame, r9to11] using hin

/-- Nothing else has been written on the way to the handler. -/
theorem AtHandler.mem_eq (hs : AtSvc svc number c s) (ha : AtHandler tab ret s a) {x : Arm.Word}
    (hx : ¬ OnStacks c x) : a.mem x = c.mem x := by
  have hsvc : s.sp .svc = c.sp .svc := by simp [hs.sp]
  rw [ha.mem, hsvc, store_of_not_inBlock, hs.mem, store_of_not_inBlock]
  · exact fun hin => hx (.inr hin)
  · intro hin
    refine hx (.inl ?_)
    simpa [swiFrame, r9to11] using hin

/-- The way back of a call of the handler. -/
theorem stubReturned (hmode : c.cpsr &&& 0x1f = 16) (hs : AtSvc svc number c s)
    (ha : AtHandler tab ret s a) (h : Returned (OnStacks c) a b) (hapart : FramesApart tab c) :
    (swiLeave b).pc = svc + 4 ∧ StubReturned b c (stubReturn (swiLeave b)) := by
  have hbank := bank_of_user hmode
  have hframe : load b.mem (b.sp .svc) 4 = [s.r 9, s.r 10, s.r 11, s.pc + 4] :=
    AtHandler.load_frame hs ha h
  obtain ⟨hpc, hcpsr, hsp, hlr, hmem, hr⟩ := swiLeave_eq hframe
  have hpsr : (swiLeave b).cpsr = c.cpsr := by
    rw [hcpsr, h.saved 9 (by decide) (by decide), ha.psr, hs.cpsr]
  have husp : (swiLeave b).sp .usr = c.sp .usr - 8 := by
    rw [hsp, Function.update_of_ne (by decide), Function.update_self,
      h.saved 10 (by decide) (by decide), ha.userSp, hs.sp, Function.update_self]
  have hsvc : (swiLeave b).sp .svc = c.sp .svc := by
    rw [hsp, Function.update_self, h.sp, ha.sp, Function.update_self, hs.sp,
      Function.update_of_ne (by decide)]
    bv_omega
  have hpushed : load (swiLeave b).mem ((swiLeave b).sp .usr) 2 = [c.r 12, c.lr .usr] := by
    rw [husp, hmem, AtHandler.load_pushed hs ha h hapart]
  obtain ⟨hpc', hcpsr', hsp', hmem', hr'⟩ := stubReturn_eq (by rw [hpsr, hbank]) hpushed
  have hregs : ∀ i : Fin 13, 4 ≤ i.val → i.val ≤ 11 → (swiLeave b).r i = s.r i := by
    intro i hi hi'
    rw [hr]
    rcases Nat.lt_or_ge i.val 9 with hlt | hge
    · have hne : ∀ j : Fin 13, 9 ≤ j.val → i ≠ j := by
        rintro j hj rfl
        omega
      rw [Function.update_of_ne (hne 11 (by decide)), Function.update_of_ne (hne 10 (by decide)),
        Function.update_of_ne (hne 9 (by decide)), h.saved i hi hi', ha.args i hlt]
    · obtain rfl | rfl | rfl : i = 9 ∨ i = 10 ∨ i = 11 := by
        simp only [Fin.ext_iff]
        omega
      · simp
      · simp
      · simp
  refine ⟨by rw [hpc, hs.pc], hpc', ?_, hmem'.trans hmem, fun i hi => ?_, ?_,
    by rw [hcpsr', hpsr], ?_⟩
  · rw [hr', hr]
    simp
  · rcases eq_or_ne i 12 with rfl | hne
    · rw [hr', Function.update_self]
    · have hval : i.val ≠ 12 := fun heq => hne (Fin.ext heq)
      rw [hr', Function.update_of_ne hne, hregs i hi (by omega), hs.r i hne]
  · rw [hsp', Function.update_self, husp]
    bv_omega
  · rw [hsp', Function.update_of_ne (by decide), hsvc]

end Stub

/-- **A system call keeps to the calling convention**, whatever the call, the registers of the
caller and the process switches in between: the handler that `systab` has for it is entered
with the arguments of the caller, the stub returns its result to the caller with `sp` and `r4`
to `r12` as they were, and nothing is left on the supervisor stack.  Of memory only the two
frames are written, below the two stack pointers; the caller finds it as the handler has left
it. -/
theorem syscall_keeps_convention {svc : Arm.Word} {addr : Handler → Arm.Word} (k : Syscall)
    (hmode : c.cpsr &&& 0x1f = 16) (htab : SystabAt tab addr c.mem) (hapart : FramesApart tab c)
    (hcall : TrapCall (OnStacks c)
      (swiEnter tab ret (stubEnter svc (BitVec.ofNat 32 k.number) c)) b) :
    HandlerEntered (addr k.handler) c
        (swiEnter tab ret (stubEnter svc (BitVec.ofNat 32 k.number) c)) ∧
      b.pc = ret ∧ (swiLeave b).pc = svc + 4 ∧
        StubReturned b c (stubReturn (swiLeave b)) := by
  have hs := atSvc_stubEnter svc (BitVec.ofNat 32 k.number) hmode
  have hlt : k.number < 9 := by
    cases k <;> simp only [Syscall.number] <;> decide
  have hnum : ¬ (cmp ((stubEnter svc (BitVec.ofNat 32 k.number) c).r 12)
      (BitVec.ofNat 32 nsyscalls)).pl := by
    rw [hs.number, cmp_pl_iff, BitVec.toNat_ofNat]
    omega
  have ha : AtHandler tab ret _ _ := atHandler_swiEnter hnum
  have hreturned := hcall.returned
  obtain ⟨hpc, hstub⟩ := stubReturned hmode hs ha hreturned hapart
  refine ⟨⟨?_, fun i hi => ?_, fun x hx => AtHandler.mem_eq hs ha hx⟩,
    hreturned.pc.trans ha.lr, hpc, hstub⟩
  · have hlt' : k.number < nsyscalls := hlt.trans (by decide)
    have hslot : systab.get ⟨k.number, hlt'⟩ = some k.handler := by
      cases k <;> rfl
    rw [ha.pc, hs.number]
    exact (AtHandler.mem_eq hs ha (hapart.systab ⟨k.number, hlt'⟩)).trans (htab _ _ hslot)
  · rw [ha.args i (by omega), hs.r i fun heq => by simp [heq] at hi]

/-- User code with its stack below `0x3000`, `systab` at `0x6000` and handlers where the
entries are. -/
def callerCpu : Cpu :=
  { exampleCpu with mem := fun x => x }

/-- The entry of a handler. -/
def exampleAddr (h : Handler) : Arm.Word :=
  tabAddr 0x6000 (BitVec.ofNat 32 (systab.toList.idxOf (some h)))

/-- It sends, and blocks; another process, with `0xdead` in its registers, calls `goto_label`
in its reply. -/
theorem send_keeps_convention :
    ∃ (ret svc : Arm.Word) (d b : Cpu), d.r 4 = 0xdead ∧ callerCpu.r 4 = 5 ∧
      HandlerEntered (exampleAddr .sysSend) callerCpu
        (swiEnter 0x6000 ret (stubEnter svc (BitVec.ofNat 32 (Syscall.send 1).number) callerCpu)) ∧
      b.pc = ret ∧ (swiLeave b).pc = svc + 4 ∧
        StubReturned b callerCpu (stubReturn (swiLeave b)) := by
  let a := swiEnter 0x6000 0x100
    (stubEnter 0x200 (BitVec.ofNat 32 (Syscall.send 1).number) callerCpu)
  -- the call of `set_label`, and the one of `goto_label` from the other process
  let b : Cpu := { a with r := Function.update a.r 0 0x5000 }
  let d : Cpu :=
    { run b setLabel with
      r := fun i => if i = 0 then 0x5000 else 0xdead
      lr := fun _ => 0xdead }
  let rest : Cpu → Cpu := fun e => { a with mem := e.mem, pc := a.lr .svc }
  have hsvc : callerCpu.sp .svc - 16 = 0xff0 := by decide
  have husr : callerCpu.sp .usr - 8 = 0x2ff8 := by decide
  have hnat : ∀ n < 2 ^ 32, (BitVec.ofNat 32 n).toNat = n := fun n hn => by
    rw [BitVec.toNat_ofNat, Nat.mod_eq_of_lt hn]
  have hstacks : ∀ x, OnStacks callerCpu x → x.toNat < 0x3000 := by
    rintro x (⟨i, hi, rfl⟩ | ⟨i, hi, rfl⟩)
    · rw [hsvc, BitVec.toNat_add, hnat _ (by omega)]
      have h₁ : (0xff0 : Arm.Word).toNat = 0xff0 := rfl
      omega
    · rw [husr, BitVec.toNat_add, hnat _ (by omega)]
      have h₁ : (0x2ff8 : Arm.Word).toNat = 0x2ff8 := rfl
      omega
  have hlabel : ∀ x, OnStacks callerCpu x → ¬ InBlock (b.r 0) 17 x := by
    rintro x hx ⟨i, hi, rfl⟩
    have hr : b.r 0 = 0x5000 := rfl
    have hlt := hstacks _ hx
    have h₁ : (0x5000 : Arm.Word).toNat = 0x5000 := rfl
    rw [hr, BitVec.toNat_add, hnat _ (by omega)] at hlt
    omega
  have hapart : FramesApart 0x6000 callerCpu := by
    constructor
    · rintro x ⟨i, hi, rfl⟩ ⟨j, hj, heq⟩
      rw [hsvc, husr] at heq
      have heq := congrArg BitVec.toNat heq
      have h₁ : (0xff0 : Arm.Word).toNat = 0xff0 := rfl
      have h₂ : (0x2ff8 : Arm.Word).toNat = 0x2ff8 := rfl
      rw [BitVec.toNat_add, BitVec.toNat_add, hnat _ (by omega), hnat _ (by omega)] at heq
      omega
    · intro k hk
      have htable : ∀ k : Fin nsyscalls,
          ¬ (tabAddr 0x6000 (BitVec.ofNat 32 k.val)).toNat < 0x3000 := by decide
      exact htable k (hstacks _ hk)
  have htab : SystabAt 0x6000 exampleAddr callerCpu.mem := by
    intro k h hk
    revert k
    cases h <;> decide
  have hb : bankOf b.cpsr = .svc := by decide +kernel
  have hd : bankOf d.cpsr = .svc := by decide +kernel
  have hrest : ∀ e, Returned (OnStacks callerCpu) b e →
      Returned (OnStacks callerCpu) a (rest e) := fun e he =>
    ⟨rfl, hb, rfl, fun _ _ _ => rfl, he.mem⟩
  have hcall : TrapCall (OnStacks callerCpu) a (rest (run d gotoLabel)) :=
    .switches hb hd rfl hlabel (fun _ _ => rfl) hrest
  exact ⟨0x100, 0x200, d, rest (run d gotoLabel), rfl, rfl,
    syscall_keeps_convention (.send 1) (by decide) htab hapart hcall⟩

end Omb
