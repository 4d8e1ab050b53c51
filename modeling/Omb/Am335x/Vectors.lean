import Omb.Kern.Machine

/-!
# `am335x/kern/vectors.S`: the way into a system call

`swi_ex` compares the number in `r12` with `NSYSCALLS`, returns if the condition `pl` holds,
and otherwise loads the address it jumps to from `systab`, at the index `r12`.  Only the
registers and flags that decide about the jump are modelled here; `Omb.Am335x.SystemCall` runs
the instructions.

`pl` looks at the sign of the difference alone.  `dispatchOk_iff` gives the numbers for which
that and the table are enough: all but the null entry and those from `0x8000000a` on, which
are large enough for the difference to be negative again.  For these the word that is loaded
is outside `systab`.

Where `systab` lies is up to the linker, and the scaled index wraps around as any address
does; this is why the results are for every address of the table (`swiEx_jump`).

Each system call of the kernel's model has the number that libc uses and the handler that the
kernel runs for it; that `systab` leads from the one to the other is used in
`Omb.Am335x.SystemCall`.

## Main results

* `cmp_pl_iff`: which numbers are refused
* `swiEx_jump`: where the others lead
* `dispatchOk_iff`: for which numbers dispatch is confined to the table
-/

namespace Omb

/-- The condition flags. -/
structure Flags where
  n : Bool
  z : Bool
  c : Bool
  v : Bool

/-- The flags that `cmp a, b` sets. -/
def cmp (a b : Word) : Flags where
  n := (a - b).msb
  z := a - b = 0
  c := b ≤ a
  v := BitVec.ssubOverflow a b

/-- The condition `pl`, which is about the sign only.  An unsigned comparison would look at
the carry. -/
def Flags.pl (f : Flags) : Bool := !f.n

abbrev syscallSend : ℕ := 0
abbrev syscallRecv : ℕ := 1
abbrev syscallReply : ℕ := 2
abbrev syscallReplyRecv : ℕ := 3
abbrev syscallGetProcPage : ℕ := 4
abbrev syscallGetKernelPage : ℕ := 5
abbrev syscallProcCreate : ℕ := 6
abbrev syscallAddrOffer : ℕ := 7
abbrev syscallAddrAccept : ℕ := 8
abbrev nsyscalls : ℕ := 10

/-- The functions in `systab`. -/
inductive Handler where
  | sysSend
  | sysRecv
  | sysReply
  | sysReplyRecv
  | sysGetProcPage
  | sysGetKernelPage
  | sysProcCreate
  | sysAddrOffer
  | sysAddrAccept
  deriving DecidableEq

/-- `systab`, with null entries where nothing is initialised. -/
def systab : Vector (Option Handler) nsyscalls :=
  (Vector.replicate nsyscalls none)
    |>.set syscallGetProcPage (some .sysGetProcPage)
    |>.set syscallGetKernelPage (some .sysGetKernelPage)
    |>.set syscallSend (some .sysSend)
    |>.set syscallRecv (some .sysRecv)
    |>.set syscallReply (some .sysReply)
    |>.set syscallReplyRecv (some .sysReplyRecv)
    |>.set syscallProcCreate (some .sysProcCreate)
    |>.set syscallAddrOffer (some .sysAddrOffer)
    |>.set syscallAddrAccept (some .sysAddrAccept)

/-- The number user code puts in `r12`. -/
def Syscall.number : Syscall → ℕ
  | .getProcPage => syscallGetProcPage
  | .getKernelPage => syscallGetKernelPage
  | .send _ => syscallSend
  | .recv _ => syscallRecv
  | .reply _ _ => syscallReply
  | .replyRecv _ _ _ => syscallReplyRecv
  | .procCreate _ _ => syscallProcCreate
  | .addrOffer _ _ _ _ => syscallAddrOffer
  | .addrAccept _ _ _ _ => syscallAddrAccept

/-- The function the kernel model runs for a system call. -/
def Syscall.handler : Syscall → Handler
  | .getProcPage => .sysGetProcPage
  | .getKernelPage => .sysGetKernelPage
  | .send _ => .sysSend
  | .recv _ => .sysRecv
  | .reply _ _ => .sysReply
  | .replyRecv _ _ _ => .sysReplyRecv
  | .procCreate _ _ => .sysProcCreate
  | .addrOffer _ _ _ _ => .sysAddrOffer
  | .addrAccept _ _ _ _ => .sysAddrAccept

/-- What becomes of a system call. -/
inductive Dispatch where
  /-- `mov pc, lr`, back to the caller. -/
  | ret
  /-- `ldr pc, [slot]` -/
  | jump (slot : Word)
  deriving DecidableEq

/-- `swi_ex`, for `systab` at the address `tab`. -/
def swiEx (tab r12 : Word) : Dispatch :=
  if (cmp r12 (BitVec.ofNat 32 nsyscalls)).pl then .ret
  else .jump (tab + r12 <<< 2)

/-- The call returns, or jumps to the handler stored at the index `r12` of `systab`, which
there is one for. -/
def DispatchOk (tab r12 : Word) : Prop :=
  swiEx tab r12 = .ret ∨
    ∃ k : Fin nsyscalls, r12 = BitVec.ofNat 32 k.val ∧
      swiEx tab r12 = .jump (tabAddr tab r12) ∧ systab[k] ≠ none

/-! ## Which numbers are refused -/

/-- The difference of `cmp` is negative for the numbers below `NSYSCALLS`, and for
those so large that it is negative as a signed number again. -/
theorem cmp_pl_iff (r12 : Word) :
    (cmp r12 (BitVec.ofNat 32 nsyscalls)).pl ↔
      10 ≤ r12.toNat ∧ r12.toNat < 0x8000000a := by
  have hlt := r12.isLt
  have hn : (BitVec.ofNat 32 nsyscalls).toNat = 10 := rfl
  simp only [Flags.pl, cmp, Bool.not_eq_true', BitVec.msb_eq_decide, decide_eq_false_iff_not,
    BitVec.toNat_sub, hn]
  omega

theorem swiEx_ret_iff (tab r12 : Word) :
    swiEx tab r12 = .ret ↔ 10 ≤ r12.toNat ∧ r12.toNat < 0x8000000a := by
  rw [← cmp_pl_iff, swiEx]
  split_ifs with h <;> simp [h]

/-- The scaled index is the address of the entry, whatever overflows. -/
theorem swiEx_jump {tab r12 : Word} (h : ¬ (10 ≤ r12.toNat ∧ r12.toNat < 0x8000000a)) :
    swiEx tab r12 = .jump (tabAddr tab r12) := by
  rw [← cmp_pl_iff] at h
  rw [swiEx, if_neg h, tabAddr, BitVec.shiftLeft_eq_mul_twoPow, BitVec.mul_comm]
  rfl

/-- The only null entry is that of `SYSCALL_ADDR_REJECT`. -/
theorem systab_ne_none_iff (k : Fin nsyscalls) :
    systab[k] ≠ none ↔ k.val ≠ 9 := by
  revert k
  decide

/-- **Dispatch is confined for exactly these numbers**, wherever `systab` lies.  Those from 10
to `0x80000009` are refused, as they should be; for larger ones the difference is negative and
the jump is through a word outside the table, and for 9 it is to nil. -/
theorem dispatchOk_iff (tab r12 : Word) :
    DispatchOk tab r12 ↔ r12.toNat ≠ 9 ∧ r12.toNat < 0x8000000a := by
  constructor
  · rintro (hret | ⟨k, rfl, -, hsome⟩)
    · rw [swiEx_ret_iff] at hret
      omega
    · rw [systab_ne_none_iff] at hsome
      have hk : k.val < 10 := k.isLt
      rw [BitVec.toNat_ofNat]
      omega
  · rintro ⟨hne, hlt⟩
    rcases Nat.lt_or_ge r12.toNat 10 with hsmall | hlarge
    · refine .inr ⟨⟨r12.toNat, hsmall⟩, ?_, swiEx_jump (by omega), ?_⟩
      · simp
      · rw [systab_ne_none_iff]
        exact hne
    · exact .inl ((swiEx_ret_iff tab r12).mpr ⟨hlarge, hlt⟩)

/-- `SYSCALL_ADDR_REJECT` is dispatched to a null entry, and `-1` to the word before
the table. -/
theorem dispatch_outside_systab :
    ¬ DispatchOk 0x80008000 9 ∧ swiEx 0x80008000 9 = .jump (tabAddr 0x80008000 9) ∧
      systab[9] = none ∧
    ¬ DispatchOk 0x80008000 (-1) ∧ swiEx 0x80008000 (-1) = .jump 0x80007ffc := by
  have hbad : ∀ r12 : Word, r12 = 9 ∨ r12 = -1 → ¬ DispatchOk 0x80008000 r12 := by
    rintro r12 hr (hret | ⟨k, hk, -, hsome⟩)
    · rcases hr with rfl | rfl
      · exact absurd hret (by decide)
      · exact absurd hret (by decide)
    · rcases hr with rfl | rfl
      · exact absurd hk (by revert k; decide)
      · exact absurd hk (by revert k; decide)
  exact ⟨hbad 9 (.inl rfl), by decide, by decide, hbad (-1) (.inr rfl), by decide⟩

end Omb
