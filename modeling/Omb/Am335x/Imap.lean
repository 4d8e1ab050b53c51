import Omb.Am335x.Mem
import Mathlib.Tactic.SplitIfs

/-!
# `am335x/kern/mem.c`: the kernel mapping

`imap` fills first-level descriptors of `ttb`, each of which maps a section of 1 MiB: the
start is rounded down, and the loop goes on while it is below the end.  A call overwrites what
earlier ones stored, so the access to a section is that of the last call that reaches it.

`grantsOnlyAsked_iff` says for which sequences of calls user code gets at no address that it
was not to have: those in which every section last mapped for user code lies in ranges mapped
for user code.  The sequence of `init_memory` is not one of them.

The device registers are mapped with ranges of a page or two, and several devices share a
section.  So a section that one of them is mapped in for user code has the others in it, too,
the watchdog and the timer of the scheduler among them (`userAccess_watchdog_systick`).

An end above `0xFFF00000` would make the loop wrap around and never leave; `EndsInRange`
excludes that, and holds of the calls of `init_memory` for any RAM that ends below.

## Main definitions

* `imap`, `imapAll`: one call, and several one after the other
* `UserAccess`: what user code can get at

## Main results

* `imap_eq`: a call stores the descriptor of each section it reaches
* `userAccess_iff`: what user code can get at after several calls
* `grantsOnlyAsked_iff`: when that is what was mapped for it
-/

namespace Omb

/-- `AP_RW_NO`: for the kernel only. -/
def apRwNo : Word := 1

def l1Section : Word := 0b10

/-- `ttb`, by index. -/
abbrev Ttb := Word → Word

/-- The arguments of a call of `imap`; `stop` is its `end`. -/
structure ImapCall where
  start : Word
  stop : Word
  ap : Word
  cachable : Bool

/-- `mask` of `imap`. -/
def imapMask (ap : Word) (cachable : Bool) : Word :=
  let mask := ap <<< 10 ||| l1Section
  if cachable then mask ||| ((7 : Word) <<< 12 ||| (1 : Word) <<< 3 ||| (0 : Word) <<< 2)
  else mask ||| ((0 : Word) <<< 12 ||| (0 : Word) <<< 3 ||| (1 : Word) <<< 2)

/-- The `while` loop of `imap`.  Where `x` wraps around below `end` it never leaves. -/
def imapLoop (stop mask : Word) : ℕ → Word → Ttb → Except Stuck Ttb
  | 0, _, _ => .error .diverges
  | fuel + 1, x, ttb =>
      if x < stop then
        imapLoop stop mask fuel (x + (1 : Word) <<< 20) (Function.update ttb (l1x x) (x ||| mask))
      else .ok ttb

/-- `imap`. -/
def imap (ttb : Ttb) (c : ImapCall) : Except Stuck Ttb :=
  imapLoop c.stop (imapMask c.ap c.cachable) 4097 (c.start &&& ~~~((1 : Word) <<< 20 - 1)) ttb

/-- `ttb` with all its descriptors `L1_FAULT`. -/
def faultTtb : Ttb := fun _ => l1Fault

/-- The calls one after the other. -/
def imapAll (calls : List ImapCall) : Except Stuck Ttb :=
  calls.foldlM imap faultTtb

/-- The address is in a section that user code may read and write. -/
def UserAccess (ttb : Ttb) (x : Word) : Prop :=
  ttb (l1x x) &&& l1Type = l1Section ∧ (ttb (l1x x) >>> 10) &&& 0b11 = apRwRw

/-- The address is in the range of the call. -/
def ImapCall.Covers (c : ImapCall) (x : Word) : Prop :=
  c.start ≤ x ∧ x < c.stop

instance (c : ImapCall) (x : Word) : Decidable (c.Covers x) :=
  inferInstanceAs (Decidable (_ ∧ _))

/-- The call stores the descriptor of the `i`th section: the section is not below the one the
start is in, and begins below the end. -/
def ImapCall.Reaches (c : ImapCall) (i : Word) : Prop :=
  c.start.toNat / 0x100000 ≤ i.toNat ∧ i.toNat * 0x100000 < c.stop.toNat

/-- User code can only get at addresses in ranges mapped for it.  Whether it can get at all of
these is another question. -/
def GrantsOnlyAsked (calls : List ImapCall) (ttb : Ttb) : Prop :=
  ∀ x, UserAccess ttb x → ∃ c ∈ calls, c.ap = apRwRw ∧ c.Covers x

/-- Where a call with the access bits of `AP_RW_RW` is the last one to reach a section, each
address of the section is in the range of a call for user code. -/
def SectionsAsked (calls : List ImapCall) : Prop :=
  ∀ pre c post, calls = pre ++ c :: post → c.ap &&& 0b11 = apRwRw →
    ∀ x, c.Reaches (l1x x) → (∀ d ∈ post, ¬ d.Reaches (l1x x)) →
      ∃ d ∈ calls, d.ap = apRwRw ∧ d.Covers x

/-! ## Descriptors -/

theorem l1Type_getElem {j : ℕ} (hj : j < 32) : l1Type[j] = decide (j < 2) := by
  revert j
  decide

theorem shiftLeft_and_l1Type (a : Word) {k : ℕ} (hk : 2 ≤ k) : a <<< k &&& l1Type = 0 := by
  ext j hj
  rw [BitVec.getElem_and, l1Type_getElem hj]
  simp
  omega

theorem shiftLeft_shiftRight_and_l1Type (a : Word) :
    (a <<< 20) >>> 10 &&& l1Type = 0 := by
  ext j hj
  rw [BitVec.getElem_and, l1Type_getElem hj]
  simp
  omega

theorem shiftLeft_shiftRight_self (a : Word) :
    (a <<< 10) >>> 10 &&& l1Type = a &&& l1Type := by
  ext j hj
  rw [BitVec.getElem_and, BitVec.getElem_and, l1Type_getElem hj]
  rcases Nat.lt_or_ge j 2 with hlt | hge
  · have hbits : 10 + j < 32 := by omega
    simp [hlt, hbits]
  · simp [Nat.not_lt.mpr hge]

/-- The bits of `mask` that do not depend on `ap`. -/
def imapAttributes (cachable : Bool) : Word :=
  imapMask 0 cachable

theorem imapMask_eq (ap : Word) (cachable : Bool) :
    imapMask ap cachable = ap <<< 10 ||| imapAttributes cachable := by
  cases cachable <;> simp [imapAttributes, imapMask, BitVec.or_assoc]

/-- The descriptor of a call is one of a section. -/
theorem imapMask_type (i ap : Word) (cachable : Bool) :
    (i <<< 20 ||| imapMask ap cachable) &&& l1Type = l1Section := by
  rw [imapMask_eq, BitVec.and_or_distrib_right, BitVec.and_or_distrib_right,
    shiftLeft_and_l1Type i (by omega), shiftLeft_and_l1Type ap (by omega)]
  cases cachable <;> decide

/-- Its access bits are the lowest two of `ap`. -/
theorem imapMask_access (i ap : Word) (cachable : Bool) :
    (i <<< 20 ||| imapMask ap cachable) >>> 10 &&& l1Type = ap &&& l1Type := by
  have hattributes : imapAttributes cachable >>> 10 &&& l1Type = 0 := by
    cases cachable <;> decide
  rw [imapMask_eq, BitVec.ushiftRight_or_distrib, BitVec.ushiftRight_or_distrib,
    BitVec.and_or_distrib_right, BitVec.and_or_distrib_right,
    shiftLeft_shiftRight_and_l1Type, shiftLeft_shiftRight_self, hattributes]
  simp

/-! ## One call -/

/-- What a call leaves in `ttb`. -/
def mapSections (ttb : Ttb) (c : ImapCall) : Ttb := fun i =>
  if c.start.toNat / 0x100000 ≤ i.toNat ∧ i.toNat * 0x100000 < c.stop.toNat then
    i <<< 20 ||| imapMask c.ap c.cachable
  else ttb i

theorem toNat_l1x (x : Word) : (l1x x).toNat = x.toNat / 0x100000 := by
  rw [l1x, BitVec.toNat_ushiftRight, Nat.shiftRight_eq_div_pow]

/-- The section a multiple of 1 MiB starts. -/
theorem l1x_shiftLeft {x : Word} {k : ℕ} (hx : x.toNat = k * 0x100000) :
    (l1x x).toNat = k ∧ l1x x <<< 20 = x := by
  have hlt := x.isLt
  have hk : (l1x x).toNat = k := by
    rw [toNat_l1x, hx]
    omega
  refine ⟨hk, BitVec.eq_of_toNat_eq ?_⟩
  rw [BitVec.toNat_shiftLeft, hk, Nat.shiftLeft_eq, hx]
  omega

/-- The loop of `imap` from the section `k` on; the end is low enough for `x` not to
wrap around. -/
theorem imapLoop_eq {stop mask : Word} (hstop : stop.toNat ≤ 0xFFF00000) {fuel : ℕ} {x : Word}
    {k : ℕ} (hx : x.toNat = k * 0x100000) (hk : k ≤ 4096) (hfuel : 4096 < fuel + k)
    (ttb : Ttb) :
    imapLoop stop mask fuel x ttb = .ok fun i =>
      if k ≤ i.toNat ∧ i.toNat * 0x100000 < stop.toNat then i <<< 20 ||| mask
      else ttb i := by
  induction fuel generalizing x k ttb with
  | zero => omega
  | succ fuel ih =>
      rw [imapLoop]
      split_ifs with hlt
      · rw [BitVec.lt_def, hx] at hlt
        have hnext : (x + (1 : Word) <<< 20).toNat = (k + 1) * 0x100000 := by
          have hone : ((1 : Word) <<< 20).toNat = 0x100000 := rfl
          rw [BitVec.toNat_add, hone, hx]
          omega
        have hk' : k + 1 ≤ 4096 := by omega
        have hfuel' : 4096 < fuel + (k + 1) := by omega
        rw [ih hnext hk' hfuel']
        obtain ⟨hl1x, hshift⟩ := l1x_shiftLeft hx
        refine congrArg Except.ok (funext fun i => ?_)
        by_cases hi : i = l1x x
        · -- the descriptor just stored
          subst hi
          have hpast : ¬ (k + 1 ≤ (l1x x).toNat ∧
              (l1x x).toNat * 0x100000 < stop.toNat) := by omega
          have hhere : k ≤ (l1x x).toNat ∧ (l1x x).toNat * 0x100000 < stop.toNat := by
            rw [hl1x]
            exact ⟨Nat.le_refl k, hlt⟩
          rw [if_neg hpast, if_pos hhere, Function.update_self, hshift]
        · have hne : i.toNat ≠ k := fun heq =>
            hi (BitVec.eq_of_toNat_eq (heq.trans hl1x.symm))
          rw [Function.update_of_ne hi]
          refine if_congr ?_ rfl rfl
          omega
      · rw [BitVec.lt_def, hx] at hlt
        refine congrArg Except.ok (funext fun i => ?_)
        have hnot : ¬ (k ≤ i.toNat ∧ i.toNat * 0x100000 < stop.toNat) := by
          intro hand
          omega
        rw [if_neg hnot]

/-- **`imap`** stores the descriptor of each section it reaches, and comes to an end when the
end of the range is low enough. -/
theorem imap_eq (ttb : Ttb) {c : ImapCall} (hstop : c.stop.toNat ≤ 0xFFF00000) :
    imap ttb c = .ok (mapSections ttb c) := by
  have hlt := c.start.isLt
  have hbase : (c.start &&& ~~~((1 : Word) <<< 20 - 1)).toNat =
      c.start.toNat / 0x100000 * 0x100000 := by
    have hmask : ~~~((1 : Word) <<< 20 - 1) = BitVec.allOnes 32 <<< 20 := by decide
    rw [hmask, ← BitVec.shiftLeft_ushiftRight, BitVec.toNat_shiftLeft,
      BitVec.toNat_ushiftRight, Nat.shiftRight_eq_div_pow, Nat.shiftLeft_eq]
    omega
  rw [imap, imapLoop_eq hstop hbase (by omega) (by omega)]
  rfl

/-! ## Sequences of calls -/

/-- Every end is low enough for the loops to leave. -/
def EndsInRange (calls : List ImapCall) : Prop :=
  ∀ c ∈ calls, c.stop.toNat ≤ 0xFFF00000

theorem imapAll_eq {calls : List ImapCall} (h : EndsInRange calls) :
    imapAll calls = .ok (calls.foldl mapSections faultTtb) := by
  have hfold : ∀ ttb, calls.foldlM imap ttb = .ok (calls.foldl mapSections ttb) := by
    induction calls with
    | nil => exact fun ttb => rfl
    | cons c calls ih =>
        intro ttb
        rw [List.foldlM_cons, imap_eq ttb (h c (List.mem_cons_self ..)), List.foldl_cons]
        exact ih (fun d hd => h d (List.mem_cons_of_mem _ hd)) _
  exact hfold faultTtb

/-- A section that no call reaches keeps its descriptor. -/
theorem foldl_mapSections_of_not_reaches {calls : List ImapCall} {i : Word}
    (h : ∀ c ∈ calls, ¬ c.Reaches i) (ttb : Ttb) :
    calls.foldl mapSections ttb i = ttb i := by
  induction calls generalizing ttb with
  | nil => rfl
  | cons c calls ih =>
      rw [List.foldl_cons, ih fun d hd => h d (List.mem_cons_of_mem _ hd)]
      exact if_neg (h c (List.mem_cons_self ..))

/-- The descriptor of a section is that of the last call that reaches it. -/
theorem foldl_mapSections_of_last {pre post : List ImapCall} {c : ImapCall} {i : Word}
    (hc : c.Reaches i) (hpost : ∀ d ∈ post, ¬ d.Reaches i) (ttb : Ttb) :
    (pre ++ c :: post).foldl mapSections ttb i = i <<< 20 ||| imapMask c.ap c.cachable := by
  rw [List.foldl_append, List.foldl_cons, foldl_mapSections_of_not_reaches hpost]
  exact if_pos hc

/-- Either no call reaches the section, or there is a last one that does. -/
theorem exists_last_reaching (calls : List ImapCall) (i : Word) :
    (∀ c ∈ calls, ¬ c.Reaches i) ∨
      ∃ pre c post, calls = pre ++ c :: post ∧ c.Reaches i ∧ ∀ d ∈ post, ¬ d.Reaches i := by
  induction calls with
  | nil => exact .inl fun c hc => by cases hc
  | cons a calls ih =>
      rcases ih with hnone | ⟨pre, c, post, rfl, hc, hpost⟩
      · by_cases ha : a.Reaches i
        · exact .inr ⟨[], a, calls, rfl, ha, hnone⟩
        · left
          intro c hc
          rcases List.mem_cons.mp hc with rfl | hc
          · exact ha
          · exact hnone c hc
      · exact .inr ⟨a :: pre, c, post, rfl, hc, hpost⟩

/-- User code gets at an address exactly when the last call that reaches its section
has the access bits of `AP_RW_RW`. -/
theorem userAccess_iff {calls : List ImapCall} (x : Word) :
    UserAccess (calls.foldl mapSections faultTtb) x ↔
      ∃ pre c post, calls = pre ++ c :: post ∧ c.ap &&& 0b11 = apRwRw ∧
        c.Reaches (l1x x) ∧ ∀ d ∈ post, ¬ d.Reaches (l1x x) := by
  constructor
  · rintro ⟨htype, haccess⟩
    rcases exists_last_reaching calls (l1x x) with hnone | ⟨pre, c, post, rfl, hc, hpost⟩
    · rw [foldl_mapSections_of_not_reaches hnone] at htype
      exact absurd htype (show ¬ l1Fault &&& l1Type = l1Section by decide)
    · rw [foldl_mapSections_of_last hc hpost] at haccess
      exact ⟨pre, c, post, rfl, (imapMask_access _ _ _).symm.trans haccess, hc, hpost⟩
  · rintro ⟨pre, c, post, rfl, hap, hc, hpost⟩
    rw [UserAccess, foldl_mapSections_of_last hc hpost]
    exact ⟨imapMask_type _ _ _, (imapMask_access _ _ _).trans hap⟩

/-- **User code gets at what was mapped for it and at nothing else** exactly when the sections
that are mapped for it last lie in the ranges mapped for it.  This is for any sequence of
calls, the one of `init_memory` with any addresses of the linker among them.  `h` keeps the
loop of `imap` from running into the end of memory, where it would not stop. -/
theorem grantsOnlyAsked_iff {calls : List ImapCall} (h : EndsInRange calls) :
    ∃ ttb, imapAll calls = .ok ttb ∧ (GrantsOnlyAsked calls ttb ↔ SectionsAsked calls) := by
  refine ⟨_, imapAll_eq h, ?_⟩
  constructor
  · intro hgrants pre c post hsplit hap x hc hpost
    exact hgrants x ((userAccess_iff x).mpr ⟨pre, c, post, hsplit, hap, hc, hpost⟩)
  · intro hasked x hx
    obtain ⟨pre, c, post, hsplit, hap, hc, hpost⟩ := (userAccess_iff x).mp hx
    exact hasked pre c post hsplit hap x hc hpost

/-! ## `init_memory` -/

/-- A call of `init_memory` for the registers of a device. -/
def deviceCall (start stop ap : Word) : ImapCall :=
  ⟨start, stop, ap, false⟩

/-- The calls of `init_memory`, with the linker's addresses of the RAM. -/
def initMemoryCalls (ramStart ramEnd : Word) : List ImapCall :=
  [⟨ramStart, ramEnd, apRwRw, true⟩,
    deviceCall 0x44E09000 0x44E0A000 apRwNo, -- UART0
    deviceCall 0x44E35000 0x44E36000 apRwNo, -- Watchdog
    deviceCall 0x48040000 0x48041000 apRwNo, -- DMTIMER2 for systick
    deviceCall 0x48200000 0x48201000 apRwNo, -- INTCPS
    deviceCall 0x47400000 0x47404000 apRwRw, -- USB
    deviceCall 0x44E31000 0x44E32000 apRwRw, -- DMTimer1
    deviceCall 0x44E09000 0x44E0A000 apRwRw, -- UART0
    deviceCall 0x44E07000 0x44E08000 apRwRw, -- GPIO0
    deviceCall 0x4804c000 0x4804d000 apRwRw, -- GPIO1
    deviceCall 0x481ac000 0x481ad000 apRwRw, -- GPIO2
    deviceCall 0x481AE000 0x481AF000 apRwRw, -- GPIO3
    deviceCall 0x48060000 0x48061000 apRwRw, -- MMCHS0
    deviceCall 0x47810000 0x47820000 apRwRw] -- MMCHS2

theorem initMemoryCalls_inRange {ramStart ramEnd : Word} (h : ramEnd.toNat ≤ 0xFFF00000) :
    EndsInRange (initMemoryCalls ramStart ramEnd) := by
  simp only [EndsInRange, initMemoryCalls, deviceCall, List.forall_mem_cons,
    List.not_mem_nil, false_imp_iff, implies_true, and_true]
  refine ⟨h, ?_⟩
  decide

/-- The watchdog and the timer of the scheduler, mapped for the kernel only, end up
accessible to user code: the sections are those of other devices, too. -/
theorem userAccess_watchdog_systick :
    ∃ ttb, imapAll (initMemoryCalls 0x80000000 0xa0000000) = .ok ttb ∧
      UserAccess ttb 0x44E35000 ∧ UserAccess ttb 0x48040000 ∧
      ¬ GrantsOnlyAsked (initMemoryCalls 0x80000000 0xa0000000) ttb := by
  have haccess : ∀ x : Word, x = 0x44E35000 ∨ x = 0x48040000 →
      UserAccess ((initMemoryCalls 0x80000000 0xa0000000).foldl mapSections faultTtb) x := by
    rintro x (rfl | rfl) <;> exact ⟨by decide +kernel, by decide +kernel⟩
  refine ⟨_, imapAll_eq (initMemoryCalls_inRange (by decide)), haccess _ (.inl rfl),
    haccess _ (.inr rfl), fun hgrants => ?_⟩
  obtain ⟨c, hc, hap, hcovers⟩ := hgrants _ (haccess 0x44E35000 (.inl rfl))
  have hnone : ∀ c ∈ initMemoryCalls 0x80000000 0xa0000000,
      c.ap = apRwRw → ¬ c.Covers 0x44E35000 := by
    decide
  exact hnone c hc hap hcovers

/-- Before any device is mapped for user code, it gets at the RAM and nothing else. -/
theorem grantsOnlyAsked_before_devices :
    ∃ ttb, imapAll ((initMemoryCalls 0x80000000 0xa0000000).take 5) = .ok ttb ∧
      GrantsOnlyAsked ((initMemoryCalls 0x80000000 0xa0000000).take 5) ttb := by
  have hrange : EndsInRange (initMemoryCalls 0x80000000 0xa0000000) :=
    initMemoryCalls_inRange (by decide)
  obtain ⟨ttb, himap, hiff⟩ :=
    grantsOnlyAsked_iff fun c hc => hrange c (List.mem_of_mem_take hc)
  refine ⟨ttb, himap, hiff.mpr ?_⟩
  intro pre c post hsplit hap x hc _
  -- the one call with these access bits is that of the RAM, a range of whole sections
  have hram : ∀ c ∈ (initMemoryCalls 0x80000000 0xa0000000).take 5, c.ap &&& 0b11 = apRwRw →
      c.ap = apRwRw ∧ c.start = 0x80000000 ∧ c.stop = 0xa0000000 := by
    decide
  have hmem : c ∈ (initMemoryCalls 0x80000000 0xa0000000).take 5 := by
    rw [hsplit]
    exact List.mem_append_right _ (List.mem_cons_self ..)
  obtain ⟨hap', hstart, hstop⟩ := hram c hmem hap
  refine ⟨c, hmem, hap', ?_⟩
  obtain ⟨hfrom, hto⟩ := hc
  rw [toNat_l1x] at hfrom hto
  rw [ImapCall.Covers, BitVec.le_def, BitVec.lt_def, hstart, hstop]
  rw [hstart] at hfrom
  rw [hstop] at hto
  have h₁ : (0x80000000 : Word).toNat = 0x80000000 := rfl
  have h₂ : (0xa0000000 : Word).toNat = 0xa0000000 := rfl
  omega

end Omb
