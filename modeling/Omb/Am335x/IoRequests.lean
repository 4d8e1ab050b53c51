import Omb.Am335x.Devices

/-!
# Device requests that wrap around

`get_io` compares `addr + len` with the end of a section as 32-bit numbers.  A request that
wraps around has a small end, so any section that starts low enough passes the test, an empty
one too: the range is given away although nobody had it, and what is left of the section grows
(`wrapped_request_given`).

`untricked_iff` says for which requests `get_io` does what it should: those that no slot
passes, and those that do not wrap and are not for address 0, which is also the answer for a
request that is refused.

That the sections themselves do not wrap around is assumed (`IoInRange`), as of one that does
it cannot be said which addresses are in it.  The sections that the kernel publishes are so.

Requests of length 0 do not come here: `handle_addr_request` turns them away before.

## Main results

* `offers_within`: a range that does not wrap around is in the section that offers it
* `untricked_iff`: when `get_io` is not tricked
-/

namespace Omb

open Cover

variable {st : Sections}

/-- The addresses are in one section of the list, which as a range is that of natural numbers:
it does not wrap around. -/
def InSection (hs : List SectionHolder) (e : Extent ℕ) : Prop :=
  ∃ s ∈ slots hs, e.Within s.extent

/-- What `get_io` gives away was in one free section, and so was each section it leaves; if it
gives nothing away it leaves the list as it was. -/
structure Untricked (st : Sections) (addr len : Word) : Prop where
  given : (getIo st addr len).1 ≠ nil → InSection st.io (addresses addr len)
  left : (getIo st addr len).1 ≠ nil →
    ∀ s ∈ slots (getIo st addr len).2.io, s.len ≠ 0 → InSection st.io s.extent
  refused : (getIo st addr len).1 = nil → (getIo st addr len).2.io = st.io

/-- A section that offers a range, with neither of them wrapping around, contains it, and what
is before and behind it. -/
theorem offers_within {s : RangeSection} {addr len : Word} (hs : s.offers addr len)
    (hin : s.start.toNat + s.len.toNat < 2 ^ 32) (hne : len ≠ 0)
    (hadd : addr.toNat + len.toNat < 2 ^ 32) :
    (addresses addr len).Within s.extent ∧
      (addresses s.start (addr - s.start)).Within s.extent ∧
      (addresses (addr + len) (s.start + s.len - addr - len)).Within s.extent := by
  obtain ⟨-, -, -, hparts⟩ := offers_parts hs hin hne hadd
  -- each part covers no address that the section does not
  have hwithin : ∀ e : Extent ℕ, (∀ x, cover [e] x ≤ cover [s.extent] x) →
      e.Within s.extent := by
    intro e hcover x hx
    by_contra hnot
    have hx' := hcover x
    rw [cover_singleton, cover_singleton, if_pos hx, if_neg hnot] at hx'
    omega
  refine ⟨hwithin _ fun x => ?_, hwithin _ fun x => ?_, hwithin _ fun x => ?_⟩
  · have hx := hparts x
    omega
  · have hx := hparts x
    omega
  · have hx := hparts x
    omega

/-- The sections a request leaves that does not wrap around: each was in one before. -/
theorem left_of_offers {addr len : Word} {k : ℕ} {s : RangeSection}
    (hk : (slots st.io)[k]? = some s) (hs : s.offers addr len)
    (hin : s.start.toNat + s.len.toNat < 2 ^ 32) (hne : len ≠ 0)
    (hadd : addr.toNat + len.toNat < 2 ^ 32) :
    ∀ s' ∈ slots (modifySlot (fun s => { s with len := addr - s.start }) k
        (addTail st addr len s).io), s'.len ≠ 0 → InSection st.io s'.extent := by
  have hmem := List.mem_of_getElem? hk
  obtain ⟨-, hhead, htail⟩ := offers_within hs hin hne hadd
  have hlen := (offers_parts hs hin hne hadd).1
  have hk' := (addsIo_addTail st addr len s).kept hk hlen
  have hbefore : ∀ s' ∈ slots st.io, s'.len ≠ 0 → InSection st.io s'.extent :=
    fun s' hs' _ => ⟨s', hs', fun _ hx => hx⟩
  refine forall_slots_modifySlot hk' (fun _ => ⟨s, hmem, hhead⟩) ?_
  rw [addTail]
  split_ifs
  · exact forall_slots_addrAdd hbefore (fun _ => ⟨s, hmem, htail⟩) fun h0 => absurd rfl h0
  · exact hbefore

/-- A request for address 0 is answered as one that is refused, but takes its section away.
The slot that was found has another length afterwards. -/
theorem changed_of_nil {len : Word} {k : ℕ} {s : RangeSection}
    (hk : (slots st.io)[k]? = some s) (hs : s.offers nil len)
    (hin : s.start.toNat + s.len.toNat < 2 ^ 32) (hne : len ≠ 0) :
    modifySlot (fun s => { s with len := nil - s.start }) k (addTail st nil len s).io ≠ st.io := by
  have hlen := (offers_parts hs hin hne (by simpa using len.isLt)).1
  have hstart : s.start = 0 := by
    have hle := (of_decide_eq_true hs).1
    rw [BitVec.le_def] at hle
    exact BitVec.eq_of_toNat_eq (Nat.le_zero.mp hle)
  have hk' := (addsIo_addTail st nil len s).kept hk hlen
  intro heq
  have hslot : (slots (modifySlot (fun s => { s with len := nil - s.start }) k
      (addTail st nil len s).io))[k]? = some s := by
    rw [heq]
    exact hk
  rw [slots_modifySlot, List.getElem?_modify_eq, hk'] at hslot
  have hsame : nil - s.start = s.len := congrArg RangeSection.len (Option.some.inj hslot)
  rw [hstart] at hsame
  exact hlen (hsame.symm.trans (by decide))

/-- **When `get_io` is not tricked**: if no slot passes its test, or the request is not for
address 0 and does not wrap around.  Both conditions are on what is asked for and on the slots
before the call. -/
theorem untricked_iff (hin : IoInRange st.io) {addr len : Word} (hne : len ≠ 0) :
    Untricked st addr len ↔ findSlot (RangeSection.offers addr len) st.io = none ∨
      addr ≠ nil ∧ addr.toNat + len.toNat < 2 ^ 32 := by
  rcases getIo_cases st addr len with ⟨hnone, h⟩ | ⟨k, s, hk, hs, h⟩
  · refine iff_of_true ⟨?_, ?_, ?_⟩ (.inl hnone)
    · rw [h]
      exact fun hnil => absurd rfl hnil
    · rw [h]
      exact fun hnil => absurd rfl hnil
    · rw [h]
      exact fun _ => rfl
  · have hsec := hin s (List.mem_of_getElem? hk)
    constructor
    · intro huntricked
      refine .inr ⟨?_, ?_⟩
      · rintro rfl
        have hrefused := huntricked.refused
        rw [h] at hrefused
        exact changed_of_nil hk hs hsec hne (hrefused rfl)
      · by_contra hwraps
        have hnil : addr ≠ nil := by
          rintro rfl
          exact hwraps (by simpa using len.isLt)
        have hgiven := huntricked.given
        rw [h] at hgiven
        obtain ⟨s', hs', hwithin⟩ := hgiven hnil
        -- the last address of the range is in no section
        have hpos : 0 < len.toNat := Nat.pos_of_ne_zero fun h0 => hne (BitVec.eq_of_toNat_eq h0)
        have hlast := (hwithin (addr.toNat + len.toNat - 1)
          ⟨by simp only [addresses]; omega, by simp only [addresses]; omega⟩).2
        have hend := hin s' hs'
        simp only [RangeSection.extent, addresses] at hlast
        omega
    · intro hcond
      have hnone : findSlot (RangeSection.offers addr len) st.io ≠ none := by
        intro hnone
        have hall := List.findIdx?_eq_none_iff.mp hnone s (List.mem_of_getElem? hk)
        rw [hs] at hall
        cases hall
      obtain ⟨hnil, hadd⟩ := hcond.resolve_left hnone
      refine ⟨fun _ => ?_, fun _ => ?_, fun hret => ?_⟩
      · exact ⟨s, List.mem_of_getElem? hk, (offers_within hs hsec hne hadd).1⟩
      · rw [h]
        exact left_of_offers hk hs hsec hne hadd
      · rw [h] at hret
        exact absurd hret hnil

/-- A device list of one holder, with the registers of UART0 free. -/
def uartFree : Sections :=
  addrAdd { ram := [], io := [newHolder 0x88000000] } .io 0x44E09000 0x1000

theorem end_le_of_mem_uartFree {s : RangeSection} (h : s ∈ slots uartFree.io) :
    s.start.toNat + s.len.toNat ≤ 0x44E0A000 := by
  have hnew : (0x44E09000 : Word).toNat + (0x1000 : Word).toNat ≤ 0x44E0A000 := Nat.le_refl _
  have hempty : ∀ s ∈ slots [newHolder 0x88000000],
      s.start.toNat + s.len.toNat ≤ 0x44E0A000 := fun s hs => by
    rw [mem_slots_newHolder hs]
    exact Nat.zero_le _
  unfold uartFree at h
  exact forall_slots_addrAdd (P := fun s => s.start.toNat + s.len.toNat ≤ 0x44E0A000)
    hempty hnew (Nat.zero_le _) s h

/-- The registers are given to who asks for them. -/
theorem uart_given : Untricked uartFree 0x44E09000 0x1000 := by
  have hin : IoInRange uartFree.io := fun s hs => by
    have hend := end_le_of_mem_uartFree hs
    omega
  exact (untricked_iff hin (by decide)).mpr (.inr (by decide))

/-- The last page of the address space is given away, and is in no section.  The slot that
passes the test for it is the first one that is empty. -/
theorem wrapped_request_given :
    (getIo uartFree 0xFFFFF000 0x1000).1 = 0xFFFFF000 ∧
      ¬ InSection uartFree.io (addresses 0xFFFFF000 0x1000) ∧
      ¬ Untricked uartFree 0xFFFFF000 0x1000 := by
  have hret : (getIo uartFree 0xFFFFF000 0x1000).1 = 0xFFFFF000 := by
    decide +kernel
  have hnot : ¬ InSection uartFree.io (addresses 0xFFFFF000 0x1000) := by
    rintro ⟨s, hs, hwithin⟩
    have hstart := (hwithin 0xFFFFF000 ⟨by decide, by decide⟩).2
    have hend := end_le_of_mem_uartFree hs
    simp only [RangeSection.extent, addresses] at hstart
    omega
  refine ⟨hret, hnot, fun huntricked => hnot (huntricked.given ?_)⟩
  rw [hret]
  decide

end Omb
