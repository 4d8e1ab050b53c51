import Omb.Am335x.IoRequests

/-!
# What `get_io` keeps of a section

`get_io` keeps what is before a range in the section it found, and gives what is behind it to
`addr_add`, which needs an empty slot or a page for a new holder (`HasRoom`).  `addr_add` has
no way to say that it found neither: the end of the section is then lost.

`cover_getIo` says exactly which addresses are free after a call, for any request, one that
wraps around too.  It counts: an address that is in two sections is free still when one of
them has been given away.  `nothingLost_iff` draws from it when the free addresses are those
before without the range.

The slot that was found may be empty, for a request that wraps around, and then `addr_add` may
put the end of the section into this very slot before it is changed (`slot_addTail`).  This is
why the pieces are stated of the section as it was found, and not of what is in the slot.

`second_page_lost` is a list with all slots in use and no RAM: the first page of a section of
two is given away, and the second one is gone.

## Main results

* `cover_getIo`: the free addresses after `get_io`
* `cover_given`: where they go, for a request that does not wrap around
* `nothingLost_iff`: when no free range is lost
-/

namespace Omb

open Cover

variable {st : Sections}

/-! ## Room in the device list -/

/-- The address is in a free section. -/
def IsFree (hs : List SectionHolder) (x : ℕ) : Prop :=
  ∃ s ∈ slots hs, s.extent.Has x

instance (hs : List SectionHolder) (x : ℕ) : Decidable (IsFree hs x) :=
  inferInstanceAs (Decidable (∃ s ∈ slots hs, s.extent.Has x))

theorem isFree_iff {hs : List SectionHolder} {x : ℕ} :
    IsFree hs x ↔ 0 < cover (freeExtents hs) x := by
  rw [cover, List.countP_pos_iff]
  simp [IsFree, freeExtents]

/-- `addr_add` can put a range into the device list: there is an empty slot, or a page for a
new holder. -/
def HasRoom (st : Sections) : Prop :=
  findSlot (fun s => s.len = 0) st.io ≠ none ∨ (getRam st pageSize).1 ≠ nil

instance (st : Sections) : Decidable (HasRoom st) :=
  inferInstanceAs (Decidable (_ ∨ _))

/-- With room the list has the range in addition. -/
theorem cover_addrAdd (hio : st.io ≠ []) (hroom : HasRoom st) (start len : Word) (x : ℕ) :
    cover (freeExtents (addrAdd st .io start len).io) x =
      cover (freeExtents st.io) x + cover [addresses start len] x := by
  rw [addrAdd]
  cases hfind : findSlot (fun s => s.len = 0) (st.holders .io) with
  | some k =>
      obtain ⟨s, hk, hs⟩ := findSlot_some hfind
      have hmod := cover_modifySlot (fun _ => ⟨start, len⟩) hk x
      rw [cover_empty_section (of_decide_eq_true hs)] at hmod
      exact hmod
  | none =>
      have hpage : (getRam st pageSize).1 ≠ nil := hroom.resolve_left fun h => h hfind
      have hsome : ¬ (st.holders .io).isEmpty := by
        rw [List.isEmpty_iff]
        exact hio
      simp only [if_neg hsome, if_neg hpage]
      have hkept := getRam_io st pageSize
      simp only [Sections.setHolders, Sections.holders, hkept, freeExtents_append, cover_append,
        cover_newHolder]

/-- Without it nothing changes, and `addr_add` returns as if it had. -/
theorem io_addrAdd_of_noRoom (hroom : ¬ HasRoom st) (start len : Word) :
    (addrAdd st .io start len).io = st.io := by
  rw [HasRoom, not_or, not_not, not_not] at hroom
  obtain ⟨hslot, hpage⟩ := hroom
  have hslot' : findSlot (fun s => s.len = 0) (st.holders .io) = none := hslot
  rw [addrAdd, hslot']
  simp only
  split_ifs
  · rfl
  · exact getRam_io st pageSize

/-! ## The pieces of a section -/

/-- There is something behind the range. -/
def RangeSection.HasRest (s : RangeSection) (addr len : Word) : Prop :=
  addr + len < s.start + s.len

instance (s : RangeSection) (addr len : Word) : Decidable (s.HasRest addr len) :=
  inferInstanceAs (Decidable (_ < _))

/-- What is kept of the section `s` behind the range, if there is room for it. -/
def restExtents (st : Sections) (addr len : Word) (s : RangeSection) : List (Extent ℕ) :=
  if s.HasRest addr len ∧ HasRoom st then [⟨(addr + len).toNat, (s.start + s.len).toNat⟩] else []

/-- What is kept of it: the addresses before the range, and those behind it.  They are the
section without the range where nothing wraps around. -/
def keptExtents (st : Sections) (addr len : Word) (s : RangeSection) : List (Extent ℕ) :=
  ⟨s.start.toNat, addr.toNat⟩ :: restExtents st addr len s

/-- The range of two words in order. -/
theorem addresses_sub {a b : Word} (h : a ≤ b) : addresses a (b - a) = ⟨a.toNat, b.toNat⟩ := by
  rw [addresses, BitVec.toNat_sub_of_le h]
  rw [BitVec.le_def] at h
  rw [Nat.add_sub_cancel' h]

/-- The device list when the end of a section has been given to `addr_add`. -/
theorem cover_addTail (hio : st.io ≠ []) (addr len : Word) (s : RangeSection) (x : ℕ) :
    cover (freeExtents (addTail st addr len s).io) x =
      cover (freeExtents st.io) x + cover (restExtents st addr len s) x := by
  rw [addTail, restExtents]
  by_cases hrest : s.HasRest addr len
  · rw [if_pos (show addr + len < s.start + s.len from hrest)]
    by_cases hroom : HasRoom st
    · have htail : s.start + s.len - addr - len = s.start + s.len - (addr + len) :=
        BitVec.sub_sub _ _ _
      rw [if_pos ⟨hrest, hroom⟩, cover_addrAdd hio hroom, htail,
        addresses_sub (BitVec.le_of_lt hrest)]
    · rw [if_neg fun h => hroom h.2, io_addrAdd_of_noRoom hroom, cover_nil, Nat.add_zero]
  · rw [if_neg (show ¬ addr + len < s.start + s.len from hrest), if_neg fun h => hrest h.1,
      cover_nil, Nat.add_zero]

/-- The slot that was found, when the end of its section has been given to `addr_add`: an
empty one may have got it. -/
theorem slot_addTail (addr len : Word) {k : ℕ} {s : RangeSection}
    (hk : (slots st.io)[k]? = some s) :
    (slots (addTail st addr len s).io)[k]? = some s ∨
      s.len = 0 ∧ s.HasRest addr len ∧ (slots (addTail st addr len s).io)[k]? =
        some ⟨addr + len, s.start + s.len - addr - len⟩ := by
  by_cases hlen : s.len = 0
  · rw [addTail]
    by_cases hrest : s.HasRest addr len
    · rw [if_pos (show addr + len < s.start + s.len from hrest)]
      rcases io_addrAdd st (addr + len) (s.start + s.len - addr - len) with
        hio | ⟨j, s', hj, -, hio⟩ | ⟨page, hio⟩
      · rw [hio]
        exact .inl hk
      · rw [hio, slots_modifySlot]
        rcases eq_or_ne j k with rfl | hne
        · refine .inr ⟨hlen, hrest, ?_⟩
          rw [List.getElem?_modify_eq, hj]
          rfl
        · left
          rw [List.getElem?_modify_ne _ _ hne, hk]
      · left
        rw [hio, slots_append, List.getElem?_append_left (List.getElem?_eq_some_iff.mp hk).1, hk]
    · rw [if_neg (show ¬ addr + len < s.start + s.len from hrest)]
      exact .inl hk
  · exact .inl ((addsIo_addTail st addr len s).kept hk hlen)

/-- What `get_io` finds: the first slot that passes its test, and the section in it. -/
structure Finds (st : Sections) (addr len : Word) (k : ℕ) (s : RangeSection) : Prop where
  find : findSlot (RangeSection.offers addr len) st.io = some k
  slot : (slots st.io)[k]? = some s

theorem Finds.offers {addr len : Word} {k : ℕ} {s : RangeSection} (h : Finds st addr len k s) :
    s.offers addr len := by
  obtain ⟨s', hk, hs⟩ := findSlot_some h.find
  obtain rfl : s = s' := Option.some.inj (h.slot.symm.trans hk)
  exact hs

theorem finds_of_find {addr len : Word} {k : ℕ}
    (h : findSlot (RangeSection.offers addr len) st.io = some k) : ∃ s, Finds st addr len k s := by
  obtain ⟨s, hk, -⟩ := findSlot_some h
  exact ⟨s, h, hk⟩

theorem Finds.getIo_eq {addr len : Word} {k : ℕ} {s : RangeSection} (h : Finds st addr len k s) :
    getIo st addr len = (addr,
      { addTail st addr len s with
        io := modifySlot (fun s => { s with len := addr - s.start }) k
          (addTail st addr len s).io }) := by
  simp only [getIo, h.find, h.slot]

theorem getIo_of_none {addr len : Word}
    (h : findSlot (RangeSection.offers addr len) st.io = none) : getIo st addr len = (nil, st) := by
  simp only [getIo, h]

theorem Finds.io_ne {addr len : Word} {k : ℕ} {s : RangeSection} (h : Finds st addr len k s) :
    st.io ≠ [] := by
  intro hio
  have hslot := h.slot
  rw [hio] at hslot
  cases hslot

/-- **The free addresses after `get_io`**: those before, with the pieces that are kept in
place of the section it found.  It is stated without subtraction, so that both sides are
natural numbers. -/
theorem cover_getIo {addr len : Word} {k : ℕ} {s : RangeSection} (h : Finds st addr len k s)
    (x : ℕ) :
    cover (freeExtents (getIo st addr len).2.io) x + cover [s.extent] x =
      cover (freeExtents st.io) x + cover (keptExtents st addr len s) x := by
  have hfrom : s.start ≤ addr := (of_decide_eq_true h.offers).1
  have htail := cover_addTail h.io_ne addr len s x
  have hkept := cover_cons ⟨s.start.toNat, addr.toNat⟩ (restExtents st addr len s) x
  rw [h.getIo_eq, keptExtents, hkept]
  rcases slot_addTail addr len h.slot with hk | ⟨hlen, hrest, hk⟩
  · have hmod := cover_modifySlot (fun s => { s with len := addr - s.start }) hk x
    have hhead : (RangeSection.mk s.start (addr - s.start)).extent = ⟨s.start.toNat, addr.toNat⟩ :=
      addresses_sub hfrom
    rw [hhead] at hmod
    simp only
    omega
  · -- the slot was empty and has the end of the section now, which is before its start
    have hmod := cover_modifySlot (fun s => { s with len := addr - s.start }) hk x
    have hstop : s.start + s.len = s.start := by
      rw [hlen]
      exact BitVec.add_zero _
    rw [RangeSection.HasRest, hstop] at hrest
    have hle : addr + len ≤ addr := BitVec.le_trans (BitVec.le_of_lt hrest) hfrom
    have hend : s.start + s.len - addr - len = s.start - (addr + len) := by
      rw [hstop]
      exact BitVec.sub_sub _ _ _
    have hnew : (RangeSection.mk (addr + len) (addr - (addr + len))).extent =
        ⟨(addr + len).toNat, addr.toNat⟩ := addresses_sub hle
    have hold : (RangeSection.mk (addr + len) (s.start - (addr + len))).extent =
        ⟨(addr + len).toNat, s.start.toNat⟩ := addresses_sub (BitVec.le_of_lt hrest)
    rw [hend] at hmod
    rw [hnew, hold] at hmod
    have hcut := cover_cut (a := (addr + len).toNat) (b := s.start.toNat) (c := addr.toNat)
      (BitVec.le_def.mp (BitVec.le_of_lt hrest)) (BitVec.le_def.mp hfrom) x
    rw [cover_empty_section hlen]
    simp only
    omega

/-! ## Requests that do not wrap around -/

/-- Where a range is in the section that offers it.  Neither the section nor its end wraps
around then. -/
theorem offers_toNat {s : RangeSection} {addr len : Word} (hs : s.offers addr len) (hne : len ≠ 0)
    (hadd : addr.toNat + len.toNat < 2 ^ 32) :
    s.start.toNat ≤ addr.toNat ∧ (addr + len).toNat = addr.toNat + len.toNat ∧
      (s.start + s.len).toNat = s.start.toNat + s.len.toNat ∧
      addr.toNat + len.toNat ≤ s.start.toNat + s.len.toNat ∧
      s.start.toNat + s.len.toNat < 2 ^ 32 := by
  obtain ⟨hfrom, hto⟩ := of_decide_eq_true hs
  have hpos : 0 < len.toNat := Nat.pos_of_ne_zero fun h0 => hne (BitVec.eq_of_toNat_eq h0)
  have hlt := s.len.isLt
  have hlt' := s.start.isLt
  rw [BitVec.le_def] at hfrom hto
  rw [BitVec.toNat_add, BitVec.toNat_add] at hto
  have hstop : (addr + len).toNat = addr.toNat + len.toNat := by
    rw [BitVec.toNat_add]
    omega
  have hin : s.start.toNat + s.len.toNat < 2 ^ 32 := by omega
  refine ⟨hfrom, hstop, ?_, by omega, hin⟩
  rw [BitVec.toNat_add]
  omega

/-- The pieces of a section. -/
theorem cover_section {s : RangeSection} {addr len : Word} (hs : s.offers addr len) (hne : len ≠ 0)
    (hadd : addr.toNat + len.toNat < 2 ^ 32) (x : ℕ) :
    cover [s.extent] x = cover [⟨s.start.toNat, addr.toNat⟩] x + cover [addresses addr len] x +
      cover [⟨(addr + len).toNat, (s.start + s.len).toNat⟩] x := by
  obtain ⟨hfrom, hstop, hend, hto, -⟩ := offers_toNat hs hne hadd
  have hcut₁ := cover_cut (a := s.start.toNat) (b := addr.toNat)
    (c := s.start.toNat + s.len.toNat) hfrom (by omega) x
  have hcut₂ := cover_cut (a := addr.toNat) (b := addr.toNat + len.toNat)
    (c := s.start.toNat + s.len.toNat) (Nat.le_add_right _ _) hto x
  rw [hstop, hend, RangeSection.extent, addresses, addresses]
  omega

/-- The part of a section that is lost for want of room: all that is behind the range. -/
def lostExtents (st : Sections) (addr len : Word) (s : RangeSection) : List (Extent ℕ) :=
  if s.HasRest addr len ∧ ¬ HasRoom st then [⟨(addr + len).toNat, (s.start + s.len).toNat⟩] else []

/-- **Where the free addresses go**: each is still free, or in the range, or lost.  With room
nothing is lost. -/
theorem cover_given {addr len : Word} {k : ℕ} {s : RangeSection} (h : Finds st addr len k s)
    (hne : len ≠ 0) (hadd : addr.toNat + len.toNat < 2 ^ 32) (x : ℕ) :
    cover (freeExtents (getIo st addr len).2.io) x + cover [addresses addr len] x +
        cover (lostExtents st addr len s) x = cover (freeExtents st.io) x := by
  have hafter := cover_getIo h x
  have hpieces := cover_section h.offers hne hadd x
  have hkept := cover_cons ⟨s.start.toNat, addr.toNat⟩ (restExtents st addr len s) x
  have hrest : cover (restExtents st addr len s) x + cover (lostExtents st addr len s) x =
      cover [⟨(addr + len).toNat, (s.start + s.len).toNat⟩] x := by
    rw [restExtents, lostExtents]
    by_cases hbehind : s.HasRest addr len
    · by_cases hroom : HasRoom st
      · rw [if_pos ⟨hbehind, hroom⟩, if_neg fun h => h.2 hroom, cover_nil, Nat.add_zero]
      · rw [if_neg fun h => hroom h.2, if_pos ⟨hbehind, hroom⟩, cover_nil, Nat.zero_add]
    · have hempty := cover_empty
        (e := ⟨(addr + len).toNat, (s.start + s.len).toNat⟩) (Nat.le_of_not_lt hbehind) x
      rw [if_neg fun h => hbehind h.1, if_neg fun h => hbehind h.1, hempty, cover_nil]
  rw [keptExtents, hkept] at hafter
  omega

/-! ## No range is lost -/

/-- No free address gets lost in a call of `get_io`: after one that gives a range away the
free addresses are those before without the range; one that gives nothing away leaves the list
as it was, and so does one that has no room for what is behind the range, which it refuses. -/
structure NothingLost (st : Sections) (addr len : Word) : Prop where
  given : (getIo st addr len).1 ≠ nil → ∀ x, IsFree (getIo st addr len).2.io x ↔
    IsFree st.io x ∧ ¬ (addresses addr len).Has x
  refused : (getIo st addr len).1 = nil → (getIo st addr len).2.io = st.io
  unrecorded : ∀ k s, Finds st addr len k s → s.HasRest addr len → ¬ HasRoom st →
    (getIo st addr len).1 = nil ∧ (getIo st addr len).2.io = st.io

/-- **When no free range is lost**: if no section is found, or the request is not for address
0, there is room for what is behind the range, and no address of the range is in two sections.
The last is so of lists that come from regions apart, but for the page that is published
twice. -/
theorem nothingLost_iff (st : Sections) {addr len : Word} (hne : len ≠ 0)
    (hadd : addr.toNat + len.toNat < 2 ^ 32) :
    NothingLost st addr len ↔ findSlot (RangeSection.offers addr len) st.io = none ∨
      addr ≠ nil ∧ (∀ k s, Finds st addr len k s → s.HasRest addr len → HasRoom st) ∧
        ∀ x, (addresses addr len).Has x → cover (freeExtents st.io) x ≤ 1 := by
  rcases hfind : findSlot (RangeSection.offers addr len) st.io with _ | k
  · refine iff_of_true ?_ (.inl rfl)
    have hsame := getIo_of_none hfind
    refine ⟨fun hnil => absurd (congrArg Prod.fst hsame) hnil, fun _ => ?_, fun k s h => ?_⟩
    · rw [hsame]
    · have hsome := h.find
      rw [hfind] at hsome
      cases hsome
  · obtain ⟨s, h⟩ := finds_of_find hfind
    have hret : (getIo st addr len).1 = addr := congrArg Prod.fst h.getIo_eq
    have hafter := cover_given h hne hadd
    rw [or_iff_right (Option.some_ne_none k)]
    constructor
    · intro hlost
      have hnil : addr ≠ nil := by
        rintro rfl
        have hlist := hlost.refused hret
        rw [h.getIo_eq] at hlist
        obtain ⟨-, -, -, -, hin⟩ := offers_toNat h.offers hne hadd
        exact changed_of_nil h.slot h.offers hin hne hlist
      refine ⟨hnil, fun k' s' h' hrest => ?_, fun x hx => ?_⟩
      · by_contra hroom
        exact hnil (hret.symm.trans (hlost.unrecorded k' s' h' hrest hroom).1)
      · -- it is not free afterwards, and not lost
        have hgone : ¬ IsFree (getIo st addr len).2.io x := fun hfree =>
          ((hlost.given (by rwa [hret]) x).mp hfree).2 hx
        rw [isFree_iff, Nat.pos_iff_ne_zero, not_not] at hgone
        have hcount := hafter x
        have hroom : lostExtents st addr len s = [] := by
          rw [lostExtents, if_neg]
          rintro ⟨hrest, hroom⟩
          exact hnil (hret.symm.trans (hlost.unrecorded k s h hrest hroom).1)
        rw [hgone, hroom, cover_nil, cover_singleton, if_pos hx] at hcount
        omega
    · rintro ⟨hnil, hroom, honce⟩
      refine ⟨fun _ x => ?_, fun hret' => absurd (hret.symm.trans hret') hnil,
        fun k' s' h' hrest hno => absurd (hroom k' s' h' hrest) hno⟩
      have hcount := hafter x
      have hlost : lostExtents st addr len s = [] := by
        rw [lostExtents, if_neg]
        rintro ⟨hrest, hno⟩
        exact hno (hroom k s h hrest)
      rw [hlost, cover_nil, cover_singleton] at hcount
      rw [isFree_iff, isFree_iff]
      by_cases hx : (addresses addr len).Has x
      · have hle := honce x hx
        rw [if_pos hx] at hcount
        exact iff_of_false (by omega) fun hand => hand.2 hx
      · rw [if_neg hx] at hcount
        rw [and_iff_left hx]
        omega

/-- Half of the registers of UART0. -/
theorem half_uart_given : NothingLost uartFree 0x44E09000 0x800 := by
  refine (nothingLost_iff uartFree (by decide) (by decide)).mpr (.inr ⟨by decide, fun _ _ _ _ => ?_,
    fun x _ => ?_⟩)
  · decide +kernel
  · have hroom : HasRoom { ram := [], io := [newHolder 0x88000000] } := by decide +kernel
    rw [uartFree, cover_addrAdd (List.cons_ne_nil _ _) hroom, cover_newHolder_zero, Nat.zero_add,
      cover_singleton]
    split_ifs
    · exact Nat.le_refl _
    · exact Nat.zero_le _

/-- A device list with 511 sections of two pages, all slots in use, and no RAM. -/
def fullList : Sections where
  ram := []
  io :=
    [{ addr := 0x88000000
       sections := (List.range nsections).map fun i =>
        ⟨0x40000000 + 0x4000 * BitVec.ofNat 32 i, 0x2000⟩ }]

/-- The first page of a section is given away, and the second one is lost. -/
theorem second_page_lost :
    (getIo fullList 0x40000000 0x1000).1 = 0x40000000 ∧ IsFree fullList.io 0x40001000 ∧
      ¬ IsFree (getIo fullList 0x40000000 0x1000).2.io 0x40001000 ∧
      ¬ NothingLost fullList 0x40000000 0x1000 := by
  have hret : (getIo fullList 0x40000000 0x1000).1 = 0x40000000 := by decide +kernel
  refine ⟨hret, by decide +kernel, by decide +kernel, fun hlost => ?_⟩
  have hfind : findSlot (RangeSection.offers 0x40000000 0x1000) fullList.io = some 0 := by
    decide +kernel
  obtain ⟨s, hfinds⟩ := finds_of_find hfind
  have hslot : ((slots fullList.io)[0]?).map (fun s => (s.start, s.len)) =
      some (0x40000000, 0x2000) := by decide +kernel
  rw [hfinds.slot, Option.map_some, Option.some_inj, Prod.mk.injEq] at hslot
  have hrest : s.HasRest 0x40000000 0x1000 := by
    rw [RangeSection.HasRest, hslot.1, hslot.2]
    decide
  have hnil := (hlost.unrecorded 0 s hfinds hrest (by decide +kernel)).1
  rw [hret] at hnil
  exact absurd hnil (by decide)

end Omb
