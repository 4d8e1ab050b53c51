import Omb.Am335x.Proc0
import Omb.Lib.Run
import Mathlib.Data.List.Basic

/-!
# What proc0 gives away

`get_ram` cuts a range off the end of a section, `addr_add` puts a range into a free slot and
takes the page of a new holder out of the RAM list when there is none, and `get_io` leaves the
two ends of a section.  None of them makes an address belong to more than it belonged to
before: the free sections, the pages of the holders and the ranges given away cover no address
more often than the published regions do (`getRam_spec`, `addrAdd_ram`, `getIo_ram`, and over
boot and runs `boot_keeps` and `run_keeps`).

For regions that are pairwise apart this makes all of them pairwise apart
(`ram_never_given_twice`).  What the regions have to be for that is `RamPublished`, and the
kernel publishes its RAM so (`ramPublished_publishedRegions`), wherever the linker puts
things.

Covers count, so that nothing needs to be said of where in the lists a range is, nor of how it
has been cut.  What does need an invariant is that sections are whole pages of one region each
(`RamWellFormed`): the page of a new holder is cut off as a range for a client would be.

Ranges that are lost, because a list is full, are in no cover, and cover less than before.

## Main results

* `getRam_spec`, `addrAdd_ram`, `getIo_ram`: what the functions do to the RAM
* `boot_keeps`, `run_keeps`: the same over boot and over runs
* `ram_never_given_twice`: RAM is never given away twice
-/

namespace Omb

open Cover

/-! ## Slots as one list -/

@[simp] theorem slots_nil : slots [] = [] := rfl

@[simp] theorem slots_cons (h : SectionHolder) (hs : List SectionHolder) :
    slots (h :: hs) = h.sections ++ slots hs :=
  List.flatMap_cons

@[simp] theorem slots_append (hs hs' : List SectionHolder) :
    slots (hs ++ hs') = slots hs ++ slots hs' :=
  List.flatMap_append

theorem slots_modifySlot (f : RangeSection → RangeSection) (k : ℕ) (hs : List SectionHolder) :
    slots (modifySlot f k hs) = (slots hs).modify k f := by
  induction hs generalizing k with
  | nil => simp [modifySlot]
  | cons h hs ih =>
      rw [modifySlot]
      apply List.ext_getElem?
      intro j
      split_ifs with hk
      · rw [slots_cons, slots_cons]
        grind
      · rw [slots_cons, slots_cons, ih]
        grind

@[simp] theorem map_addr_modifySlot (f : RangeSection → RangeSection) (k : ℕ)
    (hs : List SectionHolder) :
    (modifySlot f k hs).map SectionHolder.addr = hs.map SectionHolder.addr := by
  induction hs generalizing k with
  | nil => rfl
  | cons h hs ih =>
      rw [modifySlot]
      split_ifs
      · rfl
      · rw [List.map_cons, List.map_cons, ih]

theorem findSlot_some {p : RangeSection → Bool} {hs : List SectionHolder} {k : ℕ}
    (h : findSlot p hs = some k) : ∃ s, (slots hs)[k]? = some s ∧ p s = true := by
  obtain ⟨hlt, hp, -⟩ := List.findIdx?_eq_some_iff_getElem.mp h
  exact ⟨_, List.getElem?_eq_getElem hlt, hp⟩

/-- What holds of every slot still does when the changed one keeps it. -/
theorem forall_slots_modifySlot {P : RangeSection → Prop} {f : RangeSection → RangeSection}
    {k : ℕ} {hs : List SectionHolder} {s : RangeSection} (hk : (slots hs)[k]? = some s)
    (hf : P (f s)) (h : ∀ s ∈ slots hs, P s) : ∀ s ∈ slots (modifySlot f k hs), P s := by
  intro s' hs'
  rw [slots_modifySlot] at hs'
  obtain ⟨j, hj⟩ := List.mem_iff_getElem?.mp hs'
  rw [List.getElem?_modify] at hj
  split_ifs at hj with hkj
  · subst hkj
    rw [hk] at hj
    obtain rfl : f s = s' := by simpa using hj
    exact hf
  · refine h s' (List.mem_iff_getElem?.mpr ⟨j, ?_⟩)
    simpa using hj

/-! ## Extents -/

/-- The addresses of a range, as natural numbers: one that ends with the memory does not wrap
around. -/
def addresses (start len : Word) : Extent ℕ :=
  ⟨start.toNat, start.toNat + len.toNat⟩

def RangeSection.extent (s : RangeSection) : Extent ℕ :=
  addresses s.start s.len

def Region.extent (r : Region) : Extent ℕ :=
  addresses r.start r.len

def Grant.extent (g : Grant) : Extent ℕ :=
  addresses g.start g.len

/-- The page of a holder. -/
def SectionHolder.page (h : SectionHolder) : Extent ℕ :=
  addresses h.addr pageSize

/-- What is free in a list. -/
def freeExtents (hs : List SectionHolder) : List (Extent ℕ) :=
  (slots hs).map RangeSection.extent

/-- The pages of the holders of both lists. -/
def holderPages (st : Sections) : List (Extent ℕ) :=
  (st.ram ++ st.io).map SectionHolder.page

@[simp] theorem cover_empty_section {s : RangeSection} (h : s.len = 0) (x : ℕ) :
    cover [s.extent] x = 0 :=
  cover_empty (by simp [RangeSection.extent, addresses, h]) x

theorem page_newHolder (page : Word) : (newHolder page).page = addresses page pageSize := rfl

theorem pages_modifySlot (f : RangeSection → RangeSection) (k : ℕ) (hs : List SectionHolder) :
    (modifySlot f k hs).map SectionHolder.page = hs.map SectionHolder.page := by
  have hmap : ∀ l : List SectionHolder,
      l.map SectionHolder.page = (l.map SectionHolder.addr).map fun a => addresses a pageSize :=
    fun l => by rw [List.map_map]; rfl
  rw [hmap, hmap, map_addr_modifySlot]

theorem cover_modifySlot (f : RangeSection → RangeSection) {k : ℕ} {hs : List SectionHolder}
    {s : RangeSection} (hk : (slots hs)[k]? = some s) (x : ℕ) :
    cover (freeExtents (modifySlot f k hs)) x + cover [s.extent] x =
      cover (freeExtents hs) x + cover [(f s).extent] x := by
  rw [freeExtents, freeExtents, slots_modifySlot]
  exact cover_modify RangeSection.extent f hk x

/-! ## `get_ram` -/

/-- The range is a number of whole pages of a published region of RAM, which does not begin at
nil: a section there would look like a free slot. -/
structure InRam (regions : List Region) (start len : Word) : Prop where
  aligned : start.toNat % 4096 = 0
  whole : len.toNat % 4096 = 0
  inside : ∃ r ∈ regions, r.type = .ram ∧ r.start ≠ nil ∧
    (addresses start len).Within r.extent ∧ start.toNat + len.toNat ≤ 2 ^ 32 ∧
    r.start.toNat ≤ start.toNat

/-- Every free section of RAM is such a range. -/
def RamWellFormed (regions : List Region) (hs : List SectionHolder) : Prop :=
  ∀ s ∈ slots hs, s.len ≠ 0 → InRam regions s.start s.len

variable {regions : List Region} {st st' : Sections}

theorem toNat_page : (pageSize : Word).toNat = 4096 := rfl

/-- A section cut off at its end. -/
theorem InRam.cut {start len rest : Word} (h : InRam regions start rest) (hle : len ≤ rest)
    (hne : len ≠ 0) (hlen : len.toNat % 4096 = 0) :
    InRam regions (start + (rest - len)) len ∧
      (rest - len ≠ 0 → InRam regions start (rest - len)) ∧
      start + (rest - len) ≠ nil ∧
      ∀ x, cover [addresses start (rest - len)] x +
        cover [addresses (start + (rest - len)) len] x = cover [addresses start rest] x := by
  obtain ⟨haligned, hwhole, r, hr, htype, hnil, hwithin, hwrap, hfrom⟩ := h
  rw [BitVec.le_def] at hle
  have hpos : 0 < len.toNat := Nat.pos_of_ne_zero fun h0 => hne (BitVec.eq_of_toNat_eq h0)
  have hrpos : 0 < r.start.toNat := Nat.pos_of_ne_zero fun h0 => hnil (BitVec.eq_of_toNat_eq h0)
  have hrest : (rest - len).toNat = rest.toNat - len.toNat := BitVec.toNat_sub_of_le hle
  have hstart : (start + (rest - len)).toNat = start.toNat + (rest.toNat - len.toNat) := by
    rw [BitVec.toNat_add, hrest]
    omega
  have hparts : ∀ x, cover [addresses start (rest - len)] x +
      cover [addresses (start + (rest - len)) len] x = cover [addresses start rest] x := by
    intro x
    have hcut := cover_cut (a := start.toNat)
      (b := start.toNat + (rest.toNat - len.toNat)) (c := start.toNat + rest.toNat)
      (by omega) (by omega) x
    have hend : start.toNat + (rest.toNat - len.toNat) + len.toNat =
        start.toNat + rest.toNat := by omega
    rw [addresses, addresses, addresses, hrest, hstart, hend]
    exact hcut
  refine ⟨⟨by omega, hlen, r, hr, htype, hnil, ?_, by omega, by omega⟩, fun _ =>
    ⟨haligned, by omega, r, hr, htype, hnil, ?_, by omega, hfrom⟩, ?_, hparts⟩
  · intro x hx
    refine hwithin x ⟨?_, ?_⟩
    · have hlo := hx.1
      simp only [addresses] at hlo ⊢
      omega
    · have hhi := hx.2
      simp only [addresses] at hhi ⊢
      omega
  · intro x hx
    refine hwithin x ⟨hx.1, ?_⟩
    have hhi := hx.2
    simp only [addresses] at hhi ⊢
    omega
  · intro heq
    have hzero := congrArg BitVec.toNat heq
    rw [hstart] at hzero
    simp at hzero
    omega

theorem getRam_cases (st : Sections) (len : Word) :
    getRam st len = (nil, st) ∨
      ∃ k s, (slots st.ram)[k]? = some s ∧ len ≤ s.len ∧
        getRam st len = (s.start + (s.len - len),
          { st with ram := modifySlot (fun s => { s with len := s.len - len }) k st.ram }) := by
  rw [getRam]
  cases hfind : findSlot (fun s => len ≤ s.len) st.ram with
  | none => exact .inl rfl
  | some k =>
      obtain ⟨s, hk, hle⟩ := findSlot_some hfind
      right
      refine ⟨k, s, hk, of_decide_eq_true hle, ?_⟩
      simp only [hk]

/-- What a call of `get_ram` does to the lists: the range comes off a free section, and all
else stays. -/
structure Takes (regions : List Region) (st : Sections) (len a : Word) (st' : Sections) :
    Prop where
  wellFormed : RamWellFormed regions st'.ram
  io : st'.io = st.io
  pages : st'.ram.map SectionHolder.page = st.ram.map SectionHolder.page
  block : a ≠ nil → InRam regions a len
  covered : ∀ x, cover (freeExtents st'.ram) x +
    cover ((granted .ram a len).map Grant.extent) x = cover (freeExtents st.ram) x

/-- **`get_ram`** gives away a range of a region and keeps the rest.  A length in whole pages
is needed, or sections would not be whole pages any more. -/
theorem getRam_spec (hwf : RamWellFormed regions st.ram) {len a : Word} (hne : len ≠ 0)
    (hlen : len.toNat % 4096 = 0) (h : getRam st len = (a, st')) :
    Takes regions st len a st' := by
  rcases getRam_cases st len with hnil | ⟨k, s, hk, hle, hcut⟩
  · rw [hnil] at h
    cases h
    exact ⟨hwf, rfl, rfl, fun hne => absurd rfl hne, fun x => by simp [granted]⟩
  · rw [hcut] at h
    cases h
    have hs : s.len ≠ 0 := by
      intro h0
      rw [h0, BitVec.le_def] at hle
      exact hne (BitVec.eq_of_toNat_eq (Nat.le_zero.mp hle))
    have hin := hwf s (List.mem_of_getElem? hk) hs
    obtain ⟨hblock, hrest, hnil, hcover⟩ := hin.cut hle hne hlen
    refine ⟨?_, rfl, pages_modifySlot _ _ _, fun _ => hblock, fun x => ?_⟩
    · exact forall_slots_modifySlot hk hrest hwf
    · have hmod := cover_modifySlot (fun s => { s with len := s.len - len }) hk x
      have hcut := hcover x
      rw [granted, if_neg hnil]
      simp only [RangeSection.extent] at hmod
      simp only [List.map_cons, List.map_nil, Grant.extent]
      omega

/-! ## `addr_add` -/

/-- How `addr_add(t, start, len)` leaves the lists. -/
inductive Adds (st : Sections) (t : RegionType) (start len : Word) : Sections → Prop
  /-- The list is nil. -/
  | dropped : Adds st t start len st
  /-- A free slot takes the range. -/
  | filled {k : ℕ} {s : RangeSection} (hk : (slots (st.holders t))[k]? = some s)
      (hs : s.len = 0) :
      Adds st t start len
        (st.setHolders t (modifySlot (fun _ => ⟨start, len⟩) k (st.holders t)))
  /-- The first slot of a new holder takes it. -/
  | grown {page : Word} {st₁ : Sections} (h : getRam st pageSize = (page, st₁))
      (hne : page ≠ nil) :
      Adds st t start len
        (st₁.setHolders t
          (st₁.holders t ++ modifySlot (fun _ => ⟨start, len⟩) 0 [newHolder page]))
  /-- There is no page for a new holder. -/
  | full {st₁ : Sections} (h : getRam st pageSize = (nil, st₁)) : Adds st t start len st₁

theorem adds_addrAdd (st : Sections) (t : RegionType) (start len : Word) :
    Adds st t start len (addrAdd st t start len) := by
  rw [addrAdd]
  cases hfind : findSlot (fun s => s.len = 0) (st.holders t) with
  | some k =>
      obtain ⟨s, hk, hs⟩ := findSlot_some hfind
      exact .filled hk (of_decide_eq_true hs)
  | none =>
      simp only
      split_ifs with hempty hnil
      · exact .dropped
      · refine .full ?_
        rw [← hnil]
      · exact .grown rfl hnil

/-- The slots of a new holder are free. -/
theorem getElem?_newHolder_zero (page : Word) : (slots [newHolder page])[0]? = some ⟨0, 0⟩ := by
  rfl

theorem mem_slots_newHolder {page : Word} {s : RangeSection} (h : s ∈ slots [newHolder page]) :
    s = ⟨0, 0⟩ := by
  rw [slots_cons, slots_nil, List.append_nil, newHolder] at h
  exact List.eq_of_mem_replicate h

theorem cover_newHolder_zero (page : Word) (x : ℕ) :
    cover (freeExtents [newHolder page]) x = 0 := by
  refine List.countP_eq_zero.mpr fun e he hx => ?_
  obtain ⟨s, hs, rfl⟩ := List.mem_map.mp he
  rw [mem_slots_newHolder hs] at hx
  exact Extent.not_has_of_le (Nat.le_refl _) x (of_decide_eq_true hx)

theorem cover_newHolder (page start len : Word) (x : ℕ) :
    cover (freeExtents (modifySlot (fun _ => ⟨start, len⟩) 0 [newHolder page])) x =
      cover [addresses start len] x := by
  have hmod := cover_modifySlot (fun _ => ⟨start, len⟩) (getElem?_newHolder_zero page) x
  rw [cover_newHolder_zero, cover_empty_section rfl] at hmod
  simpa [RangeSection.extent] using hmod

@[simp] theorem freeExtents_append (hs hs' : List SectionHolder) :
    freeExtents (hs ++ hs') = freeExtents hs ++ freeExtents hs' := by
  rw [freeExtents, slots_append, List.map_append]
  rfl

/-- How often an address is free RAM or in the page of a holder. -/
def kept (st : Sections) (x : ℕ) : ℕ :=
  cover (freeExtents st.ram ++ holderPages st) x

theorem kept_eq (st : Sections) (x : ℕ) :
    kept st x = cover (freeExtents st.ram) x + cover (st.ram.map SectionHolder.page) x +
      cover (st.io.map SectionHolder.page) x := by
  rw [kept, holderPages, List.map_append, cover_append, cover_append, Nat.add_assoc]

theorem Takes.kept_add {len a : Word} (h : Takes regions st len a st') (x : ℕ) :
    kept st' x + cover ((granted .ram a len).map Grant.extent) x = kept st x := by
  have hcover := h.covered x
  rw [kept_eq, kept_eq, h.io, h.pages]
  omega

theorem Takes.kept_le {len a : Word} (h : Takes regions st len a st') (x : ℕ) :
    kept st' x ≤ kept st x := by
  rw [← h.kept_add x]
  exact Nat.le_add_right _ _

/-- The page for a new holder. -/
theorem getRam_page (hwf : RamWellFormed regions st.ram) {page : Word}
    (h : getRam st pageSize = (page, st')) : Takes regions st pageSize page st' :=
  getRam_spec hwf (by decide) rfl h

theorem wellFormed_grown {hs : List SectionHolder} {page start len : Word}
    (hwf : RamWellFormed regions hs) (hnew : len ≠ 0 → InRam regions start len) :
    RamWellFormed regions
      (hs ++ modifySlot (fun _ => ⟨start, len⟩) 0 [newHolder page]) := by
  intro s hs'
  rw [slots_append, List.mem_append] at hs'
  rcases hs' with hs' | hs'
  · exact hwf s hs'
  · refine forall_slots_modifySlot (P := fun s => s.len ≠ 0 → InRam regions s.start s.len)
      (getElem?_newHolder_zero page) hnew (fun s hs hne => ?_) s hs'
    rw [mem_slots_newHolder hs] at hne
    exact absurd rfl hne

/-- **`addr_add`** to the RAM list adds no more than the range.  Where there is no slot it
takes the page of a new holder out of the list itself, and where it gets none it adds nothing.
-/
theorem addrAdd_ram (st : Sections) (hwf : RamWellFormed regions st.ram) {start len : Word}
    (hnew : len ≠ 0 → InRam regions start len) :
    RamWellFormed regions (addrAdd st .ram start len).ram ∧
      ∀ x, kept (addrAdd st .ram start len) x ≤ kept st x + cover [addresses start len] x := by
  generalize hst : addrAdd st .ram start len = st'
  have hadds := adds_addrAdd st .ram start len
  rw [hst] at hadds
  cases hadds with
  | dropped => exact ⟨hwf, fun x => Nat.le_add_right _ _⟩
  | filled hk hs =>
      refine ⟨forall_slots_modifySlot hk hnew hwf, fun x => ?_⟩
      have hmod := cover_modifySlot (fun _ => ⟨start, len⟩) hk x
      rw [cover_empty_section hs] at hmod
      simp only [RangeSection.extent, Sections.holders] at hmod
      rw [kept_eq, kept_eq]
      simp only [Sections.setHolders, Sections.holders, pages_modifySlot]
      omega
  | grown h hne =>
      have htakes := getRam_page hwf h
      refine ⟨wellFormed_grown htakes.wellFormed hnew, fun x => ?_⟩
      have hpage := htakes.kept_add x
      rw [granted, if_neg hne, kept_eq] at hpage
      rw [kept_eq]
      simp only [Sections.setHolders, Sections.holders, freeExtents_append, List.map_append,
        cover_append, cover_newHolder, pages_modifySlot, List.map_cons, List.map_nil,
        Grant.extent, page_newHolder] at hpage ⊢
      omega
  | full h =>
      have htakes := getRam_page hwf h
      exact ⟨htakes.wellFormed, fun x => (htakes.kept_le x).trans (Nat.le_add_right _ _)⟩

/-- To the device list it adds nothing to the RAM but the page of a new holder. -/
theorem addrAdd_io (hwf : RamWellFormed regions st.ram) (start len : Word) :
    RamWellFormed regions (addrAdd st .io start len).ram ∧
      ∀ x, kept (addrAdd st .io start len) x ≤ kept st x := by
  generalize hst : addrAdd st .io start len = st'
  have hadds := adds_addrAdd st .io start len
  rw [hst] at hadds
  cases hadds with
  | dropped => exact ⟨hwf, fun x => Nat.le_refl _⟩
  | filled hk hs =>
      refine ⟨hwf, fun x => ?_⟩
      rw [kept_eq, kept_eq]
      simp only [Sections.setHolders, Sections.holders, pages_modifySlot, Nat.le_refl]
  | grown h hne =>
      have htakes := getRam_page hwf h
      refine ⟨htakes.wellFormed, fun x => ?_⟩
      have hpage := htakes.kept_add x
      rw [granted, if_neg hne, kept_eq] at hpage
      rw [kept_eq]
      simp only [Sections.setHolders, Sections.holders, List.map_append,
        cover_append, pages_modifySlot, List.map_cons, List.map_nil,
        Grant.extent, page_newHolder] at hpage ⊢
      omega
  | full h =>
      have htakes := getRam_page hwf h
      exact ⟨htakes.wellFormed, htakes.kept_le⟩

/-! ## `get_io` -/

theorem getIo_cases (st : Sections) (addr len : Word) :
    (findSlot (RangeSection.offers addr len) st.io = none ∧ getIo st addr len = (nil, st)) ∨
      ∃ k s, (slots st.io)[k]? = some s ∧ s.offers addr len ∧
        getIo st addr len = (addr,
          { addTail st addr len s with
            io := modifySlot (fun s => { s with len := addr - s.start }) k
              (addTail st addr len s).io }) := by
  rw [getIo]
  cases hfind : findSlot (RangeSection.offers addr len) st.io with
  | none => exact .inl ⟨rfl, rfl⟩
  | some k =>
      obtain ⟨s, hk, hs⟩ := findSlot_some hfind
      right
      refine ⟨k, s, hk, hs, ?_⟩
      simp only [hk]

theorem addTail_ram (hwf : RamWellFormed regions st.ram) (addr len : Word) (s : RangeSection) :
    RamWellFormed regions (addTail st addr len s).ram ∧
      ∀ x, kept (addTail st addr len s) x ≤ kept st x := by
  rw [addTail]
  split_ifs
  · exact addrAdd_io hwf _ _
  · exact ⟨hwf, fun x => Nat.le_refl _⟩

/-- To the RAM **`get_io`** does no more than `addr_add` does. -/
theorem getIo_ram (hwf : RamWellFormed regions st.ram) (addr len : Word) :
    RamWellFormed regions (getIo st addr len).2.ram ∧
      ∀ x, kept (getIo st addr len).2 x ≤ kept st x := by
  rcases getIo_cases st addr len with ⟨-, h⟩ | ⟨k, s, -, -, h⟩
  · rw [h]
    exact ⟨hwf, fun x => Nat.le_refl _⟩
  · rw [h]
    obtain ⟨hwf', hkept⟩ := addTail_ram hwf addr len s
    refine ⟨hwf', fun x => ?_⟩
    have hx := hkept x
    rw [kept_eq] at hx ⊢
    simp only [pages_modifySlot]
    exact hx

/-! ## Boot -/

/-- Regions of RAM as a kernel publishes them: whole pages, not empty, none of them wrapping
around, and none overlapping another. -/
structure RamPublished (regions : List Region) : Prop where
  aligned : ∀ r ∈ regions, r.type = .ram →
    r.start.toNat % 4096 = 0 ∧ r.len.toNat % 4096 = 0
  nonempty : ∀ r ∈ regions, r.type = .ram → r.len ≠ 0
  inRange : ∀ r ∈ regions, r.type = .ram → r.start.toNat + r.len.toNat ≤ 2 ^ 32
  apart : ((regions.filter fun r => r.type = .ram).map Region.extent).Pairwise Extent.Apart

/-- The extents of the regions of RAM. -/
def ramExtents (regions : List Region) : List (Extent ℕ) :=
  (regions.filter fun r => r.type = .ram).map Region.extent

theorem ramExtents_cons_ram {r : Region} (h : r.type = .ram) (rs : List Region) :
    ramExtents (r :: rs) = r.extent :: ramExtents rs := by
  rw [ramExtents, List.filter_cons_of_pos (by simpa using h), List.map_cons]
  rfl

theorem ramExtents_cons_io {r : Region} (h : r.type ≠ .ram) (rs : List Region) :
    ramExtents (r :: rs) = ramExtents rs := by
  rw [ramExtents, List.filter_cons_of_neg (by simpa using h)]
  rfl

/-- A whole region. -/
theorem RamPublished.inRam (h : RamPublished regions) {r : Region} (hr : r ∈ regions)
    (htype : r.type = .ram) (hnil : r.start ≠ nil) : InRam regions r.start r.len :=
  ⟨(h.aligned r hr htype).1, (h.aligned r hr htype).2, r, hr, htype, hnil, fun _ hx => hx,
    h.inRange r hr htype, Nat.le_refl _⟩

/-- A region behind its first page, and that page. -/
theorem InRam.firstPage {start len : Word} (h : InRam regions start len) (hne : len ≠ 0) :
    (len - pageSize ≠ 0 → InRam regions (start + pageSize) (len - pageSize)) ∧
      ∀ x, cover [addresses start pageSize] x +
        cover [addresses (start + pageSize) (len - pageSize)] x =
          cover [addresses start len] x := by
  obtain ⟨haligned, hwhole, r, hr, htype, hnil, hwithin, hwrap, hfrom⟩ := h
  have hpos : 0 < len.toNat := Nat.pos_of_ne_zero fun h0 => hne (BitVec.eq_of_toNat_eq h0)
  have hle : pageSize ≤ len := by
    rw [BitVec.le_def, toNat_page]
    omega
  have hrest : (len - pageSize).toNat = len.toNat - 4096 := BitVec.toNat_sub_of_le hle
  have hsum : (start + pageSize).toNat = (start.toNat + 4096) % 2 ^ 32 := BitVec.toNat_add ..
  constructor
  · intro hne'
    have hpos' : 0 < (len - pageSize).toNat :=
      Nat.pos_of_ne_zero fun h0 => hne' (BitVec.eq_of_toNat_eq h0)
    have hstart : (start + pageSize).toNat = start.toNat + 4096 := by omega
    refine ⟨by omega, by omega, r, hr, htype, hnil, fun x hx => hwithin x ?_, by omega, by omega⟩
    have hlo := hx.1
    have hhi := hx.2
    simp only [addresses] at hlo hhi
    constructor <;> simp only [addresses] <;> omega
  · intro x
    rcases Nat.eq_zero_or_pos (len - pageSize).toNat with hzero | hpos'
    · have hlen : (pageSize : Word).toNat = len.toNat := by
        rw [toNat_page]
        omega
      have hempty : cover [addresses (start + pageSize) (len - pageSize)] x = 0 :=
        cover_empty (by rw [addresses, hzero, Nat.add_zero]) x
      rw [hempty, addresses, addresses, hlen, Nat.add_zero]
    · have hstart : (start + pageSize).toNat = start.toNat + 4096 := by omega
      have hcut := cover_cut (a := start.toNat) (b := start.toNat + 4096)
        (c := start.toNat + len.toNat) (by omega) (by omega) x
      have hend : start.toNat + 4096 + (len.toNat - 4096) = start.toNat + len.toNat := by omega
      rw [addresses, addresses, addresses, hrest, hstart, hend, toNat_page]
      exact hcut

/-- `init_ram_sections` adds the regions it goes through. -/
theorem initRamSections_keeps {regions : List Region} (h : RamPublished regions)
    {rs : List Region} (hrs : ∀ r ∈ rs, r ∈ regions) (st : Sections)
    (hwf : RamWellFormed regions st.ram) :
    RamWellFormed regions (initRamSections rs st).ram ∧
      ∀ x, kept (initRamSections rs st) x ≤ kept st x + cover (ramExtents rs) x := by
  induction rs generalizing st with
  | nil => exact ⟨hwf, fun x => Nat.le_add_right _ _⟩
  | cons r rs ih =>
      have hmem := hrs r (List.mem_cons_self ..)
      have htail : ∀ q ∈ rs, q ∈ regions := fun q hq => hrs q (List.mem_cons_of_mem _ hq)
      rw [initRamSections]
      split_ifs with hnil htype hempty
      · exact ⟨hwf, fun x => Nat.le_add_right _ _⟩
      · rw [ramExtents_cons_io htype]
        exact ih htail st hwf
      · -- the first page of the first region is the first holder
        rw [not_not] at htype
        have hin := h.inRam hmem htype hnil
        obtain ⟨hrest, hparts⟩ := hin.firstPage (h.nonempty r hmem htype)
        have hwf₀ : RamWellFormed regions [newHolder r.start] := fun s hs hne => by
          rw [mem_slots_newHolder hs] at hne
          exact absurd rfl hne
        have hnone : st.ram = [] := List.isEmpty_iff.mp hempty
        obtain ⟨hwf₁, hkept₁⟩ := addrAdd_ram { st with ram := [newHolder r.start] } hwf₀ hrest
        obtain ⟨hwf₂, hkept₂⟩ := ih htail _ hwf₁
        refine ⟨hwf₂, fun x => ?_⟩
        have hx₁ := hkept₁ x
        have hx₂ := hkept₂ x
        have hx := hparts x
        have hold : kept st x = cover (st.io.map SectionHolder.page) x := by
          rw [kept_eq, hnone]
          simp [freeExtents]
        have hnew : kept { st with ram := [newHolder r.start] } x =
            cover [addresses r.start pageSize] x + cover (st.io.map SectionHolder.page) x := by
          rw [kept_eq, cover_newHolder_zero, Nat.zero_add, List.map_cons, List.map_nil,
            page_newHolder]
        rw [ramExtents_cons_ram htype, cover_cons, Region.extent]
        omega
      · rw [not_not] at htype
        have hin := h.inRam hmem htype hnil
        obtain ⟨hwf₁, hkept₁⟩ := addrAdd_ram st hwf fun _ => hin
        obtain ⟨hwf₂, hkept₂⟩ := ih htail _ hwf₁
        refine ⟨hwf₂, fun x => ?_⟩
        have hx₁ := hkept₁ x
        have hx₂ := hkept₂ x
        rw [ramExtents_cons_ram htype, cover_cons, Region.extent]
        omega

theorem initIoLoop_keeps (rs : List Region) (st : Sections)
    (hwf : RamWellFormed regions st.ram) :
    RamWellFormed regions (initIoLoop rs st).ram ∧
      ∀ x, kept (initIoLoop rs st) x ≤ kept st x := by
  induction rs generalizing st with
  | nil => exact ⟨hwf, fun x => Nat.le_refl _⟩
  | cons r rs ih =>
      rw [initIoLoop]
      split_ifs
      · exact ⟨hwf, fun x => Nat.le_refl _⟩
      · exact ih st hwf
      · obtain ⟨hwf₁, hkept₁⟩ := addrAdd_io hwf r.start r.len
        obtain ⟨hwf₂, hkept₂⟩ := ih _ hwf₁
        exact ⟨hwf₂, fun x => (hkept₂ x).trans (hkept₁ x)⟩

/-- After `init_sections` nothing is free or in a holder but the published regions. -/
theorem boot_keeps (h : RamPublished regions) (hboot : initSections regions = some st) :
    RamWellFormed regions st.ram ∧ ∀ x, kept st x ≤ cover (ramExtents regions) x := by
  obtain ⟨hwf₁, hkept₁⟩ := initRamSections_keeps h (fun r hr => hr)
    { ram := [], io := [] } (fun s hs => absurd hs List.not_mem_nil)
  rw [initSections, initIoSections] at hboot
  generalize hst : initRamSections regions { ram := [], io := [] } = st₁ at hboot hwf₁ hkept₁
  generalize hpage : getRam st₁ pageSize = r at hboot
  obtain ⟨page, st₂⟩ := r
  have htakes := getRam_page hwf₁ hpage
  simp only at hboot
  split_ifs at hboot with hnil
  obtain rfl := Option.some.inj hboot
  obtain ⟨hwf₃, hkept₃⟩ := initIoLoop_keeps regions
    { st₂ with io := [newHolder page] } htakes.wellFormed
  refine ⟨hwf₃, fun x => (hkept₃ x).trans ?_⟩
  have hx₁ := hkept₁ x
  have hx₂ := htakes.kept_add x
  have hzero : kept { ram := [], io := [] } x = 0 := rfl
  rw [granted, if_neg hnil, kept_eq] at hx₂
  rw [kept_eq]
  simp only [List.map_cons, List.map_nil, page_newHolder, Grant.extent] at hx₂ ⊢
  omega

/-! ## Runs -/

/-- `get_ram` is asked for whole pages, and not for none. -/
def MemCall.WholePages : MemCall → Prop
  | .getRam len => len ≠ 0 ∧ len.toNat % 4096 = 0
  | .getIo _ _ => True
  | .addrRequest _ _ => True

theorem pageAlign_mod (x : Word) : (pageAlign x).toNat % 4096 = 0 := by
  have hmask : pageMask = BitVec.allOnes 32 <<< 12 := by decide
  rw [pageAlign, hmask, ← BitVec.shiftLeft_ushiftRight, BitVec.toNat_shiftLeft,
    BitVec.toNat_ushiftRight, Nat.shiftRight_eq_div_pow, Nat.shiftLeft_eq]
  omega

theorem memStep_getRam (st : Sections) (len : Word) :
    memStep st (.getRam len) = .ok ((getRam st len).2, granted .ram (getRam st len).1 len) := rfl

theorem memStep_getIo (st : Sections) (addr len : Word) :
    memStep st (.getIo addr len) =
      .ok ((getIo st addr len).2, granted .io (getIo st addr len).1 len) := rfl

/-- A request of a client is refused, or is a call of `get_io` or `get_ram`. -/
theorem memStep_addrRequest (st : Sections) (addr len : Word) :
    memStep st (.addrRequest addr len) = .ok (st, []) ∨
      (addr ≠ nil ∧ pageAlign len ≠ 0 ∧
        memStep st (.addrRequest addr len) = memStep st (.getIo addr (pageAlign len))) ∨
      (pageAlign len ≠ 0 ∧
        memStep st (.addrRequest addr len) = memStep st (.getRam (pageAlign len))) := by
  rw [memStep, memStep, memStep, handleAddrRequest]
  by_cases hlen : pageAlign len = 0
  · left
    simp [hlen]
  · by_cases haddr : addr = nil
    · right; right
      refine ⟨hlen, ?_⟩
      simp only [if_neg hlen, haddr, ne_eq, not_true_eq_false, if_false, if_true, granted]
      split_ifs <;> rfl
    · right; left
      refine ⟨haddr, hlen, ?_⟩
      simp only [if_neg hlen, ne_eq, haddr, not_false_eq_true, if_true, if_false, granted]
      split_ifs <;> rfl

/-- The RAM among what is given away. -/
def ramGrants (gs : List Grant) : List Grant :=
  gs.filter fun g => g.type = .ram

/-- Everything given away in a run. -/
def grants (tr : List (Machine.Transition Sections MemCall Grant)) : List Grant :=
  tr.flatMap fun t => t.events

/-- What is given away is whole pages of a region, and no longer free. -/
structure StepKeeps (regions : List Region) (st : Sections) (gs : List Grant) (st' : Sections) :
    Prop where
  wellFormed : RamWellFormed regions st'.ram
  inRam : ∀ g ∈ ramGrants gs, InRam regions g.start g.len
  covered : ∀ x, kept st' x + cover ((ramGrants gs).map Grant.extent) x ≤ kept st x

theorem getRam_keeps (hwf : RamWellFormed regions st.ram) {len : Word} (hne : len ≠ 0)
    (hlen : len.toNat % 4096 = 0) {gs : List Grant}
    (h : memStep st (.getRam len) = .ok (st', gs)) : StepKeeps regions st gs st' := by
  rw [memStep_getRam] at h
  cases h
  have htakes := getRam_spec hwf hne hlen rfl
  have hgrants : ramGrants (granted .ram (getRam st len).1 len) =
      granted .ram (getRam st len).1 len := by
    rw [granted]
    split_ifs <;> rfl
  refine ⟨htakes.wellFormed, fun g hg => ?_, fun x => ?_⟩
  · rw [hgrants, granted] at hg
    split_ifs at hg with hnil
    · cases hg
    · obtain rfl := List.mem_singleton.mp hg
      exact htakes.block hnil
  · rw [hgrants]
    exact (htakes.kept_add x).le

theorem getIo_keeps (hwf : RamWellFormed regions st.ram) {addr len : Word} {gs : List Grant}
    (h : memStep st (.getIo addr len) = .ok (st', gs)) : StepKeeps regions st gs st' := by
  rw [memStep_getIo] at h
  cases h
  have hgrants : ramGrants (granted .io (getIo st addr len).1 len) = [] := by
    rw [granted]
    split_ifs <;> rfl
  obtain ⟨hwf', hkept⟩ := getIo_ram hwf addr len
  refine ⟨hwf', fun g hg => ?_, fun x => ?_⟩
  · rw [hgrants] at hg
    cases hg
  · rw [hgrants]
    exact hkept x

theorem memStep_keeps (hwf : RamWellFormed regions st.ram) {c : MemCall} (hc : c.WholePages)
    {gs : List Grant} (h : memStep st c = .ok (st', gs)) : StepKeeps regions st gs st' := by
  cases c with
  | getRam len => exact getRam_keeps hwf hc.1 hc.2 h
  | getIo addr len => exact getIo_keeps hwf h
  | addrRequest addr len =>
      rcases memStep_addrRequest st addr len with hst | ⟨-, -, hst⟩ | ⟨hne, hst⟩
      · rw [hst] at h
        cases h
        exact ⟨hwf, fun g hg => (by cases hg), fun x => Nat.le_refl _⟩
      · rw [hst] at h
        exact getIo_keeps hwf h
      · rw [hst] at h
        exact getRam_keeps hwf hne (pageAlign_mod len) h

/-- Over a run, what is given away, what is free and what holds the lists never cover an
address more often than at its start. -/
theorem run_keeps {st₀ : Sections} {tr : List (Machine.Transition Sections MemCall Grant)}
    (hwf : RamWellFormed regions st₀.ram) (hrun : Machine.Run memStep st₀ tr st)
    (hcalls : ∀ t ∈ tr, t.act.WholePages) : StepKeeps regions st₀ (grants tr) st := by
  refine hrun.invariant (P := fun tr st => StepKeeps regions st₀ (grants tr) st)
    ⟨hwf, fun g hg => (by cases hg), fun x => Nat.le_refl _⟩ ?_ hcalls
  intro tr s a s' gs _ ih hc hs
  have hstep := memStep_keeps ih.wellFormed hc hs
  have hgrants : ramGrants (grants (tr ++ [⟨s, a, gs, s'⟩])) =
      ramGrants (grants tr) ++ ramGrants gs := by
    simp [grants, ramGrants]
  refine ⟨hstep.wellFormed, fun g hg => ?_, fun x => ?_⟩
  · rw [hgrants, List.mem_append] at hg
    exact hg.elim (ih.inRam g) (hstep.inRam g)
  · have hx := ih.covered x
    have hx' := hstep.covered x
    rw [hgrants, List.map_append, cover_append]
    omega

/-- **RAM is never given away twice.**  What `get_ram` has returned is whole pages of one
published region; all of it, what is still free and the pages of the holders are pairwise
apart.  The calls may be any, in any order, as long as `get_ram` is asked for whole pages;
proc0 rounds what its clients ask for. -/
theorem ram_never_given_twice (h : RamPublished regions) {st₀ : Sections}
    (hboot : initSections regions = some st₀)
    {tr : List (Machine.Transition Sections MemCall Grant)}
    (hrun : Machine.Run memStep st₀ tr st) (hcalls : ∀ t ∈ tr, t.act.WholePages) :
    (∀ g ∈ ramGrants (grants tr), g.start.toNat % 4096 = 0 ∧
      ∃ r ∈ regions, r.type = .ram ∧ g.extent.Within r.extent) ∧
    ((ramGrants (grants tr)).map Grant.extent ++ (freeExtents st.ram ++ holderPages st)).Pairwise
      Extent.Apart := by
  obtain ⟨hwf, hkept⟩ := boot_keeps h hboot
  have hkeeps := run_keeps hwf hrun hcalls
  constructor
  · intro g hg
    obtain ⟨haligned, -, r, hr, htype, -, hwithin, -, -⟩ := hkeeps.inRam g hg
    exact ⟨haligned, r, hr, htype, hwithin⟩
  · refine pairwise_apart_of_cover_le h.apart fun x => ?_
    have hx := hkeeps.covered x
    have hx' := hkept x
    rw [cover_append]
    rw [ramExtents] at hx'
    rw [kept] at hx
    omega

/-! ## The regions of the kernel page -/

/-- The kernel publishes its RAM as proc0 needs it. -/
theorem ramPublished_publishedRegions (l : LinkerSymbols) :
    RamPublished (publishedRegions l) := by
  have hends := l.ramStart_lt
  have hkernel := l.kernelStart_lt
  have hrest := l.kernelEnd_lt
  have hlt := l.ramEnd.isLt
  have ha₁ := l.ramStart_aligned
  have ha₂ := l.kernelStart_aligned
  have ha₃ := l.kernelEnd_aligned
  have ha₄ := l.ramEnd_aligned
  have hlow : (l.kernelStart - l.ramStart).toNat = l.kernelStart.toNat - l.ramStart.toNat :=
    BitVec.toNat_sub_of_le (BitVec.le_of_lt hends)
  have hhigh : (l.ramEnd - l.kernelEnd).toNat = l.ramEnd.toNat - l.kernelEnd.toNat :=
    BitVec.toNat_sub_of_le (BitVec.le_of_lt hrest)
  rw [BitVec.lt_def] at hends hkernel hrest
  have hmem : ∀ r ∈ publishedRegions l, r.type = .ram →
      r = ⟨.ram, l.ramStart, l.kernelStart - l.ramStart⟩ ∨
        r = ⟨.ram, l.kernelEnd, l.ramEnd - l.kernelEnd⟩ := by
    intro r hr htype
    simp only [publishedRegions, List.mem_cons, List.not_mem_nil, or_false] at hr
    rcases hr with rfl | rfl | rfl | rfl | rfl | rfl | rfl | rfl | rfl | rfl | rfl
    · exact .inl rfl
    · exact .inr rfl
    all_goals cases htype
  constructor
  · intro r hr htype
    rcases hmem r hr htype with rfl | rfl
    · exact ⟨ha₁, by rw [hlow]; omega⟩
    · exact ⟨ha₃, by rw [hhigh]; omega⟩
  · intro r hr htype
    rcases hmem r hr htype with rfl | rfl <;> intro hzero
    · have h0 := congrArg BitVec.toNat hzero
      rw [hlow] at h0
      simp at h0
      omega
    · have h0 := congrArg BitVec.toNat hzero
      rw [hhigh] at h0
      simp at h0
      omega
  · intro r hr htype
    rcases hmem r hr htype with rfl | rfl
    · change l.ramStart.toNat + (l.kernelStart - l.ramStart).toNat ≤ 2 ^ 32
      omega
    · change l.kernelEnd.toNat + (l.ramEnd - l.kernelEnd).toNat ≤ 2 ^ 32
      omega
  · have hram : (publishedRegions l).filter (fun r => r.type = .ram) =
        [⟨.ram, l.ramStart, l.kernelStart - l.ramStart⟩,
          ⟨.ram, l.kernelEnd, l.ramEnd - l.kernelEnd⟩] := rfl
    rw [hram, List.map_cons, List.map_singleton, List.pairwise_pair]
    rintro x ⟨hx, hx'⟩
    have hhi := hx.2
    have hlo := hx'.1
    simp only [Region.extent, addresses, hlow] at hhi hlo
    omega

/-- The RAM of the board, with the kernel at `0x82000000`. -/
def exampleSymbols : LinkerSymbols where
  ramStart := 0x80000000
  kernelStart := 0x82000000
  kernelEnd := 0x82010000
  ramEnd := 0xa0000000
  ramStart_aligned := rfl
  kernelStart_aligned := rfl
  kernelEnd_aligned := rfl
  ramEnd_aligned := rfl
  ramStart_lt := by decide
  kernelStart_lt := by decide
  kernelEnd_lt := by decide

/-- Boot with the given regions, then the given calls. -/
def bootMem (regions : List Region) (calls : List MemCall) :
    Option (Sections × List (Machine.Transition Sections MemCall Grant) × Sections) :=
  match initSections regions with
  | none => none
  | some st₀ =>
      match Machine.replay memStep st₀ calls with
      | .error _ => none
      | .ok (tr, st) => some (st₀, tr, st)

/-- A concrete run found by evaluation: what is called and what is given away. -/
theorem exists_bootMem (regions : List Region) (steps : List (MemCall × List Grant))
    (h : (bootMem regions (steps.map Prod.fst)).any
      (fun r => r.2.1.map (fun t => (t.act, t.events)) = steps) = true) :
    ∃ st₀ tr st, initSections regions = some st₀ ∧ Machine.Run memStep st₀ tr st ∧
      tr.map (fun t => (t.act, t.events)) = steps := by
  rw [bootMem] at h
  cases hboot : initSections regions with
  | none => simp [hboot] at h
  | some st₀ =>
      cases hrun : Machine.replay memStep st₀ (steps.map Prod.fst) with
      | error e => simp [hboot, hrun] at h
      | ok r =>
          obtain ⟨tr, st⟩ := r
          refine ⟨st₀, tr, st, rfl, .of_replay hrun, ?_⟩
          simpa [hboot, hrun] using h

theorem grants_eq (tr : List (Machine.Transition Sections MemCall Grant)) :
    grants tr = (tr.map (fun t => (t.act, t.events))).flatMap Prod.snd := by
  rw [grants, List.flatMap_map]

/-- proc0 gives two pages to a process it starts, and a client gets three more. -/
theorem ram_given_once :
    ∃ st₀ tr st, initSections (publishedRegions exampleSymbols) = some st₀ ∧
      Machine.Run memStep st₀ tr st ∧ (ramGrants (grants tr)).length = 3 ∧
      ((ramGrants (grants tr)).map Grant.extent ++
        (freeExtents st.ram ++ holderPages st)).Pairwise Extent.Apart := by
  obtain ⟨st₀, tr, st, hboot, hrun, hsteps⟩ :=
    exists_bootMem (publishedRegions exampleSymbols)
      [(.getRam 0x1000, [⟨.ram, 0x81ffe000, 0x1000⟩]),
        (.getRam 0x1000, [⟨.ram, 0x81ffd000, 0x1000⟩]),
        (.addrRequest 0x44E07000 0x1000, [⟨.io, 0x44E07000, 0x1000⟩]),
        (.addrRequest 0 0x2001, [⟨.ram, 0x81ffa000, 0x3000⟩])] (by decide +kernel)
  refine ⟨st₀, tr, st, hboot, hrun, ?_,
    (ram_never_given_twice (ramPublished_publishedRegions _) hboot hrun fun t ht => ?_).2⟩
  · rw [grants_eq, hsteps]
    rfl
  · have hmem := List.mem_map_of_mem (f := fun t => (t.act, t.events)) ht
    rw [hsteps] at hmem
    simp only [List.mem_cons, List.not_mem_nil, or_false, Prod.mk.injEq] at hmem
    rcases hmem with h | h | h | h <;> rw [h.1]
    · exact ⟨by decide, rfl⟩
    · exact ⟨by decide, rfl⟩
    · trivial
    · trivial

end Omb
