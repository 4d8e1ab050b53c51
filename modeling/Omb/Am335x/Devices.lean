import Omb.Am335x.Allocator

/-!
# Which device ranges proc0 gives away

`get_io` cuts the range it gives away out of a section of the device list and keeps both ends,
so that over a run the device ranges given away and those still free cover no address more
often than the published regions do (`getIo_spec`).

The kernel publishes the registers of GPIO3 twice, the second time as those of MMCHS0.  Only
there can a range be given away twice, and it is not in a run in which nobody asks for a part
of that page that has been given away (`devices_given_once`).

That condition, `Unclaimed`, is on the calls and on what has been given away before them, and
it leaves out only runs in which the defect shows.  The published regions are compared with a
list that has the page once: they cover all other addresses at most once, and those of the
page twice (`doubledPage`).

Device ranges need not be whole pages, so here it is asked of the calls that they do not wrap
around (`AsksInRange`).

## Main results

* `getIo_spec`: what `get_io` does to the device list
* `run_io`: the same over runs
* `devices_given_once`: device ranges are given to one client only, with a condition for one
  page
-/

namespace Omb

open Cover

variable {st st' : Sections}

/-! ## `addr_add` on the device list -/

/-- No free section of the device list wraps around. -/
def IoInRange (hs : List SectionHolder) : Prop :=
  ∀ s ∈ slots hs, s.start.toNat + s.len.toNat < 2 ^ 32

theorem getRam_io (st : Sections) (len : Word) : (getRam st len).2.io = st.io := by
  rcases getRam_cases st len with h | ⟨k, s, -, -, h⟩ <;> rw [h]

theorem ioInRange_newHolder (page : Word) : IoInRange [newHolder page] := fun s hs => by
  rw [mem_slots_newHolder hs]
  decide

/-- The device list after `addr_add`: nothing is added, or a free slot takes the range, or the
first slot of a new holder does. -/
theorem io_addrAdd (st : Sections) (start len : Word) :
    (addrAdd st .io start len).io = st.io ∨
    (∃ k s, (slots st.io)[k]? = some s ∧ s.len = 0 ∧
      (addrAdd st .io start len).io = modifySlot (fun _ => ⟨start, len⟩) k st.io) ∨
    ∃ page, (addrAdd st .io start len).io =
      st.io ++ modifySlot (fun _ => ⟨start, len⟩) 0 [newHolder page] := by
  have hram : ∀ {page : Word} {st₁ : Sections}, getRam st pageSize = (page, st₁) →
      st₁.io = st.io := by
    intro page st₁ h
    have hio := getRam_io st pageSize
    rwa [h] at hio
  generalize hst : addrAdd st .io start len = st'
  have hadds := adds_addrAdd st .io start len
  rw [hst] at hadds
  cases hadds with
  | dropped => exact .inl rfl
  | filled hk hs => exact .inr (.inl ⟨_, _, hk, hs, rfl⟩)
  | @grown page st₁ h _ =>
      refine .inr (.inr ⟨page, ?_⟩)
      simp only [Sections.setHolders, Sections.holders, hram h]
  | full h => exact .inl (hram h)

/-- Its sections are those before and the one that is added, and empty ones. -/
theorem forall_slots_addrAdd {P : RangeSection → Prop} {start len : Word}
    (h : ∀ s ∈ slots st.io, P s) (hnew : P ⟨start, len⟩) (hempty : P ⟨0, 0⟩) :
    ∀ s ∈ slots (addrAdd st .io start len).io, P s := by
  rcases io_addrAdd st start len with hio | ⟨k, s, hk, -, hio⟩ | ⟨page, hio⟩
  · rwa [hio]
  · rw [hio]
    exact forall_slots_modifySlot hk hnew h
  · have hholder : ∀ s ∈ slots [newHolder page], P s := fun s hs => by
      rwa [mem_slots_newHolder hs]
    intro s hs
    rw [hio, slots_append, List.mem_append] at hs
    rcases hs with hs | hs
    · exact h s hs
    · exact forall_slots_modifySlot (getElem?_newHolder_zero page) hnew hholder s hs

/-- What `addr_add` does to the device list. -/
structure AddsIo (st : Sections) (start len : Word) (st' : Sections) : Prop where
  inRange : IoInRange st.io → start.toNat + len.toNat < 2 ^ 32 → IoInRange st'.io
  kept : ∀ {k : ℕ} {s : RangeSection}, (slots st.io)[k]? = some s → s.len ≠ 0 →
    (slots st'.io)[k]? = some s
  covered : ∀ x, cover (freeExtents st'.io) x ≤
    cover (freeExtents st.io) x + cover [addresses start len] x

theorem addsIo_addrAdd (st : Sections) (start len : Word) :
    AddsIo st start len (addrAdd st .io start len) where
  inRange h hnew := forall_slots_addrAdd h hnew (by decide)
  kept {k' s'} hk' hne := by
    rcases io_addrAdd st start len with hio | ⟨k, s, hk, hs, hio⟩ | ⟨page, hio⟩
    · rwa [hio]
    · have hdiff : k ≠ k' := by
        rintro rfl
        obtain rfl : s = s' := by simpa [hk'] using hk.symm
        exact hne hs
      rw [hio, slots_modifySlot, List.getElem?_modify_ne _ _ hdiff, hk']
    · rw [hio, slots_append, List.getElem?_append_left (List.getElem?_eq_some_iff.mp hk').1, hk']
  covered x := by
    rcases io_addrAdd st start len with hio | ⟨k, s, hk, hs, hio⟩ | ⟨page, hio⟩
    · rw [hio]
      exact Nat.le_add_right _ _
    · have hmod := cover_modifySlot (fun _ => ⟨start, len⟩) hk x
      rw [cover_empty_section hs] at hmod
      rw [hio]
      simp only [RangeSection.extent] at hmod ⊢
      omega
    · rw [hio, freeExtents_append, cover_append, cover_newHolder]

/-! ## `get_io` -/

/-- A section that offers a range falls into what is before it, the range and what is
behind it. -/
theorem offers_parts {s : RangeSection} {addr len : Word} (hs : s.offers addr len)
    (hin : s.start.toNat + s.len.toNat < 2 ^ 32) (hne : len ≠ 0)
    (hadd : addr.toNat + len.toNat < 2 ^ 32) :
    s.len ≠ 0 ∧ s.start.toNat + (addr - s.start).toNat < 2 ^ 32 ∧
      (addr + len).toNat + (s.start + s.len - addr - len).toNat < 2 ^ 32 ∧
      ∀ x, cover [addresses s.start (addr - s.start)] x + cover [addresses addr len] x +
        cover [addresses (addr + len) (s.start + s.len - addr - len)] x = cover [s.extent] x := by
  obtain ⟨hfrom, hto⟩ := of_decide_eq_true hs
  have hpos : 0 < len.toNat := Nat.pos_of_ne_zero fun h0 => hne (BitVec.eq_of_toNat_eq h0)
  have hend : (s.start + s.len).toNat = s.start.toNat + s.len.toNat := by
    rw [BitVec.toNat_add]
    omega
  have hstop : (addr + len).toNat = addr.toNat + len.toNat := by
    rw [BitVec.toNat_add]
    omega
  rw [BitVec.le_def] at hfrom hto
  rw [hend, hstop] at hto
  have hhead : (addr - s.start).toNat = addr.toNat - s.start.toNat := BitVec.toNat_sub_of_le hfrom
  have htail : (s.start + s.len - addr - len).toNat =
      s.start.toNat + s.len.toNat - (addr.toNat + len.toNat) := by
    have hle : addr ≤ s.start + s.len := by
      rw [BitVec.le_def]
      omega
    have hsub := BitVec.toNat_sub_of_le hle
    have hle' : len ≤ s.start + s.len - addr := by
      rw [BitVec.le_def]
      omega
    rw [BitVec.toNat_sub_of_le hle']
    omega
  refine ⟨fun h0 => ?_, by omega, by omega, fun x => ?_⟩
  · rw [h0] at hto
    simp at hto
    omega
  · have hcut₁ := cover_cut (a := s.start.toNat) (b := addr.toNat)
      (c := s.start.toNat + s.len.toNat) (by omega) (by omega) x
    have hcut₂ := cover_cut (a := addr.toNat) (b := addr.toNat + len.toNat)
      (c := s.start.toNat + s.len.toNat) (by omega) (by omega) x
    have hmid : s.start.toNat + (addr.toNat - s.start.toNat) = addr.toNat := by omega
    have hlast : addr.toNat + len.toNat +
        (s.start.toNat + s.len.toNat - (addr.toNat + len.toNat)) =
          s.start.toNat + s.len.toNat := by omega
    rw [addresses, addresses, addresses, RangeSection.extent, addresses, hhead, hstop, htail,
      hmid, hlast]
    omega

/-- The end of the section goes to the device list. -/
theorem addsIo_addTail (st : Sections) (addr len : Word) (s : RangeSection) :
    AddsIo st (addr + len) (s.start + s.len - addr - len) (addTail st addr len s) := by
  rw [addTail]
  split_ifs with hrest
  · exact addsIo_addrAdd st _ _
  · exact ⟨fun h _ => h, fun h _ => h, fun x => Nat.le_add_right _ _⟩

/-- **`get_io`** gives away a part of one section and keeps the rest, but for ends that there
is no slot for, which are lost. -/
theorem getIo_spec (hin : IoInRange st.io) {addr len : Word} (hne : len ≠ 0)
    (hadd : addr.toNat + len.toNat < 2 ^ 32) :
    IoInRange (getIo st addr len).2.io ∧
      ((getIo st addr len).1 ≠ nil → (getIo st addr len).1 = addr) ∧
      ∀ x, cover (freeExtents (getIo st addr len).2.io) x +
          cover ((granted .io (getIo st addr len).1 len).map Grant.extent) x ≤
        cover (freeExtents st.io) x := by
  rcases getIo_cases st addr len with ⟨-, h⟩ | ⟨k, s, hk, hs, h⟩
  · rw [h]
    exact ⟨hin, fun hnil => absurd rfl hnil, fun x => by simp [granted]⟩
  · rw [h]
    have hsec := hin s (List.mem_of_getElem? hk)
    obtain ⟨hlen, hhead, htail, hparts⟩ := offers_parts hs hsec hne hadd
    have hadds := addsIo_addTail st addr len s
    have hk' := hadds.kept hk hlen
    refine ⟨forall_slots_modifySlot hk' hhead (hadds.inRange hin htail), fun _ => rfl,
      fun x => ?_⟩
    have hmod := cover_modifySlot (fun s => { s with len := addr - s.start }) hk' x
    have hx := hparts x
    have hx' := hadds.covered x
    have hgrant : cover ((granted .io addr len).map Grant.extent) x ≤
        cover [addresses addr len] x := by
      rw [granted]
      split_ifs
      · exact Nat.zero_le _
      · exact Nat.le_refl _
    simp only [RangeSection.extent] at hmod hx ⊢
    omega

/-! ## Boot -/

/-- The extents of the device regions. -/
def ioExtents (regions : List Region) : List (Extent ℕ) :=
  (regions.filter fun r => r.type = .io).map Region.extent

/-- `init_io_sections` adds the device regions it goes through. -/
theorem initIoLoop_io {rs : List Region}
    (hrs : ∀ r ∈ rs, r.type = .io → r.start.toNat + r.len.toNat < 2 ^ 32) (st : Sections)
    (hin : IoInRange st.io) :
    IoInRange (initIoLoop rs st).io ∧ ∀ x, cover (freeExtents (initIoLoop rs st).io) x ≤
      cover (freeExtents st.io) x + cover (ioExtents rs) x := by
  induction rs generalizing st with
  | nil => exact ⟨hin, fun x => Nat.le_add_right _ _⟩
  | cons r rs ih =>
      have htail : ∀ q ∈ rs, q.type = .io → q.start.toNat + q.len.toNat < 2 ^ 32 :=
        fun q hq => hrs q (List.mem_cons_of_mem _ hq)
      rw [initIoLoop]
      split_ifs with hnil htype
      · exact ⟨hin, fun x => Nat.le_add_right _ _⟩
      · have hskip : ioExtents (r :: rs) = ioExtents rs := by
          rw [ioExtents, List.filter_cons_of_neg (by simpa using htype)]
          rfl
        rw [hskip]
        exact ih htail st hin
      · rw [not_not] at htype
        have hcons : ioExtents (r :: rs) = r.extent :: ioExtents rs := by
          rw [ioExtents, List.filter_cons_of_pos (by simpa using htype), List.map_cons]
          rfl
        have hadds := addsIo_addrAdd st r.start r.len
        obtain ⟨hin', hcover⟩ := ih htail _
          (hadds.inRange hin (hrs r (List.mem_cons_self ..) htype))
        refine ⟨hin', fun x => ?_⟩
        have hx := hcover x
        have hx' := hadds.covered x
        rw [hcons, cover_cons, Region.extent]
        omega

/-- After boot no more is free in the device list than the published regions. -/
theorem boot_io {regions : List Region}
    (hregions : ∀ r ∈ regions, r.type = .io → r.start.toNat + r.len.toNat < 2 ^ 32)
    (hboot : initSections regions = some st) :
    IoInRange st.io ∧ ∀ x, cover (freeExtents st.io) x ≤ cover (ioExtents regions) x := by
  rw [initSections, initIoSections] at hboot
  generalize getRam (initRamSections regions { ram := [], io := [] }) pageSize = r at hboot
  obtain ⟨page, st₁⟩ := r
  simp only at hboot
  split_ifs at hboot
  obtain rfl := Option.some.inj hboot
  obtain ⟨hin, hcover⟩ := initIoLoop_io hregions { st₁ with io := [newHolder page] }
    (ioInRange_newHolder page)
  refine ⟨hin, fun x => ?_⟩
  have hx := hcover x
  rwa [cover_newHolder_zero, Nat.zero_add] at hx

/-! ## The published devices -/

/-- The page published twice: that of GPIO3.  It is published again where the registers of
MMCHS0 are mapped, which are elsewhere. -/
def doubledPage : Extent ℕ :=
  gpio3Region.extent

theorem publishedRegions_inRange (l : LinkerSymbols) :
    ∀ r ∈ publishedRegions l, r.type = .io → r.start.toNat + r.len.toNat < 2 ^ 32 := by
  intro r hr htype
  simp only [publishedRegions, List.mem_cons, List.not_mem_nil, or_false] at hr
  rcases hr with rfl | rfl | rfl | rfl | rfl | rfl | rfl | rfl | rfl | rfl | rfl
  · cases htype
  · cases htype
  all_goals decide

/-- The device regions, with that page once. -/
def devicesOnce : List (Extent ℕ) :=
  [(0x47400000, 0x47404000), (0x44E31000, 0x44E32000), (0x44E09000, 0x44E0A000),
    (0x44E07000, 0x44E08000), (0x4804c000, 0x4804d000), (0x481ac000, 0x481ad000),
    (0x481AE000, 0x481AF000), (0x47810000, 0x47820000)].map fun r => ⟨r.1, r.2⟩

theorem pairwise_devicesOnce : devicesOnce.Pairwise Extent.Apart := by
  have hbounds : devicesOnce.Pairwise fun e f => e.hi ≤ f.lo ∨ f.hi ≤ e.lo := by
    decide
  exact hbounds.imp Extent.Apart.of_le

theorem cover_ioExtents (l : LinkerSymbols) (x : ℕ) :
    cover (ioExtents (publishedRegions l)) x = cover [doubledPage] x + cover devicesOnce x := by
  have hperm : (ioExtents (publishedRegions l)).Perm (doubledPage :: devicesOnce) := by
    have hdevices : devicesOnce = devicesOnce.take 6 ++ devicesOnce.drop 6 :=
      (List.take_append_drop 6 devicesOnce).symm
    have hpublished : ioExtents (publishedRegions l) =
        devicesOnce.take 6 ++ doubledPage :: devicesOnce.drop 6 := rfl
    rw [hpublished, hdevices]
    exact List.perm_middle
  rw [cover_perm hperm, cover_cons]

/-- Outside `doubledPage` no address is published twice. -/
theorem cover_ioExtents_le (l : LinkerSymbols) {x : ℕ} (hx : ¬ doubledPage.Has x) :
    cover (ioExtents (publishedRegions l)) x ≤ 1 := by
  rw [cover_ioExtents, cover_singleton, if_neg hx, Nat.zero_add]
  exact pairwise_apart_iff_cover_le_one.mp pairwise_devicesOnce x

/-! ## Runs -/

/-- The devices among what is given away. -/
def ioGrants (gs : List Grant) : List Grant :=
  gs.filter fun g => g.type = .io

@[simp] theorem ioGrants_granted_io (a len : Word) :
    ioGrants (granted .io a len) = granted .io a len := by
  rw [granted]
  split_ifs <;> rfl

@[simp] theorem ioGrants_granted_ram (a len : Word) : ioGrants (granted .ram a len) = [] := by
  rw [granted]
  split_ifs <;> rfl

/-- A device range asked for is not empty and does not wrap around. -/
def MemCall.AsksInRange (c : MemCall) : Prop :=
  ∀ addr len, c.ioRange = some (addr, len) →
    len ≠ 0 ∧ addr.toNat + len.toNat < 2 ^ 32

/-- What is given away is what was asked for, and no longer free. -/
structure IoKeeps (st : Sections) (c : MemCall) (gs : List Grant) (st' : Sections) : Prop where
  inRange : IoInRange st'.io
  length_le : (ioGrants gs).length ≤ 1
  asked : ∀ g ∈ ioGrants gs, c.ioRange = some (g.start, g.len)
  covered : ∀ x, cover (freeExtents st'.io) x + cover ((ioGrants gs).map Grant.extent) x ≤
    cover (freeExtents st.io) x

theorem ioKeeps_getIo (hin : IoInRange st.io) {c : MemCall} {addr len : Word}
    (hc : c.ioRange = some (addr, len)) (hasks : c.AsksInRange) {gs : List Grant}
    (h : memStep st (.getIo addr len) = .ok (st', gs)) : IoKeeps st c gs st' := by
  obtain ⟨hne, hadd⟩ := hasks addr len hc
  rw [memStep_getIo] at h
  cases h
  obtain ⟨hin', hret, hcover⟩ := getIo_spec hin hne hadd
  refine ⟨hin', ?_, fun g hg => ?_, fun x => ?_⟩
  · rw [ioGrants_granted_io, granted]
    split_ifs <;> simp
  · rw [ioGrants_granted_io, granted] at hg
    split_ifs at hg with hnil
    · cases hg
    · obtain rfl := List.mem_singleton.mp hg
      rw [hc, hret hnil]
  · rw [ioGrants_granted_io]
    exact hcover x

theorem ioKeeps_getRam (hin : IoInRange st.io) (c : MemCall) {len : Word} {gs : List Grant}
    (h : memStep st (.getRam len) = .ok (st', gs)) : IoKeeps st c gs st' := by
  rw [memStep_getRam] at h
  cases h
  have hio := getRam_io st len
  refine ⟨hio ▸ hin, ?_, fun g hg => ?_, fun x => ?_⟩
  · rw [ioGrants_granted_ram]
    exact Nat.zero_le _
  · rw [ioGrants_granted_ram] at hg
    cases hg
  · rw [ioGrants_granted_ram, hio]
    exact Nat.le_refl _

theorem memStep_io (hin : IoInRange st.io) {c : MemCall} (hasks : c.AsksInRange)
    {gs : List Grant} (h : memStep st c = .ok (st', gs)) : IoKeeps st c gs st' := by
  cases c with
  | getRam len => exact ioKeeps_getRam hin _ h
  | getIo addr len => exact ioKeeps_getIo hin rfl hasks h
  | addrRequest addr len =>
      rcases memStep_addrRequest st addr len with hst | ⟨haddr, hlen, hst⟩ | ⟨-, hst⟩
      · rw [hst] at h
        cases h
        exact ⟨hin, Nat.zero_le _, fun g hg => (by cases hg), fun x => Nat.le_refl _⟩
      · rw [hst] at h
        have hrange : MemCall.ioRange (.addrRequest addr len) = some (addr, pageAlign len) :=
          if_pos ⟨haddr, hlen⟩
        exact ioKeeps_getIo hin hrange hasks h
      · rw [hst] at h
        exact ioKeeps_getRam hin _ h

/-- Nobody asks for an address of `doubledPage` that has been given away.  Asking for other
addresses of that page is not excluded. -/
def Unclaimed (tr : List (Machine.Transition Sections MemCall Grant)) : Prop :=
  ∀ pre t post, tr = pre ++ t :: post → ∀ addr len, t.act.ioRange = some (addr, len) →
    ∀ x, (addresses addr len).Has x → doubledPage.Has x →
      ∀ g ∈ ioGrants (grants pre), ¬ g.extent.Has x

theorem ioGrants_snoc (tr : List (Machine.Transition Sections MemCall Grant)) (s s' : Sections)
    (a : MemCall) (gs : List Grant) :
    ioGrants (grants (tr ++ [⟨s, a, gs, s'⟩])) = ioGrants (grants tr) ++ ioGrants gs := by
  simp [grants, ioGrants]

/-- Over a run, what is given away and what is free cover no address more often than the
published regions. -/
theorem run_io {l : LinkerSymbols} {st₀ : Sections}
    (hboot : initSections (publishedRegions l) = some st₀)
    {tr : List (Machine.Transition Sections MemCall Grant)}
    (hrun : Machine.Run memStep st₀ tr st) (hasks : ∀ t ∈ tr, t.act.AsksInRange) :
    IoInRange st.io ∧ ∀ x, cover (freeExtents st.io) x +
        cover ((ioGrants (grants tr)).map Grant.extent) x ≤
      cover (ioExtents (publishedRegions l)) x := by
  refine hrun.invariant
    (P := fun tr st => IoInRange st.io ∧ ∀ x, cover (freeExtents st.io) x +
        cover ((ioGrants (grants tr)).map Grant.extent) x ≤
      cover (ioExtents (publishedRegions l)) x)
    (boot_io (publishedRegions_inRange l) hboot) ?_ hasks
  rintro tr s a s' gs - ⟨hin, hcover⟩ hc hs
  have hstep := memStep_io hin hc hs
  refine ⟨hstep.inRange, fun x => ?_⟩
  have hx := hcover x
  have hx' := hstep.covered x
  rw [ioGrants_snoc, List.map_append, cover_append]
  omega

/-- **A device range is given to one client only**, outside the page that is published twice
in any run, and there in runs in which nobody asks again for what has been given away.  The
regions are those of the kernel, wherever the linker puts its RAM.  `hasks` is about requests
that wrap around, for which `get_io` gives away what is in no section. -/
theorem devices_given_once {l : LinkerSymbols} {st₀ : Sections}
    (hboot : initSections (publishedRegions l) = some st₀)
    {tr : List (Machine.Transition Sections MemCall Grant)}
    (hrun : Machine.Run memStep st₀ tr st) (hasks : ∀ t ∈ tr, t.act.AsksInRange) :
    (∀ x, ¬ doubledPage.Has x → cover ((ioGrants (grants tr)).map Grant.extent) x ≤ 1) ∧
      (Unclaimed tr → ((ioGrants (grants tr)).map Grant.extent).Pairwise Extent.Apart) := by
  have hout : ∀ x, ¬ doubledPage.Has x →
      cover ((ioGrants (grants tr)).map Grant.extent) x ≤ 1 := fun x hx => by
    have hcover := (run_io hboot hrun hasks).2 x
    have hle := cover_ioExtents_le l hx
    omega
  refine ⟨hout, fun hunclaimed => pairwise_apart_iff_cover_le_one.mpr fun x => ?_⟩
  by_cases hx : doubledPage.Has x
  · -- the step that gives `x` away a second time would ask for it again
    clear hout
    induction hrun with
    | nil => exact Nat.zero_le _
    | @snoc tr s s' a gs hrun hs ih =>
        have hasks' : ∀ t ∈ tr, t.act.AsksInRange := fun t ht =>
          hasks t (List.mem_append_left _ ht)
        have hbefore := ih hasks' fun pre t post hsplit =>
          hunclaimed pre t (post ++ [⟨s, a, gs, s'⟩]) (by rw [hsplit]; simp)
        have hstep := memStep_io (run_io hboot hrun hasks').1
          (hasks _ (List.mem_append_right _ (List.mem_singleton_self _))) hs
        rw [ioGrants_snoc, List.map_append, cover_append]
        have hlen : cover ((ioGrants gs).map Grant.extent) x ≤ 1 :=
          List.countP_le_length.trans (by rw [List.length_map]; exact hstep.length_le)
        rcases Nat.eq_zero_or_pos (cover ((ioGrants gs).map Grant.extent) x) with hzero | hpos
        · omega
        · obtain ⟨e, he, hex⟩ := List.countP_pos_iff.mp hpos
          obtain ⟨g, hg, rfl⟩ := List.mem_map.mp he
          have hnone : cover ((ioGrants (grants tr)).map Grant.extent) x = 0 := by
            refine List.countP_eq_zero.mpr fun e' he' hx' => ?_
            obtain ⟨g', hg', rfl⟩ := List.mem_map.mp he'
            exact hunclaimed tr _ [] rfl _ _ (hstep.asked g hg) x (of_decide_eq_true hex) hx g'
              hg' (of_decide_eq_true hx')
          omega
  · exact hout x hx

/-- The page of GPIO3 is given away, and given away once more. -/
theorem gpio3_given_twice :
    ∃ st₀ tr st, initSections (publishedRegions exampleSymbols) = some st₀ ∧
      Machine.Run memStep st₀ tr st ∧
      tr.map (fun t => t.act) = [.getIo 0x481AE000 0x1000, .getIo 0x481AE000 0x1000] ∧
      (∀ t ∈ tr, t.act.AsksInRange) ∧
      ¬ ((ioGrants (grants tr)).map Grant.extent).Pairwise Extent.Apart := by
  obtain ⟨st₀, tr, st, hboot, hrun, hsteps⟩ :=
    exists_bootMem (publishedRegions exampleSymbols)
      [(.getIo 0x481AE000 0x1000, [⟨.io, 0x481AE000, 0x1000⟩]),
        (.getIo 0x481AE000 0x1000, [⟨.io, 0x481AE000, 0x1000⟩])] (by decide +kernel)
  refine ⟨st₀, tr, st, hboot, hrun, ?_, fun t ht => ?_, fun hapart => ?_⟩
  · have hacts := congrArg (List.map Prod.fst) hsteps
    simpa [Function.comp_def] using hacts
  · have hmem := List.mem_map_of_mem (f := fun t => (t.act, t.events)) ht
    rw [hsteps] at hmem
    simp only [List.mem_cons, List.not_mem_nil, or_false, Prod.mk.injEq, or_self] at hmem
    rw [hmem.1]
    rintro addr len h
    cases h
    decide
  · rw [grants_eq, hsteps] at hapart
    have hpair : Extent.Apart doubledPage doubledPage := List.rel_of_pairwise_cons hapart
      (List.mem_singleton_self _)
    exact hpair 0x481AE000 (by decide)

/-- A UART, then two halves of the page of GPIO3. -/
theorem devices_given_to_three :
    ∃ st₀ tr st, initSections (publishedRegions exampleSymbols) = some st₀ ∧
      Machine.Run memStep st₀ tr st ∧ (ioGrants (grants tr)).length = 3 ∧
      ((ioGrants (grants tr)).map Grant.extent).Pairwise Extent.Apart := by
  obtain ⟨st₀, tr, st, hboot, hrun, hsteps⟩ :=
    exists_bootMem (publishedRegions exampleSymbols)
      [(.addrRequest 0x44E09000 0x1000, [⟨.io, 0x44E09000, 0x1000⟩]),
        (.getIo 0x481AE000 0x800, [⟨.io, 0x481AE000, 0x800⟩]),
        (.getIo 0x481AE800 0x800, [⟨.io, 0x481AE800, 0x800⟩])] (by decide +kernel)
  have hasks : ∀ t ∈ tr, t.act.AsksInRange := by
    intro t ht
    have hmem := List.mem_map_of_mem (f := fun t => (t.act, t.events)) ht
    rw [hsteps] at hmem
    simp only [List.mem_cons, List.not_mem_nil, or_false, Prod.mk.injEq] at hmem
    rcases hmem with h | h | h <;> rw [h.1] <;> rintro addr len hrange <;> cases hrange <;> decide
  refine ⟨st₀, tr, st, hboot, hrun, ?_, (devices_given_once hboot hrun hasks).2 ?_⟩
  · rw [grants_eq, hsteps]
    rfl
  · intro pre t post hsplit addr len hrange x hx hdoubled g hg hgx
    rw [hsplit, List.map_append, List.map_cons] at hsteps
    rw [grants_eq] at hg
    have hx' := hx.1
    have hgx' := hgx.2
    have hfrom := hdoubled.1
    rcases hpre : pre.map (fun t => (t.act, t.events)) with _ | ⟨p₁, _ | ⟨p₂, _ | ⟨p₃, p⟩⟩⟩
    · rw [hpre] at hg
      cases hg
    · -- the UART has been given away
      rw [hpre] at hg hsteps
      obtain ⟨rfl, -⟩ := List.cons.inj hsteps
      obtain rfl := List.mem_singleton.mp hg
      exact absurd (Nat.lt_of_le_of_lt hfrom hgx') (by decide)
    · -- the UART and the lower half have been given away
      rw [hpre] at hg hsteps
      obtain ⟨rfl, hrest⟩ := List.cons.inj hsteps
      obtain ⟨rfl, hlast⟩ := List.cons.inj hrest
      have hact : t.act = .getIo 0x481AE800 0x800 :=
        congrArg Prod.fst (List.cons.inj hlast).1
      rw [hact] at hrange
      cases hrange
      rcases List.mem_cons.mp hg with rfl | hg
      · exact absurd (Nat.lt_of_le_of_lt hfrom hgx') (by decide)
      · obtain rfl := List.mem_singleton.mp hg
        exact absurd (Nat.lt_of_le_of_lt hx' hgx') (by decide)
    · rw [hpre] at hsteps
      simp at hsteps

end Omb
