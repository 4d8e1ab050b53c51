import Omb.Am335x.Splits

/-!
# Which pages are given to two clients

A client maps what it is given in pages.  `handle_addr_request` rounds the length of a request
up to pages, but gives its address to `get_io` as it is: a range that starts in the middle of
a page ends in the middle of another, and both ends of that page can be given to different
clients (`page_shared`).

In a run in which no section is split at such an address the sections stay whole pages, and no
page is in two ranges (`page_given_once`).  The condition is on the calls and on the sections
at each of them: that what is asked for starts at a page boundary, or is offered by nobody
(`IoCall.SplitsPages`).

The sections of the device list are whole pages at the start and apart (`AlignedSections`), as
those that the kernel publishes are but for the page that it publishes twice.  The RAM list
may be any and may change in any way, as it only decides which ends are lost.

`Touches` is about a page, `Extent.Has` about an address: ranges may be apart while their
pages are not, which is the point.

## Main results

* `ioStep_pages`: what one call keeps, if it splits no page
* `page_given_once`: over runs, no page is given to two clients
-/

namespace Omb

open Cover

variable {st st' : Sections}

/-! ## Pages -/

/-- Page number `p` has an address of the extent. -/
def Touches (e : Extent ℕ) (p : ℕ) : Prop :=
  ∃ x, e.Has x ∧ x / 4096 = p

/-- No page has addresses of both.  That is more than that no address is in both. -/
def PagesApart (e f : Extent ℕ) : Prop :=
  ∀ p, ¬ (Touches e p ∧ Touches f p)

/-- The extent is a number of whole pages. -/
structure WholePages (e : Extent ℕ) : Prop where
  lo : e.lo % 4096 = 0
  hi : e.hi % 4096 = 0

/-- An extent of whole pages has all of each page it touches. -/
theorem WholePages.has_of_touches {e : Extent ℕ} (h : WholePages e) {p : ℕ} (hp : Touches e p) :
    e.Has (p * 4096) := by
  obtain ⟨x, ⟨hlo, hhi⟩, rfl⟩ := hp
  have h₁ := h.lo
  have h₂ := h.hi
  exact ⟨by omega, by omega⟩

theorem WholePages.pagesApart {e f : Extent ℕ} (he : WholePages e) (hf : WholePages f)
    (h : e.Apart f) : PagesApart e f := fun p hp =>
  h (p * 4096) ⟨he.has_of_touches hp.1, hf.has_of_touches hp.2⟩

theorem pairwise_pagesApart {l : List (Extent ℕ)} (hwhole : ∀ e ∈ l, WholePages e)
    (h : l.Pairwise Extent.Apart) : l.Pairwise PagesApart :=
  h.imp_of_mem fun he hf => (hwhole _ he).pagesApart (hwhole _ hf)

/-- The first address and the length of each free section are those of whole pages. -/
def AlignedSections (hs : List SectionHolder) : Prop :=
  ∀ s ∈ slots hs, s.len ≠ 0 → s.start.toNat % 4096 = 0 ∧ s.len.toNat % 4096 = 0

/-! ## `get_io` at page boundaries -/

theorem aligned_sub {a b : Word} (ha : a.toNat % 4096 = 0) (hb : b.toNat % 4096 = 0) :
    (b - a).toNat % 4096 = 0 := by
  rw [BitVec.toNat_sub]
  omega

theorem aligned_add {a b : Word} (ha : a.toNat % 4096 = 0) (hb : b.toNat % 4096 = 0) :
    (a + b).toNat % 4096 = 0 := by
  rw [BitVec.toNat_add]
  omega

/-- A section that is split at a page boundary leaves whole pages, one before the range and
one behind it. -/
theorem alignedSections_getIo (h : AlignedSections st.io) {addr len : Word}
    (haddr : addr.toNat % 4096 = 0) (hlen : len.toNat % 4096 = 0) {k : ℕ} {s : RangeSection}
    (hfinds : Finds st addr len k s) (hs : s.len ≠ 0) :
    AlignedSections (getIo st addr len).2.io := by
  obtain ⟨hstart, hslen⟩ := h s (List.mem_of_getElem? hfinds.slot) hs
  have hkept := (addsIo_addTail st addr len s).kept hfinds.slot hs
  rw [hfinds.getIo_eq]
  refine forall_slots_modifySlot hkept (fun _ => ⟨hstart, aligned_sub hstart haddr⟩) ?_
  rw [addTail]
  split_ifs
  · refine forall_slots_addrAdd h (fun _ => ⟨aligned_add haddr hlen, ?_⟩) fun h0 => absurd rfl h0
    exact aligned_sub hlen (aligned_sub haddr (aligned_add hstart hslen))
  · exact h

/-! ## One step -/

/-- A request of a client, or another RAM list.  A range that is asked for does not wrap
around. -/
def IoCall.Requests : IoCall → Prop
  | .add _ _ => False
  | .call c => (∃ addr len, c = .addrRequest addr len) ∧ c.AsksInRange
  | .ram _ => True

/-- The range asked for starts at a page boundary, unless no section offers it. -/
def IoCall.SplitsPages (st : Sections) : IoCall → Prop
  | .add _ _ => True
  | .call c => ∀ addr len, c.ioRange = some (addr, len) →
      addr.toNat % 4096 = 0 ∨ findSlot (RangeSection.offers addr len) st.io = none
  | .ram _ => True

/-- What such a step keeps, and what it gives away.  The covers count, so that what is given
away is no longer free. -/
structure PageSplits (st : Sections) (gs : List Grant) (st' : Sections) : Prop where
  aligned : AlignedSections st'.io
  covered : ∀ x, cover (freeExtents st'.io) x + cover ((ioGrants gs).map Grant.extent) x ≤
    cover (freeExtents st.io) x
  whole : ∀ g ∈ ioGrants gs, WholePages g.extent

theorem pageSplits_getIo (h : AlignedSections st.io) {addr len : Word}
    (hlen : len.toNat % 4096 = 0) (hne : len ≠ 0) (hadd : addr.toNat + len.toNat < 2 ^ 32)
    (hsplits : addr.toNat % 4096 = 0 ∨ findSlot (RangeSection.offers addr len) st.io = none) :
    PageSplits st (granted .io (getIo st addr len).1 len) (getIo st addr len).2 := by
  rcases hfind : findSlot (RangeSection.offers addr len) st.io with _ | k
  · rw [getIo_of_none hfind]
    exact ⟨h, fun x => Nat.le_refl _, fun g hg => absurd hg List.not_mem_nil⟩
  · obtain ⟨s, hfinds⟩ := finds_of_find hfind
    have haddr := hsplits.resolve_right (by rw [hfind]; exact Option.some_ne_none k)
    have hret : (getIo st addr len).1 = addr := congrArg Prod.fst hfinds.getIo_eq
    have hs : s.len ≠ 0 := (offers_parts hfinds.offers
      (offers_toNat hfinds.offers hne hadd).2.2.2.2 hne hadd).1
    refine ⟨alignedSections_getIo h haddr hlen hfinds hs, fun x => ?_, fun g hg => ?_⟩
    · have hgiven := cover_given hfinds hne hadd x
      have hgrant : cover ((ioGrants (granted .io addr len)).map Grant.extent) x ≤
          cover [addresses addr len] x := by
        rw [ioGrants_granted_io, granted]
        split_ifs
        · exact Nat.zero_le _
        · exact Nat.le_refl _
      rw [hret]
      omega
    · rw [ioGrants_granted_io, hret, granted] at hg
      split_ifs at hg
      · cases hg
      · obtain rfl := List.mem_singleton.mp hg
        refine ⟨haddr, ?_⟩
        simp only [Grant.extent, addresses]
        omega

/-- **The step lemma.**  A step on the RAM list changes no section of a device; a request
splits one, if any, at boundaries. -/
theorem ioStep_pages (h : AlignedSections st.io) {a : IoCall} (ha : a.Requests)
    (hsplits : a.SplitsPages st) {gs : List Grant} (hs : ioStep st a = .ok (st', gs)) :
    PageSplits st gs st' := by
  cases a with
  | add => exact ha.elim
  | ram hs' =>
      obtain ⟨rfl, rfl⟩ : { st with ram := hs' } = st' ∧ [] = gs := by
        simpa [ioStep] using hs
      exact ⟨h, fun x => Nat.le_refl _, fun g hg => absurd hg List.not_mem_nil⟩
  | call c =>
      obtain ⟨⟨addr, len, rfl⟩, hasks⟩ := ha
      have hcall : memStep st (.addrRequest addr len) = .ok (st', gs) := hs
      rcases memStep_addrRequest st addr len with hst | ⟨haddr, hlen, hst⟩ | ⟨-, hst⟩
      · rw [hst] at hcall
        cases hcall
        exact ⟨h, fun x => Nat.le_refl _, fun g hg => absurd hg List.not_mem_nil⟩
      · have hrange : MemCall.ioRange (.addrRequest addr len) = some (addr, pageAlign len) :=
          if_pos ⟨haddr, hlen⟩
        obtain ⟨hne, hadd⟩ := hasks _ _ hrange
        rw [hst, memStep_getIo] at hcall
        cases hcall
        exact pageSplits_getIo h (pageAlign_mod len) hne hadd (hsplits _ _ hrange)
      · rw [hst, memStep_getRam] at hcall
        cases hcall
        have hio := getRam_io st (pageAlign len)
        refine ⟨?_, fun x => ?_, fun g hg => ?_⟩
        · rw [hio]
          exact h
        · rw [ioGrants_granted_ram, hio]
          exact Nat.le_refl _
        · rw [ioGrants_granted_ram] at hg
          cases hg

/-! ## Runs -/

/-- **No page is given to two clients** in a run from sections of whole pages, if each range
that a section offers is asked for at a page boundary.  A request at another address that no
section offers does no harm, and is allowed. -/
theorem page_given_once {st₀ : Sections} (haligned : AlignedSections st₀.io)
    (hapart : (freeExtents st₀.io).Pairwise Extent.Apart) {tr : IoTrace}
    (hrun : Machine.Run ioStep st₀ tr st) (hcalls : ∀ t ∈ tr, t.act.Requests)
    (hsplits : ∀ t ∈ tr, t.act.SplitsPages t.pre) : (ioGranted tr).Pairwise PagesApart := by
  have hkeeps : AlignedSections st.io ∧ (∀ e ∈ ioGranted tr, WholePages e) ∧
      ∀ x, cover (freeExtents st.io) x + cover (ioGranted tr) x ≤ cover (freeExtents st₀.io) x := by
    refine hrun.invariant
      (P := fun tr st => AlignedSections st.io ∧ (∀ e ∈ ioGranted tr, WholePages e) ∧
        ∀ x, cover (freeExtents st.io) x + cover (ioGranted tr) x ≤ cover (freeExtents st₀.io) x)
      (C := fun t => t.act.Requests ∧ t.act.SplitsPages t.pre)
      ⟨haligned, fun e he => absurd he List.not_mem_nil, fun x => Nat.le_refl _⟩ ?_
      fun t ht => ⟨hcalls t ht, hsplits t ht⟩
    rintro tr s a s' gs - ⟨hal, hwhole, hcover⟩ ⟨ha, hsp⟩ hs
    have hstep := ioStep_pages hal ha hsp hs
    refine ⟨hstep.aligned, fun e he => ?_, fun x => ?_⟩
    · rw [ioGranted_snoc, List.mem_append] at he
      rcases he with he | he
      · exact hwhole e he
      · obtain ⟨g, hg, rfl⟩ := List.mem_map.mp he
        exact hstep.whole g hg
    · have hx := hcover x
      have hx' := hstep.covered x
      rw [ioGranted_snoc, cover_append]
      omega
  obtain ⟨-, hwhole, hcover⟩ := hkeeps
  refine pairwise_pagesApart hwhole (pairwise_apart_of_cover_le hapart fun x => ?_)
  have hx := hcover x
  omega

/-- The device list has the four pages of USB. -/
def usbFree : Sections :=
  addrAdd { ram := [], io := [newHolder 0x88000000] } .io 0x47400000 0x4000

theorem slots_usbFree {s : RangeSection} (h : s ∈ slots usbFree.io) :
    s = ⟨0x47400000, 0x4000⟩ ∨ s = ⟨0, 0⟩ := by
  unfold usbFree at h
  exact forall_slots_addrAdd (P := fun s => s = ⟨0x47400000, 0x4000⟩ ∨ s = ⟨0, 0⟩)
    (fun s hs => .inr (mem_slots_newHolder hs)) (.inl rfl) (.inr rfl) s h

theorem aligned_usbFree : AlignedSections usbFree.io := by
  intro s hs hne
  rcases slots_usbFree hs with rfl | rfl
  · exact ⟨rfl, rfl⟩
  · exact absurd rfl hne

theorem apart_usbFree : (freeExtents usbFree.io).Pairwise Extent.Apart := by
  have hroom : HasRoom { ram := [], io := [newHolder 0x88000000] } := by decide +kernel
  refine pairwise_apart_iff_cover_le_one.mpr fun x => ?_
  rw [usbFree, cover_addrAdd (List.cons_ne_nil _ _) hroom, cover_newHolder_zero, Nat.zero_add]
  exact List.countP_le_length

/-- Two clients get a page each. -/
theorem two_pages_given :
    ∃ tr st, Machine.Run ioStep usbFree tr st ∧
      tr.map (fun t => t.events) = [[⟨.io, 0x47401000, 0x1000⟩], [⟨.io, 0x47400000, 0x1000⟩]] ∧
      (ioGranted tr).Pairwise PagesApart := by
  have hcalls : (Machine.replay ioStep usbFree [.call (.addrRequest 0x47401000 0x1000),
      .call (.addrRequest 0x47400000 0x800)]).map (fun r => r.1.map fun t => t.events) =
        .ok [[⟨.io, 0x47401000, 0x1000⟩], [⟨.io, 0x47400000, 0x1000⟩]] := by
    decide +kernel
  obtain ⟨tr, st, hrun, hacts, hevs⟩ := Machine.exists_of_replay hcalls
  have hact : ∀ t ∈ tr, t.act = .call (.addrRequest 0x47401000 0x1000) ∨
      t.act = .call (.addrRequest 0x47400000 0x800) := by
    intro t ht
    have hmem := List.mem_map_of_mem (f := fun t => t.act) ht
    rw [hacts] at hmem
    simpa using hmem
  refine ⟨tr, st, hrun, hevs, page_given_once aligned_usbFree apart_usbFree hrun
    (fun t ht => ?_) fun t ht => ?_⟩
  · rcases hact t ht with h | h <;> rw [h]
    · refine ⟨⟨_, _, rfl⟩, ?_⟩
      rintro addr len ⟨⟩
      decide
    · refine ⟨⟨_, _, rfl⟩, ?_⟩
      rintro addr len ⟨⟩
      decide
  · rcases hact t ht with h | h <;> rw [h]
    · rintro addr len ⟨⟩
      exact .inl rfl
    · rintro addr len ⟨⟩
      exact .inl rfl

/-- A client asks for a page from the middle of one to the middle of the next, and another one
for a page from there on: both get the page in between. -/
theorem page_shared :
    ∃ tr st, Machine.Run ioStep usbFree tr st ∧ (∀ t ∈ tr, t.act.Requests) ∧
      tr.map (fun t => t.events) = [[⟨.io, 0x47400800, 0x1000⟩], [⟨.io, 0x47401800, 0x1000⟩]] ∧
      AlignedSections usbFree.io ∧ (freeExtents usbFree.io).Pairwise Extent.Apart ∧
      ¬ (ioGranted tr).Pairwise PagesApart := by
  have hcalls : (Machine.replay ioStep usbFree [.call (.addrRequest 0x47400800 0x1000),
      .call (.addrRequest 0x47401800 0x1000)]).map (fun r => r.1.map fun t => t.events) =
        .ok [[⟨.io, 0x47400800, 0x1000⟩], [⟨.io, 0x47401800, 0x1000⟩]] := by
    decide +kernel
  obtain ⟨tr, st, hrun, hacts, hevs⟩ := Machine.exists_of_replay hcalls
  refine ⟨tr, st, hrun, fun t ht => ?_, hevs, aligned_usbFree, apart_usbFree, fun hpages => ?_⟩
  · have hmem := List.mem_map_of_mem (f := fun t => t.act) ht
    rw [hacts] at hmem
    simp only [List.mem_cons, List.not_mem_nil, or_false] at hmem
    rcases hmem with h | h <;> rw [h]
    · refine ⟨⟨_, _, rfl⟩, ?_⟩
      rintro addr len ⟨⟩
      decide
    · refine ⟨⟨_, _, rfl⟩, ?_⟩
      rintro addr len ⟨⟩
      decide
  · have hgranted : ioGranted tr = [addresses 0x47400800 0x1000, addresses 0x47401800 0x1000] := by
      have hmap : ioGranted tr =
          (ioGrants ((tr.map fun t => t.events).flatMap id)).map Grant.extent := by
        rw [ioGranted, List.flatMap_map]
        rfl
      rw [hmap, hevs]
      rfl
    rw [hgranted, List.pairwise_pair] at hpages
    exact hpages 0x47401 ⟨⟨0x47401000, ⟨by decide, by decide⟩, rfl⟩,
      ⟨0x47401800, ⟨by decide, by decide⟩, rfl⟩⟩

end Omb
