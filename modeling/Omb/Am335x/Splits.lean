import Omb.Am335x.Remainders

/-!
# Sections that `get_io` splits

A device list starts as one holder with nothing in it.  `addr_add` puts regions into it, and
each call of `get_io` splits the section it finds: what is before the range stays, and what is
behind it goes to the first empty slot, or to a new holder if there is a page for one.  So
that there may or may not be one, the RAM list can be changed at any point of a run.

Over a run the free sections and the ranges given away cover no address more often than the
regions that were added do (`run_ledger`).  For regions that are pairwise apart all of them
are pairwise apart then (`split_keeps_apart`).

Two things are asked of the calls (`IoCall.InRange`): that no range wraps around, and that no
region starts at nil, as `get_io` returns nil for one that it cannot give away.

A range that is in one section is always given to who asks for it, wherever in the list the
section is: a section before it that passed the test would contain the range as well.

## Main results

* `ioStep_splits`: what one step keeps
* `run_ledger`: what holds in a run
* `split_keeps_apart`: splitting keeps the list apart from what was given away
-/

namespace Omb

open Cover

variable {st st' : Sections}

/-! ## Runs with the device list -/

/-- What happens to the device list: a region is added, or there is a call, or the RAM list
gets to be another one. -/
inductive IoCall where
  | add (start len : Word)
  | call (c : MemCall)
  | ram (hs : List SectionHolder)

/-- One of them, with what it gives away. -/
def ioStep (st : Sections) : IoCall → Except Empty (Sections × List Grant)
  | .add start len => .ok (addrAdd st .io start len, [])
  | .call c => memStep st c
  | .ram hs => .ok ({ st with ram := hs }, [])

/-- The region that is added. -/
def IoCall.added : IoCall → List (Extent ℕ)
  | .add start len => [addresses start len]
  | .call _ => []
  | .ram _ => []

/-- A region that is added does not start at nil, and neither it nor a range that is asked for
wraps around.  Of the RAM list nothing is asked. -/
def IoCall.InRange : IoCall → Prop
  | .add start len => start ≠ nil ∧ start.toNat + len.toNat < 2 ^ 32
  | .call c => c.AsksInRange
  | .ram _ => True

abbrev IoTrace : Type :=
  List (Machine.Transition Sections IoCall Grant)

/-- The device ranges given away in a run. -/
def ioGranted (tr : IoTrace) : List (Extent ℕ) :=
  (ioGrants (tr.flatMap fun t => t.events)).map Grant.extent

/-- The regions added in it. -/
def regionsAdded (tr : IoTrace) : List (Extent ℕ) :=
  tr.flatMap fun t => t.act.added

theorem ioGranted_snoc (tr : IoTrace) (s s' : Sections) (a : IoCall) (gs : List Grant) :
    ioGranted (tr ++ [⟨s, a, gs, s'⟩]) = ioGranted tr ++ (ioGrants gs).map Grant.extent := by
  simp [ioGranted, ioGrants]

theorem regionsAdded_snoc (tr : IoTrace) (s s' : Sections) (a : IoCall) (gs : List Grant) :
    regionsAdded (tr ++ [⟨s, a, gs, s'⟩]) = regionsAdded tr ++ a.added := by
  simp [regionsAdded]

/-! ## Sections that do not start at nil -/

/-- No section with something in it starts at nil. -/
def StartsBehindNil (hs : List SectionHolder) : Prop :=
  ∀ s ∈ slots hs, s.len ≠ 0 → s.start ≠ nil

theorem startsBehindNil_newHolder (page : Word) : StartsBehindNil [newHolder page] :=
  fun s hs hne => by
    rw [mem_slots_newHolder hs] at hne
    exact absurd rfl hne

/-- A part of a section that does not start at nil does not either. -/
theorem InSection.start_ne_nil (h : StartsBehindNil st.io) {s : RangeSection} (hne : s.len ≠ 0)
    (hin : InSection st.io s.extent) : s.start ≠ nil := by
  obtain ⟨s', hs', hwithin⟩ := hin
  have hpos : 0 < s.len.toNat := Nat.pos_of_ne_zero fun h0 => hne (BitVec.eq_of_toNat_eq h0)
  have hfirst := hwithin s.start.toNat ⟨Nat.le_refl _, Nat.lt_add_of_pos_right hpos⟩
  have hlen : s'.len ≠ 0 := by
    intro h0
    have hempty : s'.extent.hi ≤ s'.extent.lo := by
      simp [RangeSection.extent, addresses, h0]
    exact Extent.not_has_of_le hempty _ hfirst
  intro hnil
  have hle : s'.start.toNat ≤ s.start.toNat := hfirst.1
  rw [hnil] at hle
  exact h s' hs' hlen (BitVec.eq_of_toNat_eq (Nat.le_zero.mp hle))

theorem startsBehindNil_getIo (hin : IoInRange st.io) (h : StartsBehindNil st.io)
    {addr len : Word} (hne : len ≠ 0) (hadd : addr.toNat + len.toNat < 2 ^ 32) :
    StartsBehindNil (getIo st addr len).2.io := by
  rcases getIo_cases st addr len with ⟨-, hst⟩ | ⟨k, s, hk, hs, hst⟩
  · rw [hst]
    exact h
  · rw [hst]
    have hsec := hin s (List.mem_of_getElem? hk)
    intro s' hs' hlen
    exact (left_of_offers hk hs hsec hne hadd s' hs' hlen).start_ne_nil h hlen

/-! ## One step -/

/-- What a step keeps, and what it gives away.  A range that is given away was in one section.
-/
structure IoSplits (st : Sections) (a : IoCall) (gs : List Grant) (st' : Sections) : Prop where
  inRange : IoInRange st'.io
  behindNil : StartsBehindNil st'.io
  covered : ∀ x, cover (freeExtents st'.io) x + cover ((ioGrants gs).map Grant.extent) x ≤
    cover (freeExtents st.io) x + cover a.added x
  inSection : ∀ g ∈ ioGrants gs, InSection st.io g.extent

theorem ioSplits_getIo (hin : IoInRange st.io) (hnil : StartsBehindNil st.io) {c : MemCall}
    {addr len : Word} (hc : c.ioRange = some (addr, len)) (hasks : c.AsksInRange)
    {gs : List Grant} (h : memStep st (.getIo addr len) = .ok (st', gs)) :
    IoSplits st (.call c) gs st' := by
  obtain ⟨hne, hadd⟩ := hasks addr len hc
  have hkeeps := ioKeeps_getIo hin hc hasks h
  rw [memStep_getIo] at h
  cases h
  refine ⟨hkeeps.inRange, startsBehindNil_getIo hin hnil hne hadd, hkeeps.covered, fun g hg => ?_⟩
  rcases getIo_cases st addr len with ⟨-, hst⟩ | ⟨k, s, hk, hs, hst⟩
  · rw [hst] at hg
    exact absurd hg List.not_mem_nil
  · have hasked := hkeeps.asked g hg
    rw [hc, Option.some_inj, Prod.mk.injEq] at hasked
    have hextent : g.extent = addresses addr len := by
      rw [Grant.extent, ← hasked.1, ← hasked.2]
    rw [hextent]
    exact ⟨s, List.mem_of_getElem? hk,
      (offers_within hs (hin s (List.mem_of_getElem? hk)) hne hadd).1⟩

theorem ioSplits_getRam (hin : IoInRange st.io) (hnil : StartsBehindNil st.io) (c : MemCall)
    {len : Word} {gs : List Grant} (h : memStep st (.getRam len) = .ok (st', gs)) :
    IoSplits st (.call c) gs st' := by
  have hkeeps := ioKeeps_getRam hin c h
  rw [memStep_getRam] at h
  cases h
  refine ⟨hkeeps.inRange, ?_, hkeeps.covered, fun g hg => ?_⟩
  · rw [getRam_io]
    exact hnil
  · rw [ioGrants_granted_ram] at hg
    cases hg

theorem ioSplits_call (hin : IoInRange st.io) (hnil : StartsBehindNil st.io) {c : MemCall}
    (hasks : c.AsksInRange) {gs : List Grant} (h : memStep st c = .ok (st', gs)) :
    IoSplits st (.call c) gs st' := by
  cases c with
  | getRam len => exact ioSplits_getRam hin hnil _ h
  | getIo addr len => exact ioSplits_getIo hin hnil rfl hasks h
  | addrRequest addr len =>
      rcases memStep_addrRequest st addr len with hst | ⟨haddr, hlen, hst⟩ | ⟨-, hst⟩
      · rw [hst] at h
        cases h
        exact ⟨hin, hnil, fun x => Nat.le_refl _, fun g hg => absurd hg List.not_mem_nil⟩
      · rw [hst] at h
        have hrange : MemCall.ioRange (.addrRequest addr len) = some (addr, pageAlign len) :=
          if_pos ⟨haddr, hlen⟩
        exact ioSplits_getIo hin hnil hrange hasks h
      · rw [hst] at h
        exact ioSplits_getRam hin hnil _ h

/-- **The step lemma.**  Covers count, so it does not matter which slot the end of a section
has gone to. -/
theorem ioStep_splits (hin : IoInRange st.io) (hnil : StartsBehindNil st.io) {a : IoCall}
    (ha : a.InRange) {gs : List Grant} (h : ioStep st a = .ok (st', gs)) :
    IoSplits st a gs st' := by
  cases a with
  | add start len =>
      obtain ⟨rfl, rfl⟩ : addrAdd st .io start len = st' ∧ [] = gs := by
        simpa [ioStep] using h
      have hadds := addsIo_addrAdd st start len
      have hstart : StartsBehindNil (addrAdd st .io start len).io :=
        forall_slots_addrAdd hnil (fun _ => ha.1) fun h => absurd rfl h
      exact ⟨hadds.inRange hin ha.2, hstart, hadds.covered, fun g hg => absurd hg List.not_mem_nil⟩
  | call c => exact ioSplits_call hin hnil ha h
  | ram hs =>
      obtain ⟨rfl, rfl⟩ : { st with ram := hs } = st' ∧ [] = gs := by
        simpa [ioStep] using h
      exact ⟨hin, hnil, fun x => Nat.le_refl _, fun g hg => absurd hg List.not_mem_nil⟩

/-! ## Runs -/

/-- What holds in a run from an empty device list.  It needs no condition on the regions but
`IoCall.InRange`; if they overlap, so may what is given away. -/
structure Ledger (tr : IoTrace) (st : Sections) : Prop where
  inRange : IoInRange st.io
  behindNil : StartsBehindNil st.io
  covered : ∀ x, cover (freeExtents st.io) x + cover (ioGranted tr) x ≤
    cover (regionsAdded tr) x
  inSection : ∀ t ∈ tr, ∀ g ∈ ioGrants t.events, InSection t.pre.io g.extent

theorem run_ledger {ram : List SectionHolder} {page : Word} {tr : IoTrace}
    (hrun : Machine.Run ioStep ⟨ram, [newHolder page]⟩ tr st) (hcalls : ∀ t ∈ tr, t.act.InRange) :
    Ledger tr st := by
  refine hrun.invariant (P := Ledger)
    ⟨ioInRange_newHolder page, startsBehindNil_newHolder page, fun x => ?_,
      fun t ht => absurd ht List.not_mem_nil⟩ ?_ hcalls
  · rw [cover_newHolder_zero]
    exact Nat.le_refl _
  · rintro tr s a s' gs - ih ha hs
    have hstep := ioStep_splits ih.inRange ih.behindNil (a := a) ha hs
    refine ⟨hstep.inRange, hstep.behindNil, fun x => ?_, fun t ht => ?_⟩
    · have hx := ih.covered x
      have hx' := hstep.covered x
      rw [ioGranted_snoc, regionsAdded_snoc, cover_append, cover_append]
      omega
    · rcases List.mem_append.mp ht with ht | ht
      · exact ih.inSection t ht
      · obtain rfl := List.mem_singleton.mp ht
        exact hstep.inSection

/-- A range inside one section is given to who asks for it. -/
theorem getIo_of_inSection (hin : IoInRange st.io) {addr len : Word} (hne : len ≠ 0)
    (hadd : addr.toNat + len.toNat < 2 ^ 32) (hsec : InSection st.io (addresses addr len)) :
    (getIo st addr len).1 = addr := by
  obtain ⟨s, hs, hwithin⟩ := hsec
  have hpos : 0 < len.toNat := Nat.pos_of_ne_zero fun h0 => hne (BitVec.eq_of_toNat_eq h0)
  have hfirst := (hwithin addr.toNat ⟨Nat.le_refl _, Nat.lt_add_of_pos_right hpos⟩).1
  have hlast := (hwithin (addr.toNat + len.toNat - 1)
    ⟨by simp only [addresses]; omega, by simp only [addresses]; omega⟩).2
  simp only [RangeSection.extent, addresses] at hfirst hlast
  have hend := hin s hs
  have hoffers : s.offers addr len = true := by
    rw [RangeSection.offers, decide_eq_true_eq, BitVec.le_def, BitVec.le_def, BitVec.toNat_add,
      BitVec.toNat_add]
    omega
  rcases getIo_cases st addr len with ⟨hnone, -⟩ | ⟨k, s', -, -, hst⟩
  · have hnot := List.findIdx?_eq_none_iff.mp hnone s hs
    rw [hoffers] at hnot
    cases hnot
  · rw [hst]

/-- **Splitting keeps the device list apart from what was given away.**  In a run that adds
regions which are pairwise apart, the free sections and the ranges given away stay pairwise
apart, each range was in one free section when it was given away, and a range inside one free
section is always given to who asks for it. -/
theorem split_keeps_apart {ram : List SectionHolder} {page : Word} {tr : IoTrace}
    (hrun : Machine.Run ioStep ⟨ram, [newHolder page]⟩ tr st) (hcalls : ∀ t ∈ tr, t.act.InRange)
    (hapart : (regionsAdded tr).Pairwise Extent.Apart) :
    (freeExtents st.io ++ ioGranted tr).Pairwise Extent.Apart ∧
      (∀ t ∈ tr, ∀ g ∈ ioGrants t.events, InSection t.pre.io g.extent) ∧
      ∀ addr len : Word, len ≠ 0 → addr.toNat + len.toNat < 2 ^ 32 →
        InSection st.io (addresses addr len) →
          (getIo st addr len).1 = addr ∧ (getIo st addr len).1 ≠ nil := by
  have hledger := run_ledger hrun hcalls
  refine ⟨pairwise_apart_of_cover_le hapart fun x => ?_, hledger.inSection,
    fun addr len hne hadd hsec => ?_⟩
  · rw [cover_append]
    exact hledger.covered x
  · have hret := getIo_of_inSection hledger.inRange hne hadd hsec
    refine ⟨hret, ?_⟩
    rw [hret]
    exact InSection.start_ne_nil (s := ⟨addr, len⟩) hledger.behindNil hne hsec

/-- The USB registers are split at both ends, and the UART goes as a whole.  In between there
is no more RAM. -/
theorem usb_and_uart_split :
    ∃ ram page tr st, Machine.Run ioStep ⟨ram, [newHolder page]⟩ tr st ∧
      tr.map (fun t => t.events) = [[], [], [⟨.io, 0x47401000, 0x1000⟩], [],
        [⟨.io, 0x44E09000, 0x1000⟩], [⟨.io, 0x47402800, 0x400⟩]] ∧
      (freeExtents st.io ++ ioGranted tr).Pairwise Extent.Apart := by
  have hcalls : (Machine.replay ioStep ⟨[newHolder 0x80000000], [newHolder 0x88000000]⟩
      [.add 0x47400000 0x4000, .add 0x44E09000 0x1000, .call (.getIo 0x47401000 0x1000),
        .ram [], .call (.addrRequest 0x44E09000 0x1000), .call (.getIo 0x47402800 0x400)]).map
        (fun r => r.1.map fun t => t.events) =
      .ok [[], [], [⟨.io, 0x47401000, 0x1000⟩], [], [⟨.io, 0x44E09000, 0x1000⟩],
        [⟨.io, 0x47402800, 0x400⟩]] := by
    decide +kernel
  obtain ⟨tr, st, hrun, hacts, hevs⟩ := Machine.exists_of_replay hcalls
  have hadded : regionsAdded tr = [⟨0x47400000, 0x47404000⟩, ⟨0x44E09000, 0x44E0A000⟩] := by
    have hmap : regionsAdded tr = (tr.map fun t => t.act).flatMap IoCall.added := by
      rw [regionsAdded, List.flatMap_map]
    rw [hmap, hacts]
    rfl
  refine ⟨_, _, tr, st, hrun, hevs, (split_keeps_apart hrun (fun t ht => ?_) ?_).1⟩
  · have hmem := List.mem_map_of_mem (f := fun t => t.act) ht
    rw [hacts] at hmem
    simp only [List.mem_cons, List.not_mem_nil, or_false] at hmem
    rcases hmem with h | h | h | h | h | h <;> rw [h]
    · exact ⟨by decide, by decide⟩
    · exact ⟨by decide, by decide⟩
    · rintro addr len ⟨⟩
      decide
    · trivial
    · rintro addr len ⟨⟩
      decide
    · rintro addr len ⟨⟩
      decide
  · rw [hadded, List.pairwise_pair]
    exact .of_le (.inr (by decide))

end Omb
