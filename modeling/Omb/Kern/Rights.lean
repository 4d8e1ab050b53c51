import Omb.Kern.Handover
import Omb.Am335x.Attributes

/-!
# Access rights over a transfer

`space_find` reports with each page what the giver may do with it, and the loop of
`sys_addr_accept` does not look at that: the taker gets the page with the rights the two
processes have agreed on.  A page that the giver can only read is so mapped writable for the
taker, who may be a partner of the giver, or the giver itself (`readonly_page_taken`).

`noGain_iff` says when no rights are gained: if no write access is asked for, or all pages
that stay where they are taken were writable for the giver.

Only pages that stay count.  Where a process transfers to itself and the ranges overlap, a
page may be taken and given away again in the same call, and what its rights were in between
is nobody's gain.  A page that has been moved on is writable for the giver if the page it has
come from was, before the call.

The cache bits are another matter: what is stored and what is read back differ, as
`Omb.Am335x.Attributes` shows.

## Main results

* `PageLoop.Fits.writable_taken_iff`: what a page taken can be used for
* `noGain_iff`: when a transfer gains no rights
-/

namespace Omb

open Relocation

/-- A descriptor of a page that the process can write. -/
def Writable (d : Word) : Prop :=
  frameOf d ≠ none ∧ flagsFromMap d &&& addrWrite ≠ 0

theorem not_writable_l2Fault : ¬ Writable l2Fault := fun h => h.1 frameOf_l2Fault

/-- What the call asks for decides. -/
theorem writable_stamp (flags d : Word) : Writable (stamp flags d) ↔ flags &&& addrWrite ≠ 0 := by
  have haligned := pageMask_aligned d
  have hframe : frameOf (stamp flags d) ≠ none := by
    rw [stamp, frameOf_l2Descr haligned]
    exact Option.some_ne_none _
  rw [Writable, and_iff_right hframe]
  exact (flagsFromMap_attributes haligned flags rfl).2.1

namespace PageLoop

variable {c : PageLoop} {S : Set Word} {len : Word} {x y : Mem × List Word} {n i : ℕ}

/-- Pages the turns have mapped for the taker are writable in `m'` only if the giver's page
each comes from was writable before the call. -/
def NoGain (c : PageLoop) (len : Word) (x : Mem × List Word) (m' : Mem) : Prop :=
  ∀ i < turns len, (∃ y, c.after x (i + 1) = some y) → ∀ o, Origin c.src c.dst i o →
    Writable (translate m' c.taker (c.vt + pageOffset i)) →
      Writable (translate x.1 c.giver (c.vf + pageOffset o))

/-- Turn `i` is completed, and no turn from it on takes its page away again.  It is told
before the call. -/
def Stays (c : PageLoop) (len : Word) (x : Mem × List Word) (i : ℕ) : Prop :=
  (∀ k ≤ i, c.HasPage x k) ∧
    ∀ k < turns len, i ≤ k → (∀ j ≤ k, c.HasPage x j) → c.src k ≠ c.dst i

/-- A page taken is writable if it stays and write access is asked for. -/
theorem Fits.writable_taken_iff (h : c.Fits S len x) (hn : n ≤ turns len)
    (hy : c.after x n = some y) (hi : i < n) :
    Writable (descrs y.1 (c.dst i)) ↔
      (∀ k < n, i ≤ k → c.src k ≠ c.dst i) ∧ c.flags &&& addrWrite ≠ 0 := by
  have hmoves := h.moves hn hy
  by_cases hstays : ∀ k < n, i ≤ k → c.src k ≠ c.dst i
  · have hland := hmoves.landed hi h.taker hstays
    rw [descrsAfter_eq hy] at hland
    rw [hland, writable_stamp, and_iff_right hstays]
  · refine iff_of_false ?_ fun hand => hstays hand.1
    push Not at hstays
    obtain ⟨k, hk, hik, hsrc⟩ := hstays
    -- turn `k` takes the page away, and no later one comes back to it
    have hempty := hmoves.emptied hk fun m hm hkm hdst => by
      have hmi := hmoves.dst_inj m hm i hi (hdst.trans hsrc)
      omega
    rw [descrsAfter_eq hy, hsrc] at hempty
    rw [hempty]
    exact not_writable_l2Fault

end PageLoop

section

variable {s : State} {u p : ProcRef} {len flags : Word} {supply : List Word} {t : Transfer}
  {r : Word} {n i : ℕ} {y : Mem × List Word} {S : Set Word}

/-- The turns with a state after them. -/
theorem Transfer.Ends.after_succ_iff (h : t.Ends s len flags supply r n y)
    (hfits : (t.pageLoop s flags).Fits S len (s.mem, supply)) (hi : i < turns len) :
    (∃ z, (t.pageLoop s flags).after (s.mem, supply) (i + 1) = some z) ↔ i < n := by
  rw [hfits.after_ne_none_iff hi, h.lt_iff hfits hi]
  simp only [Nat.lt_succ_iff]

/-- The pages that stay, with the number of turns known. -/
theorem Transfer.Ends.stays_iff (h : t.Ends s len flags supply r n y)
    (hfits : (t.pageLoop s flags).Fits S len (s.mem, supply)) (hi : i < turns len) :
    (t.pageLoop s flags).Stays len (s.mem, supply) i ↔
      i < n ∧ ∀ k < n, i ≤ k → (t.pageLoop s flags).src k ≠ (t.pageLoop s flags).dst i := by
  rw [PageLoop.Stays, ← h.lt_iff hfits hi]
  refine and_congr_right fun _ => ⟨fun hstays k hk hik => ?_, fun hstays k hk hik hall => ?_⟩
  · have hk' := hk.trans_le h.le
    exact hstays k hk' hik ((h.lt_iff hfits hk').mp hk)
  · exact hstays k ((h.lt_iff hfits hk).mpr hall) hik

end

/-- **When a transfer gains no rights**: if it does not ask for write access, or each page
that stays where it is taken was writable for the giver before the call.  Which page of the
giver is in a place after the call is its `Origin`: in a transfer to itself a page can be
moved more than once. -/
theorem noGain_iff {s : State} {u p : ProcRef} (pid : Word) {start len : Word} (flags : Word)
    {supply : List Word} (h : s.CallFits u p start len supply) (hp : deref pid.toInt = .ok p) :
    ∃ r s', sysAddrAccept s u pid start len flags supply = .ok (s', [.returned u r]) ∧
      ((∀ t, acceptedTransfer s u p start len flags = some t →
          (t.pageLoop s flags).NoGain len (s.mem, supply) s'.mem) ↔
        flags &&& addrWrite = 0 ∨ ∀ t, acceptedTransfer s u p start len flags = some t →
          ∀ i < turns len, (t.pageLoop s flags).Stays len (s.mem, supply) i →
            ∀ o, Origin (t.pageLoop s flags).src (t.pageLoop s flags).dst i o →
              Writable (s.descr t.giver (t.vf + pageOffset o))) := by
  rcases sysAddrAccept_ends flags h hp with ⟨hnone, hcall⟩ | ⟨t, ht, r, n, y, hcall, hends⟩
  · refine ⟨err, _, hcall, ?_⟩
    simp only [hnone]
    exact iff_of_true nofun (.inr nofun)
  · refine ⟨r, _, hcall, ?_⟩
    simp only [ht, Option.some.injEq, forall_eq']
    have hfits := h.fits ht
    have htaken : ∀ i < turns len, i < n →
        (Writable (translate y.1 (s.procs t.taker).space (t.vt + pageOffset i)) ↔
          (t.pageLoop s flags).Stays len (s.mem, supply) i ∧ flags &&& addrWrite ≠ 0) := by
      intro i hi hin
      rw [h.translate_taker ht y.1 hi, hfits.writable_taken_iff hends.le hends.after hin,
        hends.stays_iff hfits hi, and_iff_right hin]
      rfl
    constructor
    · intro hgain
      rcases eq_or_ne (flags &&& addrWrite) 0 with hread | hwrite
      · exact .inl hread
      · refine .inr fun i hi hstays o ho => ?_
        have hin := ((hends.stays_iff hfits hi).mp hstays).1
        exact hgain i hi ((hends.after_succ_iff hfits hi).mpr hin) o ho
          ((htaken i hi hin).mpr ⟨hstays, hwrite⟩)
    · intro hcond i hi hafter o ho hwritable
      have hin := (hends.after_succ_iff hfits hi).mp hafter
      obtain ⟨hstays, hwrite⟩ := (htaken i hi hin).mp hwritable
      exact (hcond.resolve_left hwrite) i hi hstays o ho

/-- The frame `0x5000` is mapped at `0x1000` of process 1, to be read and written. -/
def writableMem : Mem :=
  (spaceMap (fun _ => 0) 0x20000 0x5000 0x1000 addrWrite [0x8000, 0x9000]).2.1

/-- Process 0 takes the page of process 1, which process 1 can write. -/
theorem writable_page_taken :
    ∃ r s', sysAddrAccept (offeredPage writableMem) 0 1 0x3000 0x1000 7 [0x9000] =
        .ok (s', [.returned 0 r]) ∧
      ∀ t, acceptedTransfer (offeredPage writableMem) 0 1 0x3000 0x1000 7 = some t →
        (t.pageLoop (offeredPage writableMem) 7).NoGain 0x1000 (writableMem, [0x9000])
          s'.mem := by
  obtain ⟨r, s', hcall, hiff⟩ := noGain_iff 1 7
    (callFits_offeredPage (mappedPage_spec addrWrite)) rfl
  refine ⟨r, s', hcall, hiff.mpr (.inr fun t ht i hi _ o ho => ?_)⟩
  obtain rfl := Option.some.inj ((transfer_offeredPage _).symm.trans ht)
  have hone : turns 0x1000 = 1 := by decide
  obtain rfl : i = 0 := by omega
  cases ho with
  | first => exact ⟨by decide +kernel, by decide +kernel⟩
  | later hm => exact absurd hm (Nat.not_lt_zero _)

/-- Process 1 can only read its page, and process 0 can write it when it has taken it.  No
page is asked for, as the table of process 0 is there. -/
theorem readonly_page_taken :
    ∃ s', sysAddrAccept (offeredPage (withTable givenMem 0xa000)) 0 1 0x3000 0x1000 7 [] =
        .ok (s', [.returned 0 ok]) ∧
      Writable (s'.descr 0 0x3000) ∧
      ¬ Writable ((offeredPage (withTable givenMem 0xa000)).descr 1 0x1000) ∧
      ∃ t, acceptedTransfer (offeredPage (withTable givenMem 0xa000)) 0 1 0x3000 0x1000 7 = some t ∧
        ¬ (t.pageLoop (offeredPage (withTable givenMem 0xa000)) 7).NoGain 0x1000
          (withTable givenMem 0xa000, []) s'.mem := by
  have hcall : (sysAddrAccept (offeredPage (withTable givenMem 0xa000)) 0 1 0x3000 0x1000 7 []).map
      (fun out => ((out.1.descr 0 0x3000, translate out.1.mem 0x10000 0x3000), out.2)) =
        .ok ((0x5036, 0x5036), [.returned 0 ok]) := by
    decide +kernel
  obtain ⟨⟨s', evs⟩, hout, hpair⟩ := exists_of_map hcall
  obtain ⟨hdescrs, rfl⟩ := Prod.mk.inj hpair
  obtain ⟨hdescr, htranslate⟩ := Prod.mk.inj hdescrs
  have hwritable : Writable 0x5036 := ⟨by decide, by decide⟩
  have hreadonly : ¬ Writable ((offeredPage (withTable givenMem 0xa000)).descr 1 0x1000) :=
    fun hw => hw.2 (by decide +kernel)
  refine ⟨s', hout, hdescr ▸ hwritable, hreadonly, _, transfer_offeredPage _, fun hgain => ?_⟩
  refine hreadonly (hgain 0 (by decide) ⟨_, rfl⟩ 0 (.first fun _ hm => absurd hm ?_) ?_)
  · exact Nat.not_lt_zero _
  · exact htranslate ▸ hwritable

end Omb
