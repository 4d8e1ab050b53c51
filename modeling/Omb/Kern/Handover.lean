import Omb.Kern.Accept

/-!
# What a transfer hands over

A call that returns `OK` between two spaces moves the whole range: each page of the taker's
range maps the frame of the page at the same offset of the giver's, which is unmapped
(`accept_moves_range`).

The frame may be none.  `space_find` answers nil for a page that is not mapped, and the loop
does not test for that (the `if (p == nil)` behind it tests the process), so `space_map` maps
frame 0 for it.  The call maps nothing but pages of the giver exactly when each page it gets
to is mapped (`onlyMapped_iff`).

A page of the giver may have come to be mapped in an earlier turn of the same call, when the
two ranges are in one space and overlap; so the condition is on the memory that each turn
finds, which the rule for moves traces back to the memory before the call (`Fits.mapped_iff`).

Both results are for any `get_page` that returns pages in use nowhere.  That of the kernel
returns none, and then a call comes as far as the first page without a table.

## Main results

* `accept_moves_range`: what a call that returns `OK` has moved
* `onlyMapped_iff`: when only pages that the giver has are transferred
-/

namespace Omb

open Relocation

section

variable {s s' : State} {u p : ProcRef} {pid start len flags : Word} {supply : List Word}
  {t : Transfer}

/-- Offsets of the pages of a range are those of its turns. -/
theorem exists_pageOffset {l len : Word} (hl : l < len) (hpage : l.toNat % 4096 = 0) :
    ∃ i < turns len, l = pageOffset i := by
  have hlt : l.toNat < len.toNat := hl
  refine ⟨l.toNat / 4096, ?_, BitVec.eq_of_toNat_eq ?_⟩
  · unfold turns
    omega
  · rw [pageOffset, BitVec.toNat_ofNat]
    have hbound := l.isLt
    omega

/-- **A successful accept moves the whole range.**  Between two spaces, when all pages of the
giver's range are mapped, each page of the taker's range then maps the frame that the page at
the same offset of the giver's range mapped, and that page is unmapped.  Within one space a
page that is in both ranges may be moved on, or be unmapped in its turn. -/
theorem accept_moves_range (h : s.CallFits u p start len supply) (hp : deref pid.toInt = .ok p)
    (hdistinct : (s.procs u).space ≠ (s.procs p).space)
    (ht : acceptedTransfer s u p start len flags = some t)
    (hmapped : ∀ l < len, l.toNat % 4096 = 0 → s.Mapped t.giver (t.vf + l))
    (hcall : sysAddrAccept s u pid start len flags supply = .ok (s', [.returned u ok])) :
    ∀ l < len, l.toNat % 4096 = 0 →
      frameOf (s'.descr t.taker (t.vt + l)) = frameOf (s.descr t.giver (t.vf + l)) ∧
      ¬ s'.Mapped t.giver (t.vf + l) := by
  intro l hl hpage
  have hgiven := hmapped l hl hpage
  obtain ⟨i, hi, rfl⟩ := exists_pageOffset hl hpage
  have hfits := h.fits ht
  have hne : (s.procs t.giver).space ≠ (s.procs t.taker).space := by
    obtain ⟨-, -, -, ⟨-, -, rfl⟩ | ⟨-, -, rfl⟩⟩ := acceptedTransfer_eq_some ht
    · exact hdistinct
    · exact hdistinct.symm
  -- no page is both taken from and taken to
  have hapart : ∀ j k, (t.pageLoop s flags).dst j ≠ (t.pageLoop s flags).src k := by
    intro j k heq
    exact hne (Prod.mk.inj heq).1.symm
  rcases sysAddrAccept_ends flags h hp with ⟨hnone, -⟩ | ⟨t', ht', r, n, y, hend, hends⟩
  · rw [hnone] at ht
    cases ht
  · obtain rfl : t = t' := Option.some.inj (ht.symm.trans ht')
    rw [hend] at hcall
    cases hcall
    obtain ⟨-, rfl⟩ : ok = ok ∧ n = turns len :=
      hends.result.resolve_right fun herr => absurd herr.1 (by decide)
    have hmoves := hfits.moves (le_refl _) hends.after
    have htaker := hmoves.landed_origin (stamp_stamp flags) (.first fun m _ => hapart m i) hi
      hfits.taker fun m _ _ => (hapart i m).symm
    have hgiver := hmoves.emptied hi fun m _ _ => hapart m i
    rw [hends.descrs_eq] at htaker hgiver
    have hbefore : s.descr t.giver (t.vf + pageOffset i) =
        descrs s.mem ((t.pageLoop s flags).src i) := h.translate_giver ht s.mem hi
    constructor
    · rw [State.Mapped, hbefore] at hgiven
      calc frameOf (translate y.1 (s.procs t.taker).space (t.vt + pageOffset i))
          = frameOf (stamp flags (descrs s.mem ((t.pageLoop s flags).src i))) := by
            rw [h.translate_taker ht y.1 hi]
            exact congrArg frameOf htaker
        _ = frameOf (descrs s.mem ((t.pageLoop s flags).src i)) := by
            rw [stamp, frameOf_l2Descr (pageMask_aligned _), frameOf_eq_some hgiven]
        _ = frameOf (s.descr t.giver (t.vf + pageOffset i)) := by rw [hbefore]
    · rw [State.Mapped, not_not]
      calc frameOf (translate y.1 (s.procs t.giver).space (t.vf + pageOffset i))
          = frameOf l2Fault := by rw [h.translate_giver ht y.1 hi, hgiver]
        _ = none := frameOf_l2Fault

end

/-- The call of process 0 that takes the page of process 1 to `0x3000`. -/
theorem callFits_offeredPage {m : Mem} {supply : List Word}
    (h : Tables m {0x10000, 0x20000} ∧ FreshSupply m {0x10000, 0x20000} supply) :
    (offeredPage m).CallFits 0 1 0x3000 0x1000 supply where
  tables := h.1
  supply := h.2
  start _ hl := covered_of_lt covered_taken rfl hl
  offer l hl := by
    show Covered (0x1000 + l)
    exact covered_of_lt covered_given rfl hl

theorem callFits_given :
    (offeredPage givenMem).CallFits 0 1 0x3000 0x1000 [0x9000] :=
  callFits_offeredPage givenMem_spec

/-- Process 0 takes the page of process 1, and with it the frame `0x5000`. -/
theorem page_handed_over :
    ∃ s', sysAddrAccept (offeredPage givenMem) 0 1 0x3000 0x1000 7 [0x9000] =
      .ok (s', [.returned 0 ok]) ∧
      frameOf (s'.descr 0 (0x3000 + 0)) = some 0x5000 ∧ ¬ s'.Mapped 1 (0x1000 + 0) := by
  obtain ⟨s', hcall⟩ := exists_of_map_snd
    (x := sysAddrAccept (offeredPage givenMem) 0 1 0x3000 0x1000 7 [0x9000])
    (e := [.returned 0 ok]) (by decide +kernel)
  obtain ⟨htaken, hgiven⟩ := accept_moves_range callFits_given (p := 1) rfl (by decide)
    (transfer_offeredPage givenMem) (fun l hl _ => mapped_given (by decide +kernel) l hl) hcall 0
    (by decide) rfl
  refine ⟨s', hcall, ?_, hgiven⟩
  rw [htaken]
  decide +kernel

/-! ## Pages that are not mapped -/

namespace PageLoop

variable {c : PageLoop} {S : Set Word} {len : Word} {x y : Mem × List Word} {n i : ℕ}

/-- When a turn comes to a page that the giver has not mapped, the call returns `ERR` and the
turn maps nothing for the taker. -/
def OnlyMapped (c : PageLoop) (len : Word) (x : Mem × List Word) (r : Word) : Prop :=
  ∀ i < turns len, ∀ y, c.after x i = some y →
    frameOf (translate y.1 c.giver (c.vf + pageOffset i)) = none →
      r = err ∧ c.turn i y = none

/-- A page is mapped when its turn comes if it was mapped before the call, or has got a frame
in an earlier turn. -/
theorem Fits.mapped_iff (h : c.Fits S len x) (hi : i < turns len) (hy : c.after x i = some y) :
    frameOf (descrs y.1 (c.src i)) ≠ none ↔
      frameOf (descrs x.1 (c.src i)) ≠ none ∨ ∃ k < i, c.dst k = c.src i := by
  have hmoves := h.moves hi.le hy
  have hsrc : ∀ m < i, c.src m ≠ c.src i := by
    intro m hm heq
    have hindex := (Prod.mk.inj heq).2
    exact pageIndex_add_ne h.vf hi hm hindex
  by_cases hex : ∃ k < i, c.dst k = c.src i
  · obtain ⟨k, hk, hdst⟩ := hex
    refine iff_of_true ?_ (.inr ⟨k, hk, hdst⟩)
    have hland := hmoves.landed hk (hdst ▸ h.giver) fun m hm _ => hdst ▸ hsrc m hm
    rw [hdst, descrsAfter_eq hy] at hland
    rw [hland, stamp, frameOf_l2Descr (pageMask_aligned _)]
    exact Option.some_ne_none _
  · have hsame := hmoves.untouched h.giver (Nat.zero_le i) (le_refl i) (fun m hm _ => hsrc m hm)
      fun m hm _ heq => hex ⟨m, hm, heq⟩
    rw [descrsAfter_eq hy] at hsame
    rw [hsame, or_iff_left hex]
    rfl

end PageLoop

/-- **When only pages the giver has are transferred**: each page of the giver's range that the
call gets to is mapped, by the giver or by an earlier turn.  Which turns the call gets to is
known before it.  The second case is that of a process that transfers to itself, where a page
may have been put in place by a turn and is then moved on. -/
theorem onlyMapped_iff {s : State} {u p : ProcRef} (pid : Word) {start len : Word} (flags : Word)
    {supply : List Word} (h : s.CallFits u p start len supply) (hp : deref pid.toInt = .ok p) :
    ∃ r s', sysAddrAccept s u pid start len flags supply = .ok (s', [.returned u r]) ∧
      ((∀ t, acceptedTransfer s u p start len flags = some t →
          (t.pageLoop s flags).OnlyMapped len (s.mem, supply) r) ↔
        ∀ t, acceptedTransfer s u p start len flags = some t → ∀ i < turns len,
          (∀ k ≤ i, (t.pageLoop s flags).HasPage (s.mem, supply) k) →
            s.Mapped t.giver (t.vf + pageOffset i) ∨
              ∃ k < i, (t.pageLoop s flags).dst k = (t.pageLoop s flags).src i) := by
  rcases sysAddrAccept_ends flags h hp with ⟨hnone, hcall⟩ | ⟨t, ht, r, n, y, hcall, hends⟩
  · refine ⟨err, _, hcall, ?_⟩
    simp only [hnone]
    exact ⟨nofun, nofun⟩
  · refine ⟨r, _, hcall, ?_⟩
    simp only [ht, Option.some.injEq, forall_eq']
    have hfits := h.fits ht
    refine forall₂_congr fun i hi => ?_
    rw [← hends.lt_iff hfits hi, State.Mapped, State.descr, h.translate_giver ht _ hi]
    constructor
    · intro hprop hin
      obtain ⟨z, hz⟩ := PageLoop.after_of_le hends.after hin
      obtain ⟨w, hw, hturn⟩ := Option.bind_eq_some_iff.mp hz
      rw [← hfits.mapped_iff hi hw]
      intro hunmapped
      rw [← h.translate_giver ht _ hi] at hunmapped
      rw [(hprop w hw hunmapped).2] at hturn
      cases hturn
    · intro hcond w hw hunmapped
      have hunmapped' : frameOf (descrs w.1 ((t.pageLoop s flags).src i)) = none := by
        rw [← h.translate_giver ht _ hi]
        exact hunmapped
      have hnot : ¬ i < n := fun hin => (hfits.mapped_iff hi hw).mpr (hcond hin) hunmapped'
      have hpage : ¬ (t.pageLoop s flags).HasPage (s.mem, supply) i := by
        intro hpage
        refine hnot ((hends.lt_iff hfits hi).mpr fun k hk => ?_)
        rcases Nat.lt_or_eq_of_le hk with hlt | rfl
        · exact (hfits.after_ne_none_iff hi.le).mp ⟨w, hw⟩ k hlt
        · exact hpage
      refine ⟨?_, (hfits.turn_after hi hw).mpr hpage⟩
      rcases hends.result with ⟨-, rfl⟩ | ⟨herr, -⟩
      · exact absurd hi hnot
      · exact herr

/-- Process 0 takes a page that process 1 has not mapped, and gets frame 0.  Its table is
there, so `get_page` is not called. -/
theorem unmapped_page_taken :
    (∃ s', sysAddrAccept (offeredPage (withTable (fun _ => 0) 0x8000)) 0 1 0x3000 0x1000 7 [] =
        .ok (s', [.returned 0 ok]) ∧ frameOf (s'.descr 0 0x3000) = some nil) ∧
      ¬ (offeredPage (withTable (fun _ => 0) 0x8000)).Mapped 1 0x1000 ∧
      ∃ t, acceptedTransfer (offeredPage (withTable (fun _ => 0) 0x8000)) 0 1 0x3000 0x1000 7 =
          some t ∧
        ¬ (t.pageLoop (offeredPage (withTable (fun _ => 0) 0x8000)) 7).OnlyMapped 0x1000
          (withTable (fun _ => 0) 0x8000, []) ok := by
  refine ⟨?_, fun hmapped => hmapped (by decide +kernel), _, transfer_offeredPage _,
    fun hprop => ?_⟩
  · have hcall : (sysAddrAccept (offeredPage (withTable (fun _ => 0) 0x8000)) 0 1 0x3000 0x1000 7
        []).map (fun out => (frameOf (out.1.descr 0 0x3000), out.2)) =
          .ok (some nil, [.returned 0 ok]) := by
      decide +kernel
    obtain ⟨⟨s', evs⟩, hout, hpair⟩ := exists_of_map hcall
    obtain ⟨hframe, rfl⟩ := Prod.mk.inj hpair
    exact ⟨s', hout, hframe⟩
  · exact absurd (hprop 0 (by decide) _ rfl (by decide +kernel)).1 (by decide)

/-- The page that process 1 has mapped. -/
theorem mapped_page_taken :
    ∃ r s', sysAddrAccept (offeredPage givenMem) 0 1 0x3000 0x1000 7 [0x9000] =
        .ok (s', [.returned 0 r]) ∧
      ∀ t, acceptedTransfer (offeredPage givenMem) 0 1 0x3000 0x1000 7 = some t →
        (t.pageLoop (offeredPage givenMem) 7).OnlyMapped 0x1000 (givenMem, [0x9000]) r := by
  obtain ⟨r, s', hcall, hiff⟩ := onlyMapped_iff 1 7 callFits_given rfl
  refine ⟨r, s', hcall, hiff.mpr fun t ht i hi _ => .inl ?_⟩
  obtain rfl := Option.some.inj ((transfer_offeredPage givenMem).symm.trans ht)
  have hone : turns 0x1000 = 1 := by decide
  obtain rfl : i = 0 := by omega
  exact mapped_given (by decide +kernel) 0 (by decide)

end Omb
