import Omb.Kern.Handover

/-!
# Accepts that fail

A call of `sys_addr_accept` that is refused before its loop changes nothing.  One that returns
`ERR` from the loop has completed the turns before, and there is nothing that undoes them: the
pages they have moved stay moved (`failed_accept_moves`).

`failed_accept_iff` says which calls leave the spaces as they were.  Those left in their first
turn do; any other one does only if the turns before it had nothing to move and the taker's
pages held just that already (`PageLoop.Harmless`).

The condition is on memory before the call.  In which turn a call is left is known then, as it
depends on the entries of the first level and on the number of pages that `get_page` has
(`Transfer.Ends.left_iff`); and that the turns before it find what they leave is a condition
on descriptors.  It comes from the rule for moves that change nothing, which needs ranges that
go one way, as those of a transfer do.

## Main results

* `PageLoop.Fits.unchanged_iff`: turns that leave everything as it was
* `failed_accept_iff`: failed calls that leave the spaces as they were
-/

namespace Omb

open Relocation

/-- The first `n` turns find what they leave: no descriptor at the giver's pages, and at the
taker's the one for frame 0.  A page in both ranges counts with the turn that comes to it
last. -/
structure PageLoop.Harmless (c : PageLoop) (m : Mem) (n : ℕ) : Prop where
  giver : ∀ i < n, (Lands c.src c.dst n (c.src i) → descrs m (c.src i) = stamp c.flags l2Fault) ∧
    (¬ Lands c.src c.dst n (c.src i) → descrs m (c.src i) = l2Fault)
  taker : ∀ i < n, Lands c.src c.dst n (c.dst i) → descrs m (c.dst i) = stamp c.flags l2Fault

/-- A call left in its first turn has changed nothing. -/
theorem PageLoop.harmless_zero (c : PageLoop) (m : Mem) : c.Harmless m 0 where
  giver _ hi := absurd hi (Nat.not_lt_zero _)
  taker _ hi := absurd hi (Nat.not_lt_zero _)

/-- Turns leave everything as it was exactly if they find what they leave. -/
theorem PageLoop.Fits.unchanged_iff {c : PageLoop} {S : Set Word} {len : Word}
    {x y : Mem × List Word} {n : ℕ} (h : c.Fits S len x) (hn : n ≤ turns len)
    (hy : c.after x n = some y) :
    (∀ space ∈ S, ∀ va, Covered va → translate y.1 space va = translate x.1 space va) ↔
      c.Harmless x.1 n := by
  have hiff := (h.moves hn hy).unchanged_iff (stamp_stamp c.flags) (h.oneWay hn)
  rw [PageLoop.descrsAfter_eq hy] at hiff
  have hpages : (∀ space ∈ S, ∀ va, Covered va →
      translate y.1 space va = translate x.1 space va) ↔
      ∀ k ∈ {k : SpacePage | k.1 ∈ S}, descrs y.1 k = c.descrsAfter x 0 k := by
    constructor
    · intro hsame k hk
      exact hsame k.1 hk _ (covered_pageAddr k.2)
    · intro hsame space hspace va hva
      rw [translate_eq_descrs _ _ hva, translate_eq_descrs _ _ hva]
      exact hsame (space, pageIndex va) hspace
  rw [hpages, hiff]
  constructor
  · rintro ⟨hsrc, hdst⟩
    exact ⟨hsrc, fun i hi => hdst i hi h.taker⟩
  · rintro ⟨hsrc, hdst⟩
    exact ⟨hsrc, fun i hi _ => hdst i hi⟩

section

variable {s : State} {u p : ProcRef} {len flags : Word} {supply : List Word} {t : Transfer}
  {r : Word} {n : ℕ} {y : Mem × List Word}

/-- The turn a call is left in: the first one that needs a table and has no page for it. -/
theorem Transfer.Ends.left_iff {S : Set Word} (h : t.Ends s len flags supply r n y)
    (hfits : (t.pageLoop s flags).Fits S len (s.mem, supply)) {j : ℕ} (hj : j < turns len) :
    ((∀ i < j, (t.pageLoop s flags).HasPage (s.mem, supply) i) ∧
      ¬ (t.pageLoop s flags).HasPage (s.mem, supply) j) ↔ r = err ∧ j = n := by
  have hbefore := (hfits.after_ne_none_iff h.le).mp ⟨y, h.after⟩
  constructor
  · rintro ⟨hall, hpage⟩
    have hge : n ≤ j := by
      by_contra hlt
      exact hpage (hbefore j (not_le.mp hlt))
    rcases h.result with ⟨-, rfl⟩ | ⟨herr, -, hleft⟩
    · exact absurd hj (not_lt.mpr hge)
    · refine ⟨herr, le_antisymm ?_ hge⟩
      by_contra hlt
      exact hleft (hall n (not_le.mp hlt))
  · rintro ⟨herr, rfl⟩
    rcases h.result with ⟨rfl, -⟩ | ⟨-, -, hleft⟩
    · exact absurd herr (by decide)
    · exact ⟨hbefore, hleft⟩

end

/-- **When a failed accept leaves the address spaces as they were**: if it is left in the
loop, the turns before have found what they leave.  A call that is refused by the checks has
no turns.  The first turn without a page for its table is the one that fails (`HasPage`), so
the condition is about the turns before that one and can be checked in the state before the
call. -/
theorem failed_accept_iff {s : State} {u p : ProcRef} (pid : Word) {start len : Word}
    (flags : Word) {supply : List Word} (h : s.CallFits u p start len supply)
    (hp : deref pid.toInt = .ok p) :
    ∃ r s', sysAddrAccept s u pid start len flags supply = .ok (s', [.returned u r]) ∧
      ((r = err → ∀ space ∈ s.spacesOf u p, ∀ va, Covered va →
          translate s'.mem space va = translate s.mem space va) ↔
        ∀ t, acceptedTransfer s u p start len flags = some t → ∀ n < turns len,
          (∀ i < n, (t.pageLoop s flags).HasPage (s.mem, supply) i) →
            ¬ (t.pageLoop s flags).HasPage (s.mem, supply) n →
              (t.pageLoop s flags).Harmless s.mem n) := by
  rcases sysAddrAccept_ends flags h hp with ⟨hnone, hcall⟩ | ⟨t, ht, r, n, y, hcall, hends⟩
  · refine ⟨err, _, hcall, iff_of_true (fun _ _ _ _ _ => rfl) ?_⟩
    rw [hnone]
    exact nofun
  · refine ⟨r, _, hcall, ?_⟩
    simp only [ht, Option.some.injEq, forall_eq']
    have hfits := h.fits ht
    have hsame := hfits.unchanged_iff hends.le hends.after
    constructor
    · intro hkeeps j hj hall hpage
      obtain ⟨herr, rfl⟩ := (hends.left_iff hfits hj).mp ⟨hall, hpage⟩
      exact hsame.mp (hkeeps herr)
    · intro hcond herr
      have hn : n < turns len := by
        rcases hends.result with ⟨rfl, -⟩ | ⟨-, hn, -⟩
        · exact absurd herr (by decide)
        · exact hn
      obtain ⟨hall, hpage⟩ := (hends.left_iff hfits hn).mpr ⟨herr, rfl⟩
      exact hsame.mpr (hcond n hn hall hpage)

/-- Left in the first turn, for want of a page for a table. -/
theorem failed_accept_unchanged :
    ∃ s', sysAddrAccept (offeredPage givenMem) 0 1 0x3000 0x1000 7 [] =
        .ok (s', [.returned 0 err]) ∧
      ∀ space ∈ (offeredPage givenMem).spacesOf 0 1, ∀ va, Covered va →
        translate s'.mem space va = translate givenMem space va := by
  have hfits : (offeredPage givenMem).CallFits 0 1 0x3000 0x1000 [] :=
    { callFits_given with supply := freshSupply_nil }
  obtain ⟨s₁, hcall⟩ := exists_of_map_snd
    (x := sysAddrAccept (offeredPage givenMem) 0 1 0x3000 0x1000 7 [])
    (e := [.returned 0 err]) (by decide +kernel)
  obtain ⟨r, s', hcall', hiff⟩ := failed_accept_iff 1 7 hfits rfl
  obtain ⟨rfl, hevs⟩ := Prod.mk.inj (Except.ok.inj (hcall.symm.trans hcall'))
  refine ⟨s₁, hcall, hiff.mpr (fun t ht n hn _ _ => ?_) (by simpa using hevs.symm)⟩
  have hone : turns 0x1000 = 1 := by decide
  obtain rfl : n = 0 := by omega
  exact PageLoop.harmless_zero ..

/-- Process 1 has offered two pages to process 0. -/
def offeredRange (m : Mem) : State :=
  (twoProcs m).modifyProc 1 fun q =>
    { q with addrOffer := { start := 0x1000, len := 0x2000, flags := 6, toPid := 0 } }

/-- Both are mapped. -/
def givenRangeMem : Mem :=
  (spaceMap givenMem 0x20000 0x6000 0x2000 0 []).2.1

/-- Process 0 takes them to the last page of one table and the first one of the next, with a
page for the first table only. -/
theorem failed_accept_moves :
    ∃ s', sysAddrAccept (offeredRange givenRangeMem) 0 1 0xff000 0x2000 7 [0x9000] =
        .ok (s', [.returned 0 err]) ∧
      frameOf ((offeredRange givenRangeMem).descr 1 0x1000) = some 0x5000 ∧
      frameOf (s'.descr 1 0x1000) = none ∧ frameOf (s'.descr 0 0xff000) = some 0x5000 := by
  have hcall : (sysAddrAccept (offeredRange givenRangeMem) 0 1 0xff000 0x2000 7 [0x9000]).map
      (fun out => ((frameOf (out.1.descr 1 0x1000), frameOf (out.1.descr 0 0xff000)), out.2)) =
        .ok ((none, some 0x5000), [.returned 0 err]) := by
    decide +kernel
  obtain ⟨⟨s', evs⟩, hout, hpair⟩ := exists_of_map hcall
  obtain ⟨hframes, rfl⟩ := Prod.mk.inj hpair
  obtain ⟨hgiver, htaker⟩ := Prod.mk.inj hframes
  exact ⟨s', hout, by decide +kernel, hgiver, htaker⟩

end Omb
