import Omb.Kern.Accept

/-!
# The number of turns of a transfer

The loop of `sys_addr_accept` counts `l` up in pages, as a 32-bit number, until it is no
longer below `len`.  Above `0xfffff000` no multiple of the page size is left that is not below
`len`: `l` wraps to 0 and the loop starts over with pages that have been moved
(`loop_overruns`).

If no turn fails, the loop returns after `turns len` turns, in which it comes to each page of
its ranges once, exactly for the other lengths (`iterates_iff`).

That no turn fails is a hypothesis, since a call that is left with an error is left whatever
the length is.  It is about the turns that the loop comes to, all of them for a long range,
and can be met: `loop_overruns` has a memory in which every turn comes off for ever.

The addresses of the ranges are not asked to be covered here.  They wrap around with `l`, and
what the turns do to memory does not matter for their number.

## Main results

* `PageLoop.iterates`: up to `0xfffff000` the count gets to the end
* `iterates_iff`: for which lengths the loop stops after the right number of pages
-/

namespace Omb

namespace PageLoop

variable {c : PageLoop} {len : Word} {x : Mem × List Word} {i j fuel : ℕ}

/-- Each turn that the loop comes to is completed: `get_page` has a page wherever one is
needed. -/
def NoFailure (c : PageLoop) (len : Word) (x : Mem × List Word) : Prop :=
  ∀ i, (∀ j ≤ i, pageOffset j < len) → ∀ y, c.after x i = some y → c.turn i y ≠ none

/-- The loop returns `OK` with the turn after the last page, not before and not later, and its
turns are about different pages of each range. -/
structure Iterates (c : PageLoop) (len : Word) (x : Mem × List Word) : Prop where
  returns : ∃ y, c.after x (turns len) = some y ∧
    ∀ fuel, c.loop len fuel 0 x = if turns len < fuel then some (ok, y.1, y.2) else none
  giver : ∀ i < turns len, ∀ j < i,
    pageNo (c.vf + pageOffset j) ≠ pageNo (c.vf + pageOffset i)
  taker : ∀ i < turns len, ∀ j < i,
    pageNo (c.vt + pageOffset j) ≠ pageNo (c.vt + pageOffset i)

/-- Without failures there is a state after as many turns as the loop can take. -/
theorem NoFailure.after (h : c.NoFailure len x) {n : ℕ} (hn : ∀ i < n, pageOffset i < len) :
    ∃ y, c.after x n = some y := by
  induction n with
  | zero => exact ⟨x, rfl⟩
  | succ n ih =>
      obtain ⟨y, hy⟩ := ih fun i hi => hn i (hi.trans (Nat.lt_succ_self n))
      have hturn := h n (fun j hj => hn j (Nat.lt_succ_of_le hj)) y hy
      obtain ⟨z, hz⟩ := Option.ne_none_iff_exists'.mp hturn
      exact ⟨z, Option.bind_eq_some_iff.mpr ⟨y, hy, hz⟩⟩

/-- The pages from `v` on differ, for as many turns as there are pages. -/
theorem pageNo_pageOffset_ne (v : Word) (hi : i < turns len) (hj : j < i) :
    pageNo (v + pageOffset j) ≠ pageNo (v + pageOffset i) := by
  have hlen := len.isLt
  unfold turns at hi
  rw [pageNo, pageNo, BitVec.toNat_add, BitVec.toNat_add, pageOffset, pageOffset,
    BitVec.toNat_ofNat, BitVec.toNat_ofNat]
  omega

/-- Up to `0xfffff000` the count gets to the end. -/
theorem iterates (h : c.NoFailure len x) (hlen : len.toNat ≤ 0xfffff000) :
    c.Iterates len x := by
  have hlt : ∀ i < turns len, pageOffset i < len := fun i hi =>
    (pageOffset_lt_iff hlen hi.le).mpr hi
  have hend : ¬ pageOffset (turns len) < len := by
    rw [pageOffset_lt_iff hlen (le_refl _)]
    exact lt_irrefl _
  obtain ⟨y, hy⟩ := h.after hlt
  refine
    { returns := ⟨y, hy, fun fuel => ?_⟩
      giver := fun i hi j hj => pageNo_pageOffset_ne c.vf hi hj
      taker := fun i hi j hj => pageNo_pageOffset_ne c.vt hi hj }
  split_ifs with hfuel
  · obtain ⟨k, rfl⟩ : ∃ k, fuel = turns len + (k + 1) := ⟨fuel - turns len - 1, by omega⟩
    rw [loop_after _ hlt hy, loop_of_not_lt hend]
  · exact loop_eq_none hlt hy (not_lt.mp hfuel)

/-- Above `0xfffff000` the count never gets there. -/
theorem pageOffset_lt_of_long (hlen : 0xfffff000 < len.toNat) (i : ℕ) : pageOffset i < len := by
  rw [BitVec.lt_def, pageOffset, BitVec.toNat_ofNat]
  omega

/-- Then the loop goes on for ever, with any amount of fuel. -/
theorem loop_of_long (h : c.NoFailure len x) (hlen : 0xfffff000 < len.toNat) (fuel : ℕ) :
    c.loop len fuel 0 x = none := by
  obtain ⟨y, hy⟩ := h.after fun i (_ : i < fuel) => pageOffset_lt_of_long hlen i
  exact loop_eq_none (fun i _ => pageOffset_lt_of_long hlen i) hy (le_refl fuel)

end PageLoop

/-- **When the loop stops after the right number of pages**: for all lengths up to
`0xfffff000`.  The length is the only thing that matters, if no turn fails: with a longer one
`l` wraps around before it comes to `len`.  A length need not be one of whole pages; the last
turn is then for the page that has the rest. -/
theorem iterates_iff {s : State} {u p : ProcRef} {pid start len flags : Word}
    {supply : List Word} {t : Transfer} (hp : deref pid.toInt = .ok p)
    (ht : acceptedTransfer s u p start len flags = some t)
    (h : (t.pageLoop s flags).NoFailure len (s.mem, supply)) :
    ((t.pageLoop s flags).Iterates len (s.mem, supply) ∧
        ∃ s', sysAddrAccept s u pid start len flags supply = .ok (s', [.returned u ok])) ↔
      len ≤ 0xfffff000 := by
  have hle : len ≤ 0xfffff000 ↔ len.toNat ≤ 0xfffff000 := BitVec.le_def
  rw [hle, sysAddrAccept_of_deref hp]
  constructor
  · rintro ⟨hiterates, -⟩
    by_contra hlong
    obtain ⟨y, -, hloop⟩ := hiterates.returns
    have hsome := hloop (turns len + 1)
    rw [if_pos (Nat.lt_succ_self _), PageLoop.loop_of_long h (not_le.mp hlong)] at hsome
    cases hsome
  · intro hlen
    have hiterates := PageLoop.iterates h hlen
    refine ⟨hiterates, ?_⟩
    obtain ⟨y, -, hloop⟩ := hiterates.returns
    have hfuel : turns len < acceptFuel := by
      unfold turns acceptFuel
      omega
    have hcall := hloop acceptFuel
    rw [if_pos hfuel] at hcall
    simp only [PageLoop.loop, Transfer.pageLoop] at hcall
    simp only [acceptFrom, ht, hcall]
    exact ⟨_, rfl⟩

/-- One page is one turn. -/
theorem one_page_iterates :
    PageLoop.Iterates (Transfer.pageLoop ⟨1, 0, 0x1000, 0x3000⟩ (offeredPage givenMem) 7) 0x1000
        (givenMem, [0x9000]) ∧
      ∃ s', sysAddrAccept (offeredPage givenMem) 0 1 0x3000 0x1000 7 [0x9000] =
        .ok (s', [.returned 0 ok]) := by
  refine (iterates_iff (p := 1) rfl (transfer_offeredPage givenMem) fun i hi y hy => ?_).mpr
    (by decide)
  rcases i with _ | i
  · cases hy
    rw [← Option.isSome_iff_ne_none]
    decide +kernel
  · exact absurd (hi 1 (by omega)) (by decide)

/-! ## A range to the end of memory -/

/-- Entries of a space low in memory, and of a table high in it. -/
theorem toNat_tabAddr_l1x_lt {space : Word} (hspace : space.toNat ≤ 0x20000) (va : Word) :
    (tabAddr space (l1x va)).toNat < 2 ^ 31 := by
  have h4 : (4 : Word).toNat = 4 := rfl
  have hva := va.isLt
  rw [tabAddr, BitVec.toNat_add, BitVec.toNat_mul, h4, l1x, BitVec.toNat_ushiftRight,
    Nat.shiftRight_eq_div_pow]
  omega

theorem le_toNat_tabAddr_l2x (va : Word) :
    2 ^ 31 ≤ (tabAddr 0x80000000 (l2x va)).toNat := by
  have hl2x := toNat_l2x va
  have haddr := toNat_tabAddr (b := 0x80000000) rfl (l2x_lt va)
  have hbase : (0x80000000 : Word).toNat = 2 ^ 31 := rfl
  omega

/-- All words of the lower half point to one table in the upper half.  So every entry of a
space there has a table. -/
def LowerFull (m : Mem) : Prop :=
  ∀ a : Word, a.toNat < 2 ^ 31 → m a = 0x80000001

/-- With such a memory turns never fail. -/
theorem PageLoop.turn_of_lowerFull {c : PageLoop} (hgiver : c.giver.toNat ≤ 0x20000)
    (htaker : c.taker.toNat ≤ 0x20000) {x : Mem × List Word} (hx : LowerFull x.1) (i : ℕ) :
    ∃ y, c.turn i x = some y ∧ LowerFull y.1 := by
  have hstore : ∀ (m : Mem) (va v : Word), LowerFull m →
      LowerFull (Function.update m (tabAddr 0x80000000 (l2x va)) v) := by
    intro m va v hm a ha
    have hhigh := le_toNat_tabAddr_l2x va
    rw [Function.update_of_ne (fun heq => by rw [heq] at ha; omega)]
    exact hm a ha
  have htab : ∀ (m : Mem) (space va : Word), space.toNat ≤ 0x20000 → LowerFull m →
      tabOf m space (l1x va) = 0x80000000 := by
    intro m space va hspace hm
    rw [tabOf, hm _ (toNat_tabAddr_l1x_lt hspace va)]
    decide
  have htaken := htab x.1 c.taker (c.vt + pageOffset i) htaker hx
  have hmapped := hstore x.1 (c.vt + pageOffset i)
    (l2Descr (spaceFind x.1 c.giver (c.vf + pageOffset i)).1 (apOf c.flags) (cacheOf c.flags)) hx
  have hgiven := htab _ c.giver (c.vf + pageOffset i) hgiver hmapped
  have hne : tabOf x.1 c.taker (l1x (c.vt + pageOffset i)) ≠ nil := by
    rw [htaken]
    decide
  unfold PageLoop.turn
  simp only [spaceMap_of_table hne, htaken]
  refine ⟨_, rfl, ?_⟩
  unfold tabOf at hgiven
  unfold spaceUnmap
  simp only [hgiven]
  exact hstore _ _ _ hmapped

/-- Process 1 has offered `0xfffff001` bytes from the start of its space to process 0. -/
def offeredAll : State :=
  (twoProcs fun _ => 0x80000001).modifyProc 1 fun q =>
    { q with addrOffer := { start := 0, len := 0xfffff001, flags := 6, toPid := 0 } }

/-- No turn fails, and the loop never returns. -/
theorem loop_overruns :
    ∃ t, acceptedTransfer offeredAll 0 1 0 0xfffff001 7 = some t ∧
      (t.pageLoop offeredAll 7).NoFailure 0xfffff001 (offeredAll.mem, []) ∧
      (∀ fuel, (t.pageLoop offeredAll 7).loop 0xfffff001 fuel 0 (offeredAll.mem, []) = none) ∧
      ¬ (t.pageLoop offeredAll 7).Iterates 0xfffff001 (offeredAll.mem, []) := by
  have ht : acceptedTransfer offeredAll 0 1 0 0xfffff001 7 = some ⟨1, 0, 0, 0⟩ := by
    rfl
  have hfull : ∀ i y, (Transfer.pageLoop ⟨1, 0, 0, 0⟩ offeredAll 7).after (offeredAll.mem, []) i =
      some y → LowerFull y.1 := by
    intro i
    induction i with
    | zero =>
        intro y hy
        cases hy
        exact fun _ _ => rfl
    | succ i ih =>
        intro y hy
        obtain ⟨z, hz, hturn⟩ := Option.bind_eq_some_iff.mp hy
        obtain ⟨y', hturn', hy'⟩ := PageLoop.turn_of_lowerFull (c := Transfer.pageLoop
          ⟨1, 0, 0, 0⟩ offeredAll 7) (by decide) (by decide) (ih z hz) i
        rw [hturn'] at hturn
        cases hturn
        exact hy'
  have hnever : (Transfer.pageLoop ⟨1, 0, 0, 0⟩ offeredAll 7).NoFailure 0xfffff001
      (offeredAll.mem, []) := by
    intro i _ y hy hturn
    obtain ⟨z, hz, -⟩ := PageLoop.turn_of_lowerFull (c := Transfer.pageLoop
      ⟨1, 0, 0, 0⟩ offeredAll 7) (by decide) (by decide) (hfull i y hy) i
    rw [hturn] at hz
    cases hz
  have hloop := PageLoop.loop_of_long hnever (by decide)
  refine ⟨_, ht, hnever, hloop, fun hiterates => ?_⟩
  obtain ⟨y, -, hreturns⟩ := hiterates.returns
  have hsome := hreturns (turns 0xfffff001 + 1)
  rw [if_pos (Nat.lt_succ_self _), hloop] at hsome
  cases hsome

end Omb
