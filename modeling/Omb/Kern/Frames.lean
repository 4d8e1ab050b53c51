import Omb.Kern.Transfer
import Omb.Lib.PartialMap
import Mathlib.Data.Fintype.Prod

/-!
# The frames of the address spaces

`State.frameAt` is the partial map from the pages of the processes to the frames they are
mapped to, and `State.frames` the multiset of its values.  One turn of `sys_addr_accept` is a
`PartialMap.move` on that map, so a whole call is a sequence of moves from the giver's pages
to the taker's (`acceptFrom_frameAt`).

A call therefore never maps a frame more often than before, and drops the frames of the
taker's pages that are mapped when their turn comes (`transfer_frames`).  The code tests for
neither an occupied page nor overlapping ranges (`frame_dropped`).

Pages are numbered, as all addresses of one page translate alike, and only those below 1 GiB
have entries in a first-level table.  Frame 0 is a frame like any other here: `space_find`
answers nil for a page that is not mapped, and a descriptor for frame 0 is then made for the
taker.  That the giver's range is mapped is therefore a hypothesis.

The memories of the concrete calls, here and in the modules that follow, are those of two
processes with one second-level table each.

## Main results

* `acceptFrom_frameAt`: a call as a sequence of moves
* `transfer_frames`: which frames are dropped
-/

namespace Omb

/-! ## Pages of a space by number -/

/-- An address in the page `k` of the covered range. -/
def pageAddr (k : Fin (2 ^ 18)) : Word :=
  BitVec.ofNat 32 (4096 * k)

/-- The number of the page, for a covered address. -/
def pageIndex (va : Word) : Fin (2 ^ 18) :=
  Fin.ofNat (2 ^ 18) (pageNo va)

theorem covered_pageAddr (k : Fin (2 ^ 18)) : Covered (pageAddr k) := by
  rw [Covered, pageAddr, BitVec.toNat_ofNat]
  omega

theorem pageNo_pageAddr (k : Fin (2 ^ 18)) : pageNo (pageAddr k) = k := by
  rw [pageNo, pageAddr, BitVec.toNat_ofNat]
  omega

theorem pageIndex_val {va : Word} (h : Covered va) : (pageIndex va).val = pageNo va := by
  unfold Covered at h
  unfold pageIndex pageNo
  rw [Fin.val_ofNat]
  omega

theorem pageIndex_inj {va va' : Word} (h : Covered va) (h' : Covered va') :
    pageIndex va = pageIndex va' ↔ pageNo va = pageNo va' := by
  rw [Fin.ext_iff, pageIndex_val h, pageIndex_val h']

theorem pageIndex_eq_iff {va : Word} (h : Covered va) (k : Fin (2 ^ 18)) :
    k = pageIndex va ↔ pageNo (pageAddr k) = pageNo va := by
  rw [pageNo_pageAddr, Fin.ext_iff, pageIndex_val h]

theorem pageNo_pageAddr_pageIndex {va : Word} (h : Covered va) :
    pageNo (pageAddr (pageIndex va)) = pageNo va :=
  (pageIndex_eq_iff h _).mp rfl

/-- The walk depends on the number of the page only. -/
theorem translate_congr (m : Mem) (space : Word) {va va' : Word} (h : pageNo va = pageNo va') :
    translate m space va = translate m space va' := by
  obtain ⟨hl1, hl2⟩ := pageNo_eq_iff.mp h
  rw [translate, translate, hl1, hl2]

/-- The pages of a covered range follow one another. -/
theorem pageNo_add_pageOffset {v len : Word} (hcov : ∀ l < len, Covered (v + l)) {i : ℕ}
    (hi : i < turns len) : pageNo (v + pageOffset i) = pageNo v + i := by
  have hlen := len_le_of_covered hcov
  have hoff := toNat_pageOffset (hlen.trans (by decide)) hi.le
  unfold turns at hi
  have hpos : (0 : Word) < len := by
    rw [BitVec.lt_def]
    show 0 < len.toNat
    omega
  have hv : Covered v := by simpa using hcov 0 hpos
  unfold Covered at hv
  rw [pageNo, pageNo, BitVec.toNat_add, hoff]
  omega

/-! ## Frames -/

/-- The frame a descriptor maps. -/
def frameOf (d : Word) : Option Word :=
  if d &&& l2Type = l2Fault then none else some (d &&& pageMask)

theorem frameOf_l2Fault : frameOf l2Fault = none := by
  decide

theorem frameOf_l2Descr {pa : Word} (h : PageAligned pa) (flags : Word) :
    frameOf (l2Descr pa (apOf flags) (cacheOf flags)) = some pa := by
  have hsmall : l2Small ≠ l2Fault := by decide
  rw [frameOf, l2Descr_and_l2Type h, if_neg hsmall, l2Descr_and_pageMask h]

theorem frameOf_eq_some {d : Word} (h : frameOf d ≠ none) :
    frameOf d = some (d &&& pageMask) := by
  unfold frameOf at h ⊢
  split_ifs at h ⊢
  · exact absurd rfl h
  · rfl

instance (s : State) : DecidablePred s.IsMade :=
  fun p => inferInstanceAs (Decidable ((s.procs p).state ≠ .dead))

/-- The frames of the pages of the processes of `s`, with the tables in `m`.  Slots in which
no process was made have none. -/
def State.frameAt (s : State) (m : Mem) (k : ProcRef × Fin (2 ^ 18)) : Option Word :=
  if s.IsMade k.1 then frameOf (translate m (s.procs k.1).space (pageAddr k.2)) else none

/-- The frames mapped over all address spaces, each as often as it is mapped. -/
def State.frames (s : State) : Multiset Word :=
  PartialMap.values (s.frameAt s.mem)

/-- The page of `va` is mapped. -/
def State.Mapped (s : State) (q : ProcRef) (va : Word) : Prop :=
  frameOf (s.descr q va) ≠ none

theorem State.frameAt_pageIndex {s : State} {q : ProcRef} (hq : s.IsMade q) (m : Mem)
    {va : Word} (h : Covered va) :
    s.frameAt m (q, pageIndex va) = frameOf (translate m (s.procs q).space va) := by
  rw [frameAt, if_pos hq, translate_congr _ _ (pageNo_pageAddr_pageIndex h)]

/-! ## A call as a sequence of moves -/

section Moves

variable {s : State} {giver taker : ProcRef} {m m' : Mem} {vf vt flags : Word}

/-- **One turn moves one frame.**  The hypotheses say that the spaces are apart and both pages
are covered, so that the stores of the turn change two descriptors and no others. -/
theorem PageMoved.frameAt (hown : s.OwnSpaces) (hgiver : s.IsMade giver)
    (htaker : s.IsMade taker) (hvf : Covered vf) (hvt : Covered vt)
    (hmapped : s.frameAt m (giver, pageIndex vf) ≠ none)
    (h : PageMoved s.spaces m m' (s.procs giver).space (s.procs taker).space vf vt flags) :
    s.frameAt m' =
      PartialMap.move (s.frameAt m) (giver, pageIndex vf) (taker, pageIndex vt) := by
  funext ⟨q, k⟩
  have hkey : ∀ p, s.IsMade p → ∀ v, Covered v → s.IsMade q →
      ((q, k) = (p, pageIndex v) ↔
        (s.procs q).space = (s.procs p).space ∧ pageNo (pageAddr k) = pageNo v) := by
    intro p hp v hv hq
    rw [Prod.mk.injEq, pageIndex_eq_iff hv]
    refine and_congr_left fun _ => ⟨fun heq => by rw [heq], hown.distinct p q hp hq⟩
  rw [PartialMap.move_apply]
  rcases em (s.IsMade q) with hq | hq
  · rw [s.frameAt_pageIndex hgiver m hvf] at hmapped ⊢
    rw [State.frameAt, if_pos hq, h _ hq.mem_spaces _ (covered_pageAddr k)]
    simp only [hkey giver hgiver vf hvf hq, hkey taker htaker vt hvt hq]
    split_ifs
    · exact frameOf_l2Fault
    · rw [frameOf_l2Descr (pageMask_aligned _), frameOf_eq_some hmapped]
    · rw [State.frameAt, if_pos hq]
  · have hsrc : (q, k) ≠ (giver, pageIndex vf) := by
      rintro ⟨rfl, -⟩
      exact hq hgiver
    have hdst : (q, k) ≠ (taker, pageIndex vt) := by
      rintro ⟨rfl, -⟩
      exact hq htaker
    rw [if_neg hsrc, if_neg hdst, State.frameAt, State.frameAt, if_neg hq, if_neg hq]

end Moves

/-- The page the `i`-th turn takes a frame from. -/
def Transfer.src (t : Transfer) (i : ℕ) : ProcRef × Fin (2 ^ 18) :=
  (t.giver, pageIndex (t.vf + pageOffset i))

/-- The page it takes the frame to. -/
def Transfer.dst (t : Transfer) (i : ℕ) : ProcRef × Fin (2 ^ 18) :=
  (t.taker, pageIndex (t.vt + pageOffset i))

theorem pageIndex_add_ne {v len : Word} (hcov : ∀ l < len, Covered (v + l)) {i j : ℕ}
    (hi : i < turns len) (hj : j < i) :
    pageIndex (v + pageOffset j) ≠ pageIndex (v + pageOffset i) := by
  have hcov_i := covered_pageOffset hcov hi
  have hcov_j := covered_pageOffset hcov (hj.trans hi)
  rw [Ne, pageIndex_inj hcov_j hcov_i, pageNo_add_pageOffset hcov hi,
    pageNo_add_pageOffset hcov (hj.trans hi)]
  omega

section Accept

variable {s s' : State} {u p : ProcRef} {start len flags : Word} {supply : List Word}
  {t : Transfer} (hown : s.OwnSpaces) (hs : FreshSupply s.mem s.spaces supply)
  (hu : s.IsMade u) (hp : s.IsMade p) (hcov : ∀ l < len, Covered (start + l))
  (hcov' : ∀ l < len, Covered ((s.procs p).addrOffer.start + l))
  (ht : acceptedTransfer s u p start len flags = some t)
  (hmapped : ∀ l < len, s.Mapped t.giver (t.vf + l))
  (hcall : acceptFrom s u p start len flags supply = .ok (ok, s'))

include hown hs hu hp hcov hcov' ht hmapped hcall

/-- **A call that returns `OK` moves the frames of the giver's range in turn**, one page after
the other from its start. -/
theorem acceptFrom_frameAt :
    s'.frameAt s'.mem = PartialMap.moves (s.frameAt s.mem) t.src t.dst (turns len) := by
  obtain ⟨⟨hgiver, htaker⟩, hvf, hvt⟩ := acceptedTransfer_ends ht hu hp hcov hcov'
  -- no turn takes the frame of a page that is not mapped
  have hsrc : ∀ i < turns len,
      PartialMap.moves (s.frameAt s.mem) t.src t.dst i (t.src i) ≠ none := by
    have hinj : ∀ i < turns len, ∀ j < i, t.src j ≠ t.src i := by
      intro i hi j hj heq
      exact pageIndex_add_ne hvf hi hj (Prod.mk.inj heq).2
    have hheld : ∀ i < turns len, s.frameAt s.mem (t.src i) ≠ none := by
      intro i hi
      rw [Transfer.src, State.frameAt_pageIndex hgiver _ (covered_pageOffset hvf hi)]
      exact hmapped _ (pageOffset_lt hvf hi)
    intro i hi
    exact PartialMap.moves_ne_none hinj hheld i hi.le _ (hheld i hi) (hinj i hi)
  have hstep : ∀ i < turns len, ∀ m m',
      s.frameAt m = PartialMap.moves (s.frameAt s.mem) t.src t.dst i →
      PageMoved s.spaces m m' (s.procs t.giver).space (s.procs t.taker).space
        (t.vf + pageOffset i) (t.vt + pageOffset i) flags →
      s.frameAt m' = PartialMap.moves (s.frameAt s.mem) t.src t.dst (i + 1) := by
    intro i hi m m' hP hmoved
    rw [PartialMap.moves, ← hP]
    refine hmoved.frameAt hown hgiver htaker (covered_pageOffset hvf hi)
      (covered_pageOffset hvt hi) ?_
    rw [hP]
    exact hsrc i hi
  obtain ⟨r, m, haccept, hr⟩ := acceptFrom_invariant
    (P := fun i m => s.frameAt m = PartialMap.moves (s.frameAt s.mem) t.src t.dst i)
    hown hs hu hp hcov hcov' ht hstep rfl
  rw [haccept] at hcall
  cases hcall
  rcases hr with ⟨-, hP⟩ | ⟨herr, -⟩
  · exact hP
  · exact absurd herr (by decide)

/-- What that does to the frames of all spaces together. -/
theorem acceptFrom_frames :
    s'.frames ≤ s.frames ∧
      (s'.frames = s.frames ↔ ∀ i < turns len, ¬s.Mapped t.taker (t.vt + pageOffset i) ∨
        t.giver = t.taker ∧
          ∃ j < i, pageNo (t.vf + pageOffset j) = pageNo (t.vt + pageOffset i)) := by
  obtain ⟨⟨-, htaker⟩, hvf, hvt⟩ := acceptedTransfer_ends ht hu hp hcov hcov'
  have hmoves : s'.frames =
      PartialMap.values (PartialMap.moves (s.frameAt s.mem) t.src t.dst (turns len)) :=
    congrArg PartialMap.values (acceptFrom_frameAt hown hs hu hp hcov hcov' ht hmapped hcall)
  have hdst : ∀ i < turns len, ∀ j < i, t.dst j ≠ t.dst i := by
    intro i hi j hj heq
    exact pageIndex_add_ne hvt hi hj (Prod.mk.inj heq).2
  have hframes : s.frames = PartialMap.values (s.frameAt s.mem) := rfl
  rw [hmoves, hframes]
  refine ⟨PartialMap.values_moves_le .., (PartialMap.values_moves_eq_iff hdst).trans ?_⟩
  refine forall₂_congr fun i hi => or_congr ?_ ?_
  · rw [Transfer.dst, State.frameAt_pageIndex htaker _ (covered_pageOffset hvt hi),
      State.Mapped, not_not, State.descr]
  · have hpage : ∀ j < i, (t.src j = t.dst i ↔ t.giver = t.taker ∧
        pageNo (t.vf + pageOffset j) = pageNo (t.vt + pageOffset i)) := by
      intro j hj
      have hvf_j := covered_pageOffset hvf (hj.trans hi)
      rw [Transfer.src, Transfer.dst, Prod.mk.injEq,
        pageIndex_inj hvf_j (covered_pageOffset hvt hi)]
    constructor
    · rintro ⟨j, hj, heq⟩
      exact ⟨((hpage j hj).mp heq).1, j, hj, ((hpage j hj).mp heq).2⟩
    · rintro ⟨hself, j, hj, heq⟩
      exact ⟨j, hj, (hpage j hj).mpr ⟨hself, heq⟩⟩

end Accept

/-- A system call that returns `OK` has gone through all turns. -/
theorem acceptFrom_of_call {s s' : State} {u p : ProcRef} {pid start len flags : Word}
    {supply : List Word} (hp : deref pid.toInt = .ok p)
    (hcall : sysAddrAccept s u pid start len flags supply = .ok (s', [.returned u ok])) :
    ∃ s₁, acceptFrom s u p start len flags supply = .ok (ok, s₁) ∧ s'.frames = s₁.frames := by
  rw [sysAddrAccept_of_deref hp] at hcall
  rcases haccept : acceptFrom s u p start len flags supply with _ | ⟨r, s₁⟩
  · rw [haccept] at hcall
    cases hcall
  · rw [haccept] at hcall
    cases hcall
    exact ⟨s₁, rfl, rfl⟩

/-- **What a page transfer does to the frames.**  When the giver's range is mapped and the
call returns `OK`, no frame is mapped in more places than before, and none is dropped
exactly if each page of the taker's range was free, or was given away in an earlier turn
of the same call. -/
theorem transfer_frames {s s' : State} {u p : ProcRef} {pid start len flags : Word}
    {supply : List Word} {t : Transfer} (hown : s.OwnSpaces)
    (hunmade : ∀ q, ¬s.IsMade q → (s.procs q).addrOffer = .zero)
    (hs : FreshSupply s.mem s.spaces supply) (hu : s.IsMade u) (hp : deref pid.toInt = .ok p)
    (hcov : ∀ l < len, Covered (start + l))
    (hcov' : ∀ l < len, Covered ((s.procs p).addrOffer.start + l))
    (ht : acceptedTransfer s u p start len flags = some t)
    (hmapped : ∀ l < len, s.Mapped t.giver (t.vf + l))
    (hcall : sysAddrAccept s u pid start len flags supply = .ok (s', [.returned u ok])) :
    s'.frames ≤ s.frames ∧
      (s'.frames = s.frames ↔ ∀ i < turns len, ¬s.Mapped t.taker (t.vt + pageOffset i) ∨
        t.giver = t.taker ∧
          ∃ j < i, pageNo (t.vf + pageOffset j) = pageNo (t.vt + pageOffset i)) := by
  obtain ⟨s₁, haccept, hs₁⟩ := acceptFrom_of_call hp hcall
  rw [hs₁]
  rcases em (s.IsMade p) with hmade | hnot
  · exact acceptFrom_frames hown hs hu hmade hcov hcov' ht hmapped haccept
  · -- a slot no process was made in offers an empty range
    have hlen := (acceptedTransfer_eq_some ht).2.1
    rw [hunmade p hnot] at hlen
    obtain rfl : (0 : Word) = len := hlen
    rw [acceptFrom_of_len_zero ht] at haccept
    cases haccept
    exact ⟨le_refl _, fun _ i hi => absurd hi (Nat.not_lt_zero i), fun _ => rfl⟩

/-! ## A page taken with and without another in its place -/

/-- The frame `0x5000` is mapped at `0x1000` of process 1. -/
def givenMem : Mem :=
  (spaceMap (fun _ => 0) 0x20000 0x5000 0x1000 0 [0x8000, 0x9000]).2.1

/-- And the frame `0x6000` at `0x3000` of process 0. -/
def occupiedMem : Mem :=
  (spaceMap givenMem 0x10000 0x6000 0x3000 0 [0x9000]).2.1

/-- The memory `m`, but process 0 has an empty table for its first MiB at `tab`; no page is
asked for to map something there. -/
def withTable (m : Mem) (tab : Word) : Mem :=
  Function.update m (tabAddr 0x10000 (l1x 0x3000)) (tab ||| l1Coarse)

/-- The tables once the page is mapped, with any flags. -/
theorem mappedPage_spec (flags : Word) :
    Tables (spaceMap (fun _ => 0) 0x20000 0x5000 0x1000 flags [0x8000, 0x9000]).2.1
        {0x10000, 0x20000} ∧
      FreshSupply (spaceMap (fun _ => 0) 0x20000 0x5000 0x1000 flags [0x8000, 0x9000]).2.1
        {0x10000, 0x20000} [0x9000] := by
  have hs : FreshSupply (fun _ => 0) {0x10000, 0x20000} [0x8000, 0x9000] := by
    refine ⟨fun page hpage hne => ?_, by decide⟩
    have hor : page = 0x8000 ∨ page = 0x9000 := by simpa using hpage
    rcases hor with rfl | rfl
    · exact freshPage_zeroed rfl hne (by decide) (by decide)
    · exact freshPage_zeroed rfl hne (by decide) (by decide)
  have hspec := spaceMap_spec tables_zeroed hs (.inr rfl) covered_given 0x5000 flags
  exact ⟨hspec.tables, hspec.supply⟩

theorem givenMem_spec :
    Tables givenMem {0x10000, 0x20000} ∧ FreshSupply givenMem {0x10000, 0x20000} [0x9000] :=
  mappedPage_spec 0

theorem occupiedMem_tables : Tables occupiedMem {0x10000, 0x20000} :=
  (spaceMap_spec givenMem_spec.1 givenMem_spec.2 (.inl rfl) covered_taken 0x6000 0).tables

/-- The addresses of one page translate alike. -/
theorem translate_of_lt (m : Mem) (space : Word) {v l : Word} (hv : PageAligned v)
    (hcov : Covered v) (hl : l < 0x1000) : translate m space (v + l) = translate m space v := by
  apply translate_congr
  have hl' : l.toNat < 4096 := hl
  unfold PageAligned at hv
  unfold Covered at hcov
  rw [pageNo, pageNo, BitVec.toNat_add]
  omega

theorem mapped_given {m : Mem} (h : frameOf (translate m 0x20000 0x1000) ≠ none) :
    ∀ l < (0x1000 : Word), (offeredPage m).Mapped 1 (0x1000 + l) := by
  intro l hl
  show frameOf (translate m 0x20000 (0x1000 + l)) ≠ none
  rw [translate_of_lt m 0x20000 (v := 0x1000) rfl covered_given hl]
  exact h

theorem freshSupply_nil {m : Mem} {S : Set Word} : FreshSupply m S [] where
  fresh _ hpage := absurd hpage List.not_mem_nil
  distinct := .nil

/-- The call of process 0 that takes the page of process 1. -/
theorem transfer_offeredPage (m : Mem) : acceptedTransfer (offeredPage m) 0 1 0x3000 0x1000 7 =
    some ⟨1, 0, 0x1000, 0x3000⟩ := by
  have hoffer : ((offeredPage m).procs 1).addrOffer =
      { start := 0x1000, len := 0x1000, flags := 6, toPid := 0 } := rfl
  have hpid : ((offeredPage m).procs 0).pid = 0 := rfl
  simp [acceptedTransfer, hoffer, hpid, addrTake]

theorem exists_of_map {α β : Type*} {x : Except Stuck α} {f : α → β} {b : β}
    (h : x.map f = .ok b) : ∃ a, x = .ok a ∧ f a = b := by
  rcases x with _ | a
  · cases h
  · exact ⟨a, rfl, Except.ok.inj h⟩

theorem exists_of_map_snd {x : Except Stuck Out} {e : List Event} (h : x.map Prod.snd = .ok e) :
    ∃ s', x = .ok (s', e) := by
  obtain ⟨⟨s', e'⟩, hx, rfl⟩ := exists_of_map h
  exact ⟨s', hx⟩

/-- Taken to a page that is mapped, the frame in its place is dropped. -/
theorem frame_dropped :
    (offeredPage occupiedMem).OwnSpaces ∧
      (∀ l < (0x1000 : Word), (offeredPage occupiedMem).Mapped 1 (0x1000 + l)) ∧
      ∃ s', sysAddrAccept (offeredPage occupiedMem) 0 1 0x3000 0x1000 7 [] =
        .ok (s', [.returned 0 ok]) ∧ s'.frames ≠ (offeredPage occupiedMem).frames := by
  have hown := ownSpaces_offeredPage occupiedMem_tables
  have hmapped := mapped_given (m := occupiedMem) (by decide +kernel)
  have hevs : (sysAddrAccept (offeredPage occupiedMem) 0 1 0x3000 0x1000 7 []).map Prod.snd =
      .ok [.returned 0 ok] := by
    decide +kernel
  obtain ⟨s', hcall⟩ := exists_of_map_snd hevs
  refine ⟨hown, hmapped, s', hcall, ?_⟩
  obtain ⟨s₁, haccept, hs₁⟩ := acceptFrom_of_call (p := 1) rfl hcall
  have hframes := acceptFrom_frames hown freshSupply_nil (isMade_offeredPage.mpr (.inl rfl))
    (isMade_offeredPage.mpr (.inr rfl)) (fun l hl => covered_of_lt covered_taken rfl hl)
    (fun l hl => covered_of_lt covered_given rfl hl) (transfer_offeredPage _) hmapped haccept
  rw [hs₁]
  intro heq
  have hoccupied : (offeredPage occupiedMem).Mapped 0 (0x3000 + pageOffset 0) := by
    show frameOf (translate occupiedMem 0x10000 (0x3000 + pageOffset 0)) ≠ none
    decide +kernel
  rcases hframes.2.mp heq 0 (by decide) with hfree | ⟨hself, -⟩
  · exact hfree hoccupied
  · exact absurd hself (by decide)

/-- Taken to a free page, the frame is kept. -/
theorem frames_kept : ∃ s', sysAddrAccept (offeredPage givenMem) 0 1 0x3000 0x1000 7 [0x9000] =
    .ok (s', [.returned 0 ok]) ∧ s'.frames = (offeredPage givenMem).frames := by
  obtain ⟨s', hcall⟩ := exists_of_map_snd
    (x := sysAddrAccept (offeredPage givenMem) 0 1 0x3000 0x1000 7 [0x9000])
    (e := [.returned 0 ok]) (by decide +kernel)
  refine ⟨s', hcall, ?_⟩
  have hunmade : ∀ q, ¬(offeredPage givenMem).IsMade q →
      ((offeredPage givenMem).procs q).addrOffer = .zero := by
    intro q hq
    have hne : q ≠ 0 ∧ q ≠ 1 := not_or.mp fun hor => hq (isMade_offeredPage.mpr hor)
    rw [offeredPage, State.modifyProc_procs_of_ne hne.2, twoProcs]
    dsimp only
    rw [if_neg hne.1, if_neg hne.2]
    rfl
  have hs : FreshSupply givenMem (offeredPage givenMem).spaces [0x9000] := by
    rw [spaces_offeredPage]
    exact givenMem_spec.2
  have hframes := transfer_frames (p := 1) (ownSpaces_offeredPage givenMem_spec.1) hunmade hs
    (isMade_offeredPage.mpr (.inl rfl)) rfl (fun l hl => covered_of_lt covered_taken rfl hl)
    (fun l hl => covered_of_lt covered_given rfl hl) (transfer_offeredPage _)
    (mapped_given (by decide +kernel)) hcall
  refine hframes.2.mpr fun i hi => ?_
  have hone : turns 0x1000 = 1 := by decide
  obtain rfl : i = 0 := by omega
  left
  have hfree : frameOf (translate givenMem 0x10000 (0x3000 + pageOffset 0)) = none := by
    decide +kernel
  exact not_not.mpr hfree

end Omb
