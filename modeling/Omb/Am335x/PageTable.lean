import Omb.Am335x.Translate
import Mathlib.Data.Set.Insert

/-!
# One address space as a map from pages to frames

Any sequence of calls of `space_map` and `space_unmap` on a space that starts zeroed leaves
tables in which `space_find` reports, for each page, the frame of the last call that mapped it
and was not followed by one that unmapped it.

`PageRun.Refines` is the invariant: the tables are in order, the pages `get_page` may still
return are fresh, and each page translates to what the history says.  The history is what an
address space is for, a map that calls update one page at a time; the tables are how it is
kept.

For the tables to stay in order the pages that `get_page` returns must not be in use as tables
yet (`FreshSupply`), or mapping a page would clear part of a table.  They may be nil at any
call, and then the call is refused, with nothing stored.

Addresses are those that the first-level table has an entry for, and frames are page-aligned
(`PageCall.InRange`).  Neither is tested in the source; a frame that is not aligned would come
back rounded down, with its low bits among the attributes.

## Main results

* `Refines.call`, `Refines.foldl`: a call keeps the refinement, and so does any sequence
* `spaceFind_eq_lastMapped`: `space_find` reports the last frame mapped
-/

namespace Omb

/-- A call on the space. -/
inductive PageCall where
  | map (pa va flags : Word)
  | unmap (va : Word)

/-- What a call came to.  One that is refused is about no page. -/
inductive PageEvent where
  /-- `space_map` returned true. -/
  | mapped (pa va : Word)
  /-- `space_map` returned false. -/
  | refused
  | unmapped (va : Word)
  deriving DecidableEq

/-- The memory and the supply after a sequence of calls, and what they came to, the latest
first. -/
structure PageRun where
  mem : Mem
  supply : List Word
  history : List PageEvent

/-- The page address is one, and the first-level table has an entry for the page. -/
def PageCall.InRange : PageCall → Prop
  | .map pa va _ => PageAligned pa ∧ Covered va
  | .unmap va => Covered va

/-- One more call on `space`. -/
def PageRun.call (space : Word) (r : PageRun) : PageCall → PageRun
  | .map pa va flags =>
      match spaceMap r.mem space pa va flags r.supply with
      | (true, m, supply) => ⟨m, supply, .mapped pa va :: r.history⟩
      | (false, m, supply) => ⟨m, supply, .refused :: r.history⟩
  | .unmap va => ⟨spaceUnmap r.mem space va, r.supply, .unmapped va :: r.history⟩

/-- The calls one after the other, with nothing before them. -/
def runCalls (space : Word) (m : Mem) (supply : List Word) (calls : List PageCall) :
    PageRun :=
  calls.foldl (PageRun.call space) ⟨m, supply, []⟩

/-- The event maps or unmaps the page. -/
def PageEvent.touches (page : ℕ) : PageEvent → Bool
  | .mapped _ va => pageNo va = page
  | .refused => false
  | .unmapped va => pageNo va = page

/-- The frame of the last call that mapped the page, if no call has unmapped it since; nil
otherwise.  The history has its latest event first. -/
def lastMapped (history : List PageEvent) (page : ℕ) : Word :=
  match history.find? (PageEvent.touches page) with
  | some (.mapped pa _) => pa
  | _ => nil

theorem lastMapped_of_touches {e : PageEvent} {page : ℕ} (h : e.touches page)
    (history : List PageEvent) : lastMapped (e :: history) page = lastMapped [e] page := by
  rw [lastMapped, lastMapped, List.find?_cons_of_pos h, List.find?_cons_of_pos h]

theorem lastMapped_of_not_touches {e : PageEvent} {page : ℕ} (h : ¬e.touches page)
    (history : List PageEvent) : lastMapped (e :: history) page = lastMapped history page := by
  rw [lastMapped, lastMapped, List.find?_cons_of_neg h]

/-- The tables of the run are in order, and hold what its history says. -/
structure PageRun.Refines (space : Word) (r : PageRun) : Prop where
  tables : Tables r.mem {space}
  supply : FreshSupply r.mem {space} r.supply
  find : ∀ va, Covered va →
    translate r.mem space va &&& pageMask = lastMapped r.history (pageNo va)

namespace PageRun

variable {space : Word} {r : PageRun}

/-- A page that an event does not touch keeps its frame, one it touches gets its own. -/
theorem find_of_remapped {m' : Mem} {va d : Word} {e : PageEvent}
    (h : r.Refines space) (hmap : Remapped r.mem m' {space} space va d)
    (htouch : ∀ page, e.touches page = decide (pageNo va = page))
    (hd : d &&& pageMask = lastMapped [e] (pageNo va)) {va' : Word} (hva' : Covered va') :
    translate m' space va' &&& pageMask = lastMapped (e :: r.history) (pageNo va') := by
  rw [hmap space rfl va' hva']
  rcases eq_or_ne (pageNo va') (pageNo va) with hpage | hpage
  · have htouches : e.touches (pageNo va) := by simp [htouch]
    rw [if_pos ⟨rfl, hpage⟩, hpage, lastMapped_of_touches htouches, hd]
  · have hnot : ¬e.touches (pageNo va') := by simp [htouch, hpage.symm]
    rw [if_neg fun hand => hpage hand.2, lastMapped_of_not_touches hnot, h.find va' hva']

/-- **One call keeps the refinement.**  A refused one has changed nothing; the others are
about one page, and what they store translates to what the event says. -/
theorem Refines.call (h : r.Refines space) {c : PageCall} (hc : c.InRange) :
    (r.call space c).Refines space := by
  cases c with
  | map pa va flags =>
      obtain ⟨hpa, hva⟩ := hc
      have hspec := spaceMap_spec h.tables h.supply (Set.mem_singleton space) hva pa flags
      rcases hcall : spaceMap r.mem space pa va flags r.supply with ⟨result, m', supply'⟩
      rw [hcall] at hspec
      obtain ⟨htables, hsupply, hmapped⟩ := hspec
      unfold PageRun.call
      simp only [hcall]
      cases result with
      | true =>
          refine ⟨htables, hsupply, fun va' hva' => ?_⟩
          refine find_of_remapped h (hmapped rfl) (fun _ => rfl) ?_ hva'
          have htouches : (PageEvent.mapped pa va).touches (pageNo va) := decide_eq_true rfl
          rw [l2Descr_and_pageMask hpa, lastMapped, List.find?_cons_of_pos htouches]
      | false =>
          refine ⟨htables, hsupply, fun va' hva' => ?_⟩
          have hmem : m' = r.mem := spaceMap_false hcall
          have hnot : ¬PageEvent.refused.touches (pageNo va') := Bool.false_ne_true
          rw [lastMapped_of_not_touches hnot, hmem, h.find va' hva']
  | unmap va =>
      obtain ⟨hsame, hmapped⟩ := spaceUnmap_spec h.tables (Set.mem_singleton space) hc
      refine ⟨h.tables.congr hsame, h.supply.congr hsame, fun va' hva' => ?_⟩
      refine find_of_remapped h hmapped (fun _ => rfl) ?_ hva'
      have htouches : (PageEvent.unmapped va).touches (pageNo va) := decide_eq_true rfl
      rw [lastMapped, List.find?_cons_of_pos htouches]
      exact l2Fault_and_pageMask

/-- Any sequence of calls keeps it. -/
theorem Refines.foldl (h : r.Refines space) {calls : List PageCall}
    (hcalls : ∀ c ∈ calls, c.InRange) : (calls.foldl (PageRun.call space) r).Refines space := by
  induction calls generalizing r with
  | nil => exact h
  | cons c calls ih =>
      rw [List.foldl_cons]
      apply ih
      · exact h.call (hcalls c (List.mem_cons_self ..))
      · exact fun c' hc' => hcalls c' (List.mem_cons_of_mem _ hc')

end PageRun

/-- A zeroed space by itself.  There is no other one that it could share a table with. -/
theorem tables_singleton {m : Mem} {space : Word}
    (hzero : ∀ i : Word, i.toNat < 1024 → m (tabAddr space i) = 0) : Tables m {space} := by
  apply Tables.of_zeroed
  · rintro _ rfl _ rfl hne
    exact absurd rfl hne
  · rintro _ rfl
    exact hzero

/-- **`space_find` reports the last frame mapped.**  After any calls of `space_map` and
`space_unmap` on a zeroed space, with a `get_page` that returns nil or a page that is not a
table yet, `space_find` gives the frame of the last `space_map` of the page that returned true
and has not been undone; and a `space_map` that returns false changes no result of
`space_find`, in whatever memory it is called. -/
theorem spaceFind_eq_lastMapped {m : Mem} {space : Word} {supply : List Word}
    (calls : List PageCall)
    (hzero : ∀ i : Word, i.toNat < 1024 → m (tabAddr space i) = 0)
    (hs : FreshSupply m {space} supply) (hcalls : ∀ c ∈ calls, c.InRange) :
    (∀ va, Covered va →
      (spaceFind (runCalls space m supply calls).mem space va).1 =
        lastMapped (runCalls space m supply calls).history (pageNo va)) ∧
    ∀ (m₁ m₂ : Mem) (supply₁ supply₂ : List Word) (pa va flags : Word),
      spaceMap m₁ space pa va flags supply₁ = (false, m₂, supply₂) →
        ∀ va', spaceFind m₂ space va' = spaceFind m₁ space va' := by
  constructor
  · intro va hva
    have hinit : PageRun.Refines space ⟨m, supply, []⟩ := by
      refine ⟨tables_singleton hzero, hs, fun va hva => ?_⟩
      have htab : tabOf m space (l1x va) = nil := by
        rw [tabOf, hzero _ (l1x_lt hva)]
        decide
      rw [translate, if_pos htab]
      exact l2Fault_and_pageMask
    rw [spaceFind_eq]
    exact (hinit.foldl hcalls).find va hva
  · intro m₁ m₂ supply₁ supply₂ pa va flags hfalse va'
    rw [spaceMap_false hfalse]

/-- Two pages of one table mapped at unaligned addresses, the first one unmapped again,
and one page refused when there is no page for a second table. -/
def fourCalls : List PageCall :=
  [.map 0x5000 0x2004 0, .map 0x6000 0x3000 0, .unmap 0x2ffc, .map 0x7000 0x100000 0]

theorem freshSupply_zeroed : FreshSupply (fun _ => 0) {0x1000} [0x8000] := by
  refine ⟨fun page hpage hne => ?_, List.pairwise_singleton ..⟩
  obtain rfl := List.mem_singleton.mp hpage
  refine ⟨rfl, ?_, ?_⟩
  · rintro _ rfl
    exact PageAligned.outside rfl rfl (by decide)
  · intro space _ i _
    show (0 : Word) &&& ~~~l1Type ≠ 0x8000
    decide

theorem spaceFind_after_fourCalls :
    (spaceFind (runCalls 0x1000 (fun _ => 0) [0x8000] fourCalls).mem 0x1000 0x2000).1 = nil ∧
    (spaceFind (runCalls 0x1000 (fun _ => 0) [0x8000] fourCalls).mem 0x1000 0x3abc).1 =
      0x6000 := by
  have hcalls : ∀ c ∈ fourCalls, c.InRange := by
    simp [fourCalls, PageCall.InRange, PageAligned, Covered]
  have hfind := (spaceFind_eq_lastMapped fourCalls (fun _ _ => rfl) freshSupply_zeroed hcalls).1
  constructor
  · rw [hfind 0x2000 (by simp [Covered])]
    decide +kernel
  · rw [hfind 0x3abc (by simp [Covered])]
    decide +kernel

end Omb
