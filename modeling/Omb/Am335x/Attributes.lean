import Omb.Am335x.PageTable

/-!
# The attributes of a page

`space_map` packs the write and the cache flag of a page into its descriptor, and
`flags_from_map` reads them back for `space_find`.  The write flag and the read flag come back
as they should.  The cache flag does not: `l2_map` puts `cachable` at bit 3 and its complement
at bit 2, and `flags_from_map` tests bit 2 (`flagsFromMap_l2Descr`).

No call on another page changes that, so what `space_find` reports for a page that is mapped
never has the attributes it was mapped with (`attributes_never_same`).

That stores elsewhere do not touch the descriptor needs tables that are apart: each space has
tables of its own, and the pages that `get_page` returns are in use nowhere (`Tables`,
`FreshSupply`, of `Omb.Am335x.Translate`).  A space that shared a table with another would see
its pages mapped and unmapped with those of the other.

## Main results

* `flagsFromMap_l2Descr`: what comes back of the flags
* `PageRun.Holds.call`, `PageRun.Holds.calls`: calls elsewhere keep a descriptor
* `attributes_never_same`: attributes never come back as they were given
-/

namespace Omb

/-! ## Packed and read back -/

/-- The bits below a page address. -/
theorem PageAligned.field {pa k : Word} {n : ℕ} (h : PageAligned pa)
    (hlow : 0xfff &&& k <<< n = k <<< n) (hback : (k <<< n) >>> n = k) :
    pa >>> n &&& k = 0 := by
  calc pa >>> n &&& k = pa >>> n &&& (k <<< n) >>> n := by rw [hback]
    _ = (pa &&& k <<< n) >>> n := (BitVec.ushiftRight_and_distrib ..).symm
    _ = 0 := by rw [and_eq_zero_of_le h.and_eq hlow]; exact BitVec.zero_ushiftRight

/-- The page address of a descriptor has no part in its flags. -/
theorem flagsFromMap_or {pa : Word} (h : PageAligned pa) (k : Word) :
    flagsFromMap (pa ||| k) = flagsFromMap k := by
  have hap : pa >>> 4 &&& 0b11 = 0 := h.field (by decide) (by decide)
  have hb : pa >>> 2 &&& 0b1 = 0 := h.field (by decide) (by decide)
  simp only [flagsFromMap, BitVec.ushiftRight_or_distrib, or_and_of_disjoint hap,
    or_and_of_disjoint hb]

theorem and_addrWrite (flags : Word) :
    flags &&& addrWrite = 0 ∨ flags &&& addrWrite = addrWrite := by
  have hbit : addrWrite = BitVec.twoPow 32 2 := rfl
  rw [hbit, BitVec.and_twoPow]
  split_ifs
  · exact .inr rfl
  · exact .inl rfl

theorem and_addrCache (flags : Word) :
    flags &&& addrCache = 0 ∨ flags &&& addrCache = addrCache := by
  have hbit : addrCache = BitVec.twoPow 32 3 := rfl
  rw [hbit, BitVec.and_twoPow]
  split_ifs
  · exact .inr rfl
  · exact .inl rfl

/-- **What comes back of the flags**: the write flag, and the complement of the cache flag.
The read flag is always there, as nothing else can be stored. -/
theorem flagsFromMap_l2Descr {pa : Word} (h : PageAligned pa) (flags : Word) :
    flagsFromMap (l2Descr pa (apOf flags) (cacheOf flags)) =
      addrRead ||| (flags &&& addrWrite) ||| (flags &&& addrCache ^^^ addrCache) := by
  rw [l2Descr_eq, flagsFromMap_or h, attributes, apOf, cacheOf]
  rcases and_addrWrite flags with hw | hw <;> rcases and_addrCache flags with hc | hc <;>
    rw [hw, hc] <;> decide

/-- `f` has the attributes `flags` asks for: read, and write and cache as asked. -/
structure SameAttributes (flags f : Word) : Prop where
  read : f &&& addrRead ≠ 0
  write : f &&& addrWrite ≠ 0 ↔ flags &&& addrWrite ≠ 0
  cache : f &&& addrCache ≠ 0 ↔ flags &&& addrCache ≠ 0

/-- What comes back has the read and the write attribute, and always the other cache
attribute. -/
theorem flagsFromMap_attributes {pa : Word} (h : PageAligned pa) (flags : Word) {f : Word}
    (hf : f = flagsFromMap (l2Descr pa (apOf flags) (cacheOf flags))) :
    f &&& addrRead ≠ 0 ∧ (f &&& addrWrite ≠ 0 ↔ flags &&& addrWrite ≠ 0) ∧
      (f &&& addrCache ≠ 0 ↔ flags &&& addrCache = 0) := by
  rw [hf, flagsFromMap_l2Descr h]
  rcases and_addrWrite flags with hw | hw <;> rcases and_addrCache flags with hc | hc <;>
    rw [hw, hc] <;> decide

/-! ## Calls on other pages -/

/-- The page a call is about. -/
def PageCall.va : PageCall → Word
  | .map _ va _ => va
  | .unmap va => va

/-- A call on a space of `S` that is not about the page of `va` in `space`.  It may be about
the same page number in another space. -/
structure Elsewhere (S : Set Word) (space va : Word) (c : Word × PageCall) : Prop where
  mem : c.1 ∈ S
  covered : Covered c.2.va
  other : c.1 = space → pageNo va ≠ pageNo c.2.va

/-- Calls on several spaces, one after the other. -/
def PageRun.calls (r : PageRun) (cs : List (Word × PageCall)) : PageRun :=
  cs.foldl (fun r c => r.call c.1 c.2) r

/-- The tables are in order, and the page has the descriptor `d`. -/
structure PageRun.Holds (S : Set Word) (space va d : Word) (r : PageRun) : Prop where
  tables : Tables r.mem S
  supply : FreshSupply r.mem S r.supply
  descr : translate r.mem space va = d

namespace PageRun.Holds

variable {S : Set Word} {space va d : Word} {r : PageRun}

/-- A store elsewhere keeps the descriptor. -/
theorem descr_of_remapped {m' : Mem} {c : Word × PageCall} {d' : Word}
    (h : r.Holds S space va d) (hspace : space ∈ S) (hva : Covered va)
    (hc : Elsewhere S space va c) (hmap : Remapped r.mem m' S c.1 c.2.va d') :
    translate m' space va = d := by
  rw [hmap space hspace va hva, if_neg fun hand => hc.other hand.1.symm hand.2]
  exact h.descr

/-- **A call elsewhere keeps the descriptor.** -/
theorem call (h : r.Holds S space va d) (hspace : space ∈ S) (hva : Covered va)
    {c : Word × PageCall} (hc : Elsewhere S space va c) :
    (r.call c.1 c.2).Holds S space va d := by
  rcases c with ⟨space', _ | _⟩
  case map pa' va' flags' =>
    have hspec := spaceMap_spec h.tables h.supply hc.mem hc.covered pa' flags'
    unfold PageRun.call
    rcases hcall : spaceMap r.mem space' pa' va' flags' r.supply with ⟨_ | _, m', supply'⟩
    · have hspec : SpaceMapped r.mem S space' pa' va' flags' (false, m', supply') :=
        hcall ▸ hspec
      simp only [hcall]
      exact ⟨hspec.tables, hspec.supply, spaceMap_false hcall ▸ h.descr⟩
    · have hspec : SpaceMapped r.mem S space' pa' va' flags' (true, m', supply') :=
        hcall ▸ hspec
      simp only [hcall]
      exact ⟨hspec.tables, hspec.supply,
        h.descr_of_remapped hspace hva hc (hspec.mapped rfl)⟩
  case unmap va' =>
    obtain ⟨hsame, hmapped⟩ := spaceUnmap_spec h.tables hc.mem hc.covered
    exact ⟨h.tables.congr hsame, h.supply.congr hsame,
      h.descr_of_remapped hspace hva hc hmapped⟩

/-- So do any number of them. -/
theorem calls (h : r.Holds S space va d) (hspace : space ∈ S) (hva : Covered va)
    {cs : List (Word × PageCall)} (hcs : ∀ c ∈ cs, Elsewhere S space va c) :
    (r.calls cs).Holds S space va d := by
  induction cs generalizing r with
  | nil => exact h
  | cons c cs ih =>
      apply ih
      · exact h.call hspace hva (hcs c (List.mem_cons_self ..))
      · exact fun c' hc' => hcs c' (List.mem_cons_of_mem _ hc')

end PageRun.Holds

/-- `space_find` of a page with a descriptor. -/
theorem spaceFind_of_descr {m : Mem} {space va d : Word} (h : translate m space va = d)
    (hd : d ≠ l2Fault) : spaceFind m space va = (d &&& pageMask, some (flagsFromMap d)) := by
  subst h
  have htab : tabOf m space (l1x va) ≠ nil := by
    intro hnil
    rw [translate, if_pos hnil] at hd
    exact hd rfl
  rw [translate, if_neg htab]
  unfold tabOf at htab
  rw [spaceFind, if_neg htab]
  rfl

/-- **Attributes never come back as they were given.**  When a page has been mapped, and then
other pages have been mapped and unmapped in any order, `space_find` reports the read flag and
the write flag as they were, and the cache flag the other way round.  So there is no page,
address or flags for which they do. -/
theorem attributes_never_same {m m' : Mem} {S : Set Word} {supply supply' : List Word}
    {space pa va flags : Word} (ht : Tables m S) (hs : FreshSupply m S supply)
    (hspace : space ∈ S) (hva : Covered va) (hpa : PageAligned pa)
    (hmap : spaceMap m space pa va flags supply = (true, m', supply'))
    {cs : List (Word × PageCall)} (hcs : ∀ c ∈ cs, Elsewhere S space va c) :
    ∃ f, spaceFind (PageRun.calls ⟨m', supply', []⟩ cs).mem space va = (pa, some f) ∧
      f &&& addrRead ≠ 0 ∧ (f &&& addrWrite ≠ 0 ↔ flags &&& addrWrite ≠ 0) ∧
      (f &&& addrCache ≠ 0 ↔ flags &&& addrCache = 0) ∧ ¬ SameAttributes flags f := by
  have hspec := spaceMap_spec ht hs hspace hva pa flags
  rw [hmap] at hspec
  have hdescr : translate m' space va = l2Descr pa (apOf flags) (cacheOf flags) := by
    rw [hspec.mapped rfl space hspace va hva, if_pos ⟨rfl, rfl⟩]
  have hholds : (PageRun.calls ⟨m', supply', []⟩ cs).Holds S space va
      (l2Descr pa (apOf flags) (cacheOf flags)) :=
    PageRun.Holds.calls ⟨hspec.tables, hspec.supply, hdescr⟩ hspace hva hcs
  have hne : l2Descr pa (apOf flags) (cacheOf flags) ≠ l2Fault := by
    intro hfault
    have hsmall := l2Descr_and_l2Type hpa flags
    rw [hfault] at hsmall
    exact absurd hsmall (by decide)
  have hfind := spaceFind_of_descr hholds.descr hne
  rw [l2Descr_and_pageMask hpa] at hfind
  obtain ⟨hread, hwrite, hcache⟩ := flagsFromMap_attributes hpa flags rfl
  refine ⟨_, hfind, hread, hwrite, hcache, fun hsame => ?_⟩
  have hiff := hsame.cache.symm.trans hcache
  exact iff_not_self hiff.symm

/-- A cached page of a zeroed space, with another one mapped and unmapped after it. -/
theorem cached_page_reported :
    ∃ m' supply' f, spaceMap (fun _ => 0) 0x1000 0x5000 0x2000 addrCache [0x8000] =
        (true, m', supply') ∧
      spaceFind (PageRun.calls ⟨m', supply', []⟩
        [(0x1000, .map 0x6000 0x3000 addrWrite), (0x1000, .unmap 0x3004)]).mem 0x1000 0x2000 =
          (0x5000, some f) ∧ f &&& addrCache = 0 := by
  have ht : Tables (fun _ => 0) {0x1000} := tables_singleton fun _ _ => rfl
  have hcs : ∀ c ∈ [((0x1000 : Word), PageCall.map 0x6000 0x3000 addrWrite),
      (0x1000, .unmap 0x3004)], Elsewhere {0x1000} 0x1000 0x2000 c := by
    intro c hc
    have hor : c = (0x1000, .map 0x6000 0x3000 addrWrite) ∨ c = (0x1000, .unmap 0x3004) := by
      simpa using hc
    rcases hor with rfl | rfl
    · exact ⟨rfl, by simp [Covered, PageCall.va], fun _ => by decide⟩
    · exact ⟨rfl, by simp [Covered, PageCall.va], fun _ => by decide⟩
  have hva : Covered 0x2000 := by simp [Covered]
  have hpa : PageAligned 0x5000 := rfl
  obtain ⟨m', supply', hmap⟩ : ∃ m' supply', spaceMap (fun _ => 0) 0x1000 0x5000 0x2000 addrCache
      [0x8000] = (true, m', supply') := ⟨_, _, rfl⟩
  obtain ⟨f, hfind, -, -, hcache, -⟩ :=
    attributes_never_same ht freshSupply_zeroed rfl hva hpa hmap hcs
  refine ⟨m', supply', f, hmap, hfind, ?_⟩
  by_contra hne
  exact absurd (hcache.mp hne) (by decide)

/-- Mapped with `ADDR_cache`, and reported without it. -/
theorem cache_flag_lost :
    ∃ m' supply' f, spaceMap (fun _ => 0) 0x1000 0x5000 0x2000 addrCache [0x8000] =
        (true, m', supply') ∧
      spaceFind m' 0x1000 0x2000 = (0x5000, some f) ∧ ¬ SameAttributes addrCache f := by
  refine ⟨_, _, addrRead, rfl, by decide +kernel, fun hsame => ?_⟩
  exact absurd hsame.cache (by decide)

end Omb
