import Omb.Kern.Frames
import Omb.Lib.Relocation

/-!
# The turns of `sys_addr_accept`

`PageLoop.after c x n` is what the loop of `sys_addr_accept` has made of memory and supply
when `n` turns have been completed.  The call returns after all turns with `OK`, or with `ERR`
in the first turn that needs a second-level table and gets no page for it; which turn that is
can be told before the call (`HasPage`).

The descriptors of all pages after `n` turns are those before, relocated one by one
(`PageLoop.Fits.moves`), so that the rules of `Relocation` say what each page holds wherever the
loop is left, also when a process transfers to itself and the two ranges overlap.

What is asked of a call is `State.CallFits`: the two spaces have tables of their own,
`get_page` returns pages that are in use nowhere, and both ranges are below 1 GiB, where the
first-level tables end.  Without the first two a store to a table changes another space, and
beyond 1 GiB entries are looked up behind the table.

## Main definitions

* `PageLoop`: what the loop works on
* `PageLoop.NeedsTable`, `PageLoop.HasPage`: which turns come off, told before the call
* `Transfer.Ends`: how a call has ended

## Main results

* `acceptFrom_ends`: how a call ends
* `PageLoop.Fits.moves`: its turns relocate descriptors
-/

namespace Omb

/-! ## Turns -/

/-- What the loop works on: the two spaces, the starts of the ranges and the flags. -/
structure PageLoop where
  giver : Word
  taker : Word
  vf : Word
  vt : Word
  flags : Word

/-- The loop of a transfer. -/
def Transfer.pageLoop (t : Transfer) (s : State) (flags : Word) : PageLoop where
  giver := (s.procs t.giver).space
  taker := (s.procs t.taker).space
  vf := t.vf
  vt := t.vt
  flags := flags

namespace PageLoop

/-- Turn `i`; `none` is the `return ERR` in it. -/
def turn (c : PageLoop) (i : ℕ) (x : Mem × List Word) : Option (Mem × List Word) :=
  let pa := (spaceFind x.1 c.giver (c.vf + pageOffset i)).1
  match spaceMap x.1 c.taker pa (c.vt + pageOffset i) c.flags x.2 with
  | (false, _, _) => none
  | (true, m, supply) => some (spaceUnmap m c.giver (c.vf + pageOffset i), supply)

/-- Memory and supply when `n` turns have been completed. -/
def after (c : PageLoop) (x : Mem × List Word) : ℕ → Option (Mem × List Word)
  | 0 => some x
  | n + 1 => (c.after x n).bind (c.turn n)

/-- The loop of the call, for the turns that `fuel` allows. -/
def loop (c : PageLoop) (len : Word) (fuel : ℕ) (l : Word) (x : Mem × List Word) :
    Option (Word × Mem × List Word) :=
  acceptLoop c.giver c.taker c.vf c.vt len c.flags fuel l x.1 x.2

variable {c : PageLoop} {len : Word} {x y : Mem × List Word} {n i fuel : ℕ}

/-- A completed turn is one turn of the loop. -/
theorem loop_of_turn (hl : pageOffset i < len) (h : c.turn i x = some y) :
    c.loop len (fuel + 1) (pageOffset i) x = c.loop len fuel (pageOffset (i + 1)) y := by
  unfold turn at h
  rcases hmap : spaceMap x.1 c.taker (spaceFind x.1 c.giver (c.vf + pageOffset i)).1
    (c.vt + pageOffset i) c.flags x.2 with ⟨_ | _, m, supply⟩
  · simp only [hmap] at h
    cases h
  · simp only [hmap] at h
    cases h
    rw [loop, acceptLoop, if_pos hl]
    simp only [hmap, pageOffset_succ]
    rfl

/-- In a turn that is not completed the call returns `ERR` and leaves memory alone. -/
theorem loop_of_turn_none (fuel : ℕ) (hl : pageOffset i < len) (h : c.turn i x = none) :
    ∃ supply, c.loop len (fuel + 1) (pageOffset i) x = some (err, x.1, supply) := by
  unfold turn at h
  rcases hmap : spaceMap x.1 c.taker (spaceFind x.1 c.giver (c.vf + pageOffset i)).1
    (c.vt + pageOffset i) c.flags x.2 with ⟨_ | _, m, supply⟩
  · refine ⟨supply, ?_⟩
    rw [loop, acceptLoop, if_pos hl]
    simp only [hmap]
    rw [spaceMap_false hmap]
  · simp only [hmap] at h
    cases h

theorem loop_of_not_lt (hl : ¬ pageOffset i < len) :
    c.loop len (fuel + 1) (pageOffset i) x = some (ok, x.1, x.2) := by
  rw [loop, acceptLoop, if_neg hl]

/-- The loop goes through the turns that are completed. -/
theorem loop_after (fuel : ℕ) (hl : ∀ i < n, pageOffset i < len) (h : c.after x n = some y) :
    c.loop len (n + fuel) 0 x = c.loop len fuel (pageOffset n) y := by
  induction n generalizing fuel y with
  | zero =>
      cases h
      rw [Nat.zero_add]
      rfl
  | succ n ih =>
      obtain ⟨z, hz, hturn⟩ := Option.bind_eq_some_iff.mp h
      rw [Nat.add_assoc, Nat.add_comm 1 fuel,
        ih (fuel + 1) (fun i hi => hl i (hi.trans (Nat.lt_succ_self n))) hz,
        loop_of_turn (hl n (Nat.lt_succ_self n)) hturn]

theorem after_of_le {m : ℕ} (h : c.after x n = some y) (hm : m ≤ n) :
    ∃ z, c.after x m = some z := by
  induction n, hm using Nat.le_induction generalizing y with
  | base => exact ⟨y, h⟩
  | succ n hm ih =>
      obtain ⟨z, hz, -⟩ := Option.bind_eq_some_iff.mp h
      exact ih hz

/-- Fuel for no more than the turns is not enough. -/
theorem loop_eq_none (hl : ∀ i < n, pageOffset i < len) (h : c.after x n = some y)
    (hfuel : fuel ≤ n) : c.loop len fuel 0 x = none := by
  obtain ⟨z, hz⟩ := after_of_le h hfuel
  exact loop_after 0 (fun i hi => hl i (hi.trans_le hfuel)) hz

/-! ## Which turns are completed -/

/-- Turn `i` comes to an entry of the taker's space that is a fault, the first turn to do so.
Turns before it may have made the table for its MiB. -/
def NeedsTable (c : PageLoop) (m : Mem) (i : ℕ) : Prop :=
  m (tabAddr c.taker (l1x (c.vt + pageOffset i))) = l1Fault ∧
    ∀ k < i, l1x (c.vt + pageOffset k) ≠ l1x (c.vt + pageOffset i)

instance (c : PageLoop) (m : Mem) : DecidablePred (c.NeedsTable m) :=
  fun _ => inferInstanceAs (Decidable (_ ∧ _))

/-- The calls of `get_page` in the first `n` turns. -/
def tablesNeeded (c : PageLoop) (m : Mem) : ℕ → ℕ
  | 0 => 0
  | n + 1 => tablesNeeded c m n + if c.NeedsTable m n then 1 else 0

/-- `get_page` has a page for turn `i`, if it needs one.  The turns before it have used up
those that they needed. -/
def HasPage (c : PageLoop) (x : Mem × List Word) (i : ℕ) : Prop :=
  c.NeedsTable x.1 i → x.2.getD (c.tablesNeeded x.1 i) nil ≠ nil

instance (c : PageLoop) (x : Mem × List Word) : DecidablePred (c.HasPage x) :=
  fun _ => inferInstanceAs (Decidable (_ → _))

end PageLoop

/-! ## First-level entries -/

section Entries

variable {S : Set Word} {m m' : Mem} {supply supply' : List Word}

theorem getPage_drop (supply : List Word) (k : ℕ) :
    getPage (supply.drop k) = (supply.getD k nil, supply.drop (k + 1)) := by
  induction supply generalizing k with
  | nil => simp [getPage]
  | cons page supply ih =>
      cases k with
      | zero => rfl
      | succ k => exact ih k

/-- `space_map` returns false when there is no table and no page for one. -/
theorem spaceMap_eq_false_iff (ht : Tables m S) {space va : Word} (hspace : space ∈ S)
    (hva : Covered va) (pa flags : Word) :
    (spaceMap m space pa va flags supply).1 = false ↔
      tabOf m space (l1x va) = nil ∧ (getPage supply).1 = nil := by
  rcases ne_or_eq (tabOf m space (l1x va)) nil with htab | hnil
  · rw [spaceMap_of_table htab]
    exact ⟨nofun, fun h => absurd h.1 htab⟩
  · have hentry := ht.entry space hspace _ (l1x_lt hva) hnil
    rcases eq_or_ne (getPage supply).1 nil with hpage | hpage
    · rw [spaceMap_of_nil hentry hpage]
      exact ⟨fun _ => ⟨hnil, hpage⟩, fun _ => rfl⟩
    · rw [spaceMap_of_page hentry hpage]
      exact ⟨nofun, fun h => absurd h.2 hpage⟩

/-- A call that returns true leaves a table at its entry, and has taken a page for it if there
was none. -/
theorem spaceMap_tabOf (ht : Tables m S) (hs : FreshSupply m S supply) {space va pa flags : Word}
    (hspace : space ∈ S) (hva : Covered va)
    (h : spaceMap m space pa va flags supply = (true, m', supply')) :
    supply' = (if tabOf m space (l1x va) = nil then (getPage supply).2 else supply) ∧
      ∀ i : Word, i.toNat < 1024 →
        (tabOf m' space i = nil ↔ tabOf m space i = nil ∧ i ≠ l1x va) := by
  rcases ne_or_eq (tabOf m space (l1x va)) nil with htab | hnil
  · rw [spaceMap_of_table htab] at h
    cases h
    refine ⟨(if_neg htab).symm, fun i hi => ?_⟩
    rw [(ht.store_sameEntries hspace hva htab _).tabOf hspace hi]
    refine ⟨fun hi' => ⟨hi', ?_⟩, And.left⟩
    rintro rfl
    exact htab hi'
  · have hentry := ht.entry space hspace _ (l1x_lt hva) hnil
    rcases eq_or_ne (getPage supply).1 nil with hpage | hpage
    · rw [spaceMap_of_nil hentry hpage] at h
      cases h
    · cases supply with
      | nil => exact absurd rfl hpage
      | cons page supply =>
          have hne : page ≠ nil := hpage
          have hfresh := hs.fresh page (List.mem_cons_self ..) hne
          have hinstall := ht.install hspace (l1x_lt hva) hfresh hne
          have htab : tabOf (installTab m space (l1x va) page) space (l1x va) = page := by
            rw [ht.install_tabOf hspace (l1x_lt hva) hfresh hspace (l1x_lt hva),
              if_pos ⟨rfl, rfl⟩]
          rw [spaceMap_of_page hentry hpage] at h
          cases h
          refine ⟨(if_pos hnil).symm, fun i hi => ?_⟩
          -- the store behind the installation leaves the first level alone
          have hsame := hinstall.store_sameEntries hspace hva (by rw [htab]; exact hne)
            (l2Descr pa (apOf flags) (cacheOf flags))
          rw [htab] at hsame
          rw [show (getPage (page :: supply)).1 = page from rfl, hsame.tabOf hspace hi,
            ht.install_tabOf hspace (l1x_lt hva) hfresh hspace hi]
          rcases eq_or_ne i (l1x va) with rfl | hi'
          · rw [if_pos ⟨rfl, rfl⟩]
            exact ⟨fun h => absurd h hne, fun h => absurd rfl h.2⟩
          · rw [if_neg fun h => hi' h.2]
            exact ⟨fun h => ⟨h, hi'⟩, And.left⟩

theorem Tables.tabOf_eq_nil_iff (ht : Tables m S) {space i : Word} (hspace : space ∈ S)
    (hi : i.toNat < 1024) : tabOf m space i = nil ↔ m (tabAddr space i) = l1Fault := by
  refine ⟨ht.entry space hspace i hi, fun hfault => ?_⟩
  rw [tabOf, hfault]
  decide

end Entries

namespace PageLoop

variable {c : PageLoop} {S : Set Word} {len : Word} {x y : Mem × List Word} {n i : ℕ}

/-- The two spaces have tables of their own, `get_page` returns pages that are in use nowhere,
and both ranges are covered.  Each turn keeps this. -/
structure Fits (c : PageLoop) (S : Set Word) (len : Word) (x : Mem × List Word) : Prop where
  giver : c.giver ∈ S
  taker : c.taker ∈ S
  vf : ∀ l < len, Covered (c.vf + l)
  vt : ∀ l < len, Covered (c.vt + l)
  tables : Tables x.1 S
  supply : FreshSupply x.1 S x.2

/-! ## What one turn does -/

/-- What a completed turn does to tables, supply and pages: one descriptor is moved, and a
page of the supply may have become a table. -/
structure Turned (c : PageLoop) (S : Set Word) (len : Word) (i : ℕ) (x y : Mem × List Word) :
    Prop where
  fits : c.Fits S len y
  moved : PageMoved S x.1 y.1 c.giver c.taker (c.vf + pageOffset i) (c.vt + pageOffset i) c.flags
  supply : y.2 =
    if tabOf x.1 c.taker (l1x (c.vt + pageOffset i)) = nil then (getPage x.2).2 else x.2
  tabOf : ∀ k : Word, k.toNat < 1024 → (tabOf y.1 c.taker k = nil ↔
    tabOf x.1 c.taker k = nil ∧ k ≠ l1x (c.vt + pageOffset i))

theorem Fits.turn (h : c.Fits S len x) (hi : i < turns len) (hturn : c.turn i x = some y) :
    c.Turned S len i x y := by
  have hvf := covered_pageOffset h.vf hi
  have hvt := covered_pageOffset h.vt hi
  unfold PageLoop.turn at hturn
  rcases hmap : spaceMap x.1 c.taker (spaceFind x.1 c.giver (c.vf + pageOffset i)).1
    (c.vt + pageOffset i) c.flags x.2 with ⟨_ | _, m, supply⟩
  · simp only [hmap] at hturn
    cases hturn
  · simp only [hmap] at hturn
    cases hturn
    obtain ⟨htables, hsupply, hmoved⟩ :=
      acceptTurn_spec h.tables h.supply h.giver h.taker hvf hvt hmap
    obtain ⟨hrest, htab⟩ := spaceMap_tabOf h.tables h.supply h.taker hvt hmap
    have hmapped := spaceMap_spec h.tables h.supply h.taker hvt
      (spaceFind x.1 c.giver (c.vf + pageOffset i)).1 c.flags
    rw [hmap] at hmapped
    have hsame := (spaceUnmap_spec hmapped.tables h.giver hvf).1
    refine ⟨⟨h.giver, h.taker, h.vf, h.vt, htables, hsupply⟩, hmoved, hrest, fun k hk => ?_⟩
    rw [hsame.tabOf h.taker hk]
    exact htab k hk

/-- A turn is not completed when it finds no table and `get_page` no page. -/
theorem Fits.turn_eq_none_iff (h : c.Fits S len x) (hi : i < turns len) :
    c.turn i x = none ↔
      tabOf x.1 c.taker (l1x (c.vt + pageOffset i)) = nil ∧ (getPage x.2).1 = nil := by
  rw [← spaceMap_eq_false_iff h.tables h.taker (covered_pageOffset h.vt hi)
    (spaceFind x.1 c.giver (c.vf + pageOffset i)).1 c.flags]
  unfold PageLoop.turn
  rcases hmap : spaceMap x.1 c.taker (spaceFind x.1 c.giver (c.vf + pageOffset i)).1
    (c.vt + pageOffset i) c.flags x.2 with ⟨_ | _, m, supply⟩ <;> simp [hmap]

/-! ## Which turns are completed -/

/-- The supply and the first-level entries after `n` turns. -/
theorem Fits.after (h : c.Fits S len x) (hn : n ≤ turns len) (hx : c.after x n = some y) :
    c.Fits S len y ∧ y.2 = x.2.drop (c.tablesNeeded x.1 n) ∧
      ∀ k : Word, k.toNat < 1024 → (tabOf y.1 c.taker k = nil ↔
        tabOf x.1 c.taker k = nil ∧ ∀ j < n, l1x (c.vt + pageOffset j) ≠ k) := by
  induction n generalizing y with
  | zero =>
      cases hx
      exact ⟨h, rfl, fun k _ => by simp⟩
  | succ n ih =>
      obtain ⟨z, hz, hturn⟩ := Option.bind_eq_some_iff.mp hx
      obtain ⟨hfits, hsupply, htab⟩ := ih (Nat.le_of_succ_le hn) hz
      have hturned := hfits.turn hn hturn
      have hcov := l1x_lt (covered_pageOffset h.vt hn)
      refine ⟨hturned.fits, ?_, fun k hk => ?_⟩
      · rw [hturned.supply, hsupply, getPage_drop, tablesNeeded]
        have hneeds : tabOf z.1 c.taker (l1x (c.vt + pageOffset n)) = nil ↔
            c.NeedsTable x.1 n := by
          rw [htab _ hcov, h.tables.tabOf_eq_nil_iff h.taker hcov]
          rfl
        simp only [hneeds]
        split_ifs
        · rfl
        · rw [Nat.add_zero]
      · rw [hturned.tabOf k hk, htab k hk, and_assoc, Nat.forall_lt_succ_right]
        refine and_congr_right fun _ => and_congr_right fun _ => ne_comm

/-- **Whether a turn is completed** is known before the call. -/
theorem Fits.turn_after (h : c.Fits S len x) (hn : n < turns len) (hx : c.after x n = some y) :
    c.turn n y = none ↔ ¬ c.HasPage x n := by
  obtain ⟨hfits, hsupply, htab⟩ := h.after hn.le hx
  have hcov := l1x_lt (covered_pageOffset h.vt hn)
  rw [hfits.turn_eq_none_iff hn, htab _ hcov, h.tables.tabOf_eq_nil_iff h.taker hcov, hsupply,
    getPage_drop, HasPage, NeedsTable, Classical.not_imp, not_not]

theorem Fits.after_ne_none_iff (h : c.Fits S len x) (hn : n ≤ turns len) :
    (∃ y, c.after x n = some y) ↔ ∀ i < n, c.HasPage x i := by
  induction n with
  | zero => exact ⟨fun _ _ hi => absurd hi (Nat.not_lt_zero _), fun _ => ⟨x, rfl⟩⟩
  | succ n ih =>
      have ih := ih (Nat.le_of_succ_le hn)
      rw [Nat.forall_lt_succ_right, ← ih]
      constructor
      · rintro ⟨y, hy⟩
        obtain ⟨z, hz, hturn⟩ := Option.bind_eq_some_iff.mp hy
        refine ⟨⟨z, hz⟩, ?_⟩
        by_contra hpage
        rw [(h.turn_after hn hz).mpr hpage] at hturn
        cases hturn
      · rintro ⟨⟨z, hz⟩, hpage⟩
        have hturn : c.turn n z ≠ none := fun hnone => (h.turn_after hn hz).mp hnone hpage
        obtain ⟨y, hy⟩ := Option.ne_none_iff_exists'.mp hturn
        exact ⟨y, Option.bind_eq_some_iff.mpr ⟨z, hz, hy⟩⟩

end PageLoop

/-! ## The pages -/

/-- A page of a space, by its number. -/
abbrev SpacePage := Word × Fin (2 ^ 18)

/-- The descriptors of all pages. -/
def descrs (m : Mem) (k : SpacePage) : Word :=
  translate m k.1 (pageAddr k.2)

/-- The descriptor that maps the frame of `d`.  The rights in it are those that the call asks
for. -/
def stamp (flags d : Word) : Word :=
  l2Descr (d &&& pageMask) (apOf flags) (cacheOf flags)

theorem stamp_stamp (flags d : Word) : stamp flags (stamp flags d) = stamp flags d := by
  rw [stamp, stamp, l2Descr_and_pageMask (pageMask_aligned d)]

theorem translate_eq_descrs (m : Mem) (space : Word) {va : Word} (h : Covered va) :
    translate m space va = descrs m (space, pageIndex va) :=
  translate_congr m space (pageNo_pageAddr_pageIndex h).symm

theorem PageMoved.descrs {S : Set Word} {m m' : Mem} {giver taker vf vt flags : Word}
    (h : PageMoved S m m' giver taker vf vt flags) (hvf : Covered vf) (hvt : Covered vt)
    {k : SpacePage} (hk : k.1 ∈ S) :
    Omb.descrs m' k =
      if k = (giver, pageIndex vf) then l2Fault
      else if k = (taker, pageIndex vt) then stamp flags (Omb.descrs m (giver, pageIndex vf))
      else Omb.descrs m k := by
  have hkey : ∀ space va, Covered va →
      (k = (space, pageIndex va) ↔ k.1 = space ∧ pageNo (pageAddr k.2) = pageNo va) := by
    intro space va hva
    rw [← pageIndex_eq_iff hva, Prod.ext_iff]
  rw [Omb.descrs, h _ hk _ (covered_pageAddr k.2), translate_eq_descrs m giver hvf]
  simp only [hkey giver vf hvf, hkey taker vt hvt]
  rfl

namespace PageLoop

variable {c : PageLoop} {S : Set Word} {len : Word} {x y : Mem × List Word} {n i : ℕ}

/-- The page turn `i` takes a frame from. -/
def src (c : PageLoop) (i : ℕ) : SpacePage :=
  (c.giver, pageIndex (c.vf + pageOffset i))

/-- The page it takes the frame to. -/
def dst (c : PageLoop) (i : ℕ) : SpacePage :=
  (c.taker, pageIndex (c.vt + pageOffset i))

/-- The descriptors after `n` turns. -/
def descrsAfter (c : PageLoop) (x : Mem × List Word) (n : ℕ) : SpacePage → Word :=
  match c.after x n with
  | some y => descrs y.1
  | none => descrs x.1

theorem descrsAfter_eq (h : c.after x n = some y) : c.descrsAfter x n = descrs y.1 := by
  rw [descrsAfter, h]

/-- **The turns relocate descriptors.**  This holds after any number of completed turns, so
also where the call is left with an error. -/
theorem Fits.moves (h : c.Fits S len x) (hn : n ≤ turns len) (hx : c.after x n = some y) :
    Relocation.Moves {k : SpacePage | k.1 ∈ S} l2Fault (stamp c.flags) c.src c.dst n
      (c.descrsAfter x) := by
  have hinj : ∀ v : Word, (∀ l < len, Covered (v + l)) → ∀ i < n, ∀ j < n,
      pageIndex (v + pageOffset i) = pageIndex (v + pageOffset j) → i = j := by
    intro v hcov i hi j hj heq
    rcases Nat.lt_trichotomy i j with hlt | rfl | hlt
    · exact absurd heq (pageIndex_add_ne hcov (hj.trans_le hn) hlt)
    · rfl
    · exact absurd heq.symm (pageIndex_add_ne hcov (hi.trans_le hn) hlt)
  refine ⟨fun i _ => h.giver, fun i hi j hj heq => ?_, fun i hi j hj heq => ?_,
    fun i hi k hk => ?_⟩
  · exact hinj c.vf h.vf i hi j hj (Prod.mk.inj heq).2
  · exact hinj c.vt h.vt i hi j hj (Prod.mk.inj heq).2
  · obtain ⟨z, hz⟩ := after_of_le hx hi
    obtain ⟨w, hw, hturn⟩ := Option.bind_eq_some_iff.mp hz
    have hi' := hi.trans_le hn
    rw [descrsAfter_eq hz, descrsAfter_eq hw]
    exact ((h.after hi'.le hw).1.turn hi' hturn).moved.descrs (covered_pageOffset h.vf hi')
      (covered_pageOffset h.vt hi') hk

/-- Within one space the range moves up or down. -/
theorem Fits.oneWay (h : c.Fits S len x) (hn : n ≤ turns len) :
    Relocation.OneWay c.src c.dst n := by
  have hne : ∀ i < n, ∀ j < n, pageNo c.vt + i ≠ pageNo c.vf + j → c.dst i ≠ c.src j := by
    intro i hi j hj hpage heq
    have hi' := hi.trans_le hn
    have hj' := hj.trans_le hn
    have hindex := (Prod.mk.inj heq).2
    rw [pageIndex_inj (covered_pageOffset h.vt hi') (covered_pageOffset h.vf hj'),
      pageNo_add_pageOffset h.vt hi', pageNo_add_pageOffset h.vf hj'] at hindex
    exact hpage hindex
  rcases Nat.lt_or_ge (pageNo c.vt) (pageNo c.vf) with hdown | hup
  · left
    intro m hm i hi
    exact hne i (hi.trans hm) m hm (by omega)
  · right
    intro m hm i hi
    exact hne m hm i (hi.trans hm) (by omega)

end PageLoop

/-! ## The call -/

/-- The spaces of two processes. -/
def State.spacesOf (s : State) (u p : ProcRef) : Set Word :=
  {(s.procs u).space, (s.procs p).space}

/-- The spaces of caller and offerer have tables of their own, `get_page` returns pages that
are in use nowhere, and the ranges lie in what the first-level table covers. -/
structure State.CallFits (s : State) (u p : ProcRef) (start len : Word) (supply : List Word) :
    Prop where
  tables : Tables s.mem (s.spacesOf u p)
  supply : FreshSupply s.mem (s.spacesOf u p) supply
  start : ∀ l < len, Covered (start + l)
  offer : ∀ l < len, Covered ((s.procs p).addrOffer.start + l)

section Call

variable {S : Set Word} {s : State} {u p : ProcRef} {start len flags : Word}
  {supply : List Word} {t : Transfer}

theorem State.CallFits.fits (h : s.CallFits u p start len supply)
    (ht : acceptedTransfer s u p start len flags = some t) :
    (t.pageLoop s flags).Fits (s.spacesOf u p) len (s.mem, supply) := by
  obtain ⟨-, -, -, ⟨-, -, rfl⟩ | ⟨-, -, rfl⟩⟩ := acceptedTransfer_eq_some ht
  · exact ⟨.inl rfl, .inr rfl, h.start, h.offer, h.tables, h.supply⟩
  · exact ⟨.inr rfl, .inl rfl, h.offer, h.start, h.tables, h.supply⟩

/-- The pages of the two ranges, by address and by turn. -/
theorem State.CallFits.translate_giver (h : s.CallFits u p start len supply)
    (ht : acceptedTransfer s u p start len flags = some t) (m : Mem) {i : ℕ} (hi : i < turns len) :
    translate m (s.procs t.giver).space (t.vf + pageOffset i) =
      descrs m ((t.pageLoop s flags).src i) :=
  translate_eq_descrs m _ (covered_pageOffset (h.fits ht).vf hi)

theorem State.CallFits.translate_taker (h : s.CallFits u p start len supply)
    (ht : acceptedTransfer s u p start len flags = some t) (m : Mem) {i : ℕ} (hi : i < turns len) :
    translate m (s.procs t.taker).space (t.vt + pageOffset i) =
      descrs m ((t.pageLoop s flags).dst i) :=
  translate_eq_descrs m _ (covered_pageOffset (h.fits ht).vt hi)

/-- The call returns `r` when `n` turns have been completed, and leaves memory and supply
`y`. -/
structure Transfer.Ends (t : Transfer) (s : State) (len flags : Word) (supply : List Word)
    (r : Word) (n : ℕ) (y : Mem × List Word) : Prop where
  le : n ≤ turns len
  after : (t.pageLoop s flags).after (s.mem, supply) n = some y
  result : r = ok ∧ n = turns len ∨
    r = err ∧ n < turns len ∧ ¬ (t.pageLoop s flags).HasPage (s.mem, supply) n

/-- **How a call ends**: after all turns with `OK`, or with `ERR` in the first turn that has
no page for a table it needs.  What it leaves in memory is that of the turns which are
completed. -/
theorem acceptFrom_ends (h : s.CallFits u p start len supply)
    (ht : acceptedTransfer s u p start len flags = some t) :
    ∃ r n y, acceptFrom s u p start len flags supply = .ok (r, { s with mem := y.1 }) ∧
      t.Ends s len flags supply r n y := by
  have hfits := h.fits ht
  have hlen := len_le_of_covered hfits.vf
  have hfuel : turns len + 1 ≤ acceptFuel := by
    unfold turns acceptFuel
    omega
  have hl : ∀ n ≤ turns len, ∀ i < n, pageOffset i < len := fun n hn i hi =>
    pageOffset_lt hfits.vf (hi.trans_le hn)
  have hloop : ∀ (r : Word) (m : Mem) (supply' : List Word),
      (t.pageLoop s flags).loop len acceptFuel 0 (s.mem, supply) = some (r, m, supply') →
      acceptFrom s u p start len flags supply = .ok (r, { s with mem := m }) := by
    intro r m supply' hr
    simp only [PageLoop.loop, Transfer.pageLoop] at hr
    simp only [acceptFrom, ht, hr]
  by_cases hall : ∀ i < turns len, (t.pageLoop s flags).HasPage (s.mem, supply) i
  · obtain ⟨y, hy⟩ := (hfits.after_ne_none_iff (le_refl _)).mpr hall
    have hend : ¬ pageOffset (turns len) < len := by
      rw [pageOffset_lt_iff (hlen.trans (by decide)) (le_refl _)]
      exact lt_irrefl _
    obtain ⟨k, hk⟩ : ∃ k, acceptFuel = turns len + (k + 1) := ⟨acceptFuel - turns len - 1, by omega⟩
    refine ⟨ok, turns len, y, hloop ok y.1 y.2 ?_, ⟨le_refl _, hy, .inl ⟨rfl, rfl⟩⟩⟩
    rw [hk, PageLoop.loop_after _ (hl _ (le_refl _)) hy, PageLoop.loop_of_not_lt hend]
  · -- the first turn without a page
    push Not at hall
    have hfirst := Nat.find_spec hall
    have hmin : ∀ i < Nat.find hall, (t.pageLoop s flags).HasPage (s.mem, supply) i := by
      intro i hi
      by_contra hpage
      exact Nat.find_min hall hi ⟨hi.trans hfirst.1, hpage⟩
    obtain ⟨y, hy⟩ := (hfits.after_ne_none_iff hfirst.1.le).mpr hmin
    have hturn := (hfits.turn_after hfirst.1 hy).mpr hfirst.2
    obtain ⟨k, hk⟩ : ∃ k, acceptFuel = Nat.find hall + (k + 1) :=
      ⟨acceptFuel - Nat.find hall - 1, by omega⟩
    obtain ⟨supply', hnone⟩ := PageLoop.loop_of_turn_none k
      (pageOffset_lt hfits.vf hfirst.1) hturn
    refine ⟨err, Nat.find hall, y, hloop err y.1 supply' ?_,
      ⟨hfirst.1.le, hy, .inr ⟨rfl, hfirst⟩⟩⟩
    rw [hk, PageLoop.loop_after _ (hl _ hfirst.1.le) hy, hnone]

/-- `acceptFrom_ends` for the system call. -/
theorem sysAddrAccept_ends (flags : Word) (h : s.CallFits u p start len supply) {pid : Word}
    (hp : deref pid.toInt = .ok p) :
    (acceptedTransfer s u p start len flags = none ∧
      sysAddrAccept s u pid start len flags supply =
        .ok ({ s with control := .user }, [.returned u err])) ∨
    ∃ t, acceptedTransfer s u p start len flags = some t ∧ ∃ r n y,
      sysAddrAccept s u pid start len flags supply =
        .ok ({ s with mem := y.1, control := .user }, [.returned u r]) ∧
      t.Ends s len flags supply r n y := by
  rw [sysAddrAccept_of_deref hp]
  rcases ht : acceptedTransfer s u p start len flags with _ | t
  · left
    have hrefused : acceptFrom s u p start len flags supply = .ok (err, s) := by
      simp only [acceptFrom, ht]
    rw [hrefused]
    exact ⟨rfl, rfl⟩
  · right
    obtain ⟨r, n, y, hcall, hends⟩ := acceptFrom_ends h ht
    refine ⟨t, rfl, r, n, y, ?_, hends⟩
    rw [hcall]
    rfl

namespace Transfer.Ends

variable {r : Word} {n i : ℕ} {y : Mem × List Word}

/-- The turns that are completed. -/
theorem lt_iff (h : t.Ends s len flags supply r n y)
    (hfits : (t.pageLoop s flags).Fits S len (s.mem, supply)) (hi : i < turns len) :
    i < n ↔ ∀ k ≤ i, (t.pageLoop s flags).HasPage (s.mem, supply) k := by
  constructor
  · intro hin k hk
    exact (hfits.after_ne_none_iff h.le).mp ⟨y, h.after⟩ k (hk.trans_lt hin)
  · intro hall
    rcases h.result with ⟨-, rfl⟩ | ⟨-, -, hpage⟩
    · exact hi
    · by_contra hle
      exact hpage (hall n (not_lt.mp hle))

/-- The descriptors the call leaves. -/
theorem descrs_eq (h : t.Ends s len flags supply r n y) :
    (t.pageLoop s flags).descrsAfter (s.mem, supply) n = descrs y.1 :=
  PageLoop.descrsAfter_eq h.after

end Transfer.Ends

end Call

end Omb
