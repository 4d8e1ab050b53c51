import Omb.Am335x.Mem
import Mathlib.Data.Set.Basic
import Mathlib.Logic.Function.Basic
import Mathlib.Tactic.SplitIfs

/-!
# The translation tables as a map from pages to descriptors

`translate m space va` is the descriptor at the end of the table walk for `va`.  On a memory
in which the address spaces `S` own their second-level tables (`Tables`), `space_map` and
`space_unmap` change it at one page of one space (`spaceMap_spec`, `spaceUnmap_spec`), also
when `space_map` puts a new second-level table in place.

Two things make that work: entries of different page-aligned tables never share an address
(`tabAddr_inj`), and the type and attribute bits of an entry lie below its page address.

`Tables` is about all spaces of the system at once, since a table that two of them shared
would let a call on the one change the other.  A page that becomes a table must be one that is
none yet (`FreshPage`): `memset` clears it, and with it whatever entries it had.

A new table maps nothing, so putting it in place changes no translation
(`Tables.install_translate`), and the store behind it is like any other.

## Main definitions

* `translate`: the table walk
* `Tables`, `FreshSupply`: the spaces own their tables, and new tables are fresh
* `Remapped`: one page of one space has another descriptor, and no other has

## Main results

* `Tables.store_remapped`: what a store to a second-level entry does
* `spaceMap_spec`, `spaceUnmap_spec`: what the two calls do
-/

namespace Omb

/-! ## Masks -/

section Masks

variable {w : ℕ} {a k m m' : BitVec w}

theorem or_and_not (ha : a &&& m = 0) (hk : k &&& ~~~m = 0) : (a ||| k) &&& ~~~m = a := by
  ext i hi
  have hbit := congrArg (fun x : BitVec w => x[i]) ha
  have hbit' := congrArg (fun x : BitVec w => x[i]) hk
  simp at hbit hbit' ⊢
  cases hai : a[i] <;> cases hmi : m[i] <;> simp_all

theorem or_and_of_disjoint (ha : a &&& m = 0) : (a ||| k) &&& m = k &&& m := by
  ext i hi
  have hbit := congrArg (fun x : BitVec w => x[i]) ha
  simp at hbit ⊢
  cases hai : a[i] <;> simp_all

theorem and_eq_zero_of_le (h : a &&& m = 0) (hm : m &&& m' = m') : a &&& m' = 0 := by
  rw [← hm, ← BitVec.and_assoc, h]
  exact BitVec.zero_and

end Masks

/-! ## Pages -/

/-- The address of a page. -/
def PageAligned (a : Word) : Prop :=
  a.toNat % 4096 = 0

/-- The number of the page an address is in. -/
def pageNo (va : Word) : ℕ :=
  va.toNat / 4096

/-- The first-level table has an entry for the address: it is below 1 GiB. -/
def Covered (va : Word) : Prop :=
  va.toNat < 2 ^ 30

theorem PageAligned.and_eq {a : Word} (h : PageAligned a) : a &&& 0xfff = 0 := by
  apply BitVec.eq_of_toNat_eq
  rw [BitVec.toNat_and]
  show a.toNat &&& (2 ^ 12 - 1) = 0
  rw [Nat.and_two_pow_sub_one_eq_mod]
  exact h

/-- A first-level entry gives back the table it was made from. -/
theorem PageAligned.coarse {a : Word} (h : PageAligned a) :
    (a ||| l1Coarse) &&& ~~~l1Type = a :=
  or_and_not (and_eq_zero_of_le h.and_eq (by decide)) (by decide)

/-- What a descriptor has besides the page address. -/
def attributes (flags : Word) : Word :=
  l2Descr 0 (apOf flags) (cacheOf flags)

theorem l2Descr_eq (pa flags : Word) :
    l2Descr pa (apOf flags) (cacheOf flags) = pa ||| attributes flags := by
  have hzero : (0 : Word) ||| l2Small = l2Small := by decide
  simp only [attributes, l2Descr, hzero, BitVec.or_assoc]

/-- The attributes of read-write and read-only pages, uncached and cached.  There are no
others. -/
theorem attributes_cases (flags : Word) (P : Word → Prop) (h₁ : P 0x036) (h₂ : P 0x026)
    (h₃ : P 0x1fa) (h₄ : P 0x1ea) : P (attributes flags) := by
  unfold attributes apOf cacheOf
  split_ifs
  · exact h₃
  · exact h₁
  · exact h₄
  · exact h₂

/-- A descriptor gives back the page it was made from. -/
theorem l2Descr_and_pageMask {pa : Word} (h : PageAligned pa) (flags : Word) :
    l2Descr pa (apOf flags) (cacheOf flags) &&& pageMask = pa := by
  rw [l2Descr_eq]
  refine or_and_not h.and_eq ?_
  refine attributes_cases flags (fun k => k &&& ~~~(0xfff : Word) = 0) ?_ ?_ ?_ ?_ <;> decide

theorem l2Descr_and_l2Type {pa : Word} (h : PageAligned pa) (flags : Word) :
    l2Descr pa (apOf flags) (cacheOf flags) &&& l2Type = l2Small := by
  rw [l2Descr_eq, or_and_of_disjoint (and_eq_zero_of_le h.and_eq (by decide))]
  refine attributes_cases flags (fun k => k &&& l2Type = l2Small) ?_ ?_ ?_ ?_ <;> decide

theorem l2Fault_and_pageMask : l2Fault &&& pageMask = nil := by
  decide

theorem pageMask_aligned (a : Word) : PageAligned (a &&& pageMask) := by
  have hzero : (a &&& pageMask) &&& 0xfff = 0 := by
    rw [BitVec.and_assoc, show pageMask &&& 0xfff = 0 by decide]
    exact BitVec.and_zero
  have hnat := congrArg BitVec.toNat hzero
  rw [BitVec.toNat_and] at hnat
  exact (Nat.and_two_pow_sub_one_eq_mod _ 12).symm.trans hnat

/-! ## Addresses of entries -/

theorem toNat_tabAddr {b i : Word} (hb : PageAligned b) (hi : i.toNat < 1024) :
    (tabAddr b i).toNat = b.toNat + 4 * i.toNat := by
  have hlt := b.isLt
  unfold PageAligned at hb
  rw [tabAddr, BitVec.toNat_add, BitVec.toNat_mul]
  have h4 : (4 : Word).toNat = 4 := rfl
  rw [h4]
  omega

/-- Entries of page-aligned tables share an address only if they are the same.  The index has
to be one of the page, or it is an entry of the next. -/
theorem tabAddr_inj {b b' i i' : Word} (hb : PageAligned b) (hb' : PageAligned b')
    (hi : i.toNat < 1024) (hi' : i'.toNat < 1024) :
    tabAddr b i = tabAddr b' i' ↔ b = b' ∧ i = i' := by
  constructor
  · intro heq
    have hnat := congrArg BitVec.toNat heq
    rw [toNat_tabAddr hb hi, toNat_tabAddr hb' hi'] at hnat
    unfold PageAligned at hb hb'
    exact ⟨BitVec.eq_of_toNat_eq (by omega), BitVec.eq_of_toNat_eq (by omega)⟩
  · rintro ⟨rfl, rfl⟩
    rfl

/-- Entries of one table share an address only if they are the same. -/
theorem tabAddr_right_inj {b i i' : Word} (hi : i.toNat < 1024) (hi' : i'.toNat < 1024) :
    tabAddr b i = tabAddr b i' ↔ i = i' := by
  unfold tabAddr
  rw [BitVec.add_right_inj]
  constructor
  · intro heq
    have hnat := congrArg BitVec.toNat heq
    have h4 : (4 : Word).toNat = 4 := rfl
    rw [BitVec.toNat_mul, BitVec.toNat_mul, h4] at hnat
    exact BitVec.eq_of_toNat_eq (by omega)
  · rintro rfl
    rfl

/-- The table at `page` lies in the page. -/
theorem tabAddr_sub_lt {page j : Word} (hj : j.toNat < 1024) :
    tabAddr page j - page < pageSize := by
  have h4 : (4 : Word).toNat = 4 := rfl
  have hsize : pageSize.toNat = 4096 := rfl
  rw [tabAddr, BitVec.add_comm, BitVec.add_sub_cancel, BitVec.lt_def, BitVec.toNat_mul, h4,
    hsize]
  omega

/-- No entry of the table `b` is in `page`. -/
def Outside (b page : Word) : Prop :=
  ∀ i : Word, i.toNat < 1024 → ¬tabAddr b i - page < pageSize

theorem Outside.tabAddr_ne {b page i j : Word} (h : Outside b page) (hi : i.toNat < 1024)
    (hj : j.toNat < 1024) : tabAddr page j ≠ tabAddr b i := by
  intro heq
  apply h i hi
  rw [← heq]
  exact tabAddr_sub_lt hj

theorem Outside.memsetPage {b page i : Word} (h : Outside b page) (hi : i.toNat < 1024)
    (m : Mem) : Omb.memsetPage m page (tabAddr b i) = m (tabAddr b i) :=
  if_neg (h i hi)

theorem PageAligned.outside {b page : Word} (hb : PageAligned b) (hpage : PageAligned page)
    (hne : b ≠ page) : Outside b page := by
  intro i hi hin
  have haddr := toNat_tabAddr hb hi
  have hlt := page.isLt
  have hlt' := b.isLt
  have hsize : pageSize.toNat = 4096 := rfl
  unfold PageAligned at hb hpage
  rw [BitVec.lt_def, BitVec.toNat_sub, haddr, hsize] at hin
  exact hne (BitVec.eq_of_toNat_eq (by omega))

/-- Clearing a page clears the entries of the table in it, and no others. -/
theorem memsetPage_tabAddr (m : Mem) {page b i : Word} (hpage : PageAligned page)
    (hb : PageAligned b) (hi : i.toNat < 1024) :
    memsetPage m page (tabAddr b i) = if b = page then 0 else m (tabAddr b i) := by
  split_ifs with heq
  · subst heq
    exact if_pos (tabAddr_sub_lt hi)
  · exact (hb.outside hpage heq).memsetPage hi m

theorem l1x_lt {va : Word} (h : Covered va) : (l1x va).toNat < 1024 := by
  unfold Covered at h
  rw [l1x, BitVec.toNat_ushiftRight, Nat.shiftRight_eq_div_pow]
  omega

theorem toNat_l2x (va : Word) : (l2x va).toNat = va.toNat / 4096 % 256 := by
  rw [l2x, BitVec.toNat_and, BitVec.toNat_ushiftRight, Nat.shiftRight_eq_div_pow]
  exact Nat.and_two_pow_sub_one_eq_mod _ 8

theorem l2x_lt (va : Word) : (l2x va).toNat < 1024 := by
  rw [toNat_l2x]
  omega

/-- The two indices together are the number of the page. -/
theorem pageNo_eq_iff {va va' : Word} :
    pageNo va = pageNo va' ↔ l1x va = l1x va' ∧ l2x va = l2x va' := by
  have h₁ : (l1x va).toNat = va.toNat / 2 ^ 20 := by
    rw [l1x, BitVec.toNat_ushiftRight, Nat.shiftRight_eq_div_pow]
  have h₁' : (l1x va').toNat = va'.toNat / 2 ^ 20 := by
    rw [l1x, BitVec.toNat_ushiftRight, Nat.shiftRight_eq_div_pow]
  rw [← BitVec.toNat_inj, ← BitVec.toNat_inj, h₁, h₁', toNat_l2x, toNat_l2x, pageNo, pageNo]
  omega

/-! ## The table walk -/

/-- The second-level table of entry `i`; nil for a fault entry.  The type bits are masked, not
looked at, as in the source. -/
def tabOf (m : Mem) (space i : Word) : Word :=
  m (tabAddr space i) &&& ~~~l1Type

/-- The descriptor of the page `va` is in; a fault where there is no table. -/
def translate (m : Mem) (space va : Word) : Word :=
  if tabOf m space (l1x va) = nil then l2Fault
  else m (tabAddr (tabOf m space (l1x va)) (l2x va))

/-- `space_find` reports the page address of the descriptor. -/
theorem spaceFind_eq (m : Mem) (space va : Word) :
    (spaceFind m space va).1 = translate m space va &&& pageMask := by
  rcases eq_or_ne (tabOf m space (l1x va)) nil with htab | htab
  · rw [translate, if_pos htab]
    unfold tabOf at htab
    rw [spaceFind, if_pos htab, l2Fault_and_pageMask]
  · rw [translate, if_neg htab]
    unfold tabOf at htab
    rw [spaceFind, if_neg htab]
    rfl

/-- The spaces `S` share no entry; each non-fault entry points to a page outside of them, and
no page is pointed to twice. -/
structure Tables (m : Mem) (S : Set Word) : Prop where
  apart : ∀ space ∈ S, ∀ space' ∈ S, space' ≠ space → ∀ i i' : Word, i.toNat < 1024 →
    i'.toNat < 1024 → tabAddr space' i' ≠ tabAddr space i
  entry : ∀ space ∈ S, ∀ i : Word, i.toNat < 1024 → tabOf m space i = nil →
    m (tabAddr space i) = l1Fault
  tab_aligned : ∀ space ∈ S, ∀ i : Word, i.toNat < 1024 → PageAligned (tabOf m space i)
  tab_outside : ∀ space ∈ S, ∀ i : Word, i.toNat < 1024 → tabOf m space i ≠ nil →
    ∀ space' ∈ S, Outside space' (tabOf m space i)
  unique : ∀ space ∈ S, ∀ space' ∈ S, ∀ i i' : Word, i.toNat < 1024 → i'.toNat < 1024 →
    tabOf m space i ≠ nil → tabOf m space' i' = tabOf m space i → space' = space ∧ i' = i

/-- `page` may become a table: it is a page, outside the spaces, and not a table. -/
structure FreshPage (m : Mem) (S : Set Word) (page : Word) : Prop where
  aligned : PageAligned page
  outside : ∀ space ∈ S, Outside space page
  notTab : ∀ space ∈ S, ∀ i : Word, i.toNat < 1024 → tabOf m space i ≠ page

/-- The pages `get_page` is still to return are fresh, each but nil returned once. -/
structure FreshSupply (m : Mem) (S : Set Word) (supply : List Word) : Prop where
  fresh : ∀ page ∈ supply, page ≠ nil → FreshPage m S page
  distinct : supply.Pairwise fun page page' => page ≠ nil → page' ≠ page

/-- The first-level entries of the spaces are the same. -/
def SameEntries (m m' : Mem) (S : Set Word) : Prop :=
  ∀ space ∈ S, ∀ i : Word, i.toNat < 1024 → m' (tabAddr space i) = m (tabAddr space i)

/-- The page of `va` in `space` has the descriptor `d`, all others have their old ones, in the
other spaces too. -/
def Remapped (m m' : Mem) (S : Set Word) (space va d : Word) : Prop :=
  ∀ space' ∈ S, ∀ va', Covered va' → translate m' space' va' =
    if space' = space ∧ pageNo va' = pageNo va then d else translate m space' va'

section Walk

variable {m m' : Mem} {S : Set Word} {supply : List Word}

theorem SameEntries.tabOf (h : SameEntries m m' S) {space i : Word} (hspace : space ∈ S)
    (hi : i.toNat < 1024) : Omb.tabOf m' space i = Omb.tabOf m space i :=
  congrArg (· &&& ~~~l1Type) (h space hspace i hi)

/-- A store to one entry of a space, read at another. -/
theorem Tables.update_entry (ht : Tables m S) (m₁ : Mem) (v : Word) {space space' i i' : Word}
    (hspace : space ∈ S) (hspace' : space' ∈ S) (hi : i.toNat < 1024) (hi' : i'.toNat < 1024) :
    Function.update m₁ (tabAddr space i) v (tabAddr space' i') =
      if space' = space ∧ i' = i then v else m₁ (tabAddr space' i') := by
  have hiff : tabAddr space' i' = tabAddr space i ↔ space' = space ∧ i' = i := by
    constructor
    · intro heq
      have hsame : space' = space := by
        by_contra hne
        exact ht.apart space hspace space' hspace' hne i i' hi hi' heq
      subst hsame
      exact ⟨rfl, (tabAddr_right_inj hi' hi).mp heq⟩
    · rintro ⟨rfl, rfl⟩
      rfl
  rw [Function.update_apply]
  simp only [hiff]

theorem Tables.congr (ht : Tables m S) (h : SameEntries m m' S) : Tables m' S where
  apart := ht.apart
  entry space hspace i hi htab := by
    rw [h.tabOf hspace hi] at htab
    rw [h space hspace i hi]
    exact ht.entry space hspace i hi htab
  tab_aligned space hspace i hi := by
    rw [h.tabOf hspace hi]
    exact ht.tab_aligned space hspace i hi
  tab_outside space hspace i hi := by
    rw [h.tabOf hspace hi]
    exact ht.tab_outside space hspace i hi
  unique space hspace space' hspace' i i' hi hi' := by
    rw [h.tabOf hspace hi, h.tabOf hspace' hi']
    exact ht.unique space hspace space' hspace' i i' hi hi'

theorem FreshSupply.congr (hs : FreshSupply m S supply) (h : SameEntries m m' S) :
    FreshSupply m' S supply where
  fresh page hpage hne :=
    { aligned := (hs.fresh page hpage hne).aligned
      outside := (hs.fresh page hpage hne).outside
      notTab := fun space hspace i hi => by
        rw [h.tabOf hspace hi]
        exact (hs.fresh page hpage hne).notTab space hspace i hi }
  distinct := hs.distinct

theorem FreshSupply.tail {page : Word} (hs : FreshSupply m S (page :: supply)) :
    FreshSupply m S supply where
  fresh page' hpage' := hs.fresh page' (List.mem_cons_of_mem _ hpage')
  distinct := hs.distinct.of_cons

/-- Zeroed spaces have no tables. -/
theorem Tables.of_zeroed
    (hapart : ∀ space ∈ S, ∀ space' ∈ S, space' ≠ space → ∀ i i' : Word, i.toNat < 1024 →
      i'.toNat < 1024 → tabAddr space' i' ≠ tabAddr space i)
    (hzero : ∀ space ∈ S, ∀ i : Word, i.toNat < 1024 → m (tabAddr space i) = 0) :
    Tables m S := by
  have htab : ∀ space ∈ S, ∀ i : Word, i.toNat < 1024 → tabOf m space i = nil := by
    intro space hspace i hi
    rw [tabOf, hzero space hspace i hi]
    decide
  refine
    { apart := hapart
      entry := fun space hspace i hi _ => hzero space hspace i hi
      tab_aligned := ?_
      tab_outside := fun space hspace i hi hne => absurd (htab space hspace i hi) hne
      unique := fun space hspace _ _ i _ hi _ hne => absurd (htab space hspace i hi) hne }
  intro space hspace i hi
  rw [htab space hspace i hi]
  rfl

/-- Spaces that are pages of their own share no entry. -/
theorem apart_of_aligned (haligned : ∀ space ∈ S, PageAligned space) :
    ∀ space ∈ S, ∀ space' ∈ S, space' ≠ space → ∀ i i' : Word, i.toNat < 1024 →
      i'.toNat < 1024 → tabAddr space' i' ≠ tabAddr space i := by
  intro space hspace space' hspace' hne i i' hi hi' heq
  rw [tabAddr_inj (haligned space' hspace') (haligned space hspace) hi' hi] at heq
  exact hne heq.1

/-! ## One store -/

/-- A store to a second-level entry leaves the first level alone, as tables lie outside of the
spaces. -/
theorem Tables.store_sameEntries (ht : Tables m S) {space va : Word} (hspace : space ∈ S)
    (hva : Covered va) (htab : tabOf m space (l1x va) ≠ nil) (v : Word) :
    SameEntries m
      (Function.update m (tabAddr (tabOf m space (l1x va)) (l2x va)) v) S := by
  intro space' hspace' i hi
  apply Function.update_of_ne
  have houtside := ht.tab_outside space hspace _ (l1x_lt hva) htab space' hspace'
  exact (houtside.tabAddr_ne hi (l2x_lt va)).symm

/-- A store to the second-level entry of `va` changes the descriptor of its page.  It is of
one page only because no table is pointed to twice. -/
theorem Tables.store_remapped (ht : Tables m S) {space va : Word} (hspace : space ∈ S)
    (hva : Covered va) (htab : tabOf m space (l1x va) ≠ nil) (v : Word) :
    Remapped m (Function.update m (tabAddr (tabOf m space (l1x va)) (l2x va)) v) S
      space va v := by
  intro space' hspace' va' hva'
  have hsame := ht.store_sameEntries hspace hva htab v
  unfold translate
  rw [hsame.tabOf hspace' (l1x_lt hva'), Function.update_apply]
  simp only [pageNo_eq_iff, tabAddr_inj (ht.tab_aligned space' hspace' _ (l1x_lt hva'))
    (ht.tab_aligned space hspace _ (l1x_lt hva)) (l2x_lt va') (l2x_lt va)]
  rcases eq_or_ne (tabOf m space' (l1x va')) nil with hnil | htab'
  · have hother : ¬(space' = space ∧ l1x va' = l1x va ∧ l2x va' = l2x va) := by
      rintro ⟨rfl, hl1, -⟩
      exact htab (hl1 ▸ hnil)
    rw [if_pos hnil, if_neg hother, if_pos hnil]
  · rw [if_neg htab', if_neg htab']
    have hiff : tabOf m space' (l1x va') = tabOf m space (l1x va) ↔
        space' = space ∧ l1x va' = l1x va := by
      constructor
      · exact ht.unique space hspace space' hspace' _ _ (l1x_lt hva) (l1x_lt hva') htab
      · rintro ⟨rfl, hl1⟩
        rw [hl1]
    simp only [hiff, and_assoc]

/-! ## A new table -/

/-- The memory after a fault entry has been given the zeroed table `page`. -/
def installTab (m : Mem) (space i page : Word) : Mem :=
  Function.update (memsetPage m page) (tabAddr space i) (page ||| l1Coarse)

theorem Tables.install_tabOf (ht : Tables m S) {space page i : Word} (hspace : space ∈ S)
    (hi : i.toNat < 1024) (hpage : FreshPage m S page) {space' i' : Word}
    (hspace' : space' ∈ S) (hi' : i'.toNat < 1024) :
    tabOf (installTab m space i page) space' i' =
      if space' = space ∧ i' = i then page else tabOf m space' i' := by
  unfold tabOf installTab
  rw [ht.update_entry _ _ hspace hspace' hi hi', (hpage.outside space' hspace').memsetPage hi']
  split_ifs
  · exact hpage.aligned.coarse
  · rfl

theorem Tables.install (ht : Tables m S) {space page i : Word} (hspace : space ∈ S)
    (hi : i.toNat < 1024) (hpage : FreshPage m S page) (hne : page ≠ nil) :
    Tables (installTab m space i page) S where
  apart := ht.apart
  entry space' hspace' i' hi' htab := by
    rw [ht.install_tabOf hspace hi hpage hspace' hi'] at htab
    split_ifs at htab with hentry
    · exact absurd htab hne
    · unfold installTab
      rw [ht.update_entry _ _ hspace hspace' hi hi', if_neg hentry,
        (hpage.outside space' hspace').memsetPage hi']
      exact ht.entry space' hspace' i' hi' htab
  tab_aligned space' hspace' i' hi' := by
    rw [ht.install_tabOf hspace hi hpage hspace' hi']
    split_ifs
    · exact hpage.aligned
    · exact ht.tab_aligned space' hspace' i' hi'
  tab_outside space' hspace' i' hi' := by
    rw [ht.install_tabOf hspace hi hpage hspace' hi']
    split_ifs
    · exact fun _ => hpage.outside
    · exact ht.tab_outside space' hspace' i' hi'
  unique space₁ hspace₁ space₂ hspace₂ i₁ i₂ hi₁ hi₂ := by
    rw [ht.install_tabOf hspace hi hpage hspace₁ hi₁,
      ht.install_tabOf hspace hi hpage hspace₂ hi₂]
    have hnot₁ := hpage.notTab space₁ hspace₁ i₁ hi₁
    have hnot₂ := hpage.notTab space₂ hspace₂ i₂ hi₂
    split_ifs with h₁ h₂ h₂
    · exact fun _ _ => ⟨h₂.1.trans h₁.1.symm, h₂.2.trans h₁.2.symm⟩
    · exact fun _ heq => absurd heq hnot₂
    · exact fun _ heq => absurd heq.symm hnot₁
    · exact ht.unique space₁ hspace₁ space₂ hspace₂ i₁ i₂ hi₁ hi₂

/-- The new table has no page in it, so nothing translates otherwise. -/
theorem Tables.install_translate (ht : Tables m S) {space page va : Word} (hspace : space ∈ S)
    (hva : Covered va) (hpage : FreshPage m S page) (hne : page ≠ nil)
    (hnil : tabOf m space (l1x va) = nil) {space' va' : Word} (hspace' : space' ∈ S)
    (hva' : Covered va') :
    translate (installTab m space (l1x va) page) space' va' = translate m space' va' := by
  unfold translate
  rw [ht.install_tabOf hspace (l1x_lt hva) hpage hspace' (l1x_lt hva')]
  -- a word of a table is not the new entry, and is cleared in the new table only
  have hword : ∀ tab : Word, PageAligned tab → Outside space tab →
      installTab m space (l1x va) page (tabAddr tab (l2x va')) =
        if tab = page then 0 else m (tabAddr tab (l2x va')) := by
    intro tab haligned houtside
    rw [installTab, Function.update_of_ne (houtside.tabAddr_ne (l1x_lt hva) (l2x_lt va')),
      memsetPage_tabAddr m hpage.aligned haligned (l2x_lt va')]
  rcases em (space' = space ∧ l1x va' = l1x va) with hentry | hentry
  · rw [if_pos hentry, if_neg hne, hword page hpage.aligned (hpage.outside space hspace),
      if_pos rfl, hentry.1, hentry.2, if_pos hnil]
    rfl
  · rw [if_neg hentry]
    split_ifs with htab
    · rfl
    · rw [hword _ (ht.tab_aligned space' hspace' _ (l1x_lt hva'))
        (ht.tab_outside space' hspace' _ (l1x_lt hva') htab space hspace),
        if_neg (hpage.notTab space' hspace' _ (l1x_lt hva'))]

theorem Tables.install_supply (ht : Tables m S) {space page i : Word} (hspace : space ∈ S)
    (hi : i.toNat < 1024) (hs : FreshSupply m S (page :: supply)) (hne : page ≠ nil) :
    FreshSupply (installTab m space i page) S supply where
  fresh page' hpage' hne' :=
    { aligned := (hs.tail.fresh page' hpage' hne').aligned
      outside := (hs.tail.fresh page' hpage' hne').outside
      notTab := fun space' hspace' i' hi' => by
        rw [ht.install_tabOf hspace hi (hs.fresh page (List.mem_cons_self ..) hne) hspace' hi']
        split_ifs
        · exact ((List.pairwise_cons.mp hs.distinct).1 page' hpage' hne).symm
        · exact (hs.tail.fresh page' hpage' hne').notTab space' hspace' i' hi' }
  distinct := hs.distinct.of_cons

/-! ## `space_map` and `space_unmap` -/

theorem spaceMap_of_table {space pa va flags : Word} (htab : tabOf m space (l1x va) ≠ nil) :
    spaceMap m space pa va flags supply =
      (true, Function.update m (tabAddr (tabOf m space (l1x va)) (l2x va))
        (l2Descr pa (apOf flags) (cacheOf flags)), supply) := by
  have hentry : m (tabAddr space (l1x va)) ≠ l1Fault := by
    intro hfault
    apply htab
    rw [tabOf, hfault]
    decide
  unfold spaceMap
  rw [if_neg hentry]
  rfl

theorem spaceMap_of_page {space pa va flags : Word}
    (hentry : m (tabAddr space (l1x va)) = l1Fault) (hne : (getPage supply).1 ≠ nil) :
    spaceMap m space pa va flags supply =
      (true, Function.update (installTab m space (l1x va) (getPage supply).1)
        (tabAddr (getPage supply).1 (l2x va)) (l2Descr pa (apOf flags) (cacheOf flags)),
        (getPage supply).2) := by
  unfold spaceMap
  rw [if_pos hentry]
  exact if_neg hne

theorem spaceMap_of_nil {space pa va flags : Word}
    (hentry : m (tabAddr space (l1x va)) = l1Fault) (hnil : (getPage supply).1 = nil) :
    spaceMap m space pa va flags supply = (false, m, (getPage supply).2) := by
  unfold spaceMap
  rw [if_pos hentry]
  exact if_pos hnil

/-- A call that returns false leaves the memory as it was. -/
theorem spaceMap_false {space pa va flags : Word} {supply' : List Word}
    (h : spaceMap m space pa va flags supply = (false, m', supply')) : m' = m := by
  rcases eq_or_ne (m (tabAddr space (l1x va))) l1Fault with hentry | hentry
  · rcases eq_or_ne (getPage supply).1 nil with hnil | hne
    · rw [spaceMap_of_nil hentry hnil] at h
      cases h
      rfl
    · rw [spaceMap_of_page hentry hne] at h
      cases h
  · unfold spaceMap at h
    rw [if_neg hentry] at h
    cases h

/-- What a call of `space_map` does.  The tables are in order whether or not it returns true,
and the page has its descriptor if it does. -/
structure SpaceMapped (m : Mem) (S : Set Word) (space pa va flags : Word)
    (r : Bool × Mem × List Word) : Prop where
  tables : Tables r.2.1 S
  supply : FreshSupply r.2.1 S r.2.2
  mapped : r.1 = true →
    Remapped m r.2.1 S space va (l2Descr pa (apOf flags) (cacheOf flags))

theorem spaceMap_spec (ht : Tables m S) (hs : FreshSupply m S supply) {space va : Word}
    (hspace : space ∈ S) (hva : Covered va) (pa flags : Word) :
    SpaceMapped m S space pa va flags (spaceMap m space pa va flags supply) := by
  have hi := l1x_lt hva
  rcases ne_or_eq (tabOf m space (l1x va)) nil with htab | hnil
  · rw [spaceMap_of_table htab]
    have hsame := ht.store_sameEntries hspace hva htab (l2Descr pa (apOf flags) (cacheOf flags))
    exact
      { tables := ht.congr hsame
        supply := hs.congr hsame
        mapped := fun _ => ht.store_remapped hspace hva htab _ }
  · have hentry := ht.entry space hspace _ hi hnil
    cases supply with
    | nil =>
        rw [spaceMap_of_nil hentry rfl]
        exact ⟨ht, hs, nofun⟩
    | cons page supply =>
        rcases eq_or_ne page nil with hpage | hne
        · have hnone : (getPage (page :: supply)).1 = nil := hpage
          rw [spaceMap_of_nil hentry hnone]
          exact ⟨ht, hs.tail, nofun⟩
        · have hsome : (getPage (page :: supply)).1 ≠ nil := hne
          rw [spaceMap_of_page hentry hsome]
          have hfresh := hs.fresh page (List.mem_cons_self ..) hne
          have ht' := ht.install hspace hi hfresh hne
          have htab' : tabOf (installTab m space (l1x va) page) space (l1x va) = page := by
            rw [ht.install_tabOf hspace hi hfresh hspace hi, if_pos ⟨rfl, rfl⟩]
          have hne' : tabOf (installTab m space (l1x va) page) space (l1x va) ≠ nil := by
            rw [htab']
            exact hne
          -- once the table is in place the call is a store like any other
          have hsame := ht'.store_sameEntries hspace hva hne'
            (l2Descr pa (apOf flags) (cacheOf flags))
          have hmap := ht'.store_remapped hspace hva hne'
            (l2Descr pa (apOf flags) (cacheOf flags))
          rw [htab'] at hsame hmap
          refine
            { tables := ht'.congr hsame
              supply := (ht.install_supply hspace hi hs hne).congr hsame
              mapped := fun _ space' hspace' va' hva' => ?_ }
          refine (hmap space' hspace' va' hva').trans ?_
          rw [ht.install_translate hspace hva hfresh hne hnil hspace' hva']

/-- `space_unmap` leaves the page of `va` without a descriptor.  Where there is no table it
had none. -/
theorem spaceUnmap_spec (ht : Tables m S) {space va : Word} (hspace : space ∈ S)
    (hva : Covered va) :
    SameEntries m (spaceUnmap m space va) S ∧
      Remapped m (spaceUnmap m space va) S space va l2Fault := by
  rcases eq_or_ne (tabOf m space (l1x va)) nil with hnil | htab
  · have heq : spaceUnmap m space va = m := if_pos hnil
    rw [heq]
    refine ⟨fun _ _ _ _ => rfl, fun space' hspace' va' hva' => ?_⟩
    split_ifs with hpage
    · rw [translate, hpage.1, (pageNo_eq_iff.mp hpage.2).1, if_pos hnil]
    · rfl
  · have heq : spaceUnmap m space va =
        Function.update m (tabAddr (tabOf m space (l1x va)) (l2x va)) l2Fault :=
      if_neg htab
    rw [heq]
    exact ⟨ht.store_sameEntries hspace hva htab _, ht.store_remapped hspace hva htab _⟩

end Walk

end Omb
