import Omb.Kern.Accept
import Omb.Lib.Traced

/-!
# Accesses to the translation tables

`struct addr_space` has an entry for each MiB below 1 GiB, `PAGE_SIZE / 4` of them, and `L1X`
of an address has 12 bits.  `space_map`, `space_find` and `space_unmap` use it as an index as
it is, so for an address from 1 GiB on they read and write behind the table, in the next page
(`find_leaves_table`).

To say so, the functions are given once more as computations that leave a trace of the entries
they access; without the trace they are the functions they were (`spaceMapT_eq`,
`spaceFindT_eq`, `spaceUnmapT_eq`).  `accesses_inside_iff` says for which addresses all
accesses are inside the tables.

The index into a second-level table has eight bits, and such a table has an entry for each of
its values, so those accesses are inside whatever the address is (`inside_l2x`).  All depends
on the first-level index, and neither `sys_addr_offer` nor `sys_addr_accept` looks at the
addresses it is given.

## Main definitions

* `TableAccess`: an access to an entry of a table
* `spaceMapT`, `spaceFindT`, `spaceUnmapT`: the functions with their accesses

## Main results

* `accesses_inside_iff`: which accesses stay inside the tables
-/

namespace Omb

open Traced

/-- An access to an entry of a table, of the first level or of the second.  Whether it reads
or writes is not told apart. -/
inductive TableAccess where
  /-- `space->tab[i]` -/
  | l1 (space i : Word)
  /-- `tab[i]` of a second-level table. -/
  | l2 (tab i : Word)

/-- The entry is one the table has.  A space is one page, and a second-level table has 256
entries. -/
def TableAccess.Inside : TableAccess → Prop
  | .l1 _ i => i.toNat < 4096 / 4
  | .l2 _ i => i.toNat < 256

/-- Where in memory it is. -/
def TableAccess.addr : TableAccess → Word
  | .l1 space i => tabAddr space i
  | .l2 tab i => tabAddr tab i

/-- A computation on the tables. -/
abbrev Walk := Traced Mem TableAccess

/-! ## The functions with their accesses -/

/-- `space->tab[i]` -/
def readL1 (space i : Word) : Walk Word :=
  read (.l1 space i) fun m => m (tabAddr space i)

/-- `space->tab[i] = v` -/
def writeL1 (space i v : Word) : Walk PUnit :=
  write (.l1 space i) fun m => Function.update m (tabAddr space i) v

/-- `tab[i]` -/
def readL2 (tab i : Word) : Walk Word :=
  read (.l2 tab i) fun m => m (tabAddr tab i)

/-- `tab[i] = v` -/
def writeL2 (tab i v : Word) : Walk PUnit :=
  write (.l2 tab i) fun m => Function.update m (tabAddr tab i) v

/-- `space_map`.  It reads the entry of the first level, may make one, and writes one of the
second. -/
def spaceMapT (space pa va flags : Word) (supply : List Word) : Walk (Bool × List Word) := do
  let entry ← readL1 space (l1x va)
  if entry = l1Fault then
    let (tab, supply) := getPage supply
    if tab = nil then return (false, supply)
    else
      silent fun m => memsetPage m tab
      writeL1 space (l1x va) (tab ||| l1Coarse)
      writeL2 tab (l2x va) (l2Descr pa (apOf flags) (cacheOf flags))
      return (true, supply)
  else
    let entry ← readL1 space (l1x va)
    writeL2 (entry &&& ~~~l1Type) (l2x va) (l2Descr pa (apOf flags) (cacheOf flags))
    return (true, supply)

/-- `space_find`. -/
def spaceFindT (space va : Word) : Walk (Word × Option Word) := do
  let entry ← readL1 space (l1x va)
  let tab := entry &&& ~~~l1Type
  if tab = nil then return (nil, none)
  else
    let pa ← readL2 tab (l2x va)
    return (pa &&& pageMask, some (flagsFromMap pa))

/-- `space_unmap`. -/
def spaceUnmapT (space va : Word) : Walk PUnit := do
  let entry ← readL1 space (l1x va)
  let tab := entry &&& ~~~l1Type
  if tab = nil then return ⟨⟩
  else writeL2 tab (l2x va) l2Fault

/-- One turn of `sys_addr_accept`; `none` is the `return ERR` in it. -/
def PageLoop.turnT (c : PageLoop) (i : ℕ) (supply : List Word) : Walk (Option (List Word)) := do
  let (pa, _) ← spaceFindT c.giver (c.vf + pageOffset i)
  let (mapped, supply) ← spaceMapT c.taker pa (c.vt + pageOffset i) c.flags supply
  if mapped then
    spaceUnmapT c.giver (c.vf + pageOffset i)
    return some supply
  else return none

section Erasure

variable (m : Mem) (space pa va flags : Word) (supply : List Word)

theorem spaceMapT_eq :
    spaceMap m space pa va flags supply =
      ((value (spaceMapT space pa va flags supply) m).1,
        state (spaceMapT space pa va flags supply) m,
        (value (spaceMapT space pa va flags supply) m).2) := by
  simp only [spaceMap, spaceMapT, readL1, value_read_bind, state_read_bind]
  split_ifs
  · rfl
  · rfl
  · rfl

theorem spaceFindT_eq :
    spaceFind m space va = value (spaceFindT space va) m ∧
      m = state (spaceFindT space va) m := by
  simp only [spaceFind, spaceFindT, readL1, value_read_bind, state_read_bind]
  split_ifs
  · exact ⟨rfl, rfl⟩
  · exact ⟨rfl, rfl⟩

theorem spaceUnmapT_eq : spaceUnmap m space va = state (spaceUnmapT space va) m := by
  simp only [spaceUnmap, spaceUnmapT, readL1, state_read_bind]
  split_ifs
  · rfl
  · rfl

theorem PageLoop.turnT_eq (c : PageLoop) (i : ℕ) :
    c.turn i (m, supply) =
      (value (c.turnT i supply) m).map fun supply' => (state (c.turnT i supply) m, supply') := by
  obtain ⟨hfind, hmem⟩ := spaceFindT_eq m c.giver (c.vf + pageOffset i)
  simp only [PageLoop.turn, PageLoop.turnT, value_bind, state_bind, ← hfind, ← hmem]
  rw [spaceMapT_eq]
  rcases value (spaceMapT c.taker (spaceFind m c.giver (c.vf + pageOffset i)).1
    (c.vt + pageOffset i) c.flags supply) m with ⟨_ | _, supply'⟩
  · rfl
  · simp only [if_pos]
    rw [spaceUnmapT_eq]
    rfl

end Erasure

/-! ## Where they are -/

theorem l1x_lt_iff (va : Word) : (l1x va).toNat < 4096 / 4 ↔ Covered va := by
  rw [Covered, l1x, BitVec.toNat_ushiftRight, Nat.shiftRight_eq_div_pow]
  omega

/-- First-level entries are inside for covered addresses. -/
theorem inside_l1x_iff (space va : Word) : (TableAccess.l1 space (l1x va)).Inside ↔ Covered va :=
  l1x_lt_iff va

/-- Second-level entries are always inside. -/
theorem inside_l2x (tab va : Word) : (TableAccess.l2 tab (l2x va)).Inside := by
  show (l2x va).toNat < 256
  rw [toNat_l2x]
  omega

section Inside

variable (m : Mem) (space pa va flags : Word) (supply : List Word)

theorem spaceMapT_inside_iff :
    Always TableAccess.Inside (spaceMapT space pa va flags supply) m ↔ Covered va := by
  have hl2 := fun tab => inside_l2x tab va
  simp only [spaceMapT, readL1, always_read_bind, inside_l1x_iff]
  refine and_iff_left_of_imp fun hva => ?_
  have hl1 := (inside_l1x_iff space va).mpr hva
  split_ifs
  · exact always_pure _
  · rw [always_silent_bind, writeL1, always_write_bind, writeL2, always_write_bind]
    exact ⟨hl1, hl2 _, always_pure _⟩
  · rw [always_read_bind, writeL2, always_write_bind]
    exact ⟨hl1, hl2 _, always_pure _⟩

theorem spaceFindT_inside_iff :
    Always TableAccess.Inside (spaceFindT space va) m ↔ Covered va := by
  simp only [spaceFindT, readL1, always_read_bind, inside_l1x_iff]
  refine and_iff_left_of_imp fun _ => ?_
  split_ifs
  · exact always_pure _
  · rw [readL2, always_read_bind]
    exact ⟨inside_l2x _ va, always_pure _⟩

theorem spaceUnmapT_inside_iff :
    Always TableAccess.Inside (spaceUnmapT space va) m ↔ Covered va := by
  simp only [spaceUnmapT, readL1, always_read_bind, inside_l1x_iff]
  refine and_iff_left_of_imp fun _ => ?_
  split_ifs
  · exact always_pure _
  · rw [writeL2, always_write]
    exact inside_l2x _ va

/-- A turn of `sys_addr_accept` accesses the tables for an address of each range. -/
theorem PageLoop.turnT_inside_iff (c : PageLoop) (i : ℕ) :
    Always TableAccess.Inside (c.turnT i supply) m ↔
      Covered (c.vf + pageOffset i) ∧ Covered (c.vt + pageOffset i) := by
  rw [PageLoop.turnT, always_bind, spaceFindT_inside_iff]
  refine and_congr_right fun hvf => ?_
  rw [always_bind, spaceMapT_inside_iff]
  refine and_iff_left_of_imp fun _ => ?_
  rcases value (spaceMapT c.taker (value (spaceFindT c.giver (c.vf + pageOffset i)) m).1
    (c.vt + pageOffset i) c.flags supply) _ with ⟨_ | _, supply'⟩
  · exact always_pure _
  · exact always_bind.mpr ⟨(spaceUnmapT_inside_iff ..).mpr hvf, always_pure _⟩

end Inside

/-- **Which accesses stay inside the tables**: those for addresses below 1 GiB, in every
memory and for each of the functions, and in a turn of `sys_addr_accept` if that is so of its
two addresses.  Nothing is asked of the entries: whatever table the first level leads to, the
second index is one of it. -/
theorem accesses_inside_iff (m : Mem) (space va : Word) :
    (Always TableAccess.Inside (spaceFindT space va) m ↔ va < 0x40000000) ∧
    (Always TableAccess.Inside (spaceUnmapT space va) m ↔ va < 0x40000000) ∧
    (∀ pa flags supply,
      Always TableAccess.Inside (spaceMapT space pa va flags supply) m ↔ va < 0x40000000) ∧
    ∀ (c : PageLoop) (i : ℕ) (supply : List Word),
      Always TableAccess.Inside (c.turnT i supply) m ↔
        c.vf + pageOffset i < 0x40000000 ∧ c.vt + pageOffset i < 0x40000000 :=
  ⟨spaceFindT_inside_iff m space va, spaceUnmapT_inside_iff m space va,
    fun pa flags supply => spaceMapT_inside_iff m space pa va flags supply,
    fun c i supply => c.turnT_inside_iff m supply i⟩

/-- For an address in RAM each function leaves the first-level table. -/
theorem find_leaves_table :
    ¬ Always TableAccess.Inside (spaceFindT 0x10000 0x80000000) (fun _ => 0) ∧
    ¬ Always TableAccess.Inside (spaceMapT 0x10000 0x80000000 0x80000000 6 []) (fun _ => 0) ∧
    ¬ Always TableAccess.Inside (spaceUnmapT 0x10000 0x80000000) (fun _ => 0) := by
  have houtside : ¬ (TableAccess.l1 0x10000 (l1x 0x80000000)).Inside := by
    show ¬ (l1x 0x80000000).toNat < 4096 / 4
    decide
  exact ⟨fun h => houtside (h _ (List.mem_cons_self ..)),
    fun h => houtside (h _ (List.mem_cons_self ..)),
    fun h => houtside (h _ (List.mem_cons_self ..))⟩

end Omb
