import Omb.Kern.Head

/-!
# `am335x/kern/mem.c`: address spaces

An address space is a page of 1024 first-level entries, one for each MiB below 1 GiB; a
non-fault entry points to a second-level table of 256 small-page descriptors in a page of its
own.  `Mem` is the memory these tables live in, a word for each word-aligned address, and
`tab[i]` is the word at `tabAddr tab i`.

`space_map` asks its caller for the page of a new second-level table through `get_page`.  A
`supply` is the list of the results of the successive calls, nil when it is exhausted; the
`get_page` of the system calls returns nil always, which is the empty supply.

The index of a first-level entry is not checked in the source, and it is not here: for an
address from 1 GiB on it is the word behind the page of the space (`l1x`).  The memory is total,
so such an access has a value here.  Which accesses are made is recorded in
`Omb.Kern.Accesses`, and which of them abort is said in `Omb.Kern.Aborts`.

An unaligned `pa` is not rounded down either, and its low bits end up among the attribute bits
of the descriptor.

## Main definitions

* `spaceMap`, `spaceUnmap`, `spaceFind`: the three functions on a space
* `l2Descr`, `flagsFromMap`: attributes packed and read back
-/

namespace Omb

/-- Memory, by word-aligned address. -/
abbrev Mem := Word → Word

/-- `&tab[i]` for a `uint32_t *tab`. -/
def tabAddr (tab i : Word) : Word := tab + 4 * i

/-- `L1X(va)`.  A space has entries for the first 1024 of its 4096 values. -/
def l1x (va : Word) : Word := va >>> 20

/-- `L2X(va)`. -/
def l2x (va : Word) : Word := (va >>> 12) &&& 0xff

def l1Type : Word := 0b11
def l1Fault : Word := 0b00
def l1Coarse : Word := 0b01

def l2Type : Word := 0b11
def l2Fault : Word := 0b00
def l2Small : Word := 0b10

def apRwRo : Word := 2
def apRwRw : Word := 3

/-- `ADDR_take`. -/
def addrTake : Word := 1

/-- `ADDR_read`. -/
def addrRead : Word := 2

/-- `ADDR_write`. -/
def addrWrite : Word := 4

/-- `ADDR_cache`. -/
def addrCache : Word := 8

/-- `PAGE_MASK`. -/
def pageMask : Word := ~~~(pageSize - 1)

/-- `memset(page, 0, PAGE_SIZE)`. -/
def memsetPage (m : Mem) (page : Word) : Mem :=
  fun a => if a - page < pageSize then 0 else m a

/-- One call of `get_page`: its result and the results still to come.  An exhausted supply is
a `get_page` that returns nil. -/
def getPage : List Word → Word × List Word
  | [] => (nil, [])
  | page :: supply => (page, supply)

/-- The descriptor `l2_map` stores.  `b` is the complement of `cachable`, which is what
`flags_from_map` comes to look at. -/
def l2Descr (pa ap cachable : Word) : Word :=
  let tex : Word := if cachable ≠ 0 then 7 else 0
  let b : Word := if cachable ≠ 0 then 0 else 1
  pa ||| l2Small ||| tex <<< 6 ||| ap <<< 4 ||| cachable <<< 3 ||| b <<< 2

/-- `l2_map`. -/
def l2Map (m : Mem) (tab pa va ap cachable : Word) : Mem :=
  Function.update m (tabAddr tab (l2x va)) (l2Descr pa ap cachable)

/-- `c` of `space_map`. -/
def cacheOf (flags : Word) : Word :=
  if flags &&& addrCache ≠ 0 then 1 else 0

/-- `ap` of `space_map`. -/
def apOf (flags : Word) : Word :=
  if flags &&& addrWrite ≠ 0 then apRwRw else apRwRo

/-- `space_map`: its result, the memory and the supply after it.  It does not look whether the
page is mapped already; where it returns false it has stored nothing. -/
def spaceMap (m : Mem) (space pa va flags : Word) (supply : List Word) :
    Bool × Mem × List Word :=
  let entry := m (tabAddr space (l1x va))
  if entry = l1Fault then
    let (tab, supply) := getPage supply
    if tab = nil then (false, m, supply)
    else
      let m := memsetPage m tab
      let m := Function.update m (tabAddr space (l1x va)) (tab ||| l1Coarse)
      (true, l2Map m tab pa va (apOf flags) (cacheOf flags), supply)
  else
    (true, l2Map m (entry &&& ~~~l1Type) pa va (apOf flags) (cacheOf flags), supply)

/-- `flags_from_map`. -/
def flagsFromMap (v : Word) : Word :=
  let f := addrRead
  let f := if (v >>> 4) &&& 0b11 = apRwRw then f ||| addrWrite else f
  if (v >>> 2) &&& 0b1 = 0b1 then f ||| addrCache else f

/-- `space_find`: its result, and what it stores in `*flags`, if anything.  Only the
first-level entry is tested, so a fault descriptor gives nil with flags. -/
def spaceFind (m : Mem) (space va : Word) : Word × Option Word :=
  let tab := m (tabAddr space (l1x va)) &&& ~~~l1Type
  if tab = nil then (nil, none)
  else
    let pa := m (tabAddr tab (l2x va))
    (pa &&& pageMask, some (flagsFromMap pa))

/-- `space_unmap`.  The second-level table stays, however empty it is. -/
def spaceUnmap (m : Mem) (space va : Word) : Mem :=
  let tab := m (tabAddr space (l1x va)) &&& ~~~l1Type
  if tab = nil then m
  else Function.update m (tabAddr tab (l2x va)) l2Fault

end Omb
