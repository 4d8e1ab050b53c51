import Omb.Am335x.Mem
import Omb.Lib.Cover

/-!
# `am335x/proc0/main.c`: the memory of proc0

proc0 keeps what is left of the regions the kernel publishes in two lists of
`section_holder`s, one for RAM and one for devices.  A holder is a page with an array of
sections; both lists grow by pages taken out of the RAM list itself.

A list of holders is a Lean list of them, each with the address of its page, and nil is the
empty list.  A pointer `s = &h->sections[i]` is an index into the row of all the slots of the
list (`slots`): the loops go through that row, and stop at the first slot that passes their
test (`findSlot`).

An empty slot is one of length 0, whatever its address.  `get_ram` takes the end of a section
and leaves the slot in place, so a slot that has been used up is free for `addr_add`.

`addr_add` says nothing when it has no room, and drops the range (`addrAdd`).  `get_io` calls
it for what is behind a range before it has shortened the section, so what `addr_add` stores
may come into a slot that is then changed again.

Nil is at once the answer "nothing found" and the address 0, so a range at 0 is never given
away although it is cut off.

## Main definitions

* `getRam`, `addrAdd`, `getIo`: the allocator
* `initSections`: the lists after `init_sections`
* `handleAddrRequest`: a client's request, up to `addr_accept`
* `publishedRegions`: the regions of the kernel page
-/

namespace Omb

/-- `region_type_t`. -/
inductive RegionType where
  | ram
  | io
  deriving DecidableEq

/-- `struct region`. -/
structure Region where
  type : RegionType
  start : Word
  len : Word

/-! ## What the kernel publishes -/

/-- The linker's addresses of the RAM and of the kernel in it: page boundaries, with RAM
before the kernel and behind it. -/
structure LinkerSymbols where
  ramStart : Word
  kernelStart : Word
  kernelEnd : Word
  ramEnd : Word
  ramStart_aligned : ramStart.toNat % 4096 = 0
  kernelStart_aligned : kernelStart.toNat % 4096 = 0
  kernelEnd_aligned : kernelEnd.toNat % 4096 = 0
  ramEnd_aligned : ramEnd.toNat % 4096 = 0
  ramStart_lt : ramStart < kernelStart
  kernelStart_lt : kernelStart < kernelEnd
  kernelEnd_lt : kernelEnd < ramEnd

/-- A device from `start` up to `stop`. -/
def deviceRegion (start stop : Word) : Region :=
  ⟨.io, start, stop - start⟩

/-- The region `init_memory` publishes for GPIO3, and once more for MMCHS0.  The comment
beside the second call names other registers than its addresses. -/
def gpio3Region : Region :=
  deviceRegion 0x481AE000 0x481AF000

/-- The regions of the kernel page, as `init_memory` fills it in. -/
def publishedRegions (l : LinkerSymbols) : List Region :=
  [⟨.ram, l.ramStart, l.kernelStart - l.ramStart⟩,
    ⟨.ram, l.kernelEnd, l.ramEnd - l.kernelEnd⟩,
    deviceRegion 0x47400000 0x47404000, -- USB
    deviceRegion 0x44E31000 0x44E32000, -- DMTimer1
    deviceRegion 0x44E09000 0x44E0A000, -- UART0
    deviceRegion 0x44E07000 0x44E08000, -- GPIO0
    deviceRegion 0x4804c000 0x4804d000, -- GPIO1
    deviceRegion 0x481ac000 0x481ad000, -- GPIO2
    gpio3Region, -- GPIO3
    gpio3Region, -- MMCHS0
    deviceRegion 0x47810000 0x47820000] -- MMCHS2

/-! ## Sections -/

/-- `struct section`. -/
structure RangeSection where
  start : Word
  len : Word

/-- `struct section_holder`, with the address of its page. -/
structure SectionHolder where
  addr : Word
  sections : List RangeSection

/-- `(PAGE_SIZE - sizeof(struct section_holder)) / sizeof(struct section)`. -/
abbrev nsections : ℕ := (4096 - 8) / 8

/-- A new holder, with its sections zeroed. -/
def newHolder (page : Word) : SectionHolder where
  addr := page
  sections := List.replicate nsections ⟨0, 0⟩

/-- The lists `ram` and `io`. -/
structure Sections where
  ram : List SectionHolder
  io : List SectionHolder

/-- The list named. -/
def Sections.holders (st : Sections) : RegionType → List SectionHolder
  | .ram => st.ram
  | .io => st.io

def Sections.setHolders (st : Sections) (t : RegionType) (hs : List SectionHolder) : Sections :=
  match t with
  | .ram => { st with ram := hs }
  | .io => { st with io := hs }

/-! ## Slots -/

/-- The slots of a list, in the order the loops go through them. -/
def slots (hs : List SectionHolder) : List RangeSection :=
  hs.flatMap fun h => h.sections

/-- The loops over holders and their sections, up to the first slot with `p`.  They never look
at the slots behind it. -/
def findSlot (p : RangeSection → Bool) (hs : List SectionHolder) : Option ℕ :=
  (slots hs).findIdx? p

/-- Change slot `k`.  The index is one into the row of all slots, so it is carried from one
holder to the next. -/
def modifySlot (f : RangeSection → RangeSection) : ℕ → List SectionHolder → List SectionHolder
  | _, [] => []
  | k, h :: hs =>
      if k < h.sections.length then { h with sections := h.sections.modify k f } :: hs
      else h :: modifySlot f (k - h.sections.length) hs

/-! ## The allocator -/

/-- `get_ram(len)`.  Its first fit is by length, and it takes the end of what it finds. -/
def getRam (st : Sections) (len : Word) : Word × Sections :=
  match findSlot (fun s => len ≤ s.len) st.ram with
  | none => (nil, st)
  | some k =>
      match (slots st.ram)[k]? with
      | none => (nil, st)
      | some s =>
          (s.start + (s.len - len),
            { st with ram := modifySlot (fun s => { s with len := s.len - len }) k st.ram })

/-- `addr_add(holder, start, len)` for the head of the list `t`.  When no slot is free, the
last holder gets a next one, whose page comes out of the RAM list; with no page for it nothing
is added, and no caller can tell. -/
def addrAdd (st : Sections) (t : RegionType) (start len : Word) : Sections :=
  match findSlot (fun s => s.len = 0) (st.holders t) with
  | some k => st.setHolders t (modifySlot (fun _ => ⟨start, len⟩) k (st.holders t))
  | none =>
      if (st.holders t).isEmpty then st
      else
        let (page, st) := getRam st pageSize
        if page = nil then st
        else
          st.setHolders t
            (st.holders t ++ modifySlot (fun _ => ⟨start, len⟩) 0 [newHolder page])

/-- The test of `get_io`.  Both sums wrap around. -/
def RangeSection.offers (addr len : Word) (s : RangeSection) : Bool :=
  s.start ≤ addr ∧ addr + len ≤ s.start + s.len

/-- The part of `get_io` that keeps what is behind the range. -/
def addTail (st : Sections) (addr len : Word) (s : RangeSection) : Sections :=
  if addr + len < s.start + s.len then
    addrAdd st .io (addr + len) (s.start + s.len - addr - len)
  else st

/-- `get_io(addr, len)`.  The slot that was found is changed after `addr_add`, which may have
put the rest of the section into it if it was empty. -/
def getIo (st : Sections) (addr len : Word) : Word × Sections :=
  match findSlot (RangeSection.offers addr len) st.io with
  | none => (nil, st)
  | some k =>
      match (slots st.io)[k]? with
      | none => (nil, st)
      | some s =>
          let st := addTail st addr len s
          (addr, { st with io := modifySlot (fun s => { s with len := addr - s.start }) k st.io })

/-! ## Boot -/

/-- `init_ram_sections`.  The first page of the first region of RAM holds the list. -/
def initRamSections : List Region → Sections → Sections
  | [], st => st
  | r :: rs, st =>
      if r.start = nil then st
      else if r.type ≠ .ram then initRamSections rs st
      else if st.ram.isEmpty then
        initRamSections rs
          (addrAdd { st with ram := [newHolder r.start] } .ram (r.start + pageSize)
            (r.len - pageSize))
      else initRamSections rs (addrAdd st .ram r.start r.len)

/-- The loop of `init_io_sections`. -/
def initIoLoop : List Region → Sections → Sections
  | [], st => st
  | r :: rs, st =>
      if r.start = nil then st
      else if r.type ≠ .io then initIoLoop rs st
      else initIoLoop rs (addrAdd st .io r.start r.len)

/-- `init_io_sections`; `none` is a write through nil, where there is no page for the list. -/
def initIoSections (regions : List Region) (st : Sections) : Option Sections :=
  let (page, st) := getRam st pageSize
  if page = nil then none
  else some (initIoLoop regions { st with io := [newHolder page] })

/-- `init_sections`. -/
def initSections (regions : List Region) : Option Sections :=
  initIoSections regions (initRamSections regions { ram := [], io := [] })

/-! ## Requests -/

/-- `PAGE_ALIGN(x)`. -/
def pageAlign (x : Word) : Word :=
  (x + pageSize - 1) &&& pageMask

/-- The arguments of the `addr_accept` for a request that is granted. -/
structure Accept where
  start : Word
  len : Word
  flags : Word

/-- `handle_addr_request`, up to `addr_accept`; `none` where it returns `ERR`.  The range is
out of the lists from here on, whatever `addr_accept` returns. -/
def handleAddrRequest (st : Sections) (addr len : Word) : Option Accept × Sections :=
  let len := pageAlign len
  let flags := addrRead ||| addrWrite
  if len = 0 then (none, st)
  else if addr ≠ nil then
    let (addr, st) := getIo st addr len
    if addr = nil then (none, st) else (some ⟨addr, len, flags⟩, st)
  else
    let (addr, st) := getRam st len
    if addr = nil then (none, st) else (some ⟨addr, len, flags ||| addrCache⟩, st)

/-! ## Runs -/

/-- A range given away. -/
structure Grant where
  type : RegionType
  start : Word
  len : Word
  deriving DecidableEq

/-- What proc0 does with its memory after boot. -/
inductive MemCall where
  | getRam (len : Word)
  | getIo (addr len : Word)
  | addrRequest (addr len : Word)
  deriving DecidableEq

/-- The grant of a call that has returned `addr`. -/
def granted (t : RegionType) (addr len : Word) : List Grant :=
  if addr = nil then [] else [⟨t, addr, len⟩]

/-- The device range a call asks for. -/
def MemCall.ioRange : MemCall → Option (Word × Word)
  | .getRam _ => none
  | .getIo addr len => some (addr, len)
  | .addrRequest addr len =>
      if addr ≠ nil ∧ pageAlign len ≠ 0 then some (addr, pageAlign len) else none

/-- One call, with what it gives away. -/
def memStep (st : Sections) : MemCall → Except Empty (Sections × List Grant)
  | .getRam len =>
      let (addr, st) := getRam st len
      .ok (st, granted .ram addr len)
  | .getIo addr len =>
      let (addr, st) := getIo st addr len
      .ok (st, granted .io addr len)
  | .addrRequest addr len =>
      let (accept, st) := handleAddrRequest st addr len
      .ok (st, accept.toList.map fun a =>
        ⟨if addr = nil then .ram else .io, a.start, a.len⟩)

end Omb
