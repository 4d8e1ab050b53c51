import Omb.Am335x.Remainders
import Omb.Kern.Iterations

/-!
# What a refused request costs

`handle_addr_request` takes the range out of its lists first, and then asks the kernel to move
its pages to the client.  The kernel does so only if the client has made a matching offer
(`KernelAccepts`).  If it does not, the client gets `ERR` and the range is in no list any more
(`refusal_costs_page`).

`refused_free_iff` says for which requests the free addresses are the same after a refusal.
Two things can be said before the call is made: whether the kernel will accept, which depends
on the offer, the flags and the pages there are for tables, and whether what is taken out is
still free, because it is in another section as well.

Each of the two functions has a condition of its own.  `get_ram` cuts off the end of a section
(`RangeSection.tail`), and all is as before only if that is elsewhere too.  `get_io` also
keeps the two pieces of the section, for which it may lose the one and even take a page from
the RAM list (`SplitCostless`).

A request for nothing, one of 0 pages, is refused before anything is taken.

## Main results

* `acceptFrom_returns`: `sys_addr_accept` returns `ERR` exactly where the kernel does not
  accept
* `sameRam_getRam_iff`: when `get_ram` costs nothing
* `refused_free_iff`: when a refused request costs nothing
-/

namespace Omb

open Cover

variable {st : Sections}

/-! ## The request -/

/-- `handle_addr_request` for the client `pid`, called by proc0, which is `u`.  `supply` are
the pages the kernel can make second-level tables of.  Both programs are in this call. -/
def addrRequest (s : State) (u : ProcRef) (st : Sections) (pid addr len : Word)
    (supply : List Word) : Except Stuck (Word × State × Sections) :=
  match handleAddrRequest st addr len with
  | (none, st) => .ok (err, s, st)
  | (some a, st) =>
      match deref pid.toInt with
      | .error e => .error e
      | .ok p =>
          match acceptFrom s u p a.start a.len a.flags supply with
          | .error e => .error e
          | .ok (r, s) => .ok (r, s, st)

/-- The free addresses are the same, in both lists.  The slots need not be. -/
def SameFree (st st' : Sections) : Prop :=
  ∀ x, (IsFree st'.ram x ↔ IsFree st.ram x) ∧ (IsFree st'.io x ↔ IsFree st.io x)

theorem SameFree.refl (st : Sections) : SameFree st st :=
  fun _ => ⟨Iff.rfl, Iff.rfl⟩

/-! ## What the kernel accepts -/

/-- The kernel moves the range to the client: there is a matching offer for it, and a page for
each table that the transfer needs.  All of it is about the state before the call. -/
def KernelAccepts (s : State) (u p : ProcRef) (supply : List Word) (start len flags : Word) :
    Prop :=
  ∃ t, acceptedTransfer s u p start len flags = some t ∧
    (t.pageLoop s flags).NoFailure len (s.mem, supply)

/-- A loop in which a turn fails returns `ERR`, if it comes to that turn. -/
theorem PageLoop.loop_of_failure {c : PageLoop} {len : Word} {x : Mem × List Word}
    (h : ¬ c.NoFailure len x) {fuel : ℕ} {out : Word × Mem × List Word}
    (hout : c.loop len fuel 0 x = some out) : out.1 = err := by
  simp only [NoFailure, not_forall, not_not] at h
  obtain ⟨i, hlt, y, hy, hturn⟩ := h
  have hbefore : ∀ j < i, pageOffset j < len := fun j hj => hlt j hj.le
  rcases Nat.lt_or_ge i fuel with hfuel | hfuel
  · obtain ⟨k, rfl⟩ : ∃ k, fuel = i + (k + 1) := ⟨fuel - i - 1, by omega⟩
    obtain ⟨supply, hloop⟩ := loop_of_turn_none k (hlt i (le_refl i)) hturn
    rw [loop_after _ hbefore hy, hloop] at hout
    cases hout
    rfl
  · rw [loop_eq_none hbefore hy hfuel] at hout
    cases hout

/-- For whole pages the loop always returns: `i` comes to `len` before it wraps around. -/
theorem PageLoop.loop_ne_none (c : PageLoop) {len : Word} (hlen : len.toNat ≤ 0xfffff000)
    (x : Mem × List Word) : c.loop len acceptFuel 0 x ≠ none := by
  by_cases h : c.NoFailure len x
  · obtain ⟨y, -, hloop⟩ := (iterates h hlen).returns
    have hfuel : turns len < acceptFuel := by
      unfold turns acceptFuel
      omega
    rw [hloop acceptFuel, if_pos hfuel]
    exact Option.some_ne_none _
  · -- it comes to the turn that fails within as many turns as there are pages
    simp only [NoFailure, not_forall, not_not] at h
    obtain ⟨i, hlt, y, hy, hturn⟩ := h
    have hi : i < acceptFuel := by
      by_contra hge
      have hend := hlt (turns len) (by unfold turns acceptFuel at *; omega)
      rw [pageOffset_lt_iff hlen (le_refl _)] at hend
      exact lt_irrefl _ hend
    obtain ⟨k, hk⟩ : ∃ k, acceptFuel = i + (k + 1) := ⟨acceptFuel - i - 1, by omega⟩
    obtain ⟨supply, hloop⟩ := loop_of_turn_none k (hlt i (le_refl i)) hturn
    rw [hk, loop_after _ (fun j hj => hlt j hj.le) hy, hloop]
    exact Option.some_ne_none _

/-- **`sys_addr_accept`** for whole pages returns `ERR` exactly when the kernel does not
accept.  Pages that were moved before a turn fails stay moved. -/
theorem acceptFrom_returns (s : State) (u p : ProcRef) (supply : List Word) (start flags : Word)
    {len : Word} (hlen : len.toNat ≤ 0xfffff000) :
    ∃ r s', acceptFrom s u p start len flags supply = .ok (r, s') ∧
      (r = err ↔ ¬ KernelAccepts s u p supply start len flags) := by
  rw [acceptFrom]
  cases ht : acceptedTransfer s u p start len flags with
  | none =>
      refine ⟨err, s, rfl, iff_of_true rfl ?_⟩
      rintro ⟨t, hsome, -⟩
      rw [ht] at hsome
      cases hsome
  | some t =>
      have haccepts : KernelAccepts s u p supply start len flags ↔
          (t.pageLoop s flags).NoFailure len (s.mem, supply) := by
        rw [KernelAccepts, ht]
        simp only [Option.some.injEq, exists_eq_left']
      obtain ⟨⟨r, m, rest⟩, hloop⟩ := Option.ne_none_iff_exists'.mp
        ((t.pageLoop s flags).loop_ne_none hlen (s.mem, supply))
      have hcall : acceptLoop (s.procs t.giver).space (s.procs t.taker).space t.vf t.vt len flags
          acceptFuel 0 s.mem supply = some (r, m, rest) := hloop
      simp only [hcall]
      refine ⟨r, _, rfl, ?_⟩
      rw [haccepts]
      by_cases h : (t.pageLoop s flags).NoFailure len (s.mem, supply)
      · obtain ⟨y, -, hreturns⟩ := (PageLoop.iterates h hlen).returns
        have hok := hreturns acceptFuel
        rw [hloop] at hok
        split_ifs at hok
        obtain rfl : r = ok := congrArg Prod.fst (Option.some.inj hok)
        exact iff_of_false (by decide) fun hnot => hnot h
      · exact iff_of_true (PageLoop.loop_of_failure h hloop) h

/-! ## What `get_ram` takes -/

/-- What `get_ram` finds. -/
structure FindsRam (st : Sections) (len : Word) (k : ℕ) (s : RangeSection) : Prop where
  find : findSlot (fun s => len ≤ s.len) st.ram = some k
  slot : (slots st.ram)[k]? = some s

/-- The end of a section. -/
def RangeSection.tail (s : RangeSection) (len : Word) : Extent ℕ :=
  ⟨s.start.toNat + (s.len - len).toNat, s.start.toNat + s.len.toNat⟩

/-- Each address is in another section too. -/
def Spare (hs : List SectionHolder) (e : Extent ℕ) : Prop :=
  ∀ x, e.Has x → 2 ≤ cover (freeExtents hs) x

theorem findsRam_of_find {len : Word} {k : ℕ}
    (h : findSlot (fun s => len ≤ s.len) st.ram = some k) : ∃ s, FindsRam st len k s := by
  obtain ⟨s, hk, -⟩ := findSlot_some h
  exact ⟨s, h, hk⟩

theorem FindsRam.le {len : Word} {k : ℕ} {s : RangeSection} (h : FindsRam st len k s) :
    len ≤ s.len := by
  obtain ⟨s', hk, hs⟩ := findSlot_some h.find
  obtain rfl : s = s' := Option.some.inj (h.slot.symm.trans hk)
  exact of_decide_eq_true hs

theorem getRam_of_none {len : Word} (h : findSlot (fun s => len ≤ s.len) st.ram = none) :
    getRam st len = (nil, st) := by
  simp only [getRam, h]

theorem FindsRam.getRam_eq {len : Word} {k : ℕ} {s : RangeSection} (h : FindsRam st len k s) :
    getRam st len = (s.start + (s.len - len),
      { st with ram := modifySlot (fun s => { s with len := s.len - len }) k st.ram }) := by
  simp only [getRam, h.find, h.slot]

/-- `get_ram` cuts the end off. -/
theorem cover_getRam {len : Word} {k : ℕ} {s : RangeSection} (h : FindsRam st len k s) (x : ℕ) :
    cover (freeExtents (getRam st len).2.ram) x + cover [s.tail len] x =
      cover (freeExtents st.ram) x := by
  have hmod := cover_modifySlot (fun s => { s with len := s.len - len }) h.slot x
  have hle := BitVec.toNat_sub_of_le h.le
  have hcut := cover_cut (a := s.start.toNat) (b := s.start.toNat + (s.len - len).toNat)
    (c := s.start.toNat + s.len.toNat) (Nat.le_add_right _ _) (by omega) x
  rw [h.getRam_eq, RangeSection.tail]
  simp only [RangeSection.extent, addresses] at hmod ⊢
  omega

/-- The free RAM is the same if and only if nothing was cut off, or what was is in another
section too. -/
theorem sameRam_getRam_iff (st : Sections) (len : Word) :
    (∀ x, IsFree (getRam st len).2.ram x ↔ IsFree st.ram x) ↔
      ∀ k s, FindsRam st len k s → Spare st.ram (s.tail len) := by
  rcases hfind : findSlot (fun s => len ≤ s.len) st.ram with _ | k
  · refine iff_of_true (fun x => ?_) fun k s h => ?_
    · rw [getRam_of_none hfind]
    · have hsome := h.find
      rw [hfind] at hsome
      cases hsome
  · obtain ⟨s, h⟩ := findsRam_of_find hfind
    have hcover := cover_getRam h
    simp only [isFree_iff]
    constructor
    · intro hsame k' s' h' x hx
      obtain rfl : k = k' := Option.some.inj (h.find.symm.trans h'.find)
      obtain rfl : s = s' := Option.some.inj (h.slot.symm.trans h'.slot)
      have hx' := hcover x
      have hfree := hsame x
      rw [cover_singleton, if_pos hx] at hx'
      omega
    · intro hspare x
      have hx' := hcover x
      rw [cover_singleton] at hx'
      split_ifs at hx' with hx
      · have htwo := hspare k s h x hx
        omega
      · omega

/-! ## What `get_io` takes -/

/-- `addr_add` takes a page for a new holder if there is no empty slot. -/
theorem ram_addrAdd (hio : st.io ≠ []) (start len : Word) :
    (addrAdd st .io start len).ram =
      if findSlot (fun s => s.len = 0) st.io = none then (getRam st pageSize).2.ram
      else st.ram := by
  rw [addrAdd]
  cases hfind : findSlot (fun s => s.len = 0) st.io with
  | some k =>
      rw [if_neg (Option.some_ne_none k)]
      have hslot : findSlot (fun s => s.len = 0) (st.holders .io) = some k := hfind
      rw [hslot]
      rfl
  | none =>
      have hslot : findSlot (fun s => s.len = 0) (st.holders .io) = none := hfind
      have hsome : ¬ (st.holders .io).isEmpty := by
        rw [List.isEmpty_iff]
        exact hio
      rw [if_pos rfl, hslot]
      simp only [if_neg hsome]
      split_ifs <;> rfl

/-- So `get_io` changes the RAM list only if there is something behind the range. -/
theorem ram_getIo {addr len : Word} {k : ℕ} {s : RangeSection} (h : Finds st addr len k s) :
    (getIo st addr len).2.ram =
      if s.HasRest addr len ∧ findSlot (fun s => s.len = 0) st.io = none then
        (getRam st pageSize).2.ram
      else st.ram := by
  rw [h.getIo_eq]
  show (addTail st addr len s).ram = _
  rw [addTail]
  by_cases hrest : s.HasRest addr len
  · rw [if_pos (show addr + len < s.start + s.len from hrest), ram_addrAdd h.io_ne]
    by_cases hfull : findSlot (fun s => s.len = 0) st.io = none
    · rw [if_pos hfull, if_pos ⟨hrest, hfull⟩]
    · rw [if_neg hfull, if_neg fun hand => hfull hand.2]
  · rw [if_neg (show ¬ addr + len < s.start + s.len from hrest), if_neg fun hand => hrest hand.1]

/-- No address is lost or won in the section that was found: in none of the others is an
address that is in it or in what is kept of it, and not in both. -/
def KeepsAddresses (st : Sections) (addr len : Word) (s : RangeSection) : Prop :=
  ∀ x, cover (freeExtents st.io) x = cover [s.extent] x →
    (s.extent.Has x ↔ 0 < cover (keptExtents st addr len s) x)

/-- The free addresses of both lists are the same after `get_io` has split the section `s`.
The RAM list changes only for a new holder. -/
structure SplitCostless (st : Sections) (addr len : Word) (s : RangeSection) : Prop where
  io : KeepsAddresses st addr len s
  ram : s.HasRest addr len → findSlot (fun s => s.len = 0) st.io = none →
    ∀ k r, FindsRam st pageSize k r → Spare st.ram (r.tail pageSize)

theorem sameFree_getIo_iff {addr len : Word} {k : ℕ} {s : RangeSection}
    (h : Finds st addr len k s) :
    SameFree st (getIo st addr len).2 ↔ SplitCostless st addr len s := by
  have hio : (∀ x, IsFree (getIo st addr len).2.io x ↔ IsFree st.io x) ↔
      KeepsAddresses st addr len s := by
    have hcover := cover_getIo h
    have hle : ∀ x, cover [s.extent] x ≤ cover (freeExtents st.io) x := fun x =>
      cover_le_of_mem (List.mem_map_of_mem (List.mem_of_getElem? h.slot)) x
    have hhas : ∀ x, s.extent.Has x ↔ 0 < cover [s.extent] x := by
      intro x
      rw [cover_singleton]
      split_ifs with hx
      · exact iff_of_true hx Nat.one_pos
      · exact iff_of_false hx (Nat.lt_irrefl 0)
    refine forall_congr' fun x => ?_
    have hx := hcover x
    have hx' := hle x
    rw [isFree_iff, isFree_iff, hhas]
    by_cases hother : cover (freeExtents st.io) x = cover [s.extent] x
    · rw [hother] at hx ⊢
      have hafter : cover (freeExtents (getIo st addr len).2.io) x =
          cover (keptExtents st addr len s) x := by omega
      rw [hafter]
      exact ⟨fun hiff _ => hiff.symm, fun hiff => (hiff rfl).symm⟩
    · exact iff_of_true (by omega) fun heq => absurd heq hother
  have hram : (∀ x, IsFree (getIo st addr len).2.ram x ↔ IsFree st.ram x) ↔
      (s.HasRest addr len → findSlot (fun s => s.len = 0) st.io = none →
        ∀ k r, FindsRam st pageSize k r → Spare st.ram (r.tail pageSize)) := by
    rw [ram_getIo h]
    split_ifs with hgrows
    · rw [sameRam_getRam_iff]
      exact ⟨fun hall _ _ => hall, fun hall => hall hgrows.1 hgrows.2⟩
    · exact iff_of_true (fun _ => Iff.rfl) fun hrest hnone => absurd ⟨hrest, hnone⟩ hgrows
  rw [SameFree, forall_and, hio, hram]
  exact ⟨fun hboth => ⟨hboth.2, hboth.1⟩, fun hboth => ⟨hboth.ram, hboth.io⟩⟩

theorem sameFree_getRam_iff (st : Sections) (len : Word) :
    SameFree st (getRam st len).2 ↔ ∀ k s, FindsRam st len k s → Spare st.ram (s.tail len) := by
  rw [← sameRam_getRam_iff, SameFree, forall_and, getRam_io]
  exact and_iff_left fun _ => Iff.rfl

/-! ## Refusals -/

/-- A request for devices costs nothing if the kernel accepts it, or if what `get_io` keeps of
the section is as much as before. -/
def IoCostless (accepts : Word → Word → Word → Prop) (st : Sections) (addr len : Word) : Prop :=
  ∀ k s, Finds st addr len k s →
    accepts addr len (addrRead ||| addrWrite) ∨ SplitCostless st addr len s

/-- A request for RAM costs nothing if the kernel accepts what `get_ram` takes, which is not at
nil, or if that is in another section too. -/
def RamCostless (accepts : Word → Word → Word → Prop) (st : Sections) (len : Word) : Prop :=
  ∀ k s, FindsRam st len k s →
    s.start + (s.len - len) ≠ nil ∧
        accepts (s.start + (s.len - len)) len (addrRead ||| addrWrite ||| addrCache) ∨
      Spare st.ram (s.tail len)

/-- The request is for nothing, or costs nothing. -/
def Costless (accepts : Word → Word → Word → Prop) (st : Sections) (addr len : Word) : Prop :=
  pageAlign len = 0 ∨ addr ≠ nil ∧ IoCostless accepts st addr (pageAlign len) ∨
    addr = nil ∧ RamCostless accepts st (pageAlign len)

theorem toNat_pageAlign_le (len : Word) : (pageAlign len).toNat ≤ 0xfffff000 := by
  have haligned := pageAlign_mod len
  have hlt := (pageAlign len).isLt
  omega

/-- What is asked for has been taken out of the lists, and the kernel decides. -/
theorem addrRequest_of_some {s : State} {u : ProcRef} {pid addr len : Word} {supply : List Word}
    {p : ProcRef} (hp : deref pid.toInt = .ok p) {a : Accept} {st' : Sections}
    (h : handleAddrRequest st addr len = (some a, st')) (hlen : a.len.toNat ≤ 0xfffff000) :
    ∃ r s', addrRequest s u st pid addr len supply = .ok (r, s', st') ∧
      (r = err ↔ ¬ KernelAccepts s u p supply a.start a.len a.flags) := by
  obtain ⟨r, s', hcall, hiff⟩ := acceptFrom_returns s u p supply a.start a.flags hlen
  refine ⟨r, s', ?_, hiff⟩
  simp only [addrRequest, h, hp, hcall]

theorem addrRequest_of_none {s : State} {u : ProcRef} {pid addr len : Word} {supply : List Word}
    {st' : Sections} (h : handleAddrRequest st addr len = (none, st')) :
    addrRequest s u st pid addr len supply = .ok (err, s, st') := by
  simp only [addrRequest, h]

theorem FindsRam.forall_iff {len : Word} {k : ℕ} {s : RangeSection} (h : FindsRam st len k s)
    {P : RangeSection → Prop} : (∀ k s, FindsRam st len k s → P s) ↔ P s := by
  refine ⟨fun hall => hall k s h, fun hs k' s' h' => ?_⟩
  obtain rfl : k = k' := Option.some.inj (h.find.symm.trans h'.find)
  obtain rfl : s = s' := Option.some.inj (h.slot.symm.trans h'.slot)
  exact hs

theorem Finds.forall_iff {addr len : Word} {k : ℕ} {s : RangeSection} (h : Finds st addr len k s)
    {P : RangeSection → Prop} : (∀ k s, Finds st addr len k s → P s) ↔ P s := by
  refine ⟨fun hall => hall k s h, fun hs k' s' h' => ?_⟩
  obtain rfl : k = k' := Option.some.inj (h.find.symm.trans h'.find)
  obtain rfl : s = s' := Option.some.inj (h.slot.symm.trans h'.slot)
  exact hs

section Requests

variable (s : State) (u : ProcRef) (st : Sections) {pid len : Word} (hpid : pid.toNat < maxProcs)
  (supply : List Word)

theorem refused_ram (hlen : pageAlign len ≠ 0) :
    ∃ r s' st', addrRequest s u st pid nil len supply = .ok (r, s', st') ∧
      ((r = err → SameFree st st') ↔
        RamCostless (KernelAccepts s u ⟨pid.toNat, hpid⟩ supply) st (pageAlign len)) := by
  have hhandle : handleAddrRequest st nil len =
      (if (getRam st (pageAlign len)).1 = nil then none
        else some ⟨(getRam st (pageAlign len)).1, pageAlign len,
          addrRead ||| addrWrite ||| addrCache⟩, (getRam st (pageAlign len)).2) := by
    simp only [handleAddrRequest, if_neg hlen, ne_eq, not_true_eq_false, if_false]
    split_ifs <;> rfl
  rcases hfind : findSlot (fun s => pageAlign len ≤ s.len) st.ram with _ | k
  · rw [getRam_of_none hfind, if_pos rfl] at hhandle
    refine ⟨err, s, st, addrRequest_of_none hhandle, iff_of_true (fun _ => .refl st) ?_⟩
    intro k r h
    have hsome := h.find
    rw [hfind] at hsome
    cases hsome
  · obtain ⟨r, h⟩ := findsRam_of_find hfind
    have hsame := sameFree_getRam_iff st (pageAlign len)
    rw [h.forall_iff] at hsame
    rw [RamCostless, h.forall_iff, ← hsame]
    have hret : (getRam st (pageAlign len)).1 = r.start + (r.len - pageAlign len) :=
      congrArg Prod.fst h.getRam_eq
    rw [hret] at hhandle
    by_cases hnil : r.start + (r.len - pageAlign len) = nil
    · rw [if_pos hnil] at hhandle
      refine ⟨err, s, _, addrRequest_of_none hhandle, ?_⟩
      rw [or_iff_right fun hand => hand.1 hnil]
      exact ⟨fun hall => hall rfl, fun hsame _ => hsame⟩
    · rw [if_neg hnil] at hhandle
      obtain ⟨v, s', hcall, hrefused⟩ :=
        addrRequest_of_some (deref_pid hpid) hhandle (toNat_pageAlign_le len)
      refine ⟨v, s', _, hcall, ?_⟩
      rw [hrefused, and_iff_right hnil]
      exact Classical.or_iff_not_imp_left.symm

theorem refused_io {addr : Word} (haddr : addr ≠ nil) (hlen : pageAlign len ≠ 0) :
    ∃ r s' st', addrRequest s u st pid addr len supply = .ok (r, s', st') ∧
      ((r = err → SameFree st st') ↔
        IoCostless (KernelAccepts s u ⟨pid.toNat, hpid⟩ supply) st addr (pageAlign len)) := by
  have hhandle : handleAddrRequest st addr len =
      (if (getIo st addr (pageAlign len)).1 = nil then none
        else some ⟨(getIo st addr (pageAlign len)).1, pageAlign len, addrRead ||| addrWrite⟩,
        (getIo st addr (pageAlign len)).2) := by
    simp only [handleAddrRequest, if_neg hlen, ne_eq, haddr, not_false_eq_true, if_true]
    split_ifs <;> rfl
  rcases hfind : findSlot (RangeSection.offers addr (pageAlign len)) st.io with _ | k
  · rw [getIo_of_none hfind, if_pos rfl] at hhandle
    refine ⟨err, s, st, addrRequest_of_none hhandle, iff_of_true (fun _ => .refl st) ?_⟩
    intro k r h
    have hsome := h.find
    rw [hfind] at hsome
    cases hsome
  · obtain ⟨r, h⟩ := finds_of_find hfind
    have hsame := sameFree_getIo_iff h
    rw [IoCostless, h.forall_iff, ← hsame]
    have hret : (getIo st addr (pageAlign len)).1 = addr := congrArg Prod.fst h.getIo_eq
    rw [hret, if_neg haddr] at hhandle
    obtain ⟨v, s', hcall, hrefused⟩ :=
      addrRequest_of_some (deref_pid hpid) hhandle (toNat_pageAlign_le len)
    refine ⟨v, s', _, hcall, ?_⟩
    rw [hrefused]
    exact Classical.or_iff_not_imp_left.symm

/-- **When a refused request costs nothing**: if nothing was asked for, or no section was
found, or the kernel does not refuse it, or each address that was taken is still in a section.
The call always returns, as the length is rounded to pages. -/
theorem refused_free_iff (addr len : Word) :
    ∃ r s' st', addrRequest s u st pid addr len supply = .ok (r, s', st') ∧
      ((r = err → SameFree st st') ↔
        Costless (KernelAccepts s u ⟨pid.toNat, hpid⟩ supply) st addr len) := by
  rw [Costless]
  by_cases hlen : pageAlign len = 0
  · have hhandle : handleAddrRequest st addr len = (none, st) := by
      simp only [handleAddrRequest, if_pos hlen]
    exact ⟨err, s, st, addrRequest_of_none hhandle,
      iff_of_true (fun _ => .refl st) (.inl hlen)⟩
  · rw [or_iff_right hlen]
    by_cases haddr : addr = nil
    · rw [or_iff_right fun hand => hand.1 haddr, and_iff_right haddr, haddr]
      exact refused_ram s u st hpid supply hlen
    · rw [or_iff_left fun hand => haddr hand.1, and_iff_right haddr]
      exact refused_io s u st hpid supply haddr hlen

end Requests

/-- A RAM list of one holder, with one page free. -/
def onePage : Sections where
  ram := modifySlot (fun _ => ⟨0x80001000, 0x1000⟩) 0 [newHolder 0x80000000]
  io := [newHolder 0x88000000]

theorem slots_onePage {s : RangeSection} (h : s ∈ slots onePage.ram) :
    s = ⟨0x80001000, 0x1000⟩ ∨ s = ⟨0, 0⟩ := by
  have hzero := getElem?_newHolder_zero 0x80000000
  rw [onePage] at h
  dsimp only at h
  exact forall_slots_modifySlot (P := fun s => s = ⟨0x80001000, 0x1000⟩ ∨ s = ⟨0, 0⟩) hzero
    (.inl rfl) (fun s hs => .inr (mem_slots_newHolder hs)) s h

/-- Process 1 offers to take a page from process 0. -/
def takesPage : State :=
  (twoProcs givenMem).modifyProc 1 fun q =>
    { q with addrOffer := { start := 0x4000, len := 0x1000, flags := 15, toPid := 0 } }

/-- A client that has made the offer gets the page. -/
theorem offered_page_given :
    ∃ r s' st', addrRequest takesPage 0 onePage 1 nil 0x1000 [] = .ok (r, s', st') ∧
      (r = err → SameFree onePage st') := by
  obtain ⟨r, s', st', hcall, hiff⟩ :=
    refused_free_iff takesPage 0 onePage (show (1 : Word).toNat < maxProcs by decide) [] nil 0x1000
  refine ⟨r, s', st', hcall, hiff.mpr (.inr (.inr ⟨rfl, fun k s h => .inl ?_⟩))⟩
  have hlen : pageAlign 0x1000 = 0x1000 := by decide
  rw [hlen] at h ⊢
  rcases slots_onePage (List.mem_of_getElem? h.slot) with rfl | rfl
  · refine ⟨by decide, ⟨0, 1, 0x80001000, 0x4000⟩, ?_, fun i hi y hy => ?_⟩
    · have hoffer : (takesPage.procs 1).addrOffer =
          { start := 0x4000, len := 0x1000, flags := 15, toPid := 0 } := rfl
      have hpid : (takesPage.procs 0).pid = 0 := rfl
      simp [acceptedTransfer, hoffer, hpid, addrTake, addrRead, addrWrite, addrCache]
    · rcases i with _ | i
      · cases hy
        rw [← Option.isSome_iff_ne_none]
        decide +kernel
      · exact absurd (hi 1 (by omega)) (by decide)
  · exact absurd h.le (by decide)

/-- A client that has made no offer gets `ERR`, and the page is gone. -/
theorem refusal_costs_page :
    ∃ s' st', addrRequest (twoProcs givenMem) 0 onePage 1 nil 0x1000 [] = .ok (err, s', st') ∧
      IsFree onePage.ram 0x80001000 ∧ ¬ IsFree st'.ram 0x80001000 ∧ ¬ SameFree onePage st' := by
  have hcall : (addrRequest (twoProcs givenMem) 0 onePage 1 nil 0x1000 []).map
      (fun out => (out.1, decide (IsFree out.2.2.ram 0x80001000))) = .ok (err, false) := by
    decide +kernel
  obtain ⟨⟨r, s', st'⟩, hreturns, hout⟩ := exists_of_map hcall
  obtain ⟨rfl, hfree⟩ := Prod.mk.inj hout
  have hbefore : IsFree onePage.ram 0x80001000 := by decide +kernel
  have hafter : ¬ IsFree st'.ram 0x80001000 := of_decide_eq_false hfree
  exact ⟨s', st', hreturns, hbefore, hafter, fun hsame =>
    hafter ((hsame 0x80001000).1.mpr hbefore)⟩

end Omb
