import Omb.Kern.Moves
import Omb.Am335x.Translate

/-!
# The transfer of pages between address spaces

`sys_addr_accept` moves pages from one space to the other, one a turn: it maps the frame of
the giver's page into the taker's space and then unmaps the giver's page.  `PageMoved` is what
one turn does to the translations, and `acceptLoop_invariant` carries it over the whole loop,
also when the loop ends early because there is no page for a new second-level table.

`accept_changes_offered_pages` puts that together with the checks before the loop: what
changes was offered to the caller by the latest offer of the other process, and lies in the
two ranges.

Translations depend on tables, and tables are words in memory that a store may hit by
accident. `State.OwnSpaces` excludes that: each process has a space of its own, and each space
tables of its own.  It is an assumption on the state here, and so is that `get_page` returns
pages that are in use nowhere; the loop keeps both.

The history of offers is a run of `sys_addr_offer` calls, from whose trace the latest offer of
each process is read.

## Main results

* `acceptLoop_invariant`: the rule for the loop
* `acceptFrom_concerns`: the loop changes pages of the two ranges only
* `accept_changes_offered_pages`: and only under a matching offer
-/

namespace Omb

/-! ## One turn -/

/-- The page of `vf` in the space `giver` has moved to the page of `vt` in `taker`.  Every
other page of every space translates as before. -/
def PageMoved (S : Set Word) (m m' : Mem) (giver taker vf vt flags : Word) : Prop :=
  ∀ space ∈ S, ∀ va, Covered va → translate m' space va =
    if space = giver ∧ pageNo va = pageNo vf then l2Fault
    else if space = taker ∧ pageNo va = pageNo vt then
      l2Descr (translate m giver vf &&& pageMask) (apOf flags) (cacheOf flags)
    else translate m space va

section Loop

variable {S : Set Word} {m m₁ : Mem} {giver taker vf vt len flags : Word}
  {supply supply₁ : List Word}

theorem acceptTurn_spec (ht : Tables m S) (hs : FreshSupply m S supply) (hgiver : giver ∈ S)
    (htaker : taker ∈ S) (hvf : Covered vf) (hvt : Covered vt)
    (hmap : spaceMap m taker (spaceFind m giver vf).1 vt flags supply = (true, m₁, supply₁)) :
    Tables (spaceUnmap m₁ giver vf) S ∧ FreshSupply (spaceUnmap m₁ giver vf) S supply₁ ∧
      PageMoved S m (spaceUnmap m₁ giver vf) giver taker vf vt flags := by
  have hspec := spaceMap_spec ht hs htaker hvt (spaceFind m giver vf).1 flags
  rw [hmap] at hspec
  obtain ⟨ht₁, hs₁, hmapped⟩ := hspec
  obtain ⟨hsame, hunmapped⟩ := spaceUnmap_spec ht₁ hgiver hvf
  refine ⟨ht₁.congr hsame, hs₁.congr hsame, fun space hspace va hva => ?_⟩
  rw [hunmapped space hspace va hva, hmapped rfl space hspace va hva, spaceFind_eq]

/-! ## The loop -/

/-- `l` after `i` turns. -/
def pageOffset (i : ℕ) : Word :=
  BitVec.ofNat 32 (4096 * i)

/-- Turns the loop takes if it is not left early: one for each page that the range begins. -/
def turns (len : Word) : ℕ :=
  (len.toNat + 4095) / 4096

theorem pageOffset_succ (i : ℕ) : pageOffset i + pageSize = pageOffset (i + 1) := by
  rw [pageOffset, pageOffset, Nat.mul_add, BitVec.ofNat_add]
  rfl

theorem toNat_pageOffset {i : ℕ} (hlen : len.toNat ≤ 0xfffff000) (hi : i ≤ turns len) :
    (pageOffset i).toNat = 4096 * i := by
  unfold turns at hi
  rw [pageOffset, BitVec.toNat_ofNat]
  omega

theorem pageOffset_lt_iff {i : ℕ} (hlen : len.toNat ≤ 0xfffff000) (hi : i ≤ turns len) :
    pageOffset i < len ↔ i < turns len := by
  rw [BitVec.lt_def, toNat_pageOffset hlen hi]
  unfold turns
  omega

/-- A range in which each address is covered is at most as long as what is covered. -/
theorem len_le_of_covered {v : Word} (h : ∀ l < len, Covered (v + l)) : len.toNat ≤ 2 ^ 30 := by
  unfold Covered at h
  by_contra hlong
  have hpos : 0 < len := by
    rw [BitVec.lt_def]
    show 0 < len.toNat
    omega
  have hv : v.toNat < 2 ^ 30 := by simpa using h 0 hpos
  have hend := h (BitVec.ofNat 32 (2 ^ 30 - v.toNat))
  rw [BitVec.lt_def, BitVec.toNat_ofNat, BitVec.toNat_add, BitVec.toNat_ofNat] at hend
  omega

theorem pageOffset_lt {v : Word} (hcov : ∀ l < len, Covered (v + l)) {i : ℕ}
    (hi : i < turns len) : pageOffset i < len :=
  (pageOffset_lt_iff ((len_le_of_covered hcov).trans (by decide)) hi.le).mpr hi

/-- Each turn looks at covered addresses. -/
theorem covered_pageOffset {v : Word} (hcov : ∀ l < len, Covered (v + l)) {i : ℕ}
    (hi : i < turns len) : Covered (v + pageOffset i) :=
  hcov _ (pageOffset_lt hcov hi)

/-- **The invariant rule of the loop.**  What each turn keeps holds when the loop is over:
after all turns if it returns `OK`, after some of them if it returns `ERR`. -/
theorem acceptLoop_invariant {P : ℕ → Mem → Prop} (hgiver : giver ∈ S) (htaker : taker ∈ S)
    (hvf : ∀ l < len, Covered (vf + l)) (hvt : ∀ l < len, Covered (vt + l))
    (hstep : ∀ i < turns len, ∀ m m', Tables m S → P i m →
      PageMoved S m m' giver taker (vf + pageOffset i) (vt + pageOffset i) flags → P (i + 1) m')
    (fuel : ℕ) {i : ℕ} (hi : i ≤ turns len) (hfuel : turns len < i + fuel)
    (ht : Tables m S) (hs : FreshSupply m S supply) (hP : P i m) :
    ∃ r m' supply', acceptLoop giver taker vf vt len flags fuel (pageOffset i) m supply =
        some (r, m', supply') ∧
      (r = ok ∧ P (turns len) m' ∨ r = err ∧ ∃ j < turns len, P j m') := by
  have hlen : len.toNat ≤ 0xfffff000 := (len_le_of_covered hvf).trans (by decide)
  induction fuel generalizing i m supply with
  | zero => omega
  | succ fuel ih =>
      rw [acceptLoop]
      rcases Nat.lt_or_ge i (turns len) with hlt | hge
      · have hvf' := covered_pageOffset hvf hlt
        have hvt' := covered_pageOffset hvt hlt
        rw [if_pos (pageOffset_lt hvf hlt)]
        rcases hmap : spaceMap m taker (spaceFind m giver (vf + pageOffset i)).1
          (vt + pageOffset i) flags supply with ⟨_ | _, m₁, supply₁⟩
        · simp only [hmap]
          exact ⟨err, m₁, supply₁, rfl, .inr ⟨rfl, i, hlt, spaceMap_false hmap ▸ hP⟩⟩
        · simp only [hmap, pageOffset_succ]
          obtain ⟨ht', hs', hmoved⟩ := acceptTurn_spec ht hs hgiver htaker hvf' hvt' hmap
          exact ih (by omega) (by omega) ht' hs' (hstep i hlt m _ ht hP hmoved)
      · have hl : ¬pageOffset i < len := by
          rw [pageOffset_lt_iff hlen hi]
          omega
        have heq : i = turns len := by omega
        rw [if_neg hl]
        exact ⟨ok, m, supply, rfl, .inl ⟨rfl, heq ▸ hP⟩⟩

end Loop

/-! ## The spaces of the processes -/

/-- The process has been made. -/
def State.IsMade (s : State) (p : ProcRef) : Prop :=
  (s.procs p).state ≠ .dead

/-- The address spaces of the processes. -/
def State.spaces (s : State) : Set Word :=
  {space | ∃ p, s.IsMade p ∧ (s.procs p).space = space}

/-- Each process has a space of its own, and each space tables of its own.  No table is in a
page of a space. -/
structure State.OwnSpaces (s : State) : Prop where
  distinct : ∀ p q, s.IsMade p → s.IsMade q → (s.procs q).space = (s.procs p).space → q = p
  tables : Tables s.mem s.spaces

theorem State.IsMade.mem_spaces {s : State} {p : ProcRef} (h : s.IsMade p) :
    (s.procs p).space ∈ s.spaces :=
  ⟨p, h, rfl⟩

/-- The descriptor of a page of a process. -/
def State.descr (s : State) (q : ProcRef) (va : Word) : Word :=
  translate s.mem (s.procs q).space va

/-- The page of `va` is one of the pages of `[v, v + len)`. -/
def InRangePages (v len va : Word) : Prop :=
  ∃ l < len, pageNo va = pageNo (v + l)

/-- What a transfer may change: pages of the giver's range and of the taker's.  Pages count
whole. -/
def Transfer.Concerns (t : Transfer) (len : Word) (q : ProcRef) (va : Word) : Prop :=
  (q = t.giver ∧ InRangePages t.vf len va) ∨ (q = t.taker ∧ InRangePages t.vt len va)

section Accept

variable {s : State} {u p : ProcRef} {start len flags : Word} {supply : List Word}

/-- The transfer that went through the checks, in the direction of the take bits. -/
theorem acceptedTransfer_eq_some {t : Transfer}
    (h : acceptedTransfer s u p start len flags = some t) :
    (s.procs p).addrOffer.toPid = (s.procs u).pid ∧ (s.procs p).addrOffer.len = len ∧
    (s.procs p).addrOffer.flags.sshiftRight 1 = flags.sshiftRight 1 ∧
    ((flags &&& addrTake = 0 ∧ (s.procs p).addrOffer.flags &&& addrTake ≠ 0 ∧
        t = ⟨u, p, start, (s.procs p).addrOffer.start⟩) ∨
      (flags &&& addrTake ≠ 0 ∧ (s.procs p).addrOffer.flags &&& addrTake = 0 ∧
        t = ⟨p, u, (s.procs p).addrOffer.start, start⟩)) := by
  unfold acceptedTransfer at h
  simp only at h
  split_ifs at h with hpid hlen hflags hgive htake
  · cases h
    rw [not_not] at hpid hlen hflags
    exact ⟨hpid.symm, hlen.symm, hflags.symm, .inl ⟨hgive.1, hgive.2, rfl⟩⟩
  · cases h
    rw [not_not] at hpid hlen hflags
    exact ⟨hpid.symm, hlen.symm, hflags.symm, .inr ⟨htake.1, htake.2, rfl⟩⟩

/-- The processes and ranges of a transfer, whichever way it goes. -/
theorem acceptedTransfer_ends (ht : acceptedTransfer s u p start len flags = some t)
    (hu : s.IsMade u) (hp : s.IsMade p) (hcov : ∀ l < len, Covered (start + l))
    (hcov' : ∀ l < len, Covered ((s.procs p).addrOffer.start + l)) :
    (s.IsMade t.giver ∧ s.IsMade t.taker) ∧
      (∀ l < len, Covered (t.vf + l)) ∧ ∀ l < len, Covered (t.vt + l) := by
  obtain ⟨-, -, -, ⟨-, -, rfl⟩ | ⟨-, -, rfl⟩⟩ := acceptedTransfer_eq_some ht
  · exact ⟨⟨hu, hp⟩, hcov, hcov'⟩
  · exact ⟨⟨hp, hu⟩, hcov', hcov⟩

/-- `acceptLoop_invariant` for the transfer between two processes. -/
theorem acceptFrom_invariant {P : ℕ → Mem → Prop} (hown : s.OwnSpaces)
    (hs : FreshSupply s.mem s.spaces supply) (hu : s.IsMade u) (hp : s.IsMade p)
    (hcov : ∀ l < len, Covered (start + l))
    (hcov' : ∀ l < len, Covered ((s.procs p).addrOffer.start + l)) {t : Transfer}
    (ht : acceptedTransfer s u p start len flags = some t)
    (hstep : ∀ i < turns len, ∀ m m', P i m →
      PageMoved s.spaces m m' (s.procs t.giver).space (s.procs t.taker).space
        (t.vf + pageOffset i) (t.vt + pageOffset i) flags → P (i + 1) m')
    (hP : P 0 s.mem) :
    ∃ r m, acceptFrom s u p start len flags supply = .ok (r, { s with mem := m }) ∧
      (r = ok ∧ P (turns len) m ∨ r = err ∧ ∃ j < turns len, P j m) := by
  obtain ⟨⟨hgiver, htaker⟩, hvf, hvt⟩ := acceptedTransfer_ends ht hu hp hcov hcov'
  have hfuel : turns len < 0 + acceptFuel := by
    have hlen := len_le_of_covered hvf
    unfold turns acceptFuel
    omega
  obtain ⟨r, m, supply', hloop, hr⟩ := acceptLoop_invariant hgiver.mem_spaces
    htaker.mem_spaces hvf hvt (fun i hi m m' _ => hstep i hi m m') acceptFuel (Nat.zero_le _)
    hfuel hown.tables hs hP
  refine ⟨r, m, ?_, hr⟩
  have hzero : pageOffset 0 = 0 := rfl
  rw [hzero] at hloop
  simp only [acceptFrom, ht, hloop]

/-- An empty range is transferred without a turn of the loop. -/
theorem acceptFrom_of_len_zero {t : Transfer}
    (ht : acceptedTransfer s u p start 0 flags = some t) :
    acceptFrom s u p start 0 flags supply = .ok (ok, s) := by
  have hloop : acceptLoop (s.procs t.giver).space (s.procs t.taker).space t.vf t.vt 0 flags
      acceptFuel 0 s.mem supply = some (ok, s.mem, supply) := rfl
  simp only [acceptFrom, ht, hloop]

/-- **The loop changes pages of the two ranges only**, whether it gets to its end or not, and
in no other space anything. -/
theorem acceptFrom_concerns (hown : s.OwnSpaces) (hs : FreshSupply s.mem s.spaces supply)
    (hu : s.IsMade u) (hp : s.IsMade p) (hcov : ∀ l < len, Covered (start + l))
    (hcov' : ∀ l < len, Covered ((s.procs p).addrOffer.start + l)) {t : Transfer}
    (ht : acceptedTransfer s u p start len flags = some t) :
    ∃ r m, acceptFrom s u p start len flags supply = .ok (r, { s with mem := m }) ∧
      (r = ok ∨ r = err) ∧ ∀ q va, s.IsMade q → Covered va →
        translate m (s.procs q).space va ≠ s.descr q va → t.Concerns len q va := by
  obtain ⟨⟨hgiver, htaker⟩, hvf, -⟩ := acceptedTransfer_ends ht hu hp hcov hcov'
  -- what a turn changes is one page of each range
  have hstep : ∀ i < turns len, ∀ m m',
      (∀ q va, s.IsMade q → Covered va →
        translate m (s.procs q).space va ≠ s.descr q va → t.Concerns len q va) →
      PageMoved s.spaces m m' (s.procs t.giver).space (s.procs t.taker).space
        (t.vf + pageOffset i) (t.vt + pageOffset i) flags →
      ∀ q va, s.IsMade q → Covered va →
        translate m' (s.procs q).space va ≠ s.descr q va → t.Concerns len q va := by
    intro i hi m m' hP hmoved q va hq hva hne
    have hl := pageOffset_lt hvf hi
    rw [hmoved _ hq.mem_spaces va hva] at hne
    split_ifs at hne with hfrom hto
    · exact .inl ⟨hown.distinct _ _ hgiver hq hfrom.1, _, hl, hfrom.2⟩
    · exact .inr ⟨hown.distinct _ _ htaker hq hto.1, _, hl, hto.2⟩
    · exact hP q va hq hva hne
  obtain ⟨r, m, haccept, hr⟩ := acceptFrom_invariant
    (P := fun _ m => ∀ q va, s.IsMade q → Covered va →
      translate m (s.procs q).space va ≠ s.descr q va → t.Concerns len q va)
    hown hs hu hp hcov hcov' ht hstep (fun _ _ _ _ hne => absurd rfl hne)
  refine ⟨r, m, haccept, ?_⟩
  rcases hr with ⟨hok, hP⟩ | ⟨herr, _, _, hP⟩
  · exact ⟨.inl hok, hP⟩
  · exact ⟨.inr herr, hP⟩

end Accept

/-! ## The history of offers -/

/-- A call of `sys_addr_offer`. -/
structure OfferCall where
  caller : ProcRef
  pid : Word
  start : Word
  len : Word
  flags : Word

/-- The fields of `addr_offer` that the call sets. -/
def OfferCall.offer (c : OfferCall) : AddrOffer where
  start := c.start
  len := c.len
  flags := c.flags
  toPid := c.pid

def offerStep (s : State) (c : OfferCall) : Except Stuck Out :=
  sysAddrOffer s c.caller c.pid c.start c.len c.flags

/-- The calls of a history, in order. -/
abbrev OfferStep := Machine.Transition State OfferCall Event

/-- The latest offer of the process, if it has made one. -/
def latestOffer (tr : List OfferStep) (p : ProcRef) : Option OfferCall :=
  (tr.map Machine.Transition.act).reverse.find? fun c => c.caller = p

theorem offerStep_eq (s : State) (c : OfferCall) :
    offerStep s c =
      .ok ({ s.modifyProc c.caller fun q => { q with addrOffer := c.offer } with
        control := .user }, [.returned c.caller ok]) := rfl

/-- `addr_offer` holds the latest offer. -/
theorem addrOffer_of_history {s₀ s : State} {tr : List OfferStep}
    (h : Machine.Run offerStep s₀ tr s) (hzero : ∀ p, (s₀.procs p).addrOffer = .zero)
    (p : ProcRef) :
    (s.procs p).addrOffer = ((latestOffer tr p).map OfferCall.offer).getD .zero := by
  induction h with
  | nil => exact hzero p
  | @snoc tr s s' c evs _ hs ih =>
      rw [offerStep_eq] at hs
      cases hs
      unfold latestOffer
      rw [List.map_append, List.reverse_append]
      rcases eq_or_ne c.caller p with rfl | hne
      · simp
      · rw [latestOffer] at ih
        simpa [hne, hne.symm] using ih

/-! ## The transfer -/

/-- A pid in the table is dereferenced as the slot of that number. -/
theorem deref_pid {pid : Word} (h : pid.toNat < maxProcs) :
    deref pid.toInt = .ok ⟨pid.toNat, h⟩ := by
  have hlt : pid.toNat < 512 := h
  exact deref_val (BitVec.toInt_eq_toNat_of_lt (by omega))

theorem sysAddrAccept_of_deref {s : State} {u p : ProcRef} {pid start len flags : Word}
    {supply : List Word} (h : deref pid.toInt = .ok p) :
    sysAddrAccept s u pid start len flags supply =
      (acceptFrom s u p start len flags supply).map
        fun out => returnToUser u out.1 (out.2, []) := by
  simp only [sysAddrAccept, withProc_eq, h]
  rcases acceptFrom s u p start len flags supply with _ | _ <;> rfl

/-- **A transfer needs a matching offer and touches nothing else.**  Let the processes of
`s` have spaces of their own and let its offers come from any history of
`sys_addr_offer`.  If a descriptor changes in a call of `sys_addr_accept`, then the latest
offer of the process `pid` named the caller, with the same length and permissions and the
opposite take bit, and the page is one of the giver's range or the taker's. -/
theorem accept_changes_offered_pages {s₀ s : State} {tr : List OfferStep} {u : ProcRef}
    (pid start len flags : Word) {supply : List Word}
    (hrun : Machine.Run offerStep s₀ tr s) (hzero : ∀ p, (s₀.procs p).addrOffer = .zero)
    (hcallers : ∀ t ∈ tr, s.IsMade t.act.caller) (hown : s.OwnSpaces)
    (hs : FreshSupply s.mem s.spaces supply) (hu : s.IsMade u) (hpid : pid.toNat < maxProcs)
    (hcov : ∀ l < len, Covered (start + l))
    (hcov' : ∀ l < len, Covered ((s.procs ⟨pid.toNat, hpid⟩).addrOffer.start + l)) :
    ∃ r s', sysAddrAccept s u pid start len flags supply = .ok (s', [.returned u r]) ∧
      (r = ok ∨ r = err) ∧
      ∀ q va, s.IsMade q → Covered va → s'.descr q va ≠ s.descr q va →
        ∃ (c : OfferCall) (t : Transfer), latestOffer tr ⟨pid.toNat, hpid⟩ = some c ∧
          c.pid = (s.procs u).pid ∧ c.len = len ∧
          c.flags.sshiftRight 1 = flags.sshiftRight 1 ∧
          ((flags &&& addrTake = 0 ∧ c.flags &&& addrTake ≠ 0 ∧
              t = ⟨u, ⟨pid.toNat, hpid⟩, start, c.start⟩) ∨
            (flags &&& addrTake ≠ 0 ∧ c.flags &&& addrTake = 0 ∧
              t = ⟨⟨pid.toNat, hpid⟩, u, c.start, start⟩)) ∧
          t.Concerns len q va := by
  have hoffer := addrOffer_of_history hrun hzero ⟨pid.toNat, hpid⟩
  rw [sysAddrAccept_of_deref (deref_pid hpid)]
  generalize hp : (⟨pid.toNat, hpid⟩ : ProcRef) = p at *
  rcases hacc : acceptedTransfer s u p start len flags with _ | t
  · have hrefused : acceptFrom s u p start len flags supply = .ok (err, s) := by
      simp only [acceptFrom, hacc]
    simp only [hrefused]
    exact ⟨err, _, rfl, .inr rfl, fun q va _ _ hne => absurd rfl hne⟩
  · obtain ⟨hnamed, hlen, hflags, hdir⟩ := acceptedTransfer_eq_some hacc
    rcases hlatest : latestOffer tr p with _ | c
    · -- without an offer only an empty range gets through the checks
      rw [hlatest] at hoffer
      rw [hoffer] at hlen
      obtain rfl : (0 : Word) = len := hlen
      simp only [acceptFrom_of_len_zero hacc]
      exact ⟨ok, _, rfl, .inl rfl, fun q va _ _ hne => absurd rfl hne⟩
    · rw [hlatest] at hoffer
      have hmade : s.IsMade p := by
        obtain ⟨t', ht', hact⟩ := List.mem_map.mp
          (List.mem_reverse.mp (List.mem_of_find?_eq_some hlatest))
        have hcaller : c.caller = p := by simpa using List.find?_some hlatest
        rw [← hcaller, ← hact]
        exact hcallers t' ht'
      obtain ⟨r, m, haccept, hr, hchange⟩ :=
        acceptFrom_concerns hown hs hu hmade hcov hcov' hacc
      simp only [haccept]
      refine ⟨r, _, rfl, hr, fun q va hq hva hne => ⟨c, t, rfl, ?_⟩⟩
      rw [hoffer] at hnamed hlen hflags hdir
      exact ⟨hnamed, hlen, hflags, hdir, hchange q va hq hva hne⟩

/-- Two processes, each with a page of its own for its space. -/
def twoProcs (m : Mem) : State where
  procs p :=
    if p = 0 then { Proc.zero with state := .oncpu, space := 0x10000 }
    else if p = 1 then { Proc.zero with state := .ready, pid := 1, space := 0x20000 }
    else .zero
  alive := some 0
  up := some 0
  nextpid := 2
  lists _ := { proc := none, next := none }
  pages _ := .zero
  mem := m
  control := .user
  image :=
    { proc0Page := 0x1000
      proc0StackPage := 0x2000
      proc0SpacePage := 0x10000
      proc0TextStart := 0x4000
      kernelPage := 0x5000 }

/-- Process 1 has offered a page to process 0. -/
def offeredPage (m : Mem) : State :=
  (twoProcs m).modifyProc 1 fun q =>
    { q with addrOffer := { start := 0x1000, len := 0x1000, flags := 6, toPid := 0 } }

theorem isMade_offeredPage {m : Mem} {p : ProcRef} :
    (offeredPage m).IsMade p ↔ p = 0 ∨ p = 1 := by
  have hstate : ((offeredPage m).procs p).state = ((twoProcs m).procs p).state :=
    State.modifyProc_field Proc.state rfl p
  rw [State.IsMade, hstate, twoProcs]
  dsimp only
  split_ifs <;> simp_all [Proc.zero]

theorem spaces_offeredPage (m : Mem) : (offeredPage m).spaces = {0x10000, 0x20000} := by
  ext space
  constructor
  · rintro ⟨p, hp, rfl⟩
    rcases isMade_offeredPage.mp hp with rfl | rfl
    · exact .inl rfl
    · exact .inr rfl
  · rintro (rfl | rfl)
    · exact ⟨0, isMade_offeredPage.mpr (.inl rfl), rfl⟩
    · exact ⟨1, isMade_offeredPage.mpr (.inr rfl), rfl⟩

theorem ownSpaces_offeredPage {m : Mem} (ht : Tables m {0x10000, 0x20000}) :
    (offeredPage m).OwnSpaces where
  distinct p q hp hq heq := by
    have hne : (0x10000 : Word) ≠ 0x20000 := by decide
    rcases isMade_offeredPage.mp hp with rfl | rfl <;>
      rcases isMade_offeredPage.mp hq with rfl | rfl
    · rfl
    · exact absurd heq hne.symm
    · exact absurd heq hne
    · rfl
  tables := by
    rw [spaces_offeredPage]
    exact ht

/-- Nothing is mapped in the zeroed spaces. -/
theorem tables_zeroed : Tables (fun _ => 0) {0x10000, 0x20000} := by
  refine .of_zeroed (apart_of_aligned ?_) fun _ _ _ _ => rfl
  rintro _ (rfl | rfl) <;> rfl

theorem freshPage_zeroed {page : Word} (hpage : PageAligned page) (hne : page ≠ nil)
    (hspace : page ≠ 0x10000) (hspace' : page ≠ 0x20000) :
    FreshPage (fun _ => 0) {0x10000, 0x20000} page where
  aligned := hpage
  outside := by
    rintro _ (rfl | rfl)
    · exact PageAligned.outside rfl hpage hspace.symm
    · exact PageAligned.outside rfl hpage hspace'.symm
  notTab space _ i _ := by
    have htab : tabOf (fun _ => 0) space i = nil := BitVec.zero_and
    rw [htab]
    exact hne.symm

/-- The addresses of one page are all covered. -/
theorem covered_of_lt {v l : Word} (hcov : Covered v) (hv : PageAligned v) (hl : l < 0x1000) :
    Covered (v + l) := by
  have hl' : l.toNat < 4096 := hl
  unfold PageAligned at hv
  unfold Covered at hcov ⊢
  rw [BitVec.toNat_add]
  omega

theorem covered_given : Covered 0x1000 := by
  simp [Covered]

theorem covered_taken : Covered 0x3000 := by
  simp [Covered]

/-- Process 0 takes the page that process 1 has offered. -/
theorem accept_changes_two_pages :
    ∃ r s', sysAddrAccept (offeredPage fun _ => 0) 0 1 0x3000 0x1000 7 [0x8000] =
        .ok (s', [.returned 0 r]) ∧
      ∀ q va, q = 0 ∨ q = 1 → Covered va →
        s'.descr q va ≠ (offeredPage fun _ => 0).descr q va →
          (q = 1 ∧ InRangePages 0x1000 0x1000 va) ∨ (q = 0 ∧ InRangePages 0x3000 0x1000 va) := by
  have hrun : Machine.Run offerStep (twoProcs fun _ => 0) [⟨twoProcs fun _ => 0,
      ⟨1, 0, 0x1000, 0x1000, 6⟩, [.returned 1 ok], offeredPage fun _ => 0⟩]
      (offeredPage fun _ => 0) := .snoc .nil (offerStep_eq ..)
  have hzero : ∀ p, ((twoProcs fun _ => 0).procs p).addrOffer = .zero := by
    intro p
    unfold twoProcs
    dsimp only
    split_ifs <;> rfl
  have hs : FreshSupply (fun _ => 0) (offeredPage fun _ => 0).spaces [0x8000] := by
    rw [spaces_offeredPage]
    refine ⟨fun page hpage hne => ?_, List.pairwise_singleton ..⟩
    obtain rfl := List.mem_singleton.mp hpage
    exact freshPage_zeroed rfl hne (by decide) (by decide)
  have hpid : (1 : Word).toNat < maxProcs := by decide
  have hstart : ((offeredPage fun _ => 0).procs ⟨(1 : Word).toNat, hpid⟩).addrOffer.start =
      0x1000 := rfl
  obtain ⟨r, s', hcall, -, hchange⟩ := accept_changes_offered_pages 1 0x3000 0x1000 7
    hrun hzero (by simp [isMade_offeredPage]) (ownSpaces_offeredPage tables_zeroed) hs
    (isMade_offeredPage.mpr (.inl rfl)) hpid
    (fun l hl => covered_of_lt covered_taken rfl hl)
    (by rw [hstart]; exact fun l hl => covered_of_lt covered_given rfl hl)
  refine ⟨r, s', hcall, fun q va hq hva hne => ?_⟩
  obtain ⟨c, t, hlatest, -, -, -, hdir, hconcerns⟩ :=
    hchange q va (isMade_offeredPage.mpr hq) hva hne
  have hc : some c = some ⟨1, 0, 0x1000, 0x1000, 6⟩ := hlatest.symm
  cases hc
  rcases hdir with ⟨hgive, -, -⟩ | ⟨-, -, rfl⟩
  · exact absurd hgive (by decide)
  · exact hconcerns

end Omb
