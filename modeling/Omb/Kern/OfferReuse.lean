import Omb.Kern.Handover

/-!
# Offers accepted more than once

`addr_offer` is written by `sys_addr_offer` alone.  Accepting an offer does not use it up, so
the process it names can accept it as often as it likes, at other addresses of its own each
time (`offer_accepted_again`).

That is as far as it goes: unless `p` makes another offer, what is accepted again is the same
transfer on the side of `p`, with the same range, in the same direction, with the same length
and flags, and by a process of the same pid (`accept_repeats`).

A history is a run of the two calls by any processes, in any order.  What ties two accepts
together over the calls between them is that nothing but an offer of `p` changes the offer of
`p` (`addrStep_frame`, `addrRun_frame`).  The checks of an accept compare every part of it but
the address of the other side, so two accepts under one offer agree in all of them.

## Main definitions

* `AddrCall`, `addrStep`: the calls of any process
* `UsedOnce`: no offer is accepted twice
* `Repeats`: one accept is for the same transfer as another

## Main results

* `accept_repeats`: what an offer authorises
-/

namespace Omb

/-! ## Runs -/

/-- A call of `sys_addr_accept`, with the results of `get_page`.  Any process may make it. -/
structure AcceptCall where
  caller : ProcRef
  pid : Word
  start : Word
  len : Word
  flags : Word
  supply : List Word

/-- A call of `sys_addr_offer` or of `sys_addr_accept`. -/
inductive AddrCall where
  | offer (c : OfferCall)
  | accept (c : AcceptCall)

def addrStep (s : State) : AddrCall → Except Stuck Out
  | .offer c => offerStep s c
  | .accept c => sysAddrAccept s c.caller c.pid c.start c.len c.flags c.supply

/-- The calls of a history, in order. -/
abbrev AddrStep := Machine.Transition State AddrCall Event

/-- `p` makes an offer. -/
def OffersBy (p : ProcRef) (t : AddrStep) : Prop :=
  ∃ c, t.act = .offer c ∧ c.caller = p

/-- The call `c` accepts an offer of `p` for a range that is not empty, and returns `OK`. -/
structure AcceptsOf (p : ProcRef) (t : AddrStep) (c : AcceptCall) : Prop where
  act : t.act = .accept c
  pid : deref c.pid.toInt = .ok p
  len : 0 < c.len
  events : t.events = [.returned c.caller ok]

/-- Between two accepts of an offer of `p`, `p` has made another one.  This is what one might
expect of an offer. -/
def UsedOnce (tr : List AddrStep) : Prop :=
  ∀ p tr₁ t₁ tr₂ t₂ tr₃ c₁ c₂, tr = tr₁ ++ t₁ :: (tr₂ ++ t₂ :: tr₃) →
    AcceptsOf p t₁ c₁ → AcceptsOf p t₂ c₂ → ∃ t ∈ tr₂, OffersBy p t

/-- The transfer a call asks for. -/
def AcceptCall.transfer (c : AcceptCall) (s : State) (p : ProcRef) : Option Transfer :=
  acceptedTransfer s c.caller p c.start c.len c.flags

/-- The call `c₂` in `s₂` is for the same transfer on the side of `p` as `c₁` in `s₁`, and its
caller has the same pid.  On its own side it may name another address. -/
structure Repeats (p : ProcRef) (s₁ : State) (c₁ : AcceptCall) (s₂ : State) (c₂ : AcceptCall) :
    Prop where
  pid : (s₂.procs c₂.caller).pid = (s₁.procs c₁.caller).pid
  len : c₂.len = c₁.len
  flags : c₂.flags = c₁.flags
  range : ∃ t₁ t₂, c₁.transfer s₁ p = some t₁ ∧ c₂.transfer s₂ p = some t₂ ∧
    (t₁.giver = p ∧ t₂.giver = p ∧ t₂.vf = t₁.vf ∨ t₁.taker = p ∧ t₂.taker = p ∧ t₂.vt = t₁.vt)

/-! ## What the calls change -/

theorem sysAddrAccept_procs {s s' : State} {u : ProcRef} {pid start len flags : Word}
    {supply : List Word} {evs : List Event}
    (h : sysAddrAccept s u pid start len flags supply = .ok (s', evs)) : s'.procs = s.procs := by
  rcases hp : deref pid.toInt with _ | p
  · rw [sysAddrAccept, withProc_eq, hp] at h
    cases h
  · rw [sysAddrAccept_of_deref hp, acceptFrom] at h
    rcases ht : acceptedTransfer s u p start len flags with _ | t
    · simp only [ht] at h
      cases h
      rfl
    · simp only [ht] at h
      rcases hloop : acceptLoop (s.procs t.giver).space (s.procs t.taker).space t.vf t.vt len
        flags acceptFuel 0 s.mem supply with _ | ⟨r, m, supply'⟩
      · simp only [hloop] at h
        cases h
      · simp only [hloop] at h
        cases h
        rfl

/-- A call that returns `OK` has got through the checks. -/
theorem transfer_of_ok {s s' : State} {p : ProcRef} {c : AcceptCall}
    (hp : deref c.pid.toInt = .ok p)
    (h : addrStep s (.accept c) = .ok (s', [.returned c.caller ok])) :
    ∃ t, c.transfer s p = some t := by
  rw [addrStep, sysAddrAccept_of_deref hp] at h
  rcases ht : acceptedTransfer s c.caller p c.start c.len c.flags with _ | t
  · simp only [acceptFrom, ht] at h
    have hevs := (Prod.mk.inj (Except.ok.inj h)).2
    have hret := List.head_eq_of_cons_eq hevs
    have herr : err = ok := (Event.returned.inj hret).2
    exact absurd herr (by decide)
  · exact ⟨t, ht⟩

/-- **What a call leaves alone**: the offers of all processes but the one that makes one, and
everything that the checks of an accept compare them with. -/
theorem addrStep_frame {s s' : State} {a : AddrCall} {evs : List Event} {p : ProcRef}
    (h : addrStep s a = .ok (s', evs)) (hnot : ¬ OffersBy p ⟨s, a, evs, s'⟩) :
    (s'.procs p).addrOffer = (s.procs p).addrOffer := by
  cases a with
  | offer c =>
      rw [addrStep, offerStep_eq] at h
      cases h
      have hne : p ≠ c.caller := fun heq => hnot ⟨c, rfl, heq.symm⟩
      have hprocs : (s.modifyProc c.caller fun q => { q with addrOffer := c.offer }).procs p =
          s.procs p := State.modifyProc_procs_of_ne hne _
      exact congrArg Proc.addrOffer hprocs
  | accept c => rw [sysAddrAccept_procs h]

/-- The same over a run in which `p` makes no offer. -/
theorem addrRun_frame {s s' : State} {tr : List AddrStep} {p : ProcRef}
    (hrun : Machine.Run addrStep s tr s') (hnot : ∀ t ∈ tr, ¬ OffersBy p t) :
    (s'.procs p).addrOffer = (s.procs p).addrOffer := by
  refine Machine.Run.invariant (P := fun _ s' => (s'.procs p).addrOffer = (s.procs p).addrOffer)
    (C := fun t => ¬ OffersBy p t) rfl ?_ hrun hnot
  intro tr s₁ a s₂ evs _ hoffer hnot hstep
  exact (addrStep_frame hstep hnot).trans hoffer

/-! ## Two accepts -/

/-- Flags are given by the take bit and the others. -/
theorem eq_of_sshiftRight_eq {x y : Word} (hrest : x.sshiftRight 1 = y.sshiftRight 1)
    (htake : x &&& addrTake = 0 ↔ y &&& addrTake = 0) : x = y := by
  apply BitVec.eq_of_getLsbD_eq
  intro i hi
  rcases i with _ | i
  · have hbit : ∀ z : Word, z &&& addrTake = 0 ↔ z.getLsbD 0 = false := by
      intro z
      have htwo : addrTake = BitVec.twoPow 32 0 := rfl
      rw [htwo, BitVec.and_twoPow]
      split_ifs with hz
      · exact iff_of_false (by decide) (by rw [hz]; decide)
      · exact iff_of_true rfl (Bool.not_eq_true _ ▸ hz)
    rw [hbit, hbit] at htake
    exact Bool.eq_iff_iff.mpr (by simpa using not_congr htake)
  · have hbit := congrArg (fun z : Word => z.getLsbD i) hrest
    have hle : ¬ 32 ≤ i := by omega
    simpa [BitVec.getLsbD_sshiftRight, hle, hi, Nat.add_comm 1 i] using hbit

/-- Two transfers under one offer. -/
theorem repeats_of_offer {p : ProcRef} {s₁ s₂ : State} {c₁ c₂ : AcceptCall} {t₁ t₂ : Transfer}
    (hoffer : (s₂.procs p).addrOffer = (s₁.procs p).addrOffer)
    (h₁ : c₁.transfer s₁ p = some t₁) (h₂ : c₂.transfer s₂ p = some t₂) :
    Repeats p s₁ c₁ s₂ c₂ := by
  obtain ⟨hto₁, hlen₁, hflags₁, hdir₁⟩ := acceptedTransfer_eq_some h₁
  obtain ⟨hto₂, hlen₂, hflags₂, hdir₂⟩ := acceptedTransfer_eq_some h₂
  rw [hoffer] at hto₂ hlen₂ hflags₂ hdir₂
  have hrest : c₂.flags.sshiftRight 1 = c₁.flags.sshiftRight 1 := hflags₂.symm.trans hflags₁
  have hto : (s₂.procs c₂.caller).pid = (s₁.procs c₁.caller).pid := hto₂.symm.trans hto₁
  have hlen : c₂.len = c₁.len := hlen₂.symm.trans hlen₁
  rcases hdir₁ with ⟨htake₁, hoffered₁, rfl⟩ | ⟨htake₁, hoffered₁, rfl⟩ <;>
    rcases hdir₂ with ⟨htake₂, hoffered₂, rfl⟩ | ⟨htake₂, hoffered₂, rfl⟩
  · exact ⟨hto, hlen, eq_of_sshiftRight_eq hrest (iff_of_true htake₂ htake₁), _, _, h₁, h₂,
      .inr ⟨rfl, rfl, rfl⟩⟩
  · exact absurd hoffered₂ hoffered₁
  · exact absurd hoffered₁ hoffered₂
  · exact ⟨hto, hlen, eq_of_sshiftRight_eq hrest (iff_of_false htake₂ htake₁), _, _, h₁, h₂,
      .inl ⟨rfl, rfl, rfl⟩⟩

/-- **What an offer authorises**: between two accepts of an offer of `p`, `p` has made another
offer, or the second is for the same transfer as the first.  This holds of every history,
whatever is mapped.  An accept leaves the offer in place, so it stands for as many transfers
as are asked for, but never for another one. -/
theorem accept_repeats {s₀ s : State} {tr : List AddrStep} (hrun : Machine.Run addrStep s₀ tr s) :
    ∀ p tr₁ t₁ tr₂ t₂ tr₃ c₁ c₂, tr = tr₁ ++ t₁ :: (tr₂ ++ t₂ :: tr₃) →
      AcceptsOf p t₁ c₁ → AcceptsOf p t₂ c₂ →
        (∃ t ∈ tr₂, OffersBy p t) ∨ Repeats p t₁.pre c₁ t₂.pre c₂ := by
  intro p tr₁ t₁ tr₂ t₂ tr₃ c₁ c₂ htr h₁ h₂
  by_cases hoffers : ∃ t ∈ tr₂, OffersBy p t
  · exact .inl hoffers
  · push Not at hoffers
    obtain ⟨m, -, hrest⟩ := hrun.split htr
    obtain ⟨-, hstep₁, hafter⟩ := hrest.cons_inv
    obtain ⟨m', hbetween, hrest'⟩ := hafter.split rfl
    obtain ⟨hpre, hstep₂, -⟩ := hrest'.cons_inv
    have hnot : ¬ OffersBy p t₁ := by
      rintro ⟨c, hact, -⟩
      rw [h₁.act] at hact
      cases hact
    have hoffer₁ := addrStep_frame hstep₁ hnot
    have hoffer₂ := addrRun_frame hbetween hoffers
    rw [h₁.act, h₁.events] at hstep₁
    rw [h₂.act, h₂.events] at hstep₂
    obtain ⟨T₁, hT₁⟩ := transfer_of_ok h₁.pid hstep₁
    obtain ⟨T₂, hT₂⟩ := transfer_of_ok h₂.pid hstep₂
    rw [hpre] at hT₂ ⊢
    exact .inr (repeats_of_offer (hoffer₂.trans hoffer₁) hT₁ hT₂)

/-! ## An offer accepted again -/

/-- Process 1 offers its page to process 0, which takes it to `0x3000` and offers it back there;
process 1 takes it back, and process 0 takes it once more, to `0x4000`.  Every page given away
is one the giver has, and every table is there. -/
def offerTwice : List AddrCall :=
  [.offer ⟨1, 0, 0x1000, 0x1000, 6⟩, .accept ⟨0, 1, 0x3000, 0x1000, 7, []⟩,
    .offer ⟨0, 1, 0x3000, 0x1000, 6⟩, .accept ⟨1, 0, 0x1000, 0x1000, 7, []⟩,
    .accept ⟨0, 1, 0x4000, 0x1000, 7, []⟩]

theorem exists_offerTwice :
    ∃ t₀ t₁ tr t₂ s, Machine.Run addrStep (twoProcs (withTable givenMem 0xa000))
        ([t₀] ++ t₁ :: (tr ++ t₂ :: [])) s ∧
      AcceptsOf 1 t₁ ⟨0, 1, 0x3000, 0x1000, 7, []⟩ ∧
      AcceptsOf 1 t₂ ⟨0, 1, 0x4000, 0x1000, 7, []⟩ ∧ ∀ t ∈ tr, ¬ OffersBy 1 t := by
  have hcalls : (Machine.replay addrStep (twoProcs (withTable givenMem 0xa000)) offerTwice).map
      (fun out => out.1.map Machine.Transition.events) =
        .ok [[.returned 1 ok], [.returned 0 ok], [.returned 0 ok], [.returned 1 ok],
          [.returned 0 ok]] := by
    decide +kernel
  obtain ⟨tr, s, hrun, hacts, hevs⟩ := Machine.exists_of_replay hcalls
  obtain ⟨t₀, tr, rfl, -, htr⟩ := List.map_eq_cons_iff.mp hacts
  obtain ⟨t₁, tr, rfl, hact₁, htr⟩ := List.map_eq_cons_iff.mp htr
  obtain ⟨o, tr, rfl, hacto, htr⟩ := List.map_eq_cons_iff.mp htr
  obtain ⟨b, tr, rfl, hactb, htr⟩ := List.map_eq_cons_iff.mp htr
  obtain ⟨t₂, tr, rfl, hact₂, htr⟩ := List.map_eq_cons_iff.mp htr
  obtain rfl := List.map_eq_nil_iff.mp htr
  obtain ⟨-, hevs⟩ := List.cons.inj hevs
  obtain ⟨hevs₁, hevs⟩ := List.cons.inj hevs
  obtain ⟨-, hevs⟩ := List.cons.inj hevs
  obtain ⟨-, hevs⟩ := List.cons.inj hevs
  obtain ⟨hevs₂, -⟩ := List.cons.inj hevs
  refine ⟨t₀, t₁, [o, b], t₂, s, hrun, ⟨hact₁, rfl, by decide, hevs₁⟩,
    ⟨hact₂, rfl, by decide, hevs₂⟩, ?_⟩
  rintro t ht ⟨c, hact, hcaller⟩
  simp only [List.mem_cons, List.not_mem_nil, or_false] at ht
  rcases ht with rfl | rfl
  · -- the offer in between is one of process 0
    cases hacto.symm.trans hact
    exact absurd hcaller (by decide)
  · cases hactb.symm.trans hact

/-- The second accept is for what the first was for. -/
theorem second_accept_repeats :
    ∃ t₀ t₁ tr t₂ s, Machine.Run addrStep (twoProcs (withTable givenMem 0xa000))
        ([t₀] ++ t₁ :: (tr ++ t₂ :: [])) s ∧
      Repeats 1 t₁.pre ⟨0, 1, 0x3000, 0x1000, 7, []⟩ t₂.pre ⟨0, 1, 0x4000, 0x1000, 7, []⟩ := by
  obtain ⟨t₀, t₁, tr, t₂, s, hrun, h₁, h₂, hnone⟩ := exists_offerTwice
  have hrepeats := accept_repeats hrun 1 [t₀] t₁ tr t₂ [] _ _ rfl h₁ h₂
  refine ⟨t₀, t₁, tr, t₂, s, hrun, hrepeats.resolve_left ?_⟩
  rintro ⟨t, ht, hoffers⟩
  exact hnone t ht hoffers

/-- The offer is accepted twice. -/
theorem offer_accepted_again :
    ∃ tr s, Machine.Run addrStep (twoProcs (withTable givenMem 0xa000)) tr s ∧ ¬ UsedOnce tr := by
  obtain ⟨t₀, t₁, tr, t₂, s, hrun, h₁, h₂, hnone⟩ := exists_offerTwice
  refine ⟨_, s, hrun, fun honce => ?_⟩
  obtain ⟨t, ht, hoffers⟩ := honce 1 [t₀] t₁ tr t₂ [] _ _ rfl h₁ h₂
  exact hnone t ht hoffers

end Omb
