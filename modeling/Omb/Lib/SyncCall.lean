import Mathlib.Data.Set.Insert
import Mathlib.Data.List.Basic
import Mathlib.Logic.Function.Basic
import Mathlib.Logic.Relation

/-!
# Synchronous calls between parties

Parties that call each other by messages.  A party that sends is blocked until the one it sent
to has taken the message and replied to it; then it has the reply and goes on.  `Step` is one
step of such a system and `Runs` a sequence of steps, over any types of parties `ι`, messages
`μ` and results `ρ`.

There are no queues: a party that sends holds its message until it is taken, and a
configuration says of each party how far its call is (`Status`).  Who takes which message
first is left open, so that a system with queues, priorities or a scheduler of any kind can
refine this one.

The laws are conservation laws.  What is put into a configuration by a step, and what is taken
from it, differ by what it holds before and after, in order; and what is true of a step in
that way carries over to runs (`Runs.conserved`).  Messages, those who have taken them, and
replies are three instances.

## Main results

* `Runs.conserved`: what a quantity that moves in and out of a configuration step by step
  comes to over a run
* `Runs.messages`, `Runs.takers`, `Runs.replies`: no message and no reply is lost, repeated,
  reordered or altered, and who has taken a message replies to it
* `InTurn.awaiting_iff`: who awaits a reply of a server that serves in turn is the client it
  has in hand
* `Runs.through`: a client of one server comes back only with what that one replies
* `Stalled.of_cycle`, `Stalled.of_waits`, `Stalled.of_added`: a party that waits for ever, as
  its whole chain of waiting does, and what it takes for one to come about
-/

namespace SyncCall

variable {ι μ ρ : Type*}

/-- How far the call of a party is.  A party that is `absent` has not come into being, and one
that is `free` may do as it likes. -/
inductive Status (ι μ ρ : Type*) where
  | absent
  /-- Not in a call. -/
  | free
  /-- It has sent `m` to `b`. -/
  | sending (b : ι) (m : μ)
  /-- `b` has its message. -/
  | awaiting (b : ι)
  /-- It has been answered with `r` and `m`. -/
  | answered (r : ρ) (m : μ)

abbrev Config (ι μ ρ : Type*) := ι → Status ι μ ρ

inductive Label (ι μ ρ : Type*) where
  | join (a : ι)
  | send (a b : ι) (m : μ)
  | receive (b a : ι) (m : μ)
  | reply (b a : ι) (r : ρ) (m : μ)
  /-- The call of `a` comes back. -/
  | resume (a : ι) (r : ρ) (m : μ)

/-- Who receives or replies. -/
def Label.server : Label ι μ ρ → Option ι
  | .receive b _ _ | .reply b _ _ _ => some b
  | _ => none

section

variable [DecidableEq ι]

/-- One step.  Who acts is not blocked.  A message is sent to a party that is there, and taken
by that party; only who has taken it may reply, and only once. -/
inductive Step (c : Config ι μ ρ) : Label ι μ ρ → Config ι μ ρ → Prop
  | join {a : ι} : c a = .absent → Step c (.join a) (Function.update c a .free)
  | send {a b : ι} {m : μ} : c a = .free → c b ≠ .absent →
      Step c (.send a b m) (Function.update c a (.sending b m))
  | receive {b a : ι} {m : μ} : c b = .free → c a = .sending b m →
      Step c (.receive b a m) (Function.update c a (.awaiting b))
  | reply {b a : ι} {r : ρ} {m : μ} : c b = .free → c a = .awaiting b →
      Step c (.reply b a r m) (Function.update c a (.answered r m))
  | resume {a : ι} {r : ρ} {m : μ} : c a = .answered r m →
      Step c (.resume a r m) (Function.update c a .free)

/-- The steps `ls` lead from `c` to the last configuration. -/
inductive Runs (c : Config ι μ ρ) : List (Label ι μ ρ) → Config ι μ ρ → Prop
  | nil : Runs c [] c
  | snoc {ls : List (Label ι μ ρ)} {l : Label ι μ ρ} {d e : Config ι μ ρ} :
      Runs c ls d → Step d l e → Runs c (ls ++ [l]) e

namespace Runs

variable {c d e : Config ι μ ρ} {ls ls' : List (Label ι μ ρ)} {l : Label ι μ ρ}

theorem single (h : Step c l d) : Runs c [l] d :=
  .snoc .nil h

theorem trans (h : Runs c ls d) (h' : Runs d ls' e) : Runs c (ls ++ ls') e := by
  induction h' with
  | nil => rwa [List.append_nil]
  | snoc _ hs ih =>
      rw [← List.append_assoc]
      exact ih.snoc hs

/-! ## Conservation -/

/-- **What goes in comes out or is still there**, in order: a step law carries over to runs.
`held` is a list, so that order and number of what is held are both kept. -/
theorem conserved {β : Type*} {held : Config ι μ ρ → List β} {put got : Label ι μ ρ → List β}
    (hstep : ∀ c l d, Step c l d → held c ++ put l = got l ++ held d) (h : Runs c ls d) :
    held c ++ ls.flatMap put = ls.flatMap got ++ held d := by
  induction h with
  | nil => simp
  | @snoc ls l d e _ hs ih =>
      calc held c ++ (ls ++ [l]).flatMap put
          = (held c ++ ls.flatMap put) ++ put l := by simp
        _ = ls.flatMap got ++ (held d ++ put l) := by rw [ih, List.append_assoc]
        _ = (ls ++ [l]).flatMap got ++ held e := by rw [hstep d l e hs]; simp

end Runs

end

/-! ## What is under way -/

section

variable [DecidableEq ι]

/-- The message to `b` that has not been taken. -/
def Status.message (b : ι) : Status ι μ ρ → List μ
  | .sending b' m => if b' = b then [m] else []
  | _ => []

/-- Who has the message and has not replied. -/
def Status.taker : Status ι μ ρ → List ι
  | .awaiting b => [b]
  | _ => []

/-- The reply that has not been seen. -/
def Status.reply : Status ι μ ρ → List (ρ × μ)
  | .answered r m => [(r, m)]
  | _ => []

namespace Label

/-- What `a` sends to `b`. -/
def sentBy (a b : ι) : Label ι μ ρ → List μ
  | .send a' b' m => if a' = a ∧ b' = b then [m] else []
  | _ => []

/-- What `b` receives from `a`. -/
def receivedFrom (a b : ι) : Label ι μ ρ → List μ
  | .receive b' a' m => if a' = a ∧ b' = b then [m] else []
  | _ => []

/-- Who receives from `a`. -/
def takes (a : ι) : Label ι μ ρ → List ι
  | .receive b a' _ => if a' = a then [b] else []
  | _ => []

/-- Who replies to `a`. -/
def answers (a : ι) : Label ι μ ρ → List ι
  | .reply b a' _ _ => if a' = a then [b] else []
  | _ => []

/-- The reply `a` is given. -/
def repliedTo (a : ι) : Label ι μ ρ → List (ρ × μ)
  | .reply _ a' r m => if a' = a then [(r, m)] else []
  | _ => []

/-- The reply `a` comes back with. -/
def resumedBy (a : ι) : Label ι μ ρ → List (ρ × μ)
  | .resume a' r m => if a' = a then [(r, m)] else []
  | _ => []

end Label

variable {c d : Config ι μ ρ} {l : Label ι μ ρ} {ls : List (Label ι μ ρ)}

theorem Step.messages (h : Step c l d) (a b : ι) :
    (c a).message b ++ l.sentBy a b = l.receivedFrom a b ++ (d a).message b := by
  cases h with
  | @join x hc | @reply y x r m hy hc | @resume x r m hc =>
      rcases eq_or_ne a x with rfl | ha
      · simp [Status.message, Label.sentBy, Label.receivedFrom, hc]
      · simp [Label.sentBy, Label.receivedFrom, ha]
  | @send x y m hc hy =>
      rcases eq_or_ne a x with rfl | ha
      · simp [Status.message, Label.sentBy, Label.receivedFrom, hc]
      · simp [Label.sentBy, Label.receivedFrom, ha, ha.symm]
  | @receive y x m hy hc =>
      rcases eq_or_ne a x with rfl | ha
      · simp [Status.message, Label.sentBy, Label.receivedFrom, hc]
      · simp [Label.sentBy, Label.receivedFrom, ha, ha.symm]

theorem Step.takers (h : Step c l d) (a : ι) :
    (c a).taker ++ l.takes a = l.answers a ++ (d a).taker := by
  cases h with
  | @join x hc | @send x y m hc hy | @resume x r m hc =>
      rcases eq_or_ne a x with rfl | ha
      · simp [Status.taker, Label.takes, Label.answers, hc]
      · simp [Label.takes, Label.answers, ha]
  | @receive y x m hy hc | @reply y x r m hy hc =>
      rcases eq_or_ne a x with rfl | ha
      · simp [Status.taker, Label.takes, Label.answers, hc]
      · simp [Label.takes, Label.answers, ha, ha.symm]

theorem Step.replies (h : Step c l d) (a : ι) :
    (c a).reply ++ l.repliedTo a = l.resumedBy a ++ (d a).reply := by
  cases h with
  | @join x hc | @send x y m hc hy | @receive y x m hy hc =>
      rcases eq_or_ne a x with rfl | ha
      · simp [Status.reply, Label.repliedTo, Label.resumedBy, hc]
      · simp [Label.repliedTo, Label.resumedBy, ha]
  | @reply y x r m hy hc | @resume x r m hc =>
      rcases eq_or_ne a x with rfl | ha
      · simp [Status.reply, Label.repliedTo, Label.resumedBy, hc]
      · simp [Label.repliedTo, Label.resumedBy, ha, ha.symm]

/-- The messages from `a` to `b`: what has been sent, in order, is what has been received and
then what is still under way, which is one message at most. -/
theorem Runs.messages (h : Runs c ls d) (a b : ι) :
    (c a).message b ++ ls.flatMap (Label.sentBy a b) =
      ls.flatMap (Label.receivedFrom a b) ++ (d a).message b :=
  h.conserved fun _ _ _ hs => hs.messages a b

/-- Who receives from `a` replies to it, but for the one that has not done so yet. -/
theorem Runs.takers (h : Runs c ls d) (a : ι) :
    (c a).taker ++ ls.flatMap (Label.takes a) = ls.flatMap (Label.answers a) ++ (d a).taker :=
  h.conserved fun _ _ _ hs => hs.takers a

/-- The replies to `a`: what it is given is what it comes back with, and then what it has not
seen yet. -/
theorem Runs.replies (h : Runs c ls d) (a : ι) :
    (c a).reply ++ ls.flatMap (Label.repliedTo a) =
      ls.flatMap (Label.resumedBy a) ++ (d a).reply :=
  h.conserved fun _ _ _ hs => hs.replies a

end

/-! ## A server that serves in turn -/

section

variable [DecidableEq ι] {A : ι → μ → ρ → Prop} {b : ι} {c d : Config ι μ ρ}
  {ls : List (Label ι μ ρ)} {o : Option (ι × μ)}

/-- What `b` does as a server: it receives a call and replies to it, one after the other, with
an answer that `A` allows.  The call it has in hand is at the end.  Nothing is said of when it
does so. -/
inductive InTurn (A : ι → μ → ρ → Prop) (b : ι) :
    List (Label ι μ ρ) → Option (ι × μ) → Prop
  | nil : InTurn A b [] none
  | receive {ls : List (Label ι μ ρ)} (a : ι) (m : μ) :
      InTurn A b ls none → InTurn A b (ls ++ [.receive b a m]) (some (a, m))
  | reply {ls : List (Label ι μ ρ)} {a : ι} {m : μ} {r : ρ} (m' : μ) :
      InTurn A b ls (some (a, m)) → A a m r → InTurn A b (ls ++ [.reply b a r m']) none

/-- In turn, `b` has replied to `a` as often as it has received from it, but for the call it
has in hand. -/
theorem InTurn.count (h : InTurn A b ls o) (a : ι) :
    (ls.flatMap (Label.takes a)).count b =
      (ls.flatMap (Label.answers a)).count b + if o.map Prod.fst = some a then 1 else 0 := by
  induction h with
  | nil => simp
  | receive x m _ ih =>
      rcases eq_or_ne x a with rfl | hx
      · simpa [Label.takes, Label.answers] using ih
      · simpa [Label.takes, Label.answers, hx] using ih
  | @reply ls x m r m' _ _ ih =>
      rcases eq_or_ne x a with rfl | hx
      · simpa [Label.takes, Label.answers] using ih
      · simpa [Label.takes, Label.answers, hx] using ih

/-- Labels of other servers do not count. -/
theorem count_flatMap_filter {f : Label ι μ ρ → List ι} (hf : ∀ l, b ∈ f l → l.server = some b)
    (ls : List (Label ι μ ρ)) :
    (ls.flatMap f).count b = ((ls.filter fun l => l.server = some b).flatMap f).count b := by
  induction ls with
  | nil => rfl
  | cons l ls ih =>
      rw [List.flatMap_cons, List.count_append, ih, List.filter_cons]
      split_ifs with hl
      · rw [List.flatMap_cons, List.count_append]
      · have hnot : b ∉ f l := fun hb => hl (decide_eq_true (hf l hb))
        rw [List.count_eq_zero_of_not_mem hnot, Nat.zero_add]

theorem Label.server_of_takes {a : ι} {l : Label ι μ ρ} (h : b ∈ l.takes a) :
    l.server = some b := by
  cases l with
  | receive x y m =>
      rw [takes] at h
      split_ifs at h <;> simp_all [server]
  | _ => cases h

theorem Label.server_of_answers {a : ι} {l : Label ι μ ρ} (h : b ∈ l.answers a) :
    l.server = some b := by
  cases l with
  | reply x y r m =>
      rw [answers] at h
      split_ifs at h <;> simp_all [server]
  | _ => cases h

/-- **Who awaits a reply of `b` is the client whose call it has in hand**, and nobody else.
By `Runs.takers` each client has one taker at most, and in turn `b` has replied to everybody
else. -/
theorem InTurn.awaiting_iff (hturn : InTurn A b (ls.filter fun l => l.server = some b) o)
    (hc : ∀ a, (c a).taker = []) (h : Runs c ls d) (a : ι) :
    d a = .awaiting b ↔ o.map Prod.fst = some a := by
  have htakers := congrArg (List.count b) (h.takers a)
  rw [hc, List.nil_append, List.count_append,
    count_flatMap_filter (fun _ => Label.server_of_takes) ls, hturn.count,
    ← count_flatMap_filter (fun _ => Label.server_of_answers) ls,
    Nat.add_left_cancel_iff] at htakers
  split_ifs at htakers with ho
  · refine iff_of_true ?_ ho
    cases hd : d a with
    | awaiting x =>
        rw [hd] at htakers
        have hx : x = b := by
          by_contra hne
          simp [Status.taker, hne] at htakers
        rw [hx]
    | _ => rw [hd] at htakers; cases htakers
  · refine iff_of_false (fun hd => ?_) ho
    rw [hd] at htakers
    simp [Status.taker] at htakers

end

/-! ## A client of one server -/

/-- If there is a call, it is to `b`, and if there is an answer, it is one that `A` allows. -/
def Status.Through (b : ι) (A : ρ → Prop) : Status ι μ ρ → Prop
  | .sending b' _ | .awaiting b' => b' = b
  | .answered r _ => A r
  | _ => True

section

variable [DecidableEq ι] {A : ρ → Prop} {a b : ι} {c d : Config ι μ ρ} {l : Label ι μ ρ}
  {ls : List (Label ι μ ρ)}

theorem Step.through (h : Step c l d) (hc : (c a).Through b A)
    (hsend : ∀ b' m, l = .send a b' m → b' = b) (hreply : ∀ a' r m, l = .reply b a' r m → A r) :
    (d a).Through b A ∧ ∀ r m, l = .resume a r m → A r := by
  cases h with
  | @join x hx =>
      refine ⟨?_, fun r m hl => by cases hl⟩
      rcases eq_or_ne a x with rfl | hne
      · rw [Function.update_self]
        trivial
      · rwa [Function.update_of_ne hne]
  | @send x y m hx hy =>
      refine ⟨?_, fun r m hl => by cases hl⟩
      rcases eq_or_ne a x with rfl | hne
      · rw [Function.update_self]
        exact hsend y m rfl
      · rwa [Function.update_of_ne hne]
  | @receive y x m hy hx =>
      refine ⟨?_, fun r m hl => by cases hl⟩
      rcases eq_or_ne a x with rfl | hne
      · rw [hx] at hc
        rw [Function.update_self]
        exact hc
      · rwa [Function.update_of_ne hne]
  | @reply y x r m hy hx =>
      refine ⟨?_, fun r m hl => by cases hl⟩
      rcases eq_or_ne a x with rfl | hne
      · rw [hx] at hc
        obtain rfl : y = b := hc
        rw [Function.update_self]
        exact hreply a r m rfl
      · rwa [Function.update_of_ne hne]
  | @resume x r m hx =>
      rcases eq_or_ne a x with rfl | hne
      · rw [hx] at hc
        rw [Function.update_self]
        refine ⟨trivial, fun r' m' hl => ?_⟩
        cases hl
        exact hc
      · rw [Function.update_of_ne hne]
        refine ⟨hc, fun r' m' hl => ?_⟩
        cases hl
        exact absurd rfl hne

/-- **Who calls `b` only comes back with the answers of `b`.** -/
theorem Runs.through (h : Runs c ls d) (hc : (c a).Through b A)
    (hsend : ∀ b' m, .send a b' m ∈ ls → b' = b) (hreply : ∀ a' r m, .reply b a' r m ∈ ls → A r) :
    (d a).Through b A ∧ ∀ r m, .resume a r m ∈ ls → A r := by
  induction h with
  | nil => exact ⟨hc, fun r m hmem => absurd hmem List.not_mem_nil⟩
  | @snoc ls l d e hrun hstep ih =>
      have hinit : ∀ {l'}, l' ∈ ls → l' ∈ ls ++ [l] := List.mem_append_left _
      have hlast : ∀ {l'}, l = l' → l' ∈ ls ++ [l] := fun heq => by simp [heq]
      obtain ⟨hd, hbefore⟩ :=
        ih (fun b' m hmem => hsend b' m (hinit hmem)) fun a' r m hmem => hreply a' r m (hinit hmem)
      obtain ⟨he, hnow⟩ := hstep.through hd (fun b' m heq => hsend b' m (hlast heq))
        fun a' r m heq => hreply a' r m (hlast heq)
      refine ⟨he, fun r m hmem => ?_⟩
      rcases List.mem_append.mp hmem with hmem | hmem
      · exact hbefore r m hmem
      · exact hnow r m (List.mem_singleton.mp hmem).symm

omit [DecidableEq ι] in
/-- A server that serves in turn gives answers that are allowed. -/
theorem InTurn.reply_mem {A : ι → μ → ρ → Prop} {o : Option (ι × μ)} {r : ρ} {m' : μ}
    (h : InTurn A b ls o) (hmem : .reply b a r m' ∈ ls) : ∃ m, A a m r := by
  induction h with
  | nil => exact absurd hmem List.not_mem_nil
  | receive x m _ ih =>
      rcases List.mem_append.mp hmem with hmem | hmem
      · exact ih hmem
      · cases List.mem_singleton.mp hmem
  | reply y _ hA ih =>
      rcases List.mem_append.mp hmem with hmem | hmem
      · exact ih hmem
      · cases List.mem_singleton.mp hmem
        exact ⟨_, hA⟩

end

/-! ## Chains of waiting -/

section

variable {R R' : ι → ι → Prop} {a b : ι}

/-- `a` waits for a party that waits for a party, and so on for ever: it is in a set every
member of which waits for a member.  The set need not be finite, nor a cycle. -/
def Stalled (R : ι → ι → Prop) (a : ι) : Prop :=
  ∃ D : Set ι, a ∈ D ∧ ∀ x ∈ D, ∃ y ∈ D, R x y

theorem Stalled.waits (h : Stalled R a) : ∃ b, R a b ∧ Stalled R b := by
  obtain ⟨D, ha, hD⟩ := h
  obtain ⟨b, hb, hab⟩ := hD a ha
  exact ⟨b, hab, D, hb, hD⟩

/-- Who waits for a stalled party is stalled. -/
theorem Stalled.of_waits (hab : R a b) (h : Stalled R b) : Stalled R a := by
  obtain ⟨D, hb, hD⟩ := h
  refine ⟨insert a D, Set.mem_insert a D, fun x hx => ?_⟩
  rcases Set.mem_insert_iff.mp hx with rfl | hx
  · exact ⟨b, Set.mem_insert_of_mem _ hb, hab⟩
  · obtain ⟨y, hy, hxy⟩ := hD x hx
    exact ⟨y, Set.mem_insert_of_mem _ hy, hxy⟩

/-- Who leads to a stalled party by waiting is stalled. -/
theorem Stalled.of_chain (hab : Relation.ReflTransGen R a b) (h : Stalled R b) : Stalled R a := by
  induction hab using Relation.ReflTransGen.head_induction_on with
  | refl => exact h
  | head hac _ ih => exact ih.of_waits hac

/-- A party that leads back to itself is stalled. -/
theorem Stalled.of_cycle (hab : R a b) (hba : Relation.ReflTransGen R b a) : Stalled R a := by
  refine ⟨{ x | Relation.ReflTransGen R x a }, .refl, fun x hx => ?_⟩
  rcases hx.cases_head with rfl | ⟨y, hxy, hya⟩
  · exact ⟨b, hba, hab⟩
  · exact ⟨y, hya, hxy⟩

/-- A party stays stalled while those who wait for a waiting party go on doing so. -/
theorem Stalled.mono (hkept : ∀ a b c, R a b → R b c → R' a b) (h : Stalled R a) :
    Stalled R' a := by
  obtain ⟨D, ha, hD⟩ := h
  refine ⟨D, ha, fun x hx => ?_⟩
  obtain ⟨y, hy, hxy⟩ := hD x hx
  obtain ⟨z, -, hyz⟩ := hD y hy
  exact ⟨y, hy, hkept x y z hxy hyz⟩

/-- When `u`, which waited for nobody, comes to wait for `p`, and nobody else for anybody new,
a party is stalled by it that leads to `u`, where `p` is stalled or leads to `u`.  The second
case closes a cycle. -/
theorem Stalled.of_added {u p : ι} (hfree : ∀ y, ¬ R u y)
    (hold : ∀ x y, R' x y → x = u ∧ y = p ∨ R x y) (h : Stalled R' a) : Stalled R a ∨
      Relation.ReflTransGen R a u ∧ (Stalled R p ∨ Relation.ReflTransGen R p u) := by
  obtain ⟨D, ha, hD⟩ := h
  -- in `D` the chain of a party that does not lead to `u` never ends
  have hchain : ∀ b ∈ D, ¬ Relation.ReflTransGen R b u → Stalled R b := by
    intro b hb hbu
    refine ⟨{ x | x ∈ D ∧ Relation.ReflTransGen R b x }, ⟨hb, .refl⟩, ?_⟩
    rintro x ⟨hx, hbx⟩
    obtain ⟨y, hy, hxy⟩ := hD x hx
    rcases hold x y hxy with ⟨rfl, -⟩ | hR
    · exact absurd hbx hbu
    · exact ⟨y, ⟨hy, hbx.tail hR⟩, hR⟩
  by_cases hau : Relation.ReflTransGen R a u
  · by_cases hu : u ∈ D
    · -- what `u` waits for in `D` is `p`
      obtain ⟨y, hy, huy⟩ := hD u hu
      rcases hold u y huy with ⟨-, rfl⟩ | hR
      · by_cases hpu : Relation.ReflTransGen R y u
        · exact .inr ⟨hau, .inr hpu⟩
        · exact .inr ⟨hau, .inl (hchain y hy hpu)⟩
      · exact absurd hR (hfree y)
    · refine .inl ⟨D, ha, fun x hx => ?_⟩
      obtain ⟨y, hy, hxy⟩ := hD x hx
      rcases hold x y hxy with ⟨rfl, -⟩ | hR
      · exact absurd hx hu
      · exact ⟨y, hy, hR⟩
  · exact .inl (hchain a ha hau)

end

end SyncCall
