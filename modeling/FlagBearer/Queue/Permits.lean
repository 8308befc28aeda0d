import FlagBearer.Queue.Life
import FlagBearer.Core.Counter
import Mathlib.Algebra.Order.Group.Multiset

/-!
# Permits Are Accounted For Exactly Once

A permit returned by `S::acquire` is stored in a node, then claimed by a poll or released by
a drop; what a poll or `try_acquire` returns is owned by a guard, which gives it up once.

Every place and every event that a permit can pass is a multiset of permits for each request.
Two conservation laws relate them, and every move preserves both, panics included.

## Main results

- `Ledger.move`: every move preserves the laws
- `permits_accounted`: the statement about runs
-/

namespace FlagBearer

open PinList

variable {ι κ W S O : Type} [DecidableEq ι] [SemaphoreState S] {C : Closeability} {own : Option ι}

/-! ## The history of permits -/

/-- What happens to permits. -/
inductive Mark where
  /-- `S::acquire` returned it -/
  | granted
  /-- `poll` or `try_acquire` returned it -/
  | delivered
  /-- it was passed to `S::release` -/
  | released (who : Releaser)
  /-- the user made a guard for it out of thin air -/
  | conjured
  /-- `Permit::take` extracted it from its guard -/
  | taken
  deriving DecidableEq

/-- The permit of request `i` that an event marks. -/
def Event.marked? (m : Mark) (i : ι) : Event ι κ W S → Option (Permit S)
  | .acquired j _ (.returned (.ok r)) => if m = .granted ∧ j = i then some r else none
  | .polled j _ (.returned (.ready (.ok r))) => if m = .delivered ∧ j = i then some r else none
  | .tried j _ (.returned (.ok r)) => if m = .delivered ∧ j = i then some r else none
  | .released who j r _ => if m = .released who ∧ j = i then some r else none
  | .conjured j r => if m = .conjured ∧ j = i then some r else none
  | .taken j r => if m = .taken ∧ j = i then some r else none
  | _ => none

/-- The permits of request `i` with this mark in a log. -/
def record (m : Mark) (i : ι) (log : List (Event ι κ W S)) : Multiset (Permit S) :=
  ↑(log.filterMap (Event.marked? m i))

@[simp] theorem record_nil (m : Mark) (i : ι) : record m i ([] : List (Event ι κ W S)) = 0 := rfl

@[simp] theorem record_append (m : Mark) (i : ι) (log log' : List (Event ι κ W S)) :
    record m i (log ++ log') = record m i log + record m i log' := by
  simp [record, List.filterMap_append]

theorem record_cons (m : Mark) (i : ι) (e : Event ι κ W S) (log : List (Event ι κ W S)) :
    record m i (e :: log) = ↑(e.marked? m i).toList + record m i log := by
  unfold record
  cases h : e.marked? m i <;> simp [h]

/-! ## Where permits are -/

/-- The permit in a node, granted but not claimed. -/
def Slot.stored : Slot S → Multiset (Permit S)
  | .live ⟨.removed (.ok r), _⟩ => {r}
  | _ => 0

/-- The permit stored for `i`. -/
def World.stored (w : World ι κ W S O) (i : ι) : Multiset (Permit S) := (w.slots i).stored

/-- The permit that the guard of `i` owns. -/
def World.owned (w : World ι κ W S O) (i : ι) : Multiset (Permit S) := ↑(w.permits i).toList

/-- A permit of `i` that the running section has taken out of a node or was just granted. -/
def Hand.carried (i : ι) : Hand ι S → Multiset (Permit S)
  | .permit j r => if j = i then {r} else 0
  | .releasing .unclaimed j r => if j = i then {r} else 0
  | _ => 0

/-- A permit of `i` that the running section has taken out of a guard. -/
def Hand.surrendered (i : ι) : Hand ι S → Multiset (Permit S)
  | .releasing .guard j r => if j = i then {r} else 0
  | _ => 0

@[simp] theorem Hand.carried_empty (i : ι) : (Hand.empty : Hand ι S).carried i = 0 := rfl

@[simp] theorem Hand.surrendered_empty (i : ι) : (Hand.empty : Hand ι S).surrendered i = 0 := rfl

@[simp] theorem Hand.carried_ofParams (i j : ι) (params : Option (Params S)) :
    (Hand.ofParams j params).carried i = 0 := by
  cases params <;> rfl

@[simp] theorem Hand.surrendered_ofParams (i j : ι) (params : Option (Params S)) :
    (Hand.ofParams j params).surrendered i = 0 := by
  cases params <;> rfl

/-- The permits of `i` that have not been delivered or released unclaimed. -/
def Conf.inside (i : ι) (c : Conf ι κ W S O) : Multiset (Permit S) :=
  c.1.stored i + c.2.carried i

/-- The permits of `i` that are owned by a guard or leave it. -/
def Conf.outside (i : ι) (c : Conf ι κ W S O) : Multiset (Permit S) :=
  c.1.owned i + c.2.surrendered i

/-! ## The two laws -/

/-- What was granted to `i` is stored, on its way, delivered or released unclaimed; what was
delivered to `i` or conjured is owned by a guard, on its way, released or taken. -/
structure Ledger (i : ι) (c : Conf ι κ W S O) : Prop where
  once : (record .granted i c.1.log + record .conjured i c.1.log).card ≤ 1
  undecided : ¬ Decided i c → record .granted i c.1.log + record .conjured i c.1.log = 0
  places : record .granted i c.1.log =
    c.inside i + record .delivered i c.1.log + record (.released .unclaimed) i c.1.log
  guards : record .delivered i c.1.log + record .conjured i c.1.log =
    c.outside i + record (.released .guard) i c.1.log + record .taken i c.1.log

/-! ## Every move preserves the laws -/

/-- Replacing the slot of `j` by one with the same permit in it. -/
theorem World.stored_update {w w' : World ι κ W S O} (i : ι) {j : ι} {x : Slot S}
    (hslots : w'.slots = Function.update w.slots j x) (hx : x.stored = (w.slots j).stored) :
    w'.stored i = w.stored i := by
  unfold World.stored
  by_cases hij : i = j
  · subst hij
    simp [hslots, hx]
  · simp [hslots, hij]

/-- A move that grants, delivers and gives up nothing: permits of `i` at most change hands. -/
theorem Ledger.frame {c d : Conf ι κ W S O} {i : ι} (hc : Ledger i c)
    (hdecided : Decided i c → Decided i d) (hlog : ∀ m, record m i d.1.log = record m i c.1.log)
    (hinside : d.inside i = c.inside i) (houtside : d.outside i = c.outside i) :
    Ledger i d := by
  constructor
  case once =>
    rw [hlog, hlog]
    exact hc.once
  case undecided =>
    intro hd
    rw [hlog, hlog]
    exact hc.undecided fun h => hd (hdecided h)
  case places =>
    simp only [hlog, hinside]
    exact hc.places
  case guards =>
    simp only [hlog, houtside]
    exact hc.guards

/-- The first grant of a request. -/
theorem Ledger.grant {c d : Conf ι κ W S O} {i : ι} {r : Permit S} (hc : Ledger i c)
    (hnot : ¬ Decided i c) (hd : Decided i d)
    (hgranted : record .granted i d.1.log = record .granted i c.1.log + {r})
    (hlog : ∀ m, m ≠ .granted → record m i d.1.log = record m i c.1.log)
    (hinside : d.inside i = c.inside i + {r}) (houtside : d.outside i = c.outside i) :
    Ledger i d := by
  have hnone := hc.undecided hnot
  have hconjured := hlog .conjured (by decide)
  refine ⟨?_, fun h => absurd hd h, ?_, ?_⟩
  · -- nothing had been granted or conjured before
    have hsum : record .granted i d.1.log + record .conjured i d.1.log = {r} := by
      rw [hgranted, hconjured, add_right_comm, hnone, zero_add]
    rw [hsum, Multiset.card_singleton]
  · rw [hgranted, hlog _ (by decide), hlog _ (by decide), hinside, hc.places]
    ac_rfl
  · rw [hconjured, hlog _ (by decide), hlog _ (by decide), hlog _ (by decide), houtside]
    exact hc.guards

/-- A permit that is made out of thin air, for an unused name. -/
theorem Ledger.conjure {c d : Conf ι κ W S O} {i : ι} {r : Permit S} (hc : Ledger i c)
    (hnot : ¬ Decided i c) (hd : Decided i d)
    (hconjured : record .conjured i d.1.log = record .conjured i c.1.log + {r})
    (hlog : ∀ m, m ≠ .conjured → record m i d.1.log = record m i c.1.log)
    (hinside : d.inside i = c.inside i) (houtside : d.outside i = c.outside i + {r}) :
    Ledger i d := by
  have hnone := hc.undecided hnot
  have hgranted := hlog .granted (by decide)
  refine ⟨?_, fun h => absurd hd h, ?_, ?_⟩
  · have hsum : record .granted i d.1.log + record .conjured i d.1.log = {r} := by
      rw [hgranted, hconjured, ← add_assoc, hnone, zero_add]
    rw [hsum, Multiset.card_singleton]
  · rw [hgranted, hlog _ (by decide), hlog _ (by decide), hinside]
    exact hc.places
  · rw [hconjured, hlog _ (by decide), hlog _ (by decide), hlog _ (by decide), houtside,
      ← add_assoc, hc.guards]
    ac_rfl

/-- A delivery: the permit leaves the section for a guard. -/
theorem Ledger.deliver {c d : Conf ι κ W S O} {i : ι} {r : Permit S} (hc : Ledger i c)
    (hdecided : Decided i c → Decided i d)
    (hdelivered : record .delivered i d.1.log = record .delivered i c.1.log + {r})
    (hlog : ∀ m, m ≠ .delivered → record m i d.1.log = record m i c.1.log)
    (hinside : c.inside i = d.inside i + {r}) (houtside : d.outside i = c.outside i + {r}) :
    Ledger i d := by
  have hgranted := hlog .granted (by decide)
  have hconjured := hlog .conjured (by decide)
  constructor
  case once =>
    rw [hgranted, hconjured]
    exact hc.once
  case undecided =>
    intro hd
    rw [hgranted, hconjured]
    exact hc.undecided fun h => hd (hdecided h)
  case places =>
    rw [hgranted, hdelivered, hlog _ (by decide), hc.places, hinside]
    ac_rfl
  case guards =>
    rw [hdelivered, hconjured, hlog _ (by decide), hlog _ (by decide), houtside, add_right_comm,
      hc.guards]
    ac_rfl

/-- A permit is given up by the section or by its guard. -/
theorem Ledger.giveUp {c d : Conf ι κ W S O} {i : ι} {r : Permit S} {m : Mark}
    (hc : Ledger i c) (hdecided : Decided i c → Decided i d)
    (hm : m = .released .unclaimed ∨ m = .released .guard ∨ m = .taken)
    (hgone : record m i d.1.log = record m i c.1.log + {r})
    (hlog : ∀ m', m' ≠ m → record m' i d.1.log = record m' i c.1.log)
    (hinside : c.inside i = d.inside i + if m = .released .unclaimed then {r} else 0)
    (houtside : c.outside i = d.outside i + if m = .released .unclaimed then 0 else {r}) :
    Ledger i d := by
  have hgranted := hlog .granted (by rcases hm with rfl | rfl | rfl <;> decide)
  have hconjured := hlog .conjured (by rcases hm with rfl | rfl | rfl <;> decide)
  have hdelivered := hlog .delivered (by rcases hm with rfl | rfl | rfl <;> decide)
  -- the permit leaves the place that its mark tells, in one of the two laws
  have hplaces := hc.places
  have hguards := hc.guards
  rw [hinside] at hplaces
  rw [houtside] at hguards
  constructor
  case once =>
    rw [hgranted, hconjured]
    exact hc.once
  case undecided =>
    intro hd
    rw [hgranted, hconjured]
    exact hc.undecided fun h => hd (hdecided h)
  case places =>
    rw [hgranted, hdelivered, hplaces]
    rcases hm with rfl | rfl | rfl
    · rw [hgone, if_pos rfl]
      ac_rfl
    · rw [hlog _ (by decide), if_neg (by decide), add_zero]
    · rw [hlog _ (by decide), if_neg (by decide), add_zero]
  case guards =>
    rw [hdelivered, hconjured, hguards]
    rcases hm with rfl | rfl | rfl
    · rw [hlog _ (by decide), hlog _ (by decide), if_pos rfl, add_zero]
    · rw [hgone, hlog _ (by decide), if_neg (by decide)]
      ac_rfl
    · rw [hgone, hlog _ (by decide), if_neg (by decide)]
      ac_rfl

omit [DecidableEq ι] in
theorem World.owned_eq_zero {w : World ι κ W S O} {i : ι} :
    w.owned i = 0 ↔ w.permits i = none := by
  unfold World.owned
  cases w.permits i <;> simp

/-- What was neither granted nor conjured has no guard. -/
theorem Ledger.owned_of_nothing {c : Conf ι κ W S O} {i : ι} (hc : Ledger i c)
    (h : record .granted i c.1.log + record .conjured i c.1.log = 0) : c.1.permits i = none := by
  have hcard := congrArg Multiset.card h
  have hplaces := congrArg Multiset.card hc.places
  have hguards := congrArg Multiset.card hc.guards
  simp only [Conf.outside, Multiset.card_add, Multiset.card_zero] at hcard hplaces hguards
  exact World.owned_eq_zero.mp (Multiset.card_eq_zero.mp (by omega))

/-- A permit on its way to the caller has no guard yet. -/
theorem Ledger.owned_of_carried {c : Conf ι κ W S O} {i : ι} {r : Permit S} (hc : Ledger i c)
    (h : c.2.carried i = {r}) : c.1.permits i = none := by
  have honce := hc.once
  have hplaces := congrArg Multiset.card hc.places
  have hguards := congrArg Multiset.card hc.guards
  simp only [Conf.inside, Conf.outside, h, Multiset.card_add, Multiset.card_singleton] at *
  exact World.owned_eq_zero.mp (Multiset.card_eq_zero.mp (by omega))

/-- The section hands its permit to a new guard and reports it in one event. -/
theorem Ledger.deliver_event {w : World ι κ W S O} {i j : ι} {r : Permit S}
    {e : Event ι κ W S} (hc : Ledger i (w, .permit j r))
    (hdecided : Decided i (w, .permit j r) →
      Decided i ((w.setPermit j (some r)).emit e, (.empty : Hand ι S)))
    (he : ∀ m, e.marked? m i = if m = .delivered ∧ j = i then some r else none) :
    Ledger i ((w.setPermit j (some r)).emit e, .empty) := by
  by_cases hij : j = i
  · -- until now the section held it, so there is no guard to overwrite
    subst hij
    have hcarried : (Hand.permit j r : Hand ι S).carried j = {r} := by simp [Hand.carried]
    have howned : w.permits j = none := hc.owned_of_carried hcarried
    refine hc.deliver (r := r) hdecided ?_ ?_ ?_ ?_
    · simp [record_cons, he]
    · intro m hm
      simp [record_cons, he, hm]
    · simp [Conf.inside, World.stored, Hand.carried]
    · simp [Conf.outside, howned, World.owned, Hand.surrendered]
  · refine hc.frame hdecided (by simp [record_cons, he, hij]) ?_ ?_
    · simp [Conf.inside, World.stored, Hand.carried, hij]
    · simp [Conf.outside, World.owned, Hand.surrendered, Ne.symm hij]

theorem Ledger.move [DecidableEq κ] [Order O]
    {c d : Conf ι κ W S O} {i : ι} (hc : Ledger i c) (hcon : Consistent c)
    (h : Move C own c d) : Ledger i d := by
  have hdecided : Decided i c → Decided i d := fun hd => hd.move h
  -- a section that touches the slot of `j` keeps what is inside, if no permit is in the slot
  have inside {w w' : World ι κ W S O} {h h' : Hand ι S} {j : ι} {x : Slot S}
      (hslots : w'.slots = Function.update w.slots j x) (hx : x.stored = (w.slots j).stored)
      (hh : h'.carried i = h.carried i) : Conf.inside i (w', h') = Conf.inside i (w, h) := by
    unfold Conf.inside
    rw [World.stored_update i hslots hx, hh]
  cases h with
  -- no permit is concerned
  | note w h e he | reject w j p front e he | giveBack w j p e he =>
    cases he <;> exact hc.frame hdecided (by simp [record_cons, Event.marked?]) rfl rfl
  -- a slot changes that stores no permit before or after
  | create w j p hj =>
    exact hc.frame hdecided (by simp [record_cons, Event.marked?])
      (inside rfl (by simp [hj, Slot.stored]) rfl) rfl
  | ask w j p hj =>
    exact hc.frame hdecided (fun _ => rfl) (inside rfl (by simp [hj, Slot.stored]) rfl) rfl
  | askTry w j p hj =>
    exact hc.frame hdecided (fun _ => rfl) (inside rfl (by simp [hj, Slot.stored]) rfl) rfl
  | link w j p cx front queue hopen hq hj =>
    exact hc.frame hdecided (by simp [record_cons, Event.marked?])
      (inside rfl (by simp [hj, Slot.stored]) rfl) rfl
  | expel w h k j params x rest c wakes hclosed hq hj =>
    exact hc.frame hdecided (by simp [record_cons, Event.marked?])
      (inside rfl (by simp [hj, Slot.stored]) rfl) rfl
  | unlinkSelf w j params x before after hclosing hq hj =>
    exact hc.frame hdecided (by simp [record_cons, Event.marked?])
      (inside rfl (by simp [hj, Slot.stored]) (Hand.carried_ofParams i j params))
      (by simp [Conf.outside, World.owned])
  | claimError w j params hj =>
    exact hc.frame hdecided (by simp [record_cons, Event.marked?])
      (inside rfl (by simp [hj, Slot.stored]) (Hand.carried_ofParams i j params))
      (by simp [Conf.outside, World.owned])
  | cancelInitial w j params hj =>
    exact hc.frame hdecided (by simp [record_cons, Event.marked?])
      (inside rfl (by simp [hj, Slot.stored]) rfl) rfl
  | cancelLinked w k j params x before after c hq hj =>
    exact hc.frame hdecided (by simp [record_cons, Event.marked?])
      (inside rfl (by simp [hj, Slot.stored]) rfl) rfl
  | cancelRefused w k j params c hj =>
    exact hc.frame hdecided (by simp [record_cons, Event.marked?])
      (inside rfl (by simp [hj, Slot.stored]) rfl) rfl
  -- `S::acquire` returns a permit, on arrival or in the drain
  | grantNow w j p r front state hopen hlead hacq =>
    by_cases hij : j = i
    · subst hij
      refine hc.grant (r := r) (not_decided_of_asks hcon rfl) (Or.inl ⟨hcon j rfl, id⟩) ?_ ?_ ?_ rfl
      · simp [record_cons, Event.marked?]
      · intro m hm
        simp [record_cons, Event.marked?, hm]
      · simp [Conf.inside, World.stored, Hand.carried]
    · exact hc.frame hdecided (by simp [record_cons, Event.marked?, hij])
        (by simp [Conf.inside, World.stored, Hand.carried, hij]) rfl
  | grant w h k j p x r state before after c wakes hopen hq hdead hj =>
    by_cases hij : j = i
    · subst hij
      refine hc.grant (r := r) (not_decided_of_linked hj) (Or.inr ⟨.ok r, by simp⟩) ?_ ?_ ?_ rfl
      · simp [record_cons, Event.marked?]
      · intro m hm
        simp [record_cons, Event.marked?, hm]
      · simp [Conf.inside, World.stored, Slot.stored, hj, add_comm]
    · refine hc.frame hdecided (by simp [record_cons, Event.marked?, hij]) ?_ rfl
      simp [Conf.inside, World.stored, Ne.symm hij]
  -- the section takes the permit out of the node
  | claim w j r hj =>
    refine hc.frame hdecided (by simp [record_cons, Event.marked?]) ?_ rfl
    by_cases hij : j = i
    · subst hij
      simp [Conf.inside, World.stored, Slot.stored, Hand.carried, hj]
    · simp [Conf.inside, World.stored, Hand.carried, hij, Ne.symm hij]
  | cancelGranted w j r hj =>
    refine hc.frame hdecided (by simp [record_cons, Event.marked?]) ?_ rfl
    by_cases hij : j = i
    · subst hij
      simp [Conf.inside, World.stored, Slot.stored, Hand.carried, hj]
    · simp [Conf.inside, World.stored, Hand.carried, hij, Ne.symm hij]
  -- the permit reaches its caller, or goes back to the state
  | deliver w j r cx => exact hc.deliver_event hdecided (by simp [Event.marked?])
  | deliverTry w j p r => exact hc.deliver_event hdecided (by simp [Event.marked?])
  | release w who j r =>
    by_cases hij : j = i
    · subst hij
      refine hc.giveUp (r := r) (m := .released who) hdecided (by cases who <;> simp) ?_ ?_ ?_ ?_
      · simp [World.callRelease, record_cons, Event.marked?]
      · intro m hm
        simp [World.callRelease, record_cons, Event.marked?, hm]
      · cases who <;> simp [World.callRelease, Conf.inside, World.stored, Hand.carried]
      · cases who <;> simp [World.callRelease, Conf.outside, World.owned, Hand.surrendered]
    · refine hc.frame hdecided (by simp [World.callRelease, record_cons, Event.marked?, hij]) ?_ ?_
      · cases who <;> simp [World.callRelease, Conf.inside, World.stored, Hand.carried, hij]
      · cases who <;> simp [World.callRelease, Conf.outside, World.owned, Hand.surrendered, hij]
  -- the guard gives up its permit
  | takeGuard w j r hj =>
    refine hc.frame hdecided (fun _ => rfl) rfl ?_
    by_cases hij : j = i
    · subst hij
      simp [Conf.outside, World.owned, Hand.surrendered, hj]
    · simp [Conf.outside, World.owned, Hand.surrendered, hij, Ne.symm hij]
  | takePermit w j r hj =>
    by_cases hij : j = i
    · subst hij
      refine hc.giveUp (r := r) (m := .taken) hdecided (by simp) ?_ ?_ ?_ ?_
      · simp [record_cons, Event.marked?]
      · intro m hm
        simp [record_cons, Event.marked?, hm]
      · simp [Conf.inside, World.stored]
      · simp [Conf.outside, World.owned, Hand.surrendered, hj]
    · refine hc.frame hdecided (by simp [record_cons, Event.marked?, hij]) rfl ?_
      simp [Conf.outside, World.owned, Ne.symm hij]
  | conjure w j r hj =>
    by_cases hij : j = i
    · subst hij
      -- the name is new, so it cannot have a guard yet
      have hnot : ¬ Decided j (w, (.empty : Hand ι S)) := by simp [Decided, Resolved, hj]
      have howned := hc.owned_of_nothing (hc.undecided hnot)
      refine hc.conjure (r := r) hnot (Or.inl ⟨by simp, id⟩) ?_ ?_ ?_ ?_
      · simp [record_cons, Event.marked?]
      · intro m hm
        simp [record_cons, Event.marked?, hm]
      · exact inside rfl (by simp [hj, Slot.stored]) rfl
      · simp only at howned
        simp [Conf.outside, howned, World.owned, Hand.surrendered]
    · refine hc.frame hdecided (by simp [record_cons, Event.marked?, hij])
        (inside rfl (by simp [hj, Slot.stored]) rfl) ?_
      simp [Conf.outside, World.owned, Ne.symm hij]
  | update w h f =>
    exact hc.frame hdecided (by simp [World.updateState, record_cons, Event.marked?]) rfl rfl
  | rewake w j params x cx before after res hq hres =>
    refine hc.frame hdecided ?_ rfl rfl
    rcases hres with rfl | rfl <;> simp [record_cons, Event.marked?]
  | _ => exact hc.frame hdecided (by simp [record_cons, Event.marked?]) rfl rfl

/-! ## The statement about runs -/

theorem Ledger.start (i : ι) (state : S) (order : O) :
    Ledger i ((World.new state order : World ι κ W S O), .empty) :=
  ⟨Nat.zero_le _, fun _ => rfl, rfl, rfl⟩

variable [DecidableEq κ] [DecidableEq W] [Order O]

theorem Reachable.ledger {state : S} {order : O} {w : World ι κ W S O}
    (h : Reachable C state order w) (i : ι) : Ledger i (w, .empty) := by
  have hboth : Consistent (w, (.empty : Hand ι S)) ∧ Ledger i (w, .empty) := by
    apply Reachable.invariant_of_moves (fun c => Consistent c ∧ Ledger i c) ?_ ?_ h
    · intro c d _ hc _ hm
      exact ⟨hc.1.move hm, hc.2.move hc.1 hm⟩
    · exact ⟨Consistent.start _, Ledger.start i state order⟩
  exact hboth.2

/-- Between the lock sections each permit of `i` is in exactly one place. What `S::acquire`
returned for `i` is at most one permit; it is stored in the node of `i`, was delivered to the
caller of `i`, or was released because `i` was dropped unclaimed. What has a guard (because it
was delivered or conjured) is still owned by the guard, was released by its drop, or was taken
out of it. -/
structure Accounted (w : World ι κ W S O) (i : ι) : Prop where
  granted_once : (record .granted i w.log).card ≤ 1
  places : record .granted i w.log =
    w.stored i + record .delivered i w.log + record (.released .unclaimed) i w.log
  guarded_once : (record .delivered i w.log + record .conjured i w.log).card ≤ 1
  guards : record .delivered i w.log + record .conjured i w.log =
    w.owned i + record (.released .guard) i w.log + record .taken i w.log

/-- **Exactly-once permit accounting**, in every reachable state of every run. -/
theorem permits_accounted {state : S} {order : O} {w : World ι κ W S O}
    (h : Reachable C state order w) (i : ι) : Accounted w i := by
  have hledger := h.ledger i
  have honce := hledger.once
  have hplaces := hledger.places
  have hguards := hledger.guards
  simp only [Conf.inside, Conf.outside, Hand.carried_empty, Hand.surrendered_empty,
    add_zero] at hplaces hguards
  -- what was delivered was granted
  have hcards := congrArg Multiset.card hplaces
  simp only [Multiset.card_add] at honce hcards
  refine ⟨?_, hplaces, ?_, hguards⟩
  · omega
  · rw [Multiset.card_add]
    omega

/-- One permit is claimed and dropped; its release grants a waiter, whose future is dropped
unclaimed. -/
theorem permits_accounted_of_unclaimed :
    ∃ w : World Nat Nat Nat SemaphoreCounter FairOrder,
      run .uncloseable ⟨1⟩ .fifo [.acquire 0 (1 : Nat), .poll 0 7 .quiet, .acquire 1 (1 : Nat),
        .poll 1 8 .quiet, .dropPermit 0 0, .wake 0 (.returned ()), .finish 0 (.returned ()),
        .dropAcquire 0 1, .finish 0 (.returned ())] = some w ∧ Accounted w 1 :=
  exists_run _ rfl fun _ h => permits_accounted h 1

end FlagBearer
