import FlagBearer.Queue.Answers
import FlagBearer.Queue.OwnParams
import FlagBearer.Queue.Work
import Mathlib.Algebra.Order.BigOperators.Group.Finset

/-!
# Headway

A request goes through a few stages: it is made, polled for the first time, queued, granted,
claimed and given back. A step that takes a request further, or carries on with a call, makes
headway. If nobody asks for anything new, only so many such steps are left, in whatever order they
come and whatever panics: the drains that give-backs set off cost no more than the stages they
take requests through. And as long as something is still held or in progress, one of them is
possible.

## Main results

- `Headway.lowers`: what such a step does to the stages of all requests
- `headway_ends`: the bound, and what is the case when the steps end
-/

namespace FlagBearer

open PinList

variable {ι κ W S O : Type} [DecidableEq ι] [SemaphoreState S] {C : Closeability} {own : Option ι}

/-! ## Stages -/

/-- The stages that lie ahead of a request while its future is like this. -/
def Slot.ahead : Slot S → Nat
  | .unborn => 0
  | .live ⟨.initial, some _⟩ => 5
  | .live ⟨.initial, none⟩ => 1
  | .live _ => 3
  | .gone => 0

/-- The stages ahead of `i` while a section holds something on its behalf. -/
def Hand.ahead (i : ι) : Hand ι S → Nat
  | .params j _ _ => if j = i then 3 else 0
  | .permit j _ => if j = i then 1 else 0
  | _ => 0

/-- The stages ahead of `i`: its future, its guard, and what the section holds for it. -/
def Conf.ahead (i : ι) (c : Conf ι κ W S O) : Nat :=
  (c.1.slots i).ahead + (c.1.permits i).isSome.toNat + c.2.ahead i

@[simp] theorem Slot.ahead_unborn : (Slot.unborn : Slot S).ahead = 0 := rfl

@[simp] theorem Slot.ahead_gone : (Slot.gone : Slot S).ahead = 0 := rfl

@[simp] theorem Slot.ahead_fresh (p : Params S) : (Slot.live ⟨.initial, some p⟩).ahead = 5 := rfl

@[simp] theorem Slot.ahead_spent : (Slot.live ⟨.initial, none⟩ : Slot S).ahead = 1 := rfl

@[simp] theorem Slot.ahead_linked (params : Option (Params S)) :
    (Slot.live ⟨.linked, params⟩ : Slot S).ahead = 3 := rfl

@[simp] theorem Slot.ahead_removed (r : Removed S) (params : Option (Params S)) :
    (Slot.live ⟨.removed r, params⟩).ahead = 3 := rfl

@[simp] theorem Hand.ahead_empty (i : ι) : (Hand.empty : Hand ι S).ahead i = 0 := rfl

@[simp] theorem Hand.ahead_params (i j : ι) (p : Params S) (front : Option Bool) :
    (Hand.params j p front).ahead i = if j = i then 3 else 0 := rfl

@[simp] theorem Hand.ahead_permit (i j : ι) (r : Permit S) :
    (Hand.permit j r).ahead i = if j = i then 1 else 0 := rfl

@[simp] theorem Hand.ahead_returning (i j : ι) (p : Params S) :
    (Hand.returning j p).ahead i = 0 := rfl

@[simp] theorem Hand.ahead_releasing (i j : ι) (who : Releaser) (r : Permit S) :
    (Hand.releasing who j r).ahead i = 0 := rfl

@[simp] theorem Hand.ahead_ofParams (i j : ι) (params : Option (Params S)) :
    (Hand.ofParams j params).ahead i = 0 := by
  cases params <;> rfl

theorem Slot.Spent.ahead_le {x : Slot S} (h : x.Spent) : x.ahead ≤ 1 := by
  cases x with
  | unborn => exact absurd h id
  | gone => exact Nat.zero_le 1
  | live a =>
    obtain ⟨n, params⟩ := a
    obtain ⟨rfl, rfl⟩ := h
    exact Nat.le_refl 1

theorem Slot.ahead_le (x : Slot S) : x.ahead ≤ 5 := by
  rcases x with _ | ⟨_ | _ | r, _ | p⟩ | _ <;> simp

theorem Slot.ahead_pos (a : Acquire S) : 1 ≤ (Slot.live a).ahead := by
  obtain ⟨_ | _ | r, _ | p⟩ := a <;> simp

/-! ## Moves -/

/-- The future of `j` changes, and what the section holds. -/
theorem Conf.ahead_slot {w w' : World ι κ W S O} {h h' : Hand ι S} {i j : ι} {x : Slot S}
    (hslots : w'.slots = Function.update w.slots j x) (hpermits : w'.permits = w.permits)
    (hj : x.ahead + h'.ahead j ≤ (w.slots j).ahead + h.ahead j)
    (hne : i ≠ j → h'.ahead i ≤ h.ahead i) : Conf.ahead i (w', h') ≤ Conf.ahead i (w, h) := by
  unfold Conf.ahead
  rw [hslots, hpermits]
  by_cases hij : i = j
  · subst hij
    rw [Function.update_self]
    dsimp only
    omega
  · rw [Function.update_of_ne hij]
    have hhand := hne hij
    dsimp only
    omega

/-- The guard of `j` changes, and what the section holds. -/
theorem Conf.ahead_guard {w w' : World ι κ W S O} {h h' : Hand ι S} {i j : ι}
    {r : Option (Permit S)} (hslots : w'.slots = w.slots)
    (hpermits : w'.permits = Function.update w.permits j r)
    (hj : r.isSome.toNat + h'.ahead j ≤ (w.permits j).isSome.toNat + h.ahead j)
    (hne : i ≠ j → h'.ahead i ≤ h.ahead i) : Conf.ahead i (w', h') ≤ Conf.ahead i (w, h) := by
  unfold Conf.ahead
  rw [hslots, hpermits]
  by_cases hij : i = j
  · subst hij
    rw [Function.update_self]
    dsimp only
    omega
  · rw [Function.update_of_ne hij]
    have hhand := hne hij
    dsimp only
    omega

variable [DecidableEq κ] [Order O]

/-- **No move sets a request back**, unless its name is new. -/
theorem Move.ahead_le {c d : Conf ι κ W S O} (h : Move C own c d) {i : ι}
    (hborn : own = some i → Born i c) : d.ahead i ≤ c.ahead i := by
  -- a new name is not `i`
  have fresh {j : ι} (hj : c.1.slots j = .unborn) (hown : own = some j) : i ≠ j := by
    rintro rfl
    exact hborn hown hj
  cases h with
  | create w j p hj hown =>
    have hij := fresh hj hown
    simp [Conf.ahead, hij]
  | conjure w j r hj hown =>
    have hij := fresh hj hown
    simp [Conf.ahead, hij]
  | askTry w j p hj hown =>
    have hij := fresh hj hown
    simp [Conf.ahead, hij, Ne.symm hij]
  | ask w j p hj =>
    exact Conf.ahead_slot rfl rfl (by simp [hj]) fun hij => by simp [Ne.symm hij]
  | link w j p cx front queue hopen hq hj =>
    exact Conf.ahead_slot rfl rfl (by simp [hj]) fun hij => by simp
  | grant w h k j p x r state before after c wakes hopen hq hdead hj =>
    exact Conf.ahead_slot rfl rfl (by simp [hj]) fun hij => Nat.le_refl _
  | expel w h k j params x rest c wakes hclosed hq hj =>
    exact Conf.ahead_slot rfl rfl (by simp [hj]) fun hij => Nat.le_refl _
  | unlinkSelf w j params x before after hclosing hq hj =>
    exact Conf.ahead_slot rfl rfl (by simp [hj]) fun hij => by simp
  | claim w j r hj =>
    exact Conf.ahead_slot rfl rfl (by simp [hj]) fun hij => by simp [Ne.symm hij]
  | claimError w j params hj =>
    exact Conf.ahead_slot rfl rfl (by simp [hj]) fun hij => by simp
  | cancelInitial w j params hj => exact Conf.ahead_slot rfl rfl (by simp) fun hij => by simp
  | cancelLinked w k j params x before after c hq hj =>
    exact Conf.ahead_slot rfl rfl (by simp) fun hij => by simp
  | cancelGranted w j r hj => exact Conf.ahead_slot rfl rfl (by simp) fun hij => by simp
  | cancelRefused w k j params c hj => exact Conf.ahead_slot rfl rfl (by simp) fun hij => by simp
  | deliver w j r cx =>
    exact Conf.ahead_guard rfl rfl (by simp) fun hij => by simp [Ne.symm hij]
  | deliverTry w j p r =>
    exact Conf.ahead_guard rfl rfl (by simp) fun hij => by simp [Ne.symm hij]
  | takeGuard w j r hj => exact Conf.ahead_guard rfl rfl (by simp) fun hij => by simp
  | takePermit w j r hj => exact Conf.ahead_guard rfl rfl (by simp) fun hij => by simp
  | grantNow w j p r front =>
    simp only [Conf.ahead, Hand.ahead_params, Hand.ahead_permit]
    split <;> omega
  | _ => simp [Conf.ahead, World.callRelease, World.updateState]

theorem Moves.ahead_le {c d : Conf ι κ W S O} (h : Moves C own c d) {i : ι}
    (hborn : own = some i → Born i c) : d.ahead i ≤ c.ahead i := by
  have hboth : (own = some i → Born i d) ∧ d.ahead i ≤ c.ahead i := by
    refine Transition.invariant_of_moves (fun e => (own = some i → Born i e) ∧
      e.ahead i ≤ c.ahead i) ?_ h ⟨hborn, Nat.le_refl _⟩
    rintro e e' ⟨hb, hle⟩ hm
    exact ⟨fun hown => (hb hown).move hm, Nat.le_trans (hm.ahead_le hb) hle⟩
  exact hboth.2

/-! ## Steps -/

variable [DecidableEq W]

/-- Steps that ask for nothing new: calls go on, a future is polled for the first time or claims
what its node holds, and futures and guards are given up. -/
inductive Headway (w : World ι κ W S O) : Action ι κ W S → Prop where
  | continues (a : Action ι κ W S) (ha : a.continues = true) : Headway w a
  | firstPoll (i : ι) (p : Params S) (cx : W) (calls : WakerCalls)
      (hi : w.slots i = .live ⟨.initial, some p⟩) : Headway w (.poll i cx calls)
  | claim (i : ι) (r : Removed S) (cx : W) (calls : WakerCalls)
      (hi : w.slots i = .live ⟨.removed r, none⟩) : Headway w (.poll i cx calls)
  | dropAcquire (k : κ) (i : ι) : Headway w (.dropAcquire k i)
  | dropPermit (k : κ) (i : ι) : Headway w (.dropPermit k i)
  | takePermit (i : ι) : Headway w (.takePermit i)

theorem pollFirst_lowers {w : World ι κ W S O} (hw : Coherent C w) {i : ι} {p : Params S}
    (hi : w.slots i = .live ⟨.initial, some p⟩) (cx : W) (calls : WakerCalls) :
    Conf.ahead i (pollAcquire C w i ⟨.initial, some p⟩ cx calls, .empty) <
      Conf.ahead i (w, .empty) := by
  have hasked : Coherent C (w.lock.setSlot i (.live ⟨.initial, none⟩)) :=
    (hw.frame_inner rfl rfl rfl rfl : Coherent C w.lock).setSlot rfl rfl (by simp [hi]) (by simp)
  have hmoves : Moves C (some i) (w.lock.setSlot i (.live ⟨.initial, none⟩), .params i p none)
      (pollAcquire C w i ⟨.initial, some p⟩ cx calls, .empty) :=
    (pollFirst_moves hasked (by simp) p cx calls).1
  -- the params are in the hand of the section now, one stage further
  have hle := Moves.ahead_le hmoves (i := i) fun _ => by simp [Born]
  simp only [Conf.ahead, hi, World.setSlot_slots, Function.update_self, World.setSlot_permits,
    World.lock_permits, Slot.ahead_spent, Slot.ahead_fresh, Hand.ahead_params, if_true] at hle ⊢
  omega

omit [DecidableEq κ] in
theorem pollClaim_lowers {w : World ι κ W S O} {i : ι} {r : Removed S}
    (hi : w.slots i = .live ⟨.removed r, none⟩) (cx : W) (calls : WakerCalls) :
    Conf.ahead i (pollAcquire C w i ⟨.removed r, none⟩ cx calls, .empty) <
      Conf.ahead i (w, .empty) := by
  have hslot : (pollAcquire C w i ⟨.removed r, none⟩ cx calls).slots i =
      .live ⟨.initial, none⟩ := by
    rw [pollAcquire, wrapPoll_slots, poll_of_asked w i (by simp) cx calls, pollAgain_removed]
    have hnode : w.lock.setNode i .initial = w.lock.setSlot i (.live ⟨.initial, none⟩) :=
      World.setNode_of_live hi
    simp only [pollTake, Node.takeRemoved, hnode]
    rcases r with (_ | p) | r <;> simp
  have hguard := Bool.toNat_le
    (((pollAcquire C w i ⟨.removed r, none⟩ cx calls).permits i).isSome)
  simp only [Conf.ahead, hslot, hi, Slot.ahead_spent, Slot.ahead_removed, Hand.ahead_empty]
  omega

omit [DecidableEq W] [Order O] in
theorem dropNode_gone {w : World ι κ W S O} (hw : Coherent C w) {i : ι} {n : Node (Removed S)}
    (hi : w.slots i = .live ⟨n, none⟩) (hn : n ≠ .initial) {k : κ} {c : Call ι W S}
    (hk : w.calls k = some c) :
    (dropNode k i n w).1.slots = Function.update w.slots i .gone ∧
      (dropNode k i n w).1.permits = w.permits := by
  cases n with
  | initial => exact absurd rfl hn
  | linked =>
    obtain ⟨data, before, after, -, hres⟩ := dropNode_linked hw hi hk
    rw [hres]
    exact ⟨rfl, rfl⟩
  | removed r =>
    rw [dropNode_removed]
    cases r with
    | ok permit => exact ⟨rfl, rfl⟩
    | error params =>
      have hcall : (((w.setSlot i .gone).emit (.took i)).emit (.cancelled i)).calls k = some c := hk
      simp only [dropRefused, World.modifyCall_of_some hcall]
      exact ⟨rfl, rfl⟩

omit [DecidableEq W] in
theorem dropAcquire_lowers {w : World ι κ W S O} (hw : Coherent C w) {i : ι} {a : Acquire S}
    (hi : w.slots i = .live a) {k : κ} (hk : w.calls k = none) :
    Conf.ahead i (dropAcquire C k w i a, .empty) < Conf.ahead i (w, .empty) := by
  have hpos := Slot.ahead_pos a
  obtain ⟨n, params⟩ := a
  by_cases hn : n = .initial
  · subst hn
    cases params <;> simp [dropAcquire, World.dropParams, Conf.ahead, hi]
  · obtain rfl : params = none := hw.asked i _ hi hn
    rw [dropAcquire_of_asked k w i hn]
    obtain ⟨hslots, hpermits⟩ := dropNode_gone (hw.enter hk) hi hn (w.enter_call k)
    have hrest : Moves C none _ _ :=
      withQueue_rest hw hk (dropNode_closure (hw.enter hk) hi hn (w.enter_call k))
    have hle := Moves.ahead_le hrest (i := i) (by simp)
    have hsame : (w.enter k).permits = w.permits := rfl
    simp only [Conf.ahead, hslots, hpermits, hsame, Function.update_self, hi, Slot.ahead_gone]
      at hle ⊢
    omega

omit [DecidableEq W] in
theorem dropPermit_lowers {w : World ι κ W S O} (hw : Coherent C w) {i : ι} {r : Permit S}
    (hi : w.permits i = some r) {k : κ} (hk : w.calls k = none) (j : ι) :
    Conf.ahead j (dropPermit C k w i r, .empty) + (if j = i then 1 else 0) ≤
      Conf.ahead j (w, .empty) := by
  have hmoves : Moves C none _ _ := dropPermit_rest hw i r hk
  have hle := Moves.ahead_le hmoves (i := j) (by simp)
  by_cases hji : j = i
  · subst hji
    simp only [Conf.ahead, World.setPermit_slots, World.setPermit_permits, Function.update_self,
      Option.isSome_none, Bool.toNat_false, Hand.ahead_releasing, hi, Option.isSome_some,
      Bool.toNat_true, Hand.ahead_empty, if_true] at hle ⊢
    omega
  · simpa [Conf.ahead, hji] using hle

/-- **What headway does to the stages of all requests**: none is set back, and unless the step is
one of a call, its own request gets further. -/
theorem Headway.lowers {w w' : World ι κ W S O} (hw : Settled C w) {a : Action ι κ W S}
    (h : step C w a = some w') (ha : Headway w a) :
    (∀ i, Conf.ahead i (w', (.empty : Hand ι S)) ≤ Conf.ahead i (w, .empty)) ∧
      (a.continues = false → ∃ i, a.request = some i ∧
        Conf.ahead i (w', (.empty : Hand ι S)) < Conf.ahead i (w, .empty)) := by
  have hcoh := hw.coherent
  -- the stages of all requests, if the name of the step's own one is not new
  have hle (hborn : ∀ i, a.request = some i → w.slots i ≠ .unborn) (i : ι) :
      Conf.ahead i (w', (.empty : Hand ι S)) ≤ Conf.ahead i (w, .empty) :=
    Moves.ahead_le (step_moves hw h).1 fun hi => hborn i hi
  cases ha with
  | continues a ha =>
    have hnone : a.request = none := by
      cases a with
      | resume | wake | finish => rfl
      | _ => cases ha
    exact ⟨hle (by simp [hnone]), by simp [ha]⟩
  | firstPoll i p cx calls hi =>
    refine ⟨hle ?_, fun _ => ⟨i, rfl, ?_⟩⟩
    · rintro j ⟨⟩
      simp [hi]
    · rw [step_poll hi cx calls] at h
      cases h
      exact pollFirst_lowers hcoh hi cx calls
  | claim i r cx calls hi =>
    refine ⟨hle ?_, fun _ => ⟨i, rfl, ?_⟩⟩
    · rintro j ⟨⟩
      simp [hi]
    · rw [step_poll hi cx calls] at h
      cases h
      exact pollClaim_lowers hi cx calls
  | dropAcquire k i =>
    cases step_cases h with
    | dropAcquire _ _ a hi hk =>
      refine ⟨hle ?_, fun _ => ⟨i, rfl, dropAcquire_lowers hcoh hi hk⟩⟩
      rintro j ⟨⟩
      simp [hi]
  | dropPermit k i =>
    cases step_cases h with
    | dropPermit _ _ r hi hk =>
      have hlower := dropPermit_lowers hcoh hi hk
      refine ⟨fun j => Nat.le_trans (Nat.le_add_right _ _) (hlower j), fun _ => ⟨i, rfl, ?_⟩⟩
      simpa using hlower i
  | takePermit i =>
    cases step_cases h with
    | takePermit _ r hi =>
      refine ⟨fun j => ?_, fun _ => ⟨i, rfl, by simp [FlagBearer.takePermit, Conf.ahead, hi]⟩⟩
      exact Conf.ahead_guard rfl rfl (by simp) fun hij => by simp

/-- A step sets no request back but its own, and that one to the start at most. -/
theorem step_ahead {w w' : World ι κ W S O} (hw : Settled C w) {a : Action ι κ W S}
    (h : step C w a = some w') (i : ι) :
    Conf.ahead i (w', (.empty : Hand ι S)) ≤
      Conf.ahead i (w, .empty) + if a.request = some i then 6 else 0 := by
  by_cases hown : a.request = some i
  · have hslot := (w'.slots i).ahead_le
    have hguard := Bool.toNat_le (w'.permits i).isSome
    simp only [Conf.ahead, hown, Hand.ahead_empty, if_true]
    omega
  · have hle := Moves.ahead_le (step_moves hw h).1 (i := i) fun hi => absurd hi hown
    simpa [hown] using hle

/-! ## Runs -/

/-- The names of the requests that the actions are about. -/
def requestNames (acts : List (Action ι κ W S)) : Finset ι :=
  (acts.filterMap Action.request).toFinset

omit [DecidableEq κ] [DecidableEq W] in
theorem mem_requestNames {acts : List (Action ι κ W S)} {a : Action ι κ W S} (ha : a ∈ acts) :
    ∀ i, a.request = some i → i ∈ requestNames acts := by
  intro i hi
  exact List.mem_toFinset.mpr (List.mem_filterMap.mpr ⟨a, ha, hi⟩)

/-- The action is about requests in `R` and calls in `K` only. -/
def Action.About (R : Finset ι) (K : Finset κ) (a : Action ι κ W S) : Prop :=
  (∀ i, a.request = some i → i ∈ R) ∧ ∀ k, a.call = some k → k ∈ K

/-- What is left to do: the stages of the requests named in `R`, each of which may set off a drain,
and the work that the calls named in `K` owe. -/
def World.left (R : Finset ι) (K : Finset κ) (w : World ι κ W S O) : Nat :=
  3 * ∑ i ∈ R, Conf.ahead i (w, (.empty : Hand ι S)) + w.debt K

omit [DecidableEq κ] [DecidableEq W] [Order O] in
theorem left_new (R : Finset ι) (K : Finset κ) (state : S) (order : O) :
    (World.new state order : World ι κ W S O).left R K = 0 := by
  have hstages : ∀ i ∈ R,
      Conf.ahead i ((World.new state order : World ι κ W S O), (.empty : Hand ι S)) = 0 :=
    fun i _ => rfl
  simp [World.left, Finset.sum_eq_zero hstages, debt_new]

/-- An operation adds a bounded amount to what is left, and what calls do adds nothing. -/
theorem step_left {R : Finset ι} {K : Finset κ} {w w' : World ι κ W S O} (hw : Settled C w)
    {a : Action ι κ W S} (h : step C w a = some w') (hnames : a.About R K) :
    w'.left R K ≤ w.left R K + if a.continues then 0 else 20 := by
  have hpaid := (step_paid hw h hnames.2).debt
  cases hcont : a.continues with
  | true =>
    have hle : ∀ i ∈ R, Conf.ahead i (w', (.empty : Hand ι S)) ≤ Conf.ahead i (w, .empty) :=
      fun i _ => ((Headway.continues a hcont).lowers hw h).1 i
    have hsum := Finset.sum_le_sum hle
    simp only [hcont, if_true] at hpaid
    simp only [World.left, if_true]
    omega
  | false =>
    have hsum : ∑ i ∈ R, Conf.ahead i (w', (.empty : Hand ι S)) ≤
        ∑ i ∈ R, Conf.ahead i (w, (.empty : Hand ι S)) + 6 := by
      have hle := Finset.sum_le_sum fun i (_ : i ∈ R) => step_ahead hw h i
      rw [Finset.sum_add_distrib] at hle
      have hone : (∑ i ∈ R, if a.request = some i then 6 else 0) ≤ 6 := by
        cases hreq : a.request with
        | none => simp
        | some j =>
          simp only [Option.some.injEq]
          rw [Finset.sum_ite_eq]
          split <;> omega
      omega
    simp only [hcont, Bool.false_eq_true, if_false] at hpaid
    simp only [World.left, Bool.false_eq_true, if_false]
    omega

/-- **Headway lowers what is left to do.** -/
theorem Headway.left_lt {R : Finset ι} {K : Finset κ} {w w' : World ι κ W S O} (hw : Settled C w)
    {a : Action ι κ W S} (h : step C w a = some w') (hnames : a.About R K) (ha : Headway w a) :
    w'.left R K + 1 ≤ w.left R K := by
  obtain ⟨hle, hown⟩ := ha.lowers hw h
  have hpaid := (step_paid hw h hnames.2).debt
  cases hcont : a.continues with
  | true =>
    have hsum := Finset.sum_le_sum fun i (_ : i ∈ R) => hle i
    simp only [hcont, if_true] at hpaid
    simp only [World.left]
    omega
  | false =>
    -- one stage of one request pays for the drain
    obtain ⟨i, hi, hless⟩ := hown hcont
    have hsum := Finset.sum_lt_sum (fun j (_ : j ∈ R) => hle j) ⟨i, hnames.1 i hi, hless⟩
    simp only [hcont, Bool.false_eq_true, if_false] at hpaid
    simp only [World.left]
    omega

theorem run_left {R : Finset ι} {K : Finset κ} {state : S} {order : O}
    {acts : List (Action ι κ W S)} {w : World ι κ W S O} (h : run C state order acts = some w)
    (hnames : ∀ a ∈ acts, a.About R K) : w.left R K ≤ 20 * operations acts := by
  have hkeep : ∀ {v v' : World ι κ W S O} {a : Action ι κ W S}, Settled C v → a.About R K →
      step C v a = some v' → Settled C v' := fun hv _ hstep => hv.step hstep
  have hcost := Transition.exec_potential Action.continues (World.left R K) 0 20 hkeep ?_ ?_
    (Settled.new state order) hnames h
  · simpa [left_new, operations] using hcost
  · intro v v' a hv ha hstep hcont
    simpa [hcont] using step_left hv hstep ha
  · intro v v' a hv ha hstep hcont
    simpa [hcont] using step_left hv hstep ha

theorem Settled.headway_le {R : Finset ι} {K : Finset κ} {w w' : World ι κ W S O}
    (hw : Settled C w) {acts : List (Action ι κ W S)} (hnames : ∀ a ∈ acts, a.About R K)
    (h : Transition.exec (FlagBearer.step C) w acts = some w')
    (hall : Transition.EveryStep (FlagBearer.step C) (fun v a _ => Headway v a) w acts) :
    acts.length ≤ w.left R K := by
  have hkeep : ∀ {v v' : World ι κ W S O} {a : Action ι κ W S}, Settled C v → a.About R K →
      FlagBearer.step C v a = some v' → Settled C v' := fun hv _ hstep => hv.step hstep
  have hshort := Transition.EveryStep.length_le (World.left R K) hkeep
    (fun hv ha hstep hP => hP.left_lt hv hstep ha) hw hnames hall h
  omega

/-- Headway that leaves the waiters alone: calls go on, and what was granted is given back. -/
inductive GivesBack (w : World ι κ W S O) : Action ι κ W S → Prop where
  | continues (a : Action ι κ W S) (ha : a.continues = true) : GivesBack w a
  | unclaimed (k : κ) (i : ι) (r : Removed S) (hi : w.slots i = .live ⟨.removed r, none⟩) :
      GivesBack w (.dropAcquire k i)
  | guard (k : κ) (i : ι) : GivesBack w (.dropPermit k i)

/-- No call is in progress, and nothing that was granted is left in a node or a guard. -/
structure AtRest (w : World ι κ W S O) : Prop where
  calls : Quiescent w
  nodes : ∀ i r, w.slots i ≠ .live ⟨.removed r, none⟩
  guards : ∀ i, w.permits i = none

/-- As long as something is held or in progress, there is something to give back or to go on
with. -/
theorem atRest_or_givesBack (C : Closeability) (k : κ) (w : World ι κ W S O) :
    AtRest w ∨ ∃ a w', GivesBack w a ∧ step C w a = some w' := by
  rcases quiescent_or_continues C w with hrest | ⟨_, a, w', -, -, hcont, hstep⟩
  · by_cases hnodes : ∃ i r, w.slots i = .live ⟨.removed r, none⟩
    · obtain ⟨i, r, hi⟩ := hnodes
      exact Or.inr ⟨.dropAcquire k i, dropAcquire C k w i ⟨.removed r, none⟩,
        .unclaimed k i r hi, by simp [step, hi, hrest k]⟩
    · by_cases hguards : ∃ i r, w.permits i = some r
      · obtain ⟨i, r, hi⟩ := hguards
        exact Or.inr ⟨.dropPermit k i, dropPermit C k w i r, .guard k i,
          by simp [step, hi, hrest k]⟩
      · refine Or.inl ⟨hrest, fun i r hi => hnodes ⟨i, r, hi⟩, fun i => ?_⟩
        exact Option.eq_none_iff_forall_ne_some.mpr fun r hi => hguards ⟨i, r, hi⟩
  · exact Or.inr ⟨a, w', .continues a hcont, hstep⟩

theorem run_headway_le {state : S} {order : O} {acts : List (Action ι κ W S)}
    {w : World ι κ W S O} (h : run C state order acts = some w) {more : List (Action ι κ W S)}
    {w' : World ι κ W S O} (hexec : Transition.exec (step C) w more = some w')
    (hmore : Transition.EveryStep (step C) (fun v a _ => Headway v a) w more) :
    more.length ≤ 20 * operations acts := by
  have habout : ∀ a ∈ acts ++ more, a.About (requestNames (acts ++ more))
      (callNames (acts ++ more)) := fun a ha => ⟨mem_requestNames ha, mem_callNames ha⟩
  have hbudget := run_left h fun a ha => habout a (List.mem_append_left _ ha)
  have hs : Settled C w := (Settled.new state order).exec h
  exact Nat.le_trans (hs.headway_le (fun a ha => habout a (List.mem_append_right _ ha)) hexec hmore)
    hbudget

/-- **Headway comes to an end**: after any run, the steps that ask for nothing new are at most
twenty for each operation begun, in any order and whatever panics. And until no call is in progress
and nothing granted is left in a node or a guard, a call can go on or something can be given
back. -/
theorem headway_ends {state : S} {order : O} {acts : List (Action ι κ W S)}
    {w : World ι κ W S O} (h : run C state order acts = some w) (k : κ)
    {more : List (Action ι κ W S)} {w' : World ι κ W S O}
    (hexec : Transition.exec (step C) w more = some w')
    (hmore : Transition.EveryStep (step C) (fun v a _ => Headway v a) w more) :
    more.length ≤ 20 * operations acts ∧
      (AtRest w' ∨ ∃ a w'', GivesBack w' a ∧ step C w' a = some w'') :=
  ⟨run_headway_le h hexec hmore, atRest_or_givesBack C k w'⟩

/-- Of two waiters one is granted when a permit comes back, and then drops its own. -/
theorem headway_ends_of_two :
    let acts : List (Action Nat Nat Nat SemaphoreCounter) :=
      [.tryAcquire 0 (1 : Nat) true, .acquire 1 (1 : Nat), .poll 1 7 .quiet, .acquire 2 (1 : Nat),
        .poll 2 8 .quiet]
    let more : List (Action Nat Nat Nat SemaphoreCounter) :=
      [.dropPermit 0 0, .wake 0 .panicked, .dropAcquire 1 1, .finish 0 (.returned ())]
    ∃ w w', run .uncloseable (⟨1⟩ : SemaphoreCounter) FairOrder.fifo acts = some w ∧
      Transition.exec (step .uncloseable) w more = some w' ∧
      more.length ≤ 20 * operations acts ∧
      (AtRest w' ∨ ∃ a w'', GivesBack w' a ∧ step .uncloseable w' a = some w'') := by
  intro acts more
  have hmore (w : World Nat Nat Nat SemaphoreCounter FairOrder) :
      Transition.EveryStep (step .uncloseable) (fun v a _ => Headway v a) w more :=
    fun _ _ => ⟨.dropPermit 0 0, fun _ _ => ⟨.continues _ rfl, fun _ _ =>
      ⟨.dropAcquire 1 1, fun _ _ => ⟨.continues _ rfl, trivial⟩⟩⟩⟩
  have hrun : ∃ w, run .uncloseable (⟨1⟩ : SemaphoreCounter) FairOrder.fifo acts = some w ∧
      ∃ w', Transition.exec (step .uncloseable) w more = some w' :=
    exists_run_of_test _ (fun w => (Transition.exec (step .uncloseable) w more).isSome) rfl
      fun w _ htest => Option.isSome_iff_exists.mp htest
  obtain ⟨w, hw, w', hexec⟩ := hrun
  exact ⟨w, w', hw, hexec, headway_ends hw 0 hexec (hmore w)⟩

end FlagBearer
