import FlagBearer.Queue.State

/-!
# The Survivors of a Run

A request arrives when it is polled for the first time, or when its `try_acquire` is granted.
It leaves when its `Acquire` is dropped before the permit was claimed, or when its `Permit` is
dropped. The survivors of a run, in order of arrival, are read off its events alone.

## Main definitions

- `survivors`: the requests that arrived and did not leave, with the params they asked with
- `Agrees`: how far a request has come, compared with its future and its guard
-/

namespace FlagBearer

open PinList

variable {ι κ W S O : Type} [SemaphoreState S] {C : Closeability}

/-! ## Reading the survivors off the events -/

section

variable [DecidableEq ι]

/-- How far a request has come. -/
inductive Stage (S : Type) [SemaphoreState S] where
  /-- not seen yet, or a `try_acquire` that was not granted -/
  | unborn
  /-- an `Acquire` that was not polled yet -/
  | asked (p : Params S)
  | arrived
  /-- the permit was returned to the task -/
  | claimed
  /-- dropped before the permit was returned -/
  | cancelled

/-- The stages of all requests, and those that arrived and did not leave. -/
structure Roll (ι S : Type) [SemaphoreState S] where
  stage : ι → Stage S
  survivors : PinList ι (Params S)

namespace Roll

def setStage (c : Roll ι S) (i : ι) (x : Stage S) : Roll ι S :=
  { c with stage := Function.update c.stage i x }

/-- A request joins the survivors. -/
def arrive (c : Roll ι S) (i : ι) (p : Params S) (x : Stage S) : Roll ι S :=
  ⟨Function.update c.stage i x, c.survivors ++ [(i, p)]⟩

/-- A request is no survivor any more. -/
def leave (c : Roll ι S) (i : ι) : Roll ι S := { c with survivors := c.survivors.remove i }

end Roll

/-- What an event says about the survivors. The `Acquire` of a claimed permit is dropped
without any effect on its request. -/
def Event.enroll (c : Roll ι S) : Event ι κ W S → Roll ι S
  | .created i p => c.setStage i (.asked p)
  | .polled i _ (.returned (.ready (.ok _))) =>
    match c.stage i with
    | .asked p => c.arrive i p .claimed
    | _ => c.setStage i .claimed
  | .polled i _ _ =>
    match c.stage i with
    | .asked p => c.arrive i p .arrived
    | _ => c
  | .tried i p (.returned (.ok _)) => c.arrive i p .claimed
  | .cancelled i =>
    match c.stage i with
    | .claimed => c
    | _ => (c.leave i).setStage i .cancelled
  | .released .guard i _ _ => c.leave i
  | _ => c

def roll (log : List (Event ι κ W S)) : Roll ι S :=
  log.foldl Event.enroll ⟨fun _ => .unborn, []⟩

/-- The requests that arrived and did not leave, in order of arrival. -/
def survivors (log : List (Event ι κ W S)) : PinList ι (Params S) := (roll log).survivors

@[simp] theorem roll_append (log es : List (Event ι κ W S)) :
    roll (log ++ es) = es.foldl Event.enroll (roll log) := by
  simp [roll]

end

/-! ## Futures, guards and the list -/

/-- The permit that a request was granted and that has not gone back: in its node, or in its
guard. -/
def held : Slot S → Option (Permit S) → Option (Permit S)
  | .live ⟨.removed (.ok r), _⟩, _ => some r
  | _, permit => permit

def World.holds (w : World ι κ W S O) (i : ι) : Option (Permit S) :=
  held (w.slots i) (w.permits i)

theorem World.holds_update [DecidableEq ι]
    {w w' : World ι κ W S O} {i : ι} {x : Slot S} {r : Option (Permit S)}
    (hslots : w'.slots = Function.update w.slots i x)
    (hpermits : w'.permits = Function.update w.permits i r) :
    w'.holds = Function.update w.holds i (held x r) := by
  funext j
  unfold World.holds
  rw [hslots, hpermits]
  by_cases hj : j = i
  · subst hj
    simp
  · simp [hj]

/-- The waiters that have their params. -/
def live (l : WaitList ι W S) : PinList ι (Params S) :=
  l.filterMap fun e => e.2.1.map fun p => (e.1, p)

def World.waiting (w : World ι κ W S O) : PinList ι (Params S) := live w.inner.entries

@[simp] theorem live_nil : live ([] : WaitList ι W S) = [] := rfl

@[simp] theorem live_append (l l' : WaitList ι W S) : live (l ++ l') = live l ++ live l' :=
  List.filterMap_append

@[simp] theorem live_cons (i : ι) (p : Params S) (x : W) (l : WaitList ι W S) :
    live ((i, some p, x) :: l) = (i, p) :: live l := rfl

theorem live_dead {l : WaitList ι W S} (h : ∀ e ∈ l, e.2.1 = none) : live l = [] := by
  apply List.filterMap_eq_nil_iff.mpr
  intro e he
  simp [h e he]

/-- If no waiter has lost its params, nothing is left out. -/
theorem live_map {l : WaitList ι W S} (h : ∀ e ∈ l, e.2.1 ≠ none) :
    l.map (fun e => (e.1, e.2.1)) = (live l).map fun e => (e.1, some e.2) := by
  induction l with
  | nil => rfl
  | cons e l ih =>
    obtain ⟨i, _ | p, x⟩ := e
    · exact absurd rfl (h (i, none, x) (List.mem_cons_self ..))
    · have hrest := ih fun e he => h e (List.mem_cons_of_mem _ he)
      rw [live_cons, List.map_cons, List.map_cons, hrest]

theorem mem_ids_of_live {l : WaitList ι W S} {i : ι} (h : i ∈ ids (live l)) : i ∈ ids l := by
  obtain ⟨p, hmem⟩ := mem_ids.mp h
  obtain ⟨e, he, heq⟩ := List.mem_filterMap.mp hmem
  obtain ⟨q, -, hq⟩ := Option.map_eq_some_iff.mp heq
  cases hq
  exact mem_ids_of_mem he

/-- How far a request has come, its slot and its guard. -/
inductive Agrees : Stage S → Slot S → Option (Permit S) → Prop where
  | unborn : Agrees .unborn .unborn none
  | refused : Agrees .unborn .gone none
  | asked (p : Params S) : Agrees (.asked p) (.live ⟨.initial, some p⟩) none
  | waiting : Agrees .arrived (.live ⟨.linked, none⟩) none
  | granted (r : Permit S) : Agrees .arrived (.live ⟨.removed (.ok r), none⟩) none
  | claimed (permit : Option (Permit S)) : Agrees .claimed (.live ⟨.initial, none⟩) permit
  | dropped (permit : Option (Permit S)) : Agrees .claimed .gone permit
  | cancelled : Agrees .cancelled .gone none

section Inversion

variable {x : Stage S} {y : Slot S} {permit : Option (Permit S)}

theorem Agrees.of_unborn (h : Agrees x .unborn permit) : x = .unborn ∧ permit = none := by
  cases h
  exact ⟨rfl, rfl⟩

theorem Agrees.of_asked {p : Params S} (h : Agrees x (.live ⟨.initial, some p⟩) permit) :
    x = .asked p ∧ permit = none := by
  cases h
  exact ⟨rfl, rfl⟩

theorem Agrees.of_claimed (h : Agrees x (.live ⟨.initial, none⟩) permit) : x = .claimed := by
  cases h
  rfl

theorem Agrees.of_linked (h : Agrees x (.live ⟨.linked, none⟩) permit) :
    x = .arrived ∧ permit = none := by
  cases h
  exact ⟨rfl, rfl⟩

/-- Only granted nodes are removed while nothing closes the queue. -/
theorem Agrees.of_removed {r : Removed S} (h : Agrees x (.live ⟨.removed r, none⟩) permit) :
    x = .arrived ∧ permit = none ∧ ∃ granted, r = .ok granted := by
  cases h
  exact ⟨rfl, rfl, _, rfl⟩

/-- A request with a guard has claimed its permit. -/
theorem Agrees.of_guard {r : Permit S} (h : Agrees x y (some r)) :
    x = .claimed ∧ (∀ permit, held y permit = permit) ∧ ∀ permit, Agrees .claimed y permit := by
  cases h with
  | claimed => exact ⟨rfl, fun _ => rfl, fun permit => .claimed permit⟩
  | dropped => exact ⟨rfl, fun _ => rfl, fun permit => .dropped permit⟩

end Inversion

/-- Every request agrees with its future and its guard after a change of one of them. -/
theorem agrees_update [DecidableEq ι] {c c' : Roll ι S} {slots slots' : ι → Slot S}
    {permits permits' : ι → Option (Permit S)}
    (h : ∀ j, Agrees (c.stage j) (slots j) (permits j)) {i : ι}
    (hstage : ∀ j, j ≠ i → c'.stage j = c.stage j) (hslots : ∀ j, j ≠ i → slots' j = slots j)
    (hpermits : ∀ j, j ≠ i → permits' j = permits j)
    (hi : Agrees (c'.stage i) (slots' i) (permits' i)) :
    ∀ j, Agrees (c'.stage j) (slots' j) (permits' j) := by
  intro j
  by_cases hj : j = i
  · subst hj
    exact hi
  · rw [hstage j hj, hslots j hj, hpermits j hj]
    exact h j

end FlagBearer
