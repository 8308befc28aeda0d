import FlagBearer.Lib.History
import FlagBearer.Queue.Life

/-!
# The List Is Determined by the History

Replaying the events of a run gives the names of the linked nodes in order, each with whether
it still has its params. Properties that compare a moment of a run with a later one are
stated about the history alone.

## Main results

- `Replayed.move`, `Reachable.replayed`: the replayed list is the list
-/

namespace FlagBearer

open PinList History

variable {ι κ W S O : Type} [SemaphoreState S] {C : Closeability} {own : Option ι}

/-! ## Replaying a history -/

/-- The effect of an event on the list; the flag of a node says that it has its params. -/
def Event.replay [DecidableEq ι] (l : PinList ι Bool) : Event ι κ W S → PinList ι Bool
  | .linked i _ front => if front then l.pushFront i true else l.pushBack i true
  | .removed _ _ i _ => l.remove i
  | .unlinked i => l.remove i
  | .cancelled i => l.remove i
  | .acquired i _ .panicked => l.setProtected i false
  | _ => l

/-- The list after the events of a history. -/
def replay [DecidableEq ι]
    (log : List (Event ι κ W S)) : PinList ι Bool := log.foldl Event.replay []

@[simp] theorem replay_nil [DecidableEq ι] : replay ([] : List (Event ι κ W S)) = [] := rfl

@[simp] theorem replay_append [DecidableEq ι] (log es : List (Event ι κ W S)) :
    replay (log ++ es) = es.foldl Event.replay (replay log) := by
  simp [replay]

/-- The list with the params and wakers left out. -/
def standing (l : WaitList ι W S) : PinList ι Bool := l.map fun e => (e.1, e.2.1.isSome)

@[simp] theorem standing_nil : standing ([] : WaitList ι W S) = [] := rfl

@[simp] theorem standing_append (l l' : WaitList ι W S) :
    standing (l ++ l') = standing l ++ standing l' := by
  simp [standing]

@[simp] theorem standing_cons (i : ι) (params : Option (Params S)) (x : W)
    (l : WaitList ι W S) : standing ((i, params, x) :: l) = (i, params.isSome) :: standing l :=
  rfl

@[simp] theorem ids_standing (l : WaitList ι W S) : ids (standing l) = ids l := by
  simp [standing, ids]

/-- The node `i` is the first of the list that still has its params. -/
def Leading (i : ι) (l : PinList ι Bool) : Prop :=
  ∃ before after, l = before ++ (i, true) :: after ∧ ∀ e ∈ before, e.2 = false

theorem standing_dead {before : WaitList ι W S} (h : ∀ e ∈ before, e.2.1 = none) :
    ∀ e ∈ standing before, e.2 = false := by
  intro e he
  obtain ⟨e', he', rfl⟩ := List.mem_map.mp he
  simp [h e' he']

/-- The replayed list is the list. -/
def Replayed [DecidableEq ι]
    (c : Conf ι κ W S O) : Prop := replay c.1.log = standing c.1.inner.entries

/-! ## Every move agrees with its events -/

theorem Coherent.not_mem {w : World ι κ W S O} (hw : Coherent C w) {i : ι}
    (hi : w.slots i ≠ .live ⟨.linked, none⟩) : i ∉ ids (standing w.inner.entries) := by
  rw [ids_standing]
  intro hmem
  exact hi ((hw.linked i).mp hmem)

theorem Coherent.nodup_standing {w : World ι κ W S O} (hw : Coherent C w) :
    (ids (standing w.inner.entries)).Nodup := by
  rw [ids_standing]
  exact hw.nodup

variable [DecidableEq ι]

/-- A move whose events leave the list alone. -/
theorem Replayed.frame {c d : Conf ι κ W S O} (hc : Replayed c)
    (hlog : replay d.1.log = replay c.1.log) (hq : d.1.inner.queue = c.1.inner.queue) :
    Replayed d := by
  have hentries : d.1.inner.entries = c.1.inner.entries := by
    simp only [QueueState.entries, hq]
  unfold Replayed
  rw [hlog, hentries]
  exact hc

/-- A move that takes the node `i` out of the list. -/
theorem Replayed.unlink {w w' : World ι κ W S O} {h h' : Hand ι S} (hc : Replayed (w, h))
    (hw : Coherent C w) {i : ι} {data : Protected W S} {before after : WaitList ι W S}
    (hq : w.inner.queue = .ok (before ++ (i, data) :: after))
    (hq' : w'.inner.queue = .ok (before ++ after))
    (hlog : replay w'.log = (replay w.log).remove i) : Replayed (w', h') := by
  obtain ⟨params, x⟩ := data
  have hentries := QueueState.entries_of_queue hq
  have hnodup := hw.nodup_standing
  have hold : replay w.log = standing w.inner.entries := hc
  rw [hentries, standing_append, standing_cons] at hold hnodup
  show replay w'.log = standing w'.inner.entries
  rw [hlog, hold, remove_split hnodup, QueueState.entries_of_queue hq', standing_append]

theorem Replayed.move [DecidableEq κ] [Order O]
    {c d : Conf ι κ W S O} (hc : Replayed c) (hw : Coherent C c.1)
    (hcon : Consistent c) (h : Move C own c d) : Replayed d := by
  have hold : replay c.1.log = standing c.1.inner.entries := hc
  -- a request that is not linked may be cancelled or lose its params without effect
  have absent {i : ι} (hi : c.1.slots i ≠ .live ⟨.linked, none⟩) :
      (replay c.1.log).remove i = replay c.1.log := by
    rw [hold]
    exact remove_of_notMem (hw.not_mem hi)
  cases h with
  | note w h e he | reject w i p front e he | giveBack w i p e he =>
    cases he <;> exact hc.frame (by simp [Event.replay]) rfl
  | loseNow w i p front state hopen hlead hacq =>
    -- the request that lost its params on arrival was never linked
    refine hc.frame ?_ rfl
    have hnot := hw.not_mem (hcon.not_linked (i := i) rfl)
    simp only at hold hnot
    simp only [replay_append, List.foldl_cons, List.foldl_nil, Event.replay, hold]
    exact setProtected_of_notMem hnot
  | cancelInitial w i params hi =>
    refine hc.frame ?_ rfl
    simpa [Event.replay] using absent (i := i) (by simp [hi])
  | cancelGranted w i r hi =>
    refine hc.frame ?_ rfl
    simpa [Event.replay] using absent (i := i) (by simp [hi])
  | cancelRefused w k i params c hi =>
    refine hc.frame ?_ rfl
    simpa [Event.replay] using absent (i := i) (by simp [hi])
  -- a node joins the list
  | link w i p cx front queue hopen hq hi =>
    have hentries := QueueState.entries_of_queue hq
    simp only [hentries] at hold
    cases front <;> simp [Replayed, hold, Event.replay, pushFront, pushBack]
  -- a node leaves the list
  | grant w h k i p x r state before after c wakes hopen hq =>
    exact hc.unlink hw hq rfl (by simp [Event.replay])
  | expel w h k i params x rest c wakes hclosed hq =>
    have hsplit : w.inner.queue = .ok ([] ++ (i, params, x) :: rest) := hq
    exact hc.unlink hw hsplit rfl (by simp [Event.replay])
  | unlinkSelf w i params x before after hclosing hq =>
    exact hc.unlink hw hq rfl (by simp [Event.replay])
  | cancelLinked w k i params x before after c hq =>
    exact hc.unlink hw hq rfl (by simp [Event.replay])
  -- the flags of the nodes change at most
  | refuse w h i p p' x state before after hopen hq =>
    have hentries := QueueState.entries_of_queue hq
    simp only [hentries] at hold
    simp [Replayed, hold, Event.replay]
  | lose w h i p x state before after hopen hq =>
    have hentries := QueueState.entries_of_queue hq
    have hnodup := hw.nodup_standing
    simp only [hentries, standing_append, standing_cons] at hold hnodup
    simp only [Replayed, replay_append, List.foldl_cons, List.foldl_nil, Event.replay, hold,
      QueueState.entries_ok, standing_append, standing_cons]
    exact setProtected_split hnodup
  | rewake w i params x cx before after res hq =>
    have hentries := QueueState.entries_of_queue hq
    simp only [hentries] at hold
    simp [Replayed, hold, Event.replay]
  | discard w h hclosed hq =>
    have hentries := QueueState.entries_of_queue hq
    simp only [hentries] at hold
    simpa [Replayed] using hold
  | _ => exact hc.frame (by simp [Event.replay, World.callRelease, World.updateState]) rfl

/-! ## Runs -/

/-- The invariants of a configuration that relate the history, the list and the locals. -/
structure Traced (C : Closeability) (c : Conf ι κ W S O) : Prop where
  consistent : Consistent c
  replayed : Replayed c

theorem Traced.move [DecidableEq κ] [Order O]
    {c d : Conf ι κ W S O} (hc : Traced C c) (hw : Coherent C c.1)
    (h : Move C own c d) : Traced C d :=
  ⟨hc.consistent.move h, hc.replayed.move hw hc.consistent h⟩

theorem Traced.start (state : S) (order : O) :
    Traced C ((World.new state order : World ι κ W S O), .empty) :=
  ⟨Consistent.start _, rfl⟩

variable [DecidableEq κ] [DecidableEq W] [Order O]

/-- The run rule for invariants that rely on the history. -/
theorem Reachable.invariant_of_traced (Inv : Conf ι κ W S O → Prop)
    (hmove : ∀ c d, Coherent C c.1 → Traced C c → Inv c → ∀ own, Move C own c d → Inv d) {state : S}
    {order : O} (hinit : Inv (World.new state order, .empty)) {w : World ι κ W S O}
    (h : Reachable C state order w) : Inv (w, .empty) := by
  have hboth : Traced C (w, (.empty : Hand ι S)) ∧ Inv (w, .empty) := by
    apply Reachable.invariant_of_moves (fun c => Traced C c ∧ Inv c) ?_ ?_ h
    · intro c d hw hc own hm
      exact ⟨hc.1.move hw hm, hmove c d hw hc.1 hc.2 own hm⟩
    · exact ⟨Traced.start state order, hinit⟩
  exact hboth.2

theorem Reachable.replayed {state : S} {order : O} {w : World ι κ W S O}
    (h : Reachable C state order w) : replay w.log = standing w.inner.entries :=
  (Reachable.invariant_of_traced (Traced C) (fun _ _ hw hc _ _ hm => hc.move hw hm)
    (Traced.start state order) h).replayed

end FlagBearer
