import FlagBearer.Queue.Life
import FlagBearer.Core.Counter

/-!
# The Unchecked Operations Are Justified

The `unsafe` blocks of the queue assume that a node they take from is removed, that the list
is there when a request is to be queued, and that a cursor stands on a node. Each function of
`Sections` records a `Fault` where such an assumption fails. No run records one, whatever
unwinds.

## Main results

- `Move.no_fault`: a move records no fault
- `TookOnce.move`: the result of a request is extracted at most once
- `unchecked_operations_justified`: the statement about runs
-/

namespace FlagBearer

open PinList

variable {ι κ W S O : Type} [DecidableEq ι] [DecidableEq κ] [SemaphoreState S] [Order O]
variable {C : Closeability} {own : Option ι}

/-! ## Faults -/

/-- **No move records a fault.** -/
theorem Move.no_fault {c d : Conf ι κ W S O} (h : Move C own c d)
    (hc : ∀ f, .fault f ∉ c.1.log) : ∀ f, .fault f ∉ d.1.log := by
  intro f
  cases h with
  | note w h e he | reject w i p front e he | giveBack w i p e he =>
    cases he <;> simp [hc f]
  | _ => simp [World.callRelease, World.updateState, hc f]

/-! ## Extractions -/

/-- Is this an extraction of the result of `i`? -/
def Event.isTook (i : ι) : Event ι κ W S → Bool
  | .took j => j == i
  | _ => false

/-- How often the result of `i` was extracted. -/
def extractions (i : ι) (log : List (Event ι κ W S)) : Nat := log.countP (Event.isTook i)

/-- The result of `i` is extracted at most once, and not while it is still to come. -/
abbrev TookOnce (i : ι) : Conf ι κ W S O → Prop := Once (Event.isTook i) (Resolved i)

/-- A move that extracts the result of the removed node `j`. -/
theorem TookOnce.extract {c d : Conf ι κ W S O} {i j : ι} {r : Removed S} (hc : TookOnce i c)
    (h : Move C own c d) (hj : c.1.slots j = .live ⟨.removed r, none⟩) (hd : Resolved j d)
    (hlog : d.1.log.countP (Event.isTook i) =
      c.1.log.countP (Event.isTook i) + if j == i then 1 else 0) : TookOnce i d := by
  by_cases hij : j = i
  · subst hij
    exact hc.mark (not_resolved_of_removed hj) hd (by simpa using hlog)
  · have hne : (j == i) = false := beq_eq_false_iff_ne.mpr hij
    exact hc.frame (fun hr => hr.move h) (by simpa [hne] using hlog)

theorem TookOnce.move {c d : Conf ι κ W S O} {i : ι} (hc : TookOnce i c) (h : Move C own c d) :
    TookOnce i d := by
  have hstable : Resolved i c → Resolved i d := fun hr => hr.move h
  have hmove := h
  cases h with
  | note w h e he | reject w j p front e he | giveBack w j p e he =>
    cases he <;> exact hc.frame hstable (by simp [Event.isTook])
  -- a poll or a drop takes the result
  | claim w j r hj =>
    exact hc.extract hmove hj ⟨by simp, id⟩ (by simp [List.countP_cons, Event.isTook])
  | claimError w j params hj =>
    exact hc.extract hmove hj ⟨by simp, Hand.asks_ofParams j j params⟩
      (by simp [List.countP_cons, Event.isTook])
  | cancelGranted w j r hj =>
    exact hc.extract hmove hj ⟨by simp, id⟩ (by simp [List.countP_cons, Event.isTook])
  | cancelRefused w k j params c hj =>
    exact hc.extract hmove hj ⟨by simp, id⟩ (by simp [List.countP_cons, Event.isTook])
  | _ =>
    exact hc.frame hstable
      (by simp [Event.isTook, World.callRelease, World.updateState])

/-! ## The statement about runs -/

variable [DecidableEq W]

/-- What the `unsafe` blocks rely on, as far as a state and its history show it: no
precondition was ever violated, no result was extracted twice, and the list is discarded only
when the queue is closed and no node is linked. -/
structure Justified (w : World ι κ W S O) : Prop where
  no_fault : ∀ f, .fault f ∉ w.log
  took_once : ∀ i, extractions i w.log ≤ 1
  discarded : w.inner.isOk = false →
    w.inner.closed = true ∧ ∀ i a, w.slots i = .live a → a.node ≠ .linked

omit [DecidableEq ι] [DecidableEq κ] [DecidableEq W] [Order O] in
theorem Coherent.none_linked {w : World ι κ W S O} (hw : Coherent C w)
    (hdiscarded : w.inner.isOk = false) {i : ι} {a : Acquire S} (hi : w.slots i = .live a) :
    a.node ≠ .linked := by
  obtain ⟨n, params⟩ := a
  intro hn
  subst hn
  have hparams : params = none := hw.asked i _ hi (by simp)
  subst hparams
  have hmem := (hw.linked i).mpr hi
  cases hq : w.inner.queue with
  | ok queue => simp [QueueState.isOk, hq] at hdiscarded
  | error _ => simp [QueueState.entries, hq] at hmem

theorem Reachable.no_fault {state : S} {order : O} {w : World ι κ W S O}
    (h : Reachable C state order w) : ∀ f, .fault f ∉ w.log := by
  apply Reachable.invariant_of_moves (fun c => ∀ f, .fault f ∉ c.1.log) ?_ ?_ h
  · intro c d _ hc _ hm
    exact hm.no_fault hc
  · intro f hf
    cases hf

/-- **The unchecked operations are justified**, in every reachable state of every run,
whatever unwound before. -/
theorem unchecked_operations_justified {state : S} {order : O} {w : World ι κ W S O}
    (h : Reachable C state order w) : Justified w := by
  refine ⟨?_, ?_, ?_⟩
  · exact Reachable.no_fault h
  · intro i
    have hinv : TookOnce i (w, (.empty : Hand ι S)) := by
      apply Reachable.invariant_of_moves _ ?_ ?_ h
      · intro c d _ hc _ hm
        exact hc.move hm
      · exact Once.start _ rfl
    exact hinv.1
  · intro hdiscarded
    have hw := (Reachable.settled h).coherent
    exact ⟨hw.discarded hdiscarded, fun i a hi => hw.none_linked hdiscarded hi⟩

/-- A waiter of a closed queue takes its error after the list was discarded. -/
theorem unchecked_operations_justified_after_close :
    ∃ w : World Nat Nat Nat SemaphoreCounter FairOrder,
      run .closeable ⟨1⟩ .fifo [.acquire 0 (3 : Nat), .poll 0 7 .quiet, .close 0,
        .wake 0 (.returned ()), .finish 0 (.returned ()), .poll 0 7 .quiet] = some w ∧
      Justified w :=
  exists_run _ rfl fun _ h => unchecked_operations_justified h

end FlagBearer
