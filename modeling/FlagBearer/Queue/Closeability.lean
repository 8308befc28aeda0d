import FlagBearer.Queue.Answers

/-!
# What Closeability Adds

`Closeable` and `Uncloseable` differ in a constant and in the type of an error. A closeable queue
that is never closed goes through the same states as one that cannot be closed, and nobody is told
that a queue is closed before somebody has closed it. So a queue that cannot be closed refuses
nobody: the error of its `acquire` does not occur, and `must_acquire` never comes to `never()`.

## Main results

- `step_unclosed`: the steps agree as long as the queue is not closed
- `run_unclosed`: the statement about runs
- `refused_only_after_close`: and what it means for the errors
-/

namespace FlagBearer

open PinList

variable {ι κ W S O : Type} [SemaphoreState S]

/-! ## Lock sections of a queue that is not closed -/

theorem Coherent.not_closed {w : World ι κ W S O} (hw : Coherent .uncloseable w) :
    w.inner.closed = false := by
  rw [Bool.eq_false_iff]
  intro hclosed
  cases hw.closeable hclosed

theorem closing_of_not_closed {q : QueueState ι W S O} (h : q.closed = false) (C : Closeability) :
    q.closing C = false := by
  simp [QueueState.closing, h]

section Sections

variable {w : World ι κ W S O}

theorem withQueueTurn_unclosed [DecidableEq ι] [DecidableEq κ]
    (k : κ) (h : w.inner.closed = false) :
    withQueueTurn .closeable k w = withQueueTurn .uncloseable k w := by
  have hcheck : check .closeable k w = check .uncloseable k w := by
    simp only [check, closing_of_not_closed h]
  unfold withQueueTurn
  rw [hcheck]

theorem withQueue_unclosed [DecidableEq ι] [DecidableEq κ] [Order O]
    {own : Option ι} {k : κ} {h : Hand ι S}
    {f : World ι κ W S O → World ι κ W S O × Unwind Unit} (hw : Coherent .uncloseable w)
    (hk : w.calls k = none)
    (hclosure : ClosureMoves .uncloseable own k h (w.enter k) (f (w.enter k))) :
    withQueue .closeable k w f = withQueue .uncloseable k w f := by
  have hcoh := (hw.enter hk).moves hclosure.moves
  rcases hres : f (w.enter k) with ⟨w', _ | _⟩
  · rw [hres] at hcoh
    rw [withQueue_of_returned hres, withQueue_of_returned hres,
      withQueueTurn_unclosed k hcoh.not_closed]
  · rw [withQueue_of_panicked hres, withQueue_of_panicked hres]

theorem acquireOrEnqueue_unclosed [Order O] (hw : Coherent .uncloseable w) (i : ι) (p : Params S)
    (fair : Bool) :
    acquireOrEnqueue .closeable w i p fair = acquireOrEnqueue .uncloseable w i p fair := by
  obtain ⟨queue, hq⟩ := hw.queue_of_open (closing_of_not_closed hw.not_closed .uncloseable)
  simp only [acquireOrEnqueue, closing_of_not_closed hw.not_closed, Bool.false_eq_true, if_false,
    hq]

theorem poll_unclosed [DecidableEq ι] [DecidableEq W] [Order O]
    (hw : Coherent .uncloseable w) {i : ι} {a : Acquire S}
    (hi : w.slots i = .live a) (cx : W) (calls : WakerCalls) :
    poll .closeable w i a cx calls = poll .uncloseable w i a cx calls := by
  have hlock : Coherent .uncloseable w.lock := hw.frame_inner rfl rfl rfl rfl
  have hagain (n : Node (Removed S)) :
      pollAgain .closeable w.lock i n cx calls = pollAgain .uncloseable w.lock i n cx calls := by
    simp only [pollAgain, closing_of_not_closed hlock.not_closed]
  obtain ⟨n, params⟩ := a
  cases n with
  | linked => exact hagain .linked
  | removed r => exact hagain (.removed r)
  | initial =>
    cases params with
    | none => rfl
    | some p =>
      have hasked : Coherent .uncloseable (w.lock.setSlot i (.live ⟨.initial, none⟩)) :=
        hlock.setSlot rfl rfl (by simp [hi]) (by simp)
      simp only [poll, pollFirst, acquireOrEnqueue_unclosed hasked]

end Sections

/-! ## Steps and runs -/

variable [DecidableEq ι] [DecidableEq κ] [DecidableEq W] [Order O]

/-- **The steps agree** as long as the queue is not closed. -/
theorem step_unclosed {w : World ι κ W S O} (hw : Settled .uncloseable w) {a : Action ι κ W S}
    (ha : ∀ k, a ≠ .close k) : step .closeable w a = step .uncloseable w a := by
  have hcoh := hw.coherent
  cases a with
  | close k => exact absurd rfl (ha k)
  | poll i cx calls =>
    simp only [step]
    cases hi : w.slots i with
    | live a => simp only [pollAcquire, poll_unclosed hcoh hi]
    | _ => rfl
  | tryAcquire i p fair =>
    simp only [step]
    cases hi : w.slots i with
    | unborn =>
      have hgone : Coherent .uncloseable (w.setSlot i .gone).lock :=
        hcoh.setSlot rfl rfl (by simp [hi]) (by simp)
      simp only [tryAcquirePermit, tryAcquire, acquireOrEnqueue_unclosed hgone]
    | _ => rfl
  | withState k f =>
    simp only [step]
    cases hk : w.calls k with
    | none =>
      have hclosure : ClosureMoves .uncloseable none k .empty _ _ :=
        updateState_closure f (w.enter_call k)
      simp only [withQueue_unclosed (f := fun w => w.updateState f) hcoh hk hclosure]
    | some c => rfl
  | dropAcquire k i =>
    simp only [step]
    cases hi : w.slots i with
    | live a =>
      cases hk : w.calls k with
      | some c => rfl
      | none =>
        obtain ⟨n, params⟩ := a
        by_cases hn : n = .initial
        · subst hn
          -- a future that never asked has nothing to give back
          cases params <;> rfl
        · obtain rfl : params = none := hcoh.asked i _ hi hn
          -- it gives back what its node held, then checks
          have hclosure := dropNode_closure (hcoh.enter hk) hi hn (w.enter_call k)
          simp only [dropAcquire_of_asked k w i hn]
          rw [withQueue_unclosed hcoh hk hclosure]
    | _ => rfl
  | dropPermit k i =>
    simp only [step]
    cases hi : w.permits i with
    | none => rfl
    | some r =>
      cases hk : w.calls k with
      | some c => rfl
      | none =>
        have hopened : Coherent .uncloseable (w.setPermit i none) :=
          hcoh.frame_inner rfl rfl rfl rfl
        have hclosure : ClosureMoves .uncloseable none k (.releasing .guard i r) _ _ :=
          callRelease_closure .guard i r ((w.setPermit i none).enter_call k)
        simp only [dropPermit]
        rw [withQueue_unclosed hopened hk hclosure]
  | resume k =>
    simp only [step]
    cases hk : w.calls k with
    | none => rfl
    | some c =>
      have hturn : withQueueTurn .closeable k (w.lock.emit (.entered k .withQueue)) =
          withQueueTurn .uncloseable k (w.lock.emit (.entered k .withQueue)) :=
        withQueueTurn_unclosed k hcoh.not_closed
      simp only [resume, hturn]
  | _ => rfl

/-- Without a close the runs agree from every state that is not closed. -/
theorem exec_unclosed {w : World ι κ W S O} (hw : Settled .uncloseable w)
    {acts : List (Action ι κ W S)} (hacts : ∀ a ∈ acts, ∀ k, a ≠ .close k) :
    Transition.exec (step .closeable) w acts = Transition.exec (step .uncloseable) w acts :=
  Transition.exec_congr (P := fun a => ∀ k, a ≠ .close k) (Settled .uncloseable)
    (fun _ _ hv ha => step_unclosed hv ha) (fun _ _ _ hv h => hv.step h) hw hacts

/-- **A closeable queue that is not closed runs like one that cannot be closed**: for the same
actions, whatever they are and whatever panics, it goes through the same states, with the same
history and the same answers. -/
theorem run_unclosed {state : S} {order : O} {acts : List (Action ι κ W S)}
    (hacts : ∀ a ∈ acts, ∀ k, a ≠ .close k) :
    run .closeable state order acts = run .uncloseable state order acts :=
  exec_unclosed (Settled.new state order) hacts

/-- A waiter is granted by a closure. -/
theorem run_unclosed_of_waiter :
    run .closeable (⟨0⟩ : SemaphoreCounter) FairOrder.fifo
        [.acquire (0 : Nat) (1 : Nat), .poll 0 (7 : Nat) .quiet,
          .withState (0 : Nat) (SemaphoreCounter.add 1)] =
      run .uncloseable ⟨0⟩ FairOrder.fifo
        [.acquire 0 (1 : Nat), .poll 0 7 .quiet, .withState 0 (SemaphoreCounter.add 1)] :=
  run_unclosed (by simp)

/-! ## Errors -/

/-- A queue that cannot be closed refuses nobody. -/
theorem not_refusing {state : S} {order : O} {w : World ι κ W S O}
    (h : Reachable .uncloseable state order w) : ¬ Refusing w := by
  intro hrefusing
  have hclosed := Reachable.closed_of_refusing h hrefusing
  rw [(Reachable.settled h).coherent.not_closed] at hclosed
  cases hclosed

/-- **Nobody is refused before somebody closes the queue**: if a task was told that the queue is
closed, or a node holds such an error, then the queue is closeable and `close` was called. -/
theorem refused_only_after_close {C : Closeability} {state : S} {order : O}
    {acts : List (Action ι κ W S)} {w : World ι κ W S O} (h : run C state order acts = some w)
    (hrefusing : Refusing w) : C = .closeable ∧ ∃ k, .close k ∈ acts := by
  have hreach : Reachable C state order w := Transition.reachable_iff_exec.mpr ⟨acts, h⟩
  cases C with
  | uncloseable => exact absurd hrefusing (not_refusing hreach)
  | closeable =>
    refine ⟨rfl, ?_⟩
    by_contra hnone
    -- without a close the run is one of a queue that cannot be closed
    have hacts : ∀ a ∈ acts, ∀ k, a ≠ .close k := by
      intro a ha k hak
      exact hnone ⟨k, hak ▸ ha⟩
    have hrun : run .uncloseable state order acts = some w :=
      (exec_unclosed (Settled.new state order) hacts).symm.trans h
    exact not_refusing (Transition.reachable_iff_exec.mpr ⟨acts, hrun⟩) hrefusing

/-- A waiter is told on its next poll. -/
theorem refused_only_after_close_of_waiter :
    let acts : List (Action Nat Nat Nat SemaphoreCounter) :=
      [.acquire 0 (1 : Nat), .poll 0 7 .quiet, .close 0, .poll 0 7 .quiet]
    ∃ w, run .closeable (⟨0⟩ : SemaphoreCounter) FairOrder.fifo acts = some w ∧
      Closeability.closeable = .closeable ∧ ∃ k, .close k ∈ acts :=
  exists_run_of_test _ (fun w => (reports w.log).any Event.isRefusal) rfl fun _ hw htest =>
    refused_only_after_close hw (Or.inr (List.any_eq_true.mp htest))

end FlagBearer
