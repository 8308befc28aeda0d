import FlagBearer.Queue.Closing

/-!
# Destructors Under the Lock

The drop of an `Acquire` goes to some length to destroy abandoned params and wakers after the
mutex is released, because their destructors may call back into the same queue. Four paths of
`poll` and `try_acquire` do not: a first poll of a poisoned queue, an `Order` that panics, a
waker clone that panics while a request is to be queued, and a re-poll with another waker.
This module counts the values destroyed under the lock and shows that no step but these
destroys one.

## Main results

- `step_discards`: what one step destroys under the lock
- `no_destructor_under_lock_iff`: the statement about runs
-/

namespace FlagBearer

open PinList

variable {ι κ W S O : Type} [SemaphoreState S] {C : Closeability}

/-! ## Counting destructors -/

/-- Did a waker's or params' destructor run while the mutex was held? -/
@[simp] def Event.underLock : Event ι κ W S → Bool
  | .droppedWaker _ held _ => held
  | .droppedParams _ held => held
  | _ => false

/-- The number of wakers and params destroyed while the mutex was held. -/
def World.discards (w : World ι κ W S O) : Nat := w.log.countP Event.underLock

section Primitives

variable (w : World ι κ W S O)

@[simp] theorem World.discards_emit (e : Event ι κ W S) :
    (w.emit e).discards = w.discards + e.underLock.toNat := by
  rw [World.discards, World.emit_log, List.countP_append, List.countP_singleton]
  cases e.underLock <;> rfl

/-- Only the log counts. -/
@[simp] theorem World.discards_mk (locked : Bool) (inner : QueueState ι W S O) (slots : ι → Slot S)
    (permits : ι → Option (Permit S)) (calls : κ → Option (Call ι W S)) :
    (World.mk locked inner slots permits calls w.log).discards = w.discards := rfl

@[simp] theorem World.discards_lock : w.lock.discards = w.discards := rfl

@[simp] theorem World.discards_unlock : w.unlock.discards = w.discards := rfl

@[simp] theorem World.discards_setList (queue : WaitList ι W S) :
    (w.setList queue).discards = w.discards := rfl

@[simp] theorem World.discards_setSlot [DecidableEq ι] (i : ι) (x : Slot S) :
    (w.setSlot i x).discards = w.discards := rfl

@[simp] theorem World.discards_setPermit [DecidableEq ι] (i : ι) (r : Option (Permit S)) :
    (w.setPermit i r).discards = w.discards := rfl

@[simp] theorem World.discards_setCall [DecidableEq κ] (k : κ) (c : Option (Call ι W S)) :
    (w.setCall k c).discards = w.discards := rfl

@[simp] theorem World.discards_guarded {α : Type} (state : S) (res : Unwind α) :
    (w.guarded state res).discards = w.discards := rfl

@[simp] theorem World.discards_setNode [DecidableEq ι] (i : ι) (n : Node (Removed S)) :
    (w.setNode i n).discards = w.discards := by
  unfold World.setNode
  split <;> rfl

@[simp] theorem World.discards_modifyCall [DecidableEq κ] (k : κ) (f : Call ι W S → Call ι W S) :
    (w.modifyCall k f).discards = w.discards := by
  unfold World.modifyCall
  split <;> rfl

@[simp] theorem World.discards_decLen : w.decLen.discards = w.discards := by
  unfold World.decLen
  split
  · simp
  · rfl

@[simp] theorem World.discards_pushWake [DecidableEq κ] (k : κ) (i : ι) (x : W) :
    (w.pushWake k i x).discards = w.discards := by
  unfold World.pushWake
  split
  · split <;> simp
  · rfl

@[simp] theorem World.discards_callAcquire (i : ι) (p : Params S) :
    (w.callAcquire i p).1.discards = w.discards := by
  simp [World.callAcquire]

@[simp] theorem World.discards_callRelease (who : Releaser) (i : ι) (r : Permit S) :
    (w.callRelease who i r).1.discards = w.discards := by
  simp [World.callRelease]

@[simp] theorem World.discards_updateState (f : S → S × Unwind Unit) :
    (w.updateState f).1.discards = w.discards := by
  simp [World.updateState]

@[simp] theorem World.discards_consult [Order O]
    (i : ι) : (w.consult i).1.discards = w.discards := by
  simp [World.consult]

@[simp] theorem World.discards_dropParams (p : Params S) :
    (w.dropParams p).discards = w.discards + w.locked.toNat := by
  simp [World.dropParams]

@[simp] theorem World.discards_dropWaker (x : W) (res : Unwind Unit) :
    (w.dropWaker x res).discards = w.discards + w.locked.toNat := by
  simp [World.dropWaker]

end Primitives

/-! ## Sections that destroy nothing -/

variable [DecidableEq ι] [DecidableEq κ]

theorem checkLoop_discards (k : κ) (before after : WaitList ι W S) (w : World ι κ W S O) :
    (checkLoop k before after w).1.discards = w.discards := by
  induction after generalizing before w with
  | nil => rfl
  | cons e after ih =>
    obtain ⟨i, params, x⟩ := e
    cases params with
    | none => exact ih _ w
    | some p =>
      have hacq := (w.setList (before ++ (i, none, x) :: after)).discards_callAcquire i p
      unfold checkLoop
      rcases hcall : (w.setList (before ++ (i, none, x) :: after)).callAcquire i p with
        ⟨w₁, (_ | _) | _⟩
      all_goals
        rw [hcall] at hacq
        simp only [World.discards_setList] at hacq
      · -- a refusal: the params go back into the list
        simpa using hacq
      · -- a grant: the node leaves, and the loop may go on
        simp only [Cursor.removeCurrent]
        split
        · simpa using hacq
        · rw [ih]
          simpa using hacq
      · exact hacq

theorem check_discards (k : κ) (w : World ι κ W S O) :
    (check C k w).1.discards = w.discards := by
  unfold check
  split
  · rfl
  · split
    · rfl
    · exact checkLoop_discards k [] _ w

theorem withQueueTurn_discards (k : κ) (w : World ι κ W S O) :
    (withQueueTurn C k w).discards = w.discards := by
  have hcheck := check_discards (C := C) k w
  unfold withQueueTurn
  rcases hres : check C k w with ⟨w', _ | _⟩
  all_goals
    rw [hres] at hcheck
    simpa using hcheck

/-- A call of `with_queue` destroys nothing under the lock if its closure does not. -/
theorem withQueue_discards (k : κ) (w : World ι κ W S O)
    {f : World ι κ W S O → World ι κ W S O × Unwind Unit}
    (hf : ∀ v, (f v).1.discards = v.discards) : (withQueue C k w f).discards = w.discards := by
  have hrun := hf ((w.setCall k (some (.start .withQueue))).lock.emit (.entered k .withQueue))
  unfold withQueue
  rcases hres : f ((w.setCall k (some (.start .withQueue))).lock.emit (.entered k .withQueue)) with
    ⟨w', _ | _⟩
  · rw [hres] at hrun
    simp only [hres]
    split
    · simpa using hrun
    · rw [withQueueTurn_discards]
      simpa using hrun
  · rw [hres] at hrun
    simp only [hres]
    simpa using hrun

omit [DecidableEq κ] in
theorem closeOne_discards (k : κ) {w : World ι κ W S O} (hw : Coherent C w) :
    (closeOne k w).1.discards = w.discards := by
  rcases hq : w.inner.queue with _ | _ | ⟨⟨i, params, x⟩, rest⟩
  · rw [closeOne_error k hq]
    rfl
  · rw [closeOne_nil k hw hq]
    rfl
  · rw [closeOne_cons k hw hq]
    exact w.discards_emit (.removed k .close i x)

theorem closeLoop_discards [Order O] (k : κ) (room : Nat) {w : World ι κ W S O} (hw : Coherent C w)
    (hC : C.CLOSE = true) : (closeLoop k room w).discards = w.discards := by
  induction room generalizing w with
  | zero => rfl
  | succ room ih =>
    have hcoh := closeOne_coherent k hw hC
    have hone := closeOne_discards k hw
    unfold closeLoop
    rcases hres : closeOne k w with ⟨w', _ | ⟨i, x⟩⟩
    · rw [hres] at hone
      exact hone
    · rw [hres] at hcoh hone
      have hpush : Coherent C (w'.pushWake k i x) := hcoh.pushWake k i x
      simp only [ih hpush, World.discards_pushWake]
      exact hone

theorem closeTurn_discards [Order O] (k : κ) {w : World ι κ W S O} (hw : Coherent C w)
    (hC : C.CLOSE = true) : (closeTurn k w).discards = w.discards := by
  have hstart : Coherent C (w.lock.emit (.entered k .close)) :=
    hw.frame_inner rfl rfl rfl rfl
  simp [closeTurn, closeLoop_discards k WakeBatch.CAP hstart hC]

theorem dropNode_discards (k : κ) (i : ι) (node : Node (Removed S)) (w : World ι κ W S O) :
    (dropNode k i node w).1.discards = w.discards := by
  unfold dropNode dropGranted dropRefused
  repeat' split
  all_goals simp

theorem dropAcquire_discards (k : κ) {w : World ι κ W S O} (hlocked : w.locked = false) (i : ι)
    (a : Acquire S) : (dropAcquire C k w i a).discards = w.discards := by
  unfold dropAcquire
  split
  · simp
  · simp [hlocked]
  · exact withQueue_discards k w (dropNode_discards k i _)

omit [DecidableEq ι] in
theorem wakeNext_discards {k : κ} {w w' : World ι κ W S O} {c : Call ι W S} {res : Unwind Unit}
    (h : wakeNext k w c res = some w') : w'.discards = w.discards := by
  unfold wakeNext at h
  split at h
  · cases h
  · split at h <;> cases h <;> simp

omit [DecidableEq ι] in
theorem finish_discards {k : κ} {w w' : World ι κ W S O} {c : Call ι W S} {res : Unwind Unit}
    (hlocked : w.locked = false) (h : finish k w c res = some w') :
    w'.discards = w.discards := by
  -- the mutex is free when a call ends
  have habandoned : (dropAbandoned w res c.abandoned).discards = w.discards := by
    unfold dropAbandoned
    split <;> simp [hlocked, World.dropParams]
  unfold finish at h
  split at h
  · split at h <;> cases h <;> simpa using habandoned
  · cases h

/-! ## The four paths that do -/

variable [DecidableEq W] [Order O]

/-- An open queue whose `Order` panics when it is consulted now. -/
def QueueState.orderPanics (C : Closeability) (q : QueueState ι W S O) : Bool :=
  !q.poisoned && !q.closing C && (Order.enqueueFront q.order q.len).2.isPanicked

/-- An open queue that would queue a first poll with these params now: the order sends it to
the back, or `S::acquire` refuses it. -/
def QueueState.queues (C : Closeability) (q : QueueState ι W S O) (p : Params S) : Bool :=
  !q.poisoned && !q.closing C &&
    match (Order.enqueueFront q.order q.len).2 with
    | .panicked => false
    | .returned front =>
      !(front || q.entries.isEmpty) ||
        match (SemaphoreState.acquire q.state p).2 with
        | .returned (.error _) => true
        | _ => false

/-- Does a first poll with these params, whose waker clone ends like this, destroy them? -/
def QueueState.losesParams (C : Closeability) (q : QueueState ι W S O) (p : Params S)
    (clone : Unwind Unit) : Bool :=
  q.poisoned || q.orderPanics C || (clone.isPanicked && q.queues C p)

/-- Does a re-poll of the linked node `i` destroy the waker it replaces? -/
def QueueState.losesWaker (C : Closeability) (q : QueueState ι W S O) (i : ι) (cx : W)
    (clone : Unwind Unit) : Bool :=
  !q.closing C && !clone.isPanicked &&
    match q.entries.lookup i with
    | some (_, x) => decide (x ≠ cx)
    | none => false

/-- The steps that run a destructor of params or of a waker under the lock. -/
def discardsUnderLock (C : Closeability) (w : World ι κ W S O) : Action ι κ W S → Bool
  | .poll i cx calls =>
    match w.slots i with
    | .live ⟨.initial, some p⟩ => w.inner.losesParams C p calls.clone
    | .live ⟨.linked, _⟩ => w.inner.losesWaker C i cx calls.clone
    | _ => false
  | .tryAcquire _ _ fair => fair && w.inner.orderPanics C
  | _ => false

omit [DecidableEq κ] [DecidableEq W] [Order O] in
@[simp] theorem link_discards (w : World ι κ W S O) (i : ι) (queue : WaitList ι W S)
    (p : Params S) (cx : W) (front : Bool) : (link w i queue p cx front).discards = w.discards := by
  unfold link
  split <;> simp

omit [DecidableEq κ] [DecidableEq W] [Order O] in
theorem wrapPoll_discards (i : ι) (cx : W) (out : World ι κ W S O × PollResult S) :
    (wrapPoll i cx out).discards = out.1.discards := by
  unfold wrapPoll
  split <;> simp

omit [DecidableEq κ] [DecidableEq W] [Order O] in
theorem wrapTry_discards (i : ι) (p : Params S) (out : World ι κ W S O × TryResult S) :
    (wrapTry i p out).discards = out.1.discards := by
  unfold wrapTry
  split <;> simp

omit [DecidableEq ι] [DecidableEq κ] [DecidableEq W] [Order O] in
theorem lead_discards (w : World ι κ W S O) (i : ι) (p : Params S) (front : Bool) :
    (lead w i p front).1.discards = w.discards := by
  have hacq := w.discards_callAcquire i p
  unfold lead
  rcases hcall : w.callAcquire i p with ⟨w', (_ | _) | _⟩
  all_goals
    rw [hcall] at hacq
    exact hacq

omit [DecidableEq ι] [DecidableEq κ] [DecidableEq W] in
/-- `acquire_or_enqueue` destroys the params under the lock if the `Order` panics. -/
theorem acquireOrEnqueue_discards {w : World ι κ W S O} (hw : Coherent C w)
    (hlocked : w.locked = true) (i : ι) (p : Params S) (fair : Bool) :
    (acquireOrEnqueue C w i p fair).1.discards =
      w.discards + (fair && w.inner.orderPanics C).toNat := by
  unfold QueueState.orderPanics
  cases hpoison : w.inner.poisoned with
  | true => simp [acquireOrEnqueue, hpoison]
  | false =>
    cases hclosing : w.inner.closing C with
    | true => simp [acquireOrEnqueue_closing hpoison hclosing]
    | false =>
      obtain ⟨queue, hq⟩ := hw.queue_of_open hclosing
      cases fair with
      | false =>
        -- an unfair caller does not consult the order
        simp [acquireOrEnqueue, hpoison, hclosing, hq, lead_discards]
      | true =>
        rcases hord : Order.enqueueFront w.inner.order w.inner.len with ⟨order, front | _⟩
        · rw [acquireOrEnqueue_open hpoison hclosing hq hord]
          split <;> simp [lead_discards]
        · rw [acquireOrEnqueue_panicked hpoison hclosing hq hord]
          simp [World.consult, hord, hlocked]

omit [DecidableEq κ] [DecidableEq W] in
/-- What a first poll destroys under the lock. -/
theorem pollFirst_discards {w : World ι κ W S O} (hw : Coherent C w) (hlocked : w.locked = true)
    (i : ι) (p : Params S) (cx : W) (calls : WakerCalls) :
    (pollFirst C w i p cx calls).1.discards =
      w.discards + (w.inner.losesParams C p calls.clone).toNat := by
  unfold QueueState.losesParams QueueState.orderPanics QueueState.queues
  cases hpoison : w.inner.poisoned with
  | true => simp [pollFirst, acquireOrEnqueue, hpoison, hlocked]
  | false =>
    cases hclosing : w.inner.closing C with
    | true => simp [pollFirst, acquireOrEnqueue_closing hpoison hclosing]
    | false =>
      obtain ⟨queue, hq⟩ := hw.queue_of_open hclosing
      have hentries := QueueState.entries_of_queue hq
      rcases hord : Order.enqueueFront w.inner.order w.inner.len with ⟨order, front | _⟩
      · -- the order answers: the request leads, or is queued
        unfold pollFirst
        rw [acquireOrEnqueue_open hpoison hclosing hq hord]
        cases hlead : front || queue.isEmpty with
        | false =>
          -- the params are lost if the clone panics
          cases hclone : calls.clone <;>
            simp [World.consult, hord, hentries, hq, hlead, hlocked]
        | true =>
          -- only a refused leader is queued
          rcases hacq : SemaphoreState.acquire w.inner.state p with ⟨state, (p' | r) | _⟩
          · cases hclone : calls.clone <;>
              simp [World.consult, hord, hentries, hq, hlead, hlocked, lead, World.callAcquire,
                hacq]
          · simp [World.consult, hord, hentries, hlead, lead, World.callAcquire, hacq]
          · simp [World.consult, hord, hentries, hlead, lead, World.callAcquire, hacq]
      · -- the order panics
        unfold pollFirst
        rw [acquireOrEnqueue_panicked hpoison hclosing hq hord]
        simp [World.consult, hord, hlocked]

omit [DecidableEq κ] [Order O] in
/-- A later poll destroys the old waker under the lock if the node is still queued and the new
waker is another one. -/
theorem pollAgain_discards {w : World ι κ W S O} (hw : Coherent C w) (hlocked : w.locked = true)
    {i : ι} (hi : w.slots i = .live ⟨.linked, none⟩) (cx : W) (calls : WakerCalls) :
    (pollAgain C w i .linked cx calls).1.discards =
      w.discards + (w.inner.losesWaker C i cx calls.clone).toNat := by
  obtain ⟨before, ⟨params, x⟩, after, hq, hlookup, hremove⟩ := hw.linked_split hi
  have hentries := QueueState.entries_of_queue hq
  unfold pollAgain QueueState.losesWaker
  cases hclosing : w.inner.closing C with
  | true =>
    -- the waker is destroyed after the unlock
    simp only [hq, if_true, Node.unlink, hlookup, hremove, Option.map_some, pollUnlinked]
    rcases calls.drop with _ | _ <;> cases params <;> simp [World.dropWaker]
  | false =>
    simp only [hq, Bool.false_eq_true, if_false, Node.protectedMut, hlookup, pollSpurious, hentries]
    by_cases hsame : x = cx
    · -- the waker is kept
      simp [hsame]
    · rcases hclone : calls.clone with _ | _
      · rcases calls.drop with _ | _ <;> simp [hsame, hlocked]
      · simp [hsame]

omit [DecidableEq κ] [DecidableEq W] [Order O] in
theorem pollTake_discards (w : World ι κ W S O) (i : ι) (node : Node (Removed S)) :
    (pollTake w i node).1.discards = w.discards := by
  unfold pollTake
  repeat' split
  all_goals simp

omit [DecidableEq κ] in
/-- What a poll destroys under the lock. -/
theorem poll_discards {w : World ι κ W S O} (hw : Coherent C w) {i : ι} {a : Acquire S}
    (hi : w.slots i = .live a) (cx : W) (calls : WakerCalls) :
    (pollAcquire C w i a cx calls).discards =
      w.discards + (discardsUnderLock C w (.poll i cx calls : Action ι κ W S)).toNat := by
  have hlock : Coherent C w.lock := hw.frame_inner rfl rfl rfl rfl
  obtain ⟨node, params⟩ := a
  rw [pollAcquire, wrapPoll_discards]
  cases node with
  | initial =>
    cases params with
    | none => simp [poll, discardsUnderLock, hi]
    | some p =>
      have hasked : Coherent C (w.lock.setSlot i (.live ⟨.initial, none⟩)) :=
        hlock.setSlot rfl rfl (by simp [hi]) (by simp)
      simp only [poll, discardsUnderLock, hi]
      exact pollFirst_discards hasked rfl i p cx calls
  | linked =>
    have hparams : params = none := hw.asked i _ hi (by simp)
    subst hparams
    simp only [poll, discardsUnderLock, hi]
    exact pollAgain_discards hlock rfl hi cx calls
  | removed r =>
    simp only [poll, discardsUnderLock, hi, pollAgain_removed]
    exact pollTake_discards w.lock i _

omit [DecidableEq κ] in
theorem tryAcquire_discards {w : World ι κ W S O} (hw : Coherent C w) {i : ι}
    (hi : w.slots i = .unborn) (p : Params S) (fair : Bool) :
    (tryAcquirePermit C w i p fair).discards =
      w.discards + (discardsUnderLock C w (.tryAcquire i p fair : Action ι κ W S)).toNat := by
  have hasked : Coherent C (w.setSlot i .gone).lock :=
    hw.setSlot rfl rfl (by simp [hi]) (by simp)
  have hadmit := acquireOrEnqueue_discards hasked rfl i p fair
  rw [tryAcquirePermit, wrapTry_discards]
  have hout : (tryAcquire C (w.setSlot i .gone) i p fair).1.discards =
      (acquireOrEnqueue C (w.setSlot i .gone).lock i p fair).1.discards := by
    unfold tryAcquire
    split <;> rename_i heq <;> rw [heq] <;> simp
  rw [hout]
  exact hadmit

/-! ## Runs -/

/-- **What one step destroys under the lock.** -/
theorem step_discards {w w' : World ι κ W S O} (hw : Settled C w) {a : Action ι κ W S}
    (h : step C w a = some w') :
    w'.discards = w.discards + (discardsUnderLock C w a).toNat := by
  have hcoh := hw.coherent
  cases step_cases h with
  -- the two actions that may destroy something
  | poll i a cx calls hi =>
    exact poll_discards hcoh hi cx calls
  | tryAcquire i p fair hi =>
    exact tryAcquire_discards hcoh hi p fair
  -- the others do not
  | acquire i p hi =>
    simp [discardsUnderLock]
  | withState k f hk =>
    exact withQueue_discards k w fun v => v.discards_updateState f
  | dropAcquire k i a hi hk =>
    exact dropAcquire_discards k hw.unlocked i _
  | dropPermit k i r hi hk =>
    exact withQueue_discards k (w.setPermit i none) fun v => v.discards_callRelease .guard i r
  | takePermit i r hi =>
    simp [discardsUnderLock, takePermit]
  | conjure i r hi =>
    simp [discardsUnderLock]
  | close k hC hk =>
    subst hC
    exact closeTurn_discards k (hcoh.frame_inner rfl rfl rfl rfl) rfl
  | clearPoison =>
    simp [discardsUnderLock]
  | observe =>
    rfl
  | resume k c hk hwakes hunw hmore =>
    unfold resume
    cases hkind : c.kind with
    | withQueue => simp [withQueueTurn_discards, discardsUnderLock]
    | close => exact closeTurn_discards k hcoh (hw.closes k c hk hkind)
  | wake k c res w' hk h =>
    exact wakeNext_discards h
  | finish k c res w' hk h =>
    exact finish_discards hw.unlocked h

/-- No params and no waker were destroyed while the mutex was held. -/
def NoneUnderLock (log : List (Event ι κ W S)) : Prop :=
  (∀ x res, .droppedWaker x true res ∉ log) ∧ ∀ p, .droppedParams p true ∉ log

omit [DecidableEq ι] [DecidableEq κ] [DecidableEq W] [Order O] in
theorem noneUnderLock_iff {w : World ι κ W S O} : NoneUnderLock w.log ↔ w.discards = 0 := by
  unfold NoneUnderLock World.discards
  rw [List.countP_eq_zero]
  constructor
  · intro hnone e he
    obtain ⟨hwaker, hparams⟩ := hnone
    cases e with
    | droppedWaker x held res =>
      cases held with
      | true => exact absurd he (hwaker x res)
      | false => simp
    | droppedParams p held =>
      cases held with
      | true => exact absurd he (hparams p)
      | false => simp
    | _ => simp
  · intro h
    constructor
    · intro x res he
      exact h _ he rfl
    · intro p he
      exact h _ he rfl

/-- No step of a run from `w` is one of those that destroy params or a waker under the lock. -/
def SparesLock (C : Closeability) : World ι κ W S O → List (Action ι κ W S) → Prop :=
  Transition.EveryStep (step C) fun v a _ => discardsUnderLock C v a = false

theorem exec_discards {w w' : World ι κ W S O} (hw : Settled C w) {acts : List (Action ι κ W S)}
    (h : Transition.exec (step C) w acts = some w') :
    w'.discards = 0 ↔ w.discards = 0 ∧ SparesLock C w acts := by
  induction acts generalizing w with
  | nil =>
    cases h
    simp [SparesLock, Transition.EveryStep]
  | cons a acts ih =>
    obtain ⟨u, hu, hrest⟩ := Option.bind_eq_some_iff.mp h
    have hstep := step_discards hw hu
    -- the first step counts, and so does the rest of the run
    rw [ih (hw.step hu) hrest, hstep]
    have hspares : SparesLock C w (a :: acts) ↔
        discardsUnderLock C w a = false ∧ SparesLock C u acts := by
      simp [SparesLock, Transition.EveryStep, hu]
    rw [hspares]
    cases discardsUnderLock C w a <;> simp

/-- **No destructor runs under the lock** in a run if and only if none of its steps is a first
poll of a poisoned queue, a first poll or fair `try_acquire` whose `Order` panics, a first poll
that is to be queued and whose waker clone panics, or a re-poll of a queued node with another
waker. -/
theorem no_destructor_under_lock_iff {state : S} {order : O} {acts : List (Action ι κ W S)}
    {w : World ι κ W S O} (h : run C state order acts = some w) :
    NoneUnderLock w.log ↔ SparesLock C (World.new state order) acts := by
  rw [noneUnderLock_iff, exec_discards (Settled.new state order) h]
  simp [World.discards, World.new]

/-- A waiter that polls again with another waker. -/
theorem no_destructor_under_lock_iff_of_rewake :
    ∃ w : World Nat Nat Nat SemaphoreCounter FairOrder,
      run .uncloseable ⟨0⟩ .fifo
        [.acquire 0 (1 : Nat), .poll 0 7 .quiet, .poll 0 8 .quiet] = some w ∧
      (NoneUnderLock w.log ↔ SparesLock .uncloseable
        (World.new ⟨0⟩ .fifo : World Nat Nat Nat SemaphoreCounter FairOrder)
        [.acquire 0 (1 : Nat), .poll 0 7 .quiet, .poll 0 8 .quiet]) :=
  ⟨_, rfl, no_destructor_under_lock_iff rfl⟩

/-- The second poll destroys the first waker while it holds the mutex. -/
theorem destructor_under_lock :
    ¬ ∀ w : World Nat Nat Nat SemaphoreCounter FairOrder,
      Reachable .uncloseable ⟨0⟩ .fifo w → NoneUnderLock w.log := by
  intro hnone
  have hrun : (run .uncloseable (⟨0⟩ : SemaphoreCounter) FairOrder.fifo
      ([.acquire 0 (1 : Nat), .poll 0 7 .quiet, .poll 0 8 .quiet] :
        List (Action Nat Nat Nat SemaphoreCounter))).map World.discards = some 1 := rfl
  obtain ⟨w, hw, hone⟩ := Option.map_eq_some_iff.mp hrun
  have hreach : Reachable .uncloseable ⟨0⟩ .fifo w := Transition.reachable_iff_exec.mpr ⟨_, hw⟩
  rw [noneUnderLock_iff.mp (hnone w hreach)] at hone
  cases hone

end FlagBearer
