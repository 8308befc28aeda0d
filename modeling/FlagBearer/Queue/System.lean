import FlagBearer.Lib.Transition
import FlagBearer.Queue.Sections

/-!
# The Semaphore as a Transition System

The operations of `Semaphore` (flag-bearer, over `SemaphoreQueue`) at the granularity of lock
sections. Everything a caller or a callback may choose is part of the action: the request,
its params and its waker, the `with_state` closure, and whether wakers panic. An operation
that a waker runs is an action of its own, placed between the sections of the call that
invoked the waker.

## Layers

- `poll`, `tryAcquire`, `withQueue`, `close`: `SemaphoreQueue`, in `Sections`
- `pollAcquire`, `tryAcquirePermit`, `dropPermit`, `takePermit`: `Semaphore` and its `Permit`
  guards (`permit.rs`, `drop_wrapper.rs`)
-/

namespace FlagBearer

variable {ι κ W S O : Type} [DecidableEq ι] [DecidableEq κ] [DecidableEq W]
variable [SemaphoreState S] [Order O]

/-! ## Construction -/

/-- `SemaphoreQueue::new` -/
def QueueState.new (state : S) (order : O) : QueueState ι W S O :=
  ⟨.ok [], false, false, 0, order, state⟩

/-- A fresh semaphore that nobody has used yet. -/
def World.new (state : S) (order : O) : World ι κ W S O :=
  ⟨false, .new state order, fun _ => .unborn, fun _ => none, fun _ => none, []⟩

/-! ## Permit guards -/

/-- Wrap the permit that a poll returns in a guard: `Permit::out_of_thin_air` in
`Semaphore::acquire`. -/
def wrapPoll (i : ι) (cx : W) : World ι κ W S O × PollResult S → World ι κ W S O
  | (w, .returned (.ready (.ok r))) =>
    (w.setPermit i (some r)).emit (.polled i cx (.returned (.ready (.ok r))))
  | (w, res) => w.emit (.polled i cx res)

/-- Wrap the permit that `try_acquire` returns in a guard. -/
def wrapTry (i : ι) (p : Params S) : World ι κ W S O × TryResult S → World ι κ W S O
  | (w, .returned (.ok r)) => (w.setPermit i (some r)).emit (.tried i p (.returned (.ok r)))
  | (w, res) => w.emit (.tried i p res)

/-- A poll of the `Acquire` inside the future that `Semaphore::acquire` returns. The async
function keeps no data beside it. What it adds is that a poll which unwinds also drops the
`Acquire` (a `dropAcquire` right after this step) and that its own future is not polled again. -/
def pollAcquire (C : Closeability) (w : World ι κ W S O) (i : ι) (a : Acquire S) (cx : W)
    (calls : WakerCalls) : World ι κ W S O :=
  wrapPoll i cx (poll C w i a cx calls)

/-- `Semaphore::try_acquire` and `try_acquire_unfair`. -/
def tryAcquirePermit (C : Closeability) (w : World ι κ W S O) (i : ι) (p : Params S)
    (fair : Bool) : World ι κ W S O :=
  wrapTry i p (tryAcquire C (w.setSlot i .gone) i p fair)

/-- `Permit::take` -/
def takePermit (w : World ι κ W S O) (i : ι) (r : Permit S) : World ι κ W S O :=
  (w.setPermit i none).emit (.taken i r)

/-- The drop of a `Permit`: `self.sem.with_state(|s| s.release(permit))`. -/
def dropPermit (C : Closeability) (k : κ) (w : World ι κ W S O) (i : ι) (r : Permit S) :
    World ι κ W S O :=
  withQueue C k (w.setPermit i none) fun w => w.callRelease .guard i r

/-! ## Actions -/

/-- What a task, a waker or the user of the semaphore may do next. -/
inductive Action (ι κ W S : Type) [SemaphoreState S] where
  /-- `SemaphoreQueue::acquire` -/
  | acquire (i : ι) (p : Params S)
  | poll (i : ι) (cx : W) (calls : WakerCalls)
  | tryAcquire (i : ι) (p : Params S) (fair : Bool)
  | withState (k : κ) (f : S → S × Unwind Unit)
  | dropAcquire (k : κ) (i : ι)
  | dropPermit (k : κ) (i : ι)
  | takePermit (i : ι)
  /-- `Permit::out_of_thin_air` -/
  | conjure (i : ι) (r : Permit S)
  | close (k : κ)
  | clearPoison
  /-- `is_closed` or `is_poisoned` -/
  | observe
  /-- the next lock section of a call -/
  | resume (k : κ)
  /-- the next waker of a call's batch is invoked -/
  | wake (k : κ) (res : Unwind Unit)
  /-- a call ends -/
  | finish (k : κ) (drop : Unwind Unit)

/-- The request whose future or guard an action is about. -/
def Action.request : Action ι κ W S → Option ι
  | .acquire i _ => some i
  | .poll i _ _ => some i
  | .tryAcquire i _ _ => some i
  | .dropAcquire _ i => some i
  | .dropPermit _ i => some i
  | .takePermit i => some i
  | .conjure i _ => some i
  | _ => none

variable (C : Closeability)

/-- The next state, or `none` if the action is not possible. Request names are used once;
`close` exists on closeable semaphores only. -/
def step (w : World ι κ W S O) : Action ι κ W S → Option (World ι κ W S O)
  | .acquire i p =>
    match w.slots i with
    | .unborn => some ((w.setSlot i (.live ⟨.initial, some p⟩)).emit (.created i p))
    | _ => none
  | .poll i cx calls =>
    match w.slots i with
    | .live a => some (pollAcquire C w i a cx calls)
    | _ => none
  | .tryAcquire i p fair =>
    match w.slots i with
    | .unborn => some (tryAcquirePermit C w i p fair)
    | _ => none
  | .withState k f =>
    match w.calls k with
    | none => some (withQueue C k w fun w => w.updateState f)
    | some _ => none
  | .dropAcquire k i =>
    match w.slots i, w.calls k with
    | .live a, none => some (dropAcquire C k w i a)
    | _, _ => none
  | .dropPermit k i =>
    match w.permits i, w.calls k with
    | some r, none => some (dropPermit C k w i r)
    | _, _ => none
  | .takePermit i =>
    match w.permits i with
    | some r => some (takePermit w i r)
    | none => none
  | .conjure i r =>
    match w.slots i with
    | .unborn => some (((w.setSlot i .gone).setPermit i (some r)).emit (.conjured i r))
    | _ => none
  | .close k =>
    match C, w.calls k with
    | .closeable, none => some (close k w)
    | _, _ => none
  | .clearPoison =>
    some (({ w with inner := { w.inner with poisoned := false } } : World ι κ W S O).emit .cleared)
  | .observe => some w.lock.unlock
  | .resume k =>
    match w.calls k with
    | some c =>
      if c.wakes.wakers.isEmpty && !c.unwinding && c.more then some (resume C k w c) else none
    | none => none
  | .wake k res =>
    match w.calls k with
    | some c => wakeNext k w c res
    | none => none
  | .finish k drop =>
    match w.calls k with
    | some c => finish k w c drop
    | none => none

/-- The steps that are possible in a state, each with its guard and its result. -/
inductive Steps (C : Closeability) (w : World ι κ W S O) :
    Action ι κ W S → World ι κ W S O → Prop where
  | acquire (i : ι) (p : Params S) (hi : w.slots i = .unborn) :
      Steps C w (.acquire i p) ((w.setSlot i (.live ⟨.initial, some p⟩)).emit (.created i p))
  | poll (i : ι) (a : Acquire S) (cx : W) (calls : WakerCalls) (hi : w.slots i = .live a) :
      Steps C w (.poll i cx calls) (pollAcquire C w i a cx calls)
  | tryAcquire (i : ι) (p : Params S) (fair : Bool) (hi : w.slots i = .unborn) :
      Steps C w (.tryAcquire i p fair) (tryAcquirePermit C w i p fair)
  | withState (k : κ) (f : S → S × Unwind Unit) (hk : w.calls k = none) :
      Steps C w (.withState k f) (withQueue C k w fun w => w.updateState f)
  | dropAcquire (k : κ) (i : ι) (a : Acquire S) (hi : w.slots i = .live a)
      (hk : w.calls k = none) : Steps C w (.dropAcquire k i) (dropAcquire C k w i a)
  | dropPermit (k : κ) (i : ι) (r : Permit S) (hi : w.permits i = some r)
      (hk : w.calls k = none) : Steps C w (.dropPermit k i) (dropPermit C k w i r)
  | takePermit (i : ι) (r : Permit S) (hi : w.permits i = some r) :
      Steps C w (.takePermit i) (takePermit w i r)
  | conjure (i : ι) (r : Permit S) (hi : w.slots i = .unborn) :
      Steps C w (.conjure i r)
        (((w.setSlot i .gone).setPermit i (some r)).emit (.conjured i r))
  | close (k : κ) (hC : C = .closeable) (hk : w.calls k = none) :
      Steps C w (.close k) (close k w)
  | clearPoison :
      Steps C w .clearPoison
        (({ w with inner := { w.inner with poisoned := false } } : World ι κ W S O).emit .cleared)
  | observe : Steps C w .observe w.lock.unlock
  | resume (k : κ) (c : Call ι W S) (hk : w.calls k = some c) (hwakes : c.wakes.wakers = [])
      (hunw : c.unwinding = false) (hmore : c.more = true) :
      Steps C w (.resume k) (resume C k w c)
  | wake (k : κ) (c : Call ι W S) (res : Unwind Unit) (w' : World ι κ W S O)
      (hk : w.calls k = some c) (h : wakeNext k w c res = some w') : Steps C w (.wake k res) w'
  | finish (k : κ) (c : Call ι W S) (drop : Unwind Unit) (w' : World ι κ W S O)
      (hk : w.calls k = some c) (h : finish k w c drop = some w') :
      Steps C w (.finish k drop) w'

/-- **What a step can do.** -/
theorem step_cases {C : Closeability} {w w' : World ι κ W S O} {a : Action ι κ W S}
    (h : step C w a = some w') : Steps C w a w' := by
  cases a with
  | clearPoison =>
    cases h
    exact .clearPoison
  | observe =>
    cases h
    exact .observe
  | resume k =>
    simp only [step] at h
    split at h
    · rename_i c hk
      split at h
      · rename_i hguard
        cases h
        -- the next turn waits for the batch, and does not come after a panic
        simp only [Bool.and_eq_true, List.isEmpty_iff, Bool.not_eq_true'] at hguard
        exact .resume k c hk hguard.1.1 hguard.1.2 hguard.2
      · cases h
    · cases h
  | acquire i p =>
    simp only [step] at h
    split at h <;> cases h
    exact .acquire i p ‹_›
  | poll i cx calls =>
    simp only [step] at h
    split at h <;> cases h
    exact .poll i _ cx calls ‹_›
  | tryAcquire i p fair =>
    simp only [step] at h
    split at h <;> cases h
    exact .tryAcquire i p fair ‹_›
  | withState k f =>
    simp only [step] at h
    split at h <;> cases h
    exact .withState k f ‹_›
  | dropAcquire k i =>
    simp only [step] at h
    split at h <;> cases h
    exact .dropAcquire k i _ ‹_› ‹_›
  | dropPermit k i =>
    simp only [step] at h
    split at h <;> cases h
    exact .dropPermit k i _ ‹_› ‹_›
  | takePermit i =>
    simp only [step] at h
    split at h <;> cases h
    exact .takePermit i _ ‹_›
  | conjure i r =>
    simp only [step] at h
    split at h <;> cases h
    exact .conjure i r ‹_›
  | close k =>
    simp only [step] at h
    split at h <;> cases h
    exact .close k rfl ‹_›
  | wake k res =>
    simp only [step] at h
    split at h
    · exact .wake k _ res w' ‹_› h
    · cases h
  | finish k drop =>
    simp only [step] at h
    split at h
    · exact .finish k _ drop w' ‹_› h
    · cases h

/-- The states of every run of a semaphore made with this state and this order. -/
abbrev Reachable (state : S) (order : O) : World ι κ W S O → Prop :=
  Transition.Reachable (step C) (World.new state order)

/-- The state that the actions lead to, if each of them is possible in its turn. -/
def run (state : S) (order : O) (acts : List (Action ι κ W S)) : Option (World ι κ W S O) :=
  Transition.exec (step C) (World.new state order) acts

/-- A fact about every reachable state holds at the end of a run that can be executed. -/
theorem exists_run {state : S} {order : O} {acts : List (Action ι κ W S)}
    {P : World ι κ W S O → Prop} (hrun : (run C state order acts).isSome = true)
    (h : ∀ w, Reachable C state order w → P w) : ∃ w, run C state order acts = some w ∧ P w :=
  Transition.exists_exec hrun h

/-- The same for a fact about the states that pass a test. -/
theorem exists_run_of_test {state : S} {order : O} {acts : List (Action ι κ W S)}
    {P : World ι κ W S O → Prop} (test : World ι κ W S O → Bool)
    (hrun : (run C state order acts).any test = true)
    (h : ∀ w, run C state order acts = some w → test w = true → P w) :
    ∃ w, run C state order acts = some w ∧ P w := by
  obtain ⟨w, hw, htest⟩ := (Option.any_eq_true _ _).mp hrun
  exact ⟨w, hw, h w hw htest⟩

/-- No operation is in progress. -/
def Quiescent (w : World ι κ W S O) : Prop := ∀ k, w.calls k = none

end FlagBearer
