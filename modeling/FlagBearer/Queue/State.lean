import FlagBearer.Lib.PinList
import FlagBearer.Core.Traits
import Mathlib.Logic.Function.Basic

/-!
# The State of a Semaphore Queue

The data that `SemaphoreQueue` keeps behind its mutex, the `Acquire` futures that borrow it,
the `Permit` guards handed out, the calls in progress, and the log of what happened.

Requests (an `Acquire` future or one call of `try_acquire`) are named by `ι`, calls of
`with_queue` and `close` by `κ`, wakers by `W`. A waker's name is what `Waker::will_wake`
compares.

## Ghost data

The program keeps no log. Every event records a call of user code, a change of the list or
the return of an operation, in the order in which they happen; events at which a destructor
or a waker runs also record whether the queue's mutex was held.
-/

namespace FlagBearer

open PinList

/-! ## QueueState -/

section Types

variable (ι κ W S O : Type) [SemaphoreState S]

/-- `PinQueue::Protected`: the params (taken while, or lost because, `acquire` runs on them)
and the waker of a linked node. -/
abbrev Protected := Option (Params S) × W

/-- `PinQueue::Removed`: a granted permit, or the params of a closed queue. -/
abbrev Removed := Except (Option (Params S)) (Permit S)

/-- The wait list, from front to back. -/
abbrev WaitList := PinList ι (Protected W S)

/-- `QueueState`. The list is discarded (`Err`) once a close has emptied it. -/
structure QueueState where
  queue : Except Unit (WaitList ι W S)
  poisoned : Bool
  closed : Bool
  len : Nat
  order : O
  state : S

/-! ## Acquire futures -/

/-- The `Acquire` future. -/
structure Acquire where
  node : Node (Removed S)
  params : Option (Params S)

/-- The life of a request name: never used, an `Acquire` in memory, or used up. -/
inductive Slot where
  | unborn
  | live (a : Acquire S)
  | gone

/-! ## Calls in progress -/

/-- The capacity of a `WakeBatch`. -/
def WakeBatch.CAP : Nat := 32

/-- The wakers of nodes already removed, each with the name of its node. -/
structure WakeBatch where
  wakers : List (ι × W)
  fits : wakers.length ≤ WakeBatch.CAP

/-- The two functions that lock the mutex repeatedly. -/
inductive CallKind where
  | withQueue
  | close
  deriving DecidableEq, Repr

/-- The local variables of a call of `with_queue` or `close`: the batch of wakers (those not
yet invoked), whether another lock section follows, whether a panic is unwinding through the
call, and the data that `Acquire`'s drop keeps until the call is over. -/
structure Call where
  kind : CallKind
  wakes : WakeBatch ι W
  more : Bool
  unwinding : Bool
  abandoned : Option (NodeData (Protected W S) (Removed S))

/-! ## Events -/

/-- `core::task::Poll` -/
inductive Poll (α : Type) where
  | ready (a : α)
  | pending
  deriving DecidableEq, Repr

/-- `TryAcquireError`; `Closed` carries the params in its `AcquireError`. -/
inductive TryAcquireError where
  | noPermits (p : Params S)
  | closed (p : Params S)
  | poisoned (p : Params S)

/-- What `Acquire::poll` returns, before the permit is wrapped in a guard. -/
abbrev PollResult := Unwind (Poll (Except (Params S) (Permit S)))

/-- What `try_acquire` returns. -/
abbrev TryResult := Unwind (Except (TryAcquireError S) (Permit S))

/-- Who passes a permit to `S::release`: the drop of an `Acquire` that never claimed it, or
the drop of a `Permit` guard. -/
inductive Releaser where
  | unclaimed
  | guard
  deriving DecidableEq, Repr

/-- Uses of the library or of `unsafe` code outside their contract, and failures that the
program treats as impossible. -/
inductive Fault where
  /-- `take_removed_unchecked` on a node that is not removed -/
  | takeRemoved
  /-- `Outcome::Enqueue` while the list is discarded -/
  | enqueueErr
  /-- a node linked while it is not in its initial state -/
  | pushLinked
  /-- `remove_current` on the ghost -/
  | removeGhost
  /-- `reset` of a node that is not in the list it is linked to -/
  | lostNode
  /-- a push to a full `WakeBatch` -/
  | batchFull
  /-- `len -= 1` at zero -/
  | lenUnderflow
  /-- the list discarded while `len` is not zero -/
  | discardLen
  /-- `Uncloseable::new_err` -/
  | newErr
  deriving DecidableEq, Repr

/-- What can be observed of a run. -/
inductive Event where
  /-- an `Acquire` was made with these params -/
  | created (i : ι) (p : Params S)
  /-- `poll` returned to the task that called it with this waker -/
  | polled (i : ι) (cx : W) (res : PollResult S)
  /-- `try_acquire` was called with these params and returned -/
  | tried (i : ι) (p : Params S) (res : TryResult S)
  /-- `Order::enqueue_front` was called for a request -/
  | consulted (i : ι) (queued : Nat) (front : Unwind Bool)
  /-- `S::acquire` was called on behalf of a request -/
  | acquired (i : ι) (p : Params S) (res : Unwind (Except (Params S) (Permit S)))
  /-- `S::release` was called -/
  | released (who : Releaser) (i : ι) (r : Permit S) (res : Unwind Unit)
  /-- a `with_state` closure ran -/
  | updated (res : Unwind Unit)
  /-- a node joined the list at one of its ends -/
  | linked (i : ι) (w : W) (front : Bool)
  /-- `check` (in a `with_queue`) or `close_one` (in a `close`) removed a node; its waker went to
  the call's batch -/
  | removed (k : κ) (kind : CallKind) (i : ι) (w : W)
  /-- `poll` unlinked its own node while the queue is closing -/
  | unlinked (i : ι)
  /-- the removed value of a node was extracted -/
  | took (i : ι)
  /-- an `Acquire` was dropped -/
  | cancelled (i : ι)
  /-- `Permit::out_of_thin_air` was called by the user -/
  | conjured (i : ι) (r : Permit S)
  /-- `Permit::take` was called -/
  | taken (i : ι) (r : Permit S)
  /-- a call began a lock section -/
  | entered (k : κ) (kind : CallKind)
  /-- a waker was invoked -/
  | woke (k : κ) (i : ι) (w : W) (held : Bool) (res : Unwind Unit)
  /-- a waker was cloned -/
  | cloned (w : W) (res : Unwind Unit)
  /-- a waker was destroyed without being invoked -/
  | droppedWaker (w : W) (held : Bool) (res : Unwind Unit)
  /-- params were destroyed -/
  | droppedParams (p : Params S) (held : Bool)
  /-- a call of `with_queue` or `close` ended -/
  | returned (k : κ) (kind : CallKind) (res : Unwind Unit)
  /-- `clear_poison` -/
  | cleared
  | fault (f : Fault)

/-! ## The world -/

/-- Everything a run acts on: the mutex with the data it protects, the futures, the permit
guards held by tasks, the calls in progress and the log. -/
structure World where
  locked : Bool
  inner : QueueState ι W S O
  slots : ι → Slot S
  permits : ι → Option (Permit S)
  calls : κ → Option (Call ι W S)
  log : List (Event ι κ W S)

end Types

/-! ## Accessors -/

section Accessors

variable {ι κ W S O : Type} [SemaphoreState S]

/-- The linked nodes; none once the list is discarded. -/
def QueueState.entries (q : QueueState ι W S O) : WaitList ι W S :=
  match q.queue with
  | .ok queue => queue
  | .error _ => []

/-- `Result::is_ok` -/
def QueueState.isOk (q : QueueState ι W S O) : Bool :=
  match q.queue with
  | .ok _ => true
  | .error _ => false

/-- Both reasons for which a closeable queue admits nothing: `C::CLOSE && self.closed`. -/
def QueueState.closing (C : Closeability) (q : QueueState ι W S O) : Bool := C.CLOSE && q.closed

@[simp] theorem QueueState.entries_ok (queue : WaitList ι W S) (poisoned closed : Bool)
    (len : Nat) (order : O) (state : S) :
    (QueueState.mk (.ok queue) poisoned closed len order state).entries = queue := rfl

@[simp] theorem QueueState.entries_error (poisoned closed : Bool) (len : Nat) (order : O)
    (state : S) : (QueueState.mk (ι := ι) (W := W) (.error ()) poisoned closed len order
      state).entries = [] := rfl

theorem QueueState.entries_of_queue {q : QueueState ι W S O} {queue : WaitList ι W S}
    (h : q.queue = .ok queue) : q.entries = queue := by
  simp [QueueState.entries, h]

/-! ## WakeBatch -/

/-- `WakeBatch::new` -/
def WakeBatch.new : WakeBatch ι W := ⟨[], Nat.zero_le _⟩

def WakeBatch.isFull (b : WakeBatch ι W) : Bool := b.wakers.length == WakeBatch.CAP

/-- `ArrayVec::push`, which panics on a full vector. -/
def WakeBatch.push (b : WakeBatch ι W) (i : ι) (w : W) : Option (WakeBatch ι W) :=
  if h : b.wakers.length < WakeBatch.CAP then
    some ⟨b.wakers ++ [(i, w)], by simpa [Nat.succ_le_iff] using h⟩
  else none

/-- The next waker of the drain and what is left of it. -/
def WakeBatch.pop (b : WakeBatch ι W) : Option ((ι × W) × WakeBatch ι W) :=
  match h : b.wakers with
  | [] => none
  | e :: rest => some (e, ⟨rest, by have := b.fits; simp only [h, List.length_cons] at this; omega⟩)

/-- The locals of a call before its first lock section. The loop of `close` always runs;
`with_queue` may return after its first section. -/
def Call.start (kind : CallKind) : Call ι W S :=
  ⟨kind, .new, kind == .close, false, none⟩

@[simp] theorem Call.start_kind (kind : CallKind) :
    (Call.start kind : Call ι W S).kind = kind := rfl

@[simp] theorem Call.start_wakes (kind : CallKind) :
    (Call.start kind : Call ι W S).wakes = .new := rfl

@[simp] theorem Call.start_unwinding (kind : CallKind) :
    (Call.start kind : Call ι W S).unwinding = false := rfl

@[simp] theorem WakeBatch.new_wakers : (WakeBatch.new : WakeBatch ι W).wakers = [] := rfl

theorem WakeBatch.push_eq_some {b b' : WakeBatch ι W} {i : ι} {w : W} :
    b.push i w = some b' ↔
      b.wakers.length < WakeBatch.CAP ∧ b'.wakers = b.wakers ++ [(i, w)] := by
  unfold WakeBatch.push
  split
  · rename_i h
    cases b'
    simp [h, eq_comm]
  · rename_i h
    simp [h]

theorem WakeBatch.not_isFull_of_lt {b : WakeBatch ι W} (h : b.wakers.length < WakeBatch.CAP) :
    b.isFull = false := by
  simpa [WakeBatch.isFull] using Nat.ne_of_lt h

theorem WakeBatch.not_isFull_of_nil {b : WakeBatch ι W} (h : b.wakers = []) : b.isFull = false := by
  apply not_isFull_of_lt
  simp [h, WakeBatch.CAP]

/-- A batch that is not full takes another waker. -/
theorem WakeBatch.push_of_not_isFull {b : WakeBatch ι W} (h : b.isFull = false) (i : ι) (w : W) :
    ∃ b', b.push i w = some b' := by
  have hne : b.wakers.length ≠ WakeBatch.CAP := by simpa [WakeBatch.isFull] using h
  have hlt : b.wakers.length < WakeBatch.CAP := Nat.lt_of_le_of_ne b.fits hne
  exact ⟨⟨b.wakers ++ [(i, w)], by simpa [Nat.succ_le_iff] using hlt⟩,
    WakeBatch.push_eq_some.mpr ⟨hlt, rfl⟩⟩

theorem WakeBatch.pop_eq_some {b b' : WakeBatch ι W} {e : ι × W} :
    b.pop = some (e, b') ↔ b.wakers = e :: b'.wakers := by
  obtain ⟨wakers, fits⟩ := b
  cases wakers with
  | nil => simp [WakeBatch.pop]
  | cons e' rest =>
    cases b'
    simp [WakeBatch.pop]

theorem WakeBatch.pop_eq_none {b : WakeBatch ι W} : b.pop = none ↔ b.wakers = [] := by
  obtain ⟨wakers, fits⟩ := b
  cases wakers <;> simp [WakeBatch.pop]

end Accessors

end FlagBearer
