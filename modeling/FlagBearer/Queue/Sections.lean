import FlagBearer.Queue.State
import Mathlib.Tactic.Simps.Basic

/-!
# The Lock Sections of the Semaphore Queue

A translation of `flag-bearer-queue/src/lib.rs` and `acquire.rs`. Each function takes the
world, does what its source does while the operation holds the mutex, and returns the world
with the value returned or the fact that a panic unwinds.

Rust destroys locals in reverse order of declaration, on return and on unwinding alike. Where
it matters for what runs under the lock, the effects below are listed in that order: what is
declared after the guard is destroyed before `unlock`, what is declared before it afterwards.
-/

namespace FlagBearer

open PinList

variable {ι κ W S O : Type} [DecidableEq ι] [DecidableEq κ] [DecidableEq W]
variable [SemaphoreState S] [Order O]

/-! ## Primitive effects -/

namespace World

@[simps] def emit (w : World ι κ W S O) (e : Event ι κ W S) : World ι κ W S O :=
  { w with log := w.log ++ [e] }

@[simps] def lock (w : World ι κ W S O) : World ι κ W S O := { w with locked := true }

@[simps] def unlock (w : World ι κ W S O) : World ι κ W S O := { w with locked := false }

@[simps] def setList (w : World ι κ W S O) (queue : WaitList ι W S) : World ι κ W S O :=
  { w with inner := { w.inner with queue := .ok queue } }

@[simps] def setSlot (w : World ι κ W S O) (i : ι) (x : Slot S) : World ι κ W S O :=
  { w with slots := Function.update w.slots i x }

@[simps] def setPermit (w : World ι κ W S O) (i : ι) (r : Option (Permit S)) : World ι κ W S O :=
  { w with permits := Function.update w.permits i r }

@[simps] def setCall (w : World ι κ W S O) (k : κ) (c : Option (Call ι W S)) : World ι κ W S O :=
  { w with calls := Function.update w.calls k c }

/-- Change the node of a live `Acquire`. -/
def setNode (w : World ι κ W S O) (i : ι) (n : Node (Removed S)) : World ι κ W S O :=
  match w.slots i with
  | .live a => w.setSlot i (.live { a with node := n })
  | _ => w

/-- Change the local variables of a call in progress. -/
def modifyCall (w : World ι κ W S O) (k : κ) (f : Call ι W S → Call ι W S) : World ι κ W S O :=
  match w.calls k with
  | some c => w.setCall k (some (f c))
  | none => w

/-- `len -= 1` -/
def decLen (w : World ι κ W S O) : World ι κ W S O :=
  if w.inner.len = 0 then w.emit (.fault .lenUnderflow)
  else { w with inner := { w.inner with len := w.inner.len - 1 } }

/-- Destroy params. -/
def dropParams (w : World ι κ W S O) (p : Params S) : World ι κ W S O :=
  w.emit (.droppedParams p w.locked)

/-- Destroy a waker; its destructor may unwind. -/
def dropWaker (w : World ι κ W S O) (x : W) (res : Unwind Unit) : World ι κ W S O :=
  w.emit (.droppedWaker x w.locked res)

/-! ## Calls of user code -/

/-- The effect of a user call on the protected data. `PoisonOnUnwind` sets the flag if the
call unwinds and leaves it alone otherwise. -/
@[simps] def guarded {α : Type} (w : World ι κ W S O) (state : S) (res : Unwind α) :
    World ι κ W S O :=
  { w with inner := { w.inner with
      state := state
      poisoned := w.inner.poisoned || res.isPanicked } }

/-- `self.state.acquire(params)` under `PoisonOnUnwind`, on behalf of `i`. -/
def callAcquire (w : World ι κ W S O) (i : ι) (p : Params S) :
    World ι κ W S O × Unwind (Except (Params S) (Permit S)) :=
  let out := SemaphoreState.acquire w.inner.state p
  ((w.guarded out.1 out.2).emit (.acquired i p out.2), out.2)

/-- `state.release(permit)` inside `update_state`. -/
def callRelease (w : World ι κ W S O) (who : Releaser) (i : ι) (r : Permit S) :
    World ι κ W S O × Unwind Unit :=
  let out := SemaphoreState.release w.inner.state r
  ((w.guarded out.1 out.2).emit (.released who i r out.2), out.2)

/-- `QueueState::update_state` on a `with_state` closure. -/
def updateState (w : World ι κ W S O) (f : S → S × Unwind Unit) : World ι κ W S O × Unwind Unit :=
  let out := f w.inner.state
  ((w.guarded out.1 out.2).emit (.updated out.2), out.2)

/-- `self.order.enqueue_front(self.len)`, for the request `i`. -/
def consult (w : World ι κ W S O) (i : ι) : World ι κ W S O × Unwind Bool :=
  let out := Order.enqueueFront w.inner.order w.inner.len
  (({ w with inner := { w.inner with order := out.1 } } : World ι κ W S O).emit
    (.consulted i w.inner.len out.2), out.2)

/-! ## WakeBatch -/

/-- Is the batch of the call `k` full? -/
def batchFull (w : World ι κ W S O) (k : κ) : Bool :=
  match w.calls k with
  | some c => c.wakes.isFull
  | none => false

/-- `wakes.push(waker)` -/
def pushWake (w : World ι κ W S O) (k : κ) (i : ι) (x : W) : World ι κ W S O :=
  match w.calls k with
  | some c =>
    match c.wakes.push i x with
    | some wakes => w.setCall k (some { c with wakes := wakes })
    | none => w.emit (.fault .batchFull)
  | none => w

end World

/-! ## QueueState::check -/

section Sections

variable (C : Closeability)

/-- The loop of `check`. The cursor stands between the nodes before it, all skipped because
they have lost their params, and the nodes from it on. -/
def checkLoop (k : κ) (before : WaitList ι W S) :
    WaitList ι W S → World ι κ W S O → World ι κ W S O × Unwind Unit
  | [], w => (w, .returned ())
  | (i, none, x) :: after, w => checkLoop k (before ++ [(i, none, x)]) after w
  | (i, some p, x) :: after, w =>
    -- `p.0.take()`: while `acquire` runs, and after it unwinds, the node is without params
    match (w.setList (before ++ (i, none, x) :: after)).callAcquire i p with
    | (w, .panicked) => (w, .panicked)
    | (w, .returned (.error p)) => (w.setList (before ++ (i, some p, x) :: after), .returned ())
    | (w, .returned (.ok permit)) =>
      match (Cursor.mk before ((i, none, x) :: after)).removeCurrent with
      | none => (w.emit (.fault .removeGhost), .returned ())
      | some ((_, _, waker), cursor) =>
        let w := (w.setList cursor.list).setNode i (.removed (.ok permit))
        let w := (w.emit (.removed k .withQueue i waker)).decLen.pushWake k i waker
        if w.batchFull k then (w, .returned ()) else checkLoop k before after w

/-- `QueueState::check` -/
def check (k : κ) (w : World ι κ W S O) : World ι κ W S O × Unwind Unit :=
  if w.inner.poisoned || w.inner.closing C then (w, .returned ())
  else
    match w.inner.queue with
    | .error _ => (w, .returned ())
    | .ok queue => checkLoop k [] queue w

/-! ## with_queue -/

/-- One turn of the loop of `with_queue`, from under the lock to after the unlock. An
`acquire` panic releases the guard first, because it is declared after the batch. -/
def withQueueTurn (k : κ) (w : World ι κ W S O) : World ι κ W S O :=
  match check C k w with
  | (w, .panicked) => w.unlock.modifyCall k fun c => { c with more := false, unwinding := true }
  | (w, .returned ()) =>
    let more := w.batchFull k && w.inner.len != 0
    w.unlock.modifyCall k fun c => { c with more := more }

/-- `with_queue` up to its first unlock. -/
def withQueue (k : κ) (w : World ι κ W S O)
    (f : World ι κ W S O → World ι κ W S O × Unwind Unit) : World ι κ W S O :=
  let w := w.setCall k (some (.start .withQueue))
  match f (w.lock.emit (.entered k .withQueue)) with
  | (w, .panicked) => w.unlock.modifyCall k fun c => { c with unwinding := true }
  | (w, .returned ()) => if w.inner.len = 0 then w.unlock else withQueueTurn C k w

/-! ## close -/

/-- `QueueState::close_one`; the waker it returns comes with the name of its node. -/
def closeOne (k : κ) (w : World ι κ W S O) : World ι κ W S O × Option (ι × W) :=
  let w : World ι κ W S O := { w with inner := { w.inner with closed := true } }
  match w.inner.queue with
  | .error _ => (w, none)
  | .ok queue =>
    let out :=
      match (Cursor.mk [] queue).removeCurrent with
      | none => (w, none)
      | some ((i, params, waker), cursor) =>
        (((w.setList cursor.list).decLen.setNode i (.removed (.error params))).emit
          (.removed k .close i waker), some (i, waker))
    let w := out.1
    if w.inner.entries.isEmpty then
      let w : World ι κ W S O := { w with inner := { w.inner with queue := .error () } }
      (if w.inner.len = 0 then w else w.emit (.fault .discardLen), out.2)
    else (w, out.2)

/-- `while !wakes.is_full() { .. }`, by the room left in the batch. -/
def closeLoop (k : κ) : Nat → World ι κ W S O → World ι κ W S O
  | 0, w => w
  | room + 1, w =>
    match closeOne k w with
    | (w, none) => w
    | (w, some (i, waker)) => closeLoop k room (w.pushWake k i waker)

/-- One turn of the loop of `close`, from the lock to the unlock. -/
def closeTurn (k : κ) (w : World ι κ W S O) : World ι κ W S O :=
  let w := closeLoop k WakeBatch.CAP (w.lock.emit (.entered k .close))
  let more := w.inner.isOk
  w.unlock.modifyCall k fun c => { c with more := more }

/-- `SemaphoreQueue::close` up to its first unlock. -/
def close (k : κ) (w : World ι κ W S O) : World ι κ W S O :=
  closeTurn k (w.setCall k (some (.start .close)))

/-! ## Between and after the lock sections of a call -/

/-- Lock again after a batch that left `more` set. -/
def resume (k : κ) (w : World ι κ W S O) (c : Call ι W S) : World ι κ W S O :=
  match c.kind with
  | .withQueue => withQueueTurn C k (w.lock.emit (.entered k .withQueue))
  | .close => closeTurn k w

/-- One iteration of `WakeRemaining::wake_all`. The guards of the batch carry on after a
waker unwinds; a second panic while unwinding aborts the process, so there is no next
state. -/
def wakeNext (k : κ) (w : World ι κ W S O) (c : Call ι W S) (res : Unwind Unit) :
    Option (World ι κ W S O) :=
  match c.wakes.pop with
  | none => none
  | some ((i, x), rest) =>
    let w := w.emit (.woke k i x w.locked res)
    match res, c.unwinding with
    | .returned (), _ => some (w.setCall k (some { c with wakes := rest }))
    | .panicked, false => some (w.setCall k (some { c with wakes := rest, unwinding := true }))
    | .panicked, true => none

/-- Destroy what `Acquire`'s drop kept in `abandoned`. -/
def dropAbandoned (w : World ι κ W S O) (res : Unwind Unit) :
    Option (NodeData (Protected W S) (Removed S)) → World ι κ W S O
  | none => w
  | some (.removed (.ok _)) => w
  | some (.removed (.error none)) => w
  | some (.removed (.error (some p))) => w.dropParams p
  | some (.linked (none, x)) => w.dropWaker x res
  | some (.linked (some p, x)) => (w.dropParams p).dropWaker x res

/-- The end of a call whose batch has been woken: it returns, or goes on unwinding. The
destructor of an abandoned waker may unwind too. -/
def finish (k : κ) (w : World ι κ W S O) (c : Call ι W S) (res : Unwind Unit) :
    Option (World ι κ W S O) :=
  if c.wakes.wakers.isEmpty && (c.unwinding || !c.more) then
    let w := dropAbandoned w res c.abandoned
    match c.abandoned, res, c.unwinding with
    | some (.linked _), .panicked, true => none
    | some (.linked _), .panicked, false =>
      some ((w.setCall k none).emit (.returned k c.kind .panicked))
    | _, _, true => some ((w.setCall k none).emit (.returned k c.kind .panicked))
    | _, _, false => some ((w.setCall k none).emit (.returned k c.kind (.returned ())))
  else none

/-! ## acquire_or_enqueue -/

/-- `Outcome` -/
inductive Outcome (S : Type) [SemaphoreState S] where
  | acquired (r : Permit S)
  | closed (p : Params S)
  | poisoned (p : Params S)
  | enqueue (front : Bool) (p : Params S)

/-- `Outcome::Closed(C::new_err(params))`; `Uncloseable::new_err` is `unreachable!()`. -/
def newErr (w : World ι κ W S O) (p : Params S) : World ι κ W S O × Unwind (Outcome S) :=
  match C with
  | .closeable => (w, .returned (.closed p))
  | .uncloseable => (w.emit (.fault .newErr), .panicked)

/-- The attempt of a leader to acquire, at the end of `acquire_or_enqueue`. -/
def lead (w : World ι κ W S O) (i : ι) (p : Params S) (front : Bool) :
    World ι κ W S O × Unwind (Outcome S) :=
  match w.callAcquire i p with
  | (w, .panicked) => (w, .panicked)
  | (w, .returned (.ok permit)) => (w, .returned (.acquired permit))
  | (w, .returned (.error p)) => (w, .returned (.enqueue front p))

/-- `QueueState::acquire_or_enqueue`. An `Order` panic destroys the params in this frame,
that is, inside the caller's lock section. -/
def acquireOrEnqueue (w : World ι κ W S O) (i : ι) (p : Params S) (fair : Bool) :
    World ι κ W S O × Unwind (Outcome S) :=
  if w.inner.poisoned then (w, .returned (.poisoned p))
  else if w.inner.closing C then newErr C w p
  else
    match w.inner.queue with
    | .error _ => newErr C w p
    | .ok queue =>
      let empty := queue.isEmpty
      match if fair then w.consult i else (w, .returned true) with
      | (w, .panicked) => (w.dropParams p, .panicked)
      | (w, .returned front) =>
        if !(front || empty) then (w, .returned (.enqueue front p)) else lead w i p front

/-! ## Acquire::poll -/

/-- What the wakers involved in a poll do: the clone of the context's waker and the
destructor of the waker that the queue gives up. -/
structure WakerCalls where
  clone : Unwind Unit
  drop : Unwind Unit

/-- Wakers that do not panic. -/
def WakerCalls.quiet : WakerCalls := ⟨.returned (), .returned ()⟩

/-- `queue.push_front` or `queue.push_back`, and `len += 1`. -/
def link (w : World ι κ W S O) (i : ι) (queue : WaitList ι W S) (p : Params S) (cx : W)
    (front : Bool) : World ι κ W S O :=
  match w.slots i with
  | .live ⟨.initial, params⟩ =>
    let queue := if front then queue.pushFront i (some p, cx) else queue.pushBack i (some p, cx)
    let w := (w.setList queue).setSlot i (.live ⟨.linked, params⟩)
    ({ w with inner := { w.inner with len := w.inner.len + 1 } } : World ι κ W S O).emit
      (.linked i cx front)
  | _ => w.emit (.fault .pushLinked)

/-- The first poll, after `this.params.take().unwrap()`. On `Outcome::Poisoned` the panic
destroys `_params`, which is declared after the guard, before the guard. -/
def pollFirst (w : World ι κ W S O) (i : ι) (p : Params S) (cx : W) (calls : WakerCalls) :
    World ι κ W S O × PollResult S :=
  match acquireOrEnqueue C w i p true with
  | (w, .panicked) => (w.unlock, .panicked)
  | (w, .returned (.acquired permit)) => (w.unlock, .returned (.ready (.ok permit)))
  | (w, .returned (.closed p)) => (w.unlock, .returned (.ready (.error p)))
  | (w, .returned (.poisoned p)) => ((w.dropParams p).unlock, .panicked)
  | (w, .returned (.enqueue front p)) =>
    match w.inner.queue with
    | .error _ => (w.emit (.fault .enqueueErr), .panicked)
    | .ok queue =>
      match calls.clone with
      | .panicked => (((w.emit (.cloned cx .panicked)).dropParams p).unlock, .panicked)
      | .returned () =>
        ((link (w.emit (.cloned cx (.returned ()))) i queue p cx front).unlock, .returned .pending)

/-- A poll that finds its node linked while the queue is closing: after the unlink the guard
is dropped explicitly, then the waker, and a lost params is a panic. -/
def pollUnlinked (w : World ι κ W S O) (i : ι) (data : Protected W S) (queue : WaitList ι W S)
    (calls : WakerCalls) : World ι κ W S O × PollResult S :=
  let w := (((w.setList queue).setNode i .initial).emit (.unlinked i)).decLen.unlock
  let w := w.dropWaker data.2 calls.drop
  match calls.drop, data.1 with
  | .returned (), some p => (w, .returned (.ready (.error p)))
  | .returned (), none => (w, .panicked)
  | .panicked, some p => (w.dropParams p, .panicked)
  | .panicked, none => (w, .panicked)

/-- A spurious wakeup: `waker.clone_from(cx.waker())`, which keeps a waker that would wake
the same task. Otherwise it assigns a clone, and the assignment destroys the old waker. -/
def pollSpurious (w : World ι κ W S O) (i : ι) (queue : WaitList ι W S) (data : Protected W S)
    (cx : W) (calls : WakerCalls) : World ι κ W S O × PollResult S :=
  if data.2 = cx then (w.unlock, .returned .pending)
  else
    match calls.clone, calls.drop with
    | .panicked, _ => ((w.emit (.cloned cx .panicked)).unlock, .panicked)
    | .returned (), drop =>
      let w := (w.emit (.cloned cx (.returned ()))).setList (queue.setProtected i (data.1, cx))
      let w := (w.dropWaker data.2 drop).unlock
      match drop with
      | .returned () => (w, .returned .pending)
      | .panicked => (w, .panicked)

/-- The end of `poll`: `take_removed_unchecked`. -/
def pollTake (w : World ι κ W S O) (i : ι) (node : Node (Removed S)) :
    World ι κ W S O × PollResult S :=
  match node.takeRemoved with
  | none => (w.emit (.fault .takeRemoved), .panicked)
  | some removed =>
    let w := (w.setNode i .initial).emit (.took i)
    match removed with
    | .ok permit => (w.unlock, .returned (.ready (.ok permit)))
    | .error (some p) => (w.unlock, .returned (.ready (.error p)))
    | .error none => (w.unlock, .panicked)

/-- The polls after the first one. -/
def pollAgain (w : World ι κ W S O) (i : ι) (node : Node (Removed S)) (cx : W)
    (calls : WakerCalls) : World ι κ W S O × PollResult S :=
  match w.inner.queue with
  | .error _ => pollTake w i node
  | .ok queue =>
    match if w.inner.closing C then node.unlink queue i else none with
    | some (data, rest) => pollUnlinked w i data rest calls
    | none =>
      match node.protectedMut queue i with
      | some data => pollSpurious w i queue data cx calls
      | none => pollTake w i node

/-- `Acquire::poll` -/
def poll (w : World ι κ W S O) (i : ι) (a : Acquire S) (cx : W) (calls : WakerCalls) :
    World ι κ W S O × PollResult S :=
  match a.node, a.params with
  | .initial, none => (w.lock.unlock, .panicked)
  | .initial, some p => pollFirst C (w.lock.setSlot i (.live ⟨.initial, none⟩)) i p cx calls
  | node, _ => pollAgain C w.lock i node cx calls

/-! ## try_acquire -/

/-- `SemaphoreQueue::try_acquire` -/
def tryAcquire (w : World ι κ W S O) (i : ι) (p : Params S) (fair : Bool) :
    World ι κ W S O × TryResult S :=
  match acquireOrEnqueue C w.lock i p fair with
  | (w, .panicked) => (w.unlock, .panicked)
  | (w, .returned (.acquired permit)) => (w.unlock, .returned (.ok permit))
  | (w, .returned (.closed p)) => (w.unlock, .returned (.error (.closed p)))
  | (w, .returned (.poisoned p)) => (w.unlock, .returned (.error (.poisoned p)))
  | (w, .returned (.enqueue _ p)) => (w.unlock, .returned (.error (.noPermits p)))

/-! ## PinnedDrop for Acquire -/

/-- Give back a permit that was granted but never claimed. -/
def dropGranted (w : World ι κ W S O) (i : ι) (permit : Permit S) : World ι κ W S O × Unwind Unit :=
  (((w.setSlot i .gone).emit (.took i)).emit (.cancelled i)).callRelease .unclaimed i permit

/-- Keep a close error until the call is over. -/
def dropRefused (k : κ) (w : World ι κ W S O) (i : ι) (params : Option (Params S)) :
    World ι κ W S O × Unwind Unit :=
  ((((w.setSlot i .gone).emit (.took i)).emit (.cancelled i)).modifyCall k
    fun c => { c with abandoned := some (.removed (.error params)) }, .returned ())

/-- The closure that `Acquire`'s drop passes to `with_queue`. -/
def dropNode (k : κ) (i : ι) (node : Node (Removed S)) (w : World ι κ W S O) :
    World ι κ W S O × Unwind Unit :=
  match w.inner.queue with
  | .ok queue =>
    match node.reset queue i with
    | none => (w.emit (.fault .lostNode), .panicked)
    | some (.removed (.ok permit), _) => dropGranted w i permit
    | some (.removed (.error params), _) => dropRefused k w i params
    | some (.linked data, rest) =>
      ((((w.setList rest).setSlot i .gone).emit (.cancelled i)).decLen.modifyCall k
        fun c => { c with abandoned := some (.linked data) }, .returned ())
  | .error _ =>
    match node.takeRemoved with
    | none => (w.emit (.fault .takeRemoved), .panicked)
    | some (.ok permit) => dropGranted w i permit
    | some (.error params) => dropRefused k w i params

/-- `Acquire`'s drop up to its first unlock. A node that was never linked needs no lock; the
params of a future that was never polled are destroyed with it. -/
def dropAcquire (k : κ) (w : World ι κ W S O) (i : ι) (a : Acquire S) : World ι κ W S O :=
  match a.node, a.params with
  | .initial, none => (w.setSlot i .gone).emit (.cancelled i)
  | .initial, some p => ((w.setSlot i .gone).emit (.cancelled i)).dropParams p
  | node, _ => withQueue C k w (dropNode k i node)

end Sections

end FlagBearer
