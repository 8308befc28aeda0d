import Mathlib.Logic.Basic

/-!
# The User-Supplied Parts of a Semaphore

`SemaphoreState` (flag-bearer-core), `Order` with the policies `FairOrder` and `Hybrid`
(flag-bearer-queue, `order.rs`), and the closeability marker (`closeable.rs`).

User code may panic. A callback therefore returns the state it leaves behind together with
an `Unwind`: the value it returned, or the fact that it unwound, possibly after a half-done
update. A callback that consults anything outside the semaphore is covered by letting the
state type carry what it will consult.
-/

namespace FlagBearer

/-- How a call ends: it returns a value, or it panics and its caller unwinds. -/
inductive Unwind (α : Type) where
  | returned (a : α)
  | panicked
  deriving DecidableEq, Repr

/-- Did the call unwind? -/
def Unwind.isPanicked {α : Type} : Unwind α → Bool
  | .returned _ => false
  | .panicked => true

@[simp] theorem Unwind.isPanicked_returned {α : Type} (a : α) :
    (Unwind.returned a).isPanicked = false := rfl

@[simp] theorem Unwind.isPanicked_panicked {α : Type} :
    (Unwind.panicked : Unwind α).isPanicked = true := rfl

/-! ## SemaphoreState -/

/-- The trait defining how semaphores behave. A refused `acquire` hands back params. -/
class SemaphoreState (S : Type) where
  Params : Type
  Permit : Type
  acquire : S → Params → S × Unwind (Except Params Permit)
  release : S → Permit → S × Unwind Unit

export SemaphoreState (Params Permit)

/-- The documented contract of `acquire`: a refusal hands back the params it was given. -/
def ReturnsParams (S : Type) [SemaphoreState S] : Prop :=
  ∀ (s s' : S) (p p' : Params S),
    SemaphoreState.acquire s p = (s', .returned (.error p')) → p' = p

/-- A refused `acquire` leaves the state as it was. -/
def RefusalKeepsState (S : Type) [SemaphoreState S] : Prop :=
  ∀ (s s' : S) (p p' : Params S),
    SemaphoreState.acquire s p = (s', .returned (.error p')) → s' = s

/-- `acquire` on `p` would be refused in state `s`. -/
def Refused {S : Type} [SemaphoreState S] (s : S) (p : Params S) : Prop :=
  ∃ s' p', SemaphoreState.acquire s p = (s', .returned (.error p'))

/-- `acquire` on `p` would be granted in state `s`. -/
def Granted {S : Type} [SemaphoreState S] (s : S) (p : Params S) : Prop :=
  ∃ s' r, SemaphoreState.acquire s p = (s', .returned (.ok r))

/-- Granting one request never turns the refusal of another into an acceptance. -/
def GrantKeepsRefusals (S : Type) [SemaphoreState S] : Prop :=
  ∀ (s s' : S) (q p : Params S) (r : Permit S),
    SemaphoreState.acquire s q = (s', .returned (.ok r)) → Refused s p → ¬ Granted s' p

/-- The same of a state that may panic: granting one request never makes another one
grantable. -/
def GrantNeverEnables (S : Type) [SemaphoreState S] : Prop :=
  ∀ (s s' : S) (q p : Params S) (r : Permit S),
    SemaphoreState.acquire s q = (s', .returned (.ok r)) → Granted s' p → Granted s p

/-- `acquire` never panics. -/
def AcquireTotal (S : Type) [SemaphoreState S] : Prop :=
  ∀ (s : S) (p : Params S), (SemaphoreState.acquire s p).2 ≠ .panicked

theorem refused_or_granted {S : Type} [SemaphoreState S] (htotal : AcquireTotal S) (s : S)
    (p : Params S) : Refused s p ∨ Granted s p := by
  rcases hacq : SemaphoreState.acquire s p with ⟨s', _ | _⟩
  · rename_i res
    cases res with
    | error p' => exact Or.inl ⟨s', p', hacq⟩
    | ok r => exact Or.inr ⟨s', r, hacq⟩
  · exact absurd (congrArg Prod.snd hacq) (htotal s p)

/-! ## Order -/

/-- Decides which end of the wait queue a newly-arriving task joins, given how many tasks
are already waiting. -/
class Order (O : Type) where
  enqueueFront : O → Nat → O × Unwind Bool

/-- The default ordering: strict first-in-first-out or last-in-first-out. -/
inductive FairOrder where
  | lifo
  | fifo
  deriving DecidableEq, Repr

def FairOrder.enqueueFront (order : FairOrder) (_queued : Nat) : Bool :=
  match order with
  | .lifo => true
  | .fifo => false

instance : Order FairOrder where
  enqueueFront order queued := (order, .returned (order.enqueueFront queued))

/-- FIFO while at most `lifoAbove` tasks are waiting, LIFO beyond that. -/
structure Hybrid where
  lifoAbove : Nat
  deriving DecidableEq, Repr

def Hybrid.enqueueFront (order : Hybrid) (queued : Nat) : Bool := decide (order.lifoAbove < queued)

instance : Order Hybrid where
  enqueueFront order queued := (order, .returned (order.enqueueFront queued))

/-! ## Closeability -/

/-- Whether the semaphore can be closed (the marker types `Closeable`, `Uncloseable`). -/
inductive Closeability where
  | closeable
  | uncloseable
  deriving DecidableEq, Repr

/-- `Sealed::CLOSE` -/
def Closeability.CLOSE : Closeability → Bool
  | .closeable => true
  | .uncloseable => false

end FlagBearer
