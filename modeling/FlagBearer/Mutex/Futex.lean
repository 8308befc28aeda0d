import FlagBearer.Lib.Transition
import Mathlib.Logic.Function.Basic
import Mathlib.Tactic.Simps.Basic

/-!
# The Futex Mutex

A translation of `flag-bearer-mutex/src/futex.rs`: any number of threads that call `lock`,
`try_lock` and, while they hold the lock, `unlock`. Each atomic access and each system call is
one step; between two of them a thread only has its local variables, which its program
counter carries. The kernel keeps the queue of the threads asleep on the word. Which threads
hold the lock is a record of what their calls have returned; no step of the code reads it.

## Outcomes that the program does not control

- a weak compare-exchange may fail although the word has the expected value
- a `FUTEX_WAIT` may return spuriously, before or after the thread fell asleep
- a `FUTEX_WAKE` for one thread wakes at least one sleeper if there is one
-/

namespace FlagBearer.Futex

/-! ## The word -/

def UNLOCKED : UInt32 := 0
/-- locked, no other threads waiting -/
def LOCKED : UInt32 := 1
/-- locked, and other threads waiting -/
def CONTENDED : UInt32 := 2

/-- `AtomicU32::compare_exchange`: the new word, and the old one as the result. -/
def compareExchange (word current new : UInt32) : UInt32 × Except UInt32 UInt32 :=
  if word = current then (new, .ok word) else (word, .error word)

/-- `AtomicU32::compare_exchange_weak` -/
def compareExchangeWeak (word current new : UInt32) (spurious : Bool) :
    UInt32 × Except UInt32 UInt32 :=
  if spurious then (word, .error word) else compareExchange word current new

/-- `AtomicU32::swap`: the new word and the old one. -/
def swap (word new : UInt32) : UInt32 × UInt32 := (new, word)

/-! ## Threads -/

/-- The number of times that `spin` loads the word again. -/
def SPINS : Nat := 4

/-- Where a thread is: the access or system call that it does next. -/
inductive Pc where
  /-- outside the mutex's code -/
  | idle
  /-- the compare-exchange of `lock` -/
  | lock
  /-- the compare-exchange of `try_lock` -/
  | tryLock
  /-- the load of `spin`, called before the loop of `lock_contended` or in it -/
  | spin (spin : Nat) (inLoop : Bool)
  /-- the compare-exchange of `lock_contended`, after the first spin -/
  | retry
  /-- the top of the loop of `lock_contended`, with a possibly stale value of the word -/
  | loop (state : UInt32)
  /-- the `FUTEX_WAIT` call -/
  | futexWait
  /-- in the kernel; asleep as long as the thread is in the queue -/
  | asleep
  /-- the swap of `unlock` -/
  | unlock
  /-- the `FUTEX_WAKE` call -/
  | wake
  deriving DecidableEq, Repr

/-- The word, the threads, the kernel's queue of sleepers, and who holds the lock. -/
structure State (τ : Type) where
  word : UInt32
  pc : τ → Pc
  sleepers : List τ
  holds : τ → Bool

section Steps

variable {τ : Type}

/-- `INIT`, before any thread has called anything. -/
def State.init : State τ := ⟨UNLOCKED, fun _ => .idle, [], fun _ => false⟩

@[simps] def State.setWord (s : State τ) (word : UInt32) : State τ := { s with word := word }

@[simps] def State.setSleepers (s : State τ) (sleepers : List τ) : State τ :=
  { s with sleepers := sleepers }

variable [DecidableEq τ]

@[simps] def State.goto (s : State τ) (t : τ) (pc : Pc) : State τ :=
  { s with pc := Function.update s.pc t pc }

@[simps] def State.setHolds (s : State τ) (t : τ) (holds : Bool) : State τ :=
  { s with holds := Function.update s.holds t holds }

/-- A call that returns with the lock. -/
def State.acquired (s : State τ) (t : τ) (word : UInt32) : State τ :=
  ((s.setWord word).goto t .idle).setHolds t true

/-! ## The next access of a thread -/

/-- After `spin` returned `state` to `lock_contended`. -/
def afterSpin (inLoop : Bool) (state : UInt32) : Pc :=
  if inLoop = false ∧ state = UNLOCKED then .retry else .loop state

/-- What thread `t` does next. `spurious` is the outcome of a weak compare-exchange or of a
`FUTEX_WAIT`. -/
def access (s : State τ) (t : τ) (spurious : Bool) : Option (State τ) :=
  match s.pc t with
  | .lock =>
    match compareExchangeWeak s.word UNLOCKED LOCKED spurious with
    | (word, .ok _) => some (s.acquired t word)
    | (word, .error _) => some ((s.setWord word).goto t (.spin SPINS false))
  | .tryLock =>
    match compareExchange s.word UNLOCKED LOCKED with
    | (word, .ok _) => some (s.acquired t word)
    | (word, .error _) => some ((s.setWord word).goto t .idle)
  | .spin spin inLoop =>
    if s.word ≠ LOCKED ∨ spin = 0 then some (s.goto t (afterSpin inLoop s.word))
    else some (s.goto t (.spin (spin - 1) inLoop))
  | .retry =>
    match compareExchange s.word UNLOCKED LOCKED with
    | (word, .ok _) => some (s.acquired t word)
    | (word, .error state) => some ((s.setWord word).goto t (.loop state))
  | .loop state =>
    -- no swap when the value last seen was already CONTENDED
    if state = CONTENDED then some (s.goto t .futexWait)
    else
      match swap s.word CONTENDED with
      | (word, old) =>
        if old = UNLOCKED then some (s.acquired t word)
        else some ((s.setWord word).goto t .futexWait)
  | .futexWait =>
    if s.word = CONTENDED ∧ spurious = false then
      some ((s.setSleepers (t :: s.sleepers)).goto t .asleep)
    else some (s.goto t (.spin SPINS true))
  | .asleep =>
    -- woken, or a spurious return
    if t ∉ s.sleepers ∨ spurious = true then
      some ((s.setSleepers (s.sleepers.filter (· ≠ t))).goto t (.spin SPINS true))
    else none
  | .unlock =>
    match swap s.word UNLOCKED with
    | (word, old) =>
      some (((s.setWord word).goto t (if old = CONTENDED then .wake else .idle)).setHolds t false)
  | .idle | .wake => none

/-- `FUTEX_WAKE` with a count of one. -/
def futexWake (s : State τ) (t : τ) (woken : List τ) : Option (State τ) :=
  if s.pc t = .wake ∧ (∀ u ∈ woken, u ∈ s.sleepers) ∧ (woken = [] → s.sleepers = []) then
    some ((s.setSleepers (s.sleepers.filter (· ∉ woken))).goto t .idle)
  else none

/-! ## Steps -/

/-- A thread calls a function of the mutex, does its next access, or wakes sleepers. -/
inductive Action (τ : Type) where
  | lock (t : τ)
  | tryLock (t : τ)
  | unlock (t : τ)
  | access (t : τ) (spurious : Bool)
  | futexWake (t : τ) (woken : List τ)

/-- The next state, or `none` if the action is not possible. Only a thread that holds the
lock may call `unlock`. -/
def step (s : State τ) : Action τ → Option (State τ)
  | .lock t => if s.pc t = .idle then some (s.goto t .lock) else none
  | .tryLock t => if s.pc t = .idle then some (s.goto t .tryLock) else none
  | .unlock t => if s.pc t = .idle ∧ s.holds t = true then some (s.goto t .unlock) else none
  | .access t spurious => access s t spurious
  | .futexWake t woken => futexWake s t woken

/-- The states of every run of the mutex. -/
abbrev Reachable : State τ → Prop := Transition.Reachable step State.init

end Steps

end FlagBearer.Futex
