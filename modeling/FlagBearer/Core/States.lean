import FlagBearer.Core.Counter
import Mathlib.Data.List.Basic

/-!
# States of the Documentation

The semaphores that the crate's documentation, its examples and its tests build: limits that
change at run time (`Utilisation`, `ConcurrencyLimit`, `AimdState`), two quantities limited at
once (`Limits`), a pool whose permits are connections (`Pool`), and a counter that panics on
demand (`Bomb`).

Numbers are machine words. An addition that overflows, a subtraction below zero and a `clamp`
between bounds in the wrong order panic.
-/

namespace FlagBearer

/-- `u64::MAX` -/
def U64_MAX : Nat := UInt64.size - 1

/-! ## Gauges -/

/-- A number of permits taken, and a limit for it, among the fields of a state. -/
structure Gauge (S : Type) where
  taken : S → Nat
  limit : S → Nat
  setTaken : S → Nat → S
  taken_set : ∀ s n, taken (setTaken s n) = n
  limit_set : ∀ s n, limit (setTaken s n) = limit s

namespace Gauge

variable {S : Type} (g : Gauge S)

/-- `if taken < limit { taken += 1; Ok(()) } else { Err(()) }` -/
def acquire (s : S) (p : Unit) : S × Unwind (Except Unit Unit) :=
  if g.taken s < g.limit s then (g.setTaken s (g.taken s + 1), .returned (.ok p))
  else (s, .returned (.error p))

/-- `taken -= 1` -/
def release (s : S) (_permit : Unit) : S × Unwind Unit :=
  if g.taken s = 0 then (s, .panicked) else (g.setTaken s (g.taken s - 1), .returned ())

/-- A closure that leaves the count alone and changes the limit as `effect` tells. -/
def Adjusts (f : S → S × Unwind Unit) (effect : Nat → Nat) : Prop :=
  ∀ s, g.taken (f s).1 = g.taken s ∧ g.limit (f s).1 = effect (g.limit s)

end Gauge

/-- The semaphore is built on this gauge. -/
structure Gauges {S : Type} [SemaphoreState S] (g : Gauge S) : Prop where
  granted : ∀ {s s' : S} {p : Params S} {r : Permit S},
    SemaphoreState.acquire s p = (s', .returned (.ok r)) →
      g.taken s < g.limit s ∧ s' = g.setTaken s (g.taken s + 1)
  refused : ∀ {s s' : S} {p p' : Params S},
    SemaphoreState.acquire s p = (s', .returned (.error p')) → g.limit s ≤ g.taken s ∧ s' = s
  total : AcquireTotal S
  released : ∀ {s : S} (r : Permit S), 0 < g.taken s →
    SemaphoreState.release s r = (g.setTaken s (g.taken s - 1), .returned ())

/-! ## Utilisation -/

/-- The state with a limit that closures raise and lower. -/
structure Utilisation where
  taken : Nat
  limit : Nat
  deriving DecidableEq, Repr

namespace Utilisation

def gauge : Gauge Utilisation where
  taken := taken
  limit := limit
  setTaken s n := { s with taken := n }
  taken_set _ _ := rfl
  limit_set _ _ := rfl

def new (tokens : Nat) : Utilisation := ⟨0, tokens⟩

def addTokens (x : Nat) (s : Utilisation) : Utilisation × Unwind Unit :=
  if s.limit + x ≤ USIZE_MAX then ({ s with limit := s.limit + x }, .returned ())
  else (s, .panicked)

def removeTokens (x : Nat) (s : Utilisation) : Utilisation × Unwind Unit :=
  if x ≤ s.limit then ({ s with limit := s.limit - x }, .returned ()) else (s, .panicked)

/-- What a closure makes of the limit. -/
def retuned (f : Utilisation → Utilisation × Unwind Unit) (limit : Nat) : Nat :=
  (f ⟨0, limit⟩).1.limit

theorem adjusts_addTokens (x : Nat) : gauge.Adjusts (addTokens x) (retuned (addTokens x)) := by
  intro s
  by_cases hfits : s.limit + x ≤ USIZE_MAX <;> simp [gauge, addTokens, retuned, hfits]

/-- The limit may fall below what is taken. -/
theorem adjusts_removeTokens (x : Nat) :
    gauge.Adjusts (removeTokens x) (retuned (removeTokens x)) := by
  intro s
  by_cases hle : x ≤ s.limit <;> simp [gauge, removeTokens, retuned, hle]

end Utilisation

instance : SemaphoreState Utilisation where
  Params := Unit
  Permit := Unit
  acquire := Utilisation.gauge.acquire
  release := Utilisation.gauge.release

/-! ## ConcurrencyLimit -/

/-- Tracks how many permits are out, and the current ceiling. -/
structure ConcurrencyLimit where
  inFlight : Nat
  limit : Nat
  deriving DecidableEq, Repr

namespace ConcurrencyLimit

def gauge : Gauge ConcurrencyLimit where
  taken := inFlight
  limit := limit
  setTaken s n := { s with inFlight := n }
  taken_set _ _ := rfl
  limit_set _ _ := rfl

/-- `s.limit = x` -/
def setLimit (x : Nat) (s : ConcurrencyLimit) : ConcurrencyLimit × Unwind Unit :=
  ({ s with limit := x }, .returned ())

theorem adjusts_setLimit (x : Nat) : gauge.Adjusts (setLimit x) fun _ => x :=
  fun _ => ⟨rfl, rfl⟩

end ConcurrencyLimit

instance : SemaphoreState ConcurrencyLimit where
  Params := Unit
  Permit := Unit
  acquire := ConcurrencyLimit.gauge.acquire
  release := ConcurrencyLimit.gauge.release

/-! ## AimdState -/

/-- `dec n` is `((n as f64) * self.config.dec).round() as u64`. -/
structure AimdConfig where
  min : Nat
  max : Nat
  inc : Nat
  dec : Nat → Nat

structure Aimd where
  limit : Nat
  config : AimdConfig

namespace Aimd

def new (config : AimdConfig) : Aimd := ⟨config.max, config⟩

/-- `self.limit = limit.clamp(self.config.min, self.config.max)` -/
def clampTo (a : Aimd) (limit : Nat) : Aimd × Unwind Unit :=
  if a.config.min ≤ a.config.max then
    ({ a with limit := max a.config.min (min limit a.config.max) }, .returned ())
  else ({ a with limit := limit }, .panicked)

def success (a : Aimd) : Aimd × Unwind Unit :=
  if a.limit + a.config.inc ≤ U64_MAX then a.clampTo (a.limit + a.config.inc) else (a, .panicked)

def failure (a : Aimd) : Aimd × Unwind Unit := a.clampTo (a.config.dec a.limit)

end Aimd

/-- A limit that grows by a fixed step on success and is cut by a factor on failure. -/
structure AimdState where
  acquired : Nat
  state : Aimd

namespace AimdState

def gauge : Gauge AimdState where
  taken := acquired
  limit s := s.state.limit
  setTaken s n := { s with acquired := n }
  taken_set _ _ := rfl
  limit_set _ _ := rfl

/-- `acquired` may be greater than the limit, after failures. -/
def available (s : AimdState) : Nat := s.state.limit - s.acquired

def success (s : AimdState) : AimdState × Unwind Unit :=
  ({ s with state := s.state.success.1 }, s.state.success.2)

def failure (s : AimdState) : AimdState × Unwind Unit :=
  ({ s with state := s.state.failure.1 }, s.state.failure.2)

end AimdState

instance : SemaphoreState AimdState where
  Params := Unit
  Permit := Unit
  acquire := AimdState.gauge.acquire
  release := AimdState.gauge.release

/-! ## Their gauges -/

namespace Gauge

variable {S : Type} (g : Gauge S)

theorem acquire_eq_ok {s s' : S} {p r : Unit} :
    g.acquire s p = (s', .returned (.ok r)) ↔
      g.taken s < g.limit s ∧ s' = g.setTaken s (g.taken s + 1) := by
  unfold acquire
  split
  · rename_i h
    simp [h, eq_comm]
  · rename_i h
    simp [h]

theorem acquire_eq_error {s s' : S} {p p' : Unit} :
    g.acquire s p = (s', .returned (.error p')) ↔ g.limit s ≤ g.taken s ∧ s' = s := by
  unfold acquire
  split
  · rename_i h
    simp [Nat.not_le.mpr h]
  · rename_i h
    simp [Nat.not_lt.mp h, eq_comm]

theorem acquire_total (s : S) (p : Unit) : (g.acquire s p).2 ≠ .panicked := by
  unfold acquire
  split <;> simp

theorem release_of_pos {s : S} (h : 0 < g.taken s) (r : Unit) :
    g.release s r = (g.setTaken s (g.taken s - 1), .returned ()) := by
  unfold release
  rw [if_neg (Nat.pos_iff_ne_zero.mp h)]

/-- A semaphore whose calls are those of a gauge. -/
abbrev semaphore : SemaphoreState S where
  Params := Unit
  Permit := Unit
  acquire := g.acquire
  release := g.release

theorem gauges : @Gauges S g.semaphore g := by
  let _ := g.semaphore
  constructor
  case granted =>
    intro s s' p r h
    exact g.acquire_eq_ok.mp h
  case refused =>
    intro s s' p p' h
    exact g.acquire_eq_error.mp h
  case total => exact g.acquire_total
  case released =>
    intro s r hpos
    exact g.release_of_pos hpos r

end Gauge

theorem Utilisation.gauges : Gauges Utilisation.gauge := gauge.gauges

theorem ConcurrencyLimit.gauges : Gauges ConcurrencyLimit.gauge := gauge.gauges

theorem AimdState.gauges : Gauges AimdState.gauge := gauge.gauges

/-! ## Limits -/

/-- Concurrent requests and total in-flight bytes. -/
structure Limits where
  requests : Nat
  bytes : Nat
  deriving DecidableEq, Repr

/-- What a single request reserves; it is both the params and the permit. -/
structure Reservation where
  bytes : Nat
  deriving DecidableEq, Repr

namespace Limits

def acquire (s : Limits) (req : Reservation) : Limits × Unwind (Except Reservation Reservation) :=
  if 1 ≤ s.requests ∧ req.bytes ≤ s.bytes then
    (⟨s.requests - 1, s.bytes - req.bytes⟩, .returned (.ok req))
  else (s, .returned (.error req))

/-- The two additions, in order; the second may panic after the first was made. -/
def release (s : Limits) (req : Reservation) : Limits × Unwind Unit :=
  if s.requests + 1 ≤ USIZE_MAX then
    if s.bytes + req.bytes ≤ U64_MAX then
      (⟨s.requests + 1, s.bytes + req.bytes⟩, .returned ())
    else ({ s with requests := s.requests + 1 }, .panicked)
  else (s, .panicked)

end Limits

instance : SemaphoreState Limits where
  Params := Reservation
  Permit := Reservation
  acquire := Limits.acquire
  release := Limits.release

namespace Limits

variable {s s' : Limits} {req req' : Reservation}

theorem acquire_eq_ok {r : Reservation} :
    SemaphoreState.acquire s req = (s', .returned (.ok r)) ↔
      1 ≤ s.requests ∧ req.bytes ≤ s.bytes ∧
        s' = ⟨s.requests - 1, s.bytes - req.bytes⟩ ∧ r = req := by
  show Limits.acquire s req = _ ↔ _
  unfold acquire
  split
  · rename_i h
    simp [h.1, h.2, eq_comm]
  · rename_i h
    simp only [Prod.mk.injEq, reduceCtorEq, Unwind.returned.injEq, and_false, false_iff]
    intro hok
    exact h ⟨hok.1, hok.2.1⟩

theorem acquire_eq_error :
    SemaphoreState.acquire s req = (s', .returned (.error req')) ↔
      ¬ (1 ≤ s.requests ∧ req.bytes ≤ s.bytes) ∧ s' = s ∧ req' = req := by
  show Limits.acquire s req = _ ↔ _
  unfold acquire
  split
  · rename_i h
    simp [h]
  · rename_i h
    simp only [h, not_false_eq_true, true_and, Prod.mk.injEq, Unwind.returned.injEq,
      Except.error.injEq, eq_comm]

theorem acquireTotal : AcquireTotal Limits := by
  intro s req
  show (Limits.acquire s req).2 ≠ .panicked
  unfold acquire
  split <;> simp

end Limits

/-! ## Pool -/

/-- A pool of idle objects, the most recently returned one last. -/
structure Pool (Conn : Type) where
  objects : List Conn

namespace Pool

variable {Conn : Type}

/-- `self.objects.pop().ok_or(params)` -/
def acquire (s : Pool Conn) (p : Unit) : Pool Conn × Unwind (Except Unit Conn) :=
  match s.objects.getLast? with
  | some conn => (⟨s.objects.dropLast⟩, .returned (.ok conn))
  | none => (s, .returned (.error p))

/-- `self.objects.push(permit)` -/
def release (s : Pool Conn) (conn : Conn) : Pool Conn × Unwind Unit :=
  (⟨s.objects ++ [conn]⟩, .returned ())

/-- A `with_state` closure that pushes connections. -/
def push (conns : List Conn) (s : Pool Conn) : Pool Conn × Unwind Unit :=
  (⟨s.objects ++ conns⟩, .returned ())

end Pool

instance (Conn : Type) : SemaphoreState (Pool Conn) where
  Params := Unit
  Permit := Conn
  acquire := Pool.acquire
  release := Pool.release

namespace Pool

variable {Conn : Type} {s s' : Pool Conn}

theorem acquire_eq_ok {p : Unit} {conn : Conn} :
    SemaphoreState.acquire s p = (s', .returned (.ok conn)) ↔ s.objects = s'.objects ++ [conn] := by
  show Pool.acquire s p = _ ↔ _
  obtain ⟨objects⟩ := s
  obtain ⟨objects'⟩ := s'
  unfold acquire
  rcases List.eq_nil_or_concat objects with rfl | ⟨rest, last, rfl⟩
  · simp
  · simp [List.concat_eq_append, eq_comm, and_comm]

theorem acquire_eq_error {p p' : Unit} :
    SemaphoreState.acquire s p = (s', .returned (.error p')) ↔ s.objects = [] ∧ s' = s := by
  show Pool.acquire s p = _ ↔ _
  obtain ⟨objects⟩ := s
  unfold acquire
  rcases List.eq_nil_or_concat objects with rfl | ⟨rest, last, rfl⟩
  · simp [eq_comm]
  · simp [List.concat_eq_append]

theorem acquireTotal : AcquireTotal (Pool Conn) := by
  intro s p
  show (Pool.acquire s p).2 ≠ .panicked
  unfold acquire
  split <;> simp

end Pool

/-! ## Bomb -/

/-- A counter whose `acquire` panics while `armed`. -/
structure Bomb where
  permits : Nat
  armed : Bool
  deriving DecidableEq, Repr

namespace Bomb

def acquire (s : Bomb) (n : Nat) : Bomb × Unwind (Except Nat Nat) :=
  if s.armed then (s, .panicked)
  else if n ≤ s.permits then ({ s with permits := s.permits - n }, .returned (.ok n))
  else (s, .returned (.error n))

def release (s : Bomb) (n : Nat) : Bomb × Unwind Unit :=
  if s.permits + n ≤ USIZE_MAX then ({ s with permits := s.permits + n }, .returned ())
  else (s, .panicked)

end Bomb

instance : SemaphoreState Bomb where
  Params := Nat
  Permit := Nat
  acquire := Bomb.acquire
  release := Bomb.release

namespace Bomb

theorem acquire_eq_error {s s' : Bomb} {n m : Nat} :
    SemaphoreState.acquire s n = (s', .returned (.error m)) ↔
      (s.armed = false ∧ s.permits < n) ∧ s' = s ∧ m = n := by
  show Bomb.acquire s n = _ ↔ _
  unfold acquire
  split
  · rename_i harmed
    simp [harmed]
  · rename_i harmed
    split
    · rename_i hle
      simp [Nat.not_lt.mpr hle]
    · rename_i hle
      simp [harmed, Nat.not_le.mp hle, eq_comm]

theorem refusalKeepsState : RefusalKeepsState Bomb := by
  intro s s' p p' h
  exact (acquire_eq_error.mp h).2.1

theorem returnsParams : ReturnsParams Bomb := by
  intro s s' p p' h
  exact (acquire_eq_error.mp h).2.2

theorem granted_iff {s : Bomb} {p : Nat} : Granted s p ↔ s.armed = false ∧ p ≤ s.permits := by
  have hacq : Granted s p ↔ ∃ s' r, Bomb.acquire s p = (s', .returned (.ok r)) := Iff.rfl
  rw [hacq]
  unfold acquire
  split
  · simp [*]
  · split <;> simp_all

/-- A grant only takes permits away. -/
theorem grantNeverEnables : GrantNeverEnables Bomb := by
  intro s s' (q : Nat) (p : Nat) r h hgranted
  obtain ⟨harmed, hle⟩ : s.armed = false ∧ q ≤ s.permits := granted_iff.mp ⟨s', r, h⟩
  have hacq : Bomb.acquire s q = (s', .returned (.ok r)) := h
  simp only [acquire, harmed, hle, Bool.false_eq_true, if_false, if_true] at hacq
  obtain ⟨rfl, -⟩ := Prod.mk.inj hacq
  have hp : p ≤ s.permits - q := (granted_iff.mp hgranted).2
  exact granted_iff.mpr ⟨harmed, Nat.le_trans hp (Nat.sub_le _ _)⟩

end Bomb

end FlagBearer
