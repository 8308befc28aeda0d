import FlagBearer.Core.Traits

/-!
# The Counting Semaphore

`SemaphoreCounter`, the state of the crate's first example: some number of permits is
available, an `acquire` takes as many as it asks for, a `release` gives them back. Numbers
are machine words; an addition that overflows panics (`checked_add(..).unwrap()`).
-/

namespace FlagBearer

/-- `usize::MAX` -/
def USIZE_MAX : Nat := UInt64.size - 1

structure SemaphoreCounter where
  available : Nat
  deriving DecidableEq, Repr

namespace SemaphoreCounter

def acquire (s : SemaphoreCounter) (n : Nat) : SemaphoreCounter × Unwind (Except Nat Nat) :=
  if n ≤ s.available then (⟨s.available - n⟩, .returned (.ok n)) else (s, .returned (.error n))

/-- `self.0 = self.0.checked_add(n).unwrap()`: both `release` and a `with_state` call that
adds permits. -/
def add (n : Nat) (s : SemaphoreCounter) : SemaphoreCounter × Unwind Unit :=
  if s.available + n ≤ USIZE_MAX then (⟨s.available + n⟩, .returned ()) else (s, .panicked)

end SemaphoreCounter

instance : SemaphoreState SemaphoreCounter where
  Params := Nat
  Permit := Nat
  acquire := SemaphoreCounter.acquire
  release s n := s.add n

namespace SemaphoreCounter

variable {s s' : SemaphoreCounter} {n m : Nat}

theorem acquire_eq_ok {r : Nat} :
    SemaphoreState.acquire s n = (s', .returned (.ok r)) ↔
      n ≤ s.available ∧ s' = ⟨s.available - n⟩ ∧ r = n := by
  show SemaphoreCounter.acquire s n = _ ↔ _
  unfold acquire
  split
  · rename_i h
    simp [h, eq_comm]
  · rename_i h
    simp [h]

theorem acquire_eq_error :
    SemaphoreState.acquire s n = (s', .returned (.error m)) ↔
      s.available < n ∧ s' = s ∧ m = n := by
  show SemaphoreCounter.acquire s n = _ ↔ _
  unfold acquire
  split
  · rename_i h
    simp [Nat.not_lt.mpr h]
  · rename_i h
    simp [Nat.not_le.mp h, eq_comm]

theorem acquireTotal : AcquireTotal SemaphoreCounter := by
  intro s n
  show (SemaphoreCounter.acquire s n).2 ≠ .panicked
  unfold acquire
  split <;> simp

theorem returnsParams : ReturnsParams SemaphoreCounter := by
  intro s s' p p' h
  exact (acquire_eq_error.mp h).2.2

theorem refusalKeepsState : RefusalKeepsState SemaphoreCounter := by
  intro s s' p p' h
  exact (acquire_eq_error.mp h).2.1

/-- Granting only takes permits away, so what was refused stays refused. -/
theorem grantKeepsRefusals : GrantKeepsRefusals SemaphoreCounter := by
  intro s s' q p r hgrant hrefused hgranted
  obtain ⟨-, rfl, -⟩ := acquire_eq_ok.mp hgrant
  obtain ⟨_, _, hrefused⟩ := hrefused
  obtain ⟨_, _, hgranted⟩ := hgranted
  have hlt := (acquire_eq_error.mp hrefused).1
  have hle := (acquire_eq_ok.mp hgranted).1
  simp only at hle
  omega

/-- For the same reason it lets nobody else in. -/
theorem grantNeverEnables : GrantNeverEnables SemaphoreCounter := by
  intro s s' q p r hgrant hgranted
  obtain ⟨-, rfl, -⟩ := acquire_eq_ok.mp hgrant
  obtain ⟨_, _, hgranted⟩ := hgranted
  have hle := (acquire_eq_ok.mp hgranted).1
  exact ⟨_, p, acquire_eq_ok.mpr ⟨Nat.le_trans hle (Nat.sub_le _ _), rfl, rfl⟩⟩

theorem add_eq_returned :
    SemaphoreCounter.add n s = (s', .returned ()) ↔
      s.available + n ≤ USIZE_MAX ∧ s' = ⟨s.available + n⟩ := by
  unfold add
  split
  · rename_i h
    simp [h, eq_comm]
  · rename_i h
    simp [h]

end SemaphoreCounter

end FlagBearer
