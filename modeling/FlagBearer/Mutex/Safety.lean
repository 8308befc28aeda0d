import FlagBearer.Mutex.Futex
import Mathlib.Data.Set.Card

/-!
# Safety of the Futex Mutex

An unlock issues its `FUTEX_WAKE` only if it found the word CONTENDED, a waiter swaps
CONTENDED over whatever the word is, and a newcomer may set LOCKED while others sleep. One
invariant shows that the lock has at most one holder all the same and that no sleeper is
forgotten.

## Main results

- `step_effect`: what a step can do
- `Sound.effect`: every effect preserves the invariant
- `mutual_exclusion`: the number of holders is determined by the word
- `no_sleeper_stranded`: somebody is about to attend to the sleepers
-/

namespace FlagBearer.Futex

variable {τ : Type} [DecidableEq τ] {s s' : State τ}

/-! ## Positions -/

/-- In the main loop of `lock_contended`. -/
def Pc.inLoop : Pc → Bool
  | .spin _ inLoop => inLoop
  | .loop _ => true
  | .futexWait => true
  | .asleep => true
  | _ => false

@[simp] theorem Pc.inLoop_idle : Pc.idle.inLoop = false := rfl

@[simp] theorem Pc.inLoop_spin (spin : Nat) (inLoop : Bool) :
    (Pc.spin spin inLoop).inLoop = inLoop := rfl

@[simp] theorem Pc.inLoop_loop (state : UInt32) : (Pc.loop state).inLoop = true := rfl

@[simp] theorem Pc.inLoop_futexWait : Pc.futexWait.inLoop = true := rfl

@[simp] theorem Pc.inLoop_asleep : Pc.asleep.inLoop = true := rfl

/-- In a call of `lock`. -/
def Pc.locking : Pc → Bool
  | .lock => true
  | .spin _ _ => true
  | .retry => true
  | .loop _ => true
  | .futexWait => true
  | .asleep => true
  | _ => false

theorem Pc.locking_of_inLoop {pc : Pc} (h : pc.inLoop = true) : pc.locking = true := by
  cases pc <;> first | rfl | cases h

/-- An awake thread in the main loop that has not acquired. -/
def State.AwakeInLoop (s : State τ) (t : τ) : Prop :=
  (s.pc t).inLoop = true ∧ t ∉ s.sleepers

/-! ## What a step can do -/

/-- The effects of the steps. -/
inductive Effect : State τ → State τ → Prop where
  /-- nothing but the thread's position changes, and it stays in the loop if it was there -/
  | stay (s : State τ) (t : τ) (pc : Pc) (hasleep : s.pc t ≠ .asleep) (hwake : s.pc t ≠ .wake)
      (hunlock : pc = .unlock → s.holds t = true)
      (hloop : (s.pc t).inLoop = true → pc.inLoop = true) : Effect s (s.goto t pc)
  /-- all three acquisitions; from the loop only with CONTENDED -/
  | take (s : State τ) (t : τ) (word : UInt32) (hasleep : s.pc t ≠ .asleep)
      (hwake : s.pc t ≠ .wake) (hfree : s.word = UNLOCKED)
      (hword : word = LOCKED ∨ word = CONTENDED)
      (hloop : (s.pc t).inLoop = true → word = CONTENDED) : Effect s (s.acquired t word)
  /-- the swap of a waiter that finds the word locked -/
  | contend (s : State τ) (t : τ) (state : UInt32) (hpc : s.pc t = .loop state)
      (hheld : s.word ≠ UNLOCKED) : Effect s ((s.setWord CONTENDED).goto t .futexWait)
  | sleep (s : State τ) (t : τ) (hpc : s.pc t = .futexWait) (hword : s.word = CONTENDED) :
      Effect s ((s.setSleepers (t :: s.sleepers)).goto t .asleep)
  | wakeUp (s : State τ) (t : τ) (hpc : s.pc t = .asleep) :
      Effect s ((s.setSleepers (s.sleepers.filter (· ≠ t))).goto t (.spin SPINS true))
  | release (s : State τ) (t : τ) (hpc : s.pc t = .unlock) :
      Effect s (((s.setWord UNLOCKED).goto t (if s.word = CONTENDED then .wake else .idle)).setHolds
        t false)
  | futexWake (s : State τ) (t : τ) (woken : List τ) (hpc : s.pc t = .wake)
      (hmem : ∀ u ∈ woken, u ∈ s.sleepers) (hsome : woken = [] → s.sleepers = []) :
      Effect s ((s.setSleepers (s.sleepers.filter (· ∉ woken))).goto t .idle)

/-- A thread outside the main loop goes on, without the lock. -/
theorem Effect.proceed {t : τ} {pc : Pc} (hout : (s.pc t).inLoop = false)
    (hwake : s.pc t ≠ .wake) (hunlock : pc ≠ .unlock) : Effect s (s.goto t pc) := by
  refine .stay s t pc ?_ hwake (fun h => absurd h hunlock) ?_
  · intro hasleep
    rw [hasleep] at hout
    cases hout
  · intro hin
    rw [hout] at hin
    cases hin

/-- A compare-exchange from outside the main loop that succeeds. -/
theorem Effect.exchange {t : τ} (hout : (s.pc t).inLoop = false) (hwake : s.pc t ≠ .wake)
    (hfree : s.word = UNLOCKED) : Effect s (s.acquired t LOCKED) := by
  refine .take s t LOCKED ?_ hwake hfree (Or.inl rfl) ?_
  · intro hasleep
    rw [hasleep] at hout
    cases hout
  · intro hin
    rw [hout] at hin
    cases hin

/-- A compare-exchange from outside the main loop takes the lock, or the thread goes on
without it. -/
theorem Effect.compareExchange {t : τ} (hout : (s.pc t).inLoop = false) (hwake : s.pc t ≠ .wake)
    (spurious : Bool) (fail : UInt32 → Pc) (hunlock : ∀ state, fail state ≠ .unlock)
    (h : (match compareExchangeWeak s.word UNLOCKED LOCKED spurious with
      | (word, .ok _) => some (s.acquired t word)
      | (word, .error state) => some ((s.setWord word).goto t (fail state))) = some s') :
    Effect s s' := by
  simp only [compareExchangeWeak, Futex.compareExchange] at h
  by_cases hs : spurious = true
  · -- the weak compare-exchange fails although it need not
    simp only [hs, if_true, Option.some.injEq] at h
    subst h
    exact .proceed hout hwake (hunlock _)
  · by_cases hfree : s.word = UNLOCKED
    · simp only [hs, hfree, if_true, Bool.false_eq_true, if_false, Option.some.injEq] at h
      subst h
      exact .exchange hout hwake hfree
    · simp only [hs, hfree, Bool.false_eq_true, if_false, Option.some.injEq] at h
      subst h
      exact .proceed hout hwake (hunlock _)

/-- A thread in the main loop goes on in it. -/
theorem Effect.again {t : τ} {pc : Pc} (hasleep : s.pc t ≠ .asleep) (hwake : s.pc t ≠ .wake)
    (hin : pc.inLoop = true) : Effect s (s.goto t pc) := by
  have hpc : pc ≠ .unlock := by
    intro hpc
    rw [hpc] at hin
    cases hin
  exact .stay s t pc hasleep hwake (fun h => absurd h hpc) (fun _ => hin)

theorem access_effect {t : τ} {spurious : Bool} (h : access s t spurious = some s') :
    Effect s s' := by
  unfold access at h
  cases hpc : s.pc t with
  | idle => simp [hpc] at h
  | wake => simp [hpc] at h
  | lock =>
    have hout : (s.pc t).inLoop = false := by rw [hpc]; rfl
    have hwake : s.pc t ≠ .wake := by simp [hpc]
    simp only [hpc] at h
    exact .compareExchange hout hwake spurious (fun _ => .spin SPINS false) (by simp) h
  | tryLock =>
    have hout : (s.pc t).inLoop = false := by rw [hpc]; rfl
    have hwake : s.pc t ≠ .wake := by simp [hpc]
    simp only [hpc] at h
    exact .compareExchange hout hwake false (fun _ => .idle) (by simp) h
  | retry =>
    have hout : (s.pc t).inLoop = false := by rw [hpc]; rfl
    have hwake : s.pc t ≠ .wake := by simp [hpc]
    simp only [hpc] at h
    exact .compareExchange hout hwake false .loop (by simp) h
  | spin spin inLoop =>
    have hasleep : s.pc t ≠ .asleep := by simp [hpc]
    have hwake : s.pc t ≠ .wake := by simp [hpc]
    simp only [hpc] at h
    cases inLoop with
    | false =>
      -- the spin before the loop may go on to the retry or enter the loop
      have hout : (s.pc t).inLoop = false := by rw [hpc]; rfl
      split at h
      · cases h
        apply Effect.proceed hout hwake
        unfold afterSpin
        split <;> simp
      · cases h
        exact .proceed hout hwake (by simp)
    | true =>
      split at h
      · cases h
        exact .again hasleep hwake (by simp [afterSpin])
      · cases h
        exact .again hasleep hwake rfl
  | loop state =>
    have hasleep : s.pc t ≠ .asleep := by simp [hpc]
    have hwake : s.pc t ≠ .wake := by simp [hpc]
    simp only [hpc, swap] at h
    by_cases hstate : state = CONTENDED
    · -- the swap is skipped
      simp only [hstate, if_true, Option.some.injEq] at h
      subst h
      exact .again hasleep hwake rfl
    · by_cases hfree : s.word = UNLOCKED
      · simp only [hstate, hfree, if_true, if_false, Option.some.injEq] at h
        subst h
        exact .take s t CONTENDED hasleep hwake hfree (Or.inr rfl) (fun _ => rfl)
      · simp only [hstate, hfree, if_false, Option.some.injEq] at h
        subst h
        exact .contend s t state hpc hfree
  | futexWait =>
    simp only [hpc] at h
    split at h
    · rename_i hword
      cases h
      exact .sleep s t hpc hword.1
    · cases h
      exact .again (by simp [hpc]) (by simp [hpc]) rfl
  | asleep =>
    simp only [hpc] at h
    split at h
    · cases h
      exact .wakeUp s t hpc
    · cases h
  | unlock =>
    simp only [hpc, swap, Option.some.injEq] at h
    subst h
    exact .release s t hpc

/-- **What a step can do.** -/
theorem step_effect {a : Action τ} (h : step s a = some s') : Effect s s' := by
  cases a with
  | lock t =>
    obtain ⟨hpc, rfl⟩ : s.pc t = .idle ∧ s.goto t .lock = s' := by simpa [step] using h
    exact .proceed (by rw [hpc]; rfl) (by simp [hpc]) (by simp)
  | tryLock t =>
    obtain ⟨hpc, rfl⟩ : s.pc t = .idle ∧ s.goto t .tryLock = s' := by simpa [step] using h
    exact .proceed (by rw [hpc]; rfl) (by simp [hpc]) (by simp)
  | unlock t =>
    obtain ⟨⟨hpc, hholds⟩, rfl⟩ : (s.pc t = .idle ∧ s.holds t = true) ∧ s.goto t .unlock = s' := by
      simpa [step] using h
    exact .stay s t _ (by simp [hpc]) (by simp [hpc]) (fun _ => hholds) (by simp [hpc])
  | access t spurious => exact access_effect h
  | futexWake t woken =>
    simp only [step, futexWake] at h
    split at h
    · rename_i hguard
      cases h
      exact .futexWake s t woken hguard.1 hguard.2.1 hguard.2.2
    · cases h

/-! ## The invariant -/

/-- The lock is free and nobody holds it, or it is locked and has one holder. -/
def Exclusive (s : State τ) : Prop :=
  (s.word = UNLOCKED ∧ ∀ t, s.holds t = false) ∨
    ((s.word = LOCKED ∨ s.word = CONTENDED) ∧ ∃ t, ∀ u, s.holds u = true ↔ u = t)

/-- Somebody is about to attend to the sleepers: a holder whose unlock will find CONTENDED, an
unlock that has yet to issue its `FUTEX_WAKE`, or a waiter that will set CONTENDED. -/
def Attended (s : State τ) : Prop :=
  (s.word = CONTENDED ∧ ∃ t, s.holds t = true) ∨ (∃ t, s.pc t = .wake) ∨ ∃ t, s.AwakeInLoop t

structure Sound (s : State τ) : Prop where
  queued : ∀ t ∈ s.sleepers, s.pc t = .asleep
  unlocking : ∀ t, s.pc t = .unlock → s.holds t = true
  exclusive : Exclusive s
  attended : s.sleepers ≠ [] → Attended s

omit [DecidableEq τ] in
/-- A thread in another position than `t`. -/
theorem State.ne_of_pc {t u : τ} {pc : Pc} (hu : s.pc u = pc) (ht : s.pc t ≠ pc) : u ≠ t := by
  intro hut
  subst hut
  exact ht hu

theorem UNLOCKED_ne_LOCKED : UNLOCKED ≠ LOCKED := by decide

theorem UNLOCKED_ne_CONTENDED : UNLOCKED ≠ CONTENDED := by decide

/-- Every effect keeps the queue consistent with the positions. -/
theorem Sound.queued_effect (hs : Sound s) (h : Effect s s') :
    ∀ u ∈ s'.sleepers, s'.pc u = .asleep := by
  intro u hu
  -- a thread that moves without being in the queue
  have other {t : τ} {pc : Pc} (ht : s.pc t ≠ .asleep) (hmem : u ∈ s.sleepers) :
      Function.update s.pc t pc u = .asleep := by
    have hpc := hs.queued u hmem
    rw [Function.update_of_ne (State.ne_of_pc hpc ht)]
    exact hpc
  cases h with
  | stay t pc hasleep => exact other hasleep hu
  | take t word hasleep => exact other hasleep hu
  | contend t state hpc => exact other (by simp [hpc]) hu
  | sleep t hpc =>
    rcases List.mem_cons.mp hu with rfl | hmem
    · exact Function.update_self ..
    · exact other (by simp [hpc]) hmem
  | wakeUp t hpc =>
    obtain ⟨hmem, hne⟩ := List.mem_filter.mp hu
    show Function.update s.pc t _ u = .asleep
    rw [Function.update_of_ne (by simpa using hne)]
    exact hs.queued u hmem
  | release t hpc => exact other (by simp [hpc]) hu
  | futexWake t woken hpc => exact other (by simp [hpc]) (List.mem_filter.mp hu).1

theorem Sound.unlocking_effect (hs : Sound s) (h : Effect s s') :
    ∀ u, s'.pc u = .unlock → s'.holds u = true := by
  intro u hu
  -- the thread that moves does not go to the swap of `unlock`
  have other {t : τ} {pc : Pc} (hpc : pc ≠ .unlock)
      (hu : Function.update s.pc t pc u = .unlock) : s.holds u = true ∧ u ≠ t := by
    have hne : u ≠ t := by
      intro hut
      subst hut
      rw [Function.update_self] at hu
      exact hpc hu
    rw [Function.update_of_ne hne] at hu
    exact ⟨hs.unlocking u hu, hne⟩
  cases h with
  | stay t pc hasleep hwake hunlock =>
    by_cases hut : u = t
    · subst hut
      exact hunlock (by simpa using hu)
    · exact hs.unlocking u (by simpa [hut] using hu)
  | take t word =>
    obtain ⟨hholds, hne⟩ := other (by simp) hu
    simpa [State.acquired, hne] using hholds
  | contend t state => exact (other (by simp) hu).1
  | sleep t => exact (other (by simp) hu).1
  | wakeUp t => exact (other (by simp) hu).1
  | release t =>
    obtain ⟨hholds, hne⟩ := other (by split <;> simp) hu
    simpa [hne] using hholds
  | futexWake t woken => exact (other (by simp) hu).1

omit [DecidableEq τ] in
/-- Whoever holds the lock found it locked. -/
theorem Exclusive.word_of_holds (h : Exclusive s) {t : τ} (ht : s.holds t = true) :
    (s.word = LOCKED ∨ s.word = CONTENDED) ∧ ∀ u, s.holds u = true ↔ u = t := by
  rcases h with ⟨-, hnone⟩ | ⟨hword, v, hv⟩
  · rw [hnone t] at ht
    cases ht
  · have htv : t = v := (hv t).mp ht
    subst htv
    exact ⟨hword, hv⟩

/-- Every effect keeps the lock exclusive. -/
theorem Sound.exclusive_effect (hs : Sound s) (h : Effect s s') : Exclusive s' := by
  cases h with
  | stay t pc => exact hs.exclusive
  | sleep t => exact hs.exclusive
  | wakeUp t => exact hs.exclusive
  | futexWake t woken => exact hs.exclusive
  | take t word hasleep hwake hfree hword =>
    -- the lock was free, so nobody held it
    rcases hs.exclusive with ⟨-, hnone⟩ | ⟨hlocked, -⟩
    · refine Or.inr ⟨hword, t, ?_⟩
      intro u
      by_cases hut : u = t
      · subst hut
        simp [State.acquired]
      · simp [State.acquired, hut, hnone u]
    · rw [hfree] at hlocked
      rcases hlocked with hlocked | hlocked
      · exact absurd hlocked UNLOCKED_ne_LOCKED
      · exact absurd hlocked UNLOCKED_ne_CONTENDED
  | contend t state hpc hheld =>
    -- the word was locked already, so its holder stays
    rcases hs.exclusive with ⟨hfree, -⟩ | ⟨-, howner⟩
    · exact absurd hfree hheld
    · exact Or.inr ⟨Or.inr rfl, howner⟩
  | release t hpc =>
    -- the thread that unlocks was the only holder
    have howner := (hs.exclusive.word_of_holds (hs.unlocking t hpc)).2
    refine Or.inl ⟨rfl, ?_⟩
    intro u
    by_cases hut : u = t
    · subst hut
      simp
    · have hu : s.holds u = false := by
        rw [Bool.eq_false_iff]
        intro hholds
        exact hut ((howner u).mp hholds)
      simpa [hut] using hu

omit [DecidableEq τ] in
/-- A contended lock is held. -/
theorem Exclusive.held_of_contended (h : Exclusive s) (hword : s.word = CONTENDED) :
    ∃ t, s.holds t = true := by
  rcases h with ⟨hfree, -⟩ | ⟨-, t, ht⟩
  · rw [hfree] at hword
    exact absurd hword UNLOCKED_ne_CONTENDED
  · exact ⟨t, (ht t).mpr rfl⟩

/-- Every effect leaves somebody who attends to the sleepers. -/
theorem Sound.attended_effect (hs : Sound s) (h : Effect s s') (hne : s'.sleepers ≠ []) :
    Attended s' := by
  cases h with
  | stay t pc hasleep hwake hunlock hloop =>
    -- whoever attended to the sleepers still does
    rcases hs.attended hne with hheld | ⟨u, hu⟩ | ⟨u, hin, hmem⟩
    · exact Or.inl hheld
    · have hut := State.ne_of_pc hu hwake
      exact Or.inr (Or.inl ⟨u, by simpa [hut] using hu⟩)
    · refine Or.inr (Or.inr ⟨u, ?_, hmem⟩)
      by_cases hut : u = t
      · subst hut
        simpa using hloop hin
      · simpa [hut] using hin
  | take t word hasleep hwake hfree hword hloop =>
    rcases hs.attended hne with ⟨hcontended, -⟩ | ⟨u, hu⟩ | ⟨u, hin, hmem⟩
    · rw [hfree] at hcontended
      exact absurd hcontended UNLOCKED_ne_CONTENDED
    · have hut := State.ne_of_pc hu hwake
      exact Or.inr (Or.inl ⟨u, by simpa [State.acquired, hut] using hu⟩)
    · by_cases hut : u = t
      · -- the waiter itself: it has set CONTENDED and holds the lock now
        subst hut
        exact Or.inl ⟨hloop hin, u, by simp [State.acquired]⟩
      · exact Or.inr (Or.inr ⟨u, by simpa [State.acquired, hut] using hin, hmem⟩)
  | contend t state hpc hheld =>
    -- the thread itself is awake and in the loop
    refine Or.inr (Or.inr ⟨t, by simp, ?_⟩)
    intro hmem
    have hasleep := hs.queued t hmem
    rw [hpc] at hasleep
    cases hasleep
  | sleep t hpc hword => exact Or.inl ⟨hword, hs.exclusive.held_of_contended hword⟩
  | wakeUp t hpc => exact Or.inr (Or.inr ⟨t, by simp, by simp⟩)
  | release t hpc =>
    by_cases hword : s.word = CONTENDED
    · -- this unlock owes a wake
      exact Or.inr (Or.inl ⟨t, by simp [hword]⟩)
    · rcases hs.attended hne with ⟨hcontended, -⟩ | ⟨u, hu⟩ | ⟨u, hin, hmem⟩
      · exact absurd hcontended hword
      · have hut : u ≠ t := State.ne_of_pc hu (by simp [hpc])
        exact Or.inr (Or.inl ⟨u, by simpa [hut] using hu⟩)
      · have hut : u ≠ t := by
          intro hut
          subst hut
          rw [hpc] at hin
          cases hin
        exact Or.inr (Or.inr ⟨u, by simpa [hut] using hin, hmem⟩)
  | futexWake t woken hpc hmem hsome =>
    -- somebody was asleep, so somebody was woken
    have hsleepers : s.sleepers ≠ [] := by
      intro hnil
      simp [hnil] at hne
    obtain ⟨u, hu⟩ := List.exists_mem_of_ne_nil woken fun hnil => hsleepers (hsome hnil)
    have hasleep := hs.queued u (hmem u hu)
    have hut : u ≠ t := State.ne_of_pc hasleep (by simp [hpc])
    exact Or.inr (Or.inr ⟨u, by simp [hut, hasleep], by simp [hu]⟩)

/-- **Every effect preserves the invariant.** -/
theorem Sound.effect (hs : Sound s) (h : Effect s s') : Sound s' :=
  ⟨hs.queued_effect h, hs.unlocking_effect h, hs.exclusive_effect h, hs.attended_effect h⟩

omit [DecidableEq τ] in
theorem Sound.init : Sound (State.init : State τ) := by
  constructor
  case queued =>
    intro t ht
    cases ht
  case unlocking =>
    intro t ht
    cases ht
  case exclusive => exact Or.inl ⟨rfl, fun _ => rfl⟩
  case attended =>
    intro hne
    exact absurd rfl hne

theorem Reachable.sound (h : Reachable s) : Sound s :=
  Transition.Reachable.invariant _ Sound.init (fun _ _ _ _ hs ht => hs.effect (step_effect ht)) h

/-! ## The statements about runs -/

/-- The word has one of its three values, and determines the number of holders. -/
structure MutuallyExclusive (s : State τ) : Prop where
  word : s.word = UNLOCKED ∨ s.word = LOCKED ∨ s.word = CONTENDED
  holders : {t | s.holds t = true}.encard = if s.word = UNLOCKED then 0 else 1

/-- **Mutual exclusion**, for any number of threads and in every reachable state. -/
theorem mutual_exclusion (h : Reachable s) : MutuallyExclusive s := by
  rcases (Reachable.sound h).exclusive with ⟨hfree, hnone⟩ | ⟨hword, t, ht⟩
  · refine ⟨Or.inl hfree, ?_⟩
    have hempty : {u | s.holds u = true} = ∅ := by
      ext u
      simp [hnone u]
    rw [hempty, if_pos hfree, Set.encard_empty]
  · refine ⟨Or.inr hword, ?_⟩
    have hlocked : s.word ≠ UNLOCKED := by
      rcases hword with hword | hword
      · rw [hword]
        exact UNLOCKED_ne_LOCKED.symm
      · rw [hword]
        exact UNLOCKED_ne_CONTENDED.symm
    have hsingle : {u | s.holds u = true} = {t} := by
      ext u
      exact ht u
    rw [hsingle, if_neg hlocked, Set.encard_singleton]

/-- A waiter takes the lock by its swap, from a stale observation. -/
theorem mutual_exclusion_of_swap :
    ∃ s : State Nat,
      Transition.exec step State.init [.lock 0, .access 0 false, .lock 1, .access 1 true,
        .access 1 false, .access 1 false, .access 1 false, .access 1 false, .access 1 false,
        .unlock 0, .access 0 false, .access 1 false] = some s ∧ MutuallyExclusive s :=
  Transition.exists_exec rfl fun _ h => mutual_exclusion h

/-- The lock is free, somebody sleeps, everybody who is trying to lock it sleeps, and no wake
is pending. -/
def Stranded (s : State τ) : Prop :=
  (∀ t, s.holds t = false) ∧ (∃ t, t ∈ s.sleepers) ∧
    (∀ t, (s.pc t).locking = true → t ∈ s.sleepers) ∧ ∀ t, s.pc t ≠ .wake

/-- **No sleeper is stranded**, in any reachable state. -/
theorem no_sleeper_stranded (h : Reachable s) :
    ((∃ t, t ∈ s.sleepers) → Attended s) ∧ ¬ Stranded s := by
  have hattended : (∃ t, t ∈ s.sleepers) → Attended s := by
    intro hsleeper
    obtain ⟨t, ht⟩ := hsleeper
    exact (Reachable.sound h).attended (List.ne_nil_of_mem ht)
  refine ⟨hattended, ?_⟩
  intro hstranded
  obtain ⟨hfree, hsleeper, htrying, hpending⟩ := hstranded
  -- each of the three ways to be attended to is excluded
  rcases hattended hsleeper with ⟨-, t, ht⟩ | ⟨t, ht⟩ | ⟨t, hin, hawake⟩
  · rw [hfree t] at ht
    cases ht
  · exact hpending t ht
  · exact hawake (htrying t (Pc.locking_of_inLoop hin))

/-- A thread falls asleep, the holder unlocks and has yet to wake it. -/
theorem no_sleeper_stranded_before_wake :
    ∃ s : State Nat,
      Transition.exec step State.init [.lock 0, .access 0 false, .lock 1, .access 1 false,
        .access 1 false, .access 1 false, .access 1 false, .access 1 false, .access 1 false,
        .access 1 false, .access 1 false, .unlock 0, .access 0 false] = some s ∧
      (((∃ t, t ∈ s.sleepers) → Attended s) ∧ ¬ Stranded s) :=
  Transition.exists_exec rfl fun _ h => no_sleeper_stranded h

end FlagBearer.Futex
