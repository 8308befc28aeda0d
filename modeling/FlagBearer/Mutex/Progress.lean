import FlagBearer.Mutex.Safety

/-!
# Progress of the Futex Mutex

A thread in `lock` may act on a stale value of the word, spin, fall asleep and be woken. None of
this can go on while the lock is free: whatever the scheduler does, and whoever else comes along,
the lock is taken before any one waiting thread has made four more accesses. And somebody can
always move: a free lock with waiting threads is never stuck.

## Main results

- `free_step`: one step while the lock is free
- `free_lock_is_taken`: the statement about runs
-/

namespace FlagBearer.Futex

variable {τ : Type} [DecidableEq τ] {s s' : State τ}

/-! ## Schedules -/

/-- The weak compare-exchange of `lock` does not fail without a reason. A `FUTEX_WAIT` may still
return spuriously. -/
def Steady (s : State τ) : Action τ → State τ → Prop
  | .access t spurious, _ => s.pc t = .lock → spurious = false
  | _, _ => True

instance (s : State τ) : ∀ (a : Action τ) (s' : State τ), Decidable (Steady s a s')
  | .access t spurious, _ => inferInstanceAs (Decidable (s.pc t = .lock → spurious = false))
  | .lock _, _ | .tryLock _, _ | .unlock _, _ | .futexWake _ _, _ => .isTrue trivial

/-- Is this an access of thread `t`? -/
def Action.isAccess (t : τ) : Action τ → Bool
  | .access u _ => u == t
  | _ => false

/-- The number of accesses that thread `t` makes. -/
def accesses (t : τ) (acts : List (Action τ)) : Nat := acts.countP (Action.isAccess t)

/-- The accesses by which a waiting thread takes the lock, if it stays free until then. -/
def Pc.needs : Pc → Nat
  | .lock => 1
  | .spin _ _ => 2
  | .retry => 1
  | .loop state => if state = CONTENDED then 4 else 1
  | .futexWait => 3
  | .asleep => 3
  | _ => 0

theorem Pc.needs_contended : (Pc.loop CONTENDED).needs = 4 := by
  unfold needs
  exact if_pos rfl

theorem Pc.needs_loop {state : UInt32} (h : state ≠ CONTENDED) : (Pc.loop state).needs = 1 := by
  unfold needs
  exact if_neg h

theorem Pc.needs_pos {pc : Pc} (h : pc.locking = true) : 1 ≤ pc.needs := by
  cases pc with
  | loop state =>
    by_cases hstate : state = CONTENDED
    · rw [hstate, needs_contended]
      exact Nat.le_add_left 1 3
    · exact (needs_loop hstate).ge
  | spin spin inLoop => exact Nat.le_succ 1
  | _ => first | decide | cases h

theorem Pc.needs_le (pc : Pc) : pc.needs ≤ 4 := by
  cases pc with
  | loop state =>
    by_cases hstate : state = CONTENDED
    · exact (congrArg needs (congrArg loop hstate)).le
    · rw [needs_loop hstate]
      exact Nat.le_add_left 1 3
  | spin spin inLoop => exact Nat.le_add_right 2 2
  | _ => decide

/-- Somebody has the lock. -/
def State.Taken (s : State τ) : Prop := ∃ t, s.holds t = true

theorem State.taken_acquired (s : State τ) (t : τ) (word : UInt32) : (s.acquired t word).Taken :=
  ⟨t, by simp [State.acquired]⟩

omit [DecidableEq τ] in
/-- Nobody holds a free lock, or is about to free it. -/
theorem Sound.not_unlocking (hs : Sound s) (hfree : s.word = UNLOCKED) (t : τ) :
    s.pc t ≠ .unlock := by
  intro hpc
  have hword := (hs.exclusive.word_of_holds (hs.unlocking t hpc)).1
  rw [hfree] at hword
  rcases hword with hword | hword
  · exact UNLOCKED_ne_LOCKED hword
  · exact UNLOCKED_ne_CONTENDED hword

/-! ## One step while the lock is free -/

/-- An access of a waiting thread takes the free lock, or brings the thread closer to it. -/
theorem free_access (hfree : s.word = UNLOCKED) {t : τ} {spurious : Bool}
    (ht : (s.pc t).locking = true) (hsteady : s.pc t = .lock → spurious = false)
    (h : access s t spurious = some s') :
    s'.Taken ∨ ∃ pc, s'.word = UNLOCKED ∧ s'.pc = Function.update s.pc t pc ∧
      pc.locking = true ∧ pc.needs + 1 ≤ (s.pc t).needs := by
  unfold access at h
  cases hpc : s.pc t with
  | lock =>
    obtain rfl : spurious = false := hsteady hpc
    simp only [hpc, compareExchangeWeak, compareExchange, hfree, if_true, Bool.false_eq_true,
      if_false, Option.some.injEq] at h
    subst h
    exact Or.inl (s.taken_acquired t LOCKED)
  | retry =>
    simp only [hpc, compareExchange, hfree, if_true, Option.some.injEq] at h
    subst h
    exact Or.inl (s.taken_acquired t LOCKED)
  | spin spin inLoop =>
    -- spinning stops as soon as the word is not LOCKED
    have hstop : UNLOCKED ≠ LOCKED ∨ spin = 0 := Or.inl UNLOCKED_ne_LOCKED
    simp only [hpc, hfree, hstop, if_true, Option.some.injEq] at h
    subst h
    refine Or.inr ⟨_, hfree, rfl, ?_⟩
    cases inLoop <;> exact ⟨rfl, Nat.le_refl 2⟩
  | loop state =>
    simp only [hpc, swap] at h
    split at h
    · rename_i hstate
      cases h
      refine Or.inr ⟨_, hfree, rfl, rfl, ?_⟩
      rw [hstate, Pc.needs_contended]
      exact Nat.le_refl 4
    · simp only [hfree, if_true, Option.some.injEq] at h
      subst h
      exact Or.inl (s.taken_acquired t CONTENDED)
  | futexWait =>
    -- the word is not CONTENDED any more, so the wait returns
    simp only [hpc, hfree, UNLOCKED_ne_CONTENDED, false_and, if_false, Option.some.injEq] at h
    subst h
    exact Or.inr ⟨_, hfree, rfl, rfl, by decide⟩
  | asleep =>
    simp only [hpc] at h
    split at h
    · cases h
      exact Or.inr ⟨_, hfree, rfl, rfl, by decide⟩
    · cases h
  | _ =>
    rw [hpc] at ht
    cases ht

/-- What a step leaves of the waiting threads while the lock stays free. -/
structure StillFree (s s' : State τ) (a : Action τ) : Prop where
  word : s'.word = UNLOCKED
  waiting : ∀ t, (s.pc t).locking = true →
    (s'.pc t).locking = true ∧ (s'.pc t).needs + (a.isAccess t).toNat ≤ (s.pc t).needs

/-- A thread that is not waiting moves. -/
theorem StillFree.other {a : Action τ} {u : τ} {pc : Pc} (hword : s'.word = UNLOCKED)
    (hpc : s'.pc = Function.update s.pc u pc) (hu : (s.pc u).locking = false)
    (ha : ∀ t, a.isAccess t = true → t = u) : StillFree s s' a := by
  refine ⟨hword, fun t ht => ?_⟩
  have htu : t ≠ u := by
    intro htu
    rw [htu, hu] at ht
    cases ht
  have hacc : a.isAccess t = false := by
    rw [Bool.eq_false_iff]
    exact fun h => htu (ha t h)
  rw [hpc, Function.update_of_ne htu, hacc]
  exact ⟨ht, Nat.le_refl _⟩

/-- **One step while the lock is free**: somebody takes it, or it stays free and a waiting thread
that moves is closer to it. -/
theorem free_step (hs : Sound s) (hfree : s.word = UNLOCKED) {a : Action τ}
    (ha : Steady s a s') (h : step s a = some s') : s'.Taken ∨ StillFree s s' a := by
  cases a with
  | lock u =>
    obtain ⟨hpc, rfl⟩ : s.pc u = .idle ∧ s.goto u .lock = s' := by simpa [step] using h
    exact Or.inr (.other hfree rfl (by rw [hpc]; rfl) fun t ht => by cases ht)
  | tryLock u =>
    obtain ⟨hpc, rfl⟩ : s.pc u = .idle ∧ s.goto u .tryLock = s' := by simpa [step] using h
    exact Or.inr (.other hfree rfl (by rw [hpc]; rfl) fun t ht => by cases ht)
  | unlock u =>
    obtain ⟨⟨hpc, -⟩, rfl⟩ : (s.pc u = .idle ∧ s.holds u = true) ∧ s.goto u .unlock = s' := by
      simpa [step] using h
    exact Or.inr (.other hfree rfl (by rw [hpc]; rfl) fun t ht => by cases ht)
  | futexWake u woken =>
    simp only [step, futexWake] at h
    split at h
    · rename_i hguard
      cases h
      exact Or.inr (.other hfree rfl (by rw [hguard.1]; rfl) fun t ht => by cases ht)
    · cases h
  | access u spurious =>
    cases hlocking : (s.pc u).locking with
    | true =>
      rcases free_access hfree hlocking ha h with htaken | ⟨pc, hword, hpc, hstill, hneeds⟩
      · exact Or.inl htaken
      · refine Or.inr ⟨hword, fun t ht => ?_⟩
        rw [hpc]
        by_cases htu : t = u
        · subst htu
          simpa [Action.isAccess] using ⟨hstill, hneeds⟩
        · have hacc : (Action.access u spurious).isAccess t = false := by
            simpa [Action.isAccess] using Ne.symm htu
          rw [Function.update_of_ne htu, hacc]
          exact ⟨ht, Nat.le_refl _⟩
    | false =>
      -- a `try_lock` takes the lock, and nothing else can move
      simp only [step, access] at h
      cases hpc : s.pc u with
      | tryLock =>
        simp only [hpc, compareExchange, hfree, if_true, Option.some.injEq] at h
        subst h
        exact Or.inl (s.taken_acquired u LOCKED)
      | unlock => exact absurd hpc (hs.not_unlocking hfree u)
      | idle => simp [hpc] at h
      | wake => simp [hpc] at h
      | _ =>
        rw [hpc] at hlocking
        cases hlocking

/-! ## Somebody can move -/

/-- A waiting thread that is awake has an access to make. -/
theorem access_enabled {t : τ} (ht : (s.pc t).locking = true)
    (hawake : s.pc t = .asleep → t ∉ s.sleepers) : ∃ s', access s t false = some s' := by
  unfold access
  cases hpc : s.pc t with
  | asleep =>
    simp only
    rw [if_pos (Or.inl (hawake hpc))]
    exact ⟨_, rfl⟩
  | idle | tryLock | unlock | wake =>
    rw [hpc] at ht
    cases ht
  | _ =>
    simp only
    repeat' split
    all_goals exact ⟨_, rfl⟩

/-- A free lock with a waiting thread is not stuck: a thread goes on with its call. -/
theorem Sound.not_stuck (hs : Sound s) (hfree : s.word = UNLOCKED) {t : τ}
    (ht : (s.pc t).locking = true) :
    (∃ u s', step s (.access u false) = some s') ∨
      ∃ u woken s', step s (.futexWake u woken) = some s' := by
  by_cases hmem : t ∈ s.sleepers
  · -- it sleeps, so somebody attends to it
    rcases hs.attended (List.ne_nil_of_mem hmem) with ⟨hword, -⟩ | ⟨u, hu⟩ | ⟨u, hin, hawake⟩
    · rw [hfree] at hword
      exact absurd hword UNLOCKED_ne_CONTENDED
    · have hguard : s.pc u = .wake ∧ (∀ v ∈ s.sleepers, v ∈ s.sleepers) ∧
          (s.sleepers = [] → s.sleepers = []) := ⟨hu, fun _ hv => hv, id⟩
      exact Or.inr ⟨u, s.sleepers, _, if_pos hguard⟩
    · exact Or.inl ⟨u, access_enabled (Pc.locking_of_inLoop hin) fun _ => hawake⟩
  · exact Or.inl ⟨t, access_enabled ht fun _ => hmem⟩

/-! ## Runs -/

/-- At some point of the run of `acts` from `s` somebody has the lock. -/
def TakenDuring (s : State τ) (acts : List (Action τ)) : Prop :=
  ∃ before after u, acts = before ++ after ∧ Transition.exec step s before = some u ∧ u.Taken

theorem TakenDuring.cons {acts : List (Action τ)} {a : Action τ} (h : step s a = some s')
    (htaken : TakenDuring s' acts) : TakenDuring s (a :: acts) := by
  obtain ⟨before, after, u, rfl, hexec, hu⟩ := htaken
  exact ⟨a :: before, after, u, rfl, by simp [h, hexec], hu⟩

theorem exec_free {acts : List (Action τ)} (hs : Sound s) (hfree : s.word = UNLOCKED)
    (hacts : Transition.EveryStep step Steady s acts)
    (h : Transition.exec step s acts = some s') :
    TakenDuring s acts ∨ s'.word = UNLOCKED ∧ ∀ t, (s.pc t).locking = true →
      (s'.pc t).locking = true ∧ (s'.pc t).needs + accesses t acts ≤ (s.pc t).needs := by
  induction acts generalizing s with
  | nil =>
    cases h
    exact Or.inr ⟨hfree, fun t ht => ⟨ht, Nat.le_refl _⟩⟩
  | cons a acts ih =>
    obtain ⟨u, hu, hrest⟩ := Option.bind_eq_some_iff.mp h
    obtain ⟨hsteady, hsteadies⟩ := hacts u hu
    rcases free_step hs hfree hsteady hu with htaken | hstill
    · exact Or.inl ⟨[a], acts, u, rfl, by simp [hu], htaken⟩
    · have hlater := ih (hs.effect (step_effect hu)) hstill.word hsteadies hrest
      rcases hlater with htaken | ⟨hword, hwaiting⟩
      · exact Or.inl (.cons hu htaken)
      · refine Or.inr ⟨hword, fun t ht => ?_⟩
        obtain ⟨hlocking, hneeds⟩ := hstill.waiting t ht
        obtain ⟨hlocking', hneeds'⟩ := hwaiting t hlocking
        refine ⟨hlocking', ?_⟩
        have hcount : accesses t (a :: acts) = accesses t acts + (a.isAccess t).toNat := by
          unfold accesses
          rw [List.countP_cons]
          cases a.isAccess t <;> rfl
        omega

/-- **A free lock is taken**: from every reachable state in which the lock is free, as long as the
weak compare-exchange of `lock` does not fail spuriously, whatever the schedule and whatever calls
other threads begin, somebody takes the lock before any waiting thread has made four accesses.
Until then every waiting thread is still waiting, and if there is one, a thread can go on with its
call. -/
theorem free_lock_is_taken (h : Reachable s) (hfree : s.word = UNLOCKED)
    {acts : List (Action τ)} (hacts : Transition.EveryStep step Steady s acts)
    (hexec : Transition.exec step s acts = some s') :
    TakenDuring s acts ∨
      (∀ t, (s.pc t).locking = true → (s'.pc t).locking = true ∧ accesses t acts ≤ 3) ∧
      ((∃ t, (s.pc t).locking = true) →
        (∃ u s'', step s' (.access u false) = some s'') ∨
          ∃ u woken s'', step s' (.futexWake u woken) = some s'') := by
  have hs := Reachable.sound h
  rcases exec_free hs hfree hacts hexec with htaken | ⟨hword, hwaiting⟩
  · exact Or.inl htaken
  · refine Or.inr ⟨fun t ht => ?_, fun hsome => ?_⟩
    · obtain ⟨hlocking, hneeds⟩ := hwaiting t ht
      have hpos := Pc.needs_pos hlocking
      have hle := (s.pc t).needs_le
      exact ⟨hlocking, by omega⟩
    · obtain ⟨t, ht⟩ := hsome
      exact (Reachable.sound (h.exec hexec)).not_stuck hword (hwaiting t ht).1

/-- The holder leaves while a thread sleeps; another one tries, and the sleeper returns from its
wait without having been woken. -/
theorem free_lock_is_taken_after_unlock :
    let past : List (Action Nat) := [.lock 0, .access 0 false, .lock 1, .access 1 false,
      .access 1 false, .access 1 false, .access 1 false, .access 1 false, .access 1 false,
      .access 1 false, .access 1 false, .lock 2, .access 2 false, .unlock 0, .access 0 false]
    let acts : List (Action Nat) := [.access 1 true, .access 2 false, .futexWake 0 []]
    ∃ s s', Transition.exec step State.init past = some s ∧
      Transition.exec step s acts = some s' ∧
      (TakenDuring s acts ∨
        (∀ t, (s.pc t).locking = true → (s'.pc t).locking = true ∧ accesses t acts ≤ 3) ∧
        ((∃ t, (s.pc t).locking = true) →
          (∃ u s'', step s' (.access u false) = some s'') ∨
            ∃ u woken s'', step s' (.futexWake u woken) = some s'')) := by
  intro past acts
  have hrun : ((Transition.exec step State.init past).any fun s =>
      s.word == UNLOCKED && ((Transition.exec step s acts).isSome &&
        decide (Transition.EveryStep step Steady s acts))) = true := rfl
  obtain ⟨s, hs, htest⟩ := (Option.any_eq_true _ _).mp hrun
  obtain ⟨hfree, htest⟩ := Bool.and_eq_true_iff.mp htest
  obtain ⟨hsome, hsteady⟩ := Bool.and_eq_true_iff.mp htest
  obtain ⟨s', hs'⟩ := Option.isSome_iff_exists.mp hsome
  refine ⟨s, s', hs, hs', ?_⟩
  exact free_lock_is_taken (Transition.reachable_iff_exec.mpr ⟨past, hs⟩) (eq_of_beq hfree)
    (of_decide_eq_true hsteady) hs'

end FlagBearer.Futex
