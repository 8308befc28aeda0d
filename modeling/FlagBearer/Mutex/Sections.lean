import FlagBearer.Lib.Lock
import FlagBearer.Mutex.Safety

/-!
# Critical Sections

The data behind the mutex, as `lock_api` guards it: a thread touches the data only while it holds
the lock, between the return of its `lock` or `try_lock` and its call of `unlock`. Each touch is
a step of its own, and steps of other threads come in between. Mutual exclusion makes whole
critical sections of them: the data is what the sections, one after the other, make of it. This
is the granularity at which the queue is modelled.

## Main results

- `notes_serial`: one step of the mutex continues a serial history
- `critical_sections_atomic`: the statement about runs
-/

namespace FlagBearer.Futex

variable {τ σ : Type} [DecidableEq τ] {s s' : State τ}

/-! ## Guarded data -/

/-- The thread that an action is a step of. -/
def Action.thread : Action τ → τ
  | .lock t => t
  | .tryLock t => t
  | .unlock t => t
  | .access t _ => t
  | .futexWake t _ => t

/-- Did a step make thread `t` hold the lock, or no longer hold it? -/
def notes (s s' : State τ) (t : τ) : List (Lock.Note τ (σ → σ)) :=
  match s.holds t, s'.holds t with
  | false, true => [.taken t]
  | true, false => [.freed t]
  | _, _ => []

/-- The mutex, the data behind it, and a record of what happened. No step reads the record. -/
structure Guarded (τ σ : Type) where
  lock : State τ
  data : σ
  history : List (Lock.Note τ (σ → σ))

/-- A step of the mutex, or a touch of the data through a guard. -/
inductive Guarded.Action (τ σ : Type) where
  | lock (a : Futex.Action τ)
  | touch (t : τ) (f : σ → σ)

/-- The next state. A guard exists while its thread holds the lock and is outside the mutex's
code. -/
def Guarded.step (g : Guarded τ σ) : Guarded.Action τ σ → Option (Guarded τ σ)
  | .lock a =>
    (Futex.step g.lock a).map fun s =>
      { g with lock := s, history := g.history ++ notes g.lock s a.thread }
  | .touch t f =>
    if g.lock.holds t = true ∧ g.lock.pc t = .idle then
      some { g with data := f g.data, history := g.history ++ [.touched t f] }
    else none

def Guarded.init (data : σ) : Guarded τ σ := ⟨.init, data, []⟩

/-- The states of every run of the mutex and its data. -/
abbrev Guarded.Reachable (data : σ) : Guarded τ σ → Prop :=
  Transition.Reachable Guarded.step (Guarded.init data)

/-! ## One step -/

/-- A step changes what its own thread holds, if anything. -/
theorem step_holds {a : Action τ} (h : step s a = some s') {u : τ} (hu : u ≠ a.thread) :
    s'.holds u = s.holds u := by
  cases a with
  | lock t =>
    obtain ⟨-, rfl⟩ : s.pc t = .idle ∧ s.goto t .lock = s' := by simpa [step] using h
    rfl
  | tryLock t =>
    obtain ⟨-, rfl⟩ : s.pc t = .idle ∧ s.goto t .tryLock = s' := by simpa [step] using h
    rfl
  | unlock t =>
    obtain ⟨-, rfl⟩ : (s.pc t = .idle ∧ s.holds t = true) ∧ s.goto t .unlock = s' := by
      simpa [step] using h
    rfl
  | futexWake t woken =>
    simp only [step, futexWake] at h
    split at h
    · cases h
      rfl
    · cases h
  | access t spurious =>
    have hut : u ≠ t := hu
    simp only [step, access] at h
    split at h
    all_goals repeat' split at h
    all_goals cases h
    all_goals simp [State.acquired, hut]

/-- Who holds the lock. -/
def State.HeldBy (s : State τ) (o : Option τ) : Prop := ∀ t, s.holds t = true ↔ o = some t

omit [DecidableEq τ] in
theorem Exclusive.heldBy (h : Exclusive s) : ∃ o, s.HeldBy o := by
  rcases h with ⟨-, hnone⟩ | ⟨-, t, ht⟩
  · refine ⟨none, fun u => ?_⟩
    rw [hnone u]
    simp
  · refine ⟨some t, fun u => ?_⟩
    rw [ht u, Option.some.injEq, eq_comm]

omit [DecidableEq τ] in
theorem State.HeldBy.holds_false {o : Option τ} (h : s.HeldBy o) {t : τ} (ht : o ≠ some t) :
    s.holds t = false := by
  rw [Bool.eq_false_iff]
  intro hholds
  exact ht ((h t).mp hholds)

/-- **A step of the mutex continues a serial history**: nobody takes the lock while it is held,
and only its holder frees it. -/
theorem notes_serial (hs : Sound s) {a : Action τ} (h : step s a = some s') {o : Option τ}
    (ho : s.HeldBy o) {ns : List (Lock.Note τ (σ → σ))} (hns : Lock.Serial ns o) :
    ∃ o', s'.HeldBy o' ∧ Lock.Serial (ns ++ notes s s' a.thread) o' := by
  obtain ⟨o', ho'⟩ := (hs.effect (step_effect h)).exclusive.heldBy
  refine ⟨o', ho', ?_⟩
  -- a thread whose hold changes is the one that moves
  have mover {t : τ} (hne : s'.holds t ≠ s.holds t) : a.thread = t := by
    by_contra hat
    exact hne (step_holds h fun htt => hat htt.symm)
  unfold notes
  cases o with
  | none =>
    rw [ho.holds_false (by simp)]
    cases o' with
    | none =>
      rw [ho'.holds_false (by simp)]
      simpa using hns
    | some t =>
      have hbefore : s.holds t = false := ho.holds_false (by simp)
      have hafter : s'.holds t = true := (ho' t).mpr rfl
      rw [mover (by rw [hbefore, hafter]; simp), hafter]
      exact .take t hns
  | some t =>
    have hbefore : s.holds t = true := (ho t).mpr rfl
    by_cases hsame : o' = some t
    · -- the same thread still holds it
      subst hsame
      have hstays : s'.holds a.thread = s.holds a.thread := by
        rw [Bool.eq_iff_iff, ho' a.thread, ho a.thread]
      rw [hstays]
      cases s.holds a.thread <;> simpa using hns
    · have hafter : s'.holds t = false := ho'.holds_false hsame
      have hthread : a.thread = t := mover (by rw [hbefore, hafter]; simp)
      cases o' with
      | none =>
        rw [hthread, hbefore, hafter]
        exact .free t hns
      | some u =>
        -- a lock cannot pass from one thread to another in one step
        have hu : s.holds u = false := by
          apply ho.holds_false
          intro htu
          cases htu
          exact hsame rfl
        have hthread' : a.thread = u := mover (by rw [hu, (ho' u).mpr rfl]; simp)
        rw [hthread] at hthread'
        subst hthread'
        exact absurd rfl hsame

/-! ## Runs -/

/-- What holds in every reachable state of the mutex and its data. -/
structure Serialised (data : σ) (g : Guarded τ σ) : Prop where
  sound : Sound g.lock
  serial : ∃ o, g.lock.HeldBy o ∧ Lock.Serial g.history o
  folded : g.data = (Lock.touches g.history).foldl (fun d f => f d) data

omit [DecidableEq τ] in
theorem Serialised.init (data : σ) : Serialised data (Guarded.init data : Guarded τ σ) := by
  refine ⟨Sound.init, ⟨none, ?_, .start⟩, rfl⟩
  intro t
  simp [Guarded.init, State.init]

omit [DecidableEq τ] in
theorem touches_notes (s s' : State τ) (t : τ) :
    Lock.touches (notes s s' t : List (Lock.Note τ (σ → σ))) = [] := by
  unfold notes
  split <;> rfl

theorem Serialised.step {data : σ} {g g' : Guarded τ σ} (hg : Serialised data g)
    {a : Guarded.Action τ σ} (h : g.step a = some g') : Serialised data g' := by
  obtain ⟨o, ho, hserial⟩ := hg.serial
  cases a with
  | lock a =>
    obtain ⟨s, hs, rfl⟩ := Option.map_eq_some_iff.mp h
    refine ⟨hg.sound.effect (step_effect hs), notes_serial hg.sound hs ho hserial, ?_⟩
    rw [Lock.touches_append, touches_notes, List.append_nil]
    exact hg.folded
  | touch t f =>
    simp only [Guarded.step] at h
    split at h
    · rename_i hguard
      cases h
      obtain rfl := (ho t).mp hguard.1
      refine ⟨hg.sound, ⟨some t, ho, .touch t f hserial⟩, ?_⟩
      simp only [Lock.touches_append, List.foldl_append, ← hg.folded]
      rfl
    · cases h

theorem Guarded.Reachable.serialised {data : σ} {g : Guarded τ σ}
    (h : Guarded.Reachable data g) : Serialised data g :=
  Transition.Reachable.invariant _ (Serialised.init data) (fun _ _ _ _ hg ht => hg.step ht) h

/-- **Critical sections are atomic**: in every reachable state, whatever the interleaving, the
history is that of whole critical sections one after the other, the data is what they made of
it in this order, and a section is open exactly while its thread holds the lock. -/
theorem critical_sections_atomic {data : σ} {g : Guarded τ σ} (h : Guarded.Reachable data g) :
    ∃ cs current, g.history = Lock.history cs current ∧
      g.data = (Lock.bodies cs current).foldl (fun d f => f d) data ∧
      ∀ t, g.lock.holds t = true ↔ current.map Lock.Section.owner = some t := by
  have hg := h.serialised
  obtain ⟨o, ho, hserial⟩ := hg.serial
  obtain ⟨cs, current, hhistory, rfl⟩ := hserial.sections
  refine ⟨cs, current, hhistory, ?_, ho⟩
  rw [← Lock.touches_history, ← hhistory]
  exact hg.folded

/-- A thread asks for the lock between the two touches of another one. -/
theorem critical_sections_atomic_of_two :
    ∃ g : Guarded Nat Nat,
      Transition.exec Guarded.step (Guarded.init 0) [.lock (.lock 0), .lock (.access 0 false),
        .touch 0 (· + 1), .lock (.lock 1), .lock (.access 1 false), .touch 0 (· * 2),
        .lock (.unlock 0), .lock (.access 0 false), .lock (.access 1 false),
        .lock (.access 1 false), .touch 1 (· + 5)] = some g ∧
      ∃ cs current, g.history = Lock.history cs current ∧
        g.data = (Lock.bodies cs current).foldl (fun d f => f d) 0 ∧
        ∀ t, g.lock.holds t = true ↔ current.map Lock.Section.owner = some t :=
  Transition.exists_exec rfl fun _ h => critical_sections_atomic h

end FlagBearer.Futex
