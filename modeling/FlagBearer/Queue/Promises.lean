import FlagBearer.Core.States
import FlagBearer.Queue.Custody
import Mathlib.Algebra.BigOperators.Group.Multiset.Basic
import Mathlib.Algebra.GroupWithZero.Nat

/-!
# What the Documented States Promise

The states of the documentation keep a count of their permits: what is available and what is
outstanding add up, and a release never fails. Each of them is right on its own only if permits
come back at most once and nothing else touches the count, which is what the queue guarantees to
its issuer in every run, with any order, any cancellations, closes and panics.

## Main results

- `gauge_counts`: limits that change at run time
- `aimd_within_bounds`: the adaptive limit
- `counter_conserves`, `limits_conserve`: one quantity, and two at once
- `pool_conserves`: connections are never duplicated
-/

namespace FlagBearer

open Tokens

variable {ι κ W S O : Type} [DecidableEq ι] [DecidableEq κ] [DecidableEq W] [Order O]
variable {C : Closeability}

/-! ## Gauges -/

theorem Gauges.keeps [SemaphoreState S] {g : Gauge S} (hg : Gauges g)
    {P : List (Dealing S) → S → Prop}
    (hgrant : ∀ us s, P us s → g.taken s < g.limit s → P us (g.setTaken s (g.taken s + 1)))
    (hrelease : ∀ us s, P us s → P us (g.setTaken s (g.taken s - 1)))
    (hburn : ∀ us r s, P us s → P (us ++ [.burn r]) s) {state : S} {order : O}
    {acts : List (Action ι κ W S)} {w : World ι κ W S O} (h : run C state order acts = some w)
    (hzero : g.taken state = 0) (hP : P [] state)
    (hclosures : ∀ k f, .withState k f ∈ acts → ∀ us out s, P us s →
      g.taken (f s).1 = g.taken s ∧ P (us ++ [.adjust f out]) (f s).1)
    (hthin : ∀ i r, .conjure i r ∉ acts) :
    ∃ m ls, IssuerRun C state order acts w m ls ∧
      (g.taken w.inner.state =
          m.card + (burnt (interventions C (World.new state order) acts)).card ∧
        P (interventions C (World.new state order) acts) w.inner.state) ∧
      ∀ l ∈ ls, StateReturns l := by
  have hkeeps := keeps_custody (C := C) StateReturns
    (fun us s m => g.taken s = m.card + (burnt us).card ∧ P us s) ?custody h ?respects ?init
  case custody =>
    intro us
    apply custody_of_total (fun l hl => hl.stateReturns) hg.total
    · -- a grant counts one more, and there was room for it
      intro s s' m p r hacq hinv
      obtain ⟨hlt, rfl⟩ := hg.granted hacq
      rw [Multiset.card_cons, g.taken_set]
      exact ⟨by omega, hgrant us s hinv.2 hlt⟩
    · -- a refusal counts nothing
      intro s s' m p p' hacq hinv
      obtain ⟨-, rfl⟩ := hg.refused hacq
      exact hinv
    · -- a release finds the count of its own permit
      intro s m r hinv
      rw [Multiset.card_cons] at hinv
      refine ⟨_, hg.released r (by omega), ?_⟩
      rw [g.taken_set]
      exact ⟨by omega, hrelease us s hinv.2⟩
  case respects =>
    refine respects_of_actions ?_ (fun i r ha => absurd ha (hthin i r)) ?_
    · intro k f ha us out post hus s m hinv
      obtain ⟨htaken, hP'⟩ := hclosures k f ha us out s hinv.2
      refine ⟨trivial, ?_⟩
      simp only [burnt_snoc, Label.burnt, add_zero, htaken]
      exact ⟨hinv.1, hP'⟩
    · -- taken for good: the permit moves from one side to the other
      intro us r s m hinv
      refine ⟨trivial, ?_⟩
      simp only [burnt_snoc, Label.burnt, Multiset.card_cons, Multiset.card_add,
        Multiset.card_singleton] at hinv ⊢
      exact ⟨by omega, hburn us r s hinv.2⟩
  case init => exact ⟨by simp [hzero], hP⟩
  obtain ⟨m, ls, hrun, ⟨hcount, hrest⟩, hls⟩ := hkeeps
  exact ⟨m, ls, hrun, ⟨by simpa using hcount, hrest⟩, hls⟩

section Limit

variable [SemaphoreState S] (effect : (S → S × Unwind Unit) → Nat → Nat)

/-- What an action makes of the limit, if closures change it as `effect` tells. -/
def Action.retune (limit : Nat) : Action ι κ W S → Nat
  | .withState _ f => effect f limit
  | _ => limit

/-- The limit in force after some actions. -/
def limitAfter (limit : Nat) (acts : List (Action ι κ W S)) : Nat :=
  acts.foldl (Action.retune effect) limit

/-- The same for an intervention. -/
def Dealing.retune (limit : Nat) : Dealing S → Nat
  | .adjust f _ => effect f limit
  | _ => limit

omit [DecidableEq ι] [DecidableEq κ] [DecidableEq W] [Order O] in
/-- An action changes the limit as its intervention does. -/
theorem retune_intervention (w : World ι κ W S O) (a : Action ι κ W S) (limit : Nat) :
    (a.intervention w).toList.foldl (Dealing.retune effect) limit = a.retune effect limit := by
  cases a with
  | takePermit i => cases hi : w.permits i <;> simp [Action.intervention, hi] <;> rfl
  | _ => rfl

/-- The limits that the interventions of a run set are those that its actions set. -/
theorem limitAfter_interventions {w w' : World ι κ W S O} {acts : List (Action ι κ W S)}
    (h : Transition.exec (step C) w acts = some w') (limit : Nat) :
    (interventions C w acts).foldl (Dealing.retune effect) limit =
      limitAfter effect limit acts := by
  induction acts generalizing w limit with
  | nil => rfl
  | cons a acts ih =>
    obtain ⟨v, hv, hrest⟩ := Option.bind_eq_some_iff.mp h
    simp only [interventions, hv, List.foldl_append, retune_intervention]
    exact ih hrest _

theorem exists_prefix_of_interventions {w w' : World ι κ W S O} {acts : List (Action ι κ W S)}
    (h : Transition.exec (step C) w acts = some w') (limit : Nat) {us : List (Dealing S)}
    (hus : us <+: interventions C w acts) :
    ∃ pre, pre <+: acts ∧ us.foldl (Dealing.retune effect) limit = limitAfter effect limit pre := by
  induction acts generalizing w limit us with
  | nil =>
    obtain rfl := List.prefix_nil.mp hus
    exact ⟨[], List.prefix_refl _, rfl⟩
  | cons a acts ih =>
    obtain ⟨v, hv, hrest⟩ := Option.bind_eq_some_iff.mp h
    have hretune := retune_intervention effect w a limit
    simp only [interventions, hv] at hus
    -- the empty prefix, or one that has the intervention of `a`, if there is one
    have hsplit : us = [] ∨ ∃ us', us = (a.intervention w).toList ++ us' ∧
        us' <+: interventions C v acts := by
      cases hu : a.intervention w with
      | none => exact Or.inr ⟨us, rfl, by simpa [hu] using hus⟩
      | some u => exact List.prefix_cons_iff.mp (by simpa [hu] using hus)
    rcases hsplit with rfl | ⟨us', rfl, hlater⟩
    · exact ⟨[], List.nil_prefix, rfl⟩
    · obtain ⟨pre, hpre, hlimit⟩ := ih hrest (a.retune effect limit) hlater
      refine ⟨a :: pre, List.cons_prefix_cons.mpr ⟨rfl, hpre⟩, ?_⟩
      rw [List.foldl_append, hretune, hlimit]
      rfl

end Limit

/-- **The gauge counts the permits in flight**, whatever closures do to the limit. It never exceeds
the highest limit that was in force, and neither `S::acquire` nor `S::release` unwinds: a release
never finds the count at zero. -/
theorem gauge_counts [SemaphoreState S] {g : Gauge S} (hg : Gauges g)
    {effect : (S → S × Unwind Unit) → Nat → Nat} {state : S} {order : O}
    {acts : List (Action ι κ W S)} {w : World ι κ W S O} (h : run C state order acts = some w)
    (hzero : g.taken state = 0)
    (hclosures : ∀ k f, .withState k f ∈ acts → g.Adjusts f (effect f))
    (hthin : ∀ i r, .conjure i r ∉ acts) :
    ∃ m, w.Outstanding m ∧
      g.taken w.inner.state =
        m.card + (burnt (interventions C (World.new state order) acts)).card ∧
      g.limit w.inner.state = limitAfter effect (g.limit state) acts ∧
      (∃ pre, pre <+: acts ∧ g.taken w.inner.state ≤ limitAfter effect (g.limit state) pre) ∧
      StateNeverUnwinds w := by
  have hkeeps := hg.keeps
    (P := fun us s => g.limit s = us.foldl (Dealing.retune effect) (g.limit state) ∧
      ∃ pre, pre <+: us ∧ g.taken s ≤ pre.foldl (Dealing.retune effect) (g.limit state))
    ?grant ?release ?burn h hzero ?init ?closures hthin
  case grant =>
    -- below the limit now in force
    intro us s hP hlt
    rw [g.limit_set, g.taken_set]
    exact ⟨hP.1, us, List.prefix_refl us, hP.1 ▸ hlt⟩
  case release =>
    intro us s hP
    obtain ⟨hlimit, pre, hpre, hle⟩ := hP
    rw [g.limit_set, g.taken_set]
    exact ⟨hlimit, pre, hpre, Nat.le_trans (Nat.sub_le _ _) hle⟩
  case burn =>
    intro us r s hP
    obtain ⟨hlimit, pre, hpre, hle⟩ := hP
    refine ⟨?_, pre, hpre.trans (List.prefix_append us _), hle⟩
    rw [hlimit, List.foldl_append]
    rfl
  case init => exact ⟨rfl, [], List.nil_prefix, by rw [hzero]; exact Nat.zero_le _⟩
  case closures =>
    intro k f hf us out s hP
    obtain ⟨hlimit, pre, hpre, hle⟩ := hP
    obtain ⟨htaken, heffect⟩ := hclosures k f hf s
    refine ⟨htaken, ?_, pre, hpre.trans (List.prefix_append us _), by rw [htaken]; exact hle⟩
    rw [heffect, hlimit, List.foldl_append]
    rfl
  obtain ⟨m, ls, hrun, ⟨hcount, hlimit, us, hus, hle⟩, hls⟩ := hkeeps
  obtain ⟨pre, hpre, heq⟩ := exists_prefix_of_interventions effect h (g.limit state) hus
  rw [limitAfter_interventions effect h] at hlimit
  exact ⟨m, hrun.outstanding, hcount, hlimit, ⟨pre, hpre, heq ▸ hle⟩, hrun.stateReturns hls⟩

/-- A token is added, and two are removed while both permits are in flight; a ceiling is set below
what is in flight. -/
theorem gauge_counts_of_lowered :
    let acts : List (Action Nat Nat Nat Utilisation) :=
      [.tryAcquire 0 () true, .withState 0 (Utilisation.addTokens 1), .finish 0 (.returned ()),
        .tryAcquire 1 () true, .withState 0 (Utilisation.removeTokens 2),
        .finish 0 (.returned ()), .dropPermit 0 1]
    let tightened : List (Action Nat Nat Nat ConcurrencyLimit) :=
      [.tryAcquire 0 () true, .tryAcquire 1 () true, .withState 0 (ConcurrencyLimit.setLimit 1),
        .finish 0 (.returned ()), .tryAcquire 2 () true]
    let ceiling : (ConcurrencyLimit → ConcurrencyLimit × Unwind Unit) → Nat → Nat :=
      fun f limit => (f ⟨0, limit⟩).1.limit
    (∃ w, run .uncloseable (Utilisation.new 1) FairOrder.fifo acts = some w ∧ ∃ m,
      w.Outstanding m ∧ w.inner.state.taken = m.card +
        (burnt (interventions .uncloseable (World.new (.new 1) FairOrder.fifo) acts)).card ∧
      w.inner.state.limit = limitAfter Utilisation.retuned 1 acts ∧
      (∃ pre, pre <+: acts ∧ w.inner.state.taken ≤ limitAfter Utilisation.retuned 1 pre) ∧
      StateNeverUnwinds w) ∧
    ∃ w, run .uncloseable (⟨0, 4⟩ : ConcurrencyLimit) FairOrder.fifo tightened = some w ∧ ∃ m,
      w.Outstanding m ∧ w.inner.state.inFlight = m.card +
        (burnt (interventions .uncloseable (World.new ⟨0, 4⟩ FairOrder.fifo) tightened)).card ∧
      w.inner.state.limit = limitAfter ceiling 4 tightened ∧
      (∃ pre, pre <+: tightened ∧ w.inner.state.inFlight ≤ limitAfter ceiling 4 pre) ∧
      StateNeverUnwinds w := by
  intro acts tightened ceiling
  constructor
  · refine exists_run_of_test _ (fun _ => true) rfl fun w hw _ => ?_
    refine gauge_counts Utilisation.gauges hw rfl ?_ (by simp [acts])
    intro k f hf
    simp only [acts, List.mem_cons, reduceCtorEq, Action.withState.injEq, List.not_mem_nil,
      false_or, or_false] at hf
    rcases hf with ⟨-, rfl⟩ | ⟨-, rfl⟩
    · exact Utilisation.adjusts_addTokens 1
    · exact Utilisation.adjusts_removeTokens 2
  · refine exists_run_of_test _ (fun _ => true) rfl fun w hw _ => ?_
    refine gauge_counts ConcurrencyLimit.gauges hw rfl ?_ (by simp [tightened])
    intro k f hf
    simp only [tightened, List.mem_cons, reduceCtorEq, Action.withState.injEq, List.not_mem_nil,
      false_or, or_false] at hf
    obtain ⟨-, rfl⟩ := hf
    exact ConcurrencyLimit.adjusts_setLimit 1

/-! ## The adaptive limit -/

namespace Aimd

/-- The limit is within the bounds of its config, which nothing changes. -/
def Within (config : AimdConfig) (a : Aimd) : Prop :=
  a.config = config ∧ config.min ≤ a.limit ∧ a.limit ≤ config.max

theorem within_new {config : AimdConfig} (h : config.min ≤ config.max) :
    Within config (new config) := ⟨rfl, h, Nat.le_refl _⟩

theorem Within.clampTo {config : AimdConfig} (h : config.min ≤ config.max) {a : Aimd}
    (ha : Within config a) (limit : Nat) : Within config (a.clampTo limit).1 := by
  obtain ⟨rfl, -, -⟩ := ha
  unfold Aimd.clampTo
  rw [if_pos h]
  exact ⟨rfl, Nat.le_max_left .., Nat.max_le.mpr ⟨h, Nat.min_le_right ..⟩⟩

theorem Within.success {config : AimdConfig} (h : config.min ≤ config.max) {a : Aimd}
    (ha : Within config a) : Within config a.success.1 := by
  unfold Aimd.success
  split
  · exact ha.clampTo h _
  · exact ha

theorem Within.failure {config : AimdConfig} (h : config.min ≤ config.max) {a : Aimd}
    (ha : Within config a) : Within config a.failure.1 := ha.clampTo h _

end Aimd

/-- The closures of the adaptive semaphore: report a success or a failure, or only look. -/
def AimdState.Reports (f : AimdState → AimdState × Unwind Unit) : Prop :=
  f = AimdState.success ∨ f = AimdState.failure ∨ ∀ s, (f s).1 = s

/-- **The adaptive limit stays within its bounds**, even if a success overflows and poisons the
queue, and what is acquired counts the permits in flight, also when failures have cut the limit
below it. -/
theorem aimd_within_bounds {config : AimdConfig} (hconfig : config.min ≤ config.max) {order : O}
    {acts : List (Action ι κ W AimdState)} {w : World ι κ W AimdState O}
    (h : run C ⟨0, .new config⟩ order acts = some w)
    (hclosures : ∀ k f, .withState k f ∈ acts → AimdState.Reports f)
    (hthin : ∀ i r, .conjure i r ∉ acts) :
    ∃ m, w.Outstanding m ∧
      w.inner.state.acquired =
        m.card + (burnt (interventions C (World.new ⟨0, .new config⟩ order) acts)).card ∧
      w.inner.state.acquired ≤ config.max ∧ w.inner.state.state.Within config ∧
      StateNeverUnwinds w := by
  have hkeeps := AimdState.gauges.keeps
    (P := fun _ s => s.acquired ≤ config.max ∧ s.state.Within config)
    ?grant ?release (fun _ _ _ hs => hs) h rfl ⟨Nat.zero_le _, Aimd.within_new hconfig⟩ ?closures
    hthin
  case grant =>
    intro _ s hs hlt
    exact ⟨Nat.le_trans hlt hs.2.2.2, hs.2⟩
  case release =>
    intro _ s hs
    exact ⟨Nat.le_trans (Nat.sub_le _ _) hs.1, hs.2⟩
  case closures =>
    intro k f hf _ _ s hs
    rcases hclosures k f hf with rfl | rfl | hlook
    · exact ⟨rfl, hs.1, hs.2.success hconfig⟩
    · exact ⟨rfl, hs.1, hs.2.failure hconfig⟩
    · rw [hlook s]
      exact ⟨rfl, hs⟩
  obtain ⟨m, ls, hrun, ⟨hcount, hle, hend⟩, hls⟩ := hkeeps
  exact ⟨m, hrun.outstanding, hcount, hle, hend, hrun.stateReturns hls⟩

/-- A failure cuts the limit below the three permits in flight. -/
theorem aimd_within_bounds_of_failure :
    let config : AimdConfig := ⟨1, 3, 1, (· / 2)⟩
    let acts : List (Action Nat Nat Nat AimdState) :=
      [.tryAcquire 0 () true, .tryAcquire 1 () true, .tryAcquire 2 () true,
        .withState 0 AimdState.failure, .finish 0 (.returned ()), .dropPermit 0 1]
    ∃ w, run .uncloseable (⟨0, .new config⟩ : AimdState) FairOrder.fifo acts = some w ∧ ∃ m,
      w.Outstanding m ∧ w.inner.state.acquired = m.card +
        (burnt (interventions .uncloseable (World.new ⟨0, .new config⟩ FairOrder.fifo) acts)).card ∧
      w.inner.state.acquired ≤ config.max ∧ w.inner.state.state.Within config ∧
      StateNeverUnwinds w := by
  intro config acts
  refine exists_run_of_test _ (fun _ => true) rfl fun w hw _ => ?_
  apply aimd_within_bounds (by decide) hw ?_ (by simp [acts])
  intro k f hf
  simp only [acts, List.mem_cons, reduceCtorEq, Action.withState.injEq, List.not_mem_nil,
    false_or, or_false] at hf
  exact Or.inr (Or.inl hf.2)

/-! ## The counter -/

/-- How many permits some grants are for, all together. -/
def SemaphoreCounter.worth (m : Multiset (Permit SemaphoreCounter)) : Nat :=
  Multiset.sum (show Multiset Nat from m)

@[simp] theorem SemaphoreCounter.worth_zero : worth 0 = 0 := rfl

theorem SemaphoreCounter.worth_singleton (n : Nat) : worth {n} = n :=
  Multiset.sum_singleton (M := Nat) n

theorem SemaphoreCounter.worth_cons (n : Nat) (m : Multiset (Permit SemaphoreCounter)) :
    worth (n ::ₘ m) = n + worth m := Multiset.sum_cons (M := Nat) n m

theorem SemaphoreCounter.worth_add (m m' : Multiset (Permit SemaphoreCounter)) :
    worth (m + m') = worth m + worth m' := Multiset.sum_add (M := Nat) m m'

/-- What an action adds to the permits in existence, if closures add as `amount` tells. -/
def Action.supply (amount : (SemaphoreCounter → SemaphoreCounter × Unwind Unit) → Nat) :
    Action ι κ W SemaphoreCounter → Nat
  | .withState _ f => amount f
  | .conjure _ r => r
  | _ => 0

/-- The same for an intervention. -/
def Dealing.supply (amount : (SemaphoreCounter → SemaphoreCounter × Unwind Unit) → Nat) :
    Dealing SemaphoreCounter → Nat
  | .adjust f _ => amount f
  | .mint r => r
  | _ => 0

theorem SemaphoreCounter.keeps
    {amount : (SemaphoreCounter → SemaphoreCounter × Unwind Unit) → Nat}
    {n : Nat} {order : O} {acts : List (Action ι κ W SemaphoreCounter)}
    {w : World ι κ W SemaphoreCounter O} (h : run C ⟨n⟩ order acts = some w)
    (hclosures : ∀ k f, .withState k f ∈ acts → ∀ s : SemaphoreCounter,
      s.available + amount f ≤ USIZE_MAX → f s = (⟨s.available + amount f⟩, .returned ()))
    (hfits : n + (acts.map (Action.supply amount)).sum ≤ USIZE_MAX) :
    ∃ m ls, IssuerRun C ⟨n⟩ order acts w m ls ∧
      w.inner.state.available + SemaphoreCounter.worth (m.map Prod.snd) +
          SemaphoreCounter.worth (burnt (interventions C (World.new ⟨n⟩ order) acts)) =
        n + (acts.map (Action.supply amount)).sum ∧
      ∀ l ∈ ls, AllReturn l := by
  have hsupply : ((interventions C (World.new ⟨n⟩ order) acts).map (Dealing.supply amount)).sum =
      (acts.map (Action.supply amount)).sum := by
    apply sum_interventions _ _ ?_ h
    intro v a
    cases a with
    | takePermit i => cases hi : v.permits i <;> simp [Action.intervention, hi] <;> rfl
    | _ => rfl
  -- whatever was supplied before a point of the run fits as well
  have hprefix (pre : List (Dealing SemaphoreCounter)) (l : Dealing SemaphoreCounter)
      (post : List (Dealing SemaphoreCounter))
      (hus : interventions C (World.new ⟨n⟩ order) acts = pre ++ l :: post) :
      n + ((pre ++ [l]).map (Dealing.supply amount)).sum ≤ USIZE_MAX := by
    rw [← hsupply, hus] at hfits
    simp only [List.map_append, List.map_cons, List.sum_append, List.sum_cons, List.map_nil,
      List.sum_nil] at hfits ⊢
    omega
  have hkeeps := keeps_custody (C := C) AllReturn
    (fun pre (s : SemaphoreCounter) m =>
      s.available + SemaphoreCounter.worth m + SemaphoreCounter.worth (burnt pre) =
        n + (pre.map (Dealing.supply amount)).sum ∧
      n + (pre.map (Dealing.supply amount)).sum ≤ USIZE_MAX)
    ?custody h ?respects ?init
  case custody =>
    intro pre
    apply custody_of_total (fun l hl => hl) SemaphoreCounter.acquireTotal
    · intro s s' m p r hacq hinv
      obtain ⟨hle, rfl, rfl⟩ := SemaphoreCounter.acquire_eq_ok.mp hacq
      rw [SemaphoreCounter.worth_cons]
      exact ⟨by dsimp only; omega, hinv.2⟩
    · intro s s' m p p' hacq hinv
      obtain ⟨-, rfl, -⟩ := SemaphoreCounter.acquire_eq_error.mp hacq
      exact hinv
    · intro s m r hinv
      rw [SemaphoreCounter.worth_cons] at hinv
      exact ⟨_, SemaphoreCounter.add_eq_returned.mpr ⟨by omega, rfl⟩, by dsimp only; omega, hinv.2⟩
  case respects =>
    refine respects_of_actions ?_ ?_ ?_
    · intro k f ha pre out post hus s m hinv
      have hroom := hprefix pre _ post hus
      simp only [List.map_append, List.map_cons, List.sum_append, List.sum_cons, List.map_nil,
        List.sum_nil, Dealing.supply] at hroom ⊢
      rw [hclosures k f ha s (by omega)]
      simp only [burnt_snoc, Label.burnt, add_zero]
      exact ⟨trivial, by omega, hroom⟩
    · intro i r ha pre post hus s m hinv
      have hroom := hprefix pre _ post hus
      simp only [List.map_append, List.map_cons, List.sum_append, List.sum_cons, List.map_nil,
        List.sum_nil, Dealing.supply] at hroom ⊢
      rw [SemaphoreCounter.worth_cons]
      simp only [burnt_snoc, Label.burnt, add_zero]
      exact ⟨trivial, by omega, hroom⟩
    · intro pre r s m hinv
      rw [SemaphoreCounter.worth_cons] at hinv
      simp only [List.map_append, List.map_cons, List.sum_append, List.sum_cons, List.map_nil,
        List.sum_nil, Dealing.supply, burnt_snoc, Label.burnt]
      rw [SemaphoreCounter.worth_add, SemaphoreCounter.worth_singleton]
      exact ⟨trivial, by omega, by omega⟩
  case init =>
    have hstart : n ≤ USIZE_MAX := by omega
    simpa using hstart
  obtain ⟨m, ls, hrun, ⟨hsum, -⟩, hls⟩ := hkeeps
  rw [hsupply] at hsum
  exact ⟨m, ls, hrun, hsum, hls⟩

/-- **The counter conserves permits**: as long as all permits ever supplied fit in a machine
word, what is available and what is outstanding add up to them, no call on the counter panics,
and the queue is never poisoned, whatever else panics. -/
theorem counter_conserves {amount : (SemaphoreCounter → SemaphoreCounter × Unwind Unit) → Nat}
    {n : Nat} {order : O} {acts : List (Action ι κ W SemaphoreCounter)}
    {w : World ι κ W SemaphoreCounter O} (h : run C ⟨n⟩ order acts = some w)
    (hclosures : ∀ k f, .withState k f ∈ acts → ∀ s : SemaphoreCounter,
      s.available + amount f ≤ USIZE_MAX → f s = (⟨s.available + amount f⟩, .returned ()))
    (hfits : n + (acts.map (Action.supply amount)).sum ≤ USIZE_MAX) :
    ∃ m, w.Outstanding m ∧
      w.inner.state.available + SemaphoreCounter.worth (m.map Prod.snd) +
          SemaphoreCounter.worth (burnt (interventions C (World.new ⟨n⟩ order) acts)) =
        n + (acts.map (Action.supply amount)).sum ∧
      StateNeverUnwinds w ∧ w.inner.poisoned = false := by
  obtain ⟨m, ls, hrun, hsum, hls⟩ := SemaphoreCounter.keeps h hclosures hfits
  exact ⟨m, hrun.outstanding, hsum, hrun.stateReturns fun l hl => (hls l hl).stateReturns,
    hrun.not_poisoned h hls⟩

/-- A closure adds two permits for a waiter, which is then dropped unclaimed. -/
theorem counter_conserves_of_cancel :
    let amount : (SemaphoreCounter → SemaphoreCounter × Unwind Unit) → Nat := fun _ => 2
    let acts : List (Action Nat Nat Nat SemaphoreCounter) :=
      [.acquire 0 (3 : Nat), .poll 0 7 .quiet, .withState 0 (SemaphoreCounter.add 2),
        .wake 0 .panicked, .finish 0 (.returned ()), .dropAcquire 0 0]
    ∃ w, run .uncloseable (⟨1⟩ : SemaphoreCounter) FairOrder.fifo acts = some w ∧ ∃ m,
      w.Outstanding m ∧
      w.inner.state.available + SemaphoreCounter.worth (m.map Prod.snd) +
          SemaphoreCounter.worth (burnt (interventions .uncloseable
            (World.new ⟨1⟩ FairOrder.fifo) acts)) =
        1 + (acts.map (Action.supply amount)).sum ∧
      StateNeverUnwinds w ∧ w.inner.poisoned = false := by
  intro amount acts
  refine exists_run_of_test _ (fun _ => true) rfl fun w hw _ => ?_
  refine counter_conserves hw (fun k f hf s hs => ?_) (by decide)
  simp only [acts, List.mem_cons, reduceCtorEq, Action.withState.injEq, List.not_mem_nil,
    false_or, or_false] at hf
  obtain ⟨-, rfl⟩ := hf
  exact SemaphoreCounter.add_eq_returned.mpr ⟨hs, rfl⟩

/-! ## Two quantities at once -/

/-- The bytes that some reservations are for, all together. -/
def Limits.reserved (m : Multiset (Permit Limits)) : Nat := (m.map Reservation.bytes).sum

theorem Limits.reserved_cons (r : Reservation) (m : Multiset (Permit Limits)) :
    reserved (r ::ₘ m) = r.bytes + reserved m := by
  unfold reserved
  rw [Multiset.map_cons, Multiset.sum_cons]

/-- **Both quantities are conserved**, each of them all or nothing with the other: a request that
is admitted takes one slot and its bytes, and gives back both. Neither addition overflows. -/
theorem limits_conserve {limits : Limits} (hrequests : limits.requests ≤ USIZE_MAX)
    (hbytes : limits.bytes ≤ U64_MAX) {order : O} {acts : List (Action ι κ W Limits)}
    {w : World ι κ W Limits O} (h : run C limits order acts = some w)
    (hclosures : ∀ k f, .withState k f ∈ acts → ∀ s, (f s).1 = s)
    (hthin : ∀ i r, .conjure i r ∉ acts) :
    ∃ m, w.Outstanding m ∧
      w.inner.state.requests +
          (m.map Prod.snd + burnt (interventions C (World.new limits order) acts)).card =
        limits.requests ∧
      w.inner.state.bytes + Limits.reserved
          (m.map Prod.snd + burnt (interventions C (World.new limits order) acts)) =
        limits.bytes ∧
      StateNeverUnwinds w := by
  have hkeeps := keeps_custody (C := C) StateReturns
    (fun pre (s : Limits) m => s.requests + (m + burnt pre).card = limits.requests ∧
      s.bytes + Limits.reserved (m + burnt pre) = limits.bytes)
    ?custody h ?respects ?init
  case custody =>
    intro pre
    apply custody_of_total (fun l hl => hl.stateReturns) Limits.acquireTotal
    · intro s s' m p r hacq hinv
      obtain ⟨hslot, hroom, rfl, rfl⟩ := Limits.acquire_eq_ok.mp hacq
      rw [Multiset.cons_add, Multiset.card_cons, Limits.reserved_cons]
      dsimp only
      omega
    · intro s s' m p p' hacq hinv
      obtain ⟨-, rfl, -⟩ := Limits.acquire_eq_error.mp hacq
      exact hinv
    · intro s m r hinv
      rw [Multiset.cons_add, Multiset.card_cons, Limits.reserved_cons] at hinv
      refine ⟨⟨s.requests + 1, s.bytes + r.bytes⟩, ?_, by dsimp only; omega⟩
      show Limits.release s r = _
      unfold Limits.release
      rw [if_pos (by omega), if_pos (by omega)]
  case respects =>
    refine respects_of_actions ?_ (fun i r ha => absurd ha (hthin i r)) ?_
    · intro k f ha pre out post hus s m hinv
      simp only [hclosures k f ha s, burnt_snoc, Label.burnt, add_zero]
      exact ⟨trivial, hinv⟩
    · intro pre r s m hinv
      refine ⟨trivial, ?_⟩
      -- the permit is outstanding before, and among the ones taken afterwards
      have hmove : m + burnt (pre ++ [Label.burn r]) = r ::ₘ m + burnt pre := by
        rw [burnt_snoc, Label.burnt, ← Multiset.singleton_add]
        ac_rfl
      rw [hmove]
      exact hinv
  case init => simp [Limits.reserved]
  obtain ⟨m, ls, hrun, ⟨hcard, hsum⟩, hls⟩ := hkeeps
  exact ⟨m, hrun.outstanding, hcard, hsum, hrun.stateReturns hls⟩

/-- A large request waits for two small ones to give their bytes back. -/
theorem limits_conserve_of_large :
    let acts : List (Action Nat Nat Nat Limits) :=
      [.tryAcquire 0 ⟨512⟩ true, .tryAcquire 1 ⟨512⟩ true, .acquire 2 ⟨800⟩, .poll 2 7 .quiet,
        .dropPermit 0 0, .finish 0 (.returned ()), .dropPermit 0 1, .wake 0 (.returned ())]
    ∃ w, run .uncloseable (⟨4, 1024⟩ : Limits) FairOrder.fifo acts = some w ∧ ∃ m,
      w.Outstanding m ∧
      w.inner.state.requests + (m.map Prod.snd + burnt (interventions .uncloseable
        (World.new ⟨4, 1024⟩ FairOrder.fifo) acts)).card = 4 ∧
      w.inner.state.bytes + Limits.reserved (m.map Prod.snd + burnt (interventions .uncloseable
        (World.new ⟨4, 1024⟩ FairOrder.fifo) acts)) = 1024 ∧
      StateNeverUnwinds w := by
  intro acts
  refine exists_run_of_test _ (fun _ => true) rfl fun w hw _ => ?_
  exact limits_conserve (by decide) (by decide) hw (by simp [acts]) (by simp [acts])

/-! ## Pools -/

/-- The connections that an action brings into being: what its closure puts into an empty pool,
or a permit out of thin air. -/
def Action.brings {Conn : Type} : Action ι κ W (Pool Conn) → Multiset Conn
  | .withState _ f => ↑(f ⟨[]⟩).1.objects
  | .conjure _ conn => {conn}
  | _ => 0

/-- The same for an intervention. -/
def Dealing.brings {Conn : Type} : Dealing (Pool Conn) → Multiset Conn
  | .adjust f _ => ↑(f ⟨[]⟩).1.objects
  | .mint conn => {conn}
  | _ => 0

/-- **The pool loses and duplicates no connection**: every connection ever brought in is idle, is
checked out by one request, or was taken for good. If no connection was brought in twice, none
is in two places. -/
theorem pool_conserves {Conn : Type} {pool : Pool Conn} {order : O}
    {acts : List (Action ι κ W (Pool Conn))} {w : World ι κ W (Pool Conn) O}
    (h : run C pool order acts = some w)
    (hclosures : ∀ k f, .withState k f ∈ acts → ∀ s : Pool Conn,
      ((f s).1.objects : Multiset Conn) = ↑s.objects + ↑(f ⟨[]⟩).1.objects) :
    ∃ m, w.Outstanding m ∧
      (w.inner.state.objects : Multiset Conn) + m.map Prod.snd +
          burnt (interventions C (World.new pool order) acts) =
        ↑pool.objects + (acts.map Action.brings).sum ∧
      ((↑pool.objects + (acts.map Action.brings).sum : Multiset Conn).Nodup →
        ((w.inner.state.objects : Multiset Conn) + m.map Prod.snd).Nodup) ∧
      StateNeverUnwinds w := by
  -- closures and conjured permits bring in the same as actions and as dealings
  have hbrings : ((interventions C (World.new pool order) acts).map Dealing.brings).sum =
      (acts.map Action.brings).sum := by
    apply sum_interventions _ _ ?_ h
    intro v a
    cases a with
    | takePermit i => cases hi : v.permits i <;> simp [Action.intervention, hi] <;> rfl
    | _ => rfl
  have hkeeps := keeps_custody (C := C) StateReturns
    (fun pre (s : Pool Conn) m => (s.objects : Multiset Conn) + m + burnt pre =
      ↑pool.objects + (pre.map Dealing.brings).sum)
    ?custody h ?respects ?init
  case custody =>
    intro pre
    apply custody_of_total (fun l hl => hl.stateReturns) Pool.acquireTotal
    · -- a connection is checked out
      intro s s' m p conn hacq hinv
      rw [← hinv, Pool.acquire_eq_ok.mp hacq, ← Multiset.coe_add, ← Multiset.singleton_add,
        Multiset.coe_singleton]
      ac_rfl
    · -- a refusal
      intro s s' m p p' hacq hinv
      obtain ⟨-, rfl⟩ := Pool.acquire_eq_error.mp hacq
      exact hinv
    · -- it is pushed back
      intro s m conn hinv
      refine ⟨⟨s.objects ++ [conn]⟩, rfl, ?_⟩
      rw [← hinv, ← Multiset.coe_add, ← Multiset.singleton_add, Multiset.coe_singleton]
      ac_rfl
  case respects =>
    refine respects_of_actions ?_ ?_ ?_
    · intro k f ha pre out post hus s m hinv
      refine ⟨trivial, ?_⟩
      simp only [hclosures k f ha s, burnt_snoc, Label.burnt, add_zero, List.map_append,
        List.map_cons, List.map_nil, List.sum_append, List.sum_singleton, Dealing.brings,
        ← add_assoc, ← hinv]
      ac_rfl
    · intro i conn ha pre post hus s m hinv
      refine ⟨trivial, ?_⟩
      simp only [burnt_snoc, Label.burnt, add_zero, List.map_append, List.map_cons, List.map_nil,
        List.sum_append, List.sum_singleton, Dealing.brings, ← add_assoc, ← hinv]
      rw [← Multiset.singleton_add]
      ac_rfl
    · intro pre conn s m hinv
      refine ⟨trivial, ?_⟩
      simp only [burnt_snoc, Label.burnt, List.map_append, List.map_cons, List.map_nil,
        List.sum_append, List.sum_singleton, Dealing.brings, add_zero, ← hinv]
      rw [← Multiset.singleton_add]
      ac_rfl
  case init => simp
  obtain ⟨m, ls, hrun, hsum, hls⟩ := hkeeps
  rw [hbrings] at hsum
  refine ⟨m, hrun.outstanding, hsum, ?_, hrun.stateReturns hls⟩
  -- what is idle or checked out is a part of all connections
  intro hnodup
  rw [← hsum] at hnodup
  exact Multiset.nodup_of_le (Multiset.le_add_right ..) hnodup

/-- A seeded connection is reused, another is made because the pool is empty, and the broken one
of the two is taken out. -/
theorem pool_conserves_of_broken :
    let acts : List (Action Nat Nat Nat (Pool Nat)) :=
      [.withState 0 (Pool.push [0]), .finish 0 (.returned ()), .tryAcquire 0 () true,
        .tryAcquire 1 () true, .conjure 2 (1 : Nat), .dropPermit 0 2, .takePermit 0]
    ∃ w, run .uncloseable (⟨[]⟩ : Pool Nat) FairOrder.lifo acts = some w ∧ ∃ m,
      w.Outstanding m ∧
      (w.inner.state.objects : Multiset Nat) + m.map Prod.snd +
          burnt (interventions .uncloseable (World.new ⟨[]⟩ FairOrder.lifo) acts) =
        ↑([] : List Nat) + (acts.map Action.brings).sum ∧
      ((↑([] : List Nat) + (acts.map Action.brings).sum : Multiset Nat).Nodup →
        ((w.inner.state.objects : Multiset Nat) + m.map Prod.snd).Nodup) ∧
      StateNeverUnwinds w := by
  intro acts
  refine exists_run_of_test _ (fun _ => true) rfl fun w hw _ => ?_
  apply pool_conserves hw
  intro k f hf s
  simp only [acts, List.mem_cons, reduceCtorEq, Action.withState.injEq, List.not_mem_nil,
    or_false] at hf
  obtain ⟨-, rfl⟩ := hf
  exact (Multiset.coe_add s.objects [0]).symm

end FlagBearer
