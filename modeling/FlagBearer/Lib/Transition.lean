import Mathlib.Logic.Relation

/-!
# Labelled Transition Systems with a Partial Step Function

A system is a partial function `step : State → Action → Option State`; `none` means that
the action is not enabled. Nothing in this file depends on the program under study.

## Main definitions

- `exec step s acts`: the state that the actions `acts` lead to from `s`
- `Reachable step init s`: some run leads from `init` to `s`
- `EveryStep step P s acts`: `P` holds of each step of the run of `acts` from `s`

## Main results

- `exec_congr`: systems whose steps agree under an invariant have the same runs
- `Reachable.invariant`: an inductive invariant holds in every reachable state
- `EveryStep.invariant`: the same for the runs all of whose steps have a property
- `everyStep_congr`: properties of steps that agree under an invariant
- `invariant_of_moves`: invariants of a step that is a sequence of smaller moves
-/

namespace Transition

variable {State Action : Type*}

/-! ## Runs -/

/-- Execute a list of actions; `none` as soon as one of them is not enabled. -/
def exec (step : State → Action → Option State) : State → List Action → Option State
  | s, [] => some s
  | s, a :: acts => (step s a).bind (exec step · acts)

section Runs

variable {step : State → Action → Option State}

@[simp] theorem exec_nil (s : State) : exec step s [] = some s := rfl

@[simp] theorem exec_cons (s : State) (a : Action) (acts : List Action) :
    exec step s (a :: acts) = (step s a).bind (exec step · acts) := rfl

theorem exec_append (s : State) (acts acts' : List Action) :
    exec step s (acts ++ acts') = (exec step s acts).bind (exec step · acts') := by
  induction acts generalizing s with
  | nil => rfl
  | cons a acts ih =>
    simp only [List.cons_append, exec_cons, Option.bind_assoc]
    congr 1
    funext t
    exact ih t

/-- A run followed by another. -/
theorem exec_trans {s t u : State} {acts acts' : List Action} (h : exec step s acts = some t)
    (h' : exec step t acts' = some u) : exec step s (acts ++ acts') = some u := by
  rw [exec_append, h, Option.bind_some, h']

/-- A run extended by one action at its end. -/
theorem exec_snoc_eq_some {s u : State} {acts : List Action} {a : Action} :
    exec step s (acts ++ [a]) = some u ↔
      ∃ t, exec step s acts = some t ∧ step t a = some u := by
  simp [exec_append, Option.bind_eq_some_iff]

/-- Two systems whose steps agree in the states with an invariant have the same runs. -/
theorem exec_congr {step' : State → Action → Option State} (Inv : State → Prop)
    {P : Action → Prop} (hagree : ∀ s a, Inv s → P a → step' s a = step s a)
    (hinv : ∀ s t a, Inv s → step s a = some t → Inv t) {s : State} (hs : Inv s)
    {acts : List Action} (hacts : ∀ a ∈ acts, P a) : exec step' s acts = exec step s acts := by
  induction acts generalizing s with
  | nil => rfl
  | cons a acts ih =>
    rw [exec_cons, exec_cons, hagree s a hs (hacts a (List.mem_cons_self ..))]
    cases hstep : step s a with
    | none => rfl
    | some t => exact ih (hinv s t a hs hstep) fun b hb => hacts b (List.mem_cons_of_mem a hb)

end Runs

/-! ## Reachability and invariants -/

/-- The states that some run from `init` ends in. -/
inductive Reachable (step : State → Action → Option State) (init : State) : State → Prop where
  | start : Reachable step init init
  | next {s t : State} (a : Action) :
      Reachable step init s → step s a = some t → Reachable step init t

section Reach

variable {step : State → Action → Option State} {init : State}

theorem Reachable.exec {s t : State} {acts : List Action} (hs : Reachable step init s)
    (h : exec step s acts = some t) : Reachable step init t := by
  induction acts generalizing s with
  | nil =>
    cases h
    exact hs
  | cons a acts ih =>
    obtain ⟨u, hu, hrest⟩ := Option.bind_eq_some_iff.mp h
    exact ih (hs.next a hu) hrest

/-- The executable form of reachability, used to exhibit concrete states. -/
theorem reachable_iff_exec {s : State} :
    Reachable step init s ↔ ∃ acts, Transition.exec step init acts = some s := by
  constructor
  · intro h
    induction h with
    | start => exact ⟨[], rfl⟩
    | next a _ hstep ih =>
      -- the last step goes at the end of the run
      obtain ⟨acts, hacts⟩ := ih
      exact ⟨acts ++ [a], exec_snoc_eq_some.mpr ⟨_, hacts, hstep⟩⟩
  · intro h
    obtain ⟨acts, hacts⟩ := h
    exact Reachable.start.exec hacts

/-- A fact about every reachable state holds at the end of a run that can be executed. -/
theorem exists_exec {acts : List Action} {P : State → Prop}
    (hrun : (Transition.exec step init acts).isSome = true)
    (h : ∀ s, Reachable step init s → P s) :
    ∃ s, Transition.exec step init acts = some s ∧ P s := by
  obtain ⟨s, hs⟩ := Option.isSome_iff_exists.mp hrun
  exact ⟨s, hs, h s (reachable_iff_exec.mpr ⟨acts, hs⟩)⟩

/-- The invariant rule: what holds initially and is preserved by every step from a reachable
state holds in every reachable state. -/
theorem Reachable.invariant (Inv : State → Prop) (hinit : Inv init)
    (hstep : ∀ s t a, Reachable step init s → Inv s → step s a = some t → Inv t)
    {s : State} (h : Reachable step init s) : Inv s := by
  induction h with
  | start => exact hinit
  | next a hs ht ih => exact hstep _ _ a hs ih ht

end Reach

/-! ## Properties of the steps of a run -/

/-- `P` holds of each step of the run of `acts` from `s`. -/
def EveryStep (step : State → Action → Option State) (P : State → Action → State → Prop) :
    State → List Action → Prop
  | _, [] => True
  | s, a :: acts => ∀ t, step s a = some t → P s a t ∧ EveryStep step P t acts

/-- A property of steps can be tested on a run. -/
instance everyStepDecidable {step : State → Action → Option State}
    {P : State → Action → State → Prop} [∀ s a t, Decidable (P s a t)] :
    ∀ s acts, Decidable (EveryStep step P s acts)
  | _, [] => .isTrue trivial
  | s, a :: acts =>
    match h : step s a with
    | none => .isTrue fun _ ht => nomatch h.symm.trans ht
    | some t =>
      have : Decidable (EveryStep step P t acts) := everyStepDecidable t acts
      decidable_of_iff (P s a t ∧ EveryStep step P t acts)
        ⟨fun hboth _ hu => Option.some.inj (h.symm.trans hu) ▸ hboth, fun hall => hall t h⟩

/-- A property of the steps of a run, proved of the step after each of its prefixes. -/
theorem everyStep_of_prefix {step : State → Action → Option State}
    {P : State → Action → State → Prop} {s : State} {acts : List Action}
    (h : ∀ pre a post t u, acts = pre ++ a :: post → exec step s pre = some t →
      step t a = some u → P t a u) : EveryStep step P s acts := by
  induction acts generalizing s with
  | nil => trivial
  | cons a acts ih =>
    intro u hu
    refine ⟨h [] a acts s u rfl rfl hu, ih ?_⟩
    intro pre b post v v' hacts hexec hstep
    exact h (a :: pre) b post v v' (by rw [hacts, List.cons_append]) (by simp [hu, hexec]) hstep

/-- Each action of a run is one of its steps. -/
theorem EveryStep.exists_of_mem {step : State → Action → Option State}
    {P : State → Action → State → Prop} {s t : State} {acts : List Action}
    (h : EveryStep step P s acts) (hexec : exec step s acts = some t) {a : Action}
    (ha : a ∈ acts) : ∃ u v, P u a v := by
  induction acts generalizing s with
  | nil => cases ha
  | cons b acts ih =>
    obtain ⟨u, hu, hrest⟩ := Option.bind_eq_some_iff.mp hexec
    obtain ⟨hP, hrun⟩ := h u hu
    rcases List.mem_cons.mp ha with rfl | hlater
    · exact ⟨s, u, hP⟩
    · exact ih hrun hrest hlater

/-- An invariant of the steps with a property holds after a run of such steps. -/
theorem EveryStep.invariant {step : State → Action → Option State}
    {P : State → Action → State → Prop} (Inv : State → Prop)
    (hstep : ∀ s a t, Inv s → step s a = some t → P s a t → Inv t) {s t : State}
    {acts : List Action} (hs : Inv s) (h : EveryStep step P s acts)
    (hexec : exec step s acts = some t) : Inv t := by
  induction acts generalizing s with
  | nil =>
    cases hexec
    exact hs
  | cons a acts ih =>
    obtain ⟨u, hu, hrest⟩ := Option.bind_eq_some_iff.mp hexec
    obtain ⟨hP, hrun⟩ := h u hu
    exact ih (hstep s a u hs hu hP) hrun hrest

/-- Two properties that agree on the steps from states with an invariant agree on runs. -/
theorem everyStep_congr {step : State → Action → Option State}
    {P Q : State → Action → State → Prop} (Inv : State → Prop)
    (hstep : ∀ s a t, Inv s → step s a = some t → Inv t)
    (hagree : ∀ s a t, Inv s → step s a = some t → (P s a t ↔ Q s a t))
    {s : State} {acts : List Action} (hs : Inv s) :
    EveryStep step P s acts ↔ EveryStep step Q s acts := by
  induction acts generalizing s with
  | nil => exact Iff.rfl
  | cons a acts ih =>
    constructor
    · intro h t ht
      obtain ⟨hP, hrest⟩ := h t ht
      exact ⟨(hagree s a t hs ht).mp hP, (ih (hstep s a t hs ht)).mp hrest⟩
    · intro h t ht
      obtain ⟨hQ, hrest⟩ := h t ht
      exact ⟨(hagree s a t hs ht).mpr hQ, (ih (hstep s a t hs ht)).mpr hrest⟩

/-! ## Decomposition of a step into smaller moves -/

section Moves

variable {Conf : Type*} {move : Conf → Conf → Prop}

/-- An invariant of every single move is an invariant of every sequence of moves. -/
theorem invariant_of_moves (Inv : Conf → Prop)
    (hmove : ∀ c d, Inv c → move c d → Inv d) {c d : Conf}
    (h : Relation.ReflTransGen move c d) (hc : Inv c) : Inv d := by
  induction h with
  | refl => exact hc
  | tail _ hcd ih => exact hmove _ _ ih hcd

/-- Two invariants of a move relation, the second one relying on the first. -/
theorem invariant_of_moves_under (Inv Inv' : Conf → Prop)
    (hmove : ∀ c d, Inv c → move c d → Inv d)
    (hmove' : ∀ c d, Inv c → Inv' c → move c d → Inv' d) {c d : Conf}
    (h : Relation.ReflTransGen move c d) (hc : Inv c) (hc' : Inv' c) : Inv' d := by
  -- both together are an invariant
  have hboth : Inv d ∧ Inv' d := by
    apply invariant_of_moves (fun e => Inv e ∧ Inv' e) ?_ h ⟨hc, hc'⟩
    intro a b hab hm
    exact ⟨hmove a b hab.1 hm, hmove' a b hab.1 hab.2 hm⟩
  exact hboth.2

end Moves

end Transition
