import Mathlib.Data.List.Induction

/-!
# Histories

A history is the list of events of a run, oldest first. Properties of a run are often of the
form "at every event, the events before it satisfy ..". Nothing in this file depends on the
program under study.

## Main definitions

- `Each P log`: `P past e` holds for every event `e` of `log` and its `past`
- `EachFrom past P es`: the same for the events `es` that follow `past`
- `latest f log`: the value of the last event for which `f` is defined
- `countFrom past p es`: how many of the events `es` that follow `past` pass a test

## Main results

- `each_append`: a history that grows
- `each_iff`: `Each` in terms of splits of the history
-/

namespace History

variable {Event α : Type*}

/-! ## Properties of events and their past -/

/-- `P` holds at each of the events that follow `past`. -/
def EachFrom (past : List Event) (P : List Event → Event → Prop) : List Event → Prop
  | [] => True
  | e :: es => P past e ∧ EachFrom (past ++ [e]) P es

/-- `P` holds at each event of the history. -/
def Each (P : List Event → Event → Prop) (log : List Event) : Prop := EachFrom [] P log

section Each

variable {P : List Event → Event → Prop}

@[simp] theorem eachFrom_nil (past : List Event) : EachFrom past P [] := trivial

@[simp] theorem eachFrom_cons (past : List Event) (e : Event) (es : List Event) :
    EachFrom past P (e :: es) ↔ P past e ∧ EachFrom (past ++ [e]) P es := Iff.rfl

theorem eachFrom_append (past es es' : List Event) :
    EachFrom past P (es ++ es') ↔ EachFrom past P es ∧ EachFrom (past ++ es) P es' := by
  induction es generalizing past with
  | nil => simp
  | cons e es ih => simp [ih, and_assoc]

@[simp] theorem each_nil : Each P [] := trivial

theorem each_append {log es : List Event} :
    Each P (log ++ es) ↔ Each P log ∧ EachFrom log P es := by
  simp [Each, eachFrom_append]

/-- A history that grows by one event. -/
theorem each_snoc {log : List Event} {e : Event} :
    Each P (log ++ [e]) ↔ Each P log ∧ P log e := by
  simp [each_append]

theorem each_iff {log : List Event} :
    Each P log ↔ ∀ past e rest, log = past ++ e :: rest → P past e := by
  constructor
  · intro h past e rest hlog
    subst hlog
    exact ((each_append.mp h).2).1
  · intro h
    induction log using List.reverseRecOn with
    | nil => exact each_nil
    | append_singleton log e ih =>
      -- a split of the shorter history is one of the longer history, too
      have hlog : Each P log := by
        apply ih
        intro past e' rest hlog
        exact h past e' (rest ++ [e]) (by simp [hlog])
      exact each_snoc.mpr ⟨hlog, h log e [] rfl⟩

/-- Events that `P` says nothing about. -/
theorem eachFrom_of_trivial {past es : List Event} (h : ∀ e ∈ es, ∀ past, P past e) :
    EachFrom past P es := by
  induction es generalizing past with
  | nil => trivial
  | cons e es ih =>
    have hrest : EachFrom (past ++ [e]) P es := by
      apply ih
      intro e' he'
      exact h e' (List.mem_cons_of_mem e he')
    exact ⟨h e (List.mem_cons_self ..) past, hrest⟩

end Each

/-! ## The latest value -/

/-- The value that the last event with a value has. -/
def latest (f : Event → Option α) (log : List Event) : Option α := (log.filterMap f).getLast?

@[simp] theorem latest_nil (f : Event → Option α) : latest f [] = none := rfl

theorem latest_snoc (f : Event → Option α) (log : List Event) (e : Event) :
    latest f (log ++ [e]) = (f e).or (latest f log) := by
  unfold latest
  cases h : f e <;> simp [h]

theorem latest_snoc_of_none {f : Event → Option α} {log : List Event} {e : Event}
    (h : f e = none) : latest f (log ++ [e]) = latest f log := by
  simp [latest_snoc, h]

theorem latest_snoc_of_some {f : Event → Option α} {log : List Event} {e : Event} {a : α}
    (h : f e = some a) : latest f (log ++ [e]) = some a := by
  simp [latest_snoc, h]

theorem latest_append_of_none {f : Event → Option α} {log es : List Event}
    (h : ∀ e ∈ es, f e = none) : latest f (log ++ es) = latest f log := by
  unfold latest
  rw [List.filterMap_append, List.filterMap_eq_nil_iff.mpr h, List.append_nil]

/-! ## Counting events by their past -/

/-- How many of the events that follow `past` pass a test that may depend on their past. -/
def countFrom (past : List Event) (p : List Event → Event → Bool) : List Event → Nat
  | [] => 0
  | e :: es => (p past e).toNat + countFrom (past ++ [e]) p es

section Count

variable {p : List Event → Event → Bool}

@[simp] theorem countFrom_nil (past : List Event) : countFrom past p [] = 0 := rfl

@[simp] theorem countFrom_cons (past : List Event) (e : Event) (es : List Event) :
    countFrom past p (e :: es) = (p past e).toNat + countFrom (past ++ [e]) p es := rfl

theorem countFrom_append (past es es' : List Event) :
    countFrom past p (es ++ es') = countFrom past p es + countFrom (past ++ es) p es' := by
  induction es generalizing past with
  | nil => simp
  | cons e es ih => simp [ih, Nat.add_assoc]

/-- Events that never pass the test. -/
theorem countFrom_eq_zero {past es : List Event} (h : ∀ e ∈ es, ∀ past, p past e = false) :
    countFrom past p es = 0 := by
  induction es generalizing past with
  | nil => rfl
  | cons e es ih =>
    rw [countFrom_cons, h e (List.mem_cons_self ..),
      ih fun e' he' => h e' (List.mem_cons_of_mem e he')]
    rfl

end Count

end History
