import Mathlib.Data.List.Basic

/-!
# Histories of a Lock

What happens at a lock that guards some data: threads take it, touch the data and free it.
Nothing in this file depends on the program under study.

## Main definitions

- `Serial`: the histories in which only the holder touches the data and frees the lock
- `Section`: one critical section of a thread

## Main results

- `Serial.sections`: such a history is made of whole sections, one after the other
-/

namespace Lock

variable {τ α : Type*}

/-- What happens at a lock. A touch is anything that the data can be asked to do. -/
inductive Note (τ α : Type*) where
  | taken (t : τ)
  | touched (t : τ) (a : α)
  | freed (t : τ)

/-- The histories in which one thread at a time holds the lock, with the holder at the end. -/
inductive Serial : List (Note τ α) → Option τ → Prop where
  | start : Serial [] none
  | take {ns : List (Note τ α)} (t : τ) : Serial ns none → Serial (ns ++ [.taken t]) (some t)
  | touch {ns : List (Note τ α)} (t : τ) (a : α) :
      Serial ns (some t) → Serial (ns ++ [.touched t a]) (some t)
  | free {ns : List (Note τ α)} (t : τ) : Serial ns (some t) → Serial (ns ++ [.freed t]) none

/-- A critical section: whose it is, and what it did to the data. -/
structure Section (τ α : Type*) where
  owner : τ
  body : List α

namespace Section

/-- The history of a section that is still open. -/
def opening (c : Section τ α) : List (Note τ α) := .taken c.owner :: c.body.map (.touched c.owner)

/-- The history of a section that was left. -/
def notes (c : Section τ α) : List (Note τ α) := c.opening ++ [.freed c.owner]

end Section

/-- The history of sections one after the other, the last of them perhaps still open. -/
def history (cs : List (Section τ α)) (current : Option (Section τ α)) : List (Note τ α) :=
  cs.flatMap Section.notes ++ current.elim [] Section.opening

/-- What these sections did to the data, in order. -/
def bodies (cs : List (Section τ α)) (current : Option (Section τ α)) : List α :=
  cs.flatMap Section.body ++ current.elim [] Section.body

/-- What a note did to the data. -/
def Note.touch? : Note τ α → Option α
  | .touched _ a => some a
  | _ => none

/-- What a history did to the data, in order. -/
def touches (ns : List (Note τ α)) : List α := ns.filterMap Note.touch?

@[simp] theorem touches_nil : touches ([] : List (Note τ α)) = [] := rfl

@[simp] theorem touches_append (ns ns' : List (Note τ α)) :
    touches (ns ++ ns') = touches ns ++ touches ns' := List.filterMap_append

theorem touches_opening (c : Section τ α) : touches c.opening = c.body := by
  obtain ⟨t, body⟩ := c
  show touches (body.map (Note.touched t)) = body
  unfold touches
  rw [List.filterMap_map]
  exact List.filterMap_some

theorem touches_history (cs : List (Section τ α)) (current : Option (Section τ α)) :
    touches (history cs current) = bodies cs current := by
  unfold history bodies
  rw [touches_append]
  congr 1
  · induction cs with
    | nil => rfl
    | cons c cs ih =>
      rw [List.flatMap_cons, List.flatMap_cons, touches_append, ih, Section.notes,
        touches_append, touches_opening]
      rw [show touches [Note.freed c.owner] = ([] : List α) from rfl, List.append_nil]
  · cases current with
    | none => rfl
    | some c => exact touches_opening c

/-- **A serial history is made of critical sections**, each of them in one piece. -/
theorem Serial.sections {ns : List (Note τ α)} {o : Option τ} (h : Serial ns o) :
    ∃ cs current, ns = history cs current ∧ o = current.map Section.owner := by
  induction h with
  | start => exact ⟨[], none, rfl, rfl⟩
  | take t _ ih =>
    obtain ⟨cs, current, rfl, hnone⟩ := ih
    cases current with
    | some c => cases hnone
    | none => exact ⟨cs, some ⟨t, []⟩, by simp [history, Section.opening], rfl⟩
  | touch t a _ ih =>
    obtain ⟨cs, current, rfl, howner⟩ := ih
    cases current with
    | none => cases howner
    | some c =>
      cases howner
      exact ⟨cs, some ⟨c.owner, c.body ++ [a]⟩, by simp [history, Section.opening], rfl⟩
  | free t _ ih =>
    obtain ⟨cs, current, rfl, howner⟩ := ih
    cases current with
    | none => cases howner
    | some c =>
      cases howner
      exact ⟨cs ++ [c], none, by simp [history, Section.notes], rfl⟩

end Lock
