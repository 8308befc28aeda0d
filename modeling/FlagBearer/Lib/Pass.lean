import Mathlib.Data.List.Basic
import Mathlib.Tactic.Simps.Basic

/-!
# Passes over a List of Offers

A server with a state goes through a list of entries. An entry may carry an offer; the server
takes the offers from the front, one after the other, and an accepted offer leaves the list.
The first offer that fails ends the pass. Entries without an offer stay where they are. A pass
may also be limited to a number of acceptances. Nothing in this file depends on the program
under study.

## Main definitions

- `Server`: the offer of an entry, the transition function, the mark left by a failure
- `Server.pass`: a pass to the end
- `Server.passUpTo`: a pass that ends after so many acceptances

## Main results

- `pass_of_room`, `pass_of_full`: a limited pass that is started again where it has stopped
- `fails_next`: what a pass leaves over
- `pass_offers`: entries without an offer are invisible
- `sublist_kept`: and stay in their order
-/

namespace Pass

variable {σ α π ρ ε : Type*}

/-- A transition function on the offers that some entries carry. It accepts an offer with a
result, or fails with a reason, which is marked on the entry. -/
structure Server (σ α π ρ ε : Type*) where
  offer : α → Option π
  serve : σ → π → σ × Except ε ρ
  mark : α → ε → α

/-- What a pass leaves behind: the state, the entries that stay, the calls of the transition
function with the entries they were made for, and the reason for which the pass stopped. -/
structure Result (σ α π ρ ε : Type*) where
  state : σ
  kept : List α
  calls : List (α × π × Except ε ρ)
  stop : Option ε

/-! ## Results -/

namespace Result

/-- Nothing has been visited. -/
@[simps] def start (s : σ) (l : List α) : Result σ α π ρ ε := ⟨s, l, [], none⟩

/-- An entry without an offer comes first. -/
@[simps] def skip (a : α) (r : Result σ α π ρ ε) : Result σ α π ρ ε :=
  { r with kept := a :: r.kept }

/-- An acceptance comes first. -/
@[simps] def accept (a : α) (p : π) (x : ρ) (r : Result σ α π ρ ε) : Result σ α π ρ ε :=
  { r with calls := (a, p, .ok x) :: r.calls }

/-- A pass that goes on where another one has ended. -/
@[simps] def andThen (r r' : Result σ α π ρ ε) : Result σ α π ρ ε :=
  { r' with calls := r.calls ++ r'.calls }

/-- The entries whose offers were accepted, in order. -/
def granted (r : Result σ α π ρ ε) : List α :=
  r.calls.filterMap fun call => match call.2.2 with
    | .ok _ => some call.1
    | .error _ => none

@[simp] theorem granted_start (s : σ) (l : List α) :
    (start s l : Result σ α π ρ ε).granted = [] := rfl

@[simp] theorem granted_skip (a : α) (r : Result σ α π ρ ε) : (skip a r).granted = r.granted := rfl

@[simp] theorem granted_accept (a : α) (p : π) (x : ρ) (r : Result σ α π ρ ε) :
    (accept a p x r).granted = a :: r.granted := rfl

@[simp] theorem granted_fail (s : σ) (l : List α) (a : α) (p : π) (e : ε) (stop : Option ε) :
    (⟨s, l, [(a, p, .error e)], stop⟩ : Result σ α π ρ ε).granted = [] := rfl

@[simp] theorem granted_andThen (r r' : Result σ α π ρ ε) :
    (r.andThen r').granted = r.granted ++ r'.granted := List.filterMap_append

end Result

/-! ## Passes -/

namespace Server

variable (server : Server σ α π ρ ε)

/-- The pass from state `s` over the entries of a list. -/
def pass : σ → List α → Result σ α π ρ ε
  | s, [] => .start s []
  | s, a :: l =>
    match server.offer a with
    | none => (pass s l).skip a
    | some p =>
      match server.serve s p with
      | (s', .ok x) => (pass s' l).accept a p x
      | (s', .error e) => ⟨s', server.mark a e :: l, [(a, p, .error e)], some e⟩

/-- The pass that ends after `room` acceptances. -/
def passUpTo (room : Nat) : σ → List α → Result σ α π ρ ε
  | s, [] => .start s []
  | s, a :: l =>
    match room with
    | 0 => .start s (a :: l)
    | room + 1 =>
      match server.offer a with
      | none => (passUpTo (room + 1) s l).skip a
      | some p =>
        match server.serve s p with
        | (s', .ok x) => (passUpTo room s' l).accept a p x
        | (s', .error e) => ⟨s', server.mark a e :: l, [(a, p, .error e)], some e⟩

/-! ## What a pass does with its first entry -/

section Equations

variable {server} {s s' : σ} {a : α} {l : List α} {p : π} {x : ρ} {e : ε} {room : Nat}

@[simp] theorem pass_nil : server.pass s [] = .start s [] := rfl

theorem pass_skip (ha : server.offer a = none) :
    server.pass s (a :: l) = (server.pass s l).skip a := by
  simp [pass, ha]

theorem pass_accept (ha : server.offer a = some p) (hs : server.serve s p = (s', .ok x)) :
    server.pass s (a :: l) = (server.pass s' l).accept a p x := by
  simp [pass, ha, hs]

theorem pass_fail (ha : server.offer a = some p) (hs : server.serve s p = (s', .error e)) :
    server.pass s (a :: l) = ⟨s', server.mark a e :: l, [(a, p, .error e)], some e⟩ := by
  simp [pass, ha, hs]

@[simp] theorem passUpTo_nil : server.passUpTo room s [] = .start s [] := by
  unfold passUpTo
  rfl

@[simp] theorem passUpTo_zero : server.passUpTo 0 s l = .start s l := by
  cases l with
  | nil => exact passUpTo_nil
  | cons a l => rfl

theorem passUpTo_skip (ha : server.offer a = none) :
    server.passUpTo (room + 1) s (a :: l) = (server.passUpTo (room + 1) s l).skip a := by
  simp [passUpTo, ha]

theorem passUpTo_accept (ha : server.offer a = some p) (hs : server.serve s p = (s', .ok x)) :
    server.passUpTo (room + 1) s (a :: l) = (server.passUpTo room s' l).accept a p x := by
  simp [passUpTo, ha, hs]

theorem passUpTo_fail (ha : server.offer a = some p) (hs : server.serve s p = (s', .error e)) :
    server.passUpTo (room + 1) s (a :: l) =
      ⟨s', server.mark a e :: l, [(a, p, .error e)], some e⟩ := by
  simp [passUpTo, ha, hs]

end Equations

/-! ## Limited passes -/

section Limited

variable (room : Nat) (s : σ) (l : List α)

theorem length_passUpTo : (server.passUpTo room s l).granted.length ≤ room ∧
    (server.passUpTo room s l).kept.length + (server.passUpTo room s l).granted.length =
      l.length := by
  induction l generalizing room s with
  | nil => simp
  | cons a l ih =>
    cases room with
    | zero => simp
    | succ room =>
      cases ha : server.offer a with
      | none =>
        have hrest := ih (room + 1) s
        rw [passUpTo_skip ha]
        simp only [Result.skip_kept, Result.granted_skip, List.length_cons]
        omega
      | some p =>
        rcases hs : server.serve s p with ⟨s', e | x⟩
        · rw [passUpTo_fail ha hs]
          simp
        · have hrest := ih room s'
          rw [passUpTo_accept ha hs]
          simp only [Result.accept_kept, Result.granted_accept, List.length_cons]
          omega

/-- A limited pass makes one call for each acceptance, and at most one more if it has room
left. -/
theorem length_calls : (server.passUpTo room s l).calls.length ≤
      (server.passUpTo room s l).granted.length + 1 ∧
    ((server.passUpTo room s l).granted.length = room →
      (server.passUpTo room s l).calls.length = (server.passUpTo room s l).granted.length) := by
  induction l generalizing room s with
  | nil => simp
  | cons a l ih =>
    cases room with
    | zero => simp
    | succ room =>
      cases ha : server.offer a with
      | none =>
        rw [passUpTo_skip ha]
        exact ih (room + 1) s
      | some p =>
        rcases hs : server.serve s p with ⟨s', e | x⟩
        · rw [passUpTo_fail ha hs]
          simp
        · have hrest := ih room s'
          rw [passUpTo_accept ha hs]
          simp only [Result.accept_calls, Result.granted_accept, List.length_cons]
          omega

/-- A limited pass with room left has gone to the end, or to the first failure. -/
theorem pass_of_room (h : (server.passUpTo room s l).granted.length < room) :
    server.pass s l = server.passUpTo room s l := by
  induction l generalizing room s with
  | nil => simp
  | cons a l ih =>
    cases room with
    | zero => simp at h
    | succ room =>
      cases ha : server.offer a with
      | none =>
        rw [passUpTo_skip ha] at h ⊢
        rw [pass_skip ha, ih (room + 1) s h]
      | some p =>
        rcases hs : server.serve s p with ⟨s', e | x⟩
        · rw [passUpTo_fail ha hs, pass_fail ha hs]
        · rw [passUpTo_accept ha hs] at h ⊢
          rw [pass_accept ha hs, ih room s' (by simpa using h)]

/-- A limited pass without room left has not failed, and when it is started again at the front
it continues where it has stopped: the entries it skipped are skipped again. -/
theorem pass_of_full (h : (server.passUpTo room s l).granted.length = room) :
    (server.passUpTo room s l).stop = none ∧
      server.pass s l = (server.passUpTo room s l).andThen
        (server.pass (server.passUpTo room s l).state (server.passUpTo room s l).kept) := by
  induction l generalizing room s with
  | nil => simp [Result.andThen, Result.start]
  | cons a l ih =>
    cases room with
    | zero => simp [Result.andThen]
    | succ room =>
      cases ha : server.offer a with
      | none =>
        rw [passUpTo_skip ha] at h ⊢
        obtain ⟨hstop, hrest⟩ := ih (room + 1) s h
        refine ⟨hstop, ?_⟩
        rw [pass_skip ha, hrest, Result.skip_kept, Result.skip_state, pass_skip ha]
        rfl
      | some p =>
        rcases hs : server.serve s p with ⟨s', e | x⟩
        · rw [passUpTo_fail ha hs] at h
          simp at h
        · rw [passUpTo_accept ha hs] at h ⊢
          obtain ⟨hstop, hrest⟩ := ih room s' (by simpa using h)
          refine ⟨hstop, ?_⟩
          rw [pass_accept ha hs, hrest]
          rfl

end Limited

/-! ## What a pass leaves over -/

/-- After a failure for this reason the offer is there again, and the state is as it was. -/
def Restores (e : ε) : Prop :=
  ∀ s s' a p, server.offer a = some p → server.serve s p = (s', .error e) →
    s' = s ∧ server.offer (server.mark a e) = some p

/-- If the failure that has stopped a pass restored the offer, the first offer that is left
would fail again. -/
theorem fails_next {s : σ} {l : List α}
    (hstop : ∀ e, (server.pass s l).stop = some e → server.Restores e) {p : π}
    (hp : (server.pass s l).kept.findSome? server.offer = some p) :
    ∃ s' e, server.serve (server.pass s l).state p = (s', .error e) := by
  induction l generalizing s with
  | nil => cases hp
  | cons a l ih =>
    cases ha : server.offer a with
    | none =>
      rw [pass_skip ha] at hstop hp ⊢
      rw [Result.skip_kept, List.findSome?_cons_of_isNone (by simp [ha])] at hp
      exact ih hstop hp
    | some q =>
      rcases hs : server.serve s q with ⟨s', e | x⟩
      · -- the failed offer is the first one again
        rw [pass_fail ha hs] at hstop hp ⊢
        obtain ⟨rfl, hback⟩ := hstop e rfl _ _ a q ha hs
        rw [List.findSome?_cons, hback] at hp
        cases hp
        exact ⟨_, e, hs⟩
      · rw [pass_accept ha hs] at hstop hp ⊢
        exact ih hstop hp

/-! ## Entries without an offer -/

/-- Entries without an offer are invisible: the calls and the state are the same without
them. -/
theorem pass_offers (s : σ) (l : List α) :
    (server.pass s (l.filter fun a => (server.offer a).isSome)).calls = (server.pass s l).calls ∧
      (server.pass s (l.filter fun a => (server.offer a).isSome)).state =
        (server.pass s l).state := by
  induction l generalizing s with
  | nil => exact ⟨rfl, rfl⟩
  | cons a l ih =>
    cases ha : server.offer a with
    | none =>
      rw [List.filter_cons_of_neg (by simp [ha]), pass_skip ha]
      exact ih s
    | some p =>
      rw [List.filter_cons_of_pos (by simp [ha])]
      rcases hs : server.serve s p with ⟨s', e | x⟩
      · rw [pass_fail ha hs, pass_fail ha hs]
        exact ⟨rfl, rfl⟩
      · obtain ⟨hcalls, hstate⟩ := ih s'
        rw [pass_accept ha hs, pass_accept ha hs]
        exact ⟨by rw [Result.accept_calls, Result.accept_calls, hcalls], hstate⟩

/-- Entries without an offer stay in their order. -/
theorem sublist_kept (s : σ) (l : List α) :
    (l.filter fun a => (server.offer a).isNone).Sublist (server.pass s l).kept := by
  induction l generalizing s with
  | nil => exact List.Sublist.slnil
  | cons a l ih =>
    cases ha : server.offer a with
    | none =>
      rw [List.filter_cons_of_pos (by simp [ha]), pass_skip ha]
      exact (ih s).cons_cons a
    | some p =>
      rw [List.filter_cons_of_neg (by simp [ha])]
      rcases hs : server.serve s p with ⟨s', e | x⟩
      · rw [pass_fail ha hs]
        exact (List.filter_sublist).trans (List.sublist_cons_self _ _)
      · rw [pass_accept ha hs]
        exact ih s'

end Server

end Pass
