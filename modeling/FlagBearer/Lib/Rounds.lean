import Mathlib.Algebra.BigOperators.Group.List.Basic
import Mathlib.Algebra.Order.Floor.Div

/-!
# Rounds That Draw on a Supply

A loop draws at most `cap` items in each round from a supply of `n` items. Others may draw on
the supply in the meantime, but nobody adds to it. The loop begins another round only after a
full one that has left something. Nothing in this file depends on the program under study.

## Main definitions

- `Rounds cap n left counts`: what was drawn in each round, the latest first, and what is left
- `Rounds.Full`: another round may begin

## Main results

- `Rounds.next`, `Rounds.shrink`: another round, and what others draw
- `Rounds.length_le`: there are at most `n / cap` rounds, rounded up, but for an empty supply
-/

/-- The rounds of a loop so far: `counts` says how many items each of them has drawn, the latest
first, and `left` how many items are left. -/
structure Rounds (cap n left : Nat) (counts : List Nat) : Prop where
  full : ∀ m ∈ counts.tail, m = cap
  begun : counts.tail ≠ [] → counts.tail.sum < n
  supply : left + counts.sum ≤ n

namespace Rounds

variable {cap n left left' m : Nat} {counts : List Nat}

/-- All rounds were full, and have left something. -/
structure Full (cap n : Nat) (counts : List Nat) : Prop where
  full : ∀ m ∈ counts, m = cap
  lt : counts.sum < n

theorem first (h : left + m ≤ n) : Rounds cap n left [m] := by
  refine ⟨by simp, by simp, ?_⟩
  simpa using h

/-- What others draw. -/
theorem shrink (h : Rounds cap n left counts) (hle : left' ≤ left) :
    Rounds cap n left' counts :=
  ⟨h.full, h.begun, Nat.le_trans (Nat.add_le_add_right hle _) h.supply⟩

theorem next (h : Rounds cap n left counts) (hfull : Full cap n counts) (hm : left' + m ≤ left) :
    Rounds cap n left' (m :: counts) := by
  refine ⟨hfull.full, fun _ => hfull.lt, ?_⟩
  have hsupply := h.supply
  rw [List.sum_cons]
  omega

/-- A full round that has left something may be followed by another one. -/
theorem goes_on (h : Rounds cap n left (cap :: counts)) (hleft : 0 < left) :
    Full cap n (cap :: counts) := by
  constructor
  case full =>
    intro m hm
    rcases List.mem_cons.mp hm with rfl | htail
    · rfl
    · exact h.full m htail
  case lt =>
    have hsupply := h.supply
    omega

/-- **The number of rounds.** -/
theorem length_le (hcap : 0 < cap) (h : Rounds cap n left counts) :
    counts.length ≤ max 1 (n ⌈/⌉ cap) := by
  cases counts with
  | nil => exact Nat.zero_le _
  | cons m tail =>
    cases tail with
    | nil => exact le_max_left _ _
    | cons m' rest =>
      -- the earlier rounds alone have not exhausted the supply
      have hsum : (m' :: rest).sum = (m' :: rest).length * cap :=
        List.sum_eq_card_nsmul _ _ h.full
      have hlt : cap * (m' :: rest).length < n := by
        rw [Nat.mul_comm, ← hsum]
        exact h.begun (by simp)
      have hceil : (m' :: rest).length < n ⌈/⌉ cap := by
        by_contra hle
        have hn := (ceilDiv_le_iff_le_mul hcap).mp (Nat.le_of_not_lt hle)
        omega
      exact le_max_of_le_right hceil

end Rounds
