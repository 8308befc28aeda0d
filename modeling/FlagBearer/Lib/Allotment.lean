import FlagBearer.Lib.PinList
import Mathlib.Data.List.Infix

/-!
# Sharing a Total, First Come First Served

A total `T` is shared among requests, each of them a name and a size. Those that arrived and
have not left form a list in order of arrival; the first of them hold their share, the others
wait, and what nobody holds is available.

Nothing in this file depends on the program under study.

## Main definitions

- `Longest T l g`: `g` is the longest initial segment of `l` whose sizes fit in `T`
- `Books T survivors waiting holds available`: the books balance

## Main results

- `Books.grant`, `Books.arrive`, `Books.release`, `Books.withdraw`, `Books.add`: the
  transactions that keep the books balanced
- `Books.canonical`: if the first waiter does not fit, the books are determined by the survivors
-/

namespace Allotment

open PinList

variable {ι : Type*}

/-! ## The longest segment that fits -/

/-- The sum of the sizes. -/
def total : PinList ι Nat → Nat
  | [] => 0
  | e :: l => e.2 + total l

@[simp] theorem total_nil : total ([] : PinList ι Nat) = 0 := rfl

@[simp] theorem total_cons (e : ι × Nat) (l : PinList ι Nat) : total (e :: l) = e.2 + total l :=
  rfl

@[simp] theorem total_append (l l' : PinList ι Nat) : total (l ++ l') = total l + total l' := by
  induction l with
  | nil => simp
  | cons e l ih =>
    rw [List.cons_append, total_cons, total_cons, ih]
    omega

/-- `g` is the longest initial segment of `l` whose sizes sum to at most `T`. -/
structure Longest (T : Nat) (l g : PinList ι Nat) : Prop where
  begins : g <+: l
  fits : total g ≤ T
  longest : ∀ g', g' <+: l → total g' ≤ T → g' <+: g

/-- A segment that fits, and no longer does with the next request, is the longest. -/
theorem longest_of_next {T : Nat} {g l : PinList ι Nat} (hfits : total g ≤ T)
    (hnext : ∀ e rest, l = e :: rest → T < total g + e.2) : Longest T (g ++ l) g := by
  refine ⟨List.prefix_append g l, hfits, ?_⟩
  intro g' hg' hfits'
  -- of two initial segments, one begins the other
  rcases List.prefix_or_prefix_of_prefix hg' (List.prefix_append g l) with hshort | ⟨more, rfl⟩
  · exact hshort
  · have hmore : more <+: l := (List.prefix_append_right_inj g).mp hg'
    cases more with
    | nil => rw [List.append_nil]
    | cons e more =>
      -- the segment would contain the next request
      obtain ⟨rest, hl⟩ := hmore
      have hexceeds := hnext e (more ++ rest) hl.symm
      rw [total_append, total_cons] at hfits'
      omega

/-! ## The books -/

/-- The survivors are those who hold their share, followed by those who wait; the shares and
what is available make up the total. -/
structure Books (T : Nat) (survivors waiting : PinList ι Nat) (holds : ι → Option Nat)
    (available : Nat) : Prop where
  nodup : (ids survivors).Nodup
  split : ∃ granted, survivors = granted ++ waiting ∧
    (∀ i r, (i, r) ∈ granted ↔ holds i = some r) ∧ available + total granted = T

theorem Books.start (T : Nat) : Books T ([] : PinList ι Nat) [] (fun _ => none) T :=
  ⟨List.nodup_nil, [], rfl, by simp, by simp⟩

section Facts

variable {T : Nat} {survivors waiting : PinList ι Nat} {holds : ι → Option Nat} {available : Nat}

/-- Who waits holds nothing. -/
theorem Books.waiting_none (h : Books T survivors waiting holds available) {i : ι} {n : Nat}
    (hi : (i, n) ∈ waiting) : holds i = none := by
  obtain ⟨granted, rfl, hheld, -⟩ := h.split
  rcases hr : holds i with _ | r
  · rfl
  · have hnodup := h.nodup
    rw [ids_append, List.nodup_append] at hnodup
    exact absurd rfl
      (hnodup.2.2 i (mem_ids_of_mem ((hheld i r).mpr hr)) i (mem_ids_of_mem hi))

/-- Who neither holds nor waits is no survivor. -/
theorem Books.absent (h : Books T survivors waiting holds available) {i : ι}
    (hholds : holds i = none) (hwaits : i ∉ ids waiting) : i ∉ ids survivors := by
  obtain ⟨granted, rfl, hheld, -⟩ := h.split
  rw [ids_append, List.mem_append]
  intro hi
  rcases hi with hgranted | hwaiting
  · obtain ⟨r, hr⟩ := mem_ids.mp hgranted
    rw [(hheld i r).mp hr] at hholds
    cases hholds
  · exact hwaits hwaiting

/-- A request joins the others. -/
theorem Books.arrive (h : Books T survivors waiting holds available) {i : ι}
    (hi : i ∉ ids survivors) (n : Nat) :
    Books T (survivors ++ [(i, n)]) (waiting ++ [(i, n)]) holds available := by
  constructor
  case nodup =>
    rw [ids_append, List.nodup_append]
    refine ⟨h.nodup, by simp, ?_⟩
    intro j hj k hk hjk
    have hki : k = i := by simpa using hk
    subst hjk hki
    exact hi hj
  case split =>
    -- the newcomer waits behind the others
    obtain ⟨granted, rfl, hheld, hsum⟩ := h.split
    exact ⟨granted, List.append_assoc .., hheld, hsum⟩

/-- The total grows. -/
theorem Books.add (h : Books T survivors waiting holds available) (n : Nat) :
    Books (T + n) survivors waiting holds (available + n) := by
  obtain ⟨granted, hsplit, hheld, hsum⟩ := h.split
  exact ⟨h.nodup, granted, hsplit, hheld, by omega⟩

section Named

variable [DecidableEq ι]

/-- The first waiter gets its share. -/
theorem Books.grant {i : ι} {n : Nat} {rest : PinList ι Nat}
    (h : Books T survivors ((i, n) :: rest) holds available) (hn : n ≤ available) :
    Books T survivors rest (Function.update holds i (some n)) (available - n) := by
  have hnone : holds i = none := h.waiting_none (List.mem_cons_self ..)
  refine ⟨h.nodup, ?_⟩
  obtain ⟨granted, rfl, hheld, hsum⟩ := h.split
  -- it becomes the last of those who hold their share
  refine ⟨granted ++ [(i, n)], by simp, ?_, ?_⟩
  · intro j r
    by_cases hj : j = i
    · subst hj
      have hnot : (j, r) ∉ granted := by
        intro hmem
        rw [(hheld j r).mp hmem] at hnone
        cases hnone
      simp [hnot, eq_comm]
    · simp [hj, hheld]
  · rw [total_append, total_cons, total_nil]
    omega

/-- A holder gives its share back and leaves. -/
theorem Books.release (h : Books T survivors waiting holds available) {i : ι} {r : Nat}
    (hi : holds i = some r) :
    Books T (remove survivors i) waiting (Function.update holds i none) (available + r) := by
  have hnodup := h.nodup
  obtain ⟨granted, rfl, hheld, hsum⟩ := h.split
  obtain ⟨before, after, rfl⟩ := List.append_of_mem ((hheld i r).mpr hi)
  rw [List.append_assoc, List.cons_append] at hnodup
  have hremove : remove (before ++ (i, r) :: after ++ waiting) i = before ++ after ++ waiting := by
    rw [List.append_assoc, List.cons_append, remove_split hnodup, List.append_assoc]
  rw [hremove]
  -- the other holders are those before it and those after it
  refine ⟨?_, before ++ after, rfl, ?_, ?_⟩
  · rw [List.append_assoc]
    exact nodup_of_split hnodup
  · intro j s
    have hmem := hheld j s
    rw [mem_split, Prod.mk.injEq] at hmem
    by_cases hj : j = i
    · subst hj
      obtain ⟨hbefore, hafter⟩ := not_mem_of_split hnodup
      rw [ids_append, List.mem_append, not_or] at hafter
      have hnot : (j, s) ∉ before ++ after := by
        rw [List.mem_append]
        intro hs
        rcases hs with hs | hs
        · exact hbefore (mem_ids_of_mem hs)
        · exact hafter.1 (mem_ids_of_mem hs)
      simp [hnot]
    · rw [Function.update_of_ne hj, ← hmem]
      simp [hj]
  · rw [total_append, total_cons] at hsum
    rw [total_append]
    omega

/-- A waiter leaves. -/
theorem Books.withdraw {i : ι} {n : Nat} {before after : PinList ι Nat}
    (h : Books T survivors (before ++ (i, n) :: after) holds available) :
    Books T (remove survivors i) (before ++ after) holds available := by
  have hnodup := h.nodup
  obtain ⟨granted, rfl, hheld, hsum⟩ := h.split
  rw [← List.append_assoc] at hnodup ⊢
  rw [remove_split hnodup, List.append_assoc]
  refine ⟨?_, granted, rfl, hheld, hsum⟩
  rw [← List.append_assoc]
  exact nodup_of_split hnodup

end Named

/-- **The books are determined by the survivors** if the first waiter does not fit: those who
hold are the longest segment of the survivors that fits, and the others wait in their order. -/
theorem Books.canonical (h : Books T survivors waiting holds available)
    (hnext : ∀ e rest, waiting = e :: rest → available < e.2) :
    Longest T survivors (survivors.filter fun e => (holds e.1).isSome) ∧
      waiting = survivors.filter (fun e => (holds e.1).isNone) ∧
      available + total (survivors.filter fun e => (holds e.1).isSome) = T := by
  have hwaiting : ∀ e ∈ waiting, holds e.1 = none := fun e he => h.waiting_none he
  obtain ⟨granted, rfl, hheld, hsum⟩ := h.split
  have hgranted : ∀ e ∈ granted, holds e.1 = some e.2 := fun e he => (hheld e.1 e.2).mp he
  -- filtering by who holds something undoes the split
  have hholders : (granted ++ waiting).filter (fun e => (holds e.1).isSome) = granted := by
    rw [List.filter_append, List.filter_eq_self.mpr, List.filter_eq_nil_iff.mpr, List.append_nil]
    · intro e he
      simp [hwaiting e he]
    · intro e he
      simp [hgranted e he]
  have hothers : (granted ++ waiting).filter (fun e => (holds e.1).isNone) = waiting := by
    rw [List.filter_append, List.filter_eq_nil_iff.mpr, List.filter_eq_self.mpr, List.nil_append]
    · intro e he
      simp [hwaiting e he]
    · intro e he
      simp [hgranted e he]
  rw [hholders, hothers]
  refine ⟨?_, rfl, hsum⟩
  apply longest_of_next (by omega)
  intro e rest hcons
  have hlt := hnext e rest hcons
  omega

end Facts

end Allotment
