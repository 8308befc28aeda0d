import Mathlib.Data.List.Nodup
import Mathlib.Data.List.Sublists

/-!
# Precedence in a List

`Precedes l a b`: `a` occurs before `b` in `l`. Nothing in this file depends on the program
under study.

## Main results

- `Precedes.mono`, `Precedes.filter`: precedence survives insertions and removals of others
- `Precedes.mem_before`, `Precedes.mem_after`: precedence and splits
- `precedes_asymm`: in a list without duplicates only one of two elements comes first
- `idxOf_remove_le`, `idxOf_remove_before`: how far an element moves up when another one leaves
-/

variable {α : Type*} {l l' : List α} {a b : α}

/-- `a` occurs before `b`. -/
def Precedes (l : List α) (a b : α) : Prop := [a, b].Sublist l

theorem Precedes.mono (h : Precedes l a b) (hl : l.Sublist l') : Precedes l' a b :=
  List.Sublist.trans h hl

theorem Precedes.mem_left (h : Precedes l a b) : a ∈ l := h.subset (by simp)

theorem Precedes.mem_right (h : Precedes l a b) : b ∈ l := h.subset (by simp)

/-- Removing other elements. -/
theorem Precedes.filter (h : Precedes l a b) {p : α → Bool} (ha : p a = true) (hb : p b = true) :
    Precedes (l.filter p) a b := by
  have hfilter := List.Sublist.filter p h
  simpa [Precedes, ha, hb] using hfilter

theorem precedes_append (ha : a ∈ l) (hb : b ∈ l') : Precedes (l ++ l') a b :=
  List.Sublist.append (List.singleton_sublist.mpr ha) (List.singleton_sublist.mpr hb)

theorem precedes_cons (hb : b ∈ l) : Precedes (a :: l) a b :=
  List.Sublist.cons_cons a (List.singleton_sublist.mpr hb)

theorem Precedes.reverse (h : Precedes l a b) : Precedes l.reverse b a := by
  have hreverse := List.Sublist.reverse h
  simpa [Precedes] using hreverse

/-- What precedes `b` stands before it. -/
theorem Precedes.mem_before {before after : List α} (h : Precedes (before ++ b :: after) a b)
    (hnodup : (before ++ b :: after).Nodup) : a ∈ before := by
  have hb : b ∉ before := fun hmem =>
    (List.nodup_append.mp hnodup).2.2 b hmem b (by simp) rfl
  have hb' : b ∉ after := (List.nodup_cons.mp (List.nodup_append.mp hnodup).2.1).1
  obtain ⟨l₁, l₂, hsplit, h₁, h₂⟩ := List.sublist_append_iff.mp h
  -- `b` itself can only come from the second part
  cases l₁ with
  | nil =>
    simp only [List.nil_append] at hsplit
    subst hsplit
    cases h₂ with
    | cons _ h₂ => exact absurd (h₂.subset (by simp)) hb'
    | cons_cons _ h₂ => exact absurd (h₂.subset (by simp)) hb'
  | cons c l₁ =>
    -- then `a` comes from the first part
    obtain ⟨rfl, -⟩ := List.cons_eq_cons.mp hsplit
    exact h₁.subset (by simp)

/-- What `a` precedes stands after it. -/
theorem Precedes.mem_after {before after : List α} (h : Precedes (before ++ a :: after) a b)
    (hnodup : (before ++ a :: after).Nodup) : b ∈ after := by
  have hreverse := h.reverse
  rw [List.reverse_append, List.reverse_cons, List.append_assoc] at hreverse
  have hnodup' : (after.reverse ++ a :: before.reverse).Nodup := by
    have hrev := List.nodup_reverse.mpr hnodup
    simpa using hrev
  exact List.mem_reverse.mp (Precedes.mem_before hreverse hnodup')

theorem precedes_asymm (hl : l.Nodup) (hab : Precedes l a b) (hba : Precedes l b a) : False := by
  obtain ⟨before, after, rfl⟩ := List.append_of_mem hab.mem_right
  have hbefore := hab.mem_before hl
  have hafter := hba.mem_after hl
  exact (List.nodup_append.mp hl).2.2 a hbefore a (List.mem_cons_of_mem b hafter) rfl

/-- A new last element does not matter to a list without it. -/
theorem sublist_of_sublist_snoc (h : l.Sublist (l' ++ [a])) (ha : a ∉ l) : l.Sublist l' := by
  obtain ⟨l₁, l₂, rfl, h₁, h₂⟩ := List.sublist_append_iff.mp h
  cases l₂ with
  | nil => simpa using h₁
  | cons b l₂ =>
    -- the second part of the split can only be `[a]`
    have hb : b = a := by simpa using h₂.subset (List.mem_cons_self ..)
    exact absurd (by simp [hb]) ha

/-! ## Moving up -/

section Position

variable [DecidableEq α] {before after : List α}

/-- Who stays in line does not move back when somebody leaves. -/
theorem idxOf_remove_le (hne : a ≠ b) :
    (before ++ after).idxOf a ≤ (before ++ b :: after).idxOf a := by
  by_cases ha : a ∈ before
  · rw [List.idxOf_append_of_mem ha, List.idxOf_append_of_mem ha]
  · rw [List.idxOf_append_of_notMem ha, List.idxOf_append_of_notMem ha,
      List.idxOf_cons_ne _ hne.symm]
    omega

/-- Who stands behind the one that leaves moves up by one place. -/
theorem idxOf_remove_before (ha : a ∉ before) (hne : a ≠ b) :
    (before ++ after).idxOf a + 1 = (before ++ b :: after).idxOf a := by
  rw [List.idxOf_append_of_notMem ha, List.idxOf_append_of_notMem ha,
    List.idxOf_cons_ne _ hne.symm]
  omega

end Position
