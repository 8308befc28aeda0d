import Mathlib.Data.List.Nodup
import Mathlib.Data.List.Basic

/-!
# Pinned Intrusive Lists

A list whose nodes live inside their owners. The list knows the nodes that are linked, from
front to back, each with its *protected* data; a node knows whether it is initial, linked, or
was removed by somebody else, who left a *removed* value in it for the owner to take.

Nodes are identified by a name of an arbitrary type `ι`. The operations follow the
documented behaviour of such lists (push, cursor removal, unlink, reset, access to the
protected data, extraction of the removed value); an operation whose precondition fails
returns `none`.

## Main results

- `exists_split`: a linked node splits the list in two
- `remove_split`, `lookup_split`, `setProtected_split`: the operations on a split list
-/

/-- The linked nodes of a pinned list, from front to back, with their protected data. -/
abbrev PinList (ι α : Type*) := List (ι × α)

namespace PinList

variable {ι α ρ : Type*}

/-! ## Nodes -/

/-- The state of a node, as seen by its owner. -/
inductive Node (ρ : Type*) where
  | initial
  | linked
  | removed (r : ρ)
  deriving DecidableEq

/-- What `reset` finds in an initialized node. -/
inductive NodeData (α ρ : Type*) where
  | linked (data : α)
  | removed (r : ρ)

/-- Extract the value left by whoever removed the node. Unchecked in the library: on a node
that is not removed the behaviour is undefined, which is `none` here. -/
def Node.takeRemoved : Node ρ → Option ρ
  | .removed r => some r
  | _ => none

/-! ## Lists -/

/-- The names of the linked nodes, from front to back. -/
def ids (l : PinList ι α) : List ι := l.map Prod.fst

def pushFront (l : PinList ι α) (i : ι) (data : α) : PinList ι α := (i, data) :: l

def pushBack (l : PinList ι α) (i : ι) (data : α) : PinList ι α := l ++ [(i, data)]

/-- A position in the list: the nodes before it and the nodes from it on. The position
after the last node is the ghost. -/
structure Cursor (ι α : Type*) where
  before : PinList ι α
  after : PinList ι α

/-- The list a cursor moves over. -/
def Cursor.list (c : Cursor ι α) : PinList ι α := c.before ++ c.after

/-- Remove the node under the cursor, which moves to the next one; `none` on the ghost. -/
def Cursor.removeCurrent (c : Cursor ι α) : Option ((ι × α) × Cursor ι α) :=
  match c.after with
  | [] => none
  | e :: after => some (e, ⟨c.before, after⟩)

section Named

variable [DecidableEq ι]

/-- The list without the node `i`. -/
def remove (l : PinList ι α) (i : ι) : PinList ι α := l.filter fun e => e.1 ≠ i

/-- Overwrite the protected data of the node `i`. -/
def setProtected (l : PinList ι α) (i : ι) (data : α) : PinList ι α :=
  l.map fun e => if e.1 = i then (i, data) else e

/-- The protected data of a node that is still linked. -/
def Node.protectedMut (n : Node ρ) (l : PinList ι α) (i : ι) : Option α :=
  match n with
  | .linked => l.lookup i
  | _ => none

/-- Take a linked node out of the list, with its protected data. -/
def Node.unlink (n : Node ρ) (l : PinList ι α) (i : ι) : Option (α × PinList ι α) :=
  match n with
  | .linked => (l.lookup i).map fun data => (data, l.remove i)
  | _ => none

/-- Bring an initialized node back to its initial state, unlinking it if necessary. -/
def Node.reset (n : Node ρ) (l : PinList ι α) (i : ι) :
    Option (NodeData α ρ × PinList ι α) :=
  match n with
  | .initial => none
  | .linked => (l.lookup i).map fun data => (.linked data, l.remove i)
  | .removed r => some (.removed r, l)

end Named

/-! ## Names of the nodes -/

@[simp] theorem ids_nil : ids ([] : PinList ι α) = [] := rfl

@[simp] theorem ids_cons (e : ι × α) (l : PinList ι α) : ids (e :: l) = e.1 :: ids l := rfl

@[simp] theorem ids_append (l l' : PinList ι α) : ids (l ++ l') = ids l ++ ids l' :=
  List.map_append

@[simp] theorem length_ids (l : PinList ι α) : (ids l).length = l.length := List.length_map _

theorem mem_ids {l : PinList ι α} {i : ι} : i ∈ ids l ↔ ∃ data, (i, data) ∈ l := by
  simp [ids]

theorem mem_ids_of_mem {l : PinList ι α} {i : ι} {data : α} (h : (i, data) ∈ l) : i ∈ ids l :=
  mem_ids.mpr ⟨data, h⟩

/-- The names of a list do not change when the data of one node does. -/
theorem ids_replace (before after : PinList ι α) (i : ι) (data data' : α) :
    ids (before ++ (i, data) :: after) = ids (before ++ (i, data') :: after) := by
  simp

/-- In a list without duplicates a name determines the data. -/
theorem eq_of_mem_of_nodup {l : PinList ι α} (hl : (ids l).Nodup) {i : ι} {a b : α}
    (ha : (i, a) ∈ l) (hb : (i, b) ∈ l) : a = b := by
  induction l with
  | nil => cases ha
  | cons e l ih =>
    obtain ⟨hnot, hl⟩ := List.nodup_cons.mp hl
    -- both occurrences are the head, or both are in the tail
    rcases List.mem_cons.mp ha with hae | hal
    · rcases List.mem_cons.mp hb with hbe | hbl
      · exact (Prod.mk.inj (hae.trans hbe.symm)).2
      · exact absurd (hae ▸ mem_ids_of_mem hbl) hnot
    · rcases List.mem_cons.mp hb with hbe | hbl
      · exact absurd (hbe ▸ mem_ids_of_mem hal) hnot
      · exact ih hl hal hbl

/-! ## Splitting a list at one of its nodes -/

theorem exists_split {l : PinList ι α} {i : ι} (h : i ∈ ids l) :
    ∃ before data after, l = before ++ (i, data) :: after := by
  obtain ⟨data, hmem⟩ := mem_ids.mp h
  obtain ⟨before, after, rfl⟩ := List.append_of_mem hmem
  exact ⟨before, data, after, rfl⟩

/-- The node at which a list without duplicates is split occurs on neither side. -/
theorem not_mem_of_split {before after : PinList ι α} {i : ι} {data : α}
    (h : (ids (before ++ (i, data) :: after)).Nodup) : i ∉ ids before ∧ i ∉ ids after := by
  simp only [ids_append, ids_cons, List.nodup_append, List.nodup_cons] at h
  constructor
  · intro hi
    exact h.2.2 i hi i (List.mem_cons_self ..) rfl
  · exact h.2.1.1

theorem nodup_of_split {before after : PinList ι α} {i : ι} {data : α}
    (h : (ids (before ++ (i, data) :: after)).Nodup) : (ids (before ++ after)).Nodup := by
  have hsublist : (ids (before ++ after)).Sublist (ids (before ++ (i, data) :: after)) := by
    simp only [ids_append, ids_cons]
    exact List.Sublist.append_left (List.sublist_cons_self _ _) _
  exact h.sublist hsublist

/-- The nodes of a list split at one of them. -/
theorem mem_split {before after : PinList ι α} {e e' : ι × α} :
    e ∈ before ++ e' :: after ↔ e = e' ∨ e ∈ before ++ after := by
  simp only [List.mem_append, List.mem_cons]
  constructor
  · intro h
    rcases h with hbefore | heq | hafter
    · exact Or.inr (Or.inl hbefore)
    · exact Or.inl heq
    · exact Or.inr (Or.inr hafter)
  · intro h
    rcases h with heq | hbefore | hafter
    · exact Or.inr (Or.inl heq)
    · exact Or.inl hbefore
    · exact Or.inr (Or.inr hafter)

/-- The nodes other than the one at which a list is split have other names. -/
theorem ne_of_mem_split {before after : PinList ι α} {i j : ι} {data data' : α}
    (hnodup : (ids (before ++ (i, data) :: after)).Nodup) (hmem : (j, data') ∈ before ++ after) :
    i ≠ j := by
  obtain ⟨hbefore, hafter⟩ := not_mem_of_split hnodup
  intro hij
  subst hij
  rcases List.mem_append.mp hmem with h | h
  · exact hbefore (mem_ids_of_mem h)
  · exact hafter (mem_ids_of_mem h)

section Named

variable [DecidableEq ι]

@[simp] theorem remove_cons_self (l : PinList ι α) (i : ι) (data : α) :
    remove ((i, data) :: l) i = remove l i := by
  simp [remove]

theorem remove_of_notMem {l : PinList ι α} {i : ι} (h : i ∉ ids l) : remove l i = l := by
  apply List.filter_eq_self.mpr
  intro e he
  simp only [ne_eq, decide_not, Bool.not_eq_true', decide_eq_false_iff_not]
  intro heq
  subst heq
  exact h (mem_ids.mpr ⟨e.2, he⟩)

theorem remove_split {before after : PinList ι α} {i : ι} {data : α}
    (h : (ids (before ++ (i, data) :: after)).Nodup) :
    remove (before ++ (i, data) :: after) i = before ++ after := by
  obtain ⟨hb, ha⟩ := not_mem_of_split h
  have hsplit : remove (before ++ (i, data) :: after) i = remove before i ++ remove after i := by
    simp [remove, List.filter_append]
  rw [hsplit, remove_of_notMem hb, remove_of_notMem ha]

theorem lookup_split {before after : PinList ι α} {i : ι} {data : α}
    (h : i ∉ ids before) : (before ++ (i, data) :: after).lookup i = some data := by
  induction before with
  | nil => simp
  | cons e before ih =>
    simp only [ids_cons, List.mem_cons, not_or] at h
    have hne : (i == e.1) = false := beq_eq_false_iff_ne.mpr h.1
    rw [List.cons_append, List.lookup_cons, hne]
    exact ih h.2

theorem setProtected_of_notMem {l : PinList ι α} {i : ι} {data : α} (h : i ∉ ids l) :
    setProtected l i data = l := by
  induction l with
  | nil => rfl
  | cons e l ih =>
    simp only [ids_cons, List.mem_cons, not_or] at h
    have hne : ¬ e.1 = i := fun heq => h.1 heq.symm
    simp only [setProtected, List.map_cons, hne, if_false]
    congr 1
    exact ih h.2

theorem setProtected_split {before after : PinList ι α} {i : ι} {data data' : α}
    (h : (ids (before ++ (i, data) :: after)).Nodup) :
    setProtected (before ++ (i, data) :: after) i data' = before ++ (i, data') :: after := by
  obtain ⟨hb, ha⟩ := not_mem_of_split h
  have hsplit : setProtected (before ++ (i, data) :: after) i data' =
      setProtected before i data' ++ (i, data') :: setProtected after i data' := by
    simp [setProtected]
  rw [hsplit, setProtected_of_notMem hb, setProtected_of_notMem ha]

theorem ids_remove (l : PinList ι α) (i : ι) :
    ids (remove l i) = (ids l).filter fun j => j ≠ i := by
  simp [remove, ids, List.filter_map, Function.comp_def]

theorem ids_setProtected (l : PinList ι α) (i : ι) (data : α) :
    ids (setProtected l i data) = ids l := by
  induction l with
  | nil => rfl
  | cons e l ih =>
    have hhead : (if e.1 = i then (i, data) else e).1 = e.1 := by
      split
      · rename_i h
        exact h.symm
      · rfl
    show (if e.1 = i then (i, data) else e).1 :: ids (setProtected l i data) = e.1 :: ids l
    rw [hhead, ih]

end Named

end PinList
