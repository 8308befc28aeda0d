import FlagBearer.Lib.Transition
import Mathlib.Algebra.BigOperators.Group.Finset.Basic

/-!
# Potentials

Some steps of a transition system are free and some are costly. If a potential on its states is
raised only so much by a free step, and lowered by each costly one, then the costly steps of a run
are paid for by the free ones, however the two are interleaved. A system that can take a costly
step wherever it is not at rest comes to rest by costly steps alone. Nothing in this file depends
on the program under study.

## Main results

- `exec_potential`: what a run costs
- `EveryStep.length_le`: a run of which every step lowers the potential is short
- `exists_rest`: costly steps lead to rest
- `sum_of_one`: the potential of many parts, of which one changes
-/

namespace Transition

variable {State Action : Type*} {step : State → Action → Option State}
variable {Inv : State → Prop} {allowed : Action → Prop} (costly : Action → Bool)
variable (potential : State → Nat)

/-- **The amortised bound**: costly steps lower the potential by `d`, the others raise it by at
most `n`. -/
theorem exec_potential (d n : Nat)
    (hkeep : ∀ {s s' a}, Inv s → allowed a → step s a = some s' → Inv s')
    (hcostly : ∀ {s s' a}, Inv s → allowed a → step s a = some s' → costly a = true →
      potential s' + d ≤ potential s)
    (hfree : ∀ {s s' a}, Inv s → allowed a → step s a = some s' → costly a = false →
      potential s' ≤ potential s + n)
    {s s' : State} (hs : Inv s) {acts : List Action} (hacts : ∀ a ∈ acts, allowed a)
    (h : exec step s acts = some s') :
    d * acts.countP costly + potential s' ≤
      potential s + n * acts.countP fun a => !costly a := by
  induction acts generalizing s with
  | nil =>
    cases h
    simp
  | cons a acts ih =>
    obtain ⟨u, hu, hrest⟩ := Option.bind_eq_some_iff.mp h
    have ha := hacts a (List.mem_cons_self ..)
    have hlater := ih (hkeep hs ha hu) (fun b hb => hacts b (List.mem_cons_of_mem a hb)) hrest
    cases hcost : costly a with
    | true =>
      have hfirst := hcostly hs ha hu hcost
      rw [List.countP_cons_of_pos hcost, List.countP_cons_of_neg (by simp [hcost]), Nat.mul_succ]
      omega
    | false =>
      have hfirst := hfree hs ha hu hcost
      rw [List.countP_cons_of_neg (by simp [hcost]), List.countP_cons_of_pos (by simp [hcost]),
        Nat.mul_succ]
      omega

/-- A run of which every step lowers the potential is no longer than the potential at its start. -/
theorem EveryStep.length_le {P : State → Action → State → Prop}
    (hkeep : ∀ {s s' a}, Inv s → allowed a → step s a = some s' → Inv s')
    (hless : ∀ {s s' a}, Inv s → allowed a → step s a = some s' → P s a s' →
      potential s' + 1 ≤ potential s)
    {s s' : State} (hs : Inv s) {acts : List Action} (hacts : ∀ a ∈ acts, allowed a)
    (hall : EveryStep step P s acts) (h : exec step s acts = some s') :
    acts.length + potential s' ≤ potential s := by
  induction acts generalizing s with
  | nil =>
    cases h
    simp
  | cons a acts ih =>
    obtain ⟨u, hu, hrest⟩ := Option.bind_eq_some_iff.mp h
    have ha := hacts a (List.mem_cons_self ..)
    obtain ⟨hP, hlater⟩ := hall u hu
    have hfirst := hless hs ha hu hP
    have hrun := ih (hkeep hs ha hu) (fun b hb => hacts b (List.mem_cons_of_mem a hb)) hlater hrest
    rw [List.length_cons]
    omega

/-- A system that is not at rest can take a costly step; such steps bring it to rest. -/
theorem exists_rest {atRest : State → Prop}
    (hkeep : ∀ {s s' a}, Inv s → allowed a → step s a = some s' → Inv s')
    (hcostly : ∀ {s s' a}, Inv s → allowed a → step s a = some s' → costly a = true →
      potential s' + 1 ≤ potential s)
    (hlive : ∀ {s}, Inv s → atRest s ∨ ∃ a s', allowed a ∧ costly a = true ∧ step s a = some s')
    {s : State} (hs : Inv s) :
    ∃ acts s', (∀ a ∈ acts, costly a = true) ∧ exec step s acts = some s' ∧ atRest s' := by
  induction hn : potential s using Nat.strong_induction_on generalizing s with
  | h n ih =>
    rcases hlive hs with hrest | ⟨a, u, ha, hcost, hu⟩
    · exact ⟨[], s, by simp, rfl, hrest⟩
    · have hless := hcostly hs ha hu hcost
      obtain ⟨acts, s', hacts, hexec, hrest⟩ := ih (potential u) (by omega) (hkeep hs ha hu) rfl
      refine ⟨a :: acts, s', ?_, by simp [hu, hexec], hrest⟩
      intro b hb
      rcases List.mem_cons.mp hb with rfl | hlater
      · exact hcost
      · exact hacts b hlater

/-- Many parts, each with its share, of which only one changes. -/
theorem sum_of_one {κ : Type*} [DecidableEq κ] {K : Finset κ} {f g : κ → Nat} {k : κ}
    (hk : k ∈ K) (hsame : ∀ l, l ≠ k → g l = f l) :
    ∑ l ∈ K, g l + f k = ∑ l ∈ K, f l + g k := by
  have hothers : ∑ l ∈ K.erase k, g l = ∑ l ∈ K.erase k, f l :=
    Finset.sum_congr rfl fun l hl => hsame l (Finset.ne_of_mem_erase hl)
  rw [← Finset.add_sum_erase K g hk, ← Finset.add_sum_erase K f hk, hothers]
  omega

end Transition
