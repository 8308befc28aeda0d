import Mathlib.Data.Multiset.Basic
import Mathlib.Data.Multiset.AddSub
import Mathlib.Algebra.BigOperators.Group.List.Basic
import Mathlib.Algebra.Order.Group.Multiset

/-!
# Tokens

An object issues tokens on request, or refuses, and takes tokens back. Its state may also be
adjusted from outside, and tokens may be made or disappear without the object. Nothing in this
file depends on the program under study.

A run of the object is a list of labels; each tells what was asked and how it ended. What the
object promises to its clients is a property of its state *and* of the tokens that are
outstanding.

## Main definitions

- `Issuer`: what the object does when it is asked
- `Step`, `Run`: its state and the tokens outstanding, from one label to the next
- `Custody`: a property that the object keeps, whatever it is asked
- `Respects`: the outside keeps it as well

## Main results

- `Run.custody`: the invariant rule, for a property that may depend on what the outside did
-/

namespace Tokens

variable {σ π ρ ε ω : Type*}

/-! ## Objects and their runs -/

/-- An object that issues tokens or refuses, and takes them back. -/
structure Issuer (σ π ρ ε ω : Type*) where
  issue : σ → π → σ × Except ε ρ
  redeem : σ → ρ → σ × ω

/-- What happens to an issuer and its tokens. -/
inductive Label (σ π ρ ε ω : Type*) where
  | issue (p : π) (res : Except ε ρ)
  | redeem (r : ρ) (out : ω)
  /-- the state is changed from outside -/
  | adjust (f : σ → σ × ω) (out : ω)
  /-- a token is made without the issuer -/
  | mint (r : ρ)
  /-- a token disappears without the issuer -/
  | burn (r : ρ)

/-- Does the label stand for something that the outside does? -/
def Label.ofUser : Label σ π ρ ε ω → Bool
  | .issue _ _ => false
  | .redeem _ _ => false
  | _ => true

/-- What an observer who cannot look into functions sees of a label. -/
inductive Entry (π ρ ε ω : Type*) where
  | issue (p : π) (res : Except ε ρ)
  | redeem (r : ρ) (out : ω)
  | adjust (out : ω)
  | mint (r : ρ)
  | burn (r : ρ)

def Label.entry : Label σ π ρ ε ω → Entry π ρ ε ω
  | .issue p res => .issue p res
  | .redeem r out => .redeem r out
  | .adjust _ out => .adjust out
  | .mint r => .mint r
  | .burn r => .burn r

def Entry.ofUser : Entry π ρ ε ω → Bool
  | .issue _ _ => false
  | .redeem _ _ => false
  | _ => true

@[simp] theorem Label.ofUser_entry (l : Label σ π ρ ε ω) : l.entry.ofUser = l.ofUser := by
  cases l <;> rfl

/-- An observer who sees one token made or gone knows the label. -/
theorem eq_singleton_of_entry {ls : List (Label σ π ρ ε ω)} {l : Label σ π ρ ε ω}
    (hl : ∀ f out, l ≠ .adjust f out) (h : ls.map Label.entry = [l.entry]) : ls = [l] := by
  obtain ⟨l', rfl, hentry⟩ := List.map_eq_singleton_iff.mp h
  cases l with
  | adjust f out => exact absurd rfl (hl f out)
  | _ =>
    cases l' <;> cases hentry
    rfl

/-- Labels of which an observer sees nothing done by the outside. -/
theorem filter_ofUser_eq_nil {ls : List (Label σ π ρ ε ω)}
    (h : (ls.map Label.entry).countP Entry.ofUser = 0) : ls.filter Label.ofUser = [] := by
  rw [List.countP_map, List.countP_eq_zero] at h
  apply List.filter_eq_nil_iff.mpr
  intro l hl
  simpa using h l hl

/-- The token that disappears with a label. -/
@[simp] def Label.burnt : Label σ π ρ ε ω → Multiset ρ
  | .burn r => {r}
  | _ => 0

/-- The tokens that disappear without the issuer. -/
def burnt (ls : List (Label σ π ρ ε ω)) : Multiset ρ := (ls.map Label.burnt).sum

@[simp] theorem burnt_nil : burnt ([] : List (Label σ π ρ ε ω)) = 0 := rfl

@[simp] theorem burnt_snoc (ls : List (Label σ π ρ ε ω)) (l : Label σ π ρ ε ω) :
    burnt (ls ++ [l]) = burnt ls + l.burnt := by
  simp [burnt]

/-- One step: a token can be given up only while it is outstanding. -/
inductive Step (T : Issuer σ π ρ ε ω) :
    σ × Multiset ρ → Label σ π ρ ε ω → σ × Multiset ρ → Prop where
  | issued (s s' : σ) (m : Multiset ρ) (p : π) (r : ρ) (h : T.issue s p = (s', .ok r)) :
      Step T (s, m) (.issue p (.ok r)) (s', r ::ₘ m)
  | refused (s s' : σ) (m : Multiset ρ) (p : π) (e : ε) (h : T.issue s p = (s', .error e)) :
      Step T (s, m) (.issue p (.error e)) (s', m)
  | redeemed (s s' : σ) (m : Multiset ρ) (r : ρ) (out : ω) (h : T.redeem s r = (s', out)) :
      Step T (s, r ::ₘ m) (.redeem r out) (s', m)
  | adjusted (s : σ) (m : Multiset ρ) (f : σ → σ × ω) :
      Step T (s, m) (.adjust f (f s).2) ((f s).1, m)
  | minted (s : σ) (m : Multiset ρ) (r : ρ) : Step T (s, m) (.mint r) (s, r ::ₘ m)
  | burned (s : σ) (m : Multiset ρ) (r : ρ) : Step T (s, r ::ₘ m) (.burn r) (s, m)

/-- Finitely many steps in a row. -/
inductive Run (T : Issuer σ π ρ ε ω) :
    σ × Multiset ρ → List (Label σ π ρ ε ω) → σ × Multiset ρ → Prop where
  | nil (c : σ × Multiset ρ) : Run T c [] c
  | snoc {c d e : σ × Multiset ρ} {ls : List (Label σ π ρ ε ω)} {l : Label σ π ρ ε ω} :
      Run T c ls d → Step T d l e → Run T c (ls ++ [l]) e

section Runs

variable {T : Issuer σ π ρ ε ω} {c d e : σ × Multiset ρ} {ls ls' : List (Label σ π ρ ε ω)}

theorem Run.one {l : Label σ π ρ ε ω} (h : Step T c l d) : Run T c [l] d := (Run.nil c).snoc h

theorem Run.append (h : Run T c ls d) (h' : Run T d ls' e) : Run T c (ls ++ ls') e := by
  induction h' with
  | nil => rwa [List.append_nil]
  | snoc _ hstep ih =>
    rw [← List.append_assoc]
    exact ih.snoc hstep

/-! ## What the object promises -/

/-- A property of the state and of the tokens outstanding that the object keeps, whatever it is
asked; the labels of its answers satisfy `ok`. -/
structure Custody (T : Issuer σ π ρ ε ω) (ok : Label σ π ρ ε ω → Prop)
    (Inv : σ → Multiset ρ → Prop) : Prop where
  issued : ∀ {s s' : σ} {m : Multiset ρ} {p : π} {r : ρ}, T.issue s p = (s', .ok r) →
    Inv s m → ok (.issue p (.ok r)) ∧ Inv s' (r ::ₘ m)
  refused : ∀ {s s' : σ} {m : Multiset ρ} {p : π} {e : ε}, T.issue s p = (s', .error e) →
    Inv s m → ok (.issue p (.error e)) ∧ Inv s' m
  redeemed : ∀ {s s' : σ} {m : Multiset ρ} {r : ρ} {out : ω}, T.redeem s r = (s', out) →
    Inv s (r ::ₘ m) → ok (.redeem r out) ∧ Inv s' m

/-- What the outside does turns one property into another, and its label satisfies `ok`. -/
def Label.Turns (ok : Label σ π ρ ε ω → Prop) (P Q : σ → Multiset ρ → Prop) :
    Label σ π ρ ε ω → Prop
  | .adjust f _ => ∀ s m, P s m → ok (.adjust f (f s).2) ∧ Q (f s).1 m
  | .mint r => ∀ s m, P s m → ok (.mint r) ∧ Q s (r ::ₘ m)
  | .burn r => ∀ s m, P s (r ::ₘ m) → ok (.burn r) ∧ Q s m
  | _ => True

/-- The outside respects a promise that may depend on what it has done so far. -/
def Respects (ok : Label σ π ρ ε ω → Prop)
    (Inv : List (Label σ π ρ ε ω) → σ → Multiset ρ → Prop) (us : List (Label σ π ρ ε ω)) : Prop :=
  ∀ pre l post, us = pre ++ l :: post → l.Turns ok (Inv pre) (Inv (pre ++ [l]))

theorem Respects.of_prefix {ok : Label σ π ρ ε ω → Prop}
    {Inv : List (Label σ π ρ ε ω) → σ → Multiset ρ → Prop} {us us' : List (Label σ π ρ ε ω)}
    (h : Respects ok Inv (us ++ us')) : Respects ok Inv us := by
  intro pre l post hus
  exact h pre l (post ++ us') (by simp [hus])

variable {ok : Label σ π ρ ε ω → Prop} {Inv : List (Label σ π ρ ε ω) → σ → Multiset ρ → Prop}

/-- A step keeps the promise, which changes if the step is one of the outside. -/
theorem Step.custody {pre : List (Label σ π ρ ε ω)} {l : Label σ π ρ ε ω} (h : Step T c l d)
    (hT : Custody T ok (Inv pre))
    (huser : l.ofUser = true → l.Turns ok (Inv pre) (Inv (pre ++ [l])))
    (hc : Inv pre c.1 c.2) : ok l ∧ Inv (pre ++ [l].filter Label.ofUser) d.1 d.2 := by
  cases h with
  | issued s s' m p r h => simpa [Label.ofUser] using hT.issued h hc
  | refused s s' m p e h => simpa [Label.ofUser] using hT.refused h hc
  | redeemed s s' m r out h => simpa [Label.ofUser] using hT.redeemed h hc
  | adjusted s m f => exact huser rfl s m hc
  | minted s m r => exact huser rfl s m hc
  | burned s m r => exact huser rfl s _ hc

/-- **The custody rule**: what the object keeps and the outside respects holds at the end of
every run, and every label of the run satisfies `ok`. -/
theorem Run.custody (hT : ∀ pre, Custody T ok (Inv pre)) (h : Run T c ls d)
    (huser : Respects ok Inv (ls.filter Label.ofUser)) (hc : Inv [] c.1 c.2) :
    Inv (ls.filter Label.ofUser) d.1 d.2 ∧ ∀ l ∈ ls, ok l := by
  induction h with
  | nil => exact ⟨hc, by simp⟩
  | @snoc d e ls l _ hstep ih =>
    rw [List.filter_append] at huser ⊢
    obtain ⟨hd, hok⟩ := ih huser.of_prefix
    obtain ⟨hl, he⟩ := hstep.custody (hT _) (fun hl => huser _ l [] (by simp [hl])) hd
    refine ⟨he, fun l' hl' => ?_⟩
    rcases List.mem_append.mp hl' with hold | hlast
    · exact hok l' hold
    · rw [List.mem_singleton.mp hlast]
      exact hl

end Runs

end Tokens
