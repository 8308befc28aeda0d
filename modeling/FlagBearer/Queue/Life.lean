import FlagBearer.Queue.Runs

/-!
# The Life of a Request

A request asks once, may be queued, is decided once (granted or refused for good), and its
result is extracted once. Nothing brings it back to an earlier phase.

## Main results

- `Decided.move`, `Resolved.move`: the phases are stable
- `Consistent.move`: what a section holds in its locals has left the future
-/

namespace FlagBearer

open PinList

variable {ι κ W S O : Type} [SemaphoreState S] {C : Closeability} {own : Option ι}

/-! ## Phases -/

/-- Nothing is left in the future: it is gone, or its result was extracted. -/
def Slot.Spent : Slot S → Prop
  | .unborn => False
  | .live a => a.node = .initial ∧ a.params = none
  | .gone => True

@[simp] theorem Slot.spent_gone : (Slot.gone : Slot S).Spent := trivial

@[simp] theorem Slot.spent_unborn : ¬ (Slot.unborn : Slot S).Spent := id

@[simp] theorem Slot.spent_live (a : Acquire S) :
    (Slot.live a).Spent ↔ a.node = .initial ∧ a.params = none := Iff.rfl

/-- A section is asking on behalf of `i`. -/
def Hand.Asks (i : ι) : Hand ι S → Prop
  | .params j _ _ => j = i
  | _ => False

@[simp] theorem Hand.asks_params (i j : ι) (p : Params S) (front : Option Bool) :
    (Hand.params j p front).Asks i ↔ j = i := Iff.rfl

@[simp] theorem Hand.asks_empty (i : ι) : ¬ (Hand.empty : Hand ι S).Asks i := id

@[simp] theorem Hand.asks_returning (i j : ι) (p : Params S) :
    ¬ (Hand.returning j p).Asks i := id

@[simp] theorem Hand.asks_permit (i j : ι) (r : Permit S) : ¬ (Hand.permit j r).Asks i := id

@[simp] theorem Hand.asks_releasing (i j : ι) (who : Releaser) (r : Permit S) :
    ¬ (Hand.releasing who j r).Asks i := id

@[simp] theorem Hand.asks_ofParams (i j : ι) (params : Option (Params S)) :
    ¬ (Hand.ofParams j params).Asks i := by
  cases params <;> exact id

/-- A section holds params or a permit of `i` on behalf of its caller. -/
def Hand.Holds (i : ι) : Hand ι S → Prop
  | .params j _ _ => j = i
  | .returning j _ => j = i
  | .permit j _ => j = i
  | _ => False

theorem Hand.Asks.holds {i : ι} {h : Hand ι S} (hi : h.Asks i) : h.Holds i := by
  cases h <;> first | exact hi | exact absurd hi id

theorem Hand.holds_ofParams {i j : ι} {params : Option (Params S)}
    (hi : (Hand.ofParams j params).Holds i) : j = i := by
  cases params <;> first | exact hi | exact absurd hi id

/-- Only a future that gave away its params or its result has them held by a section. -/
def Consistent (c : Conf ι κ W S O) : Prop := ∀ i, c.2.Holds i → (c.1.slots i).Spent

/-- The result of `i` left the future, or `i` was turned away. -/
def Resolved (i : ι) (c : Conf ι κ W S O) : Prop := (c.1.slots i).Spent ∧ ¬ c.2.Asks i

/-- `i` was granted or refused for good; the result may still lie in its node. -/
def Decided (i : ι) (c : Conf ι κ W S O) : Prop :=
  Resolved i c ∨ ∃ r, c.1.slots i = .live ⟨.removed r, none⟩

/-! ## Stability -/

theorem Consistent.move [DecidableEq ι] [DecidableEq κ] [Order O]
    {c d : Conf ι κ W S O} (hc : Consistent c) (h : Move C own c d) :
    Consistent d := by
  intro i hi
  cases h with
  -- the move fills the hand, and empties the future of its owner
  | ask w j p hj =>
    have hji : j = i := hi
    subst hji
    simp
  | askTry w j p hj =>
    have hji : j = i := hi
    subst hji
    simp
  | unlinkSelf w j params =>
    have hji : j = i := Hand.holds_ofParams hi
    subst hji
    simp
  | claim w j r hj =>
    have hji : j = i := hi
    subst hji
    simp
  | claimError w j params =>
    have hji : j = i := Hand.holds_ofParams hi
    subst hji
    simp
  | lock w h | unlock w h | note w h | pollPanic w h | setClosed w h | discard w h
    | refuse w h | lose w h | update w h | clearPoison w h | begin w h | turn w h
    | wake w h | finish w h => exact hc i hi
  | consult w j p order front hopen hord => exact hc i hi
  | refuseNow w j p p' front state hopen hlead hacq => exact hc i hi
  | grantNow w j p r front state hopen hlead hacq => exact hc i hi
  -- the drain changes linked nodes only, and these are not spent
  | grant w h k j p x r state before after c wakes hopen hq hdead hj =>
    have hspent := hc i hi
    by_cases hij : i = j
    · subst hij
      simp [hj] at hspent
    · simpa [hij] using hspent
  | expel w h k j params x rest c wakes hclosed hq hj =>
    have hspent := hc i hi
    by_cases hij : i = j
    · subst hij
      simp [hj] at hspent
    · simpa [hij] using hspent
  | _ => exact absurd hi id

/-- A resolved request is none whose future still holds something. -/
theorem Resolved.ne {w : World ι κ W S O} {h : Hand ι S} {i j : ι} (hr : Resolved i (w, h))
    (hj : ¬ (w.slots j).Spent) : i ≠ j := by
  intro hij
  subst hij
  exact hj hr.1

/-- A request stays resolved when the slot of another one changes. -/
theorem Resolved.other [DecidableEq ι]
    {w w' : World ι κ W S O} {h h' : Hand ι S} {i j : ι} {x : Slot S}
    (hr : Resolved i (w, h)) (hij : i ≠ j) (hslots : w'.slots = Function.update w.slots j x)
    (hask : ¬ h'.Asks i) : Resolved i (w', h') := by
  have hspent := hr.1
  constructor
  · simpa [hslots, hij] using hspent
  · exact hask

theorem Resolved.move [DecidableEq ι] [DecidableEq κ] [Order O]
    {c d : Conf ι κ W S O} {i : ι} (hc : Resolved i c) (h : Move C own c d) :
    Resolved i d := by
  cases h with
  -- the slots of other requests change
  | create w j p hj => exact hc.other (hc.ne (by simp [hj])) rfl id
  | conjure w j r hj => exact hc.other (hc.ne (by simp [hj])) rfl id
  | ask w j p hj =>
    have hij : i ≠ j := hc.ne (by simp [hj])
    exact hc.other hij rfl (Ne.symm hij)
  | askTry w j p hj =>
    have hij : i ≠ j := hc.ne (by simp [hj])
    exact hc.other hij rfl (Ne.symm hij)
  | link w j p cx front queue hopen hq hj =>
    -- `i` does not ask, `j` does
    have hij : i ≠ j := fun hij => hc.2 hij.symm
    exact hc.other hij rfl id
  | grant w h k j p x r state before after c wakes hopen hq hdead hj =>
    exact hc.other (hc.ne (by simp [hj])) rfl hc.2
  | expel w h k j params x rest c wakes hclosed hq hj =>
    exact hc.other (hc.ne (by simp [hj])) rfl hc.2
  | unlinkSelf w j params x before after hclosing hq hj =>
    exact hc.other (hc.ne (by simp [hj])) rfl (Hand.asks_ofParams i j params)
  | claim w j r hj => exact hc.other (hc.ne (by simp [hj])) rfl id
  | claimError w j params hj =>
    exact hc.other (hc.ne (by simp [hj])) rfl (Hand.asks_ofParams i j params)
  | cancelLinked w k j params x before after c hq hj =>
    exact hc.other (hc.ne (by simp [hj])) rfl id
  | cancelGranted w j r hj => exact hc.other (hc.ne (by simp [hj])) rfl id
  | cancelRefused w k j params c hj => exact hc.other (hc.ne (by simp [hj])) rfl id
  | cancelInitial w j params hj =>
    -- only this one may be about `i` itself, whose future is dropped
    by_cases hij : i = j
    · subst hij
      exact ⟨by simp, id⟩
    · exact hc.other hij rfl id
  | lock w h | unlock w h | note w h | pollPanic w h | setClosed w h | discard w h
    | refuse w h | lose w h | update w h | clearPoison w h | begin w h | turn w h
    | wake w h | finish w h => exact hc
  | consult w j p order front hopen hord => exact hc
  | refuseNow w j p p' front state hopen hlead hacq => exact hc
  | _ => exact ⟨hc.1, id⟩

theorem Decided.move [DecidableEq ι] [DecidableEq κ] [Order O]
    {c d : Conf ι κ W S O} {i : ι} (hc : Decided i c) (h : Move C own c d) :
    Decided i d := by
  rcases hc with hr | ⟨r, hi⟩
  · exact Or.inl (hr.move h)
  -- the node holds a result; only a claim or a cancellation of `i` changes that
  have other {w' : World ι κ W S O} {h' : Hand ι S} {j : ι} {x : Slot S}
      (hslots : w'.slots = Function.update c.1.slots j x)
      (hj : c.1.slots j ≠ .live ⟨.removed r, none⟩) : Decided i (w', h') := by
    have hij : i ≠ j := by
      intro hij
      subst hij
      exact hj hi
    exact Or.inr ⟨r, by simp [hslots, hij, hi]⟩
  have spend {w' : World ι κ W S O} {h' : Hand ι S} {j : ι} {x : Slot S}
      (hslots : w'.slots = Function.update c.1.slots j x) (hx : x.Spent) (hh : ¬ h'.Asks i) :
      Decided i (w', h') := by
    by_cases hij : i = j
    · subst hij
      exact Or.inl ⟨by simpa [hslots] using hx, hh⟩
    · exact Or.inr ⟨r, by simp [hslots, hij, hi]⟩
  cases h with
  | create w j p hj => exact other rfl (by simp [hj])
  | conjure w j r' hj => exact other rfl (by simp [hj])
  | ask w j p hj => exact other rfl (by simp [hj])
  | askTry w j p hj => exact other rfl (by simp [hj])
  | link w j p cx front queue hopen hq hj => exact other rfl (by simp [hj])
  | grant w h k j p x r' state before after c wakes hopen hq hdead hj =>
    exact other rfl (by simp [hj])
  | expel w h k j params x rest c wakes hclosed hq hj => exact other rfl (by simp [hj])
  | unlinkSelf w j params x before after hclosing hq hj => exact other rfl (by simp [hj])
  | claim w j r' hj => exact spend rfl ⟨rfl, rfl⟩ id
  | claimError w j params hj => exact spend rfl ⟨rfl, rfl⟩ (Hand.asks_ofParams i j params)
  | cancelInitial w j params hj => exact spend rfl trivial id
  | cancelLinked w k j params x before after c hq hj => exact spend rfl trivial id
  | cancelGranted w j r' hj => exact spend rfl trivial id
  | cancelRefused w k j params c hj => exact spend rfl trivial id
  | _ => exact Or.inr ⟨r, hi⟩

/-- A linked request has not been decided. -/
theorem not_decided_of_linked {c : Conf ι κ W S O} {i : ι}
    (hi : c.1.slots i = .live ⟨.linked, none⟩) : ¬ Decided i c := by
  intro hdecided
  rcases hdecided with ⟨hspent, -⟩ | ⟨r, hr⟩
  · simp [hi] at hspent
  · simp [hi] at hr

/-- A request that is asking has not been decided. -/
theorem not_decided_of_asks {c : Conf ι κ W S O} (hcon : Consistent c) {i : ι}
    (hask : c.2.Asks i) : ¬ Decided i c := by
  intro hdecided
  rcases hdecided with ⟨-, hnot⟩ | ⟨r, hr⟩
  · exact hnot hask
  · have hspent := hcon i hask.holds
    simp [hr] at hspent

/-- What a section holds on behalf of `i` is not in the list. -/
theorem Consistent.not_linked {c : Conf ι κ W S O} (hcon : Consistent c) {i : ι}
    (hi : c.2.Holds i) : c.1.slots i ≠ .live ⟨.linked, none⟩ := by
  intro hlinked
  have hspent := hcon i hi
  simp [hlinked] at hspent

theorem not_resolved_of_removed {c : Conf ι κ W S O} {i : ι} {r : Removed S}
    (hi : c.1.slots i = .live ⟨.removed r, none⟩) : ¬ Resolved i c := by
  intro hresolved
  have hspent := hresolved.1
  simp [hi] at hspent

/-! ## Events that happen once -/

/-- Events of a kind happen at most once, and not before a phase is reached. -/
def Once (kind : Event ι κ W S → Bool) (Reached : Conf ι κ W S O → Prop)
    (c : Conf ι κ W S O) : Prop :=
  c.1.log.countP kind ≤ 1 ∧ (¬ Reached c → c.1.log.countP kind = 0)

section Once

variable {kind : Event ι κ W S → Bool} {Reached : Conf ι κ W S O → Prop} {c d : Conf ι κ W S O}

/-- A move without an event of the kind. -/
theorem Once.frame (hc : Once kind Reached c) (hstable : Reached c → Reached d)
    (hlog : d.1.log.countP kind = c.1.log.countP kind) : Once kind Reached d := by
  unfold Once
  rw [hlog]
  exact ⟨hc.1, fun hd => hc.2 fun h => hd (hstable h)⟩

/-- The move that reaches the phase. -/
theorem Once.mark (hc : Once kind Reached c) (hbefore : ¬ Reached c) (hafter : Reached d)
    (hlog : d.1.log.countP kind = c.1.log.countP kind + 1) : Once kind Reached d := by
  constructor
  · simp [hlog, hc.2 hbefore]
  · intro hd
    exact absurd hafter hd

theorem Once.start (w : World ι κ W S O) (h : w.log = []) :
    Once kind Reached (w, (.empty : Hand ι S)) := by
  simp [Once, h]

end Once

/-- Nobody asks when a run starts. -/
theorem Consistent.start (w : World ι κ W S O) : Consistent (w, (.empty : Hand ι S)) :=
  fun _ hask => absurd hask id

end FlagBearer
