import FlagBearer.Queue.Replay

/-!
# Where Params Come From

Params wander between a future, the list, a removed node and the locals of a section. If a
refused `S::acquire` returns the params it was given, each of these places holds the params
that the request was created with; it holds none only if an `S::acquire` call on behalf of
that request unwound.

## Main results

- `Keeps.move`: what a request keeps after a move it kept before, or its origin is recorded
- `Reachable.origin`: the statement about runs
-/

namespace FlagBearer

open PinList

variable {ι κ W S O : Type} [SemaphoreState S] {C : Closeability} {own : Option ι}

/-! ## What a request keeps -/

/-- The params that are kept for the request `i`, or the gap where they were. -/
inductive Keeps (c : Conf ι κ W S O) (i : ι) : Option (Params S) → Prop where
  | initial {p : Params S} (hi : c.1.slots i = .live ⟨.initial, some p⟩) : Keeps c i (some p)
  | queued {params : Option (Params S)} {x : W} (hmem : (i, params, x) ∈ c.1.inner.entries) :
      Keeps c i params
  | removed {params : Option (Params S)}
      (hi : c.1.slots i = .live ⟨.removed (.error params), none⟩) : Keeps c i params
  | asking {p : Params S} {front : Option Bool} (hh : c.2 = .params i p front)
      (hi : c.1.slots i ≠ .gone) : Keeps c i (some p)
  | returning {p : Params S} (hh : c.2 = .returning i p) : Keeps c i (some p)

/-- The event that explains what is kept. -/
def Origin (i : ι) (log : List (Event ι κ W S)) : Option (Params S) → Prop
  | some p => .created i p ∈ log
  | none => ∃ p, .acquired i p .panicked ∈ log

theorem Origin.append {i : ι} {log es : List (Event ι κ W S)} {params : Option (Params S)}
    (h : Origin i log params) : Origin i (log ++ es) params := by
  cases params with
  | some p => exact List.mem_append_left es h
  | none =>
    obtain ⟨p, hp⟩ := h
    exact ⟨p, List.mem_append_left es hp⟩

/-- Everything that is kept has an origin. -/
def Provenance (c : Conf ι κ W S O) : Prop := ∀ i params, Keeps c i params → Origin i c.1.log params

/-! ## The five places -/

section Places

variable {c d : Conf ι κ W S O}

/-- Params in a slot are new only with an origin. -/
def SlotsFrom (c d : Conf ι κ W S O) : Prop :=
  ∀ i a, d.1.slots i = .live a → c.1.slots i ≠ .live a →
    (∀ p, a = ⟨.initial, some p⟩ → Origin i d.1.log (some p)) ∧
      ∀ params, a = ⟨.removed (.error params), none⟩ → Origin i d.1.log params

/-- Params in the list are new only with an origin. -/
def EntriesFrom (c d : Conf ι κ W S O) : Prop :=
  ∀ i params x, (i, params, x) ∈ d.1.inner.entries →
    (∃ y, (i, params, y) ∈ c.1.inner.entries) ∨ Origin i d.1.log params

/-- Params in the locals of a section are new only with an origin. -/
def HandFrom (c d : Conf ι κ W S O) : Prop :=
  (∀ i p front, d.2 = .params i p front → d.1.slots i ≠ .gone →
      (∃ front', c.2 = .params i p front' ∧ c.1.slots i ≠ .gone) ∨ Origin i d.1.log (some p)) ∧
    ∀ i p, d.2 = .returning i p → c.2 = .returning i p ∨ Origin i d.1.log (some p)

theorem Provenance.of_places (hc : Provenance c)
    (hlog : ∀ i params, Origin i c.1.log params → Origin i d.1.log params)
    (hslots : SlotsFrom c d) (hentries : EntriesFrom c d) (hhand : HandFrom c d) :
    Provenance d := by
  intro i params hk
  -- what is kept now was kept in the same place before, or it is new there
  cases hk with
  | @initial p hi =>
    by_cases hsame : c.1.slots i = .live ⟨.initial, some p⟩
    · exact hlog i _ (hc i _ (.initial hsame))
    · exact (hslots i _ hi hsame).1 p rfl
  | queued hmem =>
    rcases hentries i _ _ hmem with ⟨y, hmem'⟩ | ho
    · exact hlog i _ (hc i _ (.queued hmem'))
    · exact ho
  | removed hi =>
    by_cases hsame : c.1.slots i = .live ⟨.removed (.error params), none⟩
    · exact hlog i _ (hc i _ (.removed hsame))
    · exact (hslots i _ hi hsame).2 _ rfl
  | asking hh hi =>
    rcases hhand.1 i _ _ hh hi with ⟨front', hh', hi'⟩ | ho
    · exact hlog i _ (hc i _ (.asking hh' hi'))
    · exact ho
  | returning hh =>
    rcases hhand.2 i _ hh with hh' | ho
    · exact hlog i _ (hc i _ (.returning hh'))
    · exact ho

theorem SlotsFrom.same (hslots : d.1.slots = c.1.slots) : SlotsFrom c d := by
  intro i a hd hne
  rw [hslots] at hd
  exact absurd hd hne

theorem SlotsFrom.update [DecidableEq ι] {j : ι} {x : Slot S}
    (hslots : d.1.slots = Function.update c.1.slots j x)
    (hinitial : ∀ p, x = .live ⟨.initial, some p⟩ → Origin j d.1.log (some p))
    (hremoved : ∀ params, x = .live ⟨.removed (.error params), none⟩ → Origin j d.1.log params) :
    SlotsFrom c d := by
  intro i a hd hne
  by_cases hij : i = j
  · subst hij
    rw [hslots, Function.update_self] at hd
    constructor
    · intro p ha
      exact hinitial p (ha ▸ hd)
    · intro params ha
      exact hremoved params (ha ▸ hd)
  · rw [hslots, Function.update_of_ne hij] at hd
    exact absurd hd hne

theorem EntriesFrom.same (hq : d.1.inner.queue = c.1.inner.queue) : EntriesFrom c d := by
  intro i params x hmem
  have hentries : d.1.inner.entries = c.1.inner.entries := by
    simp only [QueueState.entries, hq]
  exact Or.inl ⟨x, hentries ▸ hmem⟩

/-- One node left the list. -/
theorem EntriesFrom.remove {before after : WaitList ι W S} {e : ι × Protected W S}
    (hq : c.1.inner.queue = .ok (before ++ e :: after))
    (hq' : d.1.inner.queue = .ok (before ++ after)) : EntriesFrom c d := by
  intro i params x hmem
  rw [QueueState.entries_of_queue hq'] at hmem
  rw [QueueState.entries_of_queue hq]
  exact Or.inl ⟨x, mem_split.mpr (Or.inr hmem)⟩

/-- The first node left the list. -/
theorem EntriesFrom.head {rest : WaitList ι W S} {e : ι × Protected W S}
    (hq : c.1.inner.queue = .ok (e :: rest)) (hq' : d.1.inner.queue = .ok rest) :
    EntriesFrom c d := by
  intro i params x hmem
  rw [QueueState.entries_of_queue hq'] at hmem
  rw [QueueState.entries_of_queue hq]
  exact Or.inl ⟨x, List.mem_cons_of_mem e hmem⟩

/-- One node has other data. -/
theorem EntriesFrom.replace {before after : WaitList ι W S} {j : ι}
    {params params' : Option (Params S)} {x x' : W}
    (hq : c.1.inner.queue = .ok (before ++ (j, params, x) :: after))
    (hq' : d.1.inner.queue = .ok (before ++ (j, params', x') :: after))
    (hnew : params' = params ∨ Origin j d.1.log params') : EntriesFrom c d := by
  intro i q y hmem
  rw [QueueState.entries_of_queue hq'] at hmem
  rw [QueueState.entries_of_queue hq]
  rcases mem_split.mp hmem with heq | hold
  · cases heq
    rcases hnew with rfl | ho
    · exact Or.inl ⟨x, mem_split.mpr (Or.inl rfl)⟩
    · exact Or.inr ho
  · exact Or.inl ⟨y, mem_split.mpr (Or.inr hold)⟩

theorem HandFrom.same (hhand : d.2 = c.2) (hslots : d.1.slots = c.1.slots) : HandFrom c d := by
  constructor
  · intro i p front hh hi
    exact Or.inl ⟨front, hhand ▸ hh, by rwa [← hslots]⟩
  · intro i p hh
    exact Or.inl (hhand ▸ hh)

/-- The slot of a live future changed. -/
theorem HandFrom.update [DecidableEq ι] {j : ι} {x : Slot S} (hhand : d.2 = c.2)
    (hslots : d.1.slots = Function.update c.1.slots j x) (hj : c.1.slots j ≠ .gone) :
    HandFrom c d := by
  constructor
  · intro i p front hh hi
    refine Or.inl ⟨front, hhand ▸ hh, ?_⟩
    by_cases hij : i = j
    · subst hij
      exact hj
    · rwa [hslots, Function.update_of_ne hij] at hi
  · intro i p hh
    exact Or.inl (hhand ▸ hh)

theorem HandFrom.none (hasking : ∀ i p front, d.2 ≠ .params i p front)
    (hreturning : ∀ i p, d.2 ≠ .returning i p) : HandFrom c d :=
  ⟨fun i p front hh => absurd hh (hasking i p front), fun i p hh => absurd hh (hreturning i p)⟩

/-- The section took params out of the future or the list, to return them. -/
theorem HandFrom.ofParams {j : ι} {params : Option (Params S)}
    (hhand : d.2 = .ofParams j params) (ho : Origin j d.1.log params) : HandFrom c d := by
  cases params with
  | none => exact HandFrom.none (by simp [hhand, Hand.ofParams]) (by simp [hhand, Hand.ofParams])
  | some q =>
    refine ⟨by simp [hhand, Hand.ofParams], ?_⟩
    intro i p hh
    rw [hhand] at hh
    cases hh
    exact Or.inr ho

end Places

/-! ## Moves -/

/-- A log that has grown. -/
theorem origin_mono {log es : List (Event ι κ W S)} :
    ∀ (i : ι) (params : Option (Params S)), Origin i log params → Origin i (log ++ es) params :=
  fun _ _ h => h.append

theorem Provenance.move [DecidableEq ι] [DecidableEq κ] [Order O]
    (hret : ReturnsParams S) {c d : Conf ι κ W S O} (hc : Provenance c)
    (h : Move C own c d) : Provenance d := by
  cases h with
  -- no place changes
  | lock w h | unlock w h | setClosed w h | begin w h k | turn w h k =>
    exact hc.of_places (fun _ _ ho => ho) (.same rfl) (.same rfl) (.same rfl rfl)
  | note w h | pollPanic w h | update w h | clearPoison w h | wake w h | finish w h =>
    exact hc.of_places origin_mono (.same rfl) (.same rfl) (.same rfl rfl)
  | discard w h hclosed hq =>
    refine hc.of_places (fun _ _ ho => ho) (.same rfl) ?_ (.same rfl rfl)
    intro i params x hmem
    cases hmem
  | create w i p hi =>
    -- the params are new, and so is their origin
    have hnew : ∀ q, Slot.live ⟨.initial, some p⟩ = .live ⟨.initial, some q⟩ →
        Origin i (w.log ++ [.created i p]) (some q) := by
      intro q hq
      cases hq
      simp [Origin]
    exact hc.of_places origin_mono (.update rfl hnew (by simp)) (.same rfl)
      (.none (by simp) (by simp))
  -- a slot is emptied
  | conjure w i r hi =>
    exact hc.of_places origin_mono (.update rfl (by simp) (by simp)) (.same rfl)
      (.none (by simp) (by simp))
  | claim w i r hi =>
    exact hc.of_places origin_mono (.update rfl (by simp) (by simp)) (.same rfl)
      (.none (by simp) (by simp))
  | cancelInitial w i params hi =>
    exact hc.of_places origin_mono (.update rfl (by simp) (by simp)) (.same rfl)
      (.none (by simp) (by simp))
  | cancelGranted w i r hi =>
    exact hc.of_places (fun _ _ ho => ho.append.append) (.update rfl (by simp) (by simp))
      (.same rfl) (.none (by simp) (by simp))
  | cancelRefused w k i params c hi =>
    exact hc.of_places (fun _ _ ho => ho.append.append) (.update rfl (by simp) (by simp))
      (.same rfl) (.none (by simp) (by simp))
  | cancelLinked w k i params x before after c hq hi =>
    exact hc.of_places origin_mono (.update rfl (by simp) (by simp)) (.remove hq rfl)
      (.none (by simp) (by simp))
  | ask w i p hi =>
    -- from the future to the section
    have ho : Origin i w.log (some p) := hc i _ (.initial hi)
    refine hc.of_places (fun _ _ ho => ho) (.update rfl (by simp) (by simp)) (.same rfl)
      ⟨?_, by simp⟩
    intro j q front hh _
    cases hh
    exact Or.inr ho
  | askTry w i p hi =>
    refine hc.of_places (fun _ _ ho => ho) (.update rfl (by simp) (by simp)) (.same rfl)
      ⟨?_, by simp⟩
    intro j q front hh hgone
    cases hh
    simp at hgone
  | consult w i p order front hopen hord =>
    -- the section keeps them, with the decision
    refine hc.of_places origin_mono (.same rfl) (.same rfl) ⟨?_, by simp⟩
    intro j q front' hh hi
    cases hh
    exact Or.inl ⟨none, rfl, hi⟩
  | refuseNow w i p p' front state hopen hlead hacq =>
    -- the refused `acquire` gave back the same params
    have hp : p' = p := hret _ _ _ _ hacq
    subst hp
    refine hc.of_places origin_mono (.same rfl) (.same rfl) ⟨?_, by simp⟩
    intro j q front' hh hi
    cases hh
    exact Or.inl ⟨front, rfl, hi⟩
  | consultPanic w i p | grantNow w i p | loseNow w i p | reject w i p | giveBack w i p
    | deliver w i r | deliverTry w i p | takePermit w i r | release w who i r =>
    exact hc.of_places origin_mono (.same rfl) (.same rfl) (.none (by simp) (by simp))
  | takeGuard w i r hi =>
    exact hc.of_places (fun _ _ ho => ho) (.same rfl) (.same rfl) (.none (by simp) (by simp))
  | link w i p cx front queue hopen hq hi =>
    -- from the section to the list
    have ho : Origin i w.log (some p) := hc i _ (.asking rfl (by simp [hi]))
    refine hc.of_places origin_mono (.update rfl (by simp) (by simp)) ?_
      (.none (by simp) (by simp))
    intro j params x hmem
    rw [QueueState.entries_of_queue hq]
    have hnew : (j, params, x) ∈ queue ∨ j = i ∧ params = some p := by
      cases front <;> simp [pushFront, pushBack] at hmem <;> tauto
    rcases hnew with hold | ⟨rfl, rfl⟩
    · exact Or.inl ⟨x, hold⟩
    · exact Or.inr ho.append
  | grant w h k i p x r state before after c wakes hopen hq hdead hi =>
    exact hc.of_places origin_mono (.update rfl (by simp) (by simp)) (.remove hq rfl)
      (.update rfl rfl (by simp [hi]))
  | refuse w h i p p' x state before after hopen hq hdead hacq =>
    have hp : p' = p := hret _ _ _ _ hacq
    exact hc.of_places origin_mono (.same rfl) (.replace hq rfl (Or.inl (by rw [hp])))
      (.same rfl rfl)
  | lose w h i p x state before after hopen hq =>
    -- the gap is new, and so is the panic that explains it
    exact hc.of_places origin_mono (.same rfl)
      (.replace hq rfl (Or.inr ⟨p, by simp⟩)) (.same rfl rfl)
  | rewake w i params x cx before after res hq =>
    exact hc.of_places origin_mono (.same rfl) (.replace hq rfl (Or.inl rfl))
      (.none (by simp) (by simp))
  | expel w h k i params x rest c wakes hclosed hq hi =>
    -- from the list to the removed node
    have ho : Origin i w.log params :=
      hc i _ (.queued (x := x) (by simp [QueueState.entries_of_queue hq]))
    have hnew : ∀ q, Slot.live ⟨.removed (.error params), none⟩ =
        (.live ⟨.removed (.error q), none⟩ : Slot S) →
          Origin i (w.log ++ [.removed k .close i x]) q := by
      intro q hq
      cases hq
      exact ho.append
    exact hc.of_places origin_mono (.update rfl (by simp) hnew) (.head hq rfl)
      (.update rfl rfl (by simp [hi]))
  | unlinkSelf w i params x before after hclosing hq hi =>
    -- from the list to the section
    have ho : Origin i w.log params :=
      hc i _ (.queued (x := x) (by simp [QueueState.entries_of_queue hq]))
    exact hc.of_places origin_mono (.update rfl (by simp) (by simp)) (.remove hq rfl)
      (.ofParams rfl ho.append)
  | claimError w i params hi =>
    -- from the removed node to the section
    have ho : Origin i w.log params := hc i _ (.removed hi)
    exact hc.of_places origin_mono (.update rfl (by simp) (by simp)) (.same rfl)
      (.ofParams rfl ho.append)

/-! ## Runs -/

/-- **What is kept for a request has an origin**: the params it was created with, or a call of
`S::acquire` on its behalf that unwound. -/
theorem Reachable.origin [DecidableEq ι] [DecidableEq κ] [DecidableEq W] [Order O]
    (hret : ReturnsParams S) {state : S} {order : O} {w : World ι κ W S O}
    (h : Reachable C state order w) {i : ι} {params : Option (Params S)}
    (hk : Keeps (w, (.empty : Hand ι S)) i params) : Origin i w.log params := by
  have hinv : Provenance (w, (.empty : Hand ι S)) := by
    apply Reachable.invariant_of_moves _ ?_ ?_ h
    · intro c d _ hc _ hm
      exact hc.move hret hm
    · intro i params hk
      cases hk with
      | initial hi => cases hi
      | queued hmem => cases hmem
      | removed hi => cases hi
      | asking hh => cases hh
      | returning hh => cases hh
  exact hinv i params hk

end FlagBearer
