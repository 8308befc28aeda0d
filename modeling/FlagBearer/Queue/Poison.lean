import FlagBearer.Queue.Closing

/-!
# Poisoning

A panic out of user code that may leave the state half-updated poisons the queue:
`PoisonOnUnwind` guards the calls of `S::acquire`, `S::release` and the `with_state` closures.
The flag is a function of the history, and from a poisoned state on nothing is admitted until
`clear_poison` is called.

## Main results

- `Flagged.move`: the flag is what the history says
- `Frozen.grow`: what can happen to a poisoned queue
- `poison_is_sticky`: the statement about runs
-/

namespace FlagBearer

open PinList History

variable {ι κ W S O : Type} [SemaphoreState S] {C : Closeability} {own : Option ι}

/-! ## The flag -/

/-- What an event does to the poison flag. -/
def Event.poison (flag : Bool) : Event ι κ W S → Bool
  | .acquired _ _ res => flag || res.isPanicked
  | .released _ _ _ res => flag || res.isPanicked
  | .updated res => flag || res.isPanicked
  | .cleared => false
  | _ => flag

/-- The flag after the events of a history. -/
def poisonedBy (log : List (Event ι κ W S)) : Bool := log.foldl Event.poison false

@[simp] theorem poisonedBy_append (log es : List (Event ι κ W S)) :
    poisonedBy (log ++ es) = es.foldl Event.poison (poisonedBy log) := by
  simp [poisonedBy]

/-- The flag is what the history says. -/
def Flagged (c : Conf ι κ W S O) : Prop := c.1.inner.poisoned = poisonedBy c.1.log

theorem Flagged.move [DecidableEq ι] [DecidableEq κ] [Order O]
    {c d : Conf ι κ W S O} (hc : Flagged c) (h : Move C own c d) :
    Flagged d := by
  unfold Flagged at hc ⊢
  cases h with
  | note w h e he | reject w i p front e he | giveBack w i p e he =>
    cases he <;> simpa [Event.poison] using hc
  -- the calls under `PoisonOnUnwind`
  | refuseNow w i p p' front state => simpa [Event.poison] using hc
  | grantNow w i p r front state => simpa [Event.poison] using hc
  | grant w h k i p x r state => simpa [Event.poison] using hc
  | refuse w h i p p' x state => simpa [Event.poison] using hc
  | loseNow w i p front state => simp [Event.poison]
  | lose w h i p x state => simp [Event.poison]
  | release w who i r => simp [World.callRelease, Event.poison, ← hc]
  | update w h f => simp [World.updateState, Event.poison, ← hc]
  | clearPoison w h => simp [Event.poison]
  | _ => simpa [Event.poison] using hc

theorem Reachable.flagged [DecidableEq ι] [DecidableEq κ] [DecidableEq W] [Order O]
    {state : S} {order : O} {w : World ι κ W S O}
    (h : Reachable C state order w) : w.inner.poisoned = poisonedBy w.log := by
  apply Reachable.invariant_of_moves Flagged ?_ ?_ h
  · intro c d _ hc _ hm
    exact hc.move hm
  · rfl

/-! ## No admission while the flag is set -/

/-- An event that admits nothing if the history before it has set the flag. -/
def Spares (past : List (Event ι κ W S)) (e : Event ι κ W S) : Prop :=
  poisonedBy past = true → e.isAdmission = false

theorem spares_append {log es : List (Event ι κ W S)} (h : Each Spares log)
    (hes : ∀ e ∈ es, e.isAdmission = false) : Each Spares (log ++ es) := by
  apply each_append.mpr
  refine ⟨h, eachFrom_of_trivial ?_⟩
  intro e he past _
  exact hes e he

/-- The admission of an open queue. -/
theorem spares_open {log es : List (Event ι κ W S)} {e : Event ι κ W S} (h : Each Spares log)
    (hopen : poisonedBy log = false) (hes : ∀ e ∈ es, e.isAdmission = false) :
    Each Spares (log ++ e :: es) := by
  apply each_append.mpr
  refine ⟨h, ?_, ?_⟩
  · intro hpoison
    rw [hopen] at hpoison
    cases hpoison
  · apply eachFrom_of_trivial
    intro e' he' past _
    exact hes e' he'

theorem spares_move [DecidableEq ι] [DecidableEq κ] [Order O]
    {c d : Conf ι κ W S O} (hc : Each Spares c.1.log) (hflag : Flagged c)
    (h : Move C own c d) : Each Spares d.1.log := by
  -- a guard of the move: the queue is open
  have quiet (hopen : c.1.Open C) : poisonedBy c.1.log = false := by
    rw [← hopen.1]
    exact hflag.symm
  cases h with
  | lock | unlock | ask | askTry | setClosed | discard | takeGuard | begin | turn => exact hc
  | note w h e he | reject w i p front e he | giveBack w i p e he =>
    cases he <;> exact spares_append hc (by simp [Event.isAdmission])
  | refuseNow w i p p' front state hopen => exact spares_open hc (quiet hopen) (by simp)
  | grantNow w i p r front state hopen => exact spares_open hc (quiet hopen) (by simp)
  | loseNow w i p front state hopen => exact spares_open hc (quiet hopen) (by simp)
  | link w i p cx front queue hopen =>
    exact spares_open hc (quiet hopen) (by simp [Event.isAdmission])
  | grant w h k i p x r state before after c wakes hopen =>
    exact spares_open hc (quiet hopen) (by simp [Event.isAdmission])
  | refuse w h i p p' x state before after hopen => exact spares_open hc (quiet hopen) (by simp)
  | lose w h i p x state before after hopen => exact spares_open hc (quiet hopen) (by simp)
  | cancelGranted w i r =>
    exact spares_append (spares_append hc (by simp [Event.isAdmission]))
      (by simp [Event.isAdmission])
  | cancelRefused w k i params =>
    exact spares_append (spares_append hc (by simp [Event.isAdmission]))
      (by simp [Event.isAdmission])
  | _ => exact spares_append hc (by simp [Event.isAdmission])

theorem Reachable.spares [DecidableEq ι] [DecidableEq κ] [DecidableEq W] [Order O]
    {state : S} {order : O} {w : World ι κ W S O}
    (h : Reachable C state order w) : Each Spares w.log := by
  have hinv : Flagged (w, (.empty : Hand ι S)) ∧ Each Spares w.log := by
    apply Reachable.invariant_of_moves (fun c => Flagged c ∧ Each Spares c.1.log) ?_ ?_ h
    · intro c d _ hc _ hm
      exact ⟨hc.1.move hm, spares_move hc.2 hc.1 hm⟩
    · exact ⟨rfl, each_nil⟩
  exact hinv.2

/-! ## A poisoned queue -/

/-- Does the node `i` leave the list here? -/
def Event.leaves [DecidableEq ι] (i : ι) : Event ι κ W S → Bool
  | .removed _ _ j _ => j == i
  | .unlinked j => j == i
  | .cancelled j => j == i
  | _ => false

/-- The queued requests with their params, without the wakers. -/
def places (l : WaitList ι W S) : PinList ι (Option (Params S)) := l.map fun e => (e.1, e.2.1)

@[simp] theorem places_append (l l' : WaitList ι W S) :
    places (l ++ l') = places l ++ places l' := List.map_append

@[simp] theorem places_cons (i : ι) (params : Option (Params S)) (x : W) (l : WaitList ι W S) :
    places ((i, params, x) :: l) = (i, params) :: places l := rfl

@[simp] theorem ids_places (l : WaitList ι W S) : ids (places l) = ids l := by
  simp [places, ids]

variable [DecidableEq ι]

/-- A list without the nodes that leave it in `es`. -/
def without (l : PinList ι (Option (Params S))) (es : List (Event ι κ W S)) :
    PinList ι (Option (Params S)) :=
  l.filter fun e => !es.any (Event.leaves e.1)

theorem without_append (l : PinList ι (Option (Params S))) (es es' : List (Event ι κ W S)) :
    without l (es ++ es') = without (without l es) es' := by
  simp [without, List.filter_filter, Bool.and_comm]

/-- Events at which no node leaves. -/
theorem without_of_none {l : PinList ι (Option (Params S))} {es : List (Event ι κ W S)}
    (h : ∀ e ∈ es, ∀ i, e.leaves i = false) : without l es = l := by
  apply List.filter_eq_self.mpr
  intro e _
  have hany : es.any (Event.leaves e.1) = false := by
    apply List.any_eq_false.mpr
    intro e' he'
    simp [h e' he' e.1]
  simp [hany]

/-- One node leaves. -/
theorem without_of_one {l : PinList ι (Option (Params S))} {es : List (Event ι κ W S)} {i : ι}
    (h : ∀ j, es.any (Event.leaves j) = (i == j)) : without l es = l.remove i := by
  unfold without remove
  apply List.filter_congr
  intro e _
  rw [h e.1]
  by_cases hi : e.1 = i
  · simp [hi]
  · simp [hi, Ne.symm hi]

/-- A poisoned queue `w` and what it has become after the events `es`: it is poisoned,
`S::acquire` was not called and no node linked, no permit was granted, the list is that of `w`
without the nodes that left, and those left by cancellation or because the queue is closing. -/
structure Frozen (C : Closeability) (w : World ι κ W S O) (es : List (Event ι κ W S))
    (w' : World ι κ W S O) : Prop where
  poisoned : w'.inner.poisoned = true
  no_admission : ∀ e ∈ es, e.isAdmission = false
  no_grant : ∀ i r, w'.slots i = .live ⟨.removed (.ok r), none⟩ →
    w.slots i = .live ⟨.removed (.ok r), none⟩
  queue : places w'.inner.entries = without (places w.inner.entries) es
  leaving : ∀ i, ∀ e ∈ es, e.leaves i = true → e = .cancelled i ∨ w'.inner.closing C = true

/-- More events of a poisoned queue. -/
theorem Frozen.grow {w u u' : World ι κ W S O} {es new : List (Event ι κ W S)}
    (h : Frozen C w es u) (hpoison : u'.inner.poisoned = true)
    (hnew : ∀ e ∈ new, e.isAdmission = false)
    (hslots : ∀ i r, u'.slots i = .live ⟨.removed (.ok r), none⟩ →
      u.slots i = .live ⟨.removed (.ok r), none⟩)
    (hqueue : places u'.inner.entries = without (places u.inner.entries) new)
    (hclosing : u.inner.closing C = true → u'.inner.closing C = true)
    (hleaving : ∀ i, ∀ e ∈ new, e.leaves i = true →
      e = .cancelled i ∨ u'.inner.closing C = true) : Frozen C w (es ++ new) u' := by
  constructor
  case poisoned => exact hpoison
  case no_admission =>
    intro e he
    rcases List.mem_append.mp he with hold | hrecent
    · exact h.no_admission e hold
    · exact hnew e hrecent
  case no_grant =>
    intro i r hi
    exact h.no_grant i r (hslots i r hi)
  case queue => rw [hqueue, h.queue, without_append]
  case leaving =>
    intro i e he hleaves
    rcases List.mem_append.mp he with hold | hrecent
    · rcases h.leaving i e hold hleaves with hcancelled | hclosing'
      · exact Or.inl hcancelled
      · exact Or.inr (hclosing hclosing')
    · exact hleaving i e hrecent hleaves

/-- Events at which no node leaves the list. -/
theorem Frozen.frame {w u u' : World ι κ W S O} {es new : List (Event ι κ W S)}
    (h : Frozen C w es u) (hpoison : u'.inner.poisoned = true)
    (hnew : ∀ e ∈ new, e.isAdmission = false ∧ ∀ i, e.leaves i = false)
    (hslots : ∀ i r, u'.slots i = .live ⟨.removed (.ok r), none⟩ →
      u.slots i = .live ⟨.removed (.ok r), none⟩)
    (hqueue : places u'.inner.entries = places u.inner.entries)
    (hclosing : u.inner.closing C = true → u'.inner.closing C = true) :
    Frozen C w (es ++ new) u' := by
  apply h.grow hpoison (fun e he => (hnew e he).1) hslots ?_ hclosing
  · intro i e he hleaves
    rw [(hnew e he).2 i] at hleaves
    cases hleaves
  · rw [hqueue, without_of_none fun e he => (hnew e he).2]

/-- A slot that gets no permit. -/
theorem no_grant_update {w w' : World ι κ W S O} {j : ι} {x : Slot S}
    (hslots : w'.slots = Function.update w.slots j x)
    (hx : ∀ r, x ≠ .live ⟨.removed (.ok r), none⟩) (i : ι) (r : Permit S)
    (hi : w'.slots i = .live ⟨.removed (.ok r), none⟩) :
    w.slots i = .live ⟨.removed (.ok r), none⟩ := by
  rw [hslots] at hi
  by_cases hij : i = j
  · subst hij
    rw [Function.update_self] at hi
    exact absurd hi (hx r)
  · rwa [Function.update_of_ne hij] at hi

/-- The history since `w`, and what holds as long as it has no `clear_poison` in it. -/
def FrozenSince (C : Closeability) (w : World ι κ W S O) (c : Conf ι κ W S O) : Prop :=
  ∃ es, c.1.log = w.log ++ es ∧ (.cleared ∉ es → Frozen C w es c.1)

/-- The events of a move follow those since `w`. -/
theorem FrozenSince.grow {w : World ι κ W S O} {c d : Conf ι κ W S O} (hc : FrozenSince C w c)
    (new : List (Event ι κ W S)) (hlog : d.1.log = c.1.log ++ new)
    (h : ∀ es, .cleared ∉ new → Frozen C w es c.1 → Frozen C w (es ++ new) d.1) :
    FrozenSince C w d := by
  obtain ⟨es, hes, hfrozen⟩ := hc
  refine ⟨es ++ new, by rw [hlog, hes, List.append_assoc], ?_⟩
  intro hclear
  have hboth : .cleared ∉ es ∧ .cleared ∉ new := by simpa [not_or] using hclear
  exact h es hboth.2 (hfrozen hboth.1)

/-- A move that changes neither the list nor a slot. -/
theorem FrozenSince.still {w : World ι κ W S O} {c d : Conf ι κ W S O} (hc : FrozenSince C w c)
    (new : List (Event ι κ W S)) (hlog : d.1.log = c.1.log ++ new)
    (hnew : ∀ e ∈ new, e.isAdmission = false ∧ ∀ i, e.leaves i = false)
    (hpoison : .cleared ∉ new → c.1.inner.poisoned = true → d.1.inner.poisoned = true)
    (hslots : d.1.slots = c.1.slots) (hqueue : d.1.inner.queue = c.1.inner.queue)
    (hclosing : c.1.inner.closing C = true → d.1.inner.closing C = true) : FrozenSince C w d := by
  have hentries : d.1.inner.entries = c.1.inner.entries := by
    simp only [QueueState.entries, hqueue]
  apply hc.grow _ hlog
  intro es hclear hfrozen
  apply hfrozen.frame (hpoison hclear hfrozen.poisoned) hnew ?_ (by rw [hentries]) hclosing
  intro i r hi
  rwa [hslots] at hi

/-- A move that changes the slot of one request, which gets no permit, and not the list. -/
theorem FrozenSince.slot {w : World ι κ W S O} {c d : Conf ι κ W S O} (hc : FrozenSince C w c)
    (new : List (Event ι κ W S)) {j : ι} {x : Slot S} (hlog : d.1.log = c.1.log ++ new)
    (hnew : ∀ e ∈ new, e.isAdmission = false ∧ ∀ i, e.leaves i = false)
    (hslots : d.1.slots = Function.update c.1.slots j x)
    (hx : ∀ r, x ≠ .live ⟨.removed (.ok r), none⟩) (hinner : d.1.inner = c.1.inner) :
    FrozenSince C w d := by
  apply hc.grow _ hlog
  intro es _ hfrozen
  apply hfrozen.frame (by rw [hinner]; exact hfrozen.poisoned) hnew (no_grant_update hslots hx)
  · rw [hinner]
  · rw [hinner]
    exact id

/-- A move that takes the node `j` out of the list. -/
theorem FrozenSince.unlink {w : World ι κ W S O} {c d : Conf ι κ W S O} (hc : FrozenSince C w c)
    (hw : Coherent C c.1) {e : Event ι κ W S} {j : ι} {data : Protected W S}
    {before after : WaitList ι W S} {x : Slot S} (hlog : d.1.log = c.1.log ++ [e])
    (he : e.isAdmission = false) (hleaves : ∀ i, e.leaves i = (j == i))
    (hq : c.1.inner.queue = .ok (before ++ (j, data) :: after))
    (hq' : d.1.inner.queue = .ok (before ++ after))
    (hslots : d.1.slots = Function.update c.1.slots j x)
    (hx : ∀ r, x ≠ .live ⟨.removed (.ok r), none⟩)
    (hpoison : d.1.inner.poisoned = c.1.inner.poisoned)
    (hclosed : d.1.inner.closed = c.1.inner.closed)
    (hleaving : e = .cancelled j ∨ c.1.inner.closing C = true) : FrozenSince C w d := by
  have hclosing : d.1.inner.closing C = c.1.inner.closing C := by
    simp only [QueueState.closing, hclosed]
  have hqueue : places d.1.inner.entries = without (places c.1.inner.entries) [e] := by
    obtain ⟨params, y⟩ := data
    have hnodup : (ids (places before ++ (j, params) :: places after)).Nodup := by
      simpa using hw.nodup_of_queue hq
    rw [QueueState.entries_of_queue hq, QueueState.entries_of_queue hq',
      without_of_one (i := j) (by simpa using hleaves), places_append, places_append, places_cons,
      remove_split hnodup]
  apply hc.grow _ hlog
  intro es _ hfrozen
  apply hfrozen.grow (by rw [hpoison]; exact hfrozen.poisoned) (by simpa using he)
    (no_grant_update hslots hx) hqueue (by rw [hclosing]; exact id)
  intro i e' he' hi
  rw [List.mem_singleton.mp he', hleaves i] at hi
  rw [List.mem_singleton.mp he', hclosing, ← beq_iff_eq.mp hi]
  exact hleaving

/-- A cancellation of a request that is not in the list. -/
theorem FrozenSince.cancel {w : World ι κ W S O} {c d : Conf ι κ W S O} (hc : FrozenSince C w c)
    (hw : Coherent C c.1) (es : List (Event ι κ W S)) {j : ι}
    (hj : c.1.slots j ≠ .live ⟨.linked, none⟩)
    (hlog : d.1.log = c.1.log ++ (es ++ [.cancelled j]))
    (hes : ∀ e ∈ es, e.isAdmission = false ∧ ∀ i, e.leaves i = false)
    (hslots : d.1.slots = Function.update c.1.slots j .gone) (hinner : d.1.inner = c.1.inner) :
    FrozenSince C w d := by
  -- the cancelled request is not in the list, so the list stays what it was
  have hnot : j ∉ ids (places c.1.inner.entries) := by
    rw [ids_places]
    intro hmem
    exact hj ((hw.linked j).mp hmem)
  have hqueue : places d.1.inner.entries =
      without (places c.1.inner.entries) (es ++ [.cancelled j]) := by
    rw [hinner, without_append, without_of_none fun e he => (hes e he).2,
      without_of_one (i := j) (by simp [Event.leaves]), remove_of_notMem hnot]
  apply hc.grow _ hlog
  intro past _ hfrozen
  apply hfrozen.grow (by rw [hinner]; exact hfrozen.poisoned) ?_
    (no_grant_update hslots (by simp)) hqueue (by rw [hinner]; exact id)
  · intro i e he hleaves
    rcases List.mem_append.mp he with hold | hlast
    · rw [(hes e hold).2 i] at hleaves
      cases hleaves
    · rw [List.mem_singleton.mp hlast] at hleaves ⊢
      have hji : j = i := beq_iff_eq.mp hleaves
      exact Or.inl (by rw [hji])
  · intro e he
    rcases List.mem_append.mp he with hold | hlast
    · exact (hes e hold).1
    · rw [List.mem_singleton.mp hlast]
      rfl

theorem FrozenSince.move [DecidableEq κ] [Order O]
    {w : World ι κ W S O} {c d : Conf ι κ W S O} (hc : FrozenSince C w c)
    (hw : Coherent C c.1) (h : Move C own c d) : FrozenSince C w d := by
  -- a guard of the move: the queue is not poisoned
  have never (hopen : c.1.Open C) : FrozenSince C w c → ∀ {new}, d.1.log = c.1.log ++ new →
      FrozenSince C w d := by
    intro hc new hlog
    apply hc.grow _ hlog
    intro es _ hfrozen
    have hpoison := hfrozen.poisoned
    rw [hopen.1] at hpoison
    cases hpoison
  cases h with
  -- admissions
  | consult w i p order front hopen => exact never hopen hc rfl
  | consultPanic w i p order hopen => exact never hopen hc rfl
  | refuseNow w i p p' front state hopen => exact never hopen hc rfl
  | grantNow w i p r front state hopen => exact never hopen hc rfl
  | loseNow w i p front state hopen => exact never hopen hc rfl
  | link w i p cx front queue hopen => exact never hopen hc rfl
  | grant w h k i p x r state before after c wakes hopen => exact never hopen hc rfl
  | refuse w h i p p' x state before after hopen => exact never hopen hc rfl
  | lose w h i p x state before after hopen => exact never hopen hc rfl
  -- a node leaves the list
  | expel w h k i params x rest c wakes hclosed hq hi =>
    have hsplit : w.inner.queue = .ok ([] ++ (i, params, x) :: rest) := hq
    exact hc.unlink hw rfl rfl (fun _ => rfl) hsplit rfl rfl (by simp) rfl rfl
      (Or.inr (hw.closing hclosed))
  | unlinkSelf w i params x before after hclosing hq hi =>
    exact hc.unlink hw rfl rfl (fun _ => rfl) hq rfl rfl (by simp) rfl rfl (Or.inr hclosing)
  | cancelLinked w k i params x before after c hq hi =>
    exact hc.unlink hw rfl rfl (fun _ => rfl) hq rfl rfl (by simp) rfl rfl (Or.inl rfl)
  -- a request leaves that is not in the list
  | cancelInitial w i params hi =>
    exact hc.cancel hw [] (by simp [hi]) rfl (by simp) rfl rfl
  | cancelGranted w i r hi =>
    exact hc.cancel hw [.took i] (by simp [hi]) (by simp)
      (by simp [Event.isAdmission, Event.leaves]) rfl rfl
  | cancelRefused w k i params c hi =>
    exact hc.cancel hw [.took i] (by simp [hi]) (by simp)
      (by simp [Event.isAdmission, Event.leaves]) rfl rfl
  -- a slot changes
  | create w i p hi =>
    exact hc.slot _ rfl (by simp [Event.isAdmission, Event.leaves]) rfl (by simp) rfl
  | conjure w i r hi =>
    exact hc.slot _ rfl (by simp [Event.isAdmission, Event.leaves]) rfl (by simp) rfl
  | ask w i p hi => exact hc.slot [] (by simp) (by simp) rfl (by simp) rfl
  | askTry w i p hi => exact hc.slot [] (by simp) (by simp) rfl (by simp) rfl
  | claim w i r hi =>
    exact hc.slot _ rfl (by simp [Event.isAdmission, Event.leaves]) rfl (by simp) rfl
  | claimError w i params hi =>
    exact hc.slot _ rfl (by simp [Event.isAdmission, Event.leaves]) rfl (by simp) rfl
  | rewake w i params x cx before after res hq =>
    -- another waker, in the same place and with the same params
    apply hc.grow _ rfl
    intro es _ hfrozen
    refine hfrozen.frame hfrozen.poisoned (by simp [Event.isAdmission, Event.leaves])
      (fun i r hi => hi) ?_ id
    rw [QueueState.entries_of_queue hq]
    simp
  | setClosed w h hC =>
    exact hc.still [] (by simp) (by simp) (fun _ hp => hp) rfl rfl
      (fun _ => by simp [QueueState.closing, hC])
  | discard w h hclosed hq =>
    apply hc.grow [] (by simp)
    intro es _ hfrozen
    refine hfrozen.frame hfrozen.poisoned (by simp) (fun i r hi => hi) ?_ id
    rw [QueueState.entries_of_queue hq]
    rfl
  | clearPoison w h =>
    exact hc.still [.cleared] rfl (by simp [Event.isAdmission, Event.leaves]) (by simp)
      rfl rfl id
  | release w who i r =>
    exact hc.still _ rfl (by simp [Event.isAdmission, Event.leaves])
      (fun _ hp => Bool.or_eq_true_iff.mpr (Or.inl hp)) rfl rfl id
  | update w h f =>
    exact hc.still _ rfl (by simp [Event.isAdmission, Event.leaves])
      (fun _ hp => Bool.or_eq_true_iff.mpr (Or.inl hp)) rfl rfl id
  | note w h e he | reject w i p front e he | giveBack w i p e he =>
    cases he <;> exact hc.still _ rfl (by simp [Event.isAdmission, Event.leaves])
      (fun _ hp => hp) rfl rfl id
  | lock | unlock | takeGuard | begin | turn =>
    exact hc.still [] (by simp) (by simp) (fun _ hp => hp) rfl rfl id
  | _ =>
    exact hc.still _ rfl (by simp [Event.isAdmission, Event.leaves]) (fun _ hp => hp) rfl rfl id

/-! ## Operations on a poisoned queue -/

variable [DecidableEq κ] [DecidableEq W] [Order O]

/-- `try_acquire` hands the params back. -/
theorem tryAcquire_poisoned {w : World ι κ W S O} (hpoison : w.inner.poisoned = true) {i : ι}
    (hi : w.slots i = .unborn) (p : Params S) (fair : Bool) :
    ∃ w', step C w (.tryAcquire i p fair) = some w' ∧
      w'.log = w.log ++ [.tried i p (.returned (.error (.poisoned p)))] := by
  have hstep : step C w (.tryAcquire i p fair) = some (tryAcquirePermit C w i p fair) := by
    simp [step, hi]
  refine ⟨_, hstep, ?_⟩
  simp [tryAcquirePermit, tryAcquire, acquireOrEnqueue, hpoison, wrapTry]

/-- A first poll panics, and the queue is as before. -/
theorem poll_first_poisoned {w : World ι κ W S O} (hpoison : w.inner.poisoned = true) {i : ι}
    {p : Params S} (hi : w.slots i = .live ⟨.initial, some p⟩) (cx : W) (calls : WakerCalls) :
    ∃ w', step C w (.poll i cx calls) = some w' ∧ w'.inner = w.inner ∧
      w'.log = w.log ++ [.droppedParams p true, .polled i cx .panicked] := by
  refine ⟨_, step_poll hi cx calls, ?_, ?_⟩
  · simp [pollAcquire, poll, pollFirst, acquireOrEnqueue, hpoison, wrapPoll, World.dropParams]
  · simp [pollAcquire, poll, pollFirst, acquireOrEnqueue, hpoison, wrapPoll, World.dropParams]

/-- A drain that was suspended between two batches checks nobody, and has no turn left. -/
theorem resume_poisoned {w w' : World ι κ W S O} (hpoison : w.inner.poisoned = true) {k : κ}
    {c : Call ι W S} (hk : w.calls k = some c) (hkind : c.kind = .withQueue)
    (h : step C w (.resume k) = some w') :
    w'.inner = w.inner ∧ w'.log = w.log ++ [.entered k .withQueue] ∧
      w'.calls k = some { c with more := false } := by
  cases step_cases h with
  | resume _ c' hk' hwakes hunw hmore =>
    obtain rfl : c = c' := Option.some.inj (hk.symm.trans hk')
    have hfull : c.wakes.isFull = false := WakeBatch.not_isFull_of_nil hwakes
    simp [resume, hkind, withQueueTurn, check, hpoison, World.batchFull, World.modifyCall, hk,
      hfull]

/-! ## The statement about runs -/

/-- Does a panic unwind here out of a call that may leave the state half-updated? -/
def Event.unwindsState : Event ι κ W S → Bool
  | .acquired _ _ res => res.isPanicked
  | .released _ _ _ res => res.isPanicked
  | .updated res => res.isPanicked
  | _ => false

/-- Such a panic has happened, and no `clear_poison` since. -/
def LeavesPoison (log : List (Event ι κ W S)) : Prop :=
  ∃ past e rest, log = past ++ e :: rest ∧ e.unwindsState = true ∧ .cleared ∉ rest

omit [DecidableEq ι] [DecidableEq κ] [DecidableEq W] in
/-- One more event. -/
theorem leavesPoison_snoc {log : List (Event ι κ W S)} {e : Event ι κ W S} :
    LeavesPoison (log ++ [e]) ↔ e.unwindsState = true ∨ e ≠ .cleared ∧ LeavesPoison log := by
  constructor
  · intro h
    obtain ⟨past, e', rest, heq, hunwinds, hclear⟩ := h
    -- the panic is the last event, or there is an event after it
    rcases List.eq_nil_or_concat rest with hnil | ⟨rest', last, hlast⟩
    · subst hnil
      obtain ⟨-, hlast⟩ := List.append_inj' heq rfl
      cases hlast
      exact Or.inl hunwinds
    · rw [List.concat_eq_append] at hlast
      subst hlast
      rw [← List.cons_append, ← List.append_assoc] at heq
      obtain ⟨hlog, hlast⟩ := List.append_inj' heq rfl
      cases hlast
      have hboth : .cleared ∉ rest' ∧ e ≠ .cleared := by
        simp only [List.mem_append, List.mem_singleton, not_or] at hclear
        exact ⟨hclear.1, fun h => hclear.2 h.symm⟩
      exact Or.inr ⟨hboth.2, past, e', rest', hlog, hunwinds, hboth.1⟩
  · intro h
    rcases h with hunwinds | ⟨hne, past, e', rest, rfl, hunwinds, hclear⟩
    · exact ⟨log, e, [], rfl, hunwinds, List.not_mem_nil⟩
    · refine ⟨past, e', rest ++ [e], by simp, hunwinds, ?_⟩
      simp only [List.mem_append, List.mem_singleton, not_or]
      exact ⟨hclear, fun h => hne h.symm⟩

omit [DecidableEq ι] [DecidableEq κ] [DecidableEq W] in
theorem poisonedBy_iff {log : List (Event ι κ W S)} :
    poisonedBy log = true ↔ LeavesPoison log := by
  induction log using List.reverseRecOn with
  | nil =>
    constructor
    · intro h
      cases h
    · intro h
      obtain ⟨past, e, rest, heq, -⟩ := h
      cases past <;> cases heq
  | append_singleton log e ih =>
    rw [leavesPoison_snoc, ← ih, poisonedBy_append]
    simp only [List.foldl_cons, List.foldl_nil]
    cases e with
    | acquired i p res => simp [Event.poison, Event.unwindsState, or_comm]
    | released who i r res => simp [Event.poison, Event.unwindsState, or_comm]
    | updated res => simp [Event.poison, Event.unwindsState, or_comm]
    | _ => simp [Event.poison, Event.unwindsState]

/-- What a poisoned queue guarantees until `clear_poison` is called: nothing is admitted and
the list only loses nodes; newcomers are turned away, `try_acquire` with the caller's params;
a suspended drain grants nothing more. -/
structure Poisoned (C : Closeability) (w : World ι κ W S O) : Prop where
  frozen : ∀ acts w', Transition.exec (step C) w acts = some w' →
    ∃ es, w'.log = w.log ++ es ∧ (.cleared ∉ es → Frozen C w es w')
  try_acquire : ∀ i, w.slots i = .unborn → ∀ p fair,
    ∃ w', step C w (.tryAcquire i p fair) = some w' ∧
      w'.log = w.log ++ [.tried i p (.returned (.error (.poisoned p)))]
  first_poll : ∀ i p, w.slots i = .live ⟨.initial, some p⟩ → ∀ cx calls,
    ∃ w', step C w (.poll i cx calls) = some w' ∧ w'.inner = w.inner ∧
      w'.log = w.log ++ [.droppedParams p true, .polled i cx .panicked]
  drains : ∀ k c w', w.calls k = some c → c.kind = .withQueue →
    step C w (.resume k) = some w' →
      w'.inner = w.inner ∧ w'.log = w.log ++ [.entered k .withQueue] ∧
        w'.calls k = some { c with more := false }

/-- What poisoning does in a given state. -/
structure Poisoning (C : Closeability) (w : World ι κ W S O) : Prop where
  flag : w.inner.poisoned = true ↔ LeavesPoison w.log
  history : ∀ past e rest, w.log = past ++ e :: rest → LeavesPoison past → e.isAdmission = false
  poisoned : w.inner.poisoned = true → Poisoned C w
  unclaimed : ∀ i r, w.slots i = .live ⟨.removed (.ok r), none⟩ →
    NextPoll C w i fun cx _ w'' => Reports w'' i cx (.ok r)

/-- A poisoned queue stays frozen until it is cleared. -/
theorem Settled.frozen {w w' : World ι κ W S O} (hw : Settled C w)
    (hpoison : w.inner.poisoned = true) {acts : List (Action ι κ W S)}
    (hexec : Transition.exec (FlagBearer.step C) w acts = some w') :
    ∃ es, w'.log = w.log ++ es ∧ (.cleared ∉ es → Frozen C w es w') := by
  have hstart : FrozenSince C w (w, (.empty : Hand ι S)) := by
    refine ⟨[], by simp, ?_⟩
    intro _
    constructor
    case poisoned => exact hpoison
    case no_admission => simp
    case no_grant => exact fun i r hi => hi
    case queue => exact (without_of_none (by simp)).symm
    case leaving => simp
  apply Settled.exec_invariant (FrozenSince C w) (fun _ => True) ?_ hw (fun _ _ => trivial) hexec
    hstart
  intro c d hcoh hc _ _ hm
  exact hc.move hcoh hm

/-- **Poison sticks**, in every reachable state: it is set by the panics of the state's user
code and by nothing else, lasts until `clear_poison`, and as long as it lasts nothing is
admitted. -/
theorem poison_is_sticky {state : S} {order : O} {w : World ι κ W S O}
    (h : Reachable C state order w) : Poisoning C w := by
  have hw := Reachable.settled h
  constructor
  case flag => rw [Reachable.flagged h, poisonedBy_iff]
  case history =>
    intro past e rest hlog hpoison
    exact each_iff.mp (Reachable.spares h) past e rest hlog (poisonedBy_iff.mpr hpoison)
  case poisoned =>
    intro hpoison
    constructor
    case frozen => exact fun acts w' hexec => hw.frozen hpoison hexec
    case try_acquire => exact fun i hi p fair => tryAcquire_poisoned hpoison hi p fair
    case first_poll => exact fun i p hi cx calls => poll_first_poisoned hpoison hi cx calls
    case drains => exact fun k c w' hk hkind hstep => resume_poisoned hpoison hk hkind hstep
  case unclaimed =>
    intro i r hi acts w' hexec hacts cx calls
    exact poll_removed_ok (hw.stays_removed hi hexec hacts) cx calls

/-- A `with_state` closure overflows the counter while a request waits. -/
theorem poison_is_sticky_after_update :
    ∃ w : World Nat Nat Nat SemaphoreCounter FairOrder,
      run .closeable ⟨1⟩ .fifo [.acquire 0 (2 : Nat), .poll 0 7 .quiet,
        .withState 0 (SemaphoreCounter.add USIZE_MAX)] = some w ∧
      Poisoning .closeable w :=
  exists_run _ rfl fun _ h => poison_is_sticky h

end FlagBearer
