import FlagBearer.Queue.Replay

/-!
# Placement

A request consults the order at most once and joins the list at most once, at the end that
the order has just chosen; it is granted while it leads: as the first live node of the list,
or on arrival, and then only ahead of an empty list if the order has sent it to the back.

## Main results

- `Asked.move`, `Joined.move`: the two phases are stable
- `Reachable.placed`: the statement about runs
-/

namespace FlagBearer

open PinList History

variable {ι κ W S O : Type} [SemaphoreState S] {C : Closeability} {own : Option ι}

/-! ## Decisions and joins -/

/-- The request that the order was consulted for, and its answer. -/
def Event.decision? : Event ι κ W S → Option (ι × Bool)
  | .consulted i _ (.returned front) => some (i, front)
  | _ => none

/-- The request whose node joined the list. -/
def Event.joined? : Event ι κ W S → Option ι
  | .linked i _ _ => some i
  | _ => none

/-- The decisions of the order, oldest first. -/
def decisions (log : List (Event ι κ W S)) : List (ι × Bool) := log.filterMap Event.decision?

/-- The requests that joined the list, oldest first. -/
def joins (log : List (Event ι κ W S)) : List ι := log.filterMap Event.joined?

@[simp] theorem decisions_append (log es : List (Event ι κ W S)) :
    decisions (log ++ es) = decisions log ++ decisions es := List.filterMap_append ..

@[simp] theorem joins_append (log es : List (Event ι κ W S)) :
    joins (log ++ es) = joins log ++ joins es := List.filterMap_append ..

variable [DecidableEq ι] [DecidableEq κ] [Order O]

/-- Is this a consultation for the request `i`, whether or not the order answers? -/
def Event.consults (i : ι) : Event ι κ W S → Bool
  | .consulted j _ _ => j == i
  | _ => false

/-- Does `i` join the list here? -/
def Event.joins (i : ι) (e : Event ι κ W S) : Bool := e.joined? == some i

/-! ## The phase after consulting -/

/-- The params of the request have left the future, or there is none. -/
def Slot.Begun : Slot S → Prop
  | .unborn => False
  | .live a => a.node = .initial → a.params = none
  | .gone => True

@[simp] theorem Slot.begun_gone : (Slot.gone : Slot S).Begun := trivial

@[simp] theorem Slot.begun_unborn : ¬ (Slot.unborn : Slot S).Begun := id

@[simp] theorem Slot.begun_live (a : Acquire S) :
    (Slot.live a).Begun ↔ (a.node = .initial → a.params = none) := Iff.rfl

theorem Slot.Spent.begun {x : Slot S} (h : x.Spent) : x.Begun := by
  cases x with
  | unborn => exact h
  | live a => exact fun _ => h.2
  | gone => trivial

/-- The order is not going to be consulted for `i` any more. -/
def Asked (i : ι) (c : Conf ι κ W S O) : Prop :=
  (c.1.slots i).Begun ∧ ∀ p, c.2 ≠ .params i p none

theorem Asked.move {c d : Conf ι κ W S O} {i : ι} (hc : Asked i c) (h : Move C own c d) :
    Asked i d := by
  obtain ⟨hslot, hhand⟩ := hc
  -- no slot goes back to before the first poll
  have slot {j : ι} {x : Slot S} (hx : i = j → (c.1.slots j).Begun → x.Begun) :
      (Function.update c.1.slots j x i).Begun := by
    by_cases hij : i = j
    · subst hij
      rw [Function.update_self]
      exact hx rfl hslot
    · rw [Function.update_of_ne hij]
      exact hslot
  cases h with
  | create w j p hj =>
    refine ⟨slot ?_, by simp⟩
    intro _ hbegun
    simp [hj] at hbegun
  | ask w j p hj =>
    refine ⟨slot (by simp), ?_⟩
    intro q heq
    cases heq
    simp [hj] at hslot
  | askTry w j p hj =>
    refine ⟨slot (by simp), ?_⟩
    intro q heq
    cases heq
    simp [hj] at hslot
  | refuseNow w j p p' front =>
    refine ⟨hslot, ?_⟩
    intro q heq
    cases heq
    exact hhand p rfl
  | unlinkSelf w j params =>
    refine ⟨slot (by simp), ?_⟩
    cases params <;> simp [Hand.ofParams]
  | claimError w j params =>
    refine ⟨slot (by simp), ?_⟩
    cases params <;> simp [Hand.ofParams]
  | grant | expel => exact ⟨slot (by simp), hhand⟩
  | conjure | link | claim | cancelInitial | cancelLinked | cancelGranted | cancelRefused =>
    exact ⟨slot (by simp), by simp⟩
  | lock | unlock | note | pollPanic | setClosed | discard | refuse | lose | update | clearPoison
    | begin | turn | wake | finish => exact ⟨hslot, hhand⟩
  | _ => exact ⟨hslot, by simp⟩

omit [DecidableEq ι] [DecidableEq κ] [Order O] in
theorem not_asked_of_params {w : World ι κ W S O} {i : ι} {p : Params S} :
    ¬ Asked i (w, .params i p none) := fun h => h.2 p rfl

/-- The order is consulted at most once for `i`, and not while it may still be consulted. -/
abbrev ConsultedOnce (i : ι) : Conf ι κ W S O → Prop := Once (Event.consults i) (Asked i)

/-- A move that consults the order for the request `j`, which its section holds the params of. -/
theorem ConsultedOnce.consult {c d : Conf ι κ W S O} {i j : ι} {p : Params S}
    (hc : ConsultedOnce i c) (h : Move C own c d) (hcon : Consistent c)
    (hhand : c.2 = .params j p none) (hhand' : ∀ q, d.2 ≠ .params j q none)
    (hslots : d.1.slots = c.1.slots)
    (hlog : d.1.log.countP (Event.consults i) =
      c.1.log.countP (Event.consults i) + if j == i then 1 else 0) : ConsultedOnce i d := by
  by_cases hij : j = i
  · subst hij
    have hspent : (c.1.slots j).Spent := hcon j (by rw [hhand]; rfl)
    have hasked : Asked j d := by
      refine ⟨?_, hhand'⟩
      rw [hslots]
      exact hspent.begun
    exact hc.mark (fun ha => ha.2 p hhand) hasked (by simpa using hlog)
  · have hne : (j == i) = false := beq_eq_false_iff_ne.mpr hij
    exact hc.frame (fun ha => ha.move h) (by simpa [hne] using hlog)

theorem ConsultedOnce.move {c d : Conf ι κ W S O} {i : ι} (hc : ConsultedOnce i c)
    (hcon : Consistent c) (h : Move C own c d) : ConsultedOnce i d := by
  have hstable : Asked i c → Asked i d := fun ha => ha.move h
  have hmove := h
  cases h with
  | consult w j p order front =>
    exact hc.consult hmove hcon rfl (by simp) rfl (by simp [List.countP_cons, Event.consults])
  | consultPanic w j p order =>
    exact hc.consult hmove hcon rfl (by simp) rfl (by simp [List.countP_cons, Event.consults])
  | note w h e he | reject w j p front e he | giveBack w j p e he =>
    cases he <;> exact hc.frame hstable (by simp [Event.consults])
  | _ =>
    exact hc.frame hstable (by simp [Event.consults, World.callRelease, World.updateState])

/-! ## The phase after joining -/

/-- The node of `i` is in the list, or `i` is decided. -/
def Joined (i : ι) (c : Conf ι κ W S O) : Prop :=
  c.1.slots i = .live ⟨.linked, none⟩ ∨ Decided i c

theorem Joined.move {c d : Conf ι κ W S O} {i : ι} (hc : Joined i c) (h : Move C own c d) :
    Joined i d := by
  rcases hc with hi | hdecided
  · -- a linked node leaves the list decided
    have leave {w' : World ι κ W S O} {h' : Hand ι S} {j : ι} {x : Slot S}
        (hslots : w'.slots = Function.update c.1.slots j x)
        (hself : i = j → Decided i (w', h')) : Joined i (w', h') := by
      by_cases hij : i = j
      · exact Or.inr (hself hij)
      · exact Or.inl (by simp [hslots, hij, hi])
    -- a node that is not linked is another one than `i`
    have other {w' : World ι κ W S O} {h' : Hand ι S} {j : ι} {x : Slot S}
        (hslots : w'.slots = Function.update c.1.slots j x)
        (hj : c.1.slots j ≠ .live ⟨.linked, none⟩) : Joined i (w', h') := by
      apply leave hslots
      intro hij
      subst hij
      exact absurd hi hj
    cases h with
    | create w j p hj => exact other rfl (by simp [hj])
    | conjure w j r hj => exact other rfl (by simp [hj])
    | ask w j p hj => exact other rfl (by simp [hj])
    | askTry w j p hj => exact other rfl (by simp [hj])
    | link w j p cx front queue hopen hq hj => exact other rfl (by simp [hj])
    | claim w j r hj => exact other rfl (by simp [hj])
    | claimError w j params hj => exact other rfl (by simp [hj])
    | cancelInitial w j params hj => exact other rfl (by simp [hj])
    | cancelGranted w j r hj => exact other rfl (by simp [hj])
    | cancelRefused w k j params c hj => exact other rfl (by simp [hj])
    | grant w h k j p x r =>
      -- `i` is the node that leaves
      apply leave rfl
      intro hij
      subst hij
      exact Or.inr ⟨.ok r, by simp⟩
    | expel w h k j params =>
      apply leave rfl
      intro hij
      subst hij
      exact Or.inr ⟨.error params, by simp⟩
    | unlinkSelf w j params =>
      apply leave rfl
      intro hij
      subst hij
      exact Or.inl ⟨by simp, Hand.asks_ofParams i i params⟩
    | cancelLinked w k j params =>
      apply leave rfl
      intro hij
      subst hij
      exact Or.inl ⟨by simp, id⟩
    | _ => exact Or.inl hi
  · exact Or.inr (hdecided.move h)

omit [DecidableEq ι] [DecidableEq κ] [Order O] in
/-- A request that is asking has not joined the list. -/
theorem not_joined_of_asks {c : Conf ι κ W S O} (hcon : Consistent c) {i : ι}
    (hask : c.2.Asks i) : ¬ Joined i c := by
  intro hjoined
  rcases hjoined with hi | hdecided
  · exact hcon.not_linked hask.holds hi
  · exact not_decided_of_asks hcon hask hdecided

/-- The node of `i` joins the list at most once, and not while `i` has yet to ask. -/
abbrev JoinedOnce (i : ι) : Conf ι κ W S O → Prop := Once (Event.joins i) (Joined i)

theorem JoinedOnce.move {c d : Conf ι κ W S O} {i : ι} (hc : JoinedOnce i c)
    (hcon : Consistent c) (h : Move C own c d) : JoinedOnce i d := by
  have hstable : Joined i c → Joined i d := fun hj => hj.move h
  cases h with
  | note w h e he | reject w j p front e he | giveBack w j p e he =>
    cases he <;> exact hc.frame hstable (by simp [Event.joins, Event.joined?])
  | link w j p cx front queue hopen hq hj =>
    by_cases hij : j = i
    · subst hij
      exact hc.mark (not_joined_of_asks hcon rfl) (Or.inl (by simp))
        (by simp [Event.joins, Event.joined?])
    · exact hc.frame hstable (by simp [Event.joins, Event.joined?, hij])
  | _ =>
    exact hc.frame hstable (by simp [Event.joins, Event.joined?, World.callRelease,
      World.updateState])

omit [DecidableEq κ] [Order O] in
theorem Once.not_mem_joins {c : Conf ι κ W S O} {i : ι} (hc : JoinedOnce i c)
    (hnot : ¬ Joined i c) : i ∉ joins c.1.log := by
  intro hmem
  obtain ⟨e, he, hjoined⟩ := List.mem_filterMap.mp hmem
  exact List.countP_eq_zero.mp (hc.2 hnot) e he (by simp [Event.joins, hjoined])

omit [DecidableEq κ] [Order O] in
theorem Once.not_mem_decisions {c : Conf ι κ W S O} {i : ι} (hc : ConsultedOnce i c)
    (hnot : ¬ Asked i c) (front : Bool) : (i, front) ∉ decisions c.1.log := by
  intro hmem
  obtain ⟨e, he, hdecision⟩ := List.mem_filterMap.mp hmem
  have hconsults : e.consults i = true := by
    cases e with
    | consulted j n res =>
      cases res <;> cases hdecision
      exact beq_self_eq_true i
    | _ => cases hdecision
  exact List.countP_eq_zero.mp (hc.2 hnot) e he hconsults

/-! ## Where requests join, and who is granted -/

/-- On arrival, `i` may go ahead of the list: the latest decision sent it to the front, or the
list is empty, or the order was not consulted for it. -/
def Arriving (past : List (Event ι κ W S)) (i : ι) : Prop :=
  i ∉ joins past ∧
    ((∀ front, (i, front) ∉ decisions past) ∨
      ∃ front, latest Event.decision? past = some (i, front) ∧ (front = false → replay past = []))

/-- What the events about a request say about its place. -/
def Placed (past : List (Event ι κ W S)) : Event ι κ W S → Prop
  | .consulted i _ (.returned _) => i ∉ joins past ∧ ∀ front, (i, front) ∉ decisions past
  | .linked i _ front => i ∉ joins past ∧ latest Event.decision? past = some (i, front)
  | .acquired i _ _ => Leading i (replay past) ∨ Arriving past i
  | _ => True

/-- The invariants behind `Placed`. A section that knows the decision about its request has
just been told. -/
structure Posted (c : Conf ι κ W S O) : Prop where
  asked : ∀ i, ConsultedOnce i c
  joined : ∀ i, JoinedOnce i c
  decided : ∀ i p front, c.2 = .params i p (some front) →
    latest Event.decision? c.1.log = some (i, front)
  placed : Each Placed c.1.log

omit [DecidableEq κ] [Order O] in
/-- A request that is asking may try to acquire if the guard of the move holds. -/
theorem Posted.arriving {w : World ι κ W S O} {i : ι} {p : Params S} {front : Option Bool}
    (hc : Posted (w, .params i p front)) (ht : Traced C (w, .params i p front))
    (hlead : w.Leads front) : Arriving w.log i := by
  refine ⟨(hc.joined i).not_mem_joins (not_joined_of_asks ht.consistent rfl), ?_⟩
  cases front with
  | none => exact Or.inl ((hc.asked i).not_mem_decisions not_asked_of_params)
  | some front =>
    refine Or.inr ⟨front, hc.decided i p front rfl, ?_⟩
    -- sent to the back, it may only go ahead of an empty list
    intro hback
    subst hback
    have hreplay : replay w.log = standing w.inner.entries := ht.replayed
    rw [hreplay, hlead rfl, standing_nil]

/-- What a section knows of the decision survives what it does to others. -/
theorem Posted.decided_move {c d : Conf ι κ W S O} (hc : Posted c) (h : Move C own c d) :
    ∀ i p front, d.2 = .params i p (some front) →
      latest Event.decision? d.1.log = some (i, front) := by
  intro i p front hd
  -- a move that keeps the locals and decides nothing
  have keep {log : List (Event ι κ W S)} {es : List (Event ι κ W S)} (hlog : log = c.1.log ++ es)
      (hes : ∀ e ∈ es, e.decision? = none) {q : Params S} (hc' : c.2 = .params i q (some front)) :
      latest Event.decision? log = some (i, front) := by
    rw [hlog, latest_append_of_none hes]
    exact hc.decided i q front hc'
  cases h with
  -- the decision has just been recorded
  | consult w j q order front' hopen hord =>
    cases hd
    exact latest_snoc_of_some rfl
  | refuseNow w j q q' front' state =>
    cases hd
    exact keep rfl (by simp [Event.decision?]) rfl
  | note w h e he => cases he <;> exact keep rfl (by simp [Event.decision?]) hd
  | lock | unlock | setClosed | discard | begin | turn => exact hc.decided i p front hd
  | pollPanic | refuse | lose | grant | expel | clearPoison | wake | finish =>
    exact keep rfl (by simp [Event.decision?]) hd
  | update w h f => exact keep rfl (by simp [Event.decision?]) hd
  | unlinkSelf w j params => cases params <;> cases hd
  | claimError w j params => cases params <;> cases hd
  | _ => cases hd

theorem Posted.placed_move {c d : Conf ι κ W S O} (hc : Posted c) (ht : Traced C c)
    (h : Move C own c d) : Each Placed d.1.log := by
  have hplaced := hc.placed
  have hreplay : replay c.1.log = standing c.1.inner.entries := ht.replayed
  -- the drain only calls `S::acquire` for the first live node
  have leading {i : ι} {p : Params S} {x : W} {before after : WaitList ι W S}
      (hq : c.1.inner.queue = .ok (before ++ (i, some p, x) :: after))
      (hdead : ∀ e ∈ before, e.2.1 = none) : Leading i (replay c.1.log) := by
    refine ⟨standing before, standing after, ?_, standing_dead hdead⟩
    simp [hreplay, QueueState.entries_of_queue hq]
  cases h with
  | note w h e he | reject w j p front e he | giveBack w j p e he =>
    cases he <;> exact each_snoc.mpr ⟨hplaced, trivial⟩
  | consult w j p order front hopen hord =>
    refine each_snoc.mpr ⟨hplaced, ?_, ?_⟩
    · exact (hc.joined j).not_mem_joins (not_joined_of_asks ht.consistent rfl)
    · exact (hc.asked j).not_mem_decisions not_asked_of_params
  | refuseNow w j p p' front state hopen hlead =>
    exact each_snoc.mpr ⟨hplaced, Or.inr (hc.arriving ht hlead)⟩
  | grantNow w j p r front state hopen hlead =>
    exact each_snoc.mpr ⟨hplaced, Or.inr (hc.arriving ht hlead)⟩
  | loseNow w j p front state hopen hlead =>
    exact each_snoc.mpr ⟨hplaced, Or.inr (hc.arriving ht hlead)⟩
  | link w j p cx front queue =>
    have hjoins := (hc.joined j).not_mem_joins (not_joined_of_asks ht.consistent rfl)
    exact each_append.mpr ⟨hplaced, ⟨hjoins, hc.decided j p front rfl⟩, trivial, trivial⟩
  | grant w h k j p x r state before after c wakes hopen hq hdead =>
    exact each_append.mpr ⟨hplaced, Or.inl (leading hq hdead), trivial, trivial⟩
  | refuse w h j p p' x state before after hopen hq hdead =>
    exact each_snoc.mpr ⟨hplaced, Or.inl (leading hq hdead)⟩
  | lose w h j p x state before after hopen hq hdead =>
    exact each_snoc.mpr ⟨hplaced, Or.inl (leading hq hdead)⟩
  | _ => simpa [each_append, Placed, World.callRelease, World.updateState] using hplaced

theorem Posted.move {c d : Conf ι κ W S O} (hc : Posted c) (ht : Traced C c)
    (h : Move C own c d) : Posted d :=
  ⟨fun i => (hc.asked i).move ht.consistent h, fun i => (hc.joined i).move ht.consistent h,
    hc.decided_move h, hc.placed_move ht h⟩

/-- **Every event about a request is in its place**, in every run. -/
theorem Reachable.placed [DecidableEq W] {state : S} {order : O} {w : World ι κ W S O}
    (h : Reachable C state order w) : Each Placed w.log := by
  have hposted : Posted (w, (.empty : Hand ι S)) := by
    apply Reachable.invariant_of_traced _ ?_ ?_ h
    · intro c d _ ht hc _ hm
      exact hc.move ht hm
    · exact ⟨fun i => Once.start _ rfl, fun i => Once.start _ rfl, by simp, each_nil⟩
  exact hposted.placed

end FlagBearer
