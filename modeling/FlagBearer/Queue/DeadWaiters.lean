import FlagBearer.Core.States
import FlagBearer.Queue.Confined

/-!
# Waiters Without Params, and the Admission of Others

A drain that unwinds out of `S::acquire` leaves a node without params. Once the poison is
cleared, `check` skips such a dead node and keeps serving the rest of the queue, but
`acquire_or_enqueue` asks the list whether it is empty, and to the list a dead node is a node
like any other. So a fair request that the `Order` sends to the back is turned away although
nobody is waiting who could ever be served.

## Main results

- `step_admitted`: how an arrival at an open queue goes
- `servesPastDead_iff`: the arrivals of which dead waiters are not in the way
- `dead_waiters_block_iff`: the statement about runs
-/

namespace FlagBearer

open PinList

variable {ι κ W S O : Type} [DecidableEq ι] [SemaphoreState S] [Order O] {C : Closeability}

/-! ## Arrivals -/

/-- The fair request that arrives with an action, by its first poll or by `try_acquire`. -/
def Action.arrival (w : World ι κ W S O) : Action ι κ W S → Option (ι × Params S)
  | .poll i _ _ =>
    match w.slots i with
    | .live ⟨.initial, some p⟩ => some (i, p)
    | _ => none
  | .tryAcquire i p fair => if fair then some (i, p) else none
  | _ => none

omit [DecidableEq ι] [Order O] in
theorem Action.arrival_poll {w : World ι κ W S O} {i j : ι} {p : Params S} {cx : W}
    {calls : WakerCalls}
    (h : (.poll j cx calls : Action ι κ W S).arrival w = some (i, p)) :
    j = i ∧ w.slots i = .live ⟨.initial, some p⟩ := by
  simp only [Action.arrival] at h
  split at h
  · rename_i hj
    cases h
    exact ⟨rfl, hj⟩
  · cases h

/-- A call of the order or of `S::acquire`. -/
def Event.callsUser : Event ι κ W S → Bool
  | .consulted _ _ _ => true
  | .acquired _ _ _ => true
  | _ => false

/-- The request `i` is handed a permit. -/
def Event.hands (i : ι) : Event ι κ W S → Bool
  | .polled j _ (.returned (.ready (.ok _))) => j == i
  | .tried j _ (.returned (.ok _)) => j == i
  | _ => false

/-- The node of the request `i` joins the list. -/
def Event.links (i : ι) : Event ι κ W S → Bool
  | .linked j _ _ => j == i
  | _ => false

/-! ## How an arrival goes -/

/-- What a poll or a `try_acquire` does once `acquire_or_enqueue` has ended like this. -/
structure Follows (i : ι) (out : World ι κ W S O × Unwind (Outcome S)) (w' : World ι κ W S O)
    (rest : List (Event ι κ W S)) : Prop where
  log : w'.log = out.1.log ++ rest
  state : w'.inner.state = out.1.inner.state
  quiet : ∀ e ∈ rest, e.callsUser = false
  hands : (∃ e ∈ rest, e.hands i = true) ↔ ∃ r, out.2 = .returned (.acquired r)
  links : (∃ e ∈ rest, e.links i = true) → ∃ front q, out.2 = .returned (.enqueue front q)

theorem pollFirst_follows (w : World ι κ W S O) (i : ι) (p : Params S) (cx : W)
    (calls : WakerCalls) :
    ∃ rest, Follows i (acquireOrEnqueue C w i p true)
      (wrapPoll i cx (pollFirst C w i p cx calls)) rest := by
  unfold pollFirst
  rcases acquireOrEnqueue C w i p true with ⟨w', (r | q | q | ⟨front, q⟩) | _⟩
  · -- granted
    refine ⟨[.polled i cx (.returned (.ready (.ok r)))], ?_⟩
    constructor <;> simp [wrapPoll, Event.callsUser, Event.hands, Event.links]
  · -- closed
    refine ⟨[.polled i cx (.returned (.ready (.error q)))], ?_⟩
    constructor <;> simp [wrapPoll, Event.callsUser, Event.hands, Event.links]
  · -- poisoned
    refine ⟨[.droppedParams q w'.locked, .polled i cx .panicked], ?_⟩
    constructor <;> simp [wrapPoll, World.dropParams, Event.callsUser, Event.hands, Event.links]
  · -- queued, unless the clone of the waker panics
    simp only
    rcases w'.inner.queue with _ | queue
    · refine ⟨[.fault .enqueueErr, .polled i cx .panicked], ?_⟩
      constructor <;> simp [wrapPoll, Event.callsUser, Event.hands, Event.links]
    · rcases calls.clone with _ | _
      · simp only [link, World.emit_slots]
        split
        · refine ⟨[.cloned cx (.returned ()), .linked i cx front,
            .polled i cx (.returned .pending)], ?_⟩
          constructor <;> simp [wrapPoll, Event.callsUser, Event.hands, Event.links]
        · refine ⟨[.cloned cx (.returned ()), .fault .pushLinked,
            .polled i cx (.returned .pending)], ?_⟩
          constructor <;> simp [wrapPoll, Event.callsUser, Event.hands, Event.links]
      · refine ⟨[.cloned cx .panicked, .droppedParams q w'.locked, .polled i cx .panicked], ?_⟩
        constructor <;> simp [wrapPoll, World.dropParams, Event.callsUser, Event.hands, Event.links]
  · -- `S::acquire` or the order panicked
    refine ⟨[.polled i cx .panicked], ?_⟩
    constructor <;> simp [wrapPoll, Event.callsUser, Event.hands, Event.links]

theorem tryAcquire_follows (w : World ι κ W S O) (i : ι) (p : Params S) (fair : Bool) :
    ∃ rest, Follows i (acquireOrEnqueue C w.lock i p fair)
      (wrapTry i p (tryAcquire C w i p fair)) rest := by
  unfold tryAcquire
  rcases acquireOrEnqueue C w.lock i p fair with ⟨w', (r | q | q | ⟨front, q⟩) | _⟩
  · refine ⟨[.tried i p (.returned (.ok r))], ?_⟩
    constructor <;> simp [wrapTry, Event.callsUser, Event.hands, Event.links]
  · refine ⟨[.tried i p (.returned (.error (.closed q)))], ?_⟩
    constructor <;> simp [wrapTry, Event.callsUser, Event.hands, Event.links]
  · refine ⟨[.tried i p (.returned (.error (.poisoned q)))], ?_⟩
    constructor <;> simp [wrapTry, Event.callsUser, Event.hands, Event.links]
  · refine ⟨[.tried i p (.returned (.error (.noPermits q)))], ?_⟩
    constructor <;> simp [wrapTry, Event.callsUser, Event.hands, Event.links]
  · refine ⟨[.tried i p .panicked], ?_⟩
    constructor <;> simp [wrapTry, Event.callsUser, Event.hands, Event.links]

/-- How an arrival at an open queue goes: the order panics, sends the request behind the list,
or has it try at once. -/
inductive Admitted (w w' : World ι κ W S O) (i : ι) (p : Params S) : Prop where
  | orderPanics (order : O) (rest : List (Event ι κ W S))
      (hord : Order.enqueueFront w.inner.order w.inner.len = (order, .panicked))
      (hlog : w'.log = w.log ++ .consulted i w.inner.len .panicked :: rest)
      (hlinks : ∀ e ∈ rest, e.links i = false)
  | behind (order : O) (rest : List (Event ι κ W S))
      (hord : Order.enqueueFront w.inner.order w.inner.len = (order, .returned false))
      (hwaits : w.inner.entries ≠ [])
      (hlog : w'.log = w.log ++ .consulted i w.inner.len (.returned false) :: rest)
      (hquiet : ∀ e ∈ rest, e.callsUser = false)
  | leads (order : O) (front : Bool) (rest : List (Event ι κ W S))
      (hord : Order.enqueueFront w.inner.order w.inner.len = (order, .returned front))
      (hlead : front = false → w.inner.entries = [])
      (hlog : w'.log = w.log ++ .consulted i w.inner.len (.returned front) ::
        .acquired i p (SemaphoreState.acquire w.inner.state p).2 :: rest)
      (hstate : w'.inner.state = (SemaphoreState.acquire w.inner.state p).1)
      (hhands : (∃ e ∈ rest, e.hands i = true) ↔ Granted w.inner.state p)
      (hlinks : (∃ e ∈ rest, e.links i = true) → Refused w.inner.state p)

/-- The two sides of `acquire_or_enqueue` on an open queue. -/
theorem Follows.admitted {w w' : World ι κ W S O} {i : ι} {p : Params S}
    {rest : List (Event ι κ W S)} (h : Follows i (acquireOrEnqueue C w i p true) w' rest)
    (hopen : w.inner.admits C = true) {queue : WaitList ι W S} (hq : w.inner.queue = .ok queue) :
    Admitted w w' i p := by
  obtain ⟨hpoison, hclosing⟩ := QueueState.admits_iff.mp hopen
  have hentries := QueueState.entries_of_queue hq
  rcases hord : Order.enqueueFront w.inner.order w.inner.len with ⟨order, front | _⟩
  · rw [acquireOrEnqueue_open hpoison hclosing hq hord] at h
    cases hlead : front || queue.isEmpty with
    | false =>
      -- back of a list that is not empty: told to queue without a question
      obtain ⟨hfront, hne⟩ := Bool.or_eq_false_iff.mp hlead
      subst hfront
      simp only [hlead, Bool.not_false, if_true] at h
      refine .behind order rest hord (by simpa [hentries] using hne) ?_ h.quiet
      rw [h.log]
      simp [World.consult, hord]
    | true =>
      -- the request leads, and `S::acquire` is asked
      have hlead' : front = false → w.inner.entries = [] := by
        intro hfront
        subst hfront
        simpa [hentries] using hlead
      simp only [hlead, Bool.not_true, Bool.false_eq_true, if_false] at h
      have hhands := h.hands
      have hlinks := h.links
      refine .leads order front rest hord hlead' ?_ ?_ ?_ ?_
      · rw [h.log]
        rcases hacq : SemaphoreState.acquire w.inner.state p with ⟨state, (p' | r) | _⟩ <;>
          simp [World.consult, hord, lead, World.callAcquire, hacq]
      · rw [h.state]
        rcases hacq : SemaphoreState.acquire w.inner.state p with ⟨state, (p' | r) | _⟩ <;>
          simp [World.consult, lead, World.callAcquire, hacq]
      · rw [hhands]
        unfold Granted
        rcases hacq : SemaphoreState.acquire w.inner.state p with ⟨state, (p' | r) | _⟩ <;>
          simp [World.consult, lead, World.callAcquire, hacq]
      · intro hlinked
        obtain ⟨front', q, hres⟩ := hlinks hlinked
        unfold Refused
        rcases hacq : SemaphoreState.acquire w.inner.state p with ⟨state, (p' | r) | _⟩ <;>
          simp [World.consult, lead, World.callAcquire, hacq] at hres ⊢
  · -- the order panics, and nothing is asked or linked
    rw [acquireOrEnqueue_panicked hpoison hclosing hq hord] at h
    refine .orderPanics order (.droppedParams p w.locked :: rest) hord ?_ ?_
    · rw [h.log]
      simp [World.consult, hord, World.dropParams]
    · intro e he
      rcases List.mem_cons.mp he with rfl | he
      · rfl
      · by_contra hlink
        obtain ⟨front, q, hres⟩ := h.links ⟨e, he, by simpa using hlink⟩
        cases hres

theorem Admitted.of_start {w v w' : World ι κ W S O} {i : ι} {p : Params S}
    (h : Admitted v w' i p) (hinner : v.inner = w.inner) (hlog : v.log = w.log) :
    Admitted w w' i p := by
  cases h with
  | orderPanics order rest hord hlog' hlinks =>
    rw [hinner] at hord hlog'
    rw [hlog] at hlog'
    exact .orderPanics order rest hord hlog' hlinks
  | behind order rest hord hwaits hlog' hquiet =>
    rw [hinner] at hord hwaits hlog'
    rw [hlog] at hlog'
    exact .behind order rest hord hwaits hlog' hquiet
  | leads order front rest hord hlead hlog' hstate hhands hlinks =>
    rw [hinner] at hord hlead hlog' hstate hhands hlinks
    rw [hlog] at hlog'
    exact .leads order front rest hord hlead hlog' hstate hhands hlinks

variable [DecidableEq κ] [DecidableEq W]

/-- **How an arrival at an open queue goes.** -/
theorem step_admitted {w w' : World ι κ W S O} {a : Action ι κ W S} {i : ι} {p : Params S}
    (ha : a.arrival w = some (i, p)) (hopen : w.inner.admits C = true)
    {queue : WaitList ι W S} (hq : w.inner.queue = .ok queue) (h : step C w a = some w') :
    Admitted w w' i p := by
  cases a with
  | poll j cx calls =>
    obtain ⟨hj, hi⟩ := Action.arrival_poll ha
    subst hj
    simp only [step, hi] at h
    cases h
    obtain ⟨rest, hrest⟩ := pollFirst_follows (C := C)
      (w.lock.setSlot j (.live ⟨.initial, none⟩)) j p cx calls
    exact (hrest.admitted hopen hq).of_start rfl rfl
  | tryAcquire j q fair =>
    simp only [Action.arrival] at ha
    cases fair with
    | false => cases ha
    | true =>
      cases ha
      cases step_cases h with
      | tryAcquire _ _ _ hi =>
        obtain ⟨rest, hrest⟩ := tryAcquire_follows (C := C) (w.setSlot i .gone) i p true
        exact (hrest.admitted hopen hq).of_start rfl rfl
  | _ => cases ha

/-! ## Dead waiters -/

/-- Every node of the list has lost its params. -/
def QueueState.allDead (q : QueueState ι W S O) : Bool := q.entries.all fun e => e.2.1.isNone

/-- The same semaphore with nobody in its list. -/
def World.emptied (w : World ι κ W S O) : World ι κ W S O :=
  { w with inner := { w.inner with queue := .ok [], len := 0 } }

/-- Dead waiters are not in the way of what arrives at an open queue with a step: the request
tries to acquire unless the order sends it behind a live waiter; if all waiters are dead it
fares as if there were none, and is not queued if the state would grant it. -/
structure ServesPastDead (C : Closeability) (w : World ι κ W S O) (a : Action ι κ W S)
    (w' : World ι κ W S O) (i : ι) (p : Params S) : Prop where
  tries : w.inner.OrderAnswers w.inner.len → (∃ res, .acquired i p res ∈ w.since w') ∨
    .consulted i w.inner.len (.returned false) ∈ w.since w' ∧ w.inner.allDead = false
  as_empty : w.inner.allDead = true → w.inner.OrderAnswers w.inner.len →
    w.inner.OrderAnswers 0 → ∀ w₀, step C w.emptied a = some w₀ →
    ((∃ e ∈ w.since w', e.hands i = true) ↔ ∃ e ∈ w.emptied.since w₀, e.hands i = true)
  not_stuck : w.inner.allDead = true → (∃ e ∈ w.since w', e.links i = true) →
    ¬ Granted w'.inner.state p

/-- The order would send an arrival to the back of a list that has dead waiters only. -/
def QueueState.deadEnd (q : QueueState ι W S O) : Bool :=
  !q.entries.isEmpty && q.allDead &&
    match (Order.enqueueFront q.order q.len).2 with
    | .returned front => !front
    | .panicked => false

theorem Refused.not_granted {s : S} {p : Params S} (h : Refused s p) : ¬ Granted s p := by
  intro hgranted
  obtain ⟨s', p', hp⟩ := h
  obtain ⟨s'', r, hr⟩ := hgranted
  rw [hp] at hr
  cases hr

omit [DecidableEq κ] [DecidableEq W] in
/-- On an empty list an arrival is handed a permit exactly if the state grants it one. -/
theorem Admitted.hands_iff {w w' : World ι κ W S O} {i : ι} {p : Params S}
    (h : Admitted w w' i p) (hanswers : w.inner.OrderAnswers w.inner.len)
    (hnil : w.inner.entries = []) :
    (∃ e ∈ w.since w', e.hands i = true) ↔ Granted w.inner.state p := by
  cases h with
  | orderPanics order rest hord => exact absurd (by rw [hord]) hanswers
  | behind order rest hord hwaits => exact absurd hnil hwaits
  | leads order front rest hord hlead hlog hstate hhands =>
    rw [World.since_of_log hlog, ← hhands]
    simp [Event.hands]

/-- **Dead waiters are not in the way of an arrival** at an open queue exactly if the order
does not send it behind a list of dead waiters only. -/
theorem servesPastDead_iff (hkeep : RefusalKeepsState S) {w w' : World ι κ W S O}
    {a : Action ι κ W S} {i : ι} {p : Params S} (ha : a.arrival w = some (i, p))
    (hopen : w.inner.admits C = true) {queue : WaitList ι W S} (hq : w.inner.queue = .ok queue)
    (h : step C w a = some w') : ServesPastDead C w a w' i p ↔ w.inner.deadEnd = false := by
  have hstep := step_admitted ha hopen hq h
  unfold QueueState.deadEnd
  constructor
  · intro hserves
    have htries := hserves.tries
    cases hstep with
    | orderPanics order rest hord => simp [hord]
    | leads order front rest hord hlead =>
      cases front with
      | true => simp [hord]
      | false => simp [hlead rfl]
    | behind order rest hord hwaits hlog hquiet =>
      -- `S::acquire` is not called, so somebody in the list is alive
      rw [World.since_of_log hlog] at htries
      rcases htries (by simp [QueueState.OrderAnswers, hord]) with ⟨res, hres⟩ | ⟨-, hlive⟩
      · rcases List.mem_cons.mp hres with heq | hmem
        · cases heq
        · cases hquiet _ hmem
      · simp [hlive]
  · intro hend
    constructor
    case tries =>
      intro hanswers
      cases hstep with
      | orderPanics order rest hord => exact absurd (by rw [hord]) hanswers
      | behind order rest hord hwaits hlog =>
        rw [World.since_of_log hlog]
        refine Or.inr ⟨List.mem_cons_self .., ?_⟩
        simpa [hord, hwaits] using hend
      | leads order front rest hord hlead hlog =>
        rw [World.since_of_log hlog]
        exact Or.inl ⟨_, List.mem_cons_of_mem _ (List.mem_cons_self ..)⟩
    case as_empty =>
      intro hdead hanswers hanswers₀ w₀ h₀
      have hstep₀ : Admitted w.emptied w₀ i p := step_admitted ha hopen rfl h₀
      rw [hstep₀.hands_iff hanswers₀ rfl]
      show _ ↔ Granted w.inner.state p
      cases hstep with
      | orderPanics order rest hord => exact absurd (by rw [hord]) hanswers
      | behind order rest hord hwaits => simp [hord, hwaits, hdead] at hend
      | leads order front rest hord hlead hlog hstate hhands =>
        rw [World.since_of_log hlog]
        simpa [Event.hands] using hhands
    case not_stuck =>
      intro hdead hlinked
      cases hstep with
      | orderPanics order rest hord hlog hlinks =>
        rw [World.since_of_log hlog] at hlinked
        obtain ⟨e, he, hlink⟩ := hlinked
        rcases List.mem_cons.mp he with rfl | he
        · cases hlink
        · rw [hlinks e he] at hlink
          cases hlink
      | behind order rest hord hwaits => simp [hord, hwaits, hdead] at hend
      | leads order front rest hord hlead hlog hstate hhands hlinks =>
        rw [World.since_of_log hlog] at hlinked
        have hrefused : Refused w.inner.state p := hlinks (by simpa [Event.links] using hlinked)
        obtain ⟨s', p', hacq⟩ := hrefused
        -- the refusal has left the state as it was
        have hsame := hkeep _ _ _ _ hacq
        rw [hstate, hacq, hsame]
        exact Refused.not_granted ⟨s', p', hacq⟩

/-! ## The statement about runs -/

/-- Dead waiters are not in the way of what arrives with a step, if anything does and the
queue is open. -/
def SkipsDead (C : Closeability) (w : World ι κ W S O) (a : Action ι κ W S)
    (w' : World ι κ W S O) : Prop :=
  ∀ i p, a.arrival w = some (i, p) → w.inner.admits C = true → ServesPastDead C w a w' i p

/-- A fair request arrives at an open queue, and the order sends it to the back of a list that
has dead waiters only. -/
def turnedAwayByDead (C : Closeability) (w : World ι κ W S O) (a : Action ι κ W S) : Bool :=
  (a.arrival w).isSome && w.inner.admits C && w.inner.deadEnd

theorem step_skipsDead (hkeep : RefusalKeepsState S) {w w' : World ι κ W S O} (hw : Settled C w)
    {a : Action ι κ W S} (h : step C w a = some w') :
    SkipsDead C w a w' ↔ turnedAwayByDead C w a = false := by
  unfold SkipsDead turnedAwayByDead
  cases ha : a.arrival w with
  | none => simp
  | some arrival =>
    obtain ⟨i, p⟩ := arrival
    cases hopen : w.inner.admits C with
    | false => simp
    | true =>
      obtain ⟨queue, hq⟩ := hw.coherent.queue_of_open (QueueState.admits_iff.mp hopen).2
      simpa using servesPastDead_iff hkeep ha hopen hq h

/-- **Dead waiters block service** in a run exactly if one of its steps is a first poll or a
fair `try_acquire` of an open queue whose list is not empty but has dead waiters only, and
the order answers that it goes to the back. -/
theorem dead_waiters_block_iff (hkeep : RefusalKeepsState S) (state : S) (order : O)
    (acts : List (Action ι κ W S)) :
    Transition.EveryStep (step C) (SkipsDead C) (World.new state order) acts ↔
      Transition.EveryStep (step C) (fun v a _ => turnedAwayByDead C v a = false)
        (World.new state order) acts := by
  apply Transition.everyStep_congr (Settled C) (fun _ _ _ hv hstep => hv.step hstep) ?_
    (Settled.new state order)
  intro v a v' hv hstep
  exact step_skipsDead hkeep hv hstep

/-! ## A dead end -/

/-- A waiter dies in a drain, the state is repaired, the poison cleared. -/
def deadWaiterRun : List (Action Nat Nat Nat Bomb) :=
  [.acquire 0 (1 : Nat), .poll 0 7 .quiet,
    .withState 0 fun _ => (⟨2, true⟩, .returned ()), .finish 0 (.returned ()),
    .withState 1 fun s => ({ s with armed := false }, .returned ()), .finish 1 (.returned ()),
    .clearPoison]

/-- With FIFO order the next fair `try_acquire` is turned away, although there are permits and
nobody else waits. -/
theorem dead_waiter_blocks :
    ¬ ∀ w w' : World Nat Nat Nat Bomb FairOrder,
      run .uncloseable ⟨0, false⟩ .fifo deadWaiterRun = some w →
      step .uncloseable w (.tryAcquire 1 (1 : Nat) true) = some w' →
      SkipsDead .uncloseable w (.tryAcquire 1 (1 : Nat) true) w' := by
  intro hskips
  have hrun : (run .uncloseable (⟨0, false⟩ : Bomb) FairOrder.fifo deadWaiterRun).any (fun w =>
      turnedAwayByDead .uncloseable w (.tryAcquire 1 (1 : Nat) true) &&
        (step .uncloseable w (.tryAcquire 1 (1 : Nat) true)).isSome) = true := rfl
  obtain ⟨w, hw, htest⟩ := (Option.any_eq_true _ _).mp hrun
  obtain ⟨hdead, hstep⟩ := Bool.and_eq_true_iff.mp htest
  obtain ⟨w', hw'⟩ := Option.isSome_iff_exists.mp hstep
  have hsettled : Settled .uncloseable w := (Settled.new _ _).exec hw
  have hclear := (step_skipsDead Bomb.refusalKeepsState hsettled hw').mp (hskips w w' hw hw')
  rw [hdead] at hclear
  cases hclear

/-- The same run, with the attempt that is turned away. -/
theorem dead_waiters_block_iff_of_try :
    ∃ w : World Nat Nat Nat Bomb FairOrder,
      run .uncloseable ⟨0, false⟩ .fifo (deadWaiterRun ++ [.tryAcquire 1 (1 : Nat) true]) = some w ∧
      (Transition.EveryStep (step .uncloseable) (SkipsDead .uncloseable)
          (World.new ⟨0, false⟩ .fifo : World Nat Nat Nat Bomb FairOrder)
          (deadWaiterRun ++ [.tryAcquire 1 (1 : Nat) true]) ↔
        Transition.EveryStep (step .uncloseable)
          (fun v a _ => turnedAwayByDead .uncloseable v a = false)
          (World.new ⟨0, false⟩ .fifo : World Nat Nat Nat Bomb FairOrder)
          (deadWaiterRun ++ [.tryAcquire 1 (1 : Nat) true])) :=
  ⟨_, rfl, dead_waiters_block_iff Bomb.refusalKeepsState _ _ _⟩

end FlagBearer
