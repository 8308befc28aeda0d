import FlagBearer.Core.Counter
import FlagBearer.Queue.Overtaking

/-!
# Starvation

What an order gives up that sends requests ahead of a waiting queue. If a stateless order sends a
request to the front when `m` tasks are queued, for any `m` but zero, then a waiter can be
overtaken by any number of requests that arrive after it: one joins, the only permit comes back
and goes to it, and the queue is as it was. LIFO order does so from one waiter on, a hybrid order
from one more than its `lifo_above`. An order that sends nobody ahead of a waiting queue cannot do
so, by the bound of `Overtaking`.

## Main results

- `Crowded.join`: a request joins a crowd
- `Crowded.serve`: the permit goes to the first of a crowd
- `Reachable.fronts_since`: who is sent to the front while somebody waits
- `backlog_can_starve`: the statement about runs
-/

namespace FlagBearer

open PinList History

variable {O : Type} [Order O]

/-! ## Crowds -/

/-- The only permit is held by `holder`, the tasks of `queue` wait for it, no call is in progress,
and the names from `fresh` on are not in use. -/
structure Crowded (order : O) (holder : Nat) (queue : WaitList Nat Nat SemaphoreCounter)
    (fresh : Nat) (w : World Nat Nat Nat SemaphoreCounter O) : Prop where
  settled : Settled .uncloseable w
  inner : w.inner = ⟨.ok queue, false, false, queue.length, order, ⟨0⟩⟩
  single : ∀ e ∈ queue, e.2.1 = some (1 : Nat)
  held : w.permits holder = some (1 : Nat)
  unborn : ∀ i, fresh ≤ i → w.slots i = .unborn
  idle : ∀ k, w.calls k = none

/-- Without permits a request is told to queue, wherever the order sends it. -/
theorem acquireOrEnqueue_crowded {order : O} {f : Nat → Bool} (hf : Decides order f)
    {w : World Nat Nat Nat SemaphoreCounter O} {queue : WaitList Nat Nat SemaphoreCounter}
    (hinner : w.inner = ⟨.ok queue, false, false, queue.length, order, ⟨0⟩⟩) (i : Nat) :
    ∃ tried : List (Event Nat Nat Nat SemaphoreCounter),
      acquireOrEnqueue .uncloseable w i (1 : Nat) true =
        ({ w with log := w.log ++ .consulted i queue.length (.returned (f queue.length)) ::
            tried }, .returned (.enqueue (f queue.length) (1 : Nat))) ∧
      ∀ e ∈ tried, e.isNoGrant = true := by
  have hacq : SemaphoreState.acquire (⟨0⟩ : SemaphoreCounter) (1 : Nat) =
      (⟨0⟩, .returned (.error (1 : Nat))) := rfl
  have hord : Order.enqueueFront w.inner.order w.inner.len =
      (order, .returned (f queue.length)) := by
    rw [hinner]
    exact hf _
  have hpoison : w.inner.poisoned = false := by rw [hinner]
  have hclosing : w.inner.closing .uncloseable = false := rfl
  have hq : w.inner.queue = .ok queue := by rw [hinner]
  rw [acquireOrEnqueue_open hpoison hclosing hq hord]
  split
  · refine ⟨[], ?_, by simp⟩
    simp [World.consult, hinner, hf queue.length, World.emit]
  · refine ⟨[.acquired i (1 : Nat) (.returned (.error (1 : Nat)))], ?_, by simp [Event.isNoGrant]⟩
    simp [World.consult, hinner, hf queue.length, lead, World.callAcquire, World.guarded,
      World.emit, hacq]

/-- The list after the request `i` has joined it. -/
def withRequest (queue : WaitList Nat Nat SemaphoreCounter) (i : Nat) (front : Bool) :
    WaitList Nat Nat SemaphoreCounter :=
  if front then queue.pushFront i (some (1 : Nat), 0) else queue.pushBack i (some (1 : Nat), 0)

theorem mem_withRequest {queue : WaitList Nat Nat SemaphoreCounter} {i : Nat} {front : Bool}
    {e : Nat × Protected Nat SemaphoreCounter} :
    e ∈ withRequest queue i front ↔ e = (i, some (1 : Nat), 0) ∨ e ∈ queue := by
  cases front with
  | false => simpa [withRequest, pushBack] using or_comm
  | true => simp [withRequest, pushFront]

theorem length_withRequest (queue : WaitList Nat Nat SemaphoreCounter) (i : Nat) (front : Bool) :
    (withRequest queue i front).length = queue.length + 1 := by
  cases front <;> simp [withRequest, pushFront, pushBack]

/-- The first poll of a request in a crowd. -/
theorem pollAcquire_crowded {order : O} {f : Nat → Bool} (hf : Decides order f)
    {w : World Nat Nat Nat SemaphoreCounter O} {queue : WaitList Nat Nat SemaphoreCounter}
    (hinner : w.inner = ⟨.ok queue, false, false, queue.length, order, ⟨0⟩⟩) (i : Nat) :
    ∃ tried : List (Event Nat Nat Nat SemaphoreCounter),
      pollAcquire .uncloseable w i ⟨.initial, some (1 : Nat)⟩ 0 .quiet =
        { w with
          locked := false
          inner :=
            ⟨.ok (withRequest queue i (f queue.length)), false, false, queue.length + 1, order, ⟨0⟩⟩
          slots := Function.update w.slots i (.live ⟨.linked, none⟩)
          log := w.log ++ .consulted i queue.length (.returned (f queue.length)) :: tried } ∧
      ∀ e ∈ tried, e.isNoGrant = true := by
  obtain ⟨tried, heq, hnone⟩ := acquireOrEnqueue_crowded hf
    (w := w.lock.setSlot i (.live ⟨.initial, none⟩)) hinner i
  refine ⟨tried ++ [.cloned 0 (.returned ()), .linked i 0 (f queue.length),
    .polled i 0 (.returned .pending)], ?_, ?_⟩
  · simp only [pollAcquire, poll, pollFirst, heq]
    simp [hinner, WakerCalls.quiet, link, wrapPoll, World.emit, World.setSlot, World.setList,
      World.lock, World.unlock, withRequest]
  · intro e he
    rcases List.mem_append.mp he with he | he
    · exact hnone e he
    · simp only [List.mem_cons, List.not_mem_nil, or_false] at he
      rcases he with rfl | rfl | rfl <;> rfl

/-- **A request joins a crowd**, at the end that the order chooses. -/
theorem Crowded.join {order : O} {f : Nat → Bool} (hf : Decides order f)
    {holder : Nat} {queue : WaitList Nat Nat SemaphoreCounter} {fresh : Nat}
    {w : World Nat Nat Nat SemaphoreCounter O} (hw : Crowded order holder queue fresh w) :
    ∃ w' es,
      Transition.exec (step .uncloseable) w [.acquire fresh (1 : Nat), .poll fresh 0 .quiet] =
        some w' ∧
      Crowded order holder (withRequest queue fresh (f queue.length)) (fresh + 1) w' ∧
      fresh ∈ arrivals w'.log ∧ w'.log = w.log ++ es ∧ ∀ e ∈ es, e.isNoGrant = true := by
  have hfresh := hw.unborn fresh (Nat.le_refl _)
  -- the order is asked once, and no permit is there to be granted
  obtain ⟨tried, heq, hnone⟩ := pollAcquire_crowded hf
    (w := (w.setSlot fresh (.live ⟨.initial, some (1 : Nat)⟩)).emit (.created fresh (1 : Nat)))
    hw.inner fresh
  have hexec : Transition.exec (step .uncloseable) w
      [.acquire fresh (1 : Nat), .poll fresh 0 .quiet] = some (pollAcquire .uncloseable
        ((w.setSlot fresh (.live ⟨.initial, some (1 : Nat)⟩)).emit (.created fresh (1 : Nat)))
        fresh ⟨.initial, some (1 : Nat)⟩ 0 .quiet) := by
    simp [step, hfresh]
  rw [heq] at hexec
  refine ⟨_, .created fresh (1 : Nat) ::
    .consulted fresh queue.length (.returned (f queue.length)) :: tried, hexec, ?_, ?_, ?_, ?_⟩
  · constructor
    case settled => exact hw.settled.exec hexec
    case inner => simp [length_withRequest]
    case single =>
      intro e he
      rcases mem_withRequest.mp he with rfl | he
      · rfl
      · exact hw.single e he
    case held => exact hw.held
    case unborn =>
      intro i hi
      have hne : i ≠ fresh := by omega
      simp [hne, hw.unborn i (by omega)]
    case idle => exact hw.idle
  · exact mem_arrivals.mpr ⟨f queue.length, by simp [decisions, Event.decision?]⟩
  · simp
  · simpa [Event.isNoGrant] using hnone

omit [Order O] in
/-- The drain stops at the next of the crowd. -/
theorem checkLoop_crowded {order : O} {rest : WaitList Nat Nat SemaphoreCounter}
    {w : World Nat Nat Nat SemaphoreCounter O}
    (hinner : w.inner = ⟨.ok rest, false, false, rest.length, order, ⟨0⟩⟩)
    (hsingle : ∀ e ∈ rest, e.2.1 = some (1 : Nat)) :
    ∃ es : List (Event Nat Nat Nat SemaphoreCounter),
      checkLoop 0 [] rest w = ({ w with log := w.log ++ es }, .returned ()) ∧
      ∀ e ∈ es, e.isNoGrant = true := by
  cases rest with
  | nil => exact ⟨[], by simp [checkLoop], by simp⟩
  | cons e rest =>
    obtain ⟨j, params, y⟩ := e
    obtain rfl : params = some (1 : Nat) := hsingle _ (List.mem_cons_self ..)
    have hrefuse : SemaphoreState.acquire w.inner.state (1 : Nat) =
        ((⟨0⟩ : SemaphoreCounter), .returned (.error (1 : Nat))) := by
      rw [hinner]
      rfl
    refine ⟨[.acquired j (1 : Nat) (.returned (.error (1 : Nat)))], ?_, by simp [Event.isNoGrant]⟩
    rw [checkLoop_refuse 0 hrefuse]
    simp [hinner]

omit [Order O] in
/-- A permit in the hands of the state goes to the first of the crowd. -/
theorem withQueueTurn_crowded {order : O} {i : Nat} {x : Nat}
    {rest : WaitList Nat Nat SemaphoreCounter} {w : World Nat Nat Nat SemaphoreCounter O}
    (hw : Coherent .uncloseable w)
    (hinner : w.inner =
      ⟨.ok ((i, some (1 : Nat), x) :: rest), false, false, rest.length + 1, order, ⟨1⟩⟩)
    (hsingle : ∀ e ∈ rest, e.2.1 = some (1 : Nat))
    (hk : w.calls 0 = some (.start .withQueue)) :
    ∃ (wakes : WakeBatch Nat Nat) (es : List (Event Nat Nat Nat SemaphoreCounter)),
      withQueueTurn .uncloseable 0 w =
        { w with
          locked := false
          inner := ⟨.ok rest, false, false, rest.length, order, ⟨0⟩⟩
          slots := Function.update w.slots i (.live ⟨.removed (.ok (1 : Nat)), none⟩)
          calls := Function.update w.calls 0 (some ⟨.withQueue, wakes, false, false, none⟩)
          log := w.log ++ .acquired i (1 : Nat) (.returned (.ok (1 : Nat))) :: es } ∧
      wakes.wakers = [(i, x)] ∧ ∀ e ∈ es, e.isNoGrant = true := by
  have hq : w.inner.queue = .ok ([] ++ (i, some (1 : Nat), x) :: rest) := by rw [hinner]; rfl
  have hgrant : SemaphoreState.acquire w.inner.state (1 : Nat) =
      ((⟨0⟩ : SemaphoreCounter), .returned (.ok (1 : Nat))) := by
    rw [hinner]
    rfl
  obtain ⟨wakes, hpush⟩ := WakeBatch.push_of_not_isFull
    (b := (Call.start .withQueue : Call Nat Nat SemaphoreCounter).wakes) rfl i x
  have hwakers : wakes.wakers = [(i, x)] := (WakeBatch.push_eq_some.mp hpush).2
  have hroom : wakes.isFull = false := by simp [WakeBatch.isFull, hwakers, WakeBatch.CAP]
  obtain ⟨w', hw', hloop⟩ := checkLoop_grant 0 hw hq hk hpush hgrant
  rw [if_neg (by simp [hroom])] at hloop
  have hinner' : w'.inner = ⟨.ok rest, false, false, rest.length, order, ⟨0⟩⟩ := by
    simp [hw', hinner]
  -- the next one of the crowd is refused, which ends the check
  obtain ⟨es, hstop, hes⟩ := checkLoop_crowded hinner' hsingle
  have hcheck : check .uncloseable 0 w =
      checkLoop 0 [] ((i, some (1 : Nat), x) :: rest) w := by
    simp only [check, hinner]
    rfl
  rw [hloop, hstop] at hcheck
  refine ⟨wakes, .removed 0 .withQueue i x :: es, ?_, hwakers, by simpa [Event.isNoGrant] using hes⟩
  simp only [withQueueTurn, hcheck]
  simp [hw', hinner, World.batchFull, World.modifyCall, World.unlock, World.setCall, Call.start,
    hroom]

/-- The permit guard is dropped, and the permit goes to the first of the crowd. -/
theorem Crowded.dropPermit {order : O} {holder i x : Nat}
    {rest : WaitList Nat Nat SemaphoreCounter} {fresh : Nat}
    {w : World Nat Nat Nat SemaphoreCounter O}
    (hw : Crowded order holder ((i, some (1 : Nat), x) :: rest) fresh w) :
    ∃ (wakes : WakeBatch Nat Nat) (es : List (Event Nat Nat Nat SemaphoreCounter)),
      dropPermit .uncloseable 0 w holder (1 : Nat) =
        { w with
          locked := false
          inner := ⟨.ok rest, false, false, rest.length, order, ⟨0⟩⟩
          slots := Function.update w.slots i (.live ⟨.removed (.ok (1 : Nat)), none⟩)
          permits := Function.update w.permits holder none
          calls := Function.update w.calls 0 (some ⟨.withQueue, wakes, false, false, none⟩)
          log := w.log ++ .entered 0 .withQueue :: .released .guard holder (1 : Nat) (.returned ())
            :: .acquired i (1 : Nat) (.returned (.ok (1 : Nat))) :: es } ∧
      wakes.wakers = [(i, x)] ∧ ∀ e ∈ es, e.isNoGrant = true := by
  have hinner := hw.inner
  have hrelease : SemaphoreState.release (⟨0⟩ : SemaphoreCounter) (1 : Nat) =
      (⟨1⟩, .returned ()) := SemaphoreCounter.add_eq_returned.mpr ⟨by decide, rfl⟩
  have htake : Move .uncloseable (some holder) (w, .empty)
      (w.setPermit holder none, .releasing .guard holder (1 : Nat)) :=
    .takeGuard w holder (1 : Nat) hw.held rfl
  have hclosure : ClosureMoves .uncloseable (some holder) 0 (.releasing .guard holder (1 : Nat))
      ((w.setPermit holder none).enter 0) _ :=
    callRelease_closure .guard holder (1 : Nat) ((w.setPermit holder none).enter_call 0)
  have hcoh := ((hw.settled.coherent.move htake).enter (hw.idle 0)).moves hclosure.moves
  -- after the closure the state has the permit
  obtain ⟨w', hreturned, hw'⟩ :
      ∃ w', ((w.setPermit holder none).enter 0).callRelease .guard holder (1 : Nat) =
          (w', .returned ()) ∧
        w' = { w with
          locked := true
          inner := ⟨.ok ((i, some (1 : Nat), x) :: rest), false, false, rest.length + 1, order,
            ⟨1⟩⟩
          permits := Function.update w.permits holder none
          calls := Function.update w.calls 0 (some (.start .withQueue))
          log := w.log ++ [.entered 0 .withQueue,
            .released .guard holder (1 : Nat) (.returned ())] } := by
    refine ⟨_, ?_, rfl⟩
    simp [World.callRelease, World.enter, World.emit, World.lock, World.setCall, World.setPermit,
      World.guarded, hinner, hrelease]
  rw [hreturned] at hcoh
  obtain ⟨wakes, es, hturn, hwakers, hes⟩ := withQueueTurn_crowded hcoh (by rw [hw'])
    (fun e he => hw.single e (List.mem_cons_of_mem _ he)) (by simp [hw'])
  refine ⟨wakes, es, ?_, hwakers, hes⟩
  rw [FlagBearer.dropPermit, withQueue_of_returned hreturned, if_neg (by simp [hw']), hturn]
  simp [hw']

/-- **The permit goes to the first of the crowd**, who claims it. -/
theorem Crowded.serve {order : O} {holder i x : Nat}
    {rest : WaitList Nat Nat SemaphoreCounter} {fresh : Nat}
    {w : World Nat Nat Nat SemaphoreCounter O}
    (hw : Crowded order holder ((i, some (1 : Nat), x) :: rest) fresh w)
    (hasked : i ∈ arrivals w.log) :
    ∃ w' es,
      Transition.exec (step .uncloseable) w [.dropPermit 0 holder, .wake 0 (.returned ()),
        .finish 0 (.returned ()), .poll i 0 .quiet] = some w' ∧
      Crowded order i rest fresh w' ∧ w'.log = w.log ++ es ∧ turns w.log es = 1 ∧
      ∀ e ∈ es, e.isNoGrant = true ∨ e = .acquired i (1 : Nat) (.returned (.ok (1 : Nat))) := by
  obtain ⟨wakes, es, hdrop, hwakers, hes⟩ := hw.dropPermit
  have hpop : wakes.pop = some ((i, x), .new) := WakeBatch.pop_eq_some.mpr (by simp [hwakers])
  -- the check grants the head its permit, the wake and the poll hand it over
  have hexec : Transition.exec (step .uncloseable) w [.dropPermit 0 holder, .wake 0 (.returned ()),
      .finish 0 (.returned ()), .poll i 0 .quiet] = some { w with
          locked := false
          inner := ⟨.ok rest, false, false, rest.length, order, ⟨0⟩⟩
          slots := Function.update w.slots i (.live ⟨.initial, none⟩)
          permits := Function.update (Function.update w.permits holder none) i (some (1 : Nat))
          calls := Function.update w.calls 0 none
          log := w.log ++ (.entered 0 .withQueue :: .released .guard holder (1 : Nat) (.returned ())
            :: .acquired i (1 : Nat) (.returned (.ok (1 : Nat))) :: (es ++
            [.woke 0 i x false (.returned ()), .returned 0 .withQueue (.returned ()),
              .took i, .polled i 0 (.returned (.ready (.ok (1 : Nat))))])) } := by
    simp [step, hw.held, hw.idle, hdrop, wakeNext, finish, hpop, dropAbandoned, pollAcquire, poll,
      pollAgain, QueueState.closing, Closeability.CLOSE, Node.protectedMut, pollTake,
      Node.takeRemoved, wrapPoll, World.setNode, World.emit, World.setCall, World.setPermit,
      World.setSlot, World.lock, World.unlock]
  have hnone : ∀ e ∈ es ++ [.woke 0 i x false (.returned ()),
      .returned 0 .withQueue (.returned ()), .took i,
      .polled i 0 (.returned (.ready (.ok (1 : Nat))))], e.isNoGrant = true := by
    intro e he
    rcases List.mem_append.mp he with he | he
    · exact hes e he
    · simp only [List.mem_cons, List.not_mem_nil, or_false] at he
      rcases he with rfl | rfl | rfl | rfl <;> rfl
  refine ⟨_, _, hexec, ?_, rfl, ?_, ?_⟩
  · have hlinked : w.slots i ≠ .unborn := by
      have hq : w.inner.queue = .ok ([] ++ (i, some (1 : Nat), x) :: rest) := by
        rw [hw.inner]
        rfl
      simp [hw.settled.coherent.slot_of_split hq]
    constructor
    case settled => exact hw.settled.exec hexec
    case inner => rfl
    case single => exact fun e he => hw.single e (List.mem_cons_of_mem _ he)
    case held => exact Function.update_self ..
    case unborn =>
      intro j hj
      have hne : j ≠ i := by
        rintro rfl
        exact hlinked (hw.unborn j hj)
      simp [hne, hw.unborn j hj]
    case idle =>
      intro k
      by_cases hk : k = 0
      · simp [hk]
      · simp [hk, hw.idle k]
  · -- `i` decided before the first of these events, so its grant is a turn
    have hasked' : i ∈ arrivals (w.log ++ [.entered 0 .withQueue,
        .released .guard holder (1 : Nat) (.returned ())]) := by
      simp only [arrivals, decisions_append, List.map_append, List.mem_append]
      exact Or.inl hasked
    rw [turns_cons, turns_cons, turns_cons, turns_eq_zero hnone]
    simp [isTurn, hasked']
  · intro e he
    rcases he with _ | ⟨_, _ | ⟨_, _ | ⟨_, he⟩⟩⟩
    · exact Or.inl rfl
    · exact Or.inl rfl
    · exact Or.inr rfl
    · exact Or.inl (hnone e he)

/-- Requests come one by one and are sent to the front, and the permit goes to each of them. -/
theorem Crowded.rounds {order : O} {f : Nat → Bool} (hf : Decides order f)
    {queue : WaitList Nat Nat SemaphoreCounter} (hfront : f queue.length = true) {holder : Nat}
    {fresh : Nat} {w : World Nat Nat Nat SemaphoreCounter O}
    (hw : Crowded order holder queue fresh w) (n : Nat) :
    ∃ acts w' holder' es, Transition.exec (step .uncloseable) w acts = some w' ∧
      Crowded order holder' queue (fresh + n) w' ∧ w'.log = w.log ++ es ∧ turns w.log es = n ∧
      ∀ e ∈ es, e.isNoGrant = true ∨
        ∃ j, fresh ≤ j ∧ e = .acquired j (1 : Nat) (.returned (.ok (1 : Nat))) := by
  induction n with
  | zero => exact ⟨[], w, holder, [], rfl, hw, by simp, rfl, by simp⟩
  | succ n ih =>
    obtain ⟨acts, w₁, holder₁, es₁, hexec₁, hw₁, hlog₁, hturns₁, hes₁⟩ := ih
    obtain ⟨w₂, es₂, hexec₂, hw₂, hasked, hlog₂, hes₂⟩ := hw₁.join hf
    rw [hfront, withRequest, if_pos rfl, pushFront] at hw₂
    obtain ⟨w₃, es₃, hexec₃, hw₃, hlog₃, hturns₃, hes₃⟩ := hw₂.serve hasked
    refine ⟨_, w₃, fresh + n, es₁ ++ (es₂ ++ es₃),
      Transition.exec_trans hexec₁ (Transition.exec_trans hexec₂ hexec₃), hw₃, ?_, ?_, ?_⟩
    · rw [hlog₃, hlog₂, hlog₁, List.append_assoc, List.append_assoc]
    · rw [turns_append, turns_append, ← hlog₁, ← hlog₂, hturns₁, turns_eq_zero hes₂, hturns₃,
        Nat.zero_add]
    · intro e he
      rcases List.mem_append.mp he with he | he
      · exact hes₁ e he
      · rcases List.mem_append.mp he with he | he
        · exact Or.inl (hes₂ e he)
        · rcases hes₃ e he with hnone | hgrant
          · exact Or.inl hnone
          · exact Or.inr ⟨fresh + n, Nat.le_add_right _ _, hgrant⟩

/-- Requests can wait in any number, behind the first to take the only permit. -/
theorem exists_crowded {order : O} {f : Nat → Bool} (hf : Decides order f) (m : Nat) :
    ∃ (w : World Nat Nat Nat SemaphoreCounter O) (queue : WaitList Nat Nat SemaphoreCounter)
      (fresh : Nat), Reachable .uncloseable ⟨1⟩ order w ∧ Crowded order 0 queue fresh w ∧
      queue.length = m := by
  induction m with
  | zero =>
    have hreach : Reachable .uncloseable (⟨1⟩ : SemaphoreCounter) order
        (tryAcquirePermit .uncloseable (World.new ⟨1⟩ order) 0 (1 : Nat) false :
          World Nat Nat Nat SemaphoreCounter O) :=
      Transition.Reachable.start.next (.tryAcquire 0 (1 : Nat) false) rfl
    refine ⟨_, [], 1, hreach, ?_, rfl⟩
    constructor
    case settled => exact Reachable.settled hreach
    case inner => rfl
    case single => simp
    case held => rfl
    case unborn =>
      intro i hi
      have hne : i ≠ 0 := by omega
      have hslots : (tryAcquirePermit .uncloseable (World.new ⟨1⟩ order) 0 (1 : Nat) false :
          World Nat Nat Nat SemaphoreCounter O).slots =
            Function.update (fun _ => .unborn) 0 .gone := rfl
      rw [hslots, Function.update_of_ne hne]
    case idle => exact fun _ => rfl
  | succ m ih =>
    obtain ⟨w, queue, fresh, hreach, hw, hlen⟩ := ih
    obtain ⟨w', es, hexec, hw', -⟩ := hw.join hf
    exact ⟨w', _, _, hreach.exec hexec, hw', by rw [length_withRequest, hlen]⟩

/-! ## Orders that respect a waiting queue -/

section Respect

variable {ι κ W S : Type} [DecidableEq ι] [DecidableEq κ] [DecidableEq W] [SemaphoreState S]
variable {C : Closeability} {own : Option ι}

/-- Is the order asked about an empty queue here? -/
def Event.atEmpty : Event ι κ W S → Bool
  | .consulted _ 0 _ => true
  | _ => false

omit [DecidableEq ι] [DecidableEq κ] [DecidableEq W] in
theorem Event.not_atEmpty_of_ne_zero {n : Nat} (hn : n ≠ 0) (i : ι) (res : Unwind Bool) :
    (.consulted i n res : Event ι κ W S).atEmpty = false := by
  cases n with
  | zero => contradiction
  | succ n => rfl

/-- The order was asked about an empty queue `n` times, as long as `i` waits. -/
def Accompanied (i : ι) (n : Nat) (c : Conf ι κ W S O) : Prop :=
  c.1.Waits i → c.1.log.countP Event.atEmpty = n

omit [DecidableEq W] in
/-- While somebody waits the order is not asked about an empty queue. -/
theorem Accompanied.move {i : ι} {n : Nat} {c d : Conf ι κ W S O} (hc : Accompanied i n c)
    (hw : Coherent C c.1) (ht : Traced C c) (hi : Joined i c) (h : Move C own c d) :
    Accompanied i n d := by
  intro hd
  have hwaits : c.1.Waits i := World.Waits.of_move ht hi h hd
  have hold := hc hwaits
  have hlen : c.1.inner.len ≠ 0 := by
    obtain ⟨p, x, hmem⟩ := hwaits
    rw [hw.len]
    exact Nat.ne_of_gt (List.length_pos_of_mem hmem)
  cases h with
  | note w h e he | reject w j p front e he | giveBack w j p e he =>
    cases he <;> simpa [Event.atEmpty] using hold
  | consult w j p order front => simpa [Event.not_atEmpty_of_ne_zero hlen] using hold
  | consultPanic w j p order =>
    have hdropped : (.droppedParams p w.locked : Event ι κ W S).atEmpty = false := rfl
    simpa [Event.not_atEmpty_of_ne_zero hlen, hdropped] using hold
  | _ => simpa [Event.atEmpty, World.callRelease, World.updateState] using hold

/-- An order that sends nobody ahead of a waiting queue sends nobody to the front while somebody
waits. -/
theorem Reachable.fronts_since {order : O} {f : Nat → Bool} (hf : Decides order f)
    (hback : ∀ m, 0 < m → f m = false) {state : S} {w w' : World ι κ W S O}
    (h : Reachable C state order w) {acts : List (Action ι κ W S)}
    (hexec : Transition.exec (step C) w acts = some w') {i : ι} (hi : w.Waits i)
    (hi' : w'.Waits i) : fronts (w.since w') = 0 := by
  have hw := Reachable.settled h
  obtain ⟨es, hlog⟩ := hw.log_grows hexec
  rw [World.since_of_log hlog]
  -- the order has not been asked about an empty queue since
  have hend : Traced C (w', (.empty : Hand ι S)) ∧ Joined i (w', (.empty : Hand ι S)) ∧
      Accompanied i (w.log.countP Event.atEmpty) (w', (.empty : Hand ι S)) := by
    refine Settled.exec_invariant
      (fun c => Traced C c ∧ Joined i c ∧ Accompanied i (w.log.countP Event.atEmpty) c)
      (fun _ => True) ?_ hw (fun _ _ => trivial) hexec
      ⟨(Reachable.posted h).1, hi.joined hw.coherent, fun _ => rfl⟩
    intro c d hcoh hc own _ hm
    obtain ⟨ht, hj, hcount⟩ := hc
    exact ⟨ht.move hcoh hm, hj.move hm, hcount.move hcoh ht hj hm⟩
  have hcount : es.countP Event.atEmpty = 0 := by
    have hall : w'.log.countP Event.atEmpty = w.log.countP Event.atEmpty := hend.2.2 hi'
    rw [hlog, List.countP_append] at hall
    omega
  apply List.countP_eq_zero.mpr
  intro e he hfront
  obtain ⟨past, rest, hsplit⟩ := List.append_of_mem (hlog ▸ List.mem_append_right w.log he)
  have hanswered := each_iff.mp (Reachable.answered hf (h.exec hexec)) past e rest hsplit
  cases e with
  | consulted j n res =>
    obtain ⟨-, rfl⟩ := hanswered
    cases n with
    | zero => exact absurd rfl (List.countP_eq_zero.mp hcount _ he)
    | succ n =>
      have hfront' : f (n + 1) = true := hfront
      simp [hback (n + 1) (Nat.succ_pos n)] at hfront'
  | _ => cases hfront

end Respect

/-! ## Starvation -/

/-- However many requests that arrive later are served, one by one, the waiter `i` may still
wait. -/
def Starves {ι κ W S : Type} [DecidableEq ι] [DecidableEq κ] [DecidableEq W] [SemaphoreState S]
    (C : Closeability) (w : World ι κ W S O) (i : ι) : Prop :=
  w.Waits i ∧ ∀ n, ∃ acts w', Transition.exec (step C) w acts = some w' ∧ w'.Waits i ∧
    turns w.log (w.since w') = n ∧
    ∀ j p r, .acquired j p (.returned (.ok r)) ∈ w.since w' → w.slots j = .unborn

/-- **A waiter can starve exactly under an order that sends requests ahead of a waiting queue**:
with a stateless order, on a semaphore with one permit, some waiter can be made to wait while any
number of later requests are served if and only if the order sends a request to the front of a queue
that is not empty. -/
theorem backlog_can_starve {order : O} {f : Nat → Bool} (hf : Decides order f) :
    (∃ (w : World Nat Nat Nat SemaphoreCounter O) (i : Nat),
      Reachable .uncloseable ⟨1⟩ order w ∧ Starves .uncloseable w i) ↔
    ∃ m, 0 < m ∧ f m = true := by
  constructor
  · rintro ⟨w, i, h, hi, hstarves⟩
    by_contra hnone
    have hback : ∀ m, 0 < m → f m = false := by
      intro m hm
      by_contra hfront
      exact hnone ⟨m, hm, by simpa using hfront⟩
    -- more turns than there are nodes ahead
    obtain ⟨acts, w', hexec, hi', hturns, -⟩ := hstarves (w.ahead i + 1)
    have hbound := Reachable.overtaken h acts w' hexec i hi hi'
    rw [Reachable.fronts_since hf hback h hexec hi hi', hturns] at hbound
    omega
  · rintro ⟨m, hm, hfront⟩
    obtain ⟨w, queue, fresh, hreach, hw, rfl⟩ := exists_crowded hf m
    obtain ⟨e, he⟩ := List.exists_mem_of_length_pos hm
    obtain ⟨i, params, x⟩ := e
    obtain rfl : params = some (1 : Nat) := hw.single _ he
    have hwaits : ∀ {w' : World Nat Nat Nat SemaphoreCounter O} {holder fresh' : Nat},
        Crowded order holder queue fresh' w' → w'.Waits i := by
      intro w' holder fresh' hw'
      refine ⟨(1 : Nat), x, ?_⟩
      rw [hw'.inner]
      exact he
    refine ⟨w, i, hreach, hwaits hw, fun n => ?_⟩
    obtain ⟨acts, w', holder', es, hexec, hw', hlog, hturns, hgrants⟩ := hw.rounds hf hfront n
    refine ⟨acts, w', hexec, hwaits hw', ?_⟩
    rw [World.since_of_log hlog]
    refine ⟨hturns, fun j p r hmem => ?_⟩
    rcases hgrants _ hmem with hnone | ⟨j', hj', heq⟩
    · cases hnone
    · cases heq
      exact hw.unborn j hj'

/-- The backlog of a hybrid order can starve, and that of FIFO order cannot. -/
theorem backlog_can_starve_hybrid :
    (∃ (w : World Nat Nat Nat SemaphoreCounter Hybrid) (i : Nat),
      Reachable .uncloseable ⟨1⟩ ⟨8⟩ w ∧ Starves .uncloseable w i) ∧
    ¬ ∃ (w : World Nat Nat Nat SemaphoreCounter FairOrder) (i : Nat),
      Reachable .uncloseable ⟨1⟩ .fifo w ∧ Starves .uncloseable w i := by
  constructor
  · exact (backlog_can_starve (f := fun n => decide (8 < n)) fun _ => rfl).mpr ⟨9, by decide, rfl⟩
  · intro h
    obtain ⟨m, -, hfront⟩ := (backlog_can_starve (f := fun _ => false) fun _ => rfl).mp h
    cases hfront

end FlagBearer
