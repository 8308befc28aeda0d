import FlagBearer.Queue.Drain
import FlagBearer.Queue.Service

/-!
# The Immediate Grant Agrees with Queueing

The first poll of a request skips the list if the request leads, and skips `S::acquire` if it
does not. Either way it does what linking the node at the end that the `Order` picks and
draining the queue would do: when no operation is in progress, the first waiter is one that
`S::acquire` refuses, so a drain grants the newcomer if it leads, and nobody else. For the
same reason `try_acquire` does what polling a new request once and dropping it would do.

## Main results

- `drained_of_headRefused`: a drain of a queue whose head is refused
- `poll_agrees`: the first poll of an open queue
- `tryAcquire_agrees`: `try_acquire` against poll and drop
- `fast_path_agrees`: the statement about runs
-/

namespace FlagBearer

open PinList Pass

variable {ι κ W S O : Type} [SemaphoreState S] {C : Closeability}

/-! ## Grants -/

/-- The requests that calls of `S::acquire` grant, with their permits. -/
def grants (calls : List (ι × Params S × Unwind (Except (Params S) (Permit S)))) :
    List (ι × Permit S) :=
  calls.filterMap fun call => match call with
    | (i, _, .returned (.ok r)) => some (i, r)
    | _ => none

/-! ## Drains of a queue whose head is refused -/

theorem drained_of_headRefused (hkeep : RefusalKeepsState S) (hret : ReturnsParams S)
    {q : QueueState ι W S O} (h : HeadRefused q) :
    (q.drained C).state = q.state ∧ (q.drained C).kept = q.entries ∧
      (q.drained C).panicked = false ∧ grants (q.drained C).acquisitions = [] := by
  unfold QueueState.drained
  split
  · cases hq : q.entries with
    | nil => exact ⟨rfl, rfl, rfl, rfl⟩
    | cons e rest =>
      obtain ⟨i, params, x⟩ := e
      obtain ⟨p, hparams, s', p', hacq⟩ := h _ _ hq
      simp only at hparams
      subst hparams
      have hoffer : (waiters ι W S).offer (i, some p, x) = some p := rfl
      have hserve : (waiters ι W S).serve q.state p = (s', .error (some p')) := by
        simp [waiters, hacq, served]
      have hp := hret _ _ _ _ hacq
      have hs := hkeep _ _ _ _ hacq
      subst hp hs
      rw [Server.pass_fail hoffer hserve]
      exact ⟨rfl, rfl, rfl, rfl⟩
  · exact ⟨rfl, rfl, rfl, rfl⟩

/-- A granted newcomer ahead of a head that stays refused is the only one to be granted. -/
theorem drained_of_granted (htotal : AcquireTotal S) (hkeep : RefusalKeepsState S)
    (hret : ReturnsParams S) (hgrant : GrantKeepsRefusals S) {q q' : QueueState ι W S O}
    (h : HeadRefused q) (hopen : q'.admits C = true) (hstate : q'.state = q.state) {i : ι}
    {p : Params S} {x : W} (hentries : q'.entries = (i, some p, x) :: q.entries) {s' : S}
    {r : Permit S} (hacq : SemaphoreState.acquire q.state p = (s', .returned (.ok r))) :
    (q'.drained C).state = s' ∧ (q'.drained C).kept = q.entries ∧
      (q'.drained C).panicked = false ∧ grants (q'.drained C).acquisitions = [(i, r)] := by
  have hoffer : (waiters ι W S).offer (i, some p, x) = some p := rfl
  have hserve : (waiters ι W S).serve q'.state p = (s', .ok r) := by
    simp [waiters, hstate, hacq, served]
  have hdrained : q'.drained C =
      ((waiters ι W S).pass s' q.entries).accept (i, some p, x) p r := by
    rw [QueueState.drained, if_pos hopen, hentries, Server.pass_accept hoffer hserve]
  -- the old head is refused in the new state, too
  have hhead : HeadRefused { q' with queue := .ok q.entries, state := s' } := by
    intro e rest hq
    obtain ⟨p', hparams, hrefused⟩ := h e rest hq
    have hnot := hgrant _ _ _ _ _ hacq hrefused
    exact ⟨p', hparams, (refused_or_granted htotal s' p').resolve_right hnot⟩
  have hrest : QueueState.drained C { q' with queue := .ok q.entries, state := s' } =
      (waiters ι W S).pass s' q.entries := if_pos hopen
  obtain ⟨hs, hkept, hquiet, hnone⟩ := drained_of_headRefused (C := C) hkeep hret hhead
  rw [hrest] at hs hkept hquiet hnone
  rw [hdrained]
  refine ⟨hs, hkept, hquiet, ?_⟩
  show (i, r) :: grants (DrainResult.acquisitions ((waiters ι W S).pass s' q.entries)) = _
  rw [hnone]

/-! ## The slow path -/

/-- The end of the list at which a new node joins it. -/
def joined (queue : WaitList ι W S) (i : ι) (p : Params S) (cx : W) (front : Bool) :
    WaitList ι W S :=
  if front then queue.pushFront i (some p, cx) else queue.pushBack i (some p, cx)

/-- The queue after the order has been consulted and a new node has joined the list. -/
def QueueState.enqueued (q : QueueState ι W S O) (order : O) (i : ι) (p : Params S) (cx : W)
    (front : Bool) : QueueState ι W S O :=
  { q with queue := .ok (joined q.entries i p cx front), len := q.len + 1, order := order }

/-- A first poll that links its node at the end that the order picks, whether or not it could
be granted at once. -/
def World.enqueue [DecidableEq ι] [Order O]
    (w : World ι κ W S O) (i : ι) (p : Params S) (cx : W) : World ι κ W S O :=
  match (w.lock.setSlot i (.live ⟨.initial, none⟩)).consult i with
  | (w, .panicked) => w.unlock
  | (w, .returned front) => (link w i w.inner.entries p cx front).unlock

/-- The closure of a `with_state` call that does nothing but have the queue drained. -/
def drainOnly (w : World ι κ W S O) : World ι κ W S O × Unwind Unit :=
  w.updateState fun s => (s, .returned ())

theorem drainOnly_eq (w : World ι κ W S O) :
    drainOnly w = (w.emit (.updated (.returned ())), .returned ()) := by
  simp [drainOnly, World.updateState, World.guarded]

section Slow

variable {w : World ι κ W S O} {i : ι} {p : Params S} {order : O} {front : Bool}

variable [DecidableEq ι] [Order O]

theorem World.enqueue_eq (hord : Order.enqueueFront w.inner.order w.inner.len =
    (order, .returned front)) (i : ι) (p : Params S) (cx : W) :
    w.enqueue i p cx = { w with
      locked := false
      inner := w.inner.enqueued order i p cx front
      slots := Function.update w.slots i (.live ⟨.linked, none⟩)
      log := w.log ++ [.consulted i w.inner.len (.returned front), .linked i cx front] } := by
  simp [World.enqueue, World.consult, hord, link, QueueState.enqueued, joined,
    QueueState.entries, World.setSlot, World.lock, World.unlock, World.emit, World.setList]

theorem Settled.enqueue (hw : Settled C w) (hopen : w.inner.admits C = true)
    (hi : w.slots i = .live ⟨.initial, some p⟩)
    (hord : Order.enqueueFront w.inner.order w.inner.len = (order, .returned front)) (cx : W) :
    Settled C (w.enqueue i p cx) := by
  obtain ⟨queue, hq⟩ := hw.coherent.queue_of_open (QueueState.admits_iff.mp hopen).2
  have hentries := QueueState.entries_of_queue hq
  have hasked : Coherent C (w.setSlot i (.live ⟨.initial, none⟩)) :=
    hw.coherent.setSlot rfl rfl (by simp [hi]) (by simp)
  have hjoined : (w.inner.enqueued order i p cx front).queue =
      .ok (if front then queue.pushFront i (some p, cx) else queue.pushBack i (some p, cx)) := by
    rw [← hentries]
    rfl
  rw [World.enqueue_eq hord]
  constructor
  case coherent =>
    refine hasked.link hq ?_ hjoined rfl ?_ rfl
    · simp
    · simp [World.setSlot]
  case unlocked => rfl
  case closes => exact fun k c hk => hw.closes k c hk

end Slow

/-! ## The fast path -/

/-- A request that queues: it would stand behind others, or it has tried and was refused. -/
def TurnedAway (q : QueueState ι W S O) (front : Bool) (p : Params S) : Prop :=
  front = false ∧ q.entries ≠ [] ∨ (front = false → q.entries = []) ∧ Refused q.state p

/-- A request that is granted is not turned away. -/
theorem TurnedAway.not_granted {q : QueueState ι W S O} {front : Bool} {p : Params S}
    (h : TurnedAway q front p) (hlead : front = false → q.entries = []) {state : S} {r : Permit S}
    (hacq : SemaphoreState.acquire q.state p = (state, .returned (.ok r))) : False := by
  rcases h with ⟨hfront, hwaits⟩ | ⟨-, s', p', hrefused⟩
  · exact hwaits (hlead hfront)
  · rw [hacq] at hrefused
    cases hrefused

theorem joined_of_leads {queue : WaitList ι W S} {front : Bool} (h : front = false → queue = [])
    (i : ι) (p : Params S) (cx : W) : joined queue i p cx front = (i, some p, cx) :: queue := by
  cases front with
  | true => rfl
  | false =>
    rw [h rfl]
    rfl

/-- A newcomer that was turned away leaves the head refused, or is the head. -/
theorem HeadRefused.enqueued {q : QueueState ι W S O} {front : Bool} {p : Params S}
    (h : HeadRefused q) (hturned : TurnedAway q front p) (order : O) (i : ι) (cx : W) :
    HeadRefused (q.enqueued order i p cx front) := by
  intro e rest hlist
  have hjoined : joined q.entries i p cx front = e :: rest := hlist
  rcases hturned with ⟨rfl, hwaits⟩ | ⟨hlead, hrefused⟩
  · obtain ⟨head, tail, hq⟩ := List.exists_cons_of_ne_nil hwaits
    rw [hq] at hjoined
    obtain ⟨rfl, -⟩ := List.cons.inj hjoined
    exact h head tail hq
  · rw [joined_of_leads hlead] at hjoined
    obtain ⟨rfl, -⟩ := List.cons.inj hjoined
    exact ⟨p, rfl, hrefused⟩

variable [DecidableEq ι] [DecidableEq κ] [DecidableEq W] [Order O]

section Fast

variable {w : World ι κ W S O} {i : ι} {p : Params S} {order : O} {front : Bool}

/-- What `acquire_or_enqueue` does on an open queue if no user code panics. -/
inductive Admission (w : World ι κ W S O) (order : O) (front : Bool) (i : ι) (p : Params S) :
    World ι κ W S O × Unwind (Outcome S) → Prop where
  | turned (h : TurnedAway w.inner front p) (es : List (Event ι κ W S))
      (hes : grants (acquisitions es) = []) :
      Admission w order front i p
        ({ w with inner := { w.inner with order := order }, log := w.log ++ es },
          .returned (.enqueue front p))
  | granted (hlead : front = false → w.inner.entries = []) (state : S) (r : Permit S)
      (hacq : SemaphoreState.acquire w.inner.state p = (state, .returned (.ok r)))
      (es : List (Event ι κ W S)) (hes : grants (acquisitions es) = [(i, r)]) :
      Admission w order front i p
        ({ w with
            inner := { w.inner with order := order, state := state }
            log := w.log ++ es },
          .returned (.acquired r))

omit [DecidableEq ι] [DecidableEq κ] [DecidableEq W] in
theorem acquireOrEnqueue_admission (htotal : AcquireTotal S) (hkeep : RefusalKeepsState S)
    (hret : ReturnsParams S) (hopen : w.inner.admits C = true) {queue : WaitList ι W S}
    (hq : w.inner.queue = .ok queue)
    (hord : Order.enqueueFront w.inner.order w.inner.len = (order, .returned front)) (i : ι)
    (p : Params S) : Admission w order front i p (acquireOrEnqueue C w i p true) := by
  obtain ⟨hpoison, hclosing⟩ := QueueState.admits_iff.mp hopen
  have hentries := QueueState.entries_of_queue hq
  have hconsult : (w.consult i).1 = { w with
      inner := { w.inner with order := order }
      log := w.log ++ [.consulted i w.inner.len (.returned front)] } := by
    simp [World.consult, hord, World.emit]
  rw [acquireOrEnqueue_open hpoison hclosing hq hord, hconsult]
  cases hlead : front || queue.isEmpty with
  | false =>
    obtain ⟨hfront, hne⟩ := Bool.or_eq_false_iff.mp hlead
    have hturned : TurnedAway w.inner front p := Or.inl ⟨hfront, by simpa [hentries] using hne⟩
    exact .turned hturned [.consulted i w.inner.len (.returned front)] rfl
  | true =>
    have hlead' : front = false → w.inner.entries = [] := by
      intro hfront
      subst hfront
      simpa [hentries] using hlead
    rcases hacq : SemaphoreState.acquire w.inner.state p with ⟨state, (p' | r) | _⟩
    · -- refused, and by the contract nothing has changed
      have hp := hret _ _ _ _ hacq
      have hs := hkeep _ _ _ _ hacq
      subst hp hs
      have hres : Admission w order front i p' _ := .turned (Or.inr ⟨hlead', _, _, hacq⟩)
        [.consulted i w.inner.len (.returned front), .acquired i p' (.returned (.error p'))] rfl
      simpa [lead, World.callAcquire, hacq, World.guarded, World.emit] using hres
    · have hres : Admission w order front i p _ := .granted hlead' state r hacq
        [.consulted i w.inner.len (.returned front), .acquired i p (.returned (.ok r))] rfl
      simpa [lead, World.callAcquire, hacq, World.guarded, World.emit] using hres
    · exact absurd (congrArg Prod.snd hacq) (htotal _ _)

/-- How a first poll of an open queue ends if no user code panics: with the node in the list, or
with a permit. -/
inductive FirstPoll (w : World ι κ W S O) (order : O) (front : Bool) (i : ι) (p : Params S)
    (cx : W) (w' : World ι κ W S O) : Prop where
  | pending (hturned : TurnedAway w.inner front p) (es : List (Event ι κ W S))
      (hinner : w'.inner = w.inner.enqueued order i p cx front)
      (hslot : w'.slots i = .live ⟨.linked, none⟩)
      (hlog : w'.log = w.log ++ es)
      (hlast : w'.log.getLast? = some (.polled i cx (.returned .pending)))
      (hes : grants (acquisitions es) = [])
  | granted (hlead : front = false → w.inner.entries = []) (state : S) (r : Permit S)
      (hacq : SemaphoreState.acquire w.inner.state p = (state, .returned (.ok r)))
      (es : List (Event ι κ W S))
      (hinner : w'.inner = { w.inner with order := order, state := state })
      (hlog : w'.log = w.log ++ es)
      (hlast : w'.log.getLast? = some (.polled i cx (.returned (.ready (.ok r)))))
      (hes : grants (acquisitions es) = [(i, r)])

omit [DecidableEq κ] [DecidableEq W] in
theorem firstPoll_of_admission {v : World ι κ W S O} (hv : v.slots i = .live ⟨.initial, none⟩)
    {queue : WaitList ι W S} (hq : v.inner.queue = .ok queue)
    (h : Admission v order front i p (acquireOrEnqueue C v i p true)) {cx : W}
    {calls : WakerCalls} (hcalm : Calm (wrapPoll i cx (pollFirst C v i p cx calls)).log) :
    FirstPoll v order front i p cx (wrapPoll i cx (pollFirst C v i p cx calls)) := by
  have hentries := QueueState.entries_of_queue hq
  unfold pollFirst at hcalm ⊢
  rcases hres : acquireOrEnqueue C v i p true with ⟨v', res⟩
  rw [hres] at h hcalm
  cases h with
  | turned hturned es hes =>
    rcases hclone : calls.clone with _ | _
    · refine .pending hturned (es ++ [.cloned cx (.returned ()), .linked i cx front,
        .polled i cx (.returned .pending)]) ?_ ?_ ?_ ?_ ?_
      · simp [hq, link, hv, wrapPoll, QueueState.enqueued, joined, hentries]
      · simp [hq, link, hv, wrapPoll]
      · simp [hq, link, hv, wrapPoll]
      · simp [hq, link, hv, wrapPoll]
      · rw [acquisitions_append, ← hes]
        exact congrArg _ (List.append_nil _)
    · -- the clone would have panicked
      have hpanic := hcalm (.cloned cx .panicked) (by simp [hclone, hq, wrapPoll, World.dropParams])
      cases hpanic
  | granted hlead state r hacq es hes =>
    refine .granted hlead state r hacq (es ++ [.polled i cx (.returned (.ready (.ok r)))])
      ?_ ?_ ?_ ?_
    · simp [wrapPoll]
    · simp [wrapPoll]
    · simp [wrapPoll]
    · rw [acquisitions_append, ← hes]
      exact congrArg _ (List.append_nil _)

theorem step_firstPoll (htotal : AcquireTotal S) (hkeep : RefusalKeepsState S)
    (hret : ReturnsParams S) (hw : Coherent C w) (hopen : w.inner.admits C = true)
    (hi : w.slots i = .live ⟨.initial, some p⟩) {cx : W} {calls : WakerCalls}
    {w' : World ι κ W S O} (h : step C w (.poll i cx calls) = some w') (hcalm : Calm w'.log) :
    ∃ order front, Order.enqueueFront w.inner.order w.inner.len = (order, .returned front) ∧
      FirstPoll w order front i p cx w' := by
  obtain ⟨queue, hq⟩ := hw.queue_of_open (QueueState.admits_iff.mp hopen).2
  rw [step_poll hi] at h
  cases h
  have hpoll : pollAcquire C w i ⟨.initial, some p⟩ cx calls =
      wrapPoll i cx (pollFirst C (w.lock.setSlot i (.live ⟨.initial, none⟩)) i p cx calls) := rfl
  rw [hpoll] at hcalm ⊢
  set v := w.lock.setSlot i (.live ⟨.initial, none⟩) with hv
  have hslot : v.slots i = .live ⟨.initial, none⟩ := by simp [hv]
  rcases hord : Order.enqueueFront w.inner.order w.inner.len with ⟨order, front | _⟩
  · refine ⟨order, front, rfl, ?_⟩
    have hadmit : Admission v order front i p (acquireOrEnqueue C v i p true) :=
      acquireOrEnqueue_admission (w := v) htotal hkeep hret hopen hq hord i p
    cases firstPoll_of_admission hslot hq hadmit hcalm with
    | pending hturned es hinner hslot hlog hlast hes =>
      exact .pending hturned es hinner hslot hlog hlast hes
    | granted hlead state r hacq es hinner hlog hlast hes =>
      exact .granted hlead state r hacq es hinner hlog hlast hes
  · -- an order that panics shows in the history
    obtain ⟨hpoison, hclosing⟩ := QueueState.admits_iff.mp hopen
    have hres : acquireOrEnqueue C v i p true = ((v.consult i).1.dropParams p, .panicked) :=
      acquireOrEnqueue_panicked (w := v) hpoison hclosing hq hord i p
    have hmem : .consulted i w.inner.len .panicked ∈
        (wrapPoll i cx (pollFirst C v i p cx calls)).log := by
      rw [pollFirst, hres]
      simp [wrapPoll, World.consult, hv, hord, World.dropParams]
    cases hcalm _ hmem

/-! ## The first poll -/

omit [DecidableEq ι] [DecidableEq W] [Order O] in
/-- A queue is the same as another if they show the same list. -/
theorem QueueState.eq_of_entries {q q' : QueueState ι W S O} (hok : q.isOk = true)
    (hok' : q'.isOk = true) (hentries : q.entries = q'.entries)
    (hpoisoned : q.poisoned = q'.poisoned) (hclosed : q.closed = q'.closed) (hlen : q.len = q'.len)
    (horder : q.order = q'.order) (hstate : q.state = q'.state) : q = q' := by
  obtain ⟨_ | queue, _, _, _, _, _⟩ := q
  · cases hok
  · obtain ⟨_ | queue', _, _, _, _, _⟩ := q'
    · cases hok'
    · simp only [QueueState.entries_ok] at hentries
      simp_all

omit [DecidableEq ι] [DecidableEq W] [Order O] in
/-- The queue after a drain, if the state and the list are those of another world. -/
theorem Drained.inner_eq {k : κ} {v u w' : World ι κ W S O} {r : DrainResult ι W S}
    (h : Drained k v u r) (hu : Coherent C u) (hw' : Coherent C w')
    (hopen : w'.inner.closing C = false) (hstate : r.state = w'.inner.state)
    (hkept : r.kept = w'.inner.entries) (hquiet : r.panicked = false)
    (hpoisoned : v.inner.poisoned = w'.inner.poisoned) (hclosed : v.inner.closed = w'.inner.closed)
    (horder : v.inner.order = w'.inner.order) : u.inner = w'.inner := by
  have hopenᵤ : u.inner.closing C = false := by
    rw [QueueState.closing, h.closed, hclosed]
    exact hopen
  apply QueueState.eq_of_entries (hu.isOk_of_open hopenᵤ) (hw'.isOk_of_open hopen)
  · rw [h.list, hkept]
  · rw [h.poisoned, hquiet, Bool.or_false, hpoisoned]
  · rw [h.closed, hclosed]
  · rw [h.len, hkept, hw'.len]
  · rw [h.order, horder]
  · rw [h.state, hstate]

/-- The slow path in a call `k`: it ends, and has drained the queue that the node has joined. -/
theorem World.enqueue_drains (hw : Settled C w) (hopen : w.inner.admits C = true)
    (hi : w.slots i = .live ⟨.initial, some p⟩)
    (hord : Order.enqueueFront w.inner.order w.inner.len = (order, .returned front)) (cx : W)
    {k : κ} (hk : w.calls k = none) :
    (∃ u, DrainsTo C k (withQueue C k (w.enqueue i p cx) drainOnly) u) ∧
      ∀ u, DrainsTo C k (withQueue C k (w.enqueue i p cx) drainOnly) u → Coherent C u ∧
        ∃ v, v.inner = w.inner.enqueued order i p cx front ∧
          Drained k v u (v.inner.drained C) ∧
          acquisitions (w.since u) = (v.inner.drained C).acquisitions := by
  have hv : Settled C (w.enqueue i p cx) := hw.enqueue hopen hi hord cx
  have heq := World.enqueue_eq hord i p cx
  have hidle : (w.enqueue i p cx).calls k = none := by rw [heq, hk]
  have hclosure : Closure k (w.enqueue i p cx) drainOnly := .withState fun s => (s, .returned ())
  obtain ⟨c, hmid, -⟩ := Midway.start (C := C) hclosure hv.coherent hidle (drainOnly_eq _)
  have hstep : step C (w.enqueue i p cx) (.withState k fun s => (s, .returned ())) =
      some (withQueue C k (w.enqueue i p cx) drainOnly) := by
    simp only [step, hidle]
    rfl
  -- the call ends if it is let run, and whenever it does it has made the whole pass
  refine ⟨hmid.completes, fun u hu => ?_⟩
  have hdrained := hmid.drained hu
  constructor
  · obtain ⟨acts, -, hexec, -⟩ := hu
    exact ((hv.step hstep).exec hexec).coherent
  · refine ⟨_, ?_, hdrained, ?_⟩
    · exact congrArg World.inner heq
    · obtain ⟨es, hes⟩ := hdrained.log
      have hlog : u.log = w.log ++ ([.consulted i w.inner.len (.returned front),
          .linked i cx front, .entered k .withQueue, .updated (.returned ())] ++ es) := by
        rw [hes]
        simp [World.enter, heq]
      have hcalls := hdrained.calls
      rw [World.since_of_log hes] at hcalls
      rw [World.since_of_log hlog, acquisitions_append, hcalls]
      rfl

/-- The first poll from `w` to `w'` does what linking the node and draining the queue in a call
`k` would do: it leaves the same queue behind, and grants the same requests. -/
structure PollAgrees (C : Closeability) (w w' : World ι κ W S O) (i : ι) (p : Params S) (cx : W)
    (k : κ) : Prop where
  completes : ∃ u, DrainsTo C k (withQueue C k (w.enqueue i p cx) drainOnly) u
  agrees : ∀ u, DrainsTo C k (withQueue C k (w.enqueue i p cx) drainOnly) u →
    u.inner = w'.inner ∧
      grants (acquisitions (w.since u)) = grants (acquisitions (w.since w'))

/-- **The first poll agrees with queueing.** -/
theorem poll_agrees (htotal : AcquireTotal S) (hkeep : RefusalKeepsState S)
    (hret : ReturnsParams S) (hgrant : GrantKeepsRefusals S) (hw : Settled C w)
    (hhead : HeadRefused w.inner) (hopen : w.inner.admits C = true)
    (hi : w.slots i = .live ⟨.initial, some p⟩) {cx : W} {calls : WakerCalls}
    {w' : World ι κ W S O} (h : step C w (.poll i cx calls) = some w') (hcalm : Calm w'.log)
    {k : κ} (hk : w.calls k = none) : PollAgrees C w w' i p cx k := by
  obtain ⟨order, front, hord, hpoll⟩ :=
    step_firstPoll htotal hkeep hret hw.coherent hopen hi h hcalm
  obtain ⟨hends, hslow⟩ := World.enqueue_drains hw hopen hi hord cx hk
  refine ⟨hends, fun u hu => ?_⟩
  obtain ⟨hu', v, hv, hdrained, hcalls⟩ := hslow u hu
  have hw' := (hw.step h).coherent
  obtain ⟨-, hclosing⟩ := QueueState.admits_iff.mp hopen
  rw [hcalls]
  cases hpoll with
  | pending hturned es hinner hslot hlog hlast hes =>
    -- the head is refused, be it the old one or the newcomer
    rw [← hinner] at hv
    have hhead' : HeadRefused v.inner := by
      rw [hv, hinner]
      exact hhead.enqueued hturned order i cx
    obtain ⟨hstate, hkept, hquiet, hgrants⟩ := drained_of_headRefused (C := C) hkeep hret hhead'
    rw [hgrants, World.since_of_log hlog, hes]
    refine ⟨hdrained.inner_eq hu' hw' ?_ ?_ ?_ hquiet ?_ ?_ ?_, rfl⟩
    · rw [hinner]
      exact hclosing
    · rw [hstate, hv]
    · rw [hkept, hv]
    all_goals rw [hv]
  | granted hlead state r hacq es hinner hlog hlast hes =>
    have hentries : v.inner.entries = (i, some p, cx) :: w.inner.entries := by
      rw [hv]
      exact joined_of_leads hlead i p cx
    have hopen' : v.inner.admits C = true := by
      rw [hv]
      exact hopen
    have hstart : v.inner.state = w.inner.state := by
      rw [hv]
      rfl
    obtain ⟨hstate, hkept, hquiet, hgrants⟩ :=
      drained_of_granted htotal hkeep hret hgrant hhead hopen' hstart hentries hacq
    rw [hgrants, World.since_of_log hlog, hes]
    refine ⟨hdrained.inner_eq hu' hw' ?_ ?_ ?_ hquiet ?_ ?_ ?_, rfl⟩
    · rw [hinner]
      exact hclosing
    · rw [hstate, hinner]
    · rw [hkept, hinner]
      rfl
    all_goals
      rw [hv, hinner]
      rfl

/-! ## try_acquire -/

/-- How a fair `try_acquire` of an open queue ends if no user code panics. -/
inductive FairTry (w : World ι κ W S O) (order : O) (front : Bool) (i : ι) (p : Params S)
    (w' : World ι κ W S O) : Prop where
  | noPermits (hturned : TurnedAway w.inner front p)
      (hinner : w'.inner = { w.inner with order := order })
      (hlast : w'.log.getLast? = some (.tried i p (.returned (.error (.noPermits p)))))
  | granted (hlead : front = false → w.inner.entries = []) (state : S) (r : Permit S)
      (hacq : SemaphoreState.acquire w.inner.state p = (state, .returned (.ok r)))
      (hinner : w'.inner = { w.inner with order := order, state := state })
      (hlast : w'.log.getLast? = some (.tried i p (.returned (.ok r))))

theorem step_fairTry (htotal : AcquireTotal S) (hkeep : RefusalKeepsState S)
    (hret : ReturnsParams S) (hw : Coherent C w) (hopen : w.inner.admits C = true)
    (hi : w.slots i = .unborn)
    (hord : Order.enqueueFront w.inner.order w.inner.len = (order, .returned front))
    {w' : World ι κ W S O} (h : step C w (.tryAcquire i p true) = some w') :
    FairTry w order front i p w' := by
  obtain ⟨queue, hq⟩ := hw.queue_of_open (QueueState.admits_iff.mp hopen).2
  have hstep : step C w (.tryAcquire i p true) = some (tryAcquirePermit C w i p true) := by
    simp [step, hi]
  rw [hstep] at h
  cases h
  have hadmit : Admission (w.setSlot i .gone).lock order front i p
      (acquireOrEnqueue C (w.setSlot i .gone).lock i p true) :=
    acquireOrEnqueue_admission (w := (w.setSlot i .gone).lock) htotal hkeep hret hopen hq hord i p
  unfold tryAcquirePermit tryAcquire
  rcases hres : acquireOrEnqueue C (w.setSlot i .gone).lock i p true with ⟨v', res⟩
  rw [hres] at hadmit
  cases hadmit with
  | turned hturned es hes => exact .noPermits hturned rfl (by simp [wrapTry])
  | granted hlead state r hacq es hes =>
    exact .granted hlead state r hacq rfl (by simp [wrapTry])

/-- What a poll has to return to agree with a result of `try_acquire`. -/
def asPoll : TryResult S → PollResult S
  | .returned (.ok r) => .returned (.ready (.ok r))
  | .returned (.error (.closed p)) => .returned (.ready (.error p))
  | .returned (.error (.noPermits _)) => .returned .pending
  | .returned (.error (.poisoned _)) => .panicked
  | .panicked => .panicked

/-- The `try_acquire` that led to `w₁` does what a new request does that was polled once, which
led to `w₂`, and that is dropped if it is pending. -/
structure TryAgrees (C : Closeability) (w₁ w₂ : World ι κ W S O) (i : ι) (p : Params S) (cx : W)
    (res : TryResult S) : Prop where
  tried : w₁.log.getLast? = some (.tried i p res)
  polled : w₂.log.getLast? = some (.polled i cx (asPoll res))
  ready : asPoll res ≠ .returned .pending → w₂.inner = w₁.inner
  dropped : asPoll res = .returned .pending → ∀ k, w₂.calls k = none →
    ∃ v, step C w₂ (.dropAcquire k i) = some v ∧ (∃ u, DrainsTo C k v u) ∧
      ∀ u, DrainsTo C k v u → u.inner = w₁.inner

omit [DecidableEq W] in
theorem remove_joined {queue : WaitList ι W S} {i : ι} {p : Params S} {cx : W} {front : Bool}
    (h : (ids (joined queue i p cx front)).Nodup) :
    remove (joined queue i p cx front) i = queue := by
  cases front with
  | true =>
    have hnodup : (ids ([] ++ (i, some p, cx) :: queue)).Nodup := h
    exact remove_split hnodup
  | false =>
    have hnodup : (ids (queue ++ (i, some p, cx) :: [])).Nodup := h
    exact (remove_split hnodup).trans (List.append_nil queue)

omit [DecidableEq W] in
/-- The closure that drops a node which has just joined the list. -/
theorem dropNode_enqueued (hw : Coherent C w) (hopen : w.inner.closing C = false)
    {w₂ : World ι κ W S O} (hw₂ : Coherent C w₂) {cx : W}
    (h₂ : w₂.inner = w.inner.enqueued order i p cx front)
    (hi : w₂.slots i = .live ⟨.linked, none⟩) {k : κ} (hk : w₂.calls k = none) :
    ∃ v, dropNode k i .linked (w₂.enter k) = (v, .returned ()) ∧
      v.inner = { w.inner with order := order } := by
  obtain ⟨data, before, after, hq, hres⟩ :=
    dropNode_linked (hw₂.enter hk) hi (w₂.enter_call k)
  refine ⟨_, hres, ?_⟩
  have hqueue : w₂.inner.queue = .ok (before ++ (i, data) :: after) := hq
  have hnodup := hw₂.nodup_of_queue hqueue
  have hinner : (w₂.enter k).inner = w.inner.enqueued order i p cx front := h₂
  have hjoined : joined w.inner.entries i p cx front = before ++ (i, data) :: after := by
    rw [h₂] at hqueue
    exact Except.ok.inj hqueue
  -- without the node the list is the old one
  have hrest : before ++ after = w.inner.entries := by
    rw [← remove_split hnodup, ← hjoined]
    exact remove_joined (hjoined ▸ hnodup)
  refine QueueState.eq_of_entries rfl (hw.isOk_of_open hopen) hrest ?_ ?_ ?_ ?_ ?_
  all_goals
    simp only [hinner]
    rfl

/-- **A request that was polled once and is dropped** leaves the queue as it was but for the
order, because the drain of its drop does nothing. -/
theorem dropAcquire_restores (hkeep : RefusalKeepsState S) (hret : ReturnsParams S)
    (hw : Coherent C w) (hhead : HeadRefused w.inner) (hopen : w.inner.closing C = false)
    {w₁ w₂ : World ι κ W S O} (hw₁ : Coherent C w₁)
    (h₁ : w₁.inner = { w.inner with order := order }) (hw₂ : Settled C w₂) {cx : W}
    (h₂ : w₂.inner = w.inner.enqueued order i p cx front)
    (hi : w₂.slots i = .live ⟨.linked, none⟩) {k : κ} (hk : w₂.calls k = none) :
    ∃ v, step C w₂ (.dropAcquire k i) = some v ∧ (∃ u, DrainsTo C k v u) ∧
      ∀ u, DrainsTo C k v u → u.inner = w₁.inner := by
  have hstep : step C w₂ (.dropAcquire k i) = some (withQueue C k w₂ (dropNode k i .linked)) := by
    simp only [step, hi, hk]
    rw [dropAcquire_of_asked k w₂ i (by simp)]
  -- the node leaves the list as it joined it
  obtain ⟨v, hres, hinner⟩ := dropNode_enqueued hw hopen hw₂.coherent h₂ hi hk
  obtain ⟨c, hmid, -⟩ := Midway.start (C := C) (.dropAcquire (k := k) i .linked hi (by simp))
    hw₂.coherent hk hres
  refine ⟨_, hstep, hmid.completes, fun u hu => ?_⟩
  have hdrained := hmid.drained hu
  have hu' : Coherent C u := by
    obtain ⟨acts, -, hexec, -⟩ := hu
    exact ((hw₂.step hstep).exec hexec).coherent
  -- the head was refused before, and the drain asks nobody else
  have hhead' : HeadRefused v.inner := by
    rw [hinner]
    exact hhead
  obtain ⟨hstate, hkept, hquiet, -⟩ := drained_of_headRefused (C := C) hkeep hret hhead'
  rw [← hinner] at h₁
  refine hdrained.inner_eq hu' hw₁ ?_ ?_ ?_ hquiet ?_ ?_ ?_
  · rw [h₁, hinner]
    exact hopen
  · rw [hstate, h₁]
  · rw [hkept, h₁]
  all_goals rw [h₁]

/-- A closed queue turns both away. -/
theorem tryAcquire_agrees_of_closing (hclosing : w.inner.closing C = true)
    (hpoison : w.inner.poisoned = false) (hi : w.slots i = .unborn) {cx : W} {calls : WakerCalls}
    {w₁ w₂ : World ι κ W S O} (h₁ : step C w (.tryAcquire i p true) = some w₁)
    (h₂ : Transition.exec (step C) w [.acquire i p, .poll i cx calls] = some w₂) :
    TryAgrees C w₁ w₂ i p cx (.returned (.error (.closed p))) := by
  have hstep : step C w (.tryAcquire i p true) = some (tryAcquirePermit C w i p true) := by
    simp [step, hi]
  have htry := acquireOrEnqueue_closing (w := (w.setSlot i .gone).lock) hpoison hclosing i p true
  have hpoll := acquireOrEnqueue_closing (w := ((((w.setSlot i (.live ⟨.initial, some p⟩)).emit
    (.created i p)).lock).setSlot i (.live ⟨.initial, none⟩))) hpoison hclosing i p true
  rw [hstep] at h₁
  cases h₁
  simp only [Transition.exec, step, hi, Option.bind_some, World.emit_slots, World.setSlot_slots,
    Function.update_self, Option.some.injEq] at h₂
  subst h₂
  constructor
  case tried => simp [tryAcquirePermit, tryAcquire, htry, wrapTry]
  case polled => simp [pollAcquire, poll, pollFirst, hpoll, wrapPoll, asPoll]
  case ready =>
    intro _
    simp [tryAcquirePermit, tryAcquire, htry, wrapTry, pollAcquire, poll, pollFirst, hpoll,
      wrapPoll]
  case dropped => rintro ⟨⟩

/-- **`try_acquire` agrees with a poll and a drop.** -/
theorem tryAcquire_agrees (htotal : AcquireTotal S) (hkeep : RefusalKeepsState S)
    (hret : ReturnsParams S) (hw : Settled C w)
    (hhead : w.inner.closing C = false → HeadRefused w.inner) (hpoison : w.inner.poisoned = false)
    (hi : w.slots i = .unborn) {cx : W} {calls : WakerCalls} {w₁ w₂ : World ι κ W S O}
    (h₁ : step C w (.tryAcquire i p true) = some w₁)
    (h₂ : Transition.exec (step C) w [.acquire i p, .poll i cx calls] = some w₂)
    (hcalm : Calm w₂.log) : ∃ res, TryAgrees C w₁ w₂ i p cx res := by
  cases hclosing : w.inner.closing C with
  | true => exact ⟨_, tryAcquire_agrees_of_closing hclosing hpoison hi h₁ h₂⟩
  | false =>
    have hopen := QueueState.admits_iff.mpr ⟨hpoison, hclosing⟩
    have hw₁ := hw.step h₁
    have hw₂ := hw.exec h₂
    obtain ⟨v, hv, hrest⟩ := Option.bind_eq_some_iff.mp h₂
    obtain ⟨_, h, ⟨⟩⟩ := Option.bind_eq_some_iff.mp hrest
    have hv' := hw.step hv
    simp only [step, hi, Option.some.injEq] at hv
    subst hv
    obtain ⟨order, front, hord, hpoll⟩ :=
      step_firstPoll (p := p) htotal hkeep hret hv'.coherent hopen (by simp) h hcalm
    -- both have consulted the order, and it has decided the same
    cases step_fairTry htotal hkeep hret hw.coherent hopen hi hord h₁ with
    | noPermits hturned hinner₁ hlast₁ =>
      cases hpoll with
      | pending _ es hinner₂ hslot _ hlast₂ =>
        refine ⟨_, hlast₁, hlast₂, fun hready => absurd rfl hready, fun _ k hk => ?_⟩
        exact dropAcquire_restores hkeep hret hw.coherent (hhead hclosing) hclosing hw₁.coherent
          hinner₁ hw₂ hinner₂ hslot hk
      | granted hlead state r hacq => exact (hturned.not_granted hlead hacq).elim
    | granted hlead state r hacq hinner₁ hlast₁ =>
      cases hpoll with
      | pending hturned => exact (hturned.not_granted hlead hacq).elim
      | granted _ state' r' hacq' es hinner₂ _ hlast₂ =>
        have hsame : (state, Unwind.returned (Except.ok r)) = (state', .returned (.ok r')) :=
          hacq.symm.trans hacq'
        cases hsame
        refine ⟨_, hlast₁, hlast₂, fun _ => hinner₂.trans hinner₁.symm, ?_⟩
        rintro ⟨⟩

end Fast

/-! ## Runs -/

/-- The first poll of every `Acquire`, and every fair `try_acquire`, agrees with queueing as
long as no user code panics. -/
structure FastPath (C : Closeability) (w : World ι κ W S O) : Prop where
  first_poll : w.inner.closing C = false → ∀ i p, w.slots i = .live ⟨.initial, some p⟩ →
    ∀ cx calls w', step C w (.poll i cx calls) = some w' → Calm w'.log →
      ∀ k, PollAgrees C w w' i p cx k
  try_acquire : ∀ i, w.slots i = .unborn → ∀ p w₁, step C w (.tryAcquire i p true) = some w₁ →
    ∀ cx calls w₂, Transition.exec (step C) w [.acquire i p, .poll i cx calls] = some w₂ →
      Calm w₂.log → ∃ res, TryAgrees C w₁ w₂ i p cx res

/-- **The immediate grant agrees with queueing.** Let `S::acquire` honour its contract, and let
no user code panic. Then, when no operation is in progress, a first poll does what linking the
node and draining the queue would do, and a fair `try_acquire` does what polling a new request
once and dropping it would do. -/
theorem fast_path_agrees (htotal : AcquireTotal S) (hkeep : RefusalKeepsState S)
    (hret : ReturnsParams S) (hgrant : GrantKeepsRefusals S) {state : S} {order : O}
    {w : World ι κ W S O} (h : Reachable C state order w) (hcalm : Calm w.log)
    (hquiet : Quiescent w) : FastPath C w := by
  have hw := Reachable.settled h
  have hpoison := (Reachable.intact h hcalm).1
  have hhead (hopen : w.inner.closing C = false) : HeadRefused w.inner :=
    (Reachable.attended htotal hkeep hret hgrant h hcalm hopen).headRefused hquiet
  constructor
  case first_poll =>
    intro hopen i p hi cx calls w' hstep hcalm' k
    exact poll_agrees htotal hkeep hret hgrant hw (hhead hopen)
      (QueueState.admits_iff.mpr ⟨hpoison, hopen⟩) hi hstep hcalm' (hquiet k)
  case try_acquire =>
    intro i hi p w₁ h₁ cx calls w₂ h₂ hcalm'
    exact tryAcquire_agrees htotal hkeep hret hw hhead hpoison hi h₁ h₂ hcalm'

/-- A waiter for three permits blocks the queue, and two permits are available. -/
theorem fast_path_agrees_of_blocked :
    ∃ w : World Nat Unit Nat SemaphoreCounter FairOrder,
      run .closeable ⟨0⟩ .lifo [.acquire 0 (3 : Nat), .poll 0 7 .quiet, .acquire 1 (1 : Nat),
        .withState () (SemaphoreCounter.add 2), .finish () (.returned ())] = some w ∧
      FastPath .closeable w := by
  have hrun : run .closeable (⟨0⟩ : SemaphoreCounter) FairOrder.lifo
      [.acquire 0 (3 : Nat), .poll 0 7 .quiet, .acquire 1 (1 : Nat),
        .withState () (SemaphoreCounter.add 2), .finish () (.returned ())] = some _ := rfl
  exact ⟨_, hrun, fast_path_agrees SemaphoreCounter.acquireTotal SemaphoreCounter.refusalKeepsState
    SemaphoreCounter.returnsParams SemaphoreCounter.grantKeepsRefusals
    (Transition.reachable_iff_exec.mpr ⟨_, hrun⟩) (by decide) fun _ => rfl⟩

end FlagBearer
