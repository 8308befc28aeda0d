import FlagBearer.Core.States
import FlagBearer.Lib.Pass
import FlagBearer.Queue.Confined
import FlagBearer.Queue.Wakes

/-!
# A Batched Drain Is a Single Pass

The drain of `with_queue` wakes at most 32 waiters at a time. After each full batch it locks
again and starts over at the front of the list. If nothing else happens in between, this
amounts to a single pass over the list: the nodes that a restart visits again are nodes
without params, which it skips again.

## Main results

- `checkLoop_visits`: one check is a pass limited by the room of its batch
- `Midway.step`: what is done and what is still due, over the steps of a call
- `batched_drain_refines_pass`: the statement about `with_queue`
-/

namespace FlagBearer

open PinList Pass

variable {ι κ W S O : Type} [SemaphoreState S] {C : Closeability}

/-! ## The pass -/

/-- What a call of `S::acquire` on behalf of a waiter comes to: a permit, or params that are
put back, or none if it unwinds. -/
def served : Unwind (Except (Params S) (Permit S)) → Except (Option (Params S)) (Permit S)
  | .returned (.ok r) => .ok r
  | .returned (.error p) => .error (some p)
  | .panicked => .error none

/-- `S::acquire` as a server of waiters: nodes with params make an offer, and what comes back
is put into the node. -/
def waiters (ι W S : Type) [SemaphoreState S] :
    Server S (ι × Protected W S) (Params S) (Permit S) (Option (Params S)) where
  offer e := e.2.1
  serve s p := ((SemaphoreState.acquire s p).1, served (SemaphoreState.acquire s p).2)
  mark e params := (e.1, params, e.2.2)

/-- What a pass over the wait list leaves behind. -/
abbrev DrainResult (ι W S : Type) [SemaphoreState S] :=
  Result S (ι × Protected W S) (Params S) (Permit S) (Option (Params S))

/-- The pass ended in a panic of `S::acquire`. -/
def DrainResult.panicked (r : DrainResult ι W S) : Bool := r.stop.any Option.isNone

/-- The single pass that a drain of the queue amounts to; a queue that is poisoned or closing
is left alone. -/
def QueueState.drained (C : Closeability) (q : QueueState ι W S O) : DrainResult ι W S :=
  if q.admits C then (waiters ι W S).pass q.state q.entries else .start q.state q.entries

/-! ## Its events -/

/-- The outcome of a call of `S::acquire` as the history records it. -/
def answered : Except (Option (Params S)) (Permit S) → Unwind (Except (Params S) (Permit S))
  | .ok r => .returned (.ok r)
  | .error (some p) => .returned (.error p)
  | .error none => .panicked

@[simp] theorem answered_served (res : Unwind (Except (Params S) (Permit S))) :
    answered (served res) = res := by
  rcases res with (_ | _) | _ <;> rfl

/-- The call of `S::acquire` that the history records. -/
def Event.acquired? : Event ι κ W S →
    Option (ι × Params S × Unwind (Except (Params S) (Permit S)))
  | .acquired i p res => some (i, p, res)
  | _ => none

/-- The calls of `S::acquire` in a history, in order. -/
def acquisitions (log : List (Event ι κ W S)) :
    List (ι × Params S × Unwind (Except (Params S) (Permit S))) :=
  log.filterMap Event.acquired?

@[simp] theorem acquisitions_append (log es : List (Event ι κ W S)) :
    acquisitions (log ++ es) = acquisitions log ++ acquisitions es := List.filterMap_append

@[simp] theorem acquisitions_nil : acquisitions ([] : List (Event ι κ W S)) = [] := rfl

/-- The calls of a pass. -/
def DrainResult.acquisitions (r : DrainResult ι W S) :
    List (ι × Params S × Unwind (Except (Params S) (Permit S))) :=
  r.calls.map fun call => (call.1.1, call.2.1, answered call.2.2)

/-- The waiters that a pass grants, each with its waker. -/
def DrainResult.woken (r : DrainResult ι W S) : List (ι × W) :=
  r.granted.map fun e => (e.1, e.2.2)

/-- The events that a visit of `check` records. -/
def visitEvents (k : κ) (i : ι) (x : W) (p : Params S) :
    Except (Option (Params S)) (Permit S) → List (Event ι κ W S)
  | .ok r => [.acquired i p (.returned (.ok r)), .removed k .withQueue i x]
  | res => [.acquired i p (answered res)]

/-- The events that the visits of a pass record. -/
def DrainResult.events (k : κ) (r : DrainResult ι W S) : List (Event ι κ W S) :=
  r.calls.flatMap fun call => visitEvents k call.1.1 call.1.2.2 call.2.1 call.2.2

theorem DrainResult.acquisitions_events (k : κ) (r : DrainResult ι W S) :
    FlagBearer.acquisitions (r.events k) = r.acquisitions := by
  obtain ⟨state, kept, calls, stop⟩ := r
  unfold events acquisitions
  induction calls with
  | nil => rfl
  | cons call calls ih =>
    obtain ⟨⟨i, params, x⟩, p, res⟩ := call
    simp only [List.flatMap_cons, acquisitions_append, ih, List.map_cons]
    rcases res with (_ | _) | _ <;> rfl

theorem DrainResult.wakes_events [DecidableEq κ]
    (k : κ) (r : DrainResult ι W S) : wakes k (r.events k) = [] := by
  obtain ⟨state, kept, calls, stop⟩ := r
  unfold events
  induction calls with
  | nil => rfl
  | cons call calls ih =>
    obtain ⟨⟨i, params, x⟩, p, res⟩ := call
    simp only [List.flatMap_cons, wakes_append, ih]
    rcases res with (_ | _) | _ <;> rfl

/-! ## One check -/

/-- What a check does to the world: the visits of a limited pass over the nodes from its cursor
on. -/
structure Visits (k : κ) (before : WaitList ι W S) (w w' : World ι κ W S O) (c : Call ι W S)
    (r : DrainResult ι W S) : Prop where
  queue : w'.inner.queue = .ok (before ++ r.kept)
  state : w'.inner.state = r.state
  poisoned : w'.inner.poisoned = (w.inner.poisoned || r.panicked)
  closed : w'.inner.closed = w.inner.closed
  order : w'.inner.order = w.inner.order
  call : ∃ wakes, w'.calls k = some { c with wakes := wakes } ∧
    wakes.wakers = c.wakes.wakers ++ r.woken
  log : w'.log = w.log ++ r.events k

theorem Visits.nothing {k : κ} {before after : WaitList ι W S} {w : World ι κ W S O}
    {c : Call ι W S} (hq : w.inner.queue = .ok (before ++ after)) (hk : w.calls k = some c) :
    Visits k before w w c (.start w.inner.state after) := by
  constructor
  case queue => exact hq
  case state => rfl
  case poisoned => simp [DrainResult.panicked]
  case closed => rfl
  case order => rfl
  case call => exact ⟨c.wakes, hk, by simp [DrainResult.woken]⟩
  case log => simp [DrainResult.events]

/-- A node without params is behind the cursor for the rest of the check. -/
theorem Visits.skip {k : κ} {before : WaitList ι W S} {e : ι × Protected W S}
    {w w' : World ι κ W S O} {c : Call ι W S} {r : DrainResult ι W S}
    (h : Visits k (before ++ [e]) w w' c r) : Visits k before w w' c (r.skip e) := by
  constructor
  case queue => simpa using h.queue
  case state => exact h.state
  case poisoned => exact h.poisoned
  case closed => exact h.closed
  case order => exact h.order
  case call => exact h.call
  case log => exact h.log

/-- A grant comes before the visits that follow it. -/
theorem Visits.grant {k : κ} {before : WaitList ι W S} {w w₁ w' : World ι κ W S O}
    {c : Call ι W S} {wakes : WakeBatch ι W} {i : ι} {p : Params S} {x : W}
    {rest : DrainResult ι W S} (h : Visits k before w₁ w' { c with wakes := wakes } rest)
    (hwakers : wakes.wakers = c.wakes.wakers ++ [(i, x)])
    (hpoisoned : w₁.inner.poisoned = w.inner.poisoned)
    (hclosed : w₁.inner.closed = w.inner.closed) (horder : w₁.inner.order = w.inner.order)
    {r : Permit S} (hlog : w₁.log = w.log ++ visitEvents k i x p (.ok r)) :
    Visits k before w w' c (rest.accept (i, some p, x) p r) := by
  obtain ⟨wakes', hk', hwakers'⟩ := h.call
  constructor
  case queue => exact h.queue
  case state => exact h.state
  case poisoned =>
    rw [h.poisoned, hpoisoned]
    rfl
  case closed => rw [h.closed, hclosed]
  case order => rw [h.order, horder]
  case call =>
    refine ⟨wakes', hk', ?_⟩
    rw [hwakers', hwakers, List.append_assoc]
    rfl
  case log =>
    rw [h.log, hlog, List.append_assoc]
    rfl

/-- A refusal or a panic ends the visits; `params` is what is put back into the node. -/
theorem Visits.fail {k : κ} {before after : WaitList ι W S} {w w' : World ι κ W S O}
    {c : Call ι W S} {i : ι} {p : Params S} {x : W} {params : Option (Params S)}
    (hk : w.calls k = some c) (hq : w'.inner.queue = .ok (before ++ (i, params, x) :: after))
    (hpoisoned : w'.inner.poisoned = (w.inner.poisoned || params.isNone))
    (hclosed : w'.inner.closed = w.inner.closed) (horder : w'.inner.order = w.inner.order)
    (hcalls : w'.calls = w.calls) (hlog : w'.log = w.log ++ visitEvents k i x p (.error params)) :
    Visits k before w w' c ⟨w'.inner.state, (i, params, x) :: after,
      [((i, some p, x), p, .error params)], some params⟩ := by
  constructor
  case queue => exact hq
  case state => rfl
  case poisoned => exact hpoisoned
  case closed => exact hclosed
  case order => exact horder
  case call => exact ⟨c.wakes, by rw [hcalls, hk], by simp [DrainResult.woken]⟩
  case log => simpa [DrainResult.events] using hlog

/-- **A check is a pass** limited by the room that its batch has left. -/
theorem checkLoop_visits [DecidableEq ι] [DecidableEq κ]
    (k : κ) {before after : WaitList ι W S} {w : World ι κ W S O}
    {c : Call ι W S} {room : Nat} (hw : Coherent C w)
    (hq : w.inner.queue = .ok (before ++ after)) (hk : w.calls k = some c)
    (hroom : c.wakes.wakers.length + (room + 1) = WakeBatch.CAP) :
    ∃ w', checkLoop k before after w = (w', if DrainResult.panicked
        ((waiters ι W S).passUpTo (room + 1) w.inner.state after) then .panicked
        else .returned ()) ∧
      Visits k before w w' c ((waiters ι W S).passUpTo (room + 1) w.inner.state after) := by
  induction after generalizing before w c room with
  | nil =>
    refine ⟨w, ?_, ?_⟩
    · simp [checkLoop, DrainResult.panicked]
    · simpa using Visits.nothing hq hk
  | cons e after ih =>
    obtain ⟨i, _ | p, x⟩ := e
    · -- a node without params is skipped
      have hskip : (waiters ι W S).offer (i, none, x) = none := rfl
      obtain ⟨w', hres, hvisits⟩ := @ih (before ++ [(i, none, x)]) w c room hw (by simpa using hq)
        hk hroom
      rw [Server.passUpTo_skip hskip]
      exact ⟨w', hres, hvisits.skip⟩
    · have hoffer : (waiters ι W S).offer (i, some p, x) = some p := rfl
      rcases hacq : SemaphoreState.acquire w.inner.state p with ⟨state, (p' | r) | _⟩
      · -- the first refusal ends the loop
        have hserve : (waiters ι W S).serve w.inner.state p = (state, .error (some p')) := by
          simp [waiters, hacq, served]
        rw [checkLoop_refuse k hacq, Server.passUpTo_fail hoffer hserve]
        exact ⟨_, rfl, .fail hk rfl (by simp) rfl rfl rfl rfl⟩
      · -- a grant; the loop goes on unless the batch is full now
        have hserve : (waiters ι W S).serve w.inner.state p = (state, .ok r) := by
          simp [waiters, hacq, served]
        have hnotFull : c.wakes.isFull = false := WakeBatch.not_isFull_of_lt (by omega)
        obtain ⟨wakes, hpush⟩ := WakeBatch.push_of_not_isFull hnotFull i x
        have hwakers := (WakeBatch.push_eq_some.mp hpush).2
        obtain ⟨w₁, hw₁, hres⟩ := checkLoop_grant k hw hq hk hpush hacq
        have hq₁ : w₁.inner.queue = .ok (before ++ after) := by rw [hw₁]
        have hk₁ : w₁.calls k = some { c with wakes := wakes } := by simp [hw₁]
        have hcoh : Coherent C w₁ := hw.unlink hq hq₁ (by rw [hw₁]) (by rw [hw₁]) (by simp)
          (by rintro _ ⟨⟩; rfl) (by rw [hw₁])
        have hstate : w₁.inner.state = state := by rw [hw₁]
        -- the visits from here on, with this one before them
        have grant {w' : World ι κ W S O} {rest : DrainResult ι W S}
            (h : Visits k before w₁ w' { c with wakes := wakes } rest) :
            Visits k before w w' c (rest.accept (i, some p, x) p r) :=
          h.grant hwakers (by rw [hw₁]) (by rw [hw₁]) (by rw [hw₁]) (by rw [hw₁]; rfl)
        rw [Server.passUpTo_accept hoffer hserve, hres, ← hstate]
        cases room with
        | zero =>
          have hfull : wakes.isFull = true := by
            simp only [WakeBatch.isFull, hwakers, List.length_append, List.length_singleton,
              beq_iff_eq]
            omega
          rw [if_pos hfull, Server.passUpTo_zero]
          exact ⟨w₁, rfl, grant (.nothing hq₁ hk₁)⟩
        | succ room =>
          have hroom₁ : wakes.wakers.length + (room + 1) = WakeBatch.CAP := by
            simp only [hwakers, List.length_append, List.length_singleton]
            omega
          have hfull : ¬ wakes.isFull = true := by
            simp only [WakeBatch.isFull, beq_iff_eq]
            omega
          rw [if_neg hfull]
          obtain ⟨w', hloop, hvisits⟩ :=
            @ih before w₁ { c with wakes := wakes } room hcoh hq₁ hk₁ hroom₁
          exact ⟨w', hloop, grant hvisits⟩
      · -- a panic loses the params and poisons the queue
        have hserve : (waiters ι W S).serve w.inner.state p = (state, .error none) := by
          simp [waiters, hacq, served]
        rw [checkLoop_lose k hacq, Server.passUpTo_fail hoffer hserve]
        exact ⟨_, rfl, .fail hk rfl (by simp) rfl rfl rfl rfl⟩

/-! ## The steps of a call -/

variable [DecidableEq κ]

/-- What is still to be done for the list between two lock sections of a call. -/
def Call.due (c : Call ι W S) (q : QueueState ι W S O) : DrainResult ι W S :=
  if c.more then (waiters ι W S).pass q.state q.entries else .start q.state q.entries

/-- A call of `with_queue` on its way: what it has done since `v`, and what is still due, make
up the pass `r`. -/
structure Midway (C : Closeability) (k : κ) (v w : World ι κ W S O) (c : Call ι W S)
    (r : DrainResult ι W S) : Prop where
  coherent : Coherent C w
  call : w.calls k = some c
  kind : c.kind = .withQueue
  more : c.more = true → w.inner.admits C = true ∧ c.unwinding = false
  log : ∃ es, w.log = v.log ++ es
  calls : acquisitions (v.since w) ++ (c.due w.inner).acquisitions = r.acquisitions
  woken : wakes k (v.since w) ++ (c.wakes.wakers ++ (c.due w.inner).woken) = r.woken
  state : (c.due w.inner).state = r.state
  kept : (c.due w.inner).kept = r.kept
  poisoned : (w.inner.poisoned || (c.due w.inner).panicked) = (v.inner.poisoned || r.panicked)
  closed : w.inner.closed = v.inner.closed
  order : w.inner.order = v.inner.order

/-- An upper bound on the steps that a call still takes. -/
def Call.rank (c : Call ι W S) (q : QueueState ι W S O) : Nat :=
  1 + c.wakes.wakers.length + if c.more then 2 * q.entries.length + 1 else 0

/-- What a turn of the loop visits: it starts with an empty batch. -/
def QueueState.turned (q : QueueState ι W S O) : DrainResult ι W S :=
  (waiters ι W S).passUpTo WakeBatch.CAP q.state q.entries

/-- A turn that fills its batch does not stop at a panic. -/
theorem QueueState.turned_of_panicked {q : QueueState ι W S O} (h : q.turned.panicked = true) :
    q.turned.granted.length < WakeBatch.CAP := by
  refine Nat.lt_of_le_of_ne ((waiters ι W S).length_passUpTo _ _ _).1 ?_
  intro hfull
  have hstop := ((waiters ι W S).pass_of_full _ _ _ hfull).1
  have hnone : q.turned.stop = none := hstop
  simp [DrainResult.panicked, hnone] at h

/-- The locals of a call after a turn that has visited `r`. -/
def Call.turn (c : Call ι W S) (wakes : WakeBatch ι W) (r : DrainResult ι W S) : Call ι W S :=
  { c with
    wakes := wakes
    more := r.granted.length == WakeBatch.CAP && r.kept.length != 0
    unwinding := c.unwinding || r.panicked }

/-- A turn of the loop on an open queue. -/
theorem withQueueTurn_visits [DecidableEq ι] [Order O]
    {k : κ} {w : World ι κ W S O} {c : Call ι W S}
    (hw : Coherent C w) (hk : w.calls k = some c) (hkind : c.kind = .withQueue)
    (hwakes : c.wakes.wakers = []) (hopen : w.inner.admits C = true) :
    ∃ w' wakes, Visits k [] w w' c w.inner.turned ∧ wakes.wakers = w.inner.turned.woken ∧
      withQueueTurn C k w = w'.unlock.setCall k (some (c.turn wakes w.inner.turned)) := by
  obtain ⟨queue, hq⟩ := hw.queue_of_open (QueueState.admits_iff.mp hopen).2
  have hentries := QueueState.entries_of_queue hq
  have hstart : w.inner.queue = .ok ([] ++ queue) := hq
  have hroom : c.wakes.wakers.length + (31 + 1) = WakeBatch.CAP := by simp [hwakes, WakeBatch.CAP]
  obtain ⟨w', hloop, hvisits⟩ := checkLoop_visits k hw hstart hk hroom
  have hturned : (waiters ι W S).passUpTo (31 + 1) w.inner.state queue = w.inner.turned := by
    rw [QueueState.turned, hentries]
    rfl
  rw [hturned] at hloop hvisits
  obtain ⟨wakes, hk', hwakers⟩ := hvisits.call
  rw [hwakes, List.nil_append] at hwakers
  refine ⟨w', wakes, hvisits, hwakers, ?_⟩
  have hguard : (w.inner.poisoned || w.inner.closing C) = false := by
    simpa [QueueState.admits] using hopen
  have hcheck : check C k w =
      (w', if w.inner.turned.panicked then .panicked else .returned ()) := by
    simp [check, hguard, hq, hloop]
  cases hpanic : w.inner.turned.panicked with
  | true =>
    have hlt := QueueState.turned_of_panicked hpanic
    have hnotFull : (w.inner.turned.granted.length == WakeBatch.CAP) = false :=
      beq_eq_false_iff_ne.mpr (Nat.ne_of_lt hlt)
    simp [withQueueTurn, hcheck, hpanic, World.modifyCall, hk', Call.turn, hnotFull]
  | false =>
    -- the batch holds what was granted, and `len` counts what was kept
    have hbatch : wakes.isFull = (w.inner.turned.granted.length == WakeBatch.CAP) := by
      simp [WakeBatch.isFull, hwakers, DrainResult.woken]
    have hcoh : Coherent C w' := by
      have hroom : c.wakes.isFull = false := WakeBatch.not_isFull_of_nil hwakes
      have hmoves : Moves C none (w, .empty) ((check C k w).1, .empty) :=
        (check_moves k .empty hw hk hkind hroom).1
      rw [hcheck] at hmoves
      exact hw.moves hmoves
    have hlen : w'.inner.len = w.inner.turned.kept.length := hcoh.len_of_queue hvisits.queue
    simp [withQueueTurn, hcheck, hpanic, World.modifyCall, hk', Call.turn, World.batchFull,
      hbatch, hlen]

theorem DrainResult.acquisitions_andThen (r r' : DrainResult ι W S) :
    DrainResult.acquisitions (r.andThen r') = r.acquisitions ++ r'.acquisitions :=
  List.map_append

theorem DrainResult.woken_andThen (r r' : DrainResult ι W S) :
    DrainResult.woken (r.andThen r') = r.woken ++ r'.woken := by
  simp [DrainResult.woken]

/-- A turn of the loop that has visited `r`, after which the rest of the pass is due. -/
theorem Midway.of_visits {k : κ} {w w' u : World ι κ W S O} {c c' : Call ι W S}
    {r : DrainResult ι W S} (hvisits : Visits k [] w w' c r)
    (hcoh : Coherent C u) (hinner : u.inner = w'.inner) (hlog : u.log = w'.log)
    (hcall : u.calls k = some c') (hkind : c'.kind = .withQueue)
    (hmore : c'.more = true → u.inner.admits C = true ∧ c'.unwinding = false)
    (hwakers : c'.wakes.wakers = r.woken) {d : DrainResult ι W S}
    (hd : r.andThen (c'.due u.inner) = { d with stop := (c'.due u.inner).stop })
    (hstop : d.panicked = (r.panicked || (c'.due u.inner).panicked)) :
    Midway C k w u c' d := by
  have hes : u.log = w.log ++ r.events k := by rw [hlog, hvisits.log]
  constructor
  case coherent => exact hcoh
  case call => exact hcall
  case kind => exact hkind
  case more => exact hmore
  case log => exact ⟨_, hes⟩
  case calls =>
    rw [World.since_of_log hes, DrainResult.acquisitions_events,
      ← DrainResult.acquisitions_andThen, hd]
    rfl
  case woken =>
    rw [World.since_of_log hes, DrainResult.wakes_events, hwakers, List.nil_append,
      ← DrainResult.woken_andThen, hd]
    rfl
  case state =>
    show (r.andThen (c'.due u.inner)).state = d.state
    rw [hd]
  case kept =>
    show (r.andThen (c'.due u.inner)).kept = d.kept
    rw [hd]
  case poisoned => rw [hinner, hvisits.poisoned, hstop, ← hinner, Bool.or_assoc]
  case closed => rw [hinner, hvisits.closed]
  case order => rw [hinner, hvisits.order]

/-- A section that does nothing, after which nothing is due. -/
theorem Midway.idle {k : κ} {v w : World ι κ W S O} {c : Call ι W S} (hw : Coherent C w)
    (hk : w.calls k = some c) (hkind : c.kind = .withQueue) (hwakes : c.wakes.wakers = [])
    (hmore : c.more = false) (hinner : w.inner = v.inner) (hlog : w.log = v.log ++ []) :
    Midway C k v w c (.start v.inner.state v.inner.entries) := by
  have hdue : c.due w.inner = .start v.inner.state v.inner.entries := by
    simp [Call.due, hmore, hinner]
  constructor
  case coherent => exact hw
  case call => exact hk
  case kind => exact hkind
  case more => simp [hmore]
  case log => exact ⟨[], hlog⟩
  case calls => rw [World.since_of_log hlog, hdue, acquisitions_nil, List.nil_append]
  case woken =>
    rw [World.since_of_log hlog, hdue, wakes_nil, hwakes, List.nil_append, List.nil_append]
  case state => rw [hdue]
  case kept => rw [hdue]
  case poisoned => rw [hdue, hinner]
  case closed => rw [hinner]
  case order => rw [hinner]

/-- What a turn has visited and what is due after it make up the pass. -/
theorem Call.due_turn {q q' : QueueState ι W S O} (hkept : q'.entries = q.turned.kept)
    (hstate : q'.state = q.turned.state) (c : Call ι W S) (wakes : WakeBatch ι W) :
    q.turned.andThen ((c.turn wakes q.turned).due q') =
        { (waiters ι W S).pass q.state q.entries with
          stop := ((c.turn wakes q.turned).due q').stop } ∧
      DrainResult.panicked ((waiters ι W S).pass q.state q.entries) =
        (q.turned.panicked || ((c.turn wakes q.turned).due q').panicked) := by
  by_cases hfull : q.turned.granted.length = WakeBatch.CAP
  · -- a full batch: the rest of the pass is due, if anybody is left
    obtain ⟨hstop, hpass⟩ := (waiters ι W S).pass_of_full _ _ _ hfull
    have hquiet : q.turned.panicked = false := by
      have hnone : q.turned.stop = none := hstop
      simp [DrainResult.panicked, hnone]
    have hdue : (c.turn wakes q.turned).due q' =
        (waiters ι W S).pass q.turned.state q.turned.kept := by
      cases hnil : q.turned.kept <;> simp [Call.due, Call.turn, hfull, hnil, hkept, hstate]
    rw [hdue, hpass, hquiet, Bool.false_or]
    exact ⟨rfl, rfl⟩
  · -- the pass has come to its end
    have hlt := Nat.lt_of_le_of_ne ((waiters ι W S).length_passUpTo _ _ _).1 hfull
    have hpass : (waiters ι W S).pass q.state q.entries = q.turned :=
      (waiters ι W S).pass_of_room _ _ _ hlt
    have hdue : (c.turn wakes q.turned).due q' = .start q.turned.state q.turned.kept := by
      simp [Call.due, Call.turn, hfull, hkept, hstate]
    rw [hdue, hpass]
    simp [Result.andThen, DrainResult.panicked]

/-- A turn that fills its batch leaves fewer steps to do. -/
theorem Call.rank_turn {q q' : QueueState ι W S O} (hkept : q'.entries = q.turned.kept)
    (c : Call ι W S) {wakes : WakeBatch ι W} (hwakers : wakes.wakers = q.turned.woken) :
    (c.turn wakes q.turned).rank q' ≤ 2 * q.entries.length + 1 := by
  have hlength : q.turned.kept.length + q.turned.granted.length = q.entries.length :=
    ((waiters ι W S).length_passUpTo _ _ _).2
  have hbatch : wakes.wakers.length = q.turned.granted.length := by
    simp [hwakers, DrainResult.woken]
  have hpos : 0 < WakeBatch.CAP := by decide
  show 1 + wakes.wakers.length + (if (c.turn wakes q.turned).more then
    2 * q'.entries.length + 1 else 0) ≤ _
  rw [hkept, hbatch]
  by_cases hfull : q.turned.granted.length = WakeBatch.CAP
  · split <;> omega
  · have hmore : (c.turn wakes q.turned).more = false := by simp [Call.turn, hfull]
    rw [hmore]
    simp only [Bool.false_eq_true, if_false]
    omega

/-- **A turn of the loop** does part of the pass, and sets `more` if something is left. -/
theorem Midway.turn [DecidableEq ι] [Order O]
    {k : κ} {w : World ι κ W S O} {c : Call ι W S} (hw : Coherent C w)
    (hk : w.calls k = some c) (hkind : c.kind = .withQueue) (hwakes : c.wakes.wakers = [])
    (hunw : c.unwinding = false) :
    ∃ c', Midway C k w (withQueueTurn C k w) c' (w.inner.drained C) ∧
      c'.rank (withQueueTurn C k w).inner ≤ 2 * w.inner.entries.length + 1 := by
  have hroom : c.wakes.isFull = false := WakeBatch.not_isFull_of_nil hwakes
  have hmoves : Moves C none (w, .empty) (withQueueTurn C k w, .empty) :=
    (withQueueTurn_moves k .empty hw hk hkind hroom).1
  have hcoh : Coherent C (withQueueTurn C k w) := hw.moves hmoves
  cases hopen : w.inner.admits C with
  | false =>
    -- nothing is admitted, so nothing is visited
    have hguard : (w.inner.poisoned || w.inner.closing C) = true := by
      unfold QueueState.admits at hopen
      cases hpoison : w.inner.poisoned <;> simp_all
    have hturn : withQueueTurn C k w = w.unlock.setCall k (some { c with more := false }) := by
      simp [withQueueTurn, check, hguard, World.modifyCall, hk, World.batchFull, hroom]
    have hdrained : w.inner.drained C = .start w.inner.state w.inner.entries := by
      simp [QueueState.drained, hopen]
    rw [hturn] at hcoh ⊢
    rw [hdrained]
    exact ⟨{ c with more := false },
      .idle hcoh (by simp) hkind hwakes rfl (by simp) (by simp), by simp [Call.rank, hwakes]⟩
  | true =>
    obtain ⟨w', wakes, hvisits, hwakers, hturn⟩ := withQueueTurn_visits hw hk hkind hwakes hopen
    have hdrained : w.inner.drained C = (waiters ι W S).pass w.inner.state w.inner.entries := by
      simp [QueueState.drained, hopen]
    have hkept : w'.inner.entries = w.inner.turned.kept := QueueState.entries_of_queue hvisits.queue
    have hclosing : w'.inner.closing C = w.inner.closing C := by
      simp [QueueState.closing, hvisits.closed]
    obtain ⟨hd, hstop⟩ := Call.due_turn hkept hvisits.state c wakes
    rw [hturn] at hcoh ⊢
    rw [hdrained]
    refine ⟨c.turn wakes w.inner.turned, ?_, Call.rank_turn hkept c hwakers⟩
    have hcall : (w'.unlock.setCall k (some (c.turn wakes w.inner.turned))).calls k =
        some (c.turn wakes w.inner.turned) := by simp
    refine .of_visits hvisits hcoh rfl rfl hcall hkind ?_ hwakers hd hstop
    intro hmore
    -- with a full batch the pass has not stopped at a panic
    have hquiet : w.inner.turned.panicked = false := by
      by_contra hpanic
      have hlt := QueueState.turned_of_panicked (by simpa using hpanic)
      simp [Call.turn, Nat.ne_of_lt hlt] at hmore
    obtain ⟨hpoison, hnotClosing⟩ := QueueState.admits_iff.mp hopen
    refine ⟨QueueState.admits_iff.mpr ⟨?_, ?_⟩, ?_⟩
    · simp [hvisits.poisoned, hpoison, hquiet]
    · simpa [hnotClosing] using hclosing
    · simp [Call.turn, hunw, hquiet]

/-- The steps of the call `k` itself; its wakers return. -/
inductive Action.Continues (k : κ) : Action ι κ W S → Prop where
  | resume : Continues k (.resume k)
  | wake : Continues k (.wake k (.returned ()))
  | finish : Continues k (.finish k (.returned ()))

/-- What a call has done when it is over: all of the pass, and nothing else. -/
structure Drained (k : κ) (v w : World ι κ W S O) (r : DrainResult ι W S) : Prop where
  log : ∃ es, w.log = v.log ++ es
  calls : acquisitions (v.since w) = r.acquisitions
  state : w.inner.state = r.state
  list : w.inner.entries = r.kept
  len : w.inner.len = r.kept.length
  poisoned : w.inner.poisoned = (v.inner.poisoned || r.panicked)
  closed : w.inner.closed = v.inner.closed
  order : w.inner.order = v.inner.order
  woken : wakes k (v.since w) = r.woken

variable [DecidableEq ι] [DecidableEq W] [Order O]

section Steps

variable {k : κ} {v w w' : World ι κ W S O} {c : Call ι W S} {r : DrainResult ι W S}

theorem Midway.resume (h : Midway C k v w c r) (hstep : step C w (.resume k) = some w') :
    ∃ c', Midway C k v w' c' r ∧ c'.rank w'.inner < c.rank w.inner := by
  cases step_cases hstep with
  | resume _ c₀ hk hwakes hunw hmore =>
    obtain rfl : c = c₀ := Option.some.inj (h.call.symm.trans hk)
    obtain ⟨hopen, -⟩ := h.more hmore
    have hcoh : Coherent C (w.lock.emit (.entered k .withQueue)) :=
      h.coherent.frame_inner rfl rfl rfl rfl
    have hturn : FlagBearer.resume C k w c =
        withQueueTurn C k (w.lock.emit (.entered k .withQueue)) := by
      simp [FlagBearer.resume, h.kind]
    -- what was due is what a pass over the present list does
    have hdue : c.due w.inner = w.inner.drained C := by
      simp [Call.due, QueueState.drained, hmore, hopen]
    rw [hturn]
    obtain ⟨c', hmid, hrank⟩ := Midway.turn hcoh h.call h.kind hwakes hunw
    refine ⟨c', ?_, ?_⟩
    · obtain ⟨es, hes⟩ := h.log
      obtain ⟨es', hes'⟩ := hmid.log
      have hboth : (withQueueTurn C k (w.lock.emit (.entered k .withQueue))).log =
          v.log ++ (es ++ .entered k .withQueue :: es') := by
        rw [hes', World.emit_log]
        simp [hes]
      have hcalls := hmid.calls
      have hwoken := hmid.woken
      rw [World.since_of_log hes'] at hcalls hwoken
      constructor
      case coherent => exact hmid.coherent
      case call => exact hmid.call
      case kind => exact hmid.kind
      case more => exact hmid.more
      case log => exact ⟨_, hboth⟩
      case calls =>
        rw [World.since_of_log hboth, ← h.calls, World.since_of_log hes, hdue,
          acquisitions_append, List.append_assoc]
        exact congrArg _ hcalls
      case woken =>
        rw [World.since_of_log hboth, ← h.woken, World.since_of_log hes, hdue, hwakes,
          wakes_append, List.append_assoc, List.nil_append]
        exact congrArg _ hwoken
      case state => rw [hmid.state, ← h.state, hdue]; rfl
      case kept => rw [hmid.kept, ← h.kept, hdue]; rfl
      case poisoned => rw [hmid.poisoned, ← h.poisoned, hdue]; rfl
      case closed => exact hmid.closed.trans h.closed
      case order => exact hmid.order.trans h.order
    · -- an empty batch with a turn due ranks above anything the turn leaves
      have hbefore : c.rank w.inner = 2 * w.inner.entries.length + 2 := by
        simp [Call.rank, hwakes, hmore]
        omega
      rw [hbefore]
      exact Nat.lt_succ_of_le hrank

theorem Midway.wake (h : Midway C k v w c r)
    (hstep : step C w (.wake k (.returned ())) = some w') :
    ∃ c', Midway C k v w' c' r ∧ c'.rank w'.inner < c.rank w.inner := by
  simp only [step, h.call, wakeNext] at hstep
  rcases hpop : c.wakes.pop with _ | ⟨⟨i, x⟩, rest⟩
  · rw [hpop] at hstep
    cases hstep
  · rw [hpop] at hstep
    cases hstep
    -- the waker passes from the batch to the events
    have hwakers := WakeBatch.pop_eq_some.mp hpop
    obtain ⟨es, hes⟩ := h.log
    have hlog : ((w.emit (.woke k i x w.locked (.returned ()))).setCall k
        (some { c with wakes := rest })).log =
          v.log ++ (es ++ [.woke k i x w.locked (.returned ())]) := by
      simp [hes]
    have hcalls := h.calls
    have hwoken := h.woken
    rw [World.since_of_log hes] at hcalls hwoken
    refine ⟨{ c with wakes := rest }, ?_, ?_⟩
    · constructor
      case coherent => exact h.coherent.frame_inner rfl rfl rfl rfl
      case call => simp
      case kind => exact h.kind
      case more => exact h.more
      case log => exact ⟨_, hlog⟩
      case calls =>
        rw [World.since_of_log hlog, acquisitions_append, List.append_assoc]
        exact hcalls
      case woken =>
        rw [World.since_of_log hlog, wakes_append, ← hwoken, hwakers]
        simp [wakes, Event.woke?, Call.due]
      case state => exact h.state
      case kept => exact h.kept
      case poisoned => exact h.poisoned
      case closed => exact h.closed
      case order => exact h.order
    · simp [Call.rank, hwakers]

omit [DecidableEq ι] [DecidableEq W] [Order O] in
theorem dropAbandoned_quiet (k : κ) (w : World ι κ W S O) (res : Unwind Unit)
    (data : Option (NodeData (Protected W S) (Removed S))) :
    (dropAbandoned w res data).inner = w.inner ∧ ∃ es, (dropAbandoned w res data).log =
      w.log ++ es ∧ acquisitions es = [] ∧ wakes k es = [] := by
  rcases data with _ | ⟨⟨_ | p, x⟩⟩ | ⟨⟨_ | p⟩ | r⟩
  · exact ⟨rfl, [], (List.append_nil _).symm, rfl, rfl⟩
  · exact ⟨rfl, [.droppedWaker x w.locked res], rfl, rfl, rfl⟩
  · exact ⟨rfl, [.droppedParams p w.locked, .droppedWaker x w.locked res],
      List.append_assoc .., rfl, rfl⟩
  · exact ⟨rfl, [], (List.append_nil _).symm, rfl, rfl⟩
  · exact ⟨rfl, [.droppedParams p w.locked], rfl, rfl, rfl⟩
  · exact ⟨rfl, [], (List.append_nil _).symm, rfl, rfl⟩

/-- A call that ends has nothing left to do. -/
theorem Midway.finish (h : Midway C k v w c r)
    (hstep : step C w (.finish k (.returned ())) = some w') :
    w'.calls k = none ∧ Drained k v w' r := by
  simp only [step, h.call] at hstep
  -- only a call that unwinds ends before its last turn
  have hmore : c.more = false := by
    unfold FlagBearer.finish at hstep
    split at hstep
    · rename_i hguard
      simp only [Bool.and_eq_true, Bool.or_eq_true, Bool.not_eq_true'] at hguard
      rcases hguard.2 with hunw | hmore
      · by_contra hmore
        have hquiet := (h.more (by simpa using hmore)).2
        rw [hunw] at hquiet
        cases hquiet
      · exact hmore
    · cases hstep
  obtain ⟨hwakes, ended, -, rfl⟩ := finish_eq_some hstep
  obtain ⟨hinner, es', hes', hacquired, hwoke⟩ := dropAbandoned_quiet k w (.returned ()) c.abandoned
  obtain ⟨es, hes⟩ := h.log
  have hlog : (((dropAbandoned w (.returned ()) c.abandoned).setCall k none).emit
      (.returned k c.kind ended)).log = v.log ++ (es ++ (es' ++ [.returned k c.kind ended])) := by
    simp [hes', hes]
  -- nothing is due, so what was done is the whole pass
  have hdue : c.due w.inner = .start w.inner.state w.inner.entries := by simp [Call.due, hmore]
  have hcalls := h.calls
  have hwoken := h.woken
  have hstate := h.state
  have hkept := h.kept
  have hpoisoned := h.poisoned
  rw [hdue] at hcalls hwoken hstate hkept hpoisoned
  rw [World.since_of_log hes] at hcalls hwoken
  refine ⟨by simp, ?_⟩
  constructor
  case log => exact ⟨_, hlog⟩
  case calls =>
    rw [World.since_of_log hlog, ← hcalls, acquisitions_append, acquisitions_append, hacquired]
    rfl
  case woken =>
    rw [World.since_of_log hlog, ← hwoken, wakes_append, wakes_append, hwoke, hwakes]
    rfl
  case state =>
    rw [← hstate]
    simp [hinner]
  case list =>
    rw [← hkept]
    simp [hinner]
  case len =>
    rw [← hkept]
    simp [hinner, h.coherent.len]
  case poisoned =>
    rw [← hpoisoned]
    simp [hinner, DrainResult.panicked]
  case closed =>
    rw [← h.closed]
    simp [hinner]
  case order =>
    rw [← h.order]
    simp [hinner]

/-- As long as a call is not over, one of its own steps is possible. -/
theorem exists_continues (hk : w.calls k = some c) (hmore : c.more = true → c.unwinding = false) :
    ∃ a : Action ι κ W S, a.Continues k ∧ (step C w a).isSome = true := by
  rcases hpop : c.wakes.pop with _ | ⟨⟨i, x⟩, rest⟩
  · have hnil : c.wakes.wakers = [] := WakeBatch.pop_eq_none.mp hpop
    cases hm : c.more with
    | true =>
      have hunw := hmore hm
      refine ⟨_, .resume, ?_⟩
      simp [step, hk, hnil, hunw, hm]
    | false =>
      refine ⟨_, .finish, ?_⟩
      simp only [step, hk, FlagBearer.finish, hnil, hm]
      rcases c.abandoned with _ | ⟨_ | _⟩ <;> cases c.unwinding <;> simp
  · refine ⟨_, .wake, ?_⟩
    simp [step, hk, wakeNext, hpop]

theorem Midway.progress (h : Midway C k v w c r) :
    ∃ a : Action ι κ W S, a.Continues k ∧ (step C w a).isSome = true :=
  exists_continues h.call fun hmore => (h.more hmore).2

end Steps

/-! ## Runs of a single call -/

/-- Where a call is after some of its own steps: on its way, or over. -/
theorem Midway.exec {k : κ} {v w w' : World ι κ W S O} {c : Call ι W S} {r : DrainResult ι W S}
    (h : Midway C k v w c r) {acts : List (Action ι κ W S)}
    (hacts : ∀ a ∈ acts, a.Continues k) (hexec : Transition.exec (step C) w acts = some w') :
    acts.length ≤ c.rank w.inner ∧ ((∃ c', Midway C k v w' c' r) ∨
      w'.calls k = none ∧ Drained k v w' r) := by
  induction acts generalizing w c with
  | nil =>
    cases hexec
    exact ⟨Nat.zero_le _, Or.inl ⟨c, h⟩⟩
  | cons a acts ih =>
    obtain ⟨u, hu, hrest⟩ := Option.bind_eq_some_iff.mp hexec
    have hacts' : ∀ b ∈ acts, b.Continues k := fun b hb => hacts b (List.mem_cons_of_mem a hb)
    have further {c' : Call ι W S} (hmid : Midway C k v u c' r)
        (hrank : c'.rank u.inner < c.rank w.inner) : (a :: acts).length ≤ c.rank w.inner ∧
          ((∃ c', Midway C k v w' c' r) ∨ w'.calls k = none ∧ Drained k v w' r) := by
      obtain ⟨hlength, hend⟩ := ih hmid hacts' hrest
      refine ⟨?_, hend⟩
      rw [List.length_cons]
      omega
    cases hacts a (List.mem_cons_self ..) with
    | resume =>
      obtain ⟨c', hmid, hrank⟩ := h.resume hu
      exact further hmid hrank
    | wake =>
      obtain ⟨c', hmid, hrank⟩ := h.wake hu
      exact further hmid hrank
    | finish =>
      obtain ⟨hover, hdrained⟩ := h.finish hu
      -- a call that is over takes no step
      cases acts with
      | nil =>
        cases hrest
        refine ⟨?_, Or.inr ⟨hover, hdrained⟩⟩
        simp only [List.length_singleton, Call.rank]
        omega
      | cons b acts =>
        obtain ⟨u', hu', -⟩ := Option.bind_eq_some_iff.mp hrest
        cases hacts' b (List.mem_cons_self ..) <;> simp [step, hover] at hu'

/-! ## The calls of with_queue -/

/-- The closures that the program passes to `with_queue`: those of `with_state`, of the drop of
a `Permit`, and of the drop of an `Acquire` that was queued. -/
inductive Closure (k : κ) (w : World ι κ W S O) :
    (World ι κ W S O → World ι κ W S O × Unwind Unit) → Prop where
  | withState (f : S → S × Unwind Unit) : Closure k w fun v => v.updateState f
  | dropPermit (i : ι) (r : Permit S) : Closure k w fun v => v.callRelease .guard i r
  | dropAcquire (i : ι) (n : Node (Removed S)) (hi : w.slots i = .live ⟨n, none⟩)
      (hn : n ≠ .initial) : Closure k w (dropNode k i n)

omit [DecidableEq W] in
/-- A closure that has returned leaves the batch and the flags of its call as they were. -/
theorem Closure.begins {k : κ} {w v : World ι κ W S O}
    {f : World ι κ W S O → World ι κ W S O × Unwind Unit} (h : Closure k w f) (hw : Coherent C w)
    (hk : w.calls k = none) (hf : f (w.enter k) = (v, .returned ())) :
    Coherent C v ∧ ∃ c, v.calls k = some c ∧ c.kind = .withQueue ∧ c.wakes.wakers = [] ∧
      c.more = false ∧ c.unwinding = false := by
  have hcoh := hw.enter hk
  have hcall := w.enter_call k
  cases h with
  | withState f =>
    have hv : v = ((w.enter k).updateState f).1 := (congrArg Prod.fst hf).symm
    subst hv
    exact ⟨hcoh.frame_inner rfl rfl rfl rfl, _, hcall, rfl, rfl, rfl, rfl⟩
  | dropPermit i r =>
    have hv : v = ((w.enter k).callRelease .guard i r).1 := (congrArg Prod.fst hf).symm
    subst hv
    exact ⟨hcoh.frame_inner rfl rfl rfl rfl, _, hcall, rfl, rfl, rfl, rfl⟩
  | dropAcquire i n hi hn =>
    -- whatever the node was, its drop leaves at most its abandoned data in the call
    have hclosure : ClosureMoves C (some i) k .empty _ _ := dropNode_closure hcoh hi hn hcall
    have hmoved := hcoh.moves hclosure.moves
    rw [hf] at hmoved
    refine ⟨hmoved, ?_⟩
    cases n with
    | initial => exact absurd rfl hn
    | removed r =>
      rw [dropNode_removed] at hf
      cases r with
      | ok permit =>
        have hv : v = (dropGranted (w.enter k) i permit).1 := (congrArg Prod.fst hf).symm
        subst hv
        exact ⟨_, hcall, rfl, rfl, rfl, rfl⟩
      | error params =>
        have hv : v = (dropRefused k (w.enter k) i params).1 := (congrArg Prod.fst hf).symm
        have hcall' : ((((w.enter k).setSlot i .gone).emit (.took i)).emit (.cancelled i)).calls k =
            some (Call.start .withQueue) := hcall
        subst hv
        simp only [dropRefused, World.modifyCall_of_some hcall']
        exact ⟨_, Function.update_self .., rfl, rfl, rfl, rfl⟩
    | linked =>
      obtain ⟨data, before, after, hq, hres⟩ := dropNode_linked hcoh hi hcall
      have hv : v = (dropNode k i .linked (w.enter k)).1 := (congrArg Prod.fst hf).symm
      rw [hres] at hv
      subst hv
      exact ⟨_, Function.update_self .., rfl, rfl, rfl, rfl⟩

omit [DecidableEq W] in
/-- The first lock section of a call whose closure has returned. -/
theorem Midway.start {k : κ} {w v : World ι κ W S O}
    {f : World ι κ W S O → World ι κ W S O × Unwind Unit} (h : Closure k w f) (hw : Coherent C w)
    (hk : w.calls k = none) (hf : f (w.enter k) = (v, .returned ())) :
    ∃ c, Midway C k v (withQueue C k w f) c (v.inner.drained C) ∧
      c.rank (withQueue C k w f).inner ≤ 2 * v.inner.entries.length + 1 := by
  obtain ⟨hcoh, c, hcall, hkind, hwakes, hmore, hunw⟩ := h.begins hw hk hf
  rw [withQueue_of_returned hf]
  by_cases hlen : v.inner.len = 0
  · -- nobody waits
    have hnil : v.inner.entries = [] := List.length_eq_zero_iff.mp (hcoh.len ▸ hlen)
    have hdrained : v.inner.drained C = .start v.inner.state v.inner.entries := by
      cases hopen : v.inner.admits C <;> simp [QueueState.drained, hopen, hnil]
    have hlog : v.unlock.log = v.log ++ [] := by simp
    rw [if_pos hlen, hdrained]
    exact ⟨c, .idle (hcoh.frame_inner rfl rfl rfl rfl) hcall hkind hwakes hmore rfl hlog,
      by simp [Call.rank, hwakes, hmore]⟩
  · rw [if_neg hlen]
    exact Midway.turn hcoh hcall hkind hwakes hunw

/-- A call that has begun in `w` comes to its end in `u` by its own steps. -/
def DrainsTo (C : Closeability) (k : κ) (w u : World ι κ W S O) : Prop :=
  ∃ acts : List (Action ι κ W S), (∀ a ∈ acts, a.Continues k) ∧
    Transition.exec (step C) w acts = some u ∧ u.calls k = none

theorem Midway.completes {k : κ} {v w : World ι κ W S O} {c : Call ι W S} {r : DrainResult ι W S}
    (h : Midway C k v w c r) : ∃ u, DrainsTo C k w u := by
  -- by induction on the steps that are left at most
  induction hrank : c.rank w.inner using Nat.strongRecOn generalizing w c with
  | ind rank ih =>
    obtain ⟨a, ha, hstep⟩ := h.progress
    obtain ⟨w', hw'⟩ := Option.isSome_iff_exists.mp hstep
    have further {c' : Call ι W S} (hmid : Midway C k v w' c' r)
        (hlt : c'.rank w'.inner < c.rank w.inner) : ∃ u, DrainsTo C k w u := by
      obtain ⟨u, acts, hacts, hexec, hover⟩ := ih _ (hrank ▸ hlt) hmid rfl
      refine ⟨u, a :: acts, ?_, ?_, hover⟩
      · intro b hb
        rcases List.mem_cons.mp hb with rfl | hb
        · exact ha
        · exact hacts b hb
      · simp [hw', hexec]
    cases ha with
    | resume =>
      obtain ⟨c', hmid, hlt⟩ := h.resume hw'
      exact further hmid hlt
    | wake =>
      obtain ⟨c', hmid, hlt⟩ := h.wake hw'
      exact further hmid hlt
    | finish =>
      refine ⟨w', [.finish k (.returned ())], ?_, by simp [hw'], (h.finish hw').1⟩
      intro b hb
      rw [List.mem_singleton.mp hb]
      exact .finish

theorem Midway.drained {k : κ} {v w u : World ι κ W S O} {c : Call ι W S} {r : DrainResult ι W S}
    (h : Midway C k v w c r) (hu : DrainsTo C k w u) : Drained k v u r := by
  obtain ⟨acts, hacts, hexec, hover⟩ := hu
  rcases (h.exec hacts hexec).2 with ⟨c', hmid⟩ | ⟨-, hdrained⟩
  · rw [hmid.call] at hover
    cases hover
  · exact hdrained

/-- What `with_queue` does after its closure has left `v` behind, if nothing else happens: it
ends after a bounded number of steps, and then it has done what the single pass over the list
does. Nodes without params do not matter to the pass, and stay in the list. -/
structure DrainsAsOnePass (C : Closeability) (k : κ) (v w' : World ι κ W S O)
    (acts : List (Action ι κ W S)) : Prop where
  bounded : acts.length ≤ 2 * v.inner.entries.length + 1
  completes : w'.calls k ≠ none → ∃ u, DrainsTo C k w' u
  drained : w'.calls k = none → Drained k v w' (v.inner.drained C)
  invisible : ∀ s, let pass := (waiters ι W S).pass s
    (pass (v.inner.entries.filter fun e => e.2.1.isSome)).calls = (pass v.inner.entries).calls ∧
      (v.inner.entries.filter fun e => e.2.1.isNone).Sublist (pass v.inner.entries).kept

/-- **A batched drain is a single pass**, for every list, every `S::acquire` and every call of
`with_queue` whose closure has returned. -/
theorem batched_drain_refines_pass {k : κ} {w v w' : World ι κ W S O} (hw : Coherent C w)
    (hk : w.calls k = none) {f : World ι κ W S O → World ι κ W S O × Unwind Unit}
    (hclosure : Closure k w f) (hf : f (w.enter k) = (v, .returned ()))
    {acts : List (Action ι κ W S)} (hacts : ∀ a ∈ acts, a.Continues k)
    (hexec : Transition.exec (step C) (withQueue C k w f) acts = some w') :
    DrainsAsOnePass C k v w' acts := by
  obtain ⟨c, hstart, hrank⟩ := Midway.start hclosure hw hk hf
  obtain ⟨hlength, hend⟩ := hstart.exec hacts hexec
  constructor
  case bounded => exact Nat.le_trans hlength hrank
  case completes =>
    intro hgoing
    rcases hend with ⟨c', hmid⟩ | ⟨hover, -⟩
    · exact hmid.completes
    · exact absurd hover hgoing
  case drained => exact fun hover => hstart.drained ⟨acts, hacts, hexec, hover⟩
  case invisible =>
    intro s
    exact ⟨((waiters ι W S).pass_offers s v.inner.entries).1,
      (waiters ι W S).sublist_kept s v.inner.entries⟩

/-- Requests with the same params queue up. -/
def queueUp (S : Type) [SemaphoreState S] (p : Params S) (n : Nat) : List (Action Nat Nat Nat S) :=
  (List.range n).flatMap fun i => [.acquire i p, .poll i i .quiet]

/-- The first of 35 waiters dies in a drain, the state is repaired, the poison cleared. -/
def deadFirst : List (Action Nat Nat Nat Bomb) :=
  queueUp Bomb (1 : Nat) 35 ++
    [.withState 0 fun s => ({ s with armed := true }, .returned ()), .finish 0 (.returned ()),
      .withState 0 fun s => ({ s with armed := false }, .returned ()), .finish 0 (.returned ()),
      .clearPoison]

/-- The rest of a call whose drain fills one batch and grants one more waiter. -/
def twoBatches : List (Action Nat Nat Nat Bomb) :=
  List.replicate 32 (.wake 0 (.returned ())) ++
    [.resume 0, .wake 0 (.returned ()), .finish 0 (.returned ())]

/-- Past a dead node, 33 waiters are granted in two batches, and the last one is refused. -/
theorem batched_drain_refines_pass_of_two_batches :
    let f : Bomb → Bomb × Unwind Unit := fun s => ({ s with permits := 33 }, .returned ())
    ∃ w v w' : World Nat Nat Nat Bomb FairOrder,
      run .uncloseable ⟨0, false⟩ .fifo deadFirst = some w ∧
      (w.enter 0).updateState f = (v, .returned ()) ∧
      Transition.exec (step .uncloseable) (withQueue .uncloseable 0 w fun u => u.updateState f)
        twoBatches = some w' ∧
      DrainsAsOnePass .uncloseable 0 v w' twoBatches := by
  intro f
  have hacts : ∀ a ∈ twoBatches, a.Continues 0 := by
    intro a ha
    simp only [twoBatches, List.mem_append, List.mem_replicate, List.mem_cons, List.not_mem_nil,
      or_false] at ha
    rcases ha with ⟨-, rfl⟩ | rfl | rfl | rfl
    · exact .wake
    · exact .resume
    · exact .wake
    · exact .finish
  have hrun : (run .uncloseable (⟨0, false⟩ : Bomb) FairOrder.fifo deadFirst).any (fun w =>
      (w.calls 0).isNone && (Transition.exec (step .uncloseable)
        (withQueue .uncloseable 0 w fun u => u.updateState f) twoBatches).isSome) = true := by
    decide +kernel
  obtain ⟨w, hw, htest⟩ := (Option.any_eq_true _ _).mp hrun
  obtain ⟨hk, hsome⟩ := Bool.and_eq_true_iff.mp htest
  obtain ⟨w', hexec⟩ := Option.isSome_iff_exists.mp hsome
  have hsettled : Settled .uncloseable w := (Settled.new _ _).exec hw
  exact ⟨w, _, w', hw, rfl, hexec, batched_drain_refines_pass hsettled.coherent
    (Option.isNone_iff_eq_none.mp hk) (.withState f) rfl hacts hexec⟩

end FlagBearer
