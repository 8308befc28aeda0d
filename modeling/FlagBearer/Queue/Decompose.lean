import FlagBearer.Queue.Coherence

/-!
# The Lock Sections Are Sequences of Moves

From a coherent world every function of `Sections` performs moves and nothing else. In
particular none of its branches that record a `Fault` is taken.
-/

namespace FlagBearer

open PinList

variable {ι κ W S O : Type} [DecidableEq ι] [DecidableEq κ] [SemaphoreState S] [Order O]
variable {C : Closeability} {own : Option ι}

theorem Moves.one {c d : Conf ι κ W S O} (h : Move C own c d) : Moves C own c d :=
  Relation.ReflTransGen.single h

theorem Moves.note {w : World ι κ W S O} (h : Hand ι S) {e : Event ι κ W S} (he : e.IsNote) :
    Moves C own (w, h) (w.emit e, h) :=
  Moves.one (.note w h e he)

/-! ## Small effects -/

omit [DecidableEq κ] [Order O] in
theorem World.setNode_of_live {w : World ι κ W S O} {i : ι} {n n' : Node (Removed S)}
    {params : Option (Params S)} (h : w.slots i = .live ⟨n, params⟩) :
    w.setNode i n' = w.setSlot i (.live ⟨n', params⟩) := by
  simp [World.setNode, h]

omit [DecidableEq ι] [Order O] in
theorem World.modifyCall_of_some {w : World ι κ W S O} {k : κ} {c : Call ι W S}
    {f : Call ι W S → Call ι W S} (h : w.calls k = some c) :
    w.modifyCall k f = w.setCall k (some (f c)) := by
  simp [World.modifyCall, h]

omit [DecidableEq ι] [DecidableEq κ] [Order O] in
theorem Coherent.len_ne_zero {w : World ι κ W S O} (hw : Coherent C w)
    {before after : WaitList ι W S} {e : ι × Protected W S}
    (hq : w.inner.queue = .ok (before ++ e :: after)) : w.inner.len ≠ 0 := by
  rw [hw.len_of_queue hq]
  simp

/-! ## check -/

/-- The call that runs `check`: in progress, and of the kind that grants. -/
def World.Draining (w : World ι κ W S O) (k : κ) : Prop :=
  ∃ c, w.calls k = some c ∧ c.kind = .withQueue

omit [Order O] in
/-- `check` at a waiter that is refused: the params go back and the loop ends. -/
theorem checkLoop_refuse (k : κ) {before after : WaitList ι W S} {w : World ι κ W S O} {i : ι}
    {p p' : Params S} {x : W} {state : S}
    (hacq : SemaphoreState.acquire w.inner.state p = (state, .returned (.error p'))) :
    checkLoop k before ((i, some p, x) :: after) w =
      ({ w with
          inner := { w.inner with
            queue := .ok (before ++ (i, some p', x) :: after)
            state := state }
          log := w.log ++ [.acquired i p (.returned (.error p'))] }, .returned ()) := by
  simp [checkLoop, World.callAcquire, World.setList, World.guarded, World.emit, hacq]

omit [Order O] in
/-- `check` at a waiter on which `acquire` panics: the queue is poisoned and the node is left
without params. -/
theorem checkLoop_lose (k : κ) {before after : WaitList ι W S} {w : World ι κ W S O} {i : ι}
    {p : Params S} {x : W} {state : S}
    (hacq : SemaphoreState.acquire w.inner.state p = (state, .panicked)) :
    checkLoop k before ((i, some p, x) :: after) w =
      ({ w with
          inner := { w.inner with
            queue := .ok (before ++ (i, none, x) :: after)
            state := state
            poisoned := true }
          log := w.log ++ [.acquired i p .panicked] }, .panicked) := by
  simp [checkLoop, World.callAcquire, World.setList, World.guarded, World.emit, hacq]

omit [Order O] in
/-- `check` at a waiter that is granted: the node leaves the list and its waker joins the
batch. -/
theorem checkLoop_grant (k : κ) {before after : WaitList ι W S} {w : World ι κ W S O} {i : ι}
    {p : Params S} {x : W} {r : Permit S} {state : S} {c : Call ι W S} {wakes : WakeBatch ι W}
    (hw : Coherent C w) (hq : w.inner.queue = .ok (before ++ (i, some p, x) :: after))
    (hk : w.calls k = some c) (hpush : c.wakes.push i x = some wakes)
    (hacq : SemaphoreState.acquire w.inner.state p = (state, .returned (.ok r))) :
    ∃ w' : World ι κ W S O,
      w' = { w with
        inner := { w.inner with
          queue := .ok (before ++ after)
          len := w.inner.len - 1
          state := state }
        slots := Function.update w.slots i (.live ⟨.removed (.ok r), none⟩)
        calls := Function.update w.calls k (some { c with wakes := wakes })
        log := w.log ++ [.acquired i p (.returned (.ok r)), .removed k .withQueue i x] } ∧
      checkLoop k before ((i, some p, x) :: after) w =
        if wakes.isFull then (w', .returned ()) else checkLoop k before after w' := by
  have hi := hw.slot_of_split hq
  have hlen := hw.len_ne_zero hq
  refine ⟨_, rfl, ?_⟩
  simp [checkLoop, World.callAcquire, World.setList, World.guarded, World.emit, hacq,
    Cursor.removeCurrent, Cursor.list, World.setNode, hi, World.setSlot, World.decLen,
    hlen, World.pushWake, hk, hpush, World.setCall, World.batchFull]

theorem checkLoop_moves (k : κ) (h : Hand ι S) {before after : WaitList ι W S}
    {w : World ι κ W S O} {c : Call ι W S} (hw : Coherent C w) (hopen : w.Open C)
    (hq : w.inner.queue = .ok (before ++ after)) (hdead : ∀ e ∈ before, e.2.1 = none)
    (hk : w.calls k = some c) (hkind : c.kind = .withQueue) (hroom : c.wakes.isFull = false) :
    Moves C own (w, h) ((checkLoop k before after w).1, h) ∧
      (checkLoop k before after w).1.Draining k := by
  induction after generalizing before w c with
  | nil => exact ⟨Relation.ReflTransGen.refl, c, hk, hkind⟩
  | cons e after ih =>
    obtain ⟨i, _ | p, x⟩ := e
    · -- a node without params is skipped
      have hdead' : ∀ e ∈ before ++ [(i, none, x)], e.2.1 = none := by
        intro e he
        rcases List.mem_append.mp he with hbefore | hlast
        · exact hdead e hbefore
        · rw [List.mem_singleton.mp hlast]
      exact ih hw hopen (by simpa using hq) hdead' hk hkind hroom
    · rcases hacq : SemaphoreState.acquire w.inner.state p with ⟨state, (p' | r) | _⟩
      · -- the first refusal ends the loop
        have hmove : Move C own _ _ := .refuse w h i p p' x state before after hopen hq hdead hacq
        rw [checkLoop_refuse k hacq]
        exact ⟨Moves.one hmove, c, hk, hkind⟩
      · -- a grant; the loop goes on unless the batch is full now
        obtain ⟨wakes, hpush⟩ := WakeBatch.push_of_not_isFull hroom i x
        have hmove : Move C own _ _ := .grant w h k i p x r state before after c wakes hopen hq
          hdead (hw.slot_of_split hq) hk hkind hpush hacq
        obtain ⟨w', hw', hres⟩ := checkLoop_grant k hw hq hk hpush hacq
        rw [← hw'] at hmove
        have hk' : w'.calls k = some { c with wakes := wakes } := by simp [hw']
        rw [hres]
        split
        · exact ⟨Moves.one hmove, _, hk', hkind⟩
        · rename_i hfull
          have hrest := @ih before w' { c with wakes := wakes } (hw.move hmove)
            (by simpa [World.Open, hw', QueueState.closing] using hopen) (by rw [hw']) hdead
            hk' hkind (by simpa using hfull)
          exact ⟨(Moves.one hmove).trans hrest.1, hrest.2⟩
      · -- a panic loses the params and poisons the queue
        have hmove : Move C own _ _ := .lose w h i p x state before after hopen hq hdead hacq
        rw [checkLoop_lose k hacq]
        exact ⟨Moves.one hmove, c, hk, hkind⟩

theorem check_moves (k : κ) (h : Hand ι S) {w : World ι κ W S O} {c : Call ι W S}
    (hw : Coherent C w) (hk : w.calls k = some c) (hkind : c.kind = .withQueue)
    (hroom : c.wakes.isFull = false) :
    Moves C own (w, h) ((check C k w).1, h) ∧ (check C k w).1.Draining k := by
  unfold check
  split
  · exact ⟨Relation.ReflTransGen.refl, c, hk, hkind⟩
  · rename_i hopen
    have hopen : w.Open C := by simpa [World.Open] using hopen
    cases hq : w.inner.queue with
    | error _ => exact ⟨Relation.ReflTransGen.refl, c, hk, hkind⟩
    | ok queue => exact checkLoop_moves k h hw hopen hq (by simp) hk hkind hroom

/-! ## with_queue -/

theorem withQueueTurn_moves (k : κ) (h : Hand ι S) {w : World ι κ W S O} {c : Call ι W S}
    (hw : Coherent C w) (hk : w.calls k = some c) (hkind : c.kind = .withQueue)
    (hroom : c.wakes.isFull = false) :
    Moves C own (w, h) (withQueueTurn C k w, h) ∧ (withQueueTurn C k w).locked = false := by
  obtain ⟨hmoves, c', hk', hkind'⟩ := check_moves k h hw hk hkind hroom
  -- the obligation of `close` calls is void here
  have hclose : ∀ more, c'.kind = .close → more = false →
      (check C k w).1.unlock.inner.isOk = false := by
    intro more hc
    rw [hkind'] at hc
    cases hc
  unfold withQueueTurn
  rcases hcheck : check C k w with ⟨w', _ | _⟩
  · rw [hcheck] at hmoves hk' hclose
    have hturn : Move C own _ _ := .turn w'.unlock h k c' (w'.batchFull k && w'.inner.len != 0)
      c'.unwinding hk' id (hclose _)
    simp only [World.modifyCall_of_some (w := w'.unlock) hk']
    exact ⟨(hmoves.tail (.unlock w' h)).tail hturn, rfl⟩
  · rw [hcheck] at hmoves hk' hclose
    have hturn : Move C own _ _ := .turn w'.unlock h k c' false true hk' (fun _ => rfl) (hclose _)
    simp only [World.modifyCall_of_some (w := w'.unlock) hk']
    exact ⟨(hmoves.tail (.unlock w' h)).tail hturn, rfl⟩

/-- What the closure passed to `with_queue` does: it empties the hand, leaves its own call in
progress with an empty batch, and panics only if user code does. -/
structure ClosureMoves (C : Closeability) (own : Option ι) (k : κ) (h : Hand ι S)
    (w : World ι κ W S O) (out : World ι κ W S O × Unwind Unit) : Prop where
  moves : Moves C own (w, h) (out.1, .empty)
  call : ∃ c, out.1.calls k = some c ∧ c.kind = .withQueue ∧ c.wakes = .new ∧ c.unwinding = false
  panics : out.2 = .panicked → ∃ e ∈ out.1.log, e.isPanic = true

/-- The world in which the closure passed to `with_queue` starts. -/
def World.enter (w : World ι κ W S O) (k : κ) : World ι κ W S O :=
  (w.setCall k (some (.start .withQueue))).lock.emit (.entered k .withQueue)

theorem enter_moves (k : κ) (h : Hand ι S) {w : World ι κ W S O} (hk : w.calls k = none) :
    Moves C own (w, h) (w.enter k, h) :=
  ((Moves.one (.begin w h k .withQueue hk (by simp))).tail (.lock _ h)).tail
    (.note _ h _ (.entered k .withQueue))

theorem Coherent.enter {w : World ι κ W S O} (hw : Coherent C w) {k : κ} (hk : w.calls k = none) :
    Coherent C (w.enter k) := by
  have hmoves : Moves C none (w, .empty) (w.enter k, .empty) := enter_moves k .empty hk
  exact hw.moves hmoves

omit [DecidableEq ι] [Order O] in
@[simp] theorem World.enter_call (w : World ι κ W S O) (k : κ) :
    (w.enter k).calls k = some (.start .withQueue) :=
  Function.update_self ..

omit [Order O] in
theorem withQueue_of_returned {k : κ} {w w' : World ι κ W S O}
    {f : World ι κ W S O → World ι κ W S O × Unwind Unit}
    (h : f (w.enter k) = (w', .returned ())) :
    withQueue C k w f = if w'.inner.len = 0 then w'.unlock else withQueueTurn C k w' := by
  unfold World.enter at h
  simp only [withQueue, h]

omit [Order O] in
theorem withQueue_of_panicked {k : κ} {w w' : World ι κ W S O}
    {f : World ι κ W S O → World ι κ W S O × Unwind Unit} (h : f (w.enter k) = (w', .panicked)) :
    withQueue C k w f = w'.unlock.modifyCall k fun c => { c with unwinding := true } := by
  unfold World.enter at h
  simp only [withQueue, h]

theorem withQueue_moves (k : κ) (h : Hand ι S) {w : World ι κ W S O} (hw : Coherent C w)
    (hk : w.calls k = none) (f : World ι κ W S O → World ι κ W S O × Unwind Unit)
    (hclosure : ClosureMoves C own k h (w.enter k) (f (w.enter k))) :
    Moves C own (w, h) (withQueue C k w f, .empty) ∧ (withQueue C k w f).locked = false := by
  obtain ⟨c, hk', hkind, hwakes, -⟩ := hclosure.call
  have hmoves := (enter_moves k h hk).trans hclosure.moves
  rcases hres : f (w.enter k) with ⟨w₂, _ | _⟩
  · rw [hres] at hmoves hk'
    rw [withQueue_of_returned hres]
    split
    · -- nobody waits, so nothing is checked
      exact ⟨hmoves.tail (.unlock w₂ .empty), rfl⟩
    · obtain ⟨hturn, hlocked⟩ := withQueueTurn_moves k .empty (hw.moves hmoves) hk' hkind
        (by rw [hwakes]; rfl)
      exact ⟨hmoves.trans hturn, hlocked⟩
  · rw [hres] at hmoves hk'
    rw [withQueue_of_panicked hres]
    have hclose : c.kind = .close → c.more = false → w₂.unlock.inner.isOk = false := by
      intro hclose
      rw [hkind] at hclose
      cases hclose
    have hturn : Move C own _ _ := .turn w₂.unlock .empty k c c.more true hk' (fun _ => rfl) hclose
    simp only [World.modifyCall_of_some (w := w₂.unlock) hk']
    exact ⟨(hmoves.tail (.unlock w₂ .empty)).tail hturn, rfl⟩

/-- What `with_queue` does after its closure. -/
theorem withQueue_rest {own' : Option ι} {k : κ} {h : Hand ι S} {w : World ι κ W S O}
    {f : World ι κ W S O → World ι κ W S O × Unwind Unit} (hw : Coherent C w)
    (hk : w.calls k = none) (hclosure : ClosureMoves C own k h (w.enter k) (f (w.enter k))) :
    Moves C own' ((f (w.enter k)).1, .empty) (withQueue C k w f, .empty) := by
  obtain ⟨c, hk', hkind, hwakes, -⟩ := hclosure.call
  have hcoh := hw.moves ((enter_moves k h hk).trans hclosure.moves)
  rcases hres : f (w.enter k) with ⟨u, _ | _⟩ <;> rw [hres] at hcoh hk'
  · rw [withQueue_of_returned hres]
    split
    · exact Moves.one (.unlock u .empty)
    · exact (withQueueTurn_moves k .empty hcoh hk' hkind (by rw [hwakes]; rfl)).1
  · rw [withQueue_of_panicked hres]
    simp only [World.modifyCall_of_some (w := u.unlock) hk']
    refine (Moves.one (.unlock u .empty)).tail ?_
    exact .turn u.unlock .empty k c c.more true hk' (fun _ => rfl) (by simp [hkind])

/-! ## close -/

omit [DecidableEq κ] [Order O] in
/-- What is left of the list after `close_one` has removed its front. -/
theorem closeOne_cons (k : κ) {w : World ι κ W S O} (hw : Coherent C w) {i : ι}
    {params : Option (Params S)} {x : W} {rest : WaitList ι W S}
    (hq : w.inner.queue = .ok ((i, params, x) :: rest)) :
    closeOne k w =
      ({ w with
          inner := { w.inner with
            queue := if rest.isEmpty then .error () else .ok rest
            closed := true
            len := w.inner.len - 1 }
          slots := Function.update w.slots i (.live ⟨.removed (.error params), none⟩)
          log := w.log ++ [.removed k .close i x] },
        some (i, x)) := by
  have hi := hw.slot_of_cons hq
  have hlen := hw.len_of_queue hq
  cases rest with
  | nil =>
    simp [closeOne, hq, Cursor.removeCurrent, Cursor.list, World.setList, World.decLen, hlen,
      World.setNode, hi, World.setSlot, World.emit, QueueState.entries]
  | cons e rest =>
    simp [closeOne, hq, Cursor.removeCurrent, Cursor.list, World.setList, World.decLen, hlen,
      World.setNode, hi, World.setSlot, World.emit, QueueState.entries]

omit [DecidableEq κ] [Order O] in
theorem closeOne_nil (k : κ) {w : World ι κ W S O} (hw : Coherent C w)
    (hq : w.inner.queue = .ok []) :
    closeOne k w =
      ({ w with inner := { w.inner with queue := .error (), closed := true } }, none) := by
  have hlen : w.inner.len = 0 := hw.len_of_queue hq
  simp [closeOne, hq, Cursor.removeCurrent, QueueState.entries, hlen]

omit [DecidableEq κ] [Order O] in
theorem closeOne_error (k : κ) {w : World ι κ W S O} (hq : w.inner.queue = .error ()) :
    closeOne k w = ({ w with inner := { w.inner with closed := true } }, none) := by
  simp [closeOne, hq]

theorem closeLoop_moves (k : κ) (h : Hand ι S) (hC : C.CLOSE = true) {room : Nat}
    {w : World ι κ W S O} {c : Call ι W S} (hw : Coherent C w) (hk : w.calls k = some c)
    (hkind : c.kind = .close) (hroom : c.wakes.wakers.length + room = WakeBatch.CAP) :
    Moves C own (w, h) (closeLoop k room w, h) ∧
      ∃ c', (closeLoop k room w).calls k = some c' ∧ c'.kind = .close := by
  induction room generalizing w c with
  | zero => exact ⟨Relation.ReflTransGen.refl, c, hk, hkind⟩
  | succ room ih =>
    have hclose : Moves C own (w, h) ({ w with inner := { w.inner with closed := true } }, h) :=
      Moves.one (.setClosed w h hC)
    unfold closeLoop
    rcases hq : w.inner.queue with _ | queue
    · rw [closeOne_error k hq]
      exact ⟨hclose, c, hk, hkind⟩
    · rcases queue with _ | ⟨⟨i, params, x⟩, rest⟩
      · rw [closeOne_nil k hw hq]
        exact ⟨hclose.tail (.discard _ h rfl hq), c, hk, hkind⟩
      · -- one node leaves, and with the last one the list is discarded
        have hi := hw.slot_of_cons hq
        have hlt : c.wakes.wakers.length < WakeBatch.CAP := by omega
        obtain ⟨wakes, hpush⟩ :=
          WakeBatch.push_of_not_isFull (WakeBatch.not_isFull_of_lt hlt) i x
        have hwakers := (WakeBatch.push_eq_some.mp hpush).2
        have hexpel := hclose.tail (.expel _ h k i params x rest c wakes rfl hq hi hk hkind hpush)
        rw [closeOne_cons k hw hq]
        simp only [World.pushWake, hk, hpush]
        set w' : World ι κ W S O := World.setCall
          { w with
            inner := { w.inner with
              queue := if rest.isEmpty then .error () else .ok rest
              closed := true
              len := w.inner.len - 1 }
            slots := Function.update w.slots i (.live ⟨.removed (.error params), none⟩)
            log := w.log ++ [.removed k .close i x] } k (some { c with wakes := wakes }) with hw'
        have hmoves : Moves C own (w, h) (w', h) := by
          cases rest with
          -- the last node
          | nil => exact hexpel.tail (.discard _ h rfl rfl)
          | cons e rest => exact hexpel
        have hrest := @ih w' { c with wakes := wakes } (hw.moves hmoves) (by simp [hw']) hkind
          (by simp only [hwakers, List.length_append, List.length_singleton]; omega)
        exact ⟨hmoves.trans hrest.1, hrest.2⟩

theorem closeTurn_moves (k : κ) (h : Hand ι S) (hC : C.CLOSE = true) {w : World ι κ W S O}
    {c : Call ι W S} (hw : Coherent C w) (hk : w.calls k = some c) (hkind : c.kind = .close)
    (hwakers : c.wakes.wakers = []) :
    Moves C own (w, h) (closeTurn k w, h) ∧ (closeTurn k w).locked = false := by
  have hstart : Moves C own (w, h) (w.lock.emit (.entered k .close), h) :=
    (Moves.one (.lock w h)).tail (.note _ h _ (.entered k .close))
  obtain ⟨hloop, c', hk', hkind'⟩ := closeLoop_moves k h hC (hw.moves hstart)
    (w := w.lock.emit (.entered k .close)) hk hkind
    (by rw [hwakers]; exact Nat.zero_add WakeBatch.CAP)
  unfold closeTurn
  set w' := closeLoop k WakeBatch.CAP (w.lock.emit (.entered k .close)) with hw'
  have hturn : Move C own _ _ := .turn w'.unlock h k c' w'.inner.isOk c'.unwinding hk' id
    (fun _ hmore => hmore)
  simp only [World.modifyCall_of_some (w := w'.unlock) hk']
  exact ⟨((hstart.trans hloop).tail (.unlock w' h)).tail hturn, rfl⟩

/-! ## acquire_or_enqueue -/

omit [DecidableEq ι] [DecidableEq κ] in
/-- `acquire_or_enqueue` on a closing queue. -/
theorem acquireOrEnqueue_closing {w : World ι κ W S O} (hpoison : w.inner.poisoned = false)
    (hclosing : w.inner.closing C = true) (i : ι) (p : Params S) (fair : Bool) :
    acquireOrEnqueue C w i p fair = (w, .returned (.closed p)) := by
  cases C with
  | closeable => simp [acquireOrEnqueue, hpoison, hclosing, newErr]
  | uncloseable => simp [QueueState.closing, Closeability.CLOSE] at hclosing

omit [DecidableEq ι] [DecidableEq κ] in
/-- `acquire_or_enqueue` on an open queue whose order answers. -/
theorem acquireOrEnqueue_open {w : World ι κ W S O} (hpoison : w.inner.poisoned = false)
    (hclosing : w.inner.closing C = false) {queue : WaitList ι W S} (hq : w.inner.queue = .ok queue)
    {order : O} {front : Bool}
    (hord : Order.enqueueFront w.inner.order w.inner.len = (order, .returned front)) (i : ι)
    (p : Params S) :
    acquireOrEnqueue C w i p true =
      if !(front || queue.isEmpty) then ((w.consult i).1, .returned (.enqueue front p))
      else lead (w.consult i).1 i p front := by
  simp [acquireOrEnqueue, hpoison, hclosing, hq, World.consult, hord]

omit [DecidableEq ι] [DecidableEq κ] in
/-- `acquire_or_enqueue` on an open queue whose order panics. -/
theorem acquireOrEnqueue_panicked {w : World ι κ W S O} (hpoison : w.inner.poisoned = false)
    (hclosing : w.inner.closing C = false) {queue : WaitList ι W S} (hq : w.inner.queue = .ok queue)
    {order : O} (hord : Order.enqueueFront w.inner.order w.inner.len = (order, .panicked)) (i : ι)
    (p : Params S) :
    acquireOrEnqueue C w i p true = ((w.consult i).1.dropParams p, .panicked) := by
  simp [acquireOrEnqueue, hpoison, hclosing, hq, World.consult, hord]

/-- What the caller of `acquire_or_enqueue` holds afterwards. -/
def Outcome.hand (i : ι) (fair : Bool) : Unwind (Outcome S) → Hand ι S
  | .panicked => .empty
  | .returned (.acquired r) => .permit i r
  | .returned (.closed p) => .params i p none
  | .returned (.poisoned p) => .params i p none
  | .returned (.enqueue front p) => .params i p (if fair then some front else none)

/-- What `acquire_or_enqueue` does, and what its caller may rely on. -/
structure AdmissionMoves (C : Closeability) (own : Option ι) (w : World ι κ W S O) (i : ι)
    (p : Params S) (fair : Bool) (out : World ι κ W S O × Unwind (Outcome S)) : Prop where
  moves : Moves C own (w, .params i p none) (out.1, Outcome.hand i fair out.2)
  slots : out.1.slots = w.slots
  admits : ∀ front p', out.2 = .returned (.enqueue front p') →
    out.1.Open C ∧ out.1.inner.isOk = true

theorem newErr_moves {w : World ι κ W S O} {i : ι} {p : Params S} {fair : Bool}
    (hC : C.CLOSE = true) : AdmissionMoves C own w i p fair (newErr C w p) := by
  cases C with
  | uncloseable => cases hC
  | closeable =>
    refine ⟨Relation.ReflTransGen.refl, rfl, ?_⟩
    intro front p' h
    cases h

theorem lead_moves {w : World ι κ W S O} {i : ι} {p : Params S} {fair front : Bool}
    (hopen : w.Open C) (hok : w.inner.isOk = true)
    (hlead : w.Leads (if fair then some front else none)) {w₀ : World ι κ W S O} {p₀ : Params S}
    (hstart : Moves C own (w₀, .params i p₀ none)
      (w, .params i p (if fair then some front else none)))
    (hslots : w.slots = w₀.slots) : AdmissionMoves C own w₀ i p₀ fair (lead w i p front) := by
  rcases hacq : SemaphoreState.acquire w.inner.state p with ⟨state, (p' | r) | _⟩
  · have hmove : Move C own _ _ := .refuseNow w i p p' _ state hopen hlead hacq
    have hres : lead w i p front =
        ({ w with
            inner := { w.inner with state := state }
            log := w.log ++ [.acquired i p (.returned (.error p'))] },
          .returned (.enqueue front p')) := by
      simp [lead, World.callAcquire, World.guarded, World.emit, hacq]
    rw [hres]
    refine ⟨hstart.tail hmove, hslots, ?_⟩
    intro _ _ _
    exact ⟨hopen, hok⟩
  · have hmove : Move C own _ _ := .grantNow w i p r _ state hopen hlead hacq
    have hres : lead w i p front =
        ({ w with
            inner := { w.inner with state := state }
            log := w.log ++ [.acquired i p (.returned (.ok r))] },
          .returned (.acquired r)) := by
      simp [lead, World.callAcquire, World.guarded, World.emit, hacq]
    rw [hres]
    -- the caller does not enqueue
    refine ⟨hstart.tail hmove, hslots, ?_⟩
    intro _ _ h
    cases h
  · have hmove : Move C own _ _ := .loseNow w i p _ state hopen hlead hacq
    have hres : lead w i p front =
        ({ w with
            inner := { w.inner with state := state, poisoned := true }
            log := w.log ++ [.acquired i p .panicked] },
          .panicked) := by
      simp [lead, World.callAcquire, World.guarded, World.emit, hacq]
    rw [hres]
    -- the caller does not enqueue
    refine ⟨hstart.tail hmove, hslots, ?_⟩
    intro _ _ h
    cases h

theorem acquireOrEnqueue_moves {w : World ι κ W S O} (hw : Coherent C w) (i : ι) (p : Params S)
    (fair : Bool) : AdmissionMoves C own w i p fair (acquireOrEnqueue C w i p fair) := by
  unfold acquireOrEnqueue
  split
  · -- poisoned: the params go back untouched
    refine ⟨Relation.ReflTransGen.refl, rfl, ?_⟩
    intro _ _ h
    cases h
  rename_i hpoison
  split
  · -- closing, which only closeable queues are
    rename_i hclosing
    exact newErr_moves (Bool.and_eq_true_iff.mp hclosing).1
  rename_i hclosing
  have hopen : w.Open C := by simp [World.Open, hpoison, hclosing]
  have hok := hw.isOk_of_open hopen.2
  rcases hq : w.inner.queue with _ | queue
  · -- an open queue has its list
    simp [QueueState.isOk, hq] at hok
  have hentries := QueueState.entries_of_queue hq
  cases fair with
  | false =>
    -- an unfair caller always tries
    simp only [Bool.false_eq_true, if_false, Bool.true_or, Bool.not_true]
    exact lead_moves hopen hok (by intro h; cases h) Relation.ReflTransGen.refl rfl
  | true =>
    rcases hord : Order.enqueueFront w.inner.order w.inner.len with ⟨order, front | _⟩
    · have hconsult : Move C own _ _ := .consult w i p order front hopen hord
      set w' : World ι κ W S O :=
        { w with
          inner := { w.inner with order := order }
          log := w.log ++ [.consulted i w.inner.len (.returned front)] } with hw'
      have hres : w.consult i = (w', .returned front) := by
        simp [World.consult, World.emit, hord, hw']
      simp only [if_true, hres]
      split
      · -- sent behind the others
        refine ⟨Moves.one hconsult, rfl, ?_⟩
        intro _ _ _
        exact ⟨hopen, hok⟩
      · -- a leader: sent to the front, or nobody is ahead
        rename_i hleads
        have hopen' : w'.Open C := hopen
        have hok' : w'.inner.isOk = true := hok
        have hstart : Moves C own (w, .params i p none)
          (w', .params i p (if true then some front else none)) := Moves.one hconsult
        have hlead : w'.Leads (if true then some front else none) := by
          intro hfront
          have hempty : w'.inner.entries = w.inner.entries := rfl
          rw [hempty, hentries]
          simp only [if_true, Option.some.injEq] at hfront
          simpa [hfront] using hleads
        exact lead_moves hopen' hok' hlead hstart rfl
    · -- the order panics, and the params are destroyed with the frame
      have hpanic : Move C own _ _ := .consultPanic w i p order hopen hord
      have hres : w.consult i =
          ({ w with
              inner := { w.inner with order := order }
              log := w.log ++ [.consulted i w.inner.len .panicked] }, .panicked) := by
        simp [World.consult, World.emit, hord]
      simp only [if_true, hres]
      refine ⟨?_, rfl, ?_⟩
      · have h := Moves.one hpanic
        simpa [World.dropParams, World.emit, Outcome.hand] using h
      · intro _ _ h
        cases h

/-! ## Acquire::poll -/

theorem pollFirst_moves {w : World ι κ W S O} (hw : Coherent C w) {i : ι}
    (hi : w.slots i = .live ⟨.initial, none⟩) (p : Params S) (cx : W) (calls : WakerCalls) :
    Moves C (some i) (w, .params i p none) (wrapPoll i cx (pollFirst C w i p cx calls), .empty) ∧
      (wrapPoll i cx (pollFirst C w i p cx calls)).locked = false := by
  have hadmit : AdmissionMoves C (some i) w i p true (acquireOrEnqueue C w i p true) :=
    acquireOrEnqueue_moves hw i p true
  unfold pollFirst
  rcases hres : acquireOrEnqueue C w i p true with ⟨w', (r | p' | p' | ⟨front, p'⟩) | _⟩
  · -- granted at once
    have hmoves := hadmit.moves
    rw [hres] at hmoves
    exact ⟨(hmoves.tail (.unlock _ _)).tail (.deliver _ i r cx rfl), rfl⟩
  · -- closed: the params go back in the error
    have hmoves := hadmit.moves
    rw [hres] at hmoves
    exact ⟨(hmoves.tail (.unlock _ _)).tail (.reject _ i p' none _ (.polled cx)), rfl⟩
  · -- poisoned: the panic destroys the params before the guard
    have hmoves := hadmit.moves
    rw [hres] at hmoves
    have hslot : w'.slots i ≠ .live ⟨.linked, none⟩ := by
      have hslots : w'.slots = w.slots := by simpa [hres] using hadmit.slots
      simp [hslots, hi]
    exact ⟨((hmoves.tail (.reject _ i p' none _ (.dropped w'.locked))).tail (.unlock _ _)).tail
      (.pollPanic _ _ i cx (Or.inl hslot)), rfl⟩
  · -- to be queued: the list is still there
    have hmoves := hadmit.moves
    have hslots : w'.slots = w.slots := by simpa [hres] using hadmit.slots
    obtain ⟨hopen, hok⟩ := hadmit.admits front p' (by rw [hres])
    rw [hres] at hmoves hopen hok
    rcases hq : w'.inner.queue with _ | queue
    · simp [QueueState.isOk, hq] at hok
    simp only [hq]
    rcases hclone : calls.clone with _ | _
    · -- linked at the end that the order chose
      have hcloned := hmoves.tail (.note w' _ _ (.cloned cx (.returned ())))
      have hi' : w'.slots i = .live ⟨.initial, none⟩ := by rw [hslots, hi]
      have hlinked :=
        (hcloned.tail (.link _ i p' cx front queue hopen hq hi' rfl)).tail (.unlock _ _)
      simp only [wrapPoll, link, World.emit_slots, hi']
      exact ⟨by simpa [World.emit, World.unlock, World.setList, World.setSlot] using hlinked, rfl⟩
    · -- the clone panics: the params are destroyed, and nothing is linked
      have hcloned := hmoves.tail (.note w' _ _ (.cloned cx .panicked))
      exact ⟨((hcloned.tail (.reject _ i p' _ _ (.dropped w'.locked))).tail (.unlock _ _)).tail
        (.pollPanic _ _ i cx (Or.inr ⟨cx, by simp⟩)), rfl⟩
  · -- `acquire` or the order panicked
    have hmoves := hadmit.moves
    have hslot : w'.slots i ≠ .live ⟨.linked, none⟩ := by
      have hslots : w'.slots = w.slots := by simpa [hres] using hadmit.slots
      simp [hslots, hi]
    rw [hres] at hmoves
    exact ⟨(hmoves.tail (.unlock _ _)).tail (.pollPanic _ _ i cx (Or.inl hslot)), rfl⟩

/-- A node found linked while the queue is closing leaves the list with its params. -/
theorem pollUnlinked_moves {w : World ι κ W S O} (hw : Coherent C w) {i : ι}
    {before after : WaitList ι W S} {data : Protected W S} (hclosing : w.inner.closing C = true)
    (hq : w.inner.queue = .ok (before ++ (i, data) :: after)) (cx : W) (calls : WakerCalls) :
    Moves C (some i) (w, .empty)
        (wrapPoll i cx (pollUnlinked w i data (before ++ after) calls), .empty) ∧
      (wrapPoll i cx (pollUnlinked w i data (before ++ after) calls)).locked = false := by
  obtain ⟨params, x⟩ := data
  have hi := hw.slot_of_split hq
  have hlen := hw.len_ne_zero hq
  set w' : World ι κ W S O :=
    { w with
      inner := { w.inner with
        queue := .ok (before ++ after)
        len := w.inner.len - 1 }
      slots := Function.update w.slots i (.live ⟨.initial, none⟩)
      log := w.log ++ [.unlinked i] } with hw'
  have hunlinked : (((w.setList (before ++ after)).setNode i .initial).emit (.unlinked i)).decLen
      = w' := by
    simp [World.setList, World.setNode, hi, World.setSlot, World.emit, World.decLen, hlen, hw']
  have hmoves : Moves C (some i) (w, .empty)
      (w'.unlock.dropWaker x calls.drop, Hand.ofParams i params) :=
    ((Moves.one (.unlinkSelf w i params x before after hclosing hq hi rfl)).tail
      (.unlock _ _)).tail (.note _ _ _ (.droppedWaker x _ _))
  have hslot : w'.slots i ≠ .live ⟨.linked, none⟩ := by simp [hw']
  simp only [pollUnlinked, hunlinked]
  -- the waker's destructor returns or panics; the params are there or were lost
  rcases hdrop : calls.drop with _ | _ <;> rw [hdrop] at hmoves <;> rcases params with _ | p
  · exact ⟨hmoves.tail (.pollPanic _ _ i cx (Or.inl hslot)), rfl⟩
  · exact ⟨hmoves.tail (.giveBack _ i p _ (.polled cx)), rfl⟩
  · exact ⟨hmoves.tail (.pollPanic _ _ i cx (Or.inl hslot)), rfl⟩
  · exact ⟨(hmoves.tail (.giveBack _ i p _ (.dropped _))).tail
      (.pollPanic _ _ i cx (Or.inl hslot)), rfl⟩

/-- A spurious poll changes at most the waker of its node. -/
theorem pollSpurious_moves [DecidableEq W] {w : World ι κ W S O} (hw : Coherent C w) {i : ι}
    {before after : WaitList ι W S} {data : Protected W S}
    (hq : w.inner.queue = .ok (before ++ (i, data) :: after)) (cx : W) (calls : WakerCalls) :
    Moves C (some i) (w, .empty)
        (wrapPoll i cx (pollSpurious w i (before ++ (i, data) :: after) data cx calls), .empty) ∧
      (wrapPoll i cx
        (pollSpurious w i (before ++ (i, data) :: after) data cx calls)).locked = false := by
  obtain ⟨params, x⟩ := data
  have hset : setProtected (before ++ (i, params, x) :: after) i (params, cx) =
      before ++ (i, params, cx) :: after := setProtected_split (hw.nodup_of_queue hq)
  unfold pollSpurious
  split
  · -- the waker would wake the same task and stays
    rename_i hsame
    have hx : x = cx := hsame
    subst hx
    have hmove : Move C (some i) _ _ := .rewake w.unlock i params x x before after
      (.returned .pending) hq (Or.inl rfl) rfl
    have hkeep : ({ w.unlock with
        inner := { w.unlock.inner with queue := .ok (before ++ (i, params, x) :: after) }
        log := w.unlock.log ++ [.polled i x (.returned .pending)] } : World ι κ W S O) =
          w.unlock.emit (.polled i x (.returned .pending)) := by
      rw [← hq]
      rfl
    rw [hkeep] at hmove
    exact ⟨(Moves.one (.unlock w .empty)).tail hmove, rfl⟩
  · rcases hclone : calls.clone with _ | _
    · -- the new waker replaces the old one, which is destroyed
      simp only [hset]
      have hcloned : Moves C (some i) (w, .empty) ((w.emit (.cloned cx (.returned ()))).emit
          (.droppedWaker x w.locked calls.drop), .empty) :=
        (Moves.note .empty (.cloned cx (.returned ()))).tail
          (.note _ _ _ (.droppedWaker x w.locked calls.drop))
      have hunlocked := hcloned.tail (.unlock _ _)
      rcases hdrop : calls.drop with _ | _
      · rw [hdrop] at hunlocked
        exact ⟨hunlocked.tail (.rewake _ i params x cx before after _ hq (Or.inl rfl) rfl), rfl⟩
      · rw [hdrop] at hunlocked
        exact ⟨hunlocked.tail (.rewake _ i params x cx before after _ hq (Or.inr rfl) rfl), rfl⟩
    · -- the clone panics, and the old waker stays
      have hcloned : Moves C (some i) (w, .empty) (w.emit (.cloned cx .panicked), .empty) :=
        Moves.note .empty (.cloned cx .panicked)
      exact ⟨(hcloned.tail (.unlock _ _)).tail
        (.pollPanic _ _ i cx (Or.inr ⟨cx, by simp⟩)), rfl⟩

/-- A removed node gives its value to the poll. -/
theorem pollTake_moves {w : World ι κ W S O} {i : ι} {r : Removed S}
    (hi : w.slots i = .live ⟨.removed r, none⟩) (cx : W) :
    Moves C (some i) (w, .empty) (wrapPoll i cx (pollTake w i (.removed r)), .empty) ∧
      (wrapPoll i cx (pollTake w i (.removed r))).locked = false := by
  have hnode : w.setNode i .initial = w.setSlot i (.live ⟨.initial, none⟩) :=
    World.setNode_of_live hi
  simp only [pollTake, Node.takeRemoved, hnode]
  rcases r with (_ | p) | r
  · exact ⟨((Moves.one (.claimError w i none hi rfl)).tail (.unlock _ _)).tail
      (.pollPanic _ _ i cx (Or.inl (by simp))), rfl⟩
  · exact ⟨((Moves.one (.claimError w i (some p) hi rfl)).tail (.unlock _ _)).tail
      (.giveBack _ i p _ (.polled cx)), rfl⟩
  · exact ⟨((Moves.one (.claim w i r hi rfl)).tail (.unlock _ _)).tail (.deliver _ i r cx rfl), rfl⟩

omit [DecidableEq κ] [Order O] in
/-- The data of a linked node, found by name. -/
theorem Coherent.linked_split {w : World ι κ W S O} (hw : Coherent C w) {i : ι}
    (hi : w.slots i = .live ⟨.linked, none⟩) :
    ∃ before data after, w.inner.queue = .ok (before ++ (i, data) :: after) ∧
      List.lookup i (before ++ (i, data) :: after) = some data ∧
      remove (before ++ (i, data) :: after) i = before ++ after := by
  have hmem := (hw.linked i).mpr hi
  rcases hq : w.inner.queue with _ | queue
  · simp [QueueState.entries, hq] at hmem
  · rw [QueueState.entries_of_queue hq] at hmem
    obtain ⟨before, data, after, rfl⟩ := exists_split hmem
    have hnodup := hw.nodup_of_queue hq
    exact ⟨before, data, after, rfl, lookup_split (not_mem_of_split hnodup).1,
      remove_split hnodup⟩

omit [DecidableEq κ] [Order O] in
theorem pollAgain_removed [DecidableEq W] (w : World ι κ W S O) (i : ι) (r : Removed S) (cx : W)
    (calls : WakerCalls) : pollAgain C w i (.removed r) cx calls = pollTake w i (.removed r) := by
  unfold pollAgain
  cases w.inner.queue <;> simp [Node.unlink, Node.protectedMut]

theorem pollAgain_moves [DecidableEq W] {w : World ι κ W S O} (hw : Coherent C w) {i : ι}
    {n : Node (Removed S)} (hi : w.slots i = .live ⟨n, none⟩) (hn : n ≠ .initial) (cx : W)
    (calls : WakerCalls) :
    Moves C (some i) (w, .empty) (wrapPoll i cx (pollAgain C w i n cx calls), .empty) ∧
      (wrapPoll i cx (pollAgain C w i n cx calls)).locked = false := by
  cases n with
  | initial => exact absurd rfl hn
  | removed r =>
    rw [pollAgain_removed]
    exact pollTake_moves hi cx
  | linked =>
    obtain ⟨before, data, after, hq, hlookup, hremove⟩ := hw.linked_split hi
    unfold pollAgain
    simp only [hq]
    by_cases hclosing : w.inner.closing C = true
    · simp only [hclosing, if_true, Node.unlink, hlookup, hremove, Option.map_some]
      exact pollUnlinked_moves hw hclosing hq cx calls
    · simp only [hclosing, Bool.false_eq_true, if_false, Node.protectedMut, hlookup]
      exact pollSpurious_moves hw hq cx calls

omit [DecidableEq κ] in
/-- A node that has been asked for goes through the later polls. -/
theorem poll_of_asked [DecidableEq W]
    (w : World ι κ W S O) (i : ι) {n : Node (Removed S)} (hn : n ≠ .initial)
    (cx : W) (calls : WakerCalls) :
    poll C w i ⟨n, none⟩ cx calls = pollAgain C w.lock i n cx calls := by
  cases n with
  | initial => exact absurd rfl hn
  | linked | removed => rfl

theorem pollAcquire_moves [DecidableEq W]
    {w : World ι κ W S O} (hw : Coherent C w) {i : ι} {a : Acquire S}
    (hi : w.slots i = .live a) (cx : W) (calls : WakerCalls) :
    Moves C (some i) (w, .empty) (pollAcquire C w i a cx calls, .empty) ∧
      (pollAcquire C w i a cx calls).locked = false := by
  have hlock : Moves C (some i) (w, .empty) (w.lock, .empty) := Moves.one (.lock w .empty)
  unfold pollAcquire
  obtain ⟨n, params⟩ := a
  by_cases hn : n = .initial
  · subst hn
    cases params with
    | none =>
      -- a future that is polled after it was ready panics
      exact ⟨(hlock.tail (.unlock _ _)).tail (.pollPanic _ _ i cx (Or.inl (by simp [hi]))), rfl⟩
    | some p =>
      have hask := hlock.tail (.ask w.lock i p hi rfl)
      have hfirst := pollFirst_moves (hw.moves hask) (i := i) (by simp) p cx calls
      exact ⟨hask.trans hfirst.1, hfirst.2⟩
  · have hparams : params = none := hw.asked i _ hi hn
    subst hparams
    have hagain := pollAgain_moves (hw.moves hlock) hi hn cx calls
    rw [poll_of_asked w i hn cx calls]
    exact ⟨hlock.trans hagain.1, hagain.2⟩

/-! ## try_acquire -/

theorem tryAcquirePermit_moves {w : World ι κ W S O} (hw : Coherent C w) {i : ι}
    (hi : w.slots i = .unborn) (p : Params S) (fair : Bool) :
    Moves C (some i) (w, .empty) (tryAcquirePermit C w i p fair, .empty) ∧
      (tryAcquirePermit C w i p fair).locked = false := by
  have hask : Moves C (some i) (w, .empty) ((w.setSlot i .gone).lock, .params i p none) :=
    (Moves.one (.askTry w i p hi rfl)).tail (.lock _ _)
  have hadmit : Moves C (some i) _ _ := (acquireOrEnqueue_moves (hw.moves hask) i p fair).moves
  unfold tryAcquirePermit tryAcquire
  rcases hres : acquireOrEnqueue C (w.setSlot i .gone).lock i p fair with
    ⟨w', (r | p' | p' | ⟨front, p'⟩) | _⟩ <;> rw [hres] at hadmit
  · exact ⟨((hask.trans hadmit).tail (.unlock _ _)).tail (.deliverTry _ i p r rfl), rfl⟩
  · exact ⟨((hask.trans hadmit).tail (.unlock _ _)).tail (.reject _ i p' _ _ (.closed p)), rfl⟩
  · exact ⟨((hask.trans hadmit).tail (.unlock _ _)).tail (.reject _ i p' _ _ (.poisoned p)), rfl⟩
  · exact ⟨((hask.trans hadmit).tail (.unlock _ _)).tail (.reject _ i p' _ _ (.noPermits p)), rfl⟩
  · exact ⟨((hask.trans hadmit).tail (.unlock _ _)).tail (.note _ _ _ (.tried i p)), rfl⟩

/-! ## The closures passed to with_queue -/

theorem updateState_closure {w : World ι κ W S O} {k : κ} (f : S → S × Unwind Unit)
    (hk : w.calls k = some (.start .withQueue)) :
    ClosureMoves C own k .empty w (w.updateState f) := by
  refine ⟨Moves.one (.update w .empty f), ⟨_, hk, rfl, rfl, rfl⟩, ?_⟩
  intro hpanic
  have hres : (f w.inner.state).2 = .panicked := hpanic
  exact ⟨.updated (f w.inner.state).2, by simp [World.updateState], by simp [Event.isPanic, hres]⟩

theorem callRelease_closure {w : World ι κ W S O} {k : κ} (who : Releaser) (i : ι) (r : Permit S)
    (hk : w.calls k = some (.start .withQueue)) :
    ClosureMoves C own k (.releasing who i r) w (w.callRelease who i r) := by
  refine ⟨Moves.one (.release w who i r), ⟨_, hk, rfl, rfl, rfl⟩, ?_⟩
  intro hpanic
  have hres : (SemaphoreState.release w.inner.state r).2 = .panicked := hpanic
  exact ⟨.released who i r (SemaphoreState.release w.inner.state r).2, by simp [World.callRelease],
    by simp [Event.isPanic, hres]⟩

theorem dropGranted_closure {w : World ι κ W S O} {i : ι} {r : Permit S} {k : κ}
    (hi : w.slots i = .live ⟨.removed (.ok r), none⟩)
    (hk : w.calls k = some (.start .withQueue)) :
    ClosureMoves C (some i) k .empty w (dropGranted w i r) := by
  have hrelease : ClosureMoves C (some i) k (.releasing .unclaimed i r)
      (((w.setSlot i .gone).emit (.took i)).emit (.cancelled i)) (dropGranted w i r) :=
    callRelease_closure .unclaimed i r hk
  exact ⟨(Moves.one (.cancelGranted w i r hi rfl)).trans hrelease.moves, hrelease.call,
    hrelease.panics⟩

theorem dropRefused_closure {w : World ι κ W S O} {i : ι} {params : Option (Params S)} {k : κ}
    (hi : w.slots i = .live ⟨.removed (.error params), none⟩)
    (hk : w.calls k = some (.start .withQueue)) :
    ClosureMoves C (some i) k .empty w (dropRefused k w i params) := by
  have hmove : Move C (some i) _ _ := .cancelRefused w k i params _ hi hk rfl
  have hcall : ((((w.setSlot i .gone).emit (.took i)).emit (.cancelled i)).calls k) =
      some (Call.start .withQueue) := hk
  unfold dropRefused
  rw [World.modifyCall_of_some hcall]
  exact ⟨Moves.one hmove, ⟨_, Function.update_self .., rfl, rfl, rfl⟩, by simp⟩

omit [Order O] in
/-- A node that was removed gives up its value, whether the list is at hand or discarded. -/
theorem dropNode_removed (k : κ) (i : ι) (r : Removed S) (w : World ι κ W S O) :
    dropNode k i (.removed r) w =
      match r with
      | .ok permit => dropGranted w i permit
      | .error params => dropRefused k w i params := by
  unfold dropNode
  cases w.inner.queue <;> cases r <;> rfl

omit [Order O] in
/-- A node that is still linked leaves the list; its data is kept until the call is over. -/
theorem dropNode_linked {w : World ι κ W S O} (hw : Coherent C w) {i : ι} {k : κ}
    {c : Call ι W S} (hi : w.slots i = .live ⟨.linked, none⟩) (hk : w.calls k = some c) :
    ∃ data before after, w.inner.queue = .ok (before ++ (i, data) :: after) ∧
      dropNode k i .linked w =
        ({ w with
            inner := { w.inner with
              queue := .ok (before ++ after)
              len := w.inner.len - 1 }
            slots := Function.update w.slots i .gone
            calls := Function.update w.calls k (some { c with abandoned := some (.linked data) })
            log := w.log ++ [.cancelled i] }, .returned ()) := by
  obtain ⟨before, data, after, hq, hlookup, hremove⟩ := hw.linked_split hi
  have hlen := hw.len_ne_zero hq
  refine ⟨data, before, after, hq, ?_⟩
  simp [dropNode, hq, Node.reset, hlookup, hremove, World.setList, World.setSlot, World.emit,
    World.decLen, hlen, World.modifyCall, hk, World.setCall]

theorem dropNode_closure {w : World ι κ W S O} (hw : Coherent C w) {i : ι}
    {n : Node (Removed S)} {k : κ} (hi : w.slots i = .live ⟨n, none⟩) (hn : n ≠ .initial)
    (hk : w.calls k = some (.start .withQueue)) :
    ClosureMoves C (some i) k .empty w (dropNode k i n w) := by
  cases n with
  | initial => exact absurd rfl hn
  | removed r =>
    rw [dropNode_removed]
    cases r with
    | ok permit => exact dropGranted_closure hi hk
    | error params => exact dropRefused_closure hi hk
  | linked =>
    obtain ⟨⟨params, x⟩, before, after, hq, hres⟩ := dropNode_linked hw hi hk
    have hmove : Move C (some i) _ _ := .cancelLinked w k i params x before after _ hq hi hk rfl
    rw [hres]
    exact ⟨Moves.one hmove, ⟨_, Function.update_self .., rfl, rfl, rfl⟩, by simp⟩

/-! ## The operations of a step -/

omit [Order O] in
theorem dropAcquire_of_asked (k : κ) (w : World ι κ W S O) (i : ι) {n : Node (Removed S)}
    (hn : n ≠ .initial) : dropAcquire C k w i ⟨n, none⟩ = withQueue C k w (dropNode k i n) := by
  cases n with
  | initial => exact absurd rfl hn
  | linked | removed => rfl

theorem dropAcquire_moves {w : World ι κ W S O} (hw : Coherent C w) (hlocked : w.locked = false)
    {i : ι} {a : Acquire S} {k : κ} (hi : w.slots i = .live a) (hk : w.calls k = none) :
    Moves C (some i) (w, .empty) (dropAcquire C k w i a, .empty) ∧
      (dropAcquire C k w i a).locked = false := by
  obtain ⟨n, params⟩ := a
  by_cases hn : n = .initial
  · subst hn
    have hcancel : Moves C (some i) _ _ := Moves.one (.cancelInitial w i params hi rfl)
    cases params with
    | none => exact ⟨hcancel, hlocked⟩
    | some p => exact ⟨hcancel.tail (.note _ _ _ (.droppedParams p _)), hlocked⟩
  · have hparams : params = none := hw.asked i _ hi hn
    subst hparams
    rw [dropAcquire_of_asked k w i hn]
    have hclosure := dropNode_closure (hw.enter hk) hi hn (w.enter_call k)
    exact withQueue_moves k .empty hw hk (dropNode k i n) hclosure

theorem withState_moves {w : World ι κ W S O} (hw : Coherent C w) {k : κ}
    (hk : w.calls k = none) (f : S → S × Unwind Unit) :
    Moves C own (w, .empty) (withQueue C k w fun w => w.updateState f, .empty) ∧
      (withQueue C k w fun w => w.updateState f).locked = false :=
  withQueue_moves k .empty hw hk _ (updateState_closure f (w.enter_call k))

/-- The drop of a guard, once the permit has left it. -/
theorem dropPermit_rest {w : World ι κ W S O} (hw : Coherent C w) {k : κ} (i : ι) (r : Permit S)
    (hk : w.calls k = none) :
    Moves C own (w.setPermit i none, .releasing .guard i r) (dropPermit C k w i r, .empty) := by
  have hopened : Coherent C (w.setPermit i none) := hw.frame_inner rfl rfl rfl rfl
  exact (withQueue_moves k (.releasing .guard i r) hopened hk (fun w => w.callRelease .guard i r)
    (callRelease_closure .guard i r ((w.setPermit i none).enter_call k))).1

theorem dropPermit_moves {w : World ι κ W S O} (hw : Coherent C w) {k : κ} {i : ι}
    {r : Permit S} (hi : w.permits i = some r) (hk : w.calls k = none) :
    Moves C (some i) (w, .empty) (dropPermit C k w i r, .empty) ∧
      (dropPermit C k w i r).locked = false := by
  have htake : Moves C (some i) _ _ := Moves.one (.takeGuard w i r hi rfl)
  obtain ⟨hmoves, hlocked⟩ := withQueue_moves k (.releasing .guard i r) (hw.moves htake) hk
    (fun w => w.callRelease .guard i r)
    (callRelease_closure .guard i r ((w.setPermit i none).enter_call k))
  exact ⟨htake.trans hmoves, hlocked⟩

theorem close_moves {w : World ι κ W S O} (hw : Coherent C w) (hC : C.CLOSE = true) {k : κ}
    (hk : w.calls k = none) :
    Moves C own (w, .empty) (close k w, .empty) ∧ (close k w).locked = false := by
  have hbegin : Moves C own _ _ := Moves.one (.begin w .empty k .close hk fun _ => hC)
  obtain ⟨hmoves, hlocked⟩ := closeTurn_moves k .empty hC (hw.moves hbegin)
    (c := .start .close) (by simp) rfl rfl
  exact ⟨hbegin.trans hmoves, hlocked⟩

theorem wakeNext_moves {w w' : World ι κ W S O} (hlocked : w.locked = false) {k : κ}
    {c : Call ι W S} (hk : w.calls k = some c) {res : Unwind Unit}
    (h : wakeNext k w c res = some w') :
    Moves C own (w, .empty) (w', .empty) ∧ w'.locked = false := by
  unfold wakeNext at h
  rcases hpop : c.wakes.pop with _ | ⟨⟨i, x⟩, rest⟩
  · simp [hpop] at h
  · have hmove : Move C own _ _ := .wake w .empty k c i x rest res hlocked hk hpop
    rw [hpop] at h
    -- a panic on top of a panic aborts; in the other three cases the call goes on
    rcases res with _ | _ <;> rcases hunw : c.unwinding with _ | _ <;>
      simp only [hunw, reduceCtorEq, Option.some.injEq] at h
    all_goals
      subst h
      simp only [hunw, Unwind.isPanicked_returned, Unwind.isPanicked_panicked, Bool.or_false,
        Bool.or_true] at hmove
      simp only [World.setCall, World.emit, hlocked] at hmove ⊢
      exact ⟨Moves.one hmove, trivial⟩

theorem dropAbandoned_moves (w : World ι κ W S O) (res : Unwind Unit)
    (data : Option (NodeData (Protected W S) (Removed S))) :
    Moves C own (w, .empty) (dropAbandoned w res data, .empty) ∧
      (dropAbandoned w res data).locked = w.locked ∧
      (dropAbandoned w res data).calls = w.calls := by
  rcases data with _ | ⟨⟨_ | p, x⟩⟩ | ⟨⟨_ | p⟩ | r⟩
  · exact ⟨Relation.ReflTransGen.refl, rfl, rfl⟩
  · exact ⟨Moves.one (.note _ _ _ (.droppedWaker x _ res)), rfl, rfl⟩
  · exact ⟨(Moves.one (.note _ _ _ (.droppedParams p w.locked))).tail
      (.note _ _ _ (.droppedWaker x _ res)), rfl, rfl⟩
  · exact ⟨Relation.ReflTransGen.refl, rfl, rfl⟩
  · exact ⟨Moves.one (.note _ _ _ (.droppedParams p _)), rfl, rfl⟩
  · exact ⟨Relation.ReflTransGen.refl, rfl, rfl⟩

omit [DecidableEq ι] [Order O] in
/-- How a call ends: with a panic, or normally if nothing unwinds and no turn is due. -/
theorem finish_eq_some {w w' : World ι κ W S O} {k : κ} {c : Call ι W S} {res : Unwind Unit}
    (h : finish k w c res = some w') :
    c.wakes.wakers = [] ∧ ∃ ended : Unwind Unit,
      (ended = .returned () → c.unwinding = false ∧ c.more = false) ∧
      w' = ((dropAbandoned w res c.abandoned).setCall k none).emit (.returned k c.kind ended) := by
  unfold finish at h
  split at h
  · rename_i hguard
    simp only [Bool.and_eq_true, List.isEmpty_iff, Bool.or_eq_true, Bool.not_eq_true'] at hguard
    refine ⟨hguard.1, ?_⟩
    split at h
    · -- a second panic aborts
      cases h
    · -- the destructor of the abandoned waker panics
      cases h
      exact ⟨.panicked, by simp, rfl⟩
    · -- a panic goes on unwinding
      cases h
      exact ⟨.panicked, by simp, rfl⟩
    · rename_i hunw _ _ _ _
      cases h
      refine ⟨.returned (), ?_, rfl⟩
      intro _
      rcases hguard.2 with hunwinding | hmore
      · simp_all
      · exact ⟨by assumption, hmore⟩
  · cases h

theorem finish_moves {w w' : World ι κ W S O} (hlocked : w.locked = false) {k : κ}
    {c : Call ι W S} (hk : w.calls k = some c) {res : Unwind Unit}
    (h : finish k w c res = some w') :
    Moves C own (w, .empty) (w', .empty) ∧ w'.locked = false := by
  obtain ⟨hnil, ended, hended, rfl⟩ := finish_eq_some h
  obtain ⟨hmoves, hsame, hcalls⟩ := dropAbandoned_moves (C := C) w res c.abandoned
  have hk' : (dropAbandoned w res c.abandoned).calls k = some c := by rw [hcalls, hk]
  refine ⟨hmoves.tail (.finish _ _ k c ended hk' hnil hended), ?_⟩
  exact hsame.trans hlocked

end FlagBearer
