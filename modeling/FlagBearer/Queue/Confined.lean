import FlagBearer.Queue.Destructors

/-!
# What a Step Leaves Alone

A lock section of a call changes the locals of that call only, and the events that it records
name no other call. Apart from a consultation of the `Order`, which only a first poll or a fair
`try_acquire` makes, every step is confined in this sense.

## Main results

- `Action.call`, `Action.asks`: the call of a step, and the request that it consults for
- `step_confined`: the frame of a step
-/

namespace FlagBearer

open PinList

variable {ι κ W S O : Type} [DecidableEq κ] [SemaphoreState S] {C : Closeability}

/-! ## Confined effects -/

/-- Events that name no call but `k`, and that are no consultation of the order. -/
def Event.isOf (k : Option κ) : Event ι κ W S → Bool
  | .consulted _ _ _ => false
  | .entered l _ => k == some l
  | .removed l _ _ _ => k == some l
  | .woke l _ _ _ _ => k == some l
  | .returned l _ _ => k == some l
  | _ => true

/-- The other calls are as before, and so is what the log says about them. -/
structure Confined (k : Option κ) (w w' : World ι κ W S O) : Prop where
  calls : ∀ l, k ≠ some l → w'.calls l = w.calls l
  events : ∃ es, w'.log = w.log ++ es ∧ ∀ e ∈ es, e.isOf k = true

namespace Confined

variable {k : Option κ} {w w' w'' : World ι κ W S O}

/-- Neither a call nor the log changes. -/
theorem of_same (hcalls : w'.calls = w.calls) (hlog : w'.log = w.log) : Confined k w w' := by
  constructor
  case calls => exact fun l _ => congrFun hcalls l
  case events => exact ⟨[], by simp [hlog], by simp⟩

@[refl] theorem refl (w : World ι κ W S O) : Confined k w w := of_same rfl rfl

theorem trans (h : Confined k w w') (h' : Confined k w' w'') : Confined k w w'' := by
  obtain ⟨es, hlog, hes⟩ := h.events
  obtain ⟨es', hlog', hes'⟩ := h'.events
  constructor
  case calls =>
    intro l hl
    rw [h'.calls l hl, h.calls l hl]
  case events =>
    refine ⟨es ++ es', by rw [hlog', hlog, List.append_assoc], ?_⟩
    intro e he
    rcases List.mem_append.mp he with hold | hnew
    · exact hes e hold
    · exact hes' e hnew

/-- More that changes neither a call nor the log. -/
theorem congr (h : Confined k w w') (hcalls : w''.calls = w'.calls) (hlog : w''.log = w'.log) :
    Confined k w w'' := h.trans (of_same hcalls hlog)

/-- One event, and no call changes. -/
theorem record (hcalls : w'.calls = w.calls) {e : Event ι κ W S} (hlog : w'.log = w.log ++ [e])
    (he : e.isOf k = true) : Confined k w w' := by
  constructor
  case calls => exact fun l _ => congrFun hcalls l
  case events => exact ⟨[e], hlog, by simpa using he⟩

theorem emit (h : Confined k w w') {e : Event ι κ W S} (he : e.isOf k = true) :
    Confined k w (w'.emit e) := h.trans (record rfl rfl he)

theorem setCall {k : κ} (h : Confined (some k) w w') (c : Option (Call ι W S)) :
    Confined (some k) w (w'.setCall k c) := by
  apply h.trans
  constructor
  case calls =>
    intro l hl
    exact Function.update_of_ne (fun hlk => hl (by rw [hlk])) _ _
  case events => exact ⟨[], by simp, by simp⟩

theorem setNode [DecidableEq ι] (h : Confined k w w') (i : ι) (n : Node (Removed S)) :
    Confined k w (w'.setNode i n) := by
  unfold World.setNode
  split
  · exact h.congr rfl rfl
  · exact h

theorem modifyCall {k : κ} (h : Confined (some k) w w') (f : Call ι W S → Call ι W S) :
    Confined (some k) w (w'.modifyCall k f) := by
  unfold World.modifyCall
  split
  · exact h.setCall _
  · exact h

theorem decLen (h : Confined k w w') : Confined k w w'.decLen := by
  unfold World.decLen
  split
  · exact h.emit rfl
  · exact h.congr rfl rfl

theorem pushWake {k : κ} (h : Confined (some k) w w') (i : ι) (x : W) :
    Confined (some k) w (w'.pushWake k i x) := by
  unfold World.pushWake
  split
  · split
    · exact h.setCall _
    · exact h.emit rfl
  · exact h

theorem callAcquire (h : Confined k w w') (i : ι) (p : Params S) :
    Confined k w (w'.callAcquire i p).1 := h.trans (record rfl rfl rfl)

theorem callRelease (h : Confined k w w') (who : Releaser) (i : ι) (r : Permit S) :
    Confined k w (w'.callRelease who i r).1 := h.trans (record rfl rfl rfl)

theorem updateState (h : Confined k w w') (f : S → S × Unwind Unit) :
    Confined k w (w'.updateState f).1 := h.trans (record rfl rfl rfl)

end Confined

/-! ## The sections of a call -/

section

variable [DecidableEq ι]

theorem checkLoop_confined (k : κ) (before after : WaitList ι W S) {w w₀ : World ι κ W S O}
    (h : Confined (some k) w₀ w) : Confined (some k) w₀ (checkLoop k before after w).1 := by
  induction after generalizing before w with
  | nil => exact h
  | cons e after ih =>
    obtain ⟨i, params, x⟩ := e
    cases params with
    | none => exact ih _ h
    | some p =>
      have hlist : Confined (some k) w₀ (w.setList (before ++ (i, none, x) :: after)) :=
        h.congr rfl rfl
      have hacq := hlist.callAcquire i p
      unfold checkLoop
      rcases hcall : (w.setList (before ++ (i, none, x) :: after)).callAcquire i p with
        ⟨w', (_ | r) | _⟩ <;> rw [hcall] at hacq
      · -- a refusal: the params go back into the list
        exact hacq.congr rfl rfl
      · -- a grant: the node leaves, and the loop may go on
        simp only [Cursor.removeCurrent]
        have hleft : Confined (some k) w₀
            (w'.setList (Cursor.list ⟨before, after⟩)) := hacq.congr rfl rfl
        have hpushed := (((hleft.setNode i (.removed (.ok r))).emit (e := .removed k .withQueue i x)
          (by simp [Event.isOf])).decLen).pushWake i x
        split
        · exact hpushed
        · exact ih before hpushed
      · exact hacq

theorem check_confined (k : κ) {w w₀ : World ι κ W S O} (h : Confined (some k) w₀ w) :
    Confined (some k) w₀ (check C k w).1 := by
  unfold check
  split
  · exact h
  · split
    · exact h
    · exact checkLoop_confined k [] _ h

theorem withQueueTurn_confined (k : κ) {w w₀ : World ι κ W S O} (h : Confined (some k) w₀ w) :
    Confined (some k) w₀ (withQueueTurn C k w) := by
  have hcheck := check_confined (C := C) k h
  unfold withQueueTurn
  rcases hres : check C k w with ⟨w', _ | _⟩
  all_goals
    rw [hres] at hcheck
    have hfree : Confined (some k) w₀ w'.unlock := hcheck.congr rfl rfl
    exact hfree.modifyCall _

omit [DecidableEq ι] in
theorem enter_confined (w : World ι κ W S O) (k : κ) : Confined (some k) w (w.enter k) := by
  have hstart : Confined (some k) w (w.setCall k (some (.start .withQueue))).lock :=
    ((Confined.refl w).setCall _).congr rfl rfl
  exact hstart.emit (by simp [Event.isOf])

theorem withQueue_confined {k : κ} {w : World ι κ W S O}
    {f : World ι κ W S O → World ι κ W S O × Unwind Unit}
    (hf : ∀ v, Confined (some k) w v → Confined (some k) w (f v).1) :
    Confined (some k) w (withQueue C k w f) := by
  have hrun := hf (w.enter k) (enter_confined w k)
  rcases hres : f (w.enter k) with ⟨w', _ | _⟩
  · rw [hres] at hrun
    rw [withQueue_of_returned hres]
    split
    · exact hrun.congr rfl rfl
    · exact withQueueTurn_confined k hrun
  · rw [hres] at hrun
    rw [withQueue_of_panicked hres]
    have hfree : Confined (some k) w w'.unlock := hrun.congr rfl rfl
    exact hfree.modifyCall _

theorem closeOne_confined (k : κ) {w w₀ : World ι κ W S O} (hw : Coherent C w)
    (h : Confined (some k) w₀ w) : Confined (some k) w₀ (closeOne k w).1 := by
  rcases hq : w.inner.queue with _ | _ | ⟨⟨i, params, x⟩, rest⟩
  · rw [closeOne_error k hq]
    exact h.congr rfl rfl
  · rw [closeOne_nil k hw hq]
    exact h.congr rfl rfl
  · rw [closeOne_cons k hw hq]
    exact h.trans (.record rfl rfl (by simp [Event.isOf]))

theorem closeLoop_confined [Order O]
    (k : κ) (room : Nat) {w w₀ : World ι κ W S O} (hw : Coherent C w)
    (hC : C.CLOSE = true) (h : Confined (some k) w₀ w) :
    Confined (some k) w₀ (closeLoop k room w) := by
  induction room generalizing w with
  | zero => exact h
  | succ room ih =>
    have hcoh := closeOne_coherent k hw hC
    have hone := closeOne_confined k hw h
    unfold closeLoop
    rcases hres : closeOne k w with ⟨w', _ | ⟨i, x⟩⟩
    · rw [hres] at hone
      exact hone
    · rw [hres] at hcoh hone
      exact ih (hcoh.pushWake k i x) (hone.pushWake i x)

theorem closeTurn_confined [Order O] (k : κ) {w w₀ : World ι κ W S O} (hw : Coherent C w)
    (hC : C.CLOSE = true) (h : Confined (some k) w₀ w) :
    Confined (some k) w₀ (closeTurn k w) := by
  have hlocked : Confined (some k) w₀ w.lock := h.congr rfl rfl
  have hentered : Confined (some k) w₀ (w.lock.emit (.entered k .close)) :=
    hlocked.emit (by simp [Event.isOf])
  have hcoh : Coherent C (w.lock.emit (.entered k .close)) := hw.frame_inner rfl rfl rfl rfl
  have hloop := closeLoop_confined k WakeBatch.CAP hcoh hC hentered
  have hfree : Confined (some k) w₀
      (closeLoop k WakeBatch.CAP (w.lock.emit (.entered k .close))).unlock := hloop.congr rfl rfl
  exact hfree.modifyCall _

theorem dropNode_confined (k : κ) (i : ι) (node : Node (Removed S)) {w w₀ : World ι κ W S O}
    (h : Confined (some k) w₀ w) : Confined (some k) w₀ (dropNode k i node w).1 := by
  have gone {es : List (Event ι κ W S)} {w' : World ι κ W S O} (hcalls : w'.calls = w.calls)
      (hlog : w'.log = w.log ++ es) (hes : ∀ e ∈ es, e.isOf (some k) = true) :
      Confined (some k) w₀ w' := by
    apply h.trans
    constructor
    case calls => exact fun l _ => congrFun hcalls l
    case events => exact ⟨es, hlog, hes⟩
  have granted (r : Permit S) : Confined (some k) w₀ (dropGranted w i r).1 := by
    have hcancelled : Confined (some k) w₀
        (((w.setSlot i .gone).emit (.took i)).emit (.cancelled i)) :=
      gone rfl (List.append_assoc ..) (by simp [Event.isOf])
    exact hcancelled.callRelease .unclaimed i r
  have refused (params : Option (Params S)) :
      Confined (some k) w₀ (dropRefused k w i params).1 := by
    have hcancelled : Confined (some k) w₀
        (((w.setSlot i .gone).emit (.took i)).emit (.cancelled i)) :=
      gone rfl (List.append_assoc ..) (by simp [Event.isOf])
    exact hcancelled.modifyCall _
  unfold dropNode
  rcases hq : w.inner.queue with _ | queue
  · simp only
    -- the list was discarded: a node that was removed still has its value
    rcases node.takeRemoved with _ | (params | r)
    · exact h.emit rfl
    · exact refused params
    · exact granted r
  · simp only
    -- the node leaves the list, or has been removed before
    rcases node.reset queue i with _ | ⟨data | (params | r), rest⟩
    · exact h.emit rfl
    · have hleft : Confined (some k) w₀
          (((w.setList rest).setSlot i .gone).emit (.cancelled i)) :=
        gone rfl rfl (by simp [Event.isOf])
      exact hleft.decLen.modifyCall _
    · exact refused params
    · exact granted r

theorem dropAcquire_confined (k : κ) (w : World ι κ W S O) (i : ι) (a : Acquire S) :
    Confined (some k) w (dropAcquire C k w i a) := by
  have hgone : Confined (some k) w (w.setSlot i .gone) := .of_same rfl rfl
  unfold dropAcquire
  split
  · exact hgone.emit rfl
  · exact (hgone.emit (e := .cancelled i) rfl).emit rfl
  · exact withQueue_confined fun v hv => dropNode_confined k i _ hv

omit [DecidableEq ι] in
theorem wakeNext_confined {k : κ} {w w' : World ι κ W S O} {c : Call ι W S} {res : Unwind Unit}
    (h : wakeNext k w c res = some w') : Confined (some k) w w' := by
  unfold wakeNext at h
  split at h
  · cases h
  · rename_i i x rest _
    have hwoken : Confined (some k) w (w.emit (.woke k i x w.locked res)) :=
      (Confined.refl w).emit (by simp [Event.isOf])
    split at h
    · cases h
      exact hwoken.setCall _
    · cases h
      exact hwoken.setCall _
    · cases h

omit [DecidableEq ι] in
theorem finish_confined {k : κ} {w w' : World ι κ W S O} {c : Call ι W S} {res : Unwind Unit}
    (h : finish k w c res = some w') : Confined (some k) w w' := by
  obtain ⟨-, ended, -, rfl⟩ := finish_eq_some h
  have hdrop : Confined (some k) w (dropAbandoned w res c.abandoned) := by
    rcases c.abandoned with _ | ⟨⟨_ | p, x⟩⟩ | ⟨⟨_ | p⟩ | r⟩
    · exact .refl w
    · exact (Confined.refl w).emit rfl
    · exact ((Confined.refl w).emit (e := .droppedParams p w.locked) rfl).emit rfl
    · exact .refl w
    · exact (Confined.refl w).emit rfl
    · exact .refl w
  exact (hdrop.setCall none).emit (by simp [Event.isOf])

end

/-! ## Polls and try_acquire -/

/-- The queue admits requests: neither poisoned nor closing. -/
def QueueState.admits (C : Closeability) (q : QueueState ι W S O) : Bool :=
  !q.poisoned && !q.closing C

theorem QueueState.admits_iff {q : QueueState ι W S O} :
    q.admits C = true ↔ q.poisoned = false ∧ q.closing C = false := by
  simp [QueueState.admits]

/-- The order answers when it is told this length. -/
def QueueState.OrderAnswers [Order O] (q : QueueState ι W S O) (queued : Nat) : Prop :=
  (Order.enqueueFront q.order queued).2 ≠ .panicked

/-- The world after a consultation of the order, if there is one. -/
def World.consulted [Order O] (w : World ι κ W S O) : Option ι → World ι κ W S O
  | some i => (w.consult i).1
  | none => w

omit [DecidableEq κ] in
@[simp] theorem World.consulted_none [Order O] (w : World ι κ W S O) : w.consulted none = w := rfl

omit [DecidableEq κ] in
@[simp] theorem World.consulted_some [Order O] (w : World ι κ W S O) (i : ι) :
    w.consulted (some i) = (w.consult i).1 := rfl

theorem lead_confined {k : Option κ} {w w₀ : World ι κ W S O} (h : Confined k w₀ w) (i : ι)
    (p : Params S) (front : Bool) : Confined k w₀ (lead w i p front).1 := by
  have hacq := h.callAcquire i p
  unfold lead
  rcases hcall : w.callAcquire i p with ⟨w', (_ | _) | _⟩
  all_goals
    rw [hcall] at hacq
    exact hacq

/-- `acquire_or_enqueue` consults the order if it is fair and the queue admits requests. -/
theorem acquireOrEnqueue_confined [Order O] {w : World ι κ W S O} (hw : Coherent C w) (i : ι)
    (p : Params S) (fair : Bool) :
    Confined (none : Option κ) (w.consulted (if fair && w.inner.admits C then some i else none))
      (acquireOrEnqueue C w i p fair).1 := by
  unfold QueueState.admits
  cases hpoison : w.inner.poisoned with
  | true => simpa [acquireOrEnqueue, hpoison] using Confined.refl w
  | false =>
    cases hclosing : w.inner.closing C with
    | true =>
      simpa [acquireOrEnqueue_closing hpoison hclosing] using Confined.refl w
    | false =>
      obtain ⟨queue, hq⟩ := hw.queue_of_open hclosing
      cases fair with
      | false =>
        -- an unfair caller always tries
        simpa [acquireOrEnqueue, hpoison, hclosing, hq] using
          lead_confined (Confined.refl w) i p true
      | true =>
        show Confined (none : Option κ) (w.consult i).1 _
        have hconsult : Confined (none : Option κ) (w.consult i).1 (w.consult i).1 := .refl _
        rcases hord : Order.enqueueFront w.inner.order w.inner.len with ⟨order, front | _⟩
        · rw [acquireOrEnqueue_open hpoison hclosing hq hord]
          split
          · exact hconsult
          · exact lead_confined hconsult i p front
        · rw [acquireOrEnqueue_panicked hpoison hclosing hq hord]
          exact hconsult.emit rfl

variable [DecidableEq ι]

theorem link_confined {k : Option κ} {w w₀ : World ι κ W S O} (h : Confined k w₀ w) (i : ι)
    (queue : WaitList ι W S) (p : Params S) (cx : W) (front : Bool) :
    Confined k w₀ (link w i queue p cx front) := by
  unfold link
  split
  · exact h.trans (.record rfl rfl rfl)
  · exact h.emit rfl

theorem pollFirst_confined [Order O]
    {w : World ι κ W S O} (hw : Coherent C w) (i : ι) (p : Params S)
    (cx : W) (calls : WakerCalls) :
    Confined (none : Option κ) (w.consulted (if w.inner.admits C then some i else none))
      (pollFirst C w i p cx calls).1 := by
  have hadmit := acquireOrEnqueue_confined hw i p true
  rw [Bool.true_and] at hadmit
  unfold pollFirst
  rcases hres : acquireOrEnqueue C w i p true with ⟨w', (r | q | q | ⟨front, q⟩) | _⟩
  all_goals rw [hres] at hadmit
  · exact hadmit.congr rfl rfl
  · exact hadmit.congr rfl rfl
  · have hdropped : Confined none _ (w'.dropParams q) := hadmit.emit rfl
    exact hdropped.congr rfl rfl
  · -- queued, unless the clone of the waker panics
    simp only
    rcases w'.inner.queue with _ | queue
    · exact hadmit.emit rfl
    · rcases calls.clone with _ | _
      · have hcloned : Confined none _ (w'.emit (.cloned cx (.returned ()))) := hadmit.emit rfl
        exact (link_confined hcloned i queue q cx front).congr rfl rfl
      · have hcloned : Confined none _ (w'.emit (.cloned cx .panicked)) := hadmit.emit rfl
        have hdropped : Confined none _ ((w'.emit (.cloned cx .panicked)).dropParams q) :=
          hcloned.emit rfl
        exact hdropped.congr rfl rfl
  · exact hadmit.congr rfl rfl

theorem pollTake_confined {k : Option κ} {w w₀ : World ι κ W S O} (h : Confined k w₀ w) (i : ι)
    (node : Node (Removed S)) : Confined k w₀ (pollTake w i node).1 := by
  unfold pollTake
  rcases node.takeRemoved with _ | removed
  · exact h.emit rfl
  · have htook : Confined k w₀ ((w.setNode i .initial).emit (.took i)) :=
      (h.setNode i .initial).emit rfl
    rcases removed with (_ | p) | r
    all_goals exact htook.congr rfl rfl

theorem pollUnlinked_confined {k : Option κ} {w w₀ : World ι κ W S O} (h : Confined k w₀ w)
    (i : ι) (data : Protected W S) (queue : WaitList ι W S) (calls : WakerCalls) :
    Confined k w₀ (pollUnlinked w i data queue calls).1 := by
  have hlist : Confined k w₀ (w.setList queue) := h.congr rfl rfl
  have hunlinked : Confined k w₀
      (((w.setList queue).setNode i .initial).emit (.unlinked i)).decLen :=
    ((hlist.setNode i .initial).emit rfl).decLen
  have hfree : Confined k w₀
      (((w.setList queue).setNode i .initial).emit (.unlinked i)).decLen.unlock :=
    hunlinked.congr rfl rfl
  have hdropped : Confined k w₀ ((((w.setList queue).setNode i .initial).emit
      (.unlinked i)).decLen.unlock.dropWaker data.2 calls.drop) := hfree.emit rfl
  unfold pollUnlinked
  rcases data with ⟨_ | p, x⟩ <;> rcases hdrop : calls.drop with _ | _ <;> rw [hdrop] at hdropped
  · exact hdropped
  · exact hdropped
  · exact hdropped
  · exact hdropped.emit (e := .droppedParams p false) rfl

theorem pollSpurious_confined [DecidableEq W]
    {k : Option κ} {w w₀ : World ι κ W S O} (h : Confined k w₀ w)
    (i : ι) (queue : WaitList ι W S) (data : Protected W S) (cx : W) (calls : WakerCalls) :
    Confined k w₀ (pollSpurious w i queue data cx calls).1 := by
  unfold pollSpurious
  split
  · exact h.congr rfl rfl
  · rcases calls.clone with _ | _
    · have hcloned : Confined k w₀ (w.emit (.cloned cx (.returned ()))) := h.emit rfl
      have hlist : Confined k w₀ ((w.emit (.cloned cx (.returned ()))).setList
          (queue.setProtected i (data.1, cx))) := hcloned.congr rfl rfl
      have hdropped : Confined k w₀ (((w.emit (.cloned cx (.returned ()))).setList
          (queue.setProtected i (data.1, cx))).dropWaker data.2 calls.drop) := hlist.emit rfl
      rcases hdrop : calls.drop with _ | _ <;> rw [hdrop] at hdropped
      · exact hdropped.congr rfl rfl
      · exact hdropped.congr rfl rfl
    · have hcloned : Confined k w₀ (w.emit (.cloned cx .panicked)) := h.emit rfl
      exact hcloned.congr rfl rfl

theorem pollAgain_confined [DecidableEq W]
    {k : Option κ} {w w₀ : World ι κ W S O} (h : Confined k w₀ w) (i : ι)
    (node : Node (Removed S)) (cx : W) (calls : WakerCalls) :
    Confined k w₀ (pollAgain C w i node cx calls).1 := by
  unfold pollAgain
  split
  · exact pollTake_confined h i node
  · split
    · exact pollUnlinked_confined h i _ _ calls
    · split
      · exact pollSpurious_confined h i _ _ cx calls
      · exact pollTake_confined h i node

theorem wrapPoll_confined {k : Option κ} {w₀ : World ι κ W S O}
    {out : World ι κ W S O × PollResult S} (h : Confined k w₀ out.1) (i : ι) (cx : W) :
    Confined k w₀ (wrapPoll i cx out) := by
  unfold wrapPoll
  split
  · exact h.trans (.record rfl rfl rfl)
  · exact h.emit rfl

theorem wrapTry_confined {k : Option κ} {w₀ : World ι κ W S O}
    {out : World ι κ W S O × TryResult S} (h : Confined k w₀ out.1) (i : ι) (p : Params S) :
    Confined k w₀ (wrapTry i p out) := by
  unfold wrapTry
  split
  · exact h.trans (.record rfl rfl rfl)
  · exact h.emit rfl

/-! ## The frame of a step -/

variable [DecidableEq W] [Order O]

/-- The call that an action is about. -/
def Action.call : Action ι κ W S → Option κ
  | .withState k _ => some k
  | .dropAcquire k _ => some k
  | .dropPermit k _ => some k
  | .close k => some k
  | .resume k => some k
  | .wake k _ => some k
  | .finish k _ => some k
  | _ => none

/-- The request for which an action consults the order: a first poll or a fair `try_acquire`
that finds the queue admitting requests. -/
def Action.asks (C : Closeability) (w : World ι κ W S O) : Action ι κ W S → Option ι
  | .poll i _ _ =>
    match w.slots i with
    | .live ⟨.initial, some _⟩ => if w.inner.admits C then some i else none
    | _ => none
  | .tryAcquire i _ fair => if fair && w.inner.admits C then some i else none
  | _ => none

omit [DecidableEq ι] [DecidableEq W] in
/-- A section that starts with `w'` instead of `w`, where only the mutex and slots differ. -/
theorem Confined.of_start {k : Option κ} {w w' u : World ι κ W S O} {asked : Option ι}
    (h : Confined k (w'.consulted asked) u) (hinner : w'.inner = w.inner)
    (hcalls : w'.calls = w.calls) (hlog : w'.log = w.log) : Confined k (w.consulted asked) u := by
  have hsame : Confined k (w.consulted asked) (w'.consulted asked) := by
    cases asked with
    | none => exact .of_same hcalls hlog
    | some i =>
      refine Confined.of_same hcalls ?_
      simp [World.consult, hinner, hlog]
  exact hsame.trans h

theorem pollAcquire_confined {w : World ι κ W S O} (hw : Coherent C w) {i : ι} {a : Acquire S}
    (hi : w.slots i = .live a) (cx : W) (calls : WakerCalls) :
    Confined (none : Option κ)
      (w.consulted ((.poll i cx calls : Action ι κ W S).asks C w))
      (pollAcquire C w i a cx calls) := by
  have hlock : Coherent C w.lock := hw.frame_inner rfl rfl rfl rfl
  have hlocked : Confined (none : Option κ) w w.lock := .of_same rfl rfl
  unfold pollAcquire
  apply wrapPoll_confined
  obtain ⟨n, params⟩ := a
  by_cases hn : n = .initial
  · subst hn
    cases params with
    | none =>
      simp only [Action.asks, hi, World.consulted_none]
      exact hlocked.congr rfl rfl
    | some p =>
      have hasked : Coherent C (w.lock.setSlot i (.live ⟨.initial, none⟩)) :=
        hlock.setSlot rfl rfl (by simp [hi]) (by simp)
      simp only [Action.asks, hi]
      exact (pollFirst_confined hasked i p cx calls).of_start rfl rfl rfl
  · have hparams : params = none := hw.asked i _ hi hn
    subst hparams
    have hasks : (.poll i cx calls : Action ι κ W S).asks C w = none := by
      simp only [Action.asks, hi]
    rw [poll_of_asked w i hn cx calls, hasks]
    exact pollAgain_confined hlocked i n cx calls

omit [DecidableEq W] in
theorem tryAcquire_confined {w : World ι κ W S O} (hw : Coherent C w) {i : ι}
    (hi : w.slots i = .unborn) (p : Params S) (fair : Bool) :
    Confined (none : Option κ)
      (w.consulted ((.tryAcquire i p fair : Action ι κ W S).asks C w))
      (tryAcquirePermit C w i p fair) := by
  have hgone : Coherent C (w.setSlot i .gone).lock := hw.setSlot rfl rfl (by simp [hi]) (by simp)
  have hadmit := (acquireOrEnqueue_confined hgone i p fair).of_start (w := w) rfl rfl rfl
  unfold tryAcquirePermit
  apply wrapTry_confined
  unfold tryAcquire
  rcases hres : acquireOrEnqueue C (w.setSlot i .gone).lock i p fair with
    ⟨w', (r | q | q | ⟨front, q⟩) | _⟩
  all_goals
    rw [hres] at hadmit
    exact hadmit.congr rfl rfl

/-- **The frame of a step**: but for a consultation of the order it changes the locals of its
own call only, and records no event of another one. -/
theorem step_confined {w w' : World ι κ W S O} (hw : Settled C w) {a : Action ι κ W S}
    (h : step C w a = some w') : Confined a.call (w.consulted (a.asks C w)) w' := by
  have hcoh := hw.coherent
  cases step_cases h with
  | acquire i p hi =>
    exact .record rfl rfl rfl
  | poll i a cx calls hi =>
    exact pollAcquire_confined hcoh hi cx calls
  | tryAcquire i p fair hi =>
    exact tryAcquire_confined hcoh hi p fair
  | withState k f hk =>
    exact withQueue_confined fun v hv => hv.updateState f
  | dropAcquire k i a hi hk =>
    exact dropAcquire_confined k w i _
  | dropPermit k i r hi hk =>
    -- the guard gives its permit up before the section begins
    have htaken : Confined (some k) w (w.setPermit i none) := .of_same rfl rfl
    exact htaken.trans (withQueue_confined fun v hv => hv.callRelease .guard i r)
  | takePermit i r hi =>
    exact .record rfl rfl rfl
  | conjure i r hi =>
    exact .record rfl rfl rfl
  | close k hC hk =>
    subst hC
    -- the call gets its locals, then its first section
    have hstart : Confined (some k) w (w.setCall k (some (.start .close))) :=
      (Confined.refl w).setCall _
    exact closeTurn_confined k (hcoh.frame_inner rfl rfl rfl rfl) rfl hstart
  | clearPoison =>
    exact .record rfl rfl rfl
  | observe =>
    exact .of_same rfl rfl
  | resume k c hk hwakes hunw hmore =>
    unfold resume
    cases hkind : c.kind with
    | withQueue =>
      have hlocked : Confined (some k) w w.lock := .of_same rfl rfl
      exact withQueueTurn_confined k (hlocked.emit (by simp [Event.isOf]))
    | close => exact closeTurn_confined k hcoh (hw.closes k c hk hkind) (.refl w)
  | wake k c res w' hk h =>
    exact wakeNext_confined h
  | finish k c res w' hk h =>
    exact finish_confined h

end FlagBearer
