import FlagBearer.Queue.System
import Mathlib.Logic.Relation

/-!
# Moves: What a Lock Section Can Do

Every step of the semaphore is a sequence of *moves*, each with one effect and the guards
under which the code has it. Invariants are proved once per move; `Decompose` shows that the
functions of `Sections` do nothing else.

Between moves a section may hold a value in a local variable: the params that
`acquire_or_enqueue` was given (with the decision of the `Order`, once it has been
consulted), params or a permit on their way to the caller, or a permit on its way to
`S::release`. The `Hand` records it, so that a value leaves one place before it enters
another.
-/

namespace FlagBearer

open PinList

variable {ι κ W S O : Type} [DecidableEq ι] [DecidableEq κ] [DecidableEq W]
variable [SemaphoreState S] [Order O]

/-! ## What a section holds in its locals -/

/-- The value that the running operation holds in a local variable. -/
inductive Hand (ι S : Type) [SemaphoreState S] where
  | empty
  | params (i : ι) (p : Params S) (front : Option Bool)
  | returning (i : ι) (p : Params S)
  | permit (i : ι) (r : Permit S)
  | releasing (who : Releaser) (i : ι) (r : Permit S)

/-- Params that a node gives up, if it still has them. -/
def Hand.ofParams (i : ι) : Option (Params S) → Hand ι S
  | some p => .returning i p
  | none => .empty

/-- A world together with the locals of the section that runs in it. -/
abbrev Conf (ι κ W S O : Type) [SemaphoreState S] := World ι κ W S O × Hand ι S

/-! ## Events without an effect on any invariant of the list -/

/-- Events that accompany a move but stand for no move themselves. -/
inductive Event.IsNote : Event ι κ W S → Prop where
  | tried (i : ι) (p : Params S) : IsNote (.tried i p .panicked)
  | entered (k : κ) (kind : CallKind) : IsNote (.entered k kind)
  | cloned (x : W) (res : Unwind Unit) : IsNote (.cloned x res)
  | droppedWaker (x : W) (held : Bool) (res : Unwind Unit) : IsNote (.droppedWaker x held res)
  | droppedParams (p : Params S) (held : Bool) : IsNote (.droppedParams p held)

/-- The ways to give up the params of a request that was not granted. -/
inductive Event.Rejects (i : ι) (p : Params S) : Event ι κ W S → Prop where
  | dropped (held : Bool) : Rejects i p (.droppedParams p held)
  | polled (cx : W) : Rejects i p (.polled i cx (.returned (.ready (.error p))))
  | closed (q : Params S) : Rejects i p (.tried i q (.returned (.error (.closed p))))
  | poisoned (q : Params S) : Rejects i p (.tried i q (.returned (.error (.poisoned p))))
  | noPermits (q : Params S) : Rejects i p (.tried i q (.returned (.error (.noPermits p))))

/-- Did user code panic here? -/
def Event.isPanic : Event ι κ W S → Bool
  | .acquired _ _ res => res.isPanicked
  | .released _ _ _ res => res.isPanicked
  | .updated res => res.isPanicked
  | .consulted _ _ res => res.isPanicked
  | .woke _ _ _ _ res => res.isPanicked
  | .cloned _ res => res.isPanicked
  | .droppedWaker _ _ res => res.isPanicked
  | _ => false

/-! ## Guards -/

/-- The queue admits requests and grants permits: not poisoned and not closing. -/
def World.Open (C : Closeability) (w : World ι κ W S O) : Prop :=
  w.inner.poisoned = false ∧ w.inner.closing C = false

/-- A request that knows the order's decision may try to acquire ahead of the queue. -/
def World.Leads (w : World ι κ W S O) (front : Option Bool) : Prop :=
  front = some false → w.inner.entries = []

/-! ## Moves -/

/-- One effect of a lock section or of a call between its sections. The operation runs on
behalf of the request `own`, if any; only it touches the future and the guard of that
request. -/
inductive Move (C : Closeability) (own : Option ι) : Conf ι κ W S O → Conf ι κ W S O → Prop where
  -- the mutex and the log
  | lock (w : World ι κ W S O) (h : Hand ι S) : Move C own (w, h) (w.lock, h)
  | unlock (w : World ι κ W S O) (h : Hand ι S) : Move C own (w, h) (w.unlock, h)
  | note (w : World ι κ W S O) (h : Hand ι S) (e : Event ι κ W S) (he : e.IsNote) :
      Move C own (w, h) (w.emit e, h)
  | pollPanic (w : World ι κ W S O) (h : Hand ι S) (i : ι) (cx : W)
      (hwaker : w.slots i ≠ .live ⟨.linked, none⟩ ∨ ∃ x, .cloned x .panicked ∈ w.log) :
      Move C own (w, h) (w.emit (.polled i cx .panicked), h)
  -- request names
  | create (w : World ι κ W S O) (i : ι) (p : Params S) (hi : w.slots i = .unborn)
      (hown : own = some i) :
      Move C own (w, .empty) ((w.setSlot i (.live ⟨.initial, some p⟩)).emit (.created i p), .empty)
  | conjure (w : World ι κ W S O) (i : ι) (r : Permit S) (hi : w.slots i = .unborn)
      (hown : own = some i) :
      Move C own (w, .empty)
        (((w.setSlot i .gone).setPermit i (some r)).emit (.conjured i r), .empty)
  | ask (w : World ι κ W S O) (i : ι) (p : Params S)
      (hi : w.slots i = .live ⟨.initial, some p⟩)
      (hown : own = some i) :
      Move C own (w, .empty) (w.setSlot i (.live ⟨.initial, none⟩), .params i p none)
  | askTry (w : World ι κ W S O) (i : ι) (p : Params S) (hi : w.slots i = .unborn)
      (hown : own = some i) :
      Move C own (w, .empty) (w.setSlot i .gone, .params i p none)
  -- admission
  | consult (w : World ι κ W S O) (i : ι) (p : Params S) (order : O) (front : Bool)
      (hopen : w.Open C)
      (hord : Order.enqueueFront w.inner.order w.inner.len = (order, .returned front)) :
      Move C own (w, .params i p none)
        ({ w with
            inner := { w.inner with order := order }
            log := w.log ++ [.consulted i w.inner.len (.returned front)] },
          .params i p (some front))
  | consultPanic (w : World ι κ W S O) (i : ι) (p : Params S) (order : O)
      (hopen : w.Open C)
      (hord : Order.enqueueFront w.inner.order w.inner.len = (order, .panicked)) :
      Move C own (w, .params i p none)
        ({ w with
            inner := { w.inner with order := order }
            log := w.log ++ [.consulted i w.inner.len .panicked, .droppedParams p w.locked] },
          .empty)
  | refuseNow (w : World ι κ W S O) (i : ι) (p p' : Params S) (front : Option Bool) (state : S)
      (hopen : w.Open C) (hlead : w.Leads front)
      (hacq : SemaphoreState.acquire w.inner.state p = (state, .returned (.error p'))) :
      Move C own (w, .params i p front)
        ({ w with
            inner := { w.inner with state := state }
            log := w.log ++ [.acquired i p (.returned (.error p'))] },
          .params i p' front)
  | grantNow (w : World ι κ W S O) (i : ι) (p : Params S) (r : Permit S) (front : Option Bool)
      (state : S) (hopen : w.Open C) (hlead : w.Leads front)
      (hacq : SemaphoreState.acquire w.inner.state p = (state, .returned (.ok r))) :
      Move C own (w, .params i p front)
        ({ w with
            inner := { w.inner with state := state }
            log := w.log ++ [.acquired i p (.returned (.ok r))] },
          .permit i r)
  | loseNow (w : World ι κ W S O) (i : ι) (p : Params S) (front : Option Bool) (state : S)
      (hopen : w.Open C) (hlead : w.Leads front)
      (hacq : SemaphoreState.acquire w.inner.state p = (state, .panicked)) :
      Move C own (w, .params i p front)
        ({ w with
            inner := { w.inner with state := state, poisoned := true }
            log := w.log ++ [.acquired i p .panicked] },
          .empty)
  | reject (w : World ι κ W S O) (i : ι) (p : Params S) (front : Option Bool)
      (e : Event ι κ W S) (he : e.Rejects i p) :
      Move C own (w, .params i p front) (w.emit e, .empty)
  | giveBack (w : World ι κ W S O) (i : ι) (p : Params S) (e : Event ι κ W S)
      (he : e.Rejects i p) :
      Move C own (w, .returning i p) (w.emit e, .empty)
  | link (w : World ι κ W S O) (i : ι) (p : Params S) (cx : W) (front : Bool)
      (queue : WaitList ι W S) (hopen : w.Open C) (hq : w.inner.queue = .ok queue)
      (hi : w.slots i = .live ⟨.initial, none⟩)
      (hown : own = some i) :
      Move C own (w, .params i p (some front))
        ({ w with
            inner := { w.inner with
              queue := .ok (if front then queue.pushFront i (some p, cx)
                else queue.pushBack i (some p, cx))
              len := w.inner.len + 1 }
            slots := Function.update w.slots i (.live ⟨.linked, none⟩)
            log := w.log ++ [.linked i cx front, .polled i cx (.returned .pending)] },
          .empty)
  -- the drain
  | grant (w : World ι κ W S O) (h : Hand ι S) (k : κ) (i : ι) (p : Params S) (x : W)
      (r : Permit S) (state : S) (before after : WaitList ι W S) (c : Call ι W S)
      (wakes : WakeBatch ι W) (hopen : w.Open C)
      (hq : w.inner.queue = .ok (before ++ (i, some p, x) :: after))
      (hdead : ∀ e ∈ before, e.2.1 = none)
      (hi : w.slots i = .live ⟨.linked, none⟩)
      (hk : w.calls k = some c) (hkind : c.kind = .withQueue)
      (hpush : c.wakes.push i x = some wakes)
      (hacq : SemaphoreState.acquire w.inner.state p = (state, .returned (.ok r))) :
      Move C own (w, h)
        ({ w with
            inner := { w.inner with
              queue := .ok (before ++ after)
              len := w.inner.len - 1
              state := state }
            slots := Function.update w.slots i (.live ⟨.removed (.ok r), none⟩)
            calls := Function.update w.calls k (some { c with wakes := wakes })
            log := w.log ++ [.acquired i p (.returned (.ok r)), .removed k .withQueue i x] },
          h)
  | refuse (w : World ι κ W S O) (h : Hand ι S) (i : ι) (p p' : Params S) (x : W) (state : S)
      (before after : WaitList ι W S) (hopen : w.Open C)
      (hq : w.inner.queue = .ok (before ++ (i, some p, x) :: after))
      (hdead : ∀ e ∈ before, e.2.1 = none)
      (hacq : SemaphoreState.acquire w.inner.state p = (state, .returned (.error p'))) :
      Move C own (w, h)
        ({ w with
            inner := { w.inner with
              queue := .ok (before ++ (i, some p', x) :: after)
              state := state }
            log := w.log ++ [.acquired i p (.returned (.error p'))] },
          h)
  | lose (w : World ι κ W S O) (h : Hand ι S) (i : ι) (p : Params S) (x : W) (state : S)
      (before after : WaitList ι W S) (hopen : w.Open C)
      (hq : w.inner.queue = .ok (before ++ (i, some p, x) :: after))
      (hdead : ∀ e ∈ before, e.2.1 = none)
      (hacq : SemaphoreState.acquire w.inner.state p = (state, .panicked)) :
      Move C own (w, h)
        ({ w with
            inner := { w.inner with
              queue := .ok (before ++ (i, none, x) :: after)
              state := state
              poisoned := true }
            log := w.log ++ [.acquired i p .panicked] },
          h)
  -- closing
  | setClosed (w : World ι κ W S O) (h : Hand ι S) (hC : C.CLOSE = true) :
      Move C own (w, h) ({ w with inner := { w.inner with closed := true } }, h)
  | expel (w : World ι κ W S O) (h : Hand ι S) (k : κ) (i : ι) (params : Option (Params S))
      (x : W) (rest : WaitList ι W S) (c : Call ι W S) (wakes : WakeBatch ι W)
      (hclosed : w.inner.closed = true)
      (hq : w.inner.queue = .ok ((i, params, x) :: rest))
      (hi : w.slots i = .live ⟨.linked, none⟩)
      (hk : w.calls k = some c) (hkind : c.kind = .close)
      (hpush : c.wakes.push i x = some wakes) :
      Move C own (w, h)
        ({ w with
            inner := { w.inner with
              queue := .ok rest
              len := w.inner.len - 1 }
            slots := Function.update w.slots i (.live ⟨.removed (.error params), none⟩)
            calls := Function.update w.calls k (some { c with wakes := wakes })
            log := w.log ++ [.removed k .close i x] },
          h)
  | discard (w : World ι κ W S O) (h : Hand ι S) (hclosed : w.inner.closed = true)
      (hq : w.inner.queue = .ok []) :
      Move C own (w, h) ({ w with inner := { w.inner with queue := .error () } }, h)
  -- later polls
  | unlinkSelf (w : World ι κ W S O) (i : ι) (params : Option (Params S)) (x : W)
      (before after : WaitList ι W S) (hclosing : w.inner.closing C = true)
      (hq : w.inner.queue = .ok (before ++ (i, params, x) :: after))
      (hi : w.slots i = .live ⟨.linked, none⟩)
      (hown : own = some i) :
      Move C own (w, .empty)
        ({ w with
            inner := { w.inner with
              queue := .ok (before ++ after)
              len := w.inner.len - 1 }
            slots := Function.update w.slots i (.live ⟨.initial, none⟩)
            log := w.log ++ [.unlinked i] },
          .ofParams i params)
  | rewake (w : World ι κ W S O) (i : ι) (params : Option (Params S)) (x cx : W)
      (before after : WaitList ι W S) (res : PollResult S)
      (hq : w.inner.queue = .ok (before ++ (i, params, x) :: after))
      (hres : res = .returned .pending ∨ res = .panicked)
      (hown : own = some i) :
      Move C own (w, .empty)
        ({ w with
            inner := { w.inner with queue := .ok (before ++ (i, params, cx) :: after) }
            log := w.log ++ [.polled i cx res] },
          .empty)
  | claim (w : World ι κ W S O) (i : ι) (r : Permit S)
      (hi : w.slots i = .live ⟨.removed (.ok r), none⟩)
      (hown : own = some i) :
      Move C own (w, .empty)
        ((w.setSlot i (.live ⟨.initial, none⟩)).emit (.took i), .permit i r)
  | claimError (w : World ι κ W S O) (i : ι) (params : Option (Params S))
      (hi : w.slots i = .live ⟨.removed (.error params), none⟩)
      (hown : own = some i) :
      Move C own (w, .empty)
        ((w.setSlot i (.live ⟨.initial, none⟩)).emit (.took i), .ofParams i params)
  | deliver (w : World ι κ W S O) (i : ι) (r : Permit S) (cx : W)
      (hown : own = some i) :
      Move C own (w, .permit i r)
        ((w.setPermit i (some r)).emit (.polled i cx (.returned (.ready (.ok r)))), .empty)
  | deliverTry (w : World ι κ W S O) (i : ι) (p : Params S) (r : Permit S)
      (hown : own = some i) :
      Move C own (w, .permit i r)
        ((w.setPermit i (some r)).emit (.tried i p (.returned (.ok r))), .empty)
  -- cancellation
  | cancelInitial (w : World ι κ W S O) (i : ι) (params : Option (Params S))
      (hi : w.slots i = .live ⟨.initial, params⟩)
      (hown : own = some i) :
      Move C own (w, .empty) ((w.setSlot i .gone).emit (.cancelled i), .empty)
  | cancelLinked (w : World ι κ W S O) (k : κ) (i : ι) (params : Option (Params S)) (x : W)
      (before after : WaitList ι W S) (c : Call ι W S)
      (hq : w.inner.queue = .ok (before ++ (i, params, x) :: after))
      (hi : w.slots i = .live ⟨.linked, none⟩) (hk : w.calls k = some c)
      (hown : own = some i) :
      Move C own (w, .empty)
        ({ w with
            inner := { w.inner with
              queue := .ok (before ++ after)
              len := w.inner.len - 1 }
            slots := Function.update w.slots i .gone
            calls := Function.update w.calls k
              (some { c with abandoned := some (.linked (params, x)) })
            log := w.log ++ [.cancelled i] },
          .empty)
  | cancelGranted (w : World ι κ W S O) (i : ι) (r : Permit S)
      (hi : w.slots i = .live ⟨.removed (.ok r), none⟩)
      (hown : own = some i) :
      Move C own (w, .empty)
        (((w.setSlot i .gone).emit (.took i)).emit (.cancelled i), .releasing .unclaimed i r)
  | cancelRefused (w : World ι κ W S O) (k : κ) (i : ι) (params : Option (Params S))
      (c : Call ι W S) (hi : w.slots i = .live ⟨.removed (.error params), none⟩)
      (hk : w.calls k = some c)
      (hown : own = some i) :
      Move C own (w, .empty)
        ((((w.setSlot i .gone).emit (.took i)).emit (.cancelled i)).setCall k
          (some { c with abandoned := some (.removed (.error params)) }), .empty)
  -- user code on the state
  | release (w : World ι κ W S O) (who : Releaser) (i : ι) (r : Permit S) :
      Move C own (w, .releasing who i r) ((w.callRelease who i r).1, .empty)
  | update (w : World ι κ W S O) (h : Hand ι S) (f : S → S × Unwind Unit) :
      Move C own (w, h) ((w.updateState f).1, h)
  -- permit guards and poison
  | takeGuard (w : World ι κ W S O) (i : ι) (r : Permit S) (hi : w.permits i = some r)
      (hown : own = some i) :
      Move C own (w, .empty) (w.setPermit i none, .releasing .guard i r)
  | takePermit (w : World ι κ W S O) (i : ι) (r : Permit S) (hi : w.permits i = some r)
      (hown : own = some i) :
      Move C own (w, .empty) ((w.setPermit i none).emit (.taken i r), .empty)
  | clearPoison (w : World ι κ W S O) (h : Hand ι S) :
      Move C own (w, h)
        (({ w with inner := { w.inner with poisoned := false } } : World ι κ W S O).emit
          .cleared, h)
  -- calls
  | begin (w : World ι κ W S O) (h : Hand ι S) (k : κ) (kind : CallKind)
      (hk : w.calls k = none) (hC : kind = .close → C.CLOSE = true) :
      Move C own (w, h) (w.setCall k (some (.start kind)), h)
  | turn (w : World ι κ W S O) (h : Hand ι S) (k : κ) (c : Call ι W S) (more unwinding : Bool)
      (hk : w.calls k = some c) (hunw : c.unwinding = true → unwinding = true)
      (hmore : c.kind = .close → more = false → w.inner.isOk = false) :
      Move C own (w, h) (w.setCall k (some { c with more := more, unwinding := unwinding }), h)
  | wake (w : World ι κ W S O) (h : Hand ι S) (k : κ) (c : Call ι W S) (i : ι) (x : W)
      (rest : WakeBatch ι W) (res : Unwind Unit) (hl : w.locked = false)
      (hk : w.calls k = some c) (hpop : c.wakes.pop = some ((i, x), rest)) :
      Move C own (w, h)
        ((w.setCall k (some { c with
            wakes := rest
            unwinding := c.unwinding || res.isPanicked })).emit (.woke k i x false res), h)
  | finish (w : World ι κ W S O) (h : Hand ι S) (k : κ) (c : Call ι W S) (res : Unwind Unit)
      (hk : w.calls k = some c) (hnil : c.wakes.wakers = [])
      (hres : res = .returned () → c.unwinding = false ∧ c.more = false) :
      Move C own (w, h) ((w.setCall k none).emit (.returned k c.kind res), h)

/-- Finitely many moves in a row. -/
abbrev Moves (C : Closeability) (own : Option ι) : Conf ι κ W S O → Conf ι κ W S O → Prop :=
  Relation.ReflTransGen (Move C own)

end FlagBearer
