import FlagBearer.Lib.Allotment
import FlagBearer.Core.Counter
import FlagBearer.Queue.Destructors
import FlagBearer.Queue.Service
import FlagBearer.Queue.Survivors

/-!
# The Canonical State of the FIFO Counting Semaphore

A counting semaphore with the FIFO order, used by polls, fair `try_acquire`s, additions of
permits, cancellations and drops of permits, and never closed. Whatever the order of these
steps, the permits are at any time shared among the survivors first come first served; when no
operation is in progress nobody could be granted more.

## Main results

- `checkLoop_tally`, `step_tally`: every lock section keeps the books of an `Allotment`
- `fifo_counter_canonical`: the state is determined by the survivors and the total
-/

namespace FlagBearer

open PinList Allotment

variable {ι κ W : Type} {C : Closeability}

/-- The world of a counting semaphore with a `FairOrder`. -/
abbrev CounterWorld (ι κ W : Type) := World ι κ W SemaphoreCounter FairOrder

/-! ## The invariant -/

/-- No call of `close` is in progress. -/
def World.Drains {S O : Type} [SemaphoreState S] (w : World ι κ W S O) : Prop :=
  ∀ k c, w.calls k = some c → c.kind = .withQueue

theorem World.Drains.keep [DecidableEq κ] {S O : Type} [SemaphoreState S] {w w' : World ι κ W S O}
    (hw : w.Drains) {k : κ} {c : Call ι W S}
    (hcalls : w'.calls = Function.update w.calls k (some c)) (hc : c.kind = .withQueue) :
    w'.Drains := by
  intro l c' hl
  rw [hcalls] at hl
  by_cases hlk : l = k
  · subst hlk
    rw [Function.update_self] at hl
    cases hl
    exact hc
  · rw [Function.update_of_ne hlk] at hl
    exact hw l c' hl

theorem World.Drains.finish [DecidableEq κ] {S O : Type} [SemaphoreState S] {w w' : World ι κ W S O}
    (hw : w.Drains) {k : κ} (hcalls : w'.calls = Function.update w.calls k none) :
    w'.Drains := by
  intro l c hl
  rw [hcalls] at hl
  by_cases hlk : l = k
  · subst hlk
    rw [Function.update_self] at hl
    cases hl
  · rw [Function.update_of_ne hlk] at hl
    exact hw l c hl

variable [DecidableEq ι]

/-- The queue is open and first in first out, every request agrees with its events, and the
permits are shared first come first served among the survivors. -/
structure Tally (T : Nat) (w : CounterWorld ι κ W) : Prop where
  agrees : ∀ i, Agrees ((roll w.log).stage i) (w.slots i) (w.permits i)
  fifo : w.inner.order = .fifo
  admits : w.inner.closed = false
  drains : w.Drains
  books : Books T (survivors w.log) w.waiting w.holds w.inner.state.available

section Transactions

variable {T : Nat} {w w' : CounterWorld ι κ W}

/-- Effects that the books do not show. -/
theorem Tally.keep (hw : Tally T w) (hwaiting : w'.waiting = w.waiting)
    (hstate : w'.inner.state = w.inner.state) (horder : w'.inner.order = w.inner.order)
    (hclosed : w'.inner.closed = w.inner.closed) (hslots : w'.slots = w.slots)
    (hpermits : w'.permits = w.permits) (hdrains : w'.Drains) (hroll : roll w'.log = roll w.log) :
    Tally T w' := by
  have hholds : w'.holds = w.holds := by
    funext i
    unfold World.holds
    rw [hslots, hpermits]
  have hbooks := hw.books
  constructor
  case agrees =>
    rw [hroll, hslots, hpermits]
    exact hw.agrees
  case fifo =>
    rw [horder]
    exact hw.fifo
  case admits =>
    rw [hclosed]
    exact hw.admits
  case drains => exact hdrains
  case books =>
    unfold survivors at hbooks ⊢
    rw [hroll, hwaiting, hholds, hstate]
    exact hbooks

theorem Tally.frame (hw : Tally T w) (hinner : w'.inner = w.inner) (hslots : w'.slots = w.slots)
    (hpermits : w'.permits = w.permits) (hdrains : w'.Drains) (hroll : roll w'.log = roll w.log) :
    Tally T w' := by
  refine hw.keep ?_ ?_ ?_ ?_ hslots hpermits hdrains hroll
  · unfold World.waiting
    rw [hinner]
  all_goals rw [hinner]

/-- A transaction of one request: its stage, slot and guard change, and the books with them. -/
theorem Tally.transact {T' : Nat} (hw : Tally T w) {i : ι} {x : Slot SemaphoreCounter}
    {r : Option Nat} (hslots : w'.slots = Function.update w.slots i x)
    (hpermits : w'.permits = Function.update w.permits i r)
    (hstage : ∀ j, j ≠ i → (roll w'.log).stage j = (roll w.log).stage j)
    (hi : Agrees ((roll w'.log).stage i) x r) (horder : w'.inner.order = w.inner.order)
    (hclosed : w'.inner.closed = w.inner.closed) (hdrains : w'.Drains)
    (hbooks : Books T' (survivors w'.log) w'.waiting (Function.update w.holds i (held x r))
      w'.inner.state.available) : Tally T' w' := by
  constructor
  case agrees =>
    apply agrees_update hw.agrees hstage
    · intro j hj
      rw [hslots, Function.update_of_ne hj]
    · intro j hj
      rw [hpermits, Function.update_of_ne hj]
    · rw [hslots, hpermits, Function.update_self, Function.update_self]
      exact hi
  case fifo =>
    rw [horder]
    exact hw.fifo
  case admits =>
    rw [hclosed]
    exact hw.admits
  case drains => exact hdrains
  case books =>
    rw [World.holds_update hslots hpermits]
    exact hbooks

/-- What is known of a request whose node is linked. -/
theorem Tally.linked (hw : Tally T w) {i : ι} (hi : w.slots i = .live ⟨.linked, none⟩) :
    (roll w.log).stage i = .arrived ∧ w.permits i = none := by
  have hagrees := hw.agrees i
  rw [hi] at hagrees
  exact hagrees.of_linked

/-- What is known of a future that was not polled yet. -/
theorem Tally.asked (hw : Tally T w) {i : ι} {n : Nat} (hi : w.slots i = .live ⟨.initial, some n⟩) :
    (roll w.log).stage i = .asked n ∧ w.permits i = none := by
  have hagrees := hw.agrees i
  rw [hi] at hagrees
  exact hagrees.of_asked

/-- What is known of a request name that was not used yet. -/
theorem Tally.unborn (hw : Tally T w) {i : ι} (hi : w.slots i = .unborn) :
    (roll w.log).stage i = .unborn ∧ w.permits i = none := by
  have hagrees := hw.agrees i
  rw [hi] at hagrees
  exact hagrees.of_unborn

/-- What is known of a future whose permit was claimed. -/
theorem Tally.claimed (hw : Tally T w) {i : ι} (hi : w.slots i = .live ⟨.initial, none⟩) :
    (roll w.log).stage i = .claimed := by
  have hagrees := hw.agrees i
  rw [hi] at hagrees
  exact hagrees.of_claimed

/-- What is known of a node that was removed. -/
theorem Tally.removed (hw : Tally T w) {i : ι} {r : Removed SemaphoreCounter}
    (hi : w.slots i = .live ⟨.removed r, none⟩) :
    (roll w.log).stage i = .arrived ∧ w.permits i = none ∧ ∃ granted, r = .ok granted := by
  have hagrees := hw.agrees i
  rw [hi] at hagrees
  exact hagrees.of_removed

/-- The first waiter is granted. -/
theorem Tally.grant (hw : Tally T w) {i : ι} {n : Nat}
    {before after : WaitList ι W SemaphoreCounter} {x : W} (hi : w.slots i = .live ⟨.linked, none⟩)
    (hq : w.inner.queue = .ok (before ++ (i, some n, x) :: after))
    (hdead : ∀ e ∈ before, e.2.1 = none) (hn : n ≤ w.inner.state.available)
    (hinner : w'.inner = { w.inner with
      queue := .ok (before ++ after)
      len := w.inner.len - 1
      state := ⟨w.inner.state.available - n⟩ })
    (hslots : w'.slots = Function.update w.slots i (.live ⟨.removed (.ok n), none⟩))
    (hpermits : w'.permits = w.permits) (hdrains : w'.Drains)
    (hroll : roll w'.log = roll w.log) : Tally T w' := by
  obtain ⟨hstage, hpermit⟩ := hw.linked hi
  have hpermits' : w'.permits = Function.update w.permits i none := by
    rw [hpermits, ← hpermit, Function.update_eq_self]
  -- the entries before the waiter are dead, so the books have it first in line
  have hwaiting : w.waiting = (i, n) :: live after := by
    unfold World.waiting
    rw [QueueState.entries_of_queue hq, live_append, live_dead hdead]
    rfl
  have hwaiting' : w'.waiting = live after := by
    unfold World.waiting
    rw [hinner, QueueState.entries_ok, live_append, live_dead hdead]
    rfl
  have hbooks := hw.books
  rw [hwaiting] at hbooks
  refine hw.transact hslots hpermits' ?_ ?_ ?_ ?_ hdrains ?_
  · intro j _
    rw [hroll]
  · rw [hroll, hstage]
    exact Agrees.granted (S := SemaphoreCounter) n
  · rw [hinner]
  · rw [hinner]
  · unfold survivors at hbooks ⊢
    rw [hroll, hwaiting', hinner]
    exact hbooks.grant hn

/-- A request is granted on arrival. -/
theorem Tally.admit (hw : Tally T w) {i : ι} {n : Nat} {x : Slot SemaphoreCounter}
    (hfresh : w.holds i = none) (hnil : w.inner.entries = []) (hn : n ≤ w.inner.state.available)
    (hx : x = .gone ∨ x = .live ⟨.initial, none⟩)
    (hinner : w'.inner = { w.inner with state := ⟨w.inner.state.available - n⟩ })
    (hslots : w'.slots = Function.update w.slots i x)
    (hpermits : w'.permits = Function.update w.permits i (some n)) (hdrains : w'.Drains)
    (hroll : roll w'.log = (roll w.log).arrive i n .claimed) : Tally T w' := by
  have hwaiting : w.waiting = [] := by
    unfold World.waiting
    rw [hnil, live_nil]
  have hwaiting' : w'.waiting = [] := by
    unfold World.waiting
    rw [hinner]
    exact hwaiting
  have hbooks := hw.books
  rw [hwaiting] at hbooks
  -- the books let it arrive and grant it in the same transaction
  have habsent : i ∉ ids (survivors w.log) := hbooks.absent hfresh (by simp)
  have hheld : held x (some n : Option (Permit SemaphoreCounter)) = some n := by
    rcases hx with rfl | rfl <;> rfl
  refine hw.transact hslots hpermits ?_ ?_ ?_ ?_ hdrains ?_
  · intro j hj
    rw [hroll]
    exact Function.update_of_ne hj _ _
  · rw [hroll]
    simp only [Roll.arrive, Function.update_self]
    rcases hx with rfl | rfl
    · exact .dropped _
    · exact .claimed _
  · rw [hinner]
  · rw [hinner]
  · have harrived := (hbooks.arrive habsent n).grant hn
    unfold survivors at harrived ⊢
    rw [hroll, hwaiting', hinner, hheld]
    exact harrived

/-- A request joins the queue. -/
theorem Tally.join (hw : Tally T w) (hcoh : Coherent C w) {i : ι} {n : Nat} {cx : W}
    {queue : WaitList ι W SemaphoreCounter} (hi : w.slots i = .live ⟨.initial, some n⟩)
    (hq : w.inner.queue = .ok queue)
    (hinner : w'.inner = { w.inner with
      queue := .ok (queue.pushBack i (some n, cx))
      len := w.inner.len + 1 })
    (hslots : w'.slots = Function.update w.slots i (.live ⟨.linked, none⟩))
    (hpermits : w'.permits = w.permits) (hdrains : w'.Drains)
    (hroll : roll w'.log = (roll w.log).arrive i n .arrived) : Tally T w' := by
  obtain ⟨-, hpermit⟩ := hw.asked hi
  have hpermits' : w'.permits = Function.update w.permits i none := by
    rw [hpermits, ← hpermit, Function.update_eq_self]
  -- the newcomer holds nothing and does not wait yet, as the books demand
  have hfresh : w.holds i = none := by
    simp [World.holds, held, hi, hpermit]
  have hnot : i ∉ ids w.waiting := by
    intro hmem
    have hlinked := (hcoh.linked i).mp (mem_ids_of_live hmem)
    rw [hi] at hlinked
    cases hlinked
  have hwaiting' : w'.waiting = w.waiting ++ [(i, n)] := by
    unfold World.waiting
    rw [hinner, QueueState.entries_ok, QueueState.entries_of_queue hq, pushBack, live_append]
    rfl
  have hbooks := hw.books
  refine hw.transact hslots hpermits' ?_ ?_ ?_ ?_ hdrains ?_
  · intro j hj
    rw [hroll]
    exact Function.update_of_ne hj _ _
  · rw [hroll]
    simp only [Roll.arrive, Function.update_self]
    exact .waiting
  · rw [hinner]
  · rw [hinner]
  · -- the books take it in as the last of the survivors
    have harrived := hbooks.arrive (hbooks.absent hfresh hnot) n
    have hsame : Function.update w.holds i none = w.holds := by
      rw [← hfresh, Function.update_eq_self]
    unfold survivors at harrived ⊢
    rw [hroll, hwaiting', hinner]
    show Books T _ _ (Function.update w.holds i none) _
    rw [hsame]
    exact harrived

/-- A permit goes back, from a node that nobody claimed or from a guard. -/
theorem Tally.giveBack (hw : Tally T w) {i : ι} {r : Nat} {x : Slot SemaphoreCounter}
    (hholds : w.holds i = some r) (hx : held x (none : Option (Permit SemaphoreCounter)) = none)
    (hinner : w'.inner = { w.inner with state := ⟨w.inner.state.available + r⟩ })
    (hslots : w'.slots = Function.update w.slots i x)
    (hpermits : w'.permits = Function.update w.permits i none) (hdrains : w'.Drains)
    (hstage : ∀ j, j ≠ i → (roll w'.log).stage j = (roll w.log).stage j)
    (hi : Agrees ((roll w'.log).stage i) x none)
    (hleave : survivors w'.log = (survivors w.log).remove i) : Tally T w' := by
  have hwaiting : w'.waiting = w.waiting := by
    unfold World.waiting
    rw [hinner]
    rfl
  refine hw.transact hslots hpermits hstage hi ?_ ?_ hdrains ?_
  · rw [hinner]
  · rw [hinner]
  · rw [hleave, hwaiting, hinner, hx]
    exact hw.books.release hholds

/-- A waiter leaves the queue. -/
theorem Tally.withdraw (hw : Tally T w) (hlive : ∀ e ∈ w.inner.entries, e.2.1 ≠ none) {i : ι}
    {data : Protected W SemaphoreCounter} {before after : WaitList ι W SemaphoreCounter}
    (hi : w.slots i = .live ⟨.linked, none⟩)
    (hq : w.inner.queue = .ok (before ++ (i, data) :: after))
    (hinner : w'.inner = { w.inner with
      queue := .ok (before ++ after)
      len := w.inner.len - 1 })
    (hslots : w'.slots = Function.update w.slots i .gone) (hpermits : w'.permits = w.permits)
    (hdrains : w'.Drains)
    (hroll : roll w'.log = ((roll w.log).leave i).setStage i .cancelled) : Tally T w' := by
  obtain ⟨-, hpermit⟩ := hw.linked hi
  have hpermits' : w'.permits = Function.update w.permits i none := by
    rw [hpermits, ← hpermit, Function.update_eq_self]
  have hentries := QueueState.entries_of_queue hq
  obtain ⟨params, cx⟩ := data
  -- no panic has left a dead entry, so the books know of the waiter
  rcases params with _ | n
  · exact absurd rfl (hlive (i, none, cx) (by simp [hentries]))
  have hwaiting : w.waiting = live before ++ (i, n) :: live after := by
    unfold World.waiting
    rw [hentries, live_append]
    rfl
  have hwaiting' : w'.waiting = live before ++ live after := by
    unfold World.waiting
    rw [hinner, QueueState.entries_ok, live_append]
  have hsame : Function.update w.holds i none = w.holds := by
    have hfresh : w.holds i = none := by simp [World.holds, held, hi, hpermit]
    rw [← hfresh, Function.update_eq_self]
  have hbooks := hw.books
  rw [hwaiting] at hbooks
  refine hw.transact hslots hpermits' ?_ ?_ ?_ ?_ hdrains ?_
  · intro j hj
    rw [hroll]
    exact Function.update_of_ne hj _ _
  · rw [hroll]
    simp only [Roll.setStage, Function.update_self]
    exact .cancelled
  · rw [hinner]
  · rw [hinner]
  · have hleft := hbooks.withdraw
    unfold survivors at hleft ⊢
    rw [hroll, hwaiting', hinner]
    show Books T _ _ (Function.update w.holds i none) _
    rw [hsame]
    exact hleft

/-- Permits are added. -/
theorem Tally.add (hw : Tally T w) {n : Nat}
    (hinner : w'.inner = { w.inner with state := ⟨w.inner.state.available + n⟩ })
    (hslots : w'.slots = w.slots) (hpermits : w'.permits = w.permits) (hdrains : w'.Drains)
    (hroll : roll w'.log = roll w.log) : Tally (T + n) w' := by
  have hholds : w'.holds = w.holds := by
    funext i
    unfold World.holds
    rw [hslots, hpermits]
  have hwaiting : w'.waiting = w.waiting := by
    unfold World.waiting
    rw [hinner]
    rfl
  constructor
  case agrees =>
    rw [hroll, hslots, hpermits]
    exact hw.agrees
  case fifo =>
    rw [hinner]
    exact hw.fifo
  case admits =>
    rw [hinner]
    exact hw.admits
  case drains => exact hdrains
  case books =>
    have hadded := hw.books.add n
    unfold survivors at hadded ⊢
    rw [hroll, hwaiting, hholds, hinner]
    exact hadded

end Transactions

/-! ## check and with_queue -/

/-- The drain grants the first waiters, one by one. -/
theorem checkLoop_tally [DecidableEq κ]
    {T : Nat} (k : κ) {before after : WaitList ι W SemaphoreCounter}
    {w : CounterWorld ι κ W} {c : Call ι W SemaphoreCounter} (hw : Tally T w)
    (hcoh : Coherent C w) (hq : w.inner.queue = .ok (before ++ after))
    (hdead : ∀ e ∈ before, e.2.1 = none) (hk : w.calls k = some c)
    (hroom : c.wakes.isFull = false) : Tally T (checkLoop k before after w).1 := by
  induction after generalizing before w c with
  | nil => exact hw
  | cons e after ih =>
    obtain ⟨i, _ | n, x⟩ := e
    · -- a dead entry is passed over
      have hdead' : ∀ e' ∈ before ++ [(i, none, x)], e'.2.1 = none := by
        intro e' he'
        rcases List.mem_append.mp he' with he' | he'
        · exact hdead e' he'
        · rw [List.mem_singleton.mp he']
      exact ih hw hcoh (by simpa using hq) hdead' hk hroom
    · rcases hacq : SemaphoreState.acquire w.inner.state n with ⟨state, (m | r) | _⟩
      · -- the waiter is refused, and the drain ends
        obtain ⟨-, rfl, rfl⟩ := SemaphoreCounter.acquire_eq_error.mp hacq
        rw [checkLoop_refuse k hacq]
        refine hw.frame ?_ rfl rfl hw.drains (by simp [Event.enroll])
        rw [← hq]
      · -- the waiter is granted, and the drain goes on while the batch has room
        obtain ⟨hn, rfl, rfl⟩ := SemaphoreCounter.acquire_eq_ok.mp hacq
        obtain ⟨wakes, hpush⟩ := WakeBatch.push_of_not_isFull hroom i x
        obtain ⟨w', hw', hres⟩ := checkLoop_grant k hcoh hq hk hpush hacq
        have hdrains : w'.Drains := by
          have hkind : { c with wakes := wakes }.kind = .withQueue := hw.drains k c hk
          exact hw.drains.keep (by rw [hw']) hkind
        have hgranted : Tally T w' := by
          refine hw.grant (hcoh.slot_of_split hq) hq hdead hn ?_ ?_ ?_ hdrains ?_
          · rw [hw']
          · rw [hw']
          · rw [hw']
          · rw [hw']
            simp [Event.enroll]
        rw [hres]
        split
        · exact hgranted
        · rename_i hfull
          have hcoh' : Coherent C w' := hcoh.unlink hq (by rw [hw']) (by rw [hw']) (by rw [hw'])
            (by simp) (by simp) (by rw [hw'])
          exact @ih before w' { c with wakes := wakes } hgranted hcoh' (by rw [hw']) hdead
            (by simp [hw']) (by simpa using hfull)
      · -- the counter never panics
        exact absurd (congrArg Prod.snd hacq) (SemaphoreCounter.acquireTotal _ _)

section WithQueue

variable {T : Nat} {k : κ} {w : CounterWorld ι κ W}

variable [DecidableEq κ]

theorem Tally.modifyCall (hw : Tally T w)
    {f : Call ι W SemaphoreCounter → Call ι W SemaphoreCounter} (hf : ∀ c, (f c).kind = c.kind) :
    Tally T (w.modifyCall k f) := by
  rcases hk : w.calls k with _ | c
  · have hnone : w.modifyCall k f = w := by simp [World.modifyCall, hk]
    rw [hnone]
    exact hw
  · rw [World.modifyCall_of_some hk]
    have hkind : (f c).kind = .withQueue := by
      rw [hf]
      exact hw.drains k c hk
    exact hw.frame rfl rfl rfl (hw.drains.keep rfl hkind) rfl

omit [DecidableEq κ] in
theorem Tally.unlock (hw : Tally T w) : Tally T w.unlock :=
  hw.frame rfl rfl rfl hw.drains rfl

theorem withQueueTurn_tally {c : Call ι W SemaphoreCounter} (hw : Tally T w) (hcoh : Coherent C w)
    (hk : w.calls k = some c) (hroom : c.wakes.isFull = false) :
    Tally T (withQueueTurn C k w) := by
  have hcheck : Tally T (check C k w).1 := by
    unfold check
    split
    · exact hw
    · rcases hq : w.inner.queue with _ | queue
      · exact hw
      · exact checkLoop_tally k hw hcoh (by simpa using hq) (by simp) hk hroom
  unfold withQueueTurn
  rcases hres : check C k w with ⟨w', _ | _⟩ <;> rw [hres] at hcheck
  · exact hcheck.unlock.modifyCall fun _ => rfl
  · exact hcheck.unlock.modifyCall fun _ => rfl

/-- The books after a closure passed to `with_queue` are the books after the call. -/
theorem withQueue_tally {own : Option ι} {h : Hand ι SemaphoreCounter}
    {f : CounterWorld ι κ W → CounterWorld ι κ W × Unwind Unit} (hcoh : Coherent C w)
    (hk : w.calls k = none) (hclosure : ClosureMoves C own k h (w.enter k) (f (w.enter k)))
    (hcalm : Calm (withQueue C k w f).log) (hw : Tally T (f (w.enter k)).1) :
    Tally T (withQueue C k w f) := by
  obtain ⟨c, hk', hkind, hwakes, -⟩ := hclosure.call
  have hcoh' : Coherent C (f (w.enter k)).1 :=
    hcoh.moves ((enter_moves k h hk).trans hclosure.moves)
  rw [(withQueue_of_calm hcoh hk hclosure hcalm).2]
  split
  · exact hw.unlock
  · exact withQueueTurn_tally hw hcoh' hk' (by rw [hwakes]; rfl)

theorem Tally.enter (hw : Tally T w) : Tally T (w.enter k) := by
  have hdrains : (w.enter k).Drains := hw.drains.keep rfl rfl
  exact hw.frame rfl rfl rfl hdrains (by simp [World.enter, Event.enroll])

omit [DecidableEq ι] [DecidableEq κ] in
/-- In a run without panics the sum of `add` has not overflown. -/
theorem updateState_add {n : Nat}
    (hcalm : Calm (w.updateState (SemaphoreCounter.add n)).1.log) :
    (w.updateState (SemaphoreCounter.add n)).1 =
      { w with
        inner := { w.inner with state := ⟨w.inner.state.available + n⟩ }
        log := w.log ++ [.updated (.returned ())] } := by
  have hquiet : (SemaphoreCounter.add n w.inner.state).2.isPanicked = false := hcalm.last
  rcases hres : SemaphoreCounter.add n w.inner.state with ⟨state, _ | _⟩
  · obtain ⟨-, rfl⟩ := SemaphoreCounter.add_eq_returned.mp hres
    simp [World.updateState, World.guarded, World.emit, hres]
  · rw [hres] at hquiet
    cases hquiet

omit [DecidableEq ι] [DecidableEq κ] in
theorem callRelease_counter {who : Releaser} {i : ι} {r : Nat}
    (hcalm : Calm (w.callRelease who i r).1.log) :
    (w.callRelease who i r).1 =
      { w with
        inner := { w.inner with state := ⟨w.inner.state.available + r⟩ }
        log := w.log ++ [.released who i r (.returned ())] } := by
  have hrelease : SemaphoreState.release w.inner.state r =
      SemaphoreCounter.add r w.inner.state := rfl
  have hquiet : (SemaphoreState.release w.inner.state r).2.isPanicked = false := hcalm.last
  rcases hres : SemaphoreCounter.add r w.inner.state with ⟨state, _ | _⟩
  · obtain ⟨-, rfl⟩ := SemaphoreCounter.add_eq_returned.mp hres
    simp [World.callRelease, World.guarded, World.emit, hrelease, hres]
  · rw [hrelease, hres] at hquiet
    cases hquiet

/-- A `with_state` call that adds permits. -/
theorem addPermits_tally {n : Nat} (hcoh : Coherent C w) (hk : w.calls k = none)
    (hcalm : Calm (withQueue C k w fun w => w.updateState (SemaphoreCounter.add n)).log)
    (hw : Tally T w) :
    Tally (T + n) (withQueue C k w fun w => w.updateState (SemaphoreCounter.add n)) := by
  have hclosure : ClosureMoves C none k .empty (w.enter k)
      ((w.enter k).updateState (SemaphoreCounter.add n)) := updateState_closure _ (w.enter_call k)
  obtain ⟨hquiet, -⟩ := withQueue_of_calm hcoh hk hclosure hcalm
  apply withQueue_tally hcoh hk hclosure hcalm
  have hstart : Tally T (w.enter k) := hw.enter
  rw [updateState_add hquiet]
  exact hstart.add rfl rfl rfl hstart.drains (by simp [Event.enroll])

/-- The drop of a claimed `Permit`. -/
theorem dropPermit_tally {i : ι} {r : Nat} (hcoh : Coherent C w) (hk : w.calls k = none)
    (hi : w.permits i = some r) (hcalm : Calm (dropPermit C k w i r).log) (hw : Tally T w) :
    Tally T (dropPermit C k w i r) := by
  have hcoh' : Coherent C (w.setPermit i none) := hcoh.frame_inner rfl rfl rfl rfl
  have hclosure : ClosureMoves C none k (.releasing .guard i r) ((w.setPermit i none).enter k)
      (((w.setPermit i none).enter k).callRelease .guard i r) :=
    callRelease_closure .guard i r ((w.setPermit i none).enter_call k)
  obtain ⟨hquiet, -⟩ := withQueue_of_calm hcoh' hk hclosure hcalm
  apply withQueue_tally hcoh' hk hclosure hcalm
  -- a request with a guard has claimed its permit, and leaves with it
  have hguard := hw.agrees i
  rw [hi] at hguard
  obtain ⟨hstage, hx, hagrees⟩ := hguard.of_guard
  have hholds : w.holds i = some r := by
    rw [World.holds, hx, hi]
  rw [callRelease_counter hquiet]
  have hroll : roll (((w.setPermit i none).enter k).log ++
      [.released .guard i r (.returned ())]) = (roll w.log).leave i := by
    simp [World.enter, Event.enroll]
  have hdrains : ((w.setPermit i none).enter k).Drains := hw.drains.keep rfl rfl
  refine hw.giveBack hholds (hx none) rfl (Function.update_eq_self i w.slots).symm rfl hdrains
    ?_ ?_ ?_
  · intro j _
    rw [hroll]
    rfl
  · rw [hroll]
    show Agrees ((roll w.log).stage i) (w.slots i) none
    rw [hstage]
    exact hagrees none
  · rw [survivors, hroll]
    rfl

omit [DecidableEq κ] in
/-- The drop of an `Acquire` that was never linked, or whose permit was claimed. -/
theorem cancelInitial_tally {i : ι} {params : Option Nat} {w' : CounterWorld ι κ W}
    (hcoh : Coherent C w) (hi : w.slots i = .live ⟨.initial, params⟩) (hw : Tally T w)
    (hinner : w'.inner = w.inner) (hslots : w'.slots = Function.update w.slots i .gone)
    (hpermits : w'.permits = w.permits) (hcalls : w'.calls = w.calls)
    (hroll : roll w'.log = (Event.cancelled i : Event ι κ W SemaphoreCounter).enroll (roll w.log)) :
    Tally T w' := by
  have hdrains : w'.Drains := by
    unfold World.Drains
    rw [hcalls]
    exact hw.drains
  have hpermits' : w'.permits = Function.update w.permits i (w.permits i) := by
    rw [hpermits, Function.update_eq_self]
  have hwaiting : w'.waiting = w.waiting := by
    unfold World.waiting
    rw [hinner]
  have hsame : Function.update w.holds i (held .gone (w.permits i)) = w.holds := by
    have hholds : held .gone (w.permits i) = w.holds i := by simp [World.holds, held, hi]
    rw [hholds, Function.update_eq_self]
  cases params with
  | some n =>
    -- the request has not arrived, so it is no survivor
    obtain ⟨hstage, hpermit⟩ := hw.asked hi
    have hfresh : w.holds i = none := by simp [World.holds, held, hi, hpermit]
    have hnot : i ∉ ids w.waiting := by
      intro hmem
      have hlinked := (hcoh.linked i).mp (mem_ids_of_live hmem)
      rw [hi] at hlinked
      cases hlinked
    have hroll' : roll w'.log = ((roll w.log).leave i).setStage i .cancelled := by
      rw [hroll]
      simp [Event.enroll, hstage]
    have hleft : survivors w'.log = survivors w.log := by
      unfold survivors
      rw [hroll']
      exact remove_of_notMem (hw.books.absent hfresh hnot)
    refine hw.transact hslots hpermits' ?_ ?_ ?_ ?_ hdrains ?_
    · intro j hj
      rw [hroll']
      exact Function.update_of_ne hj _ _
    · rw [hroll', hpermit]
      simp only [Roll.setStage, Function.update_self]
      exact .cancelled
    · rw [hinner]
    · rw [hinner]
    · rw [hleft, hwaiting, hinner, hsame]
      exact hw.books
  | none =>
    -- its permit lives on in a guard
    have hstage := hw.claimed hi
    have hroll' : roll w'.log = roll w.log := by
      rw [hroll]
      simp [Event.enroll, hstage]
    refine hw.transact hslots hpermits' ?_ ?_ ?_ ?_ hdrains ?_
    · intro j _
      rw [hroll']
    · rw [hroll', hstage]
      exact .dropped _
    · rw [hinner]
    · rw [hinner]
    · unfold survivors
      rw [hroll', hwaiting, hinner, hsame]
      exact hw.books

/-- The drop of an `Acquire`, whatever has become of its request. -/
theorem dropAcquire_tally {i : ι} {a : Acquire SemaphoreCounter} (hcoh : Coherent C w)
    (hintact : Intact w) (hi : w.slots i = .live a) (hk : w.calls k = none)
    (hcalm : Calm (dropAcquire C k w i a).log) (hw : Tally T w) :
    Tally T (dropAcquire C k w i a) := by
  obtain ⟨n, params⟩ := a
  by_cases hn : n = .initial
  · -- nothing is linked, and `drop` leaves the mutex alone
    subst hn
    cases params with
    | none => exact cancelInitial_tally hcoh hi hw rfl rfl rfl rfl (by simp [dropAcquire])
    | some p =>
      exact cancelInitial_tally hcoh hi hw rfl rfl rfl rfl
        (by simp [dropAcquire, World.dropParams, Event.enroll])
  have hparams : params = none := hcoh.asked i _ hi hn
  subst hparams
  rw [dropAcquire_of_asked k w i hn] at hcalm ⊢
  have hcoh' : Coherent C (w.enter k) := hcoh.enter hk
  have hclosure := dropNode_closure hcoh' hi hn (w.enter_call k)
  obtain ⟨hquiet, -⟩ := withQueue_of_calm hcoh hk hclosure hcalm
  apply withQueue_tally hcoh hk hclosure hcalm
  have hstart : Tally T (w.enter k) := hw.enter
  cases n with
  | initial => exact absurd rfl hn
  | removed r =>
    -- the node holds a permit that nobody has claimed
    obtain ⟨hstage, hpermit, r, rfl⟩ := hw.removed hi
    have hholds : w.holds i = some r := by simp [World.holds, held, hi]
    have hpermits : w.permits = Function.update w.permits i none := by
      rw [← hpermit, Function.update_eq_self]
    rw [dropNode_removed] at hquiet ⊢
    simp only [dropGranted] at hquiet ⊢
    rw [callRelease_counter hquiet]
    have hroll : roll (((((w.enter k).setSlot i .gone).emit (.took i)).emit (.cancelled i)).log ++
        [.released .unclaimed i r (.returned ())]) =
        ((roll w.log).leave i).setStage i .cancelled := by
      simp [World.enter, Event.enroll, hstage]
    refine hw.giveBack hholds rfl rfl rfl hpermits hstart.drains ?_ ?_ ?_
    · intro j hj
      rw [hroll]
      exact Function.update_of_ne hj _ _
    · rw [hroll]
      simp only [Roll.setStage, Function.update_self]
      exact .cancelled
    · rw [survivors, hroll]
      rfl
  | linked =>
    obtain ⟨data, before, after, hq, hres⟩ := dropNode_linked hcoh' hi (w.enter_call k)
    have hmoves : Moves C (some i) (w, .empty) _ := (enter_moves k .empty hk).trans hclosure.moves
    have hlive := (hintact (hmoves.calm hquiet)).2
    obtain ⟨hstage, -⟩ := hw.linked hi
    have hstage' : (roll (w.enter k).log).stage i = .arrived := by
      simpa [World.enter, Event.enroll] using hstage
    have hdrains : (dropNode k i .linked (w.enter k)).1.Drains := by
      rw [hres]
      exact hstart.drains.keep rfl rfl
    rw [hres] at hdrains ⊢
    exact hstart.withdraw hlive hi hq rfl rfl rfl hdrains (by simp [Event.enroll, hstage'])

end WithQueue

/-! ## Polls and try_acquire -/

section Polls

variable {T : Nat} {w : CounterWorld ι κ W}

/-- `acquire_or_enqueue` on an open FIFO queue: granted if nobody waits and there is enough,
otherwise sent to the back. -/
theorem acquireOrEnqueue_fifo (hopen : w.Open C) {queue : WaitList ι W SemaphoreCounter}
    (hq : w.inner.queue = .ok queue) (hfifo : w.inner.order = .fifo) (i : ι) (n : Nat) :
    (queue = [] ∧ n ≤ w.inner.state.available ∧ ∃ es : List (Event ι κ W SemaphoreCounter),
      (∀ c : Roll ι SemaphoreCounter, es.foldl Event.enroll c = c) ∧
      acquireOrEnqueue C w i n true =
        ({ w with
            inner := { w.inner with state := ⟨w.inner.state.available - n⟩ }
            log := w.log ++ es }, .returned (.acquired n))) ∨
    ∃ es : List (Event ι κ W SemaphoreCounter),
      (∀ c : Roll ι SemaphoreCounter, es.foldl Event.enroll c = c) ∧
      acquireOrEnqueue C w i n true =
        ({ w with log := w.log ++ es }, .returned (.enqueue false n)) := by
  have hord : Order.enqueueFront w.inner.order w.inner.len = (w.inner.order, .returned false) := by
    rw [hfifo]
    rfl
  have hconsult : (w.consult i).1 =
      { w with log := w.log ++ [.consulted i w.inner.len (.returned false)] } := by
    simp [World.consult, hord, World.emit]
  have hopened := acquireOrEnqueue_open hopen.1 hopen.2 hq hord i n
  rw [hconsult] at hopened
  cases queue with
  | cons e queue =>
    -- somebody waits already
    refine Or.inr ⟨[.consulted i w.inner.len (.returned false)], fun _ => rfl, ?_⟩
    rw [hopened]
    rfl
  | nil =>
    have hlead : acquireOrEnqueue C w i n true =
        lead { w with log := w.log ++ [.consulted i w.inner.len (.returned false)] } i n false :=
      hopened
    rcases hacq : SemaphoreState.acquire w.inner.state n with ⟨state, (m | r) | _⟩
    · -- too few permits are left
      obtain ⟨-, rfl, rfl⟩ := SemaphoreCounter.acquire_eq_error.mp hacq
      refine Or.inr ⟨[.consulted i w.inner.len (.returned false),
        .acquired i m (.returned (.error m))], fun _ => rfl, ?_⟩
      rw [hlead]
      simp [lead, World.callAcquire, World.guarded, World.emit, hacq]
    · obtain ⟨hn, rfl, rfl⟩ := SemaphoreCounter.acquire_eq_ok.mp hacq
      refine Or.inl ⟨rfl, hn, [.consulted i w.inner.len (.returned false),
        .acquired i r (.returned (.ok r))], fun _ => rfl, ?_⟩
      rw [hlead]
      simp [lead, World.callAcquire, World.guarded, World.emit, hacq]
    · exact absurd (congrArg Prod.snd hacq) (SemaphoreCounter.acquireTotal _ _)

/-- The first poll of a request: it is granted at once, or it joins the queue. -/
theorem pollFirst_tally {i : ι} {n : Nat} (hcoh : Coherent C w) (hopen : w.Open C)
    (hi : w.slots i = .live ⟨.initial, some n⟩) (cx : W) (calls : WakerCalls)
    (hcalm : Calm (wrapPoll i cx
      (pollFirst C (w.lock.setSlot i (.live ⟨.initial, none⟩)) i n cx calls)).log)
    (hw : Tally T w) :
    Tally T (wrapPoll i cx
      (pollFirst C (w.lock.setSlot i (.live ⟨.initial, none⟩)) i n cx calls)) := by
  obtain ⟨hstage, hpermit⟩ := hw.asked hi
  have hfresh : w.holds i = none := by simp [World.holds, held, hi, hpermit]
  obtain ⟨queue, hq⟩ := hcoh.queue_of_open hopen.2
  set w₀ := w.lock.setSlot i (.live ⟨.initial, none⟩) with hw₀
  have hopen₀ : w₀.Open C := hopen
  rcases acquireOrEnqueue_fifo hopen₀ hq hw.fifo i n with
    ⟨hnil, hn, es, hes, hres⟩ | ⟨es, hes, hres⟩
  · -- granted at once
    subst hnil
    simp only [pollFirst, hres, wrapPoll]
    refine hw.admit hfresh (QueueState.entries_of_queue hq) hn (Or.inr rfl) rfl rfl rfl
      hw.drains ?_
    simp [hw₀, hes, Event.enroll, hstage]
  · have hq₀ : w₀.inner.queue = .ok queue := hq
    simp only [pollFirst, hres, hq₀] at hcalm ⊢
    rcases hclone : calls.clone with _ | _
    · -- queued
      have hslot : w₀.slots i = .live ⟨.initial, none⟩ := by simp [hw₀]
      simp only [link, World.emit_slots, hslot, wrapPoll]
      refine hw.join hcoh hi hq rfl (Function.update_idem ..) rfl hw.drains ?_
      simp [hw₀, hes, Event.enroll, hstage]
    · -- the clone of the waker has panicked
      rw [hclone] at hcalm
      have hquiet := hcalm (.cloned cx .panicked) (by simp [wrapPoll, World.dropParams])
      cases hquiet

/-- A later poll: the permit moves from the node to the guard, or a waker is replaced. -/
theorem pollAgain_tally [DecidableEq W]
    {i : ι} {n : Node (Removed SemaphoreCounter)} (hcoh : Coherent C w)
    (hopen : w.Open C) (hi : w.slots i = .live ⟨n, none⟩) (hn : n ≠ .initial) (cx : W)
    (calls : WakerCalls) (hw : Tally T w) :
    Tally T (wrapPoll i cx (pollAgain C w.lock i n cx calls)) := by
  cases n with
  | initial => exact absurd rfl hn
  | removed r =>
    -- the permit was granted while the request was in the queue
    obtain ⟨hstage, hpermit, r, rfl⟩ := hw.removed hi
    rw [pollAgain_removed]
    have hnode : w.lock.setNode i .initial = w.lock.setSlot i (.live ⟨.initial, none⟩) :=
      World.setNode_of_live hi
    simp only [pollTake, Node.takeRemoved, hnode, wrapPoll]
    have hroll : roll ((w.log ++ [.took i]) ++ [.polled i cx (.returned (.ready (.ok r)))]) =
        (roll w.log).setStage i .claimed := by
      simp [Event.enroll, hstage]
    have hholds : held (.live ⟨.initial, none⟩) (some r) = w.holds i := by
      simp [World.holds, held, hi]
    refine hw.transact (i := i) rfl rfl ?_ ?_ rfl rfl hw.drains ?_
    · intro j hj
      show (roll ((w.log ++ [.took i]) ++ [.polled i cx _])).stage j = _
      rw [hroll]
      exact Function.update_of_ne hj _ _
    · show Agrees ((roll ((w.log ++ [.took i]) ++ [.polled i cx _])).stage i) _ _
      rw [hroll]
      simp only [Roll.setStage, Function.update_self]
      exact .claimed _
    · show Books T (roll ((w.log ++ [.took i]) ++ [.polled i cx _])).survivors w.waiting _ _
      rw [hroll, hholds, Function.update_eq_self]
      exact hw.books
  | linked =>
    obtain ⟨hstage, -⟩ := hw.linked hi
    obtain ⟨before, data, after, hq, hlookup, -⟩ := hcoh.linked_split hi
    have hagain : pollAgain C w.lock i .linked cx calls =
        pollSpurious w.lock i (before ++ (i, data) :: after) data cx calls := by
      simp [pollAgain, hq, hopen.2, Node.protectedMut, hlookup]
    rw [hagain]
    unfold pollSpurious
    -- the books do not see wakers: only the stored one may change
    split
    · exact hw.frame rfl rfl rfl hw.drains (by simp [wrapPoll, Event.enroll, hstage])
    · rcases calls.clone with _ | _
      · have hset : setProtected (before ++ (i, data) :: after) i (data.1, cx) =
            before ++ (i, data.1, cx) :: after := setProtected_split (hcoh.nodup_of_queue hq)
        have hwaiting : live (before ++ (i, data.1, cx) :: after) = w.waiting := by
          unfold World.waiting
          rw [QueueState.entries_of_queue hq, live_append, live_append]
          rfl
        simp only [hset]
        rcases calls.drop with _ | _
        all_goals
          refine hw.keep hwaiting rfl rfl rfl rfl rfl hw.drains ?_
          simp [wrapPoll, World.dropWaker, Event.enroll, hstage]
      · exact hw.frame rfl rfl rfl hw.drains (by simp [wrapPoll, Event.enroll, hstage])

theorem pollAcquire_tally [DecidableEq W]
    {i : ι} {a : Acquire SemaphoreCounter} (hcoh : Coherent C w)
    (hopen : w.Open C) (hi : w.slots i = .live a) (cx : W) (calls : WakerCalls)
    (hcalm : Calm (pollAcquire C w i a cx calls).log) (hw : Tally T w) :
    Tally T (pollAcquire C w i a cx calls) := by
  obtain ⟨n, params⟩ := a
  by_cases hn : n = .initial
  · subst hn
    cases params with
    | none =>
      have hstage := hw.claimed hi
      exact hw.frame rfl rfl rfl hw.drains
        (by simp [pollAcquire, poll, wrapPoll, Event.enroll, hstage])
    | some p => exact pollFirst_tally hcoh hopen hi cx calls hcalm hw
  · have hparams : params = none := hcoh.asked i _ hi hn
    subst hparams
    rw [pollAcquire, poll_of_asked w i hn cx calls]
    exact pollAgain_tally hcoh hopen hi hn cx calls hw

/-- A fair `try_acquire` is granted at once, or leaves no trace. -/
theorem tryAcquire_tally {i : ι} {n : Nat} (hcoh : Coherent C w) (hopen : w.Open C)
    (hi : w.slots i = .unborn) (hw : Tally T w) : Tally T (tryAcquirePermit C w i n true) := by
  obtain ⟨hstage, hpermit⟩ := hw.unborn hi
  have hfresh : w.holds i = none := by simp [World.holds, held, hi, hpermit]
  obtain ⟨queue, hq⟩ := hcoh.queue_of_open hopen.2
  have hopen' : (w.setSlot i .gone).lock.Open C := hopen
  rcases acquireOrEnqueue_fifo hopen' hq hw.fifo i n with
    ⟨hnil, hn, es, hes, hres⟩ | ⟨es, hes, hres⟩
  · -- granted
    subst hnil
    simp only [tryAcquirePermit, tryAcquire, hres, wrapTry]
    refine hw.admit hfresh (QueueState.entries_of_queue hq) hn (Or.inl rfl) rfl rfl rfl
      hw.drains ?_
    simp [hes, Event.enroll]
  · -- refused, which leaves the name behind
    simp only [tryAcquirePermit, tryAcquire, hres, wrapTry]
    have hroll : roll ((w.log ++ es) ++
        [.tried i n (.returned (.error (.noPermits n)))]) = roll w.log := by
      simp [hes, Event.enroll]
    have hpermits : w.permits = Function.update w.permits i none := by
      rw [← hpermit, Function.update_eq_self]
    refine hw.transact (i := i) rfl hpermits ?_ ?_ rfl rfl hw.drains ?_
    · intro j _
      show (roll ((w.log ++ es) ++ [.tried i n _])).stage j = _
      rw [hroll]
    · show Agrees ((roll ((w.log ++ es) ++ [.tried i n _])).stage i) _ _
      rw [hroll, hstage]
      exact .refused
    · show Books T (roll ((w.log ++ es) ++ [.tried i n _])).survivors w.waiting
        (Function.update w.holds i none) _
      rw [hroll, ← hfresh, Function.update_eq_self]
      exact hw.books

end Polls

/-! ## Runs -/

variable [DecidableEq κ]

/-- What happens in the runs considered here: futures are made, polled and dropped, permits are
tried for, added and dropped, and calls go on. -/
inductive CounterOp (ι κ W : Type) where
  | acquire (i : ι) (n : Nat)
  | poll (i : ι) (cx : W) (calls : WakerCalls)
  | tryAcquire (i : ι) (n : Nat)
  | addPermits (k : κ) (n : Nat)
  | dropAcquire (k : κ) (i : ι)
  | dropPermit (k : κ) (i : ι)
  | resume (k : κ)
  | wake (k : κ) (res : Unwind Unit)
  | finish (k : κ) (drop : Unwind Unit)

namespace CounterOp

def action : CounterOp ι κ W → Action ι κ W SemaphoreCounter
  | .acquire i n => .acquire i n
  | .poll i cx calls => .poll i cx calls
  | .tryAcquire i n => .tryAcquire i n true
  | .addPermits k n => .withState k (SemaphoreCounter.add n)
  | .dropAcquire k i => .dropAcquire k i
  | .dropPermit k i => .dropPermit k i
  | .resume k => .resume k
  | .wake k res => .wake k res
  | .finish k drop => .finish k drop

/-- The permits that a step adds. -/
def added : CounterOp ι κ W → Nat
  | .addPermits _ n => n
  | _ => 0

/-- The permits that a run adds. -/
def addedBy : List (CounterOp ι κ W) → Nat
  | [] => 0
  | op :: ops => op.added + addedBy ops

omit [DecidableEq ι] [DecidableEq κ] in
theorem addedBy_snoc (ops : List (CounterOp ι κ W)) (op : CounterOp ι κ W) :
    addedBy (ops ++ [op]) = addedBy ops + op.added := by
  induction ops with
  | nil => simp [addedBy]
  | cons op' ops ih =>
    rw [List.cons_append, addedBy, addedBy, ih]
    omega

end CounterOp

theorem wakeNext_tally {T : Nat} {w w' : CounterWorld ι κ W} {k : κ}
    {c : Call ι W SemaphoreCounter} (hk : w.calls k = some c) {res : Unwind Unit}
    (h : wakeNext k w c res = some w') (hw : Tally T w) : Tally T w' := by
  unfold wakeNext at h
  rcases hpop : c.wakes.pop with _ | ⟨⟨i, x⟩, rest⟩ <;> rw [hpop] at h
  · cases h
  · have hdrains (c' : Call ι W SemaphoreCounter) (hkind : c'.kind = c.kind) :
        ((w.emit (.woke k i x w.locked res)).setCall k (some c')).Drains :=
      hw.drains.keep rfl (hkind.trans (hw.drains k c hk))
    rcases res with _ | _ <;> rcases hunw : c.unwinding with _ | _ <;>
      simp only [hunw, reduceCtorEq, Option.some.injEq] at h
    all_goals
      subst h
      exact hw.frame rfl rfl rfl (hdrains _ rfl) (by simp [Event.enroll])

theorem finish_tally {T : Nat} {w w' : CounterWorld ι κ W} {k : κ}
    {c : Call ι W SemaphoreCounter} {res : Unwind Unit} (h : finish k w c res = some w')
    (hw : Tally T w) : Tally T w' := by
  obtain ⟨-, ended, -, rfl⟩ := finish_eq_some h
  have hdrop : Tally T (dropAbandoned w res c.abandoned) := by
    rcases c.abandoned with _ | ⟨⟨_ | p, x⟩⟩ | ⟨⟨_ | p⟩ | r⟩
    all_goals
      refine hw.frame rfl rfl rfl hw.drains ?_
      simp [dropAbandoned, World.dropParams, World.dropWaker, Event.enroll]
  exact hdrop.frame rfl rfl rfl (hdrop.drains.finish rfl) (by simp [Event.enroll])

variable [DecidableEq W]

/-- **A step keeps the books.** -/
theorem step_tally {T : Nat} {w w' : CounterWorld ι κ W} (hs : Settled C w)
    (hintact : Intact w) {op : CounterOp ι κ W} (h : step C w op.action = some w')
    (hcalm : Calm w'.log) (hw : Tally T w) : Tally (T + op.added) w' := by
  have hcoh := hs.coherent
  -- no panic so far: the queue is neither poisoned nor closed
  have hpoison := (hintact ((step_moves hs h).1.calm hcalm)).1
  have hopen : w.Open C := ⟨hpoison, by simp [QueueState.closing, hw.admits]⟩
  cases op with
  | acquire i n =>
    cases step_cases h with
    | acquire _ _ hi =>
      obtain ⟨hstage, hpermit⟩ := hw.unborn hi
      have hfresh : w.holds i = none := by simp [World.holds, held, hi, hpermit]
      have hpermits : w.permits = Function.update w.permits i none := by
        rw [← hpermit, Function.update_eq_self]
      have hroll : roll (w.log ++ [.created i n]) = (roll w.log).setStage i (.asked n) := by
        simp [Event.enroll]
      refine hw.transact (i := i) rfl hpermits ?_ ?_ rfl rfl hw.drains ?_
      · intro j hj
        show (roll (w.log ++ [.created i n])).stage j = _
        rw [hroll]
        exact Function.update_of_ne hj _ _
      · show Agrees ((roll (w.log ++ [.created i n])).stage i) _ _
        rw [hroll]
        simp only [Roll.setStage, Function.update_self]
        exact .asked _
      · show Books T (roll (w.log ++ [.created i n])).survivors w.waiting
          (Function.update w.holds i none) _
        rw [hroll, ← hfresh, Function.update_eq_self]
        exact hw.books
  | poll i cx calls =>
    cases step_cases h with
    | poll _ a _ _ hi => exact pollAcquire_tally hcoh hopen hi cx calls hcalm hw
  | tryAcquire i n =>
    cases step_cases h with
    | tryAcquire _ _ _ hi => exact tryAcquire_tally hcoh hopen hi hw
  | addPermits k n =>
    cases step_cases h with
    | withState _ _ hk => exact addPermits_tally hcoh hk hcalm hw
  | dropAcquire k i =>
    cases step_cases h with
    | dropAcquire _ _ a hi hk => exact dropAcquire_tally hcoh hintact hi hk hcalm hw
  | dropPermit k i =>
    cases step_cases h with
    | dropPermit _ _ r hi hk => exact dropPermit_tally hcoh hk hi hcalm hw
  | resume k =>
    cases step_cases h with
    | resume _ c hk hwakes hunw hmore =>
      have hroom : c.wakes.isFull = false := WakeBatch.not_isFull_of_nil hwakes
      have hentered : Tally T (w.lock.emit (.entered k .withQueue)) :=
        hw.frame rfl rfl rfl hw.drains (by simp [Event.enroll])
      have hcoh' : Coherent C (w.lock.emit (.entered k .withQueue)) :=
        hcoh.frame_inner rfl rfl rfl rfl
      simp only [resume, hw.drains k c hk]
      exact withQueueTurn_tally hentered hcoh' hk hroom
  | wake k res =>
    cases step_cases h with
    | wake _ c _ _ hk hwake => exact wakeNext_tally hk hwake hw
  | finish k drop =>
    cases step_cases h with
    | finish _ c _ _ hk hend => exact finish_tally hend hw

theorem run_tally {initial : Nat} {ops : List (CounterOp ι κ W)} {w : CounterWorld ι κ W}
    (h : run C (⟨initial⟩ : SemaphoreCounter) .fifo (ops.map CounterOp.action) = some w)
    (hcalm : Calm w.log) : Tally (initial + CounterOp.addedBy ops) w := by
  induction ops using List.reverseRecOn generalizing w with
  | nil =>
    cases h
    constructor
    case agrees =>
      intro i
      exact .unborn
    case fifo => rfl
    case admits => rfl
    case drains =>
      intro k c hk
      cases hk
    case books => exact Books.start initial
  | append_singleton ops op ih =>
    rw [List.map_append] at h
    obtain ⟨u, hu, hstep⟩ := Transition.exec_snoc_eq_some.mp h
    have hreach : Reachable C ⟨initial⟩ .fifo u := Transition.reachable_iff_exec.mpr ⟨_, hu⟩
    have hsettled := Reachable.settled hreach
    have hbefore := ih hu ((step_moves hsettled hstep).1.calm hcalm)
    have hafter := step_tally hsettled (Reachable.intact hreach) hstep hcalm hbefore
    rwa [CounterOp.addedBy_snoc, ← Nat.add_assoc]

/-- The state of the semaphore is determined by the total of permits and the survivors. -/
structure Canonical (T : Nat) (w : CounterWorld ι κ W) : Prop where
  /-- Those who hold permits are the longest initial segment of the survivors that fits. -/
  granted : Longest T (survivors w.log) ((survivors w.log).filter fun e => (w.holds e.1).isSome)
  /-- The list holds the others, with their params. -/
  waiting : w.inner.entries.map (fun e => (e.1, e.2.1)) =
    ((survivors w.log).filter fun e => (w.holds e.1).isNone).map fun e => (e.1, some e.2)
  /-- The rest of the permits is available. -/
  available : w.inner.state.available =
    T - total ((survivors w.log).filter fun e => (w.holds e.1).isSome)

/-- **The FIFO counting semaphore is in its canonical state** whenever no operation is in
progress: for every run without panics, the state is the one that serving the survivors
greedily, in order of arrival, leaves. -/
theorem fifo_counter_canonical {initial : Nat} {ops : List (CounterOp ι κ W)}
    {w : CounterWorld ι κ W}
    (h : run C (⟨initial⟩ : SemaphoreCounter) .fifo (ops.map CounterOp.action) = some w)
    (hcalm : Calm w.log) (hquiet : Quiescent w) :
    Canonical (initial + CounterOp.addedBy ops) w := by
  have htally := run_tally h hcalm
  have hreach : Reachable C ⟨initial⟩ .fifo w := Transition.reachable_iff_exec.mpr ⟨_, h⟩
  have hopen : w.inner.closing C = false := by simp [QueueState.closing, htally.admits]
  have hhead : HeadRefused w.inner :=
    (Reachable.attended SemaphoreCounter.acquireTotal SemaphoreCounter.refusalKeepsState
      SemaphoreCounter.returnsParams SemaphoreCounter.grantKeepsRefusals hreach hcalm
      hopen).headRefused hquiet
  -- every entry is live, so the books list the whole queue
  have hlive := (Reachable.intact hreach hcalm).2
  have hwaiting : w.inner.entries.map (fun e => (e.1, e.2.1)) =
      w.waiting.map fun e => (e.1, some e.2) := live_map hlive
  -- no operation is in progress, so the first waiter does not fit into what is available
  have hnext : ∀ e rest, w.waiting = e :: rest → w.inner.state.available < e.2 := by
    intro e rest hcons
    rw [hcons] at hwaiting
    obtain ⟨e', rest', hentries, hhead', -⟩ := List.map_eq_cons_iff.mp hwaiting
    obtain ⟨p, hp, _, _, hrefused⟩ := hhead e' rest' hentries
    have hsize : e'.2.1 = some e.2 := (Prod.mk.inj hhead').2
    have hpe : p = e.2 := Option.some.inj (hp.symm.trans hsize)
    have hlt := (SemaphoreCounter.acquire_eq_error.mp hrefused).1
    rwa [hpe] at hlt
  obtain ⟨hgranted, hothers, hsum⟩ := htally.books.canonical hnext
  constructor
  case granted => exact hgranted
  case waiting =>
    rw [hwaiting]
    exact congrArg (List.map fun e => (e.1, some e.2)) hothers
  case available => exact (Nat.sub_eq_of_eq_add hsum.symm).symm

/-- A permit is claimed and dropped, one is granted from the queue, and a third request waits. -/
theorem fifo_counter_canonical_of_three :
    ∃ w : CounterWorld Nat Unit Nat,
      run .uncloseable (⟨1⟩ : SemaphoreCounter) .fifo
        (([.acquire 0 1, .poll 0 7 .quiet, .acquire 1 2, .poll 1 8 .quiet, .acquire 2 5,
          .poll 2 9 .quiet, .addPermits () 2, .wake () (.returned ()), .finish () (.returned ()),
          .dropPermit () 0, .finish () (.returned ())] :
          List (CounterOp Nat Unit Nat)).map CounterOp.action) = some w ∧
      Canonical 3 w := by
  apply exists_run_of_test _ (fun w => decide (Calm w.log) && (w.calls ()).isNone) rfl
  intro w hrun htest
  simp only [Bool.and_eq_true, decide_eq_true_eq, Option.isNone_iff_eq_none] at htest
  have hquiet : Quiescent w := by
    intro k
    exact htest.2
  exact fifo_counter_canonical hrun htest.1 hquiet

end FlagBearer
