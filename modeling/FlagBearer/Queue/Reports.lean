import FlagBearer.Queue.CloseBound
import FlagBearer.Queue.Drain

/-!
# What a Step Reports, and What It Costs

The log tells the user's part of a run, what was asked and what was answered, among everything
that the library does inside. A step reports exactly what its action says: the library never
answers twice, never answers for another request, and runs no closure of its own accord. On the
way to this, every lock section is measured: how often it calls `S::acquire`, how many nodes join
the list, and how many wakers a call is left with.

## Main results

- `withQueueTurn_collects`, `closeTurn_collects`: the lock sections of calls
- `step_reports`: the statement about steps
-/

namespace FlagBearer

open PinList Pass

variable {ι κ W S O : Type} [SemaphoreState S] {C : Closeability}

/-! ## Reports -/

/-- Is this something that the user did, or was told? -/
def Event.outward : Event ι κ W S → Bool
  | .created _ _ => true
  | .polled _ _ _ => true
  | .tried _ _ _ => true
  | .updated _ => true
  | .conjured _ _ => true
  | .taken _ _ => true
  | .cleared => true
  | _ => false

/-- The user's part of a history. -/
def reports (log : List (Event ι κ W S)) : List (Event ι κ W S) := log.filter Event.outward

@[simp] theorem reports_nil : reports ([] : List (Event ι κ W S)) = [] := rfl

@[simp] theorem reports_append (log es : List (Event ι κ W S)) :
    reports (log ++ es) = reports log ++ reports es := List.filter_append _ _

/-- The library's own work: a call of `S::acquire` is counted, the other events are free. -/
def Event.isFree (e : Event ι κ W S) : Bool := !e.outward && e.acquired?.isNone

theorem Event.isFree_iff {e : Event ι κ W S} :
    e.isFree = true ↔ e.outward = false ∧ e.acquired? = none := by
  simp [isFree]

theorem free_events {es : List (Event ι κ W S)} (h : ∀ e ∈ es, e.isFree = true) :
    reports es = [] ∧ acquisitions es = [] := by
  refine ⟨List.filter_eq_nil_iff.mpr fun e he => ?_, List.filterMap_eq_nil_iff.mpr fun e he => ?_⟩
  · simp [(Event.isFree_iff.mp (h e he)).1]
  · exact (Event.isFree_iff.mp (h e he)).2

/-! ## Sections that belong to no call -/

/-- Nothing is reported, `S::acquire` is called at most `asks` times, and at most `joins` nodes
join the list. -/
structure Within (asks joins : Nat) (w w' : World ι κ W S O) : Prop where
  events : ∃ es, w'.log = w.log ++ es ∧ reports es = [] ∧ (acquisitions es).length ≤ asks
  list : w'.inner.entries.length ≤ w.inner.entries.length + joins

namespace Within

variable {asks joins asks' joins' : Nat} {w w' w'' : World ι κ W S O}

@[refl] theorem refl (w : World ι κ W S O) : Within 0 0 w w :=
  ⟨⟨[], by simp, rfl, Nat.le_refl 0⟩, Nat.le_refl _⟩

theorem mono (h : Within asks joins w w') (hasks : asks ≤ asks') (hjoins : joins ≤ joins') :
    Within asks' joins' w w' := by
  obtain ⟨es, hlog, hnone, hle⟩ := h.events
  have hlist := h.list
  exact ⟨⟨es, hlog, hnone, by omega⟩, by omega⟩

theorem trans (h : Within asks joins w w') (h' : Within asks' joins' w' w'') :
    Within (asks + asks') (joins + joins') w w'' := by
  obtain ⟨es, hlog, hnone, hle⟩ := h.events
  obtain ⟨es', hlog', hnone', hle'⟩ := h'.events
  have hlist := h.list
  have hlist' := h'.list
  refine ⟨⟨es ++ es', by rw [hlog', hlog, List.append_assoc], by simp [hnone, hnone'], ?_⟩, ?_⟩
  · rw [acquisitions_append, List.length_append]
    omega
  · omega

/-- More that records nothing. -/
theorem congr (h : Within asks joins w w') (hlog : w''.log = w'.log)
    (hlist : w''.inner.entries.length ≤ w'.inner.entries.length) : Within asks joins w w'' := by
  obtain ⟨es, hlog', hnone, hle⟩ := h.events
  exact ⟨⟨es, by rw [hlog, hlog'], hnone, hle⟩, Nat.le_trans hlist h.list⟩

/-- A free event. -/
theorem emit (h : Within asks joins w w') {e : Event ι κ W S} (he : e.isFree = true) :
    Within asks joins w (w'.emit e) := by
  have hevents : ∀ e' ∈ [e], e'.isFree = true := by simpa using he
  obtain ⟨hnone, hfree⟩ := free_events hevents
  have hrecord : Within 0 0 w' (w'.emit e) :=
    ⟨⟨[e], rfl, hnone, by rw [hfree]; exact Nat.le_refl 0⟩, Nat.le_refl _⟩
  exact h.trans hrecord

theorem setNode [DecidableEq ι] (h : Within asks joins w w') (i : ι) (n : Node (Removed S)) :
    Within asks joins w (w'.setNode i n) := by
  unfold World.setNode
  split
  · exact h.congr rfl (Nat.le_refl _)
  · exact h

theorem decLen (h : Within asks joins w w') : Within asks joins w w'.decLen := by
  unfold World.decLen
  split
  · exact h.emit rfl
  · exact h.congr rfl (Nat.le_refl _)

end Within

theorem lead_within {asks joins : Nat} {w₀ w : World ι κ W S O} (h : Within asks joins w₀ w)
    (i : ι) (p : Params S) (front : Bool) :
    Within (asks + 1) joins w₀ (lead w i p front).1 := by
  have hask : Within 1 0 w (w.callAcquire i p).1 :=
    ⟨⟨[.acquired i p _], rfl, rfl, Nat.le_refl 1⟩, Nat.le_refl _⟩
  have hacq := h.trans hask
  unfold lead
  rcases hcall : w.callAcquire i p with ⟨w', (_ | _) | _⟩
  all_goals
    rw [hcall] at hacq
    exact hacq

theorem acquireOrEnqueue_within [Order O]
    (w : World ι κ W S O) (i : ι) (p : Params S) (fair : Bool) :
    Within 1 0 w (acquireOrEnqueue C w i p fair).1 := by
  have hnothing : Within 1 0 w w := (Within.refl w).mono (Nat.zero_le 1) (Nat.le_refl 0)
  have err : Within 1 0 w (newErr C w p).1 := by
    cases C with
    | closeable => exact hnothing
    | uncloseable => exact hnothing.emit rfl
  unfold acquireOrEnqueue
  split
  · exact hnothing
  · split
    · exact err
    · split
      · exact err
      · cases fair with
        | false => simpa using lead_within (Within.refl w) i p true
        | true =>
          -- the order is asked first
          have hasked : Within 0 0 w
              ({ w with inner := { w.inner with
                order := (Order.enqueueFront w.inner.order w.inner.len).1 } } : World ι κ W S O) :=
            (Within.refl w).congr rfl (Nat.le_refl _)
          have hconsult : Within 0 0 w (w.consult i).1 := hasked.emit rfl
          have hmore := hconsult.mono (Nat.zero_le 1) (Nat.le_refl 0)
          simp only [if_true]
          rcases hres : w.consult i with ⟨w', front | _⟩
          · rw [hres] at hconsult hmore
            simp only
            split
            · exact hmore
            · exact lead_within hconsult i p front
          · rw [hres] at hmore
            exact hmore.emit rfl

theorem link_within [DecidableEq ι]
    {asks : Nat} {w₀ w : World ι κ W S O} (h : Within asks 0 w₀ w) (i : ι)
    {queue : WaitList ι W S} (hq : w.inner.queue = .ok queue) (p : Params S) (cx : W)
    (front : Bool) : Within asks 1 w₀ (link w i queue p cx front) := by
  have hjoin : Within 0 1 w (link w i queue p cx front) := by
    unfold link
    split
    · refine ⟨⟨[.linked i cx front], rfl, rfl, Nat.le_refl 0⟩, ?_⟩
      rw [QueueState.entries_of_queue hq]
      cases front <;> simp [pushFront, pushBack]
    · exact ((Within.refl w).emit rfl).mono (Nat.le_refl 0) (Nat.zero_le 1)
  exact h.trans hjoin

theorem pollFirst_within [DecidableEq ι] [Order O]
    (w : World ι κ W S O) (i : ι) (p : Params S) (cx : W)
    (calls : WakerCalls) : Within 1 1 w (pollFirst C w i p cx calls).1 := by
  have hadmit := acquireOrEnqueue_within (C := C) w i p true
  have hmore := hadmit.mono (Nat.le_refl 1) (Nat.zero_le 1)
  unfold pollFirst
  rcases hres : acquireOrEnqueue C w i p true with ⟨w', (r | q | q | ⟨front, q⟩) | _⟩
  all_goals rw [hres] at hadmit hmore
  · exact hmore.congr rfl (Nat.le_refl _)
  · exact hmore.congr rfl (Nat.le_refl _)
  · have hdropped : Within 1 1 w (w'.dropParams q) := hmore.emit rfl
    exact hdropped.congr rfl (Nat.le_refl _)
  · -- queued, unless the clone of the waker panics
    simp only
    rcases hq : w'.inner.queue with _ | queue
    · exact hmore.emit rfl
    · rcases calls.clone with _ | _
      · have hcloned : Within 1 0 w (w'.emit (.cloned cx (.returned ()))) := hadmit.emit rfl
        exact (link_within hcloned i hq q cx front).congr rfl (Nat.le_refl _)
      · have hcloned : Within 1 1 w (w'.emit (.cloned cx .panicked)) := hmore.emit rfl
        have hdropped : Within 1 1 w ((w'.emit (.cloned cx .panicked)).dropParams q) :=
          hcloned.emit rfl
        exact hdropped.congr rfl (Nat.le_refl _)
  · exact hmore.congr rfl (Nat.le_refl _)

theorem pollTake_within [DecidableEq ι] {w₀ w : World ι κ W S O} (h : Within 0 0 w₀ w) (i : ι)
    (node : Node (Removed S)) : Within 0 0 w₀ (pollTake w i node).1 := by
  unfold pollTake
  rcases node.takeRemoved with _ | removed
  · exact h.emit rfl
  · have htook : Within 0 0 w₀ ((w.setNode i .initial).emit (.took i)) :=
      (h.setNode i .initial).emit rfl
    rcases removed with (_ | p) | r
    all_goals exact htook.congr rfl (Nat.le_refl _)

theorem pollUnlinked_within [DecidableEq ι] {w₀ w : World ι κ W S O} (h : Within 0 0 w₀ w) (i : ι)
    (data : Protected W S) {queue : WaitList ι W S}
    (hqueue : queue.length ≤ w.inner.entries.length) (calls : WakerCalls) :
    Within 0 0 w₀ (pollUnlinked w i data queue calls).1 := by
  have hlist : Within 0 0 w₀ (w.setList queue) := h.congr rfl hqueue
  have hunlinked := ((hlist.setNode i .initial).emit (e := .unlinked i) rfl).decLen
  have hfree : Within 0 0 w₀
      (((w.setList queue).setNode i .initial).emit (.unlinked i)).decLen.unlock :=
    hunlinked.congr rfl (Nat.le_refl _)
  have hdropped : Within 0 0 w₀ ((((w.setList queue).setNode i .initial).emit
      (.unlinked i)).decLen.unlock.dropWaker data.2 calls.drop) := hfree.emit rfl
  unfold pollUnlinked
  rcases data with ⟨_ | p, x⟩ <;> rcases hdrop : calls.drop with _ | _ <;> rw [hdrop] at hdropped
  · exact hdropped
  · exact hdropped
  · exact hdropped
  · exact hdropped.emit (e := .droppedParams p false) rfl

theorem pollSpurious_within [DecidableEq ι] [DecidableEq W]
    {w₀ w : World ι κ W S O} (h : Within 0 0 w₀ w) (i : ι)
    {queue : WaitList ι W S} (hqueue : queue.length ≤ w.inner.entries.length)
    (data : Protected W S) (cx : W) (calls : WakerCalls) :
    Within 0 0 w₀ (pollSpurious w i queue data cx calls).1 := by
  unfold pollSpurious
  split
  · exact h.congr rfl (Nat.le_refl _)
  · rcases calls.clone with _ | _
    · have hcloned : Within 0 0 w₀ (w.emit (.cloned cx (.returned ()))) := h.emit rfl
      have hlist : Within 0 0 w₀ ((w.emit (.cloned cx (.returned ()))).setList
          (queue.setProtected i (data.1, cx))) :=
        hcloned.congr rfl ((List.length_map _).trans_le hqueue)
      have hdropped : Within 0 0 w₀ (((w.emit (.cloned cx (.returned ()))).setList
          (queue.setProtected i (data.1, cx))).dropWaker data.2 calls.drop) := hlist.emit rfl
      rcases hdrop : calls.drop with _ | _ <;> rw [hdrop] at hdropped
      · exact hdropped.congr rfl (Nat.le_refl _)
      · exact hdropped.congr rfl (Nat.le_refl _)
    · have hcloned : Within 0 0 w₀ (w.emit (.cloned cx .panicked)) := h.emit rfl
      exact hcloned.congr rfl (Nat.le_refl _)

theorem pollAgain_within [DecidableEq ι] [DecidableEq W]
    {w₀ w : World ι κ W S O} (h : Within 0 0 w₀ w) (i : ι)
    (node : Node (Removed S)) (cx : W) (calls : WakerCalls) :
    Within 0 0 w₀ (pollAgain C w i node cx calls).1 := by
  unfold pollAgain
  split
  · exact pollTake_within h i node
  · rename_i queue hq
    have hentries := QueueState.entries_of_queue hq
    split
    · rename_i data rest hunlink
      refine pollUnlinked_within h i data ?_ calls
      -- what is left is a part of the list
      split at hunlink
      · cases node with
        | linked =>
          obtain ⟨_, -, hrest⟩ := Option.map_eq_some_iff.mp hunlink
          rw [hentries, ← (Prod.mk.inj hrest).2]
          exact List.length_filter_le ..
        | _ => cases hunlink
      · cases hunlink
    · split
      · exact pollSpurious_within h i (by rw [hentries]) _ cx calls
      · exact pollTake_within h i node

theorem poll_within [DecidableEq ι] [DecidableEq W] [Order O]
    (w : World ι κ W S O) (i : ι) (a : Acquire S) (cx : W)
    (calls : WakerCalls) : Within 1 1 w (poll C w i a cx calls).1 := by
  have hsame {w' : World ι κ W S O} (hlog : w'.log = w.log) (hinner : w'.inner = w.inner) :
      Within 0 0 w w' := (Within.refl w).congr hlog (by rw [hinner])
  unfold poll
  split
  · have hfree : Within 0 0 w w.lock.unlock := hsame rfl rfl
    exact hfree.mono (Nat.zero_le 1) (Nat.zero_le 1)
  · rename_i p _ _
    have hasked : Within 0 0 w (w.lock.setSlot i (.live ⟨.initial, none⟩)) := hsame rfl rfl
    simpa using hasked.trans (pollFirst_within _ i p cx calls)
  · have hlocked : Within 0 0 w w.lock := hsame rfl rfl
    exact (pollAgain_within hlocked i _ cx calls).mono (Nat.zero_le 1) (Nat.zero_le 1)

theorem tryAcquire_within [Order O] (w : World ι κ W S O) (i : ι) (p : Params S) (fair : Bool) :
    Within 1 0 w (tryAcquire C w i p fair).1 := by
  have hlocked : Within 0 0 w w.lock := (Within.refl w).congr rfl (Nat.le_refl _)
  have hadmit := hlocked.trans (acquireOrEnqueue_within (C := C) w.lock i p fair)
  rw [Nat.zero_add, Nat.zero_add] at hadmit
  unfold tryAcquire
  rcases hres : acquireOrEnqueue C w.lock i p fair with ⟨w', (r | q | q | ⟨front, q⟩) | _⟩
  all_goals
    rw [hres] at hadmit
    exact hadmit.congr rfl (Nat.le_refl _)

/-! ## Sections of a call -/

/-- A lock section of the call `k` has ended with these locals: for each waker in its batch a node
has left the list, a batch with another turn to follow is full, and `S::acquire` was called once
for each waker and at most once more, unless the batch is full. The section reports `told`. -/
structure Collects (k : κ) (told : List (Event ι κ W S)) (w w' : World ι κ W S O)
    (c : Call ι W S) : Prop where
  call : w'.calls k = some c
  list : w'.inner.entries.length + c.wakes.wakers.length ≤ w.inner.entries.length
  full : c.more = true → c.wakes.wakers.length = WakeBatch.CAP
  events : ∃ es, w'.log = w.log ++ es ∧ reports es = told ∧
    (acquisitions es).length + c.more.toNat ≤ c.wakes.wakers.length + 1

theorem DrainResult.reports_events (k : κ) (r : DrainResult ι W S) : reports (r.events k) = [] := by
  unfold events
  induction r.calls with
  | nil => rfl
  | cons call calls ih =>
    rw [List.flatMap_cons, reports_append, ih]
    rcases call with ⟨_, _, (_ | _) | _⟩ <;> rfl

/-- A turn of `with_queue`. A poisoned or closing queue is left alone. -/
theorem withQueueTurn_collects [DecidableEq ι] [DecidableEq κ] [Order O]
    {k : κ} {w : World ι κ W S O} {c : Call ι W S}
    (hw : Coherent C w) (hk : w.calls k = some c) (hkind : c.kind = .withQueue)
    (hwakes : c.wakes.wakers = []) : ∃ c', Collects k [] w (withQueueTurn C k w) c' := by
  cases hopen : w.inner.admits C with
  | false =>
    -- the check returns at once
    have hguard : (w.inner.poisoned || w.inner.closing C) = true := by
      simpa [QueueState.admits, or_iff_not_imp_left] using hopen
    have hfull : w.batchFull k = false := by
      simp [World.batchFull, hk, WakeBatch.not_isFull_of_nil hwakes]
    have hturn : withQueueTurn C k w = w.unlock.setCall k (some { c with more := false }) := by
      simp [withQueueTurn, check, hguard, hfull, World.modifyCall, hk]
    rw [hturn]
    exact ⟨{ c with more := false }, by simp, by simp [hwakes], by simp, [], by simp, rfl, by simp⟩
  | true =>
    -- the check visits nodes until the batch is full
    obtain ⟨w', wakes, hvisits, hwakers, hturn⟩ := withQueueTurn_visits hw hk hkind hwakes hopen
    obtain ⟨-, hlength⟩ := (waiters ι W S).length_passUpTo WakeBatch.CAP w.inner.state
      w.inner.entries
    obtain ⟨hcalls, hcallsFull⟩ := (waiters ι W S).length_calls WakeBatch.CAP w.inner.state
      w.inner.entries
    change w.inner.turned.kept.length + w.inner.turned.granted.length = _ at hlength
    change w.inner.turned.calls.length ≤ w.inner.turned.granted.length + 1 at hcalls
    change w.inner.turned.granted.length = WakeBatch.CAP →
      w.inner.turned.calls.length = w.inner.turned.granted.length at hcallsFull
    have hbatch : wakes.wakers.length = w.inner.turned.granted.length := by
      rw [hwakers, DrainResult.woken, List.length_map]
    have hfull : (c.turn wakes w.inner.turned).more = true →
        w.inner.turned.granted.length = WakeBatch.CAP := by
      intro hmore
      simp only [Call.turn, Bool.and_eq_true, beq_iff_eq] at hmore
      exact hmore.1
    have hentries : w'.inner.entries = w.inner.turned.kept := by
      rw [QueueState.entries_of_queue hvisits.queue]
      rfl
    rw [hturn]
    refine ⟨c.turn wakes w.inner.turned, ?_⟩
    constructor
    case call => simp
    case list =>
      show w'.inner.entries.length + wakes.wakers.length ≤ _
      rw [hentries, hbatch, hlength]
    case full =>
      intro hmore
      rw [← hfull hmore]
      exact hbatch
    case events =>
      refine ⟨w.inner.turned.events k, hvisits.log, DrainResult.reports_events k _, ?_⟩
      rw [DrainResult.acquisitions_events, DrainResult.acquisitions, List.length_map]
      show _ ≤ wakes.wakers.length + 1
      cases hmore : (c.turn wakes w.inner.turned).more with
      | false => simpa [hbatch] using hcalls
      | true => rw [hbatch, hcallsFull (hfull hmore), Bool.toNat_true]

/-- A turn of `close`. -/
theorem closeTurn_collects [DecidableEq ι] [DecidableEq κ] [Order O]
    {k : κ} {w : World ι κ W S O} {c : Call ι W S} (hw : Coherent C w)
    (hC : C.CLOSE = true) (hk : w.calls k = some c) (hwakes : c.wakes.wakers = []) :
    ∃ c', Collects k [] w (closeTurn k w) c' := by
  obtain ⟨nodes, wakes, more, hnodes, hk', hlog, hlist, hmore⟩ := closeTurn_expels k hw hC hk hwakes
  have hfree : ∀ e ∈ (.entered k .close :: removedBy k nodes : List (Event ι κ W S)),
      e.isFree = true := by
    intro e he
    rcases List.mem_cons.mp he with rfl | hmem
    · rfl
    · obtain ⟨node, -, rfl⟩ := List.mem_map.mp hmem
      rfl
  obtain ⟨hnone, hacq⟩ := free_events hfree
  refine ⟨{ c with wakes := wakes, more := more }, hk', ?_, ?_, _, hlog, hnone, ?_⟩
  · rw [hnodes, hlist]
  · intro hm
    rw [hnodes]
    exact (hmore hm).1
  · rw [hacq]
    exact Nat.le_trans (by simpa using Bool.toNat_le more) (Nat.le_add_left ..)

/-! ## The calls of with_queue -/

/-- What the closures passed to `with_queue` do: they report `told`, call `S::acquire` not at all,
and leave the batch of their call alone. -/
structure ClosureTells (k : κ) (told : List (Event ι κ W S)) (w w' : World ι κ W S O) : Prop where
  call : ∃ c, w'.calls k = some c ∧ c.kind = .withQueue ∧ c.wakes.wakers = [] ∧ c.more = false
  list : w'.inner.entries.length ≤ w.inner.entries.length
  events : ∃ es, w'.log = w.log ++ es ∧ reports es = told ∧ acquisitions es = []

/-- A closure whose events are all free. -/
theorem ClosureTells.of_free {k : κ} {w w' : World ι κ W S O} {c : Call ι W S}
    {es : List (Event ι κ W S)} (hk : w'.calls k = some c) (hkind : c.kind = .withQueue)
    (hwakes : c.wakes.wakers = []) (hmore : c.more = false)
    (hlist : w'.inner.entries.length ≤ w.inner.entries.length) (hlog : w'.log = w.log ++ es)
    (hes : ∀ e ∈ es, e.isFree = true) : ClosureTells k [] w w' := by
  obtain ⟨hnone, hacq⟩ := free_events hes
  exact ⟨⟨c, hk, hkind, hwakes, hmore⟩, hlist, es, hlog, hnone, hacq⟩

theorem updateState_tells {k : κ} {w : World ι κ W S O} (f : S → S × Unwind Unit)
    (hk : w.calls k = some (.start .withQueue)) :
    ClosureTells k [.updated (f w.inner.state).2] w (w.updateState f).1 :=
  ⟨⟨_, hk, rfl, rfl, rfl⟩, Nat.le_refl _, [.updated (f w.inner.state).2], rfl, rfl, rfl⟩

theorem callRelease_tells {k : κ} {w : World ι κ W S O} (who : Releaser) (i : ι) (r : Permit S)
    (hk : w.calls k = some (.start .withQueue)) :
    ClosureTells k [] w (w.callRelease who i r).1 := by
  have hlog : (w.callRelease who i r).1.log =
      w.log ++ [.released who i r (SemaphoreState.release w.inner.state r).2] := rfl
  exact .of_free hk rfl rfl rfl (Nat.le_refl _) hlog (by simp [Event.isFree, Event.outward,
    Event.acquired?])

theorem dropNode_tells [DecidableEq ι] [DecidableEq κ]
    {k : κ} {w : World ι κ W S O} {i : ι} {n : Node (Removed S)}
    (hw : Coherent C w) (hi : w.slots i = .live ⟨n, none⟩) (hn : n ≠ .initial)
    (hk : w.calls k = some (.start .withQueue)) : ClosureTells k [] w (dropNode k i n w).1 := by
  cases n with
  | initial => exact absurd rfl hn
  | removed r =>
    rw [dropNode_removed]
    cases r with
    | ok permit =>
      have hlog : (dropGranted w i permit).1.log = w.log ++ [.took i, .cancelled i,
          .released .unclaimed i permit (SemaphoreState.release w.inner.state permit).2] := by
        simp [dropGranted, World.callRelease]
      exact .of_free hk rfl rfl rfl (Nat.le_refl _) hlog (by simp [Event.isFree, Event.outward,
        Event.acquired?])
    | error params =>
      have hk' : (((w.setSlot i .gone).emit (.took i)).emit (.cancelled i)).calls k =
          some (.start .withQueue) := hk
      have hlog : (((w.setSlot i .gone).emit (.took i)).emit (.cancelled i)).log =
          w.log ++ [.took i, .cancelled i] := List.append_assoc ..
      simp only [dropRefused, World.modifyCall_of_some hk']
      exact .of_free (Function.update_self ..) rfl rfl rfl (Nat.le_refl _) hlog
        (by simp [Event.isFree, Event.outward, Event.acquired?])
  | linked =>
    obtain ⟨data, before, after, hq, hres⟩ := dropNode_linked hw hi hk
    rw [hres]
    refine ⟨⟨_, Function.update_self .., rfl, rfl, rfl⟩, ?_, [.cancelled i], rfl, rfl, rfl⟩
    rw [QueueState.entries_of_queue hq]
    simp

/-- The first section of a call of `with_queue`. -/
theorem withQueue_collects [DecidableEq ι] [DecidableEq κ] [Order O]
    {k : κ} {told : List (Event ι κ W S)} {w : World ι κ W S O}
    {f : World ι κ W S O → World ι κ W S O × Unwind Unit}
    (hcoh : Coherent C (f (w.enter k)).1)
    (hclosure : ClosureTells k told (w.enter k) (f (w.enter k)).1) :
    ∃ c, Collects k told w (withQueue C k w f) c := by
  obtain ⟨c, hk, hkind, hwakes, hmore⟩ := hclosure.call
  obtain ⟨es, hlog, htold, hacq⟩ := hclosure.events
  have hlist : (f (w.enter k)).1.inner.entries.length ≤ w.inner.entries.length := hclosure.list
  have hlog' : (f (w.enter k)).1.log = w.log ++ .entered k .withQueue :: es := by
    rw [hlog]
    exact List.append_assoc ..
  have htold' : reports (.entered k .withQueue :: es) = told := htold
  have hacq' : acquisitions (.entered k .withQueue :: es) = [] := hacq
  rcases hres : f (w.enter k) with ⟨w', _ | _⟩
  all_goals rw [hres] at hcoh hk hlist hlog'
  · rw [withQueue_of_returned hres]
    split
    · -- the list is empty: no check
      exact ⟨c, hk, by simpa [hwakes] using hlist, by simp [hmore], _, hlog', htold',
        by simp [hacq', hmore]⟩
    · obtain ⟨c', hturn⟩ := withQueueTurn_collects hcoh hk hkind hwakes
      obtain ⟨es', hlog'', hnone, hle⟩ := hturn.events
      refine ⟨c', hturn.call, Nat.le_trans hturn.list hlist, hturn.full, _,
        by rw [hlog'', hlog', List.append_assoc], ?_, ?_⟩
      · rw [reports_append, htold', hnone, List.append_nil]
      · rwa [acquisitions_append, hacq', List.nil_append]
  · -- the closure panicked
    rw [withQueue_of_panicked hres]
    have hk' : w'.unlock.calls k = some c := hk
    rw [World.modifyCall_of_some hk']
    exact ⟨_, Function.update_self .., by simpa [hwakes] using hlist, by simp [hmore], _, hlog',
      htold', by simp [hacq', hmore]⟩

/-! ## Steps -/

/-- What an action reports: it tells the user's part, and what the user is told. -/
def Action.reports [DecidableEq ι] [DecidableEq W] [Order O]
    (C : Closeability) (w : World ι κ W S O) :
    Action ι κ W S → List (Event ι κ W S)
  | .acquire i p => [.created i p]
  | .poll i cx calls =>
    match w.slots i with
    | .live a => [.polled i cx (FlagBearer.poll C w i a cx calls).2]
    | _ => []
  | .tryAcquire i p fair => [.tried i p (FlagBearer.tryAcquire C (w.setSlot i .gone) i p fair).2]
  | .withState _ f => [.updated (f w.inner.state).2]
  | .conjure i r => [.conjured i r]
  | .takePermit i => (w.permits i).toList.map (.taken i)
  | .clearPoison => [.cleared]
  | _ => []

theorem wrapPoll_log [DecidableEq ι] (i : ι) (cx : W) (out : World ι κ W S O × PollResult S) :
    (wrapPoll i cx out).log = out.1.log ++ [.polled i cx out.2] := by
  unfold wrapPoll
  split <;> rfl

theorem wrapTry_log [DecidableEq ι] (i : ι) (p : Params S) (out : World ι κ W S O × TryResult S) :
    (wrapTry i p out).log = out.1.log ++ [.tried i p out.2] := by
  unfold wrapTry
  split <;> rfl

theorem reports_of_log {w w' : World ι κ W S O} {es : List (Event ι κ W S)}
    (h : w'.log = w.log ++ es) : reports w'.log = reports w.log ++ reports es := by
  rw [h, reports_append]

theorem Within.reports {asks joins : Nat} {w w' : World ι κ W S O} (h : Within asks joins w w') :
    reports w'.log = reports w.log := by
  obtain ⟨es, hlog, hnone, -⟩ := h.events
  rw [reports_of_log hlog, hnone, List.append_nil]

theorem Collects.reports {k : κ} {told : List (Event ι κ W S)} {w w' : World ι κ W S O}
    {c : Call ι W S} (h : Collects k told w w' c) : reports w'.log = reports w.log ++ told := by
  obtain ⟨es, hlog, htold, -⟩ := h.events
  rw [reports_of_log hlog, htold]

/-- What the waking of a batch leaves behind. -/
theorem wakeNext_eq_some [DecidableEq κ]
    {k : κ} {w w' : World ι κ W S O} {c : Call ι W S} {res : Unwind Unit}
    (h : wakeNext k w c res = some w') :
    ∃ i x rest unwinding, c.wakes.wakers = (i, x) :: rest.wakers ∧
      w' = (w.emit (.woke k i x w.locked res)).setCall k
        (some { c with wakes := rest, unwinding := unwinding }) := by
  unfold wakeNext at h
  split at h
  · cases h
  · rename_i i x rest hpop
    have hwakers := WakeBatch.pop_eq_some.mp hpop
    split at h <;> cases h
    · exact ⟨i, x, rest, c.unwinding, hwakers, rfl⟩
    · exact ⟨i, x, rest, true, hwakers, rfl⟩

theorem dropAbandoned_log (w : World ι κ W S O) (res : Unwind Unit)
    (data : Option (NodeData (Protected W S) (Removed S))) :
    ∃ es, (dropAbandoned w res data).log = w.log ++ es ∧ ∀ e ∈ es, e.isFree = true := by
  rcases data with _ | ⟨⟨_ | p, x⟩⟩ | ⟨⟨_ | p⟩ | r⟩
  · exact ⟨[], by simp [dropAbandoned], by simp⟩
  · exact ⟨[.droppedWaker x _ res], rfl, by simp [Event.isFree, Event.outward, Event.acquired?]⟩
  · exact ⟨_, List.append_assoc .., by simp [Event.isFree, Event.outward, Event.acquired?]⟩
  · exact ⟨[], by simp [dropAbandoned], by simp⟩
  · exact ⟨[.droppedParams p _], rfl, by simp [Event.isFree, Event.outward, Event.acquired?]⟩
  · exact ⟨[], by simp [dropAbandoned], by simp⟩

/-- The call of which an action is a lock section. -/
def Action.locks : Action ι κ W S → Option κ
  | .withState k _ => some k
  | .dropAcquire k _ => some k
  | .dropPermit k _ => some k
  | .close k => some k
  | .resume k => some k
  | _ => none

/-- The lock sections of calls; the drop of a future that was never queued needs none. -/
theorem step_collects [DecidableEq ι] [DecidableEq κ] [DecidableEq W] [Order O]
    {w w' : World ι κ W S O} (hw : Settled C w) {a : Action ι κ W S}
    (h : step C w a = some w') {k : κ} (hk : a.locks = some k) :
    (∃ c, Collects k (a.reports C w) w w' c) ∨
      (∃ i, a = .dropAcquire k i) ∧ w'.calls = w.calls ∧ Within 0 0 w w' := by
  have hcoh := hw.coherent
  cases step_cases h with
  | withState l f hl =>
    cases hk
    have hclosure : ClosureMoves C none k .empty _ _ := updateState_closure f (w.enter_call k)
    exact Or.inl (withQueue_collects ((hcoh.enter hl).moves hclosure.moves)
      (updateState_tells f (w.enter_call k)))
  | dropAcquire l i a hi hl =>
    cases hk
    obtain ⟨n, params⟩ := a
    by_cases hn : n = .initial
    · subst hn
      -- never queued: no lock is taken
      have hgone : Within 0 0 w (w.setSlot i .gone) := (Within.refl w).congr rfl (Nat.le_refl _)
      have hcancel : Within 0 0 w ((w.setSlot i .gone).emit (.cancelled i)) := hgone.emit rfl
      cases params with
      | none => exact Or.inr ⟨⟨i, rfl⟩, rfl, hcancel⟩
      | some p => exact Or.inr ⟨⟨i, rfl⟩, rfl, hcancel.emit rfl⟩
    · obtain rfl : params = none := hw.coherent.asked i _ hi hn
      have hclosure := dropNode_closure (hcoh.enter hl) hi hn (w.enter_call k)
      rw [dropAcquire_of_asked k w i hn]
      exact Or.inl (withQueue_collects ((hcoh.enter hl).moves hclosure.moves)
        (dropNode_tells (hcoh.enter hl) hi hn (w.enter_call k)))
  | dropPermit l i r hi hl =>
    cases hk
    have hopened : Coherent C (w.setPermit i none) := hcoh.frame_inner rfl rfl rfl rfl
    have hcall := (w.setPermit i none).enter_call k
    have hclosure : ClosureMoves C none k (.releasing .guard i r) _ _ :=
      callRelease_closure .guard i r hcall
    obtain ⟨c, hturn⟩ := withQueue_collects (f := fun w => w.callRelease .guard i r)
      ((hopened.enter hl).moves hclosure.moves) (callRelease_tells .guard i r hcall)
    exact Or.inl ⟨c, hturn.call, hturn.list, hturn.full, hturn.events⟩
  | close l hC hl =>
    cases hk
    have hstart : Coherent C (w.setCall k (some (.start .close))) :=
      hcoh.frame_inner rfl rfl rfl rfl
    obtain ⟨c, hturn⟩ := closeTurn_collects hstart (by rw [hC]; rfl) (Function.update_self ..) rfl
    exact Or.inl ⟨c, hturn.call, hturn.list, hturn.full, hturn.events⟩
  | resume l c hl hwakes hunw hmore =>
    cases hk
    unfold resume
    cases hkind : c.kind with
    | withQueue =>
      -- a later turn, whose entry is not reported
      have hlocked : Coherent C (w.lock.emit (.entered k .withQueue)) :=
        hcoh.frame_inner rfl rfl rfl rfl
      have hcall : (w.lock.emit (.entered k .withQueue)).calls k = some c := hl
      obtain ⟨c', hturn⟩ := withQueueTurn_collects hlocked hcall hkind hwakes
      obtain ⟨es, hlog, htold, hle⟩ := hturn.events
      refine Or.inl ⟨c', hturn.call, hturn.list, hturn.full, .entered k .withQueue :: es, ?_,
        htold, hle⟩
      rw [hlog]
      exact List.append_assoc ..
    | close => exact Or.inl (closeTurn_collects hcoh (hw.closes k c hl hkind) hl hwakes)
  | _ => cases hk

/-- **A step reports what its action says**, and nothing else. -/
theorem step_reports [DecidableEq ι] [DecidableEq κ] [DecidableEq W] [Order O]
    {w w' : World ι κ W S O} (hw : Settled C w) {a : Action ι κ W S}
    (h : step C w a = some w') : reports w'.log = reports w.log ++ a.reports C w := by
  cases hlocks : a.locks with
  | some k =>
    rcases step_collects hw h hlocks with ⟨c, hturn⟩ | ⟨⟨i, rfl⟩, -, hwithin⟩
    · -- a lock section
      exact hturn.reports
    · -- the drop of a future that was never queued
      rw [hwithin.reports]
      exact (List.append_nil _).symm
  | none =>
    cases step_cases h with
    | acquire i p hi =>
      exact reports_append ..
    | poll i a cx calls hi =>
      simp only [Action.reports, hi]
      rw [pollAcquire, wrapPoll_log, reports_append, (poll_within w i a cx calls).reports]
      rfl
    | tryAcquire i p fair hi =>
      rw [tryAcquirePermit, wrapTry_log, reports_append, (tryAcquire_within _ i p fair).reports]
      rfl
    | takePermit i r hi =>
      rw [Action.reports, hi]
      exact reports_append ..
    | conjure i r hi =>
      exact reports_append ..
    | clearPoison =>
      exact reports_append ..
    | observe =>
      exact (List.append_nil _).symm
    | wake k c res w' hk h =>
      -- what is left of a call outside its sections
      obtain ⟨i, x, rest, unwinding, -, rfl⟩ := wakeNext_eq_some h
      exact reports_append ..
    | finish k c res w' hk h =>
      obtain ⟨-, ended, -, rfl⟩ := finish_eq_some h
      obtain ⟨es, hlog, hfree⟩ := dropAbandoned_log w res c.abandoned
      have hlog' : (((dropAbandoned w res c.abandoned).setCall k none).emit
          (.returned k c.kind ended)).log = w.log ++ (es ++ [.returned k c.kind ended]) := by
        simp [hlog]
      rw [reports_of_log hlog', reports_append, (free_events hfree).1]
      rfl
    | withState | dropAcquire | dropPermit | close | resume => cases hlocks

/-! ## Interventions -/

/-- Did the user intervene here? -/
def Event.ofUser : Event ι κ W S → Bool
  | .updated _ => true
  | .conjured _ _ => true
  | .taken _ _ => true
  | _ => false

/-- The number of interventions so far. -/
def World.interventions (w : World ι κ W S O) : Nat := w.log.countP Event.ofUser

theorem World.interventions_emit (w : World ι κ W S O) (e : Event ι κ W S) :
    (w.emit e).interventions = w.interventions + e.ofUser.toNat := by
  rw [World.interventions, World.emit_log, List.countP_append, List.countP_singleton]
  cases e.ofUser <;> rfl

theorem countP_reports (log : List (Event ι κ W S)) :
    (reports log).countP Event.ofUser = log.countP Event.ofUser := by
  unfold reports
  rw [List.countP_filter]
  apply List.countP_congr
  intro e _
  cases e <;> simp [Event.ofUser, Event.outward]

/-- Is the action an intervention? -/
def Action.intervenes : Action ι κ W S → Bool
  | .withState _ _ => true
  | .conjure _ _ => true
  | .takePermit _ => true
  | _ => false

/-- **A step intervenes only if its action does**. -/
theorem step_interventions [DecidableEq ι] [DecidableEq κ] [DecidableEq W] [Order O]
    {w w' : World ι κ W S O} (hw : Settled C w) {a : Action ι κ W S}
    (h : step C w a = some w') : w'.interventions = w.interventions + a.intervenes.toNat := by
  unfold World.interventions
  rw [← countP_reports, step_reports hw h, List.countP_append, countP_reports]
  congr 1
  cases step_cases h with
  | poll i a cx calls hi =>
    rw [Action.reports, hi]
    rfl
  | takePermit i r hi =>
    rw [Action.reports, hi]
    rfl
  | _ => rfl

end FlagBearer
