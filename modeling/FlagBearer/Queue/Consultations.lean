import FlagBearer.Queue.Confined
import FlagBearer.Queue.Placement
import FlagBearer.Queue.Unchecked
import Mathlib.Data.Set.Card

/-!
# The Length of the Queue, and Who Asks the Order

`len` is maintained by hand beside the intrusive list. It counts the queued futures in every
state between lock sections, and the `Order` is told exactly this number. The order is asked
once for each request that arrives at an open queue, and never for anything else.

## Main results

- `step_consultations`: what one step asks the order
- `Reachable.consulted_once`: no request is asked about twice
- `order_consulted_once`: the statement about runs
-/

namespace FlagBearer

open PinList History

variable {ι κ W S O : Type} [DecidableEq ι] [DecidableEq κ] [DecidableEq W]
variable [SemaphoreState S] [Order O] {C : Closeability} {own : Option ι}

/-! ## Consultations -/

/-- The request and the number of queued tasks that the order was asked about. -/
def Event.consultation : Event ι κ W S → Option (ι × Nat)
  | .consulted i queued _ => some (i, queued)
  | _ => none

/-- The consultations of a history, in order. -/
def consultations (log : List (Event ι κ W S)) : List (ι × Nat) :=
  log.filterMap Event.consultation

omit [DecidableEq ι] [DecidableEq κ] [DecidableEq W] in
@[simp] theorem consultations_append (log es : List (Event ι κ W S)) :
    consultations (log ++ es) = consultations log ++ consultations es := List.filterMap_append

omit [DecidableEq ι] [DecidableEq W] [Order O] in
theorem Confined.consultations {k : Option κ} {w w' : World ι κ W S O} (h : Confined k w w') :
    consultations w'.log = consultations w.log := by
  obtain ⟨es, hlog, hes⟩ := h.events
  have hnone : FlagBearer.consultations es = [] := by
    apply List.filterMap_eq_nil_iff.mpr
    intro e he
    have hof := hes e he
    cases e with
    | consulted i queued front => cases hof
    | _ => rfl
  rw [hlog, consultations_append, hnone, List.append_nil]

/-- The consultation that a step calls for. -/
def Action.consultation (C : Closeability) (w : World ι κ W S O) (a : Action ι κ W S) :
    Option (ι × Nat) :=
  (a.asks C w).map fun i => (i, w.inner.entries.length)

/-- **What one step asks the order**: about its own request if it is a first poll or a fair
`try_acquire` of a queue that admits requests, with the number of queued tasks. -/
theorem step_consultations {w w' : World ι κ W S O} (hw : Settled C w) {a : Action ι κ W S}
    (h : step C w a = some w') :
    consultations w'.log = consultations w.log ++ (a.consultation C w).toList := by
  rw [(step_confined hw h).consultations]
  unfold Action.consultation
  cases a.asks C w with
  | none => simp
  | some i =>
    simp [World.consult, consultations, Event.consultation, hw.coherent.len]

/-- The consultations that the steps of a run call for. -/
def consultationsDue (C : Closeability) :
    World ι κ W S O → List (Action ι κ W S) → List (ι × Nat)
  | _, [] => []
  | w, a :: acts =>
    (a.consultation C w).toList ++
      match step C w a with
      | some w' => consultationsDue C w' acts
      | none => []

theorem exec_consultations {w w' : World ι κ W S O} (hw : Settled C w)
    {acts : List (Action ι κ W S)} (h : Transition.exec (step C) w acts = some w') :
    consultations w'.log = consultations w.log ++ consultationsDue C w acts := by
  induction acts generalizing w with
  | nil =>
    cases h
    simp [consultationsDue]
  | cons a acts ih =>
    obtain ⟨u, hu, hrest⟩ := Option.bind_eq_some_iff.mp h
    rw [ih (hw.step hu) hrest, step_consultations hw hu, consultationsDue, hu, List.append_assoc]

/-! ## No request is asked about twice -/

omit [DecidableEq κ] [DecidableEq W] in
theorem count_consultations (i : ι) (log : List (Event ι κ W S)) :
    ((consultations log).map Prod.fst).count i = log.countP (Event.consults i) := by
  induction log with
  | nil => rfl
  | cons e log ih =>
    cases e with
    | consulted j queued front =>
      simp only [consultations, List.filterMap_cons, Event.consultation, List.map_cons,
        List.count_cons, List.countP_cons, Event.consults]
      rw [← ih]
      rfl
    | _ => simpa [consultations, List.filterMap_cons, Event.consultation, Event.consults] using ih

theorem Reachable.consulted_once {state : S} {order : O} {w : World ι κ W S O}
    (h : Reachable C state order w) : ((consultations w.log).map Prod.fst).Nodup := by
  apply List.nodup_iff_count_le_one.mpr
  intro i
  rw [count_consultations]
  have hinv : ConsultedOnce i (w, (.empty : Hand ι S)) := by
    apply Reachable.invariant_of_traced (C := C) _ ?_ (Once.start _ rfl) h
    intro c d _ htraced hc _ hm
    exact ConsultedOnce.move hc htraced.consistent hm
  exact hinv.1

/-! ## What the order is told -/

/-- A consultation tells the order the length of the list that the history before it leaves. -/
def TellsLength (past : List (Event ι κ W S)) (e : Event ι κ W S) : Prop :=
  ∀ i queued front, e = .consulted i queued front → queued = (replay past).length

omit [DecidableEq κ] [DecidableEq W] in
theorem tellsLength_append {log es : List (Event ι κ W S)} (h : Each TellsLength log)
    (hes : ∀ e ∈ es, e.consultation = none) : Each TellsLength (log ++ es) := by
  apply each_append.mpr
  refine ⟨h, eachFrom_of_trivial ?_⟩
  intro e he past i queued front heq
  have hnone := hes e he
  rw [heq] at hnone
  cases hnone

omit [DecidableEq W] in
theorem tellsLength_move {c d : Conf ι κ W S O} (hc : Each TellsLength c.1.log)
    (hw : Coherent C c.1) (hreplayed : Replayed c) (h : Move C own c d) :
    Each TellsLength d.1.log := by
  -- the list of the history is the list, and `len` counts it
  have hlen : c.1.inner.len = (replay c.1.log).length := by
    rw [hreplayed, hw.len]
    exact (List.length_map _).symm
  have tells (i : ι) (front : Unwind Bool) :
      Each TellsLength (c.1.log ++ [.consulted i c.1.inner.len front]) := by
    apply each_append.mpr
    refine ⟨hc, ?_, trivial⟩
    intro j queued front' heq
    cases heq
    exact hlen
  cases h with
  | lock | unlock | ask | askTry | setClosed | discard | takeGuard | begin | turn => exact hc
  | consult w i p order front => exact tells i (.returned front)
  | consultPanic w i p order =>
    have hdropped : ∀ e ∈ ([.droppedParams p w.locked] : List (Event ι κ W S)),
        e.consultation = none := by simp [Event.consultation]
    simpa using tellsLength_append (tells i .panicked) hdropped
  | note w h e he | reject w i p front e he | giveBack w i p e he =>
    cases he <;> exact tellsLength_append hc (by simp [Event.consultation])
  | cancelGranted w i r =>
    exact tellsLength_append (tellsLength_append hc (by simp [Event.consultation]))
      (by simp [Event.consultation])
  | cancelRefused w k i params =>
    exact tellsLength_append (tellsLength_append hc (by simp [Event.consultation]))
      (by simp [Event.consultation])
  | _ => exact tellsLength_append hc (by simp [Event.consultation])

theorem Reachable.tellsLength {state : S} {order : O} {w : World ι κ W S O}
    (h : Reachable C state order w) : Each TellsLength w.log := by
  apply Reachable.invariant_of_traced (C := C) (fun c => Each TellsLength c.1.log) ?_ each_nil h
  intro c d hw htraced hc _ hm
  exact tellsLength_move hc hw htraced.replayed hm

/-! ## The statement about runs -/

/-- The futures that are queued. -/
def World.queued (w : World ι κ W S O) : Set ι :=
  {i | ∃ params, w.slots i = .live ⟨.linked, params⟩}

/-- `len` counts the linked nodes, and these are the queued futures; there are none once the
list is discarded; and `len` was never decremented below zero. -/
structure Counted (w : World ι κ W S O) : Prop where
  nodes : w.inner.len = w.inner.entries.length
  finite : w.queued.Finite
  futures : w.queued.ncard = w.inner.len
  discarded : w.inner.isOk = false → w.inner.len = 0
  no_underflow : .fault .lenUnderflow ∉ w.log

omit [DecidableEq κ] [DecidableEq W] [Order O] in
theorem Coherent.queued {w : World ι κ W S O} (hw : Coherent C w) :
    w.queued = ((ids w.inner.entries).toFinset : Set ι) := by
  ext i
  simp only [World.queued, Set.mem_ofPred_eq, List.coe_toFinset]
  rw [hw.linked i]
  constructor
  · intro h
    obtain ⟨params, hi⟩ := h
    have hparams : params = none := hw.asked i _ hi (by simp)
    rwa [hparams] at hi
  · intro h
    exact ⟨none, h⟩

theorem Reachable.counted {state : S} {order : O} {w : World ι κ W S O}
    (h : Reachable C state order w) : Counted w := by
  have hw := (Reachable.settled h).coherent
  constructor
  case nodes => exact hw.len
  case finite =>
    rw [hw.queued]
    exact Finset.finite_toSet _
  case futures =>
    rw [hw.queued, Set.ncard_coe_finset, List.toFinset_card_of_nodup hw.nodup, length_ids, hw.len]
  case discarded =>
    intro hdiscarded
    rw [hw.len]
    cases hq : w.inner.queue with
    | ok queue => simp [QueueState.isOk, hq] at hdiscarded
    | error _ => simp [QueueState.entries, hq]
  case no_underflow => exact Reachable.no_fault h _

/-- What the order is asked in a run: what its steps call for, once for each request, and
always with the length of the queue at that moment. -/
structure OrderConsulted (C : Closeability) (init : World ι κ W S O)
    (acts : List (Action ι κ W S)) (w : World ι κ W S O) : Prop where
  due : consultations w.log = consultationsDue C init acts
  once : ((consultations w.log).map Prod.fst).Nodup
  length : ∀ past i queued front rest, w.log = past ++ .consulted i queued front :: rest →
    queued = (replay past).length

/-- **`len` counts the queue and the order is consulted once**, for every run, whatever
panics: a consultation happens at each first poll and each fair `try_acquire` that finds the
queue open and unpoisoned, is given the number of queued tasks, and never happens otherwise. -/
theorem order_consulted_once {state : S} {order : O} {acts : List (Action ι κ W S)}
    {w : World ι κ W S O} (h : run C state order acts = some w) :
    Counted w ∧ OrderConsulted C (World.new state order) acts w := by
  have hreach : Reachable C state order w := Transition.reachable_iff_exec.mpr ⟨_, h⟩
  refine ⟨hreach.counted, ?_⟩
  constructor
  case due => exact exec_consultations (Settled.new state order) h
  case once => exact hreach.consulted_once
  case length =>
    intro past i queued front rest hlog
    exact each_iff.mp hreach.tellsLength past _ rest hlog i queued front rfl

/-- Two requests queue up behind each other, and one of them polls again and is dropped. -/
theorem order_consulted_once_of_two :
    ∃ w : World Nat Nat Nat SemaphoreCounter Hybrid,
      run .closeable ⟨0⟩ ⟨1⟩ [.acquire 0 (1 : Nat), .poll 0 7 .quiet, .poll 0 8 .quiet,
        .acquire 1 (2 : Nat), .poll 1 9 .quiet, .dropAcquire 0 0] = some w ∧
      Counted w ∧ OrderConsulted .closeable (World.new ⟨0⟩ ⟨1⟩)
        [.acquire 0 (1 : Nat), .poll 0 7 .quiet, .poll 0 8 .quiet, .acquire 1 (2 : Nat),
          .poll 1 9 .quiet, .dropAcquire 0 0] w :=
  ⟨_, rfl, order_consulted_once rfl⟩

end FlagBearer
