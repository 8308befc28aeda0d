import FlagBearer.Queue.Answers
import FlagBearer.Queue.Service

/-!
# Pending Futures

The contract between a future and its executor. A future whose latest poll was `Pending` stands
in the list with the waker of that poll, until the node is removed, and then that waker is in a
batch or was invoked, or until the future is dropped. And a future is not woken in vain: once its
waker was invoked no poll is `Pending` any more.

## Main results

- `Registered.move`: what others do to a waiter
- `unwoken_move`: a poll that is pending was not preceded by a wake
- `pending_contract`: the statement about runs
-/

namespace FlagBearer

open PinList History

variable {ι κ W S O : Type} [DecidableEq ι] [SemaphoreState S] {C : Closeability} {own : Option ι}

/-! ## The latest answer -/

/-- What a poll of `i` answers, with the waker of the poll. -/
def Event.answer? (i : ι) : Event ι κ W S → Option (W × PollResult S)
  | .polled j cx res => if j = i then some (cx, res) else none
  | _ => none

/-- The latest answer that `i` was given, with the waker of that poll. -/
def lastAnswer (i : ι) (log : List (Event ι κ W S)) : Option (W × PollResult S) :=
  latest (Event.answer? i) log

/-- Answers are reports. -/
theorem lastAnswer_reports (i : ι) (log : List (Event ι κ W S)) :
    lastAnswer i (reports log) = lastAnswer i log := by
  unfold lastAnswer latest reports
  rw [List.filterMap_filter]
  congr 2
  funext e
  cases e <;> rfl

/-! ## Others leave a waiter registered -/

variable [DecidableEq κ] [Order O]

/-- `i` stands in the list with this waker, or was removed with it, or was dropped. -/
def Registered (i : ι) (cx : W) (w : World ι κ W S O) : Prop :=
  (∃ params, (i, params, cx) ∈ w.inner.entries) ∨ (∃ k kind, .removed k kind i cx ∈ w.log) ∨
    .cancelled i ∈ w.log

omit [DecidableEq ι] [DecidableEq κ] [Order O] in
theorem Registered.grow {w w' : World ι κ W S O} {i : ι} {cx : W} (h : Registered i cx w)
    (es : List (Event ι κ W S)) (hlog : w'.log = w.log ++ es)
    (hstays : ∀ params, (i, params, cx) ∈ w.inner.entries →
      (∃ params, (i, params, cx) ∈ w'.inner.entries) ∨ ∃ k kind, .removed k kind i cx ∈ w'.log) :
    Registered i cx w' := by
  rcases h with ⟨params, hmem⟩ | ⟨k, kind, hk⟩ | hcancelled
  · rcases hstays params hmem with hstill | hremoved
    · exact Or.inl hstill
    · exact Or.inr (Or.inl hremoved)
  · exact Or.inr (Or.inl ⟨k, kind, by rw [hlog]; exact List.mem_append_left _ hk⟩)
  · exact Or.inr (Or.inr (by rw [hlog]; exact List.mem_append_left _ hcancelled))

/-- **What others do to a waiter**: it stays where it is, or it is removed with its waker. -/
theorem Registered.move {c d : Conf ι κ W S O} {i : ι} {cx : W} (hc : Registered i cx c.1)
    (hown : own ≠ some i) (h : Move C own c d) : Registered i cx d.1 := by
  obtain ⟨es, hes⟩ := h.log_grows
  apply hc.grow es hes
  intro params hmem
  -- `i` is another node of the list than the one that a move is about
  have other {before after : WaitList ι W S} {e : ι × Protected W S}
      (hq : c.1.inner.queue = .ok (before ++ e :: after)) (he : e.1 ≠ i) :
      (i, params, cx) ∈ before ++ after := by
    rw [QueueState.entries_of_queue hq] at hmem
    rcases mem_split.mp hmem with rfl | hrest
    · exact absurd rfl he
    · exact hrest
  cases h with
  | link w j p x front queue hopen hq hj hj' =>
    rw [QueueState.entries_of_queue hq] at hmem
    refine Or.inl ⟨params, ?_⟩
    cases front
    · simp [pushBack, hmem]
    · simp [pushFront, hmem]
  | grant w h k j p x r state before after c wakes hopen hq =>
    rw [QueueState.entries_of_queue hq] at hmem
    rcases mem_split.mp hmem with heq | hrest
    · cases heq
      exact Or.inr ⟨k, by simp⟩
    · exact Or.inl ⟨params, hrest⟩
  | expel w h k j params' x rest c wakes hclosed hq =>
    rw [QueueState.entries_of_queue hq] at hmem
    rcases List.mem_cons.mp hmem with heq | hrest
    · cases heq
      exact Or.inr ⟨k, by simp⟩
    · exact Or.inl ⟨params, hrest⟩
  | refuse w h j p p' x state before after hopen hq =>
    rw [QueueState.entries_of_queue hq] at hmem
    rcases mem_split.mp hmem with heq | hrest
    · cases heq
      exact Or.inl ⟨some p', mem_split.mpr (Or.inl rfl)⟩
    · exact Or.inl ⟨params, mem_split.mpr (Or.inr hrest)⟩
  | lose w h j p x state before after hopen hq =>
    rw [QueueState.entries_of_queue hq] at hmem
    rcases mem_split.mp hmem with heq | hrest
    · cases heq
      exact Or.inl ⟨none, mem_split.mpr (Or.inl rfl)⟩
    · exact Or.inl ⟨params, mem_split.mpr (Or.inr hrest)⟩
  | unlinkSelf w j params' x before after hclosing hq hj hj' =>
    exact Or.inl ⟨params, other hq fun hij => hown (hj'.trans (congrArg some hij))⟩
  | cancelLinked w k j params' x before after c hq hj hk hj' =>
    exact Or.inl ⟨params, other hq fun hij => hown (hj'.trans (congrArg some hij))⟩
  | rewake w j params' x cx' before after res hq hres hj' =>
    refine Or.inl ⟨params, mem_split.mpr (Or.inr ?_)⟩
    exact other hq fun hij => hown (hj'.trans (congrArg some hij))
  | discard w h hclosed hq =>
    rw [QueueState.entries_of_queue hq] at hmem
    cases hmem
  | _ => exact Or.inl ⟨params, hmem⟩

theorem Registered.moves {c d : Conf ι κ W S O} {i : ι} {cx : W} (hc : Registered i cx c.1)
    (hown : own ≠ some i) (h : Moves C own c d) : Registered i cx d.1 :=
  Transition.invariant_of_moves (fun e => Registered i cx e.1)
    (fun _ _ he hm => he.move hown hm) h hc

/-! ## Steps -/

omit [Order O] in
theorem dropNode_cancels {w : World ι κ W S O} (hw : Coherent C w) {i : ι} {n : Node (Removed S)}
    (hi : w.slots i = .live ⟨n, none⟩) (hn : n ≠ .initial) {k : κ} {c : Call ι W S}
    (hk : w.calls k = some c) : .cancelled i ∈ (dropNode k i n w).1.log := by
  cases n with
  | initial => exact absurd rfl hn
  | linked =>
    obtain ⟨data, before, after, -, hres⟩ := dropNode_linked hw hi hk
    simp [hres]
  | removed r =>
    rw [dropNode_removed]
    cases r with
    | ok permit => simp [dropGranted, World.callRelease]
    | error params => simp [dropRefused, World.modifyCall_log]

/-- The drop of a future is on record. -/
theorem dropAcquire_cancels {w : World ι κ W S O} (hw : Coherent C w) {i : ι} {a : Acquire S}
    (hi : w.slots i = .live a) {k : κ} (hk : w.calls k = none) :
    .cancelled i ∈ (dropAcquire C k w i a).log := by
  obtain ⟨n, params⟩ := a
  by_cases hn : n = .initial
  · subst hn
    cases params <;> simp [dropAcquire, World.dropParams]
  · obtain rfl : params = none := hw.asked i _ hi hn
    rw [dropAcquire_of_asked k w i hn]
    have hclosure := dropNode_closure (hw.enter hk) hi hn (w.enter_call k)
    have hrest : Moves C none _ _ := withQueue_rest hw hk hclosure
    obtain ⟨es, hes⟩ := hrest.log_grows
    rw [hes]
    exact List.mem_append_left _ (dropNode_cancels (hw.enter hk) hi hn (w.enter_call k))

omit [DecidableEq ι] [DecidableEq κ] [Order O] in
/-- A request that is registered is not new. -/
theorem Registered.of_unborn {w w' : World ι κ W S O} (hw : Coherent C w) {i : ι} {cx : W}
    (h : Registered i cx w) (hi : w.slots i = .unborn) (hlog : ∃ es, w'.log = w.log ++ es) :
    Registered i cx w' := by
  obtain ⟨es, hes⟩ := hlog
  apply h.grow es hes
  intro params hmem
  have hlinked := (hw.linked i).mp (mem_ids_of_mem hmem)
  rw [hi] at hlinked
  cases hlinked

/-- Whoever was told `Pending` last is registered with that waker. -/
def Kept (w : World ι κ W S O) : Prop :=
  ∀ i cx, lastAnswer i w.log = some (cx, .returned .pending) → Registered i cx w

variable [DecidableEq W]

/-- A step that answers nothing to `i` leaves it registered. -/
theorem Registered.step {w w' : World ι κ W S O} (hs : Settled C w) {a : Action ι κ W S}
    (h : FlagBearer.step C w a = some w') {i : ι} {cx : W}
    (ha : ∀ cx' calls, a ≠ .poll i cx' calls) (hi : Registered i cx w) : Registered i cx w' := by
  have hmoves := (step_moves hs h).1
  have hlog : ∃ es, w'.log = w.log ++ es := Moves.log_grows hmoves
  by_cases hown : a.request = some i
  · cases step_cases h with
    | poll j a cx' calls hj =>
      cases hown
      exact absurd rfl (ha cx' calls)
    | dropAcquire k j a hj hk =>
      cases hown
      exact Or.inr (Or.inr (dropAcquire_cancels hs.coherent hj hk))
    | acquire j p hj =>
      cases hown
      exact hi.of_unborn hs.coherent hj hlog
    | tryAcquire j p fair hj =>
      cases hown
      exact hi.of_unborn hs.coherent hj hlog
    | conjure j r hj =>
      cases hown
      exact hi.of_unborn hs.coherent hj hlog
    | takePermit j r hj => exact hi.grow [.taken j r] rfl fun params hmem => Or.inl ⟨params, hmem⟩
    | dropPermit k j r hj hk =>
      -- the guard is not part of the queue
      have hrest : Moves C none _ _ := dropPermit_rest hs.coherent j r hk
      exact Registered.moves (c := (w.setPermit j none, _)) hi (by simp) hrest
    | _ => cases hown
  · exact Registered.moves (c := (w, .empty)) hi hown hmoves

omit [DecidableEq κ] [DecidableEq W] [Order O] in
theorem wrapPoll_inner (i : ι) (cx : W) (out : World ι κ W S O × PollResult S) :
    (wrapPoll i cx out).inner = out.1.inner := by
  unfold wrapPoll
  split <;> rfl

omit [DecidableEq κ] in
/-- Only a poll answers. -/
theorem Action.reports_answer {w : World ι κ W S O} {a : Action ι κ W S} {i : ι}
    (ha : ∀ cx calls, a ≠ .poll i cx calls) : ∀ e ∈ a.reports C w, e.answer? i = none := by
  intro e he
  cases a with
  | poll j cx calls =>
    have hji : j ≠ i := by
      rintro rfl
      exact ha cx calls rfl
    cases hj : w.slots j with
    | live a =>
      rw [Action.reports, hj, List.mem_singleton] at he
      subst he
      simp [Event.answer?, hji]
    | _ =>
      rw [Action.reports, hj] at he
      cases he
  | takePermit j =>
    obtain ⟨r, -, rfl⟩ := List.mem_map.mp he
    rfl
  | acquire | tryAcquire | withState | conjure | clearPoison =>
    rw [Action.reports, List.mem_singleton] at he
    subst he
    rfl
  | _ => cases he

/-- **Whoever is told `Pending` is registered**, and stays so until the next poll. -/
theorem Kept.step {w w' : World ι κ W S O} (hw : Kept w) (hs : Settled C w) {a : Action ι κ W S}
    (h : FlagBearer.step C w a = some w') : Kept w' := by
  intro i cx hlast
  rw [← lastAnswer_reports, step_reports hs h] at hlast
  by_cases ha : ∃ cx' calls, a = .poll i cx' calls
  · obtain ⟨cx', calls, rfl⟩ := ha
    cases step_cases h with
    | poll _ a _ _ hi =>
      have hanswer : lastAnswer i (reports w.log ++ (Action.poll i cx' calls).reports C w) =
          some (cx', (poll C w i a cx' calls).2) := by
        rw [Action.reports, hi]
        exact latest_snoc_of_some (if_pos rfl)
      rw [hanswer, Option.some.injEq, Prod.mk.injEq] at hlast
      obtain ⟨rfl, hpending⟩ := hlast
      have htells := poll_tells hs.coherent hi cx' calls
      obtain ⟨-, params, hmem⟩ := htells.pending hpending
      refine Or.inl ⟨params, ?_⟩
      rw [pollAcquire, wrapPoll_inner]
      exact hmem
  · have hother : ∀ cx' calls, a ≠ .poll i cx' calls := fun cx' calls hak => ha ⟨cx', calls, hak⟩
    unfold lastAnswer at hlast
    rw [latest_append_of_none (Action.reports_answer hother)] at hlast
    have hold : lastAnswer i w.log = some (cx, .returned .pending) := by
      rw [← lastAnswer_reports]
      exact hlast
    exact (hw i cx hold).step hs h hother

/-! ## Nobody is woken in vain -/

/-- At a poll that is pending, no waker of this future has been invoked. -/
def Unwoken (past : List (Event ι κ W S)) : Event ι κ W S → Prop
  | .polled i _ (.returned .pending) => ∀ k x held res, .woke k i x held res ∉ past
  | _ => True

omit [DecidableEq W] [Order O] in
/-- A node that is still undecided was not removed, and its waker was not invoked. -/
theorem not_woken_of_undecided {c : Conf ι κ W S O} (hbatched : ∀ k, Batched k c) {i : ι}
    (honce : DepartedOnce i c) (hi : ¬ Decided i c) (k : κ) (x : W) (held : Bool)
    (res : Unwind Unit) : .woke k i x held res ∉ c.1.log := by
  intro hwoke
  have hremoved : (i, x) ∈ removals k c.1.log := by
    rw [show removals k c.1.log = wakes k c.1.log ++ c.1.batch k from hbatched k]
    exact List.mem_append_left _ (List.mem_filterMap.mpr ⟨_, hwoke, if_pos rfl⟩)
  obtain ⟨e, he, hfrom⟩ := List.mem_filterMap.mp hremoved
  have hnone := List.countP_eq_zero.mp (honce.2 hi) e he
  cases e with
  | removed l kind j y =>
    simp only [Event.removed?] at hfrom
    split at hfrom
    · cases hfrom
      simp [Event.isDeparture] at hnone
    · cases hfrom
  | _ => cases hfrom

omit [DecidableEq W] in
theorem unwoken_move {c d : Conf ι κ W S O} (hc : Each Unwoken c.1.log)
    (hbatched : ∀ k, Batched k c) (honce : ∀ i, DepartedOnce i c) (hw : Coherent C c.1)
    (ht : Traced C c) (h : Move C own c d) : Each Unwoken d.1.log := by
  cases h with
  | note w h e he | reject w i p front e he | giveBack w i p e he =>
    cases he <;> exact each_snoc.mpr ⟨hc, trivial⟩
  | link w i p cx front queue hopen hq hi hown =>
    -- it joins the list, so it was not removed before
    refine each_append.mpr ⟨hc, trivial, ?_, trivial⟩
    have hundecided : ¬ Decided i (w, .params i p (some front)) :=
      not_decided_of_asks ht.consistent rfl
    intro k x held res hmem
    simp only [List.mem_append, List.mem_singleton, reduceCtorEq, or_false] at hmem
    exact not_woken_of_undecided hbatched (honce i) hundecided k x held res hmem
  | rewake w i params x cx before after res hq hres hown =>
    -- it is still in the list
    refine each_snoc.mpr ⟨hc, ?_⟩
    have hundecided : ¬ Decided i (w, (.empty : Hand ι S)) :=
      not_decided_of_linked (hw.slot_of_split hq)
    rcases hres with rfl | rfl
    · exact not_woken_of_undecided hbatched (honce i) hundecided
    · trivial
  | _ => simpa [each_append, Unwoken, World.callRelease, World.updateState] using hc

theorem Reachable.unwoken {state : S} {order : O} {w : World ι κ W S O}
    (h : Reachable C state order w) : Each Unwoken w.log := by
  have hinv : (∀ k, Batched k (w, (.empty : Hand ι S))) ∧
      (∀ i, DepartedOnce i (w, (.empty : Hand ι S))) ∧ Each Unwoken w.log := by
    refine Reachable.invariant_of_traced
      (fun c => (∀ k, Batched k c) ∧ (∀ i, DepartedOnce i c) ∧ Each Unwoken c.1.log) ?_ ?_ h
    · rintro c d hw ht ⟨hbatched, honce, hc⟩ own hm
      exact ⟨fun k => (hbatched k).move hm, fun i => DepartedOnce.move (honce i) hm,
        unwoken_move hc hbatched honce hw ht hm⟩
    · exact ⟨fun k => rfl, fun i => Once.start _ rfl, each_nil⟩
  exact hinv.2.2

/-! ## The contract -/

/-- What an executor may rely on. A future whose latest poll was `Pending` is in the list with the
waker of that poll, or a call has removed it and holds this waker in its batch or has invoked it,
or it was dropped; and a poll that is `Pending` was not preceded by a wake. -/
structure PendingContract (w : World ι κ W S O) : Prop where
  registered : ∀ i cx, lastAnswer i w.log = some (cx, .returned .pending) →
    (∃ params, (i, params, cx) ∈ w.inner.entries) ∨
      (∃ k, (i, cx) ∈ w.batch k ∨ ∃ held res, .woke k i cx held res ∈ w.log) ∨
      .cancelled i ∈ w.log
  unwoken : ∀ past i cx rest, w.log = past ++ .polled i cx (.returned .pending) :: rest →
    ∀ k x held res, .woke k i x held res ∉ past

theorem Reachable.kept {state : S} {order : O} {w : World ι κ W S O}
    (h : Reachable C state order w) : Kept w := by
  have hboth : Settled C w ∧ Kept w := by
    refine Transition.Reachable.invariant (fun w => Settled C w ∧ Kept w) ?_ ?_ h
    · exact ⟨Settled.new state order, fun i cx hlast => by cases hlast⟩
    · intro v v' a _ hv hstep
      exact ⟨hv.1.step hstep, hv.2.step hv.1 hstep⟩
  exact hboth.2

/-- **A pending future will be woken, and not in vain**, in every run and whatever unwinds in
it. -/
theorem pending_contract {state : S} {order : O} {w : World ι κ W S O}
    (h : Reachable C state order w) : PendingContract w := by
  constructor
  case registered =>
    intro i cx hlast
    rcases Reachable.kept h i cx hlast with hwaits | ⟨k, kind, hk⟩ | hcancelled
    · exact Or.inl hwaits
    · -- the waker of a removed node is in the batch, or was invoked
      have hremoved : (i, cx) ∈ removals k w.log :=
        List.mem_filterMap.mpr ⟨_, hk, if_pos rfl⟩
      rw [Reachable.batched h k, List.mem_append] at hremoved
      refine Or.inr (Or.inl ⟨k, ?_⟩)
      rcases hremoved with hwoken | hbatch
      · obtain ⟨e, he, hfrom⟩ := List.mem_filterMap.mp hwoken
        cases e with
        | woke l j y held res =>
          simp only [Event.woke?] at hfrom
          split at hfrom
          · rename_i hlk
            subst hlk
            cases hfrom
            exact Or.inr ⟨held, res, he⟩
          · cases hfrom
        | _ => cases hfrom
      · exact Or.inl hbatch
    · exact Or.inr (Or.inr hcancelled)
  case unwoken =>
    intro past i cx rest hlog
    exact each_iff.mp (Reachable.unwoken h) past _ rest hlog

/-- Two waiters with new wakers; one is granted, and its wake is still due. -/
theorem pending_contract_of_two :
    ∃ w : World Nat Nat Nat SemaphoreCounter FairOrder,
      run .closeable ⟨0⟩ .fifo [.acquire 0 (1 : Nat), .poll 0 7 .quiet, .acquire 1 (1 : Nat),
        .poll 1 8 .quiet, .poll 0 9 .quiet, .withState 0 (SemaphoreCounter.add 1)] = some w ∧
      PendingContract w :=
  exists_run _ rfl fun _ h => pending_contract h

end FlagBearer
