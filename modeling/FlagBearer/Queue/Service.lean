import FlagBearer.Queue.Closing
import FlagBearer.Queue.Wakes

/-!
# No Lost Wake-up

Between the lock sections of an open queue, the first waiter is one that `S::acquire` refuses,
or a call of `with_queue` has filled its batch and will lock and check again. A section that
changes the state or the head of the list ends with a check, which stops at the first waiter
that is refused; every other section keeps the refusal of the head.

The results of this file need the documented contract of `S::acquire` and that no user code
panics.

## Main results

- `checkLoop_stops`: where a check stops
- `withQueue_attends`: a call of `with_queue` leaves the head refused, or a check due
- `step_attends`: and so does every other step
- `no_lost_wakeup`: the statement about runs
-/

namespace FlagBearer

open PinList

variable {ι κ W S O : Type} [SemaphoreState S] {C : Closeability} {own : Option ι}

/-! ## Histories without panics -/

/-- No user code has panicked. -/
def Calm (log : List (Event ι κ W S)) : Prop := ∀ e ∈ log, e.isPanic = false

instance (log : List (Event ι κ W S)) : Decidable (Calm log) :=
  inferInstanceAs (Decidable (∀ e ∈ log, e.isPanic = false))

theorem Calm.of_append {log es : List (Event ι κ W S)} (h : Calm (log ++ es)) : Calm log :=
  fun e he => h e (List.mem_append_left es he)

theorem Calm.last {log : List (Event ι κ W S)} {e : Event ι κ W S} (h : Calm (log ++ [e])) :
    e.isPanic = false := h e (by simp)

/-- Without panics nothing is poisoned and no node loses its params. -/
def Intact (w : World ι κ W S O) : Prop :=
  Calm w.log → w.inner.poisoned = false ∧ ∀ e ∈ w.inner.entries, e.2.1 ≠ none

theorem Intact.move [DecidableEq ι] [DecidableEq κ] [Order O]
    {c d : Conf ι κ W S O} (hc : Intact c.1) (h : Move C own c d) :
    Intact d.1 := by
  intro hcalm
  obtain ⟨hpoison, hlive⟩ : c.1.inner.poisoned = false ∧ ∀ e ∈ c.1.inner.entries, e.2.1 ≠ none := by
    obtain ⟨es, hes⟩ := h.log_grows
    rw [hes] at hcalm
    exact hc hcalm.of_append
  -- what is left of a list of live nodes, and its first node with other params
  have live {before after : WaitList ι W S} {e : ι × Protected W S}
      (hq : c.1.inner.queue = .ok (before ++ e :: after)) :
      e.2.1 ≠ none ∧ ∀ e' ∈ before ++ after, e'.2.1 ≠ none := by
    rw [QueueState.entries_of_queue hq] at hlive
    exact ⟨hlive e (mem_split.mpr (Or.inl rfl)),
      fun e' he' => hlive e' (mem_split.mpr (Or.inr he'))⟩
  cases h with
  | link w i p cx front queue hopen hq =>
    refine ⟨hpoison, ?_⟩
    rw [QueueState.entries_of_queue hq] at hlive
    intro e he
    have hor : e = (i, some p, cx) ∨ e ∈ queue := by
      cases front
      · simpa [pushBack, or_comm] using he
      · simpa [pushFront] using he
    rcases hor with rfl | hold
    · simp
    · exact hlive e hold
  | grant w h k i p x r state before after c wakes hopen hq => exact ⟨hpoison, (live hq).2⟩
  | expel w h k i params x rest c wakes hclosed hq =>
    refine ⟨hpoison, ?_⟩
    rw [QueueState.entries_of_queue hq] at hlive
    exact fun e he => hlive e (List.mem_cons_of_mem _ he)
  | unlinkSelf w i params x before after hclosing hq => exact ⟨hpoison, (live hq).2⟩
  | cancelLinked w k i params x before after c hq => exact ⟨hpoison, (live hq).2⟩
  | refuse w h i p p' x state before after hopen hq =>
    refine ⟨hpoison, ?_⟩
    intro e he
    rcases mem_split.mp he with rfl | hold
    · simp
    · exact (live hq).2 e hold
  | rewake w i params x cx before after res hq =>
    refine ⟨hpoison, ?_⟩
    intro e he
    rcases mem_split.mp he with rfl | hold
    · exact (live hq).1
    · exact (live hq).2 e hold
  | discard w h hclosed hq => exact ⟨hpoison, fun e he => absurd he List.not_mem_nil⟩
  | lose w h i p x state before after => exact absurd hcalm.last (by simp [Event.isPanic])
  | loseNow w i p front state => exact absurd hcalm.last (by simp [Event.isPanic])
  | update w h f =>
    have hquiet : (f w.inner.state).2.isPanicked = false := hcalm.last
    exact ⟨by simpa [World.updateState, hquiet] using hpoison, hlive⟩
  | release w who i r =>
    have hquiet : (SemaphoreState.release w.inner.state r).2.isPanicked = false := hcalm.last
    exact ⟨by simpa [World.callRelease, hquiet] using hpoison, hlive⟩
  | clearPoison w h => exact ⟨rfl, hlive⟩
  | _ => exact ⟨hpoison, hlive⟩

theorem Reachable.intact [DecidableEq ι] [DecidableEq κ] [DecidableEq W] [Order O]
    {state : S} {order : O} {w : World ι κ W S O}
    (h : Reachable C state order w) : Intact w := by
  refine Reachable.invariant_of_moves (fun c => Intact c.1) ?_ ?_ h
  · intro c d _ hc _ hm
    exact hc.move hm
  · exact fun _ => ⟨rfl, fun e he => absurd he List.not_mem_nil⟩

/-! ## Where a check stops -/

/-- The first waiter is one that `S::acquire` refuses, if there is any. -/
def HeadRefused (q : QueueState ι W S O) : Prop :=
  ∀ e rest, q.entries = e :: rest → ∃ p, e.2.1 = some p ∧ Refused q.state p

/-- The first live waiter is one that `S::acquire` refuses, or no waiter is live. -/
def LiveRefused (q : QueueState ι W S O) : Prop :=
  (∀ e ∈ q.entries, e.2.1 = none) ∨
    ∃ before i p x after, q.entries = before ++ (i, some p, x) :: after ∧
      (∀ e ∈ before, e.2.1 = none) ∧ Refused q.state p

theorem LiveRefused.head {q : QueueState ι W S O} (h : LiveRefused q)
    (hlive : ∀ e ∈ q.entries, e.2.1 ≠ none) : HeadRefused q := by
  intro e rest hq
  rcases h with hdead | ⟨before, i, p, x, after, hsplit, hdead, hrefused⟩
  · exact absurd (hdead e (by simp [hq])) (hlive e (by simp [hq]))
  · cases before with
    | nil =>
      rw [hsplit] at hq
      cases hq
      exact ⟨p, rfl, hrefused⟩
    | cons e' before =>
      have hmem : e' ∈ q.entries := by simp [hsplit]
      exact absurd (hdead e' (by simp)) (hlive e' hmem)

/-- **Where a check stops**: its batch is full, or the first live waiter is refused. -/
theorem checkLoop_stops [DecidableEq ι] [DecidableEq κ]
    (htotal : AcquireTotal S) (hkeep : RefusalKeepsState S)
    (hret : ReturnsParams S) (k : κ) {before after : WaitList ι W S} {w : World ι κ W S O}
    {c : Call ι W S} (hw : Coherent C w) (hq : w.inner.queue = .ok (before ++ after))
    (hdead : ∀ e ∈ before, e.2.1 = none) (hk : w.calls k = some c)
    (hroom : c.wakes.isFull = false) :
    ∃ w' wakes, checkLoop k before after w = (w', .returned ()) ∧
      w'.calls k = some { c with wakes := wakes } ∧
      (wakes.isFull = true ∨ LiveRefused w'.inner) := by
  induction after generalizing before w c with
  | nil =>
    refine ⟨w, c.wakes, rfl, hk, Or.inr (Or.inl ?_)⟩
    rw [QueueState.entries_of_queue hq, List.append_nil]
    exact hdead
  | cons e after ih =>
    obtain ⟨i, params, x⟩ := e
    cases params with
    | none =>
      -- a dead node is passed over
      refine ih hw (by simpa using hq) (fun e he => ?_) hk hroom
      rcases List.mem_append.mp he with he | he
      · exact hdead e he
      · rw [List.mem_singleton.mp he]
    | some p =>
      rcases hacq : SemaphoreState.acquire w.inner.state p with ⟨state, (p' | r) | _⟩
      · -- refused, and by the contract it will be refused again
        have hp := hret _ _ _ _ hacq
        have hstate := hkeep _ _ _ _ hacq
        subst hp hstate
        rw [checkLoop_refuse k hacq]
        refine ⟨_, c.wakes, rfl, hk, Or.inr (Or.inr ⟨before, i, p', x, after, rfl, hdead, ?_⟩)⟩
        exact ⟨_, _, hacq⟩
      · -- granted: the batch is full now, or the loop goes on
        obtain ⟨wakes, hpush⟩ := WakeBatch.push_of_not_isFull hroom i x
        obtain ⟨w', hw', hres⟩ := checkLoop_grant k hw hq hk hpush hacq
        have hk' : w'.calls k = some { c with wakes := wakes } := by simp [hw']
        rw [hres]
        split
        · rename_i hfull
          exact ⟨w', wakes, rfl, hk', Or.inl hfull⟩
        · rename_i hfull
          have hcoh : Coherent C w' := hw.unlink hq (by rw [hw']) (by rw [hw']) (by rw [hw'])
            (by simp) (by rintro _ ⟨⟩; rfl) (by rw [hw'])
          exact @ih before w' { c with wakes := wakes } hcoh (by rw [hw']) hdead hk'
            (by simpa using hfull)
      · exact absurd (congrArg Prod.snd hacq) (htotal _ _)

/-- A call of `with_queue` has released the mutex with `more` set and no panic is unwinding
through it. -/
def World.Owes (w : World ι κ W S O) (k : κ) : Prop :=
  ∃ c, w.calls k = some c ∧ c.kind = .withQueue ∧ c.more = true ∧ c.unwinding = false

/-- What holds between lock sections: the first waiter is refused, or a check is due. -/
def Attended (w : World ι κ W S O) : Prop := HeadRefused w.inner ∨ ∃ k, w.Owes k

theorem headRefused_of_nil {q : QueueState ι W S O} (h : q.entries = []) : HeadRefused q := by
  intro e rest hq
  rw [h] at hq
  cases hq

/-- A check on a queue that admits nothing does nothing. -/
theorem withQueueTurn_inner [DecidableEq ι] [DecidableEq κ] {k : κ} {w : World ι κ W S O}
    (h : (w.inner.poisoned || w.inner.closing C) = true) :
    (withQueueTurn C k w).inner = w.inner := by
  simp [withQueueTurn, check, h, World.modifyCall_inner]

/-- A lock section that ends with a check leaves the queue attended. -/
theorem withQueueTurn_attends [DecidableEq ι] [DecidableEq κ]
    (htotal : AcquireTotal S) (hkeep : RefusalKeepsState S)
    (hret : ReturnsParams S) {k : κ} {w : World ι κ W S O} {c : Call ι W S} (hw : Coherent C w)
    (hk : w.calls k = some c) (hkind : c.kind = .withQueue) (hunw : c.unwinding = false)
    (hroom : c.wakes.isFull = false) (hw' : Coherent C (withQueueTurn C k w))
    (hpoison : (withQueueTurn C k w).inner.poisoned = false)
    (hlive : ∀ e ∈ (withQueueTurn C k w).inner.entries, e.2.1 ≠ none)
    (hopen : (withQueueTurn C k w).inner.closing C = false) : Attended (withQueueTurn C k w) := by
  by_cases hguard : (w.inner.poisoned || w.inner.closing C) = true
  · -- the check returns at once only if the queue is poisoned or closing
    rw [withQueueTurn_inner hguard] at hpoison hopen
    simp [hpoison, hopen] at hguard
  · rcases hq : w.inner.queue with _ | queue
    · have hboth : w.inner.poisoned = false ∧ w.inner.closing C = false := by simpa using hguard
      have hok := hw.isOk_of_open hboth.2
      simp [QueueState.isOk, hq] at hok
    · have hnone : ∀ e ∈ ([] : WaitList ι W S), e.2.1 = none := by simp
      have hq' : w.inner.queue = .ok ([] ++ queue) := hq
      obtain ⟨w₁, wakes, hloop, hk₁, hstop⟩ :=
        checkLoop_stops htotal hkeep hret k hw hq' hnone hk hroom
      have hturn : withQueueTurn C k w = w₁.unlock.setCall k
          (some { c with wakes := wakes, more := wakes.isFull && w₁.inner.len != 0 }) := by
        simp [withQueueTurn, check, hguard, hq, hloop, World.modifyCall, hk₁, World.batchFull]
      rw [hturn] at hw' hlive ⊢
      rcases hstop with hfull | hrefused
      · by_cases hlen : w₁.inner.len = 0
        · -- the batch is full and nobody is left
          have hnil : w₁.inner.entries = [] := by
            have hcount : w₁.inner.len = w₁.inner.entries.length := hw'.len
            exact List.length_eq_zero_iff.mp (hcount ▸ hlen)
          exact Or.inl (headRefused_of_nil hnil)
        · refine Or.inr ⟨k, _, Function.update_self .., hkind, ?_, hunw⟩
          simp [hfull, hlen]
      · exact Or.inl (hrefused.head hlive)

theorem World.modifyCall_log [DecidableEq κ]
    (w : World ι κ W S O) (k : κ) (f : Call ι W S → Call ι W S) :
    (w.modifyCall k f).log = w.log := by
  unfold World.modifyCall
  split <;> rfl

theorem Moves.log_grows [DecidableEq ι] [DecidableEq κ] [Order O]
    {c d : Conf ι κ W S O} (h : Moves C own c d) :
    ∃ es, d.1.log = c.1.log ++ es := by
  refine Transition.invariant_of_moves (fun e => ∃ es, e.1.log = c.1.log ++ es) ?_ h ⟨[], by simp⟩
  rintro a b ⟨es, hes⟩ hm
  obtain ⟨es', hes'⟩ := hm.log_grows
  exact ⟨es ++ es', by rw [hes', hes, List.append_assoc]⟩

theorem Moves.calm [DecidableEq ι] [DecidableEq κ] [Order O]
    {c d : Conf ι κ W S O} (h : Moves C own c d) (hcalm : Calm d.1.log) :
    Calm c.1.log := by
  obtain ⟨es, hes⟩ := h.log_grows
  rw [hes] at hcalm
  exact hcalm.of_append

section WithQueue

variable {k : κ} {h : Hand ι S} {w : World ι κ W S O}
  {f : World ι κ W S O → World ι κ W S O × Unwind Unit}

variable [DecidableEq ι] [DecidableEq κ] [Order O]

/-- Without panics, `with_queue` continues after its closure. -/
theorem withQueue_of_calm (hw : Coherent C w) (hk : w.calls k = none)
    (hclosure : ClosureMoves C own k h (w.enter k) (f (w.enter k)))
    (hcalm : Calm (withQueue C k w f).log) :
    Calm (f (w.enter k)).1.log ∧
      withQueue C k w f = if (f (w.enter k)).1.inner.len = 0 then (f (w.enter k)).1.unlock
        else withQueueTurn C k (f (w.enter k)).1 := by
  obtain ⟨c, hk', hkind, hwakes, hunw⟩ := hclosure.call
  have hcoh : Coherent C (f (w.enter k)).1 :=
    hw.moves ((enter_moves k h hk).trans hclosure.moves)
  have hpanics := hclosure.panics
  rcases hres : f (w.enter k) with ⟨w', _ | _⟩ <;> rw [hres] at hcoh hk' hpanics
  · rw [withQueue_of_returned hres] at hcalm ⊢
    refine ⟨?_, rfl⟩
    split at hcalm
    · exact hcalm
    · have hturn : Moves C own _ _ ∧ _ :=
        withQueueTurn_moves k .empty hcoh hk' hkind (by rw [hwakes]; rfl)
      exact hturn.1.calm hcalm
  · obtain ⟨e, he, hpanic⟩ := hpanics rfl
    rw [withQueue_of_panicked hres, World.modifyCall_log] at hcalm
    have hquiet := hcalm e he
    rw [hpanic] at hquiet
    cases hquiet

/-- **A call of `with_queue` attends to the queue**, whatever its closure has done to the state
and the list. -/
theorem withQueue_attends (htotal : AcquireTotal S) (hkeep : RefusalKeepsState S)
    (hret : ReturnsParams S) (hw : Coherent C w) (hk : w.calls k = none)
    (hclosure : ClosureMoves C own k h (w.enter k) (f (w.enter k)))
    (hintact : Intact (withQueue C k w f)) (hcalm : Calm (withQueue C k w f).log)
    (hopen : (withQueue C k w f).inner.closing C = false) : Attended (withQueue C k w f) := by
  obtain ⟨hpoison, hlive⟩ := hintact hcalm
  obtain ⟨c, hk', hkind, hwakes, hunw⟩ := hclosure.call
  have hcoh : Coherent C (f (w.enter k)).1 :=
    hw.moves ((enter_moves k h hk).trans hclosure.moves)
  have hcoh' : Coherent C (withQueue C k w f) := hw.moves (withQueue_moves k h hw hk f hclosure).1
  rw [(withQueue_of_calm hw hk hclosure hcalm).2] at hopen hpoison hlive hcoh' ⊢
  by_cases hlen : (f (w.enter k)).1.inner.len = 0
  · -- nobody waits
    have hnil : (f (w.enter k)).1.inner.entries = [] := by
      have hcount : (f (w.enter k)).1.inner.len = (f (w.enter k)).1.inner.entries.length := hcoh.len
      exact List.length_eq_zero_iff.mp (hcount ▸ hlen)
    rw [if_pos hlen]
    exact Or.inl (headRefused_of_nil hnil)
  · rw [if_neg hlen] at hopen hpoison hlive hcoh' ⊢
    exact withQueueTurn_attends htotal hkeep hret hcoh hk' hkind hunw (by rw [hwakes]; rfl)
      hcoh' hpoison hlive hopen

end WithQueue

/-! ## Sections that do not check -/

/-- The head stays refused, and no call is touched. -/
structure Undisturbed (w w' : World ι κ W S O) : Prop where
  head : HeadRefused w.inner → HeadRefused w'.inner
  calls : w'.calls = w.calls

theorem Undisturbed.attended {w w' : World ι κ W S O} (h : Undisturbed w w')
    (hw : Attended w) : Attended w' := by
  rcases hw with hhead | ⟨k, hk⟩
  · exact Or.inl (h.head hhead)
  · refine Or.inr ⟨k, ?_⟩
    unfold World.Owes at hk ⊢
    rwa [h.calls]

theorem Undisturbed.trans {w w' w'' : World ι κ W S O} (h : Undisturbed w w')
    (h' : Undisturbed w' w'') : Undisturbed w w'' :=
  ⟨fun hhead => h'.head (h.head hhead), h'.calls.trans h.calls⟩

/-- The head depends on the list and the state only. -/
theorem Undisturbed.of_same {w w' : World ι κ W S O}
    (hentries : w'.inner.entries = w.inner.entries) (hstate : w'.inner.state = w.inner.state)
    (hcalls : w'.calls = w.calls) : Undisturbed w w' := by
  refine ⟨fun hhead e rest hq => ?_, hcalls⟩
  rw [hstate]
  exact hhead e rest (hentries ▸ hq)

/-- What `acquire_or_enqueue` leaves behind: the head as it was, and params that joined the
queue at its head only after they were refused. -/
structure Admits (w : World ι κ W S O) (out : World ι κ W S O × Unwind (Outcome S)) : Prop where
  undisturbed : Undisturbed w out.1
  refused : ∀ front p, out.2 = .returned (.enqueue front p) →
    front = true ∨ out.1.inner.entries = [] → Refused out.1.inner.state p

theorem newErr_admits (w : World ι κ W S O) (p : Params S) : Admits w (newErr C w p) := by
  cases C with
  | closeable => exact ⟨.of_same rfl rfl rfl, by rintro _ _ ⟨⟩⟩
  | uncloseable => exact ⟨.of_same rfl rfl rfl, by rintro _ _ ⟨⟩⟩

/-- A refusal leaves the state alone, and a grant keeps the head refused. -/
theorem lead_admits (htotal : AcquireTotal S) (hkeep : RefusalKeepsState S)
    (hret : ReturnsParams S) (hgrant : GrantKeepsRefusals S) (w : World ι κ W S O) (i : ι)
    (p : Params S) (front : Bool) : Admits w (lead w i p front) := by
  rcases hacq : SemaphoreState.acquire w.inner.state p with ⟨state, (p' | r) | _⟩
  · have hp := hret _ _ _ _ hacq
    have hstate := hkeep _ _ _ _ hacq
    subst hp hstate
    have hrefused : Refused w.inner.state p' := ⟨_, _, hacq⟩
    simp only [lead, World.callAcquire, World.guarded, hacq]
    refine ⟨.of_same rfl rfl rfl, ?_⟩
    rintro _ _ ⟨⟩ _
    exact hrefused
  · simp only [lead, World.callAcquire, World.guarded, hacq]
    refine ⟨⟨?_, rfl⟩, by rintro _ _ ⟨⟩⟩
    intro hhead e rest hq
    obtain ⟨q, hparams, hrefused⟩ := hhead e rest hq
    have hnot := hgrant _ _ _ _ _ hacq hrefused
    exact ⟨q, hparams, (refused_or_granted htotal state q).resolve_right hnot⟩
  · exact absurd (congrArg Prod.snd hacq) (htotal _ _)

theorem acquireOrEnqueue_admits [Order O] (htotal : AcquireTotal S) (hkeep : RefusalKeepsState S)
    (hret : ReturnsParams S) (hgrant : GrantKeepsRefusals S) (w : World ι κ W S O) (i : ι)
    (p : Params S) (fair : Bool) : Admits w (acquireOrEnqueue C w i p fair) := by
  have hlead (w : World ι κ W S O) (front : Bool) : Admits w (lead w i p front) :=
    lead_admits htotal hkeep hret hgrant w i p front
  unfold acquireOrEnqueue
  split
  · exact ⟨.of_same rfl rfl rfl, by rintro _ _ ⟨⟩⟩
  split
  · exact newErr_admits w p
  rcases hq : w.inner.queue with _ | queue
  · exact newErr_admits w p
  cases fair with
  | false =>
    simp only [Bool.false_eq_true, if_false, Bool.true_or, Bool.not_true]
    exact hlead w true
  | true =>
    rcases hord : Order.enqueueFront w.inner.order w.inner.len with ⟨order, front | _⟩
    · simp only [if_true, World.consult, hord]
      have hconsult : Undisturbed w (({ w with inner := { w.inner with order := order } } :
          World ι κ W S O).emit (.consulted i w.inner.len (.returned front))) :=
        .of_same rfl rfl rfl
      split
      · -- behind others
        rename_i hbehind
        refine ⟨hconsult, ?_⟩
        rintro _ _ ⟨⟩ hhead
        have hentries : w.inner.entries = queue := QueueState.entries_of_queue hq
        simp only [Bool.not_or, Bool.and_eq_true, Bool.not_eq_true'] at hbehind
        rcases hhead with hfront | hnil
        · rw [hfront] at hbehind
          cases hbehind.1
        · have hqueue : queue = [] := hentries ▸ hnil
          rw [hqueue] at hbehind
          cases hbehind.2
      · have hadmit := hlead (({ w with inner := { w.inner with order := order } } :
          World ι κ W S O).emit (.consulted i w.inner.len (.returned front))) front
        exact ⟨hconsult.trans hadmit.undisturbed, hadmit.refused⟩
    · -- the order panics before anything is asked
      simp only [if_true, World.consult, hord]
      exact ⟨.of_same rfl rfl rfl, by rintro _ _ ⟨⟩⟩

variable [DecidableEq ι]

/-- A waiter that is refused joins the queue. -/
theorem link_undisturbed {w : World ι κ W S O} {i : ι} {queue : WaitList ι W S}
    (hq : w.inner.queue = .ok queue) {p : Params S} {front : Bool}
    (hrefused : front = true ∨ w.inner.entries = [] → Refused w.inner.state p) (cx : W) :
    Undisturbed w (link w i queue p cx front) := by
  have hentries : w.inner.entries = queue := QueueState.entries_of_queue hq
  unfold link
  split
  · refine ⟨fun hhead e rest hlist => ?_, rfl⟩
    cases front with
    | true =>
      obtain ⟨rfl, -⟩ : (i, some p, cx) = e ∧ queue = rest := List.cons.inj hlist
      exact ⟨p, rfl, hrefused (Or.inl rfl)⟩
    | false =>
      cases queue with
      | nil =>
        obtain ⟨rfl, -⟩ : (i, some p, cx) = e ∧ [] = rest := List.cons.inj hlist
        exact ⟨p, rfl, hrefused (Or.inr hentries)⟩
      | cons e' queue =>
        obtain ⟨rfl, -⟩ : e' = e ∧ queue ++ [(i, some p, cx)] = rest := List.cons.inj hlist
        exact hhead e' queue hentries
  · exact .of_same rfl rfl rfl

section Polls

variable (htotal : AcquireTotal S) (hkeep : RefusalKeepsState S) (hret : ReturnsParams S)
  (hgrant : GrantKeepsRefusals S)
include htotal hkeep hret hgrant

variable [Order O]

theorem pollFirst_undisturbed (w : World ι κ W S O) (i : ι) (p : Params S) (cx : W)
    (calls : WakerCalls) : Undisturbed w (pollFirst C w i p cx calls).1 := by
  have hadmit := acquireOrEnqueue_admits (C := C) htotal hkeep hret hgrant w i p true
  unfold pollFirst
  rcases hres : acquireOrEnqueue C w i p true with ⟨w', (r | p' | p' | ⟨front, p'⟩) | _⟩ <;>
    rw [hres] at hadmit
  · exact hadmit.undisturbed.trans (.of_same rfl rfl rfl)
  · exact hadmit.undisturbed.trans (.of_same rfl rfl rfl)
  · exact hadmit.undisturbed.trans (.of_same rfl rfl rfl)
  · apply hadmit.undisturbed.trans
    have hrefused := hadmit.refused front p' rfl
    rcases hq : w'.inner.queue with _ | queue
    · simp only [hq]
      exact .of_same rfl rfl rfl
    · simp only [hq]
      rcases calls.clone with _ | _
      · have hcloned : Undisturbed w' (w'.emit (.cloned cx (.returned ()))) :=
          .of_same rfl rfl rfl
        have hlinked : Undisturbed (w'.emit (.cloned cx (.returned ())))
            (link (w'.emit (.cloned cx (.returned ()))) i queue p' cx front) :=
          link_undisturbed (w := w'.emit (.cloned cx (.returned ()))) hq hrefused cx
        exact (hcloned.trans hlinked).trans (.of_same rfl rfl rfl)
      · exact .of_same rfl rfl rfl
  · exact hadmit.undisturbed.trans (.of_same rfl rfl rfl)

omit [DecidableEq ι] in
theorem tryAcquire_undisturbed (w : World ι κ W S O) (i : ι) (p : Params S) (fair : Bool) :
    Undisturbed w (tryAcquire C w i p fair).1 := by
  have hlock : Undisturbed w w.lock := .of_same rfl rfl rfl
  have hadmit := acquireOrEnqueue_admits (C := C) htotal hkeep hret hgrant w.lock i p fair
  have hkept := hlock.trans hadmit.undisturbed
  unfold tryAcquire
  rcases hres : acquireOrEnqueue C w.lock i p fair with ⟨w', (r | p' | p' | ⟨front, p'⟩) | _⟩ <;>
    rw [hres] at hkept
  all_goals exact hkept.trans (.of_same rfl rfl rfl)

end Polls

/-- A spurious wakeup keeps the params of every waiter. -/
theorem pollSpurious_undisturbed [DecidableEq W] {w : World ι κ W S O} (hw : Coherent C w) {i : ι}
    {data : Protected W S} {before after : WaitList ι W S}
    (hq : w.inner.queue = .ok (before ++ (i, data) :: after)) (cx : W) (calls : WakerCalls) :
    Undisturbed w (pollSpurious w i (before ++ (i, data) :: after) data cx calls).1 := by
  unfold pollSpurious
  split
  · exact .of_same rfl rfl rfl
  · rcases calls.clone with _ | _
    · have hset : setProtected (before ++ (i, data) :: after) i (data.1, cx) =
          before ++ (i, data.1, cx) :: after := setProtected_split (hw.nodup_of_queue hq)
      simp only [hset]
      have hkept : Undisturbed w ((w.emit (.cloned cx (.returned ()))).setList
          (before ++ (i, data.1, cx) :: after)) := by
        refine ⟨fun hhead e rest hlist => ?_, rfl⟩
        have hentries : w.inner.entries = before ++ (i, data) :: after :=
          QueueState.entries_of_queue hq
        cases before with
        | nil =>
          obtain ⟨rfl, -⟩ : (i, data.1, cx) = e ∧ after = rest := List.cons.inj hlist
          exact hhead (i, data) after hentries
        | cons e' before =>
          obtain ⟨rfl, -⟩ : e' = e ∧ before ++ (i, data.1, cx) :: after = rest :=
            List.cons.inj hlist
          exact hhead e' (before ++ (i, data) :: after) hentries
      rcases calls.drop with _ | _
      · exact hkept.trans (.of_same rfl rfl rfl)
      · exact hkept.trans (.of_same rfl rfl rfl)
    · exact .of_same rfl rfl rfl

theorem World.setNode_calls (w : World ι κ W S O) (i : ι) (n : Node (Removed S)) :
    (w.setNode i n).calls = w.calls := by
  unfold World.setNode
  split <;> rfl

theorem pollTake_undisturbed (w : World ι κ W S O) (i : ι) (node : Node (Removed S)) :
    Undisturbed w (pollTake w i node).1 := by
  have hset : Undisturbed w (w.setNode i .initial) :=
    .of_same (by rw [World.setNode_inner]) (by rw [World.setNode_inner]) (w.setNode_calls i _)
  unfold pollTake
  rcases node.takeRemoved with _ | (_ | p) | r
  · exact .of_same rfl rfl rfl
  all_goals exact hset.trans (.of_same rfl rfl rfl)

/-- The polls of a queue that is not closing. -/
theorem pollAgain_undisturbed [DecidableEq W] {w : World ι κ W S O} (hw : Coherent C w) {i : ι}
    {n : Node (Removed S)} (hi : w.slots i = .live ⟨n, none⟩) (hn : n ≠ .initial)
    (hopen : w.inner.closing C = false) (cx : W) (calls : WakerCalls) :
    Undisturbed w (pollAgain C w i n cx calls).1 := by
  cases n with
  | initial => exact absurd rfl hn
  | removed r =>
    rw [pollAgain_removed]
    exact pollTake_undisturbed w i (.removed r)
  | linked =>
    obtain ⟨before, data, after, hq, hlookup, -⟩ := hw.linked_split hi
    unfold pollAgain
    simp only [hq, hopen, Bool.false_eq_true, if_false, Node.protectedMut, hlookup]
    exact pollSpurious_undisturbed hw hq cx calls

/-! ## Steps -/

theorem wrapPoll_undisturbed {w : World ι κ W S O} {out : World ι κ W S O × PollResult S}
    (h : Undisturbed w out.1) (i : ι) (cx : W) : Undisturbed w (wrapPoll i cx out) := by
  unfold wrapPoll
  split
  all_goals exact h.trans (.of_same rfl rfl rfl)

theorem wrapTry_undisturbed {w : World ι κ W S O} {out : World ι κ W S O × TryResult S}
    (h : Undisturbed w out.1) (i : ι) (p : Params S) : Undisturbed w (wrapTry i p out) := by
  unfold wrapTry
  split
  all_goals exact h.trans (.of_same rfl rfl rfl)

variable [DecidableEq κ] [DecidableEq W] [Order O]

/-- A queue that is open after a step was open before it. -/
theorem step_was_open {w w' : World ι κ W S O} (hw : Settled C w) {a : Action ι κ W S}
    (h : step C w a = some w') (hopen : w'.inner.closing C = false) :
    w.inner.closing C = false := by
  rcases hclosing : w.inner.closing C with _ | _
  · rfl
  · have hclosed : w.inner.closed = true := (Bool.and_eq_true_iff.mp hclosing).2
    have hclosed' : w'.inner.closed = true :=
      Transition.invariant_of_moves (fun c => c.1.inner.closed = true)
        (fun c d hc hm => hm.closed hc) (step_moves hw h).1 hclosed
    have hcoh := hw.coherent.moves (step_moves hw h).1
    rw [hcoh.closing hclosed'] at hopen
    cases hopen

omit [DecidableEq W] in
/-- The next section of a `with_queue` call attends to the queue again. -/
theorem resume_attends (htotal : AcquireTotal S) (hkeep : RefusalKeepsState S)
    (hret : ReturnsParams S) {k : κ} {w : World ι κ W S O} {c : Call ι W S} (hw : Settled C w)
    (hk : w.calls k = some c) (hwakers : c.wakes.wakers = []) (hunw : c.unwinding = false)
    (hkind : c.kind = .withQueue) (hintact : Intact (resume C k w c))
    (hcalm : Calm (resume C k w c).log) (hopen : (resume C k w c).inner.closing C = false) :
    Attended (resume C k w c) := by
  have hmoves : Moves C none (w, .empty) _ ∧ _ := resume_moves hw hk hwakers
  have hcoh : Coherent C (resume C k w c) := hw.coherent.moves hmoves.1
  obtain ⟨hpoison, hlive⟩ := hintact hcalm
  have henter : Coherent C (w.lock.emit (.entered k .withQueue)) :=
    hw.coherent.frame_inner rfl rfl rfl rfl
  have hroom : c.wakes.isFull = false := WakeBatch.not_isFull_of_nil hwakers
  simp only [resume, hkind] at hcoh hpoison hlive hopen ⊢
  exact withQueueTurn_attends htotal hkeep hret henter hk hkind hunw hroom hcoh hpoison hlive
    hopen

omit [DecidableEq ι] [DecidableEq W] [Order O] in
/-- An invoked waker leaves the debts of its call alone. -/
theorem wakeNext_attends {w w' : World ι κ W S O} {k : κ} {c : Call ι W S}
    (hk : w.calls k = some c) {res : Unwind Unit} (h : wakeNext k w c res = some w')
    (hcalm : Calm w'.log) (hw : Attended w) : Attended w' := by
  unfold wakeNext at h
  rcases hpop : c.wakes.pop with _ | ⟨⟨i, x⟩, rest⟩
  · rw [hpop] at h
    cases h
  · rw [hpop] at h
    cases res with
    | panicked =>
      -- excluded: nothing panics in a calm history
      have hquiet : Event.isPanic (.woke k i x w.locked .panicked : Event ι κ W S) = false := by
        rcases hunw : c.unwinding with _ | _
        · simp only [hunw, Option.some.injEq] at h
          subst h
          exact Calm.last hcalm
        · simp [hunw] at h
      cases hquiet
    | returned u =>
      cases u
      simp only [Option.some.injEq] at h
      subst h
      rcases hw with hhead | ⟨l, c', hl, hkind, hmore, hunw⟩
      · exact Or.inl hhead
      · refine Or.inr ⟨l, ?_⟩
        by_cases hlk : l = k
        · subst hlk
          rw [hk] at hl
          cases hl
          exact ⟨_, Function.update_self .., hkind, hmore, hunw⟩
        · exact ⟨c', (Function.update_of_ne hlk _ _).trans hl, hkind, hmore, hunw⟩

omit [DecidableEq ι] [DecidableEq W] [Order O] in
/-- A call that owes a check does not end. -/
theorem finish_of_more {w : World ι κ W S O} {k : κ} {c : Call ι W S} (hmore : c.more = true)
    (hunw : c.unwinding = false) (res : Unwind Unit) : finish k w c res = none := by
  simp [finish, hmore, hunw]

omit [DecidableEq ι] [DecidableEq κ] [DecidableEq W] [Order O] in
theorem dropAbandoned_undisturbed (w : World ι κ W S O) (res : Unwind Unit)
    (data : Option (NodeData (Protected W S) (Removed S))) :
    Undisturbed w (dropAbandoned w res data) := by
  rcases data with _ | ⟨⟨_ | p, x⟩⟩ | ⟨⟨_ | p⟩ | r⟩
  all_goals exact .of_same rfl rfl rfl

omit [DecidableEq ι] [DecidableEq W] [Order O] in
theorem finish_attends {w w' : World ι κ W S O} {k : κ} {c : Call ι W S}
    (hk : w.calls k = some c) {res : Unwind Unit} (h : finish k w c res = some w')
    (hw : Attended w) : Attended w' := by
  obtain ⟨-, ended, -, rfl⟩ := finish_eq_some h
  have hdrop := dropAbandoned_undisturbed w res c.abandoned
  rcases hw with hhead | ⟨l, c', hl, hkind, hmore, hunw⟩
  · exact Or.inl (hdrop.head hhead)
  · have hlk : l ≠ k := by
      rintro rfl
      rw [hk] at hl
      cases hl
      rw [finish_of_more hmore hunw] at h
      cases h
    refine Or.inr ⟨l, c', ?_, hkind, hmore, hunw⟩
    have hkept := (congrFun hdrop.calls l).trans hl
    exact (Function.update_of_ne hlk _ _).trans hkept

/-- **A step attends to the queue**: it keeps the head refused or a check due, or it ends with
a check of its own. -/
theorem step_attends (htotal : AcquireTotal S) (hkeep : RefusalKeepsState S)
    (hret : ReturnsParams S) (hgrant : GrantKeepsRefusals S) {w w' : World ι κ W S O}
    (hs : Settled C w) {a : Action ι κ W S} (h : step C w a = some w') (hintact : Intact w')
    (hcalm : Calm w'.log) (hopen' : w'.inner.closing C = false) (hw : Attended w) :
    Attended w' := by
  have hcoh := hs.coherent
  have hopen := step_was_open hs h hopen'
  cases step_cases h with
  | acquire i p hi =>
    exact (Undisturbed.of_same rfl rfl rfl).attended hw
  | poll i a cx calls hi =>
    refine (wrapPoll_undisturbed ?_ i cx).attended hw
    obtain ⟨n, params⟩ := a
    by_cases hn : n = .initial
    · subst hn
      cases params with
      | none => exact .of_same rfl rfl rfl
      | some p =>
        have hask : Undisturbed w (w.lock.setSlot i (.live ⟨.initial, none⟩)) :=
          .of_same rfl rfl rfl
        exact hask.trans (pollFirst_undisturbed htotal hkeep hret hgrant _ i p cx calls)
    · have hparams : params = none := hcoh.asked i _ hi hn
      subst hparams
      have hlock : Undisturbed w w.lock := .of_same rfl rfl rfl
      have hcoh' : Coherent C w.lock := hcoh.frame_inner rfl rfl rfl rfl
      rw [poll_of_asked w i hn cx calls]
      exact hlock.trans (pollAgain_undisturbed hcoh' hi hn hopen cx calls)
  | tryAcquire i p fair hi =>
    have hgone : Undisturbed w (w.setSlot i .gone) := .of_same rfl rfl rfl
    have htry := hgone.trans
      (tryAcquire_undisturbed (C := C) htotal hkeep hret hgrant (w.setSlot i .gone) i p fair)
    exact (wrapTry_undisturbed htry i p).attended hw
  | withState k f hk =>
    have hclosure : ClosureMoves C none k .empty _ _ := updateState_closure f (w.enter_call k)
    exact withQueue_attends htotal hkeep hret hcoh hk hclosure hintact hcalm hopen'
  | dropAcquire k i a hi hk =>
    obtain ⟨n, params⟩ := a
    by_cases hn : n = .initial
    · subst hn
      cases params with
      | none => exact (Undisturbed.of_same rfl rfl rfl).attended hw
      | some p => exact (Undisturbed.of_same rfl rfl rfl).attended hw
    · have hparams : params = none := hcoh.asked i _ hi hn
      subst hparams
      -- what the node held goes back, and the section checks
      rw [dropAcquire_of_asked k w i hn] at hintact hcalm hopen' ⊢
      have hclosure := dropNode_closure (hcoh.enter hk) hi hn (w.enter_call k)
      exact withQueue_attends htotal hkeep hret hcoh hk hclosure hintact hcalm hopen'
  | dropPermit k i r hi hk =>
    have hcoh' : Coherent C (w.setPermit i none) := hcoh.frame_inner rfl rfl rfl rfl
    have hclosure : ClosureMoves C none k (.releasing .guard i r) _ _ :=
      callRelease_closure .guard i r ((w.setPermit i none).enter_call k)
    exact withQueue_attends htotal hkeep hret hcoh' hk hclosure hintact hcalm hopen'
  | takePermit i r hi =>
    exact (Undisturbed.of_same rfl rfl rfl).attended hw
  | conjure i r hi =>
    exact (Undisturbed.of_same rfl rfl rfl).attended hw
  | close k hC hk =>
    -- the queue would not be open afterwards
    subst hC
    have hclosed := close_closed h
    have hcoh' := hcoh.moves (step_moves hs h).1
    rw [hcoh'.closing hclosed] at hopen'
    cases hopen'
  | clearPoison =>
    exact (Undisturbed.of_same rfl rfl rfl).attended hw
  | observe =>
    exact (Undisturbed.of_same rfl rfl rfl).attended hw
  | resume k c hk hwakes hunw hmore =>
    have hcoh' := hcoh.moves (step_moves hs h).1
    cases hkind : c.kind with
    | withQueue =>
      exact resume_attends htotal hkeep hret hs hk hwakes hunw hkind hintact hcalm
        hopen'
    | close =>
      -- a section of `close`, as above
      have hclosed : (resume C k w c).inner.closed = true := by
        simp only [resume, hkind]
        exact closeTurn_closed k w
      rw [hcoh'.closing hclosed] at hopen'
      cases hopen'
  | wake k c res w' hk h =>
    exact wakeNext_attends hk h hcalm hw
  | finish k c res w' hk h =>
    exact finish_attends hk h hw

/-! ## Runs -/

/-- A call that will lock the queue again and check it: it does not end before, and what it
does next is to wake a task of its batch or to lock. -/
structure WillCheck (C : Closeability) (w : World ι κ W S O) (k : κ) : Prop where
  owes : w.Owes k
  goes_on : ∀ drop, step C w (.finish k drop) = none
  wakes : w.batch k ≠ [] → ∃ w', step C w (.wake k (.returned ())) = some w'
  locks : w.batch k = [] → ∃ w', step C w (.resume k) = some w'

theorem World.Owes.willCheck {w : World ι κ W S O} {k : κ} (h : w.Owes k) : WillCheck C w k := by
  obtain ⟨c, hk, hkind, hmore, hunw⟩ := h
  have hbatch : w.batch k = c.wakes.wakers := by simp [World.batch, hk]
  refine ⟨⟨c, hk, hkind, hmore, hunw⟩, ?_, ?_, ?_⟩
  · intro drop
    simp only [step, hk]
    exact finish_of_more hmore hunw drop
  · intro hne
    rw [hbatch] at hne
    simp only [step, hk]
    rcases hpop : c.wakes.pop with _ | ⟨e, rest⟩
    · exact absurd (WakeBatch.pop_eq_none.mp hpop) hne
    · unfold wakeNext
      rw [hpop]
      exact ⟨_, rfl⟩
  · intro hnil
    rw [hbatch] at hnil
    refine ⟨resume C k w c, ?_⟩
    simp [step, hk, hnil, hmore, hunw]

theorem Reachable.attended (htotal : AcquireTotal S) (hkeep : RefusalKeepsState S)
    (hret : ReturnsParams S) (hgrant : GrantKeepsRefusals S) {state : S} {order : O}
    {w : World ι κ W S O} (h : Reachable C state order w) (hcalm : Calm w.log)
    (hopen : w.inner.closing C = false) : Attended w := by
  have hinv : Calm w.log → w.inner.closing C = false → Attended w := by
    refine Transition.Reachable.invariant
      (fun w => Calm w.log → w.inner.closing C = false → Attended w) ?_ ?_ h
    · intro _ _
      exact Or.inl (headRefused_of_nil rfl)
    · intro v v' a hv hinv hstep hcalm' hopen'
      have hv' : Reachable C state order v' := hv.next a hstep
      have hsettled := Reachable.settled hv
      have hcalm : Calm v.log := (step_moves hsettled hstep).1.calm hcalm'
      have hattended := hinv hcalm (step_was_open hsettled hstep hopen')
      exact step_attends htotal hkeep hret hgrant hsettled hstep (Reachable.intact hv') hcalm'
        hopen' hattended
  exact hinv hcalm hopen

omit [DecidableEq ι] [DecidableEq κ] [DecidableEq W] [Order O] in
/-- If no operation is in progress, no check is due. -/
theorem Attended.headRefused {w : World ι κ W S O} (h : Attended w) (hquiet : Quiescent w) :
    HeadRefused w.inner := by
  rcases h with hhead | ⟨k, c, hk, -⟩
  · exact hhead
  · rw [hquiet k] at hk
    cases hk

/-- **No lost wake-up.** Let `S::acquire` honour its contract, and let no user code panic.
Then, as long as the queue is open, the first waiter is one that `S::acquire` refuses, or a
call of `with_queue` will lock and check again; and if no operation is in progress, the first
waiter is refused. -/
theorem no_lost_wakeup (htotal : AcquireTotal S) (hkeep : RefusalKeepsState S)
    (hret : ReturnsParams S) (hgrant : GrantKeepsRefusals S) {state : S} {order : O}
    {w : World ι κ W S O} (h : Reachable C state order w) (hcalm : Calm w.log)
    (hopen : w.inner.closing C = false) {head : ι × Protected W S} {rest : WaitList ι W S}
    (hwaits : w.inner.entries = head :: rest) :
    ((∃ p, head.2.1 = some p ∧ Refused w.inner.state p) ∨ ∃ k, WillCheck C w k) ∧
      (Quiescent w → ∃ p, head.2.1 = some p ∧ Refused w.inner.state p) := by
  have hattended := Reachable.attended htotal hkeep hret hgrant h hcalm hopen
  constructor
  · rcases hattended with hhead | ⟨k, hk⟩
    · exact Or.inl (hhead head rest hwaits)
    · exact Or.inr ⟨k, hk.willCheck⟩
  · intro hquiet
    exact hattended.headRefused hquiet head rest hwaits

/-- Two permits are available, and the waiter for one is behind a waiter for three. -/
theorem no_lost_wakeup_behind_large :
    ∃ w : World Nat Nat Nat SemaphoreCounter FairOrder,
      run .closeable ⟨0⟩ .fifo [.acquire 0 (3 : Nat), .poll 0 7 .quiet, .acquire 1 (1 : Nat),
        .poll 1 8 .quiet, .withState 0 (SemaphoreCounter.add 2),
        .finish 0 (.returned ())] = some w ∧
      ∃ head rest, w.inner.entries = head :: rest ∧
        ((∃ p, head.2.1 = some p ∧ Refused w.inner.state p) ∨ ∃ k, WillCheck .closeable w k) := by
  apply exists_run_of_test _ (fun w => decide (Calm w.log) && !w.inner.closing .closeable &&
    !w.inner.entries.isEmpty) rfl
  intro w hrun htest
  have h : Reachable .closeable ⟨0⟩ .fifo w := Transition.reachable_iff_exec.mpr ⟨_, hrun⟩
  simp only [Bool.and_eq_true, decide_eq_true_eq, Bool.not_eq_true', List.isEmpty_eq_false_iff]
    at htest
  obtain ⟨head, rest, hwaits⟩ := List.exists_cons_of_ne_nil htest.2
  exact ⟨head, rest, hwaits, (no_lost_wakeup SemaphoreCounter.acquireTotal
    SemaphoreCounter.refusalKeepsState SemaphoreCounter.returnsParams
    SemaphoreCounter.grantKeepsRefusals h htest.1.1 htest.1.2 hwaits).1⟩

end FlagBearer
