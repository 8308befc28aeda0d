import FlagBearer.Queue.Consultations
import FlagBearer.Queue.Reports

/-!
# What a Request Is Answered

A future is ready at most once; afterwards a poll panics. A poll that reports `Pending` leaves its
node in the list, with the waker of that poll. A poll or a `try_acquire` reports that the queue is
closed only if it is, and only a close leaves such an error in a node.

## Main results

- `poll_tells`: what the answer of a poll says about its future
- `ready_once`: the answers of one future, in every run
- `Reachable.closed_of_refusing`: what a refusal says about the queue
-/

namespace FlagBearer

open PinList

variable {ι κ W S O : Type} [SemaphoreState S] {C : Closeability}

/-! ## One poll -/

/-- What the answer of a poll says about the future, before and after. -/
structure PollTells (C : Closeability) (w : World ι κ W S O) (i : ι) (cx : W)
    (out : World ι κ W S O × PollResult S) : Prop where
  spent : (w.slots i).Spent → out.2 = .panicked
  ready : ∀ res, out.2 = .returned (.ready res) → (out.1.slots i).Spent
  pending : out.2 = .returned .pending →
    out.1.slots i = .live ⟨.linked, none⟩ ∧ ∃ params, (i, params, cx) ∈ out.1.inner.entries
  refused : ∀ p, out.2 = .returned (.ready (.error p)) →
    w.inner.closing C = true ∨ w.slots i = .live ⟨.removed (.error (some p)), none⟩

/-- A poll that panics says nothing. -/
theorem PollTells.of_panicked {w : World ι κ W S O} {i : ι} {cx : W}
    {out : World ι κ W S O × PollResult S} (h : out.2 = .panicked) : PollTells C w i cx out := by
  obtain ⟨w', res⟩ := out
  obtain rfl : res = .panicked := h
  constructor <;> simp

/-- A poll that is answered for good. -/
theorem PollTells.of_ready {w w' : World ι κ W S O} {i : ι} {cx : W}
    {res : Except (Params S) (Permit S)} (hbefore : ¬ (w.slots i).Spent)
    (hafter : (w'.slots i).Spent)
    (hrefused : ∀ p, res = .error p →
      w.inner.closing C = true ∨ w.slots i = .live ⟨.removed (.error (some p)), none⟩) :
    PollTells C w i cx (w', .returned (.ready res)) := by
  constructor
  case spent => exact fun h => absurd h hbefore
  case ready => exact fun _ _ => hafter
  case pending => exact fun h => by cases h
  case refused =>
    intro p hp
    cases hp
    exact hrefused p rfl

/-- A poll that leaves its node in the list. -/
theorem PollTells.of_pending {w w' : World ι κ W S O} {i : ι} {cx : W}
    (hbefore : ¬ (w.slots i).Spent) (hslot : w'.slots i = .live ⟨.linked, none⟩)
    (hwaits : ∃ params, (i, params, cx) ∈ w'.inner.entries) :
    PollTells C w i cx (w', .returned .pending) := by
  constructor
  case spent => exact fun h => absurd h hbefore
  case ready => exact fun _ h => by cases h
  case pending => exact fun _ => ⟨hslot, hwaits⟩
  case refused => exact fun _ h => by cases h

/-- Only a closing queue answers that it is closed. -/
theorem acquireOrEnqueue_closed [Order O]
    {w : World ι κ W S O} (hw : Coherent C w) {i : ι} {p q : Params S}
    {fair : Bool} (h : (acquireOrEnqueue C w i p fair).2 = .returned (.closed q)) :
    w.inner.closing C = true := by
  by_contra hopen
  have hclosing : w.inner.closing C = false := by simpa using hopen
  obtain ⟨queue, hq⟩ := hw.queue_of_open hclosing
  have hlead (v : World ι κ W S O) (front : Bool) :
      (lead v i p front).2 ≠ .returned (.closed q) := by
    rcases hacq : SemaphoreState.acquire v.inner.state p with ⟨state, (p' | r) | _⟩ <;>
      simp [lead, World.callAcquire, hacq]
  unfold acquireOrEnqueue at h
  simp only [hclosing, Bool.false_eq_true, if_false, hq] at h
  split at h
  · cases h
  · split at h
    · cases h
    · split at h
      · cases h
      · exact hlead _ _ h

variable [DecidableEq ι]

theorem link_slots {w : World ι κ W S O} {i : ι} (hi : w.slots i = .live ⟨.initial, none⟩)
    (queue : WaitList ι W S) (p : Params S) (cx : W) (front : Bool) :
    (link w i queue p cx front).slots i = .live ⟨.linked, none⟩ ∧
      (i, some p, cx) ∈ (link w i queue p cx front).inner.entries := by
  unfold link
  simp only [hi]
  refine ⟨Function.update_self .., ?_⟩
  cases front <;> simp [pushFront, pushBack]

/-- The first poll. -/
theorem pollFirst_tells [DecidableEq κ] [Order O]
    {w v : World ι κ W S O} (hv : Coherent C v) {i : ι} {p : Params S}
    (hi : w.slots i = .live ⟨.initial, some p⟩) (hinner : v.inner = w.inner)
    (hslot : v.slots i = .live ⟨.initial, none⟩) (cx : W) (calls : WakerCalls) :
    PollTells C w i cx (pollFirst C v i p cx calls) := by
  have hbefore : ¬ (w.slots i).Spent := by simp [hi]
  have hadmission : AdmissionMoves C (some i) v i p true (acquireOrEnqueue C v i p true) :=
    acquireOrEnqueue_moves hv i p true
  have hslot' : (acquireOrEnqueue C v i p true).1.slots i = .live ⟨.initial, none⟩ := by
    rw [hadmission.slots, hslot]
  have hafter : ((acquireOrEnqueue C v i p true).1.slots i).Spent := by simp [hslot']
  unfold pollFirst
  rcases hres : acquireOrEnqueue C v i p true with ⟨v', (r | q | q | ⟨front, q⟩) | _⟩
  all_goals rw [hres] at hslot' hafter
  · -- granted
    exact .of_ready hbefore hafter (fun q hq => by cases hq)
  · -- closed
    refine .of_ready hbefore hafter fun _ _ => Or.inl ?_
    rw [← hinner]
    exact acquireOrEnqueue_closed hv (congrArg Prod.snd hres)
  · exact .of_panicked rfl
  · -- queued, unless the clone of the waker panics
    simp only
    split
    · exact .of_panicked rfl
    · rename_i queue hq
      split
      · exact .of_panicked rfl
      · obtain ⟨hlinked, hwaits⟩ := link_slots (w := v'.emit (.cloned cx (.returned ()))) hslot'
          queue q cx front
        exact .of_pending hbefore hlinked ⟨some q, hwaits⟩
  · exact .of_panicked rfl

/-- A poll of a node that was removed. -/
theorem pollTake_tells {w v : World ι κ W S O} {i : ι} {r : Removed S}
    (hi : w.slots i = .live ⟨.removed r, none⟩) (hslots : v.slots = w.slots) (cx : W) :
    PollTells C w i cx (pollTake v i (.removed r)) := by
  have hbefore : ¬ (w.slots i).Spent := by simp [hi]
  have hnode : v.setNode i .initial = v.setSlot i (.live ⟨.initial, none⟩) :=
    World.setNode_of_live (by rw [hslots, hi])
  simp only [pollTake, Node.takeRemoved, hnode]
  rcases r with (_ | p) | r
  · exact .of_panicked rfl
  · refine .of_ready hbefore (by simp) fun q hq => ?_
    cases hq
    exact Or.inr hi
  · exact .of_ready hbefore (by simp) fun q hq => by cases hq

/-- A poll of a node that is still in the list. -/
theorem pollAgain_tells [DecidableEq W] {w v : World ι κ W S O} (hv : Coherent C v) {i : ι}
    (hi : w.slots i = .live ⟨.linked, none⟩) (hinner : v.inner = w.inner)
    (hslots : v.slots = w.slots) (cx : W) (calls : WakerCalls) :
    PollTells C w i cx (pollAgain C v i .linked cx calls) := by
  have hbefore : ¬ (w.slots i).Spent := by simp [hi]
  have hi' : v.slots i = .live ⟨.linked, none⟩ := by rw [hslots, hi]
  obtain ⟨before, ⟨params, x⟩, after, hq, hlookup, hremove⟩ := hv.linked_split hi'
  unfold pollAgain
  simp only [hq]
  by_cases hclosing : v.inner.closing C = true
  · -- it leaves the list of its own accord
    have hslot : ((((v.setList (before ++ after)).setNode i .initial).emit
        (.unlinked i)).decLen.unlock.slots i).Spent := by
      simp [World.setNode, hi', World.decLen, hv.len_ne_zero hq]
    simp only [hclosing, if_true, Node.unlink, hlookup, hremove, Option.map_some, pollUnlinked]
    rcases calls.drop with _ | _ <;> rcases params with _ | p
    · exact .of_panicked rfl
    · refine .of_ready hbefore hslot fun q hq => Or.inl ?_
      rw [← hinner]
      exact hclosing
    · exact .of_panicked rfl
    · exact .of_panicked rfl
  · -- it stays linked, whichever waker it has now
    have hset : setProtected (before ++ (i, params, x) :: after) i (params, cx) =
        before ++ (i, params, cx) :: after := setProtected_split (hv.nodup_of_queue hq)
    simp only [hclosing, Bool.false_eq_true, if_false, Node.protectedMut, hlookup, pollSpurious]
    split
    · rename_i hsame
      refine .of_pending hbefore hi' ⟨params, ?_⟩
      rw [World.unlock_inner, QueueState.entries_of_queue hq, ← hsame]
      simp
    · rcases calls.clone with _ | _
      · rcases calls.drop with _ | _
        · refine .of_pending hbefore hi' ⟨params, ?_⟩
          rw [hset]
          exact List.mem_append_right _ (List.mem_cons_self ..)
        · exact .of_panicked rfl
      · exact .of_panicked rfl

/-- **What the answer of a poll says about the future**: it is ready only once, pending only
while the node waits with the waker of this poll, and refused only by a queue that is closed. -/
theorem poll_tells [DecidableEq κ] [DecidableEq W] [Order O]
    {w : World ι κ W S O} (hw : Coherent C w) {i : ι} {a : Acquire S}
    (hi : w.slots i = .live a) (cx : W) (calls : WakerCalls) :
    PollTells C w i cx (poll C w i a cx calls) := by
  have hlock : Coherent C w.lock := hw.frame_inner rfl rfl rfl rfl
  obtain ⟨n, params⟩ := a
  by_cases hn : n = .initial
  · subst hn
    cases params with
    | none => exact .of_panicked rfl
    | some p =>
      have hasked : Coherent C (w.lock.setSlot i (.live ⟨.initial, none⟩)) :=
        hlock.setSlot rfl rfl (by simp [hi]) (by simp)
      exact pollFirst_tells hasked hi rfl (Function.update_self ..) cx calls
  · obtain rfl : params = none := hw.asked i _ hi hn
    rw [poll_of_asked w i hn cx calls]
    cases n with
    | initial => exact absurd rfl hn
    | linked => exact pollAgain_tells hlock hi rfl rfl cx calls
    | removed r =>
      rw [pollAgain_removed]
      exact pollTake_tells (v := w.lock) hi rfl cx

/-! ## Ready once -/

theorem wrapPoll_slots (i : ι) (cx : W) (out : World ι κ W S O × PollResult S) :
    (wrapPoll i cx out).slots = out.1.slots := by
  unfold wrapPoll
  split <;> rfl

variable [DecidableEq κ] [DecidableEq W] [Order O]

/-- A future from which nothing is left stays so. -/
theorem step_spent {w w' : World ι κ W S O} (hw : Settled C w) {a : Action ι κ W S}
    (h : step C w a = some w') {i : ι} (hi : (w.slots i).Spent) : (w'.slots i).Spent := by
  have hresolved : Resolved i (w', (.empty : Hand ι S)) :=
    Transition.invariant_of_moves (Resolved i) (fun _ _ hc hm => hc.move hm) (step_moves hw h).1
      ⟨hi, id⟩
  exact hresolved.1

/-- A poll answers only if no poll of the same request was ready before. -/
def Fresh (past : List (Event ι κ W S)) : Event ι κ W S → Prop
  | .polled i _ (.returned _) => ∀ cx res, .polled i cx (.returned (.ready res)) ∉ past
  | _ => True

/-- No answer follows a final one, and whoever was given a final answer is spent. -/
structure AnsweredOnce (w : World ι κ W S O) : Prop where
  fresh : History.Each Fresh (reports w.log)
  spent : ∀ i cx res, .polled i cx (.returned (.ready res)) ∈ reports w.log → (w.slots i).Spent

theorem AnsweredOnce.step {w w' : World ι κ W S O} (hw : AnsweredOnce w) (hs : Settled C w)
    {a : Action ι κ W S} (h : FlagBearer.step C w a = some w') : AnsweredOnce w' := by
  have hreports := step_reports hs h
  have hspent {i : ι} (hi : (w.slots i).Spent) : (w'.slots i).Spent := step_spent hs h hi
  -- an action whose reports are not answers of polls
  have other (ha : ∀ e ∈ a.reports C w, ∀ i cx res, e ≠ .polled i cx res) : AnsweredOnce w' := by
    constructor
    case fresh =>
      rw [hreports]
      refine History.each_append.mpr ⟨hw.fresh, History.eachFrom_of_trivial fun e he past => ?_⟩
      cases e with
      | polled i cx res => exact absurd rfl (ha _ he i cx res)
      | _ => trivial
    case spent =>
      intro i cx res hmem
      rw [hreports, List.mem_append] at hmem
      rcases hmem with hold | hnew
      · exact hspent (hw.spent i cx res hold)
      · exact absurd rfl (ha _ hnew i cx _)
  cases step_cases h with
  | poll i a cx calls hi =>
    have htells := poll_tells hs.coherent hi cx calls
    rw [Action.reports, hi] at hreports
    simp only at hreports
    constructor
    case fresh =>
      rw [hreports]
      refine History.each_snoc.mpr ⟨hw.fresh, ?_⟩
      rcases hres : (poll C w i a cx calls).2 with res | _
      · -- it has answered, so nobody was ready before
        intro cx' res' hmem
        rw [htells.spent (hw.spent i cx' res' hmem)] at hres
        cases hres
      · trivial
    case spent =>
      intro j cx' res hmem
      rw [hreports, List.mem_append, List.mem_singleton] at hmem
      rcases hmem with hold | hnew
      · exact hspent (hw.spent j cx' res hold)
      · obtain ⟨rfl, -, hres⟩ := Event.polled.inj hnew
        rw [pollAcquire, wrapPoll_slots]
        exact htells.ready res hres.symm
  | takePermit i r hi =>
    apply other
    rw [Action.reports, hi]
    simp
  | _ =>
    apply other
    simp [Action.reports]

theorem Reachable.answeredOnce {state : S} {order : O} {w : World ι κ W S O}
    (h : Reachable C state order w) : AnsweredOnce w := by
  have hboth : Settled C w ∧ AnsweredOnce w := by
    refine Transition.Reachable.invariant (fun w => Settled C w ∧ AnsweredOnce w) ?_ ?_ h
    · exact ⟨Settled.new state order, History.each_nil, fun i cx res hmem => by cases hmem⟩
    · intro v v' a _ hv hstep
      exact ⟨hv.1.step hstep, hv.2.step hv.1 hstep⟩
  exact hboth.2

/-- The answers that polls of one future give: none is final before the last one that is, and
after it every poll panics. -/
structure ReadyOnce (w : World ι κ W S O) : Prop where
  before : ∀ past i cx res rest, w.log = past ++ .polled i cx (.returned (.ready res)) :: rest →
    ∀ cx' res', .polled i cx' res' ∈ past → res' = .returned .pending ∨ res' = .panicked
  after : ∀ past i cx res rest, w.log = past ++ .polled i cx (.returned (.ready res)) :: rest →
    ∀ cx' res', .polled i cx' res' ∈ rest → res' = .panicked
  spent : ∀ i cx res, .polled i cx (.returned (.ready res)) ∈ w.log → (w.slots i).Spent

/-- **A future is ready at most once**, in every run: after a poll that returned a permit or an
error every poll panics, and nothing is left in the future. -/
theorem ready_once {state : S} {order : O} {w : World ι κ W S O}
    (h : Reachable C state order w) : ReadyOnce w := by
  have hw : AnsweredOnce w := Reachable.answeredOnce h
  have hmem {es : List (Event ι κ W S)} {j : ι} {cx' : W} {res' : PollResult S}
      (he : .polled j cx' res' ∈ es) : .polled j cx' res' ∈ reports es :=
    List.mem_filter.mpr ⟨he, rfl⟩
  -- answers are reports, so it is enough to look at these
  have hreports {past rest : List (Event ι κ W S)} {i : ι} {cx : W}
      {res : Except (Params S) (Permit S)}
      (hlog : w.log = past ++ .polled i cx (.returned (.ready res)) :: rest) :
      reports w.log = reports past ++ .polled i cx (.returned (.ready res)) :: reports rest := by
    rw [hlog, reports_append]
    rfl
  constructor
  case before =>
    intro past i cx res rest hlog cx' res' he
    have hfresh : Fresh (reports past) (.polled i cx (.returned (.ready res))) :=
      History.each_iff.mp hw.fresh _ _ _ (hreports hlog)
    rcases res' with (res' | _) | _
    · exact absurd (hmem he) (hfresh cx' res')
    · exact Or.inl rfl
    · exact Or.inr rfl
  case after =>
    intro past i cx res rest hlog cx' res' he
    rcases res' with res' | _
    · -- it would be an answer after a final one
      obtain ⟨mid, last, hrest⟩ := List.append_of_mem (hmem he)
      have hsplit : reports w.log =
          (reports past ++ .polled i cx (.returned (.ready res)) :: mid) ++
            .polled i cx' (.returned res') :: last := by
        rw [hreports hlog, hrest]
        simp
      have hfresh : Fresh _ (.polled i cx' (.returned res')) :=
        History.each_iff.mp hw.fresh _ _ _ hsplit
      exact absurd (by simp) (hfresh cx res)
    · rfl
  case spent => exact fun i cx res he => hw.spent i cx res (hmem he)

/-- A future is granted, and polled twice more. -/
theorem ready_once_of_polled_again :
    ∃ w : World Nat Nat Nat SemaphoreCounter FairOrder,
      run .uncloseable ⟨0⟩ .fifo [.acquire 0 (1 : Nat), .poll 0 7 .quiet, .poll 0 8 .quiet,
        .withState 0 (SemaphoreCounter.add 1), .poll 0 8 .quiet, .poll 0 8 .quiet,
        .poll 0 8 .quiet] = some w ∧ ReadyOnce w :=
  exists_run _ rfl fun _ h => ready_once h

/-! ## Refusals -/

/-- Is this the report that the queue is closed? -/
def Event.isRefusal : Event ι κ W S → Bool
  | .polled _ _ (.returned (.ready (.error _))) => true
  | .tried _ _ (.returned (.error (.closed _))) => true
  | _ => false

/-- Somebody has been told that the queue is closed, or will be. -/
def Refusing (w : World ι κ W S O) : Prop :=
  (∃ i params, w.slots i = .live ⟨.removed (.error params), none⟩) ∨
    ∃ e ∈ reports w.log, e.isRefusal = true

omit [DecidableEq W] in
/-- Only a close leaves an error in a node. -/
theorem Move.refused {own : Option ι} {c d : Conf ι κ W S O} (h : Move C own c d) {i : ι}
    {params : Option (Params S)} (hi : d.1.slots i = .live ⟨.removed (.error params), none⟩) :
    c.1.slots i = .live ⟨.removed (.error params), none⟩ ∨ d.1.inner.closed = true := by
  have other {w w' : World ι κ W S O} {j : ι} {x : Slot S}
      (hslots : w'.slots = Function.update w.slots j x)
      (hx : x ≠ .live ⟨.removed (.error params), none⟩)
      (hi : w'.slots i = .live ⟨.removed (.error params), none⟩) :
      w.slots i = .live ⟨.removed (.error params), none⟩ := by
    by_cases hij : i = j
    · subst hij
      rw [hslots, Function.update_self] at hi
      exact absurd hi hx
    · rwa [hslots, Function.update_of_ne hij] at hi
  cases h with
  | expel w h k j params' x rest c wakes hclosed => exact Or.inr hclosed
  | create | conjure | ask | askTry | link | grant | unlinkSelf | claim | claimError
    | cancelInitial | cancelLinked | cancelGranted | cancelRefused =>
    exact Or.inl (other rfl (by simp) hi)
  | _ => exact Or.inl hi

theorem Reachable.closed_of_error {state : S} {order : O} {w : World ι κ W S O}
    (h : Reachable C state order w) {i : ι} {params : Option (Params S)}
    (hi : w.slots i = .live ⟨.removed (.error params), none⟩) : w.inner.closed = true := by
  refine Reachable.invariant_of_moves (fun c => ∀ i params,
    c.1.slots i = .live ⟨.removed (.error params), none⟩ → c.1.inner.closed = true) ?_ ?_ h
      i params hi
  · intro c d _ hc own hm i params hi
    rcases hm.refused hi with hold | hclosed
    · exact hm.closed (hc i params hold)
    · exact hclosed
  · intro i params hi
    cases hi

omit [DecidableEq ι] [DecidableEq κ] [DecidableEq W] in
theorem tryAcquire_closed {w : World ι κ W S O} (hw : Coherent C w) {i : ι} {p q : Params S}
    {fair : Bool} (h : (tryAcquire C w i p fair).2 = .returned (.error (.closed q))) :
    w.inner.closing C = true := by
  have hlock : Coherent C w.lock := hw.frame_inner rfl rfl rfl rfl
  unfold tryAcquire at h
  rcases hres : acquireOrEnqueue C w.lock i p fair with ⟨w', (r | q' | q' | ⟨front, q'⟩) | _⟩
  all_goals
    rw [hres] at h
    cases h
  exact acquireOrEnqueue_closed (w := w.lock) hlock (congrArg Prod.snd hres)

/-- A step tells somebody that the queue is closed only if it is. -/
theorem Reachable.refusal_closed {state : S} {order : O} {w w' : World ι κ W S O}
    (h : Reachable C state order w) {a : Action ι κ W S} (hstep : step C w a = some w')
    {e : Event ι κ W S} (he : e ∈ a.reports C w) (hrefusal : e.isRefusal = true) :
    w.inner.closed = true := by
  have hw := Reachable.settled h
  have hclosing (hclosing : w.inner.closing C = true) : w.inner.closed = true :=
    (Bool.and_eq_true_iff.mp hclosing).2
  cases step_cases hstep with
  | poll i a cx calls hi =>
    rw [Action.reports, hi, List.mem_singleton] at he
    subst he
    have htells := poll_tells hw.coherent hi cx calls
    rcases hres : (poll C w i a cx calls).2 with ((p | r) | _) | _
    all_goals
      rw [hres] at hrefusal
      try cases hrefusal
    -- seen closed by this poll, or left in the node by an earlier `close`
    rcases htells.refused p hres with hopen | herror
    · exact hclosing hopen
    · exact Reachable.closed_of_error h herror
  | tryAcquire i p fair hi =>
    rw [Action.reports, List.mem_singleton] at he
    subst he
    have hgone : Coherent C (w.setSlot i .gone) :=
      hw.coherent.setSlot rfl rfl (by simp [hi]) (by simp)
    rcases hres : (tryAcquire C (w.setSlot i .gone) i p fair).2 with ((q | q | q) | r) | _
    all_goals
      rw [hres] at hrefusal
      try cases hrefusal
    exact hclosing (tryAcquire_closed (w := w.setSlot i .gone) hgone hres)
  | takePermit i r hi =>
    rw [Action.reports, hi] at he
    obtain rfl : e = .taken i r := by simpa using he
    cases hrefusal
  | acquire | withState | conjure | clearPoison =>
    rw [Action.reports, List.mem_singleton] at he
    subst he
    cases hrefusal
  | _ => cases he

/-- **Nobody is refused by a queue that is not closed**, in every run. -/
theorem Reachable.closed_of_refusing {state : S} {order : O} {w : World ι κ W S O}
    (h : Reachable C state order w) (hw : Refusing w) : w.inner.closed = true := by
  rcases hw with ⟨i, params, hi⟩ | ⟨e, he, hrefusal⟩
  · exact Reachable.closed_of_error h hi
  · refine Transition.Reachable.invariant (fun w => ∀ e ∈ reports w.log, e.isRefusal = true →
      w.inner.closed = true) ?_ ?_ h e he hrefusal
    · intro e he
      cases he
    · intro v v' a hv hinv hstep e he hrefusal
      have hclosed : v.inner.closed = true := by
        rw [step_reports (Reachable.settled hv) hstep, List.mem_append] at he
        rcases he with hold | hnew
        · exact hinv e hold hrefusal
        · exact Reachable.refusal_closed hv hstep hnew hrefusal
      have hmoves := (step_moves (Reachable.settled hv) hstep).1
      exact Transition.invariant_of_moves (fun c => c.1.inner.closed = true)
        (fun _ _ hc hm => hm.closed hc) hmoves hclosed

end FlagBearer
