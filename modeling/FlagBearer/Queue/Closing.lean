import FlagBearer.Queue.Provenance
import FlagBearer.Queue.Wakes

/-!
# Closing

`close` releases the mutex every 32 nodes with the closed flag set and the list still there.
From its first lock section on nothing is admitted or granted any more, and every waiter
resolves to an error with its own params, whichever path removes it.

## Main results

- `Held.move`: until it is polled, a waiter of a closed queue keeps its params
- `CloseDone.move`: a `close` that ends normally has discarded the list
- `close_is_final`: the statement about runs
-/

namespace FlagBearer

open PinList

variable {ι κ W S O : Type} [DecidableEq ι] [DecidableEq κ] [SemaphoreState S] [Order O]
variable {C : Closeability} {own : Option ι}

/-! ## The flag, and what it prevents -/

theorem Move.closed {c d : Conf ι κ W S O} (h : Move C own c d)
    (hc : c.1.inner.closed = true) : d.1.inner.closed = true := by
  cases h with
  | setClosed w h hC => rfl
  | _ => exact hc

omit [DecidableEq ι] [DecidableEq κ] [Order O] in
theorem Coherent.closing {w : World ι κ W S O} (hw : Coherent C w)
    (hclosed : w.inner.closed = true) : w.inner.closing C = true := by
  simp [QueueState.closing, hclosed, hw.closeable hclosed]

omit [DecidableEq ι] [DecidableEq κ] [Order O] in
theorem World.Open.not_closing {w : World ι κ W S O} (h : w.Open C)
    (hclosing : w.inner.closing C = true) : False := by
  have hopen := h.2
  rw [hclosing] at hopen
  cases hopen

/-- Does `S::acquire` run, or a node join the list? -/
def Event.isAdmission : Event ι κ W S → Bool
  | .acquired _ _ _ => true
  | .linked _ _ _ => true
  | _ => false

/-- The calls of `S::acquire` and the nodes linked, in order. -/
def admissions (log : List (Event ι κ W S)) : List (Event ι κ W S) :=
  log.filter Event.isAdmission

theorem Move.admissions {c d : Conf ι κ W S O} (h : Move C own c d)
    (hclosing : c.1.inner.closing C = true) : admissions d.1.log = admissions c.1.log := by
  unfold FlagBearer.admissions
  cases h with
  | note w h e he | reject w i p front e he | giveBack w i p e he =>
    cases he <;> simp [Event.isAdmission]
  -- these moves need an open queue
  | refuseNow w i p p' front state hopen => exact absurd hclosing hopen.not_closing
  | grantNow w i p r front state hopen => exact absurd hclosing hopen.not_closing
  | loseNow w i p front state hopen => exact absurd hclosing hopen.not_closing
  | link w i p cx front queue hopen => exact absurd hclosing hopen.not_closing
  | grant w h k i p x r state before after c wakes hopen =>
    exact absurd hclosing hopen.not_closing
  | refuse w h i p p' x state before after hopen => exact absurd hclosing hopen.not_closing
  | lose w h i p x state before after hopen => exact absurd hclosing hopen.not_closing
  | _ => simp [Event.isAdmission, World.callRelease, World.updateState]

/-! ## The list, once discarded -/

theorem Move.discarded {c d : Conf ι κ W S O} (h : Move C own c d)
    (hc : c.1.inner.isOk = false) : d.1.inner.isOk = false := by
  -- a move on the list finds none
  have absent {queue : WaitList ι W S} (hq : c.1.inner.queue = .ok queue) : False := by
    simp [QueueState.isOk, hq] at hc
  cases h with
  | link w i p cx front queue hopen hq => exact (absent hq).elim
  | grant w h k i p x r state before after c wakes hopen hq => exact (absent hq).elim
  | refuse w h i p p' x state before after hopen hq => exact (absent hq).elim
  | lose w h i p x state before after hopen hq => exact (absent hq).elim
  | expel w h k i params x rest c wakes hclosed hq => exact (absent hq).elim
  | discard w h hclosed hq => rfl
  | unlinkSelf w i params x before after hclosing hq => exact (absent hq).elim
  | rewake w i params x cx before after res hq => exact (absent hq).elim
  | cancelLinked w k i params x before after c hq => exact (absent hq).elim
  | _ => exact hc

/-- A call of `close` that is over, or has no turn left, has discarded the list. -/
structure CloseDone (c : Conf ι κ W S O) : Prop where
  calls : ∀ k call, c.1.calls k = some call → call.kind = .close → call.more = false →
    c.1.inner.isOk = false
  returned : ∀ k, .returned k .close (.returned ()) ∈ c.1.log → c.1.inner.isOk = false

/-- A move that changes at most one call, and not whether it has a turn left. -/
theorem CloseDone.frame {c d : Conf ι κ W S O} (hc : CloseDone c) (h : Move C own c d)
    (hcalls : ∀ k call, d.1.calls k = some call → call.kind = .close → call.more = false →
      ∃ call', c.1.calls k = some call' ∧ call'.kind = .close ∧ call'.more = false)
    (hlog : ∀ k, .returned k .close (.returned ()) ∈ d.1.log →
      .returned k .close (.returned ()) ∈ c.1.log) : CloseDone d := by
  constructor
  case calls =>
    intro k call hk hkind hmore
    obtain ⟨call', hk', hkind', hmore'⟩ := hcalls k call hk hkind hmore
    exact h.discarded (hc.calls k call' hk' hkind' hmore')
  case returned =>
    intro k hk
    exact h.discarded (hc.returned k (hlog k hk))

omit [DecidableEq ι] [Order O] in
/-- The call `l` changes, but not its kind or whether it has a turn left. -/
theorem same_turns {w w' : World ι κ W S O} {l : κ} {old new : Call ι W S}
    (hcalls : w'.calls = Function.update w.calls l (some new)) (hl : w.calls l = some old)
    (hkind : new.kind = old.kind) (hmore : new.more = old.more) :
    ∀ k call, w'.calls k = some call → call.kind = .close → call.more = false →
      ∃ call', w.calls k = some call' ∧ call'.kind = .close ∧ call'.more = false := by
  intro k call hk hclose hdone
  rw [hcalls] at hk
  by_cases hkl : k = l
  · subst hkl
    rw [Function.update_self] at hk
    cases hk
    exact ⟨old, hl, hkind ▸ hclose, hmore ▸ hdone⟩
  · rw [Function.update_of_ne hkl] at hk
    exact ⟨call, hk, hclose, hdone⟩

theorem CloseDone.move {c d : Conf ι κ W S O} (hc : CloseDone c) (h : Move C own c d) :
    CloseDone d := by
  have hmove := h
  have same : ∀ k call, c.1.calls k = some call → call.kind = .close → call.more = false →
      ∃ call', c.1.calls k = some call' ∧ call'.kind = .close ∧ call'.more = false :=
    fun k call hk hkind hmore => ⟨call, hk, hkind, hmore⟩
  -- an event that is not the end of a call
  have earlier {e : Event ι κ W S} (he : ∀ k, e ≠ .returned k .close (.returned ())) (k : κ)
      (hk : .returned k .close (.returned ()) ∈ c.1.log ++ [e]) :
      .returned k .close (.returned ()) ∈ c.1.log := by
    rcases List.mem_append.mp hk with hold | hnew
    · exact hold
    · exact absurd (List.mem_singleton.mp hnew).symm (he k)
  cases h with
  | begin w h l kind hl =>
    refine hc.frame hmove ?_ (fun k hk => hk)
    intro k call hk hkind hmore
    by_cases hkl : k = l
    · -- a `close` starts with a turn to take
      subst hkl
      simp only [World.setCall_calls, Function.update_self, Option.some.injEq] at hk
      subst hk
      have hkind' : kind = .close := hkind
      subst hkind'
      cases hmore
    · simp only [World.setCall_calls, Function.update_of_ne hkl] at hk
      exact ⟨call, hk, hkind, hmore⟩
  | turn w h l old more unwinding hl hunw hmore =>
    refine ⟨?_, fun k hk => hc.returned k hk⟩
    intro k call hk hkind hdone
    by_cases hkl : k = l
    · -- no turn is left only if the list was discarded
      subst hkl
      simp only [World.setCall_calls, Function.update_self, Option.some.injEq] at hk
      subst hk
      exact hmore hkind hdone
    · simp only [World.setCall_calls, Function.update_of_ne hkl] at hk
      exact hc.calls k call hk hkind hdone
  | finish w h l old res hl hnil hres =>
    constructor
    · intro k call hk hkind hdone
      by_cases hkl : k = l
      · subst hkl
        simp at hk
      · exact hc.calls k call (by simpa [hkl] using hk) hkind hdone
    · intro k hk
      rcases List.mem_append.mp hk with hold | hnew
      · exact hc.returned k hold
      · -- a normal end: no turn was left
        simp only [List.mem_singleton, Event.returned.injEq] at hnew
        obtain ⟨rfl, hkind, hres'⟩ := hnew
        exact hc.calls _ old hl hkind.symm (hres hres'.symm).2
  | wake w h l old i x rest res hlocked hl hpop =>
    exact hc.frame hmove (same_turns rfl hl rfl rfl) (by simp)
  | grant w h l i p x r state before after old wakes hopen hq hdead hi hl =>
    exact hc.frame hmove (same_turns rfl hl rfl rfl) (by simp)
  | expel w h l i params x rest old wakes hclosed hq hi hl =>
    exact hc.frame hmove (same_turns rfl hl rfl rfl) (by simp)
  | cancelLinked w l i params x before after old hq hi hl =>
    exact hc.frame hmove (same_turns rfl hl rfl rfl) (by simp)
  | cancelRefused w l i params old hi hl =>
    exact hc.frame hmove (same_turns rfl hl rfl rfl) (by simp)
  | note w h e he | reject w i p front e he | giveBack w i p e he =>
    exact hc.frame hmove same (earlier fun k heq => by subst heq; cases he)
  | _ =>
    exact hc.frame hmove same (by simp [World.callRelease, World.updateState])

/-! ## Waiters of a closed queue -/

/-- Only its own operations touch what was left in a removed node. -/
theorem Move.removed_kept {c d : Conf ι κ W S O} (h : Move C own c d) {i : ι} {r : Removed S}
    (hown : own ≠ some i) (hi : c.1.slots i = .live ⟨.removed r, none⟩) :
    d.1.slots i = .live ⟨.removed r, none⟩ := by
  -- another request, or one that is linked
  have other {j : ι} {x : Slot S} (hj : own = some j) :
      Function.update c.1.slots j x i = .live ⟨.removed r, none⟩ := by
    have hij : i ≠ j := by
      intro hij
      subst hij
      exact hown hj
    rw [Function.update_of_ne hij, hi]
  have linked {j : ι} {x : Slot S} (hj : c.1.slots j = .live ⟨.linked, none⟩) :
      Function.update c.1.slots j x i = .live ⟨.removed r, none⟩ := by
    have hij : i ≠ j := by
      intro hij
      subst hij
      simp [hi] at hj
    rw [Function.update_of_ne hij, hi]
  cases h with
  | create w j p hj hown' => exact other hown'
  | conjure w j r hj hown' => exact other hown'
  | ask w j p hj hown' => exact other hown'
  | askTry w j p hj hown' => exact other hown'
  | link w j p cx front queue hopen hq hj hown' => exact other hown'
  | unlinkSelf w j params x before after hclosing hq hj hown' => exact other hown'
  | claim w j r' hj hown' => exact other hown'
  | claimError w j params hj hown' => exact other hown'
  | cancelInitial w j params hj hown' => exact other hown'
  | cancelLinked w k j params x before after c hq hj hk hown' => exact other hown'
  | cancelGranted w j r' hj hown' => exact other hown'
  | cancelRefused w k j params c hj hk hown' => exact other hown'
  | grant w h k j p x r' state before after c wakes hopen hq hdead hj => exact linked hj
  | expel w h k j params x rest c wakes hclosed hq hj => exact linked hj
  | _ => exact hi

/-- The queue, or the removed node, keeps params for the waiter `i`. -/
def Held (i : ι) (p : Params S) (w : World ι κ W S O) : Prop :=
  (∃ x, (i, some p, x) ∈ w.inner.entries) ∨ w.slots i = .live ⟨.removed (.error (some p)), none⟩

/-- Until it is polled or dropped, a waiter of a closed queue keeps its params. -/
theorem Held.move {c d : Conf ι κ W S O} (h : Move C own c d) (hw : Coherent C c.1) {i : ι}
    {p : Params S} (hown : own ≠ some i) (hclosing : c.1.inner.closing C = true)
    (hc : Held i p c.1) : Held i p d.1 := by
  rcases hc with ⟨x, hmem⟩ | hi
  · -- another node leaves the list, or this one does with its params
    have other {w' : World ι κ W S O} {j : ι} {data : Protected W S}
        {before after : WaitList ι W S} (hj : own = some j)
        (hq : c.1.inner.queue = .ok (before ++ (j, data) :: after))
        (hq' : ∀ e, e ∈ before ++ after → e ∈ w'.inner.entries) : Held i p w' := by
      rw [QueueState.entries_of_queue hq] at hmem
      rcases mem_split.mp hmem with heq | hold
      · cases heq
        exact absurd hj hown
      · exact Or.inl ⟨x, hq' _ hold⟩
    cases h with
    -- these moves need an open queue
    | link w j q cx front queue hopen => exact absurd hclosing hopen.not_closing
    | grant w h k j q y r state before after c wakes hopen =>
      exact absurd hclosing hopen.not_closing
    | refuse w h j q q' y state before after hopen => exact absurd hclosing hopen.not_closing
    | lose w h j q y state before after hopen => exact absurd hclosing hopen.not_closing
    | expel w h k j params y rest c wakes hclosed hq hj =>
      -- if the waiter is the first, its params move into its node
      rw [QueueState.entries_of_queue hq] at hmem
      rcases List.mem_cons.mp hmem with heq | hold
      · cases heq
        exact Or.inr (by simp)
      · exact Or.inl ⟨x, hold⟩
    | discard w h hclosed hq =>
      rw [QueueState.entries_of_queue hq] at hmem
      cases hmem
    | unlinkSelf w j params y before after hclosing' hq hj hown' =>
      exact other hown' hq fun e he => he
    | rewake w j params y cx before after res hq hres hown' =>
      exact other hown' hq fun e he => mem_split.mpr (Or.inr he)
    | cancelLinked w k j params y before after c hq hj hk hown' =>
      exact other hown' hq fun e he => he
    | _ => exact Or.inl ⟨x, hmem⟩
  · exact Or.inr (h.removed_kept hown hi)

/-- A removed node has left the list. -/
def Departed (i : ι) (c : Conf ι κ W S O) : Prop :=
  ∀ r, c.1.slots i = .live ⟨.removed r, none⟩ → 0 < departures i c.1.log

theorem Move.log_grows {c d : Conf ι κ W S O} (h : Move C own c d) :
    ∃ es, d.1.log = c.1.log ++ es := by
  cases h with
  | cancelGranted w i r => exact ⟨[.took i, .cancelled i], by simp⟩
  | cancelRefused w k i => exact ⟨[.took i, .cancelled i], by simp⟩
  | lock | unlock | ask | askTry | setClosed | discard | takeGuard | begin | turn =>
    exact ⟨[], (List.append_nil _).symm⟩
  | _ => exact ⟨_, rfl⟩

omit [DecidableEq κ] in
theorem departures_mono {log es : List (Event ι κ W S)} {i : ι} (h : 0 < departures i log) :
    0 < departures i (log ++ es) := by
  unfold departures at h ⊢
  rw [List.countP_append]
  omega

theorem Departed.move {c d : Conf ι κ W S O} {i : ι} (hc : Departed i c)
    (h : Move C own c d) : Departed i d := by
  intro r hd
  by_cases hsame : c.1.slots i = .live ⟨.removed r, none⟩
  · obtain ⟨es, hes⟩ := h.log_grows
    rw [hes]
    exact departures_mono (hc r hsame)
  -- the node was removed just now
  have update {j : ι} {x : Slot S}
      (hi : Function.update c.1.slots j x i = .live ⟨.removed r, none⟩) :
      i = j ∧ x = .live ⟨.removed r, none⟩ := by
    by_cases hij : i = j
    · subst hij
      exact ⟨rfl, by rwa [Function.update_self] at hi⟩
    · rw [Function.update_of_ne hij] at hi
      exact absurd hi hsame
  cases h with
  | grant w h k j p x r' state before after c wakes =>
    obtain ⟨rfl, -⟩ := update hd
    simp [departures, Event.isDeparture]
  | expel w h k j params x rest c wakes =>
    obtain ⟨rfl, -⟩ := update hd
    simp [departures, Event.isDeparture]
  | create w j | conjure w j | ask w j | askTry w j | link w j | unlinkSelf w j | claim w j
    | claimError w j | cancelInitial w j | cancelLinked w k j | cancelGranted w j
    | cancelRefused w k j =>
    obtain ⟨-, hx⟩ := update hd
    cases hx
  | _ => exact absurd hd hsame

theorem Reachable.departed [DecidableEq W] {state : S} {order : O} {w : World ι κ W S O}
    (h : Reachable C state order w) (i : ι) : Departed i (w, (.empty : Hand ι S)) := by
  apply Reachable.invariant_of_moves _ ?_ ?_ h
  · intro c d _ hc _ hm
    exact hc.move hm
  · intro r hi
    cases hi

/-! ## What a poll or a try_acquire reports -/

section

variable [DecidableEq W]

/-- The last event of a poll of `i`. -/
def Reports (w : World ι κ W S O) (i : ι) (cx : W) (res : Except (Params S) (Permit S)) : Prop :=
  w.log.getLast? = some (.polled i cx (.returned (.ready res)))

theorem step_poll {w : World ι κ W S O} {i : ι} {a : Acquire S} (hi : w.slots i = .live a)
    (cx : W) (calls : WakerCalls) :
    step C w (.poll i cx calls) = some (pollAcquire C w i a cx calls) := by
  simp [step, hi]

theorem poll_removed_error {w : World ι κ W S O} {i : ι} {p : Params S}
    (hi : w.slots i = .live ⟨.removed (.error (some p)), none⟩) (cx : W) (calls : WakerCalls) :
    ∃ w', step C w (.poll i cx calls) = some w' ∧
      w'.log = w.log ++ [.took i, .polled i cx (.returned (.ready (.error p)))] := by
  have hpoll : poll C w i ⟨.removed (.error (some p)), none⟩ cx calls =
      pollTake w.lock i (.removed (.error (some p))) := pollAgain_removed w.lock i _ cx calls
  have hnode : w.lock.setNode i .initial = w.lock.setSlot i (.live ⟨.initial, none⟩) :=
    World.setNode_of_live hi
  refine ⟨_, step_poll hi cx calls, ?_⟩
  simp [pollAcquire, hpoll, pollTake, Node.takeRemoved, hnode, wrapPoll]

theorem poll_removed_ok {w : World ι κ W S O} {i : ι} {r : Permit S}
    (hi : w.slots i = .live ⟨.removed (.ok r), none⟩) (cx : W) (calls : WakerCalls) :
    ∃ w', step C w (.poll i cx calls) = some w' ∧ Reports w' i cx (.ok r) := by
  have hpoll : poll C w i ⟨.removed (.ok r), none⟩ cx calls =
      pollTake w.lock i (.removed (.ok r)) := pollAgain_removed w.lock i _ cx calls
  refine ⟨_, step_poll hi cx calls, ?_⟩
  simp [Reports, pollAcquire, hpoll, pollTake, Node.takeRemoved, wrapPoll]

/-- A waiter that polls while the list is still there unlinks itself. -/
theorem poll_linked_closing {w : World ι κ W S O} (hw : Coherent C w)
    (hclosing : w.inner.closing C = true) {i : ι} {p : Params S} {x : W}
    (hmem : (i, some p, x) ∈ w.inner.entries) (cx : W) (calls : WakerCalls) :
    ∃ w', step C w (.poll i cx calls) = some w' ∧ .unlinked i ∈ w'.log ∧
      (calls.drop = .returned () → Reports w' i cx (.error p)) := by
  have hi := (hw.linked i).mp (mem_ids_of_mem hmem)
  obtain ⟨before, data, after, hq, hlookup, hremove⟩ := hw.linked_split hi
  -- the node has the data that the list shows for `i`
  have hdata : data = (some p, x) := by
    rw [QueueState.entries_of_queue hq] at hmem
    exact eq_of_mem_of_nodup (hw.nodup_of_queue hq) (mem_split.mpr (Or.inl rfl)) hmem
  subst hdata
  have hlen := hw.len_ne_zero hq
  have hpoll : poll C w i ⟨.linked, none⟩ cx calls =
      pollUnlinked w.lock i (some p, x) (before ++ after) calls := by
    show pollAgain C w.lock i .linked cx calls = _
    simp [pollAgain, hq, hclosing, Node.unlink, hlookup, hremove]
  refine ⟨_, step_poll hi cx calls, ?_, ?_⟩
  · rw [pollAcquire, hpoll]
    rcases hdrop : calls.drop with _ | _ <;>
      simp [pollUnlinked, wrapPoll, hdrop, World.setNode, hi, World.decLen, hlen,
        World.dropWaker, World.dropParams]
  · intro hdrop
    rw [pollAcquire, hpoll]
    simp [Reports, pollUnlinked, wrapPoll, hdrop, World.setNode, hi, World.decLen, hlen,
      World.dropWaker]

/-- The first poll on a closed queue. -/
theorem poll_first_closing {w : World ι κ W S O} (hclosing : w.inner.closing C = true)
    (hpoison : w.inner.poisoned = false) {i : ι} {p : Params S}
    (hi : w.slots i = .live ⟨.initial, some p⟩) (cx : W) (calls : WakerCalls) :
    ∃ w', step C w (.poll i cx calls) = some w' ∧
      w'.log = w.log ++ [.polled i cx (.returned (.ready (.error p)))] := by
  have hclosed := acquireOrEnqueue_closing (w := w.lock.setSlot i (.live ⟨.initial, none⟩))
    hpoison hclosing i p true
  refine ⟨_, step_poll hi cx calls, ?_⟩
  simp [pollAcquire, poll, pollFirst, hclosed, wrapPoll]

/-- `try_acquire` on a closed queue. -/
theorem tryAcquire_closing {w : World ι κ W S O} (hclosing : w.inner.closing C = true)
    (hpoison : w.inner.poisoned = false) {i : ι} (hi : w.slots i = .unborn) (p : Params S)
    (fair : Bool) :
    ∃ w', step C w (.tryAcquire i p fair) = some w' ∧
      w'.log = w.log ++ [.tried i p (.returned (.error (.closed p)))] := by
  have hclosed := acquireOrEnqueue_closing (w := (w.setSlot i .gone).lock) hpoison hclosing i p fair
  have hstep : step C w (.tryAcquire i p fair) = some (tryAcquirePermit C w i p fair) := by
    simp [step, hi]
  refine ⟨_, hstep, ?_⟩
  simp [tryAcquirePermit, tryAcquire, hclosed, wrapTry]

omit [DecidableEq κ] [DecidableEq W] [Order O] in
@[simp] theorem World.setNode_inner (w : World ι κ W S O) (i : ι) (n : Node (Removed S)) :
    (w.setNode i n).inner = w.inner := by
  unfold World.setNode
  split <;> rfl

omit [DecidableEq ι] [DecidableEq W] [Order O] in
@[simp] theorem World.pushWake_inner (w : World ι κ W S O) (k : κ) (i : ι) (x : W) :
    (w.pushWake k i x).inner = w.inner := by
  unfold World.pushWake
  split
  · split <;> rfl
  · rfl

omit [DecidableEq ι] [DecidableEq κ] [DecidableEq W] [Order O] in
@[simp] theorem World.decLen_closed (w : World ι κ W S O) :
    w.decLen.inner.closed = w.inner.closed := by
  unfold World.decLen
  split <;> rfl

omit [DecidableEq κ] [DecidableEq W] [Order O] in
theorem closeOne_closed (k : κ) (w : World ι κ W S O) :
    (closeOne k w).1.inner.closed = true := by
  rcases hq : w.inner.queue with _ | _ | ⟨⟨i, params, x⟩, rest⟩
  · simp [closeOne, hq]
  · simp only [closeOne, hq, Cursor.removeCurrent]
    repeat' split
    all_goals rfl
  · simp only [closeOne, hq, Cursor.removeCurrent]
    repeat' split
    all_goals simp

omit [DecidableEq W] [Order O] in
theorem closeLoop_closed (k : κ) (room : Nat) {w : World ι κ W S O}
    (hw : w.inner.closed = true) : (closeLoop k room w).inner.closed = true := by
  induction room generalizing w with
  | zero => exact hw
  | succ room ih =>
    have hclosed := closeOne_closed k w
    unfold closeLoop
    rcases hone : closeOne k w with ⟨w', _ | ⟨i, x⟩⟩
    · rw [hone] at hclosed
      exact hclosed
    · rw [hone] at hclosed
      exact ih (by simpa using hclosed)

omit [DecidableEq ι] [DecidableEq W] [Order O] in
theorem World.modifyCall_inner (w : World ι κ W S O) (k : κ) (f : Call ι W S → Call ι W S) :
    (w.modifyCall k f).inner = w.inner := by
  unfold World.modifyCall
  split <;> rfl

omit [DecidableEq W] [Order O] in
/-- A section of `close` leaves the queue closed. -/
theorem closeTurn_closed (k : κ) (w : World ι κ W S O) :
    (closeTurn k w).inner.closed = true := by
  simp only [closeTurn, World.modifyCall_inner]
  show (closeLoop k 32 (w.lock.emit (.entered k .close))).inner.closed = true
  unfold closeLoop
  have hone := closeOne_closed k (w.lock.emit (.entered k .close))
  rcases hres : closeOne k (w.lock.emit (.entered k .close)) with ⟨w', _ | ⟨i, x⟩⟩
  · rw [hres] at hone
    exact hone
  · rw [hres] at hone
    exact closeLoop_closed k _ (by simpa using hone)

/-- The first lock section of a `close` sets the flag. -/
theorem close_closed {w w' : World ι κ W S O} {k : κ}
    (h : step C w (.close k) = some w') : w'.inner.closed = true := by
  cases step_cases h with
  | close _ hC hk => exact closeTurn_closed k _

end

/-! ## The first lock section keeps the params of the waiters -/

omit [DecidableEq ι] [Order O] in
@[simp] theorem World.pushWake_slots (w : World ι κ W S O) (k : κ) (i : ι) (x : W) :
    (w.pushWake k i x).slots = w.slots := by
  unfold World.pushWake
  split
  · split <;> rfl
  · rfl

omit [DecidableEq ι] [DecidableEq κ] [Order O] in
theorem Held.congr {w w' : World ι κ W S O} {i : ι} {p : Params S} (h : Held i p w)
    (hinner : w'.inner = w.inner) (hslots : w'.slots = w.slots) : Held i p w' := by
  unfold Held
  rw [hinner, hslots]
  exact h

omit [DecidableEq ι] [DecidableEq κ] [Order O] in
/-- Setting the flag of a closeable queue. -/
theorem Coherent.close_flag {w : World ι κ W S O} (hw : Coherent C w) (hC : C.CLOSE = true) :
    Coherent C ({ w with inner := { w.inner with closed := true } } : World ι κ W S O) :=
  ⟨hw.nodup, hw.linked, hw.asked, hw.len, fun _ => rfl, fun _ => hC⟩

/-- Discarding the empty list of a closed queue. -/
theorem Coherent.discard {w : World ι κ W S O} (hw : Coherent C w)
    (hclosed : w.inner.closed = true) (hq : w.inner.queue = .ok []) :
    Coherent C ({ w with inner := { w.inner with queue := .error () } } : World ι κ W S O) :=
  hw.move (.discard w .empty hclosed hq : Move C none (w, .empty) _)

theorem closeOne_coherent (k : κ) {w : World ι κ W S O} (hw : Coherent C w)
    (hC : C.CLOSE = true) : Coherent C (closeOne k w).1 := by
  rcases hq : w.inner.queue with _ | _ | ⟨⟨i, params, x⟩, rest⟩
  · rw [closeOne_error k hq]
    exact hw.close_flag hC
  · rw [closeOne_nil k hw hq]
    exact (hw.close_flag hC).discard rfl hq
  · rw [closeOne_cons k hw hq]
    -- the node leaves first, then the list if it was the last one
    have hsplit : w.inner.queue = .ok ([] ++ (i, params, x) :: rest) := hq
    have hleft : Coherent C ({ w with
        inner := { w.inner with queue := .ok rest, closed := true, len := w.inner.len - 1 }
        slots := Function.update w.slots i (.live ⟨.removed (.error params), none⟩)
        log := w.log ++ [.removed k .close i x] } : World ι κ W S O) :=
      (hw.close_flag hC).unlink hsplit rfl rfl rfl (by simp) (by simp) rfl
    cases rest with
    | nil => exact hleft.discard rfl rfl
    | cons e rest => exact hleft

omit [DecidableEq κ] [Order O] in
theorem closeOne_held (k : κ) {w : World ι κ W S O} (hw : Coherent C w) {i : ι} {p : Params S}
    (h : Held i p w) : Held i p (closeOne k w).1 := by
  rcases hq : w.inner.queue with _ | _ | ⟨⟨j, params, x⟩, rest⟩
  · rw [closeOne_error k hq]
    exact h
  · rw [closeOne_nil k hw hq]
    rcases h with ⟨y, hmem⟩ | hi
    · rw [QueueState.entries_of_queue hq] at hmem
      cases hmem
    · exact Or.inr hi
  · rw [closeOne_cons k hw hq]
    rcases h with ⟨y, hmem⟩ | hi
    · rw [QueueState.entries_of_queue hq] at hmem
      rcases List.mem_cons.mp hmem with heq | hrest
      · -- the waiter itself: its params move into its node
        cases heq
        exact Or.inr (by simp)
      · cases rest with
        | nil => cases hrest
        | cons e rest => exact Or.inl ⟨y, hrest⟩
    · have hij : i ≠ j := by
        intro hij
        subst hij
        rw [hw.slot_of_cons hq] at hi
        cases hi
      exact Or.inr (by simpa [Function.update_of_ne hij] using hi)

omit [DecidableEq ι] [Order O] in
theorem Coherent.pushWake {w : World ι κ W S O} (hw : Coherent C w) (k : κ) (i : ι) (x : W) :
    Coherent C (w.pushWake k i x) := by
  have hinner := w.pushWake_inner k i x
  exact hw.frame_inner (by rw [hinner]) (by rw [hinner]) (by rw [hinner]) (w.pushWake_slots k i x)

theorem closeLoop_held (k : κ) (room : Nat) {w : World ι κ W S O} (hw : Coherent C w)
    (hC : C.CLOSE = true) {i : ι} {p : Params S} (h : Held i p w) :
    Held i p (closeLoop k room w) := by
  induction room generalizing w with
  | zero => exact h
  | succ room ih =>
    have hcoh := closeOne_coherent k hw hC
    have hheld := closeOne_held k hw h
    unfold closeLoop
    rcases hone : closeOne k w with ⟨w', _ | ⟨j, x⟩⟩
    · rw [hone] at hheld
      exact hheld
    · rw [hone] at hcoh hheld
      exact ih (hcoh.pushWake k j x)
        (hheld.congr (w'.pushWake_inner k j x) (w'.pushWake_slots k j x))

variable [DecidableEq W]

/-- The lock sections of a `close` keep the params of every waiter. -/
theorem close_held {w w' : World ι κ W S O} {k : κ} (hw : Coherent C w)
    (h : step C w (.close k) = some w') {i : ι} {p : Params S} (hi : Held i p w) :
    Held i p w' := by
  cases step_cases h with
  | close _ hC hk =>
    subst hC
    have hstart : Coherent .closeable
        ((w.setCall k (some (.start .close))).lock.emit (.entered k .close)) :=
      hw.frame_inner rfl rfl rfl rfl
    have hloop := closeLoop_held k WakeBatch.CAP hstart rfl (hi.congr rfl rfl)
    simp only [close, closeTurn]
    unfold World.modifyCall
    split <;> exact hloop.congr rfl rfl

/-! ## The statement about runs -/

/-- The next poll of the request `i`, after any run in which nothing is done about it. -/
def NextPoll (C : Closeability) (w : World ι κ W S O) (i : ι)
    (P : W → WakerCalls → World ι κ W S O → Prop) : Prop :=
  ∀ acts w', Transition.exec (step C) w acts = some w' → (∀ a ∈ acts, a.request ≠ some i) →
    ∀ cx calls, ∃ w'', step C w' (.poll i cx calls) = some w'' ∧ P cx calls w''

/-- What a closed queue guarantees from some state on: it stays closed, admits nothing, and
counts its list; newcomers are refused with their params; a waiter leaves the list exactly
once and gets its params back. A waker's destructor that unwinds ends the poll that calls
it. -/
structure Terminated (C : Closeability) (w : World ι κ W S O) : Prop where
  stays : ∀ acts w', Transition.exec (step C) w acts = some w' →
    w'.inner.closed = true ∧ admissions w'.log = admissions w.log ∧
      w'.inner.len = w'.inner.entries.length
  first_poll : w.inner.poisoned = false → ∀ i p, w.slots i = .live ⟨.initial, some p⟩ →
    ∀ cx calls, ∃ w', step C w (.poll i cx calls) = some w' ∧
      w'.log = w.log ++ [.polled i cx (.returned (.ready (.error p)))]
  try_acquire : w.inner.poisoned = false → ∀ i, w.slots i = .unborn → ∀ p fair,
    ∃ w', step C w (.tryAcquire i p fair) = some w' ∧
      w'.log = w.log ++ [.tried i p (.returned (.error (.closed p)))]
  waiter : ∀ i p, Held i p w → NextPoll C w i fun cx calls w'' =>
    departures i w''.log = 1 ∧ (calls.drop = .returned () → Reports w'' i cx (.error p))

/-- What closing does to a queue in a given state. -/
structure CloseFinal (C : Closeability) (w : World ι κ W S O) : Prop where
  first_section : ∀ k w', step C w (.close k) = some w' →
    w'.inner.closed = true ∧ ∀ i p x, (i, some p, x) ∈ w.inner.entries → Held i p w'
  own_params : ReturnsParams S → ∀ i params x, (i, params, x) ∈ w.inner.entries →
    Origin i w.log params
  unclaimed : ∀ i r, w.slots i = .live ⟨.removed (.ok r), none⟩ →
    NextPoll C w i fun cx _ w'' => Reports w'' i cx (.ok r)
  terminated : w.inner.closed = true → Terminated C w
  returned : ∀ k, .returned k .close (.returned ()) ∈ w.log →
    w.inner.isOk = false ∧ ∀ i a, w.slots i = .live a → a.node ≠ .linked

theorem Reachable.closeDone {state : S} {order : O} {w : World ι κ W S O}
    (h : Reachable C state order w) : CloseDone (w, (.empty : Hand ι S)) := by
  apply Reachable.invariant_of_moves _ ?_ ?_ h
  · intro c d _ hc _ hm
    exact hc.move hm
  · constructor
    · intro k call hk
      cases hk
    · intro k hk
      cases hk

/-- A closed queue stays closed, and admits nothing. -/
theorem Settled.stays_closed {w w' : World ι κ W S O} (hw : Settled C w)
    (hclosed : w.inner.closed = true) {acts : List (Action ι κ W S)}
    (hexec : Transition.exec (FlagBearer.step C) w acts = some w') :
    w'.inner.closed = true ∧ admissions w'.log = admissions w.log := by
  apply Settled.exec_invariant
    (fun c => c.1.inner.closed = true ∧ admissions c.1.log = admissions w.log) (fun _ => True)
    ?_ hw (fun _ _ => trivial) hexec ⟨hclosed, rfl⟩
  intro c d hcoh hc _ _ hm
  exact ⟨hm.closed hc.1, (hm.admissions (hcoh.closing hc.1)).trans hc.2⟩

/-- A waiter of a closed queue keeps its params as long as nothing is done about it. -/
theorem Settled.stays_held {w w' : World ι κ W S O} (hw : Settled C w)
    (hclosed : w.inner.closed = true) {i : ι} {p : Params S} (hheld : Held i p w)
    {acts : List (Action ι κ W S)} (hexec : Transition.exec (FlagBearer.step C) w acts = some w')
    (hacts : ∀ a ∈ acts, a.request ≠ some i) : Held i p w' := by
  have hinv : w'.inner.closed = true ∧ Held i p w' := by
    apply Settled.exec_invariant (fun c => c.1.inner.closed = true ∧ Held i p c.1)
      (fun own => own ≠ some i) ?_ hw hacts hexec ⟨hclosed, hheld⟩
    intro c d hcoh hc own hown hm
    exact ⟨hm.closed hc.1, hc.2.move hm hcoh hown (hcoh.closing hc.1)⟩
  exact hinv.2

theorem Settled.stays_removed {w w' : World ι κ W S O} (hw : Settled C w) {i : ι} {r : Removed S}
    (hi : w.slots i = .live ⟨.removed r, none⟩) {acts : List (Action ι κ W S)}
    (hexec : Transition.exec (FlagBearer.step C) w acts = some w')
    (hacts : ∀ a ∈ acts, a.request ≠ some i) : w'.slots i = .live ⟨.removed r, none⟩ := by
  apply Settled.exec_invariant (fun c => c.1.slots i = .live ⟨.removed r, none⟩)
    (fun own => own ≠ some i) ?_ hw hacts hexec hi
  intro c d _ hc own hown hm
  exact hm.removed_kept hown hc

/-- The next poll of a waiter of a closed queue, whichever path its node took. -/
theorem Reachable.poll_held {state : S} {order : O} {w : World ι κ W S O}
    (h : Reachable C state order w) (hclosed : w.inner.closed = true) {i : ι} {p : Params S}
    (hheld : Held i p w) (cx : W) (calls : WakerCalls) :
    ∃ w', step C w (.poll i cx calls) = some w' ∧ departures i w'.log = 1 ∧
      (calls.drop = .returned () → Reports w' i cx (.error p)) := by
  have hcoh := (Reachable.settled h).coherent
  -- a node leaves at most once, so one departure is enough
  have once {w' : World ι κ W S O} (hstep : step C w (.poll i cx calls) = some w')
      (hpos : 0 < departures i w'.log) : departures i w'.log = 1 := by
    have hnext : Reachable C state order w' := h.next _ hstep
    have hle := (hnext.departedOnce i).1
    exact Nat.le_antisymm hle hpos
  rcases hheld with ⟨x, hmem⟩ | hi
  · -- the drain has not reached it, so it unlinks itself
    obtain ⟨w', hstep, hunlinked, hreports⟩ :=
      poll_linked_closing hcoh (hcoh.closing hclosed) hmem cx calls
    have hpos : 0 < departures i w'.log :=
      List.countP_pos_iff.mpr ⟨_, hunlinked, by simp [Event.isDeparture]⟩
    exact ⟨w', hstep, once hstep hpos, hreports⟩
  · -- it was expelled before
    obtain ⟨w', hstep, hlog⟩ := poll_removed_error hi cx calls
    have hpos : 0 < departures i w'.log := by
      rw [hlog]
      exact departures_mono (h.departed i _ hi)
    exact ⟨w', hstep, once hstep hpos, fun _ => by simp [Reports, hlog]⟩

theorem Reachable.terminated {state : S} {order : O} {w : World ι κ W S O}
    (h : Reachable C state order w) (hclosed : w.inner.closed = true) : Terminated C w := by
  have hw := Reachable.settled h
  have hclosing := hw.coherent.closing hclosed
  constructor
  case stays =>
    intro acts w' hexec
    obtain ⟨hclosed', hadmissions⟩ := hw.stays_closed hclosed hexec
    exact ⟨hclosed', hadmissions, (hw.exec hexec).coherent.len⟩
  case first_poll =>
    intro hpoison i p hi cx calls
    exact poll_first_closing hclosing hpoison hi cx calls
  case try_acquire =>
    intro hpoison i hi p fair
    exact tryAcquire_closing hclosing hpoison hi p fair
  case waiter =>
    intro i p hheld acts w' hexec hacts cx calls
    have hlater : Reachable C state order w' := h.exec hexec
    have hclosed' := (hw.stays_closed hclosed hexec).1
    exact hlater.poll_held hclosed' (hw.stays_held hclosed hheld hexec hacts) cx calls

/-- **Closing is final**, in every reachable state: from the first lock section of a `close`
on, nothing is admitted, and whoever waited then gets its params back on its next poll. -/
theorem close_is_final {state : S} {order : O} {w : World ι κ W S O}
    (h : Reachable C state order w) : CloseFinal C w := by
  have hw := Reachable.settled h
  constructor
  case first_section =>
    intro k w' hstep
    refine ⟨close_closed hstep, ?_⟩
    intro i p x hmem
    exact close_held hw.coherent hstep (Or.inl ⟨x, hmem⟩)
  case own_params =>
    intro hret i params x hmem
    exact h.origin hret (.queued hmem)
  case unclaimed =>
    intro i r hi acts w' hexec hacts cx calls
    exact poll_removed_ok (hw.stays_removed hi hexec hacts) cx calls
  case terminated => exact h.terminated
  case returned =>
    intro k hk
    have hdiscarded := h.closeDone.returned k hk
    exact ⟨hdiscarded, fun i a hi => hw.coherent.none_linked hdiscarded hi⟩

/-- A waiter is expelled by a `close` whose wake panics; a retry finds nothing left. -/
theorem close_is_final_after_retry :
    ∃ w : World Nat Nat Nat SemaphoreCounter FairOrder,
      run .closeable ⟨0⟩ .fifo [.acquire 0 (1 : Nat), .poll 0 7 .quiet, .close 0, .wake 0 .panicked,
        .finish 0 (.returned ()), .close 1, .finish 1 (.returned ())] = some w ∧
      CloseFinal .closeable w :=
  exists_run _ rfl fun _ h => close_is_final h

end FlagBearer
