import FlagBearer.Queue.DeadWaiters
import FlagBearer.Queue.Drain
import FlagBearer.Queue.Service

/-!
# Service after a Panic

A panic of the state's user code leaves the queue poisoned and, if it came out of a drain, a node
without params. `clear_poison` does not service the queue; a call of `with_state` has to follow.
From the end of its first lock section on, the first waiter that still has its params is one that
`S::acquire` does not grant, or a call of `with_queue` will lock and check again, and so it goes
on until the state's user code panics again, the waker of a batch panics, or a newcomer is turned
away by dead waiters alone.

Panics of the order, of clones and of destructors do not matter here.

## Main results

- `withQueue_watches`: a call of `with_queue` leaves the next waiter served, or a check due
- `step_watches`: and every other step keeps it so
- `service_resumes`: the statement about runs
-/

namespace FlagBearer

open PinList Pass

variable {ι κ W S O : Type} [SemaphoreState S] {C : Closeability} {own : Option ι}

/-! ## The next waiter -/

/-- The params of the first waiter that has any. -/
def QueueState.next (q : QueueState ι W S O) : Option (Params S) :=
  q.entries.findSome? (waiters ι W S).offer

/-- The next waiter is not one that `S::acquire` would grant. -/
def Served (q : QueueState ι W S O) : Prop := ∀ p, q.next = some p → ¬ Granted q.state p

/-- What holds between lock sections: the next waiter is served, or a check is due. -/
def Watched (w : World ι κ W S O) : Prop := Served w.inner ∨ ∃ k, w.Owes k

theorem QueueState.next_eq_none {q : QueueState ι W S O} :
    q.next = none ↔ q.allDead = true := by
  simp [QueueState.next, QueueState.allDead, waiters]

theorem served_of_nil {q : QueueState ι W S O} (h : q.entries = []) : Served q := by
  intro p hp
  rw [QueueState.next, h] at hp
  cases hp

/-- Who is served depends on the params in the list and on the state only. -/
theorem Served.of_same {q q' : QueueState ι W S O} (h : Served q) (hnext : q'.next = q.next)
    (hstate : q'.state = q.state) : Served q' := by
  intro p hp
  rw [hstate]
  exact h p (hnext ▸ hp)

/-! ## Lock sections that check -/

/-- A refusal puts the params back, and a panic does not. -/
theorem waiters_restores (hkeep : RefusalKeepsState S) (hret : ReturnsParams S)
    (params : Params S) : (waiters ι W S).Restores (some params) := by
  intro s s' e p hp hserve
  rcases hacq : SemaphoreState.acquire s p with ⟨state, (q | r) | _⟩
  · have hserve' : (waiters ι W S).serve s p = (state, .error (some q)) := by
      simp [waiters, hacq, served]
    rw [hserve'] at hserve
    cases hserve
    obtain rfl := hkeep _ _ _ _ hacq
    obtain rfl := hret _ _ _ _ hacq
    exact ⟨rfl, rfl⟩
  · simp [waiters, hacq, served] at hserve
  · simp [waiters, hacq, served] at hserve

/-- A turn that does not fill its batch leaves the next waiter served, unless it panics. -/
theorem QueueState.turned_served (hkeep : RefusalKeepsState S) (hret : ReturnsParams S)
    {q q' : QueueState ι W S O} (hroom : q.turned.granted.length < WakeBatch.CAP)
    (hquiet : q.turned.panicked = false) (hentries : q'.entries = q.turned.kept)
    (hstate : q'.state = q.turned.state) : Served q' := by
  have hpass : (waiters ι W S).pass q.state q.entries = q.turned :=
    (waiters ι W S).pass_of_room _ _ _ hroom
  intro p hp
  rw [QueueState.next, hentries, ← hpass] at hp
  obtain ⟨s', params, hfail⟩ := (waiters ι W S).fails_next (by
    rintro (_ | params) hstop
    · rw [hpass] at hstop
      simp [DrainResult.panicked, hstop] at hquiet
    · exact waiters_restores hkeep hret params) hp
  rw [hpass, ← hstate] at hfail
  rintro ⟨s'', r, hacq⟩
  simp [waiters, hacq, served] at hfail

/-- A lock section that ends with a check leaves the queue watched. -/
theorem withQueueTurn_watches [DecidableEq ι] [DecidableEq κ] [Order O]
    (hkeep : RefusalKeepsState S) (hret : ReturnsParams S) {k : κ}
    {w : World ι κ W S O} {c : Call ι W S} (hw : Coherent C w) (hk : w.calls k = some c)
    (hkind : c.kind = .withQueue) (hunw : c.unwinding = false) (hwakes : c.wakes.wakers = [])
    (hpoison : (withQueueTurn C k w).inner.poisoned = false)
    (hopen : (withQueueTurn C k w).inner.closing C = false) : Watched (withQueueTurn C k w) := by
  cases hadmits : w.inner.admits C with
  | false =>
    -- then nothing is admitted afterwards
    have hguard : (w.inner.poisoned || w.inner.closing C) = true := by
      simpa [QueueState.admits, or_iff_not_imp_left] using hadmits
    rw [withQueueTurn_inner hguard] at hpoison hopen
    simp [hpoison, hopen] at hguard
  | true =>
    obtain ⟨w', wakes, hvisits, -, hturn⟩ := withQueueTurn_visits hw hk hkind hwakes hadmits
    rw [hturn] at hpoison ⊢
    have hentries : w'.inner.entries = w.inner.turned.kept :=
      QueueState.entries_of_queue hvisits.queue
    have hquiet : w.inner.turned.panicked = false := by
      have hboth : (w.inner.poisoned || w.inner.turned.panicked) = false :=
        hvisits.poisoned ▸ hpoison
      exact (Bool.or_eq_false_iff.mp hboth).2
    by_cases hroom : w.inner.turned.granted.length < WakeBatch.CAP
    · exact Or.inl (QueueState.turned_served hkeep hret hroom hquiet hentries hvisits.state)
    · -- the batch is full
      have hfull : w.inner.turned.granted.length = WakeBatch.CAP :=
        Nat.le_antisymm ((waiters ι W S).length_passUpTo _ _ _).1 (Nat.le_of_not_lt hroom)
      by_cases hnil : w.inner.turned.kept = []
      · exact Or.inl (served_of_nil (q := w'.inner) (hentries.trans hnil))
      · refine Or.inr ⟨k, _, Function.update_self .., hkind, ?_, ?_⟩
        · simp [Call.turn, hfull, hnil]
        · simp [Call.turn, hunw, hquiet]

/-- **A call of `with_queue` watches over the queue**: after its first section the next waiter is
served, or a check is due. -/
theorem withQueue_watches [DecidableEq ι] [DecidableEq κ] [Order O]
    (hkeep : RefusalKeepsState S) (hret : ReturnsParams S) {k : κ}
    {h : Hand ι S} {w : World ι κ W S O} {f : World ι κ W S O → World ι κ W S O × Unwind Unit}
    (hw : Coherent C w) (hk : w.calls k = none)
    (hclosure : ClosureMoves C own k h (w.enter k) (f (w.enter k)))
    (hpanics : (f (w.enter k)).2 = .panicked → (f (w.enter k)).1.inner.poisoned = true)
    (hpoison : (withQueue C k w f).inner.poisoned = false)
    (hopen : (withQueue C k w f).inner.closing C = false) : Watched (withQueue C k w f) := by
  obtain ⟨c, hk', hkind, hwakes, hunw⟩ := hclosure.call
  have hcoh := (hw.enter hk).moves hclosure.moves
  rcases hres : f (w.enter k) with ⟨w', _ | _⟩ <;> rw [hres] at hcoh hk' hpanics
  · rw [withQueue_of_returned hres] at hpoison hopen ⊢
    by_cases hlen : w'.inner.len = 0
    · -- nobody waits
      have hnil : w'.inner.entries = [] := by
        have hcount : w'.inner.len = w'.inner.entries.length := hcoh.len
        exact List.length_eq_zero_iff.mp (hcount ▸ hlen)
      rw [if_pos hlen]
      exact Or.inl (served_of_nil hnil)
    · rw [if_neg hlen] at hpoison hopen ⊢
      exact withQueueTurn_watches hkeep hret hcoh hk' hkind hunw (by rw [hwakes]; rfl) hpoison hopen
  · rw [withQueue_of_panicked hres, World.modifyCall_inner] at hpoison
    have hpoisoned : w'.inner.poisoned = true := hpanics rfl
    exact absurd hpoison (by simp [hpoisoned])

/-! ## The closures of `with_queue` -/

theorem callRelease_poisons (w : World ι κ W S O) (who : Releaser) (i : ι) (r : Permit S) :
    (w.callRelease who i r).2 = .panicked → (w.callRelease who i r).1.inner.poisoned = true := by
  intro h
  have hres : (SemaphoreState.release w.inner.state r).2 = .panicked := h
  simp [World.callRelease, hres]

theorem updateState_poisons (w : World ι κ W S O) (f : S → S × Unwind Unit) :
    (w.updateState f).2 = .panicked → (w.updateState f).1.inner.poisoned = true := by
  intro h
  have hres : (f w.inner.state).2 = .panicked := h
  simp [World.updateState, hres]

/-- The drop of a node unwinds only out of `S::release`. -/
theorem dropNode_poisons [DecidableEq ι] [DecidableEq κ]
    {w : World ι κ W S O} (hw : Coherent C w) {i : ι} {n : Node (Removed S)}
    (hi : w.slots i = .live ⟨n, none⟩) (hn : n ≠ .initial) {k : κ} {c : Call ι W S}
    (hk : w.calls k = some c) :
    (dropNode k i n w).2 = .panicked → (dropNode k i n w).1.inner.poisoned = true := by
  cases n with
  | initial => exact absurd rfl hn
  | linked =>
    obtain ⟨data, before, after, -, hres⟩ := dropNode_linked hw hi hk
    rw [hres]
    intro h
    cases h
  | removed r =>
    rw [dropNode_removed]
    rcases r with params | r
    · intro h
      cases h
    · exact callRelease_poisons _ .unclaimed i r

/-! ## Sections that do not check -/

/-- Unless a panic poisons the queue, the next waiter stays served, and no call is touched. -/
structure StaysServed (w w' : World ι κ W S O) : Prop where
  poisoned : w'.inner.poisoned = false → w.inner.poisoned = false
  served : w'.inner.poisoned = false → Served w.inner → Served w'.inner
  calls : w'.calls = w.calls

theorem StaysServed.watched {w w' : World ι κ W S O} (h : StaysServed w w')
    (hpoison : w'.inner.poisoned = false) (hw : Watched w) : Watched w' := by
  rcases hw with hserved | ⟨k, hk⟩
  · exact Or.inl (h.served hpoison hserved)
  · refine Or.inr ⟨k, ?_⟩
    unfold World.Owes at hk ⊢
    rwa [h.calls]

theorem StaysServed.trans {w w' w'' : World ι κ W S O} (h : StaysServed w w')
    (h' : StaysServed w' w'') : StaysServed w w'' := by
  constructor
  case poisoned => exact fun hpoison => h.poisoned (h'.poisoned hpoison)
  case served =>
    exact fun hpoison hserved => h'.served hpoison (h.served (h'.poisoned hpoison) hserved)
  case calls => exact h'.calls.trans h.calls

theorem StaysServed.of_same {w w' : World ι κ W S O} (hnext : w'.inner.next = w.inner.next)
    (hstate : w'.inner.state = w.inner.state) (hpoison : w'.inner.poisoned = w.inner.poisoned)
    (hcalls : w'.calls = w.calls) : StaysServed w w' := by
  constructor
  case poisoned => exact fun h => hpoison ▸ h
  case served => exact fun _ hserved => hserved.of_same hnext hstate
  case calls => exact hcalls

/-- What `acquire_or_enqueue` leaves behind: params that join the queue, and are next there, are
not granted. -/
structure AdmitsServed (w : World ι κ W S O) (out : World ι κ W S O × Unwind (Outcome S)) :
    Prop where
  stays : StaysServed w out.1
  refused : ∀ front p, out.2 = .returned (.enqueue front p) →
    front = true ∨ out.1.inner.next = none → ¬ Granted out.1.inner.state p

theorem newErr_served (w : World ι κ W S O) (p : Params S) : AdmitsServed w (newErr C w p) := by
  cases C with
  | closeable => exact ⟨.of_same rfl rfl rfl rfl, by rintro _ _ ⟨⟩⟩
  | uncloseable => exact ⟨.of_same rfl rfl rfl rfl, by rintro _ _ ⟨⟩⟩

section Contract

variable (hkeep : RefusalKeepsState S) (hret : ReturnsParams S) (hgrant : GrantNeverEnables S)
include hkeep hret hgrant

/-- A refusal leaves the state alone, a grant enables nobody, a panic poisons. -/
theorem lead_served (w : World ι κ W S O) (i : ι) (p : Params S) (front : Bool) :
    AdmitsServed w (lead w i p front) := by
  rcases hacq : SemaphoreState.acquire w.inner.state p with ⟨state, (p' | r) | _⟩
  · obtain rfl := hret _ _ _ _ hacq
    obtain rfl := hkeep _ _ _ _ hacq
    have hrefused : Refused w.inner.state p' := ⟨_, _, hacq⟩
    simp only [lead, World.callAcquire, World.guarded, hacq]
    refine ⟨.of_same rfl rfl (by simp) rfl, ?_⟩
    rintro _ _ ⟨⟩ _
    exact hrefused.not_granted
  · simp only [lead, World.callAcquire, World.guarded, hacq]
    refine ⟨⟨by simp, ?_, rfl⟩, by rintro _ _ ⟨⟩⟩
    intro _ hserved q hq hgranted
    exact hserved q hq (hgrant _ _ _ _ _ hacq hgranted)
  · simp only [lead, World.callAcquire, World.guarded, hacq]
    exact ⟨⟨by simp, by simp, rfl⟩, by rintro _ _ ⟨⟩⟩

theorem acquireOrEnqueue_served [Order O] {w : World ι κ W S O} (i : ι) (p : Params S) {fair : Bool}
    (halive : fair = true → w.inner.admits C = true → w.inner.deadEnd = false) :
    AdmitsServed w (acquireOrEnqueue C w i p fair) := by
  unfold acquireOrEnqueue
  split
  · exact ⟨.of_same rfl rfl rfl rfl, by rintro _ _ ⟨⟩⟩
  rename_i hpoison
  split
  · exact newErr_served w p
  rename_i hclosing
  rcases hq : w.inner.queue with _ | queue
  · exact newErr_served w p
  cases fair with
  | false =>
    -- an unfair caller always tries
    simp only [Bool.false_eq_true, if_false, Bool.true_or, Bool.not_true]
    exact lead_served hkeep hret hgrant w i p true
  | true =>
    have hend : w.inner.deadEnd = false :=
      halive rfl (QueueState.admits_iff.mpr ⟨by simpa using hpoison, by simpa using hclosing⟩)
    rcases hord : Order.enqueueFront w.inner.order w.inner.len with ⟨order, front | _⟩
    · simp only [if_true, World.consult, hord]
      have hconsult : StaysServed w (({ w with inner := { w.inner with order := order } } :
          World ι κ W S O).emit (.consulted i w.inner.len (.returned front))) :=
        .of_same rfl rfl rfl rfl
      split
      · -- behind somebody who is alive
        rename_i hbehind
        refine ⟨hconsult, ?_⟩
        rintro _ _ ⟨⟩ hnext
        have hentries : w.inner.entries = queue := QueueState.entries_of_queue hq
        simp only [Bool.not_or, Bool.and_eq_true, Bool.not_eq_true'] at hbehind
        obtain ⟨hfront, hne⟩ := hbehind
        rcases hnext with hfront' | hnone
        · rw [hfront] at hfront'
          cases hfront'
        · have hdead : w.inner.allDead = true := QueueState.next_eq_none.mp hnone
          simp [QueueState.deadEnd, hdead, hentries, hne, hord, hfront] at hend
      · have hlead := lead_served hkeep hret hgrant
          (({ w with inner := { w.inner with order := order } } :
            World ι κ W S O).emit (.consulted i w.inner.len (.returned front))) i p front
        exact ⟨hconsult.trans hlead.stays, hlead.refused⟩
    · simp only [if_true, World.consult, hord]
      exact ⟨.of_same rfl rfl rfl rfl, by rintro _ _ ⟨⟩⟩

omit hkeep hret hgrant in
/-- A waiter that is next when it joins the queue is not granted. -/
theorem link_served [DecidableEq ι] {w : World ι κ W S O} {i : ι} {queue : WaitList ι W S}
    (hq : w.inner.queue = .ok queue) {p : Params S} {front : Bool}
    (hrefused : front = true ∨ w.inner.next = none → ¬ Granted w.inner.state p) (cx : W) :
    StaysServed w (link w i queue p cx front) := by
  have hentries : w.inner.entries = queue := QueueState.entries_of_queue hq
  unfold link
  split
  · refine ⟨id, fun _ hserved q hnext => ?_, rfl⟩
    cases front with
    | true =>
      -- it is the next one
      obtain rfl : p = q := Option.some.inj hnext
      exact hrefused (Or.inl rfl)
    | false =>
      have hback : (w.inner.next <|> some p) = some q := by
        rw [QueueState.next, hentries]
        simpa [QueueState.next, pushBack, List.findSome?_append, waiters] using hnext
      cases hold : w.inner.next with
      | some q' =>
        rw [hold] at hback
        obtain rfl : q' = q := Option.some.inj hback
        exact hserved _ hold
      | none =>
        rw [hold] at hback
        obtain rfl : p = q := Option.some.inj hback
        exact hrefused (Or.inr hold)
  · exact .of_same rfl rfl rfl rfl

theorem pollFirst_served [DecidableEq ι] [Order O]
    {w : World ι κ W S O} (i : ι) (p : Params S) (cx : W)
    (calls : WakerCalls) (halive : w.inner.admits C = true → w.inner.deadEnd = false) :
    StaysServed w (pollFirst C w i p cx calls).1 := by
  have hadmits : AdmitsServed w (acquireOrEnqueue C w i p true) :=
    acquireOrEnqueue_served hkeep hret hgrant i p fun _ => halive
  unfold pollFirst
  rcases hres : acquireOrEnqueue C w i p true with ⟨w', (r | p' | p' | ⟨front, p'⟩) | _⟩ <;>
    rw [hres] at hadmits
  · exact hadmits.stays.trans (.of_same rfl rfl rfl rfl)
  · exact hadmits.stays.trans (.of_same rfl rfl rfl rfl)
  · exact hadmits.stays.trans (.of_same rfl rfl rfl rfl)
  · apply hadmits.stays.trans
    have hrefused := hadmits.refused front p' rfl
    rcases hq : w'.inner.queue with _ | queue
    · simp only [hq]
      exact .of_same rfl rfl rfl rfl
    · simp only [hq]
      rcases calls.clone with _ | _
      · have hcloned : StaysServed w' (w'.emit (.cloned cx (.returned ()))) :=
          .of_same rfl rfl rfl rfl
        have hlinked : StaysServed (w'.emit (.cloned cx (.returned ())))
            (link (w'.emit (.cloned cx (.returned ()))) i queue p' cx front) :=
          link_served (w := w'.emit (.cloned cx (.returned ()))) hq hrefused cx
        exact (hcloned.trans hlinked).trans (.of_same rfl rfl rfl rfl)
      · exact .of_same rfl rfl rfl rfl
  · exact hadmits.stays.trans (.of_same rfl rfl rfl rfl)

theorem tryAcquire_served [Order O] {w : World ι κ W S O} (i : ι) (p : Params S) {fair : Bool}
    (halive : fair = true → w.inner.admits C = true → w.inner.deadEnd = false) :
    StaysServed w (tryAcquire C w i p fair).1 := by
  have hlock : StaysServed w w.lock := .of_same rfl rfl rfl rfl
  have hadmits : AdmitsServed w.lock (acquireOrEnqueue C w.lock i p fair) :=
    acquireOrEnqueue_served hkeep hret hgrant i p halive
  have hstays := hlock.trans hadmits.stays
  unfold tryAcquire
  rcases hres : acquireOrEnqueue C w.lock i p fair with ⟨w', (r | p' | p' | ⟨front, p'⟩) | _⟩ <;>
    rw [hres] at hstays
  all_goals exact hstays.trans (.of_same rfl rfl rfl rfl)

end Contract

/-- A spurious wakeup keeps the params of every waiter. -/
theorem pollSpurious_served [DecidableEq ι] [DecidableEq W]
    {w : World ι κ W S O} (hw : Coherent C w) {i : ι}
    {data : Protected W S} {before after : WaitList ι W S}
    (hq : w.inner.queue = .ok (before ++ (i, data) :: after)) (cx : W) (calls : WakerCalls) :
    StaysServed w (pollSpurious w i (before ++ (i, data) :: after) data cx calls).1 := by
  unfold pollSpurious
  split
  · exact .of_same rfl rfl rfl rfl
  · rcases calls.clone with _ | _
    · have hset : setProtected (before ++ (i, data) :: after) i (data.1, cx) =
          before ++ (i, data.1, cx) :: after := setProtected_split (hw.nodup_of_queue hq)
      simp only [hset]
      have hnext : (w.setList (before ++ (i, data.1, cx) :: after)).inner.next = w.inner.next := by
        have hentries : (w.setList (before ++ (i, data.1, cx) :: after)).inner.entries =
            before ++ (i, data.1, cx) :: after := rfl
        rw [QueueState.next, QueueState.next, QueueState.entries_of_queue hq, hentries]
        simp [List.findSome?_append, List.findSome?_cons, waiters]
      have hkept : StaysServed w ((w.emit (.cloned cx (.returned ()))).setList
          (before ++ (i, data.1, cx) :: after)) := .of_same hnext rfl rfl rfl
      rcases calls.drop with _ | _
      · exact hkept.trans (.of_same rfl rfl rfl rfl)
      · exact hkept.trans (.of_same rfl rfl rfl rfl)
    · exact .of_same rfl rfl rfl rfl

variable [DecidableEq ι]

theorem pollTake_served (w : World ι κ W S O) (i : ι) (node : Node (Removed S)) :
    StaysServed w (pollTake w i node).1 := by
  have hset : StaysServed w (w.setNode i .initial) := by
    refine .of_same ?_ ?_ ?_ (w.setNode_calls i _)
    all_goals rw [World.setNode_inner]
  unfold pollTake
  rcases node.takeRemoved with _ | (_ | p) | r
  · exact .of_same rfl rfl rfl rfl
  all_goals exact hset.trans (.of_same rfl rfl rfl rfl)

/-- The polls of a queue that is not closing. -/
theorem pollAgain_served [DecidableEq W] {w : World ι κ W S O} (hw : Coherent C w) {i : ι}
    {n : Node (Removed S)} (hi : w.slots i = .live ⟨n, none⟩) (hn : n ≠ .initial)
    (hopen : w.inner.closing C = false) (cx : W) (calls : WakerCalls) :
    StaysServed w (pollAgain C w i n cx calls).1 := by
  cases n with
  | initial => exact absurd rfl hn
  | removed r =>
    rw [pollAgain_removed]
    exact pollTake_served w i (.removed r)
  | linked =>
    obtain ⟨before, data, after, hq, hlookup, -⟩ := hw.linked_split hi
    unfold pollAgain
    simp only [hq, hopen, Bool.false_eq_true, if_false, Node.protectedMut, hlookup]
    exact pollSpurious_served hw hq cx calls

/-! ## Steps -/

theorem wrapPoll_served {w : World ι κ W S O} {out : World ι κ W S O × PollResult S}
    (h : StaysServed w out.1) (i : ι) (cx : W) : StaysServed w (wrapPoll i cx out) := by
  unfold wrapPoll
  split
  all_goals exact h.trans (.of_same rfl rfl rfl rfl)

theorem wrapTry_served {w : World ι κ W S O} {out : World ι κ W S O × TryResult S}
    (h : StaysServed w out.1) (i : ι) (p : Params S) : StaysServed w (wrapTry i p out) := by
  unfold wrapTry
  split
  all_goals exact h.trans (.of_same rfl rfl rfl rfl)

variable [DecidableEq κ] [DecidableEq W] [Order O]

omit [DecidableEq ι] [DecidableEq W] [Order O] in
/-- A waker that returns leaves the debts of its call alone. -/
theorem wakeNext_watches {w w' : World ι κ W S O} {k : κ} {c : Call ι W S}
    (hk : w.calls k = some c) (h : wakeNext k w c (.returned ()) = some w') (hw : Watched w) :
    Watched w' := by
  unfold wakeNext at h
  rcases hpop : c.wakes.pop with _ | ⟨⟨i, x⟩, rest⟩
  · rw [hpop] at h
    cases h
  · rw [hpop] at h
    simp only [Option.some.injEq] at h
    subst h
    rcases hw with hserved | ⟨l, c', hl, hkind, hmore, hunw⟩
    · exact Or.inl hserved
    · refine Or.inr ⟨l, ?_⟩
      by_cases hlk : l = k
      · subst hlk
        rw [hk] at hl
        cases hl
        exact ⟨_, Function.update_self .., hkind, hmore, hunw⟩
      · exact ⟨c', (Function.update_of_ne hlk _ _).trans hl, hkind, hmore, hunw⟩

omit [DecidableEq ι] [DecidableEq κ] [DecidableEq W] [Order O] in
theorem dropAbandoned_served (w : World ι κ W S O) (res : Unwind Unit)
    (data : Option (NodeData (Protected W S) (Removed S))) :
    StaysServed w (dropAbandoned w res data) := by
  rcases data with _ | ⟨⟨_ | p, x⟩⟩ | ⟨⟨_ | p⟩ | r⟩
  all_goals exact .of_same rfl rfl rfl rfl

omit [DecidableEq ι] [DecidableEq W] [Order O] in
/-- A call that owes a check does not end. -/
theorem finish_watches {w w' : World ι κ W S O} {k : κ} {c : Call ι W S}
    (hk : w.calls k = some c) {res : Unwind Unit} (h : finish k w c res = some w')
    (hpoison : w'.inner.poisoned = false) (hw : Watched w) : Watched w' := by
  obtain ⟨-, ended, -, rfl⟩ := finish_eq_some h
  have hdrop := dropAbandoned_served w res c.abandoned
  rcases hw with hserved | ⟨l, c', hl, hkind, hmore, hunw⟩
  · exact Or.inl (hdrop.served hpoison hserved)
  · have hlk : l ≠ k := by
      rintro rfl
      rw [hk] at hl
      cases hl
      rw [finish_of_more hmore hunw] at h
      cases h
    refine Or.inr ⟨l, c', ?_, hkind, hmore, hunw⟩
    have hkept := (congrFun hdrop.calls l).trans hl
    exact (Function.update_of_ne hlk _ _).trans hkept

/-- Does a waker of a batch panic here? -/
def Action.panicsWaker : Action ι κ W S → Bool
  | .wake _ res => res.isPanicked
  | _ => false

/-- A step that does not disturb the service: it leaves the queue without poison, no waker of a
batch panics, and nobody is turned away by dead waiters alone. -/
def Smooth (C : Closeability) (w : World ι κ W S O) (a : Action ι κ W S) (w' : World ι κ W S O) :
    Prop :=
  w'.inner.poisoned = false ∧ a.panicsWaker = false ∧ turnedAwayByDead C w a = false

instance (w : World ι κ W S O) (a : Action ι κ W S) (w' : World ι κ W S O) :
    Decidable (Smooth C w a w') :=
  inferInstanceAs (Decidable (_ ∧ _))

/-- **A smooth step keeps watch over the queue.** -/
theorem step_watches (hkeep : RefusalKeepsState S) (hret : ReturnsParams S)
    (hgrant : GrantNeverEnables S) {w w' : World ι κ W S O} (hs : Settled C w)
    {a : Action ι κ W S} (h : step C w a = some w') (hsmooth : Smooth C w a w')
    (hopen' : w'.inner.closing C = false) (hw : Watched w) : Watched w' := by
  have hcoh := hs.coherent
  have hcoh' := hcoh.moves (step_moves hs h).1
  have hopen := step_was_open hs h hopen'
  obtain ⟨hpoison, hwaker, hdead⟩ := hsmooth
  -- closing calls are excluded
  have hclosed (hclosed : w'.inner.closed = true) : Watched w' := by
    rw [hcoh'.closing hclosed] at hopen'
    cases hopen'
  cases step_cases h with
  | acquire i p hi => exact (StaysServed.of_same rfl rfl rfl rfl).watched hpoison hw
  | poll i a cx calls hi =>
    refine (wrapPoll_served ?_ i cx).watched hpoison hw
    have hlock : StaysServed w w.lock := .of_same rfl rfl rfl rfl
    obtain ⟨n, params⟩ := a
    by_cases hn : n = .initial
    · subst hn
      cases params with
      | none => exact .of_same rfl rfl rfl rfl
      | some p =>
        have halive : w.inner.admits C = true → w.inner.deadEnd = false := by
          intro hadmits
          simpa [turnedAwayByDead, Action.arrival, hi, hadmits] using hdead
        have hask : StaysServed w (w.lock.setSlot i (.live ⟨.initial, none⟩)) :=
          .of_same rfl rfl rfl rfl
        exact hask.trans (pollFirst_served hkeep hret hgrant i p cx calls halive)
    · obtain rfl : params = none := hcoh.asked i _ hi hn
      have hlocked : Coherent C w.lock := hcoh.frame_inner rfl rfl rfl rfl
      rw [poll_of_asked w i hn cx calls]
      exact hlock.trans (pollAgain_served hlocked hi hn hopen cx calls)
  | tryAcquire i p fair hi =>
    have halive : fair = true → w.inner.admits C = true → w.inner.deadEnd = false := by
      intro hfair hadmits
      simpa [turnedAwayByDead, Action.arrival, hfair, hadmits] using hdead
    have hgone : StaysServed w (w.setSlot i .gone) := .of_same rfl rfl rfl rfl
    have htry := tryAcquire_served (C := C) (w := w.setSlot i .gone) hkeep hret hgrant i p halive
    exact (wrapTry_served (hgone.trans htry) i p).watched hpoison hw
  | withState k f hk =>
    have hclosure : ClosureMoves C none k .empty _ _ := updateState_closure f (w.enter_call k)
    exact withQueue_watches hkeep hret hcoh hk hclosure (updateState_poisons _ f) hpoison hopen'
  | dropAcquire k i a hi hk =>
    obtain ⟨n, params⟩ := a
    by_cases hn : n = .initial
    · subst hn
      cases params with
      | none => exact (StaysServed.of_same rfl rfl rfl rfl).watched hpoison hw
      | some p => exact (StaysServed.of_same rfl rfl rfl rfl).watched hpoison hw
    · obtain rfl : params = none := hcoh.asked i _ hi hn
      rw [dropAcquire_of_asked k w i hn] at hpoison hopen' ⊢
      have hclosure := dropNode_closure (hcoh.enter hk) hi hn (w.enter_call k)
      exact withQueue_watches hkeep hret hcoh hk hclosure
        (dropNode_poisons (hcoh.enter hk) hi hn (w.enter_call k)) hpoison hopen'
  | dropPermit k i r hi hk =>
    have hopened : Coherent C (w.setPermit i none) := hcoh.frame_inner rfl rfl rfl rfl
    have hclosure : ClosureMoves C none k (.releasing .guard i r) _ _ :=
      callRelease_closure .guard i r ((w.setPermit i none).enter_call k)
    exact withQueue_watches hkeep hret hopened hk hclosure (callRelease_poisons _ .guard i r)
      hpoison hopen'
  | takePermit i r hi => exact (StaysServed.of_same rfl rfl rfl rfl).watched hpoison hw
  | conjure i r hi => exact (StaysServed.of_same rfl rfl rfl rfl).watched hpoison hw
  | close k hC hk =>
    subst hC
    exact hclosed (close_closed h)
  | clearPoison => exact hw
  | observe => exact (StaysServed.of_same rfl rfl rfl rfl).watched hpoison hw
  | resume k c hk hwakes hunw hmore =>
    cases hkind : c.kind with
    | withQueue =>
      have henter : Coherent C (w.lock.emit (.entered k .withQueue)) :=
        hcoh.frame_inner rfl rfl rfl rfl
      simp only [resume, hkind] at hpoison hopen' ⊢
      exact withQueueTurn_watches hkeep hret henter hk hkind hunw hwakes hpoison hopen'
    | close =>
      apply hclosed
      simp only [resume, hkind]
      exact closeTurn_closed k w
  | wake k c res w' hk h =>
    cases res with
    | panicked => cases hwaker
    | returned u => exact wakeNext_watches hk h hw
  | finish k c res w' hk h => exact finish_watches hk h hpoison hw

/-! ## Runs -/

/-- The watch over the queue lasts through a smooth run. -/
theorem Settled.watched (hkeep : RefusalKeepsState S) (hret : ReturnsParams S)
    (hgrant : GrantNeverEnables S) {w w' : World ι κ W S O} (hs : Settled C w)
    (hw : w.inner.closing C = false → Watched w) {acts : List (Action ι κ W S)}
    (hsmooth : Transition.EveryStep (FlagBearer.step C) (Smooth C) w acts)
    (hexec : Transition.exec (FlagBearer.step C) w acts = some w')
    (hopen : w'.inner.closing C = false) : Watched w' := by
  have hend : Settled C w' ∧ (w'.inner.closing C = false → Watched w') := by
    refine Transition.EveryStep.invariant
      (fun v => Settled C v ∧ (v.inner.closing C = false → Watched v)) ?_
      ⟨hs, hw⟩ hsmooth hexec
    rintro v a v' ⟨hv, hwatched⟩ hstep hsmooth
    refine ⟨hv.step hstep, fun hopen' => ?_⟩
    exact step_watches hkeep hret hgrant hv hstep hsmooth hopen'
      (hwatched (step_was_open hv hstep hopen'))
  exact hend.2 hopen

/-- **Service resumes** with a call of `with_state` on a queue that is not poisoned, whatever has
happened before: from the end of its first lock section on, as long as the queue is open and
nothing disturbs it, the first waiter that still has its params is one that `S::acquire` does not
grant, or a call of `with_queue` will lock and check again; and if no operation is in progress,
that waiter is not granted. -/
theorem service_resumes (hkeep : RefusalKeepsState S) (hret : ReturnsParams S)
    (hgrant : GrantNeverEnables S) {state : S} {order : O} {w w₁ w' : World ι κ W S O}
    (h : Reachable C state order w) {k : κ} {f : S → S × Unwind Unit}
    (hstep : step C w (.withState k f) = some w₁) (hpoison : w₁.inner.poisoned = false)
    {acts : List (Action ι κ W S)} (hexec : Transition.exec (step C) w₁ acts = some w')
    (hsmooth : Transition.EveryStep (step C) (Smooth C) w₁ acts)
    (hopen : w'.inner.closing C = false) :
    (Served w'.inner ∨ ∃ k, WillCheck C w' k) ∧ (Quiescent w' → Served w'.inner) := by
  have hs := Reachable.settled h
  have hwatched : Watched w' := by
    refine Settled.watched hkeep hret hgrant (hs.step hstep) ?_ hsmooth hexec hopen
    intro hopen₁
    cases step_cases hstep with
    | withState _ _ hk =>
      have hclosure : ClosureMoves C none k .empty _ _ := updateState_closure f (w.enter_call k)
      exact withQueue_watches hkeep hret hs.coherent hk hclosure (updateState_poisons _ f) hpoison
        hopen₁
  constructor
  · rcases hwatched with hserved | ⟨l, hl⟩
    · exact Or.inl hserved
    · exact Or.inr ⟨l, hl.willCheck⟩
  · intro hquiet
    rcases hwatched with hserved | ⟨l, c, hl, -⟩
    · exact hserved
    · rw [hquiet l] at hl
      cases hl

/-- The drain panics at the first of two waiters; after the repair the second one is served. -/
theorem service_resumes_after_repair :
    let acts : List (Action Nat Nat Nat Bomb) :=
      [.acquire 0 (1 : Nat), .poll 0 7 .quiet, .acquire 1 (1 : Nat), .poll 1 8 .quiet,
        .withState 0 fun _ => (⟨2, true⟩, .returned ()), .finish 0 (.returned ()),
        .withState 1 fun s => ({ s with armed := false }, .returned ()), .finish 1 (.returned ()),
        .clearPoison]
    let after : List (Action Nat Nat Nat Bomb) :=
      [.wake 2 (.returned ()), .finish 2 (.returned ()), .poll 1 8 .quiet]
    ∃ w, run .uncloseable (⟨0, false⟩ : Bomb) FairOrder.fifo acts = some w ∧
      ∃ w₁ w', step .uncloseable w (.withState 2 fun s => (s, .returned ())) = some w₁ ∧
        Transition.exec (step .uncloseable) w₁ after = some w' ∧
        (Served w'.inner ∨ ∃ k, WillCheck .uncloseable w' k) := by
  intro acts after
  apply exists_run_of_test _ (fun w =>
    (step .uncloseable w (.withState 2 fun s => (s, .returned ()))).any fun w₁ =>
      (Transition.exec (step .uncloseable) w₁ after).any fun w' =>
        !w₁.inner.poisoned && !w'.inner.closing .uncloseable &&
          decide (Transition.EveryStep (step .uncloseable) (Smooth .uncloseable) w₁ after)) rfl
  intro w hrun htest
  obtain ⟨w₁, hstep, htest⟩ := (Option.any_eq_true _ _).mp htest
  obtain ⟨w', hexec, htest⟩ := (Option.any_eq_true _ _).mp htest
  simp only [Bool.and_eq_true, Bool.not_eq_true', decide_eq_true_eq] at htest
  have hreach : Reachable .uncloseable ⟨0, false⟩ .fifo w :=
    Transition.reachable_iff_exec.mpr ⟨acts, hrun⟩
  exact ⟨w₁, w', hstep, hexec, (service_resumes Bomb.refusalKeepsState Bomb.returnsParams
    Bomb.grantNeverEnables hreach hstep htest.1.1 hexec htest.2 htest.1.2).1⟩

end FlagBearer
