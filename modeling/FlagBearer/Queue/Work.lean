import FlagBearer.Lib.Potential
import FlagBearer.Queue.Reports

/-!
# The Work of a Run

An operation may leave work behind: wakers to invoke, and another lock section if its batch was
full. A call that is interrupted all the time may go on for long, since others may queue up behind
the waiters that it removes. But whoever queues up has paid for it: over a whole run the steps
that calls take after their first section, and the calls of `S::acquire`, are at most twice as
many as the operations begun, whatever panics. And the calls in progress can be left to
themselves: in any order of their steps they come to an end, and the queue to rest.

## Main results

- `work_is_linear`: the amortised cost of operations
- `calls_come_to_an_end`: no call is stuck, and none goes on forever
-/

namespace FlagBearer

open PinList

variable {ι κ W S O : Type} [SemaphoreState S] {C : Closeability}

/-! ## Operations and continuations -/

/-- Is this a step of a call after its first lock section? -/
def Action.continues : Action ι κ W S → Bool
  | .resume _ => true
  | .wake _ _ => true
  | .finish _ _ => true
  | _ => false

/-- The number of operations begun. -/
def operations (acts : List (Action ι κ W S)) : Nat := acts.countP fun a => !a.continues

/-! ## Potentials -/

/-- What the calls named in `K` come to, each of them counting for `v`. -/
def World.total (K : Finset κ) (v : Call ι W S → Nat) (w : World ι κ W S O) : Nat :=
  ∑ k ∈ K, (w.calls k).elim 0 v

/-- The steps that a call still takes if no other turn removes nodes. -/
def Call.owed (c : Call ι W S) : Nat := 1 + c.wakes.wakers.length + c.more.toNat

/-- Steps to come: each queued node costs its wake, and a share of a turn. -/
def World.debt (K : Finset κ) (w : World ι κ W S O) : Nat :=
  2 * w.inner.entries.length + w.total K Call.owed

/-- Calls of `S::acquire`, made and to come. -/
def World.asked (K : Finset κ) (w : World ι κ W S O) : Nat :=
  (acquisitions w.log).length + w.inner.entries.length + w.total K fun c => c.more.toNat

section Total

variable {K : Finset κ} {v : Call ι W S → Nat} {w w' : World ι κ W S O}

theorem World.total_of_calls (h : w'.calls = w.calls) : w'.total K v = w.total K v := by
  unfold World.total
  rw [h]

theorem World.total_of_call [DecidableEq κ]
    {k : κ} (hk : k ∈ K) (h : ∀ l, l ≠ k → w'.calls l = w.calls l) :
    w'.total K v + (w.calls k).elim 0 v = w.total K v + (w'.calls k).elim 0 v := by
  have hsame : ∀ l, l ≠ k → (w'.calls l).elim 0 v = (w.calls l).elim 0 v := by
    intro l hl
    rw [h l hl]
  exact Transition.sum_of_one hk hsame

end Total

/-! ## Steps -/

variable [DecidableEq ι] [DecidableEq κ] [DecidableEq W] [Order O]

/-- A step leaves the other calls alone. -/
theorem step_calls {w w' : World ι κ W S O} (hw : Settled C w) {a : Action ι κ W S}
    (h : step C w a = some w') {l : κ} (hl : a.call ≠ some l) : w'.calls l = w.calls l := by
  rw [(step_confined hw h).calls l hl]
  cases a.asks C w <;> rfl

/-- A step that is of no call asks once at most, and at most one node joins. -/
theorem step_alone {w w' : World ι κ W S O} (hw : Settled C w) {a : Action ι κ W S}
    (h : step C w a = some w') (ha : a.call = none) :
    w'.calls = w.calls ∧ w'.inner.entries.length ≤ w.inner.entries.length + 1 ∧
      (acquisitions w'.log).length ≤ (acquisitions w.log).length + 1 := by
  have hcalls : w'.calls = w.calls := funext fun l => step_calls hw h (by simp [ha])
  refine ⟨hcalls, ?_⟩
  -- what comes after the section is no call of `S::acquire`
  have add {asks joins : Nat} {v : World ι κ W S O} (hv : Within asks joins w v)
      (hasks : asks ≤ 1) (hjoins : joins ≤ 1) {e : Event ι κ W S} (he : e.acquired? = none)
      (hlog : w'.log = v.log ++ [e]) (hlist : w'.inner.entries = v.inner.entries) :
      w'.inner.entries.length ≤ w.inner.entries.length + 1 ∧
        (acquisitions w'.log).length ≤ (acquisitions w.log).length + 1 := by
    obtain ⟨es, hes, -, hle⟩ := hv.events
    have hjoin := hv.list
    have hlast : acquisitions [e] = [] := by simp [acquisitions, he]
    rw [hlog, hes, hlist, acquisitions_append, acquisitions_append, hlast, List.append_nil,
      List.length_append]
    omega
  cases step_cases h with
  | acquire i p hi =>
    exact add (.refl w) (Nat.zero_le 1) (Nat.zero_le 1) (e := .created i p) rfl rfl rfl
  | poll i a cx calls hi =>
    refine add (poll_within w i a cx calls) (Nat.le_refl 1) (Nat.le_refl 1) ?_
      (wrapPoll_log i cx _) ?_
    · rfl
    · unfold pollAcquire wrapPoll
      split <;> rename_i heq <;> rw [heq] <;> rfl
  | tryAcquire i p fair hi =>
    have hgone : Within 0 0 w (w.setSlot i .gone) :=
      (Within.refl w).congr rfl (Nat.le_refl _)
    refine add (hgone.trans (tryAcquire_within _ i p fair)) (Nat.le_refl 1) (Nat.zero_le 1) ?_
      (wrapTry_log i p _) ?_
    · rfl
    · unfold tryAcquirePermit wrapTry
      split <;> rename_i heq <;> rw [heq] <;> rfl
  | takePermit i r hi =>
    exact add (.refl w) (Nat.zero_le 1) (Nat.zero_le 1) (e := .taken i r) rfl rfl rfl
  | conjure i r hi =>
    exact add (.refl w) (Nat.zero_le 1) (Nat.zero_le 1) (e := .conjured i r) rfl rfl rfl
  | clearPoison =>
    exact add (.refl w) (Nat.zero_le 1) (Nat.zero_le 1) (e := .cleared) rfl rfl rfl
  | observe =>
    exact ⟨Nat.le_succ _, Nat.le_succ _⟩
  | withState | dropAcquire | dropPermit | close | resume | wake | finish => cases ha

/-- What a step does to the two potentials: a continuation lowers the first one and does not raise
the second, and an operation raises each of them by two at most. -/
structure Paid (K : Finset κ) (w w' : World ι κ W S O) (continues : Bool) : Prop where
  debt : if continues then w'.debt K + 1 ≤ w.debt K else w'.debt K ≤ w.debt K + 2
  asked : if continues then w'.asked K ≤ w.asked K else w'.asked K ≤ w.asked K + 2

omit [DecidableEq ι] [DecidableEq κ] [DecidableEq W] [Order O] in
/-- A step that is of no call. -/
theorem paid_alone {K : Finset κ} {w w' : World ι κ W S O} (hcalls : w'.calls = w.calls)
    (hlist : w'.inner.entries.length ≤ w.inner.entries.length + 1)
    (hasked : (acquisitions w'.log).length ≤ (acquisitions w.log).length + 1) :
    Paid K w w' false := by
  constructor
  · show w'.debt K ≤ w.debt K + 2
    unfold World.debt
    rw [World.total_of_calls hcalls]
    omega
  · show w'.asked K ≤ w.asked K + 2
    unfold World.asked
    rw [World.total_of_calls hcalls]
    omega

omit [DecidableEq ι] [DecidableEq W] [Order O] in
/-- A lock section of a call: either it is the first one, or a turn was due. -/
theorem paid_collects {K : Finset κ} {k : κ} (hk : k ∈ K) {told : List (Event ι κ W S)}
    {w w' : World ι κ W S O} {c : Call ι W S} (h : Collects k told w w' c)
    (hcalls : ∀ l, l ≠ k → w'.calls l = w.calls l) {continues : Bool}
    (hbefore : if continues then ∃ c₀, w.calls k = some c₀ ∧ c₀.wakes.wakers = [] ∧ c₀.more = true
      else w.calls k = none) : Paid K w w' continues := by
  obtain ⟨es, hlog, -, hle⟩ := h.events
  have hlist := h.list
  have hacq : (acquisitions w'.log).length =
      (acquisitions w.log).length + (acquisitions es).length := by
    rw [hlog, acquisitions_append, List.length_append]
  have howed := World.total_of_call (v := Call.owed) hk hcalls
  have hmore := World.total_of_call (v := fun c => c.more.toNat) hk hcalls
  rw [h.call] at howed hmore
  simp only [Option.elim_some, Call.owed] at howed hmore
  -- a batch with another turn to follow has removed more than that turn costs
  have hfull : c.more.toNat ≤ c.wakes.wakers.length := by
    cases hm : c.more with
    | false => exact Nat.zero_le _
    | true =>
      rw [h.full hm]
      decide
  cases continues with
  | false =>
    have hnone : w.calls k = none := hbefore
    rw [hnone] at howed hmore
    simp only [Option.elim_none] at howed hmore
    constructor
    · show w'.debt K ≤ w.debt K + 2
      unfold World.debt
      omega
    · show w'.asked K ≤ w.asked K + 2
      unfold World.asked
      omega
  | true =>
    obtain ⟨c₀, hc₀, hwakes, hdue⟩ := hbefore
    rw [hc₀] at howed hmore
    simp only [Option.elim_some, Call.owed, hwakes, hdue, List.length_nil, Bool.toNat_true]
      at howed hmore
    constructor
    · show w'.debt K + 1 ≤ w.debt K
      unfold World.debt
      omega
    · show w'.asked K ≤ w.asked K
      unfold World.asked
      omega

omit [DecidableEq ι] [DecidableEq W] [Order O] in
/-- A wake, or the end of a call. -/
theorem paid_continues {K : Finset κ} {k : κ} (hk : k ∈ K) {w w' : World ι κ W S O}
    {c : Call ι W S} (hc : w.calls k = some c) (hcalls : ∀ l, l ≠ k → w'.calls l = w.calls l)
    (hinner : w'.inner = w.inner) {es : List (Event ι κ W S)} (hlog : w'.log = w.log ++ es)
    (hfree : ∀ e ∈ es, e.isFree = true)
    (howed : (w'.calls k).elim 0 Call.owed + 1 ≤ c.owed)
    (hmore : ((w'.calls k).elim 0 fun c => c.more.toNat) ≤ c.more.toNat) :
    Paid K w w' true := by
  have htotal := World.total_of_call (v := Call.owed) hk hcalls
  have hturns := World.total_of_call (v := fun c => c.more.toNat) hk hcalls
  rw [hc] at htotal hturns
  simp only [Option.elim_some] at htotal hturns
  constructor
  · show w'.debt K + 1 ≤ w.debt K
    unfold World.debt
    rw [hinner]
    omega
  · show w'.asked K ≤ w.asked K
    unfold World.asked
    rw [hinner, hlog, acquisitions_append, (free_events hfree).2, List.append_nil]
    omega

omit [DecidableEq ι] [DecidableEq κ] [DecidableEq W] [Order O] in
theorem dropAbandoned_inner (w : World ι κ W S O) (res : Unwind Unit)
    (data : Option (NodeData (Protected W S) (Removed S))) :
    (dropAbandoned w res data).inner = w.inner := by
  rcases data with _ | ⟨⟨_ | p, x⟩⟩ | ⟨⟨_ | p⟩ | r⟩ <;> rfl

/-- **What a step costs**. -/
theorem step_paid {K : Finset κ} {w w' : World ι κ W S O} (hw : Settled C w) {a : Action ι κ W S}
    (h : step C w a = some w') (hK : ∀ k, a.call = some k → k ∈ K) : Paid K w w' a.continues := by
  have helsewhere {k : κ} (ha : a.call = some k) (l : κ) (hl : l ≠ k) : w'.calls l = w.calls l := by
    apply step_calls hw h
    rw [ha]
    exact fun heq => hl (Option.some.inj heq).symm
  cases hcall : a.call with
  | none =>
    -- no call: at most one more node and one more question
    obtain ⟨hcalls, hlist, hasked⟩ := step_alone hw h hcall
    have hfirst : a.continues = false := by
      cases a with
      | resume | wake | finish => cases hcall
      | _ => rfl
    rw [hfirst]
    exact paid_alone hcalls hlist hasked
  | some k =>
    have hk := hK k hcall
    cases hlocks : a.locks with
    | some l =>
      obtain rfl : l = k := by
        cases a <;> cases hlocks <;> exact Option.some.inj hcall
      -- a lock section, unless the dropped future was never queued
      rcases step_collects hw h hlocks with ⟨c, hturn⟩ | ⟨⟨i, rfl⟩, hcalls, hwithin⟩
      · apply paid_collects hk hturn (helsewhere hcall)
        cases step_cases h with
        | withState k' f hnone | dropAcquire k' i a hi hnone | dropPermit k' i r hi hnone
          | close k' hC hnone =>
          cases hlocks
          exact hnone
        | resume k' c₀ hc₀ hwakes hunw hmore =>
          cases hlocks
          exact ⟨c₀, hc₀, hwakes, hmore⟩
        | _ => cases hlocks
      · obtain ⟨es, hlog, -, hle⟩ := hwithin.events
        have hlist := hwithin.list
        refine paid_alone hcalls (by omega) ?_
        rw [hlog, acquisitions_append, List.length_append]
        omega
    | none =>
      cases step_cases h with
      | wake k' c res w' hc hwake =>
        cases hcall
        -- one waker less in the batch
        obtain ⟨i, x, rest, unwinding, hwakers, rfl⟩ := wakeNext_eq_some hwake
        have hfree : ∀ e ∈ ([.woke k i x w.locked res] : List (Event ι κ W S)),
            e.isFree = true := by
          simp [Event.isFree, Event.outward, Event.acquired?]
        apply paid_continues hk hc (helsewhere rfl) rfl rfl hfree
        · simp only [World.setCall_calls, Function.update_self, Option.elim_some, Call.owed,
            hwakers, List.length_cons]
          omega
        · simp
      | finish k' c res w' hc hfinish =>
        cases hcall
        -- the call is gone, with the step it still owed
        obtain ⟨-, ended, -, rfl⟩ := finish_eq_some hfinish
        obtain ⟨es, hlog, hfree⟩ := dropAbandoned_log w res c.abandoned
        have hlog' : (((dropAbandoned w res c.abandoned).setCall k none).emit
            (.returned k c.kind ended)).log = w.log ++ (es ++ [.returned k c.kind ended]) := by
          simp [hlog]
        have hfree' : ∀ e ∈ es ++ [.returned k c.kind ended], e.isFree = true := by
          intro e he
          rcases List.mem_append.mp he with hold | hlast
          · exact hfree e hold
          · rw [List.mem_singleton.mp hlast]
            rfl
        apply paid_continues hk hc (helsewhere rfl) (dropAbandoned_inner w res c.abandoned) hlog'
          hfree'
        · simp only [World.emit_calls, World.setCall_calls, Function.update_self, Option.elim_none,
            Call.owed]
          omega
        · simp
      | withState | dropAcquire | dropPermit | close | resume => cases hlocks
      | _ => cases hcall

/-! ## Runs -/

/-- The names of the calls that the actions are about. -/
def callNames (acts : List (Action ι κ W S)) : Finset κ := (acts.filterMap Action.call).toFinset

omit [DecidableEq ι] [DecidableEq W] in
theorem mem_callNames {acts : List (Action ι κ W S)} {a : Action ι κ W S} (ha : a ∈ acts) :
    ∀ k, a.call = some k → k ∈ callNames acts := by
  intro k hk
  exact List.mem_toFinset.mpr (List.mem_filterMap.mpr ⟨a, ha, hk⟩)

/-- What a run costs, if `K` contains the names of its calls. -/
theorem exec_paid {K : Finset κ} {w w' : World ι κ W S O} (hw : Settled C w)
    {acts : List (Action ι κ W S)} (hK : ∀ a ∈ acts, ∀ k, a.call = some k → k ∈ K)
    (h : Transition.exec (step C) w acts = some w') :
    acts.countP Action.continues + w'.debt K ≤ w.debt K + 2 * operations acts ∧
      w'.asked K ≤ w.asked K + 2 * operations acts := by
  have hkeep : ∀ {v v' : World ι κ W S O} {a : Action ι κ W S}, Settled C v →
      (∀ k, a.call = some k → k ∈ K) → step C v a = some v' → Settled C v' :=
    fun hv _ hstep => hv.step hstep
  constructor
  · have hcost := Transition.exec_potential Action.continues (World.debt K) 1 2 hkeep ?_ ?_ hw hK h
    · simpa [operations] using hcost
    · intro v v' a hv ha hstep hcont
      simpa [hcont] using (step_paid hv hstep ha).debt
    · intro v v' a hv ha hstep hcont
      simpa [hcont] using (step_paid hv hstep ha).debt
  · have hcost := Transition.exec_potential Action.continues (World.asked K) 0 2 hkeep ?_ ?_ hw hK h
    · simpa [operations] using hcost
    · intro v v' a hv ha hstep hcont
      simpa [hcont] using (step_paid hv hstep ha).asked
    · intro v v' a hv ha hstep hcont
      simpa [hcont] using (step_paid hv hstep ha).asked

omit [DecidableEq ι] [DecidableEq κ] [DecidableEq W] [Order O] in
theorem debt_new (K : Finset κ) (state : S) (order : O) :
    (World.new state order : World ι κ W S O).debt K = 0 := by
  simp [World.debt, World.total, World.new, QueueState.new]

omit [DecidableEq ι] [DecidableEq κ] [DecidableEq W] [Order O] in
theorem asked_new (K : Finset κ) (state : S) (order : O) :
    (World.new state order : World ι κ W S O).asked K = 0 := by
  simp [World.asked, World.total, World.new, QueueState.new]

/-- **The work of a run is linear**: however operations and calls are interleaved, and whatever
panics, there are at most two continuations and at most two calls of `S::acquire` for each
operation begun. -/
theorem work_is_linear {state : S} {order : O} {acts : List (Action ι κ W S)}
    {w : World ι κ W S O} (h : run C state order acts = some w) :
    acts.countP Action.continues ≤ 2 * operations acts ∧
      (acquisitions w.log).length ≤ 2 * operations acts := by
  obtain ⟨hsteps, hasked⟩ := exec_paid (Settled.new state order) (fun a ha => mem_callNames ha) h
  rw [debt_new] at hsteps
  rw [asked_new] at hasked
  unfold World.asked at hasked
  omega

/-- A closure serves two waiters, and the wake of the first one panics. -/
theorem work_is_linear_of_two :
    let acts : List (Action Nat Nat Nat SemaphoreCounter) :=
      [.acquire 0 (1 : Nat), .poll 0 7 .quiet, .acquire 1 (1 : Nat), .poll 1 8 .quiet,
        .withState 0 (SemaphoreCounter.add 2), .wake 0 .panicked, .wake 0 (.returned ()),
        .finish 0 (.returned ())]
    ∃ w, run .uncloseable (⟨0⟩ : SemaphoreCounter) FairOrder.fifo acts = some w ∧
      acts.countP Action.continues ≤ 2 * operations acts ∧
      (acquisitions w.log).length ≤ 2 * operations acts :=
  exists_run_of_test _ (fun _ => true) rfl fun _ hw _ => work_is_linear hw

/-! ## Rest -/

/-- A call in progress has a step to make. -/
theorem continues_of_call {w : World ι κ W S O} {k : κ} {c : Call ι W S}
    (hk : w.calls k = some c) :
    ∃ a w', a.call = some k ∧ a.continues = true ∧ step C w a = some w' := by
  cases hunw : c.unwinding with
  | false =>
    obtain ⟨a, ha, hstep⟩ := exists_continues (C := C) hk fun _ => hunw
    obtain ⟨w', hw'⟩ := Option.isSome_iff_exists.mp hstep
    cases ha with
    | resume => exact ⟨_, w', rfl, rfl, hw'⟩
    | wake => exact ⟨_, w', rfl, rfl, hw'⟩
    | finish => exact ⟨_, w', rfl, rfl, hw'⟩
  | true =>
    -- what is left of the batch is woken, then the panic goes on
    rcases hpop : c.wakes.pop with _ | ⟨⟨i, x⟩, rest⟩
    · have hnil := WakeBatch.pop_eq_none.mp hpop
      have hstep : (step C w (.finish k (.returned ()))).isSome = true := by
        simp only [step, hk, FlagBearer.finish, hnil, hunw]
        rcases c.abandoned with _ | ⟨_ | _⟩ <;> rfl
      obtain ⟨w', hw'⟩ := Option.isSome_iff_exists.mp hstep
      exact ⟨_, w', rfl, rfl, hw'⟩
    · have hstep : (step C w (.wake k (.returned ()))).isSome = true := by
        simp [step, hk, wakeNext, hpop]
      obtain ⟨w', hw'⟩ := Option.isSome_iff_exists.mp hstep
      exact ⟨_, w', rfl, rfl, hw'⟩

/-- The queue is at rest, or a call has a step to make. -/
theorem quiescent_or_continues (C : Closeability) (w : World ι κ W S O) :
    Quiescent w ∨ ∃ k a w', w.calls k ≠ none ∧ a.call = some k ∧ a.continues = true ∧
      step C w a = some w' := by
  by_cases hrest : Quiescent w
  · exact Or.inl hrest
  · unfold Quiescent at hrest
    obtain ⟨k, hk⟩ := not_forall.mp hrest
    obtain ⟨c, hc⟩ := Option.ne_none_iff_exists'.mp hk
    obtain ⟨a, w', ha⟩ := continues_of_call (C := C) hc
    exact Or.inr ⟨k, a, w', hk, ha⟩

/-- Between lock sections, and only calls named in `K` are in progress. -/
structure Contained (C : Closeability) (K : Finset κ) (w : World ι κ W S O) : Prop where
  settled : Settled C w
  names : ∀ k, w.calls k ≠ none → k ∈ K

theorem Contained.step {K : Finset κ} {w w' : World ι κ W S O} {a : Action ι κ W S}
    (hw : Contained C K w) (ha : ∀ k, a.call = some k → k ∈ K)
    (h : FlagBearer.step C w a = some w') : Contained C K w' := by
  refine ⟨hw.settled.step h, fun k hk => ?_⟩
  by_cases hcall : a.call = some k
  · exact ha k hcall
  · rw [step_calls hw.settled h hcall] at hk
    exact hw.names k hk

theorem Contained.exec {K : Finset κ} {w w' : World ι κ W S O} {acts : List (Action ι κ W S)}
    (hw : Contained C K w) (hacts : ∀ a ∈ acts, ∀ k, a.call = some k → k ∈ K)
    (h : Transition.exec (FlagBearer.step C) w acts = some w') : Contained C K w' := by
  induction acts generalizing w with
  | nil =>
    cases h
    exact hw
  | cons a acts ih =>
    obtain ⟨u, hu, hrest⟩ := Option.bind_eq_some_iff.mp h
    exact ih (hw.step (hacts a (List.mem_cons_self ..)) hu)
      (fun b hb => hacts b (List.mem_cons_of_mem a hb)) hrest

theorem Contained.rest {K : Finset κ} {w : World ι κ W S O} (hw : Contained C K w) :
    ∃ more w', (∀ a ∈ more, a.continues = true) ∧
      Transition.exec (FlagBearer.step C) w more = some w' ∧ Quiescent w' := by
  have hkeep : ∀ {v v' : World ι κ W S O} {a : Action ι κ W S}, Contained C K v →
      (∀ k, a.call = some k → k ∈ K) → FlagBearer.step C v a = some v' → Contained C K v' :=
    fun hv ha hstep => hv.step ha hstep
  refine Transition.exists_rest Action.continues (World.debt K) hkeep ?_ ?_ hw
  · intro v v' a hv ha hstep hcont
    simpa [hcont] using (step_paid hv.settled hstep ha).debt
  · intro v hv
    rcases quiescent_or_continues C v with hrest | ⟨k, a, v', hk, hcall, hcont, hstep⟩
    · exact Or.inl hrest
    · refine Or.inr ⟨a, v', fun l hl => ?_, hcont, hstep⟩
      obtain rfl : k = l := Option.some.inj (hcall.symm.trans hl)
      exact hv.names k hk

/-- **The calls in progress come to an end**: after any run, in whatever order they take their steps
and whichever of their wakers panic, they are over after a number of steps that the operations
begun so far bound, and until then one of them can go on. Left to themselves they bring the queue
to rest. -/
theorem calls_come_to_an_end {state : S} {order : O} {acts : List (Action ι κ W S)}
    {w : World ι κ W S O} (h : run C state order acts = some w) :
    (∀ more w', (∀ a ∈ more, a.continues = true) → Transition.exec (step C) w more = some w' →
      acts.countP Action.continues + more.length ≤ 2 * operations acts ∧
        (Quiescent w' ∨ ∃ a w'', a.continues = true ∧ step C w' a = some w'')) ∧
    ∃ more w', (∀ a ∈ more, a.continues = true) ∧ Transition.exec (step C) w more = some w' ∧
      Quiescent w' := by
  constructor
  · intro more w' hmore hexec
    refine ⟨?_, ?_⟩
    · have hrun : run C state order (acts ++ more) = some w' := by
        unfold run at h ⊢
        rw [Transition.exec_append, h]
        exact hexec
      obtain ⟨hsteps, -⟩ := exec_paid (Settled.new state order) (fun a ha => mem_callNames ha) hrun
      have hall : more.countP Action.continues = more.length := List.countP_eq_length.mpr hmore
      have hnone : operations more = 0 := by
        apply List.countP_eq_zero.mpr
        intro a ha
        simp [hmore a ha]
      unfold operations at hsteps hnone ⊢
      rw [debt_new, List.countP_append, List.countP_append, hall, hnone] at hsteps
      omega
    · rcases quiescent_or_continues C w' with hrest | ⟨_, a, w'', -, -, hcont, hstep⟩
      · exact Or.inl hrest
      · exact Or.inr ⟨a, w'', hcont, hstep⟩
  · have hstart : Contained C (callNames acts) (World.new state order : World ι κ W S O) :=
      ⟨Settled.new state order, fun k hk => absurd rfl hk⟩
    exact (hstart.exec (fun a ha => mem_callNames ha) h).rest

/-- A drop and a closure are in progress, each with a waker to invoke. -/
theorem calls_come_to_an_end_of_two :
    let acts : List (Action Nat Nat Nat SemaphoreCounter) :=
      [.tryAcquire 0 (1 : Nat) true, .acquire 1 (1 : Nat), .poll 1 7 .quiet, .acquire 2 (1 : Nat),
        .poll 2 8 .quiet, .dropPermit 0 0, .withState 1 (SemaphoreCounter.add 1)]
    ∃ w, run .uncloseable (⟨1⟩ : SemaphoreCounter) FairOrder.fifo acts = some w ∧
      (∀ more w', (∀ a ∈ more, a.continues = true) →
        Transition.exec (step .uncloseable) w more = some w' →
          acts.countP Action.continues + more.length ≤ 2 * operations acts ∧
            (Quiescent w' ∨ ∃ a w'', a.continues = true ∧ step .uncloseable w' a = some w'')) ∧
      ∃ more w', (∀ a ∈ more, a.continues = true) ∧
        Transition.exec (step .uncloseable) w more = some w' ∧ Quiescent w' :=
  exists_run_of_test _ (fun _ => true) rfl fun _ hw _ => calls_come_to_an_end hw

end FlagBearer
