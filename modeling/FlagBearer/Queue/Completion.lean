import FlagBearer.Queue.Headway
import FlagBearer.Queue.Promises
import FlagBearer.Queue.Recovery

/-!
# Completion

Headway comes to an end, and what is left then is a queue at rest. Every permit is back where it
came from, so a waiter is left only if the state does not grant it even with all of them. For the
counter this means that nobody waits forever, whatever the order and however the tasks are
interleaved, unless somebody asks for more permits than there are.

## Main results

- `AtRest.outstanding`: no permit is outstanding
- `waiters_are_served`: the statement about the counter
-/

namespace FlagBearer

open PinList Tokens

section AnyState

variable {ι κ W S O : Type} [DecidableEq ι] [DecidableEq κ] [DecidableEq W]
variable [SemaphoreState S] [Order O] {C : Closeability}

/-! ## At rest -/

omit [DecidableEq κ] [DecidableEq W] [Order O] in
/-- At rest no permit is outstanding. -/
theorem AtRest.outstanding {w : World ι κ W S O} (h : AtRest w) (hw : Coherent C w)
    {m : Multiset (ι × Permit S)} (hm : w.Outstanding m) : m = 0 := by
  apply Multiset.eq_zero_of_forall_notMem
  rintro ⟨i, r⟩ hmem
  have howned : w.owned i = 0 := World.owned_eq_zero.mpr (h.guards i)
  have hstored : w.stored i = 0 := by
    unfold World.stored
    cases hi : w.slots i with
    | unborn => rfl
    | gone => rfl
    | live a =>
      obtain ⟨n, params⟩ := a
      cases n with
      | initial => rfl
      | linked => rfl
      | removed res =>
        obtain rfl : params = none := hw.asked i _ hi (by simp)
        exact absurd hi (h.nodes i res)
  have hpart := mem_part.mpr hmem
  rw [hm i, hstored, howned] at hpart
  exact absurd hpart (Multiset.notMem_zero r)

/-- If no call of `S::acquire` unwound, every waiter has its params. -/
theorem Reachable.alive (hret : ReturnsParams S) {state : S} {order : O} {w : World ι κ W S O}
    (h : Reachable C state order w) (hnever : StateNeverUnwinds w)
    {e : ι × Protected W S} (he : e ∈ w.inner.entries) : e.2.1 ≠ none := by
  obtain ⟨i, params, x⟩ := e
  rintro rfl
  obtain ⟨p, hp⟩ := h.origin hret (.queued he)
  cases hnever _ hp rfl

omit [DecidableEq ι] [DecidableEq κ] [DecidableEq W] in
theorem turnedAwayByDead_of_alive {w : World ι κ W S O}
    (halive : ∀ e ∈ w.inner.entries, e.2.1 ≠ none) (a : Action ι κ W S) :
    turnedAwayByDead C w a = false := by
  have hend : w.inner.deadEnd = false := by
    unfold QueueState.deadEnd QueueState.allDead
    cases hentries : w.inner.entries with
    | nil => rfl
    | cons e rest =>
      have he := halive e (by simp [hentries])
      simp [he]
  simp [turnedAwayByDead, hend]

omit [DecidableEq ι] [DecidableEq κ] [DecidableEq W] [Order O] in
/-- At rest the head of the queue is not granted. -/
theorem AtRest.head_not_granted {w : World ι κ W S O} (h : AtRest w) (hw : Watched w)
    (halive : ∀ e ∈ w.inner.entries, e.2.1 ≠ none) {e : ι × Protected W S}
    {rest : WaitList ι W S} (hwaits : w.inner.entries = e :: rest) :
    ∃ p, e.2.1 = some p ∧ ¬ Granted w.inner.state p := by
  obtain ⟨p, hp⟩ := Option.ne_none_iff_exists'.mp (halive e (by simp [hwaits]))
  refine ⟨p, hp, ?_⟩
  rcases hw with hserved | ⟨k, c, hk, -⟩
  · apply hserved p
    rw [QueueState.next, hwaits, List.findSome?_cons]
    simp [waiters, hp]
  · rw [h.calls k] at hk
    cases hk

omit [DecidableEq ι] [DecidableEq κ] [DecidableEq W] [Order O] in
/-- A step that asks for nothing new neither closes the queue nor touches the state on the user's
behalf. -/
theorem Headway.not_new {w : World ι κ W S O} {a : Action ι κ W S} (h : Headway w a) :
    (∀ k f, a ≠ .withState k f) ∧ ∀ i r, a ≠ .conjure i r := by
  cases h with
  | continues a ha => cases a <;> cases ha <;> simp
  | _ => simp

end AnyState

section Counter

variable {ι κ W O : Type} [DecidableEq ι] [DecidableEq κ] [DecidableEq W] [Order O]
variable {C : Closeability}

/-! ## The counter -/

/-- Closures add permits as `amount` tells, and all permits ever supplied fit in a machine word. -/
structure Supplied (amount : (SemaphoreCounter → SemaphoreCounter × Unwind Unit) → Nat) (n : Nat)
    (acts : List (Action ι κ W SemaphoreCounter)) : Prop where
  closures : ∀ k f, .withState k f ∈ acts → ∀ s : SemaphoreCounter,
    s.available + amount f ≤ USIZE_MAX → f s = (⟨s.available + amount f⟩, .returned ())
  fits : n + (acts.map (Action.supply amount)).sum ≤ USIZE_MAX

section Supplied

variable {amount : (SemaphoreCounter → SemaphoreCounter × Unwind Unit) → Nat} {n : Nat}
variable {acts more : List (Action ι κ W SemaphoreCounter)}

omit [DecidableEq ι] [DecidableEq κ] [DecidableEq W] in
theorem Supplied.of_append (h : Supplied amount n (acts ++ more)) : Supplied amount n acts := by
  constructor
  case closures => exact fun k f hf => h.closures k f (List.mem_append_left _ hf)
  case fits =>
    have hfits := h.fits
    rw [List.map_append, List.sum_append] at hfits
    omega

/-- Headway supplies nothing. -/
theorem supply_of_headway {w w' : World ι κ W SemaphoreCounter O}
    (h : Transition.EveryStep (step C) (fun v a _ => Headway v a) w more)
    (hexec : Transition.exec (step C) w more = some w') :
    (more.map (Action.supply amount)).sum = 0 := by
  apply List.sum_eq_zero
  intro s hs
  obtain ⟨a, ha, rfl⟩ := List.mem_map.mp hs
  obtain ⟨u, -, hu⟩ := h.exists_of_mem hexec ha
  obtain ⟨hclosure, hconjure⟩ := hu.not_new
  cases a with
  | withState k f => exact absurd rfl (hclosure k f)
  | conjure i r => exact absurd rfl (hconjure i r)
  | _ => rfl

theorem Supplied.append (h : Supplied amount n acts) {w w' : World ι κ W SemaphoreCounter O}
    (hmore : Transition.EveryStep (step C) (fun v a _ => Headway v a) w more)
    (hexec : Transition.exec (step C) w more = some w') : Supplied amount n (acts ++ more) := by
  constructor
  case closures =>
    intro k f hf
    rcases List.mem_append.mp hf with hold | hnew
    · exact h.closures k f hold
    · obtain ⟨u, -, hu⟩ := hmore.exists_of_mem hexec hnew
      exact absurd rfl (hu.not_new.1 k f)
  case fits =>
    rw [List.map_append, List.sum_append, supply_of_headway hmore hexec, Nat.add_zero]
    exact h.fits

/-- In a run of the counter nothing is poisoned, and every waiter has its params. -/
theorem Supplied.sound (h : Supplied amount n acts) {order : O}
    {w : World ι κ W SemaphoreCounter O} (hrun : run C ⟨n⟩ order acts = some w) :
    w.inner.poisoned = false ∧ ∀ e ∈ w.inner.entries, e.2.1 ≠ none := by
  obtain ⟨m, ls, hissuer, -, hls⟩ := SemaphoreCounter.keeps hrun h.closures h.fits
  have hreach : Reachable C ⟨n⟩ order w := Transition.reachable_iff_exec.mpr ⟨acts, hrun⟩
  have hnever := hissuer.stateReturns fun l hl => (hls l hl).stateReturns
  exact ⟨hissuer.not_poisoned hrun hls,
    fun e he => hreach.alive SemaphoreCounter.returnsParams hnever he⟩

/-- Every step of such a run is smooth, if no waker of a batch panics. -/
theorem Supplied.smooth (h : Supplied amount n acts) {order : O}
    {w : World ι κ W SemaphoreCounter O} (hrun : run C ⟨n⟩ order acts = some w)
    (hwakers : ∀ a ∈ acts, a.panicsWaker = false) :
    Transition.EveryStep (step C) (Smooth C) (World.new ⟨n⟩ order) acts := by
  apply Transition.everyStep_of_prefix
  intro pre a post t u hacts hexec hstep
  subst hacts
  have hsupply : Supplied amount n ((pre ++ [a]) ++ post) := by simpa using h
  have hnext : run C ⟨n⟩ order (pre ++ [a]) = some u :=
    Transition.exec_snoc_eq_some.mpr ⟨t, hexec, hstep⟩
  exact ⟨(hsupply.of_append.sound hnext).1, hwakers a (by simp),
    turnedAwayByDead_of_alive (h.of_append.sound hexec).2 a⟩

/-- At rest every permit is available but those taken for good, and the head of the queue asks for
more. -/
theorem Supplied.at_rest (h : Supplied amount n acts) {order : O}
    {w : World ι κ W SemaphoreCounter O} (hrun : run C ⟨n⟩ order acts = some w)
    (hwakers : ∀ a ∈ acts, a.panicsWaker = false) (hopen : w.inner.closing C = false)
    (hrest : AtRest w) :
    w.inner.state.available +
        SemaphoreCounter.worth (burnt (interventions C (World.new ⟨n⟩ order) acts)) =
      n + (acts.map (Action.supply amount)).sum ∧
    ∀ e rest, w.inner.entries = e :: rest →
      ∃ p : Nat, e.2.1 = some p ∧ w.inner.state.available < p := by
  have hstart : Settled C (World.new ⟨n⟩ order : World ι κ W SemaphoreCounter O) :=
    Settled.new _ order
  have hs : Settled C w := hstart.exec hrun
  constructor
  · obtain ⟨m, ls, hissuer, hsum, -⟩ := SemaphoreCounter.keeps hrun h.closures h.fits
    rw [hrest.outstanding hs.coherent hissuer.outstanding] at hsum
    simpa using hsum
  · intro e rest hwaits
    have hwatched : Watched w :=
      hstart.watched SemaphoreCounter.refusalKeepsState
        SemaphoreCounter.returnsParams SemaphoreCounter.grantNeverEnables
        (fun _ => Or.inl (served_of_nil rfl)) (h.smooth hrun hwakers) hrun hopen
    obtain ⟨p, hp, hnot⟩ := hrest.head_not_granted hwatched (h.sound hrun).2 hwaits
    refine ⟨p, hp, Nat.lt_of_not_le fun hle => hnot ?_⟩
    exact ⟨_, p, SemaphoreCounter.acquire_eq_ok.mpr ⟨hle, rfl, rfl⟩⟩

/-- **Every waiter of the counter is served** if everybody gives back: after any run in which no
waker of a batch panics, the steps that ask for nothing new are bounded, in any order. And as long
as the queue is open, some permit can be given back or a call can go on, or else all permits but
those taken for good are available and whoever is first in the queue asks for more than that. -/
theorem waiters_are_served (h : Supplied amount n acts) {order : O}
    {w : World ι κ W SemaphoreCounter O} (hrun : run C ⟨n⟩ order acts = some w) (k : κ)
    {w' : World ι κ W SemaphoreCounter O} (hexec : Transition.exec (step C) w more = some w')
    (hmore : Transition.EveryStep (step C) (fun v a _ => Headway v a) w more)
    (hwakers : ∀ a ∈ acts ++ more, a.panicsWaker = false) :
    more.length ≤ 20 * operations acts ∧ (w'.inner.closing C = false →
      (∃ a w'', GivesBack w' a ∧ step C w' a = some w'') ∨
        w'.inner.state.available + SemaphoreCounter.worth
            (burnt (interventions C (World.new ⟨n⟩ order) (acts ++ more))) =
          n + (acts.map (Action.supply amount)).sum ∧
        ∀ e rest, w'.inner.entries = e :: rest →
          ∃ p : Nat, e.2.1 = some p ∧ w'.inner.state.available < p) := by
  refine ⟨run_headway_le hrun hexec hmore, fun hopen => ?_⟩
  rcases atRest_or_givesBack C k w' with hrest | hgives
  · have hlong : run C ⟨n⟩ order (acts ++ more) = some w' := Transition.exec_trans hrun hexec
    have hend := (h.append hmore hexec).at_rest hlong hwakers hopen hrest
    rw [List.map_append, List.sum_append, supply_of_headway hmore hexec, Nat.add_zero] at hend
    exact Or.inr hend
  · exact Or.inl hgives

end Supplied

/-- A waiter for two is served when both permits are back, and a waiter for four is not. -/
theorem waiters_are_served_of_large :
    let amount : (SemaphoreCounter → SemaphoreCounter × Unwind Unit) → Nat := fun _ => 1
    let acts : List (Action Nat Nat Nat SemaphoreCounter) :=
      [.tryAcquire 0 (1 : Nat) true, .acquire 1 (2 : Nat), .poll 1 7 .quiet, .acquire 2 (4 : Nat),
        .poll 2 8 .quiet, .withState 0 (SemaphoreCounter.add 1), .finish 0 (.returned ())]
    let more : List (Action Nat Nat Nat SemaphoreCounter) :=
      [.dropPermit 0 0, .wake 0 (.returned ()), .finish 0 (.returned ()), .dropAcquire 0 1,
        .finish 0 (.returned ())]
    ∃ w w', run .uncloseable (⟨1⟩ : SemaphoreCounter) FairOrder.fifo acts = some w ∧
      Transition.exec (step .uncloseable) w more = some w' ∧
      more.length ≤ 20 * operations acts ∧
      ((∃ a w'', GivesBack w' a ∧ step .uncloseable w' a = some w'') ∨
        w'.inner.state.available + SemaphoreCounter.worth
            (burnt (interventions .uncloseable (World.new ⟨1⟩ FairOrder.fifo) (acts ++ more))) =
          1 + (acts.map (Action.supply amount)).sum ∧
        ∀ e rest, w'.inner.entries = e :: rest →
          ∃ p : Nat, e.2.1 = some p ∧ w'.inner.state.available < p) := by
  intro amount acts more
  have hsupply : Supplied amount 1 acts := by
    constructor
    case closures =>
      intro k f hf s hs
      simp only [acts, List.mem_cons, reduceCtorEq, Action.withState.injEq, List.not_mem_nil,
        false_or, or_false] at hf
      obtain ⟨-, rfl⟩ := hf
      exact SemaphoreCounter.add_eq_returned.mpr ⟨hs, rfl⟩
    case fits => decide
  have hmore (w : World Nat Nat Nat SemaphoreCounter FairOrder) :
      Transition.EveryStep (step .uncloseable) (fun v a _ => Headway v a) w more :=
    fun _ _ => ⟨.dropPermit 0 0, fun _ _ => ⟨.continues _ rfl, fun _ _ => ⟨.continues _ rfl,
      fun _ _ => ⟨.dropAcquire 0 1, fun _ _ => ⟨.continues _ rfl, trivial⟩⟩⟩⟩⟩
  have hboth : ∃ w, run .uncloseable (⟨1⟩ : SemaphoreCounter) FairOrder.fifo acts = some w ∧
      ∃ w', Transition.exec (step .uncloseable) w more = some w' :=
    exists_run_of_test _ (fun w => (Transition.exec (step .uncloseable) w more).isSome) rfl
      fun w _ htest => Option.isSome_iff_exists.mp htest
  obtain ⟨w, hrun, w', hexec⟩ := hboth
  obtain ⟨hbound, hserved⟩ := waiters_are_served hsupply hrun 0 hexec (hmore w)
    (by simp [acts, more, Action.panicsWaker])
  exact ⟨w, w', hrun, hexec, hbound, hserved rfl⟩

end Counter

end FlagBearer
