import FlagBearer.Queue.Decompose

/-!
# Runs

A step of the semaphore is a sequence of moves, so what every move preserves holds in every
reachable state. This is the rule by which all results about runs are proved.

## Main results

- `step_moves`: a step performs moves, and leaves the mutex free
- `Reachable.settled`: what holds between lock sections
- `Reachable.invariant_of_moves`: the run rule
-/

namespace FlagBearer

variable {ι κ W S O : Type} [DecidableEq κ] [SemaphoreState S] {C : Closeability} {own : Option ι}

/-! ## Calls of close -/

/-- Only a closeable queue has calls of `close`. -/
def World.Closes (C : Closeability) (w : World ι κ W S O) : Prop :=
  ∀ k c, w.calls k = some c → c.kind = .close → C.CLOSE = true

theorem World.Closes.keep {w w' : World ι κ W S O} (hw : w.Closes C) {k : κ} {c : Call ι W S}
    (hcalls : w'.calls = Function.update w.calls k (some c))
    (hc : c.kind = .close → C.CLOSE = true) : w'.Closes C := by
  intro l c' hl hkind
  rw [hcalls] at hl
  by_cases hlk : l = k
  · subst hlk
    rw [Function.update_self] at hl
    cases hl
    exact hc hkind
  · rw [Function.update_of_ne hlk] at hl
    exact hw l c' hl hkind

theorem World.Closes.finish {w w' : World ι κ W S O} (hw : w.Closes C) {k : κ}
    (hcalls : w'.calls = Function.update w.calls k none) : w'.Closes C := by
  intro l c hl hkind
  rw [hcalls] at hl
  by_cases hlk : l = k
  · subst hlk
    rw [Function.update_self] at hl
    cases hl
  · rw [Function.update_of_ne hlk] at hl
    exact hw l c hl hkind

variable [DecidableEq ι] [Order O]

theorem World.Closes.move {c d : Conf ι κ W S O} (hc : c.1.Closes C) (h : Move C own c d) :
    d.1.Closes C := by
  cases h with
  | begin w h k kind hk hC => exact hc.keep rfl hC
  | finish w h k c res hk hnil hres => exact hc.finish rfl
  -- the locals of a call change, not its kind
  | turn w h k c more unwinding hk hunw hmore => exact hc.keep rfl (hc k c hk)
  | wake w h k c i x rest res hl hk hpop => exact hc.keep rfl (hc k c hk)
  | grant w h k i p x r state before after c wakes hopen hq hdead hi hk hkind hpush hacq =>
    exact hc.keep rfl (hc k c hk)
  | expel w h k i params x rest c wakes hclosed hq hi hk hkind hpush =>
    exact hc.keep rfl (hc k c hk)
  | cancelLinked w k i params x before after c hq hi hk => exact hc.keep rfl (hc k c hk)
  | cancelRefused w k i params c hi hk => exact hc.keep rfl (hc k c hk)
  | _ => exact hc

/-! ## Between lock sections -/

/-- What holds between the lock sections. -/
structure Settled (C : Closeability) (w : World ι κ W S O) : Prop where
  coherent : Coherent C w
  unlocked : w.locked = false
  closes : w.Closes C

theorem resume_moves {w : World ι κ W S O} (hw : Settled C w) {k : κ} {c : Call ι W S}
    (hk : w.calls k = some c) (hwakers : c.wakes.wakers = []) :
    Moves C own (w, .empty) (resume C k w c, .empty) ∧ (resume C k w c).locked = false := by
  unfold resume
  rcases hkind : c.kind with _ | _
  · -- the batch was woken, so there is room in it again
    have henter : Moves C own (w, .empty) (w.lock.emit (.entered k .withQueue), .empty) :=
      (Moves.one (.lock w .empty)).tail (.note _ _ _ (.entered k .withQueue))
    have hroom : c.wakes.isFull = false := WakeBatch.not_isFull_of_nil hwakers
    have hturn : Moves C own (w.lock.emit (.entered k .withQueue), .empty) _ ∧ _ :=
      withQueueTurn_moves k .empty (hw.coherent.moves henter) hk hkind hroom
    exact ⟨henter.trans hturn.1, hturn.2⟩
  · exact closeTurn_moves k .empty (hw.closes k c hk hkind) hw.coherent hk hkind hwakers

variable [DecidableEq W]

/-- **A step is a sequence of moves** on behalf of the request of its action, and the mutex is
free after it. -/
theorem step_moves {w w' : World ι κ W S O} (hw : Settled C w) {a : Action ι κ W S}
    (h : step C w a = some w') :
    Moves C a.request (w, .empty) (w', .empty) ∧ w'.locked = false := by
  have hcoh := hw.coherent
  have hlocked := hw.unlocked
  -- each action is possible in the states that its guard describes
  cases step_cases h with
  | acquire i p hi =>
    exact ⟨Moves.one (.create w i p hi rfl), hlocked⟩
  | poll i a cx calls hi =>
    exact pollAcquire_moves hcoh hi cx calls
  | tryAcquire i p fair hi =>
    exact tryAcquirePermit_moves hcoh hi p fair
  | withState k f hk =>
    exact withState_moves hcoh hk f
  | dropAcquire k i a hi hk =>
    exact dropAcquire_moves hcoh hlocked hi hk
  | dropPermit k i r hi hk =>
    exact dropPermit_moves hcoh hi hk
  | takePermit i r hi =>
    exact ⟨Moves.one (.takePermit w i r hi rfl), hlocked⟩
  | conjure i r hi =>
    exact ⟨Moves.one (.conjure w i r hi rfl), hlocked⟩
  | close k hC hk =>
    subst hC
    exact close_moves hcoh rfl hk
  | clearPoison =>
    exact ⟨Moves.one (.clearPoison w .empty), hlocked⟩
  | observe =>
    exact ⟨(Moves.one (.lock w .empty)).tail (.unlock _ _), rfl⟩
  | resume k c hk hwakes hunw hmore =>
    exact resume_moves hw hk hwakes
  | wake k c res w' hk h =>
    exact wakeNext_moves hlocked hk h
  | finish k c res w' hk h =>
    exact finish_moves hlocked hk h

/-- What happened from one state of a run to a later one. -/
def World.since (w w' : World ι κ W S O) : List (Event ι κ W S) := w'.log.drop w.log.length

omit [DecidableEq ι] [DecidableEq κ] [DecidableEq W] [Order O] in
theorem World.since_of_log {w w' : World ι κ W S O} {es : List (Event ι κ W S)}
    (h : w'.log = w.log ++ es) : w.since w' = es := by
  rw [World.since, h, List.drop_left]

/-! ## Invariants of runs -/

omit [DecidableEq ι] [DecidableEq κ] [DecidableEq W] [Order O] in
theorem Settled.new (state : S) (order : O) :
    Settled C (World.new state order : World ι κ W S O) := by
  constructor
  case coherent =>
    refine ⟨List.nodup_nil, ?_, ?_, rfl, ?_, ?_⟩
    · intro i
      constructor <;> intro h <;> cases h
    · intro i a h
      cases h
    · intro h
      cases h
    · intro h
      cases h
  case unlocked => rfl
  case closes =>
    intro k c h
    cases h

theorem Settled.step {w w' : World ι κ W S O} (hw : Settled C w) {a : Action ι κ W S}
    (h : step C w a = some w') : Settled C w' := by
  obtain ⟨hmoves, hlocked⟩ := step_moves hw h
  have hcloses : w'.Closes C := by
    apply Transition.invariant_of_moves (fun e => e.1.Closes C) ?_ hmoves hw.closes
    intro c d hc hm
    exact hc.move hm
  exact ⟨hw.coherent.moves hmoves, hlocked, hcloses⟩

theorem Reachable.settled {state : S} {order : O} {w : World ι κ W S O}
    (h : Reachable C state order w) : Settled C w :=
  Transition.Reachable.invariant _ (Settled.new state order) (fun _ _ _ _ hw ht => hw.step ht) h

/-- The run rule: what every move preserves, in coherent configurations, holds between the
steps of every run. -/
theorem Reachable.invariant_of_moves (Inv : Conf ι κ W S O → Prop)
    (hmove : ∀ c d, Coherent C c.1 → Inv c → ∀ own, Move C own c d → Inv d) {state : S} {order : O}
    (hinit : Inv (World.new state order, .empty)) {w : World ι κ W S O}
    (h : Reachable C state order w) : Inv (w, .empty) := by
  apply Transition.Reachable.invariant (fun w => Inv (w, .empty)) hinit ?_ h
  intro s t a hs hinv hstep
  -- the step is a sequence of moves, and coherence goes along with the invariant
  have hsettled := Reachable.settled hs
  exact Transition.invariant_of_moves_under (fun e => Coherent C e.1) Inv
    (fun _ _ hc hm => hc.move hm) (fun c d hw hc => hmove c d hw hc _)
    (step_moves hsettled hstep).1 hsettled.coherent hinv

theorem Settled.exec {w w' : World ι κ W S O} {acts : List (Action ι κ W S)} (hw : Settled C w)
    (h : Transition.exec (FlagBearer.step C) w acts = some w') : Settled C w' := by
  induction acts generalizing w with
  | nil =>
    cases h
    exact hw
  | cons a acts ih =>
    obtain ⟨u, hu, hrest⟩ := Option.bind_eq_some_iff.mp h
    exact ih (hw.step hu) hrest

/-- The run rule from any state between lock sections: what the moves of the actions of a run
preserve holds at its end. `P` restricts the requests that these actions are about. -/
theorem Settled.exec_invariant (Inv : Conf ι κ W S O → Prop) (P : Option ι → Prop)
    (hmove : ∀ c d, Coherent C c.1 → Inv c → ∀ own, P own → Move C own c d → Inv d)
    {w w' : World ι κ W S O} {acts : List (Action ι κ W S)} (hw : Settled C w)
    (hacts : ∀ a ∈ acts, P a.request)
    (h : Transition.exec (FlagBearer.step C) w acts = some w') (hinv : Inv (w, .empty)) :
    Inv (w', .empty) := by
  induction acts generalizing w with
  | nil =>
    cases h
    exact hinv
  | cons a acts ih =>
    obtain ⟨u, hu, hrest⟩ := Option.bind_eq_some_iff.mp h
    have hP : P a.request := hacts a (List.mem_cons_self ..)
    have hinv' : Inv (u, .empty) :=
      Transition.invariant_of_moves_under (fun e => Coherent C e.1) Inv
        (fun _ _ hc hm => hc.move hm) (fun c d hc hi => hmove c d hc hi _ hP)
        (step_moves hw hu).1 hw.coherent hinv
    exact ih (hw.step hu) (fun b hb => hacts b (List.mem_cons_of_mem a hb)) hrest hinv'

end FlagBearer
