import FlagBearer.Queue.Closing

/-!
# Params Are Kept for Their Own Waiter

A drain takes the params of a waiter out of its node, passes them to `S::acquire`, and puts
them back if it is refused. Whatever unwinds meanwhile, a node that is without params is one
on whose behalf `S::acquire` unwound, and every other one has the params of its own `acquire`
call; `poll` and `try_acquire` hand back the caller's own params.

## Main results

- `poll_error_kept`: the error of a poll carries params that were kept for it
- `tryAcquire_error`: the errors of `try_acquire`
- `params_kept_for_own_waiter`: the statement about runs
-/

namespace FlagBearer

open PinList

variable {ι κ W S O : Type} [DecidableEq ι] [SemaphoreState S] {C : Closeability} {own : Option ι}

/-! ## One acquire call for each future -/

/-- Is this the creation of the future `i`? -/
def Event.isCreation (i : ι) : Event ι κ W S → Bool
  | .created j _ => j == i
  | _ => false

/-- The name `i` was used. -/
def Born (i : ι) (c : Conf ι κ W S O) : Prop := c.1.slots i ≠ .unborn

theorem Born.move [DecidableEq κ] [Order O]
    {c d : Conf ι κ W S O} {i : ι} (hc : Born i c) (h : Move C own c d) :
    Born i d := by
  have update {j : ι} {x : Slot S} (hx : x ≠ .unborn) :
      Function.update c.1.slots j x i ≠ .unborn := by
    by_cases hij : i = j
    · subst hij
      rwa [Function.update_self]
    · rw [Function.update_of_ne hij]
      exact hc
  cases h with
  | create w j | conjure w j | ask w j | askTry w j | link w j | unlinkSelf w j | claim w j
    | claimError w j | cancelInitial w j | cancelLinked w k j | cancelGranted w j
    | cancelRefused w k j => exact update (by simp)
  | grant w h k j => exact update (by simp)
  | expel w h k j => exact update (by simp)
  | _ => exact hc

/-- The future `i` is created at most once. -/
abbrev CreatedOnce (i : ι) : Conf ι κ W S O → Prop := Once (Event.isCreation i) (Born i)

theorem CreatedOnce.move [DecidableEq κ] [Order O]
    {c d : Conf ι κ W S O} {i : ι} (hc : CreatedOnce i c)
    (h : Move C own c d) : CreatedOnce i d := by
  have hstable : Born i c → Born i d := fun hb => hb.move h
  cases h with
  | create w j p hj =>
    by_cases hij : j = i
    · subst hij
      exact hc.mark (fun hb => hb hj) (by simp [Born])
        (by simp [Event.isCreation])
    · exact hc.frame hstable (by simp [Event.isCreation, hij])
  | note w h e he | reject w j p front e he | giveBack w j p e he =>
    cases he <;> exact hc.frame hstable (by simp [Event.isCreation])
  | _ =>
    exact hc.frame hstable (by simp [Event.isCreation, World.callRelease, World.updateState])

/-- The params of a request are those of its only creation. -/
theorem Reachable.created_once [DecidableEq κ] [DecidableEq W] [Order O]
    {state : S} {order : O} {w : World ι κ W S O}
    (h : Reachable C state order w) {i : ι} {p q : Params S} (hp : .created i p ∈ w.log)
    (hq : .created i q ∈ w.log) : p = q := by
  have hinv : CreatedOnce i (w, (.empty : Hand ι S)) := by
    apply Reachable.invariant_of_moves _ ?_ (Once.start _ rfl) h
    intro c d _ hc _ hm
    exact CreatedOnce.move hc hm
  have hle : (w.log.filter (Event.isCreation i)).length ≤ 1 := by
    rw [← List.countP_eq_length_filter]
    exact hinv.1
  -- both events are in a list of at most one element
  have hp' : .created i p ∈ w.log.filter (Event.isCreation i) :=
    List.mem_filter.mpr ⟨hp, by simp [Event.isCreation]⟩
  have hq' : .created i q ∈ w.log.filter (Event.isCreation i) :=
    List.mem_filter.mpr ⟨hq, by simp [Event.isCreation]⟩
  rcases hfilter : w.log.filter (Event.isCreation i) with _ | ⟨e, _ | ⟨e', rest⟩⟩
  · rw [hfilter] at hp'
    cases hp'
  · rw [hfilter, List.mem_singleton] at hp' hq'
    rw [← hp'] at hq'
    exact (Event.created.inj hq').2.symm
  · rw [hfilter] at hle
    simp at hle

/-! ## The errors of a poll -/

theorem wrapPoll_last (i : ι) (cx : W) (out : World ι κ W S O × PollResult S) :
    (wrapPoll i cx out).log.getLast? = some (.polled i cx out.2) := by
  unfold wrapPoll
  split <;> simp

theorem wrapTry_last (i : ι) (p : Params S) (out : World ι κ W S O × TryResult S) :
    (wrapTry i p out).log.getLast? = some (.tried i p out.2) := by
  unfold wrapTry
  split <;> simp

theorem wrapPoll_of_panicked {i : ι} {cx : W} {out : World ι κ W S O × PollResult S}
    (h : out.2 = .panicked) : wrapPoll i cx out = out.1.emit (.polled i cx .panicked) := by
  obtain ⟨w, res⟩ := out
  cases h
  rfl

/-- The outcomes that give params back. -/
def Outcome.params : Outcome S → Option (Params S)
  | .acquired _ => none
  | .closed p => some p
  | .poisoned p => some p
  | .enqueue _ p => some p

variable [DecidableEq W] [Order O]

omit [DecidableEq ι] [DecidableEq W] in
/-- `acquire_or_enqueue` gives back the params it was called with. -/
theorem acquireOrEnqueue_params (hret : ReturnsParams S) {w : World ι κ W S O} {i : ι}
    {p q : Params S} {fair : Bool} {o : Outcome S}
    (h : (acquireOrEnqueue C w i p fair).2 = .returned o) (hq : o.params = some q) : q = p := by
  -- a queue that is closed hands the params back untouched
  have err (h : (newErr C w p).2 = .returned o) : q = p := by
    cases C <;> cases h
    exact (Option.some.inj hq).symm
  -- and so does `S::acquire` when it refuses
  have leads {v : World ι κ W S O} {front : Bool} (h : (lead v i p front).2 = .returned o) :
      q = p := by
    rcases hacq : SemaphoreState.acquire v.inner.state p with ⟨state, (p' | r) | _⟩
    · simp only [lead, World.callAcquire, hacq] at h
      cases h
      rw [← Option.some.inj hq]
      exact hret _ _ _ _ hacq
    · simp only [lead, World.callAcquire, hacq] at h
      cases h
      cases hq
    · simp only [lead, World.callAcquire, hacq] at h
      cases h
  unfold acquireOrEnqueue at h
  split at h
  · cases h
    exact (Option.some.inj hq).symm
  · split at h
    · exact err h
    · split at h
      · exact err h
      · simp only at h
        split at h
        · cases h
        · split at h
          · cases h
            exact (Option.some.inj hq).symm
          · exact leads h

/-- The error of a poll carries params that were kept for its request. -/
theorem poll_error_kept (hret : ReturnsParams S) {w : World ι κ W S O} (hw : Coherent C w)
    {i : ι} {a : Acquire S} (hi : w.slots i = .live a) {cx : W} {calls : WakerCalls}
    {q : Params S} (h : (poll C w i a cx calls).2 = .returned (.ready (.error q))) :
    Keeps (w, (.empty : Hand ι S)) i (some q) := by
  obtain ⟨n, params⟩ := a
  by_cases hn : n = .initial
  · subst hn
    cases params with
    | none => cases h
    | some p =>
      -- the first poll of a closed queue
      simp only [poll, pollFirst] at h
      rcases hres : acquireOrEnqueue C (w.lock.setSlot i (.live ⟨.initial, none⟩)) i p true with
        ⟨w', (r | p' | p' | ⟨front, p'⟩) | _⟩
      all_goals
        rw [hres] at h
        simp only at h
      · cases h
      · cases h
        have hp := acquireOrEnqueue_params hret (q := q) (congrArg Prod.snd hres) rfl
        rw [hp]
        exact .initial hi
      · cases h
      · split at h
        · cases h
        · split at h <;> cases h
      · cases h
  · have hparams : params = none := hw.asked i _ hi hn
    subst hparams
    rw [poll_of_asked w i hn cx calls] at h
    cases n with
    | initial => exact absurd rfl hn
    | removed r =>
      rw [pollAgain_removed] at h
      rcases r with (_ | p) | r <;> cases h
      exact .removed hi
    | linked =>
      obtain ⟨before, data, after, hq, hlookup, hremove⟩ := hw.linked_split hi
      have hlock : w.lock.inner = w.inner := rfl
      have hmem : (i, data) ∈ w.inner.entries := by
        simp [QueueState.entries_of_queue hq]
      unfold pollAgain at h
      simp only [hlock, hq] at h
      by_cases hclosing : w.inner.closing C = true
      · simp only [hclosing, if_true, Node.unlink, hlookup, Option.map_some, pollUnlinked] at h
        obtain ⟨params, x⟩ := data
        rcases hdrop : calls.drop with _ | _ <;> cases params <;> rw [hdrop] at h <;> cases h
        exact .queued hmem
      · simp only [hclosing, Bool.false_eq_true, if_false, Node.protectedMut, hlookup,
          pollSpurious] at h
        split at h
        · cases h
        · split at h
          · cases h
          · split at h <;> cases h

/-- A later poll whose request still has its params unwinds only out of a waker. -/
theorem poll_panicked {w : World ι κ W S O} (hw : Coherent C w) {i : ι} {a : Acquire S}
    (hi : w.slots i = .live a) (hn : a.node ≠ .initial)
    (hkept : ¬ Keeps (w, (.empty : Hand ι S)) i none) {cx : W} {calls : WakerCalls}
    (h : (poll C w i a cx calls).2 = .panicked) :
    ∃ es, (poll C w i a cx calls).1.log = w.log ++ es ∧
      (.cloned cx .panicked ∈ es ∨ ∃ x held, .droppedWaker x held .panicked ∈ es) := by
  obtain ⟨n, params⟩ := a
  have hparams : params = none := hw.asked i _ hi hn
  subst hparams
  rw [poll_of_asked w i hn cx calls] at h ⊢
  cases n with
  | initial => exact absurd rfl hn
  | removed r =>
    rw [pollAgain_removed] at h
    -- `expect` fails on a node without params only
    rcases r with (_ | p) | r
    · exact absurd (.removed hi) hkept
    · cases h
    · cases h
  | linked =>
    obtain ⟨before, data, after, hq, hlookup, hremove⟩ := hw.linked_split hi
    obtain ⟨params, x⟩ := data
    have hlock : w.lock.inner = w.inner := rfl
    have hlen := hw.len_ne_zero hq
    have hmem : (i, params, x) ∈ w.inner.entries := by
      simp [QueueState.entries_of_queue hq]
    unfold pollAgain at h ⊢
    simp only [hlock, hq] at h ⊢
    by_cases hclosing : w.inner.closing C = true
    · -- the node unlinks itself
      simp only [hclosing, if_true, Node.unlink, hlookup, Option.map_some] at h ⊢
      cases params with
      | none => exact absurd (.queued hmem) hkept
      | some p =>
        rcases hdrop : calls.drop with _ | _
        · simp [pollUnlinked, hdrop] at h
        · refine ⟨[.unlinked i, .droppedWaker x false .panicked, .droppedParams p false], ?_, ?_⟩
          · simp [pollUnlinked, hdrop, World.decLen, World.setNode, hi, hlen, World.dropWaker,
              World.dropParams]
          · exact Or.inr ⟨x, false, by simp⟩
    · -- it stays in the list, with another waker
      simp only [hclosing, Bool.false_eq_true, if_false, Node.protectedMut, hlookup] at h ⊢
      unfold pollSpurious at h ⊢
      split at h
      · cases h
      · rename_i hx
        rcases hclone : calls.clone with _ | _ <;> rw [hclone] at h
        · rcases hdrop : calls.drop with _ | _ <;> rw [hdrop] at h
          · cases h
          · refine ⟨[.cloned cx (.returned ()), .droppedWaker x true .panicked], ?_, ?_⟩
            · simp [hx, World.dropWaker]
            · exact Or.inr ⟨x, true, by simp⟩
        · refine ⟨[.cloned cx .panicked], ?_, ?_⟩
          · simp [hx]
          · exact Or.inl (by simp)

/-! ## The errors of try_acquire -/

/-- The params that an error of `try_acquire` carries. -/
def TryAcquireError.params : TryAcquireError S → Params S
  | .noPermits p => p
  | .closed p => p
  | .poisoned p => p

omit [DecidableEq ι] [DecidableEq W] in
/-- Every error of `try_acquire` carries the caller's params. -/
theorem tryAcquire_error (hret : ReturnsParams S) {w : World ι κ W S O} {i : ι} {p : Params S}
    {fair : Bool} {e : TryAcquireError S}
    (h : (tryAcquire C w i p fair).2 = .returned (.error e)) : e.params = p := by
  unfold tryAcquire at h
  rcases hres : acquireOrEnqueue C w.lock i p fair with ⟨w', (r | q | q | ⟨front, q⟩) | _⟩
  all_goals
    rw [hres] at h
    simp only at h
    cases h
  all_goals exact acquireOrEnqueue_params hret (congrArg Prod.snd hres) rfl

/-! ## The statement about runs -/

variable [DecidableEq κ]

/-- What the list or a closed queue's removed node holds for the request `i`. -/
inductive World.Holds (w : World ι κ W S O) (i : ι) : Option (Params S) → Prop where
  | linked {params : Option (Params S)} {x : W} (hmem : (i, params, x) ∈ w.inner.entries) :
      Holds w i params
  | removed {params : Option (Params S)} {a : Acquire S} (hi : w.slots i = .live a)
      (hnode : a.node = .removed (.error params)) : Holds w i params

omit [DecidableEq ι] [DecidableEq κ] [DecidableEq W] [Order O] in
theorem Coherent.keeps {w : World ι κ W S O} (hw : Coherent C w) {i : ι}
    {params : Option (Params S)} (h : w.Holds i params) :
    Keeps (w, (.empty : Hand ι S)) i params := by
  cases h with
  | linked hmem => exact .queued hmem
  | @removed a hi hnode =>
    obtain ⟨node, own⟩ := a
    simp only at hnode
    subst hnode
    have hown : own = none := hw.asked i _ hi (by simp)
    subst hown
    exact .removed hi

/-- What is kept for the requests of a state, and what their polls and calls of `try_acquire`
make of it. An `expect` that fails would be a later poll that unwinds without a waker. -/
structure ParamsKept (C : Closeability) (w : World ι κ W S O) : Prop where
  created_once : ∀ i p q, .created i p ∈ w.log → .created i q ∈ w.log → p = q
  own : ∀ i p, w.Holds i (some p) → .created i p ∈ w.log
  lost : ∀ i, w.Holds i none → ∃ p, .acquired i p .panicked ∈ w.log
  expect : ∀ i a cx calls w', w.slots i = .live a → a.node ≠ .initial →
    (∀ p, .acquired i p .panicked ∉ w.log) → step C w (.poll i cx calls) = some w' →
    w'.log.getLast? = some (.polled i cx .panicked) →
    ∃ es, w'.log = w.log ++ es ∧
      (.cloned cx .panicked ∈ es ∨ ∃ x held, .droppedWaker x held .panicked ∈ es)
  polled : ∀ i cx calls p w', step C w (.poll i cx calls) = some w' →
    Reports w' i cx (.error p) → .created i p ∈ w.log
  tried : ∀ i p fair q e w', step C w (.tryAcquire i p fair) = some w' →
    w'.log.getLast? = some (.tried i q (.returned (.error e))) → q = p ∧ e.params = p

/-- **Params are kept for their own waiter**, in every reachable state: a node is without
params only if `S::acquire` unwound on its behalf, and every error that `poll` or
`try_acquire` returns carries the caller's own params. -/
theorem params_kept_for_own_waiter (hret : ReturnsParams S) {state : S} {order : O}
    {w : World ι κ W S O} (h : Reachable C state order w) : ParamsKept C w := by
  have hw := (Reachable.settled h).coherent
  constructor
  case created_once => exact fun i p q hp hq => h.created_once hp hq
  case own => exact fun i p hp => h.origin hret (hw.keeps hp)
  case lost => exact fun i hp => h.origin hret (hw.keeps hp)
  case expect =>
    intro i a cx calls w' hi hn hclean hstep hlast
    rw [step_poll hi] at hstep
    cases hstep
    have hres : (poll C w i a cx calls).2 = .panicked := by
      rw [pollAcquire, wrapPoll_last] at hlast
      exact (Event.polled.inj (Option.some.inj hlast)).2.2
    -- no `S::acquire` unwound for `i`, so its node still has params or a value
    have hkept : ¬ Keeps (w, (.empty : Hand ι S)) i none := by
      intro hk
      obtain ⟨p, hp⟩ := h.origin hret hk
      exact hclean p hp
    obtain ⟨es, hlog, hes⟩ := poll_panicked hw hi hn hkept hres
    refine ⟨es ++ [.polled i cx .panicked], ?_, ?_⟩
    · rw [pollAcquire, wrapPoll_of_panicked hres, World.emit_log, hlog, List.append_assoc]
    · rcases hes with hmem | ⟨x, held, hmem⟩
      · exact Or.inl (List.mem_append_left _ hmem)
      · exact Or.inr ⟨x, held, List.mem_append_left _ hmem⟩
  case polled =>
    intro i cx calls p w' hstep hlast
    cases step_cases hstep with
    | poll _ a _ _ hi =>
      rw [Reports, pollAcquire, wrapPoll_last] at hlast
      have hres := (Event.polled.inj (Option.some.inj hlast)).2.2
      exact h.origin hret (poll_error_kept hret hw hi hres)
  case tried =>
    intro i p fair q e w' hstep hlast
    cases step_cases hstep with
    | tryAcquire _ _ _ hi =>
      rw [tryAcquirePermit, wrapTry_last] at hlast
      obtain ⟨-, hq, hres⟩ := Event.tried.inj (Option.some.inj hlast)
      exact ⟨hq.symm, tryAcquire_error hret hres⟩

/-- A waiter polls again after a release that does not suffice, and once more when the queue
is closed. -/
theorem params_kept_for_own_waiter_until_close :
    ∃ w : World Nat Nat Nat SemaphoreCounter FairOrder,
      run .closeable ⟨0⟩ .fifo [.acquire 0 (2 : Nat), .poll 0 7 .quiet,
        .withState 0 (SemaphoreCounter.add 1), .poll 0 8 .quiet, .finish 0 (.returned ()),
        .close 1] = some w ∧
      ParamsKept .closeable w :=
  exists_run _ rfl fun _ h => params_kept_for_own_waiter SemaphoreCounter.returnsParams h

end FlagBearer
