import FlagBearer.Queue.Replay
import FlagBearer.Queue.Unchecked

/-!
# Wakes

Every node that a drain or a close removes has its waker invoked exactly once, after the
mutex was released, whatever panics in between.

## Main results

- `Batched.move`: what a call removed is what it has woken, then what its batch still holds
- `Attentive.move`: a queued waker is the one of the latest poll
- `wakes_exactly_once`: the statement about runs
-/

namespace FlagBearer

open PinList History

variable {ι κ W S O : Type} [DecidableEq κ] [SemaphoreState S] {C : Closeability} {own : Option ι}

/-! ## Removals and wakes in a history -/

/-- The node and the waker that the call `k` removed. -/
def Event.removed? (k : κ) : Event ι κ W S → Option (ι × W)
  | .removed l _ i x => if l = k then some (i, x) else none
  | _ => none

/-- The waker that the call `k` invoked, with the name of its node. -/
def Event.woke? (k : κ) : Event ι κ W S → Option (ι × W)
  | .woke l i x _ _ => if l = k then some (i, x) else none
  | _ => none

/-- What `check` and `close_one` removed on behalf of the call `k`. -/
def removals (k : κ) (log : List (Event ι κ W S)) : List (ι × W) :=
  log.filterMap (Event.removed? k)

/-- The wakers that the call `k` invoked. -/
def wakes (k : κ) (log : List (Event ι κ W S)) : List (ι × W) := log.filterMap (Event.woke? k)

@[simp] theorem removals_append (k : κ) (log es : List (Event ι κ W S)) :
    removals k (log ++ es) = removals k log ++ removals k es := List.filterMap_append

@[simp] theorem removals_nil (k : κ) : removals k ([] : List (Event ι κ W S)) = [] := rfl

theorem removals_cons (k : κ) (e : Event ι κ W S) (es : List (Event ι κ W S)) :
    removals k (e :: es) = (e.removed? k).toList ++ removals k es := by
  unfold removals
  cases h : e.removed? k <;> simp [h]

@[simp] theorem wakes_append (k : κ) (log es : List (Event ι κ W S)) :
    wakes k (log ++ es) = wakes k log ++ wakes k es := List.filterMap_append

@[simp] theorem wakes_nil (k : κ) : wakes k ([] : List (Event ι κ W S)) = [] := rfl

theorem wakes_cons (k : κ) (e : Event ι κ W S) (es : List (Event ι κ W S)) :
    wakes k (e :: es) = (e.woke? k).toList ++ wakes k es := by
  unfold wakes
  cases h : e.woke? k <;> simp [h]

/-- The batch of a call in progress. -/
def World.batch (w : World ι κ W S O) (k : κ) : List (ι × W) :=
  match w.calls k with
  | some c => c.wakes.wakers
  | none => []

/-! ## No wake is lost or duplicated -/

/-- What the call `k` removed is what it has woken, then what its batch still holds. -/
def Batched (k : κ) (c : Conf ι κ W S O) : Prop :=
  removals k c.1.log = wakes k c.1.log ++ c.1.batch k

theorem Batched.frame {c d : Conf ι κ W S O} {k : κ} (hc : Batched k c)
    (hremovals : removals k d.1.log = removals k c.1.log)
    (hwakes : wakes k d.1.log = wakes k c.1.log) (hbatch : d.1.batch k = c.1.batch k) :
    Batched k d := by
  unfold Batched
  rw [hremovals, hwakes, hbatch]
  exact hc

theorem World.batch_update {w w' : World ι κ W S O} {k l : κ} {x : Option (Call ι W S)}
    (hcalls : w'.calls = Function.update w.calls l x) (hkl : k ≠ l) : w'.batch k = w.batch k := by
  simp [World.batch, hcalls, hkl]

/-- A change of the locals of a call that keeps its batch. -/
theorem World.batch_keep {w w' : World ι κ W S O} (k : κ) {l : κ} {c c' : Call ι W S}
    (hcalls : w'.calls = Function.update w.calls l (some c')) (hl : w.calls l = some c)
    (hwakes : c'.wakes = c.wakes) : w'.batch k = w.batch k := by
  by_cases hkl : k = l
  · subst hkl
    simp [World.batch, hcalls, hl, hwakes]
  · exact World.batch_update hcalls hkl

/-- The end of a call whose batch is empty. -/
theorem World.batch_end {w w' : World ι κ W S O} (k : κ) {l : κ} {c : Call ι W S}
    (hcalls : w'.calls = Function.update w.calls l none) (hl : w.calls l = some c)
    (hnil : c.wakes.wakers = []) : w'.batch k = w.batch k := by
  by_cases hkl : k = l
  · subst hkl
    simp [World.batch, hcalls, hl, hnil]
  · exact World.batch_update hcalls hkl

/-- A removal: the waker joins the batch. -/
theorem Batched.push {c d : Conf ι κ W S O} {k l : κ} {i : ι} {x : W} {call : Call ι W S}
    {batch : WakeBatch ι W} (hc : Batched k c) (hl : c.1.calls l = some call)
    (hpush : call.wakes.push i x = some batch)
    (hcalls : d.1.calls = Function.update c.1.calls l (some { call with wakes := batch }))
    (hremovals : removals k d.1.log = removals k c.1.log ++ if l = k then [(i, x)] else [])
    (hwakes : wakes k d.1.log = wakes k c.1.log) : Batched k d := by
  have hwakers := (WakeBatch.push_eq_some.mp hpush).2
  have hold : removals k c.1.log = wakes k c.1.log ++ c.1.batch k := hc
  unfold Batched
  rw [hremovals, hwakes, hold]
  by_cases hkl : k = l
  · subst hkl
    simp [World.batch, hl, hcalls, hwakers]
  · rw [World.batch_update hcalls hkl]
    simp [Ne.symm hkl]

variable [DecidableEq ι] [Order O]

theorem Batched.move {c d : Conf ι κ W S O} {k : κ} (hc : Batched k c) (h : Move C own c d) :
    Batched k d := by
  cases h with
  | note w h e he | reject w i p front e he | giveBack w i p e he =>
    cases he <;> exact hc.frame (by simp [removals_cons, Event.removed?])
      (by simp [wakes_cons, Event.woke?]) rfl
  | grant w h l i p x r state before after call batch hopen hq hdead hi hl hkind hpush =>
    refine hc.push hl hpush rfl ?_ (by simp [wakes_cons, Event.woke?])
    by_cases hlk : l = k <;> simp [removals_cons, Event.removed?, hlk]
  | expel w h l i params x rest call batch hclosed hq hi hl hkind hpush =>
    refine hc.push hl hpush rfl ?_ (by simp [wakes_cons, Event.woke?])
    by_cases hlk : l = k <;> simp [removals_cons, Event.removed?, hlk]
  | wake w h l call i x rest res hlocked hl hpop =>
    have hwakers := WakeBatch.pop_eq_some.mp hpop
    have hold : removals k w.log = wakes k w.log ++ w.batch k := hc
    by_cases hkl : k = l
    · -- the front of the batch becomes the last wake
      subst hkl
      simp only [World.batch, hl, hwakers] at hold
      simpa [Batched, removals_cons, wakes_cons, Event.removed?, Event.woke?, World.batch]
        using hold
    · refine hc.frame (by simp [removals_cons, Event.removed?]) ?_ (World.batch_update rfl hkl)
      simp [wakes_cons, Event.woke?, Ne.symm hkl]
  | begin w h l kind hl =>
    -- a call begins with an empty batch
    refine hc.frame rfl rfl ?_
    by_cases hkl : k = l
    · subst hkl
      simp [World.batch, hl]
    · exact World.batch_update rfl hkl
  | turn w h l call more unwinding hl =>
    exact hc.frame rfl rfl (World.batch_keep k rfl hl rfl)
  | finish w h l call res hl hnil =>
    -- and ends with one
    exact hc.frame (by simp [removals_cons, Event.removed?]) (by simp [wakes_cons, Event.woke?])
      (World.batch_end k rfl hl hnil)
  | cancelLinked w l i params x before after call hq hi hl =>
    exact hc.frame (by simp [removals_cons, Event.removed?]) (by simp [wakes_cons, Event.woke?])
      (World.batch_keep k rfl hl rfl)
  | cancelRefused w l i params call hi hl =>
    exact hc.frame (by simp [removals_cons, Event.removed?]) (by simp [wakes_cons, Event.woke?])
      (World.batch_keep k rfl hl rfl)
  | _ =>
    exact hc.frame
      (by simp [removals_cons, Event.removed?, World.callRelease, World.updateState])
      (by simp [wakes_cons, Event.woke?, World.callRelease, World.updateState]) rfl

/-- Each call has woken what it removed, up to what its batch still holds. -/
theorem Reachable.batched [DecidableEq W] {state : S} {order : O} {w : World ι κ W S O}
    (h : Reachable C state order w) (k : κ) :
    removals k w.log = wakes k w.log ++ w.batch k := by
  have hinv : Batched k (w, (.empty : Hand ι S)) := by
    apply Reachable.invariant_of_moves _ ?_ ?_ h
    · intro c d _ hc _ hm
      exact hc.move hm
    · rfl
  exact hinv

/-! ## A node leaves the list once -/

/-- Does `i` leave the list here, other than by being dropped? -/
def Event.isDeparture (i : ι) : Event ι κ W S → Bool
  | .removed _ _ j _ => j == i
  | .unlinked j => j == i
  | _ => false

/-- How often `i` was removed, or unlinked itself. -/
def departures (i : ι) (log : List (Event ι κ W S)) : Nat := log.countP (Event.isDeparture i)

/-- The node `i` leaves the list at most once, and not while it is undecided. -/
abbrev DepartedOnce (i : ι) : Conf ι κ W S O → Prop := Once (Event.isDeparture i) (Decided i)

theorem DepartedOnce.depart {c d : Conf ι κ W S O} {i j : ι} (hc : DepartedOnce i c)
    (h : Move C own c d) (hj : c.1.slots j = .live ⟨.linked, none⟩)
    (hd : Decided j d)
    (hlog : d.1.log.countP (Event.isDeparture i) =
      c.1.log.countP (Event.isDeparture i) + if j == i then 1 else 0) : DepartedOnce i d := by
  by_cases hij : j = i
  · subst hij
    exact hc.mark (not_decided_of_linked hj) hd (by simpa using hlog)
  · have hne : (j == i) = false := beq_eq_false_iff_ne.mpr hij
    exact hc.frame (fun hr => hr.move h) (by simpa [hne] using hlog)

theorem DepartedOnce.move {c d : Conf ι κ W S O} {i : ι} (hc : DepartedOnce i c)
    (h : Move C own c d) : DepartedOnce i d := by
  have hstable : Decided i c → Decided i d := fun hd => hd.move h
  have hmove := h
  cases h with
  | note w h e he | reject w j p front e he | giveBack w j p e he =>
    cases he <;> exact hc.frame hstable (by simp [Event.isDeparture])
  -- a node leaves, decided
  | grant w h k j p x r state before after c wakes hopen hq hdead hj =>
    exact hc.depart hmove hj (Or.inr ⟨.ok r, by simp⟩)
      (by simp [List.countP_cons, Event.isDeparture])
  | expel w h k j params x rest c wakes hclosed hq hj =>
    exact hc.depart hmove hj (Or.inr ⟨.error params, by simp⟩)
      (by simp [List.countP_cons, Event.isDeparture])
  | unlinkSelf w j params x before after hclosing hq hj =>
    exact hc.depart hmove hj (Or.inl ⟨by simp, Hand.asks_ofParams j j params⟩)
      (by simp [List.countP_cons, Event.isDeparture])
  | _ =>
    exact hc.frame hstable (by simp [Event.isDeparture, World.callRelease, World.updateState])

theorem Reachable.departedOnce [DecidableEq W] {state : S} {order : O} {w : World ι κ W S O}
    (h : Reachable C state order w) (i : ι) : DepartedOnce i (w, (.empty : Hand ι S)) := by
  apply Reachable.invariant_of_moves _ ?_ (Once.start _ rfl) h
  intro c d _ hc _ hm
  exact DepartedOnce.move hc hm

/-! ## Removals happen in list order -/

/-- A drain removes the first node of the list that still has its params; a close removes the
first node, whether it has them or not. -/
def InOrder (past : List (Event ι κ W S)) : Event ι κ W S → Prop
  | .removed _ .withQueue i _ => Leading i (replay past)
  | .removed _ .close i _ => (ids (replay past)).head? = some i
  | _ => True

theorem inOrder_move {c d : Conf ι κ W S O} (hc : Each InOrder c.1.log) (ht : Traced C c)
    (h : Move C own c d) : Each InOrder d.1.log := by
  have hreplay : replay c.1.log = standing c.1.inner.entries := ht.replayed
  cases h with
  | note w h e he | reject w j p front e he | giveBack w j p e he =>
    cases he <;> exact each_snoc.mpr ⟨hc, trivial⟩
  | grant w h k i p x r state before after c wakes hopen hq hdead =>
    -- the nodes before it have lost their params
    refine each_append.mpr ⟨hc, trivial, ⟨standing before, standing after, ?_, ?_⟩, trivial⟩
    · simp [Event.replay, hreplay, QueueState.entries_of_queue hq]
    · exact standing_dead hdead
  | expel w h k i params x rest c wakes hclosed hq =>
    -- there are no nodes before it
    refine each_append.mpr ⟨hc, ?_, trivial⟩
    simp [InOrder, hreplay, QueueState.entries_of_queue hq]
  | _ =>
    simpa [each_append, InOrder, World.callRelease, World.updateState] using hc

variable [DecidableEq W]

theorem Reachable.inOrder {state : S} {order : O} {w : World ι κ W S O}
    (h : Reachable C state order w) : Each InOrder w.log := by
  have hinv : Each InOrder ((w, (.empty : Hand ι S)) : Conf ι κ W S O).1.log := by
    apply Reachable.invariant_of_traced (fun c => Each InOrder c.1.log) ?_ each_nil h
    intro c d _ ht hc _ hm
    exact inOrder_move hc ht hm
  exact hinv

/-! ## The waker of the latest poll -/

/-- The waker with which `i` was polled. -/
def Event.polled? (i : ι) : Event ι κ W S → Option W
  | .polled j cx _ => if j = i then some cx else none
  | _ => none

/-- The waker of the latest poll of `i`. -/
def lastWaker (i : ι) (log : List (Event ι κ W S)) : Option W := latest (Event.polled? i) log

/-- No clone of a waker has panicked. -/
def ClonesReturn (log : List (Event ι κ W S)) : Prop := ∀ x, .cloned x .panicked ∉ log

/-- At a removal, the waker is the one of the latest poll of its node. -/
def RightWaker (past : List (Event ι κ W S)) : Event ι κ W S → Prop
  | .removed _ _ i x => lastWaker i past = some x
  | _ => True

/-- A queued waker is the one of the latest poll, unless a clone panicked. -/
structure Attentive (c : Conf ι κ W S O) : Prop where
  queued : ClonesReturn c.1.log → ∀ i params x, (i, params, x) ∈ c.1.inner.entries →
    lastWaker i c.1.log = some x
  removed : ClonesReturn c.1.log → Each RightWaker c.1.log

omit [DecidableEq ι] [DecidableEq κ] [DecidableEq W] in
theorem ClonesReturn.of_append {log es : List (Event ι κ W S)} (h : ClonesReturn (log ++ es)) :
    ClonesReturn log := fun x hx => h x (List.mem_append_left es hx)

omit [DecidableEq κ] [DecidableEq W] [Order O] in
/-- A move that neither adds a queued waker nor polls a queued request. -/
theorem Attentive.frame {c d : Conf ι κ W S O} (hc : Attentive c) (hw : Coherent C c.1)
    (es : List (Event ι κ W S)) (hlog : d.1.log = c.1.log ++ es)
    (hright : ClonesReturn c.1.log → EachFrom c.1.log RightWaker es)
    (hpolls : ClonesReturn d.1.log → ∀ i, c.1.slots i = .live ⟨.linked, none⟩ →
      ∀ e ∈ es, e.polled? i = none)
    (hsub : ∀ i params x, (i, params, x) ∈ d.1.inner.entries →
      ∃ params', (i, params', x) ∈ c.1.inner.entries) : Attentive d := by
  constructor
  case queued =>
    intro hclones i params x hmem
    obtain ⟨params', hmem'⟩ := hsub i params x hmem
    have hi := (hw.linked i).mp (mem_ids_of_mem hmem')
    have hclones' : ClonesReturn c.1.log := (hlog ▸ hclones).of_append
    rw [hlog]
    unfold lastWaker
    rw [latest_append_of_none (hpolls hclones i hi)]
    exact hc.queued hclones' i params' x hmem'
  case removed =>
    intro hclones
    rw [hlog] at hclones ⊢
    exact each_append.mpr ⟨hc.removed hclones.of_append, hright hclones.of_append⟩

omit [DecidableEq κ] [DecidableEq W] [Order O] in
/-- A move that polls nobody and leaves the list alone. -/
theorem Attentive.quiet {c d : Conf ι κ W S O} (hc : Attentive c) (hw : Coherent C c.1)
    (es : List (Event ι κ W S)) (hlog : d.1.log = c.1.log ++ es)
    (hes : ∀ e ∈ es, (∀ i, e.polled? i = none) ∧ ∀ past, RightWaker past e)
    (hq : d.1.inner.queue = c.1.inner.queue) : Attentive d := by
  have hentries : d.1.inner.entries = c.1.inner.entries := by
    simp only [QueueState.entries, hq]
  apply hc.frame hw es hlog (fun _ => eachFrom_of_trivial fun e he => (hes e he).2)
  · intro _ i _ e he
    exact (hes e he).1 i
  · intro i params x hmem
    exact ⟨params, hentries ▸ hmem⟩

omit [DecidableEq κ] [DecidableEq W] [Order O] in
/-- A move that reports the end of a poll of a request that is not queued. -/
theorem Attentive.report {w w' : World ι κ W S O} {h h' : Hand ι S} (hc : Attentive (w, h))
    (hw : Coherent C w) {i : ι} {e : Event ι κ W S} (hlog : w'.log = w.log ++ [e])
    (hi : w.slots i ≠ .live ⟨.linked, none⟩) (he : ∀ j, i ≠ j → e.polled? j = none)
    (hright : ∀ past, RightWaker past e) (hq : w'.inner.queue = w.inner.queue) :
    Attentive (w', h') := by
  have hentries : w'.inner.entries = w.inner.entries := by
    simp only [QueueState.entries, hq]
  apply hc.frame hw [e] hlog (fun _ => ⟨hright _, trivial⟩)
  · intro _ j hj e' he'
    rw [List.mem_singleton.mp he']
    apply he j
    intro hij
    subst hij
    exact hi hj
  · intro j params x hmem
    exact ⟨params, hentries ▸ hmem⟩

omit [DecidableEq κ] [DecidableEq W] [Order O] in
/-- A poll leaves its waker in the list, at a new or at an existing node. -/
theorem Attentive.renew {c d : Conf ι κ W S O} (hc : Attentive c) (i : ι) (cx : W)
    (es : List (Event ι κ W S)) (hlog : d.1.log = c.1.log ++ es)
    (hright : ∀ e ∈ es, ∀ past, RightWaker past e)
    (hlast : lastWaker i (c.1.log ++ es) = some cx)
    (hothers : ∀ j, i ≠ j → ∀ e ∈ es, e.polled? j = none)
    (hsub : ∀ j params x, (j, params, x) ∈ d.1.inner.entries →
      (j = i ∧ x = cx) ∨ (i ≠ j ∧ (j, params, x) ∈ c.1.inner.entries)) : Attentive d := by
  constructor
  case queued =>
    intro hclones j params x hmem
    rw [hlog] at hclones ⊢
    rcases hsub j params x hmem with ⟨rfl, rfl⟩ | ⟨hij, hmem'⟩
    · exact hlast
    · unfold lastWaker
      rw [latest_append_of_none (hothers j hij)]
      exact hc.queued hclones.of_append j params x hmem'
  case removed =>
    intro hclones
    rw [hlog] at hclones ⊢
    exact each_append.mpr ⟨hc.removed hclones.of_append, eachFrom_of_trivial hright⟩

omit [DecidableEq ι] [DecidableEq W] [Order O] in
/-- The wakers that are left when a node goes. -/
theorem mem_of_removed {q : QueueState ι W S O} {before after : WaitList ι W S} {i : ι}
    {data : Protected W S} (hq : q.queue = .ok (before ++ (i, data) :: after)) {j : ι}
    {params : Option (Params S)} {y : W} (hmem : (j, params, y) ∈ before ++ after) :
    ∃ params', (j, params', y) ∈ q.entries := by
  rw [QueueState.entries_of_queue hq]
  exact ⟨params, mem_split.mpr (Or.inr hmem)⟩

omit [DecidableEq ι] [DecidableEq W] [Order O] in
/-- Other params at a node leave the wakers of the list as they are. -/
theorem mem_of_replaced {q : QueueState ι W S O} {before after : WaitList ι W S} {i : ι}
    {params params' : Option (Params S)} {x : W}
    (hq : q.queue = .ok (before ++ (i, params, x) :: after)) {j : ι} {r : Option (Params S)} {y : W}
    (hmem : (j, r, y) ∈ before ++ (i, params', x) :: after) :
    ∃ r', (j, r', y) ∈ q.entries := by
  rw [QueueState.entries_of_queue hq]
  rcases mem_split.mp hmem with hnew | hold
  · cases hnew
    exact ⟨params, mem_split.mpr (Or.inl rfl)⟩
  · exact ⟨r, mem_split.mpr (Or.inr hold)⟩

theorem Attentive.move {c d : Conf ι κ W S O} (hc : Attentive c) (hw : Coherent C c.1)
    (hcon : Consistent c) (h : Move C own c d) : Attentive d := by
  cases h with
  -- nothing is logged
  | lock w h | unlock w h | ask w i p hi | askTry w i p hi | setClosed w h | begin w h k
    | turn w h k | takeGuard w i r hi =>
    exact hc.quiet hw [] (List.append_nil _).symm (by simp) rfl
  | discard w h hclosed hq =>
    refine hc.frame hw [] (List.append_nil _).symm (fun _ => trivial) (by simp) ?_
    intro i params x hmem
    cases hmem
  | note w h e he =>
    cases he <;> exact hc.quiet hw [_] rfl (by simp [Event.polled?, RightWaker]) rfl
  | pollPanic w h i cx hwaker =>
    rcases hwaker with hi | ⟨x, hx⟩
    · exact hc.report hw rfl hi (by simp [Event.polled?]) (fun _ => trivial) rfl
    · -- a clone panicked, so nothing is claimed
      refine ⟨fun hclones => absurd ?_ (hclones x), fun hclones => absurd ?_ (hclones x)⟩ <;>
        simp [hx]
  -- a poll ends whose request is not in the list
  | reject w i p front e he | giveBack w i p e he =>
    cases he <;> exact hc.report hw rfl (hcon.not_linked (i := i) rfl)
      (fun j hij => by simp [Event.polled?, hij]) (fun _ => trivial) rfl
  | deliver w i r cx =>
    exact hc.report hw rfl (hcon.not_linked (i := i) rfl)
      (fun j hij => by simp [Event.polled?, hij]) (fun _ => trivial) rfl
  -- a poll leaves its waker in the list
  | link w i p cx front queue hopen hq hi =>
    have hnot : i ∉ ids queue := by
      intro hmem
      have hlinked := (hw.linked i).mp (by rwa [QueueState.entries_of_queue hq])
      simp [hi] at hlinked
    refine hc.renew i cx _ rfl (by simp [RightWaker]) ?_
      (fun j hij => by simp [Event.polled?, hij]) ?_
    · simp [lastWaker, latest, Event.polled?]
    · intro j params x hmem
      rw [QueueState.entries_of_queue hq]
      have hne : (j, params, x) ∈ queue → i ≠ j := by
        intro hmem hij
        subst hij
        exact hnot (mem_ids_of_mem hmem)
      cases front <;> simp [pushFront, pushBack] at hmem <;> tauto
  | rewake w i params x cx before after res hq hres =>
    have hnodup := hw.nodup_of_queue hq
    rw [ids_replace before after i (params, x) (params, cx)] at hnodup
    refine hc.renew i cx _ rfl (by simp [RightWaker]) ?_
      (fun j hij => by simp [Event.polled?, hij]) ?_
    · simp [lastWaker, latest, Event.polled?]
    · intro j q y hmem
      rw [QueueState.entries_of_queue hq]
      rcases mem_split.mp hmem with hnew | hold
      · cases hnew
        exact Or.inl ⟨rfl, rfl⟩
      · exact Or.inr ⟨ne_of_mem_split hnodup hold, mem_split.mpr (Or.inr hold)⟩
  -- a node leaves the list, with the waker that was in it
  | grant w h k i p x r state before after c wakes hopen hq =>
    refine hc.frame hw _ rfl (fun hclones => ⟨trivial, ?_, trivial⟩) (by simp [Event.polled?]) ?_
    · have hlast := hc.queued hclones i (some p) x (by simp [QueueState.entries_of_queue hq])
      exact (latest_snoc_of_none rfl).trans hlast
    · intro j params y hmem
      exact mem_of_removed hq hmem
  | expel w h k i params x rest c wakes hclosed hq =>
    refine hc.frame hw _ rfl (fun hclones => ⟨?_, trivial⟩) (by simp [Event.polled?]) ?_
    · exact hc.queued hclones i params x (by simp [QueueState.entries_of_queue hq])
    · intro j params y hmem
      refine ⟨params, ?_⟩
      rw [QueueState.entries_of_queue hq]
      exact List.mem_cons_of_mem _ hmem
  | unlinkSelf w i params x before after hclosing hq =>
    apply hc.frame hw [.unlinked i] rfl (fun _ => ⟨trivial, trivial⟩) (by simp [Event.polled?])
    intro j r y hmem
    exact mem_of_removed hq hmem
  | cancelLinked w k i params x before after c hq =>
    apply hc.frame hw [.cancelled i] rfl (fun _ => ⟨trivial, trivial⟩) (by simp [Event.polled?])
    intro j r y hmem
    exact mem_of_removed hq hmem
  -- the params of a node change, not its waker
  | refuse w h i p p' x state before after hopen hq =>
    apply hc.frame hw [.acquired i p (.returned (.error p'))] rfl (fun _ => ⟨trivial, trivial⟩)
      (by simp [Event.polled?])
    intro j r y hmem
    exact mem_of_replaced hq hmem
  | lose w h i p x state before after hopen hq =>
    apply hc.frame hw [.acquired i p .panicked] rfl (fun _ => ⟨trivial, trivial⟩)
      (by simp [Event.polled?])
    intro j r y hmem
    exact mem_of_replaced hq hmem
  -- neither a poll nor a change of the list
  | cancelGranted w i r hi =>
    exact hc.quiet hw [.took i, .cancelled i] (by simp) (by simp [Event.polled?, RightWaker]) rfl
  | cancelRefused w k i params c hi =>
    exact hc.quiet hw [.took i, .cancelled i] (by simp) (by simp [Event.polled?, RightWaker]) rfl
  | _ =>
    exact hc.quiet hw _ rfl (by simp [Event.polled?, RightWaker]) rfl

/-! ## Wakers run without the mutex -/

/-- The mutex was free at every wake. -/
def Unlocked (log : List (Event ι κ W S)) : Prop :=
  ∀ k i x held res, .woke k i x held res ∈ log → held = false

omit [DecidableEq W] in
theorem Unlocked.move {c d : Conf ι κ W S O} (hc : Unlocked c.1.log) (h : Move C own c d) :
    Unlocked d.1.log := by
  intro k i x held res hmem
  have old := hc k i x held res
  have quiet {e : Event ι κ W S} (hmem : .woke k i x held res ∈ c.1.log ++ [e])
      (he : e.woke? k = none) : held = false := by
    rcases List.mem_append.mp hmem with hold | hnew
    · exact old hold
    · rw [← List.mem_singleton.mp hnew] at he
      simp [Event.woke?] at he
  cases h with
  | note w h e he | reject w j p front e he | giveBack w j p e he =>
    cases he <;> exact quiet hmem rfl
  | wake w h l call j y rest res' hlocked hl hpop =>
    -- the move wakes only with the mutex free
    rcases List.mem_append.mp hmem with hold | hnew
    · exact old hold
    · cases List.mem_singleton.mp hnew
      rfl
  | _ =>
    apply old
    simpa [World.callRelease, World.updateState] using hmem

/-! ## The statement about runs -/

/-- Until its batch is empty, a call can do nothing but invoke its next waker. -/
theorem wake_enabled {w : World ι κ W S O} {k : κ} {c : Call ι W S} (hk : w.calls k = some c)
    (hwakers : c.wakes.wakers ≠ []) :
    (∃ w', step C w (.wake k (.returned ())) = some w') ∧
      (∀ res, step C w (.finish k res) = none) ∧ step C w (.resume k) = none := by
  have hempty : c.wakes.wakers.isEmpty = false := by
    cases h : c.wakes.wakers with
    | nil => exact absurd h hwakers
    | cons e rest => rfl
  refine ⟨?_, ?_, ?_⟩
  · cases hpop : c.wakes.pop with
    | none => exact absurd (WakeBatch.pop_eq_none.mp hpop) hwakers
    | some e =>
      obtain ⟨⟨i, x⟩, rest⟩ := e
      simp [step, hk, wakeNext, hpop]
  · intro res
    simp [step, hk, finish, hempty]
  · simp [step, hk, hempty]

/-- What is known about wakes between the lock sections: each call has woken what it removed,
in the same order, up to what its batch still holds, and it must wake these next; a node
leaves the list once, and with the waker of its latest poll; a drain removes the first node that
still has its params, a close the very first node; the mutex was free at every wake; the batch
never overflowed. -/
structure Woken (C : Closeability) (w : World ι κ W S O) : Prop where
  exactly_once : ∀ k, removals k w.log = wakes k w.log ++ w.batch k
  pending : ∀ k c, w.calls k = some c → c.wakes.wakers ≠ [] →
    (∃ w', step C w (.wake k (.returned ())) = some w') ∧
      (∀ res, step C w (.finish k res) = none) ∧ step C w (.resume k) = none
  leaves_once : ∀ i, departures i w.log ≤ 1
  in_order : Each InOrder w.log
  right_waker : ClonesReturn w.log → Each RightWaker w.log
  unlocked : Unlocked w.log
  never_full : .fault .batchFull ∉ w.log

/-- **Wakes happen exactly once, to the right waker, outside the lock**, in every run and
whatever unwinds in it. -/
theorem wakes_exactly_once {state : S} {order : O} {w : World ι κ W S O}
    (h : Reachable C state order w) : Woken C w := by
  refine ⟨h.batched, fun k c hk hwakers => wake_enabled hk hwakers, ?_, h.inOrder, ?_, ?_, ?_⟩
  · intro i
    exact (h.departedOnce i).1
  · have hinv : Attentive (w, (.empty : Hand ι S)) := by
      have hstart : Attentive ((World.new state order : World ι κ W S O), .empty) :=
        ⟨fun _ _ _ _ hmem => absurd hmem List.not_mem_nil, fun _ => each_nil⟩
      apply Reachable.invariant_of_traced _ ?_ hstart h
      intro c d hw ht hc _ hm
      exact hc.move hw ht.consistent hm
    exact hinv.removed
  · apply Reachable.invariant_of_moves (fun c => Unlocked c.1.log) ?_ ?_ h
    · intro c d _ hc _ hm
      exact hc.move hm
    · intro k i x held res hmem
      cases hmem
  · exact Reachable.no_fault h .batchFull

/-- Two waiters, one of which renewed its waker, are granted by one call; the first wake
panics and the second still happens. -/
theorem wakes_exactly_once_after_panic :
    ∃ w : World Nat Nat Nat SemaphoreCounter FairOrder,
      run .uncloseable ⟨0⟩ .fifo [.acquire 0 (1 : Nat), .poll 0 7 .quiet, .acquire 1 (1 : Nat),
        .poll 1 8 .quiet, .poll 1 9 .quiet, .withState 0 (SemaphoreCounter.add 2),
        .wake 0 .panicked, .wake 0 (.returned ()), .finish 0 (.returned ())] = some w ∧
      Woken .uncloseable w :=
  exists_run _ rfl fun _ h => wakes_exactly_once h

end FlagBearer
