import FlagBearer.Lib.Rounds
import FlagBearer.Queue.Drain

/-!
# How Long a Close Takes

A call of `close` removes up to 32 nodes in each lock section, and locks again as long as the
list still exists. What happens between its sections, wakers included, may take nodes out of
the list, but cannot put any in: `closed` is set before the first unlock, and every path that
links a node tests it. So the list at the first section bounds the number of sections.

## Main results

- `closeLoop_expels`: what a lock section removes
- `MidClose.step`: the sections so far, over any step of anybody
- `close_terminates`: the statement about runs
-/

namespace FlagBearer

open PinList

variable {ι κ W S O : Type} [DecidableEq κ] [SemaphoreState S] {C : Closeability} {own : Option ι}

/-! ## Lock sections in a history -/

/-- The nodes that each lock section of the call `k` has removed, after one more event. -/
def Event.tally (k : κ) (counts : List Nat) : Event ι κ W S → List Nat
  | .entered l _ => if l = k then 0 :: counts else counts
  | .removed l _ _ _ => if l = k then counts.modifyHead (· + 1) else counts
  | _ => counts

/-- How many nodes each lock section of the call `k` has removed, the latest section first. -/
def sections (k : κ) (log : List (Event ι κ W S)) : List Nat := log.foldl (Event.tally k) []

theorem sections_append (k : κ) (log es : List (Event ι κ W S)) :
    sections k (log ++ es) = es.foldl (Event.tally k) (sections k log) := List.foldl_append

/-- The events of other calls. -/
theorem foldl_tally_of_isOf {k : κ} {l : Option κ} (hl : l ≠ some k) {es : List (Event ι κ W S)}
    (hes : ∀ e ∈ es, e.isOf l = true) (counts : List Nat) :
    es.foldl (Event.tally k) counts = counts := by
  induction es with
  | nil => rfl
  | cons e es ih =>
    have hother (l' : κ) (h : (l == some l') = true) : l' ≠ k := by
      rintro rfl
      exact hl (beq_iff_eq.mp h)
    have he : e.tally k counts = counts := by
      have hof := hes e (List.mem_cons_self ..)
      cases e with
      | entered l' kind => exact if_neg (hother l' hof)
      | removed l' kind i x => exact if_neg (hother l' hof)
      | _ => rfl
    rw [List.foldl_cons, he]
    exact ih fun e' he' => hes e' (List.mem_cons_of_mem e he')

theorem wakes_of_isOf {k : κ} {l : Option κ} (hl : l ≠ some k) {es : List (Event ι κ W S)}
    (hes : ∀ e ∈ es, e.isOf l = true) : wakes k es = [] := by
  apply List.filterMap_eq_nil_iff.mpr
  intro e he
  have hof := hes e he
  cases e with
  | woke l' i x held res =>
    have hne : l' ≠ k := by
      rintro rfl
      exact hl (beq_iff_eq.mp hof)
    exact if_neg hne
  | _ => rfl

/-- The removals of a lock section. -/
def removedBy (k : κ) (nodes : List (ι × W)) : List (Event ι κ W S) :=
  nodes.map fun e => .removed k .close e.1 e.2

theorem foldl_tally_removedBy (k : κ) (nodes : List (ι × W)) (m : Nat) (counts : List Nat) :
    (removedBy k nodes : List (Event ι κ W S)).foldl (Event.tally k) (m :: counts) =
      (m + nodes.length) :: counts := by
  induction nodes generalizing m with
  | nil => rfl
  | cons e nodes ih =>
    have hcons : (removedBy k (e :: nodes) : List (Event ι κ W S)).foldl (Event.tally k)
        (m :: counts) = (removedBy k nodes : List (Event ι κ W S)).foldl (Event.tally k)
          ((m + 1) :: counts) := by
      simp [removedBy, Event.tally]
    rw [hcons, ih, List.length_cons]
    congr 1
    omega

theorem wakes_removedBy (k l : κ) (nodes : List (ι × W)) :
    wakes k (removedBy l nodes : List (Event ι κ W S)) = [] := by
  simp [wakes, removedBy, Event.woke?]

/-! ## One lock section -/

variable [DecidableEq ι] [Order O]

/-- What the loop of a lock section does: it removes nodes from the front as long as there is
room in the batch, and stops early only if the list is discarded. -/
structure Expels (k : κ) (room : Nat) (w w' : World ι κ W S O) (c : Call ι W S)
    (nodes : List (ι × W)) : Prop where
  log : w'.log = w.log ++ removedBy k nodes
  call : ∃ wakes, w'.calls k = some { c with wakes := wakes } ∧
    wakes.wakers = c.wakes.wakers ++ nodes
  list : w'.inner.entries.length + nodes.length = w.inner.entries.length
  full : w'.inner.isOk = true → nodes.length = room
  left : w'.inner.isOk = true → 0 < room ∨ w.inner.entries ≠ [] → w'.inner.entries ≠ []

omit [DecidableEq ι] [DecidableEq κ] [Order O] in
/-- The list has been discarded, and nothing is removed. -/
theorem Expels.nothing {k : κ} {room : Nat} {w w' : World ι κ W S O} {c : Call ι W S}
    (hk : w.calls k = some c) (hcalls : w'.calls = w.calls) (hlog : w'.log = w.log)
    (hentries : w'.inner.entries = w.inner.entries) (herr : w'.inner.isOk = false) :
    Expels k room w w' c [] := by
  constructor
  case log => rw [hlog, removedBy, List.map_nil, List.append_nil]
  case call => exact ⟨c.wakes, by rw [hcalls, hk], (List.append_nil _).symm⟩
  case list => rw [hentries, List.length_nil, Nat.add_zero]
  case full =>
    intro hok
    rw [herr] at hok
    cases hok
  case left =>
    intro hok
    rw [herr] at hok
    cases hok

omit [DecidableEq ι] [DecidableEq κ] [Order O] in
/-- A removal comes before those that follow it. -/
theorem Expels.cons {k : κ} {room : Nat} {w w₁ w' : World ι κ W S O} {c : Call ι W S}
    {wakes : WakeBatch ι W} {nodes : List (ι × W)}
    (h : Expels k room w₁ w' { c with wakes := wakes } nodes) {i : ι} {x : W}
    (hwakers : wakes.wakers = c.wakes.wakers ++ [(i, x)])
    (hlog : w₁.log = w.log ++ [.removed k .close i x])
    (hlist : w₁.inner.entries.length + 1 = w.inner.entries.length)
    (hleft : w'.inner.isOk = true → 0 < room ∨ w₁.inner.entries ≠ []) :
    Expels k (room + 1) w w' c ((i, x) :: nodes) := by
  constructor
  case log =>
    rw [h.log, hlog, List.append_assoc]
    rfl
  case call =>
    obtain ⟨wakes', hk', hwakers'⟩ := h.call
    refine ⟨wakes', hk', ?_⟩
    rw [hwakers', hwakers, List.append_assoc]
    rfl
  case list => rw [List.length_cons, ← Nat.add_assoc, h.list, hlist]
  case full =>
    intro hok
    rw [List.length_cons, h.full hok]
  case left => exact fun hok _ => h.left hok (hleft hok)

theorem closeLoop_expels (k : κ) {room : Nat} {w : World ι κ W S O} {c : Call ι W S}
    (hw : Coherent C w) (hC : C.CLOSE = true) (hk : w.calls k = some c)
    (hroom : c.wakes.wakers.length + room = WakeBatch.CAP) :
    ∃ nodes, Expels k room w (closeLoop k room w) c nodes := by
  induction room generalizing w c with
  | zero =>
    refine ⟨[], ?_⟩
    constructor
    case log => exact (List.append_nil _).symm
    case call => exact ⟨c.wakes, hk, (List.append_nil _).symm⟩
    case list => rfl
    case full => exact fun _ => rfl
    case left => exact fun _ h => h.resolve_left (Nat.lt_irrefl 0)
  | succ room ih =>
    unfold closeLoop
    rcases hq : w.inner.queue with _ | _ | ⟨⟨i, params, x⟩, rest⟩
    · rw [closeOne_error k hq]
      have hsame : w.inner.isOk = false := by simp [QueueState.isOk, hq]
      exact ⟨[], .nothing hk rfl rfl rfl hsame⟩
    · rw [closeOne_nil k hw hq]
      have hentries := QueueState.entries_of_queue hq
      exact ⟨[], .nothing hk rfl rfl hentries.symm rfl⟩
    · -- the first node leaves, and with the last one the list
      have hcoh := closeOne_coherent k hw hC
      have hnotFull : c.wakes.isFull = false := WakeBatch.not_isFull_of_lt (by omega)
      obtain ⟨wakes, hpush⟩ := WakeBatch.push_of_not_isFull hnotFull i x
      have hwakers := (WakeBatch.push_eq_some.mp hpush).2
      rw [closeOne_cons k hw hq] at hcoh ⊢
      simp only [World.pushWake, hk, hpush]
      set w₂ : World ι κ W S O := World.setCall
        { w with
          inner := { w.inner with
            queue := if rest.isEmpty then .error () else .ok rest
            closed := true
            len := w.inner.len - 1 }
          slots := Function.update w.slots i (.live ⟨.removed (.error params), none⟩)
          log := w.log ++ [.removed k .close i x] } k (some { c with wakes := wakes }) with hw₂
      have hentries : w.inner.entries = (i, params, x) :: rest := QueueState.entries_of_queue hq
      have hrest : w₂.inner.entries = rest := by
        cases rest <;> rfl
      obtain ⟨nodes, h⟩ := @ih w₂ { c with wakes := wakes } (hcoh.frame_inner rfl rfl rfl rfl)
        (by simp [hw₂]) (by rw [hwakers, List.length_append, List.length_singleton]; omega)
      refine ⟨(i, x) :: nodes, h.cons hwakers rfl ?_ ?_⟩
      · rw [hrest, hentries, List.length_cons]
      · intro hok
        cases room with
        | zero =>
          -- the batch is full now, and the list was not discarded
          have hok₂ : w₂.inner.isOk = true := hok
          rw [hrest]
          cases rest with
          | nil => cases hok₂
          | cons e rest => exact Or.inr (List.cons_ne_nil e rest)
        | succ room => exact Or.inl (Nat.succ_pos room)

/-- A lock section of `close`. -/
theorem closeTurn_expels (k : κ) {w : World ι κ W S O} {c : Call ι W S} (hw : Coherent C w)
    (hC : C.CLOSE = true) (hk : w.calls k = some c) (hwakes : c.wakes.wakers = []) :
    ∃ nodes wakes more, wakes.wakers = nodes ∧
      (closeTurn k w).calls k = some { c with wakes := wakes, more := more } ∧
      (closeTurn k w).log = w.log ++ .entered k .close :: removedBy k nodes ∧
      (closeTurn k w).inner.entries.length + nodes.length = w.inner.entries.length ∧
      (more = true → nodes.length = WakeBatch.CAP ∧ 0 < (closeTurn k w).inner.entries.length) := by
  have hcoh : Coherent C (w.lock.emit (.entered k .close)) := hw.frame_inner rfl rfl rfl rfl
  have hcall : (w.lock.emit (.entered k .close)).calls k = some c := hk
  have hroom : c.wakes.wakers.length + WakeBatch.CAP = WakeBatch.CAP := by simp [hwakes]
  obtain ⟨nodes, h⟩ := closeLoop_expels k hcoh hC hcall hroom
  obtain ⟨wakes, hk', hwakers⟩ := h.call
  rw [hwakes, List.nil_append] at hwakers
  set w' := closeLoop k WakeBatch.CAP (w.lock.emit (.entered k .close)) with hw'
  have hturn : closeTurn k w = w'.unlock.setCall k
      (some { c with wakes := wakes, more := w'.inner.isOk }) := by
    simp [closeTurn, ← hw', World.modifyCall, hk']
  rw [hturn]
  refine ⟨nodes, wakes, w'.inner.isOk, hwakers, by simp, ?_, h.list, ?_⟩
  · rw [World.setCall_log, World.unlock_log, h.log]
    simp
  · intro hok
    exact ⟨h.full hok, List.length_pos_iff.mpr (h.left hok (Or.inl (by decide)))⟩

/-! ## What happens in between -/

/-- Nobody adds to the list of a closing queue. -/
theorem Move.entries_length {c d : Conf ι κ W S O} (h : Move C own c d)
    (hclosing : c.1.inner.closing C = true) :
    d.1.inner.entries.length ≤ c.1.inner.entries.length := by
  have drop {before after : WaitList ι W S} {e : ι × Protected W S}
      (hq : c.1.inner.queue = .ok (before ++ e :: after)) :
      (before ++ after).length ≤ c.1.inner.entries.length := by
    rw [QueueState.entries_of_queue hq]
    simp
  cases h with
  -- these moves need an open queue
  | link w i p cx front queue hopen => exact absurd hclosing hopen.not_closing
  | grant w h k i p x r state before after c wakes hopen =>
    exact absurd hclosing hopen.not_closing
  | refuse w h i p p' x state before after hopen => exact absurd hclosing hopen.not_closing
  | lose w h i p x state before after hopen => exact absurd hclosing hopen.not_closing
  | expel w h k i params x rest c wakes hclosed hq =>
    have hfront : w.inner.queue = .ok ([] ++ (i, params, x) :: rest) := hq
    exact drop hfront
  | discard w h hclosed hq => exact Nat.zero_le _
  | unlinkSelf w i params x before after hclosing' hq => exact drop hq
  | cancelLinked w k i params x before after c hq => exact drop hq
  | rewake w i params x cx before after res hq =>
    rw [QueueState.entries_of_queue hq]
    simp
  | _ => exact Nat.le_refl _

variable [DecidableEq W]

theorem step_entries_length {w w' : World ι κ W S O} (hw : Settled C w)
    (hclosed : w.inner.closed = true) {a : Action ι κ W S} (h : step C w a = some w') :
    w'.inner.closed = true ∧ w'.inner.entries.length ≤ w.inner.entries.length := by
  refine Transition.invariant_of_moves_under (fun e => Coherent C e.1)
    (fun e => e.1.inner.closed = true ∧ e.1.inner.entries.length ≤ w.inner.entries.length)
    (fun _ _ hc hm => hc.move hm) ?_ (step_moves hw h).1 hw.coherent ⟨hclosed, Nat.le_refl _⟩
  intro c d hcoh hc hm
  exact ⟨hm.closed hc.1, Nat.le_trans (hm.entries_length (hcoh.closing hc.1)) hc.2⟩

/-- A step that is not of the call `k` does not touch it, and records nothing about it. -/
theorem step_elsewhere {k : κ} {w w' : World ι κ W S O} (hw : Settled C w) {a : Action ι κ W S}
    (ha : a.call ≠ some k) (h : step C w a = some w') :
    w'.calls k = w.calls k ∧ ∃ es, w'.log = w.log ++ es ∧ wakes k es = [] ∧
      ∀ counts, es.foldl (Event.tally k) counts = counts := by
  have hconf := step_confined hw h
  obtain ⟨es, hlog, hes⟩ := hconf.events
  have hcalls := hconf.calls k ha
  cases hasks : a.asks C w with
  | none =>
    rw [hasks, World.consulted_none] at hlog hcalls
    exact ⟨hcalls, es, hlog, wakes_of_isOf ha hes, foldl_tally_of_isOf ha hes⟩
  | some i =>
    rw [hasks, World.consulted_some] at hlog hcalls
    refine ⟨hcalls, .consulted i w.inner.len (Order.enqueueFront w.inner.order w.inner.len).2 :: es,
      ?_, ?_, ?_⟩
    · rw [hlog, World.consult, World.emit_log, List.append_assoc]
      rfl
    · rw [wakes_cons, wakes_of_isOf ha hes]
      rfl
    · intro counts
      exact foldl_tally_of_isOf ha hes counts

/-! ## The sections of a call -/

/-- The number of steps that are of the call `k`. -/
def ownSteps (k : κ) (acts : List (Action ι κ W S)) : Nat :=
  acts.countP fun a => a.call == some k

omit [DecidableEq ι] [DecidableEq W] in
theorem ownSteps_snoc {k : κ} {a : Action ι κ W S} (ha : a.call = some k)
    (acts : List (Action ι κ W S)) : ownSteps k (acts ++ [a]) = ownSteps k acts + 1 := by
  rw [ownSteps, List.countP_append, List.countP_singleton, if_pos (beq_iff_eq.mpr ha)]
  rfl

omit [DecidableEq ι] [DecidableEq W] in
theorem ownSteps_snoc_of_ne {k : κ} {a : Action ι κ W S} (ha : a.call ≠ some k)
    (acts : List (Action ι κ W S)) : ownSteps k (acts ++ [a]) = ownSteps k acts := by
  rw [ownSteps, List.countP_append, List.countP_singleton, if_neg (by simpa using ha)]
  rfl

/-- A call of `close` that began with `n` nodes in the list and is not over in `w`: what it has
executed according to the events `es` since then, and the steps `acts` that were taken
meanwhile. -/
structure MidClose (k : κ) (n : Nat) (acts : List (Action ι κ W S)) (es : List (Event ι κ W S))
    (w : World ι κ W S O) (c : Call ι W S) : Prop where
  call : w.calls k = some c
  kind : c.kind = .close
  closed : w.inner.closed = true
  rounds : Rounds WakeBatch.CAP n w.inner.entries.length (sections k es)
  more : c.more = true → Rounds.Full WakeBatch.CAP n (sections k es)
  woken : (wakes k es).length + c.wakes.wakers.length = (sections k es).sum
  steps : ownSteps k acts + 1 = (sections k es).length + (wakes k es).length
  quiet : c.unwinding = true → .wake k .panicked ∈ acts

section Sections

variable {k : κ} {n : Nat} {acts : List (Action ι κ W S)} {es : List (Event ι κ W S)}
  {w w' : World ι κ W S O} {c : Call ι W S} {a : Action ι κ W S}

/-- Where the call is after something that has recorded more events. -/
def MidClose.Goes (k : κ) (n : Nat) (acts : List (Action ι κ W S)) (es : List (Event ι κ W S))
    (w w' : World ι κ W S O) : Prop :=
  ∃ es' c, w'.log = w.log ++ es' ∧ MidClose k n acts (es ++ es') w' c

omit [DecidableEq W] in
/-- A lock section of a call that has executed the sections of `es`. -/
theorem MidClose.turn (hw : Coherent C w) (hC : C.CLOSE = true) (hk : w.calls k = some c)
    (hkind : c.kind = .close) (hwakes : c.wakes.wakers = [])
    (hquiet : c.unwinding = true → .wake k .panicked ∈ acts)
    (hnext : ∀ left m, left + m = w.inner.entries.length →
      Rounds WakeBatch.CAP n left (m :: sections k es))
    (hwoken : (wakes k es).length = (sections k es).sum)
    (hsteps : ownSteps k acts = (sections k es).length + (wakes k es).length) :
    Goes k n acts es w (closeTurn k w) := by
  obtain ⟨nodes, wakes', more, hwakers, hk', hlog, hlist, hmore⟩ :=
    closeTurn_expels k hw hC hk hwakes
  -- one section is added, of as many nodes as it removed, and no wake
  have hsections : sections k (es ++ .entered k .close :: removedBy k nodes) =
      nodes.length :: sections k es := by
    rw [sections_append, List.foldl_cons, Event.tally, if_pos rfl, foldl_tally_removedBy,
      Nat.zero_add]
  have hwoke : wakes k (es ++ .entered k .close :: removedBy k nodes) = wakes k es := by
    rw [wakes_append, wakes_cons, wakes_removedBy]
    exact List.append_nil _
  have hrounds := hnext _ _ hlist
  refine ⟨_, { c with wakes := wakes', more := more }, hlog, ?_⟩
  constructor
  case call => exact hk'
  case kind => exact hkind
  case closed => exact closeTurn_closed k w
  case rounds => rwa [hsections]
  case more =>
    intro hm
    -- the loop goes on because the batch is full and the list is not empty
    obtain ⟨hfull, hleft⟩ := hmore hm
    rw [hsections]
    rw [hfull] at hrounds ⊢
    exact hrounds.goes_on hleft
  case woken =>
    rw [hsections, hwoke, hwoken, hwakers, List.sum_cons]
    omega
  case steps =>
    rw [hsections, hwoke, hsteps, List.length_cons]
    omega
  case quiet => exact hquiet

/-- The first lock section. -/
theorem MidClose.start (hw : Settled C w) (h : step C w (.close k) = some w') :
    Goes k w.inner.entries.length [] [] w w' := by
  cases step_cases h with
  | close _ hC hk =>
    subst hC
    have hcoh : Coherent .closeable (w.setCall k (some (.start .close))) :=
      hw.coherent.frame_inner rfl rfl rfl rfl
    have hcall : (w.setCall k (some (.start .close))).calls k = some (.start .close) := by simp
    refine MidClose.turn hcoh rfl hcall rfl rfl ?_ ?_ rfl rfl
    · rintro ⟨⟩
    · exact fun left m hm => .first (Nat.le_of_eq hm)

/-- Another lock section, which follows full ones only. -/
theorem MidClose.resume (h : MidClose k n acts es w c) (hw : Settled C w)
    (hstep : step C w (.resume k) = some w') : Goes k n (acts ++ [.resume k]) es w w' := by
  cases step_cases hstep with
  | resume _ c' hk hwakes hunw hmore =>
    obtain rfl : c = c' := Option.some.inj (h.call.symm.trans hk)
    have hwoken := h.woken
    rw [hwakes, List.length_nil, Nat.add_zero] at hwoken
    have hturn : FlagBearer.resume C k w c = closeTurn k w := by
      simp [FlagBearer.resume, h.kind]
    rw [hturn]
    refine MidClose.turn hw.coherent (hw.closes k c h.call h.kind) h.call h.kind hwakes ?_ ?_
      hwoken ?_
    · rw [hunw]
      rintro ⟨⟩
    · exact fun left m hm => h.rounds.next (h.more hmore) (Nat.le_of_eq hm)
    · rw [ownSteps_snoc rfl, h.steps]

/-- A waker of the call is invoked. -/
theorem MidClose.wake (h : MidClose k n acts es w c) {res : Unwind Unit}
    (hstep : step C w (.wake k res) = some w') : Goes k n (acts ++ [.wake k res]) es w w' := by
  simp only [step, h.call, wakeNext] at hstep
  rcases hpop : c.wakes.pop with _ | ⟨⟨i, x⟩, rest⟩
  · rw [hpop] at hstep
    cases hstep
  · obtain ⟨unwinding, hquiet, hw'⟩ : ∃ unwinding,
        (unwinding = true → .wake k .panicked ∈ acts ++ [Action.wake k res]) ∧
          w' = (w.emit (.woke k i x w.locked res)).setCall k
            (some { c with wakes := rest, unwinding := unwinding }) := by
      rw [hpop] at hstep
      rcases res with _ | _
      · cases hstep
        exact ⟨c.unwinding, fun hunw => List.mem_append_left _ (h.quiet hunw), rfl⟩
      · -- a panic begins the unwinding, and a second one would abort
        cases hunw : c.unwinding with
        | true => simp [hunw] at hstep
        | false =>
          simp only [hunw, Option.some.injEq] at hstep
          exact ⟨true, fun _ => by simp, hstep.symm⟩
    subst hw'
    have hwakers := WakeBatch.pop_eq_some.mp hpop
    -- no section is added, and one wake
    have hsections : sections k (es ++ [.woke k i x w.locked res]) = sections k es :=
      sections_append k es _
    have hwoke : wakes k (es ++ [.woke k i x w.locked res]) = wakes k es ++ [(i, x)] := by
      simp [wakes, Event.woke?]
    refine ⟨_, { c with wakes := rest, unwinding := unwinding }, rfl, ?_⟩
    constructor
    case call => simp
    case kind => exact h.kind
    case closed => exact h.closed
    case rounds =>
      rw [hsections]
      exact h.rounds
    case more =>
      rw [hsections]
      exact h.more
    case woken =>
      rw [hsections, hwoke, ← h.woken, hwakers, List.length_append, List.length_singleton,
        List.length_cons, Nat.add_right_comm, Nat.add_assoc]
    case steps =>
      rw [hsections, hwoke, ownSteps_snoc rfl, h.steps, List.length_append,
        List.length_singleton, Nat.add_assoc]
    case quiet => exact hquiet

/-- A step of somebody else. -/
theorem MidClose.elsewhere (h : MidClose k n acts es w c) (hw : Settled C w)
    (ha : a.call ≠ some k) (hstep : step C w a = some w') : Goes k n (acts ++ [a]) es w w' := by
  obtain ⟨hcalls, es', hlog, hwoke, htally⟩ := step_elsewhere hw ha hstep
  obtain ⟨hclosed, hlength⟩ := step_entries_length hw h.closed hstep
  have hsections : sections k (es ++ es') = sections k es := by rw [sections_append, htally]
  have hwakes : wakes k (es ++ es') = wakes k es := by rw [wakes_append, hwoke, List.append_nil]
  refine ⟨es', c, hlog, ?_⟩
  constructor
  case call => rw [hcalls, h.call]
  case kind => exact h.kind
  case closed => exact hclosed
  case rounds =>
    rw [hsections]
    exact h.rounds.shrink hlength
  case more =>
    rw [hsections]
    exact h.more
  case woken => rw [hsections, hwakes, h.woken]
  case steps => rw [hsections, hwakes, ownSteps_snoc_of_ne ha, h.steps]
  case quiet => exact fun hunw => List.mem_append_left _ (h.quiet hunw)

/-- **The sections so far, over any step** that does not end the call. -/
theorem MidClose.step (h : MidClose k n acts es w c) (hw : Settled C w)
    (ha : ∀ drop, a ≠ .finish k drop) (hstep : FlagBearer.step C w a = some w') :
    Goes k n (acts ++ [a]) es w w' := by
  by_cases hown : a.call = some k
  · cases a with
    | resume l =>
      cases hown
      exact h.resume hw hstep
    | wake l res =>
      cases hown
      exact h.wake hstep
    | finish l drop =>
      cases hown
      exact absurd rfl (ha drop)
    -- no other call can begin under this name
    | withState | dropAcquire | dropPermit | close =>
      cases hown
      simp [FlagBearer.step, h.call] at hstep
    | _ => cases hown
  · exact h.elsewhere hw hown hstep

theorem MidClose.exec (h : MidClose k n acts es w c) (hw : Settled C w)
    {acts' : List (Action ι κ W S)} (hacts : ∀ drop, .finish k drop ∉ acts')
    (hexec : Transition.exec (FlagBearer.step C) w acts' = some w') :
    Goes k n (acts ++ acts') es w w' := by
  induction acts' generalizing acts es w c with
  | nil =>
    cases hexec
    refine ⟨[], c, (List.append_nil _).symm, ?_⟩
    rwa [List.append_nil, List.append_nil]
  | cons a acts' ih =>
    obtain ⟨u, hu, hrest⟩ := Option.bind_eq_some_iff.mp hexec
    have ha : ∀ drop, a ≠ .finish k drop := by
      rintro drop rfl
      exact hacts drop (List.mem_cons_self ..)
    have hacts' : ∀ drop, .finish k drop ∉ acts' :=
      fun drop hmem => hacts drop (List.mem_cons_of_mem a hmem)
    obtain ⟨es₁, c₁, hlog₁, h₁⟩ := h.step hw ha hu
    obtain ⟨es₂, c₂, hlog₂, h₂⟩ := ih h₁ (hw.step hu) hacts' hrest
    rw [List.append_assoc, List.append_assoc] at h₂
    exact ⟨es₁ ++ es₂, c₂, by rw [hlog₂, hlog₁, List.append_assoc], h₂⟩

end Sections

/-! ## Runs -/

/-- What a call of `close` has done between `w`, where it began with `n` nodes in the list, and
`w'`, where it is not over yet, while the steps `acts` were taken: how many lock sections it has
executed, that all but the latest were full, how many steps of its own that took, and that it
can take another one unless a waker has panicked. -/
structure CloseTerminates (C : Closeability) (k : κ) (n : Nat) (acts : List (Action ι κ W S))
    (w w' : World ι κ W S O) : Prop where
  sections_le : (sections k (w.since w')).length ≤ max 1 (n ⌈/⌉ WakeBatch.CAP)
  full : ∀ m ∈ (sections k (w.since w')).tail, m = WakeBatch.CAP
  removed_le : (sections k (w.since w')).sum ≤ n
  steps_lt : ownSteps k acts < max 1 (n ⌈/⌉ WakeBatch.CAP) + n
  goes_on : .wake k .panicked ∉ acts → ∃ a : Action ι κ W S,
    a.Continues k ∧ (step C w' a).isSome = true

/-- **Close terminates** whatever others do between its lock sections: as long as the call is
not over, it has executed at most one lock section for every 32 nodes that were in the list at
its first one. -/
theorem close_terminates {state : S} {order : O} {w w₁ w' : World ι κ W S O}
    (h : Reachable C state order w) {k : κ} (hclose : step C w (.close k) = some w₁)
    {acts : List (Action ι κ W S)} (hacts : ∀ drop, .finish k drop ∉ acts)
    (hexec : Transition.exec (step C) w₁ acts = some w') :
    CloseTerminates C k w.inner.entries.length acts w w' := by
  have hw := Reachable.settled h
  obtain ⟨es₁, c₁, hlog₁, h₁⟩ := MidClose.start hw hclose
  obtain ⟨es₂, c, hlog₂, hmid⟩ := h₁.exec (hw.step hclose) hacts hexec
  have hsince : w.since w' = [] ++ es₁ ++ es₂ := by
    apply World.since_of_log
    rw [hlog₂, hlog₁, List.nil_append, List.append_assoc]
  rw [List.nil_append, ← hsince] at hmid
  have hcap : 0 < WakeBatch.CAP := by decide
  have hsections := hmid.rounds.length_le hcap
  have hremoved := Nat.le_trans (Nat.le_add_left _ _) hmid.rounds.supply
  constructor
  case sections_le => exact hsections
  case full => exact hmid.rounds.full
  case removed_le => exact hremoved
  case steps_lt =>
    have hsteps := hmid.steps
    have hwoken := hmid.woken
    omega
  case goes_on =>
    intro hquiet
    refine exists_continues hmid.call fun _ => ?_
    by_contra hunw
    exact hquiet (hmid.quiet (by simpa using hunw))

/-- One of 40 waiters is polled, and leaves, between the two batches of a close; another close
comes before its end. -/
theorem close_terminates_after_two_batches :
    let acts : List (Action Nat Nat Nat SemaphoreCounter) :=
      .wake 0 (.returned ()) :: .poll 39 8 .quiet :: List.replicate 31 (.wake 0 (.returned ())) ++
        [.resume 0, .wake 0 (.returned ()), .close 1]
    ∃ w w₁ w' : World Nat Nat Nat SemaphoreCounter FairOrder,
      run .closeable ⟨0⟩ .fifo (queueUp SemaphoreCounter (1 : Nat) 40) = some w ∧
      w.inner.entries.length = 40 ∧ step .closeable w (.close 0) = some w₁ ∧
      Transition.exec (step .closeable) w₁ acts = some w' ∧
      CloseTerminates .closeable 0 40 acts w w' := by
  intro acts
  have hrun : (run .closeable (⟨0⟩ : SemaphoreCounter) FairOrder.fifo
      (queueUp SemaphoreCounter (1 : Nat) 40)).any (fun w => w.inner.entries.length == 40 &&
        (step .closeable w (.close 0)).any fun w₁ =>
          (Transition.exec (step .closeable) w₁ acts).isSome) = true := by
    decide +kernel
  obtain ⟨w, hw, htest⟩ := (Option.any_eq_true _ _).mp hrun
  obtain ⟨hlength, htest⟩ := Bool.and_eq_true_iff.mp htest
  obtain ⟨w₁, hclose, hsome⟩ := (Option.any_eq_true _ _).mp htest
  obtain ⟨w', hexec⟩ := Option.isSome_iff_exists.mp hsome
  have hlength := eq_of_beq hlength
  refine ⟨w, w₁, w', hw, hlength, hclose, hexec, ?_⟩
  rw [← hlength]
  exact close_terminates (Transition.reachable_iff_exec.mpr ⟨_, hw⟩) hclose (by simp [acts]) hexec

end FlagBearer
