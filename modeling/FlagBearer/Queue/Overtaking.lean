import FlagBearer.Queue.Closing
import FlagBearer.Queue.Ordering

/-!
# Overtaking

How many fair requests are granted while a waiter waits. Each of them stood ahead of the waiter
when it is first looked at, or the order has sent it to the front since: no drain and no arrival
takes a place that the order has not given. With FIFO order nobody is sent to the front, and a
waiter is granted after at most as many others as stood ahead of it.

Requests that do not consult the order, `try_acquire` without fairness, are not counted.

## Main results

- `Behind.move`: what one move adds
- `overtaking_bounded`: the statement about runs
-/

namespace FlagBearer

open PinList History

variable {ι κ W S O : Type} [DecidableEq ι] [SemaphoreState S] {C : Closeability} {own : Option ι}

/-! ## Waiters and turns -/

/-- `i` is queued with its params. -/
def World.Waits (w : World ι κ W S O) (i : ι) : Prop := ∃ p x, (i, some p, x) ∈ w.inner.entries

/-- The number of nodes in front of `i`. -/
def World.ahead (w : World ι κ W S O) (i : ι) : Nat := (ids w.inner.entries).idxOf i

/-- Is this the grant of a request that has consulted the order? -/
def isTurn (past : List (Event ι κ W S)) : Event ι κ W S → Bool
  | .acquired j _ (.returned (.ok _)) => decide (j ∈ arrivals past)
  | _ => false

/-- Does the order send a request to the front here? -/
def Event.isFront : Event ι κ W S → Bool
  | .consulted _ _ (.returned front) => front
  | _ => false

/-- The fair requests that were granted after `past`. -/
def turns (past es : List (Event ι κ W S)) : Nat := countFrom past isTurn es

theorem turns_cons (past : List (Event ι κ W S)) (e : Event ι κ W S) (es : List (Event ι κ W S)) :
    turns past (e :: es) = (isTurn past e).toNat + turns (past ++ [e]) es := rfl

theorem turns_append (past es es' : List (Event ι κ W S)) :
    turns past (es ++ es') = turns past es + turns (past ++ es) es' := countFrom_append past es es'

/-- The requests that the order sent to the front. -/
def fronts (es : List (Event ι κ W S)) : Nat := es.countP Event.isFront

omit [DecidableEq ι] in
theorem fronts_append (es es' : List (Event ι κ W S)) :
    fronts (es ++ es') = fronts es + fronts es' := List.countP_append

/-- A section that knows of its request that it may go to the front. -/
def Hand.credit : Hand ι S → Nat
  | .params _ _ (some true) => 1
  | _ => 0

/-- An event that grants nothing. -/
def Event.isNoGrant : Event ι κ W S → Bool
  | .acquired _ _ (.returned (.ok _)) => false
  | _ => true

theorem turns_eq_zero {past es : List (Event ι κ W S)} (h : ∀ e ∈ es, e.isNoGrant = true) :
    turns past es = 0 := by
  refine countFrom_eq_zero fun e he past => ?_
  have hno := h e he
  cases e with
  | acquired j p res => rcases res with (_ | r) | _ <;> first | rfl | cases hno
  | _ => rfl

/-! ## One move -/

/-- What has happened since `past`, as long as `i` waits: it has moved up one place for each grant
that the order has not sent ahead of it. -/
def Behind (i : ι) (past : List (Event ι κ W S)) (place : Nat) (c : Conf ι κ W S O) : Prop :=
  ∃ es, c.1.log = past ++ es ∧
    (c.1.Waits i → turns past es + c.1.ahead i + c.2.credit ≤ place + fronts es)

section Move

variable {i : ι} {past : List (Event ι κ W S)} {place : Nat} {c d : Conf ι κ W S O}

/-- Whoever has joined and waits after a move has waited before it. -/
theorem World.Waits.of_move [DecidableEq κ] [Order O]
    (ht : Traced C c) (hi : Joined i c) (h : Move C own c d)
    (hd : d.1.Waits i) : c.1.Waits i := by
  obtain ⟨p, x, hmem⟩ := hd
  cases h with
  | link w j q cx front queue hopen hq hj =>
    -- `i` is not the one that joins
    have hne : i ≠ j := by
      rintro rfl
      exact not_joined_of_asks ht.consistent rfl hi
    refine ⟨p, x, ?_⟩
    rw [QueueState.entries_of_queue hq]
    cases front
    · simpa [pushBack, hne] using hmem
    · simpa [pushFront, hne] using hmem
  -- another node leaves
  | grant w h k j q r y state before after c wakes hopen hq hdead hj =>
    refine ⟨p, x, ?_⟩
    rw [QueueState.entries_of_queue hq]
    exact mem_split.mpr (Or.inr hmem)
  | expel w h k j params y rest c wakes hclosed hq =>
    refine ⟨p, x, ?_⟩
    rw [QueueState.entries_of_queue hq]
    exact List.mem_cons_of_mem _ hmem
  | unlinkSelf w j params y before after hclosing hq =>
    refine ⟨p, x, ?_⟩
    rw [QueueState.entries_of_queue hq]
    exact mem_split.mpr (Or.inr hmem)
  | cancelLinked w k j params y before after c hq =>
    refine ⟨p, x, ?_⟩
    rw [QueueState.entries_of_queue hq]
    exact mem_split.mpr (Or.inr hmem)
  -- the data of a node change
  | refuse w h j q q' y state before after hopen hq hdead hacq =>
    unfold World.Waits
    rw [QueueState.entries_of_queue hq]
    rcases mem_split.mp hmem with heq | hother
    · obtain ⟨rfl, -⟩ := Prod.mk.inj heq
      exact ⟨q, y, mem_split.mpr (Or.inl rfl)⟩
    · exact ⟨p, x, mem_split.mpr (Or.inr hother)⟩
  | lose w h j q y state before after hopen hq hdead hacq =>
    unfold World.Waits
    rw [QueueState.entries_of_queue hq]
    rcases mem_split.mp hmem with heq | hother
    · cases heq
    · exact ⟨p, x, mem_split.mpr (Or.inr hother)⟩
  | rewake w j params y cx before after res hq =>
    unfold World.Waits
    rw [QueueState.entries_of_queue hq]
    rcases mem_split.mp hmem with heq | hother
    · obtain ⟨rfl, hdata⟩ := Prod.mk.inj heq
      obtain ⟨rfl, -⟩ := Prod.mk.inj hdata
      exact ⟨p, y, mem_split.mpr (Or.inl rfl)⟩
    · exact ⟨p, x, mem_split.mpr (Or.inr hother)⟩
  | discard w h hclosed hq => cases hmem
  -- the list stays as it is
  | _ => exact ⟨p, x, hmem⟩

/-- A move whose grants are paid for by what it does to the list and the locals. -/
theorem Behind.grow (hc : Behind i past place c) (hback : d.1.Waits i → c.1.Waits i)
    (new : List (Event ι κ W S)) (hlog : d.1.log = c.1.log ++ new)
    (hpaid : d.1.Waits i → turns c.1.log new + d.1.ahead i + d.2.credit ≤
      c.1.ahead i + c.2.credit + fronts new) : Behind i past place d := by
  obtain ⟨es, hes, hbound⟩ := hc
  refine ⟨es ++ new, by rw [hlog, hes, List.append_assoc], fun hi => ?_⟩
  have hnew := hpaid hi
  have hold := hbound (hback hi)
  have hturns : turns past (es ++ new) = turns past es + turns c.1.log new := by
    rw [hes, turns_append]
  rw [hturns, fronts_append]
  omega

/-- A move that leaves the list alone and grants nothing. -/
theorem Behind.still (hc : Behind i past place c) (new : List (Event ι κ W S))
    (hlog : d.1.log = c.1.log ++ new) (hq : d.1.inner.queue = c.1.inner.queue)
    (hcredit : d.2.credit ≤ c.2.credit) (hnew : ∀ e ∈ new, e.isNoGrant = true) :
    Behind i past place d := by
  have hentries : d.1.inner.entries = c.1.inner.entries := by
    simp only [QueueState.entries, hq]
  apply hc.grow (fun hi => by rwa [World.Waits, hentries] at hi) new hlog
  intro hi
  have hahead : d.1.ahead i = c.1.ahead i := by rw [World.ahead, hentries, World.ahead]
  rw [turns_eq_zero hnew, hahead]
  omega

/-- A move that takes another node out of the list and grants nothing. -/
theorem Behind.leave {w w' : World ι κ W S O} {h h' : Hand ι S} (hc : Behind i past place (w, h))
    (hback : w'.Waits i → w.Waits i) (hw : Coherent C w) (new : List (Event ι κ W S))
    (hlog : w'.log = w.log ++ new) {j : ι}
    {data : Protected W S} {before after : WaitList ι W S}
    (hq : w.inner.queue = .ok (before ++ (j, data) :: after))
    (hq' : w'.inner.queue = .ok (before ++ after)) (hcredit : h'.credit ≤ h.credit)
    (hnew : ∀ e ∈ new, e.isNoGrant = true) : Behind i past place (w', h') := by
  have hentries := QueueState.entries_of_queue hq
  have hentries' := QueueState.entries_of_queue hq'
  apply hc.grow hback new hlog
  rintro ⟨p, x, hmem⟩
  rw [hentries'] at hmem
  have hne : i ≠ j := (ne_of_mem_split (hw.nodup_of_queue hq) hmem).symm
  have hahead : w'.ahead i ≤ w.ahead i := by
    rw [World.ahead, World.ahead, hentries, hentries', ids_append, ids_append, ids_cons]
    exact idxOf_remove_le hne
  rw [turns_eq_zero hnew]
  simp only
  omega

/-- A move that changes the data of a node and grants nothing. -/
theorem Behind.replace {w w' : World ι κ W S O} {h : Hand ι S} (hc : Behind i past place (w, h))
    (hback : w'.Waits i → w.Waits i) (new : List (Event ι κ W S)) (hlog : w'.log = w.log ++ new)
    {j : ι} {data data' : Protected W S} {before after : WaitList ι W S}
    (hq : w.inner.queue = .ok (before ++ (j, data) :: after))
    (hq' : w'.inner.queue = .ok (before ++ (j, data') :: after))
    (hnew : ∀ e ∈ new, e.isNoGrant = true) : Behind i past place (w', h) := by
  have hentries := QueueState.entries_of_queue hq
  have hentries' := QueueState.entries_of_queue hq'
  apply hc.grow hback new hlog
  intro hi
  have hahead : w'.ahead i = w.ahead i := by
    rw [World.ahead, World.ahead, hentries, hentries', ids_replace]
  rw [turns_eq_zero hnew]
  simp only
  omega

/-- **What one move adds**: a grant takes the place of a node that stood ahead, or that of a
request which the order has sent to the front. -/
theorem Behind.move [DecidableEq κ] [Order O]
    (hc : Behind i past place c) (hw : Coherent C c.1) (ht : Traced C c)
    (hp : Posted c) (hi : Joined i c) (h : Move C own c d) : Behind i past place d := by
  have hback : d.1.Waits i → c.1.Waits i := World.Waits.of_move ht hi h
  cases h with
  | note w h e he =>
    cases he <;> exact hc.still [_] rfl rfl (Nat.le_refl _) (by simp [Event.isNoGrant])
  | reject w j p front e he | giveBack w j p e he =>
    cases he <;> exact hc.still [_] rfl rfl (Nat.zero_le _) (by simp [Event.isNoGrant])
  -- the order answers
  | consult w j p order front hopen hord =>
    apply hc.grow hback [.consulted j w.inner.len (.returned front)] rfl
    intro hwaits
    have hahead : World.ahead
        ({ w with
            inner := { w.inner with order := order }
            log := w.log ++ [.consulted j w.inner.len (.returned front)] } : World ι κ W S O) i =
          w.ahead i := rfl
    have hcredit : (Hand.params j p (some front) : Hand ι S).credit =
        fronts [(.consulted j w.inner.len (.returned front) : Event ι κ W S)] := by
      cases front <;> rfl
    rw [turns_eq_zero (by simp [Event.isNoGrant])]
    simp only [hahead, hcredit]
    omega
  | refuseNow w j p p' front state hopen hlead hacq =>
    have hcredit : (Hand.params j p' front : Hand ι S).credit =
        (Hand.params j p front : Hand ι S).credit := by
      rcases front with _ | _ | _ <;> rfl
    exact hc.still _ rfl rfl (Nat.le_of_eq hcredit) (by simp [Event.isNoGrant])
  | loseNow w j p front state hopen hlead hacq =>
    exact hc.still _ rfl rfl (Nat.zero_le _) (by simp [Event.isNoGrant])
  | grantNow w j p r front state hopen hlead hacq =>
    -- who has consulted the order was sent to the front, since somebody waits
    apply hc.grow hback [.acquired j p (.returned (.ok r))] rfl
    rintro ⟨q, x, hmem⟩
    have hturn : turns w.log [.acquired j p (.returned (.ok r))] ≤
        (Hand.params j p front : Hand ι S).credit := by
      rcases front with _ | _ | _
      · -- the order was not consulted
        have hnot : j ∉ arrivals w.log := by
          intro hj
          obtain ⟨front, hj⟩ := mem_arrivals.mp hj
          exact (hp.asked j).not_mem_decisions not_asked_of_params front hj
        simp [turns, isTurn, hnot]
      · have hnil : w.inner.entries = [] := hlead rfl
        have hmem' : (i, some q, x) ∈ w.inner.entries := hmem
        rw [hnil] at hmem'
        cases hmem'
      · simp [turns, isTurn, Hand.credit, Bool.toNat_le]
    have hahead : World.ahead
        ({ w with
            inner := { w.inner with state := state }
            log := w.log ++ [.acquired j p (.returned (.ok r))] } : World ι κ W S O) i =
          w.ahead i := rfl
    have hnone : (Hand.permit j r : Hand ι S).credit = 0 := rfl
    simp only [hahead]
    omega
  | link w j p cx front queue hopen hq hj =>
    -- `i` is not the one that joins
    have hne : i ≠ j := by
      rintro rfl
      exact not_joined_of_asks ht.consistent rfl hi
    have hentries := QueueState.entries_of_queue hq
    apply hc.grow hback _ rfl
    intro hwaits
    obtain ⟨q, x, hmem⟩ := hback hwaits
    rw [turns_eq_zero (by simp [Event.isNoGrant])]
    have hids : i ∈ ids queue := mem_ids_of_mem (hentries ▸ hmem)
    cases front with
    | false =>
      have hahead : (ids (queue.pushBack j (some p, cx))).idxOf i = (ids queue).idxOf i := by
        rw [pushBack, ids_append, List.idxOf_append_of_mem hids]
      simp only [World.ahead, hentries, QueueState.entries_ok, Bool.false_eq_true, if_false, hahead,
        Hand.credit]
      omega
    | true =>
      have hahead : (ids (queue.pushFront j (some p, cx))).idxOf i = (ids queue).idxOf i + 1 := by
        rw [pushFront, ids_cons, List.idxOf_cons_ne _ hne.symm]
      simp only [World.ahead, hentries, QueueState.entries_ok, if_true, hahead, Hand.credit]
      omega
  -- the drain serves the first live node
  | grant w h k j p x r state before after c wakes hopen hq hdead hj =>
    have hentries := QueueState.entries_of_queue hq
    have hnodup := hw.nodup_of_queue hq
    apply hc.grow hback [.acquired j p (.returned (.ok r)), .removed k .withQueue j x] rfl
    rintro ⟨q, y, hmem⟩
    have hmem' : (i, some q, y) ∈ before ++ after := hmem
    have hne : i ≠ j := (ne_of_mem_split hnodup hmem').symm
    have hafter : (i, some q, y) ∈ after := by
      rcases List.mem_append.mp hmem' with hbefore | hafter
      · exact absurd (hdead _ hbefore) (by simp)
      · exact hafter
    have hbefore : i ∉ ids before := by
      rw [ids_append, ids_cons] at hnodup
      exact fun hb => (List.nodup_append.mp hnodup).2.2 i hb i
        (List.mem_cons_of_mem j (mem_ids_of_mem hafter)) rfl
    have hturn :
        turns w.log [.acquired j p (.returned (.ok r)), .removed k .withQueue j x] ≤ 1 := by
      simp [turns, isTurn, Bool.toNat_le]
    have hahead : (ids before ++ ids after).idxOf i + 1 =
        (ids before ++ j :: ids after).idxOf i := idxOf_remove_before hbefore hne
    rw [← ids_append, ← ids_cons (j, (some p, x)), ← ids_append] at hahead
    simp only [World.ahead, hentries, QueueState.entries_ok]
    omega
  | refuse w h j p p' x state before after hopen hq hdead hacq =>
    exact hc.replace hback _ rfl hq rfl (by simp [Event.isNoGrant])
  | lose w h j p x state before after hopen hq hdead hacq =>
    exact hc.replace hback _ rfl hq rfl (by simp [Event.isNoGrant])
  | rewake w j params x cx before after res hq =>
    exact hc.replace hback _ rfl hq rfl (by simp [Event.isNoGrant])
  -- other nodes leave
  | expel w h k j params x rest c wakes hclosed hq =>
    have hsplit : w.inner.queue = .ok ([] ++ (j, params, x) :: rest) := hq
    exact hc.leave hback hw [.removed k .close j x] rfl hsplit rfl (Nat.le_refl _)
      (by simp [Event.isNoGrant])
  | unlinkSelf w j params x before after hclosing hq =>
    refine hc.leave hback hw [.unlinked j] rfl hq rfl ?_ (by simp [Event.isNoGrant])
    cases params <;> exact Nat.le_refl 0
  | cancelLinked w k j params x before after c hq =>
    exact hc.leave hback hw [.cancelled j] rfl hq rfl (Nat.le_refl _) (by simp [Event.isNoGrant])
  | discard w h hclosed hq =>
    apply hc.grow hback [] (by simp)
    rintro ⟨q, y, hmem⟩
    cases hmem
  -- nothing is granted, and the list stays as it is
  | lock | unlock | setClosed | begin | turn | takeGuard =>
    exact hc.still [] (by simp) rfl (Nat.le_refl _) (by simp)
  | pollPanic | update | clearPoison | wake | finish =>
    exact hc.still _ rfl rfl (Nat.le_refl _) (by simp [Event.isNoGrant])
  | consultPanic | release | deliver | deliverTry | takePermit | create | conjure | cancelInitial
    | claim =>
    exact hc.still _ rfl rfl (Nat.zero_le _) (by simp [Event.isNoGrant])
  | ask | askTry => exact hc.still [] (by simp) rfl (Nat.zero_le _) (by simp)
  | claimError w j params =>
    refine hc.still [.took j] rfl rfl ?_ (by simp [Event.isNoGrant])
    cases params <;> exact Nat.le_refl 0
  | cancelGranted w j r =>
    exact hc.still [.took j, .cancelled j] (by simp) rfl (Nat.zero_le _) (by simp [Event.isNoGrant])
  | cancelRefused w k j params =>
    exact hc.still [.took j, .cancelled j] (by simp) rfl (Nat.zero_le _) (by simp [Event.isNoGrant])

end Move

/-! ## Runs -/

variable [DecidableEq κ] [DecidableEq W] [Order O]

/-- What a section knows of its request, in every run. -/
theorem Reachable.posted {state : S} {order : O} {w : World ι κ W S O}
    (h : Reachable C state order w) : Traced C (w, (.empty : Hand ι S)) ∧
      Posted (w, (.empty : Hand ι S)) := by
  constructor
  · exact Reachable.invariant_of_traced (Traced C) (fun _ _ hw hc _ _ hm => hc.move hw hm)
      (Traced.start state order) h
  · apply Reachable.invariant_of_traced _ ?_ ?_ h
    · intro c d _ ht hc _ hm
      exact hc.move ht hm
    · exact ⟨fun i => Once.start _ rfl, fun i => Once.start _ rfl, by simp, each_nil⟩

omit [DecidableEq ι] [DecidableEq κ] [DecidableEq W] [Order O] in
/-- Whoever waits has joined. -/
theorem World.Waits.joined {w : World ι κ W S O} (hw : Coherent C w) {i : ι} (hi : w.Waits i) :
    Joined i (w, (.empty : Hand ι S)) := by
  obtain ⟨p, x, hmem⟩ := hi
  exact Or.inl ((hw.linked i).mp (mem_ids_of_mem hmem))

/-- From one state of a run to a later one, every waiter that is still there has moved up one place
for each fair request granted in between, but for those that the order sent to the front. -/
def OvertakenByFronts (C : Closeability) (w : World ι κ W S O) : Prop :=
  ∀ acts w', Transition.exec (step C) w acts = some w' → ∀ i, w.Waits i → w'.Waits i →
    turns w.log (w.since w') + w'.ahead i ≤ w.ahead i + fronts (w.since w')

theorem Reachable.overtaken {state : S} {order : O} {w : World ι κ W S O}
    (h : Reachable C state order w) : OvertakenByFronts C w := by
  intro acts w' hexec i hi hi'
  have hw := Reachable.settled h
  obtain ⟨htraced, hposted⟩ := Reachable.posted h
  have hend : Traced C (w', (.empty : Hand ι S)) ∧ Posted (w', (.empty : Hand ι S)) ∧
      Joined i (w', (.empty : Hand ι S)) ∧ Behind i w.log (w.ahead i) (w', .empty) := by
    refine Settled.exec_invariant
      (fun c => Traced C c ∧ Posted c ∧ Joined i c ∧ Behind i w.log (w.ahead i) c)
      (fun _ => True) ?_ hw (fun _ _ => trivial) hexec ⟨htraced, hposted, hi.joined hw.coherent, ?_⟩
    · intro c d hcoh hc own _ hm
      obtain ⟨ht, hp, hj, hbehind⟩ := hc
      exact ⟨ht.move hcoh hm, hp.move ht hm, hj.move hm, hbehind.move hcoh ht hp hj hm⟩
    · exact ⟨[], by simp, fun _ => by simp [turns, fronts, Hand.credit]⟩
  obtain ⟨es, hes, hbound⟩ := hend.2.2.2
  rw [World.since_of_log hes]
  exact hbound hi'

/-- Nothing is ever taken out of the history. -/
theorem Settled.log_grows {w w' : World ι κ W S O} (hw : Settled C w)
    {acts : List (Action ι κ W S)} (hexec : Transition.exec (FlagBearer.step C) w acts = some w') :
    ∃ es, w'.log = w.log ++ es := by
  apply Settled.exec_invariant (fun c => ∃ es, c.1.log = w.log ++ es) (fun _ => True) ?_ hw
    (fun _ _ => trivial) hexec ⟨[], (List.append_nil _).symm⟩
  rintro c d _ ⟨es, hes⟩ own _ hm
  obtain ⟨es', hes'⟩ := hm.log_grows
  exact ⟨es ++ es', by rw [hes', hes, List.append_assoc]⟩

/-- An order that sends everybody to the back has sent nobody to the front. -/
theorem fronts_of_back {order : O} (hback : Decides order fun _ => false) {state : S}
    {w : World ι κ W S O} (h : Reachable C state order w) : fronts w.log = 0 := by
  apply List.countP_eq_zero.mpr
  intro e he hfront
  obtain ⟨past, rest, hlog⟩ := List.append_of_mem he
  have hanswered := each_iff.mp (Reachable.answered hback h) past e rest hlog
  cases e with
  | consulted j n res =>
    obtain ⟨-, rfl⟩ := hanswered
    cases hfront
  | _ => cases hfront

/-- **Overtaking is bounded** under every order: between two states of a run, the fair requests
granted while a waiter waits are at most those that stood ahead of it and those that the order has
sent to the front since. With FIFO order the latter are none, so a waiter for which nobody stands
ahead is the next to be granted. -/
theorem overtaking_bounded (C : Closeability) (state : S) :
    (∀ (O : Type) [Order O] (order : O) (w : World ι κ W S O), Reachable C state order w →
      OvertakenByFronts C w) ∧
    ∀ w : World ι κ W S FairOrder, Reachable C state .fifo w → ∀ acts w',
      Transition.exec (step C) w acts = some w' → ∀ i, w.Waits i → w'.Waits i →
        turns w.log (w.since w') + w'.ahead i ≤ w.ahead i := by
  constructor
  · intro O _ order w h
    exact Reachable.overtaken h
  · intro w h acts w' hexec i hi hi'
    have hback : Decides FairOrder.fifo fun _ => false := fun _ => rfl
    have hbound := Reachable.overtaken h acts w' hexec i hi hi'
    have hnone : fronts (w.since w') = 0 := by
      obtain ⟨es, hes⟩ := (Reachable.settled h).log_grows hexec
      have hall := fronts_of_back hback (h.exec hexec)
      rw [hes, fronts_append] at hall
      rw [World.since_of_log hes]
      omega
    omega

/-- Three waiters, and permits for the first two. -/
theorem overtaking_bounded_of_three :
    ∃ w : World Nat Nat Nat SemaphoreCounter FairOrder,
      run .uncloseable ⟨0⟩ .fifo [.acquire 0 (1 : Nat), .poll 0 7 .quiet, .acquire 1 (1 : Nat),
        .poll 1 8 .quiet, .acquire 2 (3 : Nat), .poll 2 9 .quiet] = some w ∧
      ∀ acts w', Transition.exec (step .uncloseable) w acts = some w' → ∀ i, w.Waits i →
        w'.Waits i → turns w.log (w.since w') + w'.ahead i ≤ w.ahead i :=
  exists_run _ rfl (overtaking_bounded .uncloseable (⟨0⟩ : SemaphoreCounter)).2

end FlagBearer
