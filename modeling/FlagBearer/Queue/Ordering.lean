import FlagBearer.Lib.Precedence
import FlagBearer.Queue.Placement
import FlagBearer.Queue.Wakes

/-!
# Grants Respect the Order

The list records every decision of the order: a request that was sent to the back stands
behind all those that were queued when it arrived, one that was sent to the front stands
before them, whatever is removed in between. Since only the first live node is granted, and a
newcomer only ahead of a list that it may overtake, grants follow the decisions.

Everything here follows from the history alone, by induction on it.

## Main results

- `place_of_placed`: the list records the decisions
- `grants_respect_order`: the statement about runs
-/

namespace FlagBearer

open PinList History

variable {ι κ W S O : Type} [DecidableEq ι] [SemaphoreState S] {C : Closeability}

/-! ## The names in the list -/

/-- The requests whose nodes are linked after these events, from front to back. -/
def queued (log : List (Event ι κ W S)) : List ι := ids (replay log)

/-- An event adds one name at an end of the list, or keeps some of the names. -/
theorem Event.ids_replay (e : Event ι κ W S) (l : PinList ι Bool) :
    (∃ i x front, e = .linked i x front) ∨
      ∃ kept : ι → Bool, ids (e.replay l) = (ids l).filter kept := by
  have all : ∃ kept : ι → Bool, ids l = (ids l).filter kept := ⟨fun _ => true, by simp⟩
  cases e with
  | linked i x front => exact Or.inl ⟨i, x, front, rfl⟩
  | removed k kind i x => exact Or.inr ⟨fun j => j ≠ i, ids_remove l i⟩
  | unlinked i => exact Or.inr ⟨fun j => j ≠ i, ids_remove l i⟩
  | cancelled i => exact Or.inr ⟨fun j => j ≠ i, ids_remove l i⟩
  | acquired i p res =>
    cases res with
    | returned res => exact Or.inr all
    | panicked => exact Or.inr ⟨fun _ => true, by simp [Event.replay, ids_setProtected]⟩
  | _ => exact Or.inr all

theorem queued_linked (log : List (Event ι κ W S)) (i : ι) (x : W) (front : Bool) :
    queued (log ++ [.linked i x front]) = if front then i :: queued log else queued log ++ [i] := by
  cases front <;> simp [queued, Event.replay, pushFront, pushBack]

/-- The names after one more event. -/
theorem queued_snoc (log : List (Event ι κ W S)) (e : Event ι κ W S) :
    (∃ i x front, e = .linked i x front) ∨
      ∃ kept : ι → Bool, queued (log ++ [e]) = (queued log).filter kept := by
  simpa [queued] using e.ids_replay (replay log)

/-- Only a request that joined is in the list. -/
theorem joined_of_queued {log : List (Event ι κ W S)} {i : ι} (hi : i ∈ queued log) :
    i ∈ joins log := by
  induction log using List.reverseRecOn with
  | nil => cases hi
  | append_singleton log e ih =>
    rw [joins_append]
    rcases queued_snoc log e with ⟨j, x, front, rfl⟩ | ⟨kept, hkept⟩
    · -- the event itself may be the join
      rw [queued_linked] at hi
      have hor : i = j ∨ i ∈ queued log := by
        cases front
        · simpa [or_comm] using hi
        · simpa using hi
      rcases hor with rfl | hold
      · simp [joins, Event.joined?]
      · exact List.mem_append_left _ (ih hold)
    · rw [hkept] at hi
      exact List.mem_append_left _ (ih (List.mem_filter.mp hi).1)

section Placed

variable {log : List (Event ι κ W S)}

theorem queued_nodup (h : Each Placed log) : (queued log).Nodup := by
  induction log using List.reverseRecOn with
  | nil => exact List.nodup_nil
  | append_singleton log e ih =>
    obtain ⟨hold, he⟩ := each_snoc.mp h
    rcases queued_snoc log e with ⟨i, x, front, rfl⟩ | ⟨kept, hkept⟩
    · -- whoever joins has not joined before
      have hnot : i ∉ queued log := fun hi => he.1 (joined_of_queued hi)
      rw [queued_linked]
      cases front with
      | true => exact List.nodup_cons.mpr ⟨hnot, ih hold⟩
      | false =>
        simp only [Bool.false_eq_true, if_false]
        apply List.nodup_append.mpr
        refine ⟨ih hold, List.nodup_singleton i, ?_⟩
        intro j hj j' hj' heq
        rw [List.mem_singleton.mp hj'] at heq
        exact hnot (heq ▸ hj)
    · rw [hkept]
      exact (ih hold).filter _

/-! ## Decisions -/

omit [DecidableEq ι] in
theorem latest_mem_decisions {i : ι} {front : Bool}
    (h : latest Event.decision? log = some (i, front)) : (i, front) ∈ decisions log :=
  List.mem_of_getLast? h

omit [DecidableEq ι] in
/-- The decisions after one more event. -/
theorem decisions_snoc (log : List (Event ι κ W S)) (e : Event ι κ W S) :
    decisions (log ++ [e]) = decisions log ∨
      ∃ i n front, e = .consulted i n (.returned front) ∧
        decisions (log ++ [e]) = decisions log ++ [(i, front)] := by
  rw [decisions_append]
  cases e with
  | consulted i n res =>
    cases res with
    | returned front => exact Or.inr ⟨i, n, front, rfl, rfl⟩
    | panicked => exact Or.inl (List.append_nil _)
  | _ => exact Or.inl (List.append_nil _)

/-- There is one decision for each request. -/
theorem decisions_unique (h : Each Placed log) {i : ι} {front front' : Bool}
    (hi : (i, front) ∈ decisions log) (hi' : (i, front') ∈ decisions log) : front = front' := by
  induction log using List.reverseRecOn with
  | nil => cases hi
  | append_singleton log e ih =>
    obtain ⟨hold, he⟩ := each_snoc.mp h
    rcases decisions_snoc log e with hsame | ⟨j, n, front₀, rfl, hnew⟩
    · rw [hsame] at hi hi'
      exact ih hold hi hi'
    · -- the request has no earlier decision
      rw [hnew, List.mem_append, List.mem_singleton] at hi hi'
      rcases hi with hi | heq
      · rcases hi' with hi' | heq'
        · exact ih hold hi hi'
        · cases heq'
          exact absurd hi (he.2 _)
      · cases heq
        rcases hi' with hi' | heq'
        · exact absurd hi' (he.2 _)
        · cases heq'
          rfl

/-! ## The list records the decisions -/

/-- Where `b` stands relative to `a`: in front of it or behind it. -/
def Sides (l : List ι) (a b : ι) : Bool → Prop
  | true => Precedes l b a
  | false => Precedes l a b

omit [DecidableEq ι] in
theorem Sides.mono {l l' : List ι} {a b : ι} {front : Bool} (h : Sides l a b front)
    (hl : l.Sublist l') : Sides l' a b front := by
  cases front <;> exact Precedes.mono h hl

omit [DecidableEq ι] in
theorem Sides.filter {l : List ι} {a b : ι} {front : Bool} (h : Sides l a b front)
    {p : ι → Bool} (ha : p a = true) (hb : p b = true) : Sides (l.filter p) a b front := by
  cases front
  · exact Precedes.filter h ha hb
  · exact Precedes.filter h hb ha

theorem joins_split (pre mid : List (Event ι κ W S)) (e : Event ι κ W S) {i : ι}
    (hi : i ∈ queued pre) : i ∈ joins (pre ++ e :: mid) := by
  rw [joins_append]
  exact List.mem_append_left _ (joined_of_queued hi)

/-- **The list records the decisions**: as long as both are queued, a request stands in front
of those that were queued when the order sent it to the front, and behind them if the order
sent it to the back. -/
theorem place_of_placed (h : Each Placed log) {pre mid : List (Event ι κ W S)} {i j : ι} {n : Nat}
    {front : Bool} (hlog : log = pre ++ .consulted j n (.returned front) :: mid)
    (hpre : i ∈ queued pre) (hi : i ∈ queued log) (hj : j ∈ queued log) :
    Sides (queued log) i j front := by
  induction log using List.reverseRecOn generalizing mid with
  | nil => cases hi
  | append_singleton log e ih =>
    obtain ⟨hold, he⟩ := each_snoc.mp h
    rcases List.eq_nil_or_concat mid with rfl | ⟨mid, e', rfl⟩
    · -- at the decision itself, the request has not joined yet
      obtain ⟨rfl, hevent⟩ := List.append_inj' hlog rfl
      cases hevent
      have hj' : j ∈ queued log := by simpa [queued, Event.replay] using hj
      exact absurd (joined_of_queued hj') he.1
    · have hsplit : log ++ [e] = (pre ++ .consulted j n (.returned front) :: mid) ++ [e'] := by
        simpa using hlog
      obtain ⟨hprev, hevent⟩ := List.append_inj' hsplit rfl
      cases hevent
      have ihere := fun hi hj => ih hold hprev hi hj
      rcases queued_snoc log e with ⟨k, x, front', rfl⟩ | ⟨kept, hkept⟩
      · -- a node joins, and `i` is not that one
        have hne : i ≠ k := by
          intro hik
          subst hik
          exact he.1 (hprev ▸ joins_split pre mid _ hpre)
        rw [queued_linked] at hi hj ⊢
        have hi' : i ∈ queued log := by
          cases front' <;> simpa [hne] using hi
        by_cases hjk : j = k
        · -- `j` itself: the end was chosen by the same decision
          subst hjk
          have hdecided : (j, front) ∈ decisions log := by simp [hprev, decisions, Event.decision?]
          have hsame := decisions_unique hold (latest_mem_decisions he.2) hdecided
          subst hsame
          cases front'
          · exact precedes_append hi' (List.mem_singleton_self j)
          · exact precedes_cons hi'
        · have hj' : j ∈ queued log := by
            cases front' <;> simpa [hjk] using hj
          apply (ihere hi' hj').mono
          cases front'
          · exact List.sublist_append_left _ _
          · exact List.sublist_cons_self _ _
      · -- nodes leave, and neither `i` nor `j` is among them
        rw [hkept] at hi hj ⊢
        obtain ⟨hi, hki⟩ := List.mem_filter.mp hi
        obtain ⟨hj, hkj⟩ := List.mem_filter.mp hj
        exact (ihere hi hj).filter hki hkj

/-! ## Grants -/

/-- A live node that the leading one precedes. -/
theorem Leading.precedes {i j : ι} (h : Leading j (replay log)) (hi : (i, true) ∈ replay log)
    (hne : i ≠ j) : Precedes (queued log) j i := by
  obtain ⟨before, after, hsplit, hdead⟩ := h
  rw [hsplit] at hi
  have hafter : (i, true) ∈ after := by
    rcases List.mem_append.mp hi with hbefore | hrest
    · exact absurd (hdead _ hbefore) (by simp)
    · rcases List.mem_cons.mp hrest with heq | hafter
      · exact absurd (Prod.mk.inj heq).1 hne
      · exact hafter
  have hnames : queued log = ids before ++ j :: ids after := by simp [queued, hsplit]
  rw [hnames]
  exact (precedes_cons (mem_ids_of_mem hafter)).mono (List.sublist_append_right _ _)

theorem ne_of_mem_queued (h : Each Placed log) {pre mid : List (Event ι κ W S)} {i j : ι} {n : Nat}
    {front : Bool} (hlog : log = pre ++ .consulted j n (.returned front) :: mid)
    (hi : i ∈ queued pre) : i ≠ j := by
  intro hij
  subst hij
  exact (each_iff.mp h pre _ mid hlog).1 (joined_of_queued hi)

/-- A request that was sent to the back is not granted before a waiter that was there. -/
theorem not_granted_behind (h : Each Placed log) {pre mid : List (Event ι κ W S)} {i j : ι}
    {n : Nat} (hlog : log = pre ++ .consulted j n (.returned false) :: mid)
    (hpre : (i, true) ∈ replay pre) (hi : (i, true) ∈ replay log)
    (hgrant : Leading j (replay log) ∨ Arriving log j) : False := by
  have hi' : i ∈ queued log := mem_ids_of_mem hi
  rcases hgrant with hleading | ⟨-, hunasked | ⟨front, hlatest, hempty⟩⟩
  · -- from the list: the waiter stands in front of it
    have hne := ne_of_mem_queued h hlog (mem_ids_of_mem hpre)
    have hji := hleading.precedes hi hne
    have hij : Sides (queued log) i j false :=
      place_of_placed h hlog (mem_ids_of_mem hpre) hi' hji.mem_left
    exact precedes_asymm (queued_nodup h) hij hji
  · -- the order was consulted for it
    exact hunasked false (by simp [hlog, decisions, Event.decision?])
  · -- on arrival: only ahead of an empty list
    have hdecided : (j, false) ∈ decisions log := by simp [hlog, decisions, Event.decision?]
    rw [hempty (decisions_unique h (latest_mem_decisions hlatest) hdecided)] at hi
    cases hi

/-- A waiter is not granted before a request that was sent in front of it. -/
theorem not_granted_overtaken (h : Each Placed log) {pre mid : List (Event ι κ W S)} {i j : ι}
    {n : Nat} (hlog : log = pre ++ .consulted j n (.returned true) :: mid)
    (hpre : (i, true) ∈ replay pre) (hj : (j, true) ∈ replay log)
    (hgrant : Leading i (replay log) ∨ Arriving log i) : False := by
  have hne := ne_of_mem_queued h hlog (mem_ids_of_mem hpre)
  rcases hgrant with hleading | ⟨hunjoined, -⟩
  · -- from the list: the newcomer stands in front of it
    have hij := hleading.precedes hj hne.symm
    have hji : Sides (queued log) i j true :=
      place_of_placed h hlog (mem_ids_of_mem hpre) hij.mem_left (mem_ids_of_mem hj)
    exact precedes_asymm (queued_nodup h) hij hji
  · -- it joined before, so it is not arriving
    exact hunjoined (hlog ▸ joins_split pre mid _ (mem_ids_of_mem hpre))

/-! ## Orders that always choose the same end -/

/-- The fair requests, in order of arrival. -/
def arrivals (log : List (Event ι κ W S)) : List ι := (decisions log).map Prod.fst

omit [DecidableEq ι] in
theorem mem_arrivals {i : ι} : i ∈ arrivals log ↔ ∃ front, (i, front) ∈ decisions log := by
  simp [arrivals]

theorem arrivals_nodup (h : Each Placed log) : (arrivals log).Nodup := by
  induction log using List.reverseRecOn with
  | nil => exact List.nodup_nil
  | append_singleton log e ih =>
    obtain ⟨hold, he⟩ := each_snoc.mp h
    unfold arrivals
    rcases decisions_snoc log e with hsame | ⟨i, n, front, rfl, hnew⟩
    · rw [hsame]
      exact ih hold
    · rw [hnew, List.map_append]
      apply List.nodup_append.mpr
      refine ⟨ih hold, List.nodup_singleton i, ?_⟩
      intro j hj j' hj' heq
      -- whoever is consulted for has not been consulted for before
      obtain ⟨front', hdecided⟩ := mem_arrivals.mp hj
      rw [heq, List.mem_singleton.mp hj'] at hdecided
      exact he.2 front' hdecided

/-- The list by age, if all nodes joined at the same end. -/
def oldestFirst (l : List ι) : Bool → List ι
  | true => l.reverse
  | false => l

omit [DecidableEq ι] in
/-- Whoever was consulted for last is the latest arrival. -/
theorem arrivals_of_latest {i : ι} {front : Bool}
    (h : latest Event.decision? log = some (i, front)) : ∃ l, arrivals log = l ++ [i] := by
  have hlast : (decisions log).getLast? = some (i, front) := h
  obtain ⟨l, hl⟩ := List.getLast?_eq_some_iff.mp hlast
  exact ⟨l.map Prod.fst, by simp [arrivals, hl]⟩

/-- The list holds the waiters by age. -/
theorem queued_sublist_arrivals (h : Each Placed log) {front : Bool}
    (hfront : ∀ d ∈ decisions log, d.2 = front) :
    (oldestFirst (queued log) front).Sublist (arrivals log) := by
  induction log using List.reverseRecOn with
  | nil => cases front <;> exact List.nil_sublist _
  | append_singleton log e ih =>
    obtain ⟨hold, he⟩ := each_snoc.mp h
    have ihere := ih hold fun d hd => hfront d (by simp [hd])
    have hgrows : (arrivals log).Sublist (arrivals (log ++ [e])) := by
      simp [arrivals]
    rcases queued_snoc log e with ⟨i, x, front', rfl⟩ | ⟨kept, hkept⟩
    · -- the newest arrival joins
      obtain ⟨l, hl⟩ := arrivals_of_latest he.2
      have hsame : front' = front := hfront (i, front') (by
        rw [decisions_append]
        exact List.mem_append_left _ (latest_mem_decisions he.2))
      subst hsame
      have hnot : i ∉ queued log := fun hi => he.1 (joined_of_queued hi)
      have hnew : oldestFirst (queued (log ++ [.linked i x front'])) front' =
          oldestFirst (queued log) front' ++ [i] := by
        rw [queued_linked]
        cases front' <;> simp [oldestFirst]
      have harrivals : arrivals (log ++ [.linked i x front']) = l ++ [i] := by
        rw [← hl]
        simp [arrivals, decisions, Event.decision?]
      rw [hnew, harrivals]
      rw [hl] at ihere
      have hnot' : i ∉ oldestFirst (queued log) front' := by
        cases front' <;> simpa [oldestFirst] using hnot
      exact List.Sublist.append (sublist_of_sublist_snoc ihere hnot') (List.Sublist.refl _)
    · -- whoever leaves the list stays an arrival
      rw [hkept]
      refine List.Sublist.trans ?_ (ihere.trans hgrows)
      cases front
      · exact List.filter_sublist
      · exact List.filter_sublist.reverse

/-- A fair request is granted before the waiters that arrived later, if all join at the back,
and before those that arrived earlier, if all join at the front. -/
theorem granted_by_age (h : Each Placed log) {front : Bool}
    (hfront : ∀ d ∈ decisions log, d.2 = front) {i j : ι} (hj : j ∈ arrivals log)
    (hi : (i, true) ∈ replay log) (hne : i ≠ j)
    (hgrant : Leading j (replay log) ∨ Arriving log j) : Sides (arrivals log) j i front := by
  have hage := queued_sublist_arrivals h hfront
  rcases hgrant with hleading | ⟨-, hunasked | ⟨front', hlatest, hempty⟩⟩
  · -- the leader stands first, and the list is sorted by age
    have hji := hleading.precedes hi hne
    cases front with
    | false => exact Precedes.mono hji hage
    | true => exact Precedes.mono hji.reverse hage
  · obtain ⟨front', hj⟩ := mem_arrivals.mp hj
    exact absurd hj (hunasked front')
  · have hsame : front' = front := hfront _ (latest_mem_decisions hlatest)
    subst hsame
    cases front' with
    | false =>
      -- sent to the back, it is granted only if nobody waits
      rw [hempty rfl] at hi
      cases hi
    | true =>
      -- the newcomer is the latest arrival
      obtain ⟨l, hl⟩ := arrivals_of_latest hlatest
      have hold : i ∈ arrivals log :=
        hage.subset (List.mem_reverse.mpr (mem_ids_of_mem hi))
      rw [hl] at hold ⊢
      have hil : i ∈ l := by simpa [hne] using hold
      exact precedes_append hil (List.mem_singleton_self j)

end Placed

/-! ## Orders without a state of their own -/

variable [DecidableEq κ] [DecidableEq W] [Order O]

/-- The order never panics or changes, and decides by the number of queued tasks. -/
def Decides (order : O) (f : Nat → Bool) : Prop :=
  ∀ n, Order.enqueueFront order n = (order, .returned (f n))

/-- Every answer is that of `f` for the number of nodes in the list. -/
def Answered (f : Nat → Bool) (past : List (Event ι κ W S)) : Event ι κ W S → Prop
  | .consulted _ n res => n = (queued past).length ∧ res = .returned (f n)
  | _ => True

/-- The order is unchanged, and so were its answers. -/
structure Steady (order : O) (f : Nat → Bool) (c : Conf ι κ W S O) : Prop where
  order : c.1.inner.order = order
  answered : Each (Answered f) c.1.log

omit [DecidableEq W] in
theorem Steady.move {order : O} {f : Nat → Bool} (hf : Decides order f) {own : Option ι}
    {c d : Conf ι κ W S O} (hc : Steady order f c) (hw : Coherent C c.1) (ht : Traced C c)
    (h : Move C own c d) : Steady order f d := by
  obtain ⟨horder, hanswered⟩ := hc
  have hlen : c.1.inner.len = (queued c.1.log).length := by
    have hreplay : replay c.1.log = standing c.1.inner.entries := ht.replayed
    rw [hw.len, queued, hreplay, ids_standing, length_ids]
  cases h with
  | note w h e he | reject w j p front e he | giveBack w j p e he =>
    cases he <;> exact ⟨horder, each_snoc.mpr ⟨hanswered, trivial⟩⟩
  | consult w j p order' front hopen hord =>
    simp only at horder
    rw [horder, hf] at hord
    cases hord
    exact ⟨rfl, each_snoc.mpr ⟨hanswered, hlen, rfl⟩⟩
  | consultPanic w j p order' hopen hord =>
    simp only at horder
    rw [horder, hf] at hord
    cases hord
  | _ =>
    refine ⟨horder, ?_⟩
    simpa [each_append, Answered, World.callRelease, World.updateState] using hanswered

/-- **A stateless order is consulted with the number of queued nodes**, in every run. -/
theorem Reachable.answered {state : S} {order : O} {f : Nat → Bool} (hf : Decides order f)
    {w : World ι κ W S O} (h : Reachable C state order w) : Each (Answered f) w.log := by
  have hsteady : Steady order f (w, (.empty : Hand ι S)) := by
    apply Reachable.invariant_of_traced _ ?_ ⟨rfl, each_nil⟩ h
    intro c d hw ht hc _ hm
    exact hc.move hf hw ht hm
  exact hsteady.answered

omit [DecidableEq κ] [DecidableEq W] in
theorem answer_of_answered {log : List (Event ι κ W S)} {f : Nat → Bool}
    (h : Each (Answered f) log) {d : ι × Bool} (hd : d ∈ decisions log) : ∃ n, d.2 = f n := by
  obtain ⟨e, he, hdecision⟩ := List.mem_filterMap.mp hd
  obtain ⟨past, rest, hlog⟩ := List.append_of_mem he
  have hanswer := each_iff.mp h past e rest hlog
  unfold Event.decision? at hdecision
  split at hdecision
  · rename_i i n front
    cases hdecision
    exact ⟨n, Unwind.returned.inj hanswer.2⟩
  · cases hdecision

/-! ## The statement about runs -/

/-- What holds of grants under any order: a request that was sent to the back is not granted
while a waiter that it found is still queued with its params; a waiter is not granted while a
request that was sent in front of it is still queued with its params; the list stands in the
order of these decisions, a drain removes the first live node and a close the first node, and each
call wakes what it removed in that order. -/
structure Ordered (w : World ι κ W S O) : Prop where
  list : replay w.log = standing w.inner.entries
  back : ∀ past j p r rest, w.log = past ++ .acquired j p (.returned (.ok r)) :: rest →
    ∀ pre n mid, past = pre ++ .consulted j n (.returned false) :: mid →
      ∀ i, (i, true) ∈ replay pre → (i, true) ∉ replay past
  front : ∀ past i p r rest, w.log = past ++ .acquired i p (.returned (.ok r)) :: rest →
    ∀ pre j n mid, past = pre ++ .consulted j n (.returned true) :: mid →
      (i, true) ∈ replay pre → (j, true) ∉ replay past
  place : ∀ pre j n front mid, w.log = pre ++ .consulted j n (.returned front) :: mid →
    ∀ i ∈ queued pre, i ∈ queued w.log → j ∈ queued w.log → Sides (queued w.log) i j front
  arrive_once : (arrivals w.log).Nodup
  in_order : Each InOrder w.log
  woken : ∀ k, wakes k w.log <+: removals k w.log

/-- Every grant to a fair request goes to the earliest arrival still waiting with its params. -/
def EarliestFirst (log : List (Event ι κ W S)) : Prop :=
  ∀ past j p r rest, log = past ++ .acquired j p (.returned (.ok r)) :: rest → j ∈ arrivals past →
    ∀ i, (i, true) ∈ replay past → i ≠ j → Precedes (arrivals past) j i

/-- Every grant to a fair request goes to the latest arrival still waiting with its params. -/
def LatestFirst (log : List (Event ι κ W S)) : Prop :=
  ∀ past j p r rest, log = past ++ .acquired j p (.returned (.ok r)) :: rest → j ∈ arrivals past →
    ∀ i, (i, true) ∈ replay past → i ≠ j → Precedes (arrivals past) i j

/-- An arrival goes ahead of all waiters already queued if these are more than `lifoAbove`,
and behind all of them otherwise. -/
def HybridPlaces (lifoAbove : Nat) (log : List (Event ι κ W S)) : Prop :=
  ∀ pre j n res mid, log = pre ++ .consulted j n res :: mid →
    n = (queued pre).length ∧ res = .returned (decide (lifoAbove < (queued pre).length)) ∧
      ∀ i ∈ queued pre, i ∈ queued log → j ∈ queued log →
        if lifoAbove < (queued pre).length then Precedes (queued log) j i
        else Precedes (queued log) i j

theorem Reachable.ordered {state : S} {order : O} {w : World ι κ W S O}
    (h : Reachable C state order w) : Ordered w := by
  have hplaced := h.placed
  refine ⟨h.replayed, ?_, ?_, ?_, arrivals_nodup hplaced, h.inOrder, ?_⟩
  · intro past j p r rest hlog pre n mid hpast i hpre hi
    have hpast' := (each_append.mp (hlog ▸ hplaced)).1
    exact not_granted_behind hpast' hpast hpre hi (each_iff.mp hplaced past _ rest hlog)
  · intro past i p r rest hlog pre j n mid hpast hpre hj
    have hpast' := (each_append.mp (hlog ▸ hplaced)).1
    exact not_granted_overtaken hpast' hpast hpre hj (each_iff.mp hplaced past _ rest hlog)
  · intro pre j n front mid hlog i hpre hi hj
    exact place_of_placed hplaced hlog hpre hi hj
  · intro k
    exact ⟨w.batch k, (h.batched k).symm⟩

/-- A grant in a run whose order always chooses the same end. -/
theorem Reachable.granted_by_age {state : S} {order : O} {front : Bool}
    (hf : Decides order fun _ => front) {w : World ι κ W S O} (h : Reachable C state order w)
    {past rest : List (Event ι κ W S)} {i j : ι} {p : Params S}
    {res : Unwind (Except (Params S) (Permit S))} (hlog : w.log = past ++ .acquired j p res :: rest)
    (hj : j ∈ arrivals past) (hi : (i, true) ∈ replay past) (hne : i ≠ j) :
    Sides (arrivals past) j i front := by
  have hplaced := h.placed
  have hpast := (each_append.mp (hlog ▸ hplaced)).1
  have hanswered := (each_append.mp (hlog ▸ Reachable.answered hf h)).1
  have hfront : ∀ d ∈ decisions past, d.2 = front := by
    intro d hd
    obtain ⟨_, hd'⟩ := answer_of_answered hanswered hd
    exact hd'
  exact FlagBearer.granted_by_age hpast hfront hj hi hne (each_iff.mp hplaced past _ rest hlog)

/-- **Grants respect the order**, whatever it is, in every run; and in particular the two
orders of `FairOrder` and `Hybrid` do what they say. -/
theorem grants_respect_order (C : Closeability) (state : S) :
    (∀ (O : Type) [Order O] (order : O) (w : World ι κ W S O),
      Reachable C state order w → Ordered w) ∧
    (∀ w : World ι κ W S FairOrder, Reachable C state .fifo w → EarliestFirst w.log) ∧
    (∀ w : World ι κ W S FairOrder, Reachable C state .lifo w → LatestFirst w.log) ∧
    ∀ lifoAbove, ∀ w : World ι κ W S Hybrid, Reachable C state ⟨lifoAbove⟩ w →
      HybridPlaces lifoAbove w.log := by
  refine ⟨?_, ?_, ?_, ?_⟩
  · intro O _ order w h
    exact Reachable.ordered h
  · intro w h past j p r rest hlog hj i hi hne
    have hf : Decides FairOrder.fifo fun _ => false := fun _ => rfl
    exact Reachable.granted_by_age hf h hlog hj hi hne
  · intro w h past j p r rest hlog hj i hi hne
    have hf : Decides FairOrder.lifo fun _ => true := fun _ => rfl
    exact Reachable.granted_by_age hf h hlog hj hi hne
  · intro lifoAbove w h pre j n res mid hlog
    -- the decision is a function of the length, which is that of the list
    have hdecides : Decides (Hybrid.mk lifoAbove) fun n => decide (lifoAbove < n) := fun _ => rfl
    have hanswered := Reachable.answered hdecides h
    obtain ⟨hn, hres⟩ := each_iff.mp hanswered pre _ mid hlog
    subst hn
    refine ⟨rfl, hres, ?_⟩
    intro i hpre hi hj
    rw [hres] at hlog
    have hside : Sides (queued w.log) i j (decide (lifoAbove < (queued pre).length)) :=
      place_of_placed (Reachable.placed h) hlog hpre hi hj
    by_cases habove : lifoAbove < (queued pre).length
    · rw [decide_eq_true habove] at hside
      rw [if_pos habove]
      exact hside
    · rw [decide_eq_false habove] at hside
      rw [if_neg habove]
      exact hside

/-- Two waiters, and permits for both: the earlier one is granted first. -/
theorem grants_respect_order_of_two :
    ∃ w : World Nat Nat Nat SemaphoreCounter FairOrder,
      run .uncloseable ⟨0⟩ .fifo [.acquire 0 (2 : Nat), .poll 0 7 .quiet, .acquire 1 (1 : Nat),
        .poll 1 8 .quiet, .withState 0 (SemaphoreCounter.add 3)] = some w ∧
      EarliestFirst w.log :=
  exists_run _ rfl (grants_respect_order .uncloseable (⟨0⟩ : SemaphoreCounter)).2.1

end FlagBearer
