import FlagBearer.Queue.Move

/-!
# Coherence of the List, the Futures and the Flags

The joint invariant under which the `unsafe` blocks of the queue are justified. It relates
the list, the node of every `Acquire`, the counter and the two flags, and every move
preserves it.
-/

namespace FlagBearer

open PinList

variable {ι κ W S O : Type} [SemaphoreState S]

/-- The list is discarded only after closing, only closeable queues close, `len` counts the
list, and a node is linked exactly if it is in the list. -/
structure Coherent (C : Closeability) (w : World ι κ W S O) : Prop where
  nodup : (ids w.inner.entries).Nodup
  linked : ∀ i, i ∈ ids w.inner.entries ↔ w.slots i = .live ⟨.linked, none⟩
  asked : ∀ i a, w.slots i = .live a → a.node ≠ .initial → a.params = none
  len : w.inner.len = w.inner.entries.length
  discarded : w.inner.isOk = false → w.inner.closed = true
  closeable : w.inner.closed = true → C.CLOSE = true

section Facts

variable {C : Closeability} {w : World ι κ W S O}

theorem Coherent.slot_of_split (hw : Coherent C w) {before after : WaitList ι W S} {i : ι}
    {data : Protected W S} (hq : w.inner.queue = .ok (before ++ (i, data) :: after)) :
    w.slots i = .live ⟨.linked, none⟩ := by
  apply (hw.linked i).mp
  rw [QueueState.entries_of_queue hq]
  simp

theorem Coherent.slot_of_cons (hw : Coherent C w) {after : WaitList ι W S} {i : ι}
    {data : Protected W S} (hq : w.inner.queue = .ok ((i, data) :: after)) :
    w.slots i = .live ⟨.linked, none⟩ := by
  apply (hw.linked i).mp
  rw [QueueState.entries_of_queue hq]
  simp

theorem Coherent.nodup_of_queue (hw : Coherent C w) {queue : WaitList ι W S}
    (hq : w.inner.queue = .ok queue) : (ids queue).Nodup := by
  have h := hw.nodup
  rwa [QueueState.entries_of_queue hq] at h

theorem Coherent.len_of_queue (hw : Coherent C w) {queue : WaitList ι W S}
    (hq : w.inner.queue = .ok queue) : w.inner.len = queue.length := by
  have h := hw.len
  rwa [QueueState.entries_of_queue hq] at h

/-- A queue that is not closing still has its list. -/
theorem Coherent.isOk_of_open (hw : Coherent C w) (h : w.inner.closing C = false) :
    w.inner.isOk = true := by
  cases hok : w.inner.isOk with
  | true => rfl
  | false =>
    -- without a list the queue is closed, and then closing
    have hclosed := hw.discarded hok
    have hC := hw.closeable hclosed
    simp [QueueState.closing, hclosed, hC] at h

/-- An open queue has its list. -/
theorem Coherent.queue_of_open (hw : Coherent C w) (h : w.inner.closing C = false) :
    ∃ queue, w.inner.queue = .ok queue := by
  have hok := hw.isOk_of_open h
  rcases hq : w.inner.queue with _ | queue
  · simp [QueueState.isOk, hq] at hok
  · exact ⟨queue, rfl⟩

end Facts

/-! ## The effect of a removal -/

/-- Taking one node out of the list and out of the linked state preserves coherence. -/
theorem Coherent.unlink [DecidableEq ι]
    {C : Closeability} {w w' : World ι κ W S O} (hw : Coherent C w)
    {before after : WaitList ι W S} {i : ι} {data : Protected W S} {x : Slot S}
    (hq : w.inner.queue = .ok (before ++ (i, data) :: after))
    (hq' : w'.inner.queue = .ok (before ++ after)) (hlen : w'.inner.len = w.inner.len - 1)
    (hslots : w'.slots = Function.update w.slots i x) (hx : x ≠ .live ⟨.linked, none⟩)
    (hasked : ∀ a, x = .live a → a.params = none)
    (hclosed : w'.inner.closed = w.inner.closed) : Coherent C w' := by
  have hnodup := hw.nodup_of_queue hq
  obtain ⟨hbefore, hafter⟩ := not_mem_of_split hnodup
  have hentries : w'.inner.entries = before ++ after := QueueState.entries_of_queue hq'
  constructor
  case nodup =>
    rw [hentries]
    exact nodup_of_split hnodup
  case linked =>
    intro j
    rw [hentries, hslots]
    by_cases hj : j = i
    · -- the node that leaves
      subst hj
      simp [hbefore, hafter, hx]
    · have hlinked := hw.linked j
      rw [QueueState.entries_of_queue hq] at hlinked
      rw [Function.update_of_ne hj, ← hlinked]
      simp [hj]
  case asked =>
    intro j a ha hne
    rw [hslots] at ha
    by_cases hj : j = i
    · subst hj
      exact hasked a (by simpa using ha)
    · rw [Function.update_of_ne hj] at ha
      exact hw.asked j a ha hne
  case len =>
    rw [hlen, hentries, hw.len_of_queue hq]
    -- the list is not empty before, so the subtraction does not stop at zero
    simp only [List.length_append, List.length_cons]
    omega
  case discarded =>
    intro hok
    simp [QueueState.isOk, hq'] at hok
  case closeable =>
    rw [hclosed]
    exact hw.closeable

/-- Changing the data of one node preserves coherence. -/
theorem Coherent.replace {C : Closeability} {w w' : World ι κ W S O} (hw : Coherent C w)
    {before after : WaitList ι W S} {i : ι} {data data' : Protected W S}
    (hq : w.inner.queue = .ok (before ++ (i, data) :: after))
    (hq' : w'.inner.queue = .ok (before ++ (i, data') :: after))
    (hlen : w'.inner.len = w.inner.len) (hslots : w'.slots = w.slots)
    (hclosed : w'.inner.closed = w.inner.closed) : Coherent C w' := by
  have hids : ids w'.inner.entries = ids w.inner.entries := by
    rw [QueueState.entries_of_queue hq, QueueState.entries_of_queue hq']
    exact ids_replace before after i data' data
  constructor
  case nodup =>
    rw [hids]
    exact hw.nodup
  case linked =>
    rw [hids, hslots]
    exact hw.linked
  case asked =>
    rw [hslots]
    exact hw.asked
  case len =>
    rw [hlen, ← length_ids, hids, length_ids]
    exact hw.len
  case discarded =>
    intro hok
    simp [QueueState.isOk, hq'] at hok
  case closeable =>
    rw [hclosed]
    exact hw.closeable

/-- A move that leaves the list alone and neither links nor unlinks a node preserves
coherence. -/
theorem Coherent.frame {C : Closeability} {w w' : World ι κ W S O} (hw : Coherent C w)
    (hq : w'.inner.queue = w.inner.queue) (hlen : w'.inner.len = w.inner.len)
    (hclosed : w'.inner.closed = w.inner.closed)
    (hslots : ∀ i, w'.slots i = w.slots i ∨
      (∀ b, w.slots i ≠ .live ⟨.linked, b⟩) ∧ ∀ a, w'.slots i = .live a → a.node = .initial) :
    Coherent C w' := by
  have hentries : w'.inner.entries = w.inner.entries := by
    simp only [QueueState.entries, hq]
  constructor
  case nodup =>
    rw [hentries]
    exact hw.nodup
  case linked =>
    intro i
    rw [hentries, hw.linked i]
    -- the slot is as it was, or was not linked and is not linked now
    rcases hslots i with heq | ⟨hold, hnew⟩
    · rw [heq]
    · constructor
      · intro h
        exact absurd h (hold none)
      · intro h
        exact absurd (hnew _ h) (by simp)
  case asked =>
    intro i a ha hne
    rcases hslots i with heq | ⟨-, hnew⟩
    · exact hw.asked i a (heq ▸ ha) hne
    · exact absurd (hnew a ha) hne
  case len =>
    rw [hlen, hentries]
    exact hw.len
  case discarded =>
    simp only [QueueState.isOk, hq, hclosed]
    exact hw.discarded
  case closeable =>
    rw [hclosed]
    exact hw.closeable

/-- A move that touches neither the list nor the futures preserves coherence. -/
theorem Coherent.frame_inner {C : Closeability} {w w' : World ι κ W S O} (hw : Coherent C w)
    (hq : w'.inner.queue = w.inner.queue) (hlen : w'.inner.len = w.inner.len)
    (hclosed : w'.inner.closed = w.inner.closed) (hslots : w'.slots = w.slots) :
    Coherent C w' :=
  hw.frame hq hlen hclosed fun i => Or.inl (congrFun hslots i)

variable [DecidableEq ι]

/-- Changing the slot of one request that is not linked, and does not become so. -/
theorem Coherent.setSlot {C : Closeability} {w w' : World ι κ W S O} (hw : Coherent C w)
    {i : ι} {x : Slot S} (hinner : w'.inner = w.inner)
    (hslots : w'.slots = Function.update w.slots i x)
    (hold : ∀ b, w.slots i ≠ .live ⟨.linked, b⟩) (hnew : ∀ a, x = .live a → a.node = .initial) :
    Coherent C w' := by
  apply hw.frame (by rw [hinner]) (by rw [hinner]) (by rw [hinner])
  intro j
  rw [hslots]
  by_cases hj : j = i
  · subst hj
    exact Or.inr ⟨hold, by simpa using hnew⟩
  · exact Or.inl (Function.update_of_ne hj _ _)

/-! ## Every move preserves coherence -/

theorem Coherent.link {C : Closeability} {w w' : World ι κ W S O} (hw : Coherent C w) {i : ι}
    {data : Protected W S} {queue : WaitList ι W S} {front : Bool}
    (hq : w.inner.queue = .ok queue) (hi : w.slots i = .live ⟨.initial, none⟩)
    (hq' : w'.inner.queue =
      .ok (if front then queue.pushFront i data else queue.pushBack i data))
    (hlen : w'.inner.len = w.inner.len + 1)
    (hslots : w'.slots = Function.update w.slots i (.live ⟨.linked, none⟩))
    (hclosed : w'.inner.closed = w.inner.closed) : Coherent C w' := by
  have hentries := QueueState.entries_of_queue hq
  have hentries' := QueueState.entries_of_queue hq'
  -- an initial node is not in the list, so nothing is doubled
  have hnot : i ∉ ids queue := by
    intro hmem
    have h := (hw.linked i).mp (hentries ▸ hmem)
    simp [hi] at h
  have hnodup := hw.nodup_of_queue hq
  constructor
  case nodup =>
    rw [hentries']
    cases front
    · simp only [pushBack, Bool.false_eq_true, if_false, ids_append, ids_cons, ids_nil,
        List.nodup_append, hnodup, List.nodup_singleton, List.mem_singleton, true_and]
      intro j hj k hk hjk
      subst hk hjk
      exact hnot hj
    · simpa [pushFront, hnodup] using hnot
  case linked =>
    intro j
    rw [hentries', hslots]
    by_cases hj : j = i
    · -- the node that joins
      subst hj
      cases front <;> simp [pushBack, pushFront]
    · have hlinked := hw.linked j
      rw [hentries] at hlinked
      rw [Function.update_of_ne hj, ← hlinked]
      cases front <;> simp [pushBack, pushFront, hj]
  case asked =>
    intro j a ha hne
    rw [hslots] at ha
    by_cases hj : j = i
    · subst hj
      simp only [Function.update_self, Slot.live.injEq] at ha
      rw [← ha]
    · rw [Function.update_of_ne hj] at ha
      exact hw.asked j a ha hne
  case len =>
    rw [hlen, hentries', hw.len_of_queue hq]
    cases front <;> simp [pushBack, pushFront]
  case discarded =>
    intro hok
    simp [QueueState.isOk, hq'] at hok
  case closeable =>
    rw [hclosed]
    exact hw.closeable

variable [DecidableEq κ] [Order O]

/-- **Every move preserves coherence.** -/
theorem Coherent.move {C : Closeability} {own : Option ι} {c d : Conf ι κ W S O}
    (hc : Coherent C c.1) (h : Move C own c d) : Coherent C d.1 := by
  cases h with
  -- neither the list nor a future changes
  | lock | unlock | note | pollPanic | wake | finish | begin | turn | takeGuard | takePermit
    | deliver | deliverTry | reject | giveBack | consult | consultPanic | refuseNow | grantNow
    | loseNow | update | release | clearPoison =>
    exact hc.frame_inner rfl rfl rfl rfl
  -- a future that is not linked changes
  | create w i p hi =>
    exact hc.setSlot rfl rfl (by simp [hi]) (by simp)
  | conjure w i r hi =>
    exact hc.setSlot rfl rfl (by simp [hi]) (by simp)
  | ask w i p hi =>
    exact hc.setSlot rfl rfl (by simp [hi]) (by simp)
  | askTry w i p hi =>
    exact hc.setSlot rfl rfl (by simp [hi]) (by simp)
  | cancelInitial w i params hi =>
    exact hc.setSlot rfl rfl (by simp [hi]) (by simp)
  | claim w i r hi =>
    exact hc.setSlot rfl rfl (by simp [hi]) (by simp)
  | claimError w i params hi =>
    exact hc.setSlot rfl rfl (by simp [hi]) (by simp)
  | cancelGranted w i r hi =>
    exact hc.setSlot rfl rfl (by simp [hi]) (by simp)
  | cancelRefused w k i params c hi hk =>
    exact hc.setSlot rfl rfl (by simp [hi]) (by simp)
  -- a node joins or leaves the list
  | link w i p cx front queue hopen hq hi =>
    exact hc.link hq hi rfl rfl rfl rfl
  | grant w h k i p x r state before after c wakes hopen hq hdead hi hk hkind hpush hacq =>
    exact hc.unlink hq rfl rfl rfl (by simp) (by simp) rfl
  | expel w h k i params x rest c wakes hclosed hq hi hk hkind hpush =>
    have hsplit : w.inner.queue = .ok ([] ++ (i, params, x) :: rest) := hq
    exact hc.unlink hsplit rfl rfl rfl (by simp) (by simp) rfl
  | unlinkSelf w i params x before after hclosing hq hi =>
    exact hc.unlink hq rfl rfl rfl (by simp) (by simp) rfl
  | cancelLinked w k i params x before after c hq hi hk =>
    exact hc.unlink hq rfl rfl rfl (by simp) (by simp) rfl
  -- the data of a node changes
  | refuse w h i p p' x state before after hopen hq hdead hacq =>
    exact hc.replace hq rfl rfl rfl rfl
  | lose w h i p x state before after hopen hq hdead hacq =>
    exact hc.replace hq rfl rfl rfl rfl
  | rewake w i params x cx before after res hq hres =>
    exact hc.replace hq rfl rfl rfl rfl
  -- the flags change
  | setClosed w h hC =>
    exact ⟨hc.nodup, hc.linked, hc.asked, hc.len, fun _ => rfl, fun _ => hC⟩
  | discard w h hclosed hq =>
    have hnil : w.inner.entries = [] := QueueState.entries_of_queue hq
    refine ⟨List.nodup_nil, ?_, hc.asked, ?_, fun _ => hclosed, hc.closeable⟩
    · intro i
      -- an empty list has no linked node
      have hi := hc.linked i
      rw [hnil] at hi
      exact hi
    · have hlen := hc.len
      rw [hnil] at hlen
      exact hlen

/-- Any number of moves preserves coherence. -/
theorem Coherent.moves {C : Closeability} {own : Option ι} {c d : Conf ι κ W S O}
    (hc : Coherent C c.1) (h : Moves C own c d) : Coherent C d.1 :=
  Transition.invariant_of_moves (fun e => Coherent C e.1) (fun _ _ hc hm => hc.move hm) h hc

end FlagBearer
