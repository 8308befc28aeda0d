import FlagBearer.Lib.Tokens
import FlagBearer.Queue.Reports
import FlagBearer.Queue.Permits
import FlagBearer.Queue.Poison

/-!
# The Queue as a Custodian of Permits

To the state that it guards, a semaphore is a party that asks for permits, takes custody of
them and gives each back at most once. Whatever the waiters, wakers, policies and panics do, the
guarded state makes a run of the issuer that `S::acquire` and `S::release` are: permits are
redeemed only while they are outstanding, and nothing else happens to the state but what the
user does on purpose.

## Main results

- `Moves.trades`: what one section does to the guarded state
- `refines_issuer`: the statement about runs
- `keeps_custody`: what a state promises of its outstanding permits holds in every run
-/

namespace FlagBearer

variable {ι κ W S O : Type} [SemaphoreState S] {C : Closeability} {own : Option ι}

/-! ## The issuer -/

/-- The guarded state as an issuer of permits. A request that is turned away gets its params
back, unless they are lost in a panic. -/
def issuer (S : Type) [SemaphoreState S] :
    Tokens.Issuer S (Params S) (Permit S) (Option (Params S)) (Unwind Unit) where
  issue s p := ((SemaphoreState.acquire s p).1, served (SemaphoreState.acquire s p).2)
  redeem := SemaphoreState.release

/-- What happens to the guarded state and its permits. -/
abbrev Dealing (S : Type) [SemaphoreState S] :=
  Tokens.Label S (Params S) (Permit S) (Option (Params S)) (Unwind Unit)

/-- What the log tells of it. -/
def Event.dealing? :
    Event ι κ W S → Option (Tokens.Entry (Params S) (Permit S) (Option (Params S)) (Unwind Unit))
  | .acquired _ p res => some (.issue p (served res))
  | .released _ _ r res => some (.redeem r res)
  | .updated res => some (.adjust res)
  | .conjured _ r => some (.mint r)
  | .taken _ r => some (.burn r)
  | _ => none

/-- The calls on the guarded state and the permits made or taken by the user, in order. -/
def dealings (log : List (Event ι κ W S)) :
    List (Tokens.Entry (Params S) (Permit S) (Option (Params S)) (Unwind Unit)) :=
  log.filterMap Event.dealing?

@[simp] theorem dealings_append (log es : List (Event ι κ W S)) :
    dealings (log ++ es) = dealings log ++ dealings es := List.filterMap_append

@[simp] theorem dealings_nil : dealings ([] : List (Event ι κ W S)) = [] := rfl

theorem dealings_cons (e : Event ι κ W S) (es : List (Event ι κ W S)) :
    dealings (e :: es) = e.dealing?.toList ++ dealings es := by
  unfold dealings
  cases h : e.dealing? <;> simp [h]

theorem countP_dealings (log : List (Event ι κ W S)) :
    (dealings log).countP Tokens.Entry.ofUser = log.countP Event.ofUser := by
  induction log with
  | nil => rfl
  | cons e log ih =>
    rw [dealings_cons, List.countP_append, List.countP_cons, ih, add_comm]
    congr 1
    cases e <;> rfl

/-! ## Outstanding permits -/

variable [DecidableEq ι]

/-- The permits of the request `i` in a multiset of permits with their owners. -/
def part (i : ι) (m : Multiset (ι × Permit S)) : Multiset (Permit S) :=
  (m.filter fun e => e.1 = i).map Prod.snd

@[simp] theorem part_zero (i : ι) : part i (0 : Multiset (ι × Permit S)) = 0 := rfl

@[simp] theorem part_cons (i j : ι) (r : Permit S) (m : Multiset (ι × Permit S)) :
    part i ((j, r) ::ₘ m) = part i m + if j = i then {r} else 0 := by
  unfold part
  by_cases hij : j = i
  · simp [hij, add_comm]
  · simp [hij]

theorem mem_part {i : ι} {r : Permit S} {m : Multiset (ι × Permit S)} :
    r ∈ part i m ↔ (i, r) ∈ m := by
  simp [part]

/-- A permit of `i` that the running section holds, on the way to a guard or to `S::release`. -/
def Hand.permit? (i : ι) : Hand ι S → Multiset (Permit S)
  | .permit j r => if j = i then {r} else 0
  | .releasing _ j r => if j = i then {r} else 0
  | _ => 0

@[simp] theorem Hand.permit?_empty (i : ι) : (Hand.empty : Hand ι S).permit? i = 0 := rfl

@[simp] theorem Hand.permit?_params (i j : ι) (p : Params S) (front : Option Bool) :
    (Hand.params j p front).permit? i = 0 := rfl

@[simp] theorem Hand.permit?_returning (i j : ι) (p : Params S) :
    (Hand.returning j p).permit? i = 0 := rfl

@[simp] theorem Hand.permit?_ofParams (i j : ι) (params : Option (Params S)) :
    (Hand.ofParams j params).permit? i = 0 := by
  cases params <;> rfl

@[simp] theorem Hand.permit?_permit (i j : ι) (r : Permit S) :
    (Hand.permit j r).permit? i = if j = i then {r} else 0 := rfl

@[simp] theorem Hand.permit?_releasing (i j : ι) (who : Releaser) (r : Permit S) :
    (Hand.releasing who j r).permit? i = if j = i then {r} else 0 := rfl

/-- The permits of `i` that lie in its node, are owned by its guard, or are held by the running
section. -/
def Conf.held (i : ι) (c : Conf ι κ W S O) : Multiset (Permit S) :=
  c.1.stored i + c.1.owned i + c.2.permit? i

/-- `m` is made of the permits that requests hold. -/
def Outstanding (c : Conf ι κ W S O) (m : Multiset (ι × Permit S)) : Prop :=
  ∀ i, part i m = c.held i

theorem Outstanding.cons {c d : Conf ι κ W S O} {m : Multiset (ι × Permit S)} {j : ι}
    {r : Permit S} (hm : Outstanding c m)
    (h : ∀ i, d.held i = c.held i + if j = i then {r} else 0) : Outstanding d ((j, r) ::ₘ m) := by
  intro i
  rw [part_cons, hm i, h i]

/-- A permit that is given up was outstanding. -/
theorem Outstanding.uncons {c d : Conf ι κ W S O} {m : Multiset (ι × Permit S)} {j : ι}
    {r : Permit S} (hm : Outstanding c m)
    (h : ∀ i, c.held i = d.held i + if j = i then {r} else 0) :
    ∃ m', m = (j, r) ::ₘ m' ∧ Outstanding d m' := by
  have hmem : (j, r) ∈ m := by
    rw [← mem_part, hm j, h j]
    simp
  obtain ⟨m', rfl⟩ := Multiset.exists_cons_of_mem hmem
  refine ⟨m', rfl, fun i => ?_⟩
  have hi := hm i
  rw [part_cons, h i] at hi
  exact add_right_cancel hi

/-! ## Trades -/

/-- From `c` with the permits `m` outstanding to `d` with the permits `m'`, the guarded state
makes a run of the issuer, and the log tells its labels. -/
structure Trades (c d : Conf ι κ W S O) (m m' : Multiset (ι × Permit S))
    (ls : List (Dealing S)) : Prop where
  run : Tokens.Run (issuer S) (c.1.inner.state, m.map Prod.snd) ls
    (d.1.inner.state, m'.map Prod.snd)
  outstanding : Outstanding d m'
  told : dealings d.1.log = dealings c.1.log ++ ls.map Tokens.Label.entry

namespace Trades

variable {c d e : Conf ι κ W S O} {m m' m'' : Multiset (ι × Permit S)} {ls ls' : List (Dealing S)}

theorem trans (h : Trades c d m m' ls) (h' : Trades d e m' m'' ls') :
    Trades c e m m'' (ls ++ ls') := by
  refine ⟨h.run.append h'.run, h'.outstanding, ?_⟩
  rw [h'.told, h.told, List.map_append, List.append_assoc]

/-- Neither the state nor the permits are concerned. -/
theorem still (hm : Outstanding c m) (hstate : d.1.inner.state = c.1.inner.state)
    (hlog : dealings d.1.log = dealings c.1.log) (hheld : ∀ i, d.held i = c.held i) :
    Trades c d m m [] := by
  refine ⟨?_, fun i => by rw [hm i, hheld i], by simp [hlog]⟩
  rw [hstate]
  exact .nil _

/-- `S::acquire` returns a permit to `j`. -/
theorem granted (hm : Outstanding c m) {j : ι} {p : Params S} {r : Permit S}
    (hacq : SemaphoreState.acquire c.1.inner.state p = (d.1.inner.state, .returned (.ok r)))
    (hlog : dealings d.1.log = dealings c.1.log ++ [.issue p (.ok r)])
    (hheld : ∀ i, d.held i = c.held i + if j = i then {r} else 0) :
    Trades c d m ((j, r) ::ₘ m) [.issue p (.ok r)] := by
  refine ⟨?_, hm.cons hheld, hlog⟩
  rw [Multiset.map_cons]
  exact .one (.issued _ _ _ p r (by simp [issuer, hacq, served]))

/-- `S::acquire` refuses or unwinds. -/
theorem refused (hm : Outstanding c m) {p : Params S} {params : Option (Params S)}
    {res : Unwind (Except (Params S) (Permit S))} (hres : served res = .error params)
    (hacq : SemaphoreState.acquire c.1.inner.state p = (d.1.inner.state, res))
    (hlog : dealings d.1.log = dealings c.1.log ++ [.issue p (.error params)])
    (hheld : ∀ i, d.held i = c.held i) : Trades c d m m [.issue p (.error params)] := by
  refine ⟨?_, fun i => by rw [hm i, hheld i], hlog⟩
  exact .one (.refused _ _ _ p params (by simp [issuer, hacq, hres]))

end Trades

/-! ## Moves -/

/-- What the accounts of permits rely on. -/
structure Audited (c : Conf ι κ W S O) : Prop where
  consistent : Consistent c
  ledger : ∀ i, Ledger i c

theorem Audited.move [DecidableEq κ] [Order O]
    {c d : Conf ι κ W S O} (hc : Audited c) (h : Move C own c d) : Audited d :=
  ⟨hc.consistent.move h, fun i => (hc.ledger i).move hc.consistent h⟩

theorem Reachable.audited [DecidableEq κ] [DecidableEq W] [Order O]
    {state : S} {order : O} {w : World ι κ W S O}
    (h : Reachable C state order w) : Audited (w, (.empty : Hand ι S)) := by
  refine ⟨?_, h.ledger⟩
  intro i hi
  exact absurd hi id

/-- The slot of `j` changes, and the permit in it goes into the hand of the section, if at
all. -/
theorem Conf.held_slot {w w' : World ι κ W S O} {h h' : Hand ι S} {j : ι} {x : Slot S}
    (hslots : w'.slots = Function.update w.slots j x) (hpermits : w'.permits = w.permits)
    (hj : x.stored + h'.permit? j = (w.slots j).stored + h.permit? j)
    (hne : ∀ i, i ≠ j → h'.permit? i = h.permit? i) (i : ι) :
    Conf.held i (w', h') = Conf.held i (w, h) := by
  unfold Conf.held World.stored World.owned
  rw [hslots, hpermits]
  by_cases hij : i = j
  · subst hij
    rw [Function.update_self, add_right_comm, hj, add_right_comm]
  · rw [Function.update_of_ne hij, hne i hij]

/-- A slot changes that stores the same permit before and after. -/
theorem Trades.slot {c d : Conf ι κ W S O} {m : Multiset (ι × Permit S)} (hm : Outstanding c m)
    {j : ι} {x : Slot S} (hslots : d.1.slots = Function.update c.1.slots j x)
    (hpermits : d.1.permits = c.1.permits) (hstate : d.1.inner.state = c.1.inner.state)
    (hlog : dealings d.1.log = dealings c.1.log) (hx : x.stored = (c.1.slots j).stored)
    (hhand : ∀ i, d.2.permit? i = c.2.permit? i) : Trades c d m m [] := by
  refine .still hm hstate hlog ?_
  exact Conf.held_slot hslots hpermits (by rw [hx, hhand]) fun i _ => hhand i

/-- The permit of `j` passes between its guard and the hand of the section. -/
theorem Conf.held_guard {w w' : World ι κ W S O} {h h' : Hand ι S} {j : ι}
    {r : Option (Permit S)} (hslots : w'.slots = w.slots)
    (hpermits : w'.permits = Function.update w.permits j r)
    (hj : ↑r.toList + h'.permit? j = ↑(w.permits j).toList + h.permit? j)
    (hne : ∀ i, i ≠ j → h'.permit? i = h.permit? i) (i : ι) :
    Conf.held i (w', h') = Conf.held i (w, h) := by
  unfold Conf.held World.stored World.owned
  rw [hslots, hpermits]
  by_cases hij : i = j
  · subst hij
    rw [Function.update_self, add_assoc, hj, add_assoc]
  · rw [Function.update_of_ne hij, hne i hij]

/-- A section that holds a permit has not filled the guard yet. -/
theorem Audited.unguarded {w : World ι κ W S O} {j : ι} {r : Permit S}
    (hc : Audited (w, .permit j r)) : w.permits j = none :=
  (hc.ledger j).owned_of_carried (r := r) (by simp [Hand.carried])

omit [DecidableEq ι] in
theorem not_decided_of_unborn {w : World ι κ W S O} {j : ι} (hj : w.slots j = .unborn) :
    ¬ Decided j (w, (.empty : Hand ι S)) := by
  simp [Decided, Resolved, hj]

/-- An unused name has no guard. -/
theorem Audited.unguarded_of_unborn {w : World ι κ W S O} {j : ι} (hc : Audited (w, .empty))
    (hj : w.slots j = .unborn) : w.permits j = none :=
  (hc.ledger j).owned_of_nothing ((hc.ledger j).undecided (not_decided_of_unborn hj))

/-- **What a move does to the guarded state**: it is one dealing, or none. -/
theorem Move.trades [DecidableEq κ] [Order O]
    {c d : Conf ι κ W S O} (hc : Audited c) (h : Move C own c d)
    {m : Multiset (ι × Permit S)} (hm : Outstanding c m) : ∃ m' ls, Trades c d m m' ls := by
  cases h with
  -- `S::acquire`, on arrival or in the drain
  | grantNow w j p r front state hopen hlead hacq =>
    exact ⟨_, _, .granted (j := j) hm hacq (by simp [dealings_cons, Event.dealing?, served])
      (fun i => by simp [Conf.held, World.stored, World.owned])⟩
  | grant w h k j p x r state before after c wakes hopen hq hdead hj hk hkind hpush hacq =>
    refine ⟨_, _, .granted (j := j) hm hacq
      (by simp [dealings_cons, Event.dealing?, served]) ?_⟩
    intro i
    by_cases hij : j = i
    · subst hij
      simp only [Conf.held, World.stored, Function.update_self, Slot.stored, hj, if_true,
        World.owned, zero_add]
      ac_rfl
    · simp [Conf.held, World.stored, World.owned, hij, Ne.symm hij]
  | refuseNow w j p p' front state hopen hlead hacq =>
    exact ⟨_, _, .refused hm (by rfl) hacq (by simp [dealings_cons, Event.dealing?, served])
      (fun i => rfl)⟩
  | refuse w h j p p' x state before after hopen hq hdead hacq =>
    exact ⟨_, _, .refused hm (by rfl) hacq (by simp [dealings_cons, Event.dealing?, served])
      (fun i => rfl)⟩
  | loseNow w j p front state hopen hlead hacq =>
    exact ⟨_, _, .refused hm (by rfl) hacq (by simp [dealings_cons, Event.dealing?, served])
      (fun i => rfl)⟩
  | lose w h j p x state before after hopen hq hdead hacq =>
    exact ⟨_, _, .refused hm (by rfl) hacq (by simp [dealings_cons, Event.dealing?, served])
      (fun i => rfl)⟩
  -- `S::release`
  | release w who j r =>
    obtain ⟨m', rfl, hout⟩ := hm.uncons (j := j) (r := r) (d := ((w.callRelease who j r).1, .empty))
      (fun i => by simp [Conf.held, World.callRelease, World.stored, World.owned])
    refine ⟨m', [.redeem r (SemaphoreState.release w.inner.state r).2], ?_, hout, ?_⟩
    · rw [Multiset.map_cons]
      exact .one (.redeemed _ _ _ r _ rfl)
    · simp [World.callRelease, dealings_cons, Event.dealing?, Tokens.Label.entry]
  -- the user
  | update w h f =>
    refine ⟨m, [.adjust f (f w.inner.state).2], .one (.adjusted _ _ f), hm, ?_⟩
    simp [World.updateState, dealings_cons, Event.dealing?, Tokens.Label.entry]
  | conjure w j r hj =>
    have hnone := hc.unguarded_of_unborn hj
    refine ⟨(j, r) ::ₘ m, [.mint r], ?_, hm.cons fun i => ?_, ?_⟩
    · rw [Multiset.map_cons]
      exact .one (.minted _ _ r)
    · by_cases hij : j = i
      · subst hij
        simp [Conf.held, World.stored, World.owned, Slot.stored, hj, hnone]
      · simp [Conf.held, World.stored, World.owned, hij, Ne.symm hij]
    · simp [dealings_cons, Event.dealing?, Tokens.Label.entry]
  | takePermit w j r hj =>
    obtain ⟨m', rfl, hout⟩ := hm.uncons (j := j) (r := r)
      (d := ((w.setPermit j none).emit (.taken j r), .empty)) (fun i => by
        by_cases hij : j = i
        · subst hij
          simp [Conf.held, World.stored, World.owned, hj]
        · simp [Conf.held, World.stored, World.owned, hij, Ne.symm hij])
    refine ⟨m', [.burn r], ?_, hout, ?_⟩
    · rw [Multiset.map_cons]
      exact .one (.burned _ _ r)
    · simp [dealings_cons, Event.dealing?, Tokens.Label.entry]
  -- a permit changes hands
  | claim w j r hj =>
    refine ⟨m, [], .still hm rfl (by simp [dealings_cons, Event.dealing?]) ?_⟩
    exact Conf.held_slot rfl rfl (by simp [hj, Slot.stored])
      fun i hij => by simp [Ne.symm hij]
  | cancelGranted w j r hj =>
    refine ⟨m, [], .still hm rfl (by simp [dealings_cons, Event.dealing?]) ?_⟩
    exact Conf.held_slot rfl rfl (by simp [hj, Slot.stored])
      fun i hij => by simp [Ne.symm hij]
  | deliver w j r cx =>
    refine ⟨m, [], .still hm rfl (by simp [dealings_cons, Event.dealing?]) ?_⟩
    exact Conf.held_guard rfl rfl (by simp [hc.unguarded]) fun i hij => by simp [Ne.symm hij]
  | deliverTry w j p r =>
    refine ⟨m, [], .still hm rfl (by simp [dealings_cons, Event.dealing?]) ?_⟩
    exact Conf.held_guard rfl rfl (by simp [hc.unguarded]) fun i hij => by simp [Ne.symm hij]
  | takeGuard w j r hj =>
    refine ⟨m, [], .still hm rfl rfl ?_⟩
    exact Conf.held_guard rfl rfl (by simp [hj]) fun i hij => by simp [Ne.symm hij]
  -- a slot changes that stores no permit before or after
  | create w j p hj =>
    exact ⟨m, [], .slot hm rfl rfl rfl (by simp [dealings_cons, Event.dealing?])
      (by simp [hj, Slot.stored]) (by simp)⟩
  | ask w j p hj =>
    exact ⟨m, [], .slot hm rfl rfl rfl rfl
      (by simp [hj, Slot.stored]) (by simp)⟩
  | askTry w j p hj =>
    exact ⟨m, [], .slot hm rfl rfl rfl rfl
      (by simp [hj, Slot.stored]) (by simp)⟩
  | link w j p cx front queue hopen hq hj =>
    exact ⟨m, [], .slot hm rfl rfl rfl (by simp [dealings_cons, Event.dealing?])
      (by simp [hj, Slot.stored]) (by simp)⟩
  | expel w h k j params x rest c wakes hclosed hq hj =>
    exact ⟨m, [], .slot hm rfl rfl rfl (by simp [dealings_cons, Event.dealing?])
      (by simp [hj, Slot.stored]) (by simp)⟩
  | unlinkSelf w j params x before after hclosing hq hj =>
    exact ⟨m, [], .slot hm rfl rfl rfl (by simp [dealings_cons, Event.dealing?])
      (by simp [hj, Slot.stored]) (by simp)⟩
  | claimError w j params hj =>
    exact ⟨m, [], .slot hm rfl rfl rfl (by simp [dealings_cons, Event.dealing?])
      (by simp [hj, Slot.stored]) (by simp)⟩
  | cancelInitial w j params hj =>
    exact ⟨m, [], .slot hm rfl rfl rfl (by simp [dealings_cons, Event.dealing?])
      (by simp [hj, Slot.stored]) (by simp)⟩
  | cancelLinked w k j params x before after c hq hj =>
    exact ⟨m, [], .slot hm rfl rfl rfl (by simp [dealings_cons, Event.dealing?])
      (by simp [hj, Slot.stored]) (by simp)⟩
  | cancelRefused w k j params c hj =>
    exact ⟨m, [], .slot hm rfl rfl rfl (by simp [dealings_cons, Event.dealing?])
      (by simp [hj, Slot.stored]) (by simp)⟩
  -- no permit is concerned
  | note w h e he | reject w j p front e he | giveBack w j p e he =>
    cases he <;> exact ⟨m, [], .still hm rfl (by simp [dealings_cons, Event.dealing?])
      fun i => rfl⟩
  | rewake w j params x cx before after res hq hres =>
    refine ⟨m, [], .still hm rfl ?_ fun i => rfl⟩
    rcases hres with rfl | rfl <;> simp [dealings_cons, Event.dealing?]
  | _ => exact ⟨m, [], .still hm rfl (by simp [dealings_cons, Event.dealing?]) fun i => rfl⟩

theorem Moves.trades [DecidableEq κ] [Order O]
    {c d : Conf ι κ W S O} (hc : Audited c) (h : Moves C own c d)
    {m : Multiset (ι × Permit S)} (hm : Outstanding c m) :
    Audited d ∧ ∃ m' ls, Trades c d m m' ls := by
  induction h with
  | refl => exact ⟨hc, m, [], .nil _, hm, by simp⟩
  | tail _ hlast ih =>
    obtain ⟨hmid, m', ls, htrades⟩ := ih
    obtain ⟨m'', ls', hstep⟩ := hlast.trades hmid htrades.outstanding
    exact ⟨hmid.move hlast, m'', ls ++ ls', htrades.trans hstep⟩

/-! ## Steps -/

/-- What an action of the user does to the guarded state and its permits. -/
def Action.intervention (w : World ι κ W S O) : Action ι κ W S → Option (Dealing S)
  | .withState _ f => some (.adjust f (f w.inner.state).2)
  | .conjure _ r => some (.mint r)
  | .takePermit i => (w.permits i).map .burn
  | _ => none

/-- Without an intervention the library only acquires and releases. -/
theorem Trades.spontaneous {c d : Conf ι κ W S O} {m m' : Multiset (ι × Permit S)}
    {ls : List (Dealing S)} (h : Trades c d m m' ls)
    (hsame : d.1.interventions = c.1.interventions) :
    ls.filter Tokens.Label.ofUser = [] := by
  apply Tokens.filter_ofUser_eq_nil
  have hcount := congrArg (List.countP Tokens.Entry.ofUser) h.told
  rw [List.countP_append, countP_dealings, countP_dealings] at hcount
  unfold World.interventions at hsame
  omega

variable [DecidableEq κ] [DecidableEq W] [Order O]

/-- **A step, as seen by the guarded state**: the user's part of it is what the action says. -/
theorem step_trades {w w' : World ι κ W S O} (hw : Settled C w) (haudit : Audited (w, .empty))
    {a : Action ι κ W S} (h : step C w a = some w') {m : Multiset (ι × Permit S)}
    (hm : Outstanding (w, .empty) m) :
    ∃ m' ls, Trades (w, .empty) (w', .empty) m m' ls ∧
      ls.filter Tokens.Label.ofUser = (a.intervention w).toList := by
  have hcount := step_interventions hw h
  obtain ⟨-, m₁, ls₁, htrades⟩ := (step_moves hw h).1.trades haudit hm
  -- most actions are no interventions, so nothing in their log is
  have quiet (hnone : a.intervenes = false) :
      ls₁.filter Tokens.Label.ofUser = [] := htrades.spontaneous (by simpa [hnone] using hcount)
  cases step_cases h with
  | withState k f hk =>
    -- the closure, then a drain
    have henter : Moves C none (w, .empty) (w.enter k, .empty) := enter_moves k .empty hk
    obtain ⟨haudit₁, m₂, ls₂, hbefore⟩ := henter.trades haudit hm
    have hupdate : Move C none (w.enter k, .empty) (((w.enter k).updateState f).1, .empty) :=
      .update _ .empty f
    have hclosure : Trades (w.enter k, .empty) (((w.enter k).updateState f).1, .empty) m₂ m₂
        [.adjust f (f w.inner.state).2] := by
      refine ⟨.one (.adjusted _ _ f), hbefore.outstanding, ?_⟩
      simp [World.updateState, World.enter, dealings_cons, Event.dealing?, Tokens.Label.entry]
    have hcall : ClosureMoves C none k .empty _ _ := updateState_closure f (w.enter_call k)
    have hrest : Moves C none (((w.enter k).updateState f).1, .empty)
        (withQueue C k w fun w => w.updateState f, .empty) :=
      withQueue_rest (f := fun w => w.updateState f) hw.coherent hk hcall
    obtain ⟨-, m₃, ls₃, hafter⟩ := hrest.trades (haudit₁.move hupdate) hclosure.outstanding
    have hentered : (w.enter k).interventions = w.interventions :=
      World.interventions_emit _ (.entered k .withQueue)
    have hadjusted : ((w.enter k).updateState f).1.interventions = w.interventions + 1 := by
      rw [← hentered]
      exact World.interventions_emit _ (.updated _)
    refine ⟨m₃, _, (hbefore.trans hclosure).trans hafter, ?_⟩
    rw [List.filter_append, List.filter_append, hbefore.spontaneous hentered,
      hafter.spontaneous (by rw [hcount, hadjusted]; rfl)]
    rfl
  | takePermit i r hi =>
    have hsingle : ls₁ = [.burn r] := by
      apply Tokens.eq_singleton_of_entry (by simp)
      simpa [takePermit, dealings_cons, Event.dealing?, Tokens.Label.entry] using htrades.told.symm
    refine ⟨m₁, ls₁, htrades, ?_⟩
    rw [hsingle]
    simp [Action.intervention, hi, Tokens.Label.ofUser]
  | conjure i r hi =>
    have hsingle : ls₁ = [.mint r] := by
      apply Tokens.eq_singleton_of_entry (by simp)
      simpa [dealings_cons, Event.dealing?, Tokens.Label.entry] using htrades.told.symm
    refine ⟨m₁, ls₁, htrades, ?_⟩
    rw [hsingle]
    rfl
  | _ => exact ⟨m₁, ls₁, htrades, quiet rfl⟩

/-! ## Runs -/

/-- What the actions of a run do to the guarded state and its permits on the user's behalf. -/
def interventions (C : Closeability) : World ι κ W S O → List (Action ι κ W S) → List (Dealing S)
  | _, [] => []
  | w, a :: acts =>
    (a.intervention w).toList ++
      match step C w a with
      | some w' => interventions C w' acts
      | none => []

theorem exec_trades {w w' : World ι κ W S O} (hw : Settled C w) (haudit : Audited (w, .empty))
    {acts : List (Action ι κ W S)} (h : Transition.exec (step C) w acts = some w')
    {m : Multiset (ι × Permit S)} (hm : Outstanding (w, .empty) m) :
    ∃ m' ls, Trades (w, .empty) (w', .empty) m m' ls ∧
      ls.filter Tokens.Label.ofUser = interventions C w acts := by
  induction acts generalizing w m with
  | nil =>
    cases h
    exact ⟨m, [], .still hm rfl rfl fun _ => rfl, rfl⟩
  | cons a acts ih =>
    obtain ⟨u, hu, hrest⟩ := Option.bind_eq_some_iff.mp h
    obtain ⟨m₁, ls₁, hfirst, hfilter₁⟩ := step_trades hw haudit hu hm
    have haudit₁ := ((step_moves hw hu).1.trades haudit hm).1
    obtain ⟨m₂, ls₂, hlater, hfilter₂⟩ := ih (hw.step hu) haudit₁ hrest hfirst.outstanding
    refine ⟨m₂, ls₁ ++ ls₂, hfirst.trans hlater, ?_⟩
    simp only [List.filter_append, hfilter₁, hfilter₂, interventions, hu]

/-- Between lock sections the outstanding permits lie in nodes or are owned by guards. -/
def World.Outstanding (w : World ι κ W S O) (m : Multiset (ι × Permit S)) : Prop :=
  ∀ i, part i m = w.stored i + w.owned i

/-- A run of the queue from a fresh state, seen by the guarded state. -/
structure IssuerRun (C : Closeability) (state : S) (order : O) (acts : List (Action ι κ W S))
    (w : World ι κ W S O) (m : Multiset (ι × Permit S)) (ls : List (Dealing S)) : Prop where
  run : Tokens.Run (issuer S) (state, 0) ls (w.inner.state, m.map Prod.snd)
  outstanding : w.Outstanding m
  told : dealings w.log = ls.map Tokens.Label.entry
  byUser : ls.filter Tokens.Label.ofUser = interventions C (World.new state order) acts

theorem exists_issuerRun {state : S} {order : O} {acts : List (Action ι κ W S)}
    {w : World ι κ W S O} (h : run C state order acts = some w) :
    ∃ m ls, IssuerRun C state order acts w m ls := by
  have hstart : Reachable C state order (World.new state order : World ι κ W S O) := .start
  have hnone : Outstanding ((World.new state order : World ι κ W S O), .empty)
      (0 : Multiset (ι × Permit S)) := fun i => rfl
  obtain ⟨m, ls, htrades, hfilter⟩ :=
    exec_trades (Settled.new state order) hstart.audited h hnone
  refine ⟨m, ls, htrades.run, ?_, htrades.told, hfilter⟩
  intro i
  rw [htrades.outstanding i]
  simp [Conf.held]

/-- **The queue refines its issuer**: in every run, for every state and order, with any panics,
the calls on the guarded state are a run of the issuer alone. Each released permit was
outstanding, the outstanding permits are those in nodes and guards, and the state changes in no
other way than the user's own actions tell. -/
theorem refines_issuer {state : S} {order : O} {acts : List (Action ι κ W S)}
    {w : World ι κ W S O} (h : run C state order acts = some w) :
    ∃ m ls, IssuerRun C state order acts w m ls := exists_issuerRun h

/-- A queued request is granted when a closure adds a permit, and gives it back unclaimed. -/
theorem refines_issuer_of_unclaimed :
    let acts : List (Action Nat Nat Nat SemaphoreCounter) :=
      [.acquire 0 (1 : Nat), .poll 0 7 .quiet, .withState 0 (SemaphoreCounter.add 1),
        .wake 0 (.returned ()), .finish 0 (.returned ()), .dropAcquire 0 0]
    ∃ w m ls, run .uncloseable (⟨0⟩ : SemaphoreCounter) FairOrder.fifo acts = some w ∧
      IssuerRun .uncloseable ⟨0⟩ FairOrder.fifo acts w m ls := by
  intro acts
  obtain ⟨w, hw⟩ := Option.isSome_iff_exists.mp
    (show (run .uncloseable (⟨0⟩ : SemaphoreCounter) FairOrder.fifo acts).isSome = true from rfl)
  obtain ⟨m, ls, hrun⟩ := refines_issuer hw
  exact ⟨w, m, ls, hw, hrun⟩

/-! ## Promises of the state -/

/-- Neither `S::acquire` nor `S::release` unwound. -/
def StateReturns : Dealing S → Prop
  | .issue _ (.error none) => False
  | .redeem _ .panicked => False
  | _ => True

/-- No call on the state unwound. -/
def AllReturn : Dealing S → Prop
  | .adjust _ .panicked => False
  | l => StateReturns l

theorem AllReturn.stateReturns {l : Dealing S} (h : AllReturn l) : StateReturns l := by
  cases l with
  | adjust f out => trivial
  | _ => exact h

/-- Custody of a state whose `acquire` never unwinds and whose `release` does not while the
permit is outstanding. -/
theorem custody_of_total {ok : Dealing S → Prop} {Inv : S → Multiset (Permit S) → Prop}
    (hok : ∀ l, AllReturn l → ok l) (htotal : AcquireTotal S)
    (hgrant : ∀ {s s' m p r}, SemaphoreState.acquire s p = (s', .returned (.ok r)) →
      Inv s m → Inv s' (r ::ₘ m))
    (hrefuse : ∀ {s s' m p p'}, SemaphoreState.acquire s p = (s', .returned (.error p')) →
      Inv s m → Inv s' m)
    (hrelease : ∀ {s m r}, Inv s (r ::ₘ m) →
      ∃ s', SemaphoreState.release s r = (s', .returned ()) ∧ Inv s' m) :
    Tokens.Custody (issuer S) ok Inv := by
  constructor
  case issued =>
    intro s s' m p r h hinv
    rcases hacq : SemaphoreState.acquire s p with ⟨t, (p' | r') | _⟩
    · simp [issuer, hacq, served] at h
    · simp only [issuer, hacq, served, Prod.mk.injEq, Except.ok.injEq] at h
      obtain ⟨rfl, rfl⟩ := h
      exact ⟨hok _ trivial, hgrant hacq hinv⟩
    · simp [issuer, hacq, served] at h
  case refused =>
    intro s s' m p e h hinv
    rcases hacq : SemaphoreState.acquire s p with ⟨t, (p' | r') | _⟩
    · simp only [issuer, hacq, served, Prod.mk.injEq, Except.error.injEq] at h
      obtain ⟨rfl, rfl⟩ := h
      exact ⟨hok _ trivial, hrefuse hacq hinv⟩
    · simp [issuer, hacq, served] at h
    · exact absurd (congrArg Prod.snd hacq) (htotal s p)
  case redeemed =>
    intro s s' m r out h hinv
    obtain ⟨t, hrel, hinv'⟩ := hrelease hinv
    -- a release has one outcome
    obtain ⟨rfl, rfl⟩ := Prod.mk.inj (hrel.symm.trans h)
    exact ⟨hok _ trivial, hinv'⟩

/-- An intervention comes from one of the actions. -/
theorem mem_interventions {w : World ι κ W S O} {acts : List (Action ι κ W S)} {l : Dealing S}
    (h : l ∈ interventions C w acts) :
    ∃ a ∈ acts, ∃ v : World ι κ W S O, a.intervention v = some l := by
  induction acts generalizing w with
  | nil => cases h
  | cons a acts ih =>
    rcases List.mem_append.mp h with hfirst | hlater
    · exact ⟨a, List.mem_cons_self .., w, Option.mem_toList.mp hfirst⟩
    · split at hlater
      · obtain ⟨b, hb, v, hv⟩ := ih hlater
        exact ⟨b, List.mem_cons_of_mem a hb, v, hv⟩
      · cases hlater

/-- The user respects a promise if each of its actions does. -/
theorem respects_of_actions {ok : Dealing S → Prop}
    {Inv : List (Dealing S) → S → Multiset (Permit S) → Prop} {w : World ι κ W S O}
    {acts : List (Action ι κ W S)}
    (hadjust : ∀ k f, .withState k f ∈ acts → ∀ pre out post,
      interventions C w acts = pre ++ .adjust f out :: post → ∀ s m, Inv pre s m →
        ok (.adjust f (f s).2) ∧ Inv (pre ++ [.adjust f out]) (f s).1 m)
    (hmint : ∀ i r, .conjure i r ∈ acts → ∀ pre post,
      interventions C w acts = pre ++ .mint r :: post → ∀ s m, Inv pre s m →
        ok (.mint r) ∧ Inv (pre ++ [.mint r]) s (r ::ₘ m))
    (hburn : ∀ pre r s m, Inv pre s (r ::ₘ m) → ok (.burn r) ∧ Inv (pre ++ [.burn r]) s m) :
    Tokens.Respects ok Inv (interventions C w acts) := by
  intro pre l post hus
  have hl : l ∈ interventions C w acts := by simp [hus]
  obtain ⟨a, ha, v, hv⟩ := mem_interventions hl
  cases a with
  | withState k f =>
    cases hv
    exact hadjust k f ha pre _ post hus
  | conjure i r =>
    cases hv
    exact hmint i r ha pre post hus
  | takePermit i =>
    obtain ⟨r, -, rfl⟩ := Option.map_eq_some_iff.mp hv
    exact hburn pre r
  | _ => cases hv

/-- What is counted of the interventions can be read off the actions. -/
theorem sum_interventions {A : Type} [AddCommMonoid A] (v : Dealing S → A)
    (u : Action ι κ W S → A) (huv : ∀ (w : World ι κ W S O) a, (a.intervention w).elim 0 v = u a)
    {w w' : World ι κ W S O} {acts : List (Action ι κ W S)}
    (h : Transition.exec (step C) w acts = some w') :
    ((interventions C w acts).map v).sum = (acts.map u).sum := by
  induction acts generalizing w with
  | nil => rfl
  | cons a acts ih =>
    obtain ⟨w₁, hw₁, hrest⟩ := Option.bind_eq_some_iff.mp h
    have hfirst : ((a.intervention w).toList.map v).sum = u a := by
      rw [← huv w a]
      cases a.intervention w <;> simp
    simp only [interventions, hw₁, List.map_append, List.sum_append, hfirst, ih hrest,
      List.map_cons, List.sum_cons]

/-- What a state promises of its outstanding permits, and the user's own actions respect, holds
in every run. -/
theorem keeps_custody (ok : Dealing S → Prop)
    (Inv : List (Dealing S) → S → Multiset (Permit S) → Prop)
    (hT : ∀ pre, Tokens.Custody (issuer S) ok (Inv pre)) {state : S} {order : O}
    {acts : List (Action ι κ W S)} {w : World ι κ W S O} (h : run C state order acts = some w)
    (huser : Tokens.Respects ok Inv (interventions C (World.new state order) acts))
    (hinit : Inv [] state 0) :
    ∃ m ls, IssuerRun C state order acts w m ls ∧
      Inv (interventions C (World.new state order) acts) w.inner.state (m.map Prod.snd) ∧
      ∀ l ∈ ls, ok l := by
  obtain ⟨m, ls, hrun⟩ := exists_issuerRun h
  rw [← hrun.byUser] at huser ⊢
  exact ⟨m, ls, hrun, hrun.run.custody hT huser hinit⟩

/-- What the log records was said by a label. -/
theorem IssuerRun.exists_label {state : S} {order : O} {acts : List (Action ι κ W S)}
    {w : World ι κ W S O} {m : Multiset (ι × Permit S)} {ls : List (Dealing S)}
    (h : IssuerRun C state order acts w m ls) {e : Event ι κ W S} (he : e ∈ w.log)
    {t : Tokens.Entry (Params S) (Permit S) (Option (Params S)) (Unwind Unit)}
    (ht : e.dealing? = some t) : ∃ l ∈ ls, l.entry = t := by
  have hmem : t ∈ dealings w.log := List.mem_filterMap.mpr ⟨e, he, ht⟩
  rw [h.told] at hmem
  exact List.mem_map.mp hmem

/-- No call of `S::acquire` or `S::release` unwound; a closure of the user may have. -/
def StateNeverUnwinds (w : World ι κ W S O) : Prop :=
  ∀ e ∈ w.log, e.unwindsState = true → e = .updated .panicked

theorem IssuerRun.stateReturns {state : S} {order : O} {acts : List (Action ι κ W S)}
    {w : World ι κ W S O} {m : Multiset (ι × Permit S)} {ls : List (Dealing S)}
    (h : IssuerRun C state order acts w m ls) (hls : ∀ l ∈ ls, StateReturns l) :
    StateNeverUnwinds w := by
  intro e he hunwinds
  cases e with
  | acquired i p res =>
    cases res with
    | returned a => cases hunwinds
    | panicked =>
      obtain ⟨l, hl, hentry⟩ := h.exists_label he rfl
      have hok := hls l hl
      cases l <;> cases hentry
      exact absurd hok id
  | released who i r res =>
    cases res with
    | returned a => cases hunwinds
    | panicked =>
      obtain ⟨l, hl, hentry⟩ := h.exists_label he rfl
      have hok := hls l hl
      cases l <;> cases hentry
      exact absurd hok id
  | updated res =>
    cases res with
    | returned a => cases hunwinds
    | panicked => rfl
  | _ => cases hunwinds

/-- If no call on the state unwinds, the queue is never poisoned. -/
theorem IssuerRun.not_poisoned {state : S} {order : O} {acts : List (Action ι κ W S)}
    {w : World ι κ W S O} {m : Multiset (ι × Permit S)} {ls : List (Dealing S)}
    (h : IssuerRun C state order acts w m ls) (hrun : FlagBearer.run C state order acts = some w)
    (hls : ∀ l ∈ ls, AllReturn l) : w.inner.poisoned = false := by
  have hreach : Reachable C state order w := Transition.reachable_iff_exec.mpr ⟨acts, hrun⟩
  rw [Bool.eq_false_iff]
  intro hpoison
  obtain ⟨past, e, rest, hlog, hunwinds, -⟩ :=
    poisonedBy_iff.mp (hreach.flagged.symm.trans hpoison)
  have he : e ∈ w.log := by simp [hlog]
  rw [h.stateReturns (fun l hl => (hls l hl).stateReturns) e he hunwinds] at he
  obtain ⟨l, hl, hentry⟩ := h.exists_label he rfl
  have hok := hls l hl
  cases l <;> cases hentry
  exact absurd hok id

end FlagBearer
