import MatchingEngine.QueueMPMC
import MatchingEngine.Foundation.Fairness

/-!
# Calls of the two-lock queue return

Each mutex is held by the one call that is in the critical section of its operation, and this call can
always go on: it never waits for the other mutex. So a fair scheduler gets it to release the mutex.
A call that waits for a mutex finds it free again and again, and does not return only if calls of the
same operation overtake it without end; enqueues never wait for dequeues, nor these for enqueues.
-/

namespace MatchingEngine

namespace QueueMPMC

variable {T : Type*}

namespace CallState

/-- How many steps are left until a call returns, at most. -/
def remaining : CallState T → ℕ
  | allocate _ | lockHead => 7
  | storeData _ _ | loadHead => 6
  | lockTail _ _ | loadNext _ => 5
  | loadTail _ _ | loadData _ _ => 4
  | storeNext _ _ _ | storeHead _ _ _ => 3
  | storeTail _ _ | unlockHead _ _ => 2
  | unlockTail _ | delete _ _ | unlockMissed => 1

/-- Whether the call is an enqueue. -/
def enqueues : CallState T → Bool
  | allocate _ | storeData _ _ | lockTail _ _ | loadTail _ _ | storeNext _ _ _ | storeTail _ _ | unlockTail _ => true
  | lockHead | loadHead | loadNext _ | loadData _ _ | storeHead _ _ _ | unlockHead _ _ | delete _ _ | unlockMissed => false

/-- Whether the call is in its critical section. -/
def locked : CallState T → Bool
  | loadTail _ _ | storeNext _ _ _ | storeTail _ _ | unlockTail _ | loadHead | loadNext _ | loadData _ _ | storeHead _ _ _
  | unlockHead _ _ | unlockMissed => true
  | allocate _ | storeData _ _ | lockTail _ _ | lockHead | delete _ _ => false

end CallState

end QueueMPMC

namespace TwoLockQueue

open QueueMPMC

variable {ι T : Type*} {s t : TwoLockQueue ι T} {thread : ι} {state : CallState T}

/-- The mutex of the enqueues, or of the dequeues. -/
def mutex (s : TwoLockQueue ι T) (enqueues : Bool) : Option ι :=
  if enqueues then s.queue.tailMutex else s.queue.headMutex

/-- Each mutex is held by the call that is in the critical section of its operation. -/
def Held (s : TwoLockQueue ι T) : Prop :=
  ∀ enqueues thread, s.mutex enqueues = some thread ↔
    ∃ state, s.calls thread = some state ∧ state.enqueues = enqueues ∧ state.locked = true

/-- A call that waits for a mutex is outside of its critical section, and the mutex is that of its operation. -/
theorem Waits.mutex_ne_none (h : s.Waits state) : s.mutex state.enqueues ≠ none ∧ state.locked = false := by
  cases state with
  | lockTail => exact ⟨h, rfl⟩
  | lockHead => exact ⟨h, rfl⟩
  | _ => cases h

/-- A thread holds a mutex if and only if its call is in the critical section of this operation. -/
theorem Held.mutex_iff (h : s.Held) (hcall : s.calls thread = some state) (b : Bool) :
    s.mutex b = some thread ↔ state.enqueues = b ∧ state.locked = true := by
  rw [h b thread, hcall]
  constructor
  · rintro ⟨state', hstate', hholds⟩
    obtain rfl := Option.some.inj hstate'
    exact hholds
  · exact fun hholds => ⟨state, rfl, hholds⟩

variable [DecidableEq ι]

/-- What a step of a call does to the call and to the mutexes; `current` is where the call has come to, if it has not
returned. -/
structure Advances (s t : TwoLockQueue ι T) (thread : ι) (state : CallState T) (current : Option (CallState T)) : Prop where
  calls : t.calls = Function.update s.calls thread current
  closer : ∀ after, current = some after → after.enqueues = state.enqueues ∧ after.remaining < state.remaining
  own : t.mutex state.enqueues = if current.any CallState.locked then some thread
    else if state.locked then none else s.mutex state.enqueues
  free : current.any CallState.locked = true → state.locked = false → s.mutex state.enqueues = none
  other : t.mutex (!state.enqueues) = s.mutex (!state.enqueues)

/-- A call goes on, in its critical section or outside of it. -/
theorem Advances.goOn {after : CallState T} (hheld : state.locked = true → s.mutex state.enqueues = some thread)
    (hcalls : t.calls = Function.update s.calls thread (some after)) (hmutex : t.mutex = s.mutex)
    (henqueues : after.enqueues = state.enqueues) (hremaining : after.remaining < state.remaining)
    (hlocked : after.locked = state.locked) : s.Advances t thread state (some after) where
  calls := hcalls
  closer := by
    intro other hother
    obtain rfl := Option.some.inj hother
    exact ⟨henqueues, hremaining⟩
  own := by
    rw [Option.any_some, hlocked, hmutex]
    cases hstate : state.locked with
    | true => exact hheld hstate
    | false => rfl
  free := by
    intro hafter hstate
    rw [Option.any_some, hlocked, hstate] at hafter
    cases hafter
  other := congrFun hmutex _

/-- A call returns; if it was in its critical section, it has released the mutex. -/
theorem Advances.returns (hcalls : t.calls = Function.update s.calls thread none)
    (hown : t.mutex state.enqueues = if state.locked then none else s.mutex state.enqueues)
    (hother : t.mutex (!state.enqueues) = s.mutex (!state.enqueues)) : s.Advances t thread state none where
  calls := hcalls
  closer := by
    intro after hafter
    cases hafter
  own := hown
  free := by
    intro hlocked
    cases hlocked
  other := hother

/-- Every step of a call brings it closer to its return. -/
theorem exists_advances (hheld : state.locked = true → s.mutex state.enqueues = some thread)
    (hstep : s.step thread state = some t) : ∃ current, s.Advances t thread state current := by
  cases state with
  | allocate data =>
    obtain rfl := Option.some.inj hstep
    exact ⟨_, .goOn hheld rfl rfl rfl (by simp [CallState.remaining]) rfl⟩
  | storeData data newNode =>
    obtain ⟨heap, _, rfl⟩ := Option.map_eq_some_iff.mp hstep
    exact ⟨_, .goOn hheld rfl rfl rfl (by simp [CallState.remaining]) rfl⟩
  | lockTail data newNode =>
    cases hmutex : s.queue.tailMutex with
    | some holder => simp [step, hmutex] at hstep
    | none =>
      simp only [step, hmutex] at hstep
      obtain rfl := Option.some.inj hstep
      refine ⟨_, rfl, fun after hafter => ?_, rfl, fun _ _ => hmutex, rfl⟩
      obtain rfl := Option.some.inj hafter
      exact ⟨rfl, by simp [CallState.remaining]⟩
  | loadTail data newNode =>
    obtain rfl := Option.some.inj hstep
    exact ⟨_, .goOn hheld rfl rfl rfl (by simp [CallState.remaining]) rfl⟩
  | storeNext data newNode tail =>
    obtain ⟨heap, _, rfl⟩ := Option.map_eq_some_iff.mp hstep
    exact ⟨_, .goOn hheld rfl rfl rfl (by simp [CallState.remaining]) rfl⟩
  | storeTail data newNode =>
    obtain rfl := Option.some.inj hstep
    exact ⟨_, .goOn hheld rfl rfl rfl (by simp [CallState.remaining]) rfl⟩
  | unlockTail data =>
    obtain rfl := Option.some.inj hstep
    exact ⟨none, .returns rfl rfl rfl⟩
  | lockHead =>
    cases hmutex : s.queue.headMutex with
    | some holder => simp [step, hmutex] at hstep
    | none =>
      simp only [step, hmutex] at hstep
      obtain rfl := Option.some.inj hstep
      refine ⟨_, rfl, fun after hafter => ?_, rfl, fun _ _ => hmutex, rfl⟩
      obtain rfl := Option.some.inj hafter
      exact ⟨rfl, by simp [CallState.remaining]⟩
  | loadHead =>
    obtain rfl := Option.some.inj hstep
    exact ⟨_, .goOn hheld rfl rfl rfl (by simp [CallState.remaining]) rfl⟩
  | loadNext currentHead =>
    obtain ⟨node, _, hnode⟩ := Option.map_eq_some_iff.mp hstep
    cases hnext : node.next with
    | none =>
      simp only [hnext] at hnode
      subst hnode
      exact ⟨_, .goOn hheld rfl rfl rfl (by simp [CallState.remaining]) rfl⟩
    | some newHead =>
      simp only [hnext] at hnode
      subst hnode
      exact ⟨_, .goOn hheld rfl rfl rfl (by simp [CallState.remaining]) rfl⟩
  | loadData currentHead newHead =>
    obtain ⟨node, _, rfl⟩ := Option.map_eq_some_iff.mp hstep
    exact ⟨_, .goOn hheld rfl rfl rfl (by simp [CallState.remaining]) rfl⟩
  | storeHead currentHead newHead data =>
    obtain rfl := Option.some.inj hstep
    exact ⟨_, .goOn hheld rfl rfl rfl (by simp [CallState.remaining]) rfl⟩
  | unlockHead currentHead data =>
    obtain rfl := Option.some.inj hstep
    refine ⟨_, rfl, fun after hafter => ?_, rfl, fun hlocked => ?_, rfl⟩
    · obtain rfl := Option.some.inj hafter
      exact ⟨rfl, by simp [CallState.remaining]⟩
    · cases hlocked
  | delete currentHead data =>
    obtain ⟨heap, _, rfl⟩ := Option.map_eq_some_iff.mp hstep
    exact ⟨none, .returns rfl rfl rfl⟩
  | unlockMissed =>
    obtain rfl := Option.some.inj hstep
    exact ⟨none, .returns rfl rfl rfl⟩

/-- A step of a thread is an advance of its call. -/
theorem Held.next_advances (h : s.Held) (hcall : s.calls thread = some state)
    (hnext : TwoLockQueue.next (.step thread) s = some t) : ∃ current, s.Advances t thread state current := by
  rw [TwoLockQueue.next, hcall, Option.bind_some] at hnext
  exact exists_advances (fun hlocked => (h.mutex_iff hcall _).mpr ⟨rfl, hlocked⟩) hnext

/-- A step is a call by an idle thread, or an advance of a call. -/
theorem Held.next_cases (h : s.Held) {label : Label ι T} (hnext : TwoLockQueue.next label s = some t) :
    (∃ thread state, s.calls thread = none ∧ state.locked = false ∧
      t.calls = Function.update s.calls thread (some state) ∧ t.mutex = s.mutex) ∨
    ∃ thread state current, label = .step thread ∧ s.calls thread = some state ∧ s.Advances t thread state current := by
  have hcall : ∀ {thread operation state}, s.call thread operation state = some t →
      s.calls thread = none ∧ t.calls = Function.update s.calls thread (some state) ∧ t.mutex = s.mutex := by
    intro thread operation state hcall
    unfold TwoLockQueue.call at hcall
    split at hcall
    · rename_i hidle
      obtain rfl := Option.some.inj hcall
      exact ⟨hidle, rfl, rfl⟩
    · cases hcall
  cases label with
  | enqueue thread data =>
    obtain ⟨hidle, hcalls, hmutex⟩ := hcall hnext
    exact Or.inl ⟨thread, _, hidle, rfl, hcalls, hmutex⟩
  | dequeue thread =>
    obtain ⟨hidle, hcalls, hmutex⟩ := hcall hnext
    exact Or.inl ⟨thread, _, hidle, rfl, hcalls, hmutex⟩
  | step thread =>
    obtain ⟨state, hstate, _⟩ := Option.bind_eq_some_iff.mp hnext
    obtain ⟨current, hadvances⟩ := h.next_advances hstate hnext
    exact Or.inr ⟨thread, state, current, rfl, hstate, hadvances⟩

/-- An advance leaves each mutex with the call in the critical section. -/
theorem Held.advances (h : s.Held) {current : Option (CallState T)} (hcall : s.calls thread = some state)
    (hadvances : s.Advances t thread state current) : t.Held := by
  intro b x
  by_cases hb : b = state.enqueues
  · subst hb
    rw [hadvances.own, hadvances.calls]
    by_cases hx : x = thread
    · subst hx
      have hcurrent : (∃ after, current = some after ∧ after.enqueues = state.enqueues ∧ after.locked = true) ↔
          current.any CallState.locked = true := by
        cases current with
        | none => simp
        | some after => simp [(hadvances.closer after rfl).1]
      rw [Function.update_self, hcurrent]
      split
      · rename_i hlocked
        exact iff_of_true rfl hlocked
      · rename_i hout
        refine iff_of_false (fun hheld => ?_) hout
        split at hheld
        · cases hheld
        · rename_i hstate
          exact hstate ((h.mutex_iff hcall _).mp hheld).2
    · rw [Function.update_of_ne hx, ← h]
      have hne : some thread ≠ some x := fun heq => hx (Option.some.inj heq).symm
      split
      · rename_i hlocked
        refine iff_of_false hne fun hmutex => ?_
        cases hstate : state.locked with
        | true => exact hne (((h.mutex_iff hcall _).mpr ⟨rfl, hstate⟩).symm.trans hmutex)
        | false => cases (hadvances.free hlocked hstate).symm.trans hmutex
      · split
        · rename_i hstate
          exact iff_of_false nofun fun hmutex => hne (((h.mutex_iff hcall _).mpr ⟨rfl, hstate⟩).symm.trans hmutex)
        · exact Iff.rfl
  · obtain rfl : b = !state.enqueues := Bool.eq_not_of_ne hb
    rw [hadvances.other, hadvances.calls]
    by_cases hx : x = thread
    · subst hx
      rw [Function.update_self, h.mutex_iff hcall]
      refine iff_of_false (fun hheld => hb hheld.1.symm) ?_
      rintro ⟨after, hafter, henqueues, _⟩
      exact hb (henqueues.symm.trans (hadvances.closer after hafter).1)
    · rw [Function.update_of_ne hx]
      exact h _ _

/-- Every step leaves each mutex with the call in the critical section. -/
theorem Held.next (h : s.Held) {label : Label ι T} (hnext : TwoLockQueue.next label s = some t) : t.Held := by
  obtain ⟨thread, state, hidle, hlocked, hcalls, hmutex⟩ | ⟨thread, state, current, -, hstate, hadvances⟩ :=
    h.next_cases hnext
  · intro b x
    rw [hmutex, h b x, hcalls]
    by_cases hx : x = thread
    · subst hx
      simp [hidle, hlocked]
    · rw [Function.update_of_ne hx]
  · exact h.advances hstate hadvances

/-- In every state reached, each mutex is held by the call in the critical section of its operation. -/
theorem held_of_reachable (h : (twoLockQueue ι T).Reachable s) : s.Held := by
  refine h.invariant (I := Held) (fun b thread => ?_) fun label s t _ hs _ hnext => hs.next hnext
  cases b with
  | false => simp [twoLockQueue, initial, mutex, new]
  | true => simp [twoLockQueue, initial, mutex, new]

/-- The step of a thread. -/
def Label.isStepOf (thread : ι) : Label ι T → Bool
  | .step other => other = thread
  | .enqueue _ _ | .dequeue _ => false

variable {label : Label ι T} {b : Bool}

/-- The labels of the steps of a thread. -/
theorem Label.isStepOf_iff : label.isStepOf thread = true ↔ label = .step thread := by
  cases label with
  | enqueue => exact iff_of_false nofun nofun
  | dequeue => exact iff_of_false nofun nofun
  | step other => simp [Label.isStepOf]

/-- A call stays where it is until its thread takes a step. -/
theorem Held.next_calls (h : s.Held) (hcall : s.calls thread = some state) (hnext : TwoLockQueue.next label s = some t)
    (hlabel : label.isStepOf thread = false) : t.calls thread = some state := by
  obtain ⟨other, _, hidle, _, hcalls, _⟩ | ⟨other, _, _, rfl, _, hadvances⟩ := h.next_cases hnext
  · have hne : thread ≠ other := fun heq => by rw [heq, hidle] at hcall; cases hcall
    rw [hcalls, Function.update_of_ne hne, hcall]
  · have hne : thread ≠ other := fun heq => by simp [Label.isStepOf, heq] at hlabel
    rw [hadvances.calls, Function.update_of_ne hne, hcall]

/-- A free mutex stays free until a call of its operation takes it. -/
theorem Held.next_mutex (h : s.Held) (hmutex : s.mutex b = none) (hnext : TwoLockQueue.next label s = some t) :
    t.mutex b = none ∨ ∃ thread state, label = .step thread ∧ s.calls thread = some state ∧ state.enqueues = b ∧
      t.mutex b = some thread := by
  obtain ⟨_, _, _, _, _, hsame⟩ | ⟨thread, state, current, rfl, hcall, hadvances⟩ := h.next_cases hnext
  · exact Or.inl (hsame ▸ hmutex)
  · by_cases hb : state.enqueues = b
    · subst hb
      rw [hadvances.own]
      split
      · exact Or.inr ⟨thread, state, rfl, hcall, rfl, rfl⟩
      · split
        · exact Or.inl rfl
        · exact Or.inl hmutex
    · obtain rfl : b = !state.enqueues := Bool.eq_not_of_ne (Ne.symm hb)
      exact Or.inl (hadvances.other.trans hmutex)

variable {e : (twoLockQueue ι T).Execution} {n : ℕ}

/-- Under a fair scheduler, a call goes on if it does not wait. -/
theorem exists_advance (hreachable : (twoLockQueue ι T).Reachable (e.state 0)) (hfair : e.FairTo (Label.isStepOf thread))
    (hcall : (e.state n).calls thread = some state)
    (hready : ∀ m, n ≤ m → (e.state m).calls thread = some state → ¬(e.state m).Waits state) :
    ∃ m current, n ≤ m ∧ (e.state m).calls thread = some state ∧
      (e.state m).Advances (e.state (m + 1)) thread state current := by
  obtain ⟨m, hm, hstate, hlabel⟩ := Machine.Execution.exists_end
    (I := fun s : TwoLockQueue ι T => s.calls thread = some state) hfair hcall
    (fun m _ hstate hlabel => (held_of_reachable (e.reachable hreachable m)).next_calls hstate (e.step m) hlabel)
    fun m hm hstate => by
      obtain ⟨_, _, _, hdescribed⟩ := described_of_reachable (e.reachable hreachable m)
      refine ⟨.step thread, Label.isStepOf_iff.mpr rfl, ?_⟩
      obtain ⟨t, _, _, _, hstep, _⟩ | ⟨hwaits, _⟩ := hdescribed.step hstate
      · simp [twoLockQueue, TwoLockQueue.next, hstate, hstep]
      · exact absurd hwaits (hready m hm hstate)
  have hstep := e.step m
  rw [Label.isStepOf_iff.mp hlabel] at hstep
  obtain ⟨current, hadvances⟩ := (held_of_reachable (e.reachable hreachable m)).next_advances hstate hstep
  exact ⟨m, current, hm, hstate, hadvances⟩

/-- Under a fair scheduler, a call in its critical section releases the mutex. -/
theorem exists_release (hreachable : (twoLockQueue ι T).Reachable (e.state 0)) (hfair : e.FairTo (Label.isStepOf thread))
    (hcall : (e.state n).calls thread = some state) (hlocked : state.locked = true) :
    ∃ m, n ≤ m ∧ (e.state m).mutex state.enqueues = none := by
  generalize hk : state.remaining = k
  induction k using Nat.strong_induction_on generalizing n state with
  | h k ih =>
    obtain ⟨m, current, hm, hstate, hadvances⟩ := exists_advance hreachable hfair hcall
      fun m _ _ hwaits => by simp [hwaits.mutex_ne_none.2] at hlocked
    by_cases hcurrent : current.any CallState.locked = true
    · cases current with
      | none => cases hcurrent
      | some after =>
        obtain ⟨henqueues, hless⟩ := hadvances.closer after rfl
        have hnow : (e.state (m + 1)).calls thread = some after := by rw [hadvances.calls, Function.update_self]
        obtain ⟨p, hp, hfree⟩ := ih _ (hk ▸ hless) hnow hcurrent rfl
        exact ⟨p, by omega, henqueues ▸ hfree⟩
    · exact ⟨m + 1, by omega, by rw [hadvances.own, if_neg hcurrent, if_pos hlocked]⟩

/-- Some later step of another thread takes the mutex. -/
def Overtaken (e : (twoLockQueue ι T).Execution) (thread : ι) (b : Bool) (n : ℕ) : Prop :=
  ∃ m other state, n ≤ m ∧ other ≠ thread ∧ e.label m = .step other ∧ (e.state m).calls other = some state ∧
    state.enqueues = b ∧ (e.state m).mutex b = none ∧ (e.state (m + 1)).mutex b = some other

/-- Under a fair scheduler, a call that others do not overtake from some time on goes on. -/
theorem exists_advance_of_not_overtaken (hreachable : (twoLockQueue ι T).Reachable (e.state 0))
    (hfair : ∀ thread, e.FairTo (Label.isStepOf thread)) (hcall : (e.state n).calls thread = some state)
    {last : ℕ} (hnever : ¬Overtaken e thread state.enqueues last) :
    ∃ m current, n ≤ m ∧ (e.state m).calls thread = some state ∧
      (e.state m).Advances (e.state (m + 1)) thread state current := by
  have hheld := fun m => held_of_reachable (e.reachable hreachable m)
  by_contra hstuck
  -- the call stays where it is
  have hstays : ∀ m, n ≤ m → (e.state m).calls thread = some state ∧ (e.label m).isStepOf thread = false := by
    have hlabel : ∀ m, n ≤ m → (e.state m).calls thread = some state → (e.label m).isStepOf thread = false := by
      intro m hm hstate
      refine Bool.eq_false_iff.mpr fun hlabel => hstuck ?_
      have hstep := e.step m
      rw [Label.isStepOf_iff.mp hlabel] at hstep
      obtain ⟨current, hadvances⟩ := (hheld m).next_advances hstate hstep
      exact ⟨m, current, hm, hstate, hadvances⟩
    intro m hm
    induction m, hm using Nat.le_induction with
    | base => exact ⟨hcall, hlabel n le_rfl hcall⟩
    | succ m hm ih =>
      have hstate := (hheld m).next_calls ih.1 (e.step m) ih.2
      exact ⟨hstate, hlabel (m + 1) (by omega) hstate⟩
  -- after the last time that it is overtaken, the mutex is free at some time
  obtain ⟨m, hm, hfree⟩ : ∃ m, max n last ≤ m ∧ (e.state m).mutex state.enqueues = none := by
    cases hmutex : (e.state (max n last)).mutex state.enqueues with
    | none => exact ⟨_, le_rfl, hmutex⟩
    | some holder =>
      obtain ⟨holding, hholding, henqueues, hlocked⟩ := (hheld _ _ _).mp hmutex
      obtain ⟨m, hm, hfree⟩ := exists_release hreachable (hfair holder) hholding hlocked
      exact ⟨m, hm, henqueues ▸ hfree⟩
  obtain ⟨hn, hlast⟩ := Nat.max_le.mp hm
  -- and then stays free, as nobody takes it
  have hremains : ∀ p, m ≤ p → (e.state p).mutex state.enqueues = none := by
    intro p hp
    induction p, hp using Nat.le_induction with
    | base => exact hfree
    | succ p hp ih =>
      refine ((hheld p).next_mutex ih (e.step p)).resolve_right ?_
      rintro ⟨other, taking, hlabel, htaking, henqueues, htaken⟩
      have hother : other ≠ thread := by
        rintro rfl
        have hstep := (hstays p (by omega)).2
        rw [hlabel, Label.isStepOf_iff.mpr rfl] at hstep
        cases hstep
      exact hnever ⟨p, other, taking, by omega, hother, hlabel, htaking, henqueues, ih, htaken⟩
  obtain ⟨p, current, hp, hstate, hadvances⟩ := exists_advance hreachable (hfair thread) (hstays m hn).1
    fun p hp _ hwaits => hwaits.mutex_ne_none.1 (hremains p hp)
  exact hstuck ⟨p, current, hn.trans hp, hstate, hadvances⟩

/-- Under a fair scheduler, a call of the queue returns, or calls of the same operation by other threads overtake it
without end: they take the mutex for which it waits. Calls of the other operation do not delay it, whether they go on or
not. -/
theorem calls_return (hreachable : (twoLockQueue ι T).Reachable (e.state 0))
    (hfair : ∀ thread, e.FairTo (Label.isStepOf thread)) (hcall : (e.state n).calls thread = some state) :
    (∃ m, n ≤ m ∧ (e.state m).calls thread = none) ∨ ∀ m, Overtaken e thread state.enqueues m := by
  refine or_iff_not_imp_right.mpr fun hovertaken => ?_
  obtain ⟨last, hnever⟩ := not_forall.mp hovertaken
  generalize hk : state.remaining = k
  induction k using Nat.strong_induction_on generalizing n state with
  | h k ih =>
    obtain ⟨m, current, hm, -, hadvances⟩ := exists_advance_of_not_overtaken hreachable hfair hcall hnever
    have hnow : (e.state (m + 1)).calls thread = current := by rw [hadvances.calls, Function.update_self]
    cases current with
    | none => exact ⟨m + 1, by omega, hnow⟩
    | some after =>
      obtain ⟨henqueues, hless⟩ := hadvances.closer after rfl
      obtain ⟨p, hp, hreturned⟩ := ih _ (hk ▸ hless) hnow (henqueues ▸ hovertaken) (henqueues ▸ hnever) rfl
      exact ⟨p, by omega, hreturned⟩

/-- One thread takes the mutex of the enqueues, and another one comes to it. -/
def contention : List (Label Bool ℕ) :=
  [.enqueue false 7, .step false, .step false, .step false, .enqueue true 8, .step true, .step true]

/-- The holder takes more steps. -/
def contended (k : ℕ) : TwoLockQueue Bool ℕ :=
  ((twoLockQueue Bool ℕ).run (contention ++ List.replicate k (.step false)) (twoLockQueue Bool ℕ).start).getD
    (twoLockQueue Bool ℕ).start

/-- The state is reached if the holder has so many steps to take. -/
theorem reachable_contended {k : ℕ} (h : ((twoLockQueue Bool ℕ).run (contention ++ List.replicate k (.step false))
    (twoLockQueue Bool ℕ).start).isSome = true) : (twoLockQueue Bool ℕ).Reachable (contended k) := by
  obtain ⟨s, hs⟩ := Option.isSome_iff_exists.mp h
  rw [contended, hs]
  exact Machine.reachable_of_run hs

/-- The other thread enqueues again and again. -/
def enqueueAgain (s : TwoLockQueue Bool ℕ) : Label Bool ℕ :=
  match s.calls true with
  | none => .enqueue true 8
  | some _ => .step true

/-- The holder has returned. -/
def Alone (s : TwoLockQueue Bool ℕ) : Prop := (twoLockQueue Bool ℕ).Reachable s ∧ s.calls false = none

/-- A thread that is alone never waits. -/
theorem enqueueAgain_enabled (s : TwoLockQueue Bool ℕ) (h : Alone s) :
    ((twoLockQueue Bool ℕ).next (enqueueAgain s) s).isSome = true := by
  obtain ⟨hreachable, hreturned⟩ := h
  cases hcall : s.calls true with
  | none => simp [enqueueAgain, twoLockQueue, TwoLockQueue.next, TwoLockQueue.call, hcall]
  | some state =>
    obtain ⟨_, _, _, hdescribed⟩ := described_of_reachable hreachable
    obtain ⟨t, _, _, _, hstep, _⟩ | ⟨hwaits, _⟩ := hdescribed.step hcall
    · simp [enqueueAgain, twoLockQueue, TwoLockQueue.next, hcall, hstep]
    · obtain ⟨hmutex, hlocked⟩ := hwaits.mutex_ne_none
      obtain ⟨holder, hholder⟩ := Option.ne_none_iff_exists'.mp hmutex
      obtain ⟨holding, hholding, _, hholds⟩ := (held_of_reachable hreachable _ _).mp hholder
      cases holder with
      | false =>
        rw [hreturned] at hholding
        cases hholding
      | true =>
        obtain rfl := Option.some.inj (hcall.symm.trans hholding)
        rw [hlocked] at hholds
        cases hholds

/-- A thread that is alone stays alone. -/
theorem Alone.next (s t : TwoLockQueue Bool ℕ) (h : Alone s)
    (hnext : (twoLockQueue Bool ℕ).next (enqueueAgain s) s = some t) : Alone t := by
  refine ⟨h.1.step trivial hnext, ?_⟩
  cases hcall : s.calls true with
  | none =>
    rw [enqueueAgain, hcall] at hnext
    simp only [twoLockQueue, TwoLockQueue.next, TwoLockQueue.call, hcall, Option.some.injEq] at hnext
    subst hnext
    exact h.2
  | some state =>
    rw [enqueueAgain, hcall] at hnext
    obtain ⟨current, hadvances⟩ := (held_of_reachable h.1).next_advances hcall hnext
    rw [hadvances.calls, Function.update_of_ne (by decide)]
    exact h.2

/-- After the holder has returned, the other thread is alone. -/
def alone : (twoLockQueue Bool ℕ).Execution :=
  .ofPolicy enqueueAgain enqueueAgain_enabled Alone.next (contended 4) ⟨reachable_contended rfl, rfl⟩

/-- The execution from where the other thread has come to the mutex. -/
def contending : (twoLockQueue Bool ℕ).Execution :=
  .cons (.step false) (contended 0) (.cons (.step false) (contended 1)
    (.cons (.step false) (contended 2) (.cons (.step false) (contended 3) alone rfl) rfl) rfl) rfl

/-- The thread that is alone takes its steps, and the other one has none to take. -/
theorem alone_fair (thread : Bool) : alone.FairTo (Label.isStepOf thread) := by
  intro n henabled
  refine ⟨n, le_rfl, ?_⟩
  obtain ⟨label, hlabel, hnext⟩ := henabled n le_rfl
  rw [Label.isStepOf_iff.mp hlabel] at hnext
  obtain ⟨⟨_, hreturned⟩, hpolicy⟩ : Alone (alone.state n) ∧ alone.label n = enqueueAgain (alone.state n) :=
    Machine.Execution.ofPolicy_spec n
  cases thread with
  | false => simp [twoLockQueue, TwoLockQueue.next, hreturned] at hnext
  | true =>
    rw [Label.isStepOf_iff, hpolicy]
    cases hcall : (alone.state n).calls true with
    | none => simp [twoLockQueue, TwoLockQueue.next, hcall] at hnext
    | some state => simp [enqueueAgain, hcall]

/-- A thread that waits for the mutex which another one holds returns. -/
theorem calls_return_contended : (contending.state 0).mutex true = some false ∧
    (∃ newNode, (contending.state 0).calls true = some (.lockTail 8 newNode)) ∧
      ∃ m, (contending.state m).calls true = none := by
  have hfair : ∀ thread, contending.FairTo (Label.isStepOf thread) := fun thread => (alone_fair thread).cons.cons.cons.cons
  have hreachable : (twoLockQueue Bool ℕ).Reachable (contending.state 0) := reachable_contended (k := 0) rfl
  obtain ⟨newNode, hcall⟩ : ∃ newNode, (contending.state 0).calls true = some (.lockTail 8 newNode) := ⟨_, rfl⟩
  refine ⟨rfl, ⟨newNode, hcall⟩, ?_⟩
  obtain ⟨m, _, hreturned⟩ | hovertaken := calls_return hreachable hfair hcall
  · exact ⟨m, hreturned⟩
  · -- From the fourth step on, only this thread takes steps.
    obtain ⟨m, other, _, hm, hother, hlabel, _⟩ := hovertaken 4
    obtain ⟨n, rfl⟩ := Nat.exists_eq_add_of_le' hm
    have hpolicy : alone.label n = enqueueAgain (alone.state n) := (Machine.Execution.ofPolicy_spec n).2
    have hsame : contending.label (n + 4) = alone.label n := rfl
    rw [hsame, hpolicy, enqueueAgain] at hlabel
    cases hnow : (alone.state n).calls true with
    | none =>
      rw [hnow] at hlabel
      cases hlabel
    | some state =>
      rw [hnow] at hlabel
      exact absurd (Label.step.inj hlabel).symm hother

end TwoLockQueue

end MatchingEngine
