import MatchingEngine.Foundation.Queue
import MatchingEngine.RingBuffer

/-!
# The ring buffer between one producer and one consumer

With a single producer thread, which calls `tryPush` (or `push`, which calls it until it
returns true), the ring buffer is a queue that holds one value less than its capacity, in
every interleaving of the loads and stores.

A single producer excludes itself, so that the invariant of the queue holds in all runs. A
value enters with the store of the write index and leaves with the store of the read index.

If there is room for a value at all, a call of `tryPush` on an empty ring buffer returns true.
-/

namespace MatchingEngine.SharedRing

open RingBufferSPSCLockFree

variable {T : Type*} {capacity : ℕ} {s t : SharedRing Unit T}

/-- The queue that the ring buffer stands for. -/
def toQueue (s : SharedRing Unit T) : Queue (Option T) := ⟨s.ring.contents, s.pushes.map some, s.pops⟩

@[simp] theorem toQueue_contents : s.toQueue.contents = s.ring.contents := rfl

/-- What a step means for the queue: calls that return true take effect, calls that return false find the queue full
or empty, and all other steps mean nothing. -/
def commit : Label Unit T → SharedRing Unit T → List (Queue.Label (Option T))
  | .tryPush _ _, _ => []
  | .produce producer, s =>
    match s.producers producer with
    | none => []
    | some (val, state) =>
      match (s.ring.tryPushStep val state).2 with
      | .inl _ => []
      | .inr true => [.enter (some val)]
      | .inr false => [.refuse]
  | .consume, s =>
    match (s.ring.tryPopStep s.consumer).2 with
    | .inl _ => []
    | .inr none => [.miss]
    | .inr (some _) => [.leave]

/-- The producer knows the write index from the time it has loaded it. -/
def Current (s : SharedRing Unit T) : Prop :=
  ∀ val currentTail, s.producers () = some (val, .loadRead currentTail) → currentTail = s.ring.write

/-- A single producer excludes itself. -/
theorem Current.exclusive (h : s.Current) (label : Label Unit T) : Exclusive label s := by
  cases label with
  | tryPush => trivial
  | consume => trivial
  | produce producer =>
    intro val currentTail hproducer _
    exact ⟨h val currentTail hproducer, fun other hother => absurd rfl hother⟩

/-- Every step keeps the loaded write index current. -/
theorem Current.next (h : s.Current) {label : Label Unit T} (hnext : SharedRing.next label s = some t) : t.Current := by
  cases label with
  | tryPush producer val =>
    simp only [SharedRing.next] at hnext
    split at hnext
    · obtain rfl := Option.some.inj hnext
      intro other currentTail hproducer
      simp [SharedRing.tryPush] at hproducer
    · cases hnext
  | produce producer =>
    obtain ⟨⟨val, state⟩, _, rfl⟩ := Option.map_eq_some_iff.mp hnext
    intro other currentTail hproducer
    exact produce_current hproducer
  | consume =>
    obtain rfl := Option.some.inj hnext
    intro other currentTail hproducer
    rw [consume_producers] at hproducer
    rw [consume_write]
    exact h other currentTail hproducer

/-- The capacity never changes. -/
theorem next_capacity {label : Label Unit T} (hnext : SharedRing.next label s = some t) :
    t.ring.capacity = s.ring.capacity := by
  cases label with
  | tryPush producer val =>
    simp only [SharedRing.next] at hnext
    split at hnext
    · exact Option.some.inj hnext ▸ rfl
    · cases hnext
  | produce producer =>
    obtain ⟨⟨val, state⟩, _, rfl⟩ := Option.map_eq_some_iff.mp hnext
    exact produce_capacity producer val state
  | consume => exact Option.some.inj hnext ▸ consume_capacity

/-- In every run of one producer and one consumer, the ring buffer works as a queue. -/
theorem fifo_of_reachable (hcapacity : 0 < capacity) (h : (sharedRing Unit T capacity).Reachable s) :
    s.Fifo ∧ s.ring.capacity = capacity ∧ s.Current := by
  refine h.invariant (I := fun s => s.Fifo ∧ s.ring.capacity = capacity ∧ s.Current)
    ⟨.initial hcapacity, rfl, fun _ _ hproducer => by cases hproducer⟩ fun label s t _ hs _ hnext => ?_
  obtain ⟨hfifo, hring, hcurrent⟩ := hs
  exact ⟨hfifo.next (hcurrent.exclusive label) hnext, (next_capacity hnext).trans hring, hcurrent.next hnext⟩

/-- A call of `tryPush` returns false where it loads the read index, and finds the queue full. -/
theorem Fifo.tryPush_returns_false (h : s.Fifo) (hcurrent : s.Current) {val : T} {state : PushState}
    (hproducer : s.producers () = some (val, state)) (hreturned : (s.ring.tryPushStep val state).2 = .inr false) :
    ∃ currentTail, state = .loadRead currentTail ∧ s.ring.contents.length + 1 = s.ring.capacity := by
  cases state with
  | loadWrite => cases hreturned
  | storeSlot => cases hreturned
  | storeWrite => cases hreturned
  | loadRead currentTail =>
    refine ⟨currentTail, rfl, h.full_iff.mp ?_⟩
    rw [Full, ← hcurrent val currentTail hproducer]
    by_contra hspace
    simp [tryPushStep, hspace] at hreturned

/-- A call of `tryPop` returns false where it loads the write index, and finds the queue empty. -/
theorem Fifo.tryPop_returns_false (h : s.Fifo) (hreturned : (s.ring.tryPopStep s.consumer).2 = .inr none) :
    ∃ currentHead, s.consumer = .loadWrite currentHead ∧ s.ring.contents = [] := by
  have hconsumer := h.consumer
  cases hstate : s.consumer with
  | loadRead => simp [hstate, tryPopStep] at hreturned
  | loadSlot => simp [hstate, tryPopStep] at hreturned
  | storeRead => simp [hstate, tryPopStep] at hreturned
  | loadWrite currentHead =>
    refine ⟨currentHead, rfl, List.eq_nil_iff_length_eq_zero.mpr ?_⟩
    rw [hstate] at hconsumer
    obtain ⟨count, hpushes, hcount, _⟩ := h.exists_count
    have hlength := h.contents_length
    have hempty : currentHead = s.ring.write := by
      by_contra hne
      simp [hstate, tryPopStep, hne] at hreturned
    have hread : currentHead = s.ring.read := hconsumer
    rw [hread, h.read, h.write, hpushes, Circular.mod_eq_iff hcount] at hempty
    omega

/-- The producer is never about to store to the slot that the consumer is about to load. -/
theorem Fifo.slots_apart (h : s.Fifo) {val : T} {currentTail currentHead : ℕ}
    (hproducer : s.producers () = some (val, .storeSlot currentTail)) (hconsumer : s.consumer = .loadSlot currentHead) :
    currentTail ≠ currentHead := by
  have hpops := h.consumer
  rw [hconsumer] at hpops
  obtain ⟨rfl, hlt⟩ := hpops
  have hlive := h.not_mem_live hproducer
  intro heq
  refine hlive ?_
  obtain ⟨count, hcount⟩ : ∃ count, s.pushes.length - s.pops.length = count + 1 :=
    ⟨s.pushes.length - s.pops.length - 1, by omega⟩
  rw [h.live_eq, hcount, Circular.slots_succ, heq, h.read]
  exact List.mem_cons_self ..

/-- What a step of the producer returns. -/
theorem produce_result (val : T) (state : PushState) :
    (s.produce () val state).2 = (s.ring.tryPushStep val state).2.getRight? := by
  unfold produce
  split <;> simp [*]

/-- What a step of the consumer returns. -/
theorem consume_result : s.consume.2 = (s.ring.tryPopStep s.consumer).2.getRight?.join := by
  unfold consume
  split <;> simp [*]

/-- The queue is determined by what was pushed and popped. -/
theorem Fifo.toQueue_eq (h : s.Fifo) :
    s.toQueue = ⟨(s.pushes.drop s.pops.length).map some, s.pushes.map some, s.pops⟩ := by
  rw [toQueue, h.contents_eq]

/-- Steps that neither push nor pop mean nothing for the queue. -/
theorem Fifo.toQueue_congr (h : s.Fifo) (ht : t.Fifo) (hpushes : t.pushes = s.pushes) (hpops : t.pops = s.pops) :
    t.toQueue = s.toQueue := by
  rw [h.toQueue_eq, ht.toQueue_eq, hpushes, hpops]

/-- A step of the producer is the step of the queue that it stands for. -/
theorem Fifo.produce_toQueue (h : s.Fifo) (hring : s.ring.capacity = capacity) (hcurrent : s.Current)
    {val : T} {state : PushState} (hproducer : s.producers () = some (val, state))
    (hafter : (s.produce () val state).1.Fifo) :
    (queue (Option T) (· < capacity - 1)).run (commit (.produce ()) s) s.toQueue =
      some (s.produce () val state).1.toQueue := by
  have hresult := s.produce_result val state
  simp only [commit, hproducer]
  cases hstep : (s.ring.tryPushStep val state).2 with
  | inl next =>
    rw [hstep] at hresult
    have hrunning := produce_running (by rw [hresult]; simp)
    exact congrArg some (h.toQueue_congr hafter hrunning.1 (produce_pops ..)).symm
  | inr pushed =>
    rw [hstep] at hresult
    cases pushed with
    | false =>
      obtain ⟨currentTail, rfl, hfull⟩ := h.tryPush_returns_false hcurrent hproducer hstep
      have hrunning := produce_running (by rw [hresult]; simp)
      have hroom : decide (s.toQueue.contents.length < capacity - 1) = false := by
        rw [toQueue_contents]
        exact decide_eq_false (by omega)
      rw [h.toQueue_congr hafter hrunning.1 (produce_pops ..)]
      simp only [Machine.run_singleton]
      exact Queue.next_refuse hroom
    | true =>
      have hspace := h.space_of_claims (claims_of_returned hproducer hresult).1
      have hroom : decide (s.toQueue.contents.length < capacity - 1) = true := by
        rw [toQueue_contents]
        exact decide_eq_true (by omega)
      have hpushes := (produce_returned hresult).1
      simp only [Machine.run_singleton]
      rw [Queue.next_enter hroom, hafter.toQueue_eq, h.toQueue_eq, produce_pops, hpushes,
        List.drop_append_of_le_length h.pops_le, List.map_append, List.map_append, List.map_singleton]

/-- A step of the consumer is the step of the queue that it stands for. -/
theorem Fifo.consume_toQueue (h : s.Fifo) (hafter : s.consume.1.Fifo) :
    (queue (Option T) (· < capacity - 1)).run (commit .consume s) s.toQueue = some s.consume.1.toQueue := by
  have hresult := s.consume_result
  have hpops := s.consume_pops
  simp only [commit]
  cases hstep : (s.ring.tryPopStep s.consumer).2 with
  | inl next =>
    rw [hstep] at hresult
    rw [hresult, Sum.getRight?_inl, Option.join_none, Option.toList_none, List.append_nil] at hpops
    exact congrArg some (h.toQueue_congr hafter consume_pushes hpops).symm
  | inr popped =>
    rw [hstep] at hresult
    cases popped with
    | none =>
      obtain ⟨_, _, hempty⟩ := h.tryPop_returns_false hstep
      rw [hresult, Sum.getRight?_inr, Option.join_some, Option.toList_none, List.append_nil] at hpops
      rw [h.toQueue_congr hafter consume_pushes hpops]
      simp only [Machine.run_singleton]
      exact Queue.next_miss hempty
    | some element =>
      rw [hresult, Sum.getRight?_inr, Option.join_some, Option.toList_some] at hpops
      have hcontents : s.toQueue.contents = element :: s.consume.1.toQueue.contents := by
        have hbefore := h.pops_append_contents
        rw [← consume_pushes, ← hafter.pops_append_contents, hpops, List.append_assoc] at hbefore
        exact List.append_cancel_left hbefore
      simp only [Machine.run_singleton]
      rw [Queue.next_leave hcontents]
      simp only [toQueue, consume_pushes, hpops]

/-- Between one producer and one consumer, the ring buffer implements a queue that holds one value less than its
capacity. -/
theorem implements_queue (hcapacity : 0 < capacity) :
    (sharedRing Unit T capacity).Implements (queue (Option T) (· < capacity - 1)) toQueue commit where
  start := by
    change toQueue (.initial capacity) = _
    rw [(Fifo.initial hcapacity).toQueue_eq]
    rfl
  step label s t hs hnext := by
    obtain ⟨hfifo, hring, hcurrent⟩ := fifo_of_reachable hcapacity hs
    have hafter := (fifo_of_reachable hcapacity (hs.step trivial hnext)).1
    cases label with
    | tryPush producer val =>
      simp only [sharedRing, SharedRing.next] at hnext
      split at hnext
      · obtain rfl := Option.some.inj hnext
        exact congrArg some (hfifo.toQueue_congr hafter rfl rfl).symm
      · cases hnext
    | produce producer =>
      obtain ⟨⟨val, state⟩, hproducer, rfl⟩ := Option.map_eq_some_iff.mp hnext
      exact hfifo.produce_toQueue hring hcurrent hproducer hafter
    | consume =>
      obtain rfl := Option.some.inj hnext
      exact hfifo.consume_toQueue hafter

/-- With one producer and one consumer the ring buffer implements a queue of one value less than its capacity; in each
state reached, the values popped are a prefix of those pushed, `tryPush` returns false only where it loads the read
index of a full queue and `tryPop` only where it loads the write index of an empty one, no slot is loaded while it is
stored to, and the indices are within the capacity, where the machine arithmetic of the source is exact. -/
theorem singleProducer_queue (hcapacity : 0 < capacity) (hfits : capacity < 2 ^ 31) :
    (sharedRing Unit T capacity).Implements (queue (Option T) (· < capacity - 1)) toQueue commit ∧
      ∀ s, (sharedRing Unit T capacity).Reachable s →
        s.pops <+: s.pushes.map some ∧ s.pops ++ s.ring.contents = s.pushes.map some ∧
        s.ring.contents.length ≤ capacity - 1 ∧
        (∀ val state, s.producers () = some (val, state) → (s.ring.tryPushStep val state).2 = .inr false →
          ∃ currentTail, state = .loadRead currentTail ∧ s.ring.contents.length = capacity - 1) ∧
        ((s.ring.tryPopStep s.consumer).2 = .inr none →
          ∃ currentHead, s.consumer = .loadWrite currentHead ∧ s.ring.contents = []) ∧
        (∀ val currentTail currentHead, s.producers () = some (val, .storeSlot currentTail) →
          s.consumer = .loadSlot currentHead → currentTail ≠ currentHead) ∧
        s.ring.write < capacity ∧ s.ring.read < capacity ∧
        ∀ n < capacity, (Circular.nextInt (.ofNat 64 capacity) (.ofNat 32 n)).toNat = s.ring.increment n := by
  refine ⟨implements_queue hcapacity, fun s hs => ?_⟩
  obtain ⟨hfifo, hring, hcurrent⟩ := fifo_of_reachable hcapacity hs
  have hqueue : s.pops ++ s.ring.contents = s.pushes.map some :=
    Queue.left_append_contents ((implements_queue hcapacity).reachable hs)
  have hlength := hfifo.contents_length
  have hbounded := hfifo.bounded
  refine ⟨⟨_, hqueue⟩, hqueue, by omega, fun val state hproducer hreturned => ?_, hfifo.tryPop_returns_false,
    fun _ _ _ => hfifo.slots_apart, ?_, ?_, fun n hn => ?_⟩
  · obtain ⟨currentTail, hstate, hfull⟩ := hfifo.tryPush_returns_false hcurrent hproducer hreturned
    exact ⟨currentTail, hstate, by omega⟩
  · rw [hfifo.write, hring]
    exact Nat.mod_lt _ hcapacity
  · rw [hfifo.read, hring]
    exact Nat.mod_lt _ hcapacity
  · rw [Circular.nextInt_toNat hn hfits, increment, hring]

/-- A ring buffer of capacity two refuses the second value. -/
theorem singleProducer_queue_full :
    ∃ s : SharedRing Unit ℕ, (sharedRing Unit ℕ 2).Reachable s ∧ s.pushes = [7] ∧
      (s.producers ()).any (fun (val, state) => val == 8 && (s.ring.tryPushStep val state).2 == .inr false) = true ∧
      s.pops ++ s.ring.contents = [some 7] ∧ s.ring.contents.length ≤ 2 - 1 := by
  have hrun : ((sharedRing Unit ℕ 2).run
      [.tryPush () 7, .produce (), .produce (), .produce (), .produce (), .tryPush () 8, .produce ()]
      (sharedRing Unit ℕ 2).start).any (fun s => s.pushes == [7] &&
        (s.producers ()).any (fun (val, state) => val == 8 && (s.ring.tryPushStep val state).2 == .inr false)) =
      true := by decide
  obtain ⟨s, hreachable, htest⟩ := Machine.exists_reachable_of_run hrun
  obtain ⟨hpushes, hrefused⟩ := Bool.and_eq_true_iff.mp htest
  obtain ⟨_, hqueue, hlength, _⟩ := (singleProducer_queue (by decide) (by decide)).2 s hreachable
  rw [eq_of_beq hpushes] at hqueue
  exact ⟨s, hreachable, eq_of_beq hpushes, hrefused, hqueue, hlength⟩

/-- How many steps a call of `tryPush` takes until it returns true. -/
def remaining : PushState → ℕ
  | .loadWrite => 4
  | .loadRead _ => 3
  | .storeSlot _ => 2
  | .storeWrite _ => 1

/-- A step of the producer or of the consumer. -/
def turn (producer : Bool) : Label Unit T := if producer then .produce () else .consume

/-- On an empty ring buffer with room for a value, a call of `tryPush` goes on until it stores the write index. -/
theorem Fifo.tryPushStep_of_empty (h : s.Fifo) (hcurrent : s.Current) (hcapacity : 2 ≤ s.ring.capacity) {val : T}
    {state : PushState} (hproducer : s.producers () = some (val, state)) (hempty : s.pushes.length = s.pops.length) :
    (∃ currentTail, state = .storeWrite currentTail) ∨
      ∃ next, (s.ring.tryPushStep val state).2 = .inl next ∧ remaining next + 1 = remaining state := by
  cases state with
  | loadWrite => exact Or.inr ⟨_, rfl, rfl⟩
  | storeSlot currentTail => exact Or.inr ⟨_, rfl, rfl⟩
  | storeWrite currentTail => exact Or.inl ⟨currentTail, rfl⟩
  | loadRead currentTail =>
    by_cases hspace : s.ring.increment currentTail = s.ring.read
    · have hreturned : (s.ring.tryPushStep val (.loadRead currentTail)).2 = .inr false := by simp [tryPushStep, hspace]
      obtain ⟨_, _, hfull⟩ := h.tryPush_returns_false hcurrent hproducer hreturned
      have hlength := h.contents_length
      omega
    · exact Or.inr ⟨.storeSlot currentTail, by simp [tryPushStep, hspace], rfl⟩

/-- An empty ring buffer stays empty under the steps of the consumer. -/
theorem Fifo.consume_of_empty (hafter : s.consume.1.Fifo) (hempty : s.pushes.length = s.pops.length) :
    s.consume.1.pushes.length = s.consume.1.pops.length := by
  have hle := hafter.pops_le
  rw [consume_pushes, consume_pops, List.length_append] at hle ⊢
  omega

/-- A call of `tryPush` that goes on has pushed nothing, and is at its next step. -/
theorem produce_of_goes_on {val : T} {state next : PushState} (hstep : (s.ring.tryPushStep val state).2 = .inl next) :
    (s.produce () val state).1.pushes = s.pushes ∧ (s.produce () val state).1.producers () = some (val, next) := by
  unfold produce
  split
  · rename_i ring next' hresult
    rw [hresult] at hstep
    obtain rfl := Sum.inl.inj hstep
    exact ⟨rfl, by simp⟩
  · rename_i ring pushed hresult
    rw [hresult] at hstep
    cases hstep

/-- The consumer can always step, and its steps push nothing. -/
theorem run_consume (capacity : ℕ) {schedule : List Bool} (hschedule : schedule.count true = 0) (s : SharedRing Unit T) :
    ∃ t, (sharedRing Unit T capacity).run (schedule.map turn) s = some t ∧ t.pushes = s.pushes := by
  induction schedule generalizing s with
  | nil => exact ⟨s, rfl, rfl⟩
  | cons producer schedule ih =>
    cases producer with
    | true => simp at hschedule
    | false =>
      obtain ⟨t, hrun, hpushes⟩ := ih (by simpa using hschedule) s.consume.1
      exact ⟨t, hrun, hpushes.trans consume_pushes⟩

/-- On an empty ring buffer with room for a value, a call of `tryPush` returns true after its remaining steps, whatever
steps the consumer takes between them. -/
theorem run_tryPush_of_empty (hcapacity : 2 ≤ capacity) {schedule : List Bool} {val : T} {state : PushState}
    (hs : (sharedRing Unit T capacity).Reachable s) (hproducer : s.producers () = some (val, state))
    (hempty : s.pushes.length = s.pops.length) (hschedule : schedule.count true = remaining state) :
    ∃ t, (sharedRing Unit T capacity).run (schedule.map turn) s = some t ∧ t.pushes = s.pushes ++ [val] := by
  induction schedule generalizing s state with
  | nil => cases state <;> cases hschedule
  | cons producer schedule ih =>
    obtain ⟨hfifo, hring, hcurrent⟩ := fifo_of_reachable (by omega) hs
    cases producer with
    | false =>
      have hnext : (sharedRing Unit T capacity).next .consume s = some s.consume.1 := rfl
      have hafter := (fifo_of_reachable (by omega) (hs.step trivial hnext)).1
      obtain ⟨t, hrun, hpushes⟩ := ih (hs.step trivial hnext) (by rw [consume_producers, hproducer])
        (hafter.consume_of_empty hempty) (by simpa using hschedule)
      exact ⟨t, hrun, by rw [hpushes, consume_pushes]⟩
    | true =>
      have hnext : (sharedRing Unit T capacity).next (.produce ()) s = some (s.produce () val state).1 := by
        simp [sharedRing, SharedRing.next, hproducer]
      have hrun : ∀ t, (sharedRing Unit T capacity).run (schedule.map turn) (s.produce () val state).1 = some t →
          (sharedRing Unit T capacity).run ((true :: schedule).map turn) s = some t := by
        intro t ht
        simp [turn, Machine.run, hnext, ht]
      have hschedule : schedule.count true + 1 = remaining state := by simpa using hschedule
      obtain ⟨currentTail, rfl⟩ | ⟨next, hstep, hremaining⟩ :=
        hfifo.tryPushStep_of_empty hcurrent (by omega) hproducer hempty
      · have hdone : schedule.count true = 0 := by simpa [remaining] using hschedule
        obtain ⟨t, ht, hpushes⟩ := run_consume capacity hdone (s.produce () val (.storeWrite currentTail)).1
        exact ⟨t, hrun t ht, hpushes⟩
      · obtain ⟨hpushes, hproducers⟩ := produce_of_goes_on hstep
        obtain ⟨t, ht, htpushes⟩ := ih (hs.step trivial hnext) hproducers (by rw [hpushes, produce_pops, hempty]) (by omega)
        exact ⟨t, hrun t ht, by rw [htpushes, hpushes]⟩

end MatchingEngine.SharedRing
