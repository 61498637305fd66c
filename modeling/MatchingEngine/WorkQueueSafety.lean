import MatchingEngine.RingPipeline

/-!
# No task is lost

An accepted order is submitted next, waits in a work queue, is held by a worker or was
executed. Over ring buffers this needs pushes that exclude each other, which the engine
does not see to: the dispatcher and a worker that schedules a cancel again push to the same
queue.

When no cancel is scheduled again, the dispatcher is the only producer, and its pushes
exclude each other whatever the interleaving.
-/

namespace MatchingEngine

namespace Pipeline

variable {symbols : List String} {s t : Pipeline}

/-- A task was executed, or is with a worker, in a queue, or about to be submitted. -/
def OnItsWay (s : Pipeline) (task : Task) : Prop :=
  task ∈ s.executed ∨ ∃ queueID, s.holding queueID = some task ∨ task ∈ s.engine.threadQueues queueID ∨
    .submitTask task queueID ∈ s.dispatching

/-- A task stays on its way. -/
theorem OnItsWay.next {task : Task} (h : s.OnItsWay task) {label : Label} (hnext : Pipeline.next label s = some t) :
    t.OnItsWay task := by
  rcases h with hexecuted | ⟨queueID, h⟩
  · refine Or.inl ?_
    rw [(next_records hnext).1]
    exact List.mem_append_left _ hexecuted
  obtain ⟨_, _, rfl⟩ | ⟨_, _, _, rfl⟩ | ⟨message, _, _, _, hdispatching, rfl⟩ | ⟨operation, rest, _, hdispatching, rfl⟩ |
    ⟨id, other, others, _, hidle, _, hqueue, rfl⟩ | ⟨id, other, _, hholding, rfl⟩ | ⟨id, operation, rest, _, _, rfl⟩ :=
    next_cases hnext
  · exact Or.inr ⟨queueID, h⟩
  · exact Or.inr ⟨queueID, h⟩
  · refine Or.inr ⟨queueID, h.imp_right (Or.imp_right fun hmem => ?_) |>.imp_right (Or.imp_left fun hmem => ?_)⟩
    · simp [hdispatching] at hmem
    · rwa [(dispatchWork_sameQueues s.engine message).threadQueues]
  · rcases h with hheld | hqueued | hsubmitted
    · exact Or.inr ⟨queueID, Or.inl hheld⟩
    · exact Or.inr ⟨queueID, Or.inr (Or.inl (List.mem_append_left _ hqueued))⟩
    · rw [hdispatching, List.mem_cons] at hsubmitted
      rcases hsubmitted with rfl | hsubmitted
      · refine Or.inr ⟨queueID, Or.inr (Or.inl ?_)⟩
        simp
      · exact Or.inr ⟨queueID, Or.inr (Or.inr hsubmitted)⟩
  · rcases h with hheld | hqueued | hsubmitted
    · have hne : queueID ≠ id := by
        rintro rfl
        simp [hidle] at hheld
      refine Or.inr ⟨queueID, Or.inl ?_⟩
      simp only [Function.update_of_ne hne]
      exact hheld
    · by_cases hid : queueID = id
      · subst hid
        rw [hqueue, List.mem_cons] at hqueued
        rcases hqueued with rfl | hqueued
        · exact Or.inr ⟨queueID, Or.inl (Function.update_self ..)⟩
        · exact Or.inr ⟨queueID, Or.inr (Or.inl (by simpa using hqueued))⟩
      · exact Or.inr ⟨queueID, Or.inr (Or.inl (by simpa [hid] using hqueued))⟩
    · exact Or.inr ⟨queueID, Or.inr (Or.inr hsubmitted)⟩
  · rcases h with hheld | hqueued | hsubmitted
    · by_cases hid : queueID = id
      · subst hid
        rw [hholding, Option.some.injEq] at hheld
        exact Or.inl (List.mem_append_right _ (List.mem_singleton.mpr hheld.symm))
      · refine Or.inr ⟨queueID, Or.inl ?_⟩
        simp only [Function.update_of_ne hid]
        exact hheld
    · refine Or.inr ⟨queueID, Or.inr (Or.inl ?_)⟩
      rwa [(s.engine.taskWork_sameQueues other).threadQueues]
    · exact Or.inr ⟨queueID, Or.inr (Or.inr hsubmitted)⟩
  · rcases h with hheld | hqueued | hsubmitted
    · exact Or.inr ⟨queueID, Or.inl hheld⟩
    · exact Or.inr ⟨queueID, Or.inr (Or.inl (List.mem_append_left _ hqueued))⟩
    · exact Or.inr ⟨queueID, Or.inr (Or.inr hsubmitted)⟩

/-- The invariant of accepted orders; a rejection is not followed by a submission. -/
structure Kept (s : Pipeline) : Prop where
  accepted : ∀ message ∈ s.engine.outgoingMessages, message.type = .accepted → s.OnItsWay (.newOrder message.order)
  follows : ∀ message rest, s.dispatching = .enqueue message :: rest → message.type = .accepted →
    ∃ queueID, .submitTask (.newOrder message.order) queueID ∈ rest

/-- What the dispatcher submits after an acceptance. -/
theorem dispatchWork_follows {c : CentralOrderBook} {incoming : IncomingMessage} {message : OutgoingMessage}
    {rest : List QueueOperation} (h : (dispatchWork c incoming).2 = .enqueue message :: rest)
    (haccepted : message.type = .accepted) : ∃ queueID, .submitTask (.newOrder message.order) queueID ∈ rest := by
  unfold dispatchWork at h
  split at h
  · simp only [CentralOrderBook.addOrderWork] at h
    split at h
    · rw [List.cons.injEq, QueueOperation.enqueue.injEq] at h
      obtain ⟨rfl, rfl⟩ := h
      exact ⟨_, List.mem_singleton_self _⟩
    · rw [CentralOrderBook.rejectOrderWork, List.cons.injEq, QueueOperation.enqueue.injEq] at h
      obtain ⟨rfl, rfl⟩ := h
      cases haccepted
  · simp [CentralOrderBook.cancelOrderWork] at h

/-- Every step keeps accepted orders on their way. -/
theorem Kept.next (h : s.Kept) (hs : s.Consistent symbols) (ha : s.Answered symbols) {label : Label}
    (hnext : Pipeline.next label s = some t) : t.Kept := by
  have hold : ∀ message ∈ s.engine.outgoingMessages, message.type = .accepted → t.OnItsWay (.newOrder message.order) :=
    fun message hmessage haccepted => (h.accepted message hmessage haccepted).next hnext
  obtain ⟨_, _, rfl⟩ | ⟨_, _, _, rfl⟩ | ⟨message, _, _, _, hdispatching, rfl⟩ | ⟨operation, rest, _, hdispatching, rfl⟩ |
    ⟨id, other, others, _, hidle, _, hqueue, rfl⟩ | ⟨id, other, _, hholding, rfl⟩ |
    ⟨id, operation, rest, _, hworking, rfl⟩ := next_cases hnext
  · exact ⟨hold, h.follows⟩
  · exact ⟨hold, h.follows⟩
  · refine ⟨?_, fun answer rest hrest haccepted => dispatchWork_follows hrest haccepted⟩
    simp only [(dispatchWork_sameQueues s.engine message).outgoingMessages]
    exact hold
  · refine ⟨fun message hmessage haccepted => ?_, fun message others hrest _ => ?_⟩
    · rcases List.mem_append.mp hmessage with hmessage | hmessage
      · exact hold message hmessage haccepted
      · cases operation with
        | enqueue answer =>
          rw [enqueued_enqueue, enqueued_nil, List.mem_singleton] at hmessage
          subst hmessage
          obtain ⟨queueID, hsubmit⟩ := h.follows message rest hdispatching haccepted
          exact Or.inr ⟨queueID, Or.inr (Or.inr hsubmit)⟩
        | submitTask => simp at hmessage
    · -- A call enqueues at most one answer.
      have hsingle := ha.single
      simp only at hrest
      rw [hdispatching, List.tail_cons, hrest] at hsingle
      simp at hsingle
  · exact ⟨hold, h.follows⟩
  · refine ⟨?_, h.follows⟩
    simp only [(s.engine.taskWork_sameQueues other).outgoingMessages]
    exact hold
  · refine ⟨fun message hmessage haccepted => ?_, h.follows⟩
    rcases List.mem_append.mp hmessage with hmessage | hmessage
    · exact hold message hmessage haccepted
    · have hreport := (hs.executed.working id message (by
        rw [hworking, ← List.singleton_append, enqueued_append]
        exact List.mem_append_left _ hmessage)).1
      rw [haccepted] at hreport
      cases hreport

/-- In every run, accepted orders stay on their way until they are executed. -/
theorem kept_of_reachable (h : (pipeline symbols).Reachable s) : s.Kept := by
  induction h with
  | start => exact ⟨fun _ hmem => absurd hmem List.not_mem_nil, fun _ _ heq => by cases heq⟩
  | step hs _ hnext ih => exact ih.next (consistent_of_reachable hs) (answered_of_reachable hs) hnext

end Pipeline

namespace RingPipeline

open RingBufferSPSCLockFree

variable {symbols : List String} {capacity : ℕ} {s t : RingPipeline}

/-- In every run in which the pushes to each queue exclude each other, what was pushed to a queue is what was
popped from it followed by what it holds, no task that is still to be popped is overwritten, and accepted
orders stay on their way until they are executed. -/
theorem no_task_lost (hcapacity : 0 < capacity) (h : (ringPipeline symbols capacity).ReachableBy Exclusive s) :
    (∀ queueID, (s.queues queueID).pops ++ (s.queues queueID).ring.contents = (s.queues queueID).pushes.map some) ∧
      (∀ queueID thread task currentTail,
        (s.queues queueID).producers thread = some (task, .storeSlot currentTail) →
          currentTail ∉ (s.queues queueID).ring.live) ∧
      ∀ message ∈ s.engine.outgoingMessages, message.type = .accepted →
        s.abstract.OnItsWay (.newOrder message.order) := by
  obtain ⟨hlinked, habstract⟩ := linked_of_reachableBy hcapacity h
  exact ⟨fun queueID => (hlinked.fifo queueID).pops_append_contents,
    fun queueID thread task currentTail hproducer => (hlinked.fifo queueID).not_mem_live hproducer,
    (Pipeline.kept_of_reachable habstract).accepted⟩

/-- No worker schedules a cancel again. -/
def Unrescheduled (label : Pipeline.Label) (s : RingPipeline) : Prop :=
  ∀ worker task queueID rest, label = .workerOperation worker → s.working worker ≠ .submitTask task queueID :: rest

/-- The dispatcher is the only producer, and what it has loaded of the write index is current. -/
structure SingleProducer (s : RingPipeline) : Prop where
  workers : ∀ queueID worker, (s.queues queueID).producers (.worker worker) = none
  current : ∀ queueID task currentTail, (s.queues queueID).producers .dispatcher = some (task, .loadRead currentTail) →
    currentTail = (s.queues queueID).ring.write

/-- Where no cancel is scheduled again, only the dispatcher submits a task. -/
theorem Unrescheduled.eq_dispatcher {label : Pipeline.Label} (h : Unrescheduled label s) {thread : Thread} {task : Task}
    {queueID : ℕ} {rest : List QueueOperation} (hlabel : operating label = some thread)
    (hoperations : s.operations thread = .submitTask task queueID :: rest) : thread = .dispatcher := by
  cases thread with
  | dispatcher => rfl
  | worker worker => exact absurd hoperations (h worker task queueID rest (eq_of_operating_worker hlabel))

/-- A single producer excludes nobody. -/
theorem SingleProducer.exclusive (h : s.SingleProducer) {label : Pipeline.Label} (hunrescheduled : Unrescheduled label s) :
    Exclusive label s := by
  intro thread task queueID rest hlabel hoperations val currentTail hproducer _
  obtain rfl := hunrescheduled.eq_dispatcher hlabel hoperations
  refine ⟨h.current queueID val currentTail hproducer, fun other hother ⟨_, _, hstate, _⟩ => ?_⟩
  cases other with
  | dispatcher => exact hother rfl
  | worker worker => simp [h.workers queueID worker] at hstate

/-- One ring buffer may change under its single producer. -/
theorem SingleProducer.setQueue (h : s.SingleProducer) {queueID : ℕ} {queue : SharedRing Thread Task}
    (hworkers : ∀ worker, queue.producers (.worker worker) = none)
    (hcurrent : ∀ task currentTail, queue.producers .dispatcher = some (task, .loadRead currentTail) →
      currentTail = queue.ring.write) : (s.setQueue queueID queue).SingleProducer where
  workers q worker := by
    by_cases hq : q = queueID
    · subst hq
      simp only [setQueue_queues_self]
      exact hworkers worker
    · simp only [setQueue_queues_of_ne _ _ hq]
      exact h.workers q worker
  current q task currentTail hproducer := by
    by_cases hq : q = queueID
    · subst hq
      simp only [setQueue_queues_self] at hproducer ⊢
      exact hcurrent task currentTail hproducer
    · simp only [setQueue_queues_of_ne _ _ hq] at hproducer ⊢
      exact h.current q task currentTail hproducer

/-- While no cancel is scheduled again, the dispatcher stays the only producer. -/
theorem SingleProducer.next (h : s.SingleProducer) {label : Pipeline.Label} (hunrescheduled : Unrescheduled label s)
    (hnext : RingPipeline.next label s = some t) : t.SingleProducer := by
  obtain ⟨p, _, _, rfl⟩ | ⟨thread, task, queueID, rest, u, returned, hlabel, hoperations, hstep, rfl⟩ |
    ⟨queueID, rfl, _, _, hpop⟩ := next_cases hnext
  · exact ⟨h.workers, h.current⟩
  · obtain rfl := hunrescheduled.eq_dispatcher hlabel hoperations
    have hworker : ∀ worker, Thread.worker worker ≠ .dispatcher := fun worker h => Thread.noConfusion h
    have hu : u.SingleProducer := by
      obtain ⟨_, ⟨_, _, rfl⟩ | ⟨val, state, _, _, rfl⟩⟩ := submitStep_cases hstep
      · refine h.setQueue (fun worker => ?_) fun others currentTail hproducer => ?_
        · simp only [SharedRing.tryPush, Function.update_of_ne (hworker worker)]
          exact h.workers queueID worker
        · simp [SharedRing.tryPush] at hproducer
      · refine h.setQueue (fun worker => ?_) fun others currentTail hproducer => SharedRing.produce_current hproducer
        obtain ⟨current, hupdate, _⟩ := (s.queues queueID).produce_producers .dispatcher val state
        simp only [hupdate, Function.update_of_ne (hworker worker)]
        exact h.workers queueID worker
    cases returned with
    | false => exact hu
    | true => exact ⟨hu.workers, hu.current⟩
  · have hu : (s.setQueue queueID (s.queues queueID).consume.1).SingleProducer := by
      refine h.setQueue (fun worker => ?_) fun others currentTail hproducer => ?_
      · rw [SharedRing.consume_producers]
        exact h.workers queueID worker
      · rw [SharedRing.consume_producers] at hproducer
        rw [SharedRing.consume_write]
        exact h.current queueID others currentTail hproducer
    obtain ⟨_, rfl⟩ | ⟨_, _, rfl⟩ := hpop
    · exact hu
    · exact ⟨hu.workers, hu.current⟩

/-- As long as no cancel is scheduled again, pushes exclude each other in every interleaving. -/
theorem exclusive_of_unrescheduled (h : (ringPipeline symbols capacity).ReachableBy Unrescheduled s) :
    s.SingleProducer ∧ (ringPipeline symbols capacity).ReachableBy Exclusive s := by
  induction h with
  | start => exact ⟨⟨fun _ _ => rfl, fun _ _ _ heq => by cases heq⟩, .start⟩
  | step _ hunrescheduled hnext ih =>
    exact ⟨ih.1.next hunrescheduled hnext, ih.2.step (ih.1.exclusive hunrescheduled) hnext⟩

/-- A run in which an order goes through a ring buffer with two slots. -/
theorem no_task_lost_order :
    ∃ s, (ringPipeline ["A"] 2).run
        ([.push (Pipeline.exampleRequest "A" .newOrder), .flush, .dispatch] ++
          List.replicate 6 .dispatcherOperation ++ List.replicate 4 (.pop 0)) (ringPipeline ["A"] 2).start = some s ∧
      (s.queues 0).pushes.length = 1 ∧
      ((∀ queueID, (s.queues queueID).pops ++ (s.queues queueID).ring.contents = (s.queues queueID).pushes.map some) ∧
        (∀ queueID thread task currentTail,
          (s.queues queueID).producers thread = some (task, .storeSlot currentTail) →
            currentTail ∉ (s.queues queueID).ring.live) ∧
        ∀ message ∈ s.engine.outgoingMessages, message.type = .accepted →
          s.abstract.OnItsWay (.newOrder message.order)) := by
  obtain ⟨s, hrun, hpushes⟩ : ∃ s, (ringPipeline ["A"] 2).run
        ([.push (Pipeline.exampleRequest "A" .newOrder), .flush, .dispatch] ++
          List.replicate 6 .dispatcherOperation ++ List.replicate 4 (.pop 0)) (ringPipeline ["A"] 2).start = some s ∧
      (s.queues 0).pushes.length = 1 := ⟨_, rfl, rfl⟩
  have hreach : (ringPipeline ["A"] 2).ReachableBy Unrescheduled s := by
    refine Machine.ReachableBy.run .start (fun label hlabel u worker task queueID rest heq => ?_) hrun
    subst heq
    simp at hlabel
  exact ⟨s, hrun, hpushes, no_task_lost (by decide) (exclusive_of_unrescheduled hreach).2⟩

/-- A run over a ring buffer with two slots in which the dispatcher and a worker pass their space checks
before either stores: the worker overwrites an accepted order. -/
theorem overlapping_pushes_lose_order :
    ∃ s, (ringPipeline ["A"] 2).Reachable s ∧ ∃ order,
      acceptedMessage order ∈ s.engine.outgoingMessages ∧ .newOrder order ∈ (s.queues 0).pushes ∧
        some (.newOrder order) ∉ (s.queues 0).pops ++ (s.queues 0).ring.contents ∧ .newOrder order ∉ s.executed := by
  obtain ⟨s, hrun, houtgoing, hpushes, hexecuted, hqueue⟩ : ∃ s, (ringPipeline ["A"] 2).run
      (List.flatten [
        [.push (Pipeline.exampleRequest "A" .cancelOrder), .push (Pipeline.exampleRequest "A" .newOrder), .flush, .dispatch],
        List.replicate 5 .dispatcherOperation, List.replicate 4 (.pop 0), [.execute 0, .dispatch],
        List.replicate 4 .dispatcherOperation, List.replicate 3 (.workerOperation 0),
        [.dispatcherOperation, .workerOperation 0, .dispatcherOperation, .workerOperation 0]])
      (ringPipeline ["A"] 2).start = some s ∧
      s.engine.outgoingMessages = [acceptedMessage ((Pipeline.exampleRequest "A" .newOrder).message 1).order] ∧
      (s.queues 0).pushes[1]? = some (.newOrder ((Pipeline.exampleRequest "A" .newOrder).message 1).order) ∧
      s.executed.map Task.isNewOrder = [false] ∧
      ((s.queues 0).pops ++ (s.queues 0).ring.contents).map (Option.map Task.isNewOrder) = [some false, some false] :=
    ⟨_, rfl, rfl, rfl, rfl, rfl⟩
  refine ⟨s, Machine.reachable_of_run hrun, _, houtgoing ▸ List.mem_singleton_self _, List.mem_of_getElem? hpushes,
    fun hmem => ?_, fun hmem => ?_⟩
  · have hnew := hqueue ▸ List.mem_map_of_mem hmem
    simp [Task.isNewOrder] at hnew
  · have hnew := hexecuted ▸ List.mem_map_of_mem hmem
    simp [Task.isNewOrder] at hnew

end RingPipeline

end MatchingEngine
