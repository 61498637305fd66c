import MatchingEngine.OrderMessages
import MatchingEngine.RingBuffer

/-!
# The pipeline over ring buffers

The work queues of the pipeline are ring buffers here, and submitting or popping a task
takes one step for each load or store. The dispatcher pushes in `addOrder` and
`cancelOrder`, and a worker pushes a cancel that it schedules again, to the queue from
which it also pops.

As long as pushes exclude each other, the pipeline over ring buffers refines the pipeline
over lists: a push takes effect with the store of the write index, and a pop with the
store of the read index.
-/

namespace MatchingEngine

open RingBufferSPSCLockFree

/-- A thread that submits tasks. -/
inductive Thread
  | dispatcher
  | worker (queueID : ℕ)
deriving DecidableEq

/-- The pipeline with its ring buffers; the lists of the pipeline itself stay empty. -/
structure RingPipeline extends Pipeline where
  queues : ℕ → SharedRing Thread Task

/-- The engine with its work queues replaced. -/
def CentralOrderBook.withThreadQueues (c : CentralOrderBook) (queues : ℕ → List Task) : CentralOrderBook :=
  { c with threadQueues := queues }

/-- Tasks do not read the work queues before their queue operations. -/
theorem CentralOrderBook.taskWork_withThreadQueues (c : CentralOrderBook) (queues : ℕ → List Task) (task : Task) :
    (c.withThreadQueues queues).taskWork task = ((c.taskWork task).1.withThreadQueues queues, (c.taskWork task).2) := by
  cases task with
  | newOrder order => rfl
  | cancelOrder order origClientOrderID =>
    simp only [taskWork, taskCancelOrderWork, bookOf, withThreadQueues]
    split <;> rfl

/-- The dispatcher does not read the work queues before its queue operations. -/
theorem Pipeline.dispatchWork_withThreadQueues (c : CentralOrderBook) (queues : ℕ → List Task) (message : IncomingMessage) :
    dispatchWork (c.withThreadQueues queues) message =
      ((dispatchWork c message).1.withThreadQueues queues, (dispatchWork c message).2) := by
  unfold dispatchWork
  split
  · have hexists : (c.withThreadQueues queues).doesOrderBookExist message.order.symbol =
        c.doesOrderBookExist message.order.symbol := rfl
    simp only [CentralOrderBook.addOrderWork, hexists]
    by_cases h : c.doesOrderBookExist message.order.symbol = true
    · simp only [h, if_true]
      rfl
    · simp only [h]
      rfl
  · rfl

namespace RingPipeline

/-- All ring buffers have the same capacity. -/
def initial (symbols : List String) (capacity : ℕ) : RingPipeline where
  toPipeline := .initial symbols
  queues := fun _ => .initial capacity

/-- A step inside `submitTask`, and whether it returns; `push` calls `tryPush` until it returns true. -/
def submitStep (s : RingPipeline) (thread : Thread) (task : Task) (queueID : ℕ) : Option (RingPipeline × Bool) :=
  if s.engine.queueCount ≤ queueID then none
  else
    match (s.queues queueID).producers thread with
    | none => some ({ s with queues := Function.update s.queues queueID ((s.queues queueID).tryPush thread task) }, false)
    | some (val, state) =>
      let (queue, pushed) := (s.queues queueID).produce thread val state
      some ({ s with queues := Function.update s.queues queueID queue }, pushed == some true)

/-- The steps that touch no work queue are those of the pipeline. -/
def pipelineStep (label : Pipeline.Label) (s : RingPipeline) : Option RingPipeline :=
  (Pipeline.next label s.toPipeline).map fun p => { s with toPipeline := p }

/-- The steps; executing a task without a callback throws, and an exception ends the run. -/
def next : Pipeline.Label → RingPipeline → Option RingPipeline
  | .dispatcherOperation, s =>
    match s.dispatching with
    | .submitTask task queueID :: operations =>
      (s.submitStep .dispatcher task queueID).map fun (s, returned) =>
        if returned then { s with dispatching := operations } else s
    | _ => s.pipelineStep .dispatcherOperation
  | .workerOperation worker, s =>
    match s.working worker with
    | .submitTask task queueID :: operations =>
      (s.submitStep (.worker worker) task queueID).map fun (s, returned) =>
        if returned then { s with working := Function.update s.working worker operations } else s
    | _ => s.pipelineStep (.workerOperation worker)
  | .pop queueID, s =>
    match s.holding queueID, s.working queueID with
    | none, [] =>
      let (queue, popped) := (s.queues queueID).consume
      let s := { s with queues := Function.update s.queues queueID queue }
      match popped with
      | none => some s
      | some (some task) => some { s with holding := Function.update s.holding queueID (some task) }
      | some none => none
    | _, _ => none
  | label, s => s.pipelineStep label

end RingPipeline

/-- The pipeline over ring buffers of the given capacity. -/
def ringPipeline (symbols : List String) (capacity : ℕ) : Machine RingPipeline Pipeline.Label where
  start := .initial symbols capacity
  next := RingPipeline.next

namespace RingPipeline

variable {symbols : List String} {capacity : ℕ} {s t : RingPipeline}

/-- The operations that a thread is about to make. -/
def operations (s : RingPipeline) : Thread → List QueueOperation
  | .dispatcher => s.dispatching
  | .worker queueID => s.working queueID

/-- The thread that a step lets make a queue operation. -/
def operating : Pipeline.Label → Option Thread
  | .dispatcherOperation => some .dispatcher
  | .workerOperation queueID => some (.worker queueID)
  | _ => none

/-- A thread has passed the space check of a push to a queue on the current write index, and no other
thread is then between its own check and its store. -/
def Exclusive (label : Pipeline.Label) (s : RingPipeline) : Prop :=
  ∀ thread task queueID rest, operating label = some thread → s.operations thread = .submitTask task queueID :: rest →
    SharedRing.Exclusive (.produce thread) (s.queues queueID)

/-- Set the operations that a thread is about to make. -/
def setOperations (s : RingPipeline) (rest : List QueueOperation) : Thread → RingPipeline
  | .dispatcher => { s with dispatching := rest }
  | .worker queueID => { s with working := Function.update s.working queueID rest }

/-- Replace the state of one ring buffer. -/
def setQueue (s : RingPipeline) (queueID : ℕ) (queue : SharedRing Thread Task) : RingPipeline :=
  { s with queues := Function.update s.queues queueID queue }

@[simp] theorem setQueue_queues_self (s : RingPipeline) (queueID : ℕ) (queue : SharedRing Thread Task) :
    (s.setQueue queueID queue).queues queueID = queue :=
  Function.update_self ..

@[simp] theorem setQueue_queues_of_ne (s : RingPipeline) {queueID q : ℕ} (queue : SharedRing Thread Task)
    (h : q ≠ queueID) : (s.setQueue queueID queue).queues q = s.queues q :=
  Function.update_of_ne h ..

/-- A label whose step is one of the pipeline itself. -/
def Unqueued (label : Pipeline.Label) (s : RingPipeline) : Prop :=
  (∀ queueID, label ≠ .pop queueID) ∧
    ∀ thread, operating label = some thread → ∃ message rest, s.operations thread = .enqueue message :: rest

/-- Everything a step inside `submitTask` can do. -/
theorem submitStep_cases {thread : Thread} {task : Task} {queueID : ℕ} {returned : Bool}
    (h : s.submitStep thread task queueID = some (t, returned)) :
    queueID < s.engine.queueCount ∧
      ((s.queues queueID).producers thread = none ∧ returned = false ∧
          t = s.setQueue queueID ((s.queues queueID).tryPush thread task) ∨
        ∃ val state, (s.queues queueID).producers thread = some (val, state) ∧
          returned = (((s.queues queueID).produce thread val state).2 == some true) ∧
          t = s.setQueue queueID ((s.queues queueID).produce thread val state).1) := by
  unfold submitStep at h
  split at h
  · cases h
  · rename_i hvalid
    refine ⟨not_le.mp hvalid, ?_⟩
    split at h
    · rename_i hproducer
      rw [Option.some.injEq, Prod.mk.injEq] at h
      exact Or.inl ⟨hproducer, h.2.symm, h.1.symm⟩
    · rename_i val state hproducer
      rw [Option.some.injEq, Prod.mk.injEq] at h
      exact Or.inr ⟨val, state, hproducer, h.2.symm, h.1.symm⟩

/-- The dispatcher and the workers operate at steps of their own. -/
theorem unqueued_of_operating_none {label : Pipeline.Label} (hpop : ∀ queueID, label ≠ .pop queueID)
    (hnone : operating label = none) : Unqueued label s := by
  refine ⟨hpop, fun thread hthread => ?_⟩
  rw [hnone] at hthread
  cases hthread

/-- Only a worker operates with its operations. -/
theorem eq_of_operating_worker {label : Pipeline.Label} {queueID : ℕ} (h : operating label = some (.worker queueID)) :
    label = .workerOperation queueID := by
  cases label with
  | workerOperation other => rw [Thread.worker.inj (Option.some.inj h)]
  | _ => cases h

/-- Only the dispatcher operates with its operations. -/
theorem eq_of_operating_dispatcher {label : Pipeline.Label} (h : operating label = some .dispatcher) :
    label = .dispatcherOperation := by
  cases label with
  | dispatcherOperation => rfl
  | _ => cases h

/-- Enqueuing a message works on no queue. -/
theorem unqueued_of_enqueue {label : Pipeline.Label} {thread : Thread} {message : OutgoingMessage}
    {rest : List QueueOperation} (hlabel : operating label = some thread)
    (hoperations : s.operations thread = .enqueue message :: rest) : Unqueued label s := by
  refine ⟨fun queueID heq => ?_, fun other hother => ⟨message, rest, ?_⟩⟩
  · subst heq
    cases hlabel
  · rw [← hoperations, Option.some.inj (hother.symm.trans hlabel)]

/-- Everything a step can do. -/
theorem next_cases {label : Pipeline.Label} (h : next label s = some t) :
    (∃ p, Pipeline.next label s.toPipeline = some p ∧ Unqueued label s ∧ t = { s with toPipeline := p }) ∨
    (∃ thread task queueID rest u returned, operating label = some thread ∧
      s.operations thread = .submitTask task queueID :: rest ∧
      s.submitStep thread task queueID = some (u, returned) ∧ t = if returned then u.setOperations rest thread else u) ∨
    (∃ queueID, label = .pop queueID ∧ s.holding queueID = none ∧ s.working queueID = [] ∧
      ((s.queues queueID).consume.2 = none ∧ t = s.setQueue queueID (s.queues queueID).consume.1 ∨
        ∃ task, (s.queues queueID).consume.2 = some (some task) ∧
          t = { s.setQueue queueID (s.queues queueID).consume.1 with
            holding := Function.update s.holding queueID (some task) })) := by
  have hpipeline : ∀ {label}, s.pipelineStep label = some t → Unqueued label s →
      ∃ p, Pipeline.next label s.toPipeline = some p ∧ Unqueued label s ∧ t = { s with toPipeline := p } := by
    intro label heq hunqueued
    obtain ⟨p, hp, rfl⟩ := Option.map_eq_some_iff.mp heq
    exact ⟨p, hp, hunqueued, rfl⟩
  cases label with
  | push request => exact Or.inl (hpipeline h (unqueued_of_operating_none (fun _ => by simp) rfl))
  | flush => exact Or.inl (hpipeline h (unqueued_of_operating_none (fun _ => by simp) rfl))
  | dispatch => exact Or.inl (hpipeline h (unqueued_of_operating_none (fun _ => by simp) rfl))
  | execute queueID => exact Or.inl (hpipeline h (unqueued_of_operating_none (fun _ => by simp) rfl))
  | dispatcherOperation =>
    simp only [next] at h
    cases hoperations : s.dispatching with
    | nil => simp [hoperations, pipelineStep, Pipeline.next] at h
    | cons operation rest =>
      cases operation with
      | enqueue message =>
        simp only [hoperations] at h
        exact Or.inl (hpipeline h (@unqueued_of_enqueue _ _ .dispatcher _ _ rfl hoperations))
      | submitTask task queueID =>
        simp only [hoperations] at h
        obtain ⟨⟨u, returned⟩, hstep, rfl⟩ := Option.map_eq_some_iff.mp h
        exact Or.inr (Or.inl ⟨.dispatcher, task, queueID, rest, u, returned, rfl, hoperations, hstep, rfl⟩)
  | workerOperation worker =>
    simp only [next] at h
    cases hoperations : s.working worker with
    | nil => simp [hoperations, pipelineStep, Pipeline.next] at h
    | cons operation rest =>
      cases operation with
      | enqueue message =>
        simp only [hoperations] at h
        exact Or.inl (hpipeline h (@unqueued_of_enqueue _ _ (.worker worker) _ _ rfl hoperations))
      | submitTask task queueID =>
        simp only [hoperations] at h
        obtain ⟨⟨u, returned⟩, hstep, rfl⟩ := Option.map_eq_some_iff.mp h
        refine Or.inr (Or.inl ⟨.worker worker, task, queueID, rest, u, returned, rfl, hoperations, hstep, ?_⟩)
        have hworking : u.working = s.working := by
          obtain ⟨_, ⟨_, _, rfl⟩ | ⟨_, _, _, _, rfl⟩⟩ := submitStep_cases hstep <;> rfl
        simp only [setOperations, hworking]
  | pop queueID =>
    simp only [next] at h
    cases hholding : s.holding queueID with
    | some held => simp [hholding] at h
    | none =>
      cases hworking : s.working queueID with
      | cons operation rest => simp [hholding, hworking] at h
      | nil =>
        simp only [hholding, hworking] at h
        refine Or.inr (Or.inr ⟨queueID, rfl, hholding, hworking, ?_⟩)
        cases hpopped : (s.queues queueID).consume.2 with
        | none =>
          simp only [hpopped, Option.some.injEq] at h
          exact Or.inl ⟨rfl, h.symm⟩
        | some element =>
          cases element with
          | some task =>
            simp only [hpopped, Option.some.injEq] at h
            exact Or.inr ⟨task, rfl, h.symm⟩
          | none => simp [hpopped] at h

/-- The thread that operates makes the first of its operations. -/
theorem Unqueued.operations_ne {label : Pipeline.Label} (h : Unqueued label s) {thread : Thread} {task : Task}
    {queueID : ℕ} {rest : List QueueOperation} (hoperations : s.operations thread = .submitTask task queueID :: rest) :
    operating label ≠ some thread := by
  intro hoperating
  obtain ⟨message, others, henqueue⟩ := h.2 thread hoperating
  rw [hoperations] at henqueue
  cases henqueue

/-- A thread that is about to submit a task keeps its operations while others step. -/
theorem operations_of_unqueued {label : Pipeline.Label} {p : Pipeline} (hnext : Pipeline.next label s.toPipeline = some p)
    (hunqueued : Unqueued label s) (hholding : ∀ queueID task, s.holding queueID = some task → s.working queueID = [])
    {thread : Thread} {task : Task} {queueID : ℕ} {rest : List QueueOperation}
    (hoperations : s.operations thread = .submitTask task queueID :: rest) :
    { s with toPipeline := p }.operations thread = .submitTask task queueID :: rest := by
  have hother := hunqueued.operations_ne hoperations
  obtain ⟨_, _, rfl⟩ | ⟨_, _, _, rfl⟩ | ⟨_, _, _, _, hdispatching, rfl⟩ | ⟨_, _, rfl, _, rfl⟩ |
    ⟨id, _, _, rfl, _, _, _, rfl⟩ | ⟨worker, _, _, hheld, rfl⟩ | ⟨worker, _, _, rfl, _, rfl⟩ := Pipeline.next_cases hnext
  · exact hoperations
  · exact hoperations
  · cases thread with
    | dispatcher =>
      simp only [operations, hdispatching] at hoperations
      cases hoperations
    | worker => exact hoperations
  · cases thread with
    | dispatcher => exact absurd rfl hother
    | worker => exact hoperations
  · exact absurd rfl (hunqueued.1 id)
  · cases thread with
    | dispatcher => exact hoperations
    | worker id =>
      have hid : id ≠ worker := by
        rintro rfl
        simp only [operations, hholding _ _ hheld] at hoperations
        cases hoperations
      simp only [operations, Function.update_of_ne hid] at hoperations ⊢
      exact hoperations
  · cases thread with
    | dispatcher => exact hoperations
    | worker id =>
      have hid : id ≠ worker := by
        rintro rfl
        exact hother rfl
      simp only [operations, Function.update_of_ne hid] at hoperations ⊢
      exact hoperations

/-- The invariant that connects the threads with the ring buffers. -/
structure Linked (s : RingPipeline) : Prop where
  fifo : ∀ queueID, (s.queues queueID).Fifo
  calls : ∀ queueID thread task state, (s.queues queueID).producers thread = some (task, state) →
    ∃ rest, s.operations thread = .submitTask task queueID :: rest

/-- The invariant after a step on one ring buffer. -/
theorem Linked.setQueue (h : s.Linked) {queueID : ℕ} {queue : SharedRing Thread Task} (hfifo : queue.Fifo)
    (hcalls : ∀ thread task state, queue.producers thread = some (task, state) →
      ∃ rest, s.operations thread = .submitTask task queueID :: rest) : (s.setQueue queueID queue).Linked where
  fifo q := by
    by_cases hq : q = queueID
    · subst hq
      simp only [setQueue_queues_self]
      exact hfifo
    · simp only [setQueue_queues_of_ne _ _ hq]
      exact h.fifo q
  calls q thread task state hproducer := by
    by_cases hq : q = queueID
    · subst hq
      simp only [setQueue_queues_self] at hproducer
      exact hcalls thread task state hproducer
    · simp only [setQueue_queues_of_ne _ _ hq] at hproducer
      exact h.calls q thread task state hproducer

/-- A step inside `submitTask` keeps the invariant, and a call that returns has left the ring buffers. -/
theorem Linked.submitStep (h : s.Linked) {thread : Thread} {task : Task} {queueID : ℕ} {rest : List QueueOperation}
    (hoperations : s.operations thread = .submitTask task queueID :: rest) {returned : Bool}
    (hexclusive : SharedRing.Exclusive (.produce thread) (s.queues queueID))
    (hstep : s.submitStep thread task queueID = some (t, returned)) :
    t.Linked ∧ (returned = true → ∀ q, (t.queues q).producers thread = none) := by
  obtain ⟨_, ⟨hproducer, rfl, rfl⟩ | ⟨val, state, hproducer, rfl, rfl⟩⟩ := submitStep_cases hstep
  · refine ⟨h.setQueue ((h.fifo queueID).tryPush thread task) fun other others current hcurrent => ?_, fun heq => by cases heq⟩
    by_cases heq : other = thread
    · subst heq
      simp only [SharedRing.tryPush, Function.update_self, Option.some.injEq, Prod.mk.injEq] at hcurrent
      exact ⟨rest, hcurrent.1 ▸ hoperations⟩
    · simp only [SharedRing.tryPush, Function.update_of_ne heq] at hcurrent
      exact h.calls queueID other others current hcurrent
  · have hfifo := (h.fifo queueID).produce hproducer hexclusive
    obtain ⟨current, hupdate, hcurrent⟩ := (s.queues queueID).produce_producers thread val state
    refine ⟨h.setQueue hfifo fun other others state' hstate => ?_, fun hreturned q => ?_⟩
    · rw [hupdate] at hstate
      by_cases heq : other = thread
      · subst heq
        simp only [Function.update_self] at hstate
        obtain ⟨_, hval⟩ := hcurrent.resolve_left fun hnone => by simp [hnone] at hstate
        rw [hval, Option.some.injEq, Prod.mk.injEq] at hstate
        exact hstate.1 ▸ h.calls queueID other val state hproducer
      · simp only [Function.update_of_ne heq] at hstate
        exact h.calls queueID other others state' hstate
    · by_cases hq : q = queueID
      · subst hq
        simp only [setQueue_queues_self]
        rw [(SharedRing.produce_returned (beq_iff_eq.mp hreturned)).2]
        simp only [Function.update_self]
      · simp only [setQueue_queues_of_ne _ _ hq]
        -- A thread is inside a push to one queue only.
        match hother : (s.queues q).producers thread with
        | none => rfl
        | some (others, state') =>
          obtain ⟨_, hothers⟩ := h.calls q thread others state' hother
          rw [hoperations, List.cons.injEq, QueueOperation.submitTask.injEq] at hothers
          exact absurd hothers.1.2.symm hq

/-- A thread that is in no push can go on to other operations. -/
theorem Linked.setOperations (h : s.Linked) {thread : Thread} {rest : List QueueOperation}
    (hidle : ∀ q, (s.queues q).producers thread = none) : (s.setOperations rest thread).Linked := by
  have hqueues : (s.setOperations rest thread).queues = s.queues := by cases thread <;> rfl
  refine ⟨fun q => hqueues ▸ h.fifo q, fun q other task state hproducer => ?_⟩
  rw [hqueues] at hproducer
  have hother : other ≠ thread := by
    rintro rfl
    simp [hidle q] at hproducer
  obtain ⟨others, hoperations⟩ := h.calls q other task state hproducer
  refine ⟨others, hoperations ▸ ?_⟩
  match thread, other with
  | .dispatcher, .dispatcher => exact absurd rfl hother
  | .dispatcher, .worker _ => rfl
  | .worker _, .dispatcher => rfl
  | .worker id, .worker other =>
    have hid : other ≠ id := fun heq => hother (heq ▸ rfl)
    simp only [RingPipeline.setOperations, operations, Function.update_of_ne hid]

/-- Every step of a run in which pushes exclude each other keeps the invariant. -/
theorem Linked.next (h : s.Linked) (hholding : ∀ queueID task, s.holding queueID = some task → s.working queueID = [])
    {label : Pipeline.Label} (hexclusive : Exclusive label s) (hnext : RingPipeline.next label s = some t) : t.Linked := by
  obtain ⟨p, hp, hunqueued, rfl⟩ | ⟨thread, task, queueID, rest, u, returned, hlabel, hoperations, hstep, rfl⟩ |
    ⟨queueID, rfl, _, _, ⟨_, rfl⟩ | ⟨task, _, rfl⟩⟩ := next_cases hnext
  · refine ⟨h.fifo, fun q thread task state hproducer => ?_⟩
    obtain ⟨rest, hoperations⟩ := h.calls q thread task state hproducer
    exact ⟨rest, operations_of_unqueued hp hunqueued hholding hoperations⟩
  · obtain ⟨hlinked, hidle⟩ := h.submitStep hoperations (hexclusive thread task queueID rest hlabel hoperations) hstep
    cases returned with
    | false => exact hlinked
    | true => exact hlinked.setOperations (hidle rfl)
  · refine h.setQueue (h.fifo queueID).consume fun thread task state hproducer => ?_
    rw [SharedRing.consume_producers] at hproducer
    exact h.calls queueID thread task state hproducer
  · have hlinked : (s.setQueue queueID (s.queues queueID).consume.1).Linked :=
      h.setQueue (h.fifo queueID).consume fun thread task state hproducer => by
        rw [SharedRing.consume_producers] at hproducer
        exact h.calls queueID thread task state hproducer
    exact ⟨hlinked.fifo, hlinked.calls⟩

/-- The tasks in a ring buffer. -/
def queued (s : RingPipeline) (queueID : ℕ) : List Task := (s.queues queueID).ring.contents.reduceOption

/-- The pipeline over lists that a state over ring buffers stands for. -/
def abstract (s : RingPipeline) : Pipeline := { s.toPipeline with engine := s.engine.withThreadQueues s.queued }

/-- The tasks in a ring buffer are those pushed and not yet popped. -/
theorem Linked.queued_eq (h : s.Linked) (queueID : ℕ) :
    s.queued queueID = (s.queues queueID).pushes.drop (s.queues queueID).pops.length := by
  rw [queued, (h.fifo queueID).contents_eq]
  change List.filterMap id _ = _
  rw [List.filterMap_map]
  exact List.filterMap_some

/-- Steps that neither push nor pop leave the tasks in the ring buffers. -/
theorem Linked.queued_congr (h : s.Linked) (ht : t.Linked)
    (hpushes : ∀ q, (t.queues q).pushes = (s.queues q).pushes) (hpops : ∀ q, (t.queues q).pops = (s.queues q).pops) :
    t.queued = s.queued := by
  funext q
  rw [h.queued_eq, ht.queued_eq, hpushes, hpops]

/-- A step that neither pushes nor pops is a step of the pipeline over any lists. -/
theorem next_withThreadQueues {p p' : Pipeline} {label : Pipeline.Label} (hnext : Pipeline.next label p = some p')
    (hpop : ∀ queueID, label ≠ .pop queueID)
    (henqueue : ∀ operation rest, (label = .dispatcherOperation ∧ p.dispatching = operation :: rest ∨
      ∃ worker, label = .workerOperation worker ∧ p.working worker = operation :: rest) →
      ∃ message, operation = .enqueue message) (queues : ℕ → List Task) :
    Pipeline.next label { p with engine := p.engine.withThreadQueues queues } =
      some { p' with engine := p'.engine.withThreadQueues queues } := by
  obtain ⟨request, rfl, rfl⟩ | ⟨rfl, hflushed, hdispatching, rfl⟩ | ⟨message, rest, rfl, hflushed, hdispatching, rfl⟩ |
    ⟨operation, operations, rfl, hdispatching, rfl⟩ | ⟨queueID, _, _, rfl, _, _, _, rfl⟩ |
    ⟨worker, task, rfl, hholding, rfl⟩ | ⟨worker, operation, operations, rfl, hworking, rfl⟩ := Pipeline.next_cases hnext
  · rfl
  · simp only [Pipeline.next, hflushed, hdispatching]
  · simp only [Pipeline.next, hflushed, hdispatching, Pipeline.dispatchWork_withThreadQueues]
  · obtain ⟨message, rfl⟩ := henqueue operation operations (Or.inl ⟨rfl, hdispatching⟩)
    simp only [Pipeline.next, hdispatching]
    rfl
  · exact absurd rfl (hpop queueID)
  · simp only [Pipeline.next, hholding, CentralOrderBook.taskWork_withThreadQueues]
  · obtain ⟨message, rfl⟩ := henqueue operation operations (Or.inr ⟨worker, rfl, hworking⟩)
    simp only [Pipeline.next, hworking]
    rfl

/-- What the ring buffers hold after a step inside `submitTask`. -/
theorem Linked.queued_submitStep (h : s.Linked) (ht : t.Linked) {thread : Thread} {task : Task} {queueID : ℕ}
    {rest : List QueueOperation} (hoperations : s.operations thread = .submitTask task queueID :: rest) {returned : Bool}
    (hstep : s.submitStep thread task queueID = some (t, returned)) :
    t.toPipeline = s.toPipeline ∧
      t.queued = if returned then Function.update s.queued queueID (s.queued queueID ++ [task]) else s.queued := by
  obtain ⟨_, ⟨hproducer, rfl, rfl⟩ | ⟨val, state, hproducer, rfl, rfl⟩⟩ := submitStep_cases hstep
  · refine ⟨rfl, h.queued_congr ht (fun q => ?_) fun q => ?_⟩
    all_goals
      by_cases hq : q = queueID
      · subst hq
        simp only [setQueue_queues_self]
        rfl
      · simp only [setQueue_queues_of_ne _ _ hq]
  · refine ⟨rfl, ?_⟩
    by_cases hreturned : ((s.queues queueID).produce thread val state).2 = some true
    · obtain ⟨_, hcall⟩ := h.calls queueID thread val state hproducer
      rw [hoperations, List.cons.injEq, QueueOperation.submitTask.injEq] at hcall
      obtain ⟨⟨rfl, -⟩, -⟩ := hcall
      have hpops : (s.queues queueID).pops.length ≤ (s.queues queueID).pushes.length := (h.fifo queueID).pops_le
      rw [beq_iff_eq.mpr hreturned, if_pos rfl]
      funext q
      rw [ht.queued_eq]
      by_cases hq : q = queueID
      · subst hq
        simp only [setQueue_queues_self, Function.update_self, SharedRing.produce_pops]
        rw [(SharedRing.produce_returned hreturned).1, h.queued_eq, List.drop_append_of_le_length hpops]
      · simp only [setQueue_queues_of_ne _ _ hq, Function.update_of_ne hq]
        rw [h.queued_eq]
    · rw [beq_false_of_ne hreturned]
      refine h.queued_congr ht (fun q => ?_) fun q => ?_
      all_goals
        by_cases hq : q = queueID
        · subst hq
          simp only [setQueue_queues_self]
          simp only [SharedRing.produce_pops, (SharedRing.produce_running hreturned).1]
        · simp only [setQueue_queues_of_ne _ _ hq]

/-- What the ring buffers hold after a step of a worker that pops. -/
theorem Linked.queued_consume (h : s.Linked) (queueID : ℕ) :
    match (s.queues queueID).consume.2 with
    | none => (s.setQueue queueID (s.queues queueID).consume.1).queued = s.queued
    | some none => False
    | some (some task) => ∃ rest, s.queued queueID = task :: rest ∧
        (s.setQueue queueID (s.queues queueID).consume.1).queued = Function.update s.queued queueID rest := by
  have ht : (s.setQueue queueID (s.queues queueID).consume.1).Linked :=
    h.setQueue (h.fifo queueID).consume fun thread task state hproducer => by
      rw [SharedRing.consume_producers] at hproducer
      exact h.calls queueID thread task state hproducer
  have hpops := SharedRing.consume_pops (s := s.queues queueID)
  have hafter := (h.fifo queueID).consume.popped
  have hbefore := (h.fifo queueID).popped
  have hle := (h.fifo queueID).consume.pops_le
  cases hpopped : (s.queues queueID).consume.2 with
  | none =>
    rw [hpopped, Option.toList_none, List.append_nil] at hpops
    refine h.queued_congr ht (fun q => ?_) fun q => ?_
    all_goals
      by_cases hq : q = queueID
      · subst hq
        simp only [setQueue_queues_self, SharedRing.consume_pushes, hpops]
      · simp only [setQueue_queues_of_ne _ _ hq]
  | some element =>
    rw [hpopped, Option.toList_some] at hpops
    rw [hpops, List.length_append, List.length_singleton, SharedRing.consume_pushes] at hle
    -- The element is the next of those that were pushed.
    rw [hpops, List.length_append, List.length_singleton, SharedRing.consume_pushes, List.take_add_one, List.map_append,
      ← hbefore, List.getElem?_eq_getElem hle] at hafter
    have helement : element = some (s.queues queueID).pushes[(s.queues queueID).pops.length] := by
      simpa using List.append_cancel_left hafter
    subst helement
    refine ⟨(s.queues queueID).pushes.drop ((s.queues queueID).pops.length + 1), ?_, ?_⟩
    · rw [h.queued_eq, List.drop_eq_getElem_cons hle]
    · funext q
      rw [ht.queued_eq]
      by_cases hq : q = queueID
      · subst hq
        simp only [setQueue_queues_self, Function.update_self, SharedRing.consume_pushes, hpops, List.length_append,
          List.length_singleton]
      · simp only [setQueue_queues_of_ne _ _ hq, Function.update_of_ne hq]
        rw [h.queued_eq]

/-- Every step is one of the pipeline over lists, or is not visible there. -/
theorem Linked.abstract_next (h : s.Linked) (ht : t.Linked) {label : Pipeline.Label}
    (hexclusive : Exclusive label s) (hnext : RingPipeline.next label s = some t) :
    t.abstract = s.abstract ∨ Pipeline.next label s.abstract = some t.abstract := by
  obtain ⟨p, hp, hunqueued, rfl⟩ | ⟨thread, task, queueID, rest, u, returned, hlabel, hoperations, hstep, rfl⟩ |
    ⟨queueID, rfl, hholding, hworking, ⟨hpopped, rfl⟩ | ⟨task, hpopped, rfl⟩⟩ := next_cases hnext
  · refine Or.inr (next_withThreadQueues hp hunqueued.1 (fun operation rest hoperation => ?_) s.queued)
    obtain ⟨rfl, hdispatching⟩ | ⟨worker, rfl, hworking⟩ := hoperation
    · obtain ⟨message, others, henqueue⟩ := hunqueued.2 .dispatcher rfl
      exact ⟨message, (List.cons.inj (hdispatching.symm.trans henqueue)).1⟩
    · obtain ⟨message, others, henqueue⟩ := hunqueued.2 (.worker worker) rfl
      exact ⟨message, (List.cons.inj (hworking.symm.trans henqueue)).1⟩
  · have hvalid := (submitStep_cases hstep).1
    obtain ⟨hlinked, _⟩ := h.submitStep hoperations (hexclusive thread task queueID rest hlabel hoperations) hstep
    obtain ⟨hsame, hqueued⟩ := h.queued_submitStep hlinked hoperations hstep
    obtain ⟨p, queues⟩ := u
    obtain rfl : p = s.toPipeline := hsame
    cases returned with
    | false =>
      refine Or.inl ?_
      simp only [Bool.false_eq_true, if_false, abstract] at hqueued ⊢
      rw [hqueued]
    | true =>
      refine Or.inr ?_
      simp only [if_true] at hqueued ⊢
      have hperform : (s.engine.withThreadQueues s.queued).perform (.submitTask task queueID) =
          .ok (s.engine.withThreadQueues { s with queues := queues }.queued) := by
        simp only [CentralOrderBook.perform, CentralOrderBook.submitTask, CentralOrderBook.withThreadQueues,
          not_le.mpr hvalid, if_false, hqueued]
      cases thread with
      | dispatcher =>
        obtain rfl := eq_of_operating_dispatcher hlabel
        have hdispatching : s.dispatching = .submitTask task queueID :: rest := hoperations
        simp only [Pipeline.next, abstract, hdispatching, hperform]
        rfl
      | worker worker =>
        obtain rfl := eq_of_operating_worker hlabel
        have hworking : s.working worker = .submitTask task queueID :: rest := hoperations
        simp only [Pipeline.next, abstract, hworking, hperform]
        rfl
  · have hqueued := h.queued_consume queueID
    rw [hpopped] at hqueued
    refine Or.inl ?_
    simp only [abstract, hqueued]
    rfl
  · have hqueued := h.queued_consume queueID
    rw [hpopped] at hqueued
    obtain ⟨rest, hqueue, hrest⟩ := hqueued
    refine Or.inr ?_
    have htryPop : (s.engine.withThreadQueues s.queued).tryPop queueID =
        some (task, s.engine.withThreadQueues (s.setQueue queueID (s.queues queueID).consume.1).queued) := by
      simp only [CentralOrderBook.tryPop, CentralOrderBook.withThreadQueues, hqueue, hrest]
    simp only [Pipeline.next, abstract, hholding, hworking, htryPop]
    rfl

/-- In the beginning the ring buffers are empty. -/
theorem initial_linked (symbols : List String) {capacity : ℕ} (hcapacity : 0 < capacity) :
    (initial symbols capacity).Linked :=
  ⟨fun _ => .initial hcapacity, fun _ _ _ _ hproducer => by cases hproducer⟩

/-- Nothing is queued in the beginning. -/
theorem initial_abstract (symbols : List String) {capacity : ℕ} (hcapacity : 0 < capacity) :
    (initial symbols capacity).abstract = .initial symbols := by
  have hqueued : (initial symbols capacity).queued = fun _ => [] :=
    funext fun q => (initial_linked symbols hcapacity).queued_eq q
  simp only [abstract, hqueued]
  rfl

/-- In every run in which pushes exclude each other, the ring buffers are queues, and the pipeline over ring
buffers refines the pipeline over lists. -/
theorem linked_of_reachableBy (hcapacity : 0 < capacity) (h : (ringPipeline symbols capacity).ReachableBy Exclusive s) :
    s.Linked ∧ (pipeline symbols).Reachable s.abstract := by
  refine h.refines abstract ⟨initial_linked symbols hcapacity, initial_abstract symbols hcapacity⟩ ?_
  intro label s t hs habstract hexclusive hnext
  have hrouted := (Pipeline.consistent_of_reachable habstract).routed
  have ht := hs.next (fun queueID task hheld => (hrouted.holding queueID task hheld).2) hexclusive hnext
  exact ⟨ht, (hs.abstract_next ht hexclusive hnext).imp_right fun habstract => ⟨label, habstract⟩⟩

/-- A worker that pushes does so to its own queue. -/
def OwnQueues (s : RingPipeline) : Prop :=
  ∀ queueID worker, (s.queues queueID).producers (.worker worker) ≠ none → worker = queueID

/-- In every run in which pushes exclude each other, workers push to their own queues. -/
theorem ownQueues_of_reachableBy (hcapacity : 0 < capacity)
    (h : (ringPipeline symbols capacity).ReachableBy Exclusive s) : s.OwnQueues := by
  intro queueID worker hproducer
  obtain ⟨hlinked, habstract⟩ := linked_of_reachableBy hcapacity h
  obtain ⟨⟨task, state⟩, hstate⟩ := Option.ne_none_iff_exists'.mp hproducer
  obtain ⟨rest, hoperations⟩ := hlinked.calls queueID _ task state hstate
  have hworking : s.abstract.working worker = .submitTask task queueID :: rest := hoperations
  exact ((Pipeline.consistent_of_reachable habstract).routed.working worker task queueID
    (hworking ▸ List.mem_cons_self ..)).1.symm

/-- A test that a space check of a thread is made on the current write index while the other thread that may push to the
queue owns no slot. -/
def pushesAlone (s : RingPipeline) (thread : Thread) : Bool :=
  match s.operations thread with
  | .submitTask _ queueID :: _ => ((s.queues queueID).producers thread).all fun
    | (_, .loadRead currentTail) => currentTail == (s.queues queueID).ring.write &&
      [.dispatcher, .worker queueID].all fun other =>
        other == thread || ((s.queues queueID).producers other).all fun (_, state) => !state.claims
    | _ => true
  | _ => true

/-- What the test says. -/
theorem OwnQueues.exclusive (h : s.OwnQueues) {label : Pipeline.Label} {thread : Thread}
    (hlabel : operating label = some thread) (htest : s.pushesAlone thread = true) : Exclusive label s := by
  intro other task queueID rest hother hoperations val currentTail hproducer _
  obtain rfl := Option.some.inj (hlabel.symm.trans hother)
  simp only [pushesAlone, hoperations, hproducer, Option.all_some, Bool.and_eq_true, beq_iff_eq] at htest
  refine ⟨htest.1, fun other hne ⟨val, state, hstate, hclaims⟩ => ?_⟩
  have hmem : other ∈ [.dispatcher, .worker queueID] := by
    cases other with
    | dispatcher => exact List.mem_cons_self ..
    | worker worker =>
      have hsome : (s.queues queueID).producers (.worker worker) ≠ none := by rw [hstate]; exact Option.some_ne_none _
      rw [h queueID worker hsome]
      exact List.mem_cons_of_mem _ (List.mem_singleton_self _)
  have hfree := List.all_eq_true.mp htest.2 other hmem
  simp [hne, hstate, hclaims] at hfree

end RingPipeline

end MatchingEngine
