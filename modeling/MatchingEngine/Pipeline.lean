import MatchingEngine.Draining

/-!
# The multithreaded pipeline

Requests are pushed to the dispatcher, whose thread takes all waiting messages at once and
hands them to the central order book one after another; every worker pops the tasks of its
own queue. A step is one queue operation, the part of `addOrder` or `cancelOrder` before
its first queue operation, or the part of a task that works on the book. Threads take
their steps in any order.

The queues are lists here: an operation on one is a single step, and a push always finds
space. The ring buffers of the workers are bounded, and two threads may be inside a push to the
same one. `RingPipeline` has both, and refines this pipeline in the runs in which pushes exclude
each other.

The messages pushed and the tasks executed so far are recorded for the verification. No
step reads these records, apart from the number of messages pushed, which names the next
order.
-/

namespace MatchingEngine

/-- A client request before a call number is attached to it. -/
structure Request where
  terms : OrderTerms
  origClientOrderID : String
  type : IncomingMessageType
deriving DecidableEq

/-- The message of a request: its order is constructed here. -/
def Request.message (request : Request) (serial : ℕ) : IncomingMessage :=
  ⟨.ofTerms request.terms serial, request.origClientOrderID, request.type⟩

/-- The task that a message leads to. -/
def IncomingMessage.task (message : IncomingMessage) : Task :=
  match message.type with
  | .newOrder => .newOrder message.order
  | .cancelOrder => .cancelOrder message.order message.origClientOrderID

/-- The task carries the order of the message. -/
@[simp] theorem IncomingMessage.task_order (message : IncomingMessage) : message.task.order = message.order := by
  unfold IncomingMessage.task
  split <;> rfl

/-- The state of the queues, of the dispatcher thread and of the workers. -/
structure Pipeline where
  incoming : List IncomingMessage
  flushed : List IncomingMessage
  dispatching : List QueueOperation
  engine : CentralOrderBook
  holding : ℕ → Option Task
  working : ℕ → List QueueOperation
  pushed : List IncomingMessage
  executed : List Task

namespace Pipeline

/-- A step of a client, of the dispatcher thread or of a worker. -/
inductive Label
  | push (request : Request)
  | flush
  | dispatch
  | dispatcherOperation
  | pop (queueID : ℕ)
  | execute (queueID : ℕ)
  | workerOperation (queueID : ℕ)

/-- Nothing has been pushed. -/
def initial (symbols : List String) : Pipeline where
  incoming := []
  flushed := []
  dispatching := []
  engine := .initialise symbols
  holding := fun _ => none
  working := fun _ => []
  pushed := []
  executed := []

/-- What the dispatcher does with a message before the first queue operation. -/
def dispatchWork (c : CentralOrderBook) (message : IncomingMessage) : CentralOrderBook × List QueueOperation :=
  match message.type with
  | .newOrder => ((c.addOrderWork message.order).1, (c.addOrderWork message.order).2.1)
  | .cancelOrder => c.cancelOrderWork message.order message.origClientOrderID

/-- The steps; a thread that is busy with queue operations makes them before anything else. -/
def next : Label → Pipeline → Option Pipeline
  | .push request, s =>
    let message := request.message s.pushed.length
    some { s with incoming := s.incoming ++ [message], pushed := s.pushed ++ [message] }
  | .flush, s =>
    match s.flushed, s.dispatching with
    | [], [] => some { s with flushed := s.incoming, incoming := [] }
    | _, _ => none
  | .dispatch, s =>
    match s.flushed, s.dispatching with
    | message :: rest, [] =>
      let (engine, operations) := dispatchWork s.engine message
      some { s with flushed := rest, engine := engine, dispatching := operations }
    | _, _ => none
  | .dispatcherOperation, s =>
    match s.dispatching with
    | operation :: operations =>
      (s.engine.perform operation).toOption.map fun engine => { s with engine := engine, dispatching := operations }
    | [] => none
  | .pop queueID, s =>
    match s.holding queueID, s.working queueID with
    | none, [] =>
      (s.engine.tryPop queueID).map fun (task, engine) =>
        { s with engine := engine, holding := Function.update s.holding queueID (some task) }
    | _, _ => none
  | .execute queueID, s =>
    match s.holding queueID with
    | some task =>
      let (engine, operations) := s.engine.taskWork task
      some { s with
        engine := engine
        holding := Function.update s.holding queueID none
        working := Function.update s.working queueID operations
        executed := s.executed ++ [task] }
    | none => none
  | .workerOperation queueID, s =>
    match s.working queueID with
    | operation :: operations =>
      (s.engine.perform operation).toOption.map fun engine =>
        { s with engine := engine, working := Function.update s.working queueID operations }
    | [] => none

end Pipeline

/-- The pipeline over the configured symbols, whose queues are unbounded and atomic. -/
def pipeline (symbols : List String) : Machine Pipeline Pipeline.Label where
  start := .initial symbols
  next := Pipeline.next

namespace Pipeline

variable {s t : Pipeline}

/-- Everything a step can do. -/
theorem next_cases {label : Label} (h : next label s = some t) :
    (∃ request, label = .push request ∧
      t = { s with
        incoming := s.incoming ++ [request.message s.pushed.length]
        pushed := s.pushed ++ [request.message s.pushed.length] }) ∨
    (label = .flush ∧ s.flushed = [] ∧ s.dispatching = [] ∧ t = { s with flushed := s.incoming, incoming := [] }) ∨
    (∃ message rest, label = .dispatch ∧ s.flushed = message :: rest ∧ s.dispatching = [] ∧
      t = { s with
        flushed := rest
        engine := (dispatchWork s.engine message).1
        dispatching := (dispatchWork s.engine message).2 }) ∨
    (∃ operation operations, label = .dispatcherOperation ∧ s.dispatching = operation :: operations ∧
      t = { s with engine := s.engine.afterOperations [operation], dispatching := operations }) ∨
    (∃ queueID task rest, label = .pop queueID ∧ s.holding queueID = none ∧ s.working queueID = [] ∧
      s.engine.threadQueues queueID = task :: rest ∧
      t = { s with
        engine := s.engine.withQueue queueID rest
        holding := Function.update s.holding queueID (some task) }) ∨
    (∃ queueID task, label = .execute queueID ∧ s.holding queueID = some task ∧
      t = { s with
        engine := (s.engine.taskWork task).1
        holding := Function.update s.holding queueID none
        working := Function.update s.working queueID (s.engine.taskWork task).2
        executed := s.executed ++ [task] }) ∨
    ∃ queueID operation operations, label = .workerOperation queueID ∧ s.working queueID = operation :: operations ∧
      t = { s with
        engine := s.engine.afterOperations [operation]
        working := Function.update s.working queueID operations } := by
  have hperform : ∀ {operation : QueueOperation} {engine : CentralOrderBook},
      (s.engine.perform operation).toOption = some engine → engine = s.engine.afterOperations [operation] := by
    intro operation engine heq
    cases hresult : s.engine.perform operation with
    | error message => simp [hresult, Except.toOption] at heq
    | ok last =>
      simp only [hresult, Except.toOption, Option.some.injEq] at heq
      exact CentralOrderBook.eq_of_performAll _ (by simp [CentralOrderBook.performAll, hresult, heq])
  cases label with
  | push request => exact Or.inl ⟨request, rfl, (Option.some.inj h).symm⟩
  | flush =>
    simp only [next] at h
    split at h
    · rename_i hflushed hdispatching
      exact Or.inr (Or.inl ⟨rfl, hflushed, hdispatching, (Option.some.inj h).symm⟩)
    · cases h
  | dispatch =>
    simp only [next] at h
    split at h
    · rename_i message rest hflushed hdispatching
      exact Or.inr (Or.inr (Or.inl ⟨message, rest, rfl, hflushed, hdispatching, (Option.some.inj h).symm⟩))
    · cases h
  | dispatcherOperation =>
    simp only [next] at h
    split at h
    · rename_i operation operations hdispatching
      obtain ⟨engine, hengine, rfl⟩ := Option.map_eq_some_iff.mp h
      exact Or.inr (Or.inr (Or.inr (Or.inl ⟨operation, operations, rfl, hdispatching, hperform hengine ▸ rfl⟩)))
    · cases h
  | pop queueID =>
    simp only [next] at h
    split at h
    · rename_i hholding hworking
      cases hqueue : s.engine.threadQueues queueID with
      | nil => simp [CentralOrderBook.tryPop, hqueue] at h
      | cons task rest =>
        simp only [CentralOrderBook.tryPop, hqueue, Option.map_some, Option.some.injEq] at h
        exact Or.inr (Or.inr (Or.inr (Or.inr (Or.inl
          ⟨queueID, task, rest, rfl, hholding, hworking, hqueue, h.symm⟩))))
    · cases h
  | execute queueID =>
    simp only [next] at h
    split at h
    · rename_i task hholding
      exact Or.inr (Or.inr (Or.inr (Or.inr (Or.inr (Or.inl
        ⟨queueID, task, rfl, hholding, (Option.some.inj h).symm⟩)))))
    · cases h
  | workerOperation queueID =>
    simp only [next] at h
    split at h
    · rename_i operation operations hworking
      obtain ⟨engine, hengine, rfl⟩ := Option.map_eq_some_iff.mp h
      exact Or.inr (Or.inr (Or.inr (Or.inr (Or.inr (Or.inr
        ⟨queueID, operation, operations, rfl, hworking, hperform hengine ▸ rfl⟩)))))
    · cases h

end Pipeline

end MatchingEngine
