import MatchingEngine.OutgoingMessageProcessor
import MatchingEngine.QueueMPMC
import MatchingEngine.QueueMPSC
import MatchingEngine.RingPipeline

/-!
# The engine with all its queues

The threads of clients push requests to the queue of the dispatcher, the dispatcher and the
workers enqueue messages to the two-lock queue, from which the outgoing message processor
dequeues, and tasks pass through the ring buffers. Every load and store of a queue is a step,
and all threads interleave.

This engine refines the pipeline over ring buffers: a request is pushed when its node is
appended, a message is enqueued when its node is linked. The reports that the processor has
handed to the FIX engine are those on the messages that were enqueued first.
-/

namespace MatchingEngine

namespace SharedQueue

open QueueMPSC

variable {ι T : Type*} {s t : SharedQueue ι T} {lists : List (List (ℕ × Option T))} {queued walked : List (ℕ × Option T)}

/-- The number of messages that the dispatcher has flushed. -/
def flushedCount (s : SharedQueue ι T) : ℕ := (s.flushed.map fun list => list.elim 0 List.length).sum

/-- The message that the next step of the dispatcher reads. -/
def received (s : SharedQueue ι T) : Option T :=
  match s.consumer with
  | .walk (some messageLinkedList) => (s.queue.heap.cells messageLinkedList).bind Node.data
  | _ => none

/-- The lists that were flushed hold the messages that were dispatched and those that are still walked. -/
theorem Delivers.flushedCount_eq (h : s.Delivers lists queued walked) :
    s.flushedCount = s.dispatched.length + (s.undispatched walked).length ∧
      s.flushedCount + queued.length = s.pushed.length := by
  have hcount : s.flushedCount = lists.flatten.length := by
    rw [flushedCount, h.flushed, List.map_map, List.length_flatten]
    rfl
  have hdispatched := congrArg List.length h.dispatched
  have hpushed := congrArg List.length h.pushed
  simp only [List.length_append, List.length_map] at hdispatched hpushed
  exact ⟨hcount.trans hdispatched.symm, by rw [hcount, hpushed]⟩

/-- A step of a client touches no record but the messages pushed, to which it may add one. -/
theorem next_pushed [DecidableEq ι] {label : Label ι T} (hlabel : label ≠ .consume) (hnext : next label s = some t) :
    t.flushed = s.flushed ∧ t.dispatched = s.dispatched ∧
      (t.pushed = s.pushed ∨ ∃ data, t.pushed = s.pushed ++ [data]) := by
  cases label with
  | push client data =>
    simp only [next] at hnext
    split at hnext
    · obtain rfl := Option.some.inj hnext
      exact ⟨rfl, rfl, Or.inl rfl⟩
    · cases hnext
  | produce client =>
    obtain ⟨state, _, hstep⟩ := Option.bind_eq_some_iff.mp hnext
    cases state with
    | construct data =>
      obtain rfl := Option.some.inj hstep
      exact ⟨rfl, rfl, Or.inl rfl⟩
    | append data newNode =>
      obtain ⟨queue, _, rfl⟩ := Option.map_eq_some_iff.mp hstep
      exact ⟨rfl, rfl, Or.inr ⟨data, rfl⟩⟩
    | notify =>
      obtain rfl := Option.some.inj hstep
      exact ⟨rfl, rfl, Or.inl rfl⟩
  | consume => exact absurd rfl hlabel
  | wake =>
    simp only [next] at hnext
    split at hnext
    · obtain rfl := Option.some.inj hnext
      exact ⟨rfl, rfl, Or.inl rfl⟩
    · cases hnext

/-- A step of the dispatcher that reads a message dispatches the first that it has not dispatched; another step may
flush, where it has dispatched all that was flushed before. -/
theorem Described.consume_records (h : s.Described lists queued walked) (hstep : s.consume = some t) :
    t.pushed = s.pushed ∧
      ((s.received = none ∧ t.dispatched = s.dispatched ∧
          (t.flushed = s.flushed ∨ s.flushedCount = s.dispatched.length ∧ t.flushedCount = s.pushed.length)) ∨
        ∃ data, s.received = some data ∧ t.dispatched = s.dispatched ++ [some data] ∧ t.flushed = s.flushed ∧
          s.pushed[s.dispatched.length]? = some data ∧ s.dispatched.length < s.flushedCount) := by
  obtain ⟨hdelivers, dummy, owner, hchained⟩ := id h
  obtain ⟨hundispatched, hlength⟩ := hdelivers.flushedCount_eq
  have hwalks := hdelivers.walks
  rw [undispatched] at hundispatched
  cases hconsumer : s.consumer with
  | isEmpty =>
    have hreceived : s.received = none := by rw [received, hconsumer]
    rw [SharedQueue.consume, hconsumer] at hstep
    obtain ⟨empty, _, rfl⟩ := Option.map_eq_some_iff.mp hstep
    exact ⟨rfl, Or.inl ⟨hreceived, rfl, Or.inl rfl⟩⟩
  | lock =>
    have hreceived : s.received = none := by rw [received, hconsumer]
    rw [hconsumer] at hwalks hundispatched
    obtain ⟨rfl, hqueued⟩ := hwalks
    obtain ⟨queue, ret, _, hret, hflush, hwalk, _⟩ :=
      hchained.detach hqueued .isEmpty []
    have hfollow := hwalk.walk hdelivers.length_queued
    rw [hret] at hfollow
    simp only [SharedQueue.consume, hconsumer, hflush, Option.map_some, hfollow, Option.some.injEq] at hstep
    subst hstep
    refine ⟨rfl, Or.inl ⟨hreceived, rfl, Or.inr ⟨hundispatched, ?_⟩⟩⟩
    rw [flushedCount, List.map_append, List.sum_append]
    simpa [flushedCount] using hlength
  | waiting => exact absurd hconsumer hdelivers.not_waiting
  | walk messageLinkedList =>
    rw [hconsumer] at hwalks hundispatched
    obtain rfl : messageLinkedList = Node.first walked := hwalks
    cases walked with
    | nil =>
      have hreceived : s.received = none := by simp [received, hconsumer]
      simp only [SharedQueue.consume, hconsumer, Node.first_nil, Option.some.injEq] at hstep
      subst hstep
      exact ⟨rfl, Or.inl ⟨hreceived, rfl, Or.inl rfl⟩⟩
    | cons first rest =>
      simp only [SharedQueue.consume, hconsumer, Node.first_cons, hchained.walk.1, Option.map_some,
        Option.some.injEq] at hstep
      subst hstep
      have haccounted := hdelivers.accounted
      rw [undispatched, hconsumer] at haccounted
      have hnext : (s.pushed.map some)[s.dispatched.length]? = some first.2 := by
        rw [← haccounted, List.getElem?_append_right (Nat.le_refl _), Nat.sub_self]
        rfl
      rw [List.getElem?_map, Option.map_eq_some_iff] at hnext
      obtain ⟨data, hdata, hfirst⟩ := hnext
      have hreceived : s.received = some data := by
        simp [received, hconsumer, Node.first_cons, hchained.walk.1, hfirst]
      refine ⟨rfl, Or.inr ⟨data, hreceived, by rw [hfirst], rfl, hdata, ?_⟩⟩
      simp only [WalkState.dispatched, Bool.false_eq_true, if_false, List.length_cons] at hundispatched
      omega
  | advance messageLinkedList =>
    have hreceived : s.received = none := by rw [received, hconsumer]
    rw [SharedQueue.consume, hconsumer] at hstep
    obtain ⟨node, _, rfl⟩ := Option.map_eq_some_iff.mp hstep
    exact ⟨rfl, Or.inl ⟨hreceived, rfl, Or.inl rfl⟩⟩
  | delete temp messageLinkedList =>
    have hreceived : s.received = none := by rw [received, hconsumer]
    rw [SharedQueue.consume, hconsumer] at hstep
    obtain ⟨heap, _, rfl⟩ := Option.map_eq_some_iff.mp hstep
    exact ⟨rfl, Or.inl ⟨hreceived, rfl, Or.inl rfl⟩⟩

end SharedQueue

namespace QueueMPMC

variable {T : Type*}

/-- The item that a call has removed and still has to return. -/
def CallState.handed : CallState T → List (Option T)
  | .unlockHead _ data | .delete _ data => [data]
  | _ => []

end QueueMPMC

namespace TwoLockQueue

open QueueMPMC

variable {ι T : Type*} [DecidableEq ι] {s t : TwoLockQueue ι T} {thread : ι} {state : CallState T}

/-- A step of `enqueue` removes no item. It links the item and has taken effect, or it returns after this, or neither
changes. -/
theorem step_enqueue {data : T} {result : Option (Result T)} (hoperation : state.operation = (.enqueue data, result))
    (hstep : s.step thread state = some t) :
    t.dequeued = s.dequeued ∧ ∃ current, t.calls = Function.update s.calls thread current ∧
      ((∃ state', current = some state' ∧ state'.operation = (.enqueue data, result) ∧ t.linked = s.linked) ∨
        (∃ state', result = none ∧ current = some state' ∧ state'.operation = (.enqueue data, some .enqueued) ∧
          t.linked = s.linked ++ [data]) ∨
        result ≠ none ∧ current = none ∧ t.linked = s.linked) := by
  cases state with
  | allocate item =>
    obtain rfl := Option.some.inj hstep
    exact ⟨rfl, _, rfl, Or.inl ⟨_, rfl, hoperation, rfl⟩⟩
  | storeData item newNode =>
    obtain ⟨heap, _, rfl⟩ := Option.map_eq_some_iff.mp hstep
    exact ⟨rfl, _, rfl, Or.inl ⟨_, rfl, hoperation, rfl⟩⟩
  | lockTail item newNode =>
    simp only [step] at hstep
    split at hstep
    · obtain rfl := Option.some.inj hstep
      exact ⟨rfl, _, rfl, Or.inl ⟨_, rfl, hoperation, rfl⟩⟩
    · cases hstep
  | loadTail item newNode =>
    obtain rfl := Option.some.inj hstep
    exact ⟨rfl, _, rfl, Or.inl ⟨_, rfl, hoperation, rfl⟩⟩
  | storeNext item newNode tail =>
    obtain ⟨heap, _, rfl⟩ := Option.map_eq_some_iff.mp hstep
    simp only [CallState.operation, Prod.mk.injEq, Operation.enqueue.injEq] at hoperation
    obtain ⟨rfl, rfl⟩ := hoperation
    exact ⟨rfl, _, rfl, Or.inr (Or.inl ⟨_, rfl, rfl, rfl, rfl⟩)⟩
  | storeTail item newNode =>
    obtain rfl := Option.some.inj hstep
    exact ⟨rfl, _, rfl, Or.inl ⟨_, rfl, hoperation, rfl⟩⟩
  | unlockTail item =>
    obtain rfl := Option.some.inj hstep
    simp only [CallState.operation, Prod.mk.injEq] at hoperation
    exact ⟨rfl, _, rfl, Or.inr (Or.inr ⟨by simp [← hoperation.2], rfl, rfl⟩)⟩
  | lockHead | loadHead | loadNext | loadData | storeHead | unlockHead | delete | unlockMissed =>
    simp [CallState.operation] at hoperation

/-- A step of `dequeue` links no item. The item that it removes is handed over until the last step, which returns it. -/
theorem step_dequeue (hoperation : state.operation.1 = .dequeue) (hstep : s.step thread state = some t) :
    t.linked = s.linked ∧ ∃ current, t.calls = Function.update s.calls thread current ∧
      (∀ state', current = some state' → state'.operation.1 = .dequeue) ∧
      ((∃ node data, state = .delete node data ∧ current = none ∧ t.dequeued = s.dequeued) ∨
        (∀ node data, state ≠ .delete node data) ∧ ∃ removed, t.dequeued = s.dequeued ++ removed ∧
          current.elim [] CallState.handed = state.handed ++ removed) := by
  cases state with
  | allocate | storeData | lockTail | loadTail | storeNext | storeTail | unlockTail =>
    simp [CallState.operation] at hoperation
  | lockHead =>
    simp only [step] at hstep
    split at hstep
    · obtain rfl := Option.some.inj hstep
      exact ⟨rfl, _, rfl, by simp [CallState.operation], Or.inr ⟨by simp, [], (List.append_nil _).symm, rfl⟩⟩
    · cases hstep
  | loadHead =>
    obtain rfl := Option.some.inj hstep
    exact ⟨rfl, _, rfl, by simp [CallState.operation], Or.inr ⟨by simp, [], (List.append_nil _).symm, rfl⟩⟩
  | loadNext currentHead =>
    obtain ⟨node, _, rfl⟩ := Option.map_eq_some_iff.mp hstep
    split
    · exact ⟨rfl, _, rfl, by simp [CallState.operation], Or.inr ⟨by simp, [], (List.append_nil _).symm, rfl⟩⟩
    · exact ⟨rfl, _, rfl, by simp [CallState.operation], Or.inr ⟨by simp, [], (List.append_nil _).symm, rfl⟩⟩
  | loadData currentHead newHead =>
    obtain ⟨node, _, rfl⟩ := Option.map_eq_some_iff.mp hstep
    exact ⟨rfl, _, rfl, by simp [CallState.operation], Or.inr ⟨by simp, [], (List.append_nil _).symm, rfl⟩⟩
  | storeHead currentHead newHead data =>
    obtain rfl := Option.some.inj hstep
    exact ⟨rfl, _, rfl, by simp [CallState.operation], Or.inr ⟨by simp, [data], rfl, rfl⟩⟩
  | unlockHead currentHead data =>
    obtain rfl := Option.some.inj hstep
    exact ⟨rfl, _, rfl, by simp [CallState.operation], Or.inr ⟨by simp, [], (List.append_nil _).symm, rfl⟩⟩
  | delete currentHead data =>
    obtain ⟨heap, _, rfl⟩ := Option.map_eq_some_iff.mp hstep
    exact ⟨rfl, _, rfl, by simp, Or.inl ⟨_, _, rfl, rfl, rfl⟩⟩
  | unlockMissed =>
    obtain rfl := Option.some.inj hstep
    exact ⟨rfl, _, rfl, by simp, Or.inr ⟨by simp, [], (List.append_nil _).symm, rfl⟩⟩

end TwoLockQueue

/-- The label at which a thread makes its queue operations. -/
def Thread.operation : Thread → Pipeline.Label
  | .dispatcher => .dispatcherOperation
  | .worker queueID => .workerOperation queueID

/-- The engine with the queue of the dispatcher, the ring buffers and the queue of outgoing messages, on which the
processor is the thread `none`. The lists of the pipeline, its outgoing messages included, stay empty. -/
structure ThreadedEngine (ι : Type*) extends RingPipeline where
  requests : SharedQueue ι Request
  messages : TwoLockQueue (Option Thread) OutgoingMessage
  processor : OutgoingMessageProcessor

namespace ThreadedEngine

/-- A client calls `push` or takes a step of its call; the dispatcher takes a step on its queue; a thread takes a step of
its next queue operation; a worker pops or executes a task; the processor takes a step. -/
inductive Label (ι : Type*)
  | push (client : ι) (request : Request)
  | produce (client : ι)
  | consume
  | operate (thread : Thread)
  | pop (queueID : ℕ)
  | execute (queueID : ℕ)
  | process

variable {ι : Type*} [DecidableEq ι]

/-- Nothing has been pushed. -/
def initial (ι : Type*) (symbols : List String) (capacity : ℕ) : ThreadedEngine ι where
  toRingPipeline := .initial symbols capacity
  requests := .initial ι Request
  messages := .initial (Option Thread) OutgoingMessage
  processor := .initial

/-- A step inside `enqueue`, and whether it returns. -/
def enqueueStep (messages : TwoLockQueue (Option Thread) OutgoingMessage) (thread : Thread) (message : OutgoingMessage) :
    Option (TwoLockQueue (Option Thread) OutgoingMessage × Bool) :=
  match messages.calls (some thread) with
  | none => (messages.call (some thread) (.enqueue message) (.allocate message)).map fun messages => (messages, false)
  | some state => (messages.step (some thread) state).map fun messages =>
      (messages, (messages.calls (some thread)).isNone)

/-- The steps that touch neither the requests nor the outgoing messages are those over ring buffers. -/
def ringStep (label : Pipeline.Label) (s : ThreadedEngine ι) : Option (ThreadedEngine ι) :=
  (RingPipeline.next label s.toRingPipeline).map fun r => { s with toRingPipeline := r }

/-- The steps. The dispatcher goes on with its queue when it has made its queue operations, and the processor calls
`dequeue` again when it has handed the report to the FIX engine. -/
def next : Label ι → ThreadedEngine ι → Option (ThreadedEngine ι)
  | .push client request, s =>
    (SharedQueue.next (.push client request) s.requests).map fun requests => { s with requests := requests }
  | .produce client, s =>
    (SharedQueue.next (.produce client) s.requests).map fun requests => { s with requests := requests }
  | .consume, s =>
    match s.dispatching with
    | [] => s.requests.consume.map fun requests =>
      match s.requests.received with
      | none => { s with requests := requests }
      | some request =>
        let (engine, operations) := Pipeline.dispatchWork s.engine (request.message s.requests.dispatched.length)
        { s with requests := requests, engine := engine, dispatching := operations }
    | _ :: _ => none
  | .operate thread, s =>
    match s.operations thread with
    | .enqueue message :: rest => (enqueueStep s.messages thread message).map fun (messages, returned) =>
      { s with
        toRingPipeline := if returned then s.toRingPipeline.setOperations rest thread else s.toRingPipeline
        messages := messages }
    | _ => s.ringStep thread.operation
  | .pop queueID, s => s.ringStep (.pop queueID)
  | .execute queueID, s => s.ringStep (.execute queueID)
  | .process, s =>
    match s.messages.calls none with
    | none => (s.messages.call none .dequeue .lockHead).map fun messages => { s with messages := messages }
    | some state => (s.messages.step none state).map fun messages =>
      match state with
      | .delete _ (some message) => { s with messages := messages, processor := s.processor.process message }
      | _ => { s with messages := messages }

end ThreadedEngine

/-- The engine with all its queues. -/
def threadedEngine (ι : Type*) [DecidableEq ι] (symbols : List String) (capacity : ℕ) :
    Machine (ThreadedEngine ι) (ThreadedEngine.Label ι) where
  start := .initial ι symbols capacity
  next := ThreadedEngine.next

/-- The engine with its outgoing messages replaced. -/
def CentralOrderBook.withOutgoing (c : CentralOrderBook) (messages : List OutgoingMessage) : CentralOrderBook :=
  { c with outgoingMessages := messages }

/-- Tasks do not read the outgoing messages. -/
theorem CentralOrderBook.taskWork_withOutgoing (c : CentralOrderBook) (messages : List OutgoingMessage) (task : Task) :
    (c.withOutgoing messages).taskWork task = ((c.taskWork task).1.withOutgoing messages, (c.taskWork task).2) := by
  cases task with
  | newOrder order => rfl
  | cancelOrder order origClientOrderID =>
    simp only [taskWork, taskCancelOrderWork, bookOf, withOutgoing]
    split <;> rfl

/-- The dispatcher does not read the outgoing messages. -/
theorem Pipeline.dispatchWork_withOutgoing (c : CentralOrderBook) (messages : List OutgoingMessage)
    (message : IncomingMessage) :
    dispatchWork (c.withOutgoing messages) message =
      ((dispatchWork c message).1.withOutgoing messages, (dispatchWork c message).2) := by
  unfold dispatchWork
  split
  · have hexists : (c.withOutgoing messages).doesOrderBookExist message.order.symbol =
        c.doesOrderBookExist message.order.symbol := rfl
    simp only [CentralOrderBook.addOrderWork, hexists]
    by_cases h : c.doesOrderBookExist message.order.symbol = true
    · simp only [h, if_true]
      rfl
    · simp only [h]
      rfl
  · rfl

/-- A thread has the operations that were set for it. -/
@[simp] theorem RingPipeline.setOperations_self (r : RingPipeline) (rest : List QueueOperation) (thread : Thread) :
    (r.setOperations rest thread).operations thread = rest := by
  cases thread with
  | dispatcher => rfl
  | worker worker => exact Function.update_self ..

/-- The other threads keep theirs. -/
theorem RingPipeline.setOperations_of_ne (r : RingPipeline) (rest : List QueueOperation) {thread other : Thread}
    (h : other ≠ thread) : (r.setOperations rest thread).operations other = r.operations other := by
  match thread, other with
  | .dispatcher, .dispatcher => exact absurd rfl h
  | .dispatcher, .worker _ => rfl
  | .worker _, .dispatcher => rfl
  | .worker worker, .worker other =>
    have hworker : other ≠ worker := fun heq => h (heq ▸ rfl)
    exact Function.update_of_ne hworker ..

/-- Setting the operations that a thread has anyway changes nothing. -/
theorem RingPipeline.setOperations_operations (r : RingPipeline) (thread : Thread) :
    r.setOperations (r.operations thread) thread = r := by
  cases thread with
  | dispatcher => rfl
  | worker worker => simp only [setOperations, operations, Function.update_eq_self]

/-- The last report of a life tells what rests. -/
theorem Lifecycle.exists_last {order : Order} {reports : List OutgoingMessage} {state : Option Order}
    (h : Lifecycle order reports state) : ∃ last, (acceptedMessage order :: reports).getLast? = some last ∧
      state.toList = if last.type.final then [] else [last.order] := by
  obtain ⟨_, hresting, hended⟩ := h.reported
  cases state with
  | some resting =>
    obtain ⟨hpartials, last, hlast, rfl⟩ := hresting resting rfl
    refine ⟨last, hlast, ?_⟩
    rcases List.mem_cons.mp (List.mem_of_getLast? hlast) with rfl | hmem
    · rfl
    · simp [hpartials last hmem, OutgoingMessageType.final]
  | none =>
    obtain ⟨front, last, rfl, hfinal⟩ := hended rfl
    refine ⟨last, by rw [← List.cons_append, List.getLast?_concat], ?_⟩
    rw [hfinal]
    rfl

/-- Requests as the messages that the pipeline numbers. -/
def numbered (requests : List Request) : List IncomingMessage := requests.mapIdx fun serial request => request.message serial

@[simp] theorem length_numbered (requests : List Request) : (numbered requests).length = requests.length :=
  List.length_mapIdx

/-- A further request gets the next number. -/
theorem numbered_concat (requests : List Request) (request : Request) :
    numbered (requests ++ [request]) = numbered requests ++ [request.message requests.length] :=
  List.mapIdx_concat

namespace ThreadedEngine

variable {ι : Type*} [DecidableEq ι] {symbols : List String} {capacity : ℕ} {s t : ThreadedEngine ι}

/-- The call of a thread has linked its message. -/
def committed (s : ThreadedEngine ι) (thread : Thread) : Bool :=
  (s.messages.calls (some thread)).any (·.operation.2.isSome)

/-- The queue operations of a thread that have not taken effect. -/
def pending (s : ThreadedEngine ι) (thread : Thread) : List QueueOperation :=
  if s.committed thread then (s.operations thread).tail else s.operations thread

/-- The pipeline over ring buffers that a state stands for. -/
def view (s : ThreadedEngine ι) : RingPipeline where
  incoming := (numbered s.requests.pushed).drop s.requests.flushedCount
  flushed := ((numbered s.requests.pushed).take s.requests.flushedCount).drop s.requests.dispatched.length
  dispatching := s.pending .dispatcher
  engine := s.engine.withOutgoing s.messages.linked
  holding := s.holding
  working := fun queueID => s.pending (.worker queueID)
  pushed := numbered s.requests.pushed
  executed := s.executed
  queues := s.queues

/-- What connects the threads with the queues. -/
structure Joined (s : ThreadedEngine ι) : Prop where
  requests : (sharedQueue ι Request).Reachable s.requests
  messages : (twoLockQueue (Option Thread) OutgoingMessage).Reachable s.messages
  enqueuing : ∀ thread state, s.messages.calls (some thread) = some state →
    ∃ message rest, s.operations thread = .enqueue message :: rest ∧ state.operation.1 = .enqueue message
  dequeuing : ∀ state, s.messages.calls none = some state → state.operation.1 = .dequeue
  holding : ∀ queueID task, s.holding queueID = some task → s.working queueID = []
  processed : ∃ processed, s.processor = OutgoingMessageProcessor.initial.processAll processed ∧
    s.messages.dequeued = processed.map some ++ (s.messages.calls none).elim [] QueueMPMC.CallState.handed

/-- A step leads to a joined state, whose view is the one before or the result of a step over ring buffers. -/
def Simulated (s t : ThreadedEngine ι) : Prop :=
  t.Joined ∧ (t.view = s.view ∨ ∃ label, RingPipeline.Exclusive label s.view ∧
    RingPipeline.next label s.view = some t.view)

/-- A thread has passed the space check of a push to a ring buffer, and no other thread is then between its own check
and its store. -/
def Exclusive (label : Label ι) (s : ThreadedEngine ι) : Prop :=
  ∀ thread, label = .operate thread → RingPipeline.Exclusive thread.operation s.toRingPipeline

omit [DecidableEq ι] in
/-- The view has the operations that have not taken effect. -/
@[simp] theorem view_operations (s : ThreadedEngine ι) (thread : Thread) : s.view.operations thread = s.pending thread := by
  cases thread <;> rfl

omit [DecidableEq ι] in
/-- A thread that is in no call of `enqueue` has all its operations before it. -/
theorem pending_of_idle {thread : Thread} (h : s.messages.calls (some thread) = none) :
    s.pending thread = s.operations thread := by
  rw [pending, committed, h]
  rfl

/-- Steps of a pipeline in which a thread makes an operation. -/
theorem setOperations_eq {r : RingPipeline} {thread : Thread} {rest : List QueueOperation}
    {operations : Thread → List QueueOperation} (hself : operations thread = rest)
    (hother : ∀ other, other ≠ thread → operations other = r.operations other) :
    r.setOperations rest thread =
      { r with dispatching := operations .dispatcher, working := fun queueID => operations (.worker queueID) } := by
  cases thread with
  | dispatcher =>
    have hworking : r.working = fun queueID => operations (.worker queueID) :=
      funext fun queueID => (hother (.worker queueID) (by simp)).symm
    rw [RingPipeline.setOperations, hself, ← hworking]
  | worker worker =>
    have hdispatching : r.dispatching = operations .dispatcher := (hother .dispatcher (by simp)).symm
    have hworking : Function.update r.working worker rest = fun queueID => operations (.worker queueID) := by
      funext queueID
      by_cases hq : queueID = worker
      · subst hq
        rw [Function.update_self, hself]
      · rw [Function.update_of_ne hq, hother (.worker queueID) (by simpa using hq)]
        rfl
    rw [RingPipeline.setOperations, hworking, ← hdispatching]

omit [DecidableEq ι] in
/-- The state whose pending operations are those of a pipeline after a thread made an operation. -/
theorem view_eq_setOperations {r : RingPipeline} {thread : Thread} {rest : List QueueOperation}
    (hself : t.pending thread = rest) (hother : ∀ other, other ≠ thread → t.pending other = r.operations other)
    (hrest : t.view = { r with dispatching := t.view.dispatching, working := t.view.working }) :
    t.view = r.setOperations rest thread := by
  rw [setOperations_eq hself hother]
  exact hrest

/-- An operation that enqueues a message. -/
theorem next_operation_enqueue {r : RingPipeline} {thread : Thread} {message : OutgoingMessage} {rest : List QueueOperation}
    (hoperations : r.operations thread = .enqueue message :: rest) :
    RingPipeline.next thread.operation r =
      some ({ r with engine := r.engine.withOutgoing (r.engine.outgoingMessages ++ [message]) }.setOperations rest
        thread) := by
  cases thread with
  | dispatcher =>
    have hdispatching : r.dispatching = .enqueue message :: rest := hoperations
    simp only [Thread.operation, RingPipeline.next, RingPipeline.pipelineStep, Pipeline.next, hdispatching]
    rfl
  | worker worker =>
    have hworking : r.working worker = .enqueue message :: rest := hoperations
    simp only [Thread.operation, RingPipeline.next, RingPipeline.pipelineStep, Pipeline.next, hworking]
    rfl

/-- An operation that submits a task. -/
theorem next_operation_submitTask {r : RingPipeline} {thread : Thread} {task : Task} {queueID : ℕ}
    {rest : List QueueOperation} (hoperations : r.operations thread = .submitTask task queueID :: rest) :
    RingPipeline.next thread.operation r = (r.submitStep thread task queueID).map fun (u, returned) =>
      if returned then u.setOperations rest thread else u := by
  cases thread with
  | dispatcher =>
    have hdispatching : r.dispatching = .submitTask task queueID :: rest := hoperations
    simp only [Thread.operation, RingPipeline.next, hdispatching]
    rfl
  | worker worker =>
    have hworking : r.working worker = .submitTask task queueID :: rest := hoperations
    simp only [Thread.operation, RingPipeline.next, hworking]
    rfl

/-- A step inside `submitTask` depends on the ring buffers only, and changes nothing else. -/
theorem submitStep_congr {r r' u : RingPipeline} {thread : Thread} {task : Task} {queueID : ℕ} {returned : Bool}
    (hcount : r'.engine.queueCount = r.engine.queueCount) (hqueues : r'.queues = r.queues)
    (h : r.submitStep thread task queueID = some (u, returned)) :
    u = { r with queues := u.queues } ∧ r'.submitStep thread task queueID = some ({ r' with queues := u.queues }, returned) := by
  obtain ⟨hlt, ⟨hproducer, rfl, rfl⟩ | ⟨val, state, hproducer, rfl, rfl⟩⟩ := RingPipeline.submitStep_cases h
  · refine ⟨rfl, ?_⟩
    rw [RingPipeline.submitStep, hcount, if_neg (Nat.not_le.mpr hlt), hqueues, hproducer]
    rfl
  · refine ⟨rfl, ?_⟩
    rw [RingPipeline.submitStep, hcount, if_neg (Nat.not_le.mpr hlt), hqueues, hproducer]
    rfl

/-- Labels at which no thread makes a queue operation are exclusive. -/
theorem exclusive_of_operating_none {label : Pipeline.Label} {r : RingPipeline} (h : RingPipeline.operating label = none) :
    RingPipeline.Exclusive label r := by
  intro thread task queueID rest hthread
  rw [h] at hthread
  cases hthread

/-- The operating thread of the label of a thread. -/
@[simp] theorem operating_operation (thread : Thread) : RingPipeline.operating thread.operation = some thread := by
  cases thread <;> rfl

namespace Joined

/-- A thread that is not about to enqueue is in no call of `enqueue`. -/
theorem idle (h : s.Joined) {thread : Thread} (hoperations : ∀ message rest, s.operations thread ≠ .enqueue message :: rest) :
    s.messages.calls (some thread) = none := by
  by_contra hcall
  obtain ⟨state, hstate⟩ := Option.ne_none_iff_exists'.mp hcall
  obtain ⟨message, rest, hhead, _⟩ := h.enqueuing thread state hstate
  exact hoperations message rest hhead

/-- A step of a client. -/
theorem client (h : s.Joined) {label : SharedQueue.Label ι Request} (hlabel : label ≠ .consume)
    {requests : SharedQueue ι Request} (hnext : SharedQueue.next label s.requests = some requests) :
    Simulated s { s with requests := requests } := by
  obtain ⟨lists, queued, walked, hdescribed⟩ := SharedQueue.described_of_reachable h.requests
  obtain ⟨_, hlength⟩ := hdescribed.1.flushedCount_eq
  obtain ⟨hflushed, hdispatched, hpushed⟩ := SharedQueue.next_pushed hlabel hnext
  have hcount : requests.flushedCount = s.requests.flushedCount := by
    rw [SharedQueue.flushedCount, hflushed, SharedQueue.flushedCount]
  refine ⟨⟨h.requests.step trivial hnext, h.messages, h.enqueuing, h.dequeuing, h.holding, h.processed⟩, ?_⟩
  obtain hpushed | ⟨request, hpushed⟩ := hpushed
  · refine Or.inl ?_
    simp only [view, hcount, hdispatched, hpushed]
    rfl
  · refine Or.inr ⟨.push request, exclusive_of_operating_none rfl, ?_⟩
    have hle : s.requests.flushedCount ≤ (numbered s.requests.pushed).length := by
      rw [length_numbered]
      omega
    simp only [view, hcount, hdispatched, hpushed, numbered_concat, List.drop_append_of_le_length hle,
      List.take_append_of_le_length hle, RingPipeline.next, RingPipeline.pipelineStep, Pipeline.next, Option.map_some,
      length_numbered]
    rfl

/-- A step of the dispatcher on its queue. -/
theorem consume (h : s.Joined) (hnext : next .consume s = some t) : Simulated s t := by
  obtain ⟨lists, queued, walked, hdescribed⟩ := SharedQueue.described_of_reachable h.requests
  obtain ⟨hcount, hlength⟩ := hdescribed.1.flushedCount_eq
  simp only [next] at hnext
  split at hnext
  · rename_i hdispatching
    obtain ⟨requests, hstep, rfl⟩ := Option.map_eq_some_iff.mp hnext
    have hconsume : (sharedQueue ι Request).next .consume s.requests = some requests := hstep
    have hreachable : (sharedQueue ι Request).Reachable requests := h.requests.step trivial hconsume
    have hidle : s.messages.calls (some .dispatcher) = none := h.idle fun message rest => by
      simp [RingPipeline.operations, hdispatching]
    have hpending : s.pending .dispatcher = [] := (pending_of_idle hidle).trans hdispatching
    obtain ⟨hpushed, ⟨hreceived, hdispatched, hflushed⟩ | ⟨request, hreceived, hdispatched, hflushed, hrequest, hless⟩⟩ :=
      hdescribed.consume_records hstep
    · rw [hreceived]
      refine ⟨⟨hreachable, h.messages, h.enqueuing, h.dequeuing, h.holding, h.processed⟩, ?_⟩
      obtain hflushed | ⟨hbefore, hafter⟩ := hflushed
      · refine Or.inl ?_
        have hcount : requests.flushedCount = s.requests.flushedCount := by
          rw [SharedQueue.flushedCount, hflushed, SharedQueue.flushedCount]
        simp only [view, hcount, hdispatched, hpushed]
        rfl
      · refine Or.inr ⟨.flush, exclusive_of_operating_none rfl, ?_⟩
        have hempty : s.view.flushed = [] := by
          simp only [view]
          rw [hbefore, List.drop_eq_nil_iff, List.length_take]
          exact Nat.min_le_left _ _
        have hall : (numbered s.requests.pushed).take requests.flushedCount = numbered s.requests.pushed := by
          rw [hafter, ← length_numbered, List.take_length]
        have hnone : (numbered s.requests.pushed).drop requests.flushedCount = [] := by
          rw [hafter, ← length_numbered, List.drop_length]
        have hflush : RingPipeline.next .flush s.view = some { s.view with flushed := s.view.incoming, incoming := [] } := by
          simp only [RingPipeline.next, RingPipeline.pipelineStep, Pipeline.next, hempty,
            show s.view.dispatching = [] from hpending, Option.map_some]
        rw [hflush, Option.some.injEq]
        simp only [view, hdispatched, hpushed, hall, hnone, hbefore]
        rfl
    · rw [hreceived]
      have hcount : requests.flushedCount = s.requests.flushedCount := by
        rw [SharedQueue.flushedCount, hflushed, SharedQueue.flushedCount]
      refine ⟨⟨hreachable, h.messages, fun thread state hcall => ?_, h.dequeuing, h.holding, h.processed⟩,
        Or.inr ⟨.dispatch, exclusive_of_operating_none rfl, ?_⟩⟩
      · cases thread with
        | dispatcher =>
          rw [hidle] at hcall
          cases hcall
        | worker => exact h.enqueuing _ state hcall
      · have hfirst : s.view.flushed = request.message s.requests.dispatched.length ::
            ((numbered s.requests.pushed).take s.requests.flushedCount).drop (s.requests.dispatched.length + 1) := by
          simp only [view]
          rw [List.drop_eq_getElem_cons (by rw [List.length_take, length_numbered]; omega), List.getElem_take]
          congr 1
          obtain ⟨hlt, hget⟩ := List.getElem?_eq_some_iff.mp hrequest
          simp only [numbered, List.getElem_mapIdx, hget]
        have hdispatch : RingPipeline.next .dispatch s.view = some { s.view with
            flushed := ((numbered s.requests.pushed).take s.requests.flushedCount).drop (s.requests.dispatched.length + 1)
            engine := (Pipeline.dispatchWork s.view.engine (request.message s.requests.dispatched.length)).1
            dispatching := (Pipeline.dispatchWork s.view.engine (request.message s.requests.dispatched.length)).2 } := by
          simp only [RingPipeline.next, RingPipeline.pipelineStep, Pipeline.next, hfirst,
            show s.view.dispatching = [] from hpending, Option.map_some]
        rw [hdispatch, Option.some.injEq]
        simp only [view, Pipeline.dispatchWork_withOutgoing, hcount, hdispatched, hpushed, List.length_append,
          List.length_singleton]
        congr 2
        symm
        exact pending_of_idle hidle
  · cases hnext

/-- A step on the queue of outgoing messages in which a thread is about to enqueue: the call goes on, or links the
message, or returns after this. -/
theorem enqueueStep_cases (h : s.Joined) {thread : Thread} {message : OutgoingMessage} {rest : List QueueOperation}
    (hoperations : s.operations thread = .enqueue message :: rest)
    {messages : TwoLockQueue (Option Thread) OutgoingMessage} {returned : Bool}
    (hstep : enqueueStep s.messages thread message = some (messages, returned)) :
    (twoLockQueue (Option Thread) OutgoingMessage).Reachable messages ∧ messages.dequeued = s.messages.dequeued ∧
      ∃ current, messages.calls = Function.update s.messages.calls (some thread) current ∧
        (∀ state, current = some state → state.operation.1 = .enqueue message) ∧
        ((returned = false ∧ current.any (·.operation.2.isSome) = s.committed thread ∧
            messages.linked = s.messages.linked) ∨
          (returned = false ∧ s.committed thread = false ∧ current.any (·.operation.2.isSome) = true ∧
            messages.linked = s.messages.linked ++ [message]) ∨
          returned = true ∧ s.committed thread = true ∧ current = none ∧ messages.linked = s.messages.linked) := by
  unfold enqueueStep at hstep
  cases hcall : s.messages.calls (some thread) with
  | none =>
    rw [hcall] at hstep
    obtain ⟨after, hafter, heq⟩ := Option.map_eq_some_iff.mp hstep
    obtain ⟨rfl, rfl⟩ := Prod.mk.inj heq
    have hnext : (twoLockQueue (Option Thread) OutgoingMessage).next (.enqueue (some thread) message) s.messages =
        some after := hafter
    refine ⟨h.messages.step trivial hnext, ?_⟩
    rw [TwoLockQueue.call, hcall] at hafter
    obtain rfl := Option.some.inj hafter
    refine ⟨rfl, _, rfl, fun state hstate => ?_, Or.inl ⟨rfl, ?_, rfl⟩⟩
    · obtain rfl := Option.some.inj hstate
      rfl
    · rw [committed, hcall]
      rfl
  | some state =>
    rw [hcall] at hstep
    obtain ⟨after, hafter, heq⟩ := Option.map_eq_some_iff.mp hstep
    obtain ⟨rfl, rfl⟩ := Prod.mk.inj heq
    have hnext : (twoLockQueue (Option Thread) OutgoingMessage).next (.step (some thread)) s.messages = some after := by
      change (s.messages.calls (some thread)).bind _ = _
      rw [hcall]
      exact hafter
    obtain ⟨other, others, hhead, hoperation⟩ := h.enqueuing thread state hcall
    obtain ⟨hsame, -⟩ := List.cons.inj (hoperations.symm.trans hhead)
    obtain rfl := QueueOperation.enqueue.inj hsame
    have hcommitted : s.committed thread = state.operation.2.isSome := by
      rw [committed, hcall]
      rfl
    obtain ⟨hdequeued, current, hcalls, hcases⟩ :=
      TwoLockQueue.step_enqueue (Prod.ext hoperation rfl : state.operation = (.enqueue message, state.operation.2)) hafter
    have hcurrent : after.calls (some thread) = current := by rw [hcalls, Function.update_self]
    refine ⟨h.messages.step trivial hnext, hdequeued, current, hcalls, ?_⟩
    rw [hcurrent, hcommitted]
    rcases hcases with ⟨state', rfl, hstate', hlinked⟩ | ⟨state', hnone, rfl, hstate', hlinked⟩ | ⟨hsome, rfl, hlinked⟩
    · refine ⟨fun state hstate => ?_, Or.inl ⟨rfl, ?_, hlinked⟩⟩
      · obtain rfl := Option.some.inj hstate
        rw [hstate']
      · rw [Option.any_some, hstate']
    · refine ⟨fun state hstate => ?_, Or.inr (Or.inl ⟨rfl, ?_, ?_, hlinked⟩)⟩
      · obtain rfl := Option.some.inj hstate
        rw [hstate']
      · rw [hnone]
        rfl
      · rw [Option.any_some, hstate']
        rfl
    · refine ⟨fun state hstate => ?_, Or.inr (Or.inr ⟨rfl, Option.isSome_iff_ne_none.mpr hsome, rfl, hlinked⟩)⟩
      cases hstate

/-- A thread that holds a task is idle also after another thread has made an operation. -/
theorem holding_setOperations (h : s.Joined) {thread : Thread} {operation : QueueOperation} {rest : List QueueOperation}
    (hoperations : s.operations thread = operation :: rest) (queueID : ℕ) (task : Task)
    (hheld : (s.setOperations rest thread).holding queueID = some task) :
    (s.setOperations rest thread).working queueID = [] := by
  cases thread with
  | dispatcher => exact h.holding queueID task hheld
  | worker worker =>
    have hidle : s.working queueID = [] := h.holding queueID task hheld
    have hne : queueID ≠ worker := by
      rintro rfl
      rw [RingPipeline.operations, hidle] at hoperations
      cases hoperations
    exact (Function.update_of_ne hne ..).trans hidle

/-- A step of a thread that enqueues a message. -/
theorem enqueue (h : s.Joined) {thread : Thread} {message : OutgoingMessage} {rest : List QueueOperation}
    (hoperations : s.operations thread = .enqueue message :: rest)
    {messages : TwoLockQueue (Option Thread) OutgoingMessage} {returned : Bool}
    (hstep : enqueueStep s.messages thread message = some (messages, returned)) :
    Simulated s { s with
      toRingPipeline := if returned then s.toRingPipeline.setOperations rest thread else s.toRingPipeline
      messages := messages } := by
  obtain ⟨hreachable, hdequeued, current, hcalls, hcurrent, hcases⟩ := h.enqueueStep_cases hoperations hstep
  have hself : messages.calls (some thread) = current := by rw [hcalls, Function.update_self]
  have hother : ∀ other, other ≠ some thread → messages.calls other = s.messages.calls other := fun other hne => by
    rw [hcalls, Function.update_of_ne hne]
  have hprocessor : messages.calls none = s.messages.calls none := hother none (by simp)
  have hprocessed := h.processed
  rw [← hdequeued, ← hprocessor] at hprocessed
  have hdequeuing := h.dequeuing
  rw [← hprocessor] at hdequeuing
  -- Of the queue of messages, the other threads see only their own calls.
  have hpending : ∀ (r : RingPipeline) other, other ≠ thread → r.operations other = s.operations other →
      { s with toRingPipeline := r, messages := messages }.pending other = s.pending other := by
    intro r other hne hsame
    have hoperations : { s with toRingPipeline := r, messages := messages }.operations other = s.operations other := hsame
    rw [pending, pending, committed, committed, hoperations, hother (some other) (by simpa using hne)]
  have henqueuing : ∀ other state, other ≠ thread → messages.calls (some other) = some state →
      ∃ message rest, s.operations other = .enqueue message :: rest ∧ state.operation.1 = .enqueue message :=
    fun other state hne hstate =>
      h.enqueuing other state ((hother (some other) (by simpa using hne)).symm.trans hstate)
  have hrunning : ∀ other state, messages.calls (some other) = some state →
      ∃ message rest, s.operations other = .enqueue message :: rest ∧ state.operation.1 = .enqueue message := by
    intro other state hstate
    by_cases heq : other = thread
    · subst heq
      exact ⟨message, rest, hoperations, hcurrent state (hself.symm.trans hstate)⟩
    · exact henqueuing other state heq hstate
  rcases hcases with ⟨rfl, hcommitted, hlinked⟩ | ⟨rfl, hbefore, hafter, hlinked⟩ | ⟨rfl, hbefore, rfl, hlinked⟩
  · refine ⟨⟨h.requests, hreachable, hrunning, hdequeuing, h.holding, hprocessed⟩, Or.inl ?_⟩
    have hkept : { s with messages := messages }.pending thread = s.pending thread := by
      simp only [pending, committed, hself, hcommitted]
      rfl
    rw [← s.view.setOperations_operations thread, view_operations]
    refine view_eq_setOperations hkept (fun other hne => (hpending _ other hne rfl).trans (view_operations ..).symm) ?_
    simp only [view, hlinked]
    rfl
  · refine ⟨⟨h.requests, hreachable, hrunning, hdequeuing, h.holding, hprocessed⟩,
      Or.inr ⟨thread.operation, fun other task queueID others hlabel hsubmit => ?_, ?_⟩⟩
    all_goals
      have hhead : s.view.operations thread = .enqueue message :: rest := by
        rw [view_operations, pending, hbefore]
        exact hoperations
    · obtain rfl := Option.some.inj ((operating_operation thread).symm.trans hlabel)
      rw [hhead] at hsubmit
      cases hsubmit
    · have hrest : { s with messages := messages }.pending thread = rest := by
        rw [pending, committed, hself, hafter, if_pos rfl]
        exact congrArg List.tail hoperations
      rw [next_operation_enqueue hhead, Option.some.injEq]
      symm
      refine view_eq_setOperations hrest
        (fun other hne => (hpending _ other hne rfl).trans (view_operations ..).symm) ?_
      simp only [view, hlinked]
      rfl
  · refine ⟨⟨h.requests, hreachable, fun other state hstate => ?_, hdequeuing, h.holding_setOperations hoperations,
      hprocessed⟩, Or.inl ?_⟩
    · have hne : other ≠ thread := by
        rintro rfl
        rw [hself] at hstate
        cases hstate
      obtain ⟨message', rest', hhead, hoperation⟩ := henqueuing other state hne hstate
      exact ⟨message', rest', (s.toRingPipeline.setOperations_of_ne rest hne).trans hhead, hoperation⟩
    · have hrest : { s with
          toRingPipeline := s.toRingPipeline.setOperations rest thread
          messages := messages }.pending thread = s.pending thread := by
        rw [pending, pending, committed, hself, hbefore, if_pos rfl, hoperations]
        exact s.toRingPipeline.setOperations_self rest thread
      rw [← s.view.setOperations_operations thread, view_operations]
      refine view_eq_setOperations hrest (fun other hne =>
        (hpending _ other hne (s.toRingPipeline.setOperations_of_ne rest hne)).trans (view_operations ..).symm) ?_
      simp only [view, hlinked]
      cases thread <;> rfl

/-- A step of a thread that submits a task. -/
theorem submitTask (h : s.Joined) {thread : Thread}
    (hoperations : ∀ message rest, s.operations thread ≠ .enqueue message :: rest)
    (hexclusive : RingPipeline.Exclusive thread.operation s.toRingPipeline)
    (hnext : s.ringStep thread.operation = some t) : Simulated s t := by
  obtain ⟨r, hr, rfl⟩ := Option.map_eq_some_iff.mp hnext
  have hidle := h.idle hoperations
  obtain ⟨_, _, hunqueued, _⟩ | ⟨other, task, queueID, rest, u, returned, hlabel, hsubmit, hstep, hafter⟩ |
    ⟨queueID, hlabel, _⟩ := RingPipeline.next_cases hr
  · obtain ⟨message, rest, hhead⟩ := hunqueued.2 thread (operating_operation thread)
    exact absurd hhead (hoperations message rest)
  · obtain rfl : thread = other := Option.some.inj ((operating_operation thread).symm.trans hlabel)
    have hview : s.view.operations thread = .submitTask task queueID :: rest := by
      rw [view_operations, pending_of_idle hidle, hsubmit]
    obtain ⟨hu, hview'⟩ : u = { s.toRingPipeline with queues := u.queues } ∧
        s.view.submitStep thread task queueID = some ({ s.view with queues := u.queues }, returned) :=
      submitStep_congr rfl rfl hstep
    generalize u.queues = queues at hu hview'
    subst hu
    have hkept : ∀ (r : RingPipeline) other, r.operations other = s.operations other →
        { s with toRingPipeline := r }.pending other = s.pending other := by
      intro r other hsame
      have hoperations : { s with toRingPipeline := r }.operations other = s.operations other := hsame
      rw [pending, pending, hoperations]
      rfl
    have hexclusive' : RingPipeline.Exclusive thread.operation s.view := by
      intro other others id more hother hhead
      obtain rfl : thread = other := Option.some.inj ((operating_operation thread).symm.trans hother)
      rw [view_operations, pending_of_idle hidle] at hhead
      exact hexclusive thread others id more hother hhead
    have hnext' := next_operation_submitTask hview
    rw [hview', Option.map_some] at hnext'
    cases returned with
    | false =>
      obtain rfl : r = _ := hafter
      exact ⟨⟨h.requests, h.messages, h.enqueuing, h.dequeuing, h.holding, h.processed⟩,
        Or.inr ⟨thread.operation, hexclusive', hnext'⟩⟩
    | true =>
      obtain rfl : r = _ := hafter
      refine ⟨⟨h.requests, h.messages, fun other state hstate => ?_, h.dequeuing, ?_, h.processed⟩,
        Or.inr ⟨thread.operation, hexclusive', hnext'.trans ?_⟩⟩
      · have hne : other ≠ thread := by
          rintro rfl
          rw [hidle] at hstate
          cases hstate
        obtain ⟨message, rest', hhead, hoperation⟩ := h.enqueuing other state hstate
        exact ⟨message, rest', (RingPipeline.setOperations_of_ne _ rest hne).trans hhead, hoperation⟩
      · have hholding := h.holding_setOperations hsubmit
        cases thread <;> exact hholding
      · rw [Option.some.injEq]
        symm
        refine view_eq_setOperations ?_ (fun other hne => ?_) ?_
        · refine (pending_of_idle ?_).trans ?_
          · exact hidle
          · exact RingPipeline.setOperations_self _ rest thread
        · refine (hkept _ other ?_).trans (view_operations ..).symm
          exact RingPipeline.setOperations_of_ne _ rest hne
        · cases thread <;> rfl
  · cases thread <;> cases hlabel

/-- A step of a worker that pops. -/
theorem pop (h : s.Joined) {queueID : ℕ} (hnext : s.ringStep (.pop queueID) = some t) : Simulated s t := by
  obtain ⟨r, hr, rfl⟩ := Option.map_eq_some_iff.mp hnext
  simp only [RingPipeline.next] at hr
  cases hholding : s.holding queueID with
  | some held => simp [hholding] at hr
  | none =>
    cases hworking : s.working queueID with
    | cons operation rest => simp [hholding, hworking] at hr
    | nil =>
      simp only [hholding, hworking] at hr
      have hview : s.view.working queueID = [] := by
        have hidle : s.messages.calls (some (.worker queueID)) = none := h.idle fun message rest => by
          simp [RingPipeline.operations, hworking]
        exact (pending_of_idle hidle).trans hworking
      have hviewHolding : s.view.holding queueID = none := hholding
      cases hpopped : (s.queues queueID).consume.2 with
      | none =>
        simp only [hpopped, Option.some.injEq] at hr
        subst hr
        refine ⟨⟨h.requests, h.messages, h.enqueuing, h.dequeuing, h.holding, h.processed⟩,
          Or.inr ⟨.pop queueID, exclusive_of_operating_none rfl, ?_⟩⟩
        simp only [RingPipeline.next, hviewHolding, hview, show s.view.queues = s.queues from rfl, hpopped]
        rfl
      | some element =>
        cases element with
        | none => simp [hpopped] at hr
        | some task =>
          simp only [hpopped, Option.some.injEq] at hr
          subst hr
          refine ⟨⟨h.requests, h.messages, h.enqueuing, h.dequeuing, fun q held hheld => ?_, h.processed⟩,
            Or.inr ⟨.pop queueID, exclusive_of_operating_none rfl, ?_⟩⟩
          · by_cases hq : q = queueID
            · exact hq ▸ hworking
            · exact h.holding q held ((Function.update_of_ne hq ..).symm.trans hheld)
          · simp only [RingPipeline.next, hviewHolding, hview, show s.view.queues = s.queues from rfl, hpopped]
            rfl

/-- A step of a worker that executes a task. -/
theorem execute (h : s.Joined) {queueID : ℕ} (hnext : s.ringStep (.execute queueID) = some t) : Simulated s t := by
  obtain ⟨r, hr, rfl⟩ := Option.map_eq_some_iff.mp hnext
  simp only [RingPipeline.next, RingPipeline.pipelineStep, Pipeline.next] at hr
  cases hholding : s.holding queueID with
  | none => simp [hholding] at hr
  | some task =>
    simp only [hholding, Option.map_some, Option.some.injEq] at hr
    subst hr
    have hworking := h.holding queueID task hholding
    have hidle : s.messages.calls (some (.worker queueID)) = none := h.idle fun message rest => by
      simp [RingPipeline.operations, hworking]
    have hviewHolding : s.view.holding queueID = some task := hholding
    refine ⟨⟨h.requests, h.messages, fun other state hstate => ?_, h.dequeuing, fun q held hheld => ?_, h.processed⟩,
      Or.inr ⟨.execute queueID, exclusive_of_operating_none rfl, ?_⟩⟩
    · obtain ⟨message, rest, hhead, hoperation⟩ := h.enqueuing other state hstate
      refine ⟨message, rest, ?_, hoperation⟩
      cases other with
      | dispatcher => exact hhead
      | worker q =>
        have hq : q ≠ queueID := by
          rintro rfl
          rw [hidle] at hstate
          cases hstate
        exact (Function.update_of_ne hq ..).trans hhead
    · have hq : q ≠ queueID := by
        rintro rfl
        simp at hheld
      have hheld' : s.holding q = some held := (Function.update_of_ne hq ..).symm.trans hheld
      exact (Function.update_of_ne hq ..).trans (h.holding q held hheld')
    · simp only [RingPipeline.next, RingPipeline.pipelineStep, Pipeline.next, hviewHolding, Option.map_some,
        Option.some.injEq]
      simp only [view, CentralOrderBook.taskWork_withOutgoing]
      congr 2
      funext q
      by_cases hq : q = queueID
      · subst hq
        rw [Function.update_self]
        symm
        refine (pending_of_idle ?_).trans ?_
        · exact hidle
        · exact Function.update_self ..
      · rw [Function.update_of_ne hq]
        have hoperations : Function.update s.working queueID (s.engine.taskWork task).2 q = s.working q :=
          Function.update_of_ne hq ..
        simp only [pending, committed, RingPipeline.operations, hoperations]
        rfl

/-- A call of the processor hands over only messages. -/
theorem handed_some (h : s.Joined) {state : QueueMPMC.CallState OutgoingMessage} (hcall : s.messages.calls none = some state) :
    none ∉ state.handed := by
  intro hmem
  obtain ⟨processed, _, hdequeued⟩ := h.processed
  obtain ⟨dummy, items, owner, hdescribed⟩ := TwoLockQueue.described_of_reachable h.messages
  have hlinked : none ∈ s.messages.linked.map some := by
    rw [← hdescribed.accounted, hdequeued, hcall]
    exact List.mem_append_left _ (List.mem_append_right _ hmem)
  simp at hlinked

/-- A step of the processor on the queue changes no call of another thread. -/
theorem processor (h : s.Joined) {messages : TwoLockQueue (Option Thread) OutgoingMessage}
    {processor : OutgoingMessageProcessor} {current : Option (QueueMPMC.CallState OutgoingMessage)}
    (hreachable : (twoLockQueue (Option Thread) OutgoingMessage).Reachable messages)
    (hlinked : messages.linked = s.messages.linked) (hcalls : messages.calls = Function.update s.messages.calls none current)
    (hcurrent : ∀ state, current = some state → state.operation.1 = .dequeue)
    (hprocessed : ∃ processed, processor = OutgoingMessageProcessor.initial.processAll processed ∧
      messages.dequeued = processed.map some ++ current.elim [] QueueMPMC.CallState.handed) :
    Simulated s { s with messages := messages, processor := processor } := by
  have hself : messages.calls none = current := by rw [hcalls, Function.update_self]
  have hother : ∀ thread, messages.calls (some thread) = s.messages.calls (some thread) := fun thread => by
    rw [hcalls, Function.update_of_ne (by simp)]
  refine ⟨⟨h.requests, hreachable, fun thread state hstate => h.enqueuing thread state ((hother thread).symm.trans hstate),
    fun state hstate => hcurrent state (hself.symm.trans hstate), h.holding, ?_⟩, Or.inl ?_⟩
  · simpa only [hself] using hprocessed
  · simp only [view, pending, committed, hother, hlinked]
    rfl

/-- A step of the processor. -/
theorem process (h : s.Joined) (hnext : next .process s = some t) : Simulated s t := by
  obtain ⟨processed, hprocessor, hdequeued⟩ := h.processed
  simp only [next] at hnext
  cases hcall : s.messages.calls none with
  | none =>
    rw [hcall] at hnext hdequeued
    obtain ⟨messages, hmessages, rfl⟩ := Option.map_eq_some_iff.mp hnext
    have hstep : (twoLockQueue (Option Thread) OutgoingMessage).next (.dequeue none) s.messages = some messages := hmessages
    rw [TwoLockQueue.call, hcall] at hmessages
    obtain rfl := Option.some.inj hmessages
    refine h.processor (h.messages.step trivial hstep) rfl rfl (fun state hstate => ?_) ⟨processed, hprocessor, hdequeued⟩
    obtain rfl := Option.some.inj hstate
    rfl
  | some state =>
    rw [hcall] at hnext hdequeued
    obtain ⟨messages, hmessages, rfl⟩ := Option.map_eq_some_iff.mp hnext
    have hstep : (twoLockQueue (Option Thread) OutgoingMessage).next (.step none) s.messages = some messages := by
      change (s.messages.calls none).bind _ = _
      rw [hcall]
      exact hmessages
    have hreachable := h.messages.step trivial hstep
    obtain ⟨hlinked, current, hcalls, hcurrent, ⟨node, data, rfl, rfl, hsame⟩ | ⟨hrunning, removed, hremoved, hhanded⟩⟩ :=
      TwoLockQueue.step_dequeue (h.dequeuing state hcall) hmessages
    · -- The last step of a call that returns an item, which is a message.
      cases data with
      | none => exact absurd (List.mem_singleton_self _) (h.handed_some hcall)
      | some message =>
        refine h.processor hreachable hlinked hcalls hcurrent ⟨processed ++ [message], ?_, ?_⟩
        · rw [hprocessor, OutgoingMessageProcessor.processAll, OutgoingMessageProcessor.processAll, List.foldl_append]
          rfl
        · rw [hsame, hdequeued, List.map_append]
          exact (List.append_nil _).symm
    · have hprocessed : messages.dequeued = processed.map some ++ current.elim [] QueueMPMC.CallState.handed := by
        rw [hremoved, hdequeued, hhanded, List.append_assoc]
        rfl
      have hsimulated := h.processor hreachable hlinked hcalls hcurrent ⟨processed, hprocessor, hprocessed⟩
      cases state with
      | delete node data => exact absurd rfl (hrunning node data)
      | _ => exact hsimulated

/-- Every step. -/
theorem next (h : s.Joined) {label : Label ι} (hexclusive : Exclusive label s)
    (hnext : ThreadedEngine.next label s = some t) : Simulated s t := by
  cases label with
  | push client request =>
    obtain ⟨requests, hrequests, rfl⟩ := Option.map_eq_some_iff.mp hnext
    exact h.client (by simp) hrequests
  | produce client =>
    obtain ⟨requests, hrequests, rfl⟩ := Option.map_eq_some_iff.mp hnext
    exact h.client (by simp) hrequests
  | consume => exact h.consume hnext
  | operate thread =>
    simp only [ThreadedEngine.next] at hnext
    split at hnext
    · rename_i message rest hoperations
      obtain ⟨⟨messages, returned⟩, hstep, rfl⟩ := Option.map_eq_some_iff.mp hnext
      exact h.enqueue hoperations hstep
    · rename_i hoperations
      exact h.submitTask hoperations (hexclusive thread rfl) hnext
  | pop queueID => exact h.pop hnext
  | execute queueID => exact h.execute hnext
  | process => exact h.process hnext

end Joined

/-- In every run in which pushes to ring buffers exclude each other, the engine refines the pipeline over ring buffers. -/
theorem joined_of_reachableBy (h : (threadedEngine ι symbols capacity).ReachableBy Exclusive s) :
    s.Joined ∧ (ringPipeline symbols capacity).ReachableBy RingPipeline.Exclusive s.view := by
  refine h.refinesBy view ⟨⟨.start, .start, fun _ _ hcall => ?_, fun _ hcall => ?_, fun _ _ _ => rfl, [], rfl, rfl⟩, rfl⟩
    fun label s t hs hexclusive hnext => hs.next hexclusive hnext
  · cases hcall
  · cases hcall

/-- The number of items in the queue of outgoing messages, with the one that the processor has removed and not handed on. -/
def unsent (s : ThreadedEngine ι) : ℕ :=
  s.messages.linked.length - s.messages.dequeued.length +
    ((s.messages.calls none).elim [] QueueMPMC.CallState.handed).length

/-- What the processor has processed is what was enqueued first. -/
theorem Joined.processed_prefix (h : s.Joined) :
    ∃ processed waiting, s.messages.linked = processed ++ waiting ∧ waiting.length = s.unsent ∧
      s.processor = OutgoingMessageProcessor.initial.processAll processed := by
  obtain ⟨processed, hprocessor, hdequeued⟩ := h.processed
  obtain ⟨dummy, items, owner, hdescribed⟩ := TwoLockQueue.described_of_reachable h.messages
  have hlinked := hdescribed.accounted
  rw [hdequeued, List.append_assoc] at hlinked
  obtain ⟨front, waiting, hsplit, hfront, hwaiting⟩ := List.map_eq_append_iff.mp hlinked.symm
  obtain rfl : front = processed := List.map_injective_iff.mpr (Option.some_injective _) hfront
  refine ⟨front, waiting, hsplit, ?_, hprocessor⟩
  have hlength := congrArg List.length hwaiting
  have htaken := congrArg List.length hdequeued
  simp only [List.length_map, List.length_append] at hlength htaken
  have htotal := congrArg List.length hsplit
  rw [List.length_append] at htotal
  rw [unsent, htotal, htaken]
  omega

/-- A test that a thread pushes to a ring buffer while no other thread is past its space check. -/
def pushesAlone (label : Label ι) (s : ThreadedEngine ι) : Bool :=
  match label with
  | .operate thread => s.toRingPipeline.pushesAlone thread
  | _ => true

/-- What the test says in a state that was reached by exclusive pushes. -/
theorem exclusive_of_pushesAlone (hcapacity : 0 < capacity) (h : (threadedEngine ι symbols capacity).ReachableBy Exclusive s)
    {label : Label ι} (htest : pushesAlone label s = true) : Exclusive label s := by
  rintro thread rfl
  have hown : s.view.OwnQueues := RingPipeline.ownQueues_of_reachableBy hcapacity (joined_of_reachableBy h).2
  exact RingPipeline.OwnQueues.exclusive (s := s.toRingPipeline) hown (operating_operation thread) htest

/-- Two clients push an order and its cancel. The worker executes the order while the dispatcher is about to submit the
cancel, and then the cancel; the processor dequeues both messages. -/
def orderAndCancel : List (Label Bool) :=
  List.flatten [
    [.push false (Pipeline.exampleRequest "A" .newOrder), .push true (Pipeline.exampleRequest "A" .cancelOrder),
      .produce false, .produce false, .produce true, .produce true],
    List.replicate 3 .consume, List.replicate 13 (.operate .dispatcher),
    List.replicate 3 .consume, List.replicate 2 (.operate .dispatcher),
    List.replicate 4 (.pop 0), [.execute 0], List.replicate 3 (.operate .dispatcher),
    List.replicate 4 (.pop 0), [.execute 0], List.replicate 8 (.operate (.worker 0)), List.replicate 16 .process]

/-- The order and its cancel were executed, and both reports were handed over. -/
def AllReported (s : ThreadedEngine Bool) : Prop :=
  s.requests.pushed = [Pipeline.exampleRequest "A" .newOrder, Pipeline.exampleRequest "A" .cancelOrder] ∧
    s.executed = [.newOrder ((Pipeline.exampleRequest "A" .newOrder).message 0).order,
      .cancelOrder ((Pipeline.exampleRequest "A" .cancelOrder).message 1).order "1"] ∧
    s.working 0 = [] ∧ s.unsent = 0 ∧ s.processor.sent.map (·.execType) = ['0', '4']

instance (s : ThreadedEngine Bool) : Decidable s.AllReported :=
  inferInstanceAs (Decidable (_ ∧ _))

/-- The run leads there, with pushes to the ring buffer that exclude each other. -/
theorem exists_allReported : ∃ s : ThreadedEngine Bool,
    (threadedEngine Bool ["A"] 4).ReachableBy Exclusive s ∧ s.AllReported := by
  have hrun : ((threadedEngine Bool ["A"] 4).runIf pushesAlone orderAndCancel (threadedEngine Bool ["A"] 4).start).any
      (fun s => decide s.AllReported) = true := by decide +kernel
  obtain ⟨s, hs, htest⟩ := Machine.exists_reachableBy_of_runIf
    (fun _ _ hu hlabel => exclusive_of_pushesAlone (by decide) hu hlabel) hrun
  exact ⟨s, hs, of_decide_eq_true htest⟩

end ThreadedEngine

end MatchingEngine
