import MatchingEngine.WorkQueueSafety
import Mathlib.Data.List.ReduceOption

/-!
# The shutdown of the server

Each thread of the server runs a loop that checks a flag before each iteration, and leaves its
loop when the flag is set. When the user quits, the main thread destroys the acceptor with its
sessions; then it stops the outgoing message processor and waits for it, then the dispatcher, and
then the workers. No loop looks at its queue again after its flag is set.

A thread that leaves its loop leaves behind what waits in its queue, and the outgoing message
processor, which is stopped first, also what the other threads enqueue after that. Before this, it
drops the reports for which there is no session any more.
-/

namespace MatchingEngine

/-- Where a thread is: about to check its flag, in an iteration of its loop, or out of its loop. -/
inductive LoopState
  | head
  | body
  | exited
deriving DecidableEq

/-- The check of a flag. -/
def LoopState.check (finishing : Bool) : LoopState → Option LoopState
  | head => some (if finishing then exited else body)
  | body | exited => none

/-- The server with its acceptor, the states of its loops and its flags. The messages dequeued are the first ones of the
pipeline's outgoing messages. The messages that were handed to the central order book, and those pushed before the shutdown,
are recorded for the verification. -/
structure RunningServer extends RingPipeline where
  acceptor : Bool
  dispatcher : LoopState
  worker : ℕ → LoopState
  processor : LoopState
  dispatcherFinishing : Bool
  isShuttingDown : Bool
  processorFinishing : Bool
  dequeued : ℕ
  processing : Option OutgoingMessage
  sent : List OutgoingMessage
  handed : List IncomingMessage
  pushedBefore : List IncomingMessage

namespace Pipeline

/-- The thread that takes a step; clients have none of the server's threads. -/
def threadOf : Label → Option Thread
  | .push _ => none
  | .flush | .dispatch | .dispatcherOperation => some .dispatcher
  | .pop queueID | .execute queueID | .workerOperation queueID => some (.worker queueID)

/-- The messages that a step hands to the central order book. -/
def hands (s : Pipeline) : Label → List IncomingMessage
  | .dispatch => s.flushed.take 1
  | .push _ | .flush | .dispatcherOperation | .pop _ | .execute _ | .workerOperation _ => []

/-- The messages that a step enqueues for the outgoing message processor. -/
def enqueues (s : Pipeline) : Label → List OutgoingMessage
  | .dispatcherOperation => enqueued (s.dispatching.take 1)
  | .workerOperation queueID => enqueued ((s.working queueID).take 1)
  | .push _ | .flush | .dispatch | .pop _ | .execute _ => []

end Pipeline

namespace RunningServer

open RingBufferSPSCLockFree

/-- A step of a client, or of the dispatcher or a worker in an iteration; a check of a flag; a step of the outgoing message
processor in an iteration; the main thread leaves `run`, where the acceptor is destroyed, or sets the next flag. -/
inductive Label
  | pipeline (label : Pipeline.Label)
  | checkDispatcher
  | checkWorker (queueID : ℕ)
  | checkProcessor
  | dequeue
  | send
  | quit
  | shutdown

/-- The threads and the acceptor have been started. -/
def initial (symbols : List String) (capacity : ℕ) : RunningServer where
  toRingPipeline := .initial symbols capacity
  acceptor := true
  dispatcher := .head
  worker := fun _ => .head
  processor := .head
  dispatcherFinishing := false
  isShuttingDown := false
  processorFinishing := false
  dequeued := 0
  processing := none
  sent := []
  handed := []
  pushedBefore := []

/-- No call of `tryPop` is running. -/
def popReturned : PopState Task → Bool
  | .loadRead => true
  | .loadWrite _ | .loadSlot _ | .storeRead _ _ => false

/-- An iteration of the dispatcher ends when all flushed messages were handed on. -/
def dispatcherAfter (p : RingPipeline) : LoopState :=
  if p.flushed.isEmpty && p.dispatching.isEmpty then .head else .body

/-- An iteration of a worker ends when it found no task or has finished the one it found. -/
def workerAfter (p : RingPipeline) (queueID : ℕ) : LoopState :=
  if (p.holding queueID).isNone && (p.working queueID).isEmpty && popReturned (p.queues queueID).consumer then .head
  else .body

/-- There is a session for the report on a message: the acceptor has the sessions that are configured. -/
def hasSession (session : String → String → Bool) (s : RunningServer) (message : OutgoingMessage) : Bool :=
  s.acceptor && session message.order.owner message.order.target

/-- A step of the pipeline, if its thread is in an iteration; clients reach the server through the acceptor. -/
def pipelineStep (label : Pipeline.Label) (s : RunningServer) : Option RunningServer :=
  match Pipeline.threadOf label with
  | none =>
    if s.acceptor then (RingPipeline.next label s.toRingPipeline).map fun p => { s with toRingPipeline := p } else none
  | some .dispatcher =>
    if s.dispatcher = .body then
      (RingPipeline.next label s.toRingPipeline).map fun p => { s with
        toRingPipeline := p
        dispatcher := dispatcherAfter p
        handed := s.handed ++ s.hands label }
    else none
  | some (.worker queueID) =>
    if s.worker queueID = .body then
      (RingPipeline.next label s.toRingPipeline).map fun p => { s with
        toRingPipeline := p
        worker := Function.update s.worker queueID (workerAfter p queueID) }
    else none

/-- The steps; there is a worker for each symbol. `session` tells which clients have a session under which name of the
server; a report without a session is dropped. -/
def next (session : String → String → Bool) (symbols : List String) : Label → RunningServer → Option RunningServer
  | .pipeline label, s => s.pipelineStep label
  | .checkDispatcher, s => (s.dispatcher.check s.dispatcherFinishing).map fun state => { s with dispatcher := state }
  | .checkWorker queueID, s =>
    if queueID < symbols.length then
      ((s.worker queueID).check s.isShuttingDown).map fun state =>
        { s with worker := Function.update s.worker queueID state }
    else none
  | .checkProcessor, s => (s.processor.check s.processorFinishing).map fun state => { s with processor := state }
  | .dequeue, s =>
    match s.processor, s.processing with
    | .body, none => some (match s.engine.outgoingMessages[s.dequeued]? with
      | some message => { s with dequeued := s.dequeued + 1, processing := some message }
      | none => { s with processor := .head })
    | _, _ => none
  | .send, s =>
    match s.processor, s.processing with
    | .body, some message => some { s with
      processor := .head
      processing := none
      sent := if s.hasSession session message then s.sent ++ [message] else s.sent }
    | _, _ => none
  | .quit, s => if s.acceptor then some { s with acceptor := false } else none
  | .shutdown, s =>
    if s.acceptor then none
    else if s.processorFinishing = false then some { s with processorFinishing := true, pushedBefore := s.pushed }
    else if s.processor ≠ .exited then none
    else if s.dispatcherFinishing = false then some { s with dispatcherFinishing := true }
    else if s.dispatcher ≠ .exited then none
    else some { s with isShuttingDown := true }

end RunningServer

/-- The server over the configured symbols, with work queues of the given capacity, from its start to its shutdown. -/
def runningServer (session : String → String → Bool) (symbols : List String) (capacity : ℕ) :
    Machine RunningServer RunningServer.Label where
  start := .initial symbols capacity
  next := RunningServer.next session symbols

namespace Pipeline

variable {symbols : List String} {s t : Pipeline} {label : Label}

/-- What a step does to the data of the threads, to the messages and to the records. -/
structure Advances (label : Label) (s t : Pipeline) : Prop where
  dispatcher : threadOf label ≠ some .dispatcher → t.flushed = s.flushed ∧ t.dispatching = s.dispatching
  workers : ∀ q, threadOf label ≠ some (.worker q) → t.holding q = s.holding q ∧ t.working q = s.working q
  pushed : t.pushed = s.pushed ++ s.added label
  waiting : s.hands label ++ (t.flushed ++ t.incoming) = s.flushed ++ s.incoming ++ s.added label
  outgoing : t.engine.outgoingMessages = s.engine.outgoingMessages ++ s.enqueues label
  executed : s.executed <+: t.executed

/-- A change of one worker is none of the others. -/
theorem update_worker {α : Type*} {values : ℕ → α} {value : α} {queueID q : ℕ}
    (h : some (Thread.worker queueID) ≠ some (.worker q)) : Function.update values queueID value q = values q :=
  Function.update_of_ne (fun heq => h (by rw [heq])) ..

/-- Every step of the pipeline advances it. -/
theorem advances_of_next (hnext : Pipeline.next label s = some t) : Advances label s t := by
  obtain ⟨hexecuted, hpushed⟩ := next_records hnext
  have hprefix : s.executed <+: t.executed := hexecuted ▸ List.prefix_append ..
  obtain ⟨_, rfl, rfl⟩ | ⟨rfl, hflushed, _, rfl⟩ | ⟨message, _, rfl, hflushed, _, rfl⟩ | ⟨_, _, rfl, hdispatching, rfl⟩ |
    ⟨_, _, _, rfl, _, _, _, rfl⟩ | ⟨_, task, rfl, _, rfl⟩ | ⟨_, _, _, rfl, hworking, rfl⟩ := next_cases hnext
  · refine ⟨fun _ => ⟨rfl, rfl⟩, fun _ _ => ⟨rfl, rfl⟩, hpushed, ?_, (List.append_nil _).symm, hprefix⟩
    simp [hands, added]
  · refine ⟨fun h => absurd rfl h, fun _ _ => ⟨rfl, rfl⟩, hpushed, ?_, (List.append_nil _).symm, hprefix⟩
    simp [hands, added, hflushed]
  · refine ⟨fun h => absurd rfl h, fun _ _ => ⟨rfl, rfl⟩, hpushed, ?_, ?_, hprefix⟩
    · simp [hands, added, hflushed]
    · simp only [(dispatchWork_sameQueues s.engine message).outgoingMessages, enqueues, List.append_nil]
  · refine ⟨fun h => absurd rfl h, fun _ _ => ⟨rfl, rfl⟩, hpushed, ?_, ?_, hprefix⟩
    · simp [hands, added]
    · rw [enqueues, hdispatching]
      exact CentralOrderBook.afterOperations_outgoingMessages ..
  · refine ⟨fun _ => ⟨rfl, rfl⟩, fun q hq => ⟨update_worker hq, rfl⟩, hpushed, ?_, ?_, hprefix⟩
    · simp [hands, added]
    · exact (List.append_nil _).symm
  · refine ⟨fun _ => ⟨rfl, rfl⟩, fun q hq => ⟨update_worker hq, update_worker hq⟩, hpushed, ?_, ?_, hprefix⟩
    · simp [hands, added]
    · simp only [(s.engine.taskWork_sameQueues task).outgoingMessages, enqueues, List.append_nil]
  · refine ⟨fun _ => ⟨rfl, rfl⟩, fun q hq => ⟨rfl, update_worker hq⟩, hpushed, ?_, ?_, hprefix⟩
    · simp [hands, added]
    · rw [enqueues, hworking]
      exact CentralOrderBook.afterOperations_outgoingMessages ..

end Pipeline

namespace RingPipeline

open RingBufferSPSCLockFree

variable {symbols : List String} {s t : RingPipeline} {label : Pipeline.Label}

/-- A step inside `submitTask` takes the thread to its next operation, or not yet. -/
theorem advances_of_submit {thread : Thread} {task : Task} {queueID : ℕ} {rest : List QueueOperation}
    (hlabel : operating label = some thread) (hoperations : s.operations thread = .submitTask task queueID :: rest) :
    Pipeline.Advances label s.toPipeline s.toPipeline ∧
      Pipeline.Advances label s.toPipeline (s.setOperations rest thread).toPipeline := by
  cases thread with
  | dispatcher =>
    obtain rfl := eq_of_operating_dispatcher hlabel
    have hdispatching : s.dispatching = .submitTask task queueID :: rest := hoperations
    have henqueues : s.toPipeline.enqueues .dispatcherOperation = [] := by
      rw [Pipeline.enqueues, hdispatching]
      rfl
    have hsame : ∀ operations, Pipeline.Advances .dispatcherOperation s.toPipeline
        { s.toPipeline with dispatching := operations } := fun operations =>
      ⟨fun h => absurd rfl h, fun _ _ => ⟨rfl, rfl⟩, (List.append_nil _).symm, (List.append_nil _).symm,
        by rw [henqueues, List.append_nil], List.prefix_refl _⟩
    exact ⟨hsame s.dispatching, hsame rest⟩
  | worker worker =>
    obtain rfl := eq_of_operating_worker hlabel
    have hworking : s.working worker = .submitTask task queueID :: rest := hoperations
    have henqueues : s.toPipeline.enqueues (.workerOperation worker) = [] := by
      rw [Pipeline.enqueues, hworking]
      rfl
    have houtgoing : s.engine.outgoingMessages = s.engine.outgoingMessages ++
        s.toPipeline.enqueues (.workerOperation worker) := by rw [henqueues, List.append_nil]
    exact ⟨⟨fun _ => ⟨rfl, rfl⟩, fun _ _ => ⟨rfl, rfl⟩, (List.append_nil _).symm, (List.append_nil _).symm, houtgoing,
        List.prefix_refl _⟩,
      ⟨fun _ => ⟨rfl, rfl⟩, fun q hq => ⟨rfl, Pipeline.update_worker hq⟩, (List.append_nil _).symm,
        (List.append_nil _).symm, houtgoing, List.prefix_refl _⟩⟩

/-- What a step inside `submitTask` does not change. -/
theorem submitStep_same {thread : Thread} {task : Task} {queueID : ℕ} {returned : Bool} {u : RingPipeline}
    (hstep : s.submitStep thread task queueID = some (u, returned)) :
    u.toPipeline = s.toPipeline ∧ ∀ q, (u.queues q).pops = (s.queues q).pops := by
  obtain ⟨_, ⟨_, _, rfl⟩ | ⟨val, state, _, _, rfl⟩⟩ := submitStep_cases hstep
  · refine ⟨rfl, fun q => ?_⟩
    by_cases hq : q = queueID
    · rw [hq, setQueue_queues_self, SharedRing.tryPush_pops]
    · rw [setQueue_queues_of_ne _ _ hq]
  · refine ⟨rfl, fun q => ?_⟩
    by_cases hq : q = queueID
    · rw [hq, setQueue_queues_self, SharedRing.produce_pops]
    · rw [setQueue_queues_of_ne _ _ hq]

/-- Every step over ring buffers advances the pipeline. -/
theorem advances_of_next (hnext : RingPipeline.next label s = some t) :
    Pipeline.Advances label s.toPipeline t.toPipeline := by
  obtain ⟨p, hp, _, rfl⟩ | ⟨thread, task, queueID, rest, u, returned, hlabel, hoperations, hstep, rfl⟩ |
    ⟨queueID, rfl, _, _, ⟨_, rfl⟩ | ⟨task, _, rfl⟩⟩ := next_cases hnext
  · exact Pipeline.advances_of_next hp
  · obtain ⟨hwaits, hreturns⟩ := advances_of_submit hlabel hoperations
    obtain ⟨hsame, _⟩ := submitStep_same hstep
    cases returned with
    | false => exact hsame ▸ hwaits
    | true =>
      have hset : (u.setOperations rest thread).toPipeline = (s.setOperations rest thread).toPipeline := by
        cases thread with
        | dispatcher => simp only [setOperations, hsame]
        | worker worker => simp only [setOperations, hsame]
      exact hset ▸ hreturns
  · exact ⟨fun _ => ⟨rfl, rfl⟩, fun _ _ => ⟨rfl, rfl⟩, (List.append_nil _).symm, (List.append_nil _).symm,
      (List.append_nil _).symm, List.prefix_refl _⟩
  · exact ⟨fun _ => ⟨rfl, rfl⟩, fun q hq => ⟨Pipeline.update_worker hq, rfl⟩, (List.append_nil _).symm,
      (List.append_nil _).symm, (List.append_nil _).symm, List.prefix_refl _⟩

/-- Every task that a worker has popped was executed, or the worker holds it. -/
def PopsExecuted (s : RingPipeline) : Prop :=
  ∀ queueID task, some task ∈ (s.queues queueID).pops → task ∈ s.executed ∨ s.holding queueID = some task

/-- A worker executes what it holds before it pops again. -/
theorem PopsExecuted.next (h : s.PopsExecuted) (hnext : RingPipeline.next label s = some t) : t.PopsExecuted := by
  obtain ⟨p, hp, hunqueued, rfl⟩ | ⟨thread, task, queueID, rest, u, returned, hlabel, hoperations, hstep, rfl⟩ |
    ⟨queueID, rfl, hholding, _, hpop⟩ := next_cases hnext
  · intro q task htask
    have hold := h q task htask
    obtain ⟨_, _, rfl⟩ | ⟨_, _, _, rfl⟩ | ⟨_, _, _, _, _, rfl⟩ | ⟨_, _, _, _, rfl⟩ | ⟨id, _, _, rfl, _, _, _, rfl⟩ |
      ⟨worker, other, _, hheld, rfl⟩ | ⟨_, _, _, _, _, rfl⟩ := Pipeline.next_cases hp
    · exact hold
    · exact hold
    · exact hold
    · exact hold
    · exact absurd rfl (hunqueued.1 id)
    · obtain hexecuted | hholds := hold
      · exact Or.inl (List.mem_append_left _ hexecuted)
      · by_cases hq : q = worker
        · subst hq
          obtain rfl := Option.some.inj (hheld.symm.trans hholds)
          exact Or.inl (List.mem_append_right _ (List.mem_singleton_self _))
        · exact Or.inr (by simpa only [Function.update_of_ne hq] using hholds)
    · exact hold
  · obtain ⟨hsame, hpops⟩ := submitStep_same hstep
    have hu : u.PopsExecuted := by
      intro q other hother
      rw [hpops] at hother
      rw [hsame]
      exact h q other hother
    cases returned with
    | false => exact hu
    | true =>
      cases thread with
      | dispatcher => exact hu
      | worker worker => exact hu
  · have hpops := SharedRing.consume_pops (s := s.queues queueID)
    have hpopped : ∀ q task, some task ∈ ((s.setQueue queueID (s.queues queueID).consume.1).queues q).pops →
        some task ∈ (s.queues q).pops ∨ q = queueID ∧ some task ∈ (s.queues queueID).consume.2.toList := by
      intro q task htask
      by_cases hq : q = queueID
      · rw [hq, setQueue_queues_self, hpops, List.mem_append] at htask
        exact htask.imp (fun hold => hq ▸ hold) fun hnew => ⟨hq, hnew⟩
      · rw [setQueue_queues_of_ne _ _ hq] at htask
        exact Or.inl htask
    obtain ⟨hnone, rfl⟩ | ⟨popped, hsome, rfl⟩ := hpop
    · intro q task htask
      obtain hold | ⟨_, hnew⟩ := hpopped q task htask
      · exact h q task hold
      · simp [hnone] at hnew
    · intro q task htask
      by_cases hq : q = queueID
      · subst hq
        obtain hold | ⟨_, hnew⟩ := hpopped q task htask
        · obtain hexecuted | hholds := h q task hold
          · exact Or.inl hexecuted
          · rw [hholding] at hholds
            cases hholds
        · rw [hsome, Option.toList_some, List.mem_singleton, Option.some.injEq] at hnew
          exact Or.inr (hnew ▸ Function.update_self ..)
      · refine (h q task ?_).imp_right fun hholds => ?_
        · exact (hpopped q task htask).resolve_right fun hnew => hq hnew.1
        · simpa only [Function.update_of_ne hq] using hholds

end RingPipeline

namespace Pipeline

variable {symbols : List String} {s t : Pipeline} {label : Label}

/-- All tasks that wait in a queue are cancels that match no order. -/
def OnlyUnmatched (s : Pipeline) (queueID : ℕ) : Prop :=
  ∀ task ∈ s.engine.threadQueues queueID, task.unmatched (s.engine.bookOf task.symbol) = true

/-- The dispatcher and the workers of other queues leave the tasks of a queue as they are, and unmatched. -/
theorem Routed.onlyUnmatched_next (h : s.Routed symbols) {q : ℕ} (hq : s.OnlyUnmatched q)
    (hdispatcher : threadOf label ≠ some .dispatcher) (hworker : threadOf label ≠ some (.worker q))
    (hnext : Pipeline.next label s = some t) : t.OnlyUnmatched q := by
  obtain ⟨_, _, rfl⟩ | ⟨_, _, _, rfl⟩ | ⟨_, _, rfl, _, _, rfl⟩ | ⟨_, _, rfl, _, rfl⟩ | ⟨id, _, _, rfl, _, _, hqueue, rfl⟩ |
    ⟨id, other, rfl, hheld, rfl⟩ | ⟨id, operation, operations, rfl, hworking, rfl⟩ := next_cases hnext
  · exact hq
  · exact hq
  · exact absurd rfl hdispatcher
  · exact absurd rfl hdispatcher
  · exact fun task htask => hq task (s.engine.mem_of_mem_withQueue hqueue htask)
  · intro task htask
    rw [(s.engine.taskWork_sameQueues other).threadQueues] at htask
    have hne : task.symbol ≠ other.symbol := by
      intro heq
      have hroute := h.queues q task htask
      rw [heq, (h.holding id other hheld).1] at hroute
      exact hworker (by rw [threadOf, hroute])
    rw [CentralOrderBook.taskWork_bookOf, if_neg hne]
    exact hq task htask
  · intro task htask
    refine hq task ((mem_afterOperations htask).resolve_right fun heq => hworker ?_)
    rw [(h.working id task q (by rw [hworking, heq]; exact List.mem_cons_self ..)).1]
    rfl

end Pipeline

namespace RunningServer

open Pipeline (threadOf)

variable {session : String → String → Bool} {symbols : List String} {capacity : ℕ} {s t : RunningServer}

/-- The pushes to the work queues exclude each other. -/
def Exclusive : Label → RunningServer → Prop
  | .pipeline label, s => RingPipeline.Exclusive label s.toRingPipeline
  | .checkDispatcher, _ | .checkWorker _, _ | .checkProcessor, _ | .dequeue, _ | .send, _ | .quit, _ | .shutdown, _ => True

/-- A thread that sees its flag has nothing left in its queue: the outgoing message processor no message; the dispatcher no
message pushed before the shutdown; a worker no task, other than cancels that match no order. Nothing is enqueued for the
outgoing message processor once it has left its loop, and there is a session for each report when it is sent. -/
def Orderly (session : String → String → Bool) : Label → RunningServer → Prop
  | .pipeline label, s => s.processor = .exited → s.enqueues label = []
  | .checkDispatcher, s => s.dispatcherFinishing = true → ∀ message ∈ s.pushedBefore, message ∉ s.incoming
  | .checkWorker queueID, s => s.isShuttingDown = true →
    ∀ task ∈ s.queued queueID, task.unmatched (s.engine.bookOf task.symbol) = true
  | .checkProcessor, s => s.processorFinishing = true → s.dequeued = s.engine.outgoingMessages.length
  | .send, s => ∀ message, s.processing = some message → s.hasSession session message = true
  | .dequeue, _ | .quit, _ | .shutdown, _ => True

/-- The main thread has stopped all threads, and they have left their loops. -/
def Exited (symbols : List String) (s : RunningServer) : Prop :=
  s.processor = .exited ∧ s.dispatcher = .exited ∧ ∀ queueID < symbols.length, s.worker queueID = .exited

/-- The main thread sets the flags one after the other, a thread exits only after its flag was set, and there is no worker
without a symbol. -/
structure Ordered (symbols : List String) (s : RunningServer) : Prop where
  processorExited : s.processor = .exited → s.processorFinishing = true
  dispatcherFinishing : s.dispatcherFinishing = true → s.processor = .exited
  dispatcherExited : s.dispatcher = .exited → s.dispatcherFinishing = true
  isShuttingDown : s.isShuttingDown = true → s.dispatcher = .exited
  workerExited : ∀ queueID, s.worker queueID = .exited → s.isShuttingDown = true
  workerStarted : ∀ queueID, s.worker queueID ≠ .head → queueID < symbols.length

/-- A thread that is not in an iteration holds nothing. -/
structure Resting (s : RunningServer) : Prop where
  dispatcher : s.dispatcher ≠ .body → s.flushed = [] ∧ s.dispatching = []
  workers : ∀ queueID, s.worker queueID ≠ .body → s.holding queueID = none ∧ s.working queueID = []
  processor : s.processor ≠ .body → s.processing = none

/-- What the records say, and what the threads that have left their loops have left behind. -/
structure Settled (s : RunningServer) : Prop where
  pushed : s.pushed = s.handed ++ (s.flushed ++ s.incoming)
  pushedBefore : s.pushedBefore <+: s.pushed
  handed : s.dispatcher = .exited → s.pushedBefore <+: s.handed
  dequeued : s.dequeued ≤ s.engine.outgoingMessages.length
  sent : s.sent ++ s.processing.toList = s.engine.outgoingMessages.take s.dequeued
  emptied : s.processor = .exited → s.dequeued = s.engine.outgoingMessages.length

/-- A check passes at the head of a loop. -/
theorem check_cases {finishing : Bool} {state state' : LoopState} (h : state.check finishing = some state') :
    state = .head ∧ state' = if finishing then .exited else .body := by
  cases state with
  | head => exact ⟨rfl, (Option.some.inj h).symm⟩
  | body => cases h
  | exited => cases h

/-- A check ends the loop if the flag is set. -/
theorem finishing_of_exited {finishing : Bool} (h : (if finishing then LoopState.exited else .body) = .exited) :
    finishing = true := by
  cases finishing with
  | true => rfl
  | false => cases h

/-- Everything that a step can do. -/
theorem next_cases {label : Label} (h : next session symbols label s = some t) :
    (∃ step p, label = .pipeline step ∧ RingPipeline.next step s.toRingPipeline = some p ∧
      (threadOf step = none ∧ s.acceptor = true ∧ t = { s with toRingPipeline := p } ∨
        threadOf step = some .dispatcher ∧ s.dispatcher = .body ∧
          t = { s with toRingPipeline := p, dispatcher := dispatcherAfter p, handed := s.handed ++ s.hands step } ∨
        ∃ queueID, threadOf step = some (.worker queueID) ∧ s.worker queueID = .body ∧
          t = { s with toRingPipeline := p, worker := Function.update s.worker queueID (workerAfter p queueID) })) ∨
    (label = .checkDispatcher ∧ s.dispatcher = .head ∧
      t = { s with dispatcher := if s.dispatcherFinishing then .exited else .body }) ∨
    (∃ queueID, label = .checkWorker queueID ∧ queueID < symbols.length ∧ s.worker queueID = .head ∧
      t = { s with worker := Function.update s.worker queueID (if s.isShuttingDown then .exited else .body) }) ∨
    (label = .checkProcessor ∧ s.processor = .head ∧
      t = { s with processor := if s.processorFinishing then .exited else .body }) ∨
    (label = .dequeue ∧ s.processor = .body ∧ s.processing = none ∧
      ((∃ message, s.engine.outgoingMessages[s.dequeued]? = some message ∧
          t = { s with dequeued := s.dequeued + 1, processing := some message }) ∨
        t = { s with processor := .head })) ∨
    (∃ message, label = .send ∧ s.processor = .body ∧ s.processing = some message ∧
      t = { s with
        processor := .head
        processing := none
        sent := if s.hasSession session message then s.sent ++ [message] else s.sent }) ∨
    (label = .quit ∧ s.acceptor = true ∧ t = { s with acceptor := false }) ∨
    label = .shutdown ∧ s.acceptor = false ∧
      (s.processorFinishing = false ∧ t = { s with processorFinishing := true, pushedBefore := s.pushed } ∨
        s.processor = .exited ∧ t = { s with dispatcherFinishing := true } ∨
        s.dispatcherFinishing = true ∧ s.dispatcher = .exited ∧ t = { s with isShuttingDown := true }) := by
  cases label with
  | pipeline step =>
    refine Or.inl ?_
    simp only [next, pipelineStep] at h
    split at h
    · rename_i hthread
      split at h
      · rename_i hacceptor
        obtain ⟨p, hp, rfl⟩ := Option.map_eq_some_iff.mp h
        exact ⟨step, p, rfl, hp, Or.inl ⟨hthread, hacceptor, rfl⟩⟩
      · cases h
    · rename_i hthread
      split at h
      · rename_i hbody
        obtain ⟨p, hp, rfl⟩ := Option.map_eq_some_iff.mp h
        exact ⟨step, p, rfl, hp, Or.inr (Or.inl ⟨hthread, hbody, rfl⟩)⟩
      · cases h
    · rename_i queueID hthread
      split at h
      · rename_i hbody
        obtain ⟨p, hp, rfl⟩ := Option.map_eq_some_iff.mp h
        exact ⟨step, p, rfl, hp, Or.inr (Or.inr ⟨queueID, hthread, hbody, rfl⟩)⟩
      · cases h
  | checkDispatcher =>
    obtain ⟨state, hstate, rfl⟩ := Option.map_eq_some_iff.mp h
    obtain ⟨hhead, rfl⟩ := check_cases hstate
    exact Or.inr (Or.inl ⟨rfl, hhead, rfl⟩)
  | checkWorker queueID =>
    simp only [next] at h
    split at h
    · rename_i hvalid
      obtain ⟨state, hstate, rfl⟩ := Option.map_eq_some_iff.mp h
      obtain ⟨hhead, rfl⟩ := check_cases hstate
      exact Or.inr (Or.inr (Or.inl ⟨queueID, rfl, hvalid, hhead, rfl⟩))
    · cases h
  | checkProcessor =>
    obtain ⟨state, hstate, rfl⟩ := Option.map_eq_some_iff.mp h
    obtain ⟨hhead, rfl⟩ := check_cases hstate
    exact Or.inr (Or.inr (Or.inr (Or.inl ⟨rfl, hhead, rfl⟩)))
  | dequeue =>
    simp only [next] at h
    split at h
    · rename_i hbody hidle
      refine Or.inr (Or.inr (Or.inr (Or.inr (Or.inl ⟨rfl, hbody, hidle, ?_⟩))))
      cases hmessage : s.engine.outgoingMessages[s.dequeued]? with
      | some message =>
        simp only [hmessage, Option.some.injEq] at h
        exact Or.inl ⟨message, rfl, h.symm⟩
      | none =>
        simp only [hmessage, Option.some.injEq] at h
        exact Or.inr h.symm
    · cases h
  | send =>
    simp only [next] at h
    split at h
    · rename_i message hbody hmessage
      exact Or.inr (Or.inr (Or.inr (Or.inr (Or.inr (Or.inl ⟨message, rfl, hbody, hmessage, (Option.some.inj h).symm⟩)))))
    · cases h
  | quit =>
    simp only [next] at h
    split at h
    · rename_i hacceptor
      exact Or.inr (Or.inr (Or.inr (Or.inr (Or.inr (Or.inr (Or.inl ⟨rfl, hacceptor, (Option.some.inj h).symm⟩))))))
    · cases h
  | shutdown =>
    simp only [next] at h
    split at h
    · cases h
    · rename_i hacceptor
      refine Or.inr (Or.inr (Or.inr (Or.inr (Or.inr (Or.inr (Or.inr ⟨rfl, eq_false_of_ne_true hacceptor, ?_⟩))))))
      split at h
      · rename_i hfinishing
        exact Or.inl ⟨hfinishing, (Option.some.inj h).symm⟩
      · split at h
        · cases h
        · rename_i hprocessor
          refine Or.inr ?_
          rw [ne_eq, not_not] at hprocessor
          split at h
          · exact Or.inl ⟨hprocessor, (Option.some.inj h).symm⟩
          · rename_i hfinishing
            split at h
            · cases h
            · rename_i hdispatcher
              rw [ne_eq, not_not] at hdispatcher
              exact Or.inr ⟨Bool.not_eq_false _ ▸ hfinishing, hdispatcher, (Option.some.inj h).symm⟩

/-- A step of the dispatcher does not end its loop. -/
theorem dispatcherAfter_ne_exited (p : RingPipeline) : dispatcherAfter p ≠ .exited := by
  unfold dispatcherAfter
  split <;> decide

/-- A step of a worker does not end its loop. -/
theorem workerAfter_ne_exited (p : RingPipeline) (queueID : ℕ) : workerAfter p queueID ≠ .exited := by
  unfold workerAfter
  split <;> decide

/-- Where one worker gets to, if it exits only after its flag was set. -/
theorem Ordered.setWorker (h : s.Ordered symbols) (p : RingPipeline) {queueID : ℕ} {state : LoopState}
    (hvalid : queueID < symbols.length) (hexit : state = .exited → s.isShuttingDown = true) :
    { s with toRingPipeline := p, worker := Function.update s.worker queueID state }.Ordered symbols := by
  refine ⟨h.processorExited, h.dispatcherFinishing, h.dispatcherExited, h.isShuttingDown, fun q hexited => ?_,
    fun q hstarted => ?_⟩
  · by_cases hq : q = queueID
    · simp only [hq, Function.update_self] at hexited
      exact hexit hexited
    · simp only [Function.update_of_ne hq] at hexited
      exact h.workerExited q hexited
  · by_cases hq : q = queueID
    · exact hq ▸ hvalid
    · simp only [Function.update_of_ne hq] at hstarted
      exact h.workerStarted q hstarted

/-- While the processor is in its loop, the dispatcher was not told to finish. -/
theorem Ordered.setProcessor (h : s.Ordered symbols) (hrunning : s.processor ≠ .exited) {state : LoopState}
    (hexit : state = .exited → s.processorFinishing = true) (dequeued : ℕ) (processing : Option OutgoingMessage)
    (sent : List OutgoingMessage) :
    { s with processor := state, dequeued := dequeued, processing := processing, sent := sent }.Ordered symbols :=
  ⟨hexit, fun hflag => absurd (h.dispatcherFinishing hflag) hrunning, h.dispatcherExited, h.isShuttingDown,
    h.workerExited, h.workerStarted⟩

/-- Only the main thread changes the flags. -/
theorem Ordered.next (h : s.Ordered symbols) {label : Label} (hnext : RunningServer.next session symbols label s = some t) :
    t.Ordered symbols := by
  obtain ⟨hprocessorExited, hdispatcherFinishing, hdispatcherExited, hisShuttingDown, hworkerExited, hworkerStarted⟩ := id h
  obtain ⟨step, p, _, _, ⟨_, _, rfl⟩ | ⟨_, hbody, rfl⟩ | ⟨queueID, _, hbody, rfl⟩⟩ | ⟨_, hhead, rfl⟩ |
    ⟨queueID, _, hvalid, hhead, rfl⟩ | ⟨_, hhead, rfl⟩ | ⟨_, hbody, _, ⟨_, _, rfl⟩ | rfl⟩ | ⟨_, _, hbody, _, rfl⟩ |
    ⟨_, _, rfl⟩ | ⟨_, _, ⟨_, rfl⟩ | ⟨hexited, rfl⟩ | ⟨_, hexited, rfl⟩⟩ := next_cases hnext
  · exact ⟨hprocessorExited, hdispatcherFinishing, hdispatcherExited, hisShuttingDown, hworkerExited, hworkerStarted⟩
  · refine ⟨hprocessorExited, hdispatcherFinishing, fun hexited => absurd hexited (dispatcherAfter_ne_exited p),
      fun hflag => ?_, hworkerExited, hworkerStarted⟩
    rw [hisShuttingDown hflag] at hbody
    cases hbody
  · have hvalid := hworkerStarted queueID (by rw [hbody]; decide)
    exact h.setWorker p hvalid fun hexited => absurd hexited (workerAfter_ne_exited p queueID)
  · refine ⟨hprocessorExited, hdispatcherFinishing, finishing_of_exited, fun hflag => ?_, hworkerExited, hworkerStarted⟩
    rw [hisShuttingDown hflag] at hhead
    cases hhead
  · exact h.setWorker s.toRingPipeline hvalid finishing_of_exited
  · exact h.setProcessor (by rw [hhead]; decide) finishing_of_exited _ _ _
  · exact ⟨hprocessorExited, hdispatcherFinishing, hdispatcherExited, hisShuttingDown, hworkerExited, hworkerStarted⟩
  · exact h.setProcessor (by rw [hbody]; decide) (fun hexited => by cases hexited) _ _ _
  · exact h.setProcessor (by rw [hbody]; decide) (fun hexited => by cases hexited) _ _ _
  · exact ⟨hprocessorExited, hdispatcherFinishing, hdispatcherExited, hisShuttingDown, hworkerExited, hworkerStarted⟩
  · exact ⟨fun _ => rfl, hdispatcherFinishing, hdispatcherExited, hisShuttingDown, hworkerExited, hworkerStarted⟩
  · exact ⟨hprocessorExited, fun _ => hexited, fun _ => rfl, hisShuttingDown, hworkerExited, hworkerStarted⟩
  · exact ⟨hprocessorExited, hdispatcherFinishing, hdispatcherExited, fun _ => hexited, fun _ _ => rfl, hworkerStarted⟩

/-- A dispatcher that is back at the head of its loop has handed on all flushed messages. -/
theorem dispatcherAfter_ne_body {p : RingPipeline} (h : dispatcherAfter p ≠ .body) : p.flushed = [] ∧ p.dispatching = [] := by
  unfold dispatcherAfter at h
  split at h
  · rename_i hempty
    exact (Bool.and_eq_true_iff.mp hempty).imp List.isEmpty_iff.mp List.isEmpty_iff.mp
  · exact absurd rfl h

/-- A worker that is back at the head of its loop has finished its task. -/
theorem workerAfter_ne_body {p : RingPipeline} {queueID : ℕ} (h : workerAfter p queueID ≠ .body) :
    p.holding queueID = none ∧ p.working queueID = [] := by
  unfold workerAfter at h
  split at h
  · rename_i hidle
    exact (Bool.and_eq_true_iff.mp (Bool.and_eq_true_iff.mp hidle).1).imp Option.isNone_iff_eq_none.mp List.isEmpty_iff.mp
  · exact absurd rfl h

/-- Each step leaves the threads that are in no iteration with nothing in hand. -/
theorem Resting.next (h : s.Resting) {label : Label} (hnext : RunningServer.next session symbols label s = some t) :
    t.Resting := by
  obtain ⟨step, p, _, hp, ⟨hthread, _, rfl⟩ | ⟨hthread, _, rfl⟩ | ⟨queueID, hthread, _, rfl⟩⟩ | ⟨_, hhead, rfl⟩ |
    ⟨queueID, _, _, hhead, rfl⟩ | ⟨_, hhead, rfl⟩ | ⟨_, hbody, hidle, ⟨_, _, rfl⟩ | rfl⟩ | ⟨_, _, _, _, rfl⟩ |
    ⟨_, _, rfl⟩ | ⟨_, _, ⟨_, rfl⟩ | ⟨_, rfl⟩ | ⟨_, _, rfl⟩⟩ := next_cases hnext
  · have hadvances := RingPipeline.advances_of_next hp
    have hdispatcher := hadvances.dispatcher (by rw [hthread]; exact (Option.some_ne_none _).symm)
    have hworkers := fun q => hadvances.workers q (by rw [hthread]; exact (Option.some_ne_none _).symm)
    refine ⟨fun hne => ?_, fun q hne => ?_, h.processor⟩
    · rw [hdispatcher.1, hdispatcher.2]
      exact h.dispatcher hne
    · rw [(hworkers q).1, (hworkers q).2]
      exact h.workers q hne
  · have hworkers := fun q => (RingPipeline.advances_of_next hp).workers q (by rw [hthread]; simp)
    refine ⟨dispatcherAfter_ne_body, fun q hne => ?_, h.processor⟩
    rw [(hworkers q).1, (hworkers q).2]
    exact h.workers q hne
  · have hadvances := RingPipeline.advances_of_next hp
    have hdispatcher := hadvances.dispatcher (by rw [hthread]; simp)
    refine ⟨fun hne => ?_, fun q hne => ?_, h.processor⟩
    · rw [hdispatcher.1, hdispatcher.2]
      exact h.dispatcher hne
    · by_cases hq : q = queueID
      · subst hq
        simp only [Function.update_self] at hne
        exact workerAfter_ne_body hne
      · simp only [Function.update_of_ne hq] at hne
        have hworker := hadvances.workers q (by rw [hthread]; simpa using Ne.symm hq)
        rw [hworker.1, hworker.2]
        exact h.workers q hne
  · exact ⟨fun _ => h.dispatcher (by rw [hhead]; decide), h.workers, h.processor⟩
  · refine ⟨h.dispatcher, fun q hne => ?_, h.processor⟩
    by_cases hq : q = queueID
    · exact h.workers q (by rw [hq, hhead]; decide)
    · simp only [Function.update_of_ne hq] at hne
      exact h.workers q hne
  · exact ⟨h.dispatcher, h.workers, fun _ => h.processor (by rw [hhead]; decide)⟩
  · exact ⟨h.dispatcher, h.workers, fun hne => absurd hbody hne⟩
  · exact ⟨h.dispatcher, h.workers, fun _ => hidle⟩
  · exact ⟨h.dispatcher, h.workers, fun _ => rfl⟩
  · exact ⟨h.dispatcher, h.workers, h.processor⟩
  · exact ⟨h.dispatcher, h.workers, h.processor⟩
  · exact ⟨h.dispatcher, h.workers, h.processor⟩
  · exact ⟨h.dispatcher, h.workers, h.processor⟩

/-- What was pushed before and does not wait any more was handed on. -/
theorem prefix_of_not_mem {α : Type*} {before handed waiting : List α} (h : before <+: handed ++ waiting)
    (hwaits : ∀ x ∈ before, x ∉ waiting) : before <+: handed := by
  obtain hprefix | ⟨rest, rfl⟩ := List.prefix_or_prefix_of_prefix h (List.prefix_append handed waiting)
  · exact hprefix
  · rw [List.prefix_append_right_inj] at h
    cases rest with
    | nil => rw [List.append_nil]
    | cons x rest =>
      have hx := List.mem_cons_self (a := x) (l := rest)
      exact absurd (h.subset hx) (hwaits x (List.mem_append_right _ hx))

/-- What a step of the pipeline does to the rest of the server. -/
theorem pipelineStep_frame {step : Pipeline.Label} {p : RingPipeline}
    (ht : threadOf step = none ∧ s.acceptor = true ∧ t = { s with toRingPipeline := p } ∨
      threadOf step = some .dispatcher ∧ s.dispatcher = .body ∧
        t = { s with toRingPipeline := p, dispatcher := dispatcherAfter p, handed := s.handed ++ s.hands step } ∨
      ∃ queueID, threadOf step = some (.worker queueID) ∧ s.worker queueID = .body ∧
        t = { s with toRingPipeline := p, worker := Function.update s.worker queueID (workerAfter p queueID) }) :
    ∃ dispatcher worker, (dispatcher = .exited → s.dispatcher = .exited) ∧
      t = { s with
        toRingPipeline := p
        dispatcher := dispatcher
        worker := worker
        handed := s.handed ++ s.hands step } := by
  have hnone : threadOf step ≠ some .dispatcher → s.handed ++ s.hands step = s.handed := by
    intro hne
    cases step with
    | dispatch => exact absurd rfl hne
    | push | flush | dispatcherOperation | pop | execute | workerOperation => exact List.append_nil _
  obtain ⟨hthread, _, rfl⟩ | ⟨_, _, rfl⟩ | ⟨queueID, hthread, _, rfl⟩ := ht
  · refine ⟨s.dispatcher, s.worker, id, ?_⟩
    rw [hnone (by rw [hthread]; exact (Option.some_ne_none _).symm)]
  · exact ⟨_, s.worker, fun hexited => absurd hexited (dispatcherAfter_ne_exited p), rfl⟩
  · refine ⟨s.dispatcher, Function.update s.worker queueID (workerAfter p queueID), id, ?_⟩
    rw [hnone (by rw [hthread]; simp)]

/-- In an orderly run, nothing that waits for the dispatcher or the outgoing message processor is left behind. -/
theorem Settled.next (h : s.Settled) (hordered : s.Ordered symbols) (hresting : s.Resting) {label : Label}
    (horderly : Orderly session label s) (hnext : RunningServer.next session symbols label s = some t) : t.Settled := by
  obtain ⟨step, p, rfl, hp, ht⟩ | ⟨rfl, hhead, rfl⟩ |
    ⟨queueID, _, _, hhead, rfl⟩ | ⟨rfl, hhead, rfl⟩ | ⟨_, hbody, hidle, ⟨message, hmessage, rfl⟩ | rfl⟩ |
    ⟨message, rfl, _, hmessage, rfl⟩ | ⟨_, _, rfl⟩ | ⟨_, _, ⟨hflag, rfl⟩ | ⟨_, rfl⟩ | ⟨_, _, rfl⟩⟩ := next_cases hnext
  · have hadvances := RingPipeline.advances_of_next hp
    obtain ⟨dispatcher, worker, hexited, rfl⟩ := pipelineStep_frame ht
    refine ⟨?_, ?_, fun he => (h.handed (hexited he)).trans (List.prefix_append ..), ?_, ?_, fun he => ?_⟩
    · simp only [hadvances.pushed, h.pushed, List.append_assoc]
      rw [hadvances.waiting, List.append_assoc]
    · rw [hadvances.pushed]
      exact h.pushedBefore.trans (List.prefix_append ..)
    · rw [hadvances.outgoing, List.length_append]
      exact h.dequeued.trans (Nat.le_add_right ..)
    · rw [hadvances.outgoing, List.take_append_of_le_length h.dequeued]
      exact h.sent
    · rw [hadvances.outgoing, horderly he, List.append_nil]
      exact h.emptied he
  · refine ⟨h.pushed, h.pushedBefore, fun he => ?_, h.dequeued, h.sent, h.emptied⟩
    have hpushed := h.pushed
    rw [(hresting.dispatcher (by rw [hhead]; decide)).1, List.nil_append] at hpushed
    exact prefix_of_not_mem (hpushed ▸ h.pushedBefore) (horderly (finishing_of_exited he))
  · exact ⟨h.pushed, h.pushedBefore, h.handed, h.dequeued, h.sent, h.emptied⟩
  · exact ⟨h.pushed, h.pushedBefore, h.handed, h.dequeued, h.sent, fun he => horderly (finishing_of_exited he)⟩
  · obtain ⟨hlt, _⟩ := List.getElem?_eq_some_iff.mp hmessage
    refine ⟨h.pushed, h.pushedBefore, h.handed, hlt, ?_, fun he => ?_⟩
    · have hsent := h.sent
      rw [hidle, Option.toList_none, List.append_nil] at hsent
      rw [List.take_add_one, hmessage, hsent]
    · rw [hbody] at he
      cases he
  · exact ⟨h.pushed, h.pushedBefore, h.handed, h.dequeued, h.sent, fun he => by cases he⟩
  · refine ⟨h.pushed, h.pushedBefore, h.handed, h.dequeued, ?_, fun he => by cases he⟩
    have hsent := h.sent
    rw [hmessage] at hsent
    rw [Option.toList_none, List.append_nil, if_pos (horderly message hmessage)]
    exact hsent
  · exact ⟨h.pushed, h.pushedBefore, h.handed, h.dequeued, h.sent, h.emptied⟩
  · refine ⟨h.pushed, List.prefix_refl _, fun he => ?_, h.dequeued, h.sent, h.emptied⟩
    have hset := hordered.processorExited (hordered.dispatcherFinishing (hordered.dispatcherExited he))
    rw [hflag] at hset
    cases hset
  · exact ⟨h.pushed, h.pushedBefore, h.handed, h.dequeued, h.sent, h.emptied⟩
  · exact ⟨h.pushed, h.pushedBefore, h.handed, h.dequeued, h.sent, h.emptied⟩

/-- A step of the server is one of the pipeline or leaves the pipeline as it is. -/
theorem next_pipeline {label : Label} (hnext : RunningServer.next session symbols label s = some t) :
    t.toRingPipeline = s.toRingPipeline ∨
      ∃ step, label = .pipeline step ∧ RingPipeline.next step s.toRingPipeline = some t.toRingPipeline := by
  obtain ⟨step, p, rfl, hp, ht⟩ | ⟨_, _, rfl⟩ | ⟨_, _, _, _, rfl⟩ | ⟨_, _, rfl⟩ | ⟨_, _, _, ⟨_, _, rfl⟩ | rfl⟩ |
    ⟨_, _, _, _, rfl⟩ | ⟨_, _, rfl⟩ | ⟨_, _, ⟨_, rfl⟩ | ⟨_, rfl⟩ | ⟨_, _, rfl⟩⟩ := next_cases hnext
  · obtain ⟨_, _, _, rfl⟩ := pipelineStep_frame ht
    exact Or.inr ⟨step, rfl, hp⟩
  · exact Or.inl rfl
  · exact Or.inl rfl
  · exact Or.inl rfl
  · exact Or.inl rfl
  · exact Or.inl rfl
  · exact Or.inl rfl
  · exact Or.inl rfl
  · exact Or.inl rfl
  · exact Or.inl rfl
  · exact Or.inl rfl

/-- The pipeline of the server runs as it does without a shutdown. -/
theorem ringPipeline_reachableBy (h : (runningServer session symbols capacity).ReachableBy Exclusive s) :
    (ringPipeline symbols capacity).ReachableBy RingPipeline.Exclusive s.toRingPipeline := by
  induction h with
  | start => exact .start
  | step _ hexclusive hnext ih =>
    obtain heq | ⟨step, rfl, hp⟩ := next_pipeline hnext
    · exact heq ▸ ih
    · exact ih.step hexclusive hp

/-- All tasks that wait for a worker that has left its loop are cancels that match no order. -/
def OnlyUnmatchedLeft (s : RunningServer) : Prop :=
  ∀ queueID, s.worker queueID = .exited → s.abstract.OnlyUnmatched queueID

/-- In an orderly run, no other task is left behind in a work queue: only its worker works on the books of its symbols. -/
theorem OnlyUnmatchedLeft.next (h : s.OnlyUnmatchedLeft) (hordered : s.Ordered symbols)
    (hrouted : s.abstract.Routed symbols) (hlinked : s.Linked) (hlinked' : t.Linked) {label : Label}
    (hexclusive : Exclusive label s) (horderly : Orderly session label s)
    (hnext : RunningServer.next session symbols label s = some t) : t.OnlyUnmatchedLeft := by
  obtain ⟨step, p, rfl, hp, ht⟩ | ⟨_, _, rfl⟩ | ⟨queueID, rfl, _, hhead, rfl⟩ | ⟨_, _, rfl⟩ |
    ⟨_, _, _, ⟨_, _, rfl⟩ | rfl⟩ | ⟨_, _, _, _, rfl⟩ | ⟨_, _, rfl⟩ | ⟨_, _, ⟨_, rfl⟩ | ⟨_, rfl⟩ | ⟨_, _, rfl⟩⟩ :=
    next_cases hnext
  · have hkept : p.Linked → ∀ q, s.worker q = .exited → threadOf step ≠ some .dispatcher →
        threadOf step ≠ some (.worker q) → p.abstract.OnlyUnmatched q := by
      intro hp' q hexited hdispatcher hworker
      obtain heq | habstract := hlinked.abstract_next hp' hexclusive hp
      · exact heq ▸ h q hexited
      · exact hrouted.onlyUnmatched_next (h q hexited) hdispatcher hworker habstract
    obtain ⟨hthread, _, rfl⟩ | ⟨hthread, hbody, rfl⟩ | ⟨queueID, hthread, hbody, rfl⟩ := ht
    · intro q hexited
      exact hkept hlinked' q hexited (by rw [hthread]; simp) (by rw [hthread]; simp)
    · -- The dispatcher has left its loop before any worker.
      intro q hexited
      rw [hordered.isShuttingDown (hordered.workerExited q hexited)] at hbody
      cases hbody
    · intro q hexited
      have hq : q ≠ queueID := by
        rintro rfl
        simp only [Function.update_self] at hexited
        exact workerAfter_ne_exited p q hexited
      simp only [Function.update_of_ne hq] at hexited
      exact hkept hlinked' q hexited (by rw [hthread]; simp) (by rw [hthread]; simpa using Ne.symm hq)
  · exact h
  · intro q hexited
    by_cases hq : q = queueID
    · subst hq
      simp only [Function.update_self] at hexited
      exact horderly (finishing_of_exited hexited)
    · simp only [Function.update_of_ne hq] at hexited
      exact h q hexited
  · exact h
  · exact h
  · exact h
  · exact h
  · exact h
  · exact h
  · exact h
  · exact h

/-- The pushes exclude each other, and the threads leave their loops in order. -/
def Drains (session : String → String → Bool) (label : Label) (s : RunningServer) : Prop :=
  Exclusive label s ∧ Orderly session label s

/-- The invariant of the runs in which nothing is left behind. -/
structure Consistent (symbols : List String) (s : RunningServer) : Prop where
  ordered : s.Ordered symbols
  resting : s.Resting
  settled : s.Settled
  popsExecuted : s.PopsExecuted
  onlyUnmatchedLeft : s.OnlyUnmatchedLeft

/-- In the beginning nothing was pushed. -/
theorem Consistent.initial (symbols : List String) (capacity : ℕ) : (initial symbols capacity).Consistent symbols where
  ordered := by
    refine ⟨fun h => ?_, fun h => ?_, fun h => ?_, fun h => ?_, fun _ h => ?_, fun _ h => absurd rfl h⟩
    all_goals cases h
  resting := ⟨fun _ => ⟨rfl, rfl⟩, fun _ _ => ⟨rfl, rfl⟩, fun _ => rfl⟩
  settled := by
    refine ⟨rfl, List.prefix_refl _, fun _ => List.prefix_refl _, Nat.le_refl _, rfl, fun _ => rfl⟩
  popsExecuted := fun _ _ h => absurd h List.not_mem_nil
  onlyUnmatchedLeft := fun _ h => by cases h

/-- The invariant holds in every state that such a run reaches. -/
theorem consistent_of_reachableBy (hcapacity : 0 < capacity)
    (h : (runningServer session symbols capacity).ReachableBy (Drains session) s) : s.Consistent symbols := by
  have hlinks : ∀ {u}, (runningServer session symbols capacity).ReachableBy (Drains session) u →
      u.Linked ∧ (pipeline symbols).Reachable u.abstract := fun hu =>
    RingPipeline.linked_of_reachableBy hcapacity (ringPipeline_reachableBy (hu.mono fun _ _ hdrains => hdrains.1))
  refine h.invariant (.initial symbols capacity) fun label u v hu hconsistent hdrains hnext => ?_
  obtain ⟨hlinked, hreachable⟩ := hlinks hu
  obtain ⟨hlinked', _⟩ := hlinks (hu.step hdrains hnext)
  refine ⟨hconsistent.ordered.next hnext, hconsistent.resting.next hnext,
    hconsistent.settled.next hconsistent.ordered hconsistent.resting hdrains.2 hnext, ?_,
    hconsistent.onlyUnmatchedLeft.next hconsistent.ordered (Pipeline.consistent_of_reachable hreachable).routed hlinked
      hlinked' hdrains.1 hdrains.2 hnext⟩
  obtain heq | ⟨step, _, hp⟩ := next_pipeline hnext
  · exact heq ▸ hconsistent.popsExecuted
  · exact hconsistent.popsExecuted.next hp

/-- Nothing is lost: the messages pushed before the shutdown were handed on, each task submitted was executed, unless it still
waits and is a cancel that matches no order, and the messages enqueued were sent once each and in order. So every accepted
order was executed, and the executions in the books were reported. -/
structure NothingLost (s : RunningServer) : Prop where
  handed : s.pushedBefore <+: s.handed ∧ s.flushed = [] ∧ s.dispatching = []
  executed : ∀ queueID, ∀ task ∈ (s.queues queueID).pushes, task ∈ s.executed ∨ task ∈ s.queued queueID
  unmatched : ∀ queueID, ∀ task ∈ s.queued queueID, task.unmatched (s.engine.bookOf task.symbol) = true
  sent : s.sent = s.engine.outgoingMessages
  accepted : ∀ message ∈ s.engine.outgoingMessages, message.type = .accepted → .newOrder message.order ∈ s.executed
  reported : ∀ symbol, bookMessages symbol s.sent = (OrderBook.empty.executeAll (s.log symbol)).2

/-- In every run in which the pushes to each work queue exclude each other, each thread that sees its flag has an empty queue,
but for cancels that match no order, nothing is enqueued once the outgoing message processor has left its loop, and each
report has a session when it is sent, nothing is lost when all threads have left their loops. -/
theorem no_loss_at_shutdown (hcapacity : 0 < capacity) (hsymbols : symbols ≠ [])
    (h : (runningServer session symbols capacity).ReachableBy (Drains session) s) (hexited : s.Exited symbols) :
    s.NothingLost := by
  have hconsistent := consistent_of_reachableBy hcapacity h
  obtain ⟨hlinked, hreachable⟩ := RingPipeline.linked_of_reachableBy hcapacity
    (ringPipeline_reachableBy (h.mono fun _ _ hdrains => hdrains.1))
  have habstract := Pipeline.consistent_of_reachable hreachable
  obtain ⟨hprocessor, hdispatcher, hworkers⟩ := hexited
  have hidle : ∀ q, s.holding q = none ∧ s.working q = [] := by
    intro q
    refine hconsistent.resting.workers q fun hbody => ?_
    have hworker := hworkers q (hconsistent.ordered.workerStarted q (by rw [hbody]; decide))
    rw [hbody] at hworker
    cases hworker
  have hleft : ∀ q, ∀ task ∈ s.queued q, task.unmatched (s.engine.bookOf task.symbol) = true := by
    intro q task htask
    have hqueue : Pipeline.queueOf symbols task.symbol = q := habstract.routed.queues q task htask
    have hlt : q < symbols.length := hqueue ▸ CentralOrderBook.initialise_queueIDOf_lt hsymbols task.symbol
    exact hconsistent.onlyUnmatchedLeft q (hworkers q hlt) task htask
  have hempty := hconsistent.resting.dispatcher (by rw [hdispatcher]; decide)
  have hsent : s.sent = s.engine.outgoingMessages := by
    have hall := hconsistent.settled.sent
    rwa [hconsistent.resting.processor (by rw [hprocessor]; decide), Option.toList_none, List.append_nil,
      hconsistent.settled.emptied hprocessor, List.take_length] at hall
  refine ⟨⟨hconsistent.settled.handed hdispatcher, hempty⟩, fun q task htask => ?_, hleft, hsent,
    fun message hmessage haccepted => ?_, fun symbol => ?_⟩
  · have hmem : some task ∈ (s.queues q).pops ++ (s.queues q).ring.contents := by
      rw [(hlinked.fifo q).pops_append_contents]
      exact List.mem_map_of_mem htask
    obtain hpopped | hwaiting := List.mem_append.mp hmem
    · refine Or.inl ((hconsistent.popsExecuted q task hpopped).resolve_right fun hholds => ?_)
      rw [(hidle q).1] at hholds
      cases hholds
    · exact Or.inr (List.reduceOption_mem_iff.mpr hwaiting)
  · obtain hexecuted | ⟨q, hholds | hqueued | hsubmit⟩ :=
      (Pipeline.kept_of_reachable hreachable).accepted message hmessage haccepted
    · exact hexecuted
    · have hnone : s.holding q = some _ := hholds
      rw [(hidle q).1] at hnone
      cases hnone
    · cases hleft q _ hqueued
    · have hnil : .submitTask (.newOrder message.order) q ∈ s.dispatching := hsubmit
      rw [hempty.2] at hnil
      exact absurd hnil List.not_mem_nil
  · have hreports : bookMessages symbol s.engine.outgoingMessages ++
        bookMessages symbol (enqueued (s.working (Pipeline.queueOf symbols symbol))) = _ :=
      habstract.executed.reports symbol
    rw [(hidle _).2, enqueued_nil, bookMessages_nil, List.append_nil] at hreports
    rw [hsent]
    exact hreports

/-- As long as no cancel is scheduled again, pushes exclude each other in every interleaving. -/
theorem drains_of_unrescheduled (h : (runningServer session symbols capacity).ReachableBy (fun label s =>
      (∀ step, label = .pipeline step → RingPipeline.Unrescheduled step s.toRingPipeline) ∧ Orderly session label s) s) :
    s.SingleProducer ∧ (runningServer session symbols capacity).ReachableBy (Drains session) s := by
  induction h with
  | start => exact ⟨⟨fun _ _ => rfl, fun _ _ _ heq => by cases heq⟩, .start⟩
  | @step label s t _ hallowed hnext ih =>
    obtain ⟨hsingle, hreach⟩ := ih
    obtain ⟨hunrescheduled, horderly⟩ := hallowed
    have hexclusive : Exclusive label s := by
      cases label with
      | pipeline step => exact hsingle.exclusive (hunrescheduled step rfl)
      | checkDispatcher | checkWorker | checkProcessor | dequeue | send | quit | shutdown => trivial
    refine ⟨?_, hreach.step ⟨hexclusive, horderly⟩ hnext⟩
    obtain heq | ⟨step, rfl, hp⟩ := next_pipeline hnext
    · exact heq ▸ hsingle
    · exact hsingle.next (hunrescheduled step rfl) hp

/-- A test for steps of new orders alone that leave nothing behind. -/
def tidy (session : String → String → Bool) : Label → RunningServer → Bool
  | .pipeline (.workerOperation _), _ => false
  | .pipeline _, s => s.processor != .exited
  | .checkDispatcher, s => !s.dispatcherFinishing || s.incoming.isEmpty
  | .checkWorker queueID, s => !s.isShuttingDown || (s.queued queueID).isEmpty
  | .checkProcessor, s => !s.processorFinishing || s.dequeued == s.engine.outgoingMessages.length
  | .send, s => s.processing.all (s.hasSession session)
  | .dequeue, _ | .quit, _ | .shutdown, _ => true

/-- What the test says. -/
theorem orderly_of_tidy {label : Label} (h : tidy session label s = true) :
    (∀ step, label = .pipeline step → RingPipeline.Unrescheduled step s.toRingPipeline) ∧ Orderly session label s := by
  cases label with
  | pipeline step =>
    have hstep : (∀ queueID, step ≠ .workerOperation queueID) ∧ s.processor ≠ .exited := by
      cases step with
      | workerOperation queueID => cases h
      | push | flush | dispatch | dispatcherOperation | pop | execute => exact ⟨fun _ => by simp, bne_iff_ne.mp h⟩
    refine ⟨fun other heq worker _ _ _ hworker => ?_, fun hexited => absurd hexited hstep.2⟩
    obtain rfl := Label.pipeline.inj heq
    exact absurd hworker (hstep.1 worker)
  | checkDispatcher =>
    refine ⟨fun _ heq => (by cases heq), fun hflag message _ hmessage => ?_⟩
    rw [tidy, hflag, Bool.not_true, Bool.false_or, List.isEmpty_iff] at h
    exact absurd (h ▸ hmessage) List.not_mem_nil
  | checkWorker queueID =>
    refine ⟨fun _ heq => (by cases heq), fun hflag task htask => ?_⟩
    rw [tidy, hflag, Bool.not_true, Bool.false_or, List.isEmpty_iff] at h
    exact absurd (h ▸ htask) List.not_mem_nil
  | checkProcessor =>
    refine ⟨fun _ heq => (by cases heq), fun hflag => ?_⟩
    rw [tidy, hflag, Bool.not_true, Bool.false_or] at h
    exact eq_of_beq h
  | dequeue => exact ⟨fun _ heq => (by cases heq), trivial⟩
  | send =>
    refine ⟨fun _ heq => (by cases heq), fun message hmessage => ?_⟩
    rw [tidy, hmessage] at h
    exact h
  | quit => exact ⟨fun _ heq => (by cases heq), trivial⟩
  | shutdown => exact ⟨fun _ heq => (by cases heq), trivial⟩

/-- A run in which an order is accepted, executed and reported before the shutdown. -/
theorem no_loss_at_shutdown_order :
    ∃ s, (runningServer (fun _ _ => true) ["A"] 2).Reachable s ∧ s.Exited ["A"] ∧ s.executed.length = 1 ∧
      s.sent.length = 1 ∧ s.NothingLost := by
  have hrun : ((runningServer (fun _ _ => true) ["A"] 2).runIf (tidy fun _ _ => true)
      (List.flatten [
        [.pipeline (.push (Pipeline.exampleRequest "A" .newOrder)), .checkDispatcher, .pipeline .flush, .pipeline .dispatch],
        List.replicate 6 (.pipeline .dispatcherOperation), [.checkWorker 0], List.replicate 4 (.pipeline (.pop 0)),
        [.pipeline (.execute 0), .checkProcessor, .dequeue, .send, .quit, .shutdown, .checkProcessor, .shutdown,
          .checkDispatcher, .shutdown, .checkWorker 0]])
      (runningServer (fun _ _ => true) ["A"] 2).start).any (fun s => decide (
        (s.processor = .exited ∧ s.dispatcher = .exited ∧ s.worker 0 = .exited) ∧
        s.executed.length = 1 ∧ s.sent.length = 1)) = true := by
    decide +kernel
  obtain ⟨s, hs, htest⟩ := Machine.exists_reachableBy_of_runIf (fun _ _ _ => orderly_of_tidy) hrun
  obtain ⟨⟨hprocessor, hdispatcher, hworker⟩, hexecuted, hsent⟩ := of_decide_eq_true htest
  have hreach := (drains_of_unrescheduled hs).2
  have hexited : s.Exited ["A"] := ⟨hprocessor, hdispatcher, fun q hq => by rwa [Nat.lt_one_iff.mp hq]⟩
  exact ⟨s, hreach.reachable, hexited, hexecuted, hsent, no_loss_at_shutdown (by decide) (by simp) hreach hexited⟩

/-- A run in which one order is accepted and submitted, and another one is pushed, before the shutdown: all threads leave
their loops, the acceptance is not sent, the first order is not executed, and the second one is not handed on. -/
theorem shutdown_loses_orders :
    ∃ s, (runningServer (fun _ _ => true) ["A"] 2).Reachable s ∧ s.Exited ["A"] ∧ ¬ s.NothingLost ∧ ∃ order,
      acceptedMessage order ∈ s.engine.outgoingMessages ∧ acceptedMessage order ∉ s.sent ∧
        .newOrder order ∈ (s.queues 0).pushes ∧ .newOrder order ∉ s.executed ∧ ¬ s.pushedBefore <+: s.handed := by
  obtain ⟨s, hrun, ⟨hprocessor, hdispatcher, hworker⟩, houtgoing, hsent, hpushes, hexecuted, hbefore, hhanded⟩ :
      ∃ s, (runningServer (fun _ _ => true) ["A"] 2).run
      (List.flatten [
        [.pipeline (.push (Pipeline.exampleRequest "A" .newOrder)), .checkDispatcher, .pipeline .flush, .pipeline .dispatch],
        List.replicate 6 (.pipeline .dispatcherOperation),
        [.pipeline (.push (Pipeline.exampleRequest "A" .newOrder)), .quit, .shutdown, .checkProcessor, .shutdown,
          .checkDispatcher, .shutdown, .checkWorker 0]])
      (runningServer (fun _ _ => true) ["A"] 2).start = some s ∧
        (s.processor = .exited ∧ s.dispatcher = .exited ∧ s.worker 0 = .exited) ∧
        s.engine.outgoingMessages = [acceptedMessage ((Pipeline.exampleRequest "A" .newOrder).message 0).order] ∧
        s.sent = [] ∧ (s.queues 0).pushes = [.newOrder ((Pipeline.exampleRequest "A" .newOrder).message 0).order] ∧
        s.executed = [] ∧ s.pushedBefore.length = 2 ∧ s.handed.length = 1 :=
    ⟨_, rfl, ⟨rfl, rfl, rfl⟩, rfl, rfl, rfl, rfl, rfl, rfl⟩
  have hexited : s.Exited ["A"] := ⟨hprocessor, hdispatcher, fun q hq => by rwa [Nat.lt_one_iff.mp hq]⟩
  have hlost : ¬ s.pushedBefore <+: s.handed := fun hprefix => by
    have hle := hprefix.length_le
    rw [hbefore, hhanded] at hle
    exact absurd hle (by decide)
  exact ⟨s, Machine.reachable_of_run hrun, hexited, fun hnothing => hlost hnothing.handed.1, _,
    houtgoing ▸ List.mem_singleton_self _, hsent ▸ List.not_mem_nil, hpushes ▸ List.mem_singleton_self _,
    hexecuted ▸ List.not_mem_nil, hlost⟩

end RunningServer

end MatchingEngine
