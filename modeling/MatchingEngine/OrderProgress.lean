import MatchingEngine.Foundation.Fairness
import MatchingEngine.Foundation.Waiting
import MatchingEngine.OrderAdmission
import MatchingEngine.Shutdown
import MatchingEngine.SingleWriter

/-!
# No order starves

The dispatcher takes its messages and a worker the tasks of its queue in the order of their
arrival. What arrives later delays neither, also when cancels that match no order come back to the
end of a queue again and again. How many steps a thread makes before it comes to an order is
therefore determined by what waits before the order, whatever the other threads do.

This is about queues that have space for every push. Where a ring buffer is full, a worker that has
to put a cancel back waits for itself, and the orders behind it starve.
-/

namespace MatchingEngine

/-- The steps that a worker makes for tasks: it pops and executes each, and makes its queue operations. -/
def workFor (book : String → OrderBook) : List Task → ℕ
  | [] => 0
  | task :: tasks =>
    let result := (book task.symbol).execute task.bookTask
    2 + (result.2.length + if task.unmatched (book task.symbol) then 1 else 0) +
      workFor (Function.update book task.symbol result.1) tasks

/-- The steps depend on the books of the tasks only. -/
theorem workFor_congr {tasks : List Task} {book other : String → OrderBook}
    (h : ∀ task ∈ tasks, book task.symbol = other task.symbol) : workFor book tasks = workFor other tasks := by
  induction tasks generalizing book other with
  | nil => rfl
  | cons task tasks ih =>
    have hfirst := h task (List.mem_cons_self ..)
    rw [workFor, workFor, hfirst]
    refine congrArg _ (ih fun next hnext => ?_)
    by_cases hsymbol : next.symbol = task.symbol
    · rw [hsymbol, Function.update_self, Function.update_self]
    · rw [Function.update_of_ne hsymbol, Function.update_of_ne hsymbol]
      exact h next (List.mem_cons_of_mem _ hnext)

/-- After the first task, its queue operations and the steps for the others are left. -/
theorem workFor_cons (c : CentralOrderBook) (task : Task) (tasks : List Task) :
    workFor c.bookOf (task :: tasks) = 2 + (c.taskWork task).2.length + workFor (c.taskWork task).1.bookOf tasks := by
  have hbook : Function.update c.bookOf task.symbol ((c.bookOf task.symbol).execute task.bookTask).1 =
      (c.taskWork task).1.bookOf := by
    funext symbol
    rw [c.taskWork_bookOf]
    by_cases hsymbol : symbol = task.symbol
    · rw [hsymbol, Function.update_self, if_pos rfl]
    · rw [Function.update_of_ne hsymbol, if_neg hsymbol]
  rw [workFor, hbook, c.taskWork_operations, List.length_append, List.length_map]
  congr 3
  split <;> rfl

namespace Pipeline

variable {symbols : List String} {s t : Pipeline} {queueID : ℕ} {order : Order}

/-- Whether a task is the one of an order. -/
def taskOf (order : Order) (task : Task) : Bool := decide (task = .newOrder order)

/-- The task that a worker holds, and those in its queue. -/
def tasksOf (s : Pipeline) (queueID : ℕ) : List Task := (s.holding queueID).toList ++ s.engine.threadQueues queueID

/-- How many steps a worker makes until it has executed an order: its queue operations, the tasks before the order, and
the order itself. -/
def stepsUntilExecuted (s : Pipeline) (queueID : ℕ) (order : Order) : ℕ :=
  (s.working queueID).length + workFor s.engine.bookOf (frontOf (taskOf order) (s.tasksOf queueID)) +
    if (s.holding queueID).isSome then 1 else 2

/-- The order is with the worker, or the worker has executed it. -/
structure WithWorker (symbols : List String) (queueID : ℕ) (order : Order) (s : Pipeline) : Prop where
  consistent : s.Consistent symbols
  task : .newOrder order ∈ s.executed ∨ .newOrder order ∈ s.tasksOf queueID

/-- What another thread does leaves the worker's own state and its books, and can only add to its queue. -/
theorem next_of_other (h : s.Routed symbols) {label : Label} (hlabel : threadOf label ≠ some (.worker queueID))
    (hnext : Pipeline.next label s = some t) :
    t.holding queueID = s.holding queueID ∧ t.working queueID = s.working queueID ∧
      (∃ more, t.engine.threadQueues queueID = s.engine.threadQueues queueID ++ more) ∧
      ∀ symbol, queueOf symbols symbol = queueID → t.engine.bookOf symbol = s.engine.bookOf symbol := by
  obtain ⟨_, rfl, rfl⟩ | ⟨rfl, _, _, rfl⟩ | ⟨message, _, rfl, _, _, rfl⟩ | ⟨operation, operations, rfl, _, rfl⟩ |
    ⟨q, task, rest, rfl, _, _, _, rfl⟩ | ⟨q, task, rfl, hholding, rfl⟩ | ⟨q, operation, operations, rfl, _, rfl⟩ :=
    next_cases hnext
  · exact ⟨rfl, rfl, ⟨[], (List.append_nil _).symm⟩, fun _ _ => rfl⟩
  · exact ⟨rfl, rfl, ⟨[], (List.append_nil _).symm⟩, fun _ _ => rfl⟩
  · refine ⟨rfl, rfl, ⟨[], ?_⟩, fun symbol _ => ?_⟩
    · rw [(dispatchWork_sameQueues s.engine message).threadQueues, List.append_nil]
    · rw [CentralOrderBook.bookOf, dispatchWork_orderBookDictionary, CentralOrderBook.bookOf]
  · exact ⟨rfl, rfl, ⟨_, rfl⟩, fun _ _ => rfl⟩
  · have hne : queueID ≠ q := fun heq => hlabel (by rw [heq]; rfl)
    exact ⟨Function.update_of_ne hne .., rfl, ⟨[], by simp [hne]⟩, fun _ _ => rfl⟩
  · have hne : queueID ≠ q := fun heq => hlabel (by rw [heq]; rfl)
    refine ⟨Function.update_of_ne hne .., Function.update_of_ne hne .., ⟨[], ?_⟩, fun symbol hsymbol => ?_⟩
    · rw [(s.engine.taskWork_sameQueues task).threadQueues, List.append_nil]
    · rw [s.engine.taskWork_bookOf, if_neg]
      rintro rfl
      exact hne (hsymbol.symm.trans (h.holding q task hholding).1)
  · have hne : queueID ≠ q := fun heq => hlabel (by rw [heq]; rfl)
    exact ⟨rfl, Function.update_of_ne hne .., ⟨_, rfl⟩, fun _ _ => rfl⟩

namespace WithWorker

/-- Some task of the worker is the one of the order. -/
theorem exists_task (h : s.WithWorker symbols queueID order) (hexecuted : .newOrder order ∉ s.executed) :
    ∃ task ∈ s.tasksOf queueID, taskOf order task = true :=
  ⟨_, h.task.resolve_left hexecuted, decide_eq_true rfl⟩

/-- The tasks of a worker are those of its queue. -/
theorem queue_of_mem (h : s.WithWorker symbols queueID order) {task : Task} (htask : task ∈ s.tasksOf queueID) :
    queueOf symbols task.symbol = queueID := by
  rcases List.mem_append.mp htask with hmem | hmem
  · exact (h.consistent.routed.holding queueID task (Option.mem_toList.mp hmem)).1
  · exact h.consistent.routed.queues queueID task hmem

/-- A step of another thread does not bring the worker closer to the order, nor further away. -/
theorem next_other (h : s.WithWorker symbols queueID order) {label : Label}
    (hlabel : threadOf label ≠ some (.worker queueID)) (hnext : Pipeline.next label s = some t)
    (hexecuted : .newOrder order ∉ s.executed) :
    .newOrder order ∈ t.tasksOf queueID ∧ t.stepsUntilExecuted queueID order = s.stepsUntilExecuted queueID order := by
  obtain ⟨hholding, hworking, ⟨more, hmore⟩, hbooks⟩ := next_of_other h.consistent.routed hlabel hnext
  have htasks : t.tasksOf queueID = s.tasksOf queueID ++ more := by
    rw [tasksOf, hholding, hmore, ← List.append_assoc]
    rfl
  refine ⟨htasks ▸ List.mem_append_left _ (h.task.resolve_left hexecuted), ?_⟩
  rw [stepsUntilExecuted, htasks, frontOf_append _ (h.exists_task hexecuted), hholding, hworking,
    workFor_congr fun task htask => hbooks task.symbol (h.queue_of_mem (mem_of_mem_frontOf htask))]
  rfl

/-- A step of the worker brings it closer to the order, or executes the order. -/
theorem next_own (h : s.WithWorker symbols queueID order) {label : Label}
    (hlabel : threadOf label = some (.worker queueID)) (hnext : Pipeline.next label s = some t)
    (hexecuted : .newOrder order ∉ s.executed) :
    .newOrder order ∈ t.executed ∨
      .newOrder order ∈ t.tasksOf queueID ∧ t.stepsUntilExecuted queueID order + 1 = s.stepsUntilExecuted queueID order := by
  have hmem := h.task.resolve_left hexecuted
  obtain ⟨_, rfl, rfl⟩ | ⟨rfl, _, _, rfl⟩ | ⟨message, _, rfl, _, _, rfl⟩ | ⟨operation, operations, rfl, _, rfl⟩ |
    ⟨q, task, rest, rfl, hholding, hworking, hqueue, rfl⟩ | ⟨q, task, rfl, hholding, rfl⟩ |
    ⟨q, operation, operations, rfl, hworking, rfl⟩ := next_cases hnext
  all_goals cases hlabel
  · -- The task moves from the queue into the hands of the worker.
    right
    have htasks : tasksOf { s with
        engine := s.engine.withQueue queueID rest
        holding := Function.update s.holding queueID (some task) } queueID = s.tasksOf queueID := by
      simp [tasksOf, hholding, hqueue]
    refine ⟨htasks ▸ hmem, ?_⟩
    rw [stepsUntilExecuted, htasks, stepsUntilExecuted, hholding]
    simp only [Function.update_self, Option.isSome_some, Option.isSome_none, if_true, Bool.false_eq_true, if_false]
    rfl
  · have hqueues := (s.engine.taskWork_sameQueues task).threadQueues
    have hworking := (h.consistent.routed.holding queueID task hholding).2
    have htasks : s.tasksOf queueID = task :: s.engine.threadQueues queueID := by
      rw [tasksOf, hholding]
      rfl
    by_cases htask : task = .newOrder order
    · exact Or.inl (htask ▸ List.mem_append_right _ (List.mem_singleton_self _))
    · right
      rw [htasks] at hmem
      have hother : taskOf order task = false := decide_eq_false htask
      refine ⟨?_, ?_⟩
      · simp only [tasksOf, Function.update_self, Option.toList_none, List.nil_append, hqueues]
        exact (List.mem_cons.mp hmem).resolve_left (Ne.symm htask)
      · rw [stepsUntilExecuted, stepsUntilExecuted, htasks, frontOf_cons_of_neg _ hother, workFor_cons, hholding,
          hworking]
        simp only [tasksOf, Function.update_self, Option.toList_none, List.nil_append, hqueues, Option.isSome_none,
          Option.isSome_some, List.length_nil, if_true, Bool.false_eq_true, if_false]
        omega
  · right
    have htasks : tasksOf { s with
        engine := s.engine.afterOperations [operation]
        working := Function.update s.working queueID operations } queueID =
        s.tasksOf queueID ++ submitted queueID [operation] := by
      simp [tasksOf]
    refine ⟨htasks ▸ List.mem_append_left _ hmem, ?_⟩
    rw [stepsUntilExecuted, htasks, frontOf_append _ (h.exists_task hexecuted), stepsUntilExecuted, hworking]
    simp only [Function.update_self, List.length_cons]
    rw [Nat.add_right_comm, Nat.add_right_comm _ _ 1]
    rfl

/-- Every step keeps the order with the worker, and a step of the worker brings it closer to the order. -/
theorem next (h : s.WithWorker symbols queueID order) {label : Label} (hnext : Pipeline.next label s = some t) :
    t.WithWorker symbols queueID order ∧ (.newOrder order ∈ s.executed → .newOrder order ∈ t.executed) ∧
      (.newOrder order ∈ t.executed ∨ t.stepsUntilExecuted queueID order +
        (decide (threadOf label = some (.worker queueID))).toNat ≤ s.stepsUntilExecuted queueID order) := by
  have hkept : .newOrder order ∈ s.executed → .newOrder order ∈ t.executed := fun hexecuted => by
    rw [(next_records hnext).1]
    exact List.mem_append_left _ hexecuted
  have hnext' : .newOrder order ∈ t.executed ∨ .newOrder order ∈ t.tasksOf queueID ∧
      t.stepsUntilExecuted queueID order + (decide (threadOf label = some (.worker queueID))).toNat ≤
        s.stepsUntilExecuted queueID order := by
    by_cases hexecuted : .newOrder order ∈ s.executed
    · exact Or.inl (hkept hexecuted)
    · by_cases hlabel : threadOf label = some (.worker queueID)
      · rw [decide_eq_true hlabel]
        exact (h.next_own hlabel hnext hexecuted).imp_right fun hclose => ⟨hclose.1, hclose.2.le⟩
      · rw [decide_eq_false hlabel]
        obtain ⟨hmem, hsame⟩ := h.next_other hlabel hnext hexecuted
        exact Or.inr ⟨hmem, hsame.le⟩
  exact ⟨⟨h.consistent.next hnext, hnext'.imp_right And.left⟩, hkept, hnext'.imp_right And.right⟩

end WithWorker

/-- A queue operation of a thread does not throw when its queue index is valid. -/
theorem perform_isSome {c : CentralOrderBook} (operation : QueueOperation)
    (h : ∀ task id, operation = .submitTask task id → id < c.queueCount) :
    ∃ after, (c.perform operation).toOption = some after := by
  rw [c.perform_eq h]
  exact ⟨_, rfl⟩

/-- A worker that has something to do can take a step. -/
theorem exists_worker_step (h : s.Routed symbols) (hvalid : queueID < s.engine.queueCount)
    (hbusy : s.tasksOf queueID ≠ []) :
    ∃ label, threadOf label = some (.worker queueID) ∧ (Pipeline.next label s).isSome = true := by
  cases hholding : s.holding queueID with
  | some task =>
    refine ⟨.execute queueID, rfl, ?_⟩
    simp only [Pipeline.next, hholding]
    rfl
  | none =>
    cases hworking : s.working queueID with
    | nil =>
      rw [tasksOf, hholding, Option.toList_none, List.nil_append] at hbusy
      obtain ⟨task, rest, hqueue⟩ := List.exists_cons_of_ne_nil hbusy
      refine ⟨.pop queueID, rfl, ?_⟩
      simp only [Pipeline.next, hholding, hworking, CentralOrderBook.tryPop, hqueue, Option.map_some, Option.isSome_some]
    | cons operation operations =>
      obtain ⟨after, hafter⟩ := perform_isSome (c := s.engine) operation fun task id heq => by
        rw [(h.working queueID task id (by rw [hworking, heq]; exact List.mem_cons_self ..)).1]
        exact hvalid
      refine ⟨.workerOperation queueID, rfl, ?_⟩
      simp only [Pipeline.next, hworking, hafter, Option.map_some, Option.isSome_some]

/-- The dispatcher can always take a step. -/
theorem exists_dispatcher_step (h : s.Routed symbols) (hvalid : ∀ symbol, queueOf symbols symbol < s.engine.queueCount) :
    ∃ label, threadOf label = some .dispatcher ∧ (Pipeline.next label s).isSome = true := by
  cases hdispatching : s.dispatching with
  | cons operation operations =>
    obtain ⟨after, hafter⟩ := perform_isSome (c := s.engine) operation fun task id heq => by
      rw [h.dispatching task id (by rw [hdispatching, heq]; exact List.mem_cons_self ..)]
      exact hvalid _
    refine ⟨.dispatcherOperation, rfl, ?_⟩
    simp only [Pipeline.next, hdispatching, hafter, Option.map_some, Option.isSome_some]
  | nil =>
    cases hflushed : s.flushed with
    | nil =>
      refine ⟨.flush, rfl, ?_⟩
      simp only [Pipeline.next, hdispatching, hflushed]
      rfl
    | cons message rest =>
      refine ⟨.dispatch, rfl, ?_⟩
      simp only [Pipeline.next, hdispatching, hflushed]
      rfl

/-- The messages that the dispatcher has not come to. -/
def undispatched (s : Pipeline) : List IncomingMessage := s.flushed ++ s.incoming

/-- Whether a message asks for a new order. -/
def messageOf (order : Order) (message : IncomingMessage) : Bool := taskOf order message.task

/-- How many steps the dispatcher makes at most until it has handled an order: a message takes a step and at most two
queue operations, and the waiting messages are taken by one step. -/
def stepsUntilDispatched (s : Pipeline) (order : Order) : ℕ :=
  s.dispatching.length +
    if order ∈ orders s.undispatched then
      3 * (frontOf (messageOf order) s.undispatched).length + if order ∈ orders s.flushed then 3 else 4
    else 0

/-- The order was rejected, or it was accepted and given to its worker. -/
def Dispatched (symbols : List String) (order : Order) (s : Pipeline) : Prop :=
  rejectedMessage order ∈ s.engine.outgoingMessages ∨
    acceptedMessage order ∈ s.engine.outgoingMessages ∧
      (.newOrder order ∈ s.executed ∨ .newOrder order ∈ s.tasksOf (queueOf symbols order.symbol))

/-- Some waiting message asks for the order. -/
theorem exists_messageOf {messages : List IncomingMessage} :
    (∃ message ∈ messages, messageOf order message = true) ↔ order ∈ orders messages := by
  rw [mem_orders, List.mem_map]
  exact exists_congr fun message => and_congr_right fun _ => decide_eq_true_iff

/-- A message makes the dispatcher perform at most two queue operations. -/
theorem DispatchStage.length_le {operations : List QueueOperation} (h : DispatchStage symbols operations) :
    operations.length ≤ 2 := by
  obtain rfl | ⟨_, rfl⟩ | ⟨_, rfl⟩ | ⟨_, rfl⟩ := h
  all_goals simp

/-- The order has been dispatched when the dispatcher has nothing of it left. -/
theorem dispatched_of_idle (h : (pipeline symbols).Reachable s) (horder : order ∈ orders s.pushed)
    (hundispatched : order ∉ orders s.undispatched) (hdispatching : s.dispatching = []) : s.Dispatched symbols order := by
  have hs := consistent_of_reachable h
  have hadmitted := admitted_of_reachable h
  have hunanswered : order ∉ s.unanswered := by
    rw [unanswered, hdispatching]
    exact hundispatched
  rw [← (answered_of_reachable h).answered] at horder
  obtain ⟨message, hmessage, rfl⟩ := List.mem_map.mp ((List.mem_append.mp horder).resolve_right hunanswered)
  have hmem := List.mem_of_mem_filter hmessage
  rcases hadmitted.answers message hmessage with haccepted | hrejected
  · rw [haccepted] at hmem
    refine Or.inr ⟨hmem, ?_⟩
    obtain ⟨q, hsubmit⟩ | ⟨q, hqueue⟩ | ⟨q, hholding⟩ | hexecuted :=
      (hadmitted.placed message.order).mpr (List.mem_append_left _ hmem)
    · simp [hdispatching] at hsubmit
    · have hq := hs.routed.queues q _ hqueue
      exact Or.inr (List.mem_append_right _ (hq ▸ hqueue))
    · have hq := (hs.routed.holding q _ hholding).1
      refine Or.inr (List.mem_append_left _ (Option.mem_toList.mpr ?_))
      exact hq ▸ hholding
    · exact Or.inl hexecuted
  · rw [hrejected] at hmem
    exact Or.inl hmem

/-- An order that was dispatched stays so. -/
theorem Dispatched.next (h : s.Dispatched symbols order) (hs : s.Consistent symbols) {label : Label}
    (hnext : Pipeline.next label s = some t) : t.Dispatched symbols order := by
  have hmessages := (next_appends hnext).1.subset
  refine h.imp (fun hrejected => hmessages hrejected) fun ⟨haccepted, htask⟩ => ⟨hmessages haccepted, ?_⟩
  exact (WithWorker.next ⟨hs, htask⟩ hnext).1.task

/-- The first message asks for the order, or one of the others does. -/
theorem mem_orders_cons {message : IncomingMessage} {messages : List IncomingMessage} :
    order ∈ orders (message :: messages) ↔ messageOf order message = true ∨ order ∈ orders messages := by
  rw [← exists_messageOf, ← exists_messageOf, List.exists_mem_cons_iff]

/-- Two messages do not ask for the same order. -/
theorem not_mem_of_messageOf (h : (pipeline symbols).Reachable s) {message : IncomingMessage} {messages : List IncomingMessage}
    (hdispatching : s.dispatching = []) (hundispatched : s.undispatched = message :: messages)
    (hmessage : messageOf order message = true) : order ∉ orders messages := by
  have horders : (orders s.pushed).Nodup := (consistent_of_reachable h).stamped.orders_increasing.imp fun {x y} hlt heq =>
    hlt.ne (congrArg Order.serial heq)
  rw [← (answered_of_reachable h).answered] at horders
  have hnodup := horders.of_append_right
  rw [unanswered, hdispatching] at hnodup
  change (orders s.undispatched).Nodup at hnodup
  rw [hundispatched, ← List.singleton_append, orders_append] at hnodup
  refine (List.disjoint_of_nodup_append hnodup) ?_
  exact mem_orders.mpr (List.mem_map.mpr ⟨message, List.mem_singleton_self _, of_decide_eq_true hmessage⟩)

/-- The steps while the order waits. -/
theorem stepsUntilDispatched_of_mem (h : order ∈ orders s.undispatched) : s.stepsUntilDispatched order =
    s.dispatching.length + (3 * (frontOf (messageOf order) s.undispatched).length +
      if order ∈ orders s.flushed then 3 else 4) := by
  rw [stepsUntilDispatched, if_pos h]

/-- The steps after the order was taken. -/
theorem stepsUntilDispatched_of_not_mem (h : order ∉ orders s.undispatched) :
    s.stepsUntilDispatched order = s.dispatching.length := by
  rw [stepsUntilDispatched, if_neg h, Nat.add_zero]

/-- A new message neither is about an order pushed before nor gets ahead of it. -/
theorem stepsUntilDispatched_push (h : (pipeline symbols).Reachable s) (horder : order ∈ orders s.pushed)
    {request : Request} (hundispatched : t.undispatched = s.undispatched ++ [request.message s.pushed.length])
    (hflushed : t.flushed = s.flushed) (hdispatching : t.dispatching = s.dispatching) :
    t.stepsUntilDispatched order = s.stepsUntilDispatched order := by
  have hother : messageOf order (request.message s.pushed.length) = false := by
    refine decide_eq_false fun heq => ?_
    have hlt := (consistent_of_reachable h).stamped.serial_lt (mem_orders.mp horder)
    rw [← heq, IncomingMessage.task_order] at hlt
    exact lt_irrefl _ hlt
  have hmem_iff : order ∈ orders t.undispatched ↔ order ∈ orders s.undispatched := by
    rw [hundispatched, orders_append, List.mem_append, mem_orders_cons, hother]
    simp [orders]
  by_cases hmem : order ∈ orders s.undispatched
  · rw [stepsUntilDispatched_of_mem (hmem_iff.mpr hmem), stepsUntilDispatched_of_mem hmem, hundispatched,
      frontOf_append _ (exists_messageOf.mpr hmem), hflushed, hdispatching]
  · rw [stepsUntilDispatched_of_not_mem (mt hmem_iff.mp hmem), stepsUntilDispatched_of_not_mem hmem, hdispatching]

/-- The first message leaves, and makes the dispatcher perform at most two operations. -/
theorem stepsUntilDispatched_dispatch (h : (pipeline symbols).Reachable s) {message : IncomingMessage}
    {rest : List IncomingMessage} (hflushed : s.flushed = message :: rest) (hdispatching : s.dispatching = [])
    (hmem : order ∈ orders s.undispatched) (hincoming : t.incoming = s.incoming) (hrest : t.flushed = rest)
    (hlength : t.dispatching.length ≤ 2) : t.stepsUntilDispatched order + 1 ≤ s.stepsUntilDispatched order := by
  have hundispatched : s.undispatched = message :: t.undispatched := by
    rw [undispatched, undispatched, hflushed, hincoming, hrest, List.cons_append]
  rw [stepsUntilDispatched_of_mem hmem, hundispatched, hdispatching, hflushed, List.length_nil, Nat.zero_add]
  cases hmessage : messageOf order message with
  | true =>
    rw [stepsUntilDispatched_of_not_mem (not_mem_of_messageOf h hdispatching hundispatched hmessage),
      if_pos (mem_orders_cons.mpr (Or.inl hmessage))]
    omega
  | false =>
    rw [hundispatched, mem_orders_cons, hmessage] at hmem
    have hflushed_iff : order ∈ orders (message :: rest) ↔ order ∈ orders rest := by
      rw [mem_orders_cons, hmessage]
      exact or_iff_right Bool.false_ne_true
    rw [stepsUntilDispatched_of_mem (hmem.resolve_left Bool.false_ne_true), frontOf_cons_of_neg _ hmessage,
      List.length_cons, hrest]
    simp only [hflushed_iff]
    omega

/-- A step of the dispatcher brings it closer to the order, and no other step brings it further away. -/
theorem stepsUntilDispatched_next (h : (pipeline symbols).Reachable s) (horder : order ∈ orders s.pushed) {label : Label}
    (hnext : Pipeline.next label s = some t) (hdispatched : ¬s.Dispatched symbols order) :
    t.stepsUntilDispatched order + (decide (threadOf label = some .dispatcher)).toNat ≤ s.stepsUntilDispatched order := by
  have hwaits : s.dispatching = [] → order ∈ orders s.undispatched := fun hdispatching => by
    by_contra hnot
    exact hdispatched (dispatched_of_idle h horder hnot hdispatching)
  obtain ⟨request, rfl, ht⟩ | ⟨rfl, hflushed, hdispatching, ht⟩ | ⟨message, rest, rfl, hflushed, hdispatching, ht⟩ |
    ⟨operation, operations, rfl, hdispatching, ht⟩ | ⟨_, _, _, rfl, _, _, _, rfl⟩ | ⟨_, _, rfl, _, rfl⟩ |
    ⟨_, _, _, rfl, _, rfl⟩ := next_cases hnext
  · have hundispatched : t.undispatched = s.undispatched ++ [request.message s.pushed.length] := by
      rw [undispatched, undispatched, ht, List.append_assoc]
    exact (stepsUntilDispatched_push h horder hundispatched (by rw [ht]) (by rw [ht])).le
  · have hmem := hwaits hdispatching
    have hundispatched : t.undispatched = s.undispatched := by
      rw [undispatched, undispatched, ht, hflushed, List.nil_append, List.append_nil]
    have htaken : order ∈ orders t.flushed := by
      rw [ht]
      rwa [undispatched, hflushed, List.nil_append] at hmem
    have hnone : order ∉ orders s.flushed := hflushed ▸ List.not_mem_nil
    have hsame : t.dispatching = s.dispatching := by rw [ht]
    rw [stepsUntilDispatched_of_mem (hundispatched ▸ hmem), stepsUntilDispatched_of_mem hmem, if_pos htaken,
      if_neg hnone, hundispatched, hsame]
    exact Nat.le_refl _
  · have hlength : t.dispatching.length ≤ 2 := by
      rw [ht]
      exact (dispatchWork_stage (consistent_of_reachable h).routed.toStatic message).1.length_le
    exact stepsUntilDispatched_dispatch h hflushed hdispatching (hwaits hdispatching) (by rw [ht]) (by rw [ht]) hlength
  · have hsame : t.undispatched = s.undispatched := by rw [undispatched, undispatched, ht]
    have hflushed : t.flushed = s.flushed := by rw [ht]
    have hlength : t.dispatching.length + 1 = s.dispatching.length := by rw [hdispatching, ht, List.length_cons]
    rw [stepsUntilDispatched, stepsUntilDispatched, hsame, hflushed, ← hlength]
    exact (Nat.add_right_comm ..).le
  · exact Nat.le_refl _
  · exact Nat.le_refl _
  · exact Nat.le_refl _

/-- When the dispatcher has no step left until it has handled the order, it has handled it. -/
theorem dispatched_of_steps_eq_zero (h : (pipeline symbols).Reachable s) (horder : order ∈ orders s.pushed)
    (hsteps : s.stepsUntilDispatched order = 0) : s.Dispatched symbols order := by
  have hwaiting : order ∉ orders s.undispatched := by
    intro hmem
    rw [stepsUntilDispatched, if_pos hmem] at hsteps
    split at hsteps
    all_goals omega
  rw [stepsUntilDispatched, if_neg hwaiting] at hsteps
  exact dispatched_of_idle h horder hwaiting (List.length_eq_zero_iff.mp hsteps)

/-- There is a worker for each symbol. -/
theorem queueOf_lt (h : (pipeline symbols).Reachable s) (hsymbols : symbols ≠ []) (symbol : String) :
    queueOf symbols symbol < s.engine.queueCount := by
  have hcount : s.engine.queueCount = symbols.length :=
    h.invariant (I := fun u => u.engine.queueCount = symbols.length) rfl
      fun label u v _ hu _ hnext => (next_queueCount hnext).trans hu
  rw [hcount]
  exact CentralOrderBook.initialise_queueIDOf_lt hsymbols symbol

/-- The dispatcher comes closer to every order that was pushed. -/
theorem approaches_dispatched (symbols : List String) (order : Order) :
    (pipeline symbols).Approaches (fun s => (pipeline symbols).Reachable s ∧ order ∈ orders s.pushed)
      (fun s => s.Dispatched symbols order) (fun label => threadOf label = some .dispatcher)
      fun s => s.stepsUntilDispatched order := by
  intro label s t ⟨hreachable, horder⟩ hnext
  have hkept : s.Dispatched symbols order → t.Dispatched symbols order := fun hdispatched =>
    hdispatched.next (consistent_of_reachable hreachable) hnext
  have hpushed := ((next_appends hnext).2.filter fun message => message.type == .newOrder).map IncomingMessage.order
  refine ⟨⟨hreachable.step trivial hnext, hpushed.subset horder⟩, hkept, ?_⟩
  by_cases hdispatched : s.Dispatched symbols order
  · exact Or.inl (hkept hdispatched)
  · exact Or.inr (stepsUntilDispatched_next hreachable horder hnext hdispatched)

/-- A worker comes closer to every order that is with it. -/
theorem approaches_executed (symbols : List String) (queueID : ℕ) (order : Order) :
    (pipeline symbols).Approaches
      (fun s => (pipeline symbols).Reachable s ∧ (.newOrder order ∈ s.executed ∨ .newOrder order ∈ s.tasksOf queueID))
      (fun s => .newOrder order ∈ s.executed) (fun label => threadOf label = some (.worker queueID))
      fun s => s.stepsUntilExecuted queueID order := by
  intro label s t ⟨hreachable, htask⟩ hnext
  have hworker : s.WithWorker symbols queueID order := ⟨consistent_of_reachable hreachable, htask⟩
  obtain ⟨hkept, hexecuted, hmeasure⟩ := hworker.next hnext
  exact ⟨⟨hreachable.step trivial hnext, hkept.task⟩, hexecuted, hmeasure⟩

/-- A worker has a step left until it has executed an order. -/
theorem stepsUntilExecuted_pos (s : Pipeline) (queueID : ℕ) (order : Order) : 0 < s.stepsUntilExecuted queueID order := by
  rw [stepsUntilExecuted]
  split
  all_goals omega

/-- In every run, an order is answered and given to its worker after a number of steps of the dispatcher, and executed after
a number of steps of the worker, that the messages and tasks before it determine. As long as it waits, its thread can take
a step. -/
theorem no_starvation (hsymbols : symbols ≠ []) (h : (pipeline symbols).Reachable s) (horder : order ∈ orders s.pushed) :
    (∃ label, threadOf label = some .dispatcher ∧ (Pipeline.next label s).isSome = true) ∧
      (∀ labels t, (pipeline symbols).run labels s = some t →
        s.stepsUntilDispatched order ≤ labels.countP (fun label => threadOf label = some .dispatcher) →
        t.Dispatched symbols order) ∧
      (.newOrder order ∈ s.tasksOf (queueOf symbols order.symbol) →
        (∃ label, threadOf label = some (.worker (queueOf symbols order.symbol)) ∧
          (Pipeline.next label s).isSome = true) ∧
        ∀ labels t, (pipeline symbols).run labels s = some t →
          s.stepsUntilExecuted (queueOf symbols order.symbol) order ≤
            labels.countP (fun label => threadOf label = some (.worker (queueOf symbols order.symbol))) →
          .newOrder order ∈ t.executed) := by
  have hrouted := (consistent_of_reachable h).routed
  refine ⟨exists_dispatcher_step hrouted (queueOf_lt h hsymbols), fun labels t hrun hsteps => ?_,
    fun htask => ⟨exists_worker_step hrouted (queueOf_lt h hsymbols _) (List.ne_nil_of_mem htask),
      fun labels t hrun hsteps => ?_⟩⟩
  · obtain ⟨⟨ht, hpushed⟩, hdispatched | hmeasure⟩ := (approaches_dispatched symbols order).run ⟨h, horder⟩ hrun
    · exact hdispatched
    · exact dispatched_of_steps_eq_zero ht hpushed (by omega)
  · obtain ⟨_, hexecuted | hmeasure⟩ := (approaches_executed symbols _ order).run ⟨h, Or.inr htask⟩ hrun
    · exact hexecuted
    · have hpos := stepsUntilExecuted_pos t (queueOf symbols order.symbol) order
      omega

/-- An order that waits for its worker behind a cancel that matches no order. -/
theorem no_starvation_second : ∃ s, (pipeline ["A"]).run
      [.push (exampleRequest "A" .cancelOrder), .push (exampleRequest "A" .newOrder), .flush, .dispatch,
        .dispatcherOperation, .dispatch, .dispatcherOperation, .dispatcherOperation] (pipeline ["A"]).start = some s ∧
    s.stepsUntilExecuted 0 ((exampleRequest "A" .newOrder).message 1).order = 5 ∧
    ∀ labels t, (pipeline ["A"]).run labels s = some t → 5 ≤ labels.countP (fun label => threadOf label = some (.worker 0)) →
      .newOrder ((exampleRequest "A" .newOrder).message 1).order ∈ t.executed := by
  obtain ⟨s, hrun, hsteps, hpushed, htask⟩ : ∃ s, (pipeline ["A"]).run
        [.push (exampleRequest "A" .cancelOrder), .push (exampleRequest "A" .newOrder), .flush, .dispatch,
          .dispatcherOperation, .dispatch, .dispatcherOperation, .dispatcherOperation] (pipeline ["A"]).start = some s ∧
      s.stepsUntilExecuted 0 ((exampleRequest "A" .newOrder).message 1).order = 5 ∧
      orders s.pushed = [((exampleRequest "A" .newOrder).message 1).order] ∧
      s.tasksOf 0 = [.cancelOrder ((exampleRequest "A" .cancelOrder).message 0).order "1",
        .newOrder ((exampleRequest "A" .newOrder).message 1).order] := ⟨_, rfl, by decide, rfl, rfl⟩
  refine ⟨s, hrun, hsteps, fun labels t hlater hcount => ?_⟩
  have hall := no_starvation (by decide) (Machine.reachable_of_run hrun) (hpushed ▸ List.mem_singleton_self _)
  have hworker : .newOrder ((exampleRequest "A" .newOrder).message 1).order ∈ s.tasksOf 0 := by
    rw [htask]
    exact List.mem_cons_of_mem _ (List.mem_singleton_self _)
  exact (hall.2.2 hworker).2 labels t hlater (hsteps.trans_le hcount)

/-- In every infinite execution that is fair to the dispatcher and to the workers, an order that has been pushed is rejected
or executed at some time. -/
theorem served_of_fair (hsymbols : symbols ≠ []) (e : (pipeline symbols).Execution)
    (hstart : (pipeline symbols).Reachable (e.state 0))
    (hfair : ∀ thread, e.FairTo fun label => threadOf label = some thread) {n : ℕ} (horder : order ∈ orders (e.state n).pushed) :
    ∃ m, n ≤ m ∧ (rejectedMessage order ∈ (e.state m).engine.outgoingMessages ∨
      acceptedMessage order ∈ (e.state m).engine.outgoingMessages ∧ .newOrder order ∈ (e.state m).executed) := by
  have hreachable : ∀ m, (pipeline symbols).Reachable (e.state m) := fun m =>
    Machine.Execution.invariant (fun _ _ _ hs hnext => hs.step trivial hnext) hstart (Nat.zero_le m)
  have henabled : ∀ s, ((pipeline symbols).Reachable s ∧ order ∈ orders s.pushed) → ¬s.Dispatched symbols order →
      ∃ label, decide (threadOf label = some .dispatcher) = true ∧ ((pipeline symbols).next label s).isSome = true := by
    intro s ⟨hs, _⟩ _
    obtain ⟨label, hlabel, hnext⟩ :=
      exists_dispatcher_step (consistent_of_reachable hs).routed (queueOf_lt hs hsymbols)
    exact ⟨label, decide_eq_true hlabel, hnext⟩
  obtain ⟨p, hp, hdispatched⟩ := Machine.Execution.eventually (hfair .dispatcher) (approaches_dispatched symbols order)
    henabled ⟨hreachable n, horder⟩
  rcases hdispatched with hrejected | ⟨haccepted, htask⟩
  · exact ⟨p, hp, Or.inl hrejected⟩
  · obtain ⟨m, hm, hexecuted⟩ := Machine.Execution.eventually (hfair (.worker (queueOf symbols order.symbol)))
      (approaches_executed symbols _ order) (fun s ⟨hs, hmem⟩ hnot => by
        obtain ⟨label, hlabel, hnext⟩ := exists_worker_step (consistent_of_reachable hs).routed
          (queueOf_lt hs hsymbols order.symbol) (List.ne_nil_of_mem (hmem.resolve_left hnot))
        exact ⟨label, decide_eq_true hlabel, hnext⟩) ⟨hreachable p, htask⟩
    have hmessages : acceptedMessage order ∈ (e.state m).engine.outgoingMessages :=
      Machine.Execution.invariant (I := fun u : Pipeline => acceptedMessage order ∈ u.engine.outgoingMessages)
        (fun _ _ _ hs hnext => (next_appends hnext).1.subset hs) haccepted hm
    exact ⟨m, hp.trans hm, Or.inr ⟨hmessages, hexecuted⟩⟩

/-- Where no worker has anything to do, no worker can take a step. -/
theorem next_eq_none_of_idle (hholding : ∀ q, s.holding q = none) (hworking : ∀ q, s.working q = [])
    (hqueues : ∀ q, s.engine.threadQueues q = []) {label : Label} (hlabel : threadOf label = some (.worker queueID)) :
    Pipeline.next label s = none := by
  cases label with
  | push | flush | dispatch | dispatcherOperation => cases hlabel
  | pop q => simp only [Pipeline.next, hholding, hworking, CentralOrderBook.tryPop, hqueues, Option.map_none]
  | execute q => simp only [Pipeline.next, hholding]
  | workerOperation q => simp only [Pipeline.next, hworking]

/-- The steps with an order, before the dispatcher only looks for messages. -/
def exampleSteps : List Label :=
  [.push (exampleRequest "A" .newOrder), .flush, .dispatch, .dispatcherOperation, .dispatcherOperation, .pop 0, .execute 0]

/-- An order is executed, and then the dispatcher looks for messages forever. -/
def exampleExecution : (pipeline ["A"]).Execution where
  state n := ((pipeline ["A"]).run (exampleSteps.take n) (pipeline ["A"]).start).getD (pipeline ["A"]).start
  label n := exampleSteps.getD n .flush
  step
    | 0 | 1 | 2 | 3 | 4 | 5 | 6 | 7 => rfl
    | _ + 8 => rfl

/-- An execution in which an order is pushed in the beginning. -/
theorem served_of_fair_example : ∃ m, rejectedMessage ((exampleRequest "A" .newOrder).message 0).order ∈
      (exampleExecution.state m).engine.outgoingMessages ∨
    acceptedMessage ((exampleRequest "A" .newOrder).message 0).order ∈ (exampleExecution.state m).engine.outgoingMessages ∧
      .newOrder ((exampleRequest "A" .newOrder).message 0).order ∈ (exampleExecution.state m).executed := by
  have hfair : ∀ thread, exampleExecution.FairTo fun label => threadOf label = some thread := by
    intro thread n henabled
    cases thread with
    | dispatcher => exact ⟨n + 8, Nat.le_add_right .., rfl⟩
    | worker queueID =>
      obtain ⟨label, hlabel, hnext⟩ := henabled (n + 8) (Nat.le_add_right ..)
      have hidle : ∀ q, (exampleExecution.state (n + 8)).holding q = none ∧ (exampleExecution.state (n + 8)).working q = [] ∧
          (exampleExecution.state (n + 8)).engine.threadQueues q = [] := by
        intro q
        cases q with
        | zero => exact ⟨rfl, rfl, rfl⟩
        | succ q => exact ⟨rfl, rfl, rfl⟩
      have hnone := next_eq_none_of_idle (fun q => (hidle q).1) (fun q => (hidle q).2.1) (fun q => (hidle q).2.2)
        (of_decide_eq_true hlabel)
      rw [show (pipeline ["A"]).next = Pipeline.next from rfl, hnone] at hnext
      cases hnext
  have hpushed : orders (exampleExecution.state 1).pushed = [((exampleRequest "A" .newOrder).message 0).order] := rfl
  obtain ⟨m, _, hserved⟩ := served_of_fair (by decide) exampleExecution .start hfair
    (hpushed ▸ List.mem_singleton_self _)
  exact ⟨m, hserved⟩

end Pipeline

end MatchingEngine
