import MatchingEngine.Pipeline
import MatchingEngine.BookReports

/-!
# What the threads have done to each book

Every book is the result of the tasks executed for its symbol, in the order of execution,
and their reports are what has been or will be enqueued for the symbol. This holds in any
interleaving, because all tasks of a symbol go through one queue to one worker.

The tasks on their way to a worker keep the order in which their messages were pushed,
except for rescheduled cancels. A property of tasks that these do not have therefore
selects, from the executed tasks and the tasks on their way, what it selects from the
pushed messages.
-/

namespace MatchingEngine

/-- Whether a message reports on a book; the others are the answers of `addOrder`. -/
def OutgoingMessageType.ofBook : OutgoingMessageType → Bool
  | .filled | .partiallyField | .canceled => true
  | .accepted | .rejected => false

/-- The messages on the book of a symbol. -/
def bookMessages (symbol : String) (messages : List OutgoingMessage) : List OutgoingMessage :=
  messages.filter fun message => message.type.ofBook && message.order.symbol == symbol

@[simp] theorem bookMessages_append (symbol : String) (messages more : List OutgoingMessage) :
    bookMessages symbol (messages ++ more) = bookMessages symbol messages ++ bookMessages symbol more :=
  List.filter_append ..

@[simp] theorem bookMessages_nil (symbol : String) : bookMessages symbol [] = [] := rfl

/-- Messages of another symbol are not selected. -/
theorem bookMessages_eq_nil {symbol : String} {messages : List OutgoingMessage}
    (h : ∀ message ∈ messages, message.type.ofBook = true → message.order.symbol ≠ symbol) :
    bookMessages symbol messages = [] := by
  refine List.filter_eq_nil_iff.mpr fun message hmessage hselected => ?_
  rw [Bool.and_eq_true, beq_iff_eq] at hselected
  exact h message hmessage hselected.1 hselected.2

/-- Messages on one book are all selected. -/
theorem bookMessages_eq_self {symbol : String} {messages : List OutgoingMessage}
    (h : ∀ message ∈ messages, message.type.ofBook = true ∧ message.order.symbol = symbol) :
    bookMessages symbol messages = messages := by
  refine List.filter_eq_self.mpr fun message hmessage => ?_
  rw [Bool.and_eq_true, beq_iff_eq]
  exact h message hmessage

/-- The tasks of a symbol, as they work on its book. -/
def symbolTasks (symbol : String) (tasks : List Task) : List BookTask :=
  (tasks.filter fun task => task.symbol == symbol).map Task.bookTask

@[simp] theorem symbolTasks_append (symbol : String) (tasks more : List Task) :
    symbolTasks symbol (tasks ++ more) = symbolTasks symbol tasks ++ symbolTasks symbol more := by
  rw [symbolTasks, List.filter_append, List.map_append]
  rfl

/-- A task works on the book of its symbol. -/
theorem symbolTasks_singleton (symbol : String) (task : Task) :
    symbolTasks symbol [task] = if task.symbol = symbol then [task.bookTask] else [] := by
  by_cases h : task.symbol = symbol <;> simp [symbolTasks, h]

/-- The new orders of a symbol's tasks are for that symbol, and come from new-order tasks. -/
theorem mem_newOrders_symbolTasks {symbol : String} {tasks : List Task} {order : Order} :
    order ∈ newOrders (symbolTasks symbol tasks) ↔ .newOrder order ∈ tasks ∧ order.symbol = symbol := by
  induction tasks with
  | nil => simp [symbolTasks]
  | cons task tasks ih =>
    rw [← List.singleton_append, symbolTasks_append, newOrders_append, List.mem_append, ih, symbolTasks_singleton,
      List.mem_append, List.mem_singleton]
    cases task with
    | newOrder other =>
      rw [Task.newOrder.injEq]
      by_cases h : (Task.newOrder other).symbol = symbol
      · rw [if_pos h, Task.bookTask, newOrders_newOrder, newOrders_nil, List.mem_singleton]
        constructor
        · rintro (rfl | ⟨hmem, hsymbol⟩)
          · exact ⟨Or.inl rfl, h⟩
          · exact ⟨Or.inr hmem, hsymbol⟩
        · rintro ⟨heq | hmem, hsymbol⟩
          · exact Or.inl heq
          · exact Or.inr ⟨hmem, hsymbol⟩
      · rw [if_neg h, newOrders_nil]
        constructor
        · rintro (hnil | ⟨hmem, hsymbol⟩)
          · exact absurd hnil List.not_mem_nil
          · exact ⟨Or.inr hmem, hsymbol⟩
        · rintro ⟨rfl | hmem, hsymbol⟩
          · exact absurd hsymbol h
          · exact Or.inr ⟨hmem, hsymbol⟩
    | cancelOrder other id =>
      have hnone : newOrders (if (Task.cancelOrder other id).symbol = symbol then
          [(Task.cancelOrder other id).bookTask] else []) = [] := by
        split <;> rfl
      rw [hnone]
      simp

namespace OrderBook

/-- Reports of a task are reports on a book. -/
theorem execute_ofBook (book : OrderBook) (task : BookTask) :
    ∀ message ∈ (book.execute task).2, message.type.ofBook = true := by
  intro message hmessage
  cases task with
  | newOrder order =>
    obtain ⟨copy, _, rfl⟩ := List.mem_map.mp hmessage
    rw [fillMessage]
    split <;> rfl
  | cancelOrder owner id side =>
    rw [execute] at hmessage
    cases hcancel : book.taskCancelOrder owner id side with
    | none => simp [hcancel] at hmessage
    | some result =>
      simp only [hcancel, List.mem_singleton] at hmessage
      simp only [taskCancelOrder, Option.bind_eq_bind, Option.bind_eq_some_iff] at hcancel
      obtain ⟨_, _, _, _, hresult⟩ := hcancel
      rw [hmessage, ← Option.some.inj hresult]
      rfl

end OrderBook

namespace Pipeline

/-- The tasks executed for a symbol, in the order of execution. -/
def log (s : Pipeline) (symbol : String) : List BookTask := symbolTasks symbol s.executed

/-- The queue of a symbol. -/
def queueOf (symbols : List String) (symbol : String) : ℕ := (CentralOrderBook.initialise symbols).queueIDOf symbol

variable {symbols : List String} {s t : Pipeline}

/-- The dictionaries keep their queue IDs and the books of the configured symbols. -/
structure Static (symbols : List String) (s : Pipeline) : Prop where
  queueIDs : s.engine.queueIDOf = queueOf symbols
  books : ∀ symbol ∈ symbols, symbol ∈ s.engine.orderBookDictionary

/-- Before its queue operations, what the dispatcher does changes no queue. -/
theorem dispatchWork_sameQueues (c : CentralOrderBook) (message : IncomingMessage) :
    CentralOrderBook.SameQueues c (dispatchWork c message).1 := by
  unfold dispatchWork
  split
  · exact c.addOrderWork_sameQueues _
  · exact c.cancelOrderWork_sameQueues _ _

/-- What the dispatcher does changes no book. -/
@[simp] theorem dispatchWork_orderBookDictionary (c : CentralOrderBook) (message : IncomingMessage) :
    (dispatchWork c message).1.orderBookDictionary = c.orderBookDictionary := by
  unfold dispatchWork
  split
  · unfold CentralOrderBook.addOrderWork
    split <;> rfl
  · rfl

/-- Books are never removed. -/
theorem taskWork_mem (c : CentralOrderBook) (task : Task) {symbol : String} (h : symbol ∈ c.orderBookDictionary) :
    symbol ∈ (c.taskWork task).1.orderBookDictionary := by
  cases task with
  | newOrder order => exact (Dictionary.mem_assign ..).mpr (Or.inr h)
  | cancelOrder order id =>
    simp only [CentralOrderBook.taskWork, CentralOrderBook.taskCancelOrderWork]
    split
    · exact (Dictionary.mem_assign ..).mpr (Or.inr h)
    · exact (Dictionary.mem_insertNew ..).mpr (Or.inr h)

/-- Every step keeps the queue IDs and the books. -/
theorem Static.next (h : s.Static symbols) {label : Label} (hnext : next label s = some t) : t.Static symbols := by
  obtain ⟨_, _, rfl⟩ | ⟨_, _, _, rfl⟩ | ⟨message, _, _, _, _, rfl⟩ | ⟨_, _, _, _, rfl⟩ | ⟨_, _, _, _, _, _, _, rfl⟩ |
    ⟨_, task, _, _, rfl⟩ | ⟨_, _, _, _, _, rfl⟩ := next_cases hnext
  · exact ⟨h.queueIDs, h.books⟩
  · exact ⟨h.queueIDs, h.books⟩
  · refine ⟨(funext (dispatchWork_sameQueues s.engine message).queueIDOf).trans h.queueIDs, ?_⟩
    rw [dispatchWork_orderBookDictionary]
    exact h.books
  · exact ⟨h.queueIDs, h.books⟩
  · exact ⟨h.queueIDs, h.books⟩
  · exact ⟨(funext (s.engine.taskWork_sameQueues task).queueIDOf).trans h.queueIDs,
      fun symbol hsymbol => taskWork_mem _ _ (h.books symbol hsymbol)⟩
  · exact ⟨h.queueIDs, h.books⟩

/-- Every task is with the thread of its queue, and every task that a worker submits again is a
cancel that was executed before. -/
structure Routed (symbols : List String) (s : Pipeline) : Prop extends Static symbols s where
  queues : ∀ q, ∀ task ∈ s.engine.threadQueues q, queueOf symbols task.symbol = q
  holding : ∀ q task, s.holding q = some task → queueOf symbols task.symbol = q ∧ s.working q = []
  working : ∀ q task id, .submitTask task id ∈ s.working q →
    id = q ∧ queueOf symbols task.symbol = q ∧ task ∈ s.executed ∧ task.isNewOrder = false
  dispatching : ∀ task id, .submitTask task id ∈ s.dispatching → id = queueOf symbols task.symbol

/-- The dispatcher submits the task of the message, unless it rejects an order, to the queue of its symbol. -/
theorem mem_dispatchWork {c : CentralOrderBook} {message : IncomingMessage} {task : Task} {id : ℕ}
    (h : .submitTask task id ∈ (dispatchWork c message).2) : task = message.task ∧ id = c.queueIDOf task.symbol := by
  unfold dispatchWork at h
  unfold IncomingMessage.task
  cases htype : message.type with
  | newOrder =>
    simp only [htype, CentralOrderBook.addOrderWork] at h
    split at h
    · simp only [List.mem_cons, QueueOperation.submitTask.injEq, List.not_mem_nil, or_false, reduceCtorEq,
        false_or] at h
      obtain ⟨rfl, rfl⟩ := h
      exact ⟨rfl, rfl⟩
    · simp [CentralOrderBook.rejectOrderWork] at h
  | cancelOrder =>
    simp only [htype, CentralOrderBook.cancelOrderWork, List.mem_singleton, QueueOperation.submitTask.injEq] at h
    obtain ⟨rfl, rfl⟩ := h
    exact ⟨rfl, rfl⟩

/-- A task submits at most itself, if it is an unmatched cancel, to the queue of its symbol. -/
theorem mem_taskWork {c : CentralOrderBook} {task other : Task} {id : ℕ}
    (h : .submitTask other id ∈ (c.taskWork task).2) :
    other = task ∧ id = c.queueIDOf task.symbol ∧ task.isNewOrder = false := by
  rw [CentralOrderBook.taskWork_operations] at h
  rcases List.mem_append.mp h with h | h
  · simp at h
  · split at h
    · rename_i hunmatched
      rw [List.mem_singleton, QueueOperation.submitTask.injEq] at h
      exact ⟨h.1, h.2, CentralOrderBook.unmatched_isNewOrder hunmatched⟩
    · simp at h

/-- A queue after an operation holds its old tasks and what the operation submits to it. -/
theorem mem_afterOperations {c : CentralOrderBook} {operation : QueueOperation} {q : ℕ} {task : Task}
    (h : task ∈ (c.afterOperations [operation]).threadQueues q) :
    task ∈ c.threadQueues q ∨ operation = .submitTask task q := by
  rw [CentralOrderBook.afterOperations_threadQueues, List.mem_append, mem_submitted, List.mem_singleton] at h
  exact h.imp_right Eq.symm

/-- Every step keeps the tasks with the threads of their queues. -/
theorem Routed.next (h : s.Routed symbols) {label : Label} (hnext : Pipeline.next label s = some t) :
    t.Routed symbols := by
  have hstatic := h.toStatic.next hnext
  obtain ⟨_, _, rfl⟩ | ⟨_, _, _, rfl⟩ | ⟨message, _, _, _, _, rfl⟩ | ⟨operation, _, _, hdispatching, rfl⟩ |
    ⟨queueID, task, rest, _, _, hworking, hqueue, rfl⟩ | ⟨queueID, task, _, hholding, rfl⟩ |
    ⟨queueID, operation, operations, _, hworking, rfl⟩ := next_cases hnext
  · exact { hstatic with queues := h.queues, holding := h.holding, working := h.working, dispatching := h.dispatching }
  · exact { hstatic with queues := h.queues, holding := h.holding, working := h.working, dispatching := h.dispatching }
  · refine { hstatic with queues := ?_, holding := h.holding, working := h.working, dispatching := ?_ }
    · rw [(dispatchWork_sameQueues s.engine message).threadQueues]
      exact h.queues
    · intro task id hmem
      rw [(mem_dispatchWork hmem).2, h.queueIDs]
  · refine { hstatic with queues := ?_, holding := h.holding, working := h.working, dispatching := ?_ }
    · intro q task htask
      rcases mem_afterOperations htask with htask | rfl
      · exact h.queues q task htask
      · exact (h.dispatching task q (hdispatching ▸ List.mem_cons_self ..)).symm
    · exact fun task id hmem => h.dispatching task id (hdispatching ▸ List.mem_cons_of_mem _ hmem)
  · refine { hstatic with queues := ?_, holding := ?_, working := h.working, dispatching := h.dispatching }
    · exact fun q other hother => h.queues q other (s.engine.mem_of_mem_withQueue hqueue hother)
    · intro q other hother
      by_cases hq : q = queueID
      · subst hq
        simp only [Function.update_self, Option.some.injEq] at hother
        exact ⟨h.queues q other (hqueue ▸ hother ▸ List.mem_cons_self ..), hworking⟩
      · simp only [Function.update_of_ne hq] at hother
        exact h.holding q other hother
  · obtain ⟨hid, _⟩ := h.holding queueID task hholding
    refine { hstatic with queues := ?_, holding := ?_, working := ?_, dispatching := h.dispatching }
    · rw [(s.engine.taskWork_sameQueues task).threadQueues]
      exact h.queues
    · intro q other hother
      by_cases hq : q = queueID
      · subst hq
        simp [Function.update_self] at hother
      · simp only [Function.update_of_ne hq] at hother ⊢
        exact h.holding q other hother
    · intro q other id hmem
      by_cases hq : q = queueID
      · subst hq
        simp only [Function.update_self] at hmem
        obtain ⟨rfl, hother, hcancel⟩ := mem_taskWork hmem
        rw [h.queueIDs, hid] at hother
        exact ⟨hother, hid, List.mem_append_right _ (List.mem_singleton_self _), hcancel⟩
      · simp only [Function.update_of_ne hq] at hmem
        obtain ⟨hq', hsymbol, hexecuted, hcancel⟩ := h.working q other id hmem
        exact ⟨hq', hsymbol, List.mem_append_left _ hexecuted, hcancel⟩
  · refine { hstatic with queues := ?_, holding := ?_, working := ?_, dispatching := h.dispatching }
    · intro q task htask
      rcases mem_afterOperations htask with htask | rfl
      · exact h.queues q task htask
      · obtain ⟨hq, hsymbol, _⟩ := h.working queueID task q (hworking ▸ List.mem_cons_self ..)
        exact hsymbol.trans hq.symm
    · intro q other hother
      obtain ⟨hsymbol, hidle⟩ := h.holding q other hother
      have hq : q ≠ queueID := by
        rintro rfl
        simp [hidle] at hworking
      simp only [Function.update_of_ne hq]
      exact ⟨hsymbol, hidle⟩
    · intro q task id hmem
      by_cases hq : q = queueID
      · subst hq
        simp only [Function.update_self] at hmem
        exact h.working q task id (hworking ▸ List.mem_cons_of_mem _ hmem)
      · simp only [Function.update_of_ne hq] at hmem
        exact h.working q task id hmem

/-- The tasks on their way to the worker of a queue, and all messages not yet dispatched. -/
def upstream (s : Pipeline) (queueID : ℕ) : List Task :=
  (s.holding queueID).toList ++ s.engine.threadQueues queueID ++ submitted queueID s.dispatching ++
    (s.flushed ++ s.incoming).map IncomingMessage.task

/-- The tasks that a step executes. -/
def ran (s : Pipeline) : Label → List Task
  | .execute queueID => (s.holding queueID).toList
  | _ => []

/-- The messages that a step pushes. -/
def added (s : Pipeline) : Label → List IncomingMessage
  | .push request => [request.message s.pushed.length]
  | _ => []

/-- The records grow by what a step executes and pushes. -/
theorem next_records {label : Label} (hnext : Pipeline.next label s = some t) :
    t.executed = s.executed ++ s.ran label ∧ t.pushed = s.pushed ++ s.added label := by
  obtain ⟨_, rfl, rfl⟩ | ⟨rfl, _, _, rfl⟩ | ⟨_, _, rfl, _, _, rfl⟩ | ⟨_, _, rfl, _, rfl⟩ |
    ⟨_, _, _, rfl, _, _, _, rfl⟩ | ⟨_, _, rfl, hholding, rfl⟩ | ⟨_, _, _, rfl, _, rfl⟩ := next_cases hnext
  all_goals simp [ran, added]
  rw [hholding]
  rfl

/-- A submission of a selected task to its queue is selected there. -/
theorem filter_submitted {keep : Task → Bool} {task : Task} {id q : ℕ} (h : keep task = true → id = q) :
    (submitted q [.submitTask task id]).filter keep = [task].filter keep := by
  rw [submitted_submitTask, submitted_nil]
  by_cases hkeep : keep task = true
  · rw [if_pos (h hkeep)]
  · split <;> simp [hkeep]

/-- What the dispatcher submits for a message is its task, or nothing for a symbol without a book. -/
theorem submitted_dispatchWork (h : s.Static symbols) (message : IncomingMessage) {symbol : String} {keep : Task → Bool}
    (hkeep : ∀ task, keep task = true → task.symbol = symbol) :
    ((submitted (queueOf symbols symbol) (dispatchWork s.engine message).2).filter keep).Sublist
        ([message.task].filter keep) ∧
      (symbol ∈ symbols → (submitted (queueOf symbols symbol) (dispatchWork s.engine message).2).filter keep =
        [message.task].filter keep) := by
  have hid : ∀ task, keep task = true → s.engine.queueIDOf task.symbol = queueOf symbols symbol := by
    intro task htask
    rw [h.queueIDs, hkeep task htask]
  cases htype : message.type with
  | newOrder =>
    have htask : message.task = .newOrder message.order := by simp only [IncomingMessage.task, htype]
    simp only [dispatchWork, htype, CentralOrderBook.addOrderWork, htask]
    split
    · have heq := filter_submitted (hid (.newOrder message.order))
      rw [submitted_enqueue]
      exact ⟨heq ▸ List.Sublist.refl _, fun _ => heq⟩
    · rename_i hexists
      refine ⟨List.nil_sublist _, fun hsymbol => ?_⟩
      have hnot : ¬ keep (.newOrder message.order) = true := by
        intro hselected
        have hbook : message.order.symbol = symbol := hkeep _ hselected
        exact hexists ((CentralOrderBook.doesOrderBookExist_iff _).mpr (hbook ▸ h.books symbol hsymbol))
      simp [hnot, CentralOrderBook.rejectOrderWork]
  | cancelOrder =>
    have htask : message.task = .cancelOrder message.order message.origClientOrderID := by
      simp only [IncomingMessage.task, htype]
    simp only [dispatchWork, htype, CentralOrderBook.cancelOrderWork, htask]
    have heq := filter_submitted (hid (.cancelOrder message.order message.origClientOrderID))
    exact ⟨heq ▸ List.Sublist.refl _, fun _ => heq⟩

/-- What is passed on unchanged is passed on in its order. -/
theorem passedOn_of_eq {α : Type*} {p : Prop} {l l' : List α} (h : l = l') : l.Sublist l' ∧ (p → l = l') :=
  ⟨h ▸ List.Sublist.refl _, fun _ => h⟩

/-- A step passes the selected tasks on in their order, if rescheduled cancels are not selected. -/
theorem upstream_step (h : s.Routed symbols) {symbol : String} {keep : Task → Bool}
    (hkeep : ∀ task, keep task = true → task.symbol = symbol)
    (hstale : ∀ q task id, .submitTask task id ∈ s.working q → keep task = false) {label : Label}
    (hnext : Pipeline.next label s = some t) :
    ((s.ran label).filter keep ++ (t.upstream (queueOf symbols symbol)).filter keep).Sublist
        ((s.upstream (queueOf symbols symbol)).filter keep ++ ((s.added label).map IncomingMessage.task).filter keep) ∧
      (symbol ∈ symbols → (s.ran label).filter keep ++ (t.upstream (queueOf symbols symbol)).filter keep =
        (s.upstream (queueOf symbols symbol)).filter keep ++
          ((s.added label).map IncomingMessage.task).filter keep) := by
  obtain ⟨request, rfl, rfl⟩ | ⟨rfl, hflushed, _, rfl⟩ | ⟨message, rest, rfl, hflushed, hdispatching, rfl⟩ |
    ⟨operation, operations, rfl, hdispatching, rfl⟩ | ⟨queueID, task, rest, rfl, hholding, _, hqueue, rfl⟩ |
    ⟨queueID, task, rfl, hholding, rfl⟩ | ⟨queueID, operation, operations, rfl, hworking, rfl⟩ := next_cases hnext
  · exact passedOn_of_eq (by simp [ran, added, upstream, List.filter_append])
  · exact passedOn_of_eq (by simp [ran, added, upstream, hflushed])
  · obtain ⟨hsub, heq⟩ := submitted_dispatchWork h.toStatic message hkeep
    have hqueues := (dispatchWork_sameQueues s.engine message).threadQueues
    have hrest : s.flushed ++ s.incoming = [message] ++ (rest ++ s.incoming) := by rw [hflushed]; rfl
    simp only [ran, added, upstream, hqueues, hdispatching, hrest, List.filter_append, List.map_append,
      submitted_nil, List.filter_nil, List.map_nil, List.append_nil, List.nil_append, List.append_assoc]
    refine ⟨(List.Sublist.refl _).append ((List.Sublist.refl _).append (hsub.append (List.Sublist.refl _))), ?_⟩
    intro hsymbol
    rw [heq hsymbol]
    rfl
  · refine passedOn_of_eq ?_
    have hsplit : submitted (queueOf symbols symbol) s.dispatching =
        submitted (queueOf symbols symbol) [operation] ++ submitted (queueOf symbols symbol) operations := by
      rw [hdispatching, ← submitted_append]
      rfl
    simp [ran, added, upstream, hsplit]
  · refine passedOn_of_eq ?_
    by_cases hq : queueOf symbols symbol = queueID
    · simp [ran, added, upstream, hq, hholding, hqueue]
    · simp [ran, added, upstream, hq]
  · refine passedOn_of_eq ?_
    have hqueues := (s.engine.taskWork_sameQueues task).threadQueues
    by_cases hq : queueOf symbols symbol = queueID
    · rw [← List.filter_append]
      simp [ran, added, upstream, hq, hholding, hqueues]
    · -- The task of another queue is not selected.
      have hnot : ¬ keep task = true := by
        intro hselected
        have hroute := (h.holding queueID task hholding).1
        rw [hkeep task hselected] at hroute
        exact hq hroute
      simp [ran, added, upstream, hq, hholding, hqueues, hnot]
  · refine passedOn_of_eq ?_
    have hnone : (submitted (queueOf symbols symbol) [operation]).filter keep = [] := by
      refine List.filter_eq_nil_iff.mpr fun task htask => ?_
      have hmem := List.mem_singleton.mp ((mem_submitted _ _).mp htask)
      rw [hstale queueID task _ (by rw [hworking, ← hmem]; exact List.mem_cons_self ..)]
      exact Bool.false_ne_true
    simp [ran, added, upstream, hnone]

/-- The books are the results of the executed tasks, and the messages on a book are their reports. -/
structure Executed (symbols : List String) (s : Pipeline) : Prop where
  books : ∀ symbol, s.engine.bookOf symbol = (OrderBook.empty.executeAll (s.log symbol)).1
  reports : ∀ symbol, bookMessages symbol s.engine.outgoingMessages ++
    bookMessages symbol (enqueued (s.working (queueOf symbols symbol))) =
      (OrderBook.empty.executeAll (s.log symbol)).2
  working : ∀ q, ∀ message ∈ enqueued (s.working q),
    message.type.ofBook = true ∧ queueOf symbols message.order.symbol = q
  dispatching : ∀ message ∈ enqueued s.dispatching, message.type.ofBook = false

/-- The dispatcher only enqueues answers. -/
theorem dispatchWork_answers (c : CentralOrderBook) (message : IncomingMessage) :
    ∀ answer ∈ enqueued (dispatchWork c message).2, answer.type.ofBook = false := by
  intro answer hanswer
  unfold dispatchWork at hanswer
  split at hanswer
  · unfold CentralOrderBook.addOrderWork at hanswer
    split at hanswer <;>
      simp only [CentralOrderBook.rejectOrderWork, enqueued_enqueue, enqueued_submitTask, enqueued_nil,
        List.mem_singleton] at hanswer <;>
      rw [hanswer] <;> rfl
  · simp [CentralOrderBook.cancelOrderWork] at hanswer

/-- Reports of a symbol's tasks are on its book. -/
theorem symbol_of_mem_reports {symbol : String} {tasks : List Task} {message : OutgoingMessage}
    (h : message ∈ (OrderBook.empty.executeAll (symbolTasks symbol tasks)).2) : message.order.symbol = symbol := by
  obtain ⟨original, horiginal, hterms, _⟩ := (OrderBook.originates_executeAll _).2.2 message h
  rw [← hterms]
  exact (mem_newOrders_symbolTasks.mp horiginal).2

/-- The books and messages follow the execution of a task. -/
theorem Executed.execute (h : s.Executed symbols) (hrouted : s.Routed symbols) {queueID : ℕ} {task : Task}
    (hholding : s.holding queueID = some task) :
    Executed symbols { s with
      engine := (s.engine.taskWork task).1
      holding := Function.update s.holding queueID none
      working := Function.update s.working queueID (s.engine.taskWork task).2
      executed := s.executed ++ [task] } := by
  obtain ⟨hroute, hidle⟩ := hrouted.holding queueID task hholding
  have hreports := s.engine.enqueued_taskWork task
  have hconcat : ∀ symbol, OrderBook.empty.executeAll (symbolTasks symbol (s.executed ++ [task])) =
      if task.symbol = symbol then
        (((s.engine.bookOf symbol).execute task.bookTask).1,
          (OrderBook.empty.executeAll (s.log symbol)).2 ++ ((s.engine.bookOf symbol).execute task.bookTask).2)
      else OrderBook.empty.executeAll (s.log symbol) := by
    intro symbol
    rw [symbolTasks_append, symbolTasks_singleton]
    split
    · rw [OrderBook.executeAll_concat, h.books symbol]
      rfl
    · rw [List.append_nil]
      rfl
  have hsymbol : ∀ message ∈ enqueued (s.engine.taskWork task).2,
      message.type.ofBook = true ∧ message.order.symbol = task.symbol := by
    intro message hmessage
    rw [hreports] at hmessage
    refine ⟨OrderBook.execute_ofBook _ _ message hmessage, ?_⟩
    have hmem : message ∈ (OrderBook.empty.executeAll (symbolTasks task.symbol (s.executed ++ [task]))).2 := by
      rw [hconcat, if_pos rfl]
      exact List.mem_append_right _ hmessage
    exact symbol_of_mem_reports hmem
  refine ⟨fun symbol => ?_, fun symbol => ?_, fun q message hmessage => ?_, h.dispatching⟩
  · rw [log, hconcat, CentralOrderBook.taskWork_bookOf]
    by_cases heq : symbol = task.symbol
    · rw [if_pos heq, if_pos heq.symm]
    · rw [if_neg heq, if_neg (Ne.symm heq), h.books symbol]
  · rw [log, hconcat]
    have hold := h.reports symbol
    simp only [(s.engine.taskWork_sameQueues task).outgoingMessages]
    by_cases heq : task.symbol = symbol
    · subst heq
      rw [hroute, hidle, enqueued_nil, bookMessages_nil, List.append_nil] at hold
      rw [if_pos rfl, hroute, Function.update_self, hold, bookMessages_eq_self hsymbol, hreports]
    · rw [if_neg heq, ← hold]
      by_cases hq : queueOf symbols symbol = queueID
      · have hnone : bookMessages symbol (enqueued (s.engine.taskWork task).2) = [] :=
          bookMessages_eq_nil fun message hmessage _ => (hsymbol message hmessage).2 ▸ heq
        rw [hq, Function.update_self, hidle, enqueued_nil, bookMessages_nil, hnone]
      · rw [Function.update_of_ne hq]
  · by_cases hq : q = queueID
    · subst hq
      simp only [Function.update_self] at hmessage
      exact ⟨(hsymbol message hmessage).1, by rw [(hsymbol message hmessage).2, hroute]⟩
    · simp only [Function.update_of_ne hq] at hmessage
      exact h.working q message hmessage

/-- An enqueued report moves from the worker to the outgoing messages. -/
theorem Executed.report (h : s.Executed symbols) {queueID : ℕ} {operation : QueueOperation}
    {operations : List QueueOperation} (hworking : s.working queueID = operation :: operations) :
    Executed symbols { s with
      engine := s.engine.afterOperations [operation]
      working := Function.update s.working queueID operations } := by
  have hsplit : enqueued (s.working queueID) = enqueued [operation] ++ enqueued operations := by
    rw [hworking, ← enqueued_append]
    rfl
  refine ⟨h.books, fun symbol => ?_, fun q message hmessage => ?_, h.dispatching⟩
  · refine Eq.trans ?_ (h.reports symbol)
    simp only [CentralOrderBook.afterOperations_outgoingMessages, bookMessages_append]
    by_cases hq : queueOf symbols symbol = queueID
    · rw [hq, Function.update_self, hsplit, bookMessages_append, List.append_assoc]
    · have hnone : bookMessages symbol (enqueued [operation]) = [] := by
        refine bookMessages_eq_nil ?_
        rintro message hmessage _ rfl
        exact hq (h.working queueID message (hsplit ▸ List.mem_append_left _ hmessage)).2
      rw [Function.update_of_ne hq, hnone, List.append_nil]
  · by_cases hq : q = queueID
    · subst hq
      simp only [Function.update_self] at hmessage
      exact h.working q message (hsplit ▸ List.mem_append_right _ hmessage)
    · simp only [Function.update_of_ne hq] at hmessage
      exact h.working q message hmessage

/-- Every step keeps the books and messages the results of the executed tasks. -/
theorem Executed.next (h : s.Executed symbols) (hrouted : s.Routed symbols) {label : Label}
    (hnext : Pipeline.next label s = some t) : t.Executed symbols := by
  obtain ⟨_, _, rfl⟩ | ⟨_, _, _, rfl⟩ | ⟨message, _, _, _, _, rfl⟩ | ⟨operation, operations, _, hdispatching, rfl⟩ |
    ⟨_, _, _, _, _, _, _, rfl⟩ | ⟨_, _, _, hholding, rfl⟩ | ⟨_, _, _, _, hworking, rfl⟩ := next_cases hnext
  · exact ⟨h.books, h.reports, h.working, h.dispatching⟩
  · exact ⟨h.books, h.reports, h.working, h.dispatching⟩
  · refine ⟨fun symbol => ?_, fun symbol => ?_, h.working, dispatchWork_answers _ _⟩
    · rw [CentralOrderBook.bookOf, dispatchWork_orderBookDictionary]
      exact h.books symbol
    · rw [(dispatchWork_sameQueues s.engine message).outgoingMessages]
      exact h.reports symbol
  · have hsplit : enqueued s.dispatching = enqueued [operation] ++ enqueued operations := by
      rw [hdispatching, ← enqueued_append]
      rfl
    refine ⟨h.books, fun symbol => ?_, h.working, fun message hmessage =>
      h.dispatching message (hsplit ▸ List.mem_append_right _ hmessage)⟩
    have hnone : bookMessages symbol (enqueued [operation]) = [] := by
      refine bookMessages_eq_nil fun message hmessage htype => ?_
      rw [h.dispatching message (hsplit ▸ List.mem_append_left _ hmessage)] at htype
      cases htype
    refine Eq.trans ?_ (h.reports symbol)
    rw [CentralOrderBook.afterOperations_outgoingMessages, bookMessages_append, hnone, List.append_nil]
  · exact ⟨h.books, h.reports, h.working, h.dispatching⟩
  · exact h.execute hrouted hholding
  · exact h.report hworking

/-- The new-order tasks of a symbol. -/
def newOrderOf (symbol : String) (task : Task) : Bool := task.isNewOrder && task.symbol == symbol

theorem newOrderOf_iff {symbol : String} {task : Task} :
    newOrderOf symbol task = true ↔ task.isNewOrder = true ∧ task.symbol = symbol := by
  rw [newOrderOf, Bool.and_eq_true, beq_iff_eq]

/-- Every pushed message is stamped with its position. -/
def StampedMessages (pushed : List IncomingMessage) : Prop :=
  ∀ (i : ℕ) (message : IncomingMessage), pushed[i]? = some message →
    message.order = .ofTerms message.order.toOrderTerms i

/-- Pushing extends the stamped messages by a message stamped with its position. -/
theorem StampedMessages.push {pushed : List IncomingMessage} (h : StampedMessages pushed) (request : Request) :
    StampedMessages (pushed ++ [request.message pushed.length]) := by
  intro i message hmessage
  rw [List.getElem?_append] at hmessage
  split at hmessage
  · exact h i message hmessage
  · rename_i hlarge
    rw [List.getElem?_singleton] at hmessage
    split at hmessage
    · have hi : i = pushed.length := by omega
      subst hi
      obtain rfl := Option.some.inj hmessage
      rfl
    · cases hmessage

/-- The invariant of the pipeline. The new orders of a symbol that were executed or are on their way
are the pushed ones in their order, up to rejections. -/
structure Consistent (symbols : List String) (s : Pipeline) : Prop where
  routed : s.Routed symbols
  executed : s.Executed symbols
  stamped : StampedMessages s.pushed
  newOrders : ∀ symbol,
    ((s.executed.filter (newOrderOf symbol) ++ (s.upstream (queueOf symbols symbol)).filter (newOrderOf symbol)).Sublist
      ((s.pushed.map IncomingMessage.task).filter (newOrderOf symbol))) ∧
    (symbol ∈ symbols →
      s.executed.filter (newOrderOf symbol) ++ (s.upstream (queueOf symbols symbol)).filter (newOrderOf symbol) =
        (s.pushed.map IncomingMessage.task).filter (newOrderOf symbol))

/-- Every step keeps the invariant. -/
theorem Consistent.next (h : s.Consistent symbols) {label : Label} (hnext : Pipeline.next label s = some t) :
    t.Consistent symbols := by
  obtain ⟨hexecuted, hpushed⟩ := next_records hnext
  refine ⟨h.routed.next hnext, h.executed.next h.routed hnext, ?_, fun symbol => ?_⟩
  · rw [hpushed]
    cases label with
    | push request => exact h.stamped.push request
    | flush | dispatch | dispatcherOperation | pop | execute | workerOperation =>
      simpa [added] using h.stamped
  · obtain ⟨hsub, heq⟩ := upstream_step h.routed (fun task htask => (newOrderOf_iff.mp htask).2)
      (fun q task id hmem => by
        have hcancel := (h.routed.working q task id hmem).2.2.2
        rw [newOrderOf, hcancel, Bool.false_and]) hnext
    obtain ⟨hsubOld, heqOld⟩ := h.newOrders symbol
    simp only [hexecuted, hpushed, List.filter_append, List.map_append, List.append_assoc]
    constructor
    · refine ((List.Sublist.refl _).append hsub).trans ?_
      rw [← List.append_assoc]
      exact hsubOld.append (List.Sublist.refl _)
    · intro hsymbol
      rw [heq hsymbol, ← heqOld hsymbol, List.append_assoc]

/-- The invariant holds initially. -/
theorem consistent_initial (symbols : List String) : (initial symbols).Consistent symbols where
  routed := {
    queueIDs := rfl
    books := fun symbol hsymbol => (CentralOrderBook.mem_initialise_orderBookDictionary symbols symbol).mpr hsymbol
    queues := fun _ _ htask => absurd htask List.not_mem_nil
    holding := fun _ _ hholding => by cases hholding
    working := fun _ _ _ hmem => absurd hmem List.not_mem_nil
    dispatching := fun _ _ hmem => absurd hmem List.not_mem_nil }
  executed := {
    books := fun symbol => CentralOrderBook.initialise_bookOf symbols symbol
    reports := fun _ => rfl
    working := fun _ _ hmem => absurd hmem List.not_mem_nil
    dispatching := fun _ hmem => absurd hmem List.not_mem_nil }
  stamped _ _ hmessage := by cases hmessage
  newOrders _ := passedOn_of_eq rfl

/-- The invariant holds in every state reached, whatever the requests. -/
theorem consistent_of_reachable {allowed : Label → Pipeline → Prop} (h : (pipeline symbols).ReachableBy allowed s) :
    s.Consistent symbols :=
  h.invariant (consistent_initial symbols) fun _ _ _ _ hs _ hnext => hs.next hnext

/-- The new orders in the log of a symbol are those of its executed new-order tasks. -/
theorem newOrders_symbolTasks (symbol : String) (tasks : List Task) :
    newOrders (symbolTasks symbol tasks) = (tasks.filter (newOrderOf symbol)).map Task.order := by
  induction tasks with
  | nil => rfl
  | cons task tasks ih =>
    rw [← List.singleton_append, symbolTasks_append, newOrders_append, ih, symbolTasks_singleton, List.filter_append,
      List.map_append]
    congr 1
    cases task with
    | newOrder order =>
      by_cases h : (Task.newOrder order).symbol = symbol <;>
        simp [h, newOrderOf, Task.isNewOrder, Task.bookTask, Task.order]
    | cancelOrder order id =>
      by_cases h : (Task.cancelOrder order id).symbol = symbol <;> simp [h, newOrderOf, Task.isNewOrder, Task.bookTask]

/-- The pushed messages are stamped with increasing numbers. -/
theorem StampedMessages.increasing {pushed : List IncomingMessage} (h : StampedMessages pushed) :
    (pushed.map IncomingMessage.task).Pairwise fun x y => x.order.serial < y.order.serial := by
  rw [List.pairwise_map, List.pairwise_iff_getElem]
  intro i j hi hj hij
  rw [IncomingMessage.task_order, IncomingMessage.task_order, h i _ (List.getElem?_eq_getElem hi), h j _ (List.getElem?_eq_getElem hj)]
  exact hij

/-- A pushed task constructed its order. -/
theorem StampedMessages.fresh {pushed : List IncomingMessage} (h : StampedMessages pushed) {task : Task}
    (htask : task ∈ pushed.map IncomingMessage.task) :
    task.order = .ofTerms task.order.toOrderTerms task.order.serial := by
  obtain ⟨message, hmem, rfl⟩ := List.mem_map.mp htask
  obtain ⟨i, hi, rfl⟩ := List.mem_iff_getElem.mp hmem
  rw [IncomingMessage.task_order, h i _ (List.getElem?_eq_getElem hi)]
  rfl

/-- The log of a symbol submits fresh orders with increasing numbers. -/
theorem Consistent.stamped_log (h : s.Consistent symbols) (symbol : String) : Stamped (s.log symbol) := by
  have hsub := (List.sublist_append_left _ _).trans (h.newOrders symbol).1
  constructor
  · intro order horder
    rw [log, newOrders_symbolTasks] at horder
    obtain ⟨task, htask, rfl⟩ := List.mem_map.mp horder
    exact h.stamped.fresh (List.mem_of_mem_filter (hsub.subset htask))
  · rw [log, newOrders_symbolTasks, List.pairwise_map]
    exact (h.stamped.increasing.filter _).sublist hsub

end Pipeline

end MatchingEngine
