import MatchingEngine.BookHistory
import MatchingEngine.Foundation.Dictionary
import MatchingEngine.Foundation.Machine

/-!
# The central order book

The dictionaries of books and queue IDs, the outgoing messages and the work queues of the
thread pool. Each function is split into its work on the dictionaries and books and the
list of the queue operations it then makes, in order, so that it can be run to its end or
one queue operation at a time.

Reading `m_orderBookDictionary[symbol]` or `m_queueIDDictionary[symbol]` inserts a missing
symbol, with an empty book or with queue ID 0. The work queues are unbounded lists here: a
push that finds its ring buffer full is one that has not happened yet. The outgoing
messages are all that were ever enqueued.
-/

namespace MatchingEngine

/-- A task for a worker: a member function bound to its arguments. -/
inductive Task
  | newOrder (order : Order)
  | cancelOrder (order : Order) (origClientOrderID : String)
deriving DecidableEq

namespace Task

/-- The order argument of a task. -/
def order : Task → Order
  | newOrder order => order
  | cancelOrder order _ => order

/-- The symbol a task works on. -/
def symbol (task : Task) : String := task.order.symbol

/-- What a task does to the book of its symbol. -/
def bookTask : Task → BookTask
  | newOrder order => .newOrder order
  | cancelOrder order origClientOrderID => .cancelOrder order.owner origClientOrderID order.side

/-- Whether a task submits a new order. -/
def isNewOrder : Task → Bool
  | newOrder _ => true
  | cancelOrder .. => false

end Task

/-- An operation on one of the queues shared by the threads. -/
inductive QueueOperation
  | enqueue (message : OutgoingMessage)
  | submitTask (task : Task) (queueID : ℕ)
deriving DecidableEq

/-- The state of the engine. -/
structure CentralOrderBook where
  orderBookDictionary : Dictionary String OrderBook
  queueIDDictionary : Dictionary String ℕ
  outgoingMessages : List OutgoingMessage
  threadQueues : ℕ → List Task
  queueCount : ℕ

namespace CentralOrderBook

/-- The book that an access to the dictionary refers to. -/
def bookOf (c : CentralOrderBook) (symbol : String) : OrderBook := c.orderBookDictionary.valueAt symbol .empty

/-- The queue ID that an access to the dictionary refers to. -/
def queueIDOf (c : CentralOrderBook) (symbol : String) : ℕ := c.queueIDDictionary.valueAt symbol 0

/-- One queue for each symbol in the list; of equal symbols the first determines the queue ID. -/
def initialise (symbols : List String) : CentralOrderBook where
  orderBookDictionary := symbols.foldl (fun d symbol => d.insertNew symbol .empty) ∅
  queueIDDictionary := symbols.zipIdx.foldl (fun d entry => d.insertNew entry.1 entry.2) ∅
  outgoingMessages := []
  threadQueues := fun _ => []
  queueCount := symbols.length

/-- Whether the symbol has a book. -/
def doesOrderBookExist (c : CentralOrderBook) (symbol : String) : Bool := (c.orderBookDictionary.lookup symbol).isSome

/-- Reject an order. -/
def rejectOrderWork (order : Order) (message : String) : List QueueOperation := [.enqueue ⟨order, .rejected, message⟩]

/-- Accept or reject an order: the dictionaries afterwards, the queue operations and the result. -/
def addOrderWork (c : CentralOrderBook) (order : Order) : CentralOrderBook × List QueueOperation × Bool :=
  if c.doesOrderBookExist order.symbol then
    let queueID := c.queueIDOf order.symbol
    let c := { c with queueIDDictionary := c.queueIDDictionary.insertNew order.symbol 0 }
    (c, [.enqueue ⟨order, .accepted, ""⟩, .submitTask (.newOrder order) queueID], true)
  else (c, rejectOrderWork order "Symbol not supported", false)

/-- Schedule a cancel. -/
def cancelOrderWork (c : CentralOrderBook) (order : Order) (origClientOrderID : String) :
    CentralOrderBook × List QueueOperation :=
  let queueID := c.queueIDOf order.symbol
  let c := { c with queueIDDictionary := c.queueIDDictionary.insertNew order.symbol 0 }
  (c, [.submitTask (.cancelOrder order origClientOrderID) queueID])

/-- Add an order to its book and match. -/
def taskNewOrderWork (c : CentralOrderBook) (order : Order) : CentralOrderBook × List QueueOperation :=
  let (book, messages) := (c.bookOf order.symbol).taskNewOrder order
  ({ c with orderBookDictionary := c.orderBookDictionary.assign order.symbol book }, messages.map .enqueue)

/-- Cancel an order that is found; schedule the cancel again if it is not. -/
def taskCancelOrderWork (c : CentralOrderBook) (order : Order) (origClientOrderID : String) :
    CentralOrderBook × List QueueOperation :=
  match (c.bookOf order.symbol).taskCancelOrder order.owner origClientOrderID order.side with
  | some (book, message) =>
    ({ c with orderBookDictionary := c.orderBookDictionary.assign order.symbol book }, [.enqueue message])
  | none =>
    let c := { c with orderBookDictionary := c.orderBookDictionary.insertNew order.symbol .empty }
    c.cancelOrderWork order origClientOrderID

/-- Call the member function of a task. -/
def taskWork (c : CentralOrderBook) : Task → CentralOrderBook × List QueueOperation
  | .newOrder order => c.taskNewOrderWork order
  | .cancelOrder order origClientOrderID => c.taskCancelOrderWork order origClientOrderID

/-- Push a task to the queue with the given index. -/
def submitTask (c : CentralOrderBook) (task : Task) (queueID : ℕ) : Except String CentralOrderBook :=
  if c.queueCount ≤ queueID then .error "Thread pool submit task , queue index is invalid"
  else .ok { c with threadQueues := Function.update c.threadQueues queueID (c.threadQueues queueID ++ [task]) }

/-- Make a queue operation. -/
def perform (c : CentralOrderBook) : QueueOperation → Except String CentralOrderBook
  | .enqueue message => .ok { c with outgoingMessages := c.outgoingMessages ++ [message] }
  | .submitTask task queueID => c.submitTask task queueID

/-- Make queue operations one after the other. -/
def performAll (c : CentralOrderBook) : List QueueOperation → Except String CentralOrderBook
  | [] => .ok c
  | operation :: operations =>
    match c.perform operation with
    | .ok c => c.performAll operations
    | .error message => .error message

/-- `addOrder` run to its end. -/
def addOrder (c : CentralOrderBook) (order : Order) : Except String (CentralOrderBook × Bool) :=
  let (c, operations, accepted) := c.addOrderWork order
  (c.performAll operations).map fun c => (c, accepted)

/-- `cancelOrder` run to its end. -/
def cancelOrder (c : CentralOrderBook) (order : Order) (origClientOrderID : String) : Except String CentralOrderBook :=
  let (c, operations) := c.cancelOrderWork order origClientOrderID
  c.performAll operations

/-- A task run to its end. -/
def runTask (c : CentralOrderBook) (task : Task) : Except String CentralOrderBook :=
  let (c, operations) := c.taskWork task
  c.performAll operations

/-- Pop the next task of a queue. -/
def tryPop (c : CentralOrderBook) (queueID : ℕ) : Option (Task × CentralOrderBook) :=
  match c.threadQueues queueID with
  | [] => none
  | task :: rest => some (task, { c with threadQueues := Function.update c.threadQueues queueID rest })

/-- An iteration of a worker that finds a task: pop it and execute it. -/
def work (c : CentralOrderBook) (queueID : ℕ) : Option (Except String CentralOrderBook) :=
  (c.tryPop queueID).map fun (task, c) => c.runTask task

/-- A step of the engine with functions and tasks executed one after another. -/
inductive Event
  | addOrder (order : Order)
  | cancelOrder (order : Order) (origClientOrderID : String)
  | work (queueID : ℕ)

/-- Perform an event; an exception ends the run. -/
def next : Event → CentralOrderBook → Option CentralOrderBook
  | .addOrder order, c => (c.addOrder order).toOption.map Prod.fst
  | .cancelOrder order origClientOrderID, c => (c.cancelOrder order origClientOrderID).toOption
  | .work queueID, c => (c.work queueID).bind Except.toOption

end CentralOrderBook

/-- The engine over its configured symbols, one function or task after another. -/
def engine (symbols : List String) : Machine CentralOrderBook CentralOrderBook.Event where
  start := .initialise symbols
  next := CentralOrderBook.next

namespace OrderBook

/-- The scan finds nothing exactly when no order of the side has the client's ID. -/
theorem find_eq_none_iff (book : OrderBook) (owner clientID : String) (side : OrderSide) :
    book.find owner clientID side = none ↔ ∀ order ∈ (book.orders side).values, order.hasClient owner clientID = false := by
  rw [find, List.findIdx?_eq_none_iff]

/-- A cancel task fails exactly when the scan finds nothing. -/
theorem taskCancelOrder_eq_none_iff (book : OrderBook) (owner origClientOrderID : String) (side : OrderSide) :
    book.taskCancelOrder owner origClientOrderID side = none ↔ book.find owner origClientOrderID side = none := by
  unfold taskCancelOrder
  cases hfind : book.find owner origClientOrderID side with
  | none => simp
  | some position =>
    have hlt := (List.findIdx?_eq_some_iff_getElem.mp hfind).1
    simp [hlt]

end OrderBook

/-- Whether a cancel task does not find its order; a new-order task has nothing to find. -/
def Task.unmatched (book : OrderBook) : Task → Bool
  | .newOrder _ => false
  | .cancelOrder order origClientOrderID => (book.find order.owner origClientOrderID order.side).isNone

/-- The messages enqueued by queue operations. -/
def enqueued (operations : List QueueOperation) : List OutgoingMessage :=
  operations.filterMap fun
    | .enqueue message => some message
    | .submitTask .. => none

/-- The tasks that queue operations push to a queue. -/
def submitted (queueID : ℕ) (operations : List QueueOperation) : List Task :=
  operations.filterMap fun
    | .enqueue _ => none
    | .submitTask task id => if id = queueID then some task else none

section Operations

variable (queueID : ℕ) (operations more : List QueueOperation)

@[simp] theorem enqueued_nil : enqueued [] = [] := rfl

@[simp] theorem enqueued_enqueue (message : OutgoingMessage) :
    enqueued (.enqueue message :: operations) = message :: enqueued operations := rfl

@[simp] theorem enqueued_submitTask (task : Task) (id : ℕ) :
    enqueued (.submitTask task id :: operations) = enqueued operations := rfl

@[simp] theorem enqueued_append : enqueued (operations ++ more) = enqueued operations ++ enqueued more :=
  List.filterMap_append

@[simp] theorem enqueued_map_enqueue (messages : List OutgoingMessage) :
    enqueued (messages.map .enqueue) = messages := by
  induction messages with
  | nil => rfl
  | cons message messages ih => rw [List.map_cons, enqueued_enqueue, ih]

@[simp] theorem submitted_nil : submitted queueID [] = [] := rfl

@[simp] theorem submitted_enqueue (message : OutgoingMessage) :
    submitted queueID (.enqueue message :: operations) = submitted queueID operations := rfl

@[simp] theorem submitted_submitTask (task : Task) (id : ℕ) :
    submitted queueID (.submitTask task id :: operations) =
      if id = queueID then task :: submitted queueID operations else submitted queueID operations := by
  unfold submitted
  rw [List.filterMap_cons]
  by_cases h : id = queueID
  · simp only [if_pos h]
  · simp only [if_neg h]

@[simp] theorem submitted_append :
    submitted queueID (operations ++ more) = submitted queueID operations ++ submitted queueID more :=
  List.filterMap_append

@[simp] theorem submitted_map_enqueue (messages : List OutgoingMessage) :
    submitted queueID (messages.map .enqueue) = [] := by
  induction messages with
  | nil => rfl
  | cons message messages ih => rw [List.map_cons, submitted_enqueue, ih]

/-- The tasks pushed to a queue are those of its submissions. -/
theorem mem_submitted {task : Task} : task ∈ submitted queueID operations ↔ .submitTask task queueID ∈ operations := by
  induction operations with
  | nil => simp
  | cons operation operations ih =>
    cases operation with
    | enqueue message => simp [ih]
    | submitTask other id =>
      rw [submitted_submitTask, List.mem_cons, QueueOperation.submitTask.injEq]
      split
      · rename_i hid
        rw [List.mem_cons, ih, hid, and_iff_left rfl]
      · rename_i hid
        rw [ih, or_iff_right fun h => hid h.2.symm]

end Operations

namespace CentralOrderBook

variable (c : CentralOrderBook)

/-- The state after queue operations none of which throws. -/
def afterOperations (operations : List QueueOperation) : CentralOrderBook :=
  { c with
    outgoingMessages := c.outgoingMessages ++ enqueued operations
    threadQueues := fun queueID => c.threadQueues queueID ++ submitted queueID operations }

/-- A queue operation with a valid queue index does not throw. -/
theorem perform_eq {operation : QueueOperation}
    (h : ∀ task queueID, operation = .submitTask task queueID → queueID < c.queueCount) :
    c.perform operation = .ok (c.afterOperations [operation]) := by
  cases operation with
  | enqueue message => simp [perform, afterOperations]
  | submitTask task queueID =>
    rw [perform, submitTask, if_neg (not_le.mpr (h task queueID rfl)), afterOperations]
    congr 2
    · simp
    · funext q
      by_cases hq : q = queueID
      · simp [hq]
      · simp [hq, Ne.symm hq]

/-- Queue operations with valid queue indices do not throw. -/
theorem performAll_eq {operations : List QueueOperation}
    (h : ∀ task queueID, .submitTask task queueID ∈ operations → queueID < c.queueCount) :
    c.performAll operations = .ok (c.afterOperations operations) := by
  induction operations generalizing c with
  | nil => simp [performAll, afterOperations]
  | cons operation operations ih =>
    rw [performAll, c.perform_eq fun task queueID heq => h task queueID (heq ▸ List.mem_cons_self ..)]
    have hrest := ih (c.afterOperations [operation]) fun task queueID hmem => h task queueID (List.mem_cons_of_mem _ hmem)
    have hsplit : operation :: operations = [operation] ++ operations := rfl
    rw [hsplit]
    refine hrest.trans ?_
    simp only [afterOperations, List.append_assoc, enqueued_append, submitted_append]

/-- Queue operations that do not throw have the effect of all of them. -/
theorem eq_of_performAll {operations : List QueueOperation} {after : CentralOrderBook}
    (h : c.performAll operations = .ok after) : after = c.afterOperations operations := by
  suffices hvalid : ∀ task queueID, .submitTask task queueID ∈ operations → queueID < c.queueCount by
    rw [c.performAll_eq hvalid, Except.ok.injEq] at h
    exact h.symm
  induction operations generalizing c with
  | nil => simp
  | cons operation operations ih =>
    have hfirst : ∀ task queueID, operation = .submitTask task queueID → queueID < c.queueCount := by
      rintro task queueID rfl
      by_contra hlarge
      simp [performAll, perform, submitTask, not_lt.mp hlarge] at h
    rw [performAll, c.perform_eq hfirst] at h
    intro task queueID hmem
    rcases List.mem_cons.mp hmem with heq | hmem
    · exact hfirst task queueID heq.symm
    · exact ih _ h task queueID hmem

/-- A run of queue operations that returns has the effect of all of them. -/
theorem eq_of_performAll_toOption {operations : List QueueOperation} {after : CentralOrderBook}
    (h : (c.performAll operations).toOption = some after) : after = c.afterOperations operations := by
  cases hperform : c.performAll operations with
  | error message => simp [hperform, Except.toOption] at h
  | ok last =>
    simp only [hperform, Except.toOption, Option.some.injEq] at h
    exact h ▸ c.eq_of_performAll hperform

@[simp] theorem afterOperations_bookOf (operations : List QueueOperation) (symbol : String) :
    (c.afterOperations operations).bookOf symbol = c.bookOf symbol := rfl

@[simp] theorem afterOperations_queueIDOf (operations : List QueueOperation) (symbol : String) :
    (c.afterOperations operations).queueIDOf symbol = c.queueIDOf symbol := rfl

@[simp] theorem afterOperations_queueCount (operations : List QueueOperation) :
    (c.afterOperations operations).queueCount = c.queueCount := rfl

@[simp] theorem afterOperations_threadQueues (operations : List QueueOperation) (queueID : ℕ) :
    (c.afterOperations operations).threadQueues queueID = c.threadQueues queueID ++ submitted queueID operations := rfl

@[simp] theorem afterOperations_outgoingMessages (operations : List QueueOperation) :
    (c.afterOperations operations).outgoingMessages = c.outgoingMessages ++ enqueued operations := rfl

/-- Two states with the same queues, and the same values in the dictionary of queue IDs. -/
structure SameQueues (c after : CentralOrderBook) : Prop where
  queueIDOf : ∀ symbol, after.queueIDOf symbol = c.queueIDOf symbol
  outgoingMessages : after.outgoingMessages = c.outgoingMessages
  threadQueues : after.threadQueues = c.threadQueues
  queueCount : after.queueCount = c.queueCount

/-- Before its queue operations, a cancel only inserts its symbol. -/
theorem cancelOrderWork_sameQueues (order : Order) (origClientOrderID : String) :
    SameQueues c (c.cancelOrderWork order origClientOrderID).1 where
  queueIDOf _ := Dictionary.valueAt_insertNew ..
  outgoingMessages := rfl
  threadQueues := rfl
  queueCount := rfl

/-- Before its queue operations, an addition changes no queue. -/
theorem addOrderWork_sameQueues (order : Order) : SameQueues c (c.addOrderWork order).1 := by
  unfold addOrderWork
  split
  · exact c.cancelOrderWork_sameQueues order ""
  · exact ⟨fun _ => rfl, rfl, rfl, rfl⟩

/-- Before its queue operations, an addition changes no book. -/
@[simp] theorem addOrderWork_bookOf (order : Order) (symbol : String) :
    (c.addOrderWork order).1.bookOf symbol = c.bookOf symbol := by
  unfold addOrderWork
  split <;> rfl

@[simp] theorem cancelOrderWork_bookOf (order : Order) (origClientOrderID symbol : String) :
    (c.cancelOrderWork order origClientOrderID).1.bookOf symbol = c.bookOf symbol := rfl

/-- The work of a task is on the book of its symbol alone. -/
theorem taskWork_bookOf (task : Task) (symbol : String) :
    (c.taskWork task).1.bookOf symbol =
      if symbol = task.symbol then ((c.bookOf symbol).execute task.bookTask).1 else c.bookOf symbol := by
  by_cases hsymbol : symbol = task.symbol
  · subst hsymbol
    rw [if_pos rfl]
    cases task with
    | newOrder order => exact (Dictionary.valueAt_assign ..).trans (if_pos rfl)
    | cancelOrder order origClientOrderID =>
      simp only [taskWork, taskCancelOrderWork, Task.bookTask, Task.symbol, Task.order, OrderBook.execute]
      cases (c.bookOf order.symbol).taskCancelOrder order.owner origClientOrderID order.side with
      | none => exact Dictionary.valueAt_insertNew ..
      | some result => exact (Dictionary.valueAt_assign ..).trans (if_pos rfl)
  · rw [if_neg hsymbol]
    cases task with
    | newOrder order => exact (Dictionary.valueAt_assign ..).trans (if_neg hsymbol)
    | cancelOrder order origClientOrderID =>
      simp only [taskWork, taskCancelOrderWork]
      cases (c.bookOf order.symbol).taskCancelOrder order.owner origClientOrderID order.side with
      | none => exact Dictionary.valueAt_insertNew ..
      | some result => exact (Dictionary.valueAt_assign ..).trans (if_neg hsymbol)

/-- A task reports what the execution on its book reports, and then schedules an unmatched cancel
again, for the same queue. -/
theorem taskWork_operations (task : Task) :
    (c.taskWork task).2 = ((c.bookOf task.symbol).execute task.bookTask).2.map .enqueue ++
      if task.unmatched (c.bookOf task.symbol) then [.submitTask task (c.queueIDOf task.symbol)] else [] := by
  cases task with
  | newOrder order => simp [taskWork, taskNewOrderWork, Task.unmatched, OrderBook.execute, Task.bookTask,
      Task.symbol, Task.order]
  | cancelOrder order origClientOrderID =>
    simp only [taskWork, taskCancelOrderWork, Task.unmatched, OrderBook.execute, Task.bookTask, Task.symbol,
      Task.order]
    have hiff := (c.bookOf order.symbol).taskCancelOrder_eq_none_iff order.owner origClientOrderID order.side
    cases hcancel : (c.bookOf order.symbol).taskCancelOrder order.owner origClientOrderID order.side with
    | none => simp [hiff.mp hcancel, cancelOrderWork, queueIDOf]
    | some result =>
      have hfind := mt hiff.mpr (by simp [hcancel])
      simp [hfind]

/-- The messages that a task enqueues are the reports of its execution on its book. -/
theorem enqueued_taskWork (task : Task) :
    enqueued (c.taskWork task).2 = ((c.bookOf task.symbol).execute task.bookTask).2 := by
  rw [taskWork_operations, enqueued_append, enqueued_map_enqueue]
  split <;> simp

/-- Before its queue operations, a task changes no queue. -/
theorem taskWork_sameQueues (task : Task) : SameQueues c (c.taskWork task).1 := by
  cases task with
  | newOrder order => exact ⟨fun _ => rfl, rfl, rfl, rfl⟩
  | cancelOrder order origClientOrderID =>
    rw [taskWork, taskCancelOrderWork]
    split
    · exact ⟨fun _ => rfl, rfl, rfl, rfl⟩
    · obtain ⟨hids, hout, hqueues, hcount⟩ := cancelOrderWork_sameQueues
        { c with orderBookDictionary := c.orderBookDictionary.insertNew order.symbol .empty } order origClientOrderID
      exact ⟨hids, hout, hqueues, hcount⟩

/-- The engine after the next task of a queue was taken off. -/
def withQueue (queueID : ℕ) (rest : List Task) : CentralOrderBook :=
  { c with threadQueues := Function.update c.threadQueues queueID rest }

@[simp] theorem withQueue_bookOf (queueID : ℕ) (rest : List Task) (symbol : String) :
    (c.withQueue queueID rest).bookOf symbol = c.bookOf symbol := rfl

@[simp] theorem withQueue_queueIDOf (queueID : ℕ) (rest : List Task) (symbol : String) :
    (c.withQueue queueID rest).queueIDOf symbol = c.queueIDOf symbol := rfl

@[simp] theorem withQueue_threadQueues_self (queueID : ℕ) (rest : List Task) :
    (c.withQueue queueID rest).threadQueues queueID = rest :=
  Function.update_self ..

@[simp] theorem withQueue_threadQueues_of_ne {queueID q : ℕ} (rest : List Task) (h : q ≠ queueID) :
    (c.withQueue queueID rest).threadQueues q = c.threadQueues q :=
  Function.update_of_ne h ..

/-- Taking a task off a queue adds no task to any queue. -/
theorem mem_of_mem_withQueue {queueID : ℕ} {task : Task} {rest : List Task}
    (hqueue : c.threadQueues queueID = task :: rest) {q : ℕ} {other : Task}
    (h : other ∈ (c.withQueue queueID rest).threadQueues q) : other ∈ c.threadQueues q := by
  by_cases hq : q = queueID
  · subst hq
    rw [withQueue_threadQueues_self] at h
    exact hqueue ▸ List.mem_cons_of_mem _ h
  · rwa [withQueue_threadQueues_of_ne _ _ hq] at h

/-- Everything an event can do. -/
theorem next_cases {event : Event} {after : CentralOrderBook} (h : next event c = some after) :
    (∃ order, event = .addOrder order ∧
      after = (c.addOrderWork order).1.afterOperations (c.addOrderWork order).2.1) ∨
    (∃ order origClientOrderID, event = .cancelOrder order origClientOrderID ∧
      after = (c.cancelOrderWork order origClientOrderID).1.afterOperations
        (c.cancelOrderWork order origClientOrderID).2) ∨
    ∃ queueID task rest, event = .work queueID ∧ c.threadQueues queueID = task :: rest ∧
      after = ((c.withQueue queueID rest).taskWork task).1.afterOperations
        ((c.withQueue queueID rest).taskWork task).2 := by
  cases event with
  | addOrder order =>
    refine Or.inl ⟨order, rfl, ?_⟩
    refine eq_of_performAll_toOption _ (Eq.trans ?_ h)
    simp only [next, addOrder]
    cases (c.addOrderWork order).1.performAll (c.addOrderWork order).2.1 <;> rfl
  | cancelOrder order origClientOrderID =>
    exact Or.inr (Or.inl ⟨order, origClientOrderID, rfl, eq_of_performAll_toOption _ h⟩)
  | work queueID =>
    cases hqueue : c.threadQueues queueID with
    | nil => simp [next, work, tryPop, hqueue] at h
    | cons task rest =>
      refine Or.inr (Or.inr ⟨queueID, task, rest, rfl, hqueue, ?_⟩)
      simp only [next, work, tryPop, hqueue, Option.map_some, Option.bind_some, runTask] at h
      exact eq_of_performAll_toOption _ h

/-- The dictionary of books after initialisation. -/
@[simp] theorem mem_initialise_orderBookDictionary (symbols : List String) (symbol : String) :
    symbol ∈ (initialise symbols).orderBookDictionary ↔ symbol ∈ symbols := by
  suffices h : ∀ d : Dictionary String OrderBook,
      symbol ∈ symbols.foldl (fun d s => d.insertNew s .empty) d ↔ symbol ∈ symbols ∨ symbol ∈ d by
    exact (h ∅).trans (or_iff_left Finmap.notMem_empty)
  induction symbols with
  | nil => simp
  | cons first rest ih =>
    intro d
    rw [List.foldl_cons, ih, Dictionary.mem_insertNew, List.mem_cons]
    tauto

/-- The dictionary of queue IDs after initialisation. -/
@[simp] theorem mem_initialise_queueIDDictionary (symbols : List String) (symbol : String) :
    symbol ∈ (initialise symbols).queueIDDictionary ↔ symbol ∈ symbols := by
  suffices h : ∀ (start : ℕ) (d : Dictionary String ℕ),
      symbol ∈ (symbols.zipIdx start).foldl (fun d entry => d.insertNew entry.1 entry.2) d ↔
        symbol ∈ symbols ∨ symbol ∈ d by
    exact (h 0 ∅).trans (or_iff_left Finmap.notMem_empty)
  induction symbols with
  | nil => simp
  | cons first rest ih =>
    intro start d
    rw [List.zipIdx_cons, List.foldl_cons, ih, Dictionary.mem_insertNew, List.mem_cons]
    tauto

/-- Every access to the dictionary of queue IDs yields the index of a queue, if there is one. -/
theorem initialise_queueIDOf_lt {symbols : List String} (hsymbols : symbols ≠ []) (symbol : String) :
    (initialise symbols).queueIDOf symbol < (initialise symbols).queueCount := by
  have hpos := List.length_pos_iff.mpr hsymbols
  suffices h : ∀ (entries : List (String × ℕ)) (d : Dictionary String ℕ), (∀ entry ∈ entries, entry.2 < symbols.length) →
      d.valueAt symbol 0 < symbols.length →
        (entries.foldl (fun d entry => d.insertNew entry.1 entry.2) d).valueAt symbol 0 < symbols.length by
    refine h _ ∅ ?_ (by simpa using hpos)
    intro entry hentry
    simpa using (List.mem_zipIdx hentry).2.1
  intro entries
  induction entries with
  | nil => exact fun d _ hd => hd
  | cons entry rest ih =>
    intro d hentries hd
    rw [List.foldl_cons]
    refine ih _ (fun e he => hentries e (List.mem_cons_of_mem _ he)) ?_
    rw [Dictionary.insertNew]
    split
    · exact hd
    · have hentry := hentries entry (List.mem_cons_self ..)
      change (d.assign entry.1 entry.2).valueAt symbol 0 < symbols.length
      rw [Dictionary.valueAt_assign]
      split
      · exact hentry
      · exact hd

end CentralOrderBook

end MatchingEngine
