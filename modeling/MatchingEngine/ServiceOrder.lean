import MatchingEngine.CancelIsolation
import MatchingEngine.ClientProtocol
import MatchingEngine.OrderProgress

/-!
# The order of service

A worker executes the new orders of its queue in the order in which they were accepted, which is the
order of their arrival, also those on symbols that are not configured. For a client this means that
its requests on a symbol are served in the order of its file, so that a cancel never overtakes the
order that it names.

These are results about atomic queues. Overlapping pushes to a ring buffer can lose an order that was
accepted while a later one is executed.
-/

namespace MatchingEngine

namespace Pipeline

variable {symbols : List String} {s t : Pipeline} {queueID : ℕ}

/-- The new orders among tasks that belong to a queue. -/
def newOrdersOf (symbols : List String) (queueID : ℕ) (tasks : List Task) : List Task :=
  tasks.filter fun task => task.isNewOrder && queueOf symbols task.symbol == queueID

/-- The tasks of the accepted orders that belong to a queue. -/
def acceptedTasks (symbols : List String) (queueID : ℕ) (messages : List OutgoingMessage) : List Task :=
  newOrdersOf symbols queueID ((messages.filter fun message => message.type == .accepted).map fun message =>
    .newOrder message.order)

@[simp] theorem newOrdersOf_append (tasks more : List Task) :
    newOrdersOf symbols queueID (tasks ++ more) = newOrdersOf symbols queueID tasks ++ newOrdersOf symbols queueID more :=
  List.filter_append ..

@[simp] theorem newOrdersOf_nil : newOrdersOf symbols queueID [] = [] := rfl

@[simp] theorem acceptedTasks_append (messages more : List OutgoingMessage) :
    acceptedTasks symbols queueID (messages ++ more) =
      acceptedTasks symbols queueID messages ++ acceptedTasks symbols queueID more := by
  rw [acceptedTasks, List.filter_append, List.map_append, newOrdersOf_append]
  rfl

/-- A cancel is no new order. -/
theorem newOrdersOf_eq_nil {tasks : List Task} (h : ∀ task ∈ tasks, task.isNewOrder = false) :
    newOrdersOf symbols queueID tasks = [] :=
  List.filter_eq_nil_iff.mpr fun task htask => by simp [h task htask]

/-- A task of another queue does not count. -/
theorem newOrdersOf_of_ne {task : Task} (h : queueOf symbols task.symbol ≠ queueID) :
    newOrdersOf symbols queueID [task] = [] :=
  List.filter_eq_nil_iff.mpr fun other hother => by simp [List.mem_singleton.mp hother, h]

/-- Messages of other types accept nothing. -/
theorem acceptedTasks_eq_nil {messages : List OutgoingMessage} (h : ∀ message ∈ messages, message.type ≠ .accepted) :
    acceptedTasks symbols queueID messages = [] := by
  rw [acceptedTasks, List.filter_eq_nil_iff.mpr fun message hmessage => by simp [h message hmessage]]
  rfl

/-- The new orders that were executed, are with the worker or are about to be submitted are the accepted ones, in order. -/
def InOrderOfAcceptance (symbols : List String) (s : Pipeline) : Prop :=
  ∀ queueID, newOrdersOf symbols queueID (s.executed ++ s.tasksOf queueID ++ submitted queueID s.dispatching) =
    acceptedTasks symbols queueID (s.engine.outgoingMessages ++ enqueued s.dispatching)

/-- An order is submitted to the queue for which it was accepted. -/
theorem newOrdersOf_accept (order : Order) (queueID : ℕ) :
    let operations : List QueueOperation :=
      [.enqueue (acceptedMessage order), .submitTask (.newOrder order) (queueOf symbols order.symbol)]
    newOrdersOf symbols queueID (submitted queueID operations) = acceptedTasks symbols queueID (enqueued operations) := by
  by_cases hq : queueOf symbols order.symbol = queueID
  · simp [acceptedTasks, acceptedMessage, hq]
  · have hother : newOrdersOf symbols queueID [.newOrder order] = [] := newOrdersOf_of_ne hq
    simp [acceptedTasks, acceptedMessage, hq, hother]

/-- What the dispatcher does with a message accepts the order that it submits. -/
theorem newOrdersOf_dispatchWork (h : s.Static symbols) (message : IncomingMessage) (queueID : ℕ) :
    newOrdersOf symbols queueID (submitted queueID (dispatchWork s.engine message).2) =
      acceptedTasks symbols queueID (enqueued (dispatchWork s.engine message).2) := by
  obtain ⟨hstage, hsubmits⟩ := dispatchWork_stage h message
  obtain hnil | ⟨order, horder⟩ | ⟨order, horder⟩ | ⟨task, htask⟩ := hstage
  · rw [hnil]
    rfl
  · rw [horder]
    rfl
  · rw [horder]
    exact newOrdersOf_accept order queueID
  · rw [htask] at hsubmits ⊢
    have hcancel : task.isNewOrder = false := by
      cases task with
      | newOrder order =>
        have haccepted := (hsubmits order).mp ⟨_, List.mem_singleton_self _⟩
        simp at haccepted
      | cancelOrder order id => rfl
    refine newOrdersOf_eq_nil fun other hother => ?_
    have heq := List.mem_singleton.mp ((mem_submitted _ _).mp hother)
    cases heq
    exact hcancel

/-- Every step keeps the order. -/
theorem InOrderOfAcceptance.next (h : s.InOrderOfAcceptance symbols) (hs : s.Consistent symbols) {label : Label}
    (hnext : Pipeline.next label s = some t) : t.InOrderOfAcceptance symbols := by
  intro queueID
  have hbefore := h queueID
  obtain ⟨_, _, rfl⟩ | ⟨_, _, _, rfl⟩ | ⟨message, _, _, _, hdispatching, rfl⟩ | ⟨operation, operations, _, hdispatching, rfl⟩ |
    ⟨q, task, rest, _, hholding, _, hqueue, rfl⟩ | ⟨q, task, _, hholding, rfl⟩ |
    ⟨q, operation, operations, _, hworking, rfl⟩ := next_cases hnext
  · exact hbefore
  · exact hbefore
  · have hsame := dispatchWork_sameQueues s.engine message
    rw [hdispatching] at hbefore
    simp only [submitted_nil, enqueued_nil, List.append_nil] at hbefore
    rw [newOrdersOf_append, acceptedTasks_append, newOrdersOf_dispatchWork hs.routed.toStatic message, hsame.outgoingMessages,
      ← hbefore, tasksOf, tasksOf, hsame.threadQueues]
  · rw [hdispatching, ← List.singleton_append, submitted_append, enqueued_append] at hbefore
    rw [tasksOf] at hbefore ⊢
    simpa only [CentralOrderBook.afterOperations_threadQueues, CentralOrderBook.afterOperations_outgoingMessages,
      List.append_assoc] using hbefore
  · by_cases hq : queueID = q
    · subst hq
      rw [tasksOf, hholding, hqueue] at hbefore
      simpa [tasksOf, CentralOrderBook.withQueue] using hbefore
    · rw [tasksOf] at hbefore ⊢
      simpa [CentralOrderBook.withQueue, hq] using hbefore
  · have hsame := s.engine.taskWork_sameQueues task
    have htask := (hs.routed.holding q task hholding).1
    by_cases hq : queueID = q
    · subst hq
      rw [tasksOf, hholding] at hbefore
      simpa [tasksOf, hsame.threadQueues, hsame.outgoingMessages] using hbefore
    · have hother : newOrdersOf symbols queueID [task] = [] := newOrdersOf_of_ne fun heq => hq (heq.symm.trans htask)
      rw [tasksOf, newOrdersOf_append, newOrdersOf_append] at hbefore
      simp only [tasksOf, newOrdersOf_append s.executed, newOrdersOf_append (s.executed ++ [task]), newOrdersOf_append (_ ++ _),
        hother, List.append_nil, Function.update_of_ne hq, hsame.threadQueues, hsame.outgoingMessages]
      exact hbefore
  · -- A worker reports on books and submits cancels again.
    have hnone : newOrdersOf symbols queueID (submitted queueID [operation]) = [] := by
      refine newOrdersOf_eq_nil fun task htask => ?_
      have hmem := List.mem_singleton.mp ((mem_submitted _ _).mp htask)
      exact (hs.routed.working q task queueID (by rw [hworking, ← hmem]; exact List.mem_cons_self ..)).2.2.2
    have hreports : acceptedTasks symbols queueID (enqueued [operation]) = [] := by
      refine acceptedTasks_eq_nil fun message hmessage haccepted => ?_
      have hofBook := (hs.executed.working q message (by
        rw [hworking, ← List.singleton_append, enqueued_append]
        exact List.mem_append_left _ hmessage)).1
      rw [haccepted] at hofBook
      cases hofBook
    rw [tasksOf] at hbefore ⊢
    simpa [hnone, hreports] using hbefore

/-- The order of acceptance is kept in every run. -/
theorem inOrderOfAcceptance_of_reachable (h : (pipeline symbols).Reachable s) : s.InOrderOfAcceptance symbols := by
  induction h with
  | start => exact fun _ => rfl
  | step hs _ hnext ih => exact ih.next (consistent_of_reachable hs) hnext

/-- The dispatcher enqueues no acceptance, or the one of the order that it submits. -/
theorem DispatchStage.acceptedTasks_cases {operations : List QueueOperation} (h : DispatchStage symbols operations)
    (queueID : ℕ) : acceptedTasks symbols queueID (enqueued operations) = [] ∨
      newOrdersOf symbols queueID (submitted queueID operations) = acceptedTasks symbols queueID (enqueued operations) := by
  obtain rfl | ⟨order, rfl⟩ | ⟨order, rfl⟩ | ⟨task, rfl⟩ := h
  · exact Or.inl rfl
  · exact Or.inl rfl
  · exact Or.inr (newOrdersOf_accept order queueID)
  · exact Or.inl rfl

/-- In every run, the new orders that a worker has executed, and after them those that wait for it, are the orders of its
queue in the order in which they were accepted, and the orders were accepted in the order in which they arrived. -/
theorem executed_in_order_of_acceptance (h : (pipeline symbols).Reachable s) (queueID : ℕ) :
    newOrdersOf symbols queueID (s.executed ++ s.tasksOf queueID) <+:
        acceptedTasks symbols queueID s.engine.outgoingMessages ∧
      ((s.engine.outgoingMessages.filter fun message => message.type == .accepted).map OutgoingMessage.order).Sublist
        (orders s.pushed) := by
  constructor
  · have horder := inOrderOfAcceptance_of_reachable h queueID
    rw [newOrdersOf_append, acceptedTasks_append] at horder
    obtain hnone | hsame := (admitted_of_reachable h).stage.acceptedTasks_cases queueID
    · rw [hnone, List.append_nil] at horder
      exact ⟨_, horder⟩
    · rw [hsame] at horder
      exact (List.append_cancel_right horder).symm ▸ List.prefix_refl _
  · have hanswers : (s.engine.outgoingMessages.filter fun message => message.type == .accepted).Sublist
        (answers s.engine.outgoingMessages) := by
      refine List.monotone_filter_right _ fun message haccepted => ?_
      rw [beq_iff_eq.mp haccepted]
      rfl
    refine (hanswers.map _).trans ?_
    rw [← (answered_of_reachable h).answered]
    exact List.sublist_append_left _ _

/-- An order on a symbol that is not configured is accepted after a cancel made a book, and waits behind a configured one. -/
theorem executed_in_order_of_acceptance_waiting : ∃ s, (pipeline ["A"]).run
      [.push (exampleRequest "B" .cancelOrder), .flush, .dispatch, .dispatcherOperation, .pop 0, .execute 0,
        .push (exampleRequest "A" .newOrder), .push (exampleRequest "B" .newOrder), .flush, .dispatch,
        .dispatcherOperation, .dispatcherOperation, .workerOperation 0, .pop 0, .execute 0, .dispatch, .dispatcherOperation,
        .dispatcherOperation] (pipeline ["A"]).start = some s ∧
    newOrdersOf ["A"] 0 s.executed = [.newOrder ((exampleRequest "A" .newOrder).message 1).order] ∧
    newOrdersOf ["A"] 0 (s.executed ++ s.tasksOf 0) <+: acceptedTasks ["A"] 0 s.engine.outgoingMessages := by
  obtain ⟨s, hrun, hexecuted⟩ : ∃ s, (pipeline ["A"]).run
        [.push (exampleRequest "B" .cancelOrder), .flush, .dispatch, .dispatcherOperation, .pop 0, .execute 0,
          .push (exampleRequest "A" .newOrder), .push (exampleRequest "B" .newOrder), .flush, .dispatch,
          .dispatcherOperation, .dispatcherOperation, .workerOperation 0, .pop 0, .execute 0, .dispatch, .dispatcherOperation,
          .dispatcherOperation] (pipeline ["A"]).start = some s ∧
      newOrdersOf ["A"] 0 s.executed = [.newOrder ((exampleRequest "A" .newOrder).message 1).order] := ⟨_, rfl, rfl⟩
  exact ⟨s, hrun, hexecuted, (executed_in_order_of_acceptance (Machine.reachable_of_run hrun) 0).1⟩

/-- A task that was pushed before another one of its symbol is executed before it. -/
theorem FirstInOrder.executed_before {symbol : String} (h : s.FirstInOrder symbols symbol) (hstamped : StampedMessages s.pushed)
    {earlier later : Task} (hpushed : earlier ∈ s.pushed.map IncomingMessage.task) (hearlier : earlier.symbol = symbol)
    (hlater : later.symbol = symbol) (hlt : earlier.order.serial < later.order.serial) {front rest : List Task}
    (hexecuted : s.executed = front ++ later :: rest) (hnot : later ∉ front) : earlier ∈ front := by
  have hincreasing := hstamped.increasing.filter fun task => task.symbol == symbol
  have hmem : earlier ∈ (s.pushed.map IncomingMessage.task).filter fun task => task.symbol == symbol :=
    List.mem_filter.mpr ⟨hpushed, by simpa using hearlier⟩
  have hsplit : (s.executed.eraseDups.filter fun task => task.symbol == symbol) =
      front.eraseDups.filter (fun task => task.symbol == symbol) ++ later ::
        (((rest.removeAll front).filter fun task => !task == later).eraseDups.filter fun task => task.symbol == symbol) := by
    have hhead : (later :: rest).removeAll front = later :: rest.removeAll front := by
      simp [List.removeAll, hnot]
    rw [hexecuted, List.eraseDups_append, hhead, List.eraseDups_cons, List.filter_append, List.filter_cons_of_pos]
    simpa using hlater
  rw [FirstInOrder, hsplit, List.append_assoc, List.cons_append] at h
  rw [← h] at hincreasing hmem
  rcases List.mem_append.mp hmem with hmem | hmem
  · exact List.mem_eraseDups.mp (List.mem_of_mem_filter hmem)
  · rcases List.mem_cons.mp hmem with rfl | hmem
    · exact absurd hlt (lt_irrefl _)
    · exact absurd ((List.pairwise_cons.mp (List.pairwise_append.mp hincreasing).2.1).1 earlier hmem) hlt.asymm

end Pipeline

/-- A cancel that names at most one order leaves none that it names. -/
theorem OrderBook.find_execute_cancelOrder {book : OrderBook} {owner clientID : String} {side : OrderSide}
    (hsided : book.Sided) (hdistinct : (book.resting.map Order.serial).Nodup)
    (hunique : ∀ x ∈ (book.orders side).values, ∀ y ∈ (book.orders side).values,
      x.hasClient owner clientID = true → y.hasClient owner clientID = true → x.serial = y.serial) :
    (book.execute (.cancelOrder owner clientID side)).1.find owner clientID side = none := by
  rw [find_eq_none_iff]
  by_cases hexists : ∃ order ∈ (book.orders side).values, order.hasClient owner clientID = true
  · obtain ⟨ahead, key, target, behind, hfirst⟩ := exists_findsFirst hexists
    obtain ⟨after, hcancel, hentries, _⟩ := hfirst.taskCancelOrder hsided
    have hvalues : (book.orders side).values = ahead.map Prod.snd ++ target :: behind.map Prod.snd := by
      rw [Multimap.values, hfirst.entries, List.map_append, List.map_cons]
    have hnodup : ((book.orders side).values.map Order.serial).Nodup := by
      rw [resting, List.map_append] at hdistinct
      cases side with
      | buy => exact hdistinct.of_append_left
      | sell => exact hdistinct.of_append_right
    simp only [execute, hcancel]
    intro order horder
    rw [Multimap.values, hentries, List.map_append, List.mem_append] at horder
    rcases horder with horder | horder
    · obtain ⟨entry, hentry, rfl⟩ := List.mem_map.mp horder
      exact hfirst.first entry hentry
    · by_contra hnamed
      have hsame := hunique order (by simp [hvalues, horder]) target (by simp [hvalues]) (by simpa using hnamed)
        hfirst.named
      rw [hvalues, List.map_append, List.map_cons] at hnodup
      exact (List.nodup_cons.mp hnodup.of_append_right).1 (hsame ▸ List.mem_map_of_mem horder)
  · have hnone : ∀ order ∈ (book.orders side).values, order.hasClient owner clientID = false := fun order horder => by
      by_contra hnamed
      exact hexists ⟨order, horder, by simpa using hnamed⟩
    have hcancel := (book.taskCancelOrder_eq_none_iff owner clientID side).mpr ((book.find_eq_none_iff ..).mpr hnone)
    simpa only [execute, hcancel] using hnone

section Cancels

variable {symbol : String} {front rest : List Task} {cancel : Task} {order : Order}

/-- A cancel that names one order only, which was executed before, finds nothing after it was executed itself. -/
theorem unmatched_of_executed (hcancel : cancel.isNewOrder = false) (hsymbol : cancel.symbol = symbol)
    (hnamed : ∀ other, .newOrder other ∈ front ++ rest → cancel.names (.newOrder other) → other = order)
    (hrest : .newOrder order ∉ rest) (hdistinct : ((newOrders (symbolTasks symbol front)).map Order.serial).Nodup) :
    cancel.unmatched (OrderBook.empty.executeAll (symbolTasks symbol (front ++ cancel :: rest))).1 = true := by
  induction rest using List.reverseRecOn with
  | nil =>
    rw [symbolTasks_append, symbolTasks_singleton, if_pos hsymbol, OrderBook.executeAll_concat]
    cases cancel with
    | newOrder other => cases hcancel
    | cancelOrder request id =>
      obtain ⟨hsided, horigin, _⟩ := OrderBook.originates_executeAll (symbolTasks symbol front)
      refine Option.isNone_iff_eq_none.mpr (OrderBook.find_execute_cancelOrder hsided (Tracks.executeAll hdistinct).distinct ?_)
      -- What rests under the named ID comes from the one order that the cancel names.
      have hserial : ∀ x ∈ ((OrderBook.empty.executeAll (symbolTasks symbol front)).1.orders request.side).values,
          x.hasClient request.owner id = true → x.serial = order.serial := by
        intro x hx hclient
        obtain ⟨original, horiginal, hterms, hsame⟩ := horigin request.side x hx
        obtain ⟨hmem, horiginalSymbol⟩ := mem_newOrders_symbolTasks.mp horiginal
        obtain ⟨hid, howner⟩ := (Order.hasClient_iff ..).mp hclient
        rw [← hsame, hnamed original (List.mem_append_left _ hmem)]
        refine ⟨?_, horiginalSymbol.trans hsymbol.symm, ?_, ?_⟩
        · rw [hterms, howner]
        · rw [hterms, hsided request.side x hx]
        · rw [hterms, hid]
      exact fun x hx y hy hxclient hyclient => (hserial x hx hxclient).trans (hserial y hy hyclient).symm
  | append_singleton rest task ih =>
    have hbefore := ih (fun other hother => hnamed other (by rw [← List.append_assoc]; exact List.mem_append_left _ hother))
      fun hmem => hrest (List.mem_append_left _ hmem)
    rw [← List.cons_append, ← List.append_assoc, symbolTasks_append, symbolTasks_singleton]
    by_cases htask : task.symbol = symbol
    · rw [if_pos htask, OrderBook.executeAll_concat]
      cases task with
      | newOrder other =>
        refine unmatched_newOrder hbefore (htask.trans hsymbol.symm) fun hnames => hrest ?_
        rw [← hnamed other (by simp) hnames]
        exact List.mem_append_right _ (List.mem_singleton_self _)
      | cancelOrder request id =>
        exact CentralOrderBook.unmatched_execute (OrderBook.originates_executeAll _).1 rfl hbefore
    · rw [if_neg htask, List.append_nil]
      exact hbefore

end Cancels

namespace Pipeline

variable {symbols : List String} {s : Pipeline} {order : Order} {cancel : Task}

/-- After a cancel was executed, nothing rests of an order that was pushed before it and that only it names. -/
theorem not_resting_of_canceled (h : (pipeline symbols).Reachable s) (horder : order ∈ orders s.pushed)
    (hconfigured : order.symbol ∈ symbols) (hnames : cancel.names (.newOrder order))
    (hlt : order.serial < cancel.order.serial)
    (hunique : ∀ other ∈ orders s.pushed, cancel.names (.newOrder other) → other = order) (hexecuted : cancel ∈ s.executed) :
    .newOrder order ∈ s.executed ∧
      ∀ symbol, ∀ resting ∈ (s.engine.bookOf symbol).resting, resting.serial ≠ order.serial := by
  have hs := consistent_of_reachable h
  cases cancel with
  | newOrder other => cases hnames
  | cancelOrder request clientID =>
    obtain ⟨howner, hsymbol, hside, hid⟩ := id hnames
    have hcancel : (Task.cancelOrder request clientID).symbol = order.symbol := hsymbol.symm
    obtain ⟨front, rest, hsplit, hnot⟩ := List.eq_append_cons_of_mem hexecuted
    have hfront : .newOrder order ∈ front := (firstInOrder_of_reachable h hconfigured).executed_before hs.stamped
      (mem_orders.mp horder) rfl hcancel hlt hsplit hnot
    have hmem : .newOrder order ∈ s.executed := hsplit ▸ List.mem_append_left _ hfront
    refine ⟨hmem, fun symbol resting hresting hserial => ?_⟩
    obtain ⟨original, horiginal, rfl, _, hterms, hsame⟩ := exists_pushed_of_resting hs hresting
    have heq := hs.stamped.eq_of_serial (mem_orders.mp horiginal) (mem_orders.mp horder) (hsame.trans hserial)
    obtain rfl := Task.newOrder.inj heq
    have hunmatched : (Task.cancelOrder request clientID).unmatched (s.engine.bookOf original.symbol) = true := by
      rw [hs.executed.books original.symbol, log, hsplit]
      refine unmatched_of_executed rfl hcancel (fun other hother hnamed => hunique other (mem_orders.mpr ?_) hnamed) ?_ ?_
      · refine hs.executed_pushed (hsplit ▸ ?_)
        rcases List.mem_append.mp hother with hmem | hmem
        · exact List.mem_append_left _ hmem
        · exact List.mem_append_right _ (List.mem_cons_of_mem _ hmem)
      · -- A new order is executed once.
        have hnodup := (hs.stamped.nodup.filter (newOrderOf original.symbol)).sublist
          ((List.sublist_append_left _ _).trans (hs.newOrders original.symbol).1)
        rw [hsplit, List.filter_append, List.nodup_append] at hnodup
        have hselected : newOrderOf original.symbol (.newOrder original) = true := newOrderOf_iff.mpr ⟨rfl, rfl⟩
        intro hrest
        exact hnodup.2.2 _ (List.mem_filter.mpr ⟨hfront, hselected⟩) _
          (List.mem_filter.mpr ⟨List.mem_cons_of_mem _ hrest, hselected⟩) rfl
      · have hstamped := hs.stamped_log original.symbol
        rw [log, hsplit, symbolTasks_append] at hstamped
        exact List.pairwise_map.mpr (hstamped.left.increasing.imp fun hlt => hlt.ne)
    obtain ⟨side, hrests⟩ := OrderBook.mem_resting.mp hresting
    have hrestingSide : side = request.side := by
      rw [← hs.sided original.symbol side resting hrests, ← hterms, hside]
    subst hrestingSide
    have hnone := (OrderBook.find_eq_none_iff ..).mp (Option.isNone_iff_eq_none.mp hunmatched) resting hrests
    have hclient : resting.hasClient request.owner clientID = true :=
      (Order.hasClient_iff ..).mpr ⟨by rw [← hterms, hid], by rw [← hterms, howner]⟩
    rw [hclient] at hnone
    cases hnone

end Pipeline

/-- The request that a task stands for. -/
def Task.request : Task → Request
  | .newOrder order => ⟨order.toOrderTerms, "", .newOrder⟩
  | .cancelOrder order origClientOrderID => ⟨order.toOrderTerms, origClientOrderID, .cancelOrder⟩

namespace ClientServer

variable {undefined : ℚ → ℤ} {transmit : ℚ → Option ℚ} {session : String → String → Bool} {symbols : List String}
  {lines : String → List ClientRequestColumns} {s : ClientServer} {clientID : String}

/-- The message of a line of a client, once it was pushed to the dispatcher. -/
def messageOfLine (s : ClientServer) (clientID : String) (index : ℕ) : Option IncomingMessage :=
  (s.server.pipeline.pushed.filter fun message => message.order.owner = clientID)[index]?

namespace Linked

/-- The pushed messages of a client ask for the requests of its lines. -/
theorem request_of_messageOfLine (h : s.Linked undefined transmit session symbols lines) {index : ℕ}
    {message : IncomingMessage} (hmessage : s.messageOfLine clientID index = some message) :
    ∃ columns, (lines clientID)[index]? = some columns ∧
      message.request = columns.request undefined clientID index := by
  obtain ⟨waiting, _, hsent⟩ := h.sent clientID
  have hpushed : (s.pushedBy clientID)[index]? = some message.request := by
    rw [pushedBy, List.filter_map, List.getElem?_map]
    exact congrArg (Option.map IncomingMessage.request) hmessage
  have hrequest : (requestsUpTo undefined lines clientID (s.clients clientID).sent)[index]? = some message.request := by
    rw [← hsent, List.getElem?_append_left (List.getElem?_eq_some_iff.mp hpushed).1, hpushed]
  rw [requestsUpTo, List.getElem?_mapIdx] at hrequest
  obtain ⟨columns, hcolumns, heq⟩ := Option.map_eq_some_iff.mp hrequest
  rw [List.getElem?_take] at hcolumns
  split at hcolumns
  · exact ⟨columns, hcolumns, heq.symm⟩
  · cases hcolumns

/-- The task of a pushed message stands for the request of the message. -/
theorem task_request (h : s.Linked undefined transmit session symbols lines) {message : IncomingMessage}
    (hmessage : message ∈ s.server.pipeline.pushed) : message.task.request = message.request := by
  have hmem : message ∈ s.server.pipeline.pushed.filter fun other => other.order.owner = message.order.owner :=
    List.mem_filter.mpr ⟨hmessage, by simp⟩
  obtain ⟨index, hindex⟩ := List.mem_iff_getElem?.mp hmem
  obtain ⟨columns, _, hrequest⟩ := h.request_of_messageOfLine hindex
  rw [IncomingMessage.task]
  cases htype : message.type with
  | cancelOrder => rw [IncomingMessage.request, htype]; rfl
  | newOrder =>
    -- A request to enter an order names no other order.
    have horig : message.origClientOrderID = "" := by
      rw [IncomingMessage.request, ClientRequestColumns.request] at hrequest
      split at hrequest
      · exact congrArg Request.origClientOrderID hrequest
      · exact absurd (htype.symm.trans (congrArg Request.type hrequest)) (by simp)
    rw [IncomingMessage.request, htype, horig]
    rfl

/-- The message of a line that enters an order carries this order under the number of the line. -/
theorem newOrder_of_messageOfLine (h : s.Linked undefined transmit session symbols lines) {index : ℕ}
    {message : IncomingMessage} (hmessage : s.messageOfLine clientID index = some message) {columns : ClientRequestColumns}
    (hline : (lines clientID)[index]? = some columns) {price : ℚ} {quantity : ℤ}
    (hdetails : columns.details = .newOrder price quantity) :
    message.type = .newOrder ∧ message.order.symbol = columns.symbol ∧ message.order.owner = clientID ∧
      message.order.side = columns.side ∧ message.order.clientOrderID = toString (index + 1) := by
  obtain ⟨line, hline', hrequest⟩ := h.request_of_messageOfLine hmessage
  obtain rfl := Option.some.inj (hline.symm.trans hline')
  rw [ClientRequestColumns.request, hdetails, IncomingMessage.request, Request.mk.injEq] at hrequest
  obtain ⟨hterms, _, htype⟩ := hrequest
  exact ⟨htype, by rw [hterms], by rw [hterms], by rw [hterms], by rw [hterms]⟩

/-- The message of a line that cancels an order names it. -/
theorem cancelOrder_of_messageOfLine (h : s.Linked undefined transmit session symbols lines) {index : ℕ}
    {message : IncomingMessage} (hmessage : s.messageOfLine clientID index = some message) {columns : ClientRequestColumns}
    (hline : (lines clientID)[index]? = some columns) {origOrderID : String}
    (hdetails : columns.details = .cancelOrder origOrderID) :
    message.type = .cancelOrder ∧ message.order.symbol = columns.symbol ∧ message.order.owner = clientID ∧
      message.order.side = columns.side ∧ message.origClientOrderID = origOrderID := by
  obtain ⟨line, hline', hrequest⟩ := h.request_of_messageOfLine hmessage
  obtain rfl := Option.some.inj (hline.symm.trans hline')
  rw [ClientRequestColumns.request, hdetails, IncomingMessage.request, Request.mk.injEq] at hrequest
  obtain ⟨hterms, horig, htype⟩ := hrequest
  exact ⟨htype, by rw [hterms], by rw [hterms], by rw [hterms], horig⟩

/-- An order of a client is the one of a line. -/
theorem exists_messageOfLine (h : s.Linked undefined transmit session symbols lines) {order : Order}
    (horder : order ∈ Pipeline.orders s.server.pipeline.pushed) : ∃ index message,
      s.messageOfLine order.owner index = some message ∧ message.order = order ∧ message.type = .newOrder ∧
      order.clientOrderID = toString (index + 1) := by
  obtain ⟨message, hmessage, rfl⟩ := List.mem_map.mp horder
  obtain ⟨hpushed, htype⟩ := List.mem_filter.mp hmessage
  have htype := beq_iff_eq.mp htype
  have hmem : message ∈ s.server.pipeline.pushed.filter fun other => other.order.owner = message.order.owner :=
    List.mem_filter.mpr ⟨hpushed, by simp⟩
  obtain ⟨index, hindex⟩ := List.mem_iff_getElem?.mp hmem
  refine ⟨index, message, hindex, rfl, htype, ?_⟩
  obtain ⟨columns, hline, hrequest⟩ := h.request_of_messageOfLine hindex
  cases hdetails : columns.details with
  | newOrder price quantity => exact (h.newOrder_of_messageOfLine hindex hline hdetails).2.2.2.2
  | cancelOrder origOrderID =>
    have hcancel := (h.cancelOrder_of_messageOfLine hindex hline hdetails).1
    rw [htype] at hcancel
    cases hcancel

end Linked

/-- The requests of a client up to a number are the first ones of its file. -/
theorem prefix_requestsUpTo (sent : ℕ) : requestsUpTo undefined lines clientID sent <+:
    (lines clientID).mapIdx fun index columns => columns.request undefined clientID index := by
  refine ⟨((lines clientID).drop sent).mapIdx fun index columns =>
    columns.request undefined clientID (index + ((lines clientID).take sent).length), ?_⟩
  rw [requestsUpTo, ← List.mapIdx_append, List.take_append_drop]

/-- The messages of a client are stamped in the order of its lines. -/
theorem serial_lt_of_messageOfLine (hstamped : Pipeline.StampedMessages s.server.pipeline.pushed) {i j : ℕ} (hij : i < j)
    {earlier later : IncomingMessage} (hearlier : s.messageOfLine clientID i = some earlier)
    (hlater : s.messageOfLine clientID j = some later) : earlier.order.serial < later.order.serial := by
  have hincreasing : s.server.pipeline.pushed.Pairwise fun x y => x.order.serial < y.order.serial := by
    simpa [List.pairwise_map] using hstamped.increasing
  obtain ⟨hi, hgetEarlier⟩ := List.getElem?_eq_some_iff.mp hearlier
  obtain ⟨hj, hgetLater⟩ := List.getElem?_eq_some_iff.mp hlater
  rw [← hgetEarlier, ← hgetLater]
  exact List.pairwise_iff_getElem.mp (hincreasing.filter _) i j hi hj hij

end ClientServer

end MatchingEngine
