import MatchingEngine.SequentialRefinement

/-!
# The messages about one order

The dispatcher answers an order before it submits the task, and the worker's reports on it
follow its life in the book. In the outgoing queue, which both threads write, the messages
about an accepted order are therefore the acceptance, partial fills, and at most one final
fill or cancel.

Each report carries a copy of the order as the report left it, so that consecutive copies
differ by one execution, and the last copy is what rests in the book.
-/

namespace MatchingEngine

/-- Whether a message ends the life of an order. -/
def OutgoingMessageType.final : OutgoingMessageType → Bool
  | .filled | .canceled => true
  | .accepted | .partiallyField | .rejected => false

/-- Whether a message reports an execution. -/
def OutgoingMessageType.fill : OutgoingMessageType → Bool
  | .filled | .partiallyField => true
  | .accepted | .canceled | .rejected => false

/-- The message that accepts an order. -/
def acceptedMessage (order : Order) : OutgoingMessage := ⟨order, .accepted, ""⟩

/-- What the messages about an accepted order look like: open, executed and total quantity of the
copies are the LeavesQty, CumQty and OrderQty of the reports. -/
structure Reported (order : Order) (messages : List OutgoingMessage) : Prop where
  sequence : ∃ partials last, messages = acceptedMessage order :: partials ++ last ∧
    (∀ message ∈ partials, message.type = .partiallyField) ∧ last.length ≤ 1 ∧
    ∀ message ∈ last, message.type = .filled ∨ message.type = .canceled
  balance : ∀ message ∈ messages, message.order.toOrderTerms = order.toOrderTerms ∧
    message.order.openQuantity + message.order.executedQuantity = order.quantity
  cumulative : messages.IsChain fun previous message => message.type.fill = true →
    message.order.executedQuantity = previous.order.executedQuantity + message.order.lastExecutedQuantity
  filled : ∀ message ∈ messages, message.type.fill = true →
    (message.type = .filled ↔ message.order.openQuantity = 0)

namespace Lifecycle

variable {order : Order} {messages : List OutgoingMessage} {state : Option Order}

/-- Executions do not change the terms. -/
theorem terms {resting : Order} (h : Lifecycle order messages (some resting)) :
    resting.toOrderTerms = order.toOrderTerms := by
  generalize hstate : some resting = state at h
  induction h generalizing resting with
  | submitted => exact Option.some.inj hstate ▸ rfl
  | fill price quantity _ ih =>
    split at hstate
    · cases hstate
    · rw [Option.some.inj hstate, Order.execute_toOrderTerms]
      exact ih rfl
  | canceled => cases hstate

/-- A prefix of the reports is from an earlier time of the life. -/
theorem of_prefix (h : Lifecycle order messages state) {front : List OutgoingMessage} (hfront : front <+: messages) :
    ∃ earlier, Lifecycle order front earlier := by
  induction h with
  | submitted =>
    rw [List.prefix_nil.mp hfront]
    exact ⟨_, .submitted⟩
  | fill price quantity hlife ih =>
    rcases List.prefix_concat_iff.mp hfront with rfl | hfront
    · exact ⟨_, hlife.fill price quantity⟩
    · exact ih hfront
  | canceled hlife ih =>
    rcases List.prefix_concat_iff.mp hfront with rfl | hfront
    · exact ⟨_, hlife.canceled⟩
    · exact ih hfront

end Lifecycle

/-- An order that was only accepted. -/
theorem reported_accepted (order : Order) : Reported order [acceptedMessage order] where
  sequence := ⟨[], [], rfl, by simp, by simp, by simp⟩
  balance := by
    intro message hmessage
    rw [List.mem_singleton.mp hmessage]
    exact ⟨rfl, order.balance⟩
  cumulative := .singleton _
  filled := by
    intro message hmessage hfill
    rw [List.mem_singleton.mp hmessage] at hfill
    cases hfill

/-- Partial fills can be followed by a further partial fill or by a final message. -/
theorem Reported.concat {order : Order} {messages : List OutgoingMessage}
    (h : Reported order (acceptedMessage order :: messages))
    (hpartials : ∀ message ∈ messages, message.type = .partiallyField) {last message : OutgoingMessage}
    (hlast : (acceptedMessage order :: messages).getLast? = some last)
    (hterms : message.order.toOrderTerms = order.toOrderTerms)
    (htype : message.type = .partiallyField ∨ message.type = .filled ∨ message.type = .canceled)
    (hcumulative : message.type.fill = true →
      message.order.executedQuantity = last.order.executedQuantity + message.order.lastExecutedQuantity)
    (hfilled : message.type.fill = true → (message.type = .filled ↔ message.order.openQuantity = 0)) :
    Reported order (acceptedMessage order :: (messages ++ [message])) := by
  refine ⟨?_, fun m hm => ?_, ?_, fun m hm => ?_⟩
  · rcases htype with htype | htype
    · refine ⟨messages ++ [message], [], by simp, fun m hm => ?_, by simp, by simp⟩
      rcases List.mem_append.mp hm with hm | hm
      · exact hpartials m hm
      · exact List.mem_singleton.mp hm ▸ htype
    · exact ⟨messages, [message], by simp, hpartials, le_rfl, fun m hm => List.mem_singleton.mp hm ▸ htype⟩
  · rw [← List.cons_append] at hm
    rcases List.mem_append.mp hm with hm | hm
    · exact h.balance m hm
    · rw [List.mem_singleton.mp hm]
      exact ⟨hterms, hterms ▸ message.order.balance⟩
  · rw [← List.cons_append, List.isChain_append]
    refine ⟨h.cumulative, .singleton _, fun x hx y hy => ?_⟩
    rw [hlast, Option.mem_some_iff] at hx
    rw [List.head?_cons, Option.mem_some_iff] at hy
    exact hx ▸ hy ▸ hcumulative
  · rw [← List.cons_append] at hm
    rcases List.mem_append.mp hm with hm | hm
    · exact h.filled m hm
    · rw [List.mem_singleton.mp hm]
      exact hfilled

namespace Lifecycle

variable {order : Order} {messages : List OutgoingMessage} {state : Option Order}

/-- The reports of a life, after the acceptance: as long as the order rests, all are partial fills and
the last copy is what rests; otherwise the last message is final. -/
theorem reported (h : Lifecycle order messages state) :
    Reported order (acceptedMessage order :: messages) ∧
      (∀ resting, state = some resting → (∀ message ∈ messages, message.type = .partiallyField) ∧
        ∃ last, (acceptedMessage order :: messages).getLast? = some last ∧ last.order = resting) ∧
      (state = none → ∃ front last, messages = front ++ [last] ∧ last.type.final = true) := by
  induction h with
  | submitted =>
    refine ⟨reported_accepted order, fun resting hresting => ⟨by simp, _, rfl, ?_⟩, fun hnone => by cases hnone⟩
    exact Option.some.inj hresting
  | @fill messages resting price quantity hlife ih =>
    obtain ⟨hreported, hresting, _⟩ := ih
    obtain ⟨hpartials, last, hlast, rfl⟩ := hresting resting rfl
    have hterms : (last.order.execute price quantity).toOrderTerms = order.toOrderTerms := hlife.terms
    have hcumulative : (last.order.execute price quantity).executedQuantity =
        last.order.executedQuantity + (last.order.execute price quantity).lastExecutedQuantity := by
      rw [Order.execute_executedQuantity, Order.execute_lastExecutedQuantity]
    by_cases hfilled : (last.order.execute price quantity).isFilled = true
    · have htype : (OrderBook.fillMessage (last.order.execute price quantity)).type = .filled := if_pos hfilled
      refine ⟨hreported.concat hpartials hlast hterms (Or.inr (Or.inl htype)) (fun _ => hcumulative) fun _ => ?_,
        fun resting hresting => by simp [hfilled] at hresting, fun _ => ⟨messages, _, rfl, by rw [htype]; rfl⟩⟩
      exact iff_of_true htype ((Order.isFilled_iff _).mp hfilled)
    · have htype : (OrderBook.fillMessage (last.order.execute price quantity)).type = .partiallyField := if_neg hfilled
      refine ⟨hreported.concat hpartials hlast hterms (Or.inl htype) (fun _ => hcumulative) fun _ => ?_,
        fun resting hresting => ⟨fun message hmessage => ?_, _, by rw [← List.cons_append, List.getLast?_concat], ?_⟩,
        fun hnone => by simp [hfilled] at hnone⟩
      · rw [htype]
        exact iff_of_false (by decide) fun hopen => hfilled ((Order.isFilled_iff _).mpr hopen)
      · rcases List.mem_append.mp hmessage with hmessage | hmessage
        · exact hpartials message hmessage
        · exact List.mem_singleton.mp hmessage ▸ htype
      · rw [if_neg hfilled] at hresting
        exact Option.some.inj hresting
  | @canceled messages resting hlife ih =>
    obtain ⟨hreported, hresting, _⟩ := ih
    obtain ⟨hpartials, last, hlast, rfl⟩ := hresting resting rfl
    have hterms : last.order.cancel.toOrderTerms = order.toOrderTerms := hlife.terms
    refine ⟨hreported.concat hpartials hlast hterms (Or.inr (Or.inr rfl)) (fun hfill => by cases hfill)
      (fun hfill => by cases hfill), fun _ hnone => (by cases hnone), fun _ => ⟨messages, _, rfl, rfl⟩⟩

/-- After partial fills, only the last message can be final. -/
theorem eq_nil_of_concat {early front rest : List OutgoingMessage} {message last : OutgoingMessage}
    (hpartials : ∀ message ∈ early, message.type = .partiallyField)
    (hmessages : early ++ [last] = front ++ message :: rest) (hfinal : message.type.final = true) : rest = [] := by
  rcases List.eq_nil_or_concat rest with hrest | ⟨between, x, rfl⟩
  · exact hrest
  · rw [List.concat_eq_append, ← List.cons_append, ← List.append_assoc] at hmessages
    have hearly := (List.append_inj_left' hmessages rfl).symm ▸ List.mem_append_right front (List.mem_cons_self ..)
    rw [hpartials message hearly] at hfinal
    cases hfinal

/-- A final message is the last of a life. -/
theorem eq_nil_of_final (h : Lifecycle order messages state) {front rest : List OutgoingMessage}
    {message : OutgoingMessage} (hmessages : messages = front ++ message :: rest) (hfinal : message.type.final = true) :
    rest = [] := by
  cases h with
  | submitted => simp at hmessages
  | fill price quantity hlife => exact eq_nil_of_concat (hlife.reported.2.1 _ rfl).1 hmessages hfinal
  | canceled hlife => exact eq_nil_of_concat (hlife.reported.2.1 _ rfl).1 hmessages hfinal

end Lifecycle

namespace Pipeline

variable {symbols : List String} {s t : Pipeline}

/-- The answers among messages. -/
def answers (messages : List OutgoingMessage) : List OutgoingMessage :=
  messages.filter fun message => !message.type.ofBook

/-- The orders of the new-order messages. -/
def orders (messages : List IncomingMessage) : List Order :=
  (messages.filter fun message => message.type == .newOrder).map IncomingMessage.order

/-- The orders that are still to be answered: the dispatcher has not begun their calls, or their answer is
its next operation. -/
def unanswered (s : Pipeline) : List Order :=
  (enqueued s.dispatching).map OutgoingMessage.order ++ orders (s.flushed ++ s.incoming)

/-- The invariant of the answers: every order of a dispatched message is answered once, an order on a
configured symbol by its acceptance, and before its task is submitted. -/
structure Answered (symbols : List String) (s : Pipeline) : Prop where
  answered : (answers s.engine.outgoingMessages).map OutgoingMessage.order ++ s.unanswered = orders s.pushed
  accepted : ∀ message ∈ answers s.engine.outgoingMessages ++ enqueued s.dispatching,
    message.order.symbol ∈ symbols → message = acceptedMessage message.order
  submits : ∀ message rest, s.dispatching = .enqueue message :: rest → message.order.symbol ∈ symbols →
    .submitTask (.newOrder message.order) (queueOf symbols message.order.symbol) ∈ rest
  single : enqueued s.dispatching.tail = []
  ordered : s.engine.outgoingMessages.Pairwise fun earlier later => earlier.type.ofBook = true →
    later.type.ofBook = false → later.order.symbol ∈ symbols → earlier.order.serial ≠ later.order.serial

/-- Reports that have been enqueued are on executed new orders. -/
theorem Consistent.exists_executed (h : s.Consistent symbols) {message : OutgoingMessage}
    (hmessage : message ∈ s.engine.outgoingMessages) (hreport : message.type.ofBook = true) :
    ∃ order, .newOrder order ∈ s.executed ∧ order.symbol = message.order.symbol ∧ order.serial = message.order.serial := by
  have hmem : message ∈ bookMessages message.order.symbol s.engine.outgoingMessages :=
    List.mem_filter.mpr ⟨hmessage, by simp [hreport]⟩
  have hreports := h.executed.reports message.order.symbol
  obtain ⟨original, horiginal, hterms, hserial⟩ := (OrderBook.originates_executeAll _).2.2 message
    (hreports ▸ List.mem_append_left _ hmem)
  exact ⟨original, (mem_newOrders_symbolTasks.mp horiginal).1, congrArg OrderTerms.symbol hterms, hserial⟩

/-- Executed new orders were pushed. -/
theorem Consistent.executed_pushed (h : s.Consistent symbols) {order : Order} (horder : .newOrder order ∈ s.executed) :
    .newOrder order ∈ s.pushed.map IncomingMessage.task := by
  have hmem : Task.newOrder order ∈ s.executed.filter (newOrderOf order.symbol) :=
    List.mem_filter.mpr ⟨horder, newOrderOf_iff.mpr ⟨rfl, rfl⟩⟩
  exact List.mem_of_mem_filter ((h.newOrders order.symbol).1.subset (List.mem_append_left _ hmem))

/-- Pushed tasks with the same number are the same task. -/
theorem StampedMessages.eq_of_serial {pushed : List IncomingMessage} (h : StampedMessages pushed) {x y : Task}
    (hx : x ∈ pushed.map IncomingMessage.task) (hy : y ∈ pushed.map IncomingMessage.task)
    (hserial : x.order.serial = y.order.serial) : x = y := by
  obtain ⟨i, hi, rfl⟩ := List.mem_iff_getElem.mp hx
  obtain ⟨j, hj, rfl⟩ := List.mem_iff_getElem.mp hy
  have hpairwise := List.pairwise_iff_getElem.mp h.increasing
  rcases lt_trichotomy i j with hlt | rfl | hlt
  · exact absurd hserial (hpairwise i j hi hj hlt).ne
  · rfl
  · exact absurd hserial (hpairwise j i hj hi hlt).ne'

/-- A new order on its way to its worker was not executed. -/
theorem Consistent.not_executed (h : s.Consistent symbols) {order : Order}
    (horder : .newOrder order ∈ s.upstream (queueOf symbols order.symbol)) : .newOrder order ∉ s.executed := by
  intro hexecuted
  have hnodup := (h.stamped.nodup.filter (newOrderOf order.symbol)).sublist (h.newOrders order.symbol).1
  have hselected : newOrderOf order.symbol (.newOrder order) = true := newOrderOf_iff.mpr ⟨rfl, rfl⟩
  exact (List.nodup_append.mp hnodup).2.2 _ (List.mem_filter.mpr ⟨hexecuted, hselected⟩) _
    (List.mem_filter.mpr ⟨horder, hselected⟩) rfl

/-- An order that is not yet executed has no reports. -/
theorem Consistent.no_reports (h : s.Consistent symbols) {order : Order}
    (horder : .newOrder order ∈ s.pushed.map IncomingMessage.task) (hnew : .newOrder order ∉ s.executed) :
    ∀ message ∈ s.engine.outgoingMessages, message.type.ofBook = true → message.order.serial ≠ order.serial := by
  intro message hmessage hreport hserial
  obtain ⟨original, hexecuted, _, hsame⟩ := h.exists_executed hmessage hreport
  have heq := h.stamped.eq_of_serial (h.executed_pushed hexecuted) horder (hsame.trans hserial)
  exact hnew (heq ▸ hexecuted)

@[simp] theorem answers_append (messages more : List OutgoingMessage) :
    answers (messages ++ more) = answers messages ++ answers more :=
  List.filter_append ..

@[simp] theorem orders_append (messages more : List IncomingMessage) :
    orders (messages ++ more) = orders messages ++ orders more := by
  rw [orders, List.filter_append, List.map_append]
  rfl

/-- The orders of new-order messages are those of the new-order tasks. -/
theorem mem_orders {messages : List IncomingMessage} {order : Order} :
    order ∈ orders messages ↔ .newOrder order ∈ messages.map IncomingMessage.task := by
  simp only [orders, List.mem_map, List.mem_filter, beq_iff_eq]
  refine exists_congr fun message => ?_
  unfold IncomingMessage.task
  cases message.type with
  | newOrder => simp
  | cancelOrder => simp

/-- Messages that are all answers are selected, and reports are not. -/
theorem answers_eq_self {messages : List OutgoingMessage} (h : ∀ message ∈ messages, message.type.ofBook = false) :
    answers messages = messages :=
  List.filter_eq_self.mpr fun message hmessage => by rw [h message hmessage]; rfl

theorem answers_eq_nil {messages : List OutgoingMessage} (h : ∀ message ∈ messages, message.type.ofBook = true) :
    answers messages = [] :=
  List.filter_eq_nil_iff.mpr fun message hmessage => by simp [h message hmessage]

/-- A new order is answered once, and a cancel is not; on a configured symbol the answer is the
acceptance, followed by the submission. -/
theorem dispatchWork_answered (h : s.Static symbols) (message : IncomingMessage) :
    (enqueued (dispatchWork s.engine message).2).map OutgoingMessage.order = orders [message] ∧
      (∀ answer ∈ enqueued (dispatchWork s.engine message).2, answer.order.symbol ∈ symbols →
        answer = acceptedMessage answer.order) ∧
      (∀ answer rest, (dispatchWork s.engine message).2 = .enqueue answer :: rest → answer.order.symbol ∈ symbols →
        .submitTask (.newOrder answer.order) (queueOf symbols answer.order.symbol) ∈ rest) ∧
      enqueued (dispatchWork s.engine message).2.tail = [] := by
  cases htype : message.type with
  | newOrder =>
    have horders : orders [message] = [message.order] := by simp [orders, htype]
    simp only [dispatchWork, htype, CentralOrderBook.addOrderWork, horders]
    split
    · refine ⟨rfl, fun answer hanswer _ => ?_, fun answer rest heq _ => ?_, rfl⟩
      · rw [enqueued_enqueue, enqueued_submitTask, enqueued_nil, List.mem_singleton] at hanswer
        rw [hanswer]
        rfl
      · rw [List.cons.injEq, QueueOperation.enqueue.injEq] at heq
        obtain ⟨rfl, rfl⟩ := heq
        rw [h.queueIDs]
        exact List.mem_singleton_self _
    · rename_i hexists
      have hnot : message.order.symbol ∉ symbols := fun hsymbol =>
        hexists ((CentralOrderBook.doesOrderBookExist_iff _).mpr (h.books _ hsymbol))
      refine ⟨rfl, fun answer hanswer hsymbol => ?_, fun answer rest heq hsymbol => ?_, rfl⟩
      · rw [CentralOrderBook.rejectOrderWork, enqueued_enqueue, enqueued_nil, List.mem_singleton] at hanswer
        rw [hanswer] at hsymbol
        exact absurd hsymbol hnot
      · rw [CentralOrderBook.rejectOrderWork, List.cons.injEq, QueueOperation.enqueue.injEq] at heq
        rw [← heq.1] at hsymbol
        exact absurd hsymbol hnot
  | cancelOrder =>
    have horders : orders [message] = [] := by simp [orders, htype]
    simp only [dispatchWork, htype, CentralOrderBook.cancelOrderWork, horders]
    exact ⟨rfl, fun answer hanswer => absurd hanswer List.not_mem_nil, fun answer rest heq => by simp at heq, rfl⟩

/-- The dispatcher enqueues the answer to an order that has no reports yet. -/
theorem Answered.enqueue (h : s.Answered symbols) (hs : s.Consistent symbols) {message : OutgoingMessage}
    {operations : List QueueOperation} (hdispatching : s.dispatching = .enqueue message :: operations)
    (hsymbol : message.order.symbol ∈ symbols) :
    ∀ earlier ∈ s.engine.outgoingMessages, earlier.type.ofBook = true →
      earlier.order.serial ≠ message.order.serial := by
  have hsubmit := h.submits message operations hdispatching hsymbol
  have hpushed : message.order ∈ orders s.pushed := by
    rw [← h.answered, unanswered, hdispatching, enqueued_enqueue]
    simp
  have hupstream : .newOrder message.order ∈ s.upstream (queueOf symbols message.order.symbol) := by
    have hmem : .newOrder message.order ∈ submitted (queueOf symbols message.order.symbol) s.dispatching := by
      rw [mem_submitted, hdispatching]
      exact List.mem_cons_of_mem _ hsubmit
    simp [upstream, hmem]
  exact hs.no_reports (mem_orders.mp hpushed) (hs.not_executed hupstream)

/-- Every step keeps the invariant of the answers. -/
theorem Answered.next (h : s.Answered symbols) (hs : s.Consistent symbols) {label : Label}
    (hnext : Pipeline.next label s = some t) : t.Answered symbols := by
  obtain ⟨request, _, rfl⟩ | ⟨_, hflushed, _, rfl⟩ | ⟨message, rest, _, hflushed, hdispatching, rfl⟩ |
    ⟨operation, operations, _, hdispatching, rfl⟩ | ⟨_, _, _, _, _, _, _, rfl⟩ | ⟨_, task, _, _, rfl⟩ |
    ⟨q, operation, operations, _, hworking, rfl⟩ := next_cases hnext
  · refine ⟨?_, h.accepted, h.submits, h.single, h.ordered⟩
    rw [orders_append, ← h.answered]
    simp only [unanswered, orders_append, List.append_assoc]
  · refine ⟨?_, h.accepted, h.submits, h.single, h.ordered⟩
    rw [← h.answered, unanswered, unanswered, hflushed, List.append_nil, List.nil_append]
  · obtain ⟨horders, haccepted, hsubmits, hsingle⟩ := dispatchWork_answered hs.routed.toStatic message
    have hout := (dispatchWork_sameQueues s.engine message).outgoingMessages
    refine ⟨?_, fun answer hanswer => ?_, hsubmits, hsingle, hout ▸ h.ordered⟩
    · have hrest : s.flushed ++ s.incoming = [message] ++ (rest ++ s.incoming) := by rw [hflushed]; rfl
      rw [← h.answered, unanswered, unanswered, hrest]
      simp only [hout, horders, hdispatching, enqueued_nil, List.map_nil, List.nil_append, orders_append]
    · simp only [hout] at hanswer
      rcases List.mem_append.mp hanswer with hanswer | hanswer
      · exact h.accepted answer (List.mem_append_left _ hanswer)
      · exact haccepted answer hanswer
  · have hsingle : enqueued operations = [] := by
      have hold := h.single
      rwa [hdispatching, List.tail_cons] at hold
    have htail : enqueued operations.tail = [] := List.sublist_nil.mp (hsingle ▸ (List.tail_sublist operations).filterMap _)
    have hsubmits : ∀ answer rest, operations = .enqueue answer :: rest → answer.order.symbol ∈ symbols →
        .submitTask (.newOrder answer.order) (queueOf symbols answer.order.symbol) ∈ rest := by
      rintro answer rest rfl
      simp at hsingle
    cases operation with
    | enqueue message =>
      have htype : message.type.ofBook = false := hs.executed.dispatching message (by rw [hdispatching]; simp)
      have hanswer : answers (s.engine.outgoingMessages ++ [message]) =
          answers s.engine.outgoingMessages ++ [message] := by
        rw [answers_append, answers_eq_self fun m hm => List.mem_singleton.mp hm ▸ htype]
      refine ⟨?_, fun answer hmem => ?_, hsubmits, htail, ?_⟩
      · simp only [unanswered, CentralOrderBook.afterOperations_outgoingMessages, enqueued_enqueue, enqueued_nil,
          hanswer, hsingle, List.map_append, List.map_nil, List.nil_append]
        rw [← h.answered, unanswered, hdispatching, enqueued_enqueue, hsingle, List.append_assoc, List.map_cons,
          List.map_nil]
      · simp only [CentralOrderBook.afterOperations_outgoingMessages, enqueued_enqueue, enqueued_nil, hanswer, hsingle,
          List.append_nil] at hmem
        refine h.accepted answer ?_
        rwa [hdispatching, enqueued_enqueue, hsingle]
      · simp only [CentralOrderBook.afterOperations_outgoingMessages, enqueued_enqueue, enqueued_nil]
        refine List.pairwise_append.mpr ⟨h.ordered, List.pairwise_singleton _ _, fun earlier hearlier later hlater => ?_⟩
        rw [List.mem_singleton.mp hlater]
        exact fun hreport _ hsymbol => h.enqueue hs hdispatching hsymbol earlier hearlier hreport
    | submitTask task id =>
      have hsame : enqueued s.dispatching = enqueued operations := by rw [hdispatching, enqueued_submitTask]
      have hout : (s.engine.afterOperations [.submitTask task id]).outgoingMessages = s.engine.outgoingMessages :=
        List.append_nil _
      refine ⟨?_, ?_, hsubmits, htail, hout ▸ h.ordered⟩
      · rw [unanswered, hout, ← hsame]
        exact h.answered
      · rw [hout, ← hsame]
        exact h.accepted
  · exact ⟨h.answered, h.accepted, h.submits, h.single, h.ordered⟩
  · have hout := (s.engine.taskWork_sameQueues task).outgoingMessages
    exact ⟨hout ▸ h.answered, hout ▸ h.accepted, h.submits, h.single, hout ▸ h.ordered⟩
  · have hreports : ∀ message ∈ enqueued [operation], message.type.ofBook = true := by
      intro message hmessage
      refine (hs.executed.working q message ?_).1
      rw [hworking, ← List.singleton_append, enqueued_append]
      exact List.mem_append_left _ hmessage
    have hanswers : answers (s.engine.afterOperations [operation]).outgoingMessages =
        answers s.engine.outgoingMessages := by
      rw [CentralOrderBook.afterOperations_outgoingMessages, answers_append, answers_eq_nil hreports, List.append_nil]
    refine ⟨hanswers ▸ h.answered, hanswers ▸ h.accepted, h.submits, h.single, ?_⟩
    simp only [CentralOrderBook.afterOperations_outgoingMessages]
    have hvacuous : ∀ later ∈ enqueued [operation], later.type.ofBook ≠ false := fun later hlater => by
      rw [hreports later hlater]
      decide
    refine List.pairwise_append.mpr ⟨h.ordered, ?_, fun earlier _ later hlater _ htype => absurd htype (hvacuous later hlater)⟩
    cases operation with
    | enqueue message => exact List.pairwise_singleton _ _
    | submitTask task id => exact .nil

/-- The answers are right in every state reached. -/
theorem answered_of_reachable (h : (pipeline symbols).Reachable s) : s.Answered symbols := by
  induction h with
  | start => exact ⟨rfl, fun _ hmem => absurd hmem List.not_mem_nil, fun _ _ heq => (by cases heq), rfl, .nil⟩
  | step hs _ hnext ih => exact ih.next (consistent_of_reachable hs) hnext

/-- A list in which nothing unselected comes after something selected is split by the selection. -/
theorem eq_filter_append_filter {α : Type*} {p : α → Bool} {l : List α}
    (h : l.Pairwise fun x y => p x = true → p y = true) : l = l.filter (fun x => !p x) ++ l.filter p := by
  induction l with
  | nil => rfl
  | cons x l ih =>
    obtain ⟨hx, hl⟩ := List.pairwise_cons.mp h
    by_cases hp : p x = true
    · have hall : ∀ y ∈ x :: l, p y = true := by
        intro y hy
        rcases List.mem_cons.mp hy with rfl | hy
        · exact hp
        · exact hx y hy hp
      rw [List.filter_eq_nil_iff.mpr fun y hy => by simp [hall y hy], List.nil_append, List.filter_eq_self.mpr hall]
    · rw [List.filter_cons_of_pos (by simpa using hp), List.filter_cons_of_neg hp, List.cons_append, ← ih hl]

/-- Of orders with increasing numbers, only one has a given number. -/
theorem filter_serial_eq_singleton {l : List Order} (h : l.Pairwise fun x y => x.serial < y.serial) {order : Order}
    (horder : order ∈ l) : l.filter (fun x => x.serial == order.serial) = [order] := by
  have hmem : order ∈ l.filter fun x => x.serial == order.serial := List.mem_filter.mpr ⟨horder, by simp⟩
  have hpairwise := h.filter fun x => x.serial == order.serial
  match hfilter : l.filter fun x => x.serial == order.serial with
  | [] => simp [hfilter] at hmem
  | [x] =>
    rw [hfilter, List.mem_singleton] at hmem
    rw [hfilter, hmem]
  | x :: y :: rest =>
    rw [hfilter] at hpairwise
    have hlt := (List.pairwise_cons.mp hpairwise).1 y (List.mem_cons_self ..)
    have hserial : ∀ z ∈ x :: y :: rest, z.serial = order.serial := fun z hz => by
      rw [← hfilter] at hz
      exact beq_iff_eq.mp (List.mem_filter.mp hz).2
    have hx := hserial x (List.mem_cons_self ..)
    have hy := hserial y (List.mem_cons_of_mem _ (List.mem_cons_self ..))
    omega

/-- Of orders with different numbers, those with a given number are determined by membership. -/
theorem filter_serial_eq_toList {l : List Order} (hdistinct : (l.map Order.serial).Nodup) {serial : ℕ}
    {state : Option Order} (hstate : ∀ order, (order ∈ l ∧ order.serial = serial) ↔ state = some order) :
    l.filter (fun order => order.serial == serial) = state.toList := by
  have hmem : ∀ order, order ∈ l.filter (fun order => order.serial == serial) ↔ state = some order := fun order => by
    rw [List.mem_filter, beq_iff_eq, hstate]
  cases state with
  | none => exact List.eq_nil_iff_forall_not_mem.mpr fun order horder => by cases (hmem order).mp horder
  | some resting =>
    refine List.perm_singleton.mp ((List.perm_ext_iff_of_nodup (hdistinct.of_map.filter _)
      (List.nodup_singleton resting)).mpr fun order => ?_)
    rw [hmem, List.mem_singleton, Option.some.injEq, eq_comm]

/-- The orders of pushed messages have increasing numbers. -/
theorem StampedMessages.orders_increasing {pushed : List IncomingMessage} (h : StampedMessages pushed) :
    (orders pushed).Pairwise fun x y => x.serial < y.serial := by
  have hincreasing := h.increasing
  rw [List.pairwise_map] at hincreasing
  rw [orders, List.pairwise_map]
  refine (hincreasing.imp fun {x y} hlt => ?_).filter _
  rwa [IncomingMessage.task_order, IncomingMessage.task_order] at hlt

section Order

variable (hs : s.Consistent symbols) (ha : s.Answered symbols) {order : Order} (horder : order ∈ orders s.pushed)
include hs ha horder

/-- Messages with the number of a pushed order are about this order. -/
theorem symbol_of_serial {message : OutgoingMessage} (hmessage : message ∈ s.engine.outgoingMessages)
    (hserial : message.order.serial = order.serial) : message.order.symbol = order.symbol := by
  cases htype : message.type.ofBook with
  | true =>
    obtain ⟨original, hexecuted, hsame, hnumber⟩ := hs.exists_executed hmessage htype
    have heq := hs.stamped.eq_of_serial (hs.executed_pushed hexecuted) (mem_orders.mp horder) (hnumber.trans hserial)
    rw [← hsame, Task.newOrder.inj heq]
  | false =>
    have hanswer : message ∈ answers s.engine.outgoingMessages := List.mem_filter.mpr ⟨hmessage, by simp [htype]⟩
    have hpushed : message.order ∈ orders s.pushed := by
      rw [← ha.answered]
      exact List.mem_append_left _ (List.mem_map_of_mem hanswer)
    have heq := hs.stamped.eq_of_serial (mem_orders.mp hpushed) (mem_orders.mp horder) hserial
    rw [Task.newOrder.inj heq]

variable (hsymbol : order.symbol ∈ symbols)
include hsymbol

/-- An order has been accepted once, or it is still to be answered and not executed yet. -/
theorem reportsOn_answers :
    reportsOn order.serial (answers s.engine.outgoingMessages) = [acceptedMessage order] ∨
      reportsOn order.serial (answers s.engine.outgoingMessages) = [] ∧ order ∈ s.unanswered ∧
        .newOrder order ∉ s.executed := by
  have hsingle := filter_serial_eq_singleton hs.stamped.orders_increasing horder
  have hmap : (reportsOn order.serial (answers s.engine.outgoingMessages)).map OutgoingMessage.order =
      ((answers s.engine.outgoingMessages).map OutgoingMessage.order).filter fun x => x.serial == order.serial := by
    rw [List.filter_map]
    rfl
  rw [← ha.answered, List.filter_append, ← hmap] at hsingle
  rcases List.append_eq_singleton_iff.mp hsingle with ⟨hnone, hrest⟩ | ⟨hone, _⟩
  · have hmem : order ∈ s.unanswered := List.mem_of_mem_filter (hrest ▸ List.mem_singleton_self order)
    refine Or.inr ⟨List.map_eq_nil_iff.mp hnone, hmem, hs.not_executed ?_⟩
    rcases List.mem_append.mp hmem with hmem | hmem
    · -- The answer is still to be enqueued, and then the task is to be submitted.
      obtain ⟨message, hmessage, rfl⟩ := List.mem_map.mp hmem
      have hsubmitted : .newOrder message.order ∈
          submitted (queueOf symbols message.order.symbol) s.dispatching := by
        rw [mem_submitted]
        cases hdispatching : s.dispatching with
        | nil => simp [hdispatching] at hmessage
        | cons operation operations =>
          have htail := ha.single
          rw [hdispatching, List.tail_cons] at htail
          cases operation with
          | enqueue first =>
            rw [hdispatching, enqueued_enqueue, htail, List.mem_singleton] at hmessage
            subst hmessage
            exact List.mem_cons_of_mem _ (ha.submits message operations hdispatching hsymbol)
          | submitTask task id => simp [hdispatching, htail] at hmessage
      simp [upstream, hsubmitted]
    · have htask := mem_orders.mp hmem
      rw [upstream]
      exact List.mem_append_right _ htask
  · obtain ⟨message, hmessage, rfl⟩ := List.map_eq_singleton_iff.mp hone
    refine Or.inl (hmessage.trans ?_)
    have hmem := List.mem_of_mem_filter (hmessage ▸ List.mem_singleton_self message)
    rw [← ha.accepted message (List.mem_append_left _ hmem) hsymbol]

/-- The messages about an order are its answer, followed by the reports. -/
theorem reportsOn_outgoingMessages :
    reportsOn order.serial s.engine.outgoingMessages =
      reportsOn order.serial (answers s.engine.outgoingMessages) ++
        reportsOn order.serial (bookMessages order.symbol s.engine.outgoingMessages) := by
  have hpairwise : (reportsOn order.serial s.engine.outgoingMessages).Pairwise fun x y =>
      x.type.ofBook = true → y.type.ofBook = true := by
    refine (ha.ordered.filter fun message => message.order.serial == order.serial).imp_of_mem ?_
    intro x y hx hy hxy hreport
    obtain ⟨hxmem, hxserial⟩ := List.mem_filter.mp hx
    obtain ⟨hymem, hyserial⟩ := List.mem_filter.mp hy
    rw [beq_iff_eq] at hxserial hyserial
    by_contra hanswer
    rw [Bool.not_eq_true] at hanswer
    have hysymbol := symbol_of_serial hs ha horder hymem hyserial
    exact hxy hreport hanswer (hysymbol ▸ hsymbol) (hxserial.trans hyserial.symm)
  rw [eq_filter_append_filter hpairwise]
  congr 1
  · rw [reportsOn, reportsOn, answers, List.filter_filter, List.filter_filter]
    exact List.filter_congr fun message _ => Bool.and_comm ..
  · rw [reportsOn, reportsOn, bookMessages, List.filter_filter, List.filter_filter]
    refine List.filter_congr fun message hmessage => ?_
    by_cases hserial : message.order.serial = order.serial
    · rw [symbol_of_serial hs ha horder hmessage hserial, beq_self_eq_true, Bool.and_true, Bool.and_comm]
    · rw [beq_false_of_ne hserial, Bool.false_and, Bool.and_false]

/-- The messages about an order are none, or its acceptance and the reports of its life; when all
reports are enqueued, what the life leaves of the order is what rests. -/
theorem order_lifecycle :
    (order ∈ s.unanswered ∧ .newOrder order ∉ s.executed ∧ reportsOn order.serial s.engine.outgoingMessages = []) ∨
      ∃ reports state, reportsOn order.serial s.engine.outgoingMessages = acceptedMessage order :: reports ∧
        Lifecycle order reports state ∧
        (.newOrder order ∈ s.executed → enqueued (s.working (queueOf symbols order.symbol)) = [] →
          (s.engine.bookOf order.symbol).restingWith order.serial = state.toList) := by
  rw [reportsOn_outgoingMessages hs ha horder hsymbol]
  by_cases hexecuted : .newOrder order ∈ s.executed
  · have hanswer := (reportsOn_answers hs ha horder hsymbol).resolve_right fun h => h.2.2 hexecuted
    have hdistinct : ((newOrders (s.log order.symbol)).map Order.serial).Nodup :=
      List.pairwise_map.mpr ((hs.stamped_log order.symbol).increasing.imp fun hlt => hlt.ne)
    have htracks := Tracks.executeAll hdistinct
    obtain ⟨state, hlife, hstate⟩ := htracks.lifecycle order (mem_newOrders_symbolTasks.mpr ⟨hexecuted, rfl⟩)
    rw [← hs.executed.reports order.symbol, reportsOn_append] at hlife
    by_cases hidle : enqueued (s.working (queueOf symbols order.symbol)) = []
    · rw [hidle, bookMessages_nil, reportsOn_nil, List.append_nil] at hlife
      refine Or.inr ⟨_, state, by rw [hanswer]; rfl, hlife, fun _ _ => ?_⟩
      rw [hs.executed.books order.symbol]
      exact filter_serial_eq_toList htracks.distinct hstate
    · obtain ⟨earlier, hearlier⟩ := hlife.of_prefix (List.prefix_append _ _)
      exact Or.inr ⟨_, earlier, by rw [hanswer]; rfl, hearlier, fun _ h => absurd h hidle⟩
  · have hnone : reportsOn order.serial (bookMessages order.symbol s.engine.outgoingMessages) = [] := by
      refine reportsOn_eq_nil fun message hmessage => ?_
      obtain ⟨hmem, hselected⟩ := List.mem_filter.mp hmessage
      exact hs.no_reports (mem_orders.mp horder) hexecuted message hmem (Bool.and_eq_true_iff.mp hselected).1
    rw [hnone, List.append_nil]
    rcases reportsOn_answers hs ha horder hsymbol with hanswer | ⟨hanswer, hunanswered, _⟩
    · exact Or.inr ⟨[], _, hanswer, .submitted, fun h => absurd h hexecuted⟩
    · exact Or.inl ⟨hunanswered, hexecuted, hanswer⟩

end Order

/-- A step only adds to the outgoing queue, and pushed messages stay pushed. -/
theorem next_appends {label : Label} (hnext : Pipeline.next label s = some t) :
    s.engine.outgoingMessages <+: t.engine.outgoingMessages ∧ s.pushed <+: t.pushed := by
  refine ⟨?_, (next_records hnext).2 ▸ List.prefix_append _ _⟩
  obtain ⟨_, _, rfl⟩ | ⟨_, _, _, rfl⟩ | ⟨message, _, _, _, _, rfl⟩ | ⟨operation, _, _, _, rfl⟩ |
    ⟨_, _, _, _, _, _, _, rfl⟩ | ⟨_, task, _, _, rfl⟩ | ⟨_, operation, _, _, _, rfl⟩ := next_cases hnext
  · exact List.prefix_refl _
  · exact List.prefix_refl _
  · rw [(dispatchWork_sameQueues s.engine message).outgoingMessages]
  · exact List.prefix_append _ _
  · exact List.prefix_refl _
  · rw [(s.engine.taskWork_sameQueues task).outgoingMessages]
  · exact List.prefix_append _ _

/-- Over a run, the outgoing queue is only added to, and pushed messages stay pushed. -/
theorem run_appends {labels : List Label} (hrun : (pipeline symbols).run labels s = some t) :
    s.engine.outgoingMessages <+: t.engine.outgoingMessages ∧ s.pushed <+: t.pushed := by
  refine Machine.run_invariant
    (I := fun u => s.engine.outgoingMessages <+: u.engine.outgoingMessages ∧ s.pushed <+: u.pushed)
    (fun label u v hu hnext => ?_) ⟨List.prefix_refl _, List.prefix_refl _⟩ hrun
  have hstep := next_appends hnext
  exact ⟨hu.1.trans hstep.1, hu.2.trans hstep.2⟩

/-- Once a final message about an order is enqueued, no message about it follows. -/
theorem reportsOn_eq_of_final (h : (pipeline symbols).Reachable s) {order : Order} (horder : order ∈ orders s.pushed)
    (hsymbol : order.symbol ∈ symbols) {labels : List Label} (hrun : (pipeline symbols).run labels s = some t)
    {message : OutgoingMessage} (hmessage : message ∈ reportsOn order.serial s.engine.outgoingMessages)
    (hfinal : message.type.final = true) :
    reportsOn order.serial t.engine.outgoingMessages = reportsOn order.serial s.engine.outgoingMessages := by
  have ht : (pipeline symbols).Reachable t := h.run (fun _ _ _ => trivial) hrun
  obtain ⟨⟨added, hadded⟩, hpushed⟩ := run_appends hrun
  have hlater : order ∈ orders t.pushed := (hpushed.filter _).map _ |>.subset horder
  rw [← hadded, reportsOn_append]
  rcases order_lifecycle (consistent_of_reachable ht) (answered_of_reachable ht) hlater hsymbol with
    ⟨_, _, hnone⟩ | ⟨reports, state, hreports, hlife, _⟩
  · rw [← hadded, reportsOn_append, List.append_eq_nil_iff] at hnone
    rw [hnone.1] at hmessage
    exact absurd hmessage List.not_mem_nil
  · rw [← hadded, reportsOn_append] at hreports
    obtain ⟨front, rest, hsplit⟩ := List.append_of_mem hmessage
    rw [hsplit, List.append_assoc] at hreports
    cases front with
    | nil =>
      rw [List.nil_append, List.cons_append, List.cons.injEq] at hreports
      rw [hreports.1] at hfinal
      cases hfinal
    | cons first front =>
      rw [List.cons_append, List.cons.injEq] at hreports
      have hnil := hlife.eq_nil_of_final hreports.2.symm hfinal
      rw [(List.append_eq_nil_iff.mp hnil).2, List.append_nil]

/-- In every run, the messages about an order on a configured symbol are, once its call was answered, an
acceptance, partial fills and at most one final message, after which no other follows; the copy in the
last message is what rests in the book. -/
theorem order_messages (h : (pipeline symbols).Reachable s) {order : Order} (horder : order ∈ orders s.pushed)
    (hsymbol : order.symbol ∈ symbols) :
    (order ∈ s.unanswered ∧ .newOrder order ∉ s.executed ∧ reportsOn order.serial s.engine.outgoingMessages = [] ∨
        Reported order (reportsOn order.serial s.engine.outgoingMessages)) ∧
      (.newOrder order ∈ s.executed → enqueued (s.working (queueOf symbols order.symbol)) = [] →
        ∃ last, (reportsOn order.serial s.engine.outgoingMessages).getLast? = some last ∧
          (s.engine.bookOf order.symbol).restingWith order.serial = if last.type.final then [] else [last.order]) ∧
      ∀ labels t, (pipeline symbols).run labels s = some t →
        reportsOn order.serial s.engine.outgoingMessages <+: reportsOn order.serial t.engine.outgoingMessages ∧
        ∀ message ∈ reportsOn order.serial s.engine.outgoingMessages, message.type.final = true →
          reportsOn order.serial t.engine.outgoingMessages = reportsOn order.serial s.engine.outgoingMessages := by
  refine ⟨?_, fun hexecuted hidle => ?_, fun labels t hrun => ⟨(run_appends hrun).1.filter _, fun message hmessage hfinal =>
    reportsOn_eq_of_final h horder hsymbol hrun hmessage hfinal⟩⟩
  · rcases order_lifecycle (consistent_of_reachable h) (answered_of_reachable h) horder hsymbol with
      hnone | ⟨reports, state, hreports, hlife, _⟩
    · exact Or.inl hnone
    · rw [hreports]
      exact Or.inr hlife.reported.1
  · obtain ⟨_, hnot, _⟩ | ⟨reports, state, hreports, hlife, hbook⟩ :=
      order_lifecycle (consistent_of_reachable h) (answered_of_reachable h) horder hsymbol
    · exact absurd hexecuted hnot
    rw [hreports, hbook hexecuted hidle]
    cases state with
    | some resting =>
      obtain ⟨hpartials, last, hlast, hcopy⟩ := hlife.reported.2.1 resting rfl
      refine ⟨last, hlast, ?_⟩
      have hmem := List.mem_of_getLast? hlast
      have hnotFinal : last.type.final = false := by
        rcases List.mem_cons.mp hmem with rfl | hmem
        · rfl
        · rw [hpartials last hmem]
          rfl
      rw [hnotFinal, hcopy]
      rfl
    | none =>
      obtain ⟨front, last, hfront, hfinal⟩ := hlife.reported.2.2 rfl
      refine ⟨last, ?_, by rw [hfinal]; rfl⟩
      rw [hfront, ← List.cons_append, List.getLast?_concat]

/-- A run in which an order is accepted, executed and cancelled. -/
theorem order_messages_order_and_cancel :
    ∃ s, (pipeline ["A"]).run
        [.push (exampleRequest "A" .newOrder), .push (exampleRequest "A" .cancelOrder), .flush, .dispatch,
          .dispatcherOperation, .dispatcherOperation, .dispatch, .dispatcherOperation, .pop 0, .execute 0, .pop 0,
          .execute 0, .workerOperation 0] (pipeline ["A"]).start = some s ∧
      ∃ order, Reported order (reportsOn order.serial s.engine.outgoingMessages) ∧
        ∃ last, (reportsOn order.serial s.engine.outgoingMessages).getLast? = some last ∧
          (s.engine.bookOf order.symbol).restingWith order.serial = if last.type.final then [] else [last.order] := by
  obtain ⟨s, hrun, hpushed, hexecuted, hworking⟩ : ∃ s, (pipeline ["A"]).run
        [.push (exampleRequest "A" .newOrder), .push (exampleRequest "A" .cancelOrder), .flush, .dispatch,
          .dispatcherOperation, .dispatcherOperation, .dispatch, .dispatcherOperation, .pop 0, .execute 0, .pop 0,
          .execute 0, .workerOperation 0] (pipeline ["A"]).start = some s ∧
      orders s.pushed = [((exampleRequest "A" .newOrder).message 0).order] ∧
      s.executed = s.pushed.map IncomingMessage.task ∧ enqueued (s.working (queueOf ["A"] "A")) = [] :=
    ⟨_, rfl, rfl, rfl, rfl⟩
  have horder : ((exampleRequest "A" .newOrder).message 0).order ∈ orders s.pushed := hpushed ▸ List.mem_singleton_self _
  have hrun' := hexecuted ▸ mem_orders.mp horder
  obtain ⟨hmessages, hresting, _⟩ :=
    order_messages (Machine.reachable_of_run hrun) horder (List.mem_singleton_self "A")
  exact ⟨s, hrun, _, hmessages.resolve_left fun hnone => hnone.2.1 hrun', hresting hrun' hworking⟩

end Pipeline

end MatchingEngine
