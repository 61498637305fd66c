import MatchingEngine.OrderMessages

/-!
# Orders on any symbol

The dispatcher accepts an order when there is a book for its symbol. A cancel that a worker could
not match leaves a book for its symbol behind, so that an order on a symbol that is not configured
may be accepted later. On any symbol, the acceptance of an order is enqueued before its task is
submitted, and the task of a rejected order is never submitted.
-/

namespace MatchingEngine

/-- The answer of `addOrder` to an order that it rejects. -/
def rejectedMessage (order : Order) : OutgoingMessage := ⟨order, .rejected, "Symbol not supported"⟩

/-- Whether a message ends its order: it tells that nothing of the order is left, or rejects it. -/
def OutgoingMessageType.ends : OutgoingMessageType → Bool
  | .filled | .canceled | .rejected => true
  | .accepted | .partiallyField => false

/-- A message that ends its order is final or a rejection. -/
theorem OutgoingMessageType.final_or_rejected {type : OutgoingMessageType} (h : type.ends = true) :
    type.final = true ∨ type = .rejected := by
  cases type with
  | filled | canceled => exact Or.inl rfl
  | rejected => exact Or.inr rfl
  | accepted | partiallyField => cases h

/-- A final message ends its order. -/
theorem OutgoingMessageType.ends_of_final {type : OutgoingMessageType} (h : type.final = true) : type.ends = true := by
  cases type with
  | filled | canceled | rejected => rfl
  | accepted | partiallyField => cases h

/-- No report of the life of an order rejects it. -/
theorem Lifecycle.ne_rejected {order : Order} {messages : List OutgoingMessage} {state : Option Order}
    (h : Lifecycle order messages state) : ∀ message ∈ messages, message.type ≠ .rejected := by
  induction h with
  | submitted => simp
  | fill price quantity _ ih =>
    intro message hmessage
    rcases List.mem_append.mp hmessage with hmem | hmem
    · exact ih message hmem
    · rw [List.mem_singleton.mp hmem, OrderBook.fillMessage]
      split <;> simp
  | canceled _ ih =>
    intro message hmessage
    rcases List.mem_append.mp hmessage with hmem | hmem
    · exact ih message hmem
    · simp [List.mem_singleton.mp hmem]

namespace Pipeline

variable {symbols : List String} {s t : Pipeline}

/-- The dispatcher submits the task of an order next, or has submitted it. -/
def Placed (s : Pipeline) (order : Order) : Prop :=
  (∃ queueID, .submitTask (.newOrder order) queueID ∈ s.dispatching) ∨
    (∃ queueID, .newOrder order ∈ s.engine.threadQueues queueID) ∨
    (∃ queueID, s.holding queueID = some (.newOrder order)) ∨ .newOrder order ∈ s.executed

/-- What the dispatcher is still to do with a message. -/
def DispatchStage (symbols : List String) (operations : List QueueOperation) : Prop :=
  operations = [] ∨
    (∃ order, operations = [.enqueue (rejectedMessage order)]) ∨
    (∃ order : Order, operations = [.enqueue (acceptedMessage order),
      .submitTask (.newOrder order) (queueOf symbols order.symbol)]) ∨
    ∃ task : Task, operations = [.submitTask task (queueOf symbols task.symbol)]

/-- The orders of accepted orders' tasks are those that were accepted, and every answer is an acceptance or a
rejection. -/
structure Admitted (symbols : List String) (s : Pipeline) : Prop where
  stage : DispatchStage symbols s.dispatching
  placed : ∀ order, s.Placed order ↔ acceptedMessage order ∈ s.engine.outgoingMessages ++ enqueued s.dispatching
  answers : ∀ message ∈ answers s.engine.outgoingMessages,
    message = acceptedMessage message.order ∨ message = rejectedMessage message.order

/-- What the dispatcher does with a message. -/
theorem dispatchWork_stage (h : s.Static symbols) (message : IncomingMessage) :
    DispatchStage symbols (dispatchWork s.engine message).2 ∧
      ∀ order, (∃ queueID, .submitTask (.newOrder order) queueID ∈ (dispatchWork s.engine message).2) ↔
        acceptedMessage order ∈ enqueued (dispatchWork s.engine message).2 := by
  cases htype : message.type with
  | newOrder =>
    simp only [dispatchWork, htype, CentralOrderBook.addOrderWork]
    split
    · refine ⟨Or.inr (Or.inr (Or.inl ⟨message.order, by rw [h.queueIDs]; rfl⟩)), fun order => ?_⟩
      simp [acceptedMessage, eq_comm]
    · exact ⟨Or.inr (Or.inl ⟨message.order, rfl⟩), by simp [CentralOrderBook.rejectOrderWork, acceptedMessage]⟩
  | cancelOrder =>
    simp only [dispatchWork, htype, CentralOrderBook.cancelOrderWork]
    refine ⟨Or.inr (Or.inr (Or.inr ⟨.cancelOrder message.order message.origClientOrderID, by rw [h.queueIDs]; rfl⟩)), ?_⟩
    simp

/-- What is left of a stage after its first operation. -/
theorem DispatchStage.tail {operation : QueueOperation} {operations : List QueueOperation}
    (h : DispatchStage symbols (operation :: operations)) : DispatchStage symbols operations ∧ enqueued operations = [] := by
  obtain hnil | ⟨order, horder⟩ | ⟨order, horder⟩ | ⟨task, htask⟩ := h
  · cases hnil
  · obtain ⟨-, rfl⟩ := List.cons.inj horder
    exact ⟨Or.inl rfl, rfl⟩
  · obtain ⟨-, rfl⟩ := List.cons.inj horder
    exact ⟨Or.inr (Or.inr (Or.inr ⟨.newOrder order, rfl⟩)), rfl⟩
  · obtain ⟨-, rfl⟩ := List.cons.inj htask
    exact ⟨Or.inl rfl, rfl⟩

/-- An order is placed after a step exactly when it was before, as long as the dispatcher takes no message. -/
theorem placed_iff (hrouted : s.Routed symbols) {label : Label} (hnext : Pipeline.next label s = some t)
    (hlabel : label ≠ .dispatch) (order : Order) : t.Placed order ↔ s.Placed order := by
  obtain ⟨_, _, rfl⟩ | ⟨_, _, _, rfl⟩ | ⟨_, _, hdispatch, _⟩ | ⟨operation, operations, _, hdispatching, rfl⟩ |
    ⟨q, task, rest, _, hholding, _, hqueue, rfl⟩ | ⟨q, task, _, hholding, rfl⟩ |
    ⟨q, operation, operations, _, hworking, rfl⟩ := next_cases hnext
  · rfl
  · rfl
  · exact absurd hdispatch hlabel
  · simp only [Placed, hdispatching, CentralOrderBook.afterOperations_threadQueues, List.mem_append, mem_submitted,
      List.mem_cons, exists_or]
    tauto
  · have hqueues : (∃ queueID, .newOrder order ∈ (s.engine.withQueue q rest).threadQueues queueID) ∨
        (∃ queueID, Function.update s.holding q (some task) queueID = some (.newOrder order)) ↔
        (∃ queueID, .newOrder order ∈ s.engine.threadQueues queueID) ∨
          ∃ queueID, s.holding queueID = some (.newOrder order) := by
      constructor
      · rintro (⟨queueID, hmem⟩ | ⟨queueID, hheld⟩)
        · by_cases hq : queueID = q
          · subst hq
            exact Or.inl ⟨queueID, hqueue ▸ List.mem_cons_of_mem _ (by simpa [CentralOrderBook.withQueue] using hmem)⟩
          · exact Or.inl ⟨queueID, by simpa [CentralOrderBook.withQueue, hq] using hmem⟩
        · by_cases hq : queueID = q
          · subst hq
            rw [Function.update_self, Option.some.injEq] at hheld
            exact Or.inl ⟨queueID, by rw [hqueue, hheld]; exact List.mem_cons_self ..⟩
          · exact Or.inr ⟨queueID, by rwa [Function.update_of_ne hq] at hheld⟩
      · rintro (⟨queueID, hmem⟩ | ⟨queueID, hheld⟩)
        · by_cases hq : queueID = q
          · subst hq
            rw [hqueue] at hmem
            rcases List.mem_cons.mp hmem with heq | hmem
            · exact Or.inr ⟨queueID, by rw [Function.update_self, heq]⟩
            · exact Or.inl ⟨queueID, by simpa [CentralOrderBook.withQueue] using hmem⟩
          · exact Or.inl ⟨queueID, by simpa [CentralOrderBook.withQueue, hq] using hmem⟩
        · by_cases hq : queueID = q
          · subst hq
            rw [hholding] at hheld
            cases hheld
          · exact Or.inr ⟨queueID, by rwa [Function.update_of_ne hq]⟩
    exact or_congr_right ((or_assoc.symm.trans (or_congr_left hqueues)).trans or_assoc)
  · have hheld : (∃ queueID, Function.update s.holding q none queueID = some (.newOrder order)) ∨
        .newOrder order ∈ s.executed ++ [task] ↔
        (∃ queueID, s.holding queueID = some (.newOrder order)) ∨ .newOrder order ∈ s.executed := by
      rw [List.mem_append, List.mem_singleton]
      constructor
      · rintro (⟨queueID, hother⟩ | hexecuted | heq)
        · by_cases hq : queueID = q
          · subst hq
            simp at hother
          · exact Or.inl ⟨queueID, by rwa [Function.update_of_ne hq] at hother⟩
        · exact Or.inr hexecuted
        · exact Or.inl ⟨q, heq ▸ hholding⟩
      · rintro (⟨queueID, hother⟩ | hexecuted)
        · by_cases hq : queueID = q
          · subst hq
            exact Or.inr (Or.inr (Option.some.inj (hother.symm.trans hholding)))
          · exact Or.inl ⟨queueID, by rwa [Function.update_of_ne hq]⟩
        · exact Or.inr (Or.inl hexecuted)
    rw [Placed, (s.engine.taskWork_sameQueues task).threadQueues]
    exact or_congr_right (or_congr_right hheld)
  · -- A worker submits again cancels only.
    have hcancel : ∀ queueID, .submitTask (.newOrder order) queueID ∉ [operation] := by
      intro queueID hmem
      have hnot := (hrouted.working q (.newOrder order) queueID (by
        rw [hworking, ← List.mem_singleton.mp hmem]
        exact List.mem_cons_self ..)).2.2.2
      cases hnot
    simp only [Placed, CentralOrderBook.afterOperations_threadQueues, List.mem_append, mem_submitted, hcancel, or_false]

/-- Every step keeps the invariant. -/
theorem Admitted.next (h : s.Admitted symbols) (hs : s.Consistent symbols) {label : Label}
    (hnext : Pipeline.next label s = some t) : t.Admitted symbols := by
  have hplaced := placed_iff hs.routed hnext
  obtain ⟨_, rfl, rfl⟩ | ⟨rfl, _, _, rfl⟩ | ⟨message, rest, rfl, _, hdispatching, rfl⟩ |
    ⟨operation, operations, rfl, hdispatching, rfl⟩ | ⟨_, _, _, rfl, _, _, _, rfl⟩ | ⟨_, task, rfl, _, rfl⟩ |
    ⟨q, operation, operations, rfl, hworking, rfl⟩ := next_cases hnext
  · exact ⟨h.stage, h.placed, h.answers⟩
  · exact ⟨h.stage, h.placed, h.answers⟩
  · obtain ⟨hstage, hsubmits⟩ := dispatchWork_stage hs.routed.toStatic message
    have hsame := dispatchWork_sameQueues s.engine message
    refine ⟨hstage, fun order => ?_, hsame.outgoingMessages ▸ h.answers⟩
    have hbefore := h.placed order
    simp only [Placed, hdispatching, List.not_mem_nil, exists_false, false_or, enqueued_nil, List.append_nil] at hbefore
    simp only [Placed, hsubmits order, hsame.threadQueues, hsame.outgoingMessages, List.mem_append, hbefore]
    tauto
  · have hstage := h.stage
    rw [hdispatching] at hstage
    obtain ⟨htail, hnone⟩ := hstage.tail
    refine ⟨htail, fun order => ?_, fun answer hanswer => ?_⟩
    · rw [hplaced (by simp) order, h.placed order, hdispatching, ← List.singleton_append, enqueued_append,
        ← List.append_assoc]
      rfl
    · rw [CentralOrderBook.afterOperations_outgoingMessages, answers_append] at hanswer
      rcases List.mem_append.mp hanswer with hanswer | hanswer
      · exact h.answers answer hanswer
      · have hmem := List.mem_of_mem_filter hanswer
        obtain hnil | ⟨order, horder⟩ | ⟨order, horder⟩ | ⟨task, htask⟩ := hstage
        · cases hnil
        · obtain ⟨rfl, -⟩ := List.cons.inj horder
          obtain rfl := List.mem_singleton.mp hmem
          exact Or.inr rfl
        · obtain ⟨rfl, -⟩ := List.cons.inj horder
          obtain rfl := List.mem_singleton.mp hmem
          exact Or.inl rfl
        · obtain ⟨rfl, -⟩ := List.cons.inj htask
          cases hmem
  · exact ⟨h.stage, fun order => (hplaced (by simp) order).trans (h.placed order), h.answers⟩
  · have hout := (s.engine.taskWork_sameQueues task).outgoingMessages
    refine ⟨h.stage, fun order => (hplaced (by simp) order).trans ?_, hout ▸ h.answers⟩
    rw [hout]
    exact h.placed order
  · have hreports : ∀ message ∈ enqueued [operation], message.type.ofBook = true := by
      intro message hmessage
      refine (hs.executed.working q message ?_).1
      rw [hworking, ← List.singleton_append, enqueued_append]
      exact List.mem_append_left _ hmessage
    refine ⟨h.stage, fun order => (hplaced (by simp) order).trans ((h.placed order).trans ?_), ?_⟩
    · have hnot : acceptedMessage order ∉ enqueued [operation] := fun hmem => by cases hreports _ hmem
      simp only [CentralOrderBook.afterOperations_outgoingMessages, List.mem_append, hnot, or_false]
    · rw [CentralOrderBook.afterOperations_outgoingMessages, answers_append, answers_eq_nil hreports, List.append_nil]
      exact h.answers

/-- The invariant holds in every state reached. -/
theorem admitted_of_reachable (h : (pipeline symbols).Reachable s) : s.Admitted symbols := by
  induction h with
  | start =>
    refine ⟨Or.inl rfl, fun order => ?_, fun _ hmem => absurd hmem List.not_mem_nil⟩
    simp [Placed, pipeline, initial, CentralOrderBook.initialise]
  | step hs _ hnext ih => exact ih.next (consistent_of_reachable hs) hnext

/-- A step enqueues nothing, or the next message of the dispatcher or of a worker. -/
theorem next_outgoing {label : Label} (hnext : Pipeline.next label s = some t) :
    t.engine.outgoingMessages = s.engine.outgoingMessages ∨
    (∃ message operations, s.dispatching = .enqueue message :: operations ∧
      t.engine.outgoingMessages = s.engine.outgoingMessages ++ [message]) ∨
    ∃ queueID message operations, s.working queueID = .enqueue message :: operations ∧
      t.engine.outgoingMessages = s.engine.outgoingMessages ++ [message] := by
  obtain ⟨_, _, rfl⟩ | ⟨_, _, _, rfl⟩ | ⟨message, _, _, _, _, rfl⟩ | ⟨operation, operations, _, hdispatching, rfl⟩ |
    ⟨_, _, _, _, _, _, _, rfl⟩ | ⟨_, task, _, _, rfl⟩ | ⟨q, operation, operations, _, hworking, rfl⟩ := next_cases hnext
  · exact Or.inl rfl
  · exact Or.inl rfl
  · exact Or.inl (dispatchWork_sameQueues s.engine message).outgoingMessages
  · cases operation with
    | enqueue message => exact Or.inr (Or.inl ⟨message, operations, hdispatching, rfl⟩)
    | submitTask task id => exact Or.inl (List.append_nil _)
  · exact Or.inl rfl
  · exact Or.inl (s.engine.taskWork_sameQueues task).outgoingMessages
  · cases operation with
    | enqueue message => exact Or.inr (Or.inr ⟨q, message, operations, hworking, rfl⟩)
    | submitTask task id => exact Or.inl (List.append_nil _)

section Answers

variable (hs : s.Consistent symbols) (ha : s.Answered symbols) (hadmitted : s.Admitted symbols) {order : Order}
include hs ha

/-- The answers and the orders to be answered are about different orders. -/
theorem answers_disjoint (hanswered : order ∈ (answers s.engine.outgoingMessages).map OutgoingMessage.order) :
    order ∉ s.unanswered := by
  have hnodup : ((answers s.engine.outgoingMessages).map OutgoingMessage.order ++ s.unanswered).Nodup := by
    rw [ha.answered]
    exact hs.stamped.orders_increasing.imp fun {x y} hlt heq => hlt.ne (congrArg Order.serial heq)
  exact fun hmem => (List.nodup_append.mp hnodup).2.2 _ hanswered _ hmem rfl

include hadmitted

/-- An order that is still to be answered was not executed. -/
theorem not_executed_of_unanswered (horder : order ∈ s.unanswered) : .newOrder order ∉ s.executed := by
  intro hexecuted
  have haccepted := (hadmitted.placed order).mp (Or.inr (Or.inr (Or.inr hexecuted)))
  rcases List.mem_append.mp haccepted with hmem | hmem
  · have hanswer : acceptedMessage order ∈ answers s.engine.outgoingMessages := List.mem_filter.mpr ⟨hmem, rfl⟩
    exact answers_disjoint hs ha (List.mem_map_of_mem hanswer) horder
  · obtain hnil | ⟨other, hother⟩ | ⟨other, hother⟩ | ⟨task, htask⟩ := hadmitted.stage
    · simp [hnil] at hmem
    · simp [hother, acceptedMessage, rejectedMessage] at hmem
    · -- The task is submitted next.
      rw [hother, enqueued_enqueue, enqueued_submitTask, enqueued_nil, List.mem_singleton] at hmem
      obtain rfl : order = other := congrArg OutgoingMessage.order hmem
      refine hs.not_executed ?_ hexecuted
      have hsubmitted : .newOrder order ∈ submitted (queueOf symbols order.symbol) s.dispatching := by
        rw [mem_submitted, hother]
        exact List.mem_cons_of_mem _ (List.mem_singleton_self _)
      simp [upstream, hsubmitted]
    · simp [htask] at hmem

/-- An order is to be answered, or it has one answer. -/
theorem answers_cases (horder : order ∈ orders s.pushed) :
    (order ∈ s.unanswered ∧ reportsOn order.serial (answers s.engine.outgoingMessages) = []) ∨
      reportsOn order.serial (answers s.engine.outgoingMessages) = [rejectedMessage order] ∨
      reportsOn order.serial (answers s.engine.outgoingMessages) = [acceptedMessage order] := by
  have hsingle := filter_serial_eq_singleton hs.stamped.orders_increasing horder
  have hmap : (reportsOn order.serial (answers s.engine.outgoingMessages)).map OutgoingMessage.order =
      ((answers s.engine.outgoingMessages).map OutgoingMessage.order).filter fun x => x.serial == order.serial := by
    rw [List.filter_map]
    rfl
  rw [← ha.answered, List.filter_append, ← hmap] at hsingle
  rcases List.append_eq_singleton_iff.mp hsingle with ⟨hnone, hrest⟩ | ⟨hone, _⟩
  · exact Or.inl ⟨List.mem_of_mem_filter (hrest ▸ List.mem_singleton_self order), List.map_eq_nil_iff.mp hnone⟩
  · obtain ⟨message, hmessage, rfl⟩ := List.map_eq_singleton_iff.mp hone
    have hmem := List.mem_of_mem_filter (hmessage ▸ List.mem_singleton_self message)
    refine Or.inr ?_
    rw [hmessage]
    rcases hadmitted.answers message hmem with heq | heq
    · exact Or.inr (congrArg (· :: []) heq)
    · exact Or.inl (congrArg (· :: []) heq)

/-- A rejected order was not placed. -/
theorem not_placed_of_rejected (hrejected : rejectedMessage order ∈ s.engine.outgoingMessages) : ¬s.Placed order := by
  intro hplaced
  have hanswer : rejectedMessage order ∈ answers s.engine.outgoingMessages := List.mem_filter.mpr ⟨hrejected, rfl⟩
  have hanswered : order ∈ (answers s.engine.outgoingMessages).map OutgoingMessage.order := List.mem_map_of_mem hanswer
  have horder : order ∈ orders s.pushed := ha.answered ▸ List.mem_append_left _ hanswered
  have hselected : rejectedMessage order ∈ reportsOn order.serial (answers s.engine.outgoingMessages) :=
    List.mem_filter.mpr ⟨hanswer, beq_self_eq_true _⟩
  rcases List.mem_append.mp ((hadmitted.placed order).mp hplaced) with hmem | hmem
  · have haccepted : acceptedMessage order ∈ reportsOn order.serial (answers s.engine.outgoingMessages) :=
      List.mem_filter.mpr ⟨List.mem_filter.mpr ⟨hmem, rfl⟩, beq_self_eq_true _⟩
    rcases answers_cases hs ha hadmitted horder with ⟨_, heq⟩ | heq | heq
    all_goals simp [heq, acceptedMessage, rejectedMessage] at haccepted hselected
  · exact answers_disjoint hs ha hanswered (List.mem_append_left _ (List.mem_map_of_mem hmem))

end Answers

/-- The answer to an order is enqueued before the reports on it. -/
theorem answer_before_reports (h : (pipeline symbols).Reachable s) :
    s.engine.outgoingMessages.Pairwise fun earlier later => earlier.type.ofBook = true → later.type.ofBook = false →
      earlier.order.serial ≠ later.order.serial := by
  induction h with
  | start => exact .nil
  | @step label s t hreachable _ hnext ih =>
    have hs := consistent_of_reachable hreachable
    have ha := answered_of_reachable hreachable
    obtain heq | ⟨message, operations, hdispatching, heq⟩ | ⟨q, message, operations, hworking, heq⟩ := next_outgoing hnext
    · exact heq ▸ ih
    · rw [heq]
      refine List.pairwise_append.mpr ⟨ih, List.pairwise_singleton _ _, fun earlier hearlier later hlater hreport _ => ?_⟩
      obtain rfl := List.mem_singleton.mp hlater
      have hunanswered : later.order ∈ s.unanswered := by
        rw [unanswered, hdispatching, enqueued_enqueue]
        exact List.mem_append_left _ (List.mem_cons_self ..)
      have hpushed : later.order ∈ orders s.pushed := ha.answered ▸ List.mem_append_right _ hunanswered
      exact hs.no_reports (mem_orders.mp hpushed)
        (not_executed_of_unanswered hs ha (admitted_of_reachable hreachable) hunanswered) earlier hearlier hreport
    · rw [heq]
      refine List.pairwise_append.mpr ⟨ih, List.pairwise_singleton _ _, fun earlier _ later hlater _ hanswer => ?_⟩
      obtain rfl := List.mem_singleton.mp hlater
      have hreport : later.type.ofBook = true := (hs.executed.working q later (by rw [hworking]; simp)).1
      rw [hreport] at hanswer
      cases hanswer

/-- Every message shows the terms of an order that was pushed. -/
theorem exists_pushed (hs : s.Consistent symbols) (ha : s.Answered symbols) {message : OutgoingMessage}
    (hmessage : message ∈ s.engine.outgoingMessages) : ∃ order ∈ orders s.pushed,
      order.toOrderTerms = message.order.toOrderTerms ∧ order.serial = message.order.serial := by
  cases htype : message.type.ofBook with
  | true =>
    have hmem : message ∈ bookMessages message.order.symbol s.engine.outgoingMessages :=
      List.mem_filter.mpr ⟨hmessage, by simp [htype]⟩
    obtain ⟨original, horiginal, hterms, hserial⟩ := (OrderBook.originates_executeAll _).2.2 message
      (hs.executed.reports message.order.symbol ▸ List.mem_append_left _ hmem)
    exact ⟨original, mem_orders.mpr (hs.executed_pushed (mem_newOrders_symbolTasks.mp horiginal).1), hterms, hserial⟩
  | false =>
    have hanswer : message ∈ answers s.engine.outgoingMessages := List.mem_filter.mpr ⟨hmessage, by simp [htype]⟩
    refine ⟨message.order, ?_, rfl, rfl⟩
    rw [← ha.answered]
    exact List.mem_append_left _ (List.mem_map_of_mem hanswer)

/-- Every order that rests in a book was pushed for its symbol. -/
theorem exists_pushed_of_resting (hs : s.Consistent symbols) {symbol : String} {order : Order}
    (horder : order ∈ (s.engine.bookOf symbol).resting) : ∃ original ∈ orders s.pushed, original.symbol = symbol ∧
      .newOrder original ∈ s.executed ∧ original.toOrderTerms = order.toOrderTerms ∧ original.serial = order.serial := by
  obtain ⟨side, hside⟩ := OrderBook.mem_resting.mp horder
  rw [hs.executed.books symbol] at hside
  obtain ⟨original, horiginal, hterms, hserial⟩ := (OrderBook.originates_executeAll _).2.1 side order hside
  obtain ⟨hexecuted, hsymbol⟩ := mem_newOrders_symbolTasks.mp horiginal
  exact ⟨original, mem_orders.mpr (hs.executed_pushed hexecuted), hsymbol, hexecuted, hterms, hserial⟩

/-- An order on which a final message was enqueued rests in no book. -/
theorem not_resting_of_final (hs : s.Consistent symbols) {order : Order} (horder : order ∈ orders s.pushed)
    {message : OutgoingMessage} (hmessage : message ∈ s.engine.outgoingMessages)
    (hserial : message.order.serial = order.serial) (hfinal : message.type.final = true) {symbol : String} {resting : Order}
    (hresting : resting ∈ (s.engine.bookOf symbol).resting) : resting.serial ≠ order.serial := by
  intro hsame
  obtain ⟨original, horiginal, hsymbol, hexecuted, _, hrests⟩ := exists_pushed_of_resting hs hresting
  have heq := hs.stamped.eq_of_serial (mem_orders.mp horiginal) (mem_orders.mp horder) (hrests.trans hsame)
  obtain rfl := Task.newOrder.inj heq
  have hdistinct : ((newOrders (s.log symbol)).map Order.serial).Nodup :=
    List.pairwise_map.mpr ((hs.stamped_log symbol).increasing.imp fun hlt => hlt.ne)
  obtain ⟨state, hlife, hstate⟩ := (Tracks.executeAll hdistinct).lifecycle original
    (mem_newOrders_symbolTasks.mpr ⟨hexecuted, hsymbol⟩)
  rw [← hs.executed.reports symbol] at hlife
  have hofBook : message.type.ofBook = true := by
    cases htype : message.type with
    | filled | partiallyField | canceled => rfl
    | accepted | rejected =>
      rw [htype] at hfinal
      cases hfinal
  -- The message is one of the reports on the order, so that nothing is left of it.
  obtain ⟨reported, hreported, hreportedSymbol, hreportedSerial⟩ := hs.exists_executed hmessage hofBook
  have hsameOrder := hs.stamped.eq_of_serial (hs.executed_pushed hreported) (hs.executed_pushed hexecuted)
    (hreportedSerial.trans hserial)
  rw [Task.newOrder.inj hsameOrder, hsymbol] at hreportedSymbol
  have hreport : message ∈ bookMessages symbol s.engine.outgoingMessages :=
    List.mem_filter.mpr ⟨hmessage, by simp [hofBook, ← hreportedSymbol]⟩
  have hmem : message ∈ reportsOn original.serial (bookMessages symbol s.engine.outgoingMessages ++
      bookMessages symbol (enqueued (s.working (queueOf symbols symbol)))) :=
    List.mem_filter.mpr ⟨List.mem_append_left _ hreport, by simpa using hserial⟩
  rw [hs.executed.books symbol] at hresting
  rw [(hstate resting).mp ⟨hresting, hsame⟩] at hlife
  rw [((hlife.reported.2.1 resting rfl).1 message hmem)] at hfinal
  cases hfinal

/-- The reports on an executed order are those of its life; when all are enqueued, what the life leaves is what rests. -/
theorem executed_lifecycle (h : (pipeline symbols).Reachable s) {order : Order} (hexecuted : .newOrder order ∈ s.executed) :
    ∃ state, Lifecycle order (reportsOn order.serial (bookMessages order.symbol s.engine.outgoingMessages)) state ∧
      (enqueued (s.working (queueOf symbols order.symbol)) = [] →
        (s.engine.bookOf order.symbol).restingWith order.serial = state.toList) := by
  have hs := consistent_of_reachable h
  have hdistinct : ((newOrders (s.log order.symbol)).map Order.serial).Nodup :=
    List.pairwise_map.mpr ((hs.stamped_log order.symbol).increasing.imp fun hlt => hlt.ne)
  have htracks := Tracks.executeAll hdistinct
  obtain ⟨state, hlife, hstate⟩ := htracks.lifecycle order (mem_newOrders_symbolTasks.mpr ⟨hexecuted, rfl⟩)
  rw [← hs.executed.reports order.symbol, reportsOn_append] at hlife
  by_cases hidle : enqueued (s.working (queueOf symbols order.symbol)) = []
  · rw [hidle, bookMessages_nil, reportsOn_nil, List.append_nil] at hlife
    refine ⟨state, hlife, fun _ => ?_⟩
    rw [hs.executed.books order.symbol]
    exact filter_serial_eq_toList htracks.distinct hstate
  · obtain ⟨earlier, hearlier⟩ := hlife.of_prefix (List.prefix_append _ _)
    exact ⟨earlier, hearlier, fun hnil => absurd hnil hidle⟩

section Outcome

variable (h : (pipeline symbols).Reachable s) {order : Order} (horder : order ∈ orders s.pushed)
include h horder

/-- The messages about an order are its answer, followed by the reports. -/
theorem reportsOn_eq_answers_append : reportsOn order.serial s.engine.outgoingMessages =
    reportsOn order.serial (answers s.engine.outgoingMessages) ++
      reportsOn order.serial (bookMessages order.symbol s.engine.outgoingMessages) := by
  have hpairwise : (reportsOn order.serial s.engine.outgoingMessages).Pairwise fun x y =>
      x.type.ofBook = true → y.type.ofBook = true := by
    refine ((answer_before_reports h).filter fun message => message.order.serial == order.serial).imp_of_mem ?_
    intro x y hx hy hxy hreport
    have hxserial := beq_iff_eq.mp (List.mem_filter.mp hx).2
    have hyserial := beq_iff_eq.mp (List.mem_filter.mp hy).2
    by_contra hanswer
    exact hxy hreport (Bool.not_eq_true _ ▸ hanswer) (hxserial.trans hyserial.symm)
  rw [eq_filter_append_filter hpairwise]
  congr 1
  · rw [reportsOn, reportsOn, answers, List.filter_filter, List.filter_filter]
    exact List.filter_congr fun message _ => Bool.and_comm ..
  · rw [reportsOn, reportsOn, bookMessages, List.filter_filter, List.filter_filter]
    refine List.filter_congr fun message hmessage => ?_
    by_cases hserial : message.order.serial = order.serial
    · rw [symbol_of_serial (consistent_of_reachable h) (answered_of_reachable h) horder hmessage hserial,
        beq_self_eq_true, Bool.and_true, Bool.and_comm]
    · rw [beq_false_of_ne hserial, Bool.false_and, Bool.and_false]

/-- The messages about an order on any symbol are none, its rejection, or its acceptance and the reports of its life. -/
theorem order_outcome :
    (order ∈ s.unanswered ∧ .newOrder order ∉ s.executed ∧ reportsOn order.serial s.engine.outgoingMessages = []) ∨
      (¬s.Placed order ∧ reportsOn order.serial s.engine.outgoingMessages = [rejectedMessage order]) ∨
      ∃ reports state, s.Placed order ∧
        reportsOn order.serial s.engine.outgoingMessages = acceptedMessage order :: reports ∧
        Lifecycle order reports state ∧
        (.newOrder order ∈ s.executed → enqueued (s.working (queueOf symbols order.symbol)) = [] →
          (s.engine.bookOf order.symbol).restingWith order.serial = state.toList) := by
  have hs := consistent_of_reachable h
  have ha := answered_of_reachable h
  have hadmitted := admitted_of_reachable h
  have hanswered : ∀ {message : OutgoingMessage},
      reportsOn order.serial (answers s.engine.outgoingMessages) = [message] → message ∈ s.engine.outgoingMessages :=
    fun heq => List.mem_of_mem_filter (List.mem_of_mem_filter (heq ▸ List.mem_singleton_self _))
  rw [reportsOn_eq_answers_append h horder]
  by_cases hexecuted : .newOrder order ∈ s.executed
  · have hplaced : s.Placed order := Or.inr (Or.inr (Or.inr hexecuted))
    obtain ⟨state, hlife, hbook⟩ := executed_lifecycle h hexecuted
    rcases answers_cases hs ha hadmitted horder with ⟨hunanswered, _⟩ | hrejected | haccepted
    · exact absurd hexecuted (not_executed_of_unanswered hs ha hadmitted hunanswered)
    · exact absurd hplaced (not_placed_of_rejected hs ha hadmitted (hanswered hrejected))
    · exact Or.inr (Or.inr ⟨_, state, hplaced, by rw [haccepted]; rfl, hlife, fun _ => hbook⟩)
  · have hnone : reportsOn order.serial (bookMessages order.symbol s.engine.outgoingMessages) = [] := by
      refine reportsOn_eq_nil fun message hmessage => ?_
      obtain ⟨hmem, hselected⟩ := List.mem_filter.mp hmessage
      exact hs.no_reports (mem_orders.mp horder) hexecuted message hmem (Bool.and_eq_true_iff.mp hselected).1
    rw [hnone, List.append_nil]
    rcases answers_cases hs ha hadmitted horder with ⟨hunanswered, hnil⟩ | hrejected | haccepted
    · exact Or.inl ⟨hunanswered, hexecuted, hnil⟩
    · exact Or.inr (Or.inl ⟨not_placed_of_rejected hs ha hadmitted (hanswered hrejected), hrejected⟩)
    · refine Or.inr (Or.inr ⟨[], _, ?_, haccepted, .submitted, fun hmem => absurd hmem hexecuted⟩)
      exact (hadmitted.placed order).mpr (List.mem_append_left _ (hanswered haccepted))

/-- An order that was not placed rests in no book. -/
theorem not_resting_of_not_placed (hplaced : ¬s.Placed order) {symbol : String} {resting : Order}
    (hresting : resting ∈ (s.engine.bookOf symbol).resting) : resting.serial ≠ order.serial := by
  intro hsame
  have hs := consistent_of_reachable h
  obtain ⟨original, horiginal, _, hexecuted, _, hrests⟩ := exists_pushed_of_resting hs hresting
  have heq := hs.stamped.eq_of_serial (mem_orders.mp horiginal) (mem_orders.mp horder) (hrests.trans hsame)
  obtain rfl := Task.newOrder.inj heq
  exact hplaced (Or.inr (Or.inr (Or.inr hexecuted)))

/-- An order on which a message that ends it was enqueued rests in no book. -/
theorem not_resting_of_ended {message : OutgoingMessage} (hmessage : message ∈ s.engine.outgoingMessages)
    (hserial : message.order.serial = order.serial) (hended : message.type.ends = true)
    {symbol : String} {resting : Order} (hresting : resting ∈ (s.engine.bookOf symbol).resting) :
    resting.serial ≠ order.serial := by
  have hs := consistent_of_reachable h
  have ha := answered_of_reachable h
  have hadmitted := admitted_of_reachable h
  rcases OutgoingMessageType.final_or_rejected hended with hfinal | hrejected
  · exact not_resting_of_final hs horder hmessage hserial hfinal hresting
  · have hanswer : message ∈ answers s.engine.outgoingMessages := List.mem_filter.mpr ⟨hmessage, by simp [hrejected]; rfl⟩
    have heq : message = rejectedMessage message.order :=
      (hadmitted.answers message hanswer).resolve_left fun haccepted => by
        rw [haccepted] at hrejected
        cases hrejected
    have hpushed : message.order ∈ orders s.pushed :=
      ha.answered ▸ List.mem_append_left _ (List.mem_map_of_mem hanswer)
    have hplaced : ¬s.Placed message.order := not_placed_of_rejected hs ha hadmitted (heq ▸ hmessage)
    exact hserial ▸ not_resting_of_not_placed h hpushed hplaced hresting

/-- No message about an order follows a message that ends it. -/
theorem reportsOn_eq_nil_of_ended {front rest : List OutgoingMessage} (hsplit : s.engine.outgoingMessages = front ++ rest)
    {message : OutgoingMessage} (hmessage : message ∈ front) (hserial : message.order.serial = order.serial)
    (hended : message.type.ends = true) : reportsOn order.serial rest = [] := by
  have hselected : message ∈ reportsOn order.serial front := List.mem_filter.mpr ⟨hmessage, beq_iff_eq.mpr hserial⟩
  have houtcome := order_outcome h horder
  rw [hsplit, reportsOn_append] at houtcome
  obtain ⟨_, _, hnil⟩ | ⟨_, hrejected⟩ | ⟨reports, state, _, hreports, hlife, _⟩ := houtcome
  · exact (List.append_eq_nil_iff.mp hnil).2
  · rcases List.append_eq_singleton_iff.mp hrejected with ⟨hnone, _⟩ | ⟨_, hnone⟩
    · simp [hnone] at hselected
    · exact hnone
  · rcases List.append_eq_cons_iff.mp hreports with ⟨hnone, _⟩ | ⟨more, hfront, rfl⟩
    · simp [hnone] at hselected
    · rw [hfront] at hselected
      rcases List.mem_cons.mp hselected with rfl | hmem
      · cases hended
      · obtain ⟨before, after, rfl⟩ := List.append_of_mem hmem
        rw [List.append_assoc] at hlife
        have hnot := hlife.ne_rejected message (List.mem_append_right _ (List.mem_cons_self ..))
        have hfinal := (OutgoingMessageType.final_or_rejected hended).resolve_right hnot
        exact (List.append_eq_nil_iff.mp (hlife.eq_nil_of_final rfl hfinal)).2

end Outcome

/-- No new order is on its way, and no report is to be enqueued. -/
structure Quiet (s : Pipeline) : Prop where
  incoming : s.incoming = []
  flushed : s.flushed = []
  dispatching : s.dispatching = []
  queues : ∀ queueID, ∀ task ∈ s.engine.threadQueues queueID, task.isNewOrder = false
  holding : ∀ queueID task, s.holding queueID = some task → task.isNewOrder = false
  working : ∀ queueID, enqueued (s.working queueID) = []

/-- When no new order is on its way, the orders that have ended are those that do not rest. -/
theorem Quiet.ended_iff (hquiet : s.Quiet) (h : (pipeline symbols).Reachable s) {order : Order}
    (horder : order ∈ orders s.pushed) :
    (∃ message ∈ s.engine.outgoingMessages, message.order.serial = order.serial ∧ message.type.ends = true) ↔
      ∀ resting ∈ (s.engine.bookOf order.symbol).resting, resting.serial ≠ order.serial := by
  constructor
  · rintro ⟨message, hmessage, hserial, hends⟩ resting hresting
    exact not_resting_of_ended h horder hmessage hserial hends hresting
  · intro hnot
    obtain ⟨hunanswered, _⟩ | ⟨_, hrejected⟩ | ⟨reports, state, hplaced, hreports, hlife, hbook⟩ := order_outcome h horder
    · simp [unanswered, hquiet.dispatching, hquiet.flushed, hquiet.incoming, orders] at hunanswered
    · have hmem := hrejected ▸ List.mem_singleton_self (rejectedMessage order)
      exact ⟨_, List.mem_of_mem_filter hmem, rfl, rfl⟩
    · have hexecuted : .newOrder order ∈ s.executed := by
        obtain ⟨queueID, hmem⟩ | ⟨queueID, hmem⟩ | ⟨queueID, hheld⟩ | hmem := hplaced
        · simp [hquiet.dispatching] at hmem
        · cases hquiet.queues queueID _ hmem
        · cases hquiet.holding queueID _ hheld
        · exact hmem
      have hrests := hbook hexecuted (hquiet.working _)
      cases state with
      | some resting =>
        have hselected : resting ∈ (s.engine.bookOf order.symbol).restingWith order.serial := by
          rw [hrests]
          exact List.mem_singleton_self resting
        obtain ⟨hmem, hserial⟩ := List.mem_filter.mp hselected
        exact absurd (beq_iff_eq.mp hserial) (hnot resting hmem)
      | none =>
        obtain ⟨front, last, rfl, hfinal⟩ := hlife.reported.2.2 rfl
        have hlast : last ∈ reportsOn order.serial s.engine.outgoingMessages := by
          rw [hreports]
          exact List.mem_cons_of_mem _ (List.mem_append_right _ (List.mem_singleton_self last))
        obtain ⟨hmem, hserial⟩ := List.mem_filter.mp hlast
        refine ⟨last, hmem, beq_iff_eq.mp hserial, ?_⟩
        exact OutgoingMessageType.ends_of_final hfinal

/-- In every run, the messages about an order on any symbol are none until it is answered. Its answer is a rejection, and
then no message follows and the order rests in no book for the rest of the run, or an acceptance, which is followed by
partial fills and at most one final message, after which no message follows. -/
theorem order_outcomes (h : (pipeline symbols).Reachable s) {order : Order} (horder : order ∈ orders s.pushed) :
    (order ∈ s.unanswered ∧ .newOrder order ∉ s.executed ∧ reportsOn order.serial s.engine.outgoingMessages = []) ∨
      (∀ labels t, (pipeline symbols).run labels s = some t →
        reportsOn order.serial t.engine.outgoingMessages = [rejectedMessage order] ∧ .newOrder order ∉ t.executed ∧
          ∀ symbol, ∀ resting ∈ (t.engine.bookOf symbol).resting, resting.serial ≠ order.serial) ∨
      Reported order (reportsOn order.serial s.engine.outgoingMessages) ∧
        ∀ labels t, (pipeline symbols).run labels s = some t →
          reportsOn order.serial s.engine.outgoingMessages <+: reportsOn order.serial t.engine.outgoingMessages ∧
          ∀ message ∈ reportsOn order.serial s.engine.outgoingMessages, message.type.final = true →
            reportsOn order.serial t.engine.outgoingMessages = reportsOn order.serial s.engine.outgoingMessages := by
  have hlater : ∀ {labels t}, (pipeline symbols).run labels s = some t → (pipeline symbols).Reachable t ∧
      order ∈ orders t.pushed ∧
      reportsOn order.serial s.engine.outgoingMessages <+: reportsOn order.serial t.engine.outgoingMessages := by
    intro labels t hrun
    obtain ⟨houtgoing, hpushed⟩ := run_appends hrun
    exact ⟨h.run (fun _ _ _ => trivial) hrun, (hpushed.filter _).map _ |>.subset horder, houtgoing.filter _⟩
  obtain hnone | ⟨_, hrejected⟩ | ⟨reports, state, _, hreports, hlife, _⟩ := order_outcome h horder
  · exact Or.inl hnone
  · refine Or.inr (Or.inl fun labels t hrun => ?_)
    obtain ⟨ht, hpushed, hfront⟩ := hlater hrun
    rw [hrejected] at hfront
    obtain ⟨_, _, hnil⟩ | ⟨hplaced, hsame⟩ | ⟨_, _, _, haccepted, _, _⟩ := order_outcome ht hpushed
    · simp [hnil] at hfront
    · exact ⟨hsame, fun hexecuted => hplaced (Or.inr (Or.inr (Or.inr hexecuted))), fun symbol resting hresting =>
        not_resting_of_not_placed ht hpushed hplaced hresting⟩
    · rw [haccepted, List.cons_prefix_cons] at hfront
      simp [acceptedMessage, rejectedMessage] at hfront
  · refine Or.inr (Or.inr ⟨hreports ▸ hlife.reported.1, fun labels t hrun => ?_⟩)
    obtain ⟨ht, hpushed, hfront⟩ := hlater hrun
    refine ⟨hfront, fun message hmessage hfinal => ?_⟩
    obtain ⟨hmem, hselected⟩ := List.mem_filter.mp hmessage
    obtain ⟨more, hmore⟩ := (run_appends hrun).1
    have hnone := reportsOn_eq_nil_of_ended ht hpushed hmore.symm hmem (beq_iff_eq.mp hselected)
      (OutgoingMessageType.ends_of_final hfinal)
    rw [← hmore, reportsOn_append, hnone, List.append_nil]

/-- An order on a symbol that has no book when the order is dispatched, but has one afterwards. -/
theorem order_outcomes_rejected : ∃ s, (pipeline ["A"]).run
      [.push (exampleRequest "B" .newOrder), .push (exampleRequest "B" .cancelOrder), .flush, .dispatch,
        .dispatcherOperation, .dispatch, .dispatcherOperation, .pop 0, .execute 0] (pipeline ["A"]).start = some s ∧
    s.engine.doesOrderBookExist "B" = true ∧
    ∀ labels t, (pipeline ["A"]).run labels s = some t →
      reportsOn 0 t.engine.outgoingMessages = [rejectedMessage ((exampleRequest "B" .newOrder).message 0).order] ∧
        .newOrder ((exampleRequest "B" .newOrder).message 0).order ∉ t.executed := by
  obtain ⟨s, hrun, hbook, hpushed, hreports⟩ : ∃ s, (pipeline ["A"]).run
        [.push (exampleRequest "B" .newOrder), .push (exampleRequest "B" .cancelOrder), .flush, .dispatch,
          .dispatcherOperation, .dispatch, .dispatcherOperation, .pop 0, .execute 0] (pipeline ["A"]).start = some s ∧
      s.engine.doesOrderBookExist "B" = true ∧ orders s.pushed = [((exampleRequest "B" .newOrder).message 0).order] ∧
      reportsOn 0 s.engine.outgoingMessages = [rejectedMessage ((exampleRequest "B" .newOrder).message 0).order] :=
    ⟨_, rfl, rfl, rfl, rfl⟩
  refine ⟨s, hrun, hbook, fun labels t hlater => ?_⟩
  obtain ⟨_, _, hnil⟩ | hrejected | ⟨hreported, _⟩ :=
    order_outcomes (Machine.reachable_of_run hrun) (hpushed ▸ List.mem_singleton_self _)
  · cases hreports.symm.trans hnil
  · exact ⟨(hrejected labels t hlater).1, (hrejected labels t hlater).2.1⟩
  · obtain ⟨partials, last, hmessages, _⟩ := hreported.sequence
    cases (List.cons.inj (hreports.symm.trans hmessages)).1

end Pipeline

end MatchingEngine
