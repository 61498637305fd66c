import MatchingEngine.Conservation

/-!
# What a cancel removes

A cancel task on the book of a symbol removes the first order that the scan finds, copies
this order into its one message, and changes nothing else: neither another order of the
book nor another book.

How an order can leave a book follows from the account of its last records. A submitted
order rests or has been closed, and never both, so that an order that rested before a task
and does not after it was closed by a report of this task.
-/

namespace MatchingEngine

namespace OrderBook

variable {tasks : List BookTask} {task : BookTask} {side : OrderSide} {order : Order}

/-- Orders of a stamped history are submitted by different calls. -/
theorem nodup_calls (h : Stamped tasks) : ((newOrders tasks).map Order.call).Nodup := by
  refine List.pairwise_map.mpr (h.increasing.imp fun hlt heq => ?_)
  exact absurd (congrArg Prod.snd heq) hlt.ne

/-- An order that rests before a task rests after it, or is closed by a report of the task. -/
theorem rests_or_closed (h : Stamped (tasks ++ [task])) (horder : order ∈ ((empty.executeAll tasks).1.orders side).values) :
    (∃ later ∈ (((empty.executeAll tasks).1.execute task).1.orders side).values, later.call = order.call) ∨
      ∃ message ∈ ((empty.executeAll tasks).1.execute task).2,
        message.type.final = true ∧ message.order.call = order.call := by
  have hexecuted : ∀ other ∈ newOrders (tasks ++ [task]), other.executedQuantity = 0 := by
    intro other hother
    rw [h.fresh other hother]
    rfl
  have hbefore : Balanced (newOrders tasks) _ _ := Balanced.executeAll fun other hother =>
    hexecuted other (by rw [newOrders_append]; exact List.mem_append_left _ hother)
  have hafter := Balanced.executeAll hexecuted
  rw [executeAll_concat] at hafter
  have hresting : order.call ∈ (empty.executeAll tasks).1.resting.map Order.call :=
    List.mem_map_of_mem (mem_resting.mpr ⟨side, horder⟩)
  -- The call of the order is accounted for once before the task, and again after it.
  have hdistinct := hbefore.accounted.nodup_iff.mpr (nodup_calls h.left)
  rw [List.map_append, List.nodup_append] at hdistinct
  have hsubmitted : order.call ∈ (newOrders (tasks ++ [task])).map Order.call := by
    have hmem := hbefore.accounted.mem_iff.mp (by rw [List.map_append]; exact List.mem_append_left _ hresting)
    rw [newOrders_append, List.map_append]
    exact List.mem_append_left _ hmem
  have hlast := hafter.accounted.mem_iff.mpr hsubmitted
  rw [closed_append, List.map_append, List.map_append, List.mem_append, List.mem_append] at hlast
  rcases hlast with hlast | hlast | hlast
  · obtain ⟨later, hlater, hcall⟩ := List.mem_map.mp hlast
    obtain ⟨other, hother⟩ := mem_resting.mp hlater
    have hsided := (originates_executeAll tasks).1
    have hside : other = side := by
      rw [← hsided.execute task other later hother, ← hsided side order horder]
      exact congrArg (fun call => call.1.side) hcall
    exact .inl ⟨later, hside ▸ hother, hcall⟩
  · exact absurd rfl (hdistinct.2.2 _ hresting _ hlast)
  · obtain ⟨copy, hcopy, hcall⟩ := List.mem_map.mp hlast
    obtain ⟨message, hmessage, rfl⟩ := List.mem_map.mp hcopy
    obtain ⟨hmessage, hfinal⟩ := List.mem_filter.mp hmessage
    exact .inr ⟨message, hmessage, hfinal, hcall⟩

/-- The order that a cancel task finds: none ahead of it has the client's ID. -/
structure FindsFirst (book : OrderBook) (owner clientID : String) (side : OrderSide) (ahead : List (ℚ × Order))
    (key : ℚ) (target : Order) (behind : List (ℚ × Order)) : Prop where
  entries : (book.orders side).entries = ahead ++ (key, target) :: behind
  first : ∀ entry ∈ ahead, entry.2.hasClient owner clientID = false
  named : target.hasClient owner clientID = true
  found : book.find owner clientID side = some ahead.length

/-- An order with the client's ID has a first one. -/
theorem exists_findsFirst {book : OrderBook} {owner clientID : String}
    (h : ∃ order ∈ (book.orders side).values, order.hasClient owner clientID = true) :
    ∃ ahead key target behind, book.FindsFirst owner clientID side ahead key target behind := by
  obtain ⟨order, horder, hnamed⟩ := h
  obtain ⟨entry, hentry, rfl⟩ := List.mem_map.mp horder
  have hsome : ((book.orders side).entries.find? ((·.hasClient owner clientID) ∘ Prod.snd)).isSome := by
    rw [List.find?_isSome]
    exact ⟨entry, hentry, hnamed⟩
  obtain ⟨⟨key, target⟩, htarget⟩ := Option.isSome_iff_exists.mp hsome
  obtain ⟨htest, ahead, behind, hentries, hahead⟩ := List.find?_eq_some_iff_append.mp htarget
  have hfirst : ∀ entry ∈ ahead, entry.2.hasClient owner clientID = false := by
    intro other hother
    simpa using hahead other hother
  refine ⟨ahead, key, target, behind, hentries, hfirst, htest, ?_⟩
  have hnone : ahead.findIdx? ((·.hasClient owner clientID) ∘ Prod.snd) = none := List.findIdx?_eq_none_iff.mpr hfirst
  rw [find, Multimap.findIdx?_values, hentries, List.findIdx?_append, hnone, List.findIdx?_cons, if_pos htest]
  simp

/-- The result of a cancel task that finds an order. -/
theorem FindsFirst.taskCancelOrder {book : OrderBook} {owner clientID : String} {ahead behind : List (ℚ × Order)}
    {key : ℚ} {target : Order} (h : book.FindsFirst owner clientID side ahead key target behind) (hsided : book.Sided) :
    ∃ after, book.taskCancelOrder owner clientID side = some (after, ⟨target.cancel, .canceled, "Order canceled"⟩) ∧
      (after.orders side).entries = ahead ++ behind ∧ after.orders side.opposite = book.orders side.opposite := by
  have htarget : (book.orders side).values.find? (·.hasClient owner clientID) = some target := by
    rw [Multimap.values, h.entries, List.map_append, List.map_cons, List.find?_append]
    have hnone : (ahead.map Prod.snd).find? (·.hasClient owner clientID) = none := by
      rw [List.find?_eq_none]
      intro order horder
      obtain ⟨entry, hentry, rfl⟩ := List.mem_map.mp horder
      rw [h.first entry hentry]
      exact Bool.false_ne_true
    rw [hnone, Option.none_or]
    exact List.find?_cons_of_pos h.named
  rw [taskCancelOrder_eq book _ _ side (hsided side), htarget]
  refine ⟨_, rfl, ?_, setOrders_orders_opposite ..⟩
  rw [setOrders_orders_same]
  change (book.orders side).entries.eraseP _ = _
  rw [h.entries, List.eraseP_append_right _ fun entry hentry => by simp [h.first entry hentry]]
  exact congrArg _ (List.eraseP_cons_of_pos h.named)

/-- The final reports of a task: the fills of a new order, or the cancel of an order that the task names. -/
theorem execute_final {book : OrderBook} (hsided : book.Sided) (task : BookTask) {message : OutgoingMessage}
    (hmessage : message ∈ (book.execute task).2) (hfinal : message.type.final = true) :
    (message.type = .filled ∧ message.order.isFilled = true ∧ ∃ order, task = .newOrder order) ∨
      (message.type = .canceled ∧ task = .cancelOrder message.order.owner message.order.clientOrderID message.order.side) := by
  cases task with
  | newOrder order =>
    left
    obtain ⟨copy, _, rfl⟩ := List.mem_map.mp hmessage
    unfold fillMessage at hfinal ⊢
    split at hfinal
    · rename_i hfilled
      exact ⟨by simp [hfilled], hfilled, order, rfl⟩
    · cases hfinal
  | cancelOrder owner clientID side =>
    right
    rw [execute] at hmessage
    by_cases hexists : ∃ order ∈ (book.orders side).values, order.hasClient owner clientID = true
    · obtain ⟨ahead, key, target, behind, hfirst⟩ := exists_findsFirst hexists
      obtain ⟨after, hcancel, _⟩ := hfirst.taskCancelOrder hsided
      simp only [hcancel, List.mem_singleton] at hmessage
      subst hmessage
      obtain ⟨hid, howner⟩ := (target.hasClient_iff owner clientID).mp hfirst.named
      have htarget : target ∈ (book.orders side).values := by
        rw [Multimap.values, hfirst.entries, List.map_append, List.map_cons]
        exact List.mem_append_right _ (List.mem_cons_self ..)
      refine ⟨rfl, ?_⟩
      rw [Order.cancel_toOrderTerms, hid, howner, hsided side target htarget]
    · have hnone : book.taskCancelOrder owner clientID side = none := by
        rw [taskCancelOrder_eq_none_iff, find_eq_none_iff]
        intro order horder
        by_contra hnamed
        exact hexists ⟨order, horder, by simpa using hnamed⟩
      simp [hnone] at hmessage

end OrderBook

namespace CentralOrderBook

variable {c : CentralOrderBook} {request : Order} {id : String}

/-- A cancel removes the first order that it names from its book, reports this order, and changes nothing else. -/
def RemovesFirst (c : CentralOrderBook) (request : Order) (id : String) : Prop :=
  ∃ ahead key target behind, (c.bookOf request.symbol).FindsFirst request.owner id request.side ahead key target behind ∧
    (c.taskCancelOrderWork request id).2 = [.enqueue ⟨target.cancel, .canceled, "Order canceled"⟩] ∧
    (((c.taskCancelOrderWork request id).1.bookOf request.symbol).orders request.side).entries = ahead ++ behind ∧
    ((c.taskCancelOrderWork request id).1.bookOf request.symbol).orders request.side.opposite =
      (c.bookOf request.symbol).orders request.side.opposite ∧
    ∀ symbol, symbol ≠ request.symbol → (c.taskCancelOrderWork request id).1.bookOf symbol = c.bookOf symbol

/-- A cancel changes no book and enqueues no message. -/
def ChangesNothing (c : CentralOrderBook) (request : Order) (id : String) : Prop :=
  (∀ symbol, (c.taskCancelOrderWork request id).1.bookOf symbol = c.bookOf symbol) ∧
    enqueued (c.taskCancelOrderWork request id).2 = []

/-- The work of a cancel task on the books. -/
theorem taskCancelOrderWork_bookOf (symbol : String) :
    (c.taskCancelOrderWork request id).1.bookOf symbol =
      if symbol = request.symbol then ((c.bookOf symbol).execute (.cancelOrder request.owner id request.side)).1
      else c.bookOf symbol :=
  c.taskWork_bookOf (.cancelOrder request id) symbol

/-- A cancel that names an order of its book removes the first one. -/
theorem removesFirst (hsided : (c.bookOf request.symbol).Sided)
    (h : ∃ order ∈ ((c.bookOf request.symbol).orders request.side).values, order.hasClient request.owner id = true) :
    c.RemovesFirst request id := by
  obtain ⟨ahead, key, target, behind, hfirst⟩ := OrderBook.exists_findsFirst h
  obtain ⟨after, hcancel, hentries, hopposite⟩ := hfirst.taskCancelOrder hsided
  have hbook : (c.taskCancelOrderWork request id).1.bookOf request.symbol = after := by
    simp [taskCancelOrderWork_bookOf, OrderBook.execute, hcancel]
  refine ⟨ahead, key, target, behind, hfirst, by simp [taskCancelOrderWork, hcancel], by rw [hbook, hentries],
    by rw [hbook, hopposite], fun symbol hsymbol => ?_⟩
  rw [taskCancelOrderWork_bookOf, if_neg hsymbol]

/-- A cancel that names no order of its book changes nothing. -/
theorem changesNothing
    (h : ∀ order ∈ ((c.bookOf request.symbol).orders request.side).values, order.hasClient request.owner id = false) :
    c.ChangesNothing request id := by
  have hnone : (c.bookOf request.symbol).taskCancelOrder request.owner id request.side = none := by
    rw [OrderBook.taskCancelOrder_eq_none_iff, OrderBook.find_eq_none_iff]
    exact h
  refine ⟨fun symbol => ?_, by simp [taskCancelOrderWork, hnone, cancelOrderWork]⟩
  rw [taskCancelOrderWork_bookOf]
  split
  · rename_i hsymbol
    subst hsymbol
    simp [OrderBook.execute, hnone]
  · rfl

end CentralOrderBook

namespace Pipeline

variable {symbols : List String} {s t : Pipeline}

/-- After a step, an order still rests on its side, or the step executed a task on its book that filled it, with a
report, or a cancel task that carries its owner, symbol, side and client order ID. -/
def RestsOrLeaves (label : Label) (s t : Pipeline) (symbol : String) (order : Order) : Prop :=
  (∃ later ∈ ((t.engine.bookOf symbol).orders order.side).values, later.call = order.call) ∨
    ∃ queueID task, label = .execute queueID ∧ s.holding queueID = some task ∧ task.symbol = symbol ∧
      ((∃ other message, task = .newOrder other ∧ message ∈ enqueued (t.working queueID) ∧
          message.order.call = order.call ∧ message.type = .filled ∧ message.order.isFilled = true) ∨
        ∃ request id, task = .cancelOrder request id ∧ request.owner = order.owner ∧ request.symbol = order.symbol ∧
          request.side = order.side ∧ id = order.clientOrderID)

/-- Every book has its orders on their sides. -/
theorem Consistent.sided (h : s.Consistent symbols) (symbol : String) : (s.engine.bookOf symbol).Sided := by
  rw [h.executed.books symbol]
  exact (OrderBook.originates_executeAll _).1

/-- The orders on the book of a symbol are orders for this symbol. -/
theorem Consistent.symbol_of_resting (h : s.Consistent symbols) {symbol : String} {side : OrderSide} {order : Order}
    (horder : order ∈ ((s.engine.bookOf symbol).orders side).values) : order.symbol = symbol := by
  rw [h.executed.books symbol] at horder
  obtain ⟨original, horiginal, hterms, _⟩ := (OrderBook.originates_executeAll _).2.1 side order horder
  rw [← hterms]
  exact (mem_newOrders_symbolTasks.mp horiginal).2

/-- An order leaves a book by a fill or by its own cancel. -/
theorem Consistent.restsOrLeaves (h : s.Consistent symbols) {label : Label} (hnext : Pipeline.next label s = some t)
    {symbol : String} {side : OrderSide} {order : Order}
    (horder : order ∈ ((s.engine.bookOf symbol).orders side).values) : RestsOrLeaves label s t symbol order := by
  obtain rfl : order.side = side := h.sided symbol side order horder
  have hstays : t.engine.bookOf symbol = s.engine.bookOf symbol → RestsOrLeaves label s t symbol order :=
    fun hbook => .inl ⟨order, hbook ▸ horder, rfl⟩
  have hnextConsistent := h.next hnext
  obtain ⟨_, _, rfl⟩ | ⟨_, _, _, rfl⟩ | ⟨message, _, _, _, _, rfl⟩ | ⟨_, _, _, _, rfl⟩ | ⟨_, _, _, _, _, _, _, rfl⟩ |
    ⟨queueID, task, rfl, hholding, rfl⟩ | ⟨_, _, _, _, _, rfl⟩ := next_cases hnext
  · exact hstays rfl
  · exact hstays rfl
  · exact hstays (by rw [CentralOrderBook.bookOf, dispatchWork_orderBookDictionary]; rfl)
  · exact hstays rfl
  · exact hstays rfl
  · by_cases hsymbol : symbol = task.symbol
    · subst hsymbol
      have hstamped := hnextConsistent.stamped_log task.symbol
      simp only [log, symbolTasks_append, symbolTasks_singleton, if_true] at hstamped
      have hbook := h.executed.books task.symbol
      have hreports : ∀ message, message ∈ (((OrderBook.empty.executeAll (s.log task.symbol)).1.execute task.bookTask).2) →
          message ∈ enqueued (Function.update s.working queueID (s.engine.taskWork task).2 queueID) := by
        intro message hmessage
        rw [Function.update_self, CentralOrderBook.enqueued_taskWork, hbook]
        exact hmessage
      have hafter : (s.engine.taskWork task).1.bookOf task.symbol =
          ((OrderBook.empty.executeAll (s.log task.symbol)).1.execute task.bookTask).1 := by
        rw [s.engine.taskWork_bookOf, if_pos rfl, hbook]
      rcases OrderBook.rests_or_closed hstamped (hbook ▸ horder) with ⟨later, hlater, hcall⟩ |
        ⟨message, hmessage, hfinal, hcall⟩
      · exact .inl ⟨later, by rw [hafter]; exact hlater, hcall⟩
      · refine .inr ⟨queueID, task, rfl, hholding, rfl, ?_⟩
        rcases OrderBook.execute_final (OrderBook.originates_executeAll _).1 task.bookTask hmessage hfinal with
          ⟨htype, hfilled, other, htask⟩ | ⟨_, htask⟩
        · cases task with
          | newOrder new => exact .inl ⟨new, message, rfl, hreports message hmessage, hcall, htype, hfilled⟩
          | cancelOrder => cases htask
        · cases task with
          | newOrder => cases htask
          | cancelOrder request id =>
            have hterms : message.order.toOrderTerms = order.toOrderTerms := congrArg Prod.fst hcall
            simp only [Task.bookTask, BookTask.cancelOrder.injEq, hterms] at htask
            obtain ⟨howner, hid, hside⟩ := htask
            exact .inr ⟨request, id, rfl, howner, (h.symbol_of_resting horder).symm, hside, hid⟩
    · exact hstays ((s.engine.taskWork_bookOf task symbol).trans (if_neg hsymbol))
  · exact hstays rfl

/-- Every message about an order carries the terms of the request that submitted it. -/
theorem outgoing_submitted (h : (pipeline symbols).Reachable s) {message : OutgoingMessage}
    (hmessage : message ∈ s.engine.outgoingMessages) :
    ∃ submitted, s.pushed[message.order.serial]? = some submitted ∧
      submitted.order.toOrderTerms = message.order.toOrderTerms := by
  have hconsistent := consistent_of_reachable h
  suffices hsubmitted : ∃ task ∈ s.pushed.map IncomingMessage.task,
      task.order.toOrderTerms = message.order.toOrderTerms ∧ task.order.serial = message.order.serial by
    obtain ⟨task, htask, hterms, hserial⟩ := hsubmitted
    obtain ⟨submitted, hmem, rfl⟩ := List.mem_map.mp htask
    obtain ⟨i, hi, rfl⟩ := List.mem_iff_getElem.mp hmem
    rw [IncomingMessage.task_order] at hterms hserial
    rw [hconsistent.stamped i _ (List.getElem?_eq_getElem hi), Order.ofTerms_serial] at hserial
    exact ⟨s.pushed[i], by rw [← hserial]; exact List.getElem?_eq_getElem hi, hterms⟩
  cases hbook : message.type.ofBook with
  | true =>
    have hmem : message ∈ bookMessages message.order.symbol s.engine.outgoingMessages :=
      List.mem_filter.mpr ⟨hmessage, by simp [hbook]⟩
    obtain ⟨original, horiginal, hterms, hserial⟩ := (OrderBook.originates_executeAll _).2.2 message
      (hconsistent.executed.reports message.order.symbol ▸ List.mem_append_left _ hmem)
    exact ⟨_, hconsistent.executed_pushed (mem_newOrders_symbolTasks.mp horiginal).1, hterms, hserial⟩
  | false =>
    have hanswer : message ∈ answers s.engine.outgoingMessages := List.mem_filter.mpr ⟨hmessage, by simp [hbook]⟩
    have horder : message.order ∈ orders s.pushed := by
      rw [← (answered_of_reachable h).answered]
      exact List.mem_append_left _ (List.mem_map_of_mem hanswer)
    exact ⟨_, mem_orders.mp horder, rfl, rfl⟩

/-- In every state reached, a cancel removes exactly the first order that it names or changes nothing. Over a run,
orders leave a book only filled or by their own cancels, and all messages about an order are addressed to the owner
that submitted it. -/
theorem cancel_exact (h : (pipeline symbols).Reachable s) :
    (∀ request id, ((∃ order ∈ ((s.engine.bookOf request.symbol).orders request.side).values,
        order.hasClient request.owner id = true) → s.engine.RemovesFirst request id) ∧
      ((∀ order ∈ ((s.engine.bookOf request.symbol).orders request.side).values,
        order.hasClient request.owner id = false) → s.engine.ChangesNothing request id)) ∧
    (∀ label t, next label s = some t → ∀ symbol side, ∀ order ∈ ((s.engine.bookOf symbol).orders side).values,
      RestsOrLeaves label s t symbol order) ∧
    ∀ message ∈ s.engine.outgoingMessages, ∃ submitted, s.pushed[message.order.serial]? = some submitted ∧
      submitted.order.toOrderTerms = message.order.toOrderTerms := by
  have hconsistent := consistent_of_reachable h
  refine ⟨fun request id => ⟨?_, ?_⟩, fun label t hnext symbol side order horder => ?_, fun message hmessage => ?_⟩
  · exact CentralOrderBook.removesFirst (hconsistent.sided request.symbol)
  · exact CentralOrderBook.changesNothing
  · exact hconsistent.restsOrLeaves hnext horder
  · exact outgoing_submitted h hmessage

/-- The steps that bring an order into the book of its symbol. -/
def toBook (request : Request) : List Label :=
  [.push request, .flush, .dispatch, .dispatcherOperation, .dispatcherOperation, .pop 0, .execute 0]

/-- A run that leaves an order in its book, where the cancel of its owner finds it. -/
theorem cancel_exact_resting :
    ∃ s, (pipeline ["A"]).run (toBook (exampleRequest "A" .newOrder)) (pipeline ["A"]).start = some s ∧
      ((s.engine.bookOf "A").orders .buy).values.any (·.hasClient "CLIENT" "1") = true ∧
      (∀ request id, ((∃ order ∈ ((s.engine.bookOf request.symbol).orders request.side).values,
          order.hasClient request.owner id = true) → s.engine.RemovesFirst request id) ∧
        ((∀ order ∈ ((s.engine.bookOf request.symbol).orders request.side).values,
          order.hasClient request.owner id = false) → s.engine.ChangesNothing request id)) ∧
      (∀ label t, next label s = some t → ∀ symbol side, ∀ order ∈ ((s.engine.bookOf symbol).orders side).values,
        RestsOrLeaves label s t symbol order) ∧
      ∀ message ∈ s.engine.outgoingMessages, ∃ submitted, s.pushed[message.order.serial]? = some submitted ∧
        submitted.order.toOrderTerms = message.order.toOrderTerms := by
  obtain ⟨s, hrun, hresting⟩ : ∃ s, (pipeline ["A"]).run (toBook (exampleRequest "A" .newOrder)) (pipeline ["A"]).start =
      some s ∧ ((s.engine.bookOf "A").orders .buy).values.any (·.hasClient "CLIENT" "1") = true := ⟨_, rfl, rfl⟩
  exact ⟨s, hrun, hresting, cancel_exact (Machine.reachable_of_run hrun)⟩

end Pipeline

end MatchingEngine
