import MatchingEngine.Server
import MatchingEngine.Quantities
import MatchingEngine.PipelineHistory

/-!
# Quantities from the FIX field to the books

The server receives messages and runs the pipeline; the quantity field of every pushed
message is recorded. The getter reads the text of the field as a double, which need not be
the number that the text names, and no one checks that this double is positive or integral.
An accepted order has the requested quantity, and a positive one, exactly when the field is
a positive integer in the range of `long` that is read as it is.

If every accepted order has such a field, all books stay tradable, so that every match
trades a positive quantity. What holds of the accepted orders holds of every new-order
task on its way to a book.
-/

namespace MatchingEngine

namespace OrderBook

/-- The calls of `execute` for a bid and an ask trade one positive quantity, divide by something other than
zero and increase no open quantity. -/
structure ExecutesProperly (bid ask : Order) : Prop where
  same : (matchTwoOrders bid ask).1.lastExecutedQuantity = (matchTwoOrders bid ask).2.lastExecutedQuantity
  positive : 0 < (matchTwoOrders bid ask).1.lastExecutedQuantity
  bidDivisor : (matchTwoOrders bid ask).1.lastExecutedQuantity + bid.executedQuantity ≠ 0
  askDivisor : (matchTwoOrders bid ask).2.lastExecutedQuantity + ask.executedQuantity ≠ 0
  bidOpen : (matchTwoOrders bid ask).1.openQuantity ≤ bid.openQuantity
  askOpen : (matchTwoOrders bid ask).2.openQuantity ≤ ask.openQuantity

/-- Tradable orders are executed properly. -/
theorem executesProperly {bid ask : Order} (hbid : bid.Tradable) (hask : ask.Tradable) :
    ExecutesProperly bid ask := by
  have hquantity := lt_min hbid.openPos hask.openPos
  have hbidExecuted := hbid.executedNonneg
  have haskExecuted := hask.executedNonneg
  constructor <;> simp only [matchTwoOrders_eq, Order.execute_lastExecutedQuantity, Order.execute_openQuantity] <;>
    omega

/-- A pass of the matching loop. -/
def Pass (book after : OrderBook) : Prop := ∃ bid ask, book.matchTops = some (after, bid, ask)

/-- Passes keep the resting orders tradable. -/
theorem Tradable.passes {book after : OrderBook} (h : book.Tradable) (hpasses : Relation.ReflTransGen Pass book after) :
    after.Tradable := by
  induction hpasses with
  | refl => exact h
  | tail _ hpass ih =>
    obtain ⟨bid, ask, htops⟩ := hpass
    exact ih.matchTops htops

end OrderBook

namespace Pipeline

variable {symbols : List String} {s t : Pipeline}

/-- All orders that were accepted satisfy a property: those being submitted, in the queues, with a worker, or
executed. -/
structure Scheduled (P : Order → Prop) (s : Pipeline) : Prop where
  dispatching : ∀ order id, .submitTask (.newOrder order) id ∈ s.dispatching → P order
  queues : ∀ q order, .newOrder order ∈ s.engine.threadQueues q → P order
  holding : ∀ q order, s.holding q = some (.newOrder order) → P order
  executed : ∀ order, .newOrder order ∈ s.executed → P order

/-- A weaker property. -/
theorem Scheduled.mono {P Q : Order → Prop} (h : s.Scheduled P) (himp : ∀ order, P order → Q order) : s.Scheduled Q where
  dispatching order id hmem := himp order (h.dispatching order id hmem)
  queues q order hmem := himp order (h.queues q order hmem)
  holding q order hholding := himp order (h.holding q order hholding)
  executed order hmem := himp order (h.executed order hmem)

/-- The dispatcher submits a new order only if it has found a book for its symbol. -/
theorem exists_of_mem_dispatchWork {c : CentralOrderBook} {message : IncomingMessage} {order : Order} {id : ℕ}
    (h : .submitTask (.newOrder order) id ∈ (dispatchWork c message).2) :
    message.type = .newOrder ∧ message.order = order ∧ c.doesOrderBookExist order.symbol = true := by
  unfold dispatchWork at h
  cases htype : message.type with
  | newOrder =>
    simp only [htype, CentralOrderBook.addOrderWork] at h
    split at h
    · rename_i hexists
      simp only [List.mem_cons, QueueOperation.submitTask.injEq, Task.newOrder.injEq, List.not_mem_nil, or_false,
        reduceCtorEq, false_or] at h
      obtain ⟨rfl, rfl⟩ := h
      exact ⟨rfl, rfl, hexists⟩
    · simp [CentralOrderBook.rejectOrderWork] at h
  | cancelOrder => simp [htype, CentralOrderBook.cancelOrderWork] at h

/-- What holds of every order when it is accepted holds of all accepted orders. -/
theorem Scheduled.next {P : Order → Prop} (h : s.Scheduled P) (hrouted : s.Routed symbols) {label : Label}
    (haccepted : label = .dispatch → ∀ message rest, s.flushed = message :: rest → message.type = .newOrder →
      s.engine.doesOrderBookExist message.order.symbol = true → P message.order)
    (hnext : Pipeline.next label s = some t) : t.Scheduled P := by
  obtain ⟨_, _, rfl⟩ | ⟨_, _, _, rfl⟩ | ⟨message, rest, hlabel, hflushed, _, rfl⟩ | ⟨operation, _, _, hdispatching, rfl⟩ |
    ⟨queueID, task, rest, _, _, _, hqueue, rfl⟩ | ⟨queueID, task, _, hholding, rfl⟩ |
    ⟨queueID, operation, operations, _, hworking, rfl⟩ := next_cases hnext
  · exact ⟨h.dispatching, h.queues, h.holding, h.executed⟩
  · exact ⟨h.dispatching, h.queues, h.holding, h.executed⟩
  · refine ⟨fun order id hmem => ?_, ?_, h.holding, h.executed⟩
    · obtain ⟨htype, rfl, hexists⟩ := exists_of_mem_dispatchWork hmem
      exact haccepted hlabel message rest hflushed htype hexists
    · rw [(dispatchWork_sameQueues s.engine message).threadQueues]
      exact h.queues
  · refine ⟨fun order id hmem => h.dispatching order id (hdispatching ▸ List.mem_cons_of_mem _ hmem),
      fun q order hmem => ?_, h.holding, h.executed⟩
    rcases mem_afterOperations hmem with hmem | rfl
    · exact h.queues q order hmem
    · exact h.dispatching order q (hdispatching ▸ List.mem_cons_self ..)
  · refine ⟨h.dispatching, fun q order hmem => h.queues q order (s.engine.mem_of_mem_withQueue hqueue hmem),
      fun q order hholding => ?_, h.executed⟩
    by_cases hq : q = queueID
    · subst hq
      simp only [Function.update_self, Option.some.injEq] at hholding
      exact h.queues q order (hqueue ▸ hholding ▸ List.mem_cons_self ..)
    · simp only [Function.update_of_ne hq] at hholding
      exact h.holding q order hholding
  · refine ⟨h.dispatching, ?_, fun q order hother => ?_, fun order hmem => ?_⟩
    · rw [(s.engine.taskWork_sameQueues task).threadQueues]
      exact h.queues
    · by_cases hq : q = queueID
      · subst hq
        simp [Function.update_self] at hother
      · simp only [Function.update_of_ne hq] at hother
        exact h.holding q order hother
    · rcases List.mem_append.mp hmem with hmem | hmem
      · exact h.executed order hmem
      · exact h.holding queueID order (List.mem_singleton.mp hmem ▸ hholding)
  · refine ⟨h.dispatching, fun q order hmem => ?_, h.holding, h.executed⟩
    rcases mem_afterOperations hmem with hmem | rfl
    · exact h.queues q order hmem
    · -- Workers only submit cancels.
      have hcancel := (hrouted.working queueID _ q (hworking ▸ List.mem_cons_self ..)).2.2.2
      cases hcancel

/-- A new-order task on its way to the worker was pushed. -/
theorem Consistent.mem_pushed (h : s.Consistent symbols) {order : Order}
    (hmem : .newOrder order ∈ s.upstream (queueOf symbols order.symbol)) :
    .newOrder order ∈ s.pushed.map IncomingMessage.task := by
  have hselected := List.mem_filter.mpr ⟨hmem, newOrderOf_iff.mpr ⟨rfl, rfl⟩⟩
  exact List.mem_of_mem_filter ((h.newOrders order.symbol).1.subset (List.mem_append_right _ hselected))

/-- A flushed message was pushed, at the position that its order carries. -/
theorem Consistent.pushed_of_flushed (h : s.Consistent symbols) {message : IncomingMessage} (hmem : message ∈ s.flushed)
    (htype : message.type = .newOrder) :
    ∃ pushed, s.pushed[message.order.serial]? = some pushed ∧ pushed.type = .newOrder ∧ pushed.order = message.order := by
  have htask : message.task = .newOrder message.order := by rw [IncomingMessage.task, htype]
  have hupstream := List.mem_map_of_mem (f := IncomingMessage.task) (List.mem_append_left s.incoming hmem)
  obtain ⟨pushed, hpushed, heq⟩ := List.mem_map.mp (h.mem_pushed (htask ▸ List.mem_append_right _ hupstream))
  obtain ⟨i, hi, rfl⟩ := List.mem_iff_getElem.mp hpushed
  have horder : s.pushed[i].order = message.order := by
    rw [← IncomingMessage.task_order, heq]
    rfl
  have hserial : message.order.serial = i := by
    rw [← horder, h.stamped i _ (List.getElem?_eq_getElem hi)]
    rfl
  refine ⟨s.pushed[i], by rw [hserial]; exact List.getElem?_eq_getElem hi, ?_, horder⟩
  rw [IncomingMessage.task] at heq
  split at heq
  · assumption
  · cases heq

/-- A new-order task that a worker holds constructed its order. -/
theorem Consistent.fresh_of_holding (h : s.Consistent symbols) {queueID : ℕ} {order : Order}
    (hholding : s.holding queueID = some (.newOrder order)) : order = .ofTerms order.toOrderTerms order.serial := by
  have hqueue : queueOf symbols order.symbol = queueID := (h.routed.holding queueID _ hholding).1
  refine @StampedMessages.fresh _ h.stamped (.newOrder order) (h.mem_pushed ?_)
  simp [upstream, hqueue, hholding]

/-- Where all accepted orders have positive quantities, all books are tradable. -/
theorem Consistent.tradable (h : s.Consistent symbols) (hpositive : s.Scheduled fun order => 0 < order.quantity)
    (symbol : String) : (s.engine.bookOf symbol).Tradable := by
  rw [h.executed.books symbol]
  refine OrderBook.Tradable.executeAll (fun side order horder => ?_) OrderBook.history_empty (h.stamped_log symbol) ?_
  · simp at horder
  · intro order horder
    exact hpositive.executed order (mem_newOrders_symbolTasks.mp horder).1

end Pipeline

/-- The quantity field of a message. -/
def FIX.Message.orderQty : FIX.Message → Option ℚ
  | .newOrderSingle message => message.orderQty
  | .orderCancelRequest _ | .other => none

/-- A message whose fields name numbers as the getters read it. -/
def FIX.Message.read (readDouble : ℚ → ℚ) : FIX.Message → FIX.Message
  | .newOrderSingle message =>
    .newOrderSingle { message with orderQty := message.orderQty.map readDouble, price := message.price.map readDouble }
  | .orderCancelRequest message => .orderCancelRequest message
  | .other => .other

/-- A message whose numbers are doubles is read as it is. -/
@[simp] theorem FIX.Message.read_id (message : FIX.Message) : message.read id = message := by
  cases message with
  | newOrderSingle message => simp [read]
  | orderCancelRequest message => rfl
  | other => rfl

/-- The getter reads the quantity field. -/
theorem FIX.Message.orderQty_read (readDouble : ℚ → ℚ) (message : FIX.Message) :
    (message.read readDouble).orderQty = message.orderQty.map readDouble := by
  cases message with
  | newOrderSingle message => rfl
  | orderCancelRequest message => rfl
  | other => rfl

/-- The pipeline behind the handlers, and the quantity fields of the messages pushed so far. -/
structure Server where
  pipeline : Pipeline
  requested : List (Option ℚ)

namespace Server

open FIX

/-- A received message, or a step of the threads behind the handlers. -/
inductive Label
  | receive (message : Message)
  | thread (label : Pipeline.Label)

/-- Make a call of a handler. -/
def perform (orderQty : Option ℚ) (s : Server) : ServerCall → Server
  | .rejectOrder order what =>
    let order := Order.ofTerms order s.pipeline.pushed.length
    let messages := s.pipeline.engine.outgoingMessages ++ enqueued (CentralOrderBook.rejectOrderWork order what)
    { s with pipeline := { s.pipeline with engine := { s.pipeline.engine with outgoingMessages := messages } } }
  | .pushMessage request =>
    let message := request.message s.pipeline.pushed.length
    let incoming := s.pipeline.incoming ++ [message]
    ⟨{ s.pipeline with incoming := incoming, pushed := s.pipeline.pushed ++ [message] }, s.requested ++ [orderQty]⟩

/-- The steps; requests come from the handlers, and a message that terminates the process ends the run. `readDouble` is
the double that the conversion of the field reads from the text of a number: it rounds after each digit, so that a number
that is no double, such as the integer after `2 ^ 53`, is read as another one. -/
def next (undefined : ℚ → ℤ) (readDouble : ℚ → ℚ) : Label → Server → Option Server
  | .receive message, s =>
    match fromApp undefined (message.read readDouble) with
    | (.terminated, _) => none
    | (_, calls) => some (calls.foldl (perform message.orderQty) s)
  | .thread (.push _), _ => none
  | .thread label, s => (Pipeline.next label s.pipeline).map fun pipeline => { s with pipeline := pipeline }

end Server

/-- The server over the configured symbols. -/
def server (undefined : ℚ → ℤ) (readDouble : ℚ → ℚ) (symbols : List String) : Machine Server Server.Label where
  start := ⟨.initial symbols, []⟩
  next := Server.next undefined readDouble

namespace Server

open FIX

variable {undefined : ℚ → ℤ} {readDouble : ℚ → ℚ} {symbols : List String} {s t : Server}

/-- Everything a handler can do: nothing but end, or push one request, with the quantity of the field. -/
theorem fromApp_cases (undefined : ℚ → ℤ) (message : Message) :
    (fromApp undefined message).2 = [] ∨
      ∃ request, fromApp undefined message = (.returned, [.pushMessage request]) ∧
        (request.type = .newOrder →
          ∃ value, message.orderQty = some value ∧ request.terms.quantity = toLong undefined value) := by
  cases message with
  | other => exact .inl rfl
  | orderCancelRequest message =>
    obtain ⟨_ | sender, _ | origClOrdID, _ | clOrdID, _ | symbol, _ | side⟩ := message
    case some.some.some.some.some =>
      let fields : CancelFields := ⟨sender, origClOrdID, clOrdID, symbol, side⟩
      cases hside : sideOf side with
      | none => exact .inl (congrArg Prod.snd (fromApp_cancel_of_none undefined fields hside))
      | some converted => exact .inr ⟨_, fromApp_cancel_of_some undefined fields hside, fun hnone => by cases hnone⟩
    all_goals exact .inl rfl
  | newOrderSingle message =>
    obtain ⟨_ | sender, _ | target, _ | clOrdID, _ | symbol, _ | side, _ | ordType, _ | orderQty, price⟩ := message
    case some.some.some.some.some.some.some =>
      -- The conversions come before the price is read.
      by_cases htype : ordType = '2'
      · cases hside : sideOf side with
        | none =>
          left
          simp only [fromApp, crack, onNewOrderSingle, get_some, pure_bind, convertOrderSideFromQuickFix_of_none hside,
            htype]
          rfl
        | some converted =>
          cases price with
          | none =>
            left
            simp only [fromApp, crack, onNewOrderSingle, get_some, pure_bind,
              convertOrderSideFromQuickFix_of_some hside, htype]
            rfl
          | some price =>
            let fields : OrderFields := ⟨sender, target, clOrdID, symbol, side, ordType, orderQty, price⟩
            exact .inr ⟨_, fromApp_order_of_some undefined fields hside htype, fun _ => ⟨orderQty, rfl, rfl⟩⟩
      · left
        simp only [fromApp, crack, onNewOrderSingle, get_some, pure_bind, convertOrderTypeFromQuickFix_of_ne htype]
        rfl
    all_goals exact .inl rfl

/-- Everything a step can do: nothing, push a request and record its quantity field, or a step of the threads. -/
theorem next_cases {label : Label} (h : next undefined readDouble label s = some t) :
    t = s ∨
    (∃ request orderQty,
      (request.type = .newOrder →
        ∃ value, orderQty = some value ∧ request.terms.quantity = toLong undefined (readDouble value)) ∧
      Pipeline.next (.push request) s.pipeline = some t.pipeline ∧ t.requested = s.requested ++ [orderQty]) ∨
    ∃ thread, label = .thread thread ∧ (∀ request, thread ≠ .push request) ∧
      Pipeline.next thread s.pipeline = some t.pipeline ∧ t.requested = s.requested := by
  cases label with
  | receive message =>
    rw [next] at h
    rcases fromApp_cases undefined (message.read readDouble) with hcalls | ⟨request, hpushed, hquantity⟩
    · left
      split at h
      · cases h
      · rename_i calls _ hresult
        rw [hresult] at hcalls
        obtain rfl : calls = [] := hcalls
        exact (Option.some.inj h).symm
    · right; left
      simp only [hpushed, Option.some.injEq] at h
      subst h
      refine ⟨request, message.orderQty, fun htype => ?_, rfl, rfl⟩
      obtain ⟨double, hdouble, hconverted⟩ := hquantity htype
      rw [FIX.Message.orderQty_read] at hdouble
      obtain ⟨value, hvalue, rfl⟩ := Option.map_eq_some_iff.mp hdouble
      exact ⟨value, hvalue, hconverted⟩
  | thread thread =>
    right; right
    unfold next at h
    split at h
    · contradiction
    · cases h
    · rename_i label hpush heq
      obtain rfl := Label.thread.inj heq
      obtain ⟨pipeline, hpipeline, rfl⟩ := Option.map_eq_some_iff.mp h
      exact ⟨thread, rfl, fun request hthread => hpush request hthread, hpipeline, rfl⟩

/-- The quantity field is a positive integer in the range of `long`. -/
def representable (value : ℚ) : Bool := value.den = 1 ∧ 0 < value.num ∧ value.num < 2 ^ 63

/-- A representable quantity is converted exactly. -/
theorem toLong_of_representable (undefined : ℚ → ℤ) {value : ℚ} (h : representable value = true) :
    (toLong undefined value : ℚ) = value ∧ 0 < toLong undefined value := by
  obtain ⟨hden, hpos, hlt⟩ := of_decide_eq_true h
  have htoLong : toLong undefined value = value.num := by
    simp only [toLong, hden, Nat.cast_one, Int.tdiv_one]
    exact if_pos ⟨by omega, hlt⟩
  rw [htoLong]
  exact ⟨Rat.coe_int_num_of_den_eq_one hden, hpos⟩

/-- Whenever the dispatcher finds a book for the symbol of a new order, the requested quantity is a positive
integer in the range of `long`, and the getter reads it as it is. -/
def Representable (readDouble : ℚ → ℚ) : Label → Server → Prop
  | .thread .dispatch, s =>
    ∀ message : IncomingMessage, s.pipeline.flushed.head? = some message → message.type = .newOrder →
      s.pipeline.engine.doesOrderBookExist message.order.symbol = true →
        ∃ value, s.requested[message.order.serial]? = some (some value) ∧ representable value = true ∧
          readDouble value = value
  | _, _ => True

/-- An order has the requested quantity, which is positive. -/
def AsRequested (requested : List (Option ℚ)) (order : Order) : Prop :=
  0 < order.quantity ∧ requested[order.serial]? = some (some (order.quantity : ℚ))

/-- The quantities of the pushed orders are the conversions of the recorded fields. -/
structure Recorded (undefined : ℚ → ℤ) (readDouble : ℚ → ℚ) (s : Server) : Prop where
  length : s.requested.length = s.pipeline.pushed.length
  converted : ∀ (i : ℕ) (message : IncomingMessage), s.pipeline.pushed[i]? = some message → message.type = .newOrder →
    ∃ value, s.requested[i]? = some (some value) ∧ message.order.quantity = toLong undefined (readDouble value)

/-- The requested quantities are only extended. -/
theorem AsRequested.append {requested : List (Option ℚ)} {order : Order} (h : AsRequested requested order)
    (more : List (Option ℚ)) : AsRequested (requested ++ more) order :=
  ⟨h.1, by rw [List.getElem?_append_left (List.getElem?_eq_some_iff.mp h.2).1]; exact h.2⟩

/-- A push is recorded with its quantity field. -/
theorem Recorded.push (h : s.Recorded undefined readDouble) {request : Request} {orderQty : Option ℚ} {t : Server}
    (hquantity : request.type = .newOrder →
      ∃ value, orderQty = some value ∧ request.terms.quantity = toLong undefined (readDouble value))
    (hpushed : t.pipeline.pushed = s.pipeline.pushed ++ [request.message s.pipeline.pushed.length])
    (hrequested : t.requested = s.requested ++ [orderQty]) : t.Recorded undefined readDouble := by
  refine ⟨by simp [hpushed, hrequested, h.length], fun i message hmessage htype => ?_⟩
  rw [hpushed] at hmessage
  rw [hrequested]
  rcases Nat.lt_or_ge i s.pipeline.pushed.length with hi | hi
  · rw [List.getElem?_append_left hi] at hmessage
    rw [List.getElem?_append_left (h.length ▸ hi)]
    exact h.converted i message hmessage htype
  · rw [List.getElem?_append_right hi] at hmessage
    rw [List.getElem?_append_right (h.length ▸ hi), h.length]
    rw [List.getElem?_singleton] at hmessage
    split at hmessage
    · rename_i hzero
      obtain rfl := Option.some.inj hmessage
      obtain ⟨value, rfl, hvalue⟩ := hquantity htype
      exact ⟨value, by rw [hzero]; rfl, hvalue⟩
    · cases hmessage

/-- The invariant of the server. -/
structure Consistent (undefined : ℚ → ℤ) (readDouble : ℚ → ℚ) (symbols : List String) (s : Server) : Prop where
  pipeline : s.pipeline.Consistent symbols
  recorded : s.Recorded undefined readDouble
  accepted : s.pipeline.Scheduled (AsRequested s.requested)

/-- An order that the dispatcher accepts under the condition is as requested. -/
theorem Consistent.asRequested (h : s.Consistent undefined readDouble symbols)
    (hcondition : Representable readDouble (.thread .dispatch) s) {message : IncomingMessage} {rest : List IncomingMessage}
    (hflushed : s.pipeline.flushed = message :: rest) (htype : message.type = .newOrder)
    (hexists : s.pipeline.engine.doesOrderBookExist message.order.symbol = true) :
    AsRequested s.requested message.order := by
  obtain ⟨value, hvalue, hrepresentable, hread⟩ := hcondition message (by rw [hflushed]; rfl) htype hexists
  obtain ⟨pushed, hpushed, hpushedType, horder⟩ :=
    h.pipeline.pushed_of_flushed (hflushed ▸ List.mem_cons_self ..) htype
  obtain ⟨value', hvalue', hquantity⟩ := h.recorded.converted _ pushed hpushed hpushedType
  obtain rfl : value = value' := by simpa [hvalue] using hvalue'
  obtain ⟨hexact, hpos⟩ := toLong_of_representable undefined hrepresentable
  rw [horder, hread] at hquantity
  rw [AsRequested, hquantity, hexact]
  exact ⟨hpos, hvalue⟩

/-- Every step under the condition keeps the invariant. -/
theorem Consistent.next (h : s.Consistent undefined readDouble symbols) {label : Label}
    (hcondition : Representable readDouble label s) (hnext : next undefined readDouble label s = some t) :
    t.Consistent undefined readDouble symbols := by
  rcases next_cases hnext with rfl | ⟨request, orderQty, hquantity, hpush, hrequested⟩ |
    ⟨thread, rfl, hthread, hstep, hrequested⟩
  · exact h
  · refine ⟨h.pipeline.next hpush, h.recorded.push hquantity (Pipeline.next_records hpush).2 hrequested, ?_⟩
    have hlabel : Pipeline.Label.push request ≠ .dispatch := fun heq => by cases heq
    refine (h.accepted.next h.pipeline.routed (fun heq => absurd heq hlabel) hpush).mono fun order horder => ?_
    rw [hrequested]
    exact horder.append _
  · have hpushed := (Pipeline.next_records hstep).2
    refine ⟨h.pipeline.next hstep, ?_, ?_⟩
    · have hnone : s.pipeline.added thread = [] := by
        cases thread with
        | push request => exact absurd rfl (hthread request)
        | _ => rfl
      rw [hnone, List.append_nil] at hpushed
      exact ⟨by rw [hrequested, hpushed]; exact h.recorded.length, by rw [hrequested, hpushed]; exact h.recorded.converted⟩
    · rw [hrequested]
      refine h.accepted.next h.pipeline.routed ?_ hstep
      rintro rfl message rest hflushed htype hexists
      exact h.asRequested hcondition hflushed htype hexists

/-- The quantities of the orders that reach the books, of the resting orders and of the executions. -/
structure QuantitiesSound (s : Server) : Prop where
  reached : ∀ order, .newOrder order ∈ s.pipeline.executed → AsRequested s.requested order
  resting : ∀ symbol side, ∀ order ∈ ((s.pipeline.engine.bookOf symbol).orders side).values,
    (0 < order.openQuantity ∧ order.openQuantity ≤ order.quantity) ∧
      0 ≤ order.executedQuantity ∧ order.executedQuantity < order.quantity
  executions : ∀ queueID order, s.pipeline.holding queueID = some (.newOrder order) →
    ∀ book, Relation.ReflTransGen OrderBook.Pass ((s.pipeline.engine.bookOf order.symbol).insert order) book →
      ∀ bid ask, book.bidOrders.front? = some bid → book.askOrders.front? = some ask → ask.price ≤ bid.price →
        OrderBook.ExecutesProperly bid ask

/-- If every accepted order requests a positive integer quantity in the range of `long` that the getter reads as it is,
the quantities are sound in every state reached. -/
theorem quantities_sound (h : (server undefined readDouble symbols).ReachableBy (Representable readDouble) s) :
    s.QuantitiesSound := by
  have hconsistent : s.Consistent undefined readDouble symbols := by
    refine h.invariant ⟨Pipeline.consistent_initial symbols, ⟨rfl, fun i message hmessage => by cases hmessage⟩,
      fun _ _ hmem => absurd hmem List.not_mem_nil, fun _ _ hmem => absurd hmem List.not_mem_nil,
      fun _ _ hholding => (by cases hholding), fun _ hmem => absurd hmem List.not_mem_nil⟩ ?_
    exact fun label u v _ hu hcondition hnext => hu.next hcondition hnext
  have htradable := hconsistent.pipeline.tradable (hconsistent.accepted.mono fun _ horder => horder.1)
  refine ⟨hconsistent.accepted.executed, fun symbol side order horder => ?_, fun queueID order hholding => ?_⟩
  · have hresting := htradable symbol side order horder
    exact ⟨⟨hresting.openPos, hresting.open_le⟩, hresting.executedNonneg, hresting.executed_lt⟩
  · intro book hpasses bid ask hbid hask _
    have hpos := (hconsistent.accepted.holding queueID order hholding).1
    have horder : order.Tradable := by
      rw [hconsistent.pipeline.fresh_of_holding hholding]
      exact Order.tradable_ofTerms hpos _
    have hbook := ((htradable order.symbol).insert horder).passes hpasses
    exact OrderBook.executesProperly (hbook .buy bid (OrderBook.mem_of_front? hbid))
      (hbook .sell ask (OrderBook.mem_of_front? hask))

/-- A message for symbol A at price ten. -/
def exampleMessage (clOrdID : String) (side : Char) (orderQty : ℚ) : Message :=
  OrderFields.message ⟨"CLIENT", "EXCHANGE", clOrdID, "A", side, '2', orderQty, 10⟩

/-- The steps that bring one pushed order to the worker. -/
def toWorker : List Label :=
  [.thread .flush, .thread .dispatch, .thread .dispatcherOperation, .thread .dispatcherOperation, .thread (.pop 0)]

/-- A test of the condition that looks at the quantity field of every dispatched message. -/
def dispatchesRepresentable (readDouble : ℚ → ℚ) : Label → Server → Bool
  | .thread .dispatch, s => s.pipeline.flushed.head?.all fun message =>
      s.requested[message.order.serial]?.any fun value => value.any fun value =>
        representable value && readDouble value == value
  | _, _ => true

/-- The test ensures the condition. -/
theorem representable_of_test {label : Label} (h : dispatchesRepresentable readDouble label s = true) :
    Representable readDouble label s := by
  unfold Representable
  split
  · intro message hmessage _ _
    simp only [dispatchesRepresentable, hmessage, Option.all_some, Option.any_eq_true, Bool.and_eq_true, beq_iff_eq] at h
    obtain ⟨_, hvalue, value, rfl, hrepresentable⟩ := h
    exact ⟨value, hvalue, hrepresentable⟩
  · trivial

/-- The server for symbol A. The numbers of the messages that it receives are doubles, which are read as they are. -/
def exampleServer : Machine Server Label := server (fun _ => -2 ^ 63) id ["A"]

/-- A buy order for five meets a sell order for three. -/
def partialFill : List Label :=
  .receive (exampleMessage "1" '1' 5) :: toWorker ++ [.thread (.execute 0), .receive (exampleMessage "2" '2' 3)] ++
    toWorker ++ [.thread (.execute 0), .thread (.workerOperation 0), .thread (.workerOperation 0)]

/-- A run in which two orders match, and two of the five bought are left. -/
theorem quantities_sound_fill :
    ∃ s, exampleServer.run partialFill exampleServer.start = some s ∧
      ((s.pipeline.engine.bookOf "A").resting.map fun order => (order.quantity, order.openQuantity)) = [(5, 2)] ∧
      s.QuantitiesSound := by
  obtain ⟨s, hrun, hresting⟩ : ∃ s,
      exampleServer.runIf (dispatchesRepresentable id) partialFill exampleServer.start = some s ∧
      ((s.pipeline.engine.bookOf "A").resting.map fun order => (order.quantity, order.openQuantity)) = [(5, 2)] :=
    ⟨_, rfl, rfl⟩
  have hreach := Machine.ReachableBy.runIf (fun _ _ _ => representable_of_test) .start hrun
  exact ⟨s, Machine.run_of_runIf hrun, hresting, quantities_sound hreach⟩

/-- An order for a quantity of zero rests; an order that it meets divides by zero. -/
theorem zero_quantity_divides_by_zero :
    ∃ s, exampleServer.Reachable s ∧
      (∃ message ∈ s.pipeline.engine.outgoingMessages, message.order.averageExecutedPrice = none) ∧
      ¬ s.QuantitiesSound := by
  have hrun : (exampleServer.run
      (.receive (exampleMessage "1" '1' 0) :: toWorker ++ [.thread (.execute 0), .receive (exampleMessage "2" '2' 5)] ++
        toWorker ++ [.thread (.execute 0), .thread (.workerOperation 0)])
      exampleServer.start).any (fun s =>
        s.pipeline.engine.outgoingMessages.any (fun message => message.order.averageExecutedPrice.isNone) &&
          s.pipeline.executed.head?.any fun task => task.isNewOrder && task.order.quantity == 0) = true := rfl
  obtain ⟨s, hreachable, htest⟩ := Machine.exists_reachable_of_run hrun
  obtain ⟨hmessage, hexecuted⟩ := Bool.and_eq_true_iff.mp htest
  obtain ⟨message, hmem, hnone⟩ := List.any_eq_true.mp hmessage
  refine ⟨s, hreachable, ⟨message, hmem, Option.isNone_iff_eq_none.mp hnone⟩, fun hsound => ?_⟩
  obtain ⟨task, htask, hzero⟩ := (Option.any_eq_true _ _).mp hexecuted
  cases task with
  | newOrder order =>
    have hpos := (hsound.reached order (List.mem_of_head? htask)).1
    simp only [Task.isNewOrder, Task.order, Bool.true_and, beq_iff_eq] at hzero
    omega
  | cancelOrder => cases hzero

end Server

end MatchingEngine
