import MatchingEngine.OrderMessages
import Mathlib.Algebra.BigOperators.Group.List.Basic

/-!
# Conservation of quantity

The last record of an order is the order resting in the book, or its copy in the report
that filled or cancelled it. Every submitted order has exactly one last record, whatever
happens to it. A match executes the same quantity on a bid and on an ask, so that the last
records of both sides have executed the same in total.

The records are counted as one list, up to order: a pass of the matching loop replaces two
of them, and a cancel only moves one from the book to the reports.
-/

namespace MatchingEngine

/-- A quantity summed over the orders of a side. -/
def total (quantity : Order → ℤ) (side : OrderSide) (orders : List Order) : ℤ :=
  ((orders.filter fun order => order.side = side).map quantity).sum

/-- The copies of the orders that were filled or cancelled. -/
def closed (reports : List OutgoingMessage) : List Order :=
  (reports.filter fun message => message.type.final).map OutgoingMessage.order

/-- The copies of the orders that were cancelled. -/
def cancelled (reports : List OutgoingMessage) : List Order :=
  (reports.filter fun message => message.type = .canceled).map OutgoingMessage.order

section Total

variable (quantity other : Order → ℤ) (side : OrderSide) (order : Order) (orders more : List Order)

@[simp] theorem total_nil : total quantity side [] = 0 := rfl

@[simp] theorem total_cons :
    total quantity side (order :: orders) = (if order.side = side then quantity order else 0) + total quantity side orders := by
  unfold total
  by_cases h : order.side = side <;> simp [h]

@[simp] theorem total_append : total quantity side (orders ++ more) = total quantity side orders + total quantity side more := by
  rw [total, List.filter_append, List.map_append, List.sum_append]
  rfl

/-- The arrangement of the orders does not matter. -/
theorem total_perm {orders more : List Order} (h : orders.Perm more) :
    total quantity side orders = total quantity side more :=
  ((h.filter _).map _).sum_eq

/-- Totals of orders of the same calls agree on what the calls determine. -/
theorem total_congr_calls {orders more : List Order} (f : OrderTerms → ℤ)
    (h : (orders.map Order.call).Perm (more.map Order.call)) :
    total (fun order => f order.toOrderTerms) side orders = total (fun order => f order.toOrderTerms) side more := by
  have hcalls : ∀ l : List Order, total (fun order => f order.toOrderTerms) side l =
      (((l.map Order.call).filter fun call => call.1.side = side).map fun call => f call.1).sum := by
    intro l
    rw [List.filter_map, List.map_map]
    rfl
  rw [hcalls, hcalls]
  exact ((h.filter _).map _).sum_eq

/-- The quantity of orders is what is open and what is executed of them. -/
theorem total_quantity :
    total (fun order => order.quantity) side orders =
      total Order.openQuantity side orders + total Order.executedQuantity side orders := by
  induction orders with
  | nil => rfl
  | cons order orders ih =>
    have hbalance := order.balance
    simp only [total_cons, ih]
    split <;> omega

end Total

@[simp] theorem closed_append (reports more : List OutgoingMessage) : closed (reports ++ more) = closed reports ++ closed more := by
  rw [closed, List.filter_append, List.map_append]
  rfl

@[simp] theorem cancelled_append (reports more : List OutgoingMessage) :
    cancelled (reports ++ more) = cancelled reports ++ cancelled more := by
  rw [cancelled, List.filter_append, List.map_append]
  rfl

/-- The executed order either rests on or is closed by its report. -/
theorem settled_append_closed (executed : Order) :
    (if executed.isFilled then [] else [executed]) ++ closed [OrderBook.fillMessage executed] = [executed] := by
  unfold OrderBook.fillMessage
  split <;> rfl

/-- Every submitted order has one last record, and the records of both sides have executed the same. -/
structure Balanced (orders : List Order) (reports : List OutgoingMessage) (resting : List Order) : Prop where
  accounted : ((resting ++ closed reports).map Order.call).Perm (orders.map Order.call)
  executed : total Order.executedQuantity .buy (resting ++ closed reports) =
    total Order.executedQuantity .sell (resting ++ closed reports)
  filled : ∀ message ∈ reports, message.type = .filled → message.order.openQuantity = 0

namespace Balanced

variable {orders resting others : List Order} {reports : List OutgoingMessage} {order bid ask : Order}

/-- Before anything was submitted there is nothing to count. -/
theorem nil : Balanced [] [] [] := ⟨.refl _, rfl, by simp⟩

/-- The arrangement of the resting orders does not matter. -/
theorem perm (h : Balanced orders reports resting) (hperm : resting.Perm others) : Balanced orders reports others where
  accounted := (((hperm.append_right _).map _).symm).trans h.accounted
  executed := by
    rw [← total_perm _ _ (hperm.append_right (closed reports)), h.executed, total_perm _ _ (hperm.append_right _)]
  filled := h.filled

/-- Submit an order that has not been executed. -/
theorem submit (h : Balanced orders reports resting) (hfresh : order.executedQuantity = 0) :
    Balanced (orders ++ [order]) reports (order :: resting) where
  accounted := by
    rw [List.cons_append, List.map_cons]
    exact (h.accounted.cons _).trans ((List.perm_append_singleton order orders).symm.map Order.call)
  executed := by
    simp only [List.cons_append, total_cons, hfresh, ite_self, zero_add]
    exact h.executed
  filled := h.filled

/-- After two fills, the last records of the bid and of the ask are the executed ones. -/
theorem trade_perm (bid ask : Order) (reports : List OutgoingMessage) (others : List Order) :
    (((if bid.isFilled then [] else [bid]) ++ ((if ask.isFilled then [] else [ask]) ++ others)) ++
      closed (reports ++ [OrderBook.fillMessage bid, OrderBook.fillMessage ask])).Perm
        (bid :: ask :: (others ++ closed reports)) := by
  have hpair : closed [OrderBook.fillMessage bid, OrderBook.fillMessage ask] =
      closed [OrderBook.fillMessage bid] ++ closed [OrderBook.fillMessage ask] := by
    rw [← closed_append]
    rfl
  have hcons : bid :: ask :: (others ++ closed reports) = [bid] ++ ([ask] ++ (others ++ closed reports)) := rfl
  refine List.perm_iff_count.mpr fun order => ?_
  have hbid := congrArg (List.count order) (settled_append_closed bid)
  have hask := congrArg (List.count order) (settled_append_closed ask)
  rw [closed_append, hpair, hcons]
  simp only [List.count_append] at hbid hask ⊢
  omega

/-- Execute a quantity on a bid and on an ask, and report both. -/
theorem trade (h : Balanced orders reports (bid :: ask :: others)) (hbid : bid.side = .buy) (hask : ask.side = .sell)
    (price : ℚ) (quantity : ℤ) :
    Balanced orders
      (reports ++ [OrderBook.fillMessage (bid.execute price quantity), OrderBook.fillMessage (ask.execute price quantity)])
      ((if (bid.execute price quantity).isFilled then [] else [bid.execute price quantity]) ++
        ((if (ask.execute price quantity).isFilled then [] else [ask.execute price quantity]) ++ others)) where
  accounted := ((trade_perm ..).map Order.call).trans h.accounted
  executed := by
    have hexecuted := h.executed
    simp only [List.cons_append, total_cons, hbid, hask, if_true, reduceCtorEq, if_false] at hexecuted
    simp only [total_perm _ _ (trade_perm ..), total_cons, Order.execute_toOrderTerms, hbid, hask, if_true,
      reduceCtorEq, if_false, Order.execute_executedQuantity]
    omega
  filled message hmessage htype := by
    rcases List.mem_append.mp hmessage with hmessage | hmessage
    · exact h.filled message hmessage htype
    · simp only [List.mem_cons, List.not_mem_nil, or_false] at hmessage
      rw [← Order.isFilled_iff]
      rcases hmessage with rfl | rfl <;> unfold OrderBook.fillMessage at htype ⊢ <;> split at htype
      all_goals first | assumption | cases htype

/-- Cancel a resting order, and report it. -/
theorem cancel (h : Balanced orders reports (order :: others)) :
    Balanced orders (reports ++ [⟨order.cancel, .canceled, "Order canceled"⟩]) others := by
  have hperm : (others ++ closed (reports ++ [⟨order.cancel, .canceled, "Order canceled"⟩])).Perm
      (order.cancel :: (others ++ closed reports)) := by
    rw [closed_append, ← List.append_assoc]
    exact List.perm_append_singleton _ _
  refine ⟨(hperm.map Order.call).trans h.accounted, ?_, fun message hmessage htype => ?_⟩
  · have hexecuted := h.executed
    rw [List.cons_append, total_cons, total_cons] at hexecuted
    rw [total_perm _ _ hperm, total_perm _ _ hperm, total_cons, total_cons]
    exact hexecuted
  · rcases List.mem_append.mp hmessage with hmessage | hmessage
    · exact h.filled message hmessage htype
    · rw [List.mem_singleton.mp hmessage] at htype
      cases htype

/-- Nothing is open of the orders that were closed, except of the cancelled ones. -/
theorem total_open_closed (h : Balanced orders reports resting) (side : OrderSide) :
    total Order.openQuantity side (closed reports) = total Order.openQuantity side (cancelled reports) := by
  have hfilled := h.filled
  clear h
  induction reports with
  | nil => rfl
  | cons message reports ih =>
    rw [← List.singleton_append, closed_append, cancelled_append, total_append, total_append,
      ih fun other hother => hfilled other (List.mem_cons_of_mem _ hother)]
    have hfirst := hfilled message (List.mem_cons_self ..)
    congr 1
    cases htype : message.type <;> simp [closed, cancelled, OutgoingMessageType.final, htype]
    exact fun _ => hfirst htype

/-- What was submitted on a side and is neither resting nor cancelled has been executed. -/
theorem traded (h : Balanced orders reports resting) (side : OrderSide) :
    total (fun order => order.quantity) side orders - total Order.openQuantity side resting -
        total Order.openQuantity side (cancelled reports) =
      total Order.executedQuantity side (resting ++ closed reports) := by
  have hcalls := total_congr_calls side OrderTerms.quantity h.accounted
  have hsplit := total_quantity side (resting ++ closed reports)
  have hclosed := h.total_open_closed side
  rw [total_append Order.openQuantity] at hsplit
  omega

/-- The balance is an account for orders that have not been executed. -/
theorem account : Account Balanced fun _ order => order.executedQuantity = 0 where
  nil := nil
  perm := perm
  submit := submit
  trade quantity h hbid hask _ _ := h.trade hbid hask _ quantity
  cancel := cancel

/-- Over the history of a book, its reports and resting orders are balanced. -/
theorem executeAll {tasks : List BookTask} (hfresh : ∀ order ∈ newOrders tasks, order.executedQuantity = 0) :
    Balanced (newOrders tasks) (OrderBook.empty.executeAll tasks).2 (OrderBook.empty.executeAll tasks).1.resting :=
  account.executeAll fun _ order _ horders =>
    hfresh order (horders ▸ List.mem_append_right _ (List.mem_cons_self ..))

end Balanced

namespace OrderBook

/-- The book after a number of passes of the matching loop. -/
def afterPasses : ℕ → OrderBook → Option OrderBook
  | 0, book => some book
  | passes + 1, book => book.matchTops.bind fun pass => afterPasses passes pass.1

/-- The processed copies are pairs, one for each pass: of the bid and of the ask that are then on top, which trade
the smaller of their open quantities at one price. -/
def MatchesInPairs (book : OrderBook) : Prop :=
  ∃ pairs : List (Order × Order), book.processMatching.2 = pairs.flatMap (fun pair => [pair.1, pair.2]) ∧
    ∀ (i : ℕ) (bid ask : Order), pairs[i]? = some (bid, ask) →
      ∃ before oldBid oldAsk, book.afterPasses i = some before ∧
        before.bidOrders.front? = some oldBid ∧ before.askOrders.front? = some oldAsk ∧
        bid.call = oldBid.call ∧ ask.call = oldAsk.call ∧
        bid.lastExecutedPrice = ask.lastExecutedPrice ∧
        bid.lastExecutedQuantity = min oldBid.openQuantity oldAsk.openQuantity ∧
        ask.lastExecutedQuantity = min oldBid.openQuantity oldAsk.openQuantity

/-- Matching any book processes pairs. -/
theorem matchesInPairs (book : OrderBook) : book.MatchesInPairs := by
  induction book using processMatching_induction with
  | stop book htops =>
    refine ⟨[], by rw [processMatching_eq, htops]; rfl, fun i bid ask hpair => by cases hpair⟩
  | pass book after bid ask htops ih =>
    obtain ⟨pairs, hcopies, hpairs⟩ := ih
    refine ⟨(bid, ask) :: pairs, by rw [processMatching_eq, htops, List.flatMap_cons, ← hcopies]; rfl, fun i bid' ask' hpair => ?_⟩
    cases i with
    | zero =>
      obtain ⟨rfl, rfl⟩ := Prod.mk.inj (Option.some.inj hpair)
      obtain ⟨oldBid, oldAsk, hbid, hask, _, htrade, _⟩ := matchTops_eq_some_iff.mp htops
      rw [matchTwoOrders_eq, Prod.mk.injEq] at htrade
      obtain ⟨rfl, rfl⟩ := htrade
      exact ⟨book, oldBid, oldAsk, rfl, hbid, hask, rfl, rfl, rfl, rfl, rfl⟩
    | succ i =>
      obtain ⟨before, oldBid, oldAsk, hbefore, hrest⟩ := hpairs i bid' ask' hpair
      exact ⟨before, oldBid, oldAsk, by rw [afterPasses, htops]; exact hbefore, hrest⟩

end OrderBook

namespace Pipeline

variable {symbols : List String} {s : Pipeline}

/-- The reports on the book of a symbol: those enqueued, and those that its worker is enqueuing. -/
def reports (symbols : List String) (s : Pipeline) (symbol : String) : List OutgoingMessage :=
  bookMessages symbol s.engine.outgoingMessages ++
    bookMessages symbol (enqueued (s.working (queueOf symbols symbol)))

/-- Quantities are conserved on the book of a symbol: among the last records of the submitted orders, bids and asks
have executed the same, which is what was submitted and is neither resting nor cancelled. -/
structure Conserved (submitted : List Order) (reports : List OutgoingMessage) (book : OrderBook) : Prop where
  accounted : ((book.resting ++ closed reports).map Order.call).Perm (submitted.map Order.call)
  executed : total Order.executedQuantity .buy (book.resting ++ closed reports) =
    total Order.executedQuantity .sell (book.resting ++ closed reports)
  traded : ∀ side, total (fun order => order.quantity) side submitted - total Order.openQuantity side book.resting -
    total Order.openQuantity side (cancelled reports) = total Order.executedQuantity side (book.resting ++ closed reports)
  balanced : total (fun order => order.quantity) .buy submitted - total Order.openQuantity .buy book.resting -
      total Order.openQuantity .buy (cancelled reports) =
    total (fun order => order.quantity) .sell submitted - total Order.openQuantity .sell book.resting -
      total Order.openQuantity .sell (cancelled reports)

/-- Books always match in pairs, and in every state reached each of them has conserved all quantities. -/
theorem quantity_conserved (h : (pipeline symbols).Reachable s) (symbol : String) :
    (∀ book : OrderBook, book.MatchesInPairs) ∧
      Conserved (newOrders (s.log symbol)) (s.reports symbols symbol) (s.engine.bookOf symbol) := by
  have hconsistent := consistent_of_reachable h
  have hbalanced : Balanced (newOrders (s.log symbol)) (s.reports symbols symbol) (s.engine.bookOf symbol).resting := by
    rw [reports, hconsistent.executed.reports symbol, hconsistent.executed.books symbol]
    refine Balanced.executeAll fun order horder => ?_
    rw [(hconsistent.stamped_log symbol).fresh order horder]
    rfl
  have htraded := hbalanced.traded
  exact ⟨OrderBook.matchesInPairs, hbalanced.accounted, hbalanced.executed, htraded,
    by rw [htraded, htraded, hbalanced.executed]⟩

/-- An order to buy five meets an order to sell three, and its rest is cancelled. -/
def fillAndCancel : List Label :=
  [.push (exampleRequest "A" .newOrder),
    .push ⟨⟨"1", "A", "SELLER", "EXCHANGE", .sell, .limit, 10, 3⟩, "1", .newOrder⟩,
    .push (exampleRequest "A" .cancelOrder), .flush,
    .dispatch, .dispatcherOperation, .dispatcherOperation, .dispatch, .dispatcherOperation, .dispatcherOperation,
    .dispatch, .dispatcherOperation,
    .pop 0, .execute 0, .pop 0, .execute 0, .workerOperation 0, .workerOperation 0, .pop 0, .execute 0, .workerOperation 0]

/-- A run with a trade of three and a cancel of two. -/
theorem quantity_conserved_fill_and_cancel :
    ∃ s, (pipeline ["A"]).run fillAndCancel (pipeline ["A"]).start = some s ∧
      (s.engine.outgoingMessages.map fun message => (message.type, message.order.openQuantity)) =
        [(.accepted, 5), (.accepted, 3), (.partiallyField, 2), (.filled, 0), (.canceled, 2)] ∧
      (∀ book : OrderBook, book.MatchesInPairs) ∧
        Conserved (newOrders (s.log "A")) (s.reports ["A"] "A") (s.engine.bookOf "A") := by
  obtain ⟨s, hrun, hmessages⟩ : ∃ s, (pipeline ["A"]).run fillAndCancel (pipeline ["A"]).start = some s ∧
      (s.engine.outgoingMessages.map fun message => (message.type, message.order.openQuantity)) =
        [(.accepted, 5), (.accepted, 3), (.partiallyField, 2), (.filled, 0), (.canceled, 2)] := ⟨_, rfl, rfl⟩
  exact ⟨s, hrun, hmessages, quantity_conserved (Machine.reachable_of_run hrun) "A"⟩

end Pipeline

end MatchingEngine
