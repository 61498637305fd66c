import MatchingEngine.Quantities
import MatchingEngine.Foundation.Allocation

/-!
# New orders are matched by price-time priority

The reference matching of an incoming order allocates its quantity along the resting
orders of the opposite side that its limit crosses, best price first and earliest first
at equal price. It says nothing about tops or loops.

In a sound book an order that crosses anything is strictly better than its whole own
side, so it is placed on top and stays there until it is filled or nothing crosses it.
Each pass of the matching loop then performs one step of the allocation.
-/

namespace MatchingEngine

/-- Whether the limit of an order crosses the limit of an order on the opposite side. -/
def Order.crosses (order resting : Order) : Prop :=
  match order.side with
  | .buy => resting.price ≤ order.price
  | .sell => order.price ≤ resting.price

instance (order resting : Order) : Decidable (order.crosses resting) := by
  unfold Order.crosses
  cases order.side <;> infer_instance

/-- The limit of the ask among an incoming order and an order resting on the opposite side. -/
def Order.askPrice (order resting : Order) : ℚ :=
  match order.side with
  | .buy => resting.price
  | .sell => order.price

/-- A trade of an incoming order with a resting order, which is given as it was before the trade. -/
structure Trade where
  resting : Order
  quantity : ℤ

/-- The resting order after a trade with an incoming order. -/
def Trade.settled (order : Order) (trade : Trade) : Order :=
  trade.resting.execute (order.askPrice trade.resting) trade.quantity

/-- The incoming order after a trade. -/
def Trade.apply (order : Order) (trade : Trade) : Order :=
  order.execute (order.askPrice trade.resting) trade.quantity

/-- The incoming order after its trades. -/
def afterTrades (order : Order) (trades : List Trade) : Order := trades.foldl Trade.apply order

/-- A pair consisting of an incoming order and a resting order, with the bid first. -/
def bidAndAsk (incoming resting : Order) : List Order :=
  match incoming.side with
  | .buy => [incoming, resting]
  | .sell => [resting, incoming]

/-- The copies of the bid and the ask taken after each trade. -/
def tradeCopies (order : Order) : List Trade → List Order
  | [] => []
  | trade :: trades =>
    bidAndAsk (trade.apply order) (trade.settled order) ++ tradeCopies (trade.apply order) trades

/-- Allocate the open quantity of an order along a queue of resting orders. -/
def referenceTrades (order : Order) : List Order → List Trade
  | [] => []
  | resting :: queue =>
    if 0 < order.openQuantity then
      let trade : Trade := ⟨resting, min order.openQuantity resting.openQuantity⟩
      trade :: referenceTrades (trade.apply order) queue
    else []

namespace OrderBook

/-- The resting orders of the opposite side that the limit of an order crosses. -/
def crossing (book : OrderBook) (order : Order) : List Order :=
  (book.orders order.side.opposite).values.filter fun resting => order.crosses resting

/-- Price-time matching of an incoming order, told by its trades. The orders crossed are the queue,
and `min order.quantity (queue's open quantity)` is what can be traded at all. -/
structure PriceTimeMatch (book : OrderBook) (order : Order) (after : OrderBook)
    (reports : List OutgoingMessage) (trades : List Trade) : Prop where
  /-- The queue is listed best price first, and earliest first at equal price. -/
  priority : (book.crossing order).Pairwise fun x y =>
    order.side.opposite.before x.price y.price ∨ x.price = y.price ∧ x.serial < y.serial
  /-- The orders traded with are a prefix of the queue, which covers what can be traded. -/
  executed : trades.map Trade.resting <+: book.crossing order
  covers : min order.quantity ((book.crossing order).map (·.openQuantity)).sum ≤
    (trades.map fun trade => trade.resting.openQuantity).sum
  /-- No shorter prefix of the queue covers it. -/
  shortest : ∀ front, front <+: book.crossing order →
    min order.quantity ((book.crossing order).map (·.openQuantity)).sum ≤ (front.map (·.openQuantity)).sum →
      trades.length ≤ front.length
  /-- All but the last are executed for their whole open quantity, and what can be traded is traded. -/
  whole : ∀ trade ∈ trades.dropLast, trade.quantity = trade.resting.openQuantity
  within : ∀ trade ∈ trades, 0 < trade.quantity ∧ trade.quantity ≤ trade.resting.openQuantity
  total : (trades.map Trade.quantity).sum =
    min order.quantity ((book.crossing order).map (·.openQuantity)).sum
  /-- The reports are on these trades, in order, each at the price of the ask. -/
  reported : reports = (tradeCopies order trades).map fillMessage
  /-- On the opposite side exactly the filled orders leave, and all others keep their places. -/
  opposite : ∃ others, (book.orders order.side.opposite).values = trades.map Trade.resting ++ others ∧
    (after.orders order.side.opposite).values =
      (trades.map (Trade.settled order)).filter (fun resting => !resting.isFilled) ++ others
  /-- What is left of the order rests behind the orders of its price; nothing else changes on its side. -/
  rests : min order.quantity ((book.crossing order).map (·.openQuantity)).sum < order.quantity →
    ∃ ahead behind, (book.orders order.side).values = ahead ++ behind ∧
      (after.orders order.side).values = ahead ++ afterTrades order trades :: behind ∧
      (afterTrades order trades).openQuantity =
        order.quantity - min order.quantity ((book.crossing order).map (·.openQuantity)).sum ∧
      (∀ x ∈ ahead, ¬ order.side.before order.price x.price) ∧
      ∀ x ∈ behind, order.side.before order.price x.price
  /-- An order that is traded in full does not rest. -/
  gone : order.quantity ≤ min order.quantity ((book.crossing order).map (·.openQuantity)).sum →
    (after.orders order.side).values = (book.orders order.side).values
  restsIff : (∃ resting ∈ (after.orders order.side).values, resting.serial = order.serial) ↔
    min order.quantity ((book.crossing order).map (·.openQuantity)).sum < order.quantity

end OrderBook

section Reference

variable {order : Order} {queue : List Order}

@[simp] theorem Trade.apply_toOrderTerms (order : Order) (trade : Trade) :
    (trade.apply order).toOrderTerms = order.toOrderTerms := rfl

@[simp] theorem afterTrades_identity (order : Order) (trades : List Trade) :
    (afterTrades order trades).identity = order.identity := by
  induction trades generalizing order with
  | nil => rfl
  | cons trade trades ih => exact ih (trade.apply order)

/-- The trades take from the order what the allocation takes. -/
theorem afterTrades_openQuantity (order : Order) (trades : List Trade) :
    (afterTrades order trades).openQuantity = order.openQuantity - (trades.map Trade.quantity).sum := by
  induction trades generalizing order with
  | nil => simp [afterTrades]
  | cons trade trades ih =>
    have hstep : (trade.apply order).openQuantity = order.openQuantity - trade.quantity := rfl
    rw [List.map_cons, List.sum_cons, ← sub_sub, ← hstep]
    exact ih (trade.apply order)

/-- Executions of the incoming order do not change what its trades do to resting orders. -/
theorem Trade.settled_apply (order : Order) (earlier : Trade) :
    Trade.settled (earlier.apply order) = Trade.settled order := rfl

/-- The reference trades go along the queue. -/
theorem referenceTrades_resting (order : Order) (queue : List Order) :
    (referenceTrades order queue).map Trade.resting = queue.take (referenceTrades order queue).length := by
  induction queue generalizing order with
  | nil => rfl
  | cons resting queue ih =>
    unfold referenceTrades
    split
    · simp [ih]
    · rfl

/-- The traded quantities are the allocation of the open quantity. -/
theorem referenceTrades_quantity (order : Order) (queue : List Order) :
    (referenceTrades order queue).map Trade.quantity =
      allocate order.openQuantity (queue.map (·.openQuantity)) := by
  induction queue generalizing order with
  | nil => rfl
  | cons resting queue ih =>
    rw [referenceTrades, List.map_cons, allocate]
    split
    · rw [List.map_cons, ih]
      rfl
    · rfl

theorem referenceTrades_length (order : Order) (queue : List Order) :
    (referenceTrades order queue).length =
      (allocate order.openQuantity (queue.map (·.openQuantity))).length := by
  rw [← referenceTrades_quantity, List.length_map]

/-- A trade takes the quantity of its position from the order at this position of the queue. -/
theorem referenceTrades_getElem (order : Order) (queue : List Order) {i : ℕ}
    (hi : i < (referenceTrades order queue).length) :
    (referenceTrades order queue)[i].quantity =
        (allocate order.openQuantity (queue.map (·.openQuantity))).get ⟨i, referenceTrades_length order queue ▸ hi⟩ ∧
      (referenceTrades order queue)[i].resting.openQuantity =
        (queue.map (·.openQuantity)).get ⟨i, (referenceTrades_length order queue ▸ hi).trans_le
          (allocate_length_le _ _)⟩ := by
  constructor
  · have hquantity := congrArg (fun quantities : List ℤ => quantities[i]?) (referenceTrades_quantity order queue)
    simpa [hi, referenceTrades_length order queue ▸ hi] using hquantity
  · have hresting := congrArg (fun orders : List Order => orders[i]?) (referenceTrades_resting order queue)
    have hlt : i < queue.length := by
      have hle := allocate_length_le order.openQuantity (queue.map (·.openQuantity))
      rw [← referenceTrades_length, List.length_map] at hle
      omega
    simp only [List.getElem?_map, List.getElem?_eq_getElem hi, Option.map_some, List.getElem?_take, hi, if_true,
      List.getElem?_eq_getElem hlt, Option.some.injEq] at hresting
    rw [hresting, List.get_eq_getElem, List.getElem_map]

/-- All trades but the last exhaust their resting orders. -/
theorem referenceTrades_whole :
    ∀ trade ∈ (referenceTrades order queue).dropLast, trade.quantity = trade.resting.openQuantity := by
  intro trade htrade
  obtain ⟨i, hi, rfl⟩ := List.mem_iff_getElem.mp htrade
  rw [List.length_dropLast] at hi
  obtain ⟨hquantity, hresting⟩ := referenceTrades_getElem order queue (show i < _ by omega)
  rw [List.getElem_dropLast, hquantity, hresting]
  exact allocate_getElem_eq (by rw [← referenceTrades_length]; omega)

variable (hqueue : ∀ resting ∈ queue, 0 < resting.openQuantity)
include hqueue

/-- The capacities of a queue of open orders are positive. -/
theorem capacities_pos : ∀ capacity ∈ queue.map (·.openQuantity), 0 < capacity := by
  intro capacity hcapacity
  obtain ⟨resting, hresting, rfl⟩ := List.mem_map.mp hcapacity
  exact hqueue resting hresting

/-- Every trade is for a positive quantity that its resting order can provide. -/
theorem referenceTrades_within :
    ∀ trade ∈ referenceTrades order queue, 0 < trade.quantity ∧ trade.quantity ≤ trade.resting.openQuantity := by
  intro trade htrade
  obtain ⟨i, hi, rfl⟩ := List.mem_iff_getElem.mp htrade
  obtain ⟨hquantity, hresting⟩ := referenceTrades_getElem order queue hi
  rw [hquantity, hresting]
  exact allocate_getElem_le (capacities_pos hqueue) _

/-- In total, the trades are for all that can be traded. -/
theorem referenceTrades_total (horder : 0 ≤ order.openQuantity) :
    ((referenceTrades order queue).map Trade.quantity).sum =
      min order.openQuantity (queue.map (·.openQuantity)).sum := by
  rw [referenceTrades_quantity, allocate_sum horder (capacities_pos hqueue)]

/-- The orders traded with cover what can be traded. -/
theorem referenceTrades_covers (horder : 0 ≤ order.openQuantity) :
    min order.openQuantity (queue.map (·.openQuantity)).sum ≤
      ((referenceTrades order queue).map fun trade => trade.resting.openQuantity).sum := by
  have hresting := congrArg (List.map (·.openQuantity)) (referenceTrades_resting order queue)
  rw [List.map_map, List.map_take, referenceTrades_length] at hresting
  rw [show (fun trade : Trade => trade.resting.openQuantity) = (·.openQuantity) ∘ Trade.resting from rfl, hresting]
  exact allocate_covers horder (capacities_pos hqueue)

/-- No shorter prefix of the queue covers what can be traded. -/
theorem referenceTrades_shortest (horder : 0 ≤ order.openQuantity) {front : List Order} (hfront : front <+: queue)
    (hcovers : min order.openQuantity (queue.map (·.openQuantity)).sum ≤ (front.map (·.openQuantity)).sum) :
    (referenceTrades order queue).length ≤ front.length := by
  by_contra hshort
  rw [referenceTrades_length, not_le] at hshort
  have hlt := allocate_shortest horder (capacities_pos hqueue) hshort
  rw [← List.map_take, ← List.prefix_iff_eq_take.mp hfront] at hlt
  exact absurd hcovers (not_le.mpr hlt)

end Reference

namespace OrderBook

/-- A pass of the loop, seen from an order on top of one side: it trades with the top of the
opposite side, at the price of whichever of the two is the ask. -/
theorem matchTops_oriented {book : OrderBook} {order resting : Order} {own queue : List Order}
    (hown : (book.orders order.side).values = order :: own)
    (hqueue : (book.orders order.side.opposite).values = resting :: queue) (hcross : order.crosses resting)
    (trade : Trade) (htrade : trade = ⟨resting, min order.openQuantity resting.openQuantity⟩) :
    ∃ after bid ask, book.matchTops = some (after, bid, ask) ∧
      [bid, ask] = bidAndAsk (trade.apply order) (trade.settled order) ∧
      (after.orders order.side).values =
        (if (trade.apply order).isFilled then own else trade.apply order :: own) ∧
      (after.orders order.side.opposite).values =
        (if (trade.settled order).isFilled then queue else trade.settled order :: queue) := by
  subst htrade
  obtain ⟨side, hside⟩ : ∃ side, order.side = side := ⟨_, rfl⟩
  rw [hside] at hown hqueue ⊢
  cases side with
  | buy =>
    simp only [Order.crosses, hside] at hcross
    simp only [bidAndAsk, Trade.apply, Trade.settled, Order.askPrice, Order.execute_toOrderTerms, hside]
    refine ⟨_, _, _, matchTops_eq_some_iff.mpr ⟨order, resting, ?_, ?_, hcross,
      matchTwoOrders_eq order resting, rfl⟩, rfl, settleTop_values hown, settleTop_values hqueue⟩
    · exact (Multimap.front?_eq_some_iff _ _).mpr ⟨own, hown⟩
    · exact (Multimap.front?_eq_some_iff _ _).mpr ⟨queue, hqueue⟩
  | sell =>
    simp only [Order.crosses, hside] at hcross
    simp only [bidAndAsk, Trade.apply, Trade.settled, Order.askPrice, Order.execute_toOrderTerms, hside]
    rw [min_comm]
    refine ⟨_, _, _, matchTops_eq_some_iff.mpr ⟨resting, order, ?_, ?_, hcross,
      matchTwoOrders_eq resting order, rfl⟩, rfl, settleTop_values hown, settleTop_values hqueue⟩
    · exact (Multimap.front?_eq_some_iff _ _).mpr ⟨queue, hqueue⟩
    · exact (Multimap.front?_eq_some_iff _ _).mpr ⟨own, hown⟩

/-- The loop returns when no order of a side crosses an order of the opposite side. -/
theorem matchTops_eq_none_of_not_crosses {book : OrderBook} (side : OrderSide)
    (h : ∀ x ∈ (book.orders side).values, ∀ y ∈ (book.orders side.opposite).values,
      x.side = side ∧ ¬ x.crosses y) : book.matchTops = none := by
  rw [matchTops_eq_none_iff]
  intro bid ask hbid hask
  obtain ⟨bids, hbids⟩ := (Multimap.front?_eq_some_iff _ _).mp hbid
  obtain ⟨asks, hasks⟩ := (Multimap.front?_eq_some_iff _ _).mp hask
  have hbidMem : bid ∈ (book.orders .buy).values := by
    rw [show (book.orders .buy).values = bid :: bids from hbids]
    exact List.mem_cons_self ..
  have haskMem : ask ∈ (book.orders .sell).values := by
    rw [show (book.orders .sell).values = ask :: asks from hasks]
    exact List.mem_cons_self ..
  cases side with
  | buy =>
    obtain ⟨hside, hcross⟩ := h bid hbidMem ask haskMem
    simpa [Order.crosses, hside] using hcross
  | sell =>
    obtain ⟨hside, hcross⟩ := h ask haskMem bid hbidMem
    simpa [Order.crosses, hside] using hcross

/-- A book in which the loop returns at once is left as it is. -/
theorem processMatching_of_matchTops {book : OrderBook} (h : book.matchTops = none) :
    book.processMatching = (book, []) := by
  rw [processMatching_eq, h]

/-- The loop performs the reference trades of an order on top of its side with the queue on top of
the opposite side, if the rest of the book does not cross. -/
theorem processMatching_queue {book : OrderBook} {order : Order} {own queue others : List Order}
    (hown : (book.orders order.side).values = order :: own)
    (hqueue : (book.orders order.side.opposite).values = queue ++ others)
    (hopen : 0 < order.openQuantity) (hpositive : ∀ resting ∈ queue, 0 < resting.openQuantity)
    (hcross : ∀ resting ∈ queue, order.crosses resting) (hothers : ∀ other ∈ others, ¬ order.crosses other)
    (hside : ∀ x ∈ own, x.side = order.side)
    (hrest : ∀ x ∈ own, ∀ y ∈ queue ++ others, ¬ x.crosses y) :
    let trades := referenceTrades order queue
    book.processMatching.2 = tradeCopies order trades ∧
      (book.processMatching.1.orders order.side).values =
        (if (afterTrades order trades).isFilled then own else afterTrades order trades :: own) ∧
      (book.processMatching.1.orders order.side.opposite).values =
        (trades.map (Trade.settled order)).filter (fun resting => !resting.isFilled) ++
          (queue.drop trades.length ++ others) := by
  induction queue generalizing book order with
  | nil =>
    have htops : book.matchTops = none := by
      apply matchTops_eq_none_of_not_crosses order.side
      intro x hx y hy
      rw [hqueue, List.nil_append] at hy
      rcases List.mem_cons.mp (hown ▸ hx) with rfl | hx
      · exact ⟨rfl, hothers y hy⟩
      · exact ⟨hside x hx, hrest x hx y (List.mem_append_right _ hy)⟩
    have hunfilled : ¬ order.isFilled = true := by rw [Order.isFilled_iff]; omega
    rw [processMatching_of_matchTops htops]
    exact ⟨rfl, by simpa [referenceTrades, afterTrades, hunfilled] using hown,
      by simpa [referenceTrades] using hqueue⟩
  | cons resting queue ih =>
    obtain ⟨trade, htrade⟩ : ∃ trade : Trade, trade = ⟨resting, min order.openQuantity resting.openQuantity⟩ :=
      ⟨_, rfl⟩
    have hcrossResting := hcross resting (List.mem_cons_self ..)
    have hpositiveResting := hpositive resting (List.mem_cons_self ..)
    obtain ⟨after, bid, ask, htops, hcopies, hownAfter, hqueueAfter⟩ :=
      matchTops_oriented hown hqueue hcrossResting trade htrade
    have htrades : referenceTrades order (resting :: queue) =
        trade :: referenceTrades (trade.apply order) queue := by
      rw [referenceTrades, if_pos hopen, htrade]
    have hquantity : (trade.apply order).openQuantity = order.openQuantity - trade.quantity := rfl
    have hsettled : (trade.settled order).openQuantity = resting.openQuantity - trade.quantity := by
      rw [htrade]
      rfl
    have hmin : trade.quantity = min order.openQuantity resting.openQuantity := by rw [htrade]
    have hprocess : book.processMatching = (after.processMatching.1, bid :: ask :: after.processMatching.2) := by
      rw [processMatching_eq, htops]
    by_cases hfilled : (trade.apply order).isFilled = true
    · -- The order is exhausted: the tops that are left do not cross.
      have hdone := (Order.isFilled_iff _).mp hfilled
      have hnone : referenceTrades (trade.apply order) queue = [] := by
        cases queue with
        | nil => rfl
        | cons x xs => rw [referenceTrades, if_neg (by omega)]
      have hstop : after.matchTops = none := by
        apply matchTops_eq_none_of_not_crosses order.side
        intro x hx y hy
        rw [hownAfter, if_pos hfilled] at hx
        refine ⟨hside x hx, ?_⟩
        have hy' : y ∈ queue ++ others ∨ y = trade.settled order := by
          rw [hqueueAfter] at hy
          split at hy
          · exact Or.inl hy
          · exact (List.mem_cons.mp hy).symm
        rcases hy' with hy' | rfl
        · exact hrest x hx y (List.mem_cons_of_mem _ hy')
        · have hresting := hrest x hx resting (List.mem_cons_self ..)
          rw [htrade]
          exact hresting
      rw [hprocess, processMatching_of_matchTops hstop, htrades, hnone]
      refine ⟨?_, ?_, ?_⟩
      · simpa [tradeCopies] using hcopies
      · simpa [afterTrades, hfilled] using hownAfter
      · rw [hqueueAfter]
        by_cases hrestingFilled : (trade.settled order).isFilled = true <;> simp [hrestingFilled]
    · -- The resting order is exhausted: the order goes on with the rest of the queue.
      have hremains : ¬ (trade.apply order).openQuantity = 0 := fun h => hfilled ((Order.isFilled_iff _).mpr h)
      have hrestingFilled : (trade.settled order).isFilled = true := by
        rw [Order.isFilled_iff]
        omega
      rw [if_neg hfilled] at hownAfter
      rw [if_pos hrestingFilled] at hqueueAfter
      obtain ⟨hreports, hownLast, hqueueLast⟩ := @ih after (trade.apply order) hownAfter
        hqueueAfter (by omega) (fun x hx => hpositive x (List.mem_cons_of_mem _ hx))
        (fun x hx => hcross x (List.mem_cons_of_mem _ hx)) hothers hside
        (fun x hx y hy => hrest x hx y (List.mem_cons_of_mem _ hy))
      rw [hprocess, htrades]
      refine ⟨?_, hownLast, ?_⟩
      · rw [tradeCopies, ← hcopies, ← hreports]
        rfl
      · simpa [hrestingFilled, Trade.settled_apply] using hqueueLast

/-- The orders not crossed are those of the opposite side that come strictly after the limit. -/
theorem crosses_iff_not_before (order resting : Order) :
    order.crosses resting ↔ ¬ order.side.opposite.before order.price resting.price := by
  unfold Order.crosses
  cases order.side <;> simp [OrderSide.before, OrderSide.opposite]

/-- Strict priority on one side is the reverse of strict priority on the other. -/
theorem before_opposite (side : OrderSide) (p q : ℚ) : side.opposite.before p q ↔ side.before q p := by
  cases side <;> rfl

/-- Prices of which neither comes strictly before the other are equal. -/
theorem eq_of_not_before {side : OrderSide} {p q : ℚ} (h : ¬ side.before p q) (h' : ¬ side.before q p) : p = q := by
  cases side <;> simp only [OrderSide.before, not_lt, gt_iff_lt] at h h' <;> linarith

/-- In a sound book no order crosses an order of the opposite side. -/
theorem Sound.not_crosses {book : OrderBook} (h : book.Sound) (side : OrderSide) {x y : Order}
    (hx : x ∈ (book.orders side).values) (hy : y ∈ (book.orders side.opposite).values) : ¬ x.crosses y := by
  have hside := (h.arranged side).sided x hx
  cases side with
  | buy =>
    have hlt := h.uncrossed x hx y hy
    simpa [Order.crosses, hside] using hlt
  | sell =>
    have hlt := h.uncrossed y hy x hx
    simpa [Order.crosses, hside] using hlt

/-- An arranged side lists the orders that a limit crosses before all the others. -/
theorem SideArranged.filter_crosses {order : Order} {m : Multimap ℚ Order order.side.opposite.before}
    (h : SideArranged order.side.opposite m) :
    m.values.filter (fun resting => order.crosses resting) ++
      m.values.filter (fun resting => !decide (order.crosses resting)) = m.values := by
  have hpriority := h.priority
  generalize m.values = orders at hpriority ⊢
  induction orders with
  | nil => rfl
  | cons first rest ih =>
    obtain ⟨hfirst, hrest⟩ := List.pairwise_cons.mp hpriority
    by_cases hcross : order.crosses first
    · rw [List.filter_cons_of_pos (by simpa using hcross), List.filter_cons_of_neg (by simpa using hcross),
        List.cons_append, ih hrest]
    · -- Nothing after an order that is not crossed is crossed.
      have hnone : ∀ other ∈ first :: rest, ¬ order.crosses other := by
        intro other hother
        rcases List.mem_cons.mp hother with rfl | hother
        · exact hcross
        · rw [crosses_iff_not_before, not_not] at hcross ⊢
          exact Multimap.before_of_before_of_not hcross (hfirst other hother)
      rw [List.filter_eq_nil_iff.mpr (by simpa using hnone), List.nil_append,
        List.filter_eq_self.mpr (by simpa using hnone)]

/-- An order that crosses anything in a sound book comes strictly before its whole own side. -/
theorem Sound.before_own {book : OrderBook} (h : book.Sound) {order resting x : Order}
    (hresting : resting ∈ (book.orders order.side.opposite).values) (hcross : order.crosses resting)
    (hx : x ∈ (book.orders order.side).values) : order.side.before order.price x.price := by
  have hnot := h.not_crosses order.side hx hresting
  have hside := (h.arranged order.side).sided x hx
  rw [crosses_iff_not_before, not_not, hside, before_opposite] at hnot
  rw [crosses_iff_not_before, before_opposite] at hcross
  by_contra hle
  exact hcross (Multimap.before_of_before_of_not hnot hle)

/-- The crossing orders of an arranged side are listed in priority order. -/
theorem Arranged.crossing_priority {book : OrderBook} (h : book.Arranged) (order : Order) :
    (book.crossing order).Pairwise fun x y =>
      order.side.opposite.before x.price y.price ∨ x.price = y.price ∧ x.serial < y.serial := by
  have hside := h order.side.opposite
  refine (hside.priority.and hside.arrival).filter _ |>.imp ?_
  rintro x y ⟨hpriority, harrival⟩
  by_cases hbefore : order.side.opposite.before x.price y.price
  · exact Or.inl hbefore
  · have hprice := eq_of_not_before hbefore hpriority
    exact Or.inr ⟨hprice, harrival hprice⟩

/-- The new-order task performs the reference trades, and what is left of the order takes the place
behind the orders of its price. -/
theorem Sound.taskNewOrder {book : OrderBook} (h : book.Sound) (hpositive : book.Tradable) {order : Order}
    (horder : 0 < order.openQuantity) :
    let trades := referenceTrades order (book.crossing order)
    (book.taskNewOrder order).2 = (tradeCopies order trades).map fillMessage ∧
      ((book.taskNewOrder order).1.orders order.side.opposite).values =
        (trades.map (Trade.settled order)).filter (fun resting => !resting.isFilled) ++
          ((book.crossing order).drop trades.length ++
            (book.orders order.side.opposite).values.filter fun resting => !decide (order.crosses resting)) ∧
      ∃ ahead behind, (book.orders order.side).values = ahead ++ behind ∧
        ((book.taskNewOrder order).1.orders order.side).values =
          ahead ++ (if (afterTrades order trades).isFilled then behind else afterTrades order trades :: behind) ∧
        (∀ x ∈ ahead, ¬ order.side.before order.price x.price) ∧
        ∀ x ∈ behind, order.side.before order.price x.price := by
  have hsplit := (h.arranged order.side.opposite).filter_crosses
  have hkeyed := (h.arranged order.side).keyed
  obtain ⟨ahead, behind, hentries, hinsert, hahead, hbehind⟩ :=
    (book.orders order.side).insert_entries_split order.price order
  have hown : (book.orders order.side).values = ahead.map Prod.snd ++ behind.map Prod.snd := by
    rw [Multimap.values, hentries, List.map_append]
  have haheadPrice : ∀ x ∈ ahead.map Prod.snd, ¬ order.side.before order.price x.price := by
    intro x hx
    obtain ⟨entry, hmem, rfl⟩ := List.mem_map.mp hx
    rw [← hkeyed entry (hentries ▸ List.mem_append_left _ hmem)]
    exact hahead entry hmem
  have hbehindPrice : ∀ x ∈ behind.map Prod.snd, order.side.before order.price x.price := by
    intro x hx
    obtain ⟨entry, hmem, rfl⟩ := List.mem_map.mp hx
    rw [← hkeyed entry (hentries ▸ List.mem_append_right _ hmem)]
    exact hbehind entry hmem
  have hinserted : ((book.insert order).orders order.side).values =
      ahead.map Prod.snd ++ order :: behind.map Prod.snd := by
    rw [OrderBook.insert, setOrders_orders_same, Multimap.values, hinsert, List.map_append, List.map_cons]
  have hopposite : ((book.insert order).orders order.side.opposite).values =
      book.crossing order ++
        (book.orders order.side.opposite).values.filter fun resting => !decide (order.crosses resting) := by
    rw [OrderBook.insert, setOrders_orders_opposite]
    exact hsplit.symm
  have hothers : ∀ other ∈ (book.orders order.side.opposite).values.filter
      (fun resting => !decide (order.crosses resting)), ¬ order.crosses other := by
    intro other hother
    simpa using (List.mem_filter.mp hother).2
  cases hqueue : book.crossing order with
  | nil =>
    -- Nothing is crossed: the order rests, and the book is as uncrossed as before.
    have hnone : (book.insert order).matchTops = none := by
      apply matchTops_eq_none_of_not_crosses order.side
      intro x hx y hy
      have hy' : y ∈ (book.orders order.side.opposite).values := by
        rwa [OrderBook.insert, setOrders_orders_opposite] at hy
      rcases (mem_insert_orders ..).mp hx with ⟨rfl, _⟩ | hx
      · rw [hopposite, hqueue] at hy
        exact ⟨rfl, hothers y hy⟩
      · exact ⟨(h.arranged _).sided x hx, h.not_crosses _ hx hy'⟩
    have hunfilled : ¬ order.isFilled = true := by rw [Order.isFilled_iff]; omega
    simp only [OrderBook.taskNewOrder, processMatching_of_matchTops hnone]
    rw [hqueue] at hopposite
    exact ⟨rfl, hopposite, _, _, hown, by simpa [referenceTrades, afterTrades, hunfilled] using hinserted,
      haheadPrice, hbehindPrice⟩
  | cons resting queue =>
    have hresting : resting ∈ book.crossing order := hqueue ▸ List.mem_cons_self ..
    obtain ⟨hrestingMem, hrestingCross⟩ := List.mem_filter.mp hresting
    have hbefore := fun x hx => @Sound.before_own _ h _ _ x hrestingMem (by simpa using hrestingCross) hx
    have hfront : ahead = [] := by
      cases ahead with
      | nil => rfl
      | cons entry rest =>
        exact absurd (hbefore entry.2 (hown ▸ by simp)) (haheadPrice entry.2 (by simp))
    subst hfront
    rw [List.map_nil, List.nil_append] at hown hinserted
    have hcrossing : ∀ x ∈ book.crossing order, order.crosses x := fun x hx => by
      simpa using (List.mem_filter.mp hx).2
    obtain ⟨hreports, hownAfter, hoppositeAfter⟩ := processMatching_queue hinserted hopposite horder
      (fun x hx => (hpositive _ x (List.mem_filter.mp hx).1).openPos) hcrossing hothers
      (fun x hx => (h.arranged _).sided x (hown ▸ hx))
      (fun x hx y hy => h.not_crosses _ (hown ▸ hx) (by rw [← hsplit]; exact hy))
    rw [hqueue] at hreports hownAfter hoppositeAfter
    simp only [OrderBook.taskNewOrder]
    exact ⟨by rw [hreports], hoppositeAfter, [], _, hown, hownAfter, by simp, hbehindPrice⟩

/-- A fresh order added to a sound book is matched as the reference prescribes. -/
theorem Sound.priceTimeMatch {book : OrderBook} (h : book.Sound) (hpositive : book.Tradable) (terms : OrderTerms)
    (serial : ℕ) (hquantity : 0 < terms.quantity)
    (hlast : ∀ side, ∀ old ∈ (book.orders side).values, old.serial < serial) :
    PriceTimeMatch book (.ofTerms terms serial) (book.taskNewOrder (.ofTerms terms serial)).1
      (book.taskNewOrder (.ofTerms terms serial)).2
      (referenceTrades (.ofTerms terms serial) (book.crossing (.ofTerms terms serial))) := by
  obtain ⟨order, horder⟩ : ∃ order, order = Order.ofTerms terms serial := ⟨_, rfl⟩
  have hopen : order.openQuantity = order.quantity := by rw [horder]; rfl
  have hserial : order.serial = serial := by rw [horder]; rfl
  rw [← horder]
  have hpos : 0 < order.openQuantity := by rw [hopen, horder]; exact hquantity
  obtain ⟨hreports, hopposite, ahead, behind, hown, hownAfter, hahead, hbehind⟩ :=
    h.taskNewOrder hpositive hpos
  have hqueue : ∀ resting ∈ book.crossing order, 0 < resting.openQuantity := fun resting hresting =>
    (hpositive _ resting (List.mem_filter.mp hresting).1).openPos
  have htotal := referenceTrades_total hqueue hpos.le
  have hleft := afterTrades_openQuantity order (referenceTrades order (book.crossing order))
  rw [htotal] at hleft
  have hfilled : (afterTrades order (referenceTrades order (book.crossing order))).isFilled = true ↔
      ¬ min order.quantity ((book.crossing order).map (·.openQuantity)).sum < order.quantity := by
    rw [Order.isFilled_iff, hleft, hopen]
    omega
  have htaken := referenceTrades_resting order (book.crossing order)
  rw [← hopen] at hfilled
  constructor
  case priority => exact h.arranged.crossing_priority order
  case executed => exact htaken ▸ List.take_prefix _ _
  case covers =>
    rw [← hopen]
    exact referenceTrades_covers hqueue hpos.le
  case shortest =>
    intro front hfront hcovers
    exact referenceTrades_shortest hqueue hpos.le hfront (hopen ▸ hcovers)
  case whole => exact referenceTrades_whole
  case within => exact referenceTrades_within hqueue
  case total => rw [htotal, hopen]
  case reported => exact hreports
  case opposite =>
    refine ⟨_, ?_, hopposite⟩
    rw [htaken, ← List.append_assoc, List.take_append_drop]
    exact ((h.arranged _).filter_crosses).symm
  case rests =>
    rw [← hopen]
    intro hlt
    rw [if_neg (fun hdone => hfilled.mp hdone hlt)] at hownAfter
    exact ⟨ahead, behind, hown, hownAfter, hleft, hahead, hbehind⟩
  case gone =>
    rw [← hopen]
    intro hle
    rw [if_pos (hfilled.mpr (not_lt.mpr hle)), ← hown] at hownAfter
    exact hownAfter
  case restsIff =>
    have hold : ∀ resting ∈ (book.orders order.side).values, resting.serial ≠ order.serial := by
      intro resting hresting hequal
      exact absurd (hlast _ resting hresting) (by omega)
    rw [hown] at hold
    rw [hownAfter, ← hopen]
    by_cases hlt : min order.openQuantity ((book.crossing order).map (·.openQuantity)).sum < order.openQuantity
    · rw [if_neg (fun hdone => hfilled.mp hdone hlt)]
      refine iff_of_true ⟨_, List.mem_append_right _ (List.mem_cons_self ..), ?_⟩ hlt
      exact congrArg (fun identity => identity.2.1) (afterTrades_identity order _)
    · rw [if_pos (hfilled.mpr hlt)]
      exact iff_of_false (fun ⟨resting, hmem, hequal⟩ => hold resting hmem hequal) hlt

/-- After calls that submit positive quantities, a new order of positive quantity is matched by
price-time priority. -/
theorem reached_taskNewOrder (calls : List BookCall) (terms : OrderTerms)
    (hcalls : ∀ earlier, .newOrder earlier ∈ calls → 0 < earlier.quantity) (hquantity : 0 < terms.quantity) :
    let book := reached calls
    let order := Order.ofTerms terms calls.length
    ∃ trades, PriceTimeMatch book order (book.taskNewOrder order).1 (book.taskNewOrder order).2 trades := by
  have hhistory := history_reached calls
  refine ⟨_, hhistory.sound.priceTimeMatch (tradable_reached hcalls) terms _ hquantity ?_⟩
  intro side old hold
  obtain ⟨original, horiginal, _, hserial⟩ := hhistory.origin side old hold
  obtain ⟨_, hcall, _⟩ := mem_newOrders_bookTasks horiginal
  exact hserial ▸ (List.getElem?_eq_some_iff.mp hcall).1

/-- Two asks, a cancel and a bid that sweeps both price levels. -/
theorem reached_taskNewOrder_sweep :
    let calls : List BookCall :=
      [.newOrder ⟨"1", "SYM", "A", "EXCHANGE", .sell, .limit, 10, 3⟩,
        .newOrder ⟨"1", "SYM", "B", "EXCHANGE", .sell, .limit, 11, 4⟩, .cancelOrder "C" "9" .buy]
    let order := Order.ofTerms ⟨"1", "SYM", "D", "EXCHANGE", .buy, .limit, 12, 5⟩ calls.length
    ∃ trades, PriceTimeMatch (reached calls) order ((reached calls).taskNewOrder order).1
      ((reached calls).taskNewOrder order).2 trades :=
  reached_taskNewOrder _ _ (by simp) (by decide)

end OrderBook

end MatchingEngine
