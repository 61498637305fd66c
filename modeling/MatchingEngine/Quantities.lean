import MatchingEngine.BookHistory

/-!
# Positive quantities

When every submitted quantity is positive, every resting order has something open and a
nonnegative executed quantity. A match then trades a positive quantity, so it decreases
both open quantities, and the divisor of both average prices is positive.
-/

namespace MatchingEngine

/-- Something is open, and what was executed is not negative. -/
structure Order.Tradable (order : Order) : Prop where
  openPos : 0 < order.openQuantity
  executedNonneg : 0 ≤ order.executedQuantity

/-- A fresh order of positive quantity is tradable. -/
theorem Order.tradable_ofTerms {terms : OrderTerms} (h : 0 < terms.quantity) (serial : ℕ) :
    (Order.ofTerms terms serial).Tradable :=
  ⟨h, le_rfl⟩

/-- The open quantity of a tradable order is at most its quantity. -/
theorem Order.Tradable.open_le {order : Order} (h : order.Tradable) : order.openQuantity ≤ order.quantity := by
  have := order.balance
  have := h.executedNonneg
  omega

/-- The executed quantity of a tradable order is less than its quantity. -/
theorem Order.Tradable.executed_lt {order : Order} (h : order.Tradable) : order.executedQuantity < order.quantity := by
  have := order.balance
  have := h.openPos
  omega

/-- An execution for part of the open quantity leaves an order tradable unless it fills it. -/
theorem Order.Tradable.execute {order : Order} (h : order.Tradable) (price : ℚ) {quantity : ℤ} (hpos : 0 ≤ quantity)
    (hle : quantity ≤ order.openQuantity) (hunfilled : ¬ (order.execute price quantity).isFilled = true) :
    (order.execute price quantity).Tradable := by
  rw [Order.execute_isFilled_iff] at hunfilled
  have := h.executedNonneg
  exact ⟨by rw [Order.execute_openQuantity]; omega, by rw [Order.execute_executedQuantity]; omega⟩

namespace OrderBook

/-- All resting orders are tradable. -/
def Tradable (book : OrderBook) : Prop := ∀ side, ∀ order ∈ (book.orders side).values, order.Tradable

/-- After settling the top, every order is an old one or the unfilled executed order. -/
theorem mem_settleTop {side : OrderSide} {m : Multimap ℚ Order side.before} {top executed order : Order}
    (h : m.front? = some top) (horder : order ∈ (settleTop m executed).values) :
    order ∈ m.values ∨ order = executed ∧ ¬ executed.isFilled = true := by
  obtain ⟨rest, hrest⟩ := (Multimap.front?_eq_some_iff _ _).mp h
  rw [settleTop_values hrest] at horder
  rw [hrest]
  split at horder
  · exact Or.inl (List.mem_cons_of_mem _ horder)
  · rename_i hunfilled
    rcases List.mem_cons.mp horder with rfl | horder
    · exact Or.inr ⟨rfl, hunfilled⟩
    · exact Or.inl (List.mem_cons_of_mem _ horder)

/-- The top order of a side rests there. -/
theorem mem_of_front? {side : OrderSide} {m : Multimap ℚ Order side.before} {top : Order} (h : m.front? = some top) :
    top ∈ m.values := by
  obtain ⟨rest, hrest⟩ := (Multimap.front?_eq_some_iff _ _).mp h
  exact hrest ▸ List.mem_cons_self ..

/-- A pass of the loop keeps the resting orders tradable. -/
theorem Tradable.matchTops {book after : OrderBook} {bid' ask' : Order} (h : book.Tradable)
    (htops : book.matchTops = some (after, bid', ask')) : after.Tradable := by
  obtain ⟨bid, ask, hbid, hask, _, hpair, rfl⟩ := matchTops_eq_some_iff.mp htops
  rw [matchTwoOrders_eq, Prod.mk.injEq] at hpair
  obtain ⟨rfl, rfl⟩ := hpair
  have htopBid := h .buy bid (mem_of_front? hbid)
  have htopAsk := h .sell ask (mem_of_front? hask)
  have hquantity := lt_min htopBid.openPos htopAsk.openPos
  intro side order horder
  cases side with
  | buy =>
    rcases mem_settleTop hbid horder with hold | ⟨rfl, hunfilled⟩
    · exact h .buy order hold
    · exact htopBid.execute _ hquantity.le (min_le_left _ _) hunfilled
  | sell =>
    rcases mem_settleTop hask horder with hold | ⟨rfl, hunfilled⟩
    · exact h .sell order hold
    · exact htopAsk.execute _ hquantity.le (min_le_right _ _) hunfilled

/-- Matching keeps the resting orders tradable. -/
theorem Tradable.processMatching {book : OrderBook} (h : book.Tradable) : book.processMatching.1.Tradable := by
  induction book using processMatching_induction with
  | stop book htops => rwa [processMatching_eq, htops]
  | pass book after bid ask htops ih =>
    rw [processMatching_eq, htops]
    exact ih (h.matchTops htops)

/-- Inserting a tradable order keeps the book tradable. -/
theorem Tradable.insert {book : OrderBook} (h : book.Tradable) {order : Order} (horder : order.Tradable) :
    (book.insert order).Tradable := by
  intro side other hother
  rcases (mem_insert_orders ..).mp hother with ⟨rfl, _⟩ | hother
  · exact horder
  · exact h side other hother

/-- A task keeps the book tradable if the order it submits is. -/
theorem Tradable.execute {book : OrderBook} (h : book.Tradable) (hsided : book.Arranged) {task : BookTask}
    (htask : ∀ order ∈ newOrders [task], order.Tradable) : (book.execute task).1.Tradable := by
  cases task with
  | newOrder order => exact (h.insert (htask order (by simp))).processMatching
  | cancelOrder owner origClientOrderID side =>
    simp only [OrderBook.execute, taskCancelOrder_eq book _ _ side (hsided side).sided]
    cases (book.orders side).values.find? (·.hasClient owner origClientOrderID) with
    | none => exact h
    | some target =>
      intro s order horder
      rcases eq_or_eq_opposite s side with rfl | rfl
      · rw [Option.map_some] at horder
        simp only [setOrders_orders_same, Multimap.eraseFirst_values] at horder
        exact h _ order (List.mem_of_mem_eraseP horder)
      · rw [Option.map_some] at horder
        simp only [setOrders_orders_opposite] at horder
        exact h _ order horder

/-- Tasks that submit positive quantities keep the book tradable. -/
theorem Tradable.executeAll {past tasks : List BookTask} {book : OrderBook} (h : book.Tradable)
    (hhistory : History past book) (hstamped : Stamped (past ++ tasks))
    (hpositive : ∀ order ∈ newOrders tasks, 0 < order.quantity) : (book.executeAll tasks).1.Tradable := by
  induction tasks generalizing past book with
  | nil => exact h
  | cons task tasks ih =>
    rw [← List.singleton_append, ← List.append_assoc] at hstamped
    have htask : ∀ order ∈ newOrders [task], order.Tradable := by
      intro order horder
      have hpos := hpositive order (by
        rw [← List.singleton_append, newOrders_append]
        exact List.mem_append_left _ horder)
      rw [hstamped.left.fresh order (by rw [newOrders_append]; exact List.mem_append_right _ horder)]
      exact Order.tradable_ofTerms hpos _
    exact ih (h.execute hhistory.sound.arranged htask) (hhistory.execute task hstamped.left) hstamped
      fun order horder => hpositive order (by
        rw [← List.singleton_append, newOrders_append]
        exact List.mem_append_right _ horder)

/-- Books reached by calls of positive quantities hold only tradable orders. -/
theorem tradable_reached {calls : List BookCall}
    (hpositive : ∀ terms, .newOrder terms ∈ calls → 0 < terms.quantity) : (reached calls).Tradable := by
  refine Tradable.executeAll (fun side order horder => ?_) history_empty (stamped_bookTasks calls) ?_
  · simp at horder
  · intro order horder
    obtain ⟨terms, hcall, heq⟩ := mem_newOrders_bookTasks horder
    rw [heq]
    exact hpositive terms (List.mem_of_getElem? hcall)

end OrderBook

end MatchingEngine
