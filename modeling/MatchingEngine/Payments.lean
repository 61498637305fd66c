import MatchingEngine.AveragePrice
import MatchingEngine.Conservation

/-!
# Payments

What the owner of an order has paid is the average price times the executed quantity, which a
seller receives. Every match trades at the limit of the ask, so that the payments of all
orders on a book cancel out, a seller gets the limit of the order and never more, and what a
bid offers above the ask is left to the buyer.

Prices and averages are rationals. The averages of the program are rounded, so that these results
hold of it up to the rounding.
-/

namespace MatchingEngine

namespace Order

/-- The price of all executions of an order, as far as the average price is defined. -/
def amount (order : Order) : ℚ := order.averageExecutedPrice.getD 0 * order.executedQuantity

/-- What the owner of an order has paid; the owner of a sell order is paid. -/
def payment (order : Order) : ℚ :=
  match order.side with
  | .buy => order.amount
  | .sell => -order.amount

/-- The average price is defined, and the executions of a sell order are at its limit. -/
structure Priced (order : Order) : Prop where
  average : order.averageExecutedPrice ≠ none
  sell : order.side = .sell → order.amount = order.price * order.executedQuantity

variable {order : Order} {price : ℚ} {quantity : ℤ}

/-- A submitted order has executed nothing at any price. -/
theorem priced_ofTerms (terms : OrderTerms) (serial : ℕ) : (ofTerms terms serial).Priced :=
  ⟨Option.some_ne_none _, fun _ => by simp [amount]⟩

/-- Nothing is paid for a submitted order. -/
@[simp] theorem payment_ofTerms (terms : OrderTerms) (serial : ℕ) : (ofTerms terms serial).payment = 0 := by
  unfold payment amount
  split <;> simp

/-- A cancel changes no payment. -/
@[simp] theorem payment_cancel : order.cancel.payment = order.payment := rfl

/-- An execution adds its price times its quantity to the amount. -/
theorem amount_execute (price : ℚ) (haverage : order.averageExecutedPrice ≠ none) (hexecuted : 0 ≤ order.executedQuantity)
    (hpositive : 0 < quantity) :
    (order.execute price quantity).averageExecutedPrice ≠ none ∧
      (order.execute price quantity).amount = order.amount + price * quantity := by
  obtain ⟨average, haverage⟩ := Option.ne_none_iff_exists'.mp haverage
  have hdivisor : quantity + order.executedQuantity ≠ 0 := by omega
  have hnext : (order.execute price quantity).averageExecutedPrice =
      some ((average * order.executedQuantity + price * quantity) / (quantity + order.executedQuantity : ℤ)) := by
    rw [execute, haverage]
    exact if_neg hdivisor
  refine ⟨by simp [hnext], ?_⟩
  have hdivisor' : ((quantity + order.executedQuantity : ℤ) : ℚ) ≠ 0 := by exact_mod_cast hdivisor
  have hsum : ((order.executedQuantity + quantity : ℤ) : ℚ) = (quantity + order.executedQuantity : ℤ) := by
    rw [add_comm]
  rw [amount, amount, hnext, haverage, execute_executedQuantity, Option.getD_some, Option.getD_some, hsum,
    div_mul_cancel₀ _ hdivisor']

/-- An execution of a sell order at its limit keeps all its executions there. -/
theorem Priced.execute (h : order.Priced) (hexecuted : 0 ≤ order.executedQuantity) (hpositive : 0 < quantity)
    (hlimit : order.side = .sell → price = order.price) : (order.execute price quantity).Priced := by
  obtain ⟨haverage, hamount⟩ := amount_execute price h.average hexecuted hpositive
  refine ⟨haverage, fun hside => ?_⟩
  rw [execute_toOrderTerms] at hside ⊢
  rw [hamount, h.sell hside, hlimit hside, execute_executedQuantity]
  push_cast
  ring

/-- The average price of a sell order that was executed is its limit. -/
theorem Priced.average_eq (h : order.Priced) (hside : order.side = .sell) (hexecuted : 0 < order.executedQuantity) :
    order.averageExecutedPrice = some order.price := by
  obtain ⟨average, haverage⟩ := Option.ne_none_iff_exists'.mp h.average
  have hamount := h.sell hside
  have hexecuted' : (order.executedQuantity : ℚ) ≠ 0 := by exact_mod_cast hexecuted.ne'
  rw [amount, haverage, Option.getD_some] at hamount
  rw [haverage, mul_right_cancel₀ hexecuted' hamount]

end Order

/-- All orders of a book are priced, in the reports and in their last records; the payments cancel out. -/
structure Cleared (reports : List OutgoingMessage) (resting : List Order) : Prop where
  tradable : ∀ order ∈ resting, order.Tradable
  priced : ∀ order ∈ resting, order.Priced
  reported : ∀ message ∈ reports, message.order.Priced
  fills : ∀ message ∈ reports, message.type.fill = true → 0 < message.order.executedQuantity ∧
    (message.order.side = .sell → message.order.lastExecutedPrice = message.order.price)
  payments : ((resting ++ closed reports).map Order.payment).sum = 0

namespace Cleared

variable {resting others : List Order} {reports : List OutgoingMessage} {order bid ask : Order}

/-- Before anything was submitted there is nothing to pay. -/
theorem nil : Cleared [] [] := ⟨by simp, by simp, by simp, by simp, rfl⟩

/-- The arrangement of the resting orders does not matter. -/
theorem perm (h : Cleared reports resting) (hperm : resting.Perm others) : Cleared reports others where
  tradable order horder := h.tradable order (hperm.mem_iff.mpr horder)
  priced order horder := h.priced order (hperm.mem_iff.mpr horder)
  reported := h.reported
  fills := h.fills
  payments := by rw [← ((hperm.append_right _).map _).sum_eq, h.payments]

/-- Submit an order that has executed nothing. -/
theorem submit (h : Cleared reports resting) (htradable : order.Tradable) (hpriced : order.Priced)
    (hpayment : order.payment = 0) : Cleared reports (order :: resting) where
  tradable := List.forall_mem_cons.mpr ⟨htradable, h.tradable⟩
  priced := List.forall_mem_cons.mpr ⟨hpriced, h.priced⟩
  reported := h.reported
  fills := h.fills
  payments := by rw [List.cons_append, List.map_cons, List.sum_cons, hpayment, h.payments, add_zero]

/-- Execute a quantity on a bid and on an ask at the limit of the ask, and report both. -/
theorem trade (h : Cleared reports (bid :: ask :: others)) (hbid : bid.side = .buy) (hask : ask.side = .sell)
    {quantity : ℤ} (hquantity : quantity = min bid.openQuantity ask.openQuantity) :
    Cleared
      (reports ++ [OrderBook.fillMessage (bid.execute ask.price quantity), OrderBook.fillMessage (ask.execute ask.price quantity)])
      ((if (bid.execute ask.price quantity).isFilled then [] else [bid.execute ask.price quantity]) ++
        ((if (ask.execute ask.price quantity).isFilled then [] else [ask.execute ask.price quantity]) ++ others)) := by
  obtain ⟨hbidTradable, haskTradable, hothers⟩ : bid.Tradable ∧ ask.Tradable ∧ ∀ order ∈ others, order.Tradable := by
    simpa using h.tradable
  obtain ⟨hbidPriced, haskPriced, hpriced⟩ : bid.Priced ∧ ask.Priced ∧ ∀ order ∈ others, order.Priced := by
    simpa using h.priced
  have hpositive : 0 < quantity := hquantity ▸ lt_min hbidTradable.openPos haskTradable.openPos
  have hbidNext : (bid.execute ask.price quantity).Priced :=
    hbidPriced.execute hbidTradable.executedNonneg hpositive fun hside => by cases hbid.symm.trans hside
  have haskNext : (ask.execute ask.price quantity).Priced :=
    haskPriced.execute haskTradable.executedNonneg hpositive fun _ => rfl
  have hleft : ∀ {executed rest : Order}, executed.Priced → rest ∈ (if executed.isFilled then [] else [executed]) →
      rest.Priced := by
    intro executed rest hexecuted hrest
    split at hrest
    · cases hrest
    · exact List.mem_singleton.mp hrest ▸ hexecuted
  refine ⟨fun order horder => ?_, fun order horder => ?_, fun message hmessage => ?_, fun message hmessage hfill => ?_, ?_⟩
  · rcases List.mem_append.mp horder with horder | horder
    · exact hbidTradable.left _ hpositive.le (hquantity ▸ min_le_left ..) horder
    rcases List.mem_append.mp horder with horder | horder
    · exact haskTradable.left _ hpositive.le (hquantity ▸ min_le_right ..) horder
    · exact hothers order horder
  · rcases List.mem_append.mp horder with horder | horder
    · exact hleft hbidNext horder
    rcases List.mem_append.mp horder with horder | horder
    · exact hleft haskNext horder
    · exact hpriced order horder
  · rcases List.mem_append.mp hmessage with hmessage | hmessage
    · exact h.reported message hmessage
    · simp only [List.mem_cons, List.not_mem_nil, or_false] at hmessage
      rcases hmessage with rfl | rfl
      · exact hbidNext
      · exact haskNext
  · rcases List.mem_append.mp hmessage with hmessage | hmessage
    · exact h.fills message hmessage hfill
    · have hbidExecuted := hbidTradable.executedNonneg
      have haskExecuted := haskTradable.executedNonneg
      simp only [List.mem_cons, List.not_mem_nil, or_false] at hmessage
      rcases hmessage with rfl | rfl
      · exact ⟨by simp only [OrderBook.fillMessage, Order.execute_executedQuantity]; omega,
          fun hside => by cases hbid.symm.trans hside⟩
      · exact ⟨by simp only [OrderBook.fillMessage, Order.execute_executedQuantity]; omega, fun _ => rfl⟩
  · -- What the buyer pays more, the seller receives more.
    have hpayments := h.payments
    have hbidAmount := (Order.amount_execute ask.price hbidPriced.average hbidTradable.executedNonneg hpositive).2
    have haskAmount := (Order.amount_execute ask.price haskPriced.average haskTradable.executedNonneg hpositive).2
    rw [((Balanced.trade_perm ..).map Order.payment).sum_eq]
    simp only [List.cons_append, List.map_cons, List.sum_cons, Order.payment, Order.execute_toOrderTerms, hbid, hask] at hpayments ⊢
    rw [hbidAmount, haskAmount]
    linarith

/-- Cancel a resting order, and report it. -/
theorem cancel (h : Cleared reports (order :: others)) :
    Cleared (reports ++ [⟨order.cancel, .canceled, "Order canceled"⟩]) others where
  tradable other hother := h.tradable other (List.mem_cons_of_mem _ hother)
  priced other hother := h.priced other (List.mem_cons_of_mem _ hother)
  reported message hmessage := by
    rcases List.mem_append.mp hmessage with hmessage | hmessage
    · exact h.reported message hmessage
    · have horder := h.priced order (List.mem_cons_self ..)
      exact List.mem_singleton.mp hmessage ▸ ⟨horder.average, horder.sell⟩
  fills message hmessage hfill := by
    rcases List.mem_append.mp hmessage with hmessage | hmessage
    · exact h.fills message hmessage hfill
    · rw [List.mem_singleton.mp hmessage] at hfill
      cases hfill
  payments := by
    have hperm : (others ++ closed (reports ++ [⟨order.cancel, .canceled, "Order canceled"⟩])).Perm
        (order.cancel :: (others ++ closed reports)) := by
      rw [closed_append, ← List.append_assoc]
      exact List.perm_append_singleton _ _
    rw [(hperm.map Order.payment).sum_eq, List.map_cons, List.sum_cons, Order.payment_cancel]
    exact h.payments

/-- Clearing is an account for orders that have executed nothing. -/
theorem account :
    Account (fun _ => Cleared) fun _ order => order.Tradable ∧ order.Priced ∧ order.payment = 0 where
  nil := nil
  perm := perm
  submit h hfresh := h.submit hfresh.1 hfresh.2.1 hfresh.2.2
  trade _ h hbid hask _ hquantity := h.trade hbid hask hquantity
  cancel := cancel

end Cleared

namespace Pipeline

open OutgoingMessageProcessor

variable {symbols : List String} {s : Pipeline}

/-- Books are cleared if all quantities are positive. -/
theorem cleared_of_consistent (h : s.Consistent symbols) (hpositive : ∀ order ∈ orders s.pushed, 0 < order.quantity)
    (symbol : String) : Cleared (s.reports symbols symbol) (s.engine.bookOf symbol).resting := by
  rw [reports, h.executed.reports symbol, h.executed.books symbol]
  refine Cleared.account.executeAll fun earlier order later horders => ?_
  have hmem : order ∈ newOrders (s.log symbol) := horders ▸ List.mem_append_right _ (List.mem_cons_self ..)
  refine ⟨tradable_log h hpositive symbol order hmem, ?_⟩
  rw [(h.stamped_log symbol).fresh order hmem]
  exact ⟨Order.priced_ofTerms .., Order.payment_ofTerms ..⟩

/-- An order is partially filled below its limit by an order of another client. -/
theorem exists_fill : ∃ s, (pipeline ["A"]).Reachable s ∧ (∀ order ∈ orders s.pushed, 0 < order.quantity) ∧
    (s.reports ["A"] "A").length = 2 ∧ ∃ report,
      (OutgoingMessageProcessor.initial.processAll s.engine.outgoingMessages).sent[3]? = some report ∧
        report.side = '2' ∧ report.lastPx = some 8 := by
  obtain ⟨s, hrun, hquantities, hreports, hreport⟩ : ∃ s, (pipeline ["A"]).run
        (toBook (exampleRequest "A" .newOrder) ++ toBook ⟨⟨"1", "A", "SELLER", "EXCHANGE", .sell, .limit, 8, 2⟩, "", .newOrder⟩ ++
          [.workerOperation 0, .workerOperation 0]) (pipeline ["A"]).start = some s ∧
      (orders s.pushed).map (fun order => order.quantity) = [5, 2] ∧ (s.reports ["A"] "A").length = 2 ∧
      ∃ report, (OutgoingMessageProcessor.initial.processAll s.engine.outgoingMessages).sent[3]? = some report ∧
        report.side = '2' ∧ report.lastPx = some 8 := ⟨_, rfl, rfl, rfl, _, rfl, rfl, rfl⟩
  refine ⟨s, Machine.reachable_of_run hrun, fun order horder => ?_, hreports, hreport⟩
  have hmem := hquantities ▸ List.mem_map_of_mem (f := fun order : Order => order.quantity) horder
  simp only [List.mem_cons, List.not_mem_nil, or_false] at hmem
  omega

/-- If all quantities are positive, then in every state reached the last records of the orders submitted to a book,
one for each, have average prices, and what their owners have paid sums up to zero. -/
theorem payments_cancel_out (h : (pipeline symbols).Reachable s) (hpositive : ∀ order ∈ orders s.pushed, 0 < order.quantity)
    (symbol : String) :
    let records := (s.engine.bookOf symbol).resting ++ closed (s.reports symbols symbol)
    (records.map Order.call).Perm ((newOrders (s.log symbol)).map Order.call) ∧
      (∀ record ∈ records, record.averageExecutedPrice ≠ none) ∧ (records.map Order.payment).sum = 0 := by
  have hcleared := cleared_of_consistent (consistent_of_reachable h) hpositive symbol
  refine ⟨(quantity_conserved h symbol).2.accounted, fun record hrecord => ?_, hcleared.payments⟩
  rcases List.mem_append.mp hrecord with hrecord | hrecord
  · exact (hcleared.priced record hrecord).average
  · obtain ⟨message, hmessage, rfl⟩ := List.mem_map.mp hrecord
    exact (hcleared.reported message (List.mem_of_mem_filter hmessage)).average

/-- The payments of a buyer and a seller after a fill. -/
theorem payments_cancel_out_fill : ∃ s, (pipeline ["A"]).Reachable s ∧ (s.reports ["A"] "A").length = 2 ∧
    (((s.engine.bookOf "A").resting ++ closed (s.reports ["A"] "A")).map Order.payment).sum = 0 := by
  obtain ⟨s, hreachable, hpositive, hreports, _⟩ := exists_fill
  exact ⟨s, hreachable, hreports, (payments_cancel_out hreachable hpositive "A").2.2⟩

/-- If all quantities are positive, every sell order trades at its limit: this is the average price of its record in the
book as soon as something was executed, and the last and the average price in every execution report on a fill that is
handed over, where the limit is the one that the client submitted. -/
theorem sellers_paid_limit (h : (pipeline symbols).Reachable s) (hpositive : ∀ order ∈ orders s.pushed, 0 < order.quantity) :
    (∀ symbol, ∀ order ∈ (s.engine.bookOf symbol).resting, order.side = .sell → 0 < order.executedQuantity →
        order.averageExecutedPrice = some order.price) ∧
      ∀ taken, taken <+: s.engine.outgoingMessages → ∀ (i : ℕ) (report : FIX.ExecutionReport),
        (OutgoingMessageProcessor.initial.processAll taken).sent[i]? = some report → report.side = '2' →
        report.lastPx ≠ none → ∃ message submitted, taken[i]? = some message ∧
          s.pushed[message.order.serial]? = some submitted ∧
          report.lastPx = some submitted.order.price ∧ report.avgPx = some submitted.order.price := by
  have hconsistent := consistent_of_reachable h
  refine ⟨fun symbol order horder hside hexecuted =>
    ((cleared_of_consistent hconsistent hpositive symbol).priced order horder).average_eq hside hexecuted,
    fun taken htaken i report hreport hside hlast => ?_⟩
  obtain ⟨message, hmessage⟩ : ∃ message, taken[i]? = some message := by
    rw [processAll_initial, List.getElem?_mapIdx] at hreport
    obtain ⟨message, hmessage, _⟩ := Option.map_eq_some_iff.mp hreport
    exact ⟨message, hmessage⟩
  rw [sent_getElem? hmessage, Option.some.injEq] at hreport
  subst hreport
  have hmem : message ∈ s.engine.outgoingMessages := htaken.subset (List.mem_of_getElem? hmessage)
  obtain ⟨submitted, hsubmitted, hterms⟩ := outgoing_submitted h hmem
  have hfill : message.type.fill = true := by
    rw [(executionReport_fill _ message).1] at hlast
    by_contra hfill
    exact hlast (if_neg hfill)
  have hsell : message.order.side = .sell := by
    cases hordered : message.order.side with
    | buy => simp [executionReport, convertOrderSideToQuickFix, hordered] at hside
    | sell => rfl
  have hbook : message ∈ s.reports symbols message.order.symbol := by
    refine List.mem_append_left _ (List.mem_filter.mpr ⟨hmem, ?_⟩)
    cases htype : message.type <;> simp_all [OutgoingMessageType.fill, OutgoingMessageType.ofBook]
  have hprice : submitted.order.price = message.order.price := by rw [hterms]
  have hcleared := cleared_of_consistent hconsistent hpositive message.order.symbol
  obtain ⟨hexecuted, hlimit⟩ := hcleared.fills message hbook hfill
  refine ⟨message, submitted, hmessage, hsubmitted, ?_, ?_⟩
  · rw [(executionReport_fill _ message).1, if_pos hfill, hprice, hlimit hsell]
  · rw [hprice]
    exact (hcleared.reported message hbook).average_eq hsell hexecuted

/-- The report to a seller, whose order was filled by a bid above its limit. -/
theorem sellers_paid_limit_fill : ∃ s, (pipeline ["A"]).Reachable s ∧
    ∃ report, (OutgoingMessageProcessor.initial.processAll s.engine.outgoingMessages).sent[3]? = some report ∧
      report.lastPx = some 8 ∧ report.avgPx = some 8 := by
  obtain ⟨s, hreachable, hpositive, _, report, hreport, hside, hlast⟩ := exists_fill
  obtain ⟨_, submitted, _, _, hlimit, haverage⟩ := (sellers_paid_limit hreachable hpositive).2 _ (List.prefix_refl _) 3 report
    hreport hside (by simp [hlast])
  exact ⟨s, hreachable, report, hreport, hlast, haverage.trans (hlimit.symm.trans hlast)⟩

end Pipeline

end MatchingEngine
