import MatchingEngine.CancelIsolation
import MatchingEngine.Conservation
import MatchingEngine.OutgoingMessageProcessor
import MatchingEngine.ServerQuantities
import MatchingEngine.Foundation.WeightedAverage
import Mathlib.Algebra.BigOperators.Ring.Finset

/-!
# Limit protection

A match executes a bid and an ask at the price of the ask, and only if the bid pays as much: no
execution is beyond the limit of an order. The average price of an order accounts for its executions
so far, so that it is not beyond the limit either.

The copy in a report shows the execution that it reports as the last one. What the reports on an
order show, together, are its executions.
-/

namespace MatchingEngine

open WeightedAverage

/-- The copies in the fills among messages. -/
def fills (messages : List OutgoingMessage) : List Order :=
  (messages.filter fun message => message.type.fill).map OutgoingMessage.order

@[simp] theorem fills_append (messages more : List OutgoingMessage) : fills (messages ++ more) = fills messages ++ fills more := by
  rw [fills, List.filter_append, List.map_append]
  rfl

/-- A message on a processed order is a fill. -/
@[simp] theorem fills_fillMessage (order : Order) : fills [OrderBook.fillMessage order] = [order] := by
  unfold OrderBook.fillMessage
  split <;> rfl

/-- Fewer messages have fewer fills. -/
theorem fills_sublist {messages more : List OutgoingMessage} (h : messages.Sublist more) : (fills messages).Sublist (fills more) :=
  (h.filter _).map _

/-- The copy in a fill. -/
theorem mem_fills {messages : List OutgoingMessage} {message : OutgoingMessage} (h : message ∈ messages)
    (hfill : message.type.fill = true) : message.order ∈ fills messages :=
  List.mem_map_of_mem (List.mem_filter.mpr ⟨h, hfill⟩)

namespace Order

/-- The record of an order accounts for executions: it has executed all of their quantities, and the average price times
this is the sum of price times quantity. -/
structure Averages (order : Order) (executions : List Order) : Prop where
  executed : order.executedQuantity = (executions.map Order.lastExecutedQuantity).sum
  average : ∃ average : ℚ, order.averageExecutedPrice = some average ∧ average * order.executedQuantity =
    (executions.map fun execution => execution.lastExecutedPrice * (execution.lastExecutedQuantity : ℚ)).sum

/-- The last execution was of a positive quantity and not beyond the limit. -/
structure ExecutedWithinLimit (order : Order) : Prop where
  positive : 0 < order.lastExecutedQuantity
  buy : order.side = .buy → order.lastExecutedPrice ≤ order.price
  sell : order.side = .sell → order.price ≤ order.lastExecutedPrice

/-- If something was executed, the average price is not beyond the limit. -/
def AverageWithinLimit (order : Order) : Prop :=
  0 < order.executedQuantity → ∃ average : ℚ, order.averageExecutedPrice = some average ∧
    (order.side = .buy → average ≤ order.price) ∧ (order.side = .sell → order.price ≤ average)

/-- A submitted order accounts for no executions. -/
theorem averages_ofTerms (terms : OrderTerms) (serial : ℕ) : (ofTerms terms serial).Averages [] :=
  ⟨rfl, 0, rfl, by simp⟩

namespace Averages

variable {order : Order} {executions : List Order}

/-- The quantities executed are the weights. -/
theorem totalWeight_eq (h : order.Averages executions) :
    totalWeight (fun execution : Order => (execution.lastExecutedQuantity : ℚ)) executions = order.executedQuantity := by
  rw [h.executed, totalWeight, Int.cast_list_sum, List.map_map]
  rfl

/-- The average price is a weighted average. -/
theorem isAverage (h : order.Averages executions) : ∃ average : ℚ, order.averageExecutedPrice = some average ∧
    IsAverage lastExecutedPrice (fun execution => (execution.lastExecutedQuantity : ℚ)) executions average := by
  obtain ⟨average, haverage, hsum⟩ := h.average
  exact ⟨average, haverage, by rw [IsAverage, h.totalWeight_eq]; exact hsum⟩

/-- The record accounts for one execution more. -/
theorem execute (h : order.Averages executions) (hexecuted : 0 ≤ order.executedQuantity) (price : ℚ) {quantity : ℤ}
    (hpositive : 0 < quantity) : (order.execute price quantity).Averages (executions ++ [order.execute price quantity]) := by
  have hdivisor : quantity + order.executedQuantity ≠ 0 := by omega
  obtain ⟨average, haverage, hisAverage⟩ := h.isAverage
  have hnext := hisAverage.concat (order.execute price quantity) (by
    rw [h.totalWeight_eq, execute_lastExecutedQuantity]
    exact_mod_cast hdivisor)
  have hexecutedNext : (order.execute price quantity).executedQuantity =
      ((executions ++ [order.execute price quantity]).map Order.lastExecutedQuantity).sum := by
    simp [h.executed]
  refine ⟨hexecutedNext, (average * order.executedQuantity + price * quantity) / (quantity + order.executedQuantity : ℤ), ?_, ?_⟩
  · rw [Order.execute, haverage]
    exact if_neg hdivisor
  · rw [IsAverage, totalWeight_concat, h.totalWeight_eq] at hnext
    simpa [weightedSum, add_comm] using hnext

/-- Something was executed if there are executions. -/
theorem executed_pos (h : order.Averages executions) (hlimits : ∀ execution ∈ executions, execution.ExecutedWithinLimit)
    {execution : Order} (hexecution : execution ∈ executions) : 0 < order.executedQuantity := by
  have hnonneg : ∀ quantity ∈ executions.map Order.lastExecutedQuantity, 0 ≤ quantity := by
    intro quantity hquantity
    obtain ⟨other, hother, rfl⟩ := List.mem_map.mp hquantity
    exact (hlimits other hother).positive.le
  have hle := List.single_le_sum hnonneg _ (List.mem_map_of_mem hexecution)
  rw [h.executed]
  exact (hlimits execution hexecution).positive.trans_le hle

/-- Executions within the limit of an order have an average within this limit. -/
theorem averageWithinLimit (h : order.Averages executions)
    (hlimits : ∀ execution ∈ executions, execution.ExecutedWithinLimit)
    (hterms : ∀ execution ∈ executions, execution.toOrderTerms = order.toOrderTerms) : order.AverageWithinLimit := by
  intro hexecuted
  obtain ⟨average, haverage, hisAverage⟩ := h.isAverage
  have hweight : 0 < totalWeight (fun execution : Order => (execution.lastExecutedQuantity : ℚ)) executions := by
    rw [h.totalWeight_eq]
    exact_mod_cast hexecuted
  have hweights : ∀ execution ∈ executions, 0 ≤ (execution.lastExecutedQuantity : ℚ) := fun execution hexecution =>
    Int.cast_nonneg (hlimits execution hexecution).positive.le
  refine ⟨average, haverage, fun hside => ?_, fun hside => ?_⟩
  · refine hisAverage.le hweight hweights fun execution hexecution => ?_
    rw [← hterms execution hexecution] at hside ⊢
    exact (hlimits execution hexecution).buy hside
  · refine hisAverage.ge hweight hweights fun execution hexecution => ?_
    rw [← hterms execution hexecution] at hside ⊢
    exact (hlimits execution hexecution).sell hside

end Averages

end Order

/-- Through the life of an order, its record accounts for the fills that are reported. -/
theorem Lifecycle.averages {order : Order} {messages : List OutgoingMessage} {state : Option Order}
    (h : Lifecycle order messages state) (hsubmitted : order.Averages [])
    (hlimits : ∀ execution ∈ fills messages, execution.ExecutedWithinLimit) :
    (∀ resting, state = some resting → resting.Averages (fills messages)) ∧
      ∀ front last, messages = front ++ [last] → last.order.Averages (fills messages) := by
  induction h with
  | submitted => exact ⟨fun resting hresting => Option.some.inj hresting ▸ hsubmitted, fun _ _ h => by simp at h⟩
  | @fill messages resting price quantity hlife ih =>
    have hmessages : ∀ execution ∈ fills messages, execution.ExecutedWithinLimit := fun execution hexecution =>
      hlimits execution (by rw [fills_append]; exact List.mem_append_left _ hexecution)
    have hpositive : 0 < quantity := (hlimits (resting.execute price quantity) (by simp)).positive
    have hresting := (ih hmessages).1 resting rfl
    have hexecuted : 0 ≤ resting.executedQuantity := by
      rw [hresting.executed]
      refine List.sum_nonneg fun quantity hquantity => ?_
      obtain ⟨execution, hexecution, rfl⟩ := List.mem_map.mp hquantity
      exact (hmessages execution hexecution).positive.le
    have hnext := hresting.execute hexecuted price hpositive
    rw [fills_append, fills_fillMessage]
    refine ⟨fun rest hrest => ?_, fun front last heq => ?_⟩
    · split at hrest
      · cases hrest
      · exact Option.some.inj hrest ▸ hnext
    · obtain rfl := (List.append_singleton_inj.mp heq).2
      exact hnext
  | @canceled messages resting hlife ih =>
    have hnone : fills [(⟨resting.cancel, .canceled, "Order canceled"⟩ : OutgoingMessage)] = [] := rfl
    rw [fills_append, hnone, List.append_nil] at hlimits ⊢
    have hresting := (ih hlimits).1 resting rfl
    refine ⟨fun rest hrest => (by cases hrest), fun front last heq => ?_⟩
    obtain rfl := (List.append_singleton_inj.mp heq).2
    exact ⟨hresting.executed, hresting.average⟩

/-- A bid and an ask have executed the same positive quantity at the same price, which is between their limits. -/
structure Crossed (bid ask : Order) : Prop where
  bidSide : bid.side = .buy
  askSide : ask.side = .sell
  price : bid.lastExecutedPrice = ask.lastExecutedPrice
  quantity : bid.lastExecutedQuantity = ask.lastExecutedQuantity
  positive : 0 < bid.lastExecutedQuantity
  aboveAsk : ask.price ≤ bid.lastExecutedPrice
  belowBid : bid.lastExecutedPrice ≤ bid.price

/-- The fills are pairs of a bid and an ask that cross. -/
def FillsCross (reports : List OutgoingMessage) : Prop :=
  ∃ pairs : List (Order × Order), fills reports = pairs.flatMap (fun pair => [pair.1, pair.2]) ∧
    ∀ pair ∈ pairs, Crossed pair.1 pair.2

/-- Executions that cross are within the limits of both. -/
theorem FillsCross.withinLimit {reports : List OutgoingMessage} (h : FillsCross reports) :
    ∀ execution ∈ fills reports, execution.ExecutedWithinLimit := by
  obtain ⟨pairs, hfills, hcrossed⟩ := h
  intro execution hexecution
  rw [hfills] at hexecution
  obtain ⟨pair, hpair, hexecution⟩ := List.mem_flatMap.mp hexecution
  have hcross := hcrossed pair hpair
  simp only [List.mem_cons, List.not_mem_nil, or_false] at hexecution
  rcases hexecution with rfl | rfl
  · refine ⟨hcross.positive, fun _ => hcross.belowBid, fun hside => ?_⟩
    rw [hcross.bidSide] at hside
    cases hside
  · refine ⟨hcross.quantity ▸ hcross.positive, fun hside => ?_, fun _ => hcross.price ▸ hcross.aboveAsk⟩
    rw [hcross.askSide] at hside
    cases hside

/-- The fills on a book cross, and its resting orders can be traded. -/
structure Crosses (reports : List OutgoingMessage) (resting : List Order) : Prop where
  crossed : FillsCross reports
  tradable : ∀ order ∈ resting, order.Tradable

/-- The arrangement of the resting orders does not matter. -/
theorem Crosses.perm {reports : List OutgoingMessage} {resting others : List Order} (h : Crosses reports resting)
    (hperm : resting.Perm others) : Crosses reports others :=
  ⟨h.crossed, fun order horder => h.tradable order (hperm.mem_iff.mpr horder)⟩

/-- Submit a tradable order. -/
theorem Crosses.submit {reports : List OutgoingMessage} {resting : List Order} (h : Crosses reports resting) {order : Order}
    (htradable : order.Tradable) : Crosses reports (order :: resting) := by
  refine ⟨h.crossed, fun other hother => ?_⟩
  rcases List.mem_cons.mp hother with rfl | hother
  · exact htradable
  · exact h.tradable other hother

/-- What is left of an executed order is tradable. -/
theorem Order.Tradable.left {order rest : Order} (h : order.Tradable) (price : ℚ) {quantity : ℤ} (hpos : 0 ≤ quantity)
    (hle : quantity ≤ order.openQuantity)
    (hrest : rest ∈ if (order.execute price quantity).isFilled then [] else [order.execute price quantity]) : rest.Tradable := by
  split at hrest
  · cases hrest
  · rename_i hunfilled
    rw [List.mem_singleton.mp hrest]
    exact h.execute price hpos hle hunfilled

/-- Crossing is an account for tradable orders. -/
theorem Crosses.account : Account (fun _ => Crosses) fun _ order => order.Tradable where
  nil := ⟨⟨[], rfl, by simp⟩, by simp⟩
  perm h hperm := h.perm hperm
  submit h hfresh := h.submit hfresh
  trade {_ reports others bid ask} quantity h hbid hask hcross hquantity := by
    have hbidTradable := h.tradable bid (List.mem_cons_self ..)
    have haskTradable := h.tradable ask (List.mem_cons_of_mem _ (List.mem_cons_self ..))
    have hpositive : 0 < quantity := hquantity ▸ lt_min hbidTradable.openPos haskTradable.openPos
    obtain ⟨pairs, hfills, hcrossed⟩ := h.crossed
    refine ⟨⟨pairs ++ [(bid.execute ask.price quantity, ask.execute ask.price quantity)], ?_, fun pair hpair => ?_⟩,
      fun order horder => ?_⟩
    · have hcons : [OrderBook.fillMessage (bid.execute ask.price quantity),
          OrderBook.fillMessage (ask.execute ask.price quantity)] =
        [OrderBook.fillMessage (bid.execute ask.price quantity)] ++
          [OrderBook.fillMessage (ask.execute ask.price quantity)] := rfl
      rw [hcons, fills_append, fills_append, fills_fillMessage, fills_fillMessage, hfills, List.flatMap_append]
      rfl
    · rcases List.mem_append.mp hpair with hpair | hpair
      · exact hcrossed pair hpair
      · rw [List.mem_singleton.mp hpair]
        exact ⟨hbid, hask, rfl, rfl, hpositive, le_rfl, hcross⟩
    · rcases List.mem_append.mp horder with horder | horder
      · exact hbidTradable.left _ hpositive.le (hquantity ▸ min_le_left ..) horder
      rcases List.mem_append.mp horder with horder | horder
      · exact haskTradable.left _ hpositive.le (hquantity ▸ min_le_right ..) horder
      · exact h.tradable order (List.mem_cons_of_mem _ (List.mem_cons_of_mem _ horder))
  cancel {_ reports _ order} h := by
    refine ⟨?_, fun other hother => h.tradable other (List.mem_cons_of_mem _ hother)⟩
    obtain ⟨pairs, hfills, hcrossed⟩ := h.crossed
    refine ⟨pairs, ?_, hcrossed⟩
    rw [fills_append, hfills]
    exact List.append_nil _

/-- The record of an order accounts for executions, and its average price is not beyond the limit. -/
structure Order.Protected (order : Order) (executions : List Order) : Prop where
  averages : order.Averages executions
  limit : order.AverageWithinLimit

/-- Through the life of an order, what rests of it and its last copy are protected. -/
theorem Lifecycle.protects {order : Order} {messages : List OutgoingMessage} {state : Option Order}
    (h : Lifecycle order messages state) (hsubmitted : order.Averages [])
    (hlimits : ∀ execution ∈ fills messages, execution.ExecutedWithinLimit) :
    (∀ resting, state = some resting → resting.Protected (fills messages)) ∧
      ∀ front last, messages = front ++ [last] → last.order.Protected (fills messages) := by
  obtain ⟨hresting, hlast⟩ := h.averages hsubmitted hlimits
  have hterms : ∀ message ∈ messages, message.order.toOrderTerms = order.toOrderTerms := fun message hmessage =>
    (h.reported.1.balance message (List.mem_cons_of_mem _ hmessage)).1
  have hfills : ∀ execution ∈ fills messages, execution.toOrderTerms = order.toOrderTerms := by
    intro execution hexecution
    obtain ⟨message, hmessage, rfl⟩ := List.mem_map.mp hexecution
    exact hterms message (List.mem_of_mem_filter hmessage)
  refine ⟨fun resting hstate => ?_, fun front last hmessages => ?_⟩
  · have haverages := hresting resting hstate
    subst hstate
    exact ⟨haverages, haverages.averageWithinLimit hlimits fun execution hexecution =>
      (hfills execution hexecution).trans h.terms.symm⟩
  · have haverages := hlast front last hmessages
    have hmem : last ∈ messages := hmessages ▸ List.mem_append_right _ (List.mem_singleton_self _)
    exact ⟨haverages, haverages.averageWithinLimit hlimits fun execution hexecution =>
      (hfills execution hexecution).trans (hterms last hmem).symm⟩

/-- The fills on a book cross. The record of every resting order accounts for the fills reported on it so far, and every
copy for those up to its report; no average is beyond its limit. -/
structure LimitProtected (reports : List OutgoingMessage) (resting : List Order) : Prop where
  crossed : FillsCross reports
  resting : ∀ order ∈ resting, order.Protected (fills (reportsOn order.serial reports))
  copies : ∀ earlier message later, reports = earlier ++ message :: later →
    message.order.Protected (fills (reportsOn message.order.serial (earlier ++ [message])))

/-- The record in a report of a book is within its limit, and was executed if the report is a fill. -/
theorem LimitProtected.of_mem {reports : List OutgoingMessage} {resting : List Order} (h : LimitProtected reports resting)
    {message : OutgoingMessage} (hmessage : message ∈ reports) :
    message.order.AverageWithinLimit ∧ (message.type.fill = true → 0 < message.order.executedQuantity) := by
  obtain ⟨earlier, later, hreports⟩ := List.append_of_mem hmessage
  have hcopy := h.copies earlier message later hreports
  have hfirst : (earlier ++ [message]).Sublist reports := by simp [hreports]
  refine ⟨hcopy.limit, fun hfill => hcopy.averages.executed_pos (fun execution hexecution => ?_) (mem_fills ?_ hfill)⟩
  · exact h.crossed.withinLimit execution ((fills_sublist (List.filter_sublist.trans hfirst)).subset hexecution)
  · simp [reportsOn]

/-- Tracked orders whose fills cross are protected. -/
theorem Tracks.limitProtected {orders resting : List Order} {reports : List OutgoingMessage}
    (h : Tracks orders reports resting) (hcrosses : Crosses reports resting)
    (hsubmitted : ∀ order ∈ orders, order.Averages []) : LimitProtected reports resting := by
  have hlimits : ∀ messages : List OutgoingMessage, messages.Sublist reports →
      ∀ execution ∈ fills messages, execution.ExecutedWithinLimit := fun messages hmessages execution hexecution =>
    hcrosses.crossed.withinLimit execution ((fills_sublist hmessages).subset hexecution)
  refine ⟨hcrosses.crossed, fun order horder => ?_, fun earlier message later hreports => ?_⟩
  · obtain ⟨original, horiginal, hserial⟩ := h.known order horder
    obtain ⟨state, hlife, hstate⟩ := h.lifecycle original horiginal
    rw [← hserial]
    exact (hlife.protects (hsubmitted original horiginal) (hlimits _ List.filter_sublist)).1 order
      ((hstate order).mp ⟨horder, hserial.symm⟩)
  · obtain ⟨original, horiginal, hserial⟩ := h.reported message (hreports ▸ by simp)
    obtain ⟨_, hlife, _⟩ := h.lifecycle original horiginal
    have hfirst : earlier ++ [message] <+: reports := ⟨later, by rw [hreports, List.append_assoc]; rfl⟩
    obtain ⟨_, hbefore⟩ := hlife.of_prefix (hfirst.filter _)
    rw [← hserial]
    refine (hbefore.protects (hsubmitted original horiginal)
      (hlimits _ (List.filter_sublist.trans hfirst.sublist))).2 (reportsOn original.serial earlier) message ?_
    change reportsOn original.serial (earlier ++ [message]) = _
    rw [reportsOn_append, reportsOn_singleton, if_pos hserial.symm]

/-- An account follows the passes of the matching loop. -/
theorem Account.afterPasses {R : List Order → List OutgoingMessage → List Order → Prop} {Fresh : List Order → Order → Prop}
    (h : Account R Fresh) {orders : List Order} {reports : List OutgoingMessage} {book after : OrderBook}
    (hbook : R orders reports book.resting) (hsided : book.Sided) {passes : ℕ} (hafter : book.afterPasses passes = some after) :
    R orders (reports ++ (book.processMatching.2.take (2 * passes)).map OrderBook.fillMessage) after.resting := by
  induction passes generalizing book reports with
  | zero =>
    obtain rfl := Option.some.inj hafter
    simpa using hbook
  | succ passes ih =>
    obtain ⟨⟨next, bid, ask⟩, htops, hrest⟩ := Option.bind_eq_some_iff.mp hafter
    have hpasses := ih (h.matchTops hbook hsided htops) (hsided.matchTops htops) hrest
    rw [OrderBook.processMatching_eq, htops]
    rw [List.append_assoc] at hpasses
    exact hpasses

/-- The average price that a report on an executed order shows is not beyond a limit, and the order of a fill was
executed. -/
structure FIX.ExecutionReport.WithinLimit (report : FIX.ExecutionReport) (limit : ℚ) : Prop where
  fill : report.ordStatus = '1' ∨ report.ordStatus = '2' → 0 < report.cumQty
  average : report.ordStatus = '1' ∨ report.ordStatus = '2' ∨ report.ordStatus = '4' → 0 < report.cumQty →
    ∃ average : ℚ, report.avgPx = some average ∧ (report.side = '1' → average ≤ limit) ∧ (report.side = '2' → limit ≤ average)

/-- The report on a protected record is within the limit of the order. -/
theorem OutgoingMessageProcessor.executionReport_withinLimit (execID : String) {message : OutgoingMessage}
    (hfill : message.type.fill = true → 0 < message.order.executedQuantity)
    (hlimit : message.type.ofBook = true → message.order.AverageWithinLimit) :
    (executionReport execID message).WithinLimit message.order.price := by
  obtain ⟨order, type, text⟩ := message
  refine ⟨fun hstatus => hfill ?_, fun hstatus hexecuted => ?_⟩
  · cases type <;> simp_all [executionReport, convertToQuickFixOutgoingMessageType, OutgoingMessageType.fill]
  · have hbook : type.ofBook = true := by
      cases type <;> simp_all [executionReport, convertToQuickFixOutgoingMessageType, OutgoingMessageType.ofBook]
    obtain ⟨average, haverage, hbuy, hsell⟩ := hlimit hbook hexecuted
    refine ⟨average, haverage, fun hside => hbuy ?_, fun hside => hsell ?_⟩
    · cases hordered : order.side <;> simp_all [executionReport, convertOrderSideToQuickFix]
    · cases hordered : order.side <;> simp_all [executionReport, convertOrderSideToQuickFix]

namespace Pipeline

open OutgoingMessageProcessor

variable {symbols : List String} {s : Pipeline}

/-- The orders of a book with positive quantities are tradable when they are submitted. -/
theorem tradable_log (h : s.Consistent symbols) (hpositive : ∀ order ∈ orders s.pushed, 0 < order.quantity)
    (symbol : String) : ∀ order ∈ newOrders (s.log symbol), order.Tradable := by
  intro order horder
  have hpushed := mem_orders.mpr (h.executed_pushed (mem_newOrders_symbolTasks.mp horder).1)
  rw [(h.stamped_log symbol).fresh order horder]
  exact Order.tradable_ofTerms (hpositive order hpushed) _

/-- The history of a book is tracked, and its fills cross. -/
theorem tracks_and_crosses (h : s.Consistent symbols) (hpositive : ∀ order ∈ orders s.pushed, 0 < order.quantity)
    (symbol : String) :
    Tracks (newOrders (s.log symbol)) (s.reports symbols symbol) (s.engine.bookOf symbol).resting ∧
      Crosses (s.reports symbols symbol) (s.engine.bookOf symbol).resting := by
  have hdistinct : ((newOrders (s.log symbol)).map Order.serial).Nodup :=
    List.pairwise_map.mpr ((h.stamped_log symbol).increasing.imp fun hlt => hlt.ne)
  have hcrosses : Crosses (OrderBook.empty.executeAll (s.log symbol)).2
      (OrderBook.empty.executeAll (s.log symbol)).1.resting :=
    Crosses.account.executeAll fun earlier order later horders =>
      tradable_log h hpositive symbol order (horders ▸ List.mem_append_right _ (List.mem_cons_self ..))
  rw [reports, h.executed.reports symbol, h.executed.books symbol]
  exact ⟨Tracks.executeAll hdistinct, hcrosses⟩

/-- Submitted orders account for no executions. -/
theorem averages_log (h : s.Consistent symbols) (symbol : String) :
    ∀ order ∈ newOrders (s.log symbol), order.Averages [] := by
  intro order horder
  rw [(h.stamped_log symbol).fresh order horder]
  exact Order.averages_ofTerms ..

/-- A new order with a worker has not been submitted to its book. -/
theorem serial_ne_of_holding (h : s.Consistent symbols) {queueID : ℕ} {order : Order}
    (hholding : s.holding queueID = some (.newOrder order)) :
    ∀ original ∈ newOrders (s.log order.symbol), original.serial ≠ order.serial := by
  obtain ⟨t, ht⟩ : ∃ t, Pipeline.next (.execute queueID) s = some t := by
    simp only [Pipeline.next, hholding]
    exact ⟨_, rfl⟩
  have hlog : t.log order.symbol = s.log order.symbol ++ [.newOrder order] := by
    rw [log, log, (next_records ht).1, symbolTasks_append]
    simp [ran, hholding, symbolTasks_singleton, Task.bookTask, Task.symbol, Task.order]
  have hincreasing := ((h.next ht).stamped_log order.symbol).increasing
  rw [hlog, newOrders_append, List.pairwise_append] at hincreasing
  exact fun original horiginal => (hincreasing.2.2 original horiginal order (List.mem_singleton_self _)).ne

/-- If all quantities are positive, the executions on every book cross, and in every state reached, also between the passes
of the matching loop, the records of all orders account for their executions, with averages not beyond their limits; so
do the execution reports, however many of the messages the processor has taken. -/
theorem limit_protected (h : (pipeline symbols).Reachable s) (hpositive : ∀ order ∈ orders s.pushed, 0 < order.quantity) :
    (∀ order ∈ orders s.pushed, order.Averages []) ∧
      (∀ symbol, LimitProtected (s.reports symbols symbol) (s.engine.bookOf symbol).resting) ∧
      (∀ queueID order passes after, s.holding queueID = some (.newOrder order) →
        ((s.engine.bookOf order.symbol).insert order).afterPasses passes = some after →
        LimitProtected (s.reports symbols order.symbol ++
          (((s.engine.bookOf order.symbol).insert order).processMatching.2.take (2 * passes)).map OrderBook.fillMessage)
          after.resting) ∧
      ∀ taken, taken <+: s.engine.outgoingMessages → ∀ i report,
        (OutgoingMessageProcessor.initial.processAll taken).sent[i]? = some report →
        ∃ message submitted, taken[i]? = some message ∧ report = executionReport (toString (i + 1)) message ∧
          s.pushed[message.order.serial]? = some submitted ∧ report.WithinLimit submitted.order.price := by
  have hconsistent := consistent_of_reachable h
  have hprotected : ∀ symbol, LimitProtected (s.reports symbols symbol) (s.engine.bookOf symbol).resting := by
    intro symbol
    obtain ⟨htracks, hcrosses⟩ := tracks_and_crosses hconsistent hpositive symbol
    exact htracks.limitProtected hcrosses (averages_log hconsistent symbol)
  refine ⟨fun order horder => ?_, hprotected, fun queueID order passes after hholding hafter => ?_,
    fun taken htaken i report hreport => ?_⟩
  · have hfresh : order = .ofTerms order.toOrderTerms order.serial := hconsistent.stamped.fresh (mem_orders.mp horder)
    rw [hfresh]
    exact Order.averages_ofTerms ..
  · obtain ⟨htracks, hcrosses⟩ := tracks_and_crosses hconsistent hpositive order.symbol
    have hfresh := hconsistent.fresh_of_holding hholding
    have hpushed : order ∈ orders s.pushed := by
      have hqueue : queueOf symbols order.symbol = queueID := (hconsistent.routed.holding queueID _ hholding).1
      exact mem_orders.mpr (hconsistent.mem_pushed (by simp [upstream, hqueue, hholding]))
    have htradable : order.Tradable := hfresh ▸ Order.tradable_ofTerms (hpositive order hpushed) _
    have hsided := (hconsistent.sided order.symbol).insert order
    have hperm := ((s.engine.bookOf order.symbol).resting_insert order).symm
    refine (Tracks.account.afterPasses ((htracks.submit (serial_ne_of_holding hconsistent hholding)).perm hperm) hsided
      hafter).limitProtected (@Account.afterPasses _ _ Crosses.account [] _ _ _ ((hcrosses.submit htradable).perm hperm) hsided
        _ hafter) fun original horiginal => ?_
    rcases List.mem_append.mp horiginal with horiginal | horiginal
    · exact averages_log hconsistent order.symbol original horiginal
    · rw [List.mem_singleton.mp horiginal, hfresh]
      exact Order.averages_ofTerms ..
  · obtain ⟨message, hmessage⟩ : ∃ message, taken[i]? = some message := by
      rw [processAll_initial, List.getElem?_mapIdx] at hreport
      obtain ⟨message, hmessage, _⟩ := Option.map_eq_some_iff.mp hreport
      exact ⟨message, hmessage⟩
    rw [sent_getElem? hmessage, Option.some.injEq] at hreport
    have hmem : message ∈ s.engine.outgoingMessages := htaken.subset (List.mem_of_getElem? hmessage)
    obtain ⟨submitted, hsubmitted, hterms⟩ := outgoing_submitted h hmem
    have hprice : submitted.order.price = message.order.price := by rw [hterms]
    refine ⟨message, submitted, hmessage, hreport.symm, hsubmitted, ?_⟩
    have hof : message.type.ofBook = true →
        message.order.AverageWithinLimit ∧ (message.type.fill = true → 0 < message.order.executedQuantity) := fun hbook =>
      (hprotected message.order.symbol).of_mem (List.mem_append_left _ (List.mem_filter.mpr ⟨hmem, by simp [hbook]⟩))
    rw [hprice, ← hreport]
    refine executionReport_withinLimit _ (fun hfill => (hof ?_).2 hfill) fun hbook => (hof hbook).1
    cases htype : message.type <;> simp_all [OutgoingMessageType.fill, OutgoingMessageType.ofBook]

/-- A run in which an order is partially filled below its limit by an order of another client. -/
theorem limit_protected_fill :
    ∃ s, (pipeline ["A"]).run
        (toBook (exampleRequest "A" .newOrder) ++ toBook ⟨⟨"1", "A", "SELLER", "EXCHANGE", .sell, .limit, 8, 2⟩, "", .newOrder⟩ ++
          [.workerOperation 0, .workerOperation 0]) (pipeline ["A"]).start = some s ∧
      s.engine.outgoingMessages.map OutgoingMessage.type = [.accepted, .accepted, .partiallyField, .filled] ∧
      LimitProtected (s.reports ["A"] "A") (s.engine.bookOf "A").resting := by
  obtain ⟨s, hrun, htypes, hpositive⟩ : ∃ s, (pipeline ["A"]).run
        (toBook (exampleRequest "A" .newOrder) ++ toBook ⟨⟨"1", "A", "SELLER", "EXCHANGE", .sell, .limit, 8, 2⟩, "", .newOrder⟩ ++
          [.workerOperation 0, .workerOperation 0]) (pipeline ["A"]).start = some s ∧
      s.engine.outgoingMessages.map OutgoingMessage.type = [.accepted, .accepted, .partiallyField, .filled] ∧
      (orders s.pushed).map (fun order => order.quantity) = [5, 2] := ⟨_, rfl, rfl, rfl⟩
  refine ⟨s, hrun, htypes, (limit_protected (Machine.reachable_of_run hrun) fun order horder => ?_).2.1 "A"⟩
  have hmem := hpositive ▸ List.mem_map_of_mem (f := fun order : Order => order.quantity) horder
  simp only [List.mem_cons, List.not_mem_nil, or_false] at hmem
  omega

end Pipeline

end MatchingEngine
