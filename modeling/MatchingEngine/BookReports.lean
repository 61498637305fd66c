import MatchingEngine.BookHistory

/-!
# The reports about one order

An order that was submitted to a book rests there with its latest execution record until
a report shows it filled or cancelled. The relation between the reports about an order
and what rests of it is a small state machine of its own, the life of an order.

An account of a book is a relation between the submitted orders, the reports and the
resting orders that follows every submission, match and cancel, whichever orders are on
top; it then holds over the whole history of the book. That every order is somewhere in
its life is such an account.
-/

namespace MatchingEngine

/-- The call that submitted an order: its terms and its number. -/
def Order.call (order : Order) : OrderTerms × ℕ := (order.toOrderTerms, order.serial)

/-- The reports about an order since it was submitted, and what rests of it. -/
inductive Lifecycle (order : Order) : List OutgoingMessage → Option Order → Prop
  | submitted : Lifecycle order [] (some order)
  | fill {messages : List OutgoingMessage} {resting : Order} (price : ℚ) (quantity : ℤ) :
      Lifecycle order messages (some resting) →
      Lifecycle order (messages ++ [OrderBook.fillMessage (resting.execute price quantity)])
        (if (resting.execute price quantity).isFilled then none else some (resting.execute price quantity))
  | canceled {messages : List OutgoingMessage} {resting : Order} : Lifecycle order messages (some resting) →
      Lifecycle order (messages ++ [⟨resting.cancel, .canceled, "Order canceled"⟩]) none

/-- The messages about the order of a call. -/
def reportsOn (serial : ℕ) (messages : List OutgoingMessage) : List OutgoingMessage :=
  messages.filter fun message => message.order.serial == serial

@[simp] theorem reportsOn_nil (serial : ℕ) : reportsOn serial [] = [] := rfl

@[simp] theorem reportsOn_append (serial : ℕ) (messages more : List OutgoingMessage) :
    reportsOn serial (messages ++ more) = reportsOn serial messages ++ reportsOn serial more :=
  List.filter_append ..

/-- A message is about the order it carries. -/
theorem reportsOn_singleton (serial : ℕ) (message : OutgoingMessage) :
    reportsOn serial [message] = if message.order.serial = serial then [message] else [] := by
  simp [reportsOn, List.filter_singleton]

/-- Without messages about the order there is nothing to select. -/
theorem reportsOn_eq_nil {serial : ℕ} {messages : List OutgoingMessage}
    (h : ∀ message ∈ messages, message.order.serial ≠ serial) : reportsOn serial messages = [] :=
  List.filter_eq_nil_iff.mpr fun message hmessage => by simpa using h message hmessage

/-- The submitted orders, the reports and the resting orders fit together. -/
structure Tracks (orders : List Order) (reports : List OutgoingMessage) (resting : List Order) : Prop where
  distinct : (resting.map Order.serial).Nodup
  known : ∀ order ∈ resting, ∃ original ∈ orders, original.serial = order.serial
  reported : ∀ message ∈ reports, ∃ original ∈ orders, original.serial = message.order.serial
  lifecycle : ∀ original ∈ orders, ∃ state, Lifecycle original (reportsOn original.serial reports) state ∧
    ∀ order, (order ∈ resting ∧ order.serial = original.serial) ↔ state = some order

namespace Tracks

variable {orders resting others : List Order} {reports : List OutgoingMessage} {order : Order}

/-- Before anything was submitted there is nothing to track. -/
theorem nil : Tracks [] [] [] :=
  ⟨List.nodup_nil, by simp, by simp, by simp⟩

/-- The arrangement of the resting orders does not matter. -/
theorem perm (h : Tracks orders reports resting) (hperm : resting.Perm others) : Tracks orders reports others where
  distinct := (hperm.map _).nodup_iff.mp h.distinct
  known order horder := h.known order (hperm.mem_iff.mpr horder)
  reported := h.reported
  lifecycle original horiginal := by
    obtain ⟨state, hlife, hstate⟩ := h.lifecycle original horiginal
    refine ⟨state, hlife, fun order => ?_⟩
    rw [← hperm.mem_iff]
    exact hstate order

/-- Submit an order of a new call. -/
theorem submit (h : Tracks orders reports resting) (hnew : ∀ original ∈ orders, original.serial ≠ order.serial) :
    Tracks (orders ++ [order]) reports (order :: resting) := by
  have hrests : ∀ old ∈ resting, old.serial ≠ order.serial := by
    intro old hold heq
    obtain ⟨original, horiginal, hserial⟩ := h.known old hold
    exact hnew original horiginal (hserial.trans heq)
  refine ⟨?_, ?_, ?_, ?_⟩
  · rw [List.map_cons, List.nodup_cons]
    refine ⟨fun hmem => ?_, h.distinct⟩
    obtain ⟨old, hold, heq⟩ := List.mem_map.mp hmem
    exact hrests old hold heq
  · intro old hold
    rcases List.mem_cons.mp hold with rfl | hold
    · exact ⟨old, List.mem_append_right _ (List.mem_singleton_self _), rfl⟩
    · obtain ⟨original, horiginal, hserial⟩ := h.known old hold
      exact ⟨original, List.mem_append_left _ horiginal, hserial⟩
  · intro message hmessage
    obtain ⟨original, horiginal, hserial⟩ := h.reported message hmessage
    exact ⟨original, List.mem_append_left _ horiginal, hserial⟩
  · intro original horiginal
    rcases List.mem_append.mp horiginal with horiginal | horiginal
    · obtain ⟨state, hlife, hstate⟩ := h.lifecycle original horiginal
      refine ⟨state, hlife, fun other => ?_⟩
      rw [← hstate other, List.mem_cons]
      have hne := hnew original horiginal
      constructor
      · rintro ⟨rfl | hmem, hserial⟩
        · exact absurd hserial.symm hne
        · exact ⟨hmem, hserial⟩
      · exact fun ⟨hmem, hserial⟩ => ⟨Or.inr hmem, hserial⟩
    · obtain rfl := List.mem_singleton.mp horiginal
      have hnone : reportsOn original.serial reports = [] := by
        refine reportsOn_eq_nil fun message hmessage heq => ?_
        obtain ⟨earlier, hearlier, hserial⟩ := h.reported message hmessage
        exact hnew earlier hearlier (hserial.trans heq)
      refine ⟨some original, hnone ▸ .submitted, fun other => ?_⟩
      rw [List.mem_cons, Option.some.injEq]
      constructor
      · rintro ⟨rfl | hmem, hserial⟩
        · rfl
        · exact absurd hserial (hrests other hmem)
      · rintro rfl
        exact ⟨Or.inl rfl, rfl⟩

/-- Report a step in the life of a resting order, which leaves what is next of it. -/
theorem report (h : Tracks orders reports (order :: others)) (message : OutgoingMessage) (next : Option Order)
    (hmessage : message.order.serial = order.serial) (hnext : ∀ other, next = some other → other.serial = order.serial)
    (hlife : ∀ original messages, Lifecycle original messages (some order) →
      Lifecycle original (messages ++ [message]) next) :
    Tracks orders (reports ++ [message]) (next.toList ++ others) := by
  obtain ⟨hfirst, hothers⟩ := List.nodup_cons.mp (List.map_cons ▸ h.distinct)
  have hother : ∀ other ∈ others, other.serial ≠ order.serial :=
    fun other hmem heq => hfirst (heq ▸ List.mem_map_of_mem hmem)
  have hknown := h.known order (List.mem_cons_self ..)
  refine ⟨?_, ?_, ?_, ?_⟩
  · cases next with
    | none => exact hothers
    | some last =>
      rw [Option.toList_some, List.singleton_append, List.map_cons, hnext last rfl]
      exact List.nodup_cons.mpr ⟨hfirst, hothers⟩
  · intro other hmem
    rcases List.mem_append.mp hmem with hmem | hmem
    · rw [hnext other (Option.mem_toList.mp hmem)]
      exact hknown
    · exact h.known other (List.mem_cons_of_mem _ hmem)
  · intro m hm
    rcases List.mem_append.mp hm with hm | hm
    · exact h.reported m hm
    · rw [List.mem_singleton.mp hm, hmessage]
      exact hknown
  · intro original horiginal
    obtain ⟨state, hold, hstate⟩ := h.lifecycle original horiginal
    rw [reportsOn_append, reportsOn_singleton, hmessage]
    by_cases hserial : order.serial = original.serial
    · have hnow : state = some order := (hstate order).mp ⟨List.mem_cons_self .., hserial⟩
      subst hnow
      rw [if_pos hserial]
      refine ⟨next, hlife original _ hold, fun other => ?_⟩
      constructor
      · rintro ⟨hmem, heq⟩
        rcases List.mem_append.mp hmem with hmem | hmem
        · exact Option.mem_toList.mp hmem
        · exact absurd (heq.trans hserial.symm) (hother other hmem)
      · intro heq
        exact ⟨List.mem_append_left _ (Option.mem_toList.mpr heq), (hnext other heq).trans hserial⟩
    · rw [if_neg hserial, List.append_nil]
      refine ⟨state, hold, fun other => ?_⟩
      rw [← hstate other, List.mem_append, List.mem_cons]
      constructor
      · rintro ⟨hmem | hmem, heq⟩
        · exact absurd ((hnext other (Option.mem_toList.mp hmem)).symm.trans heq) hserial
        · exact ⟨Or.inr hmem, heq⟩
      · rintro ⟨rfl | hmem, heq⟩
        · exact absurd heq hserial
        · exact ⟨Or.inr hmem, heq⟩

/-- Report a fill of a resting order. -/
theorem fill (h : Tracks orders reports (order :: others)) (price : ℚ) (quantity : ℤ) :
    Tracks orders (reports ++ [OrderBook.fillMessage (order.execute price quantity)])
      ((if (order.execute price quantity).isFilled then [] else [order.execute price quantity]) ++ others) := by
  have hfill := h.report (OrderBook.fillMessage (order.execute price quantity))
    (if (order.execute price quantity).isFilled then none else some (order.execute price quantity)) rfl
    (fun other heq => by
      split at heq
      · cases heq
      · exact Option.some.inj heq ▸ rfl)
    (fun original messages hlife => hlife.fill price quantity)
  split at hfill <;> rename_i hfilled <;> simpa [hfilled] using hfill

/-- Report the cancel of a resting order. -/
theorem cancel (h : Tracks orders reports (order :: others)) :
    Tracks orders (reports ++ [⟨order.cancel, .canceled, "Order canceled"⟩]) others :=
  h.report _ none rfl (fun _ heq => by cases heq) fun _ _ hlife => hlife.canceled

end Tracks

namespace OrderBook

/-- All resting orders, bids first. -/
def resting (book : OrderBook) : List Order := book.bidOrders.values ++ book.askOrders.values

/-- The resting orders of a call. -/
def restingWith (book : OrderBook) (serial : ℕ) : List Order := book.resting.filter fun order => order.serial == serial

/-- An order rests in the book when it rests on one of the sides. -/
theorem mem_resting {book : OrderBook} {order : Order} :
    order ∈ book.resting ↔ ∃ side, order ∈ (book.orders side).values := by
  rw [resting, List.mem_append]
  constructor
  · rintro (h | h)
    · exact ⟨.buy, h⟩
    · exact ⟨.sell, h⟩
  · rintro ⟨side, h⟩
    cases side
    · exact Or.inl h
    · exact Or.inr h

/-- The resting orders are those of a side and of its opposite. -/
theorem resting_perm (book : OrderBook) (side : OrderSide) :
    book.resting.Perm ((book.orders side).values ++ (book.orders side.opposite).values) := by
  cases side
  · exact List.Perm.refl _
  · exact List.perm_append_comm

/-- Inserting an order adds it to the resting orders. -/
theorem resting_insert (book : OrderBook) (order : Order) : (book.insert order).resting.Perm (order :: book.resting) := by
  have hsame : ((book.insert order).orders order.side).values.Perm (order :: (book.orders order.side).values) := by
    rw [OrderBook.insert, setOrders_orders_same]
    exact ((book.orders order.side).insert_entries_perm order.price order).map Prod.snd
  have hother : (book.insert order).orders order.side.opposite = book.orders order.side.opposite := by
    rw [OrderBook.insert, setOrders_orders_opposite]
  refine (resting_perm _ order.side).trans ?_
  rw [hother]
  exact (hsame.append_right _).trans ((book.resting_perm order.side).symm.cons order)

/-- What is left of the top order is in front of the rest of its side. -/
theorem settleTop_values_append {side : OrderSide} {m : Multimap ℚ Order side.before} {top executed : Order}
    {rest : List Order} (h : m.values = top :: rest) :
    (settleTop m executed).values = (if executed.isFilled then [] else [executed]) ++ rest := by
  rw [settleTop_values h]
  split <;> rfl

/-- Erasing the first order that passes a test removes the order that the scan finds. -/
theorem values_perm_eraseFirst {side : OrderSide} {m : Multimap ℚ Order side.before} {test : Order → Bool}
    {target : Order} (h : m.values.find? test = some target) : m.values.Perm (target :: (m.eraseFirst test).values) := by
  obtain ⟨htest, ahead, behind, hvalues, hahead⟩ := List.find?_eq_some_iff_append.mp h
  rw [Multimap.eraseFirst_values, hvalues,
    List.eraseP_append_right _ (fun order horder => by simpa using hahead order horder),
    List.eraseP_cons_of_pos htest]
  exact List.perm_middle

end OrderBook

open OrderBook

/-- An account of a book relates the submitted orders, the reports and the resting orders, in any arrangement. It follows
the submission of an order, which has to be fresh, the match of a bid with an ask, and the cancel of an order. -/
structure Account (R : List Order → List OutgoingMessage → List Order → Prop) (Fresh : List Order → Order → Prop) :
    Prop where
  nil : R [] [] []
  perm {orders : List Order} {reports : List OutgoingMessage} {resting others : List Order} :
    R orders reports resting → resting.Perm others → R orders reports others
  submit {orders : List Order} {reports : List OutgoingMessage} {resting : List Order} {order : Order} :
    R orders reports resting → Fresh orders order → R (orders ++ [order]) reports (order :: resting)
  trade {orders : List Order} {reports : List OutgoingMessage} {others : List Order} {bid ask : Order} (quantity : ℤ) :
    R orders reports (bid :: ask :: others) → bid.side = .buy → ask.side = .sell → ask.price ≤ bid.price →
    quantity = min bid.openQuantity ask.openQuantity →
    R orders (reports ++ [fillMessage (bid.execute ask.price quantity), fillMessage (ask.execute ask.price quantity)])
      ((if (bid.execute ask.price quantity).isFilled then [] else [bid.execute ask.price quantity]) ++
        ((if (ask.execute ask.price quantity).isFilled then [] else [ask.execute ask.price quantity]) ++ others))
  cancel {orders : List Order} {reports : List OutgoingMessage} {others : List Order} {order : Order} :
    R orders reports (order :: others) → R orders (reports ++ [⟨order.cancel, .canceled, "Order canceled"⟩]) others

namespace Account

variable {R : List Order → List OutgoingMessage → List Order → Prop} {Fresh : List Order → Order → Prop}
  {orders : List Order} {tasks : List BookTask} {reports : List OutgoingMessage} {book : OrderBook}

/-- An account follows a pass of the matching loop. -/
theorem matchTops (h : Account R Fresh) {after : OrderBook} {bid ask : Order} (hbook : R orders reports book.resting)
    (hsided : book.Sided) (htops : book.matchTops = some (after, bid, ask)) :
    R orders (reports ++ [fillMessage bid, fillMessage ask]) after.resting := by
  obtain ⟨oldBid, oldAsk, hbid, hask, hcross, hpair, rfl⟩ := matchTops_eq_some_iff.mp htops
  obtain ⟨bids, hbids⟩ := (Multimap.front?_eq_some_iff _ _).mp hbid
  obtain ⟨asks, hasks⟩ := (Multimap.front?_eq_some_iff _ _).mp hask
  have hbidSide : oldBid.side = .buy := hsided .buy oldBid (hbids ▸ List.mem_cons_self ..)
  have haskSide : oldAsk.side = .sell := hsided .sell oldAsk (hasks ▸ List.mem_cons_self ..)
  rw [matchTwoOrders_eq, Prod.mk.injEq] at hpair
  obtain ⟨rfl, rfl⟩ := hpair
  rw [resting, hbids, hasks, List.cons_append] at hbook
  refine h.perm (h.trade _ (h.perm hbook (List.perm_middle.cons _)) hbidSide haskSide hcross rfl) ?_
  change List.Perm _ ((settleTop book.bidOrders _).values ++ (settleTop book.askOrders _).values)
  rw [settleTop_values_append hbids, settleTop_values_append hasks, List.append_assoc]
  exact (List.perm_append_comm_assoc ..).append_left _

/-- An account follows the matching loop. -/
theorem processMatching (h : Account R Fresh) (hbook : R orders reports book.resting) (hsided : book.Sided) :
    R orders (reports ++ book.processMatching.2.map fillMessage) book.processMatching.1.resting := by
  induction book using processMatching_induction generalizing reports with
  | stop book htops =>
    rw [processMatching_eq, htops]
    simpa using hbook
  | pass book after bid ask htops ih =>
    rw [processMatching_eq, htops]
    have hrest := ih (h.matchTops hbook hsided htops) (hsided.matchTops htops)
    rwa [List.append_assoc] at hrest

/-- An account follows a task whose order is fresh. -/
theorem execute (h : Account R Fresh) (hbook : R (newOrders tasks) reports book.resting) (hsided : book.Sided)
    (task : BookTask) (hfresh : ∀ order, task = .newOrder order → Fresh (newOrders tasks) order) :
    R (newOrders (tasks ++ [task])) (reports ++ (book.execute task).2) (book.execute task).1.resting := by
  rw [newOrders_append]
  cases task with
  | newOrder order =>
    have hsubmit := h.submit hbook (hfresh order rfl)
    exact h.processMatching (h.perm hsubmit (book.resting_insert order).symm) (hsided.insert order)
  | cancelOrder owner id side =>
    rw [newOrders_cancelOrder, newOrders_nil, List.append_nil, OrderBook.execute,
      taskCancelOrder_eq book _ _ side (hsided side)]
    cases htarget : (book.orders side).values.find? (·.hasClient owner id) with
    | none => simpa using hbook
    | some target =>
      have hperm := (book.resting_perm side).trans ((values_perm_eraseFirst htarget).append_right _)
      rw [List.cons_append] at hperm
      refine h.perm (h.cancel (h.perm hbook hperm)) (List.Perm.trans ?_ (resting_perm _ side).symm)
      simp only [Option.map_some, setOrders_orders_same, setOrders_orders_opposite, List.Perm.refl]

/-- An account follows the history of a book whose orders are fresh. -/
theorem executeAll (h : Account R Fresh)
    (hfresh : ∀ earlier order later, newOrders tasks = earlier ++ order :: later → Fresh earlier order) :
    R (newOrders tasks) (empty.executeAll tasks).2 (empty.executeAll tasks).1.resting := by
  induction tasks using List.reverseRecOn with
  | nil => exact h.nil
  | append_singleton tasks task ih =>
    rw [newOrders_append] at hfresh
    have hbook := ih fun earlier order later horders =>
      hfresh earlier order (later ++ newOrders [task]) (by rw [horders, List.append_assoc, List.cons_append])
    rw [executeAll_concat]
    refine h.execute hbook (originates_executeAll tasks).1 task fun order htask => ?_
    subst htask
    exact hfresh (newOrders tasks) order [] rfl

end Account

namespace Tracks

variable {orders others : List Order} {reports : List OutgoingMessage} {bid ask : Order}

/-- Report the fills of a bid and of an ask. -/
theorem trade (h : Tracks orders reports (bid :: ask :: others)) (price : ℚ) (quantity : ℤ) :
    Tracks orders (reports ++ [fillMessage (bid.execute price quantity), fillMessage (ask.execute price quantity)])
      ((if (bid.execute price quantity).isFilled then [] else [bid.execute price quantity]) ++
        ((if (ask.execute price quantity).isFilled then [] else [ask.execute price quantity]) ++ others)) := by
  have hbid := (h.fill price quantity).perm (List.perm_middle (a := ask))
  have hask := hbid.fill price quantity
  rw [List.append_assoc] at hask
  exact hask.perm (List.perm_append_comm_assoc ..)

/-- Tracking is an account for orders of new calls. -/
theorem account : Account Tracks fun orders order => ∀ original ∈ orders, original.serial ≠ order.serial where
  nil := nil
  perm := perm
  submit := submit
  trade quantity h _ _ _ _ := h.trade _ quantity
  cancel := cancel

/-- Over its history, a book and its reports track the submitted orders. -/
theorem executeAll {tasks : List BookTask} (hdistinct : ((newOrders tasks).map Order.serial).Nodup) :
    Tracks (newOrders tasks) (empty.executeAll tasks).2 (empty.executeAll tasks).1.resting := by
  refine account.executeAll fun earlier order later horders original horiginal => ?_
  rw [horders, List.map_append, List.map_cons, List.nodup_append] at hdistinct
  exact hdistinct.2.2 _ (List.mem_map_of_mem horiginal) _ (List.mem_cons_self ..)

end Tracks

end MatchingEngine
