import MatchingEngine.Foundation.Multimap
import MatchingEngine.Order

/-!
# The order book of one symbol

Two ordered multimaps, one for each side, and the functions of the order book on them.
A pointer into a map is the position of its element in iteration order, and references
into a map are modelled by writing the changed element back in place.

The matching loop has no bound in the source. Here it takes fuel and returns `none` when
the fuel runs out; the balance of the orders makes every pass remove at least one of
them, so one unit more than the size of the book is always enough.
-/

namespace MatchingEngine

/-- The resting orders: bids with the greatest price on top, asks with the lowest. -/
@[ext] structure OrderBook where
  bidOrders : Multimap ℚ Order OrderSide.buy.before
  askOrders : Multimap ℚ Order OrderSide.sell.before
deriving DecidableEq

namespace OrderBook

/-- The map of one side. -/
def orders (book : OrderBook) : (side : OrderSide) → Multimap ℚ Order side.before
  | .buy => book.bidOrders
  | .sell => book.askOrders

/-- Replace the map of one side. -/
def setOrders (book : OrderBook) : (side : OrderSide) → Multimap ℚ Order side.before → OrderBook
  | .buy, m => { book with bidOrders := m }
  | .sell, m => { book with askOrders := m }

/-- The book without orders. -/
def empty : OrderBook := ⟨.empty, .empty⟩

/-- The number of resting orders. -/
def size (book : OrderBook) : ℕ := book.bidOrders.size + book.askOrders.size

/-- Add an order to its side, under its price. -/
def insert (book : OrderBook) (order : Order) : OrderBook :=
  book.setOrders order.side ((book.orders order.side).insert order.price order)

/-- The position of the first order of the side with the given client ID and owner. -/
def find (book : OrderBook) (owner clientID : String) (side : OrderSide) : Option ℕ :=
  (book.orders side).values.findIdx? (·.hasClient owner clientID)

/-- Remove the first order of the side with the client ID and the owner of the given order. -/
def erase (book : OrderBook) (order : Order) : OrderBook :=
  book.setOrders order.side
    ((book.orders order.side).eraseFirst (·.hasClient order.owner order.clientOrderID))

/-- Trade the smaller of the two open quantities at the price of the ask. -/
def matchTwoOrders (bid ask : Order) : Order × Order :=
  let price := ask.price
  let quantity := if bid.openQuantity > ask.openQuantity then ask.openQuantity else bid.openQuantity
  (bid.execute price quantity, ask.execute price quantity)

/-- Write the executed top order of a side back, and remove it if it is filled. -/
def settleTop {side : OrderSide} (m : Multimap ℚ Order side.before) (executed : Order) :
    Multimap ℚ Order side.before :=
  let m := m.modifyAt 0 fun _ => executed
  if executed.isFilled then m.popFront else m

/-- One pass of the matching loop: the new book and the copies of the bid and the ask, or
`none` where the loop returns. -/
def matchTops (book : OrderBook) : Option (OrderBook × Order × Order) :=
  match book.bidOrders.front?, book.askOrders.front? with
  | some bid, some ask =>
    if bid.price ≥ ask.price then
      let (bid, ask) := matchTwoOrders bid ask
      some (⟨settleTop book.bidOrders bid, settleTop book.askOrders ask⟩, bid, ask)
    else none
  | _, _ => none

/-- The matching loop: `none` when the fuel runs out before the loop returns. -/
def matchingLoop : ℕ → OrderBook → List Order → Option (OrderBook × List Order)
  | 0, _, _ => none
  | fuel + 1, book, processedOrders =>
    match book.matchTops with
    | some (book, bid, ask) => matchingLoop fuel book (processedOrders ++ [bid, ask])
    | none => some (book, processedOrders)

/-- Match until one side is empty or the tops do not cross. -/
def processMatching (book : OrderBook) : OrderBook × List Order :=
  (matchingLoop (book.size + 1) book []).getD (book, [])

/-- The report on a processed order. -/
def fillMessage (order : Order) : OutgoingMessage :=
  ⟨order, if order.isFilled then .filled else .partiallyField, ""⟩

/-- The part of a new-order task that works on the book of its symbol, with its reports. -/
def taskNewOrder (book : OrderBook) (order : Order) : OrderBook × List OutgoingMessage :=
  let (book, processedOrders) := (book.insert order).processMatching
  (book, processedOrders.map fillMessage)

/-- The part of a cancel task that works on the book of its symbol: the found order is marked,
reported and erased; `none` means that no order was found. -/
def taskCancelOrder (book : OrderBook) (owner origClientOrderID : String) (side : OrderSide) :
    Option (OrderBook × OutgoingMessage) := do
  let position ← book.find owner origClientOrderID side
  let book := book.setOrders side ((book.orders side).modifyAt position Order.cancel)
  let orderBeingCanceled ← (book.orders side).values[position]?
  some (book.erase orderBeingCanceled, ⟨orderBeingCanceled, .canceled, "Order canceled"⟩)

@[simp] theorem setOrders_orders_same (book : OrderBook) (side : OrderSide) (m : Multimap ℚ Order side.before) :
    (book.setOrders side m).orders side = m := by
  cases side <;> rfl

@[simp] theorem setOrders_orders_opposite (book : OrderBook) (side : OrderSide)
    (m : Multimap ℚ Order side.before) :
    (book.setOrders side m).orders side.opposite = book.orders side.opposite := by
  cases side <;> rfl

/-- Replacing the opposite side keeps a side. -/
@[simp] theorem setOrders_opposite_orders (book : OrderBook) (side : OrderSide)
    (m : Multimap ℚ Order side.opposite.before) :
    (book.setOrders side.opposite m).orders side = book.orders side := by
  cases side <;> rfl

/-- The size counts a side and its opposite. -/
theorem size_eq (book : OrderBook) (side : OrderSide) :
    book.size = (book.orders side).values.length + (book.orders side.opposite).values.length := by
  cases side <;> simp only [size, orders, OrderSide.opposite, Multimap.values_length]
  exact Nat.add_comm _ _

@[simp] theorem empty_orders_values (side : OrderSide) : (empty.orders side).values = [] := by
  cases side <;> rfl

/-- Settling the top order replaces it, or drops it when it is filled. -/
theorem settleTop_values {side : OrderSide} {m : Multimap ℚ Order side.before} {top executed : Order}
    {rest : List Order} (h : m.values = top :: rest) :
    (settleTop m executed).values = if executed.isFilled then rest else executed :: rest := by
  unfold settleTop
  split <;> simp [h]

/-- Settling keeps at most the old keys, with the identities of the old orders. -/
theorem settleTop_identities {side : OrderSide} {m : Multimap ℚ Order side.before} {top executed : Order}
    (h : m.front? = some top) (hidentity : executed.identity = top.identity) :
    ((settleTop m executed).entries.map (Prod.map id Order.identity)).Sublist
      (m.entries.map (Prod.map id Order.identity)) := by
  obtain ⟨rest, hrest⟩ := (Multimap.front?_eq_some_iff _ _).mp h
  cases hentries : m.entries with
  | nil => simp [Multimap.values, hentries] at hrest
  | cons entry entries =>
    have htop : entry.2 = top := by
      simp only [Multimap.values, hentries, List.map_cons, List.cons.injEq] at hrest
      exact hrest.1
    unfold settleTop
    split <;>
      simp [Multimap.popFront, Multimap.modifyAt, hentries, Prod.map, hidentity, htop]

/-- Erasing an order of a known side works on that side. -/
theorem erase_eq (book : OrderBook) {order : Order} {side : OrderSide} (h : order.side = side) :
    book.erase order =
      book.setOrders side ((book.orders side).eraseFirst (·.hasClient order.owner order.clientOrderID)) := by
  subst h
  rfl

/-- Inserting an order of a known side works on that side. -/
theorem insert_eq (book : OrderBook) {order : Order} {side : OrderSide} (h : order.side = side) :
    book.insert order = book.setOrders side ((book.orders side).insert order.price order) := by
  subst h
  rfl

/-- A side is the side of an order or the opposite one. -/
theorem eq_or_eq_opposite (side other : OrderSide) : side = other ∨ side = other.opposite := by
  cases side <;> cases other <;> simp [OrderSide.opposite]

/-- After an insertion, the new order rests besides the old ones. -/
theorem mem_insert_orders (book : OrderBook) (order other : Order) (side : OrderSide) :
    other ∈ ((book.insert order).orders side).values ↔
      (other = order ∧ order.side = side) ∨ other ∈ (book.orders side).values := by
  rcases eq_or_eq_opposite side order.side with rfl | rfl
  · rw [OrderBook.insert, setOrders_orders_same, Multimap.mem_insert_values]
    simp
  · rw [OrderBook.insert, setOrders_orders_opposite]
    have hne : order.side ≠ order.side.opposite := by cases order.side <;> simp [OrderSide.opposite]
    simp [hne]

/-- A cancel task reports and removes the first order of the side that passes the scan: `find`
and `erase` agree, although they take owner, ID and side from different objects. -/
theorem taskCancelOrder_eq (book : OrderBook) (owner origClientOrderID : String) (side : OrderSide)
    (hsided : ∀ order ∈ (book.orders side).values, order.side = side) :
    book.taskCancelOrder owner origClientOrderID side =
      ((book.orders side).values.find? (·.hasClient owner origClientOrderID)).map fun target =>
        (book.setOrders side ((book.orders side).eraseFirst (·.hasClient owner origClientOrderID)),
          ⟨target.cancel, .canceled, "Order canceled"⟩) := by
  unfold taskCancelOrder find
  cases hposition : (book.orders side).values.findIdx? (·.hasClient owner origClientOrderID) with
  | none =>
    have hnone : (book.orders side).values.find? (·.hasClient owner origClientOrderID) = none := by
      rw [List.find?_eq_none]
      simpa [List.findIdx?_eq_none_iff] using hposition
    rw [hnone]
    rfl
  | some position =>
    have hsome : ((book.orders side).values.find? (·.hasClient owner origClientOrderID)).isSome := by
      rw [List.find?_isSome]
      obtain ⟨hlt, htest, _⟩ := List.findIdx?_eq_some_iff_getElem.mp hposition
      exact ⟨_, List.getElem_mem hlt, htest⟩
    obtain ⟨target, htarget⟩ := Option.isSome_iff_exists.mp hsome
    have hclient := List.find?_some htarget
    obtain ⟨hid, howner⟩ := (target.hasClient_iff owner origClientOrderID).mp hclient
    have hside : target.cancel.side = side := hsided target (List.mem_of_find?_eq_some htarget)
    have hread := (book.orders side).modifyAt_values_getElem? (·.hasClient owner origClientOrderID)
      Order.cancel hposition
    rw [htarget, Option.map_some] at hread
    have hcancel : target.cancel.owner = owner ∧ target.cancel.clientOrderID = origClientOrderID := ⟨howner, hid⟩
    rw [htarget, Option.map_some]
    simp only [Option.bind_eq_bind, Option.bind_some, setOrders_orders_same, hread]
    rw [erase_eq _ hside, hcancel.1, hcancel.2, setOrders_orders_same,
      Multimap.eraseFirst_modifyAt _ _ _ (fun order => order.cancel_hasClient owner origClientOrderID) hposition]
    cases side <;> rfl

/-- The traded quantity is the smaller of the two open quantities. -/
theorem matchTwoOrders_eq (bid ask : Order) :
    matchTwoOrders bid ask =
      (bid.execute ask.price (min bid.openQuantity ask.openQuantity),
        ask.execute ask.price (min bid.openQuantity ask.openQuantity)) := by
  have hquantity : (if bid.openQuantity > ask.openQuantity then ask.openQuantity else bid.openQuantity) =
      min bid.openQuantity ask.openQuantity := by
    split <;> omega
  simp only [matchTwoOrders, hquantity]

/-- A pass of the loop happens exactly when both sides have a top order and the tops cross. -/
theorem matchTops_eq_some_iff {book after : OrderBook} {bid' ask' : Order} :
    book.matchTops = some (after, bid', ask') ↔
      ∃ bid ask, book.bidOrders.front? = some bid ∧ book.askOrders.front? = some ask ∧
        ask.price ≤ bid.price ∧ matchTwoOrders bid ask = (bid', ask') ∧
        after = ⟨settleTop book.bidOrders bid', settleTop book.askOrders ask'⟩ := by
  unfold matchTops
  cases hbid : book.bidOrders.front? with
  | none => simp
  | some bid =>
    cases hask : book.askOrders.front? with
    | none => simp
    | some ask =>
      by_cases hcross : ask.price ≤ bid.price
      · cases hpair : matchTwoOrders bid ask
        simp only [ge_iff_le, hcross, if_true, hpair, Option.some.injEq, Prod.mk.injEq]
        constructor
        · rintro ⟨rfl, rfl, rfl⟩
          exact ⟨bid, ask, rfl, rfl, hcross, hpair, rfl⟩
        · rintro ⟨_, _, rfl, rfl, _, hpair', rfl⟩
          rw [hpair] at hpair'
          cases hpair'
          exact ⟨rfl, rfl, rfl⟩
      · simp only [ge_iff_le, hcross, if_false, reduceCtorEq, false_iff]
        rintro ⟨_, _, hb, ha, hcross', _⟩
        cases hb
        cases ha
        exact hcross hcross'

/-- The loop returns exactly when one side is empty or the tops do not cross. -/
theorem matchTops_eq_none_iff (book : OrderBook) :
    book.matchTops = none ↔ ∀ bid ask, book.bidOrders.front? = some bid →
      book.askOrders.front? = some ask → bid.price < ask.price := by
  constructor
  · intro hnone bid ask hbid hask
    by_contra hcross
    have hsome := matchTops_eq_some_iff.mpr
      ⟨bid, ask, hbid, hask, not_lt.mp hcross, rfl, rfl⟩
    rw [hnone] at hsome
    contradiction
  · intro h
    cases htops : book.matchTops with
    | none => rfl
    | some result =>
      obtain ⟨after, bid', ask'⟩ := result
      obtain ⟨bid, ask, hbid, hask, hcross, _⟩ := matchTops_eq_some_iff.mp htops
      exact absurd (h bid ask hbid hask) (not_lt.mpr hcross)

/-- Every pass removes an order: the one with the smaller open quantity is filled by it. -/
theorem matchTops_size_lt {book after : OrderBook} {bid' ask' : Order}
    (h : book.matchTops = some (after, bid', ask')) : after.size < book.size := by
  obtain ⟨bid, ask, hbid, hask, _, hpair, rfl⟩ := matchTops_eq_some_iff.mp h
  obtain ⟨bids, hbids⟩ := (Multimap.front?_eq_some_iff _ _).mp hbid
  obtain ⟨asks, hasks⟩ := (Multimap.front?_eq_some_iff _ _).mp hask
  rw [matchTwoOrders_eq, Prod.mk.injEq] at hpair
  obtain ⟨rfl, rfl⟩ := hpair
  rw [size_eq _ .buy, size_eq _ .buy]
  change (settleTop book.bidOrders _).values.length + (settleTop book.askOrders _).values.length <
    book.bidOrders.values.length + book.askOrders.values.length
  rw [settleTop_values hbids, settleTop_values hasks, hbids, hasks]
  simp only [Order.execute_isFilled_iff]
  have hsmaller : min bid.openQuantity ask.openQuantity = bid.openQuantity ∨
      min bid.openQuantity ask.openQuantity = ask.openQuantity := by omega
  rcases hsmaller with hmin | hmin <;> rw [if_pos hmin] <;> split <;> simp <;> omega

/-- Enough fuel for the size of the book lets the loop return. -/
theorem matchingLoop_isSome {fuel : ℕ} {book : OrderBook} (h : book.size < fuel) (processed : List Order) :
    (matchingLoop fuel book processed).isSome = true := by
  induction fuel generalizing book processed with
  | zero => omega
  | succ fuel ih =>
    unfold matchingLoop
    cases htops : book.matchTops with
    | none => rfl
    | some result =>
      obtain ⟨after, bid', ask'⟩ := result
      have hsize := matchTops_size_lt htops
      exact ih (by omega) _

/-- More fuel does not change what the loop returns. -/
theorem matchingLoop_mono {fuel more : ℕ} {book : OrderBook} {processed : List Order}
    {result : OrderBook × List Order} (h : matchingLoop fuel book processed = some result) (hle : fuel ≤ more) :
    matchingLoop more book processed = some result := by
  induction fuel generalizing more book processed with
  | zero => simp [matchingLoop] at h
  | succ fuel ih =>
    obtain ⟨more, rfl⟩ : ∃ k, more = k + 1 := ⟨more - 1, by omega⟩
    unfold matchingLoop at h ⊢
    cases htops : book.matchTops with
    | none => simpa only [htops] using h
    | some pass =>
      obtain ⟨after, bid', ask'⟩ := pass
      simp only [htops] at h ⊢
      exact ih h (by omega)

/-- The processed orders so far are only extended by the loop. -/
theorem matchingLoop_processed (fuel : ℕ) (book : OrderBook) (processed : List Order) :
    matchingLoop fuel book processed =
      (matchingLoop fuel book []).map fun result => (result.1, processed ++ result.2) := by
  induction fuel generalizing book processed with
  | zero => rfl
  | succ fuel ih =>
    unfold matchingLoop
    cases book.matchTops with
    | none => simp
    | some pass =>
      obtain ⟨after, bid', ask'⟩ := pass
      simp only [List.nil_append]
      rw [ih after (processed ++ [bid', ask']), ih after [bid', ask'], Option.map_map]
      simp only [Function.comp_def, List.append_assoc]

/-- The result of matching is what the loop returns with any sufficient fuel. -/
theorem matchingLoop_eq_processMatching {fuel : ℕ} {book : OrderBook} (h : book.size < fuel) :
    matchingLoop fuel book [] = some book.processMatching := by
  obtain ⟨result, hresult⟩ := Option.isSome_iff_exists.mp (matchingLoop_isSome (Nat.lt_succ_self book.size) [])
  have hprocess : book.processMatching = result := by rw [processMatching, hresult]; rfl
  rw [hprocess]
  exact matchingLoop_mono hresult h

/-- The loop of the source, one pass unrolled. -/
theorem processMatching_eq (book : OrderBook) :
    book.processMatching =
      match book.matchTops with
      | some (after, bid, ask) => (after.processMatching.1, bid :: ask :: after.processMatching.2)
      | none => (book, []) := by
  have hloop := matchingLoop_eq_processMatching (Nat.lt_succ_self book.size)
  unfold matchingLoop at hloop
  cases htops : book.matchTops with
  | none =>
    simp only [htops, Option.some.injEq] at hloop
    exact hloop.symm
  | some pass =>
    obtain ⟨after, bid', ask'⟩ := pass
    have hsize := matchTops_size_lt htops
    simp only [htops, List.nil_append] at hloop
    rw [matchingLoop_processed, matchingLoop_eq_processMatching hsize] at hloop
    simp only [Option.map_some, Option.some.injEq] at hloop
    exact hloop.symm

/-- Induction along the passes of the matching loop. -/
theorem processMatching_induction {motive : OrderBook → Prop}
    (stop : ∀ book, book.matchTops = none → motive book)
    (pass : ∀ book after bid ask, book.matchTops = some (after, bid, ask) → motive after → motive book)
    (book : OrderBook) : motive book := by
  generalize hn : book.size = n
  induction n using Nat.strong_induction_on generalizing book with
  | h n ih =>
    cases htops : book.matchTops with
    | none => exact stop book htops
    | some result =>
      obtain ⟨after, bid', ask'⟩ := result
      have hsize := matchTops_size_lt htops
      exact pass book after bid' ask' htops (ih after.size (hn ▸ hsize) after rfl)

end OrderBook

end MatchingEngine
