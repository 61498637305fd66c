import Mathlib.Data.Rat.Defs
import Mathlib.Algebra.Order.Ring.Rat
import Mathlib.Tactic.Linarith

/-!
# Orders and messages

An order consists of the terms its client gave, which never change, and of the record of
its executions. Quantities are exact integers and prices exact rationals. Every order
carries the balance of its quantities: only the constructor and `execute` write them, and
both keep the open and the executed quantity summing to the total.

The average price is `none` once a division by zero has made the double infinite or
undefined, from which no later update recovers. The serial number is bookkeeping of the
verification: it names the call that submitted the order, and no function of the engine
reads it.
-/

namespace MatchingEngine

/-- The two sides of a book. -/
inductive OrderSide
  | buy
  | sell
deriving DecidableEq, Repr

/-- The supported order types. -/
inductive OrderType
  | limit
deriving DecidableEq, Repr

/-- What the client gives: the arguments of the constructor of an order. -/
structure OrderTerms where
  clientOrderID : String
  symbol : String
  owner : String
  target : String
  side : OrderSide
  orderType : OrderType
  price : ℚ
  quantity : ℤ
deriving DecidableEq, Repr

/-- An order and the record of its executions. -/
structure Order extends OrderTerms where
  openQuantity : ℤ
  executedQuantity : ℤ
  cancelled : Bool
  averageExecutedPrice : Option ℚ
  lastExecutedPrice : ℚ
  lastExecutedQuantity : ℤ
  serial : ℕ
  balance : openQuantity + executedQuantity = quantity
deriving DecidableEq

namespace Order

/-- The constructor: nothing is executed and the whole quantity is open. -/
def ofTerms (terms : OrderTerms) (serial : ℕ) : Order where
  toOrderTerms := terms
  openQuantity := terms.quantity
  executedQuantity := 0
  cancelled := false
  averageExecutedPrice := some 0
  lastExecutedPrice := 0
  lastExecutedQuantity := 0
  serial := serial
  balance := add_zero _

/-- Record an execution. The average is un-averaged with the old executed quantity first. It is exact here, where the program
rounds to a `double`, and undefined after a division by zero. -/
def execute (order : Order) (price : ℚ) (quantity : ℤ) : Order where
  toOrderTerms := order.toOrderTerms
  openQuantity := order.openQuantity - quantity
  executedQuantity := order.executedQuantity + quantity
  cancelled := order.cancelled
  averageExecutedPrice := order.averageExecutedPrice.bind fun average =>
    if quantity + order.executedQuantity = 0 then none
    else some ((average * order.executedQuantity + price * quantity) / (quantity + order.executedQuantity : ℤ))
  lastExecutedPrice := price
  lastExecutedQuantity := quantity
  serial := order.serial
  balance := by
    have := order.balance
    omega

/-- Mark an order as cancelled. -/
def cancel (order : Order) : Order := { order with cancelled := true }

/-- An order is filled when its whole quantity is executed. -/
def isFilled (order : Order) : Bool := order.executedQuantity == order.quantity

/-- Whether the client order ID and the owner are the given ones, as the linear scans compare them. -/
def hasClient (order : Order) (owner clientID : String) : Bool :=
  order.clientOrderID == clientID && order.owner == owner

/-- What never changes while an order rests: its terms, its call and its mark. -/
def identity (order : Order) : OrderTerms × ℕ × Bool := (order.toOrderTerms, order.serial, order.cancelled)

variable (order : Order) (price : ℚ) (quantity : ℤ)

@[simp] theorem ofTerms_toOrderTerms (terms : OrderTerms) (serial : ℕ) :
    (ofTerms terms serial).toOrderTerms = terms := rfl

@[simp] theorem ofTerms_serial (terms : OrderTerms) (serial : ℕ) : (ofTerms terms serial).serial = serial := rfl

@[simp] theorem ofTerms_openQuantity (terms : OrderTerms) (serial : ℕ) :
    (ofTerms terms serial).openQuantity = terms.quantity := rfl

@[simp] theorem ofTerms_executedQuantity (terms : OrderTerms) (serial : ℕ) :
    (ofTerms terms serial).executedQuantity = 0 := rfl

@[simp] theorem ofTerms_cancelled (terms : OrderTerms) (serial : ℕ) :
    (ofTerms terms serial).cancelled = false := rfl

@[simp] theorem execute_toOrderTerms : (order.execute price quantity).toOrderTerms = order.toOrderTerms := rfl

@[simp] theorem execute_serial : (order.execute price quantity).serial = order.serial := rfl

@[simp] theorem execute_cancelled : (order.execute price quantity).cancelled = order.cancelled := rfl

@[simp] theorem execute_openQuantity :
    (order.execute price quantity).openQuantity = order.openQuantity - quantity := rfl

@[simp] theorem execute_executedQuantity :
    (order.execute price quantity).executedQuantity = order.executedQuantity + quantity := rfl

@[simp] theorem execute_lastExecutedQuantity :
    (order.execute price quantity).lastExecutedQuantity = quantity := rfl

@[simp] theorem execute_lastExecutedPrice : (order.execute price quantity).lastExecutedPrice = price := rfl

@[simp] theorem execute_identity : (order.execute price quantity).identity = order.identity := rfl

@[simp] theorem cancel_toOrderTerms : order.cancel.toOrderTerms = order.toOrderTerms := rfl

@[simp] theorem cancel_serial : order.cancel.serial = order.serial := rfl

@[simp] theorem cancel_openQuantity : order.cancel.openQuantity = order.openQuantity := rfl

@[simp] theorem cancel_executedQuantity : order.cancel.executedQuantity = order.executedQuantity := rfl

/-- An order is filled exactly when nothing of it is open. -/
theorem isFilled_iff : order.isFilled = true ↔ order.openQuantity = 0 := by
  have := order.balance
  simp only [isFilled, beq_iff_eq]
  omega

/-- An execution fills an order exactly when it takes the whole open quantity. -/
theorem execute_isFilled_iff :
    (order.execute price quantity).isFilled = true ↔ quantity = order.openQuantity := by
  rw [isFilled_iff, execute_openQuantity, sub_eq_zero, eq_comm]

/-- The test of the scans compares the owner and the client order ID. -/
theorem hasClient_iff (owner clientID : String) :
    order.hasClient owner clientID = true ↔ order.clientOrderID = clientID ∧ order.owner = owner := by
  simp [hasClient]

/-- Executions never change whose order it is. -/
@[simp] theorem execute_hasClient (owner clientID : String) :
    (order.execute price quantity).hasClient owner clientID = order.hasClient owner clientID := rfl

@[simp] theorem cancel_hasClient (owner clientID : String) :
    order.cancel.hasClient owner clientID = order.hasClient owner clientID := rfl

end Order

namespace OrderSide

/-- The other side. -/
def opposite : OrderSide → OrderSide
  | buy => sell
  | sell => buy

@[simp] theorem opposite_opposite (side : OrderSide) : side.opposite.opposite = side := by
  cases side <;> rfl

/-- The comparator of a side: the highest bid and the lowest ask come first. -/
def before : OrderSide → ℚ → ℚ → Prop
  | buy, p, q => p > q
  | sell, p, q => p < q

instance (side : OrderSide) : DecidableRel side.before := fun p q => by
  cases side
  · exact inferInstanceAs (Decidable (p > q))
  · exact inferInstanceAs (Decidable (p < q))

instance (side : OrderSide) : IsStrictWeakOrder ℚ side.before where
  irrefl p := by cases side <;> exact lt_irrefl p
  trans p q r := by
    cases side
    · exact fun h h' => lt_trans h' h
    · exact fun h h' => lt_trans h h'
  incomp_trans p q r := by
    cases side <;> simp only [before, not_lt, gt_iff_lt] <;>
      exact fun ⟨h, h'⟩ ⟨k, k'⟩ => ⟨by linarith, by linarith⟩

end OrderSide

/-- The kinds of requests handed to the dispatcher. -/
inductive IncomingMessageType
  | newOrder
  | cancelOrder
deriving DecidableEq, Repr

/-- A client request; the original order ID only applies to cancel requests. -/
structure IncomingMessage where
  order : Order
  origClientOrderID : String
  type : IncomingMessageType
deriving DecidableEq

/-- The kinds of reports sent to clients. -/
inductive OutgoingMessageType
  | accepted
  | filled
  | partiallyField
  | canceled
  | rejected
deriving DecidableEq, Repr

/-- A report carries a copy of the order taken when the report was made. -/
structure OutgoingMessage where
  order : Order
  type : OutgoingMessageType
  message : String
deriving DecidableEq

end MatchingEngine
