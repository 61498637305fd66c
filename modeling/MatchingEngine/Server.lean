import MatchingEngine.Pipeline
import Mathlib.Data.Rat.Floor

/-!
# The FIX message handlers

The handlers read the fields of a message, convert its side and order type, and push a
request to the dispatcher. A handler is a computation that records the calls it makes and
may throw; calls made before an exception stay made.

The converters throw `std::invalid_argument`, a logic error, and the handler of new orders
catches runtime errors. What leaves `fromApp` outside of its dynamic exception
specification terminates the process, so that a message is handled exactly when its
conversions succeed.
-/

namespace MatchingEngine

namespace FIX

/-- The exceptions that can leave a handler; only the last one is a `std::runtime_error`. -/
inductive Exception
  | fieldNotFound (field : ℕ)
  | incorrectDataFormat (field : ℕ)
  | incorrectTagValue (field : ℕ)
  | unsupportedMessageType
  | invalidArgument (what : String)
  | runtimeError (what : String)
deriving DecidableEq

/-- A new-order message as the getters read it; fields may be missing. The numbers are the doubles that the getters
return. -/
structure NewOrderSingle where
  senderCompID : Option String
  targetCompID : Option String
  clOrdID : Option String
  symbol : Option String
  side : Option Char
  ordType : Option Char
  orderQty : Option ℚ
  price : Option ℚ

/-- A cancel message; fields may be missing. -/
structure OrderCancelRequest where
  senderCompID : Option String
  origClOrdID : Option String
  clOrdID : Option String
  symbol : Option String
  side : Option Char

/-- A message as it is given to `crack`. -/
inductive Message
  | newOrderSingle (message : NewOrderSingle)
  | orderCancelRequest (message : OrderCancelRequest)
  | other

end FIX

/-- A call that a handler makes to the rest of the server. -/
inductive ServerCall
  | rejectOrder (order : OrderTerms) (message : String)
  | pushMessage (request : Request)
deriving DecidableEq

namespace Server

open FIX

/-- A computation of a handler. -/
abbrev Handler := ExceptT Exception (StateM (List ServerCall))

/-- Make a call. -/
def call (c : ServerCall) : Handler Unit := modify fun calls => calls ++ [c]

/-- Read a field of the message. -/
def get {α : Type} (value : Option α) (field : ℕ) : Handler α :=
  match value with
  | some value => pure value
  | none => throw (.fieldNotFound field)

/-- Convert an order type. -/
def convertOrderTypeFromQuickFix (ordType : Char) : Handler OrderType :=
  match ordType with
  | '2' => pure .limit
  | _ => throw (.invalidArgument "Unsupported Order Type, use limit")

/-- Convert a side. -/
def convertOrderSideFromQuickFix (side : Char) : Handler OrderSide :=
  match side with
  | '1' => pure .buy
  | '2' => pure .sell
  | _ => throw (.invalidArgument "Unsupported Side, use buy or sell")

/-- The conversion of a floating-point number to `long` truncates; out of range it is undefined. -/
def toLong (undefined : ℚ → ℤ) (value : ℚ) : ℤ :=
  let truncated := value.num.tdiv value.den
  if -2 ^ 63 ≤ truncated ∧ truncated < 2 ^ 63 then truncated else undefined value

/-- The handler of new orders. -/
def onNewOrderSingle (undefined : ℚ → ℤ) (message : NewOrderSingle) : Handler Unit := do
  let senderCompID ← get message.senderCompID 49
  let targetCompID ← get message.targetCompID 56
  let clOrdID ← get message.clOrdID 11
  let symbol ← get message.symbol 55
  let side ← get message.side 54
  let ordType ← get message.ordType 40
  let orderQty ← get message.orderQty 38
  try
    let _ ← convertOrderTypeFromQuickFix ordType
    let _ ← convertOrderSideFromQuickFix side
  catch
    | .runtimeError what =>
      call (.rejectOrder ⟨clOrdID, symbol, senderCompID, targetCompID, .buy, .limit, 0, 0⟩ what)
    | e => throw e
  let price ← get message.price 44
  let side ← convertOrderSideFromQuickFix side
  let orderType ← convertOrderTypeFromQuickFix ordType
  call (.pushMessage ⟨⟨clOrdID, symbol, senderCompID, targetCompID, side, orderType, price, toLong undefined orderQty⟩,
    "", .newOrder⟩)

/-- The handler of cancels. -/
def onOrderCancelRequest (message : OrderCancelRequest) : Handler Unit := do
  let senderCompID ← get message.senderCompID 49
  let origClOrdID ← get message.origClOrdID 41
  let _ ← get message.clOrdID 11
  let symbol ← get message.symbol 55
  let side ← get message.side 54
  let side ← convertOrderSideFromQuickFix side
  call (.pushMessage ⟨⟨"", symbol, senderCompID, "", side, .limit, 0, 0⟩, origClOrdID, .cancelOrder⟩)

/-- Call the handler for the type of the message. -/
def crack (undefined : ℚ → ℤ) : Message → Handler Unit
  | .newOrderSingle message => onNewOrderSingle undefined message
  | .orderCancelRequest message => onOrderCancelRequest message
  | .other => throw .unsupportedMessageType

/-- The exceptions in the dynamic exception specification of `fromApp`. -/
def declared : Exception → Bool
  | .fieldNotFound _ | .incorrectDataFormat _ | .incorrectTagValue _ | .unsupportedMessageType => true
  | .invalidArgument _ | .runtimeError _ => false

/-- How a call of `fromApp` ends. -/
inductive Outcome
  | returned
  | threw (exception : Exception)
  | terminated
deriving DecidableEq

/-- Handle a message: how the call ends, and the calls made. -/
def fromApp (undefined : ℚ → ℤ) (message : Message) : Outcome × List ServerCall :=
  match (crack undefined message).run.run [] with
  | (.ok _, calls) => (.returned, calls)
  | (.error exception, calls) => (if declared exception then .threw exception else .terminated, calls)

/-- The fields of a new-order message. -/
structure OrderFields where
  senderCompID : String
  targetCompID : String
  clOrdID : String
  symbol : String
  side : Char
  ordType : Char
  orderQty : ℚ
  price : ℚ

/-- The message with all the fields. -/
def OrderFields.message (fields : OrderFields) : Message :=
  .newOrderSingle ⟨fields.senderCompID, fields.targetCompID, fields.clOrdID, fields.symbol, fields.side, fields.ordType,
    fields.orderQty, fields.price⟩

/-- The fields of a cancel message. -/
structure CancelFields where
  senderCompID : String
  origClOrdID : String
  clOrdID : String
  symbol : String
  side : Char

/-- The message with all the fields. -/
def CancelFields.message (fields : CancelFields) : Message :=
  .orderCancelRequest ⟨fields.senderCompID, fields.origClOrdID, fields.clOrdID, fields.symbol, fields.side⟩

/-- The side that a character stands for. -/
def sideOf : Char → Option OrderSide
  | '1' => some .buy
  | '2' => some .sell
  | _ => none

/-- The request of a new-order message. -/
def OrderFields.request (fields : OrderFields) (undefined : ℚ → ℤ) (side : OrderSide) : Request :=
  ⟨⟨fields.clOrdID, fields.symbol, fields.senderCompID, fields.targetCompID, side, .limit, fields.price,
    toLong undefined fields.orderQty⟩, "", .newOrder⟩

/-- The request of a cancel message. -/
def CancelFields.request (fields : CancelFields) (side : OrderSide) : Request :=
  ⟨⟨"", fields.symbol, fields.senderCompID, "", side, .limit, 0, 0⟩, fields.origClOrdID, .cancelOrder⟩

/-- A side that stands for none does not convert. -/
theorem convertOrderSideFromQuickFix_of_none {side : Char} (h : sideOf side = none) :
    convertOrderSideFromQuickFix side = throw (.invalidArgument "Unsupported Side, use buy or sell") := by
  unfold sideOf at h
  unfold convertOrderSideFromQuickFix
  split at h
  · cases h
  · cases h
  · rfl

/-- A side that stands for one converts to it. -/
theorem convertOrderSideFromQuickFix_of_some {side : Char} {converted : OrderSide} (h : sideOf side = some converted) :
    convertOrderSideFromQuickFix side = pure converted := by
  unfold sideOf at h
  split at h
  · rw [← Option.some.inj h]
    rfl
  · rw [← Option.some.inj h]
    rfl
  · cases h

/-- An order type other than limit does not convert. -/
theorem convertOrderTypeFromQuickFix_of_ne {ordType : Char} (h : ordType ≠ '2') :
    convertOrderTypeFromQuickFix ordType = throw (.invalidArgument "Unsupported Order Type, use limit") := by
  unfold convertOrderTypeFromQuickFix
  split
  · contradiction
  · rfl

variable (undefined : ℚ → ℤ)

/-- Reading a field that is there. -/
@[simp] theorem get_some {α : Type} (value : α) (field : ℕ) : get (some value) field = pure value := rfl

/-- A new-order message with a side and the limit type is pushed. -/
theorem fromApp_order_of_some (fields : OrderFields) {side : OrderSide} (hside : sideOf fields.side = some side)
    (htype : fields.ordType = '2') :
    fromApp undefined fields.message = (.returned, [.pushMessage (fields.request undefined side)]) := by
  simp only [fromApp, OrderFields.message, crack, onNewOrderSingle, get_some, pure_bind,
    convertOrderSideFromQuickFix_of_some hside, htype]
  rfl

/-- A new-order message of another type ends the process: its exception is neither caught nor declared. -/
theorem fromApp_order_of_ne (fields : OrderFields) (htype : fields.ordType ≠ '2') :
    fromApp undefined fields.message = (.terminated, []) := by
  simp only [fromApp, OrderFields.message, crack, onNewOrderSingle, get_some, pure_bind,
    convertOrderTypeFromQuickFix_of_ne htype]
  rfl

/-- A new-order message without a side ends the process. -/
theorem fromApp_order_of_none (fields : OrderFields) (hside : sideOf fields.side = none) (htype : fields.ordType = '2') :
    fromApp undefined fields.message = (.terminated, []) := by
  simp only [fromApp, OrderFields.message, crack, onNewOrderSingle, get_some, pure_bind,
    convertOrderSideFromQuickFix_of_none hside, htype]
  rfl

/-- A cancel message with a side is pushed. -/
theorem fromApp_cancel_of_some (fields : CancelFields) {side : OrderSide} (hside : sideOf fields.side = some side) :
    fromApp undefined fields.message = (.returned, [.pushMessage (fields.request side)]) := by
  simp only [fromApp, CancelFields.message, crack, onOrderCancelRequest, get_some, pure_bind,
    convertOrderSideFromQuickFix_of_some hside]
  rfl

/-- A cancel message without a side ends the process. -/
theorem fromApp_cancel_of_none (fields : CancelFields) (hside : sideOf fields.side = none) :
    fromApp undefined fields.message = (.terminated, []) := by
  simp only [fromApp, CancelFields.message, crack, onOrderCancelRequest, get_some, pure_bind,
    convertOrderSideFromQuickFix_of_none hside]
  rfl

/-- The sides that convert. -/
theorem sideOf_isSome_iff (side : Char) : (sideOf side).isSome = true ↔ side = '1' ∨ side = '2' := by
  unfold sideOf
  split
  · simp
  · simp
  · rename_i hbuy hsell
    simpa using ⟨hbuy, hsell⟩

/-- A new-order message is handled: the call returns, and it has pushed the request of a supported message
or rejected an unsupported one, and done nothing else. -/
def OrderHandled (fields : OrderFields) (result : Outcome × List ServerCall) : Prop :=
  result.1 = .returned ∧
    ((∃ side, sideOf fields.side = some side ∧ fields.ordType = '2' ∧
        result.2 = [.pushMessage (fields.request undefined side)]) ∨
      ((sideOf fields.side = none ∨ fields.ordType ≠ '2') ∧ ∃ order message, result.2 = [.rejectOrder order message]))

/-- A cancel message is handled: its request is pushed, or it is not and the call returns with a rejection or
throws a declared exception. -/
def CancelHandled (fields : CancelFields) (result : Outcome × List ServerCall) : Prop :=
  (result.1 = .returned ∧ ∃ side, sideOf fields.side = some side ∧ result.2 = [.pushMessage (fields.request side)]) ∨
    ((∀ request, .pushMessage request ∉ result.2) ∧
      ((∃ exception, result.1 = .threw exception) ∨
        result.1 = .returned ∧ ∃ order message, .rejectOrder order message ∈ result.2))

/-- Messages with all their fields are handled exactly when they have a supported side and, if they are new
orders, the limit type. -/
theorem fromApp_handled_iff :
    (∀ fields : OrderFields, OrderHandled undefined fields (fromApp undefined fields.message) ↔
      (fields.side = '1' ∨ fields.side = '2') ∧ fields.ordType = '2') ∧
    ∀ fields : CancelFields, CancelHandled fields (fromApp undefined fields.message) ↔
      fields.side = '1' ∨ fields.side = '2' := by
  constructor
  · intro fields
    rw [← sideOf_isSome_iff]
    cases hside : sideOf fields.side with
    | none =>
      -- Whatever the type, the message is neither pushed nor rejected.
      have hterminated : fromApp undefined fields.message = (.terminated, []) := by
        by_cases htype : fields.ordType = '2'
        · exact fromApp_order_of_none undefined fields hside htype
        · exact fromApp_order_of_ne undefined fields htype
      simp [OrderHandled, hterminated]
    | some side =>
      by_cases htype : fields.ordType = '2'
      · rw [fromApp_order_of_some undefined fields hside htype]
        simp only [htype, Option.isSome_some, and_self, iff_true]
        exact ⟨rfl, .inl ⟨side, hside, htype, rfl⟩⟩
      · rw [fromApp_order_of_ne undefined fields htype]
        simp [OrderHandled, htype]
  · intro fields
    rw [← sideOf_isSome_iff]
    cases hside : sideOf fields.side with
    | none =>
      rw [fromApp_cancel_of_none undefined fields hside]
      simp [CancelHandled]
    | some side =>
      rw [fromApp_cancel_of_some undefined fields hside]
      simp only [Option.isSome_some, iff_true]
      exact .inl ⟨rfl, side, hside, rfl⟩

/-- A well-formed message that sells short. -/
def sellShort : OrderFields := ⟨"CLIENT", "ENGINE", "1", "A", '5', '2', 10, 1⟩

/-- Selling short is not rejected: it terminates the process. -/
theorem sellShort_terminates :
    fromApp (fun _ => -2 ^ 63) sellShort.message = (.terminated, []) ∧
      ¬ ((∀ fields : OrderFields, OrderHandled (fun _ => -2 ^ 63) fields (fromApp (fun _ => -2 ^ 63) fields.message)) ∧
        ∀ fields : CancelFields, CancelHandled fields (fromApp (fun _ => -2 ^ 63) fields.message)) := by
  have hterminated : fromApp (fun _ => -2 ^ 63) sellShort.message = (.terminated, []) :=
    fromApp_order_of_none _ sellShort rfl rfl
  refine ⟨hterminated, fun hhandled => ?_⟩
  have hreturned := (hhandled.1 sellShort).1
  rw [hterminated] at hreturned
  cases hreturned

end Server

end MatchingEngine
