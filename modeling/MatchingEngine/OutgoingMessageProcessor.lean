import MatchingEngine.OrderMessages

/-!
# Execution reports

The outgoing message processor takes the messages from its queue one after another, numbers them
and hands each to the FIX engine as an execution report to the owner of its order. A report shows
the record of the order at the time when the message was made; the last execution is only shown
in fills.

Whether a report gets to the owner is not said here: `FIX::Session::sendToTarget` throws
`SessionNotFound` where the owner has no session, the report is lost, and the processor goes on
as after a report that was sent.
-/

namespace MatchingEngine

namespace FIX

/-- The fields of an execution report, and the session that it is sent to. -/
structure ExecutionReport where
  orderID : String
  execID : String
  execTransType : Char
  execType : Char
  ordStatus : Char
  symbol : String
  side : Char
  leavesQty : ℤ
  cumQty : ℤ
  avgPx : Option ℚ
  clOrdID : String
  orderQty : ℤ
  lastShares : Option ℤ
  lastPx : Option ℚ
  senderCompID : String
  targetCompID : String
deriving DecidableEq

end FIX

/-- Convert a side to its character. -/
def convertOrderSideToQuickFix : OrderSide → Char
  | .buy => '1'
  | .sell => '2'

/-- Convert the type of a message to an order status. -/
def convertToQuickFixOutgoingMessageType : OutgoingMessageType → Char
  | .accepted => '0'
  | .canceled => '4'
  | .filled => '2'
  | .partiallyField => '1'
  | .rejected => '8'

/-- The identifier of the last report, and the reports that `FIX::Session::sendToTarget` was called with: a report whose
owner has no session is lost in this call. -/
structure OutgoingMessageProcessor where
  execID : ℕ
  sent : List FIX.ExecutionReport

namespace OutgoingMessageProcessor

/-- No report was made. -/
def initial : OutgoingMessageProcessor := ⟨0, []⟩

/-- The identifier of the next report. -/
def genExecID (processor : OutgoingMessageProcessor) : OutgoingMessageProcessor × String :=
  ({ processor with execID := processor.execID + 1 }, toString (processor.execID + 1))

/-- Convert a message to a report. -/
def executionReport (execID : String) (message : OutgoingMessage) : FIX.ExecutionReport :=
  let order := message.order
  let status := convertToQuickFixOutgoingMessageType message.type
  let isFill := status = '2' ∨ status = '1'
  { orderID := order.clientOrderID
    execID := execID
    execTransType := '0'
    execType := status
    ordStatus := status
    symbol := order.symbol
    side := convertOrderSideToQuickFix order.side
    leavesQty := order.openQuantity
    cumQty := order.executedQuantity
    avgPx := order.averageExecutedPrice
    clOrdID := order.clientOrderID
    orderQty := order.quantity
    lastShares := if isFill then some order.lastExecutedQuantity else none
    lastPx := if isFill then some order.lastExecutedPrice else none
    senderCompID := order.target
    targetCompID := order.owner }

/-- Process a message that was dequeued: number it and call `sendToTarget`. The handler of `SessionNotFound` does nothing,
so the state after the call is the same with a session and without. -/
def process (processor : OutgoingMessageProcessor) (message : OutgoingMessage) : OutgoingMessageProcessor :=
  let (processor, execID) := processor.genExecID
  { processor with sent := processor.sent ++ [executionReport execID message] }

/-- Process messages one after another. -/
def processAll (processor : OutgoingMessageProcessor) (messages : List OutgoingMessage) : OutgoingMessageProcessor :=
  messages.foldl process processor

/-- The processor has numbered its reports from one, and handed over one for each message. -/
theorem processAll_initial (messages : List OutgoingMessage) :
    initial.processAll messages = ⟨messages.length,
      messages.mapIdx fun i message => executionReport (toString (i + 1)) message⟩ := by
  induction messages using List.reverseRecOn with
  | nil => rfl
  | append_singleton messages message ih =>
    have hconcat : initial.processAll (messages ++ [message]) = (initial.processAll messages).process message := by
      rw [processAll, List.foldl_append]
      rfl
    rw [hconcat, ih, List.mapIdx_concat, List.length_append]
    rfl

/-- The report on a message has its number. -/
theorem sent_getElem? {messages : List OutgoingMessage} {i : ℕ} {message : OutgoingMessage} (h : messages[i]? = some message) :
    (initial.processAll messages).sent[i]? = some (executionReport (toString (i + 1)) message) := by
  rw [processAll_initial, List.getElem?_mapIdx, h]
  rfl

/-- The last execution is shown exactly when the message reports a fill. -/
theorem executionReport_fill (execID : String) (message : OutgoingMessage) :
    (executionReport execID message).lastPx =
        (if message.type.fill then some message.order.lastExecutedPrice else none) ∧
      (executionReport execID message).lastShares =
        if message.type.fill then some message.order.lastExecutedQuantity else none := by
  unfold executionReport
  cases message.type <;> exact ⟨rfl, rfl⟩

end OutgoingMessageProcessor

end MatchingEngine
