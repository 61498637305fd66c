import MatchingEngine.OutgoingMessageProcessor
import MatchingEngine.ServerQuantities

/-!
# The client

A client sends the requests of its test file one after another, each under the next number, while
execution reports arrive. A report that an order was filled, rejected or cancelled marks the request
with this number, and a cancel also marks the cancel requests that name the order. The client waits
until all its requests are marked.

The numbers of a request travel as texts. The client writes fifteen digits, with an exponent where
there are more before the point, and the server refuses a text with an exponent and rounds the others
to doubles, so that a request may arrive with other numbers or not at all.
-/

namespace MatchingEngine

/-- What a line of the test file says that only one type of request has. -/
inductive ClientRequestDetails
  | newOrder (price : ℚ) (quantity : ℤ)
  | cancelOrder (origOrderID : String)
deriving DecidableEq

/-- What a line of the test file says. -/
structure ClientRequestColumns where
  symbol : String
  side : OrderSide
  targetID : String
  details : ClientRequestDetails
deriving DecidableEq

/-- A request: its line, and what the client sets. -/
structure ClientRequest extends ClientRequestColumns where
  orderID : String
  senderID : String
  requestSent : Bool
deriving DecidableEq

namespace ClientRequest

/-- A request that was loaded. -/
def ofColumns (clientID : String) (columns : ClientRequestColumns) : ClientRequest := ⟨columns, "", clientID, false⟩

/-- Mark a request. -/
def markAsRequestSent (request : ClientRequest) : ClientRequest := { request with requestSent := true }

/-- The message of a request, with the numbers of its line. What the server reads of the texts that the client writes for
them is left to `FIX.Message.transmitted`. -/
def message (request : ClientRequest) : FIX.Message :=
  match request.details with
  | .newOrder price quantity => .newOrderSingle
    ⟨request.senderID, request.targetID, request.orderID, request.symbol, convertOrderSideToQuickFix request.side, '2',
      (quantity : ℚ), price⟩
  | .cancelOrder origOrderID => .orderCancelRequest
    ⟨request.senderID, origOrderID, request.orderID, request.symbol, convertOrderSideToQuickFix request.side⟩

end ClientRequest

/-- The client: the last number it gave, its requests and how many of them it has sent, and whether it has stopped because
there is no session to send a request to. -/
structure ClientApplication where
  orderID : ℕ
  requests : List ClientRequest
  sent : ℕ
  stopped : Bool

namespace ClientApplication

/-- The requests of the test file are loaded. -/
def load (clientID : String) (lines : List ClientRequestColumns) : ClientApplication :=
  ⟨0, lines.map (ClientRequest.ofColumns clientID), 0, false⟩

/-- Mark the requests with the number of an order. -/
def markRequestAsSent (client : ClientApplication) (orderID : String) : ClientApplication :=
  { client with requests := client.requests.map fun request =>
      if request.orderID = orderID then request.markAsRequestSent else request }

/-- Mark the requests to cancel an order. -/
def markCancelRequestAsSent (client : ClientApplication) (orderID : String) : ClientApplication :=
  { client with requests := client.requests.map fun request =>
      if request.details = .cancelOrder orderID then request.markAsRequestSent else request }

/-- Whether the client stops waiting. -/
def allRequestsSent (client : ClientApplication) : Bool := client.requests.all fun request => request.requestSent

/-- The status of an order as a text. -/
def orderStatusToString (type : Char) : Except String String :=
  match type with
  | '2' => .ok "FILLED"
  | '1' => .ok "PARTIALLY FILLED"
  | '4' => .ok "CANCELED"
  | '0' => .ok "ACCEPTED BY THE SERVER"
  | '8' => .ok "REJECTED BY THE SERVER"
  | _ => .error "Not supported order status type"

/-- The handler of execution reports. -/
def onMessage (client : ClientApplication) (report : FIX.ExecutionReport) : Except String ClientApplication := do
  let _ ← orderStatusToString report.ordStatus
  let client := if report.ordStatus = '2' ∨ report.ordStatus = '8' then client.markRequestAsSent report.clOrdID else client
  return if report.ordStatus = '4' then
    (client.markRequestAsSent report.clOrdID).markCancelRequestAsSent report.clOrdID else client

/-- Give the next request its number. -/
def setOrderID (client : ClientApplication) : Option ClientApplication :=
  if client.stopped = false ∧ client.orderID = client.sent ∧ client.sent < client.requests.length then
    some { client with
      orderID := client.orderID + 1
      requests := client.requests.modify client.sent fun request =>
        { request with orderID := toString (client.orderID + 1) } }
  else none

/-- Send the request that has its number, if there is a session to its target: the messages sent. -/
def send (session : String → Bool) (client : ClientApplication) : Option (ClientApplication × List FIX.Message) :=
  if client.stopped = false ∧ client.orderID = client.sent + 1 then
    client.requests[client.sent]?.map fun request =>
      if session request.targetID then ({ client with sent := client.sent + 1 }, [request.message])
      else ({ client with stopped := true }, [])
  else none

end ClientApplication

/-- A message of a client as the server reads it: `transmit` tells which double the server reads from the text that the
client writes for a number, if it does not refuse the text. -/
def FIX.Message.transmitted (transmit : ℚ → Option ℚ) : FIX.Message → Option FIX.Message
  | .newOrderSingle message => do
    let orderQty ← message.orderQty.mapM transmit
    let price ← message.price.mapM transmit
    return .newOrderSingle { message with orderQty := orderQty, price := price }
  | .orderCancelRequest message => some (.orderCancelRequest message)
  | .other => some .other

/-- Clients and the server, with the messages between them, and a record: the reports that reached each client. -/
structure ClientServer where
  clients : String → ClientApplication
  toServer : String → List FIX.Message
  server : Server
  dequeued : ℕ
  processor : OutgoingMessageProcessor
  toClient : String → List FIX.ExecutionReport
  delivered : String → List FIX.ExecutionReport

namespace ClientServer

/-- A client gives the next request its number, or sends it; the server receives the next message of a client; a thread of
the server takes a step; the processor sends the report on the next message; a client handles the next report. -/
inductive Label
  | setOrderID (clientID : String)
  | send (clientID : String)
  | receive (clientID : String)
  | thread (label : Pipeline.Label)
  | process
  | deliver (clientID : String)

/-- Nothing was sent; every client has loaded its test file. -/
def initial (symbols : List String) (lines : String → List ClientRequestColumns) : ClientServer where
  clients clientID := .load clientID (lines clientID)
  toServer _ := []
  server := ⟨.initial symbols, []⟩
  dequeued := 0
  processor := .initial
  toClient _ := []
  delivered _ := []

/-- The steps. `session` tells which clients have a session under which name of the server. A session delivers messages in
order; a message with a number that the server refuses is not pushed, and a report without a session is dropped. -/
def next (undefined : ℚ → ℤ) (transmit : ℚ → Option ℚ) (session : String → String → Bool) :
    Label → ClientServer → Option ClientServer
  | .setOrderID clientID, s => (s.clients clientID).setOrderID.map fun client =>
    { s with clients := Function.update s.clients clientID client }
  | .send clientID, s => ((s.clients clientID).send (session clientID)).map fun (client, messages) =>
    { s with
      clients := Function.update s.clients clientID client
      toServer := Function.update s.toServer clientID (s.toServer clientID ++ messages) }
  | .receive clientID, s =>
    match s.toServer clientID with
    | [] => none
    | message :: rest => (match message.transmitted transmit with
      | some message => Server.next undefined id (.receive message) s.server
      | none => some s.server).map fun server =>
        { s with server := server, toServer := Function.update s.toServer clientID rest }
  | .thread label, s => (Server.next undefined id (.thread label) s.server).map fun server => { s with server := server }
  | .process, s => s.server.pipeline.engine.outgoingMessages[s.dequeued]?.map fun message =>
    let report := OutgoingMessageProcessor.executionReport s.processor.genExecID.2 message
    { s with
      dequeued := s.dequeued + 1
      processor := s.processor.process message
      toClient := if session report.targetCompID report.senderCompID then
        Function.update s.toClient report.targetCompID (s.toClient report.targetCompID ++ [report]) else s.toClient }
  | .deliver clientID, s =>
    match s.toClient clientID with
    | [] => none
    | report :: rest => ((s.clients clientID).onMessage report).toOption.map fun client =>
      { s with
        clients := Function.update s.clients clientID client
        toClient := Function.update s.toClient clientID rest
        delivered := Function.update s.delivered clientID (s.delivered clientID ++ [report]) }

end ClientServer

/-- The clients with their test files, and the server over the configured symbols. -/
def clientServer (undefined : ℚ → ℤ) (transmit : ℚ → Option ℚ) (session : String → String → Bool) (symbols : List String)
    (lines : String → List ClientRequestColumns) : Machine ClientServer ClientServer.Label where
  start := .initial symbols lines
  next := ClientServer.next undefined transmit session

end MatchingEngine
