import MatchingEngine.ClientApplication
import MatchingEngine.OrderAdmission
import MatchingEngine.Foundation.Numeral

/-!
# What the marks of a client mean

The messages of a client reach the dispatcher in order, and the reports on its orders come back
in order. An order of a client is known by the number of its request, so that a mark on a request
to enter an order says that this order has reached its end.

The server works on atomic queues here, and the numbers of the files are such that they get through
as texts unchanged: a task that overlapping pushes lose, or an order that the server refuses or reads
with other numbers, leaves its client with a mark that is wrong or missing.
-/

namespace MatchingEngine

/-- Natural numbers have different names. -/
theorem toString_inj {m n : ℕ} (h : toString m = toString n) : m = n := by
  have hdigits : Nat.toDigits 10 m = Nat.toDigits 10 n := by
    rw [Nat.toString_eq_ofList_toDigits, Nat.toString_eq_ofList_toDigits] at h
    exact String.ofList_injective h
  calc m = Nat.ofDigitChars 10 (Nat.toDigits 10 m) 0 := by simp
    _ = n := by simp [hdigits]

/-- The request of a message. -/
def IncomingMessage.request (message : IncomingMessage) : Request :=
  ⟨message.order.toOrderTerms, message.origClientOrderID, message.type⟩

@[simp] theorem Request.message_request (request : Request) (serial : ℕ) : (request.message serial).request = request := rfl

/-- The side of a character that stands for a side. -/
@[simp] theorem sideOf_convertOrderSideToQuickFix (side : OrderSide) :
    Server.sideOf (convertOrderSideToQuickFix side) = some side := by
  cases side <;> rfl

/-- What the server makes of a line of a client under its number. -/
def ClientRequestColumns.request (undefined : ℚ → ℤ) (clientID : String) (index : ℕ) (columns : ClientRequestColumns) :
    Request :=
  match columns.details with
  | .newOrder price quantity =>
    ⟨⟨toString (index + 1), columns.symbol, clientID, columns.targetID, columns.side, .limit, price,
      Server.toLong undefined quantity⟩, "", .newOrder⟩
  | .cancelOrder origOrderID =>
    ⟨⟨"", columns.symbol, clientID, "", columns.side, .limit, 0, 0⟩, origOrderID, .cancelOrder⟩

/-- The request is the client's. -/
@[simp] theorem ClientRequestColumns.request_owner (undefined : ℚ → ℤ) (clientID : String) (index : ℕ)
    (columns : ClientRequestColumns) : (columns.request undefined clientID index).terms.owner = clientID := by
  unfold request
  split <;> rfl

/-- The handlers push the request of a line. -/
theorem ClientRequest.fromApp_message (undefined : ℚ → ℤ) {request : ClientRequest} {clientID : String} {index : ℕ}
    (hsender : request.senderID = clientID) (hid : request.orderID = toString (index + 1)) :
    Server.fromApp undefined request.message =
      (.returned, [.pushMessage (request.toClientRequestColumns.request undefined clientID index)]) := by
  subst hsender
  unfold message ClientRequestColumns.request
  cases request.details with
  | newOrder price quantity =>
    simp only [← hid]
    exact Server.fromApp_order_of_some undefined
      ⟨request.senderID, request.targetID, request.orderID, request.symbol, convertOrderSideToQuickFix request.side, '2',
        (quantity : ℚ), price⟩ (sideOf_convertOrderSideToQuickFix _) rfl
  | cancelOrder origOrderID =>
    exact Server.fromApp_cancel_of_some undefined
      ⟨request.senderID, origOrderID, request.orderID, request.symbol, convertOrderSideToQuickFix request.side⟩
      (sideOf_convertOrderSideToQuickFix _)

/-- The numbers of a line reach the server unchanged. -/
def ClientRequestColumns.Carried (transmit : ℚ → Option ℚ) (columns : ClientRequestColumns) : Prop :=
  match columns.details with
  | .newOrder price quantity => transmit price = some price ∧ transmit quantity = some (quantity : ℚ)
  | .cancelOrder _ => True

/-- Where every number reaches the server unchanged, those of a line do. -/
theorem ClientRequestColumns.carried_some (columns : ClientRequestColumns) : columns.Carried some := by
  unfold Carried
  split
  · exact ⟨rfl, rfl⟩
  · trivial

/-- The server reads the message of such a line as it was. -/
theorem ClientRequest.transmitted_message {transmit : ℚ → Option ℚ} {request : ClientRequest}
    (h : request.toClientRequestColumns.Carried transmit) : request.message.transmitted transmit = some request.message := by
  unfold ClientRequestColumns.Carried at h
  unfold message
  cases hdetails : request.details with
  | newOrder price quantity =>
    rw [hdetails] at h
    simp [FIX.Message.transmitted, h.1, h.2]
  | cancelOrder origOrderID => rfl

/-- The number of the order that a request is about. -/
def ClientRequestColumns.orderNumber (index : ℕ) (columns : ClientRequestColumns) : String :=
  match columns.details with
  | .newOrder .. => toString (index + 1)
  | .cancelOrder origOrderID => origOrderID

/-- The messages that end a request: those that end the order, or cancel it. -/
def ClientRequestColumns.EndedBy (columns : ClientRequestColumns) (type : OutgoingMessageType) : Prop :=
  match columns.details with
  | .newOrder .. => type.ends = true
  | .cancelOrder _ => type = .canceled

/-- A report that tells the end of an order. -/
def FIX.ExecutionReport.Ends (report : FIX.ExecutionReport) : Prop :=
  report.ordStatus = '2' ∨ report.ordStatus = '8' ∨ report.ordStatus = '4'

instance (report : FIX.ExecutionReport) : Decidable report.Ends := inferInstanceAs (Decidable (_ ∨ _))

/-- A report marks the request with a number: it tells the end of its order, or of the order that it cancels. -/
def Marks (index : ℕ) (columns : ClientRequestColumns) (report : FIX.ExecutionReport) : Prop :=
  report.Ends ∧ report.clOrdID = toString (index + 1) ∨
    report.ordStatus = '4' ∧ columns.details = .cancelOrder report.clOrdID

/-- The report on a message tells the end of its order exactly when the message ends it. -/
theorem OutgoingMessageProcessor.executionReport_ends (execID : String) (message : OutgoingMessage) :
    (executionReport execID message).Ends ↔ message.type.ends = true := by
  unfold FIX.ExecutionReport.Ends executionReport
  cases message.type <;> simp [convertToQuickFixOutgoingMessageType, OutgoingMessageType.ends]

/-- The report on a message tells a cancel exactly when the message does. -/
theorem OutgoingMessageProcessor.executionReport_canceled (execID : String) (message : OutgoingMessage) :
    (executionReport execID message).ordStatus = '4' ↔ message.type = .canceled := by
  unfold executionReport
  cases message.type <;> simp [convertToQuickFixOutgoingMessageType]

namespace ClientApplication

variable {client after : ClientApplication} {clientID : String} {lines : List ClientRequestColumns}
  {reports : List FIX.ExecutionReport}

/-- The requests of a client have their lines; those that have a number have the next ones, and they are marked by the
reports on them. -/
structure Numbered (clientID : String) (lines : List ClientRequestColumns) (reports : List FIX.ExecutionReport)
    (client : ClientApplication) : Prop where
  columns : client.requests.map ClientRequest.toClientRequestColumns = lines
  sent : client.sent ≤ client.orderID ∧ client.orderID ≤ lines.length
  senderID : ∀ request ∈ client.requests, request.senderID = clientID
  orderID : ∀ i request, client.requests[i]? = some request →
    request.orderID = if i < client.orderID then toString (i + 1) else ""
  marked : ∀ i request, client.requests[i]? = some request →
    (request.requestSent = true ↔ ∃ report ∈ reports, Marks i request.toClientRequestColumns report)

/-- A client that has loaded its file. -/
theorem numbered_load (clientID : String) (lines : List ClientRequestColumns) :
    (load clientID lines).Numbered clientID lines [] where
  columns := by
    rw [load, List.map_map]
    exact List.map_id lines
  sent := ⟨Nat.le_refl _, Nat.zero_le _⟩
  senderID := by
    intro request hrequest
    obtain ⟨columns, _, rfl⟩ := List.mem_map.mp hrequest
    rfl
  orderID := by
    intro i request hrequest
    obtain ⟨columns, _, rfl⟩ := Option.map_eq_some_iff.mp ((List.getElem?_map ..).symm.trans hrequest)
    rfl
  marked := by
    intro i request hrequest
    obtain ⟨columns, _, rfl⟩ := Option.map_eq_some_iff.mp ((List.getElem?_map ..).symm.trans hrequest)
    simp [ClientRequest.ofColumns]

/-- Every line has its request, which is marked by the reports on it. -/
theorem Numbered.exists_request (h : client.Numbered clientID lines reports) {index : ℕ} {columns : ClientRequestColumns}
    (hline : lines[index]? = some columns) : ∃ request, client.requests[index]? = some request ∧
      (request.requestSent = true ↔ ∃ report ∈ reports, Marks index columns report) := by
  rw [← h.columns, List.getElem?_map] at hline
  obtain ⟨request, hrequest, rfl⟩ := Option.map_eq_some_iff.mp hline
  exact ⟨request, hrequest, h.marked index request hrequest⟩

/-- The next request gets its number. -/
theorem Numbered.setOrderID (h : client.Numbered clientID lines reports) (hnext : client.setOrderID = some after) :
    after.sent = client.sent ∧ after.Numbered clientID lines reports := by
  unfold ClientApplication.setOrderID at hnext
  split at hnext
  · rename_i hcondition
    obtain ⟨_, heq, hlt⟩ := hcondition
    obtain rfl := Option.some.inj hnext
    have hlength : client.requests.length = lines.length := by rw [← h.columns, List.length_map]
    have hget : ∀ i request, (client.requests.modify client.sent fun request =>
        { request with orderID := toString (client.orderID + 1) })[i]? = some request →
        ∃ before, client.requests[i]? = some before ∧
          request = if client.sent = i then { before with orderID := toString (client.orderID + 1) } else before := by
      intro i request hrequest
      rw [List.getElem?_modify] at hrequest
      obtain ⟨before, hbefore, rfl⟩ := Option.map_eq_some_iff.mp hrequest
      exact ⟨before, hbefore, by split <;> rfl⟩
    refine ⟨rfl, ?_, ⟨Nat.le_succ_of_le h.sent.1, by simp only; omega⟩, fun request hrequest => ?_,
      fun i request hrequest => ?_, fun i request hrequest => ?_⟩
    · rw [← h.columns]
      refine List.ext_getElem? fun i => ?_
      rw [List.getElem?_map, List.getElem?_map, List.getElem?_modify]
      cases client.requests[i]? with
      | none => rfl
      | some request => by_cases hi : client.sent = i <;> simp [hi]
    · obtain ⟨i, hi⟩ := List.mem_iff_getElem?.mp hrequest
      obtain ⟨before, hbefore, rfl⟩ := hget i request hi
      have hsender := h.senderID before (List.mem_of_getElem? hbefore)
      split <;> exact hsender
    · obtain ⟨before, hbefore, rfl⟩ := hget i request hrequest
      have hid := h.orderID i before hbefore
      split
      · rename_i hi
        subst hi
        simp [heq]
      · rename_i hi
        rw [hid]
        simp only
        split <;> rename_i hless
        · rw [if_pos (by omega)]
        · rw [if_neg (by omega)]
    · obtain ⟨before, hbefore, rfl⟩ := hget i request hrequest
      have hmarked := h.marked i before hbefore
      split <;> exact hmarked
  · cases hnext

/-- The next request is sent, or the client stops. -/
theorem Numbered.send (h : client.Numbered clientID lines reports) {session : String → Bool} {messages : List FIX.Message}
    (hnext : client.send session = some (after, messages)) : after.Numbered clientID lines reports ∧
      (after.sent = client.sent ∧ messages = [] ∨
        ∃ (request : ClientRequest) (columns : ClientRequestColumns),
          after.sent = client.sent + 1 ∧ lines[client.sent]? = some columns ∧
          session columns.targetID = true ∧ messages = [request.message] ∧ request.senderID = clientID ∧
          request.orderID = toString (client.sent + 1) ∧ request.toClientRequestColumns = columns) := by
  unfold ClientApplication.send at hnext
  split at hnext
  · rename_i hcondition
    obtain ⟨_, heq⟩ := hcondition
    obtain ⟨request, hrequest, hafter⟩ := Option.map_eq_some_iff.mp hnext
    split at hafter
    · rename_i hsession
      obtain ⟨rfl, rfl⟩ := Prod.mk.inj hafter
      refine ⟨⟨h.columns, ⟨heq.ge, h.sent.2⟩, h.senderID, h.orderID, h.marked⟩, Or.inr ⟨request,
        request.toClientRequestColumns, rfl, ?_, hsession, rfl, h.senderID request (List.mem_of_getElem? hrequest), ?_, rfl⟩⟩
      · rw [← h.columns, List.getElem?_map, hrequest]
        rfl
      · rw [h.orderID _ request hrequest, if_pos (by omega)]
    · obtain ⟨rfl, rfl⟩ := Prod.mk.inj hafter
      exact ⟨⟨h.columns, h.sent, h.senderID, h.orderID, h.marked⟩, Or.inl ⟨rfl, rfl⟩⟩
  · cases hnext

/-- A report with a status that has a text marks the request with its number and the requests to cancel it. -/
theorem onMessage_eq (client : ClientApplication) {report : FIX.ExecutionReport}
    (hstatus : ∃ text, orderStatusToString report.ordStatus = .ok text) :
    client.onMessage report = .ok { client with requests := client.requests.map fun request =>
      if report.Ends ∧ request.orderID = report.clOrdID ∨
        report.ordStatus = '4' ∧ request.details = .cancelOrder report.clOrdID then request.markAsRequestSent
      else request } := by
  obtain ⟨text, htext⟩ := hstatus
  rw [onMessage, htext]
  by_cases hcanceled : report.ordStatus = '4'
  · simp only [hcanceled, FIX.ExecutionReport.Ends, markRequestAsSent, markCancelRequestAsSent, List.map_map]
    refine congrArg Except.ok (congrArg (fun requests => { client with requests := requests }) ?_)
    refine List.map_congr_left fun request _ => ?_
    by_cases hid : request.orderID = report.clOrdID
    · by_cases hdetails : request.details = .cancelOrder report.clOrdID <;>
        simp [hid, hdetails, ClientRequest.markAsRequestSent]
    · simp [hid]
  · by_cases hends : report.ordStatus = '2' ∨ report.ordStatus = '8'
    · have hEnds : report.Ends := by
        rw [FIX.ExecutionReport.Ends, ← or_assoc]
        exact Or.inl hends
      simp only [hcanceled, hends, if_true, if_false, hEnds, true_and, false_and, or_false, markRequestAsSent]
      rfl
    · have hEnds : ¬report.Ends := by
        rw [FIX.ExecutionReport.Ends, ← or_assoc]
        exact not_or.mpr ⟨hends, hcanceled⟩
      simp only [hcanceled, hends, if_false, hEnds, false_and, or_self, List.map_id']
      rfl

/-- A report with a status of the server, on an order of the client that has its number, is handled, and marks the
requests that it tells about. -/
theorem Numbered.onMessage (h : client.Numbered clientID lines reports) {report : FIX.ExecutionReport}
    (hstatus : ∃ text, orderStatusToString report.ordStatus = .ok text)
    (hid : ∃ index < client.orderID, report.clOrdID = toString (index + 1)) :
    ∃ after, client.onMessage report = .ok after ∧ after.sent = client.sent ∧
      after.Numbered clientID lines (reports ++ [report]) := by
  refine ⟨_, client.onMessage_eq hstatus, rfl, ?_⟩
  obtain ⟨index, hindex, hclOrdID⟩ := hid
  have hget : ∀ {i : ℕ} {request : ClientRequest}, (client.requests.map fun request =>
      if report.Ends ∧ request.orderID = report.clOrdID ∨
        report.ordStatus = '4' ∧ request.details = .cancelOrder report.clOrdID then request.markAsRequestSent
      else request)[i]? = some request → ∃ before, client.requests[i]? = some before ∧
        request.toClientRequestColumns = before.toClientRequestColumns ∧ request.senderID = before.senderID ∧
        request.orderID = before.orderID ∧
        (request.requestSent = true ↔ before.requestSent = true ∨ Marks i before.toClientRequestColumns report) := by
    intro i request hrequest
    rw [List.getElem?_map] at hrequest
    obtain ⟨before, hbefore, rfl⟩ := Option.map_eq_some_iff.mp hrequest
    have hnumber : before.orderID = report.clOrdID ↔ report.clOrdID = toString (i + 1) := by
      rw [h.orderID i before hbefore, hclOrdID]
      split
      · exact eq_comm
      · refine iff_of_false (fun hempty => ?_) fun hsame => ?_
        · exact Nat.repr_ne_empty hempty.symm
        · have := toString_inj hsame
          omega
    have hmarks : report.Ends ∧ before.orderID = report.clOrdID ∨
        report.ordStatus = '4' ∧ before.details = .cancelOrder report.clOrdID ↔
          Marks i before.toClientRequestColumns report := by
      rw [hnumber]
      rfl
    refine ⟨before, hbefore, ?_⟩
    split
    · rename_i hcondition
      exact ⟨rfl, rfl, rfl, iff_of_true rfl (Or.inr (hmarks.mp hcondition))⟩
    · rename_i hcondition
      exact ⟨rfl, rfl, rfl, (or_iff_left (mt hmarks.mpr hcondition)).symm⟩
  refine ⟨?_, h.sent, fun request hrequest => ?_, fun i request hrequest => ?_, fun i request hrequest => ?_⟩
  · rw [← h.columns, List.map_map]
    refine List.map_congr_left fun request _ => ?_
    simp only [Function.comp_apply]
    split <;> rfl
  · obtain ⟨i, hi⟩ := List.mem_iff_getElem?.mp hrequest
    obtain ⟨before, hbefore, _, hsender, _⟩ := hget hi
    exact hsender.trans (h.senderID before (List.mem_of_getElem? hbefore))
  · obtain ⟨before, hbefore, _, _, horderID, _⟩ := hget hrequest
    exact horderID.trans (h.orderID i before hbefore)
  · obtain ⟨before, hbefore, hcolumns, _, _, hsent⟩ := hget hrequest
    rw [hsent, h.marked i before hbefore, hcolumns]
    simp [or_and_right, exists_or]

end ClientApplication

namespace ClientServer

variable {undefined : ℚ → ℤ} {transmit : ℚ → Option ℚ} {session : String → String → Bool} {symbols : List String}
  {lines : String → List ClientRequestColumns} {s t : ClientServer} {clientID : String}

/-- The requests of a client that were pushed to the dispatcher. -/
def pushedBy (s : ClientServer) (clientID : String) : List Request :=
  (s.server.pipeline.pushed.map IncomingMessage.request).filter fun request => request.terms.owner = clientID

/-- The reports for a client. -/
def reportsTo (session : String → String → Bool) (s : ClientServer) (clientID : String) : List FIX.ExecutionReport :=
  s.processor.sent.filter fun report => report.targetCompID = clientID ∧ session clientID report.senderCompID = true

/-- The requests of a client up to a number. -/
def requestsUpTo (undefined : ℚ → ℤ) (lines : String → List ClientRequestColumns) (clientID : String) (sent : ℕ) :
    List Request :=
  ((lines clientID).take sent).mapIdx fun index columns => columns.request undefined clientID index

/-- A message that reaches the server as it is, and whose handler pushes a request. -/
def Carries (undefined : ℚ → ℤ) (transmit : ℚ → Option ℚ) (message : FIX.Message) (request : Request) : Prop :=
  message.transmitted transmit = some message ∧ Server.fromApp undefined message = (.returned, [.pushMessage request])

/-- What connects the clients with the server. -/
structure Linked (undefined : ℚ → ℤ) (transmit : ℚ → Option ℚ) (session : String → String → Bool) (symbols : List String)
    (lines : String → List ClientRequestColumns) (s : ClientServer) : Prop where
  pipeline : (pipeline symbols).Reachable s.server.pipeline
  clients : ∀ clientID, (s.clients clientID).Numbered clientID (lines clientID) (s.delivered clientID)
  sent : ∀ clientID, ∃ waiting, List.Forall₂ (Carries undefined transmit) (s.toServer clientID) waiting ∧
    s.pushedBy clientID ++ waiting = requestsUpTo undefined lines clientID (s.clients clientID).sent
  sessions : ∀ clientID index columns, index < (s.clients clientID).sent → (lines clientID)[index]? = some columns →
    session clientID columns.targetID = true
  processor : s.dequeued ≤ s.server.pipeline.engine.outgoingMessages.length ∧
    s.processor = OutgoingMessageProcessor.initial.processAll (s.server.pipeline.engine.outgoingMessages.take s.dequeued)
  reports : ∀ clientID, s.delivered clientID ++ s.toClient clientID = s.reportsTo session clientID

/-- A request in the list is one of the lines, under its number. -/
theorem mem_requestsUpTo {sent : ℕ} {request : Request} (h : request ∈ requestsUpTo undefined lines clientID sent) :
    ∃ index columns, index < sent ∧ (lines clientID)[index]? = some columns ∧
      request = columns.request undefined clientID index := by
  obtain ⟨index, hindex⟩ := List.mem_iff_getElem?.mp h
  rw [requestsUpTo, List.getElem?_mapIdx] at hindex
  obtain ⟨columns, hcolumns, rfl⟩ := Option.map_eq_some_iff.mp hindex
  rw [List.getElem?_take] at hcolumns
  split at hcolumns
  · rename_i hlt
    exact ⟨index, columns, hlt, hcolumns, rfl⟩
  · cases hcolumns

/-- A further request of the list. -/
theorem requestsUpTo_succ {sent : ℕ} {columns : ClientRequestColumns} (h : (lines clientID)[sent]? = some columns) :
    requestsUpTo undefined lines clientID (sent + 1) =
      requestsUpTo undefined lines clientID sent ++ [columns.request undefined clientID sent] := by
  obtain ⟨hlt, hget⟩ := List.getElem?_eq_some_iff.mp h
  rw [requestsUpTo, List.take_add_one, h, Option.toList_some, List.mapIdx_concat, List.length_take,
    Nat.min_eq_left hlt.le]
  rfl

namespace Linked

/-- A pushed request of a client is one of its lines, under its number. -/
theorem exists_line (h : s.Linked undefined transmit session symbols lines) {request : Request}
    (hrequest : request ∈ s.pushedBy clientID) : ∃ index columns, index < (s.clients clientID).sent ∧
      (lines clientID)[index]? = some columns ∧ request = columns.request undefined clientID index := by
  obtain ⟨waiting, _, hsent⟩ := h.sent clientID
  exact mem_requestsUpTo (hsent ▸ List.mem_append_left _ hrequest)

/-- A pushed order of a client is the one of a line, under its number. -/
theorem exists_order_line (h : s.Linked undefined transmit session symbols lines) {order : Order}
    (horder : order ∈ Pipeline.orders s.server.pipeline.pushed) :
    ∃ index columns price quantity, index < (s.clients order.owner).sent ∧ (lines order.owner)[index]? = some columns ∧
      columns.details = .newOrder price quantity ∧ order.symbol = columns.symbol ∧ order.target = columns.targetID ∧
      order.clientOrderID = toString (index + 1) := by
  obtain ⟨message, hmessage, rfl⟩ := List.mem_map.mp horder
  obtain ⟨hpushed, htype⟩ := List.mem_filter.mp hmessage
  have hmem : message.request ∈ s.pushedBy message.order.owner :=
    List.mem_filter.mpr ⟨List.mem_map_of_mem hpushed, by simp [IncomingMessage.request]⟩
  obtain ⟨index, columns, hindex, hcolumns, hrequest⟩ := h.exists_line hmem
  cases hdetails : columns.details with
  | newOrder price quantity =>
    rw [ClientRequestColumns.request, hdetails] at hrequest
    have hterms : message.order.toOrderTerms = _ := congrArg Request.terms hrequest
    refine ⟨index, columns, price, quantity, hindex, hcolumns, hdetails, ?_, ?_, ?_⟩
    all_goals rw [hterms]
  | cancelOrder origOrderID =>
    rw [ClientRequestColumns.request, hdetails] at hrequest
    have hcancel : message.type = _ := congrArg Request.type hrequest
    simp [hcancel] at htype

/-- A report that was sent is on the message at its position. -/
theorem exists_message (h : s.Linked undefined transmit session symbols lines) {i : ℕ} {report : FIX.ExecutionReport}
    (hreport : s.processor.sent[i]? = some report) : ∃ message,
      s.server.pipeline.engine.outgoingMessages[i]? = some message ∧
        report = OutgoingMessageProcessor.executionReport (toString (i + 1)) message := by
  rw [h.processor.2, OutgoingMessageProcessor.processAll_initial, List.getElem?_mapIdx] at hreport
  obtain ⟨message, hmessage, rfl⟩ := Option.map_eq_some_iff.mp hreport
  rw [List.getElem?_take] at hmessage
  split at hmessage
  · exact ⟨message, hmessage, rfl⟩
  · cases hmessage

/-- A message is about an order that was pushed, with the number of a line of its client. -/
theorem exists_order (h : s.Linked undefined transmit session symbols lines) {message : OutgoingMessage}
    (hmessage : message ∈ s.server.pipeline.engine.outgoingMessages) :
    ∃ order ∈ Pipeline.orders s.server.pipeline.pushed, order.toOrderTerms = message.order.toOrderTerms ∧
      message.order.serial = order.serial := by
  obtain ⟨order, horder, hterms, hserial⟩ := Pipeline.exists_pushed (Pipeline.consistent_of_reachable h.pipeline)
    (Pipeline.answered_of_reachable h.pipeline) hmessage
  exact ⟨order, horder, hterms, hserial.symm⟩

/-- A report that was sent to a client has a status that it knows, and is on an order that the client has sent. -/
theorem report_known (h : s.Linked undefined transmit session symbols lines) {report : FIX.ExecutionReport}
    (hreport : report ∈ s.processor.sent) :
    (∃ text, ClientApplication.orderStatusToString report.ordStatus = .ok text) ∧
      ∃ index < (s.clients report.targetCompID).orderID, report.clOrdID = toString (index + 1) := by
  obtain ⟨i, hi⟩ := List.mem_iff_getElem?.mp hreport
  obtain ⟨message, hmessage, rfl⟩ := h.exists_message hi
  obtain ⟨order, horder, hterms, _⟩ := h.exists_order (List.mem_of_getElem? hmessage)
  obtain ⟨index, columns, price, quantity, hindex, _, _, _, _, hid⟩ := h.exists_order_line horder
  constructor
  · simp only [OutgoingMessageProcessor.executionReport]
    cases message.type <;> exact ⟨_, rfl⟩
  · have howner : order.owner = message.order.owner := congrArg OrderTerms.owner hterms
    have hsent := (h.clients order.owner).sent.1
    refine ⟨index, ?_, (congrArg OrderTerms.clientOrderID hterms).symm.trans hid⟩
    change index < (s.clients message.order.owner).orderID
    rw [← howner]
    omega

/-- A step of a client that neither sends nor receives. -/
theorem setOrderID (h : s.Linked undefined transmit session symbols lines)
    (hnext : ClientServer.next undefined transmit session (.setOrderID clientID) s = some t) :
    t.Linked undefined transmit session symbols lines := by
  obtain ⟨client, hclient, rfl⟩ := Option.map_eq_some_iff.mp hnext
  obtain ⟨hsent, hnumbered⟩ := (h.clients clientID).setOrderID hclient
  have hsame : ∀ other, (Function.update s.clients clientID client other).sent = (s.clients other).sent := by
    intro other
    by_cases hother : other = clientID
    · subst hother
      rw [Function.update_self, hsent]
    · rw [Function.update_of_ne hother]
  refine ⟨h.pipeline, fun other => ?_, fun other => ?_, fun other => ?_, h.processor, h.reports⟩
  · by_cases hother : other = clientID
    · subst hother
      simpa only [Function.update_self] using hnumbered
    · simpa only [Function.update_of_ne hother] using h.clients other
  · obtain ⟨waiting, hwaiting, hsent⟩ := h.sent other
    exact ⟨waiting, hwaiting, hsent.trans (congrArg _ (hsame other).symm)⟩
  · simpa only [hsame] using h.sessions other

/-- A client sends a request, or stops. -/
theorem send (h : s.Linked undefined transmit session symbols lines)
    (hcarried : ∀ columns ∈ lines clientID, columns.Carried transmit)
    (hnext : ClientServer.next undefined transmit session (.send clientID) s = some t) :
    t.Linked undefined transmit session symbols lines := by
  obtain ⟨⟨client, messages⟩, hclient, rfl⟩ := Option.map_eq_some_iff.mp hnext
  obtain ⟨hnumbered, hcases⟩ := (h.clients clientID).send hclient
  refine ⟨h.pipeline, fun other => ?_, fun other => ?_, fun other => ?_, h.processor, h.reports⟩
  · by_cases hother : other = clientID
    · subst hother
      simpa only [Function.update_self] using hnumbered
    · simpa only [Function.update_of_ne hother] using h.clients other
  · by_cases hother : other = clientID
    · subst hother
      simp only [Function.update_self]
      obtain ⟨waiting, hwaiting, hsent⟩ := h.sent other
      obtain ⟨hsame, rfl⟩ | ⟨request, columns, hsucc, hcolumns, _, rfl, hsender, hid, rfl⟩ := hcases
      · rw [hsame, List.append_nil]
        exact ⟨waiting, hwaiting, hsent⟩
      · refine ⟨waiting ++ [request.toClientRequestColumns.request undefined other (s.clients other).sent],
          List.rel_append hwaiting (.cons ⟨ClientRequest.transmitted_message
            (hcarried _ (List.mem_of_getElem? hcolumns)), ClientRequest.fromApp_message undefined hsender hid⟩ .nil), ?_⟩
        rw [hsucc, requestsUpTo_succ hcolumns, ← hsent, List.append_assoc]
        rfl
    · obtain ⟨waiting, hwaiting, hsent⟩ := h.sent other
      simp only [Function.update_of_ne hother]
      exact ⟨waiting, hwaiting, hsent⟩
  · by_cases hother : other = clientID
    · subst hother
      simp only [Function.update_self]
      obtain ⟨hsame, _⟩ | ⟨request, columns, hsucc, hcolumns, hsession, _⟩ := hcases
      · rw [hsame]
        exact h.sessions other
      · intro index line hindex hline
        rw [hsucc] at hindex
        rcases Nat.lt_succ_iff_lt_or_eq.mp hindex with hless | rfl
        · exact h.sessions other index line hless hline
        · rw [hcolumns] at hline
          exact Option.some.inj hline ▸ hsession
    · simpa only [Function.update_of_ne hother] using h.sessions other

/-- The server receives a message: its handler pushes the next request of the client. -/
theorem receive (h : s.Linked undefined transmit session symbols lines)
    (hnext : ClientServer.next undefined transmit session (.receive clientID) s = some t) :
    t.Linked undefined transmit session symbols lines := by
  simp only [ClientServer.next] at hnext
  split at hnext
  · cases hnext
  · rename_i message rest hqueue
    obtain ⟨server, hserver, rfl⟩ := Option.map_eq_some_iff.mp hnext
    obtain ⟨waiting, hwaiting, hsent⟩ := h.sent clientID
    rw [hqueue] at hwaiting
    obtain ⟨request, waiting, hcarries, hrest, rfl⟩ := List.forall₂_cons_left_iff.mp hwaiting
    have howner : request.terms.owner = clientID := by
      obtain ⟨index, columns, _, _, rfl⟩ := mem_requestsUpTo (hsent ▸ List.mem_append_right _ (List.mem_cons_self ..))
      exact ClientRequestColumns.request_owner ..
    obtain ⟨htransmitted, hpushes⟩ := hcarries
    simp only [htransmitted, Server.next, FIX.Message.read_id, hpushes, Option.some.injEq] at hserver
    subst hserver
    have hpush : (MatchingEngine.pipeline symbols).next (.push request) s.server.pipeline =
        some ([ServerCall.pushMessage request].foldl (Server.perform message.orderQty) s.server).pipeline := rfl
    refine ⟨h.pipeline.step trivial hpush, h.clients, fun other => ?_, h.sessions, h.processor, h.reports⟩
    by_cases hother : other = clientID
    · subst hother
      refine ⟨waiting, by simpa only [Function.update_self] using hrest, ?_⟩
      rw [← hsent, pushedBy, pushedBy]
      simp [Server.perform, howner]
    · obtain ⟨others, hothers, hsame⟩ := h.sent other
      refine ⟨others, by simpa only [Function.update_of_ne hother] using hothers, ?_⟩
      rw [← hsame, pushedBy, pushedBy]
      simp [Server.perform, howner, Ne.symm hother]

/-- A step of the threads behind the handlers. -/
theorem thread (h : s.Linked undefined transmit session symbols lines) {label : Pipeline.Label}
    (hnext : ClientServer.next undefined transmit session (.thread label) s = some t) :
    t.Linked undefined transmit session symbols lines := by
  obtain ⟨server, hserver, rfl⟩ := Option.map_eq_some_iff.mp hnext
  have hstep : s.server.pipeline.added label = [] ∧ Pipeline.next label s.server.pipeline = some server.pipeline := by
    cases label with
    | push request => cases hserver
    | flush | dispatch | dispatcherOperation | pop | execute | workerOperation =>
      obtain ⟨pipeline, hpipeline, rfl⟩ := Option.map_eq_some_iff.mp hserver
      exact ⟨rfl, hpipeline⟩
  obtain ⟨hadded, hstep⟩ := hstep
  have hpushed : server.pipeline.pushed = s.server.pipeline.pushed := by
    rw [(Pipeline.next_records hstep).2, hadded, List.append_nil]
  obtain ⟨more, hmore⟩ := (Pipeline.next_appends hstep).1
  refine ⟨h.pipeline.step trivial hstep, h.clients, fun clientID => ?_, h.sessions, ?_, h.reports⟩
  · simpa only [pushedBy, hpushed] using h.sent clientID
  · rw [← hmore, List.length_append, List.take_append_of_le_length h.processor.1]
    exact ⟨Nat.le_add_right_of_le h.processor.1, h.processor.2⟩

/-- The processor sends the report on the next message. -/
theorem process (h : s.Linked undefined transmit session symbols lines)
    (hnext : ClientServer.next undefined transmit session .process s = some t) :
    t.Linked undefined transmit session symbols lines := by
  obtain ⟨message, hmessage, ht⟩ := Option.map_eq_some_iff.mp hnext
  obtain ⟨hlt, -⟩ := List.getElem?_eq_some_iff.mp hmessage
  have hprocessed : s.processor.process message =
      OutgoingMessageProcessor.initial.processAll (s.server.pipeline.engine.outgoingMessages.take (s.dequeued + 1)) := by
    rw [List.take_add_one, hmessage, OutgoingMessageProcessor.processAll, List.foldl_append]
    exact congrArg (·.process message) h.processor.2
  obtain ⟨report, hreport⟩ : ∃ report, report =
      OutgoingMessageProcessor.executionReport s.processor.genExecID.2 message := ⟨_, rfl⟩
  have hsent : (s.processor.process message).sent = s.processor.sent ++ [report] := hreport ▸ rfl
  simp only [← hreport] at ht
  subst ht
  refine ⟨h.pipeline, h.clients, h.sent, h.sessions, ⟨hlt, hprocessed⟩, fun clientID => ?_⟩
  · simp only [reportsTo, hsent, List.filter_append]
    rw [← reportsTo, ← h.reports clientID]
    by_cases hsession : session report.targetCompID report.senderCompID = true
    · rw [if_pos hsession]
      by_cases hclient : clientID = report.targetCompID
      · subst hclient
        simp [hsession]
      · simp [Function.update_of_ne hclient, Ne.symm hclient]
    · rw [if_neg hsession]
      have hnot : ¬(report.targetCompID = clientID ∧ session clientID report.senderCompID = true) := by
        rintro ⟨rfl, hsome⟩
        exact hsession hsome
      simp only [hnot, decide_false, List.filter_cons_of_neg, List.filter_nil, List.append_nil, Bool.false_eq_true, not_false_iff]

/-- A client handles the next report. -/
theorem deliver (h : s.Linked undefined transmit session symbols lines)
    (hnext : ClientServer.next undefined transmit session (.deliver clientID) s = some t) :
    t.Linked undefined transmit session symbols lines := by
  simp only [ClientServer.next] at hnext
  split at hnext
  · cases hnext
  · rename_i report rest hqueue
    obtain ⟨client, hclient, rfl⟩ := Option.map_eq_some_iff.mp hnext
    have hreport : report ∈ s.reportsTo session clientID := by
      rw [← h.reports clientID, hqueue]
      exact List.mem_append_right _ (List.mem_cons_self ..)
    obtain ⟨hsent, htarget⟩ := List.mem_filter.mp hreport
    obtain ⟨rfl, _⟩ := of_decide_eq_true htarget
    obtain ⟨hstatus, hid⟩ := h.report_known hsent
    obtain ⟨after, hafter, hsame, hnumbered⟩ := (h.clients report.targetCompID).onMessage hstatus hid
    rw [hafter] at hclient
    obtain rfl := Option.some.inj hclient
    have hcount : ∀ other, (Function.update s.clients report.targetCompID after other).sent = (s.clients other).sent := by
      intro other
      by_cases hother : other = report.targetCompID
      · rw [hother, Function.update_self, hsame]
      · rw [Function.update_of_ne hother]
    refine ⟨h.pipeline, fun other => ?_, fun other => ?_, fun other => ?_, h.processor, fun other => ?_⟩
    · by_cases hother : other = report.targetCompID
      · subst hother
        simpa only [Function.update_self] using hnumbered
      · simpa only [Function.update_of_ne hother] using h.clients other
    · obtain ⟨waiting, hwaiting, hlines⟩ := h.sent other
      exact ⟨waiting, hwaiting, hlines.trans (congrArg _ (hcount other).symm)⟩
    · simpa only [hcount] using h.sessions other
    · refine Eq.trans ?_ (h.reports other)
      by_cases hother : other = report.targetCompID
      · subst hother
        simp only [Function.update_self, hqueue, List.append_assoc, List.singleton_append]
      · simp only [Function.update_of_ne hother]

end Linked

/-- Every reachable state connects the clients with the server, if the numbers of all lines reach it unchanged. -/
theorem linked_of_reachable (hcarried : ∀ clientID, ∀ columns ∈ lines clientID, columns.Carried transmit)
    (h : (clientServer undefined transmit session symbols lines).Reachable s) :
    s.Linked undefined transmit session symbols lines := by
  induction h with
  | start =>
    refine ⟨.start, fun clientID => ClientApplication.numbered_load clientID (lines clientID),
      fun clientID => ⟨[], .nil, rfl⟩, fun clientID index columns hindex => ?_, ⟨Nat.le_refl _, rfl⟩, fun clientID => rfl⟩
    cases hindex
  | @step label s t _ _ hnext ih =>
    cases label with
    | setOrderID clientID => exact ih.setOrderID hnext
    | send clientID => exact ih.send (hcarried clientID) hnext
    | receive clientID => exact ih.receive hnext
    | thread label => exact ih.thread hnext
    | process => exact ih.process hnext
    | deliver clientID => exact ih.deliver hnext

/-- Different new-order requests of a client have different numbers. -/
theorem requestsUpTo_pairwise (sent : ℕ) : (requestsUpTo undefined lines clientID sent).Pairwise fun x y =>
    x.type = .newOrder → y.type = .newOrder → x.terms.clientOrderID ≠ y.terms.clientOrderID := by
  refine List.pairwise_iff_getElem.mpr fun i j hi hj hlt hx hy hsame => ?_
  have hnumber : ∀ {columns : ClientRequestColumns} {index : ℕ},
      (columns.request undefined clientID index).type = .newOrder →
        (columns.request undefined clientID index).terms.clientOrderID = toString (index + 1) := by
    intro columns index htype
    unfold ClientRequestColumns.request at htype ⊢
    cases hdetails : columns.details with
    | newOrder price quantity => rfl
    | cancelOrder origOrderID =>
      rw [hdetails] at htype
      cases htype
  simp only [requestsUpTo, List.getElem_mapIdx] at hx hy hsame
  rw [hnumber hx, hnumber hy] at hsame
  have := toString_inj hsame
  omega

namespace Linked

/-- An order is known by its client and its number. -/
theorem eq_of_number (h : s.Linked undefined transmit session symbols lines) {x y : Order}
    (hx : x ∈ Pipeline.orders s.server.pipeline.pushed) (hy : y ∈ Pipeline.orders s.server.pipeline.pushed)
    (howner : x.owner = y.owner) (hnumber : x.clientOrderID = y.clientOrderID) : x = y := by
  obtain ⟨waiting, _, hsent⟩ := h.sent y.owner
  have hpairwise := (hsent ▸ requestsUpTo_pairwise _ : (s.pushedBy y.owner ++ waiting).Pairwise _).sublist
    (List.sublist_append_left ..)
  rw [pushedBy, List.pairwise_filter, List.pairwise_map, List.pairwise_iff_getElem] at hpairwise
  obtain ⟨first, hfirst, rfl⟩ := List.mem_map.mp hx
  obtain ⟨second, hsecond, rfl⟩ := List.mem_map.mp hy
  obtain ⟨hfirst, htype⟩ := List.mem_filter.mp hfirst
  obtain ⟨hsecond, htypes⟩ := List.mem_filter.mp hsecond
  have hfirstOwner : decide (first.request.terms.owner = second.order.owner) = true := decide_eq_true howner
  have hsecondOwner : decide (second.request.terms.owner = second.order.owner) = true := decide_eq_true rfl
  obtain ⟨i, hi, rfl⟩ := List.mem_iff_getElem.mp hfirst
  obtain ⟨j, hj, rfl⟩ := List.mem_iff_getElem.mp hsecond
  rw [beq_iff_eq] at htype htypes
  rcases lt_trichotomy i j with hlt | rfl | hlt
  · exact absurd hnumber (hpairwise i j hi hj hlt hfirstOwner hsecondOwner htype htypes)
  · rfl
  · exact absurd hnumber.symm (hpairwise j i hj hi hlt hsecondOwner hfirstOwner htypes htype)

/-- The report on a message marks the requests about its order that the message ends. -/
theorem marks_iff (h : s.Linked undefined transmit session symbols lines) {message : OutgoingMessage}
    (hmessage : message ∈ s.server.pipeline.engine.outgoingMessages) {index : ℕ} {columns : ClientRequestColumns}
    (hline : (lines message.order.owner)[index]? = some columns) (execID : String) :
    Marks index columns (OutgoingMessageProcessor.executionReport execID message) ↔
      message.order.clientOrderID = columns.orderNumber index ∧ columns.EndedBy message.type := by
  unfold Marks ClientRequestColumns.orderNumber ClientRequestColumns.EndedBy
  rw [OutgoingMessageProcessor.executionReport_ends, OutgoingMessageProcessor.executionReport_canceled]
  cases hdetails : columns.details with
  | newOrder price quantity =>
    simp only [reduceCtorEq, and_false, or_false]
    exact and_comm
  | cancelOrder origOrderID =>
    -- The number of a cancel is the number of no order.
    have hnot : message.order.clientOrderID ≠ toString (index + 1) := by
      intro hnumber
      obtain ⟨order, horder, hterms, _⟩ := h.exists_order hmessage
      obtain ⟨other, others, price, quantity, _, hother, hnew, _, _, hid⟩ := h.exists_order_line horder
      have howner : order.owner = message.order.owner := congrArg OrderTerms.owner hterms
      have hclient : order.clientOrderID = message.order.clientOrderID := congrArg OrderTerms.clientOrderID hterms
      obtain rfl : other = index := by
        have := toString_inj (hid.symm.trans (hclient.trans hnumber))
        omega
      rw [howner, hline, Option.some.injEq] at hother
      rw [← hother, hdetails] at hnew
      cases hnew
    have hclOrdID : (OutgoingMessageProcessor.executionReport execID message).clOrdID = message.order.clientOrderID := rfl
    rw [hclOrdID, or_iff_right fun hends => hnot hends.2, ClientRequestDetails.cancelOrder.injEq]
    exact ⟨fun ⟨hcanceled, hid⟩ => ⟨hid.symm, hcanceled⟩, fun ⟨hid, hcanceled⟩ => ⟨hcanceled, hid.symm⟩⟩

/-- When the reports at the front mark every request of a client, they are all the reports for the client, and no order of
the client rests. -/
theorem reports_complete (h : s.Linked undefined transmit session symbols lines) {reports : List FIX.ExecutionReport}
    (hreports : reports <+: s.reportsTo session clientID)
    (hmarked : ∀ index columns, (lines clientID)[index]? = some columns → ∃ report ∈ reports, Marks index columns report) :
    s.reportsTo session clientID = reports ∧
      ∀ symbol, ∀ resting ∈ (s.server.pipeline.engine.bookOf symbol).resting, resting.owner ≠ clientID := by
  obtain ⟨more, hmore⟩ := hreports
  obtain ⟨front, rest, hsplit, rfl, rfl⟩ := List.filter_eq_append_iff.mp hmore.symm
  have hended : ∀ order ∈ Pipeline.orders s.server.pipeline.pushed, order.owner = clientID →
      ∃ message ∈ s.server.pipeline.engine.outgoingMessages.take front.length,
        message.order.serial = order.serial ∧ message.type.ends = true := by
    rintro order horder rfl
    obtain ⟨index, columns, price, quantity, _, hline, hdetails, _, _, hnumber⟩ := h.exists_order_line horder
    obtain ⟨report, hreport, hmarks⟩ := hmarked index columns hline
    obtain ⟨hfront, hselected⟩ := List.mem_filter.mp hreport
    obtain ⟨i, hi⟩ := List.mem_iff_getElem?.mp hfront
    have hlt : i < front.length := (List.getElem?_eq_some_iff.mp hi).1
    obtain ⟨message, hmessage, rfl⟩ := h.exists_message (by rw [hsplit, List.getElem?_append_left hlt, hi])
    have hmem := List.mem_of_getElem? hmessage
    have howner : message.order.owner = order.owner := (of_decide_eq_true hselected).1
    rw [h.marks_iff hmem (howner ▸ hline), ClientRequestColumns.orderNumber, ClientRequestColumns.EndedBy, hdetails] at hmarks
    obtain ⟨other, hother, hterms, hserial⟩ := h.exists_order hmem
    have hsame : other = order := h.eq_of_number hother horder ((congrArg OrderTerms.owner hterms).trans howner)
      ((congrArg OrderTerms.clientOrderID hterms).trans (hmarks.1.trans hnumber.symm))
    have htake : message ∈ s.server.pipeline.engine.outgoingMessages.take front.length :=
      List.mem_of_getElem? (i := i) (by rw [List.getElem?_take, if_pos hlt, hmessage])
    exact ⟨message, htake, hsame ▸ hserial, hmarks.2⟩
  constructor
  · rw [← hmore]
    refine (List.append_right_eq_self.mpr (List.eq_nil_iff_forall_not_mem.mpr fun report hreport => ?_))
    obtain ⟨hrest, hselected⟩ := List.mem_filter.mp hreport
    obtain ⟨j, hj⟩ := List.mem_iff_getElem?.mp hrest
    obtain ⟨message, hmessage, rfl⟩ := h.exists_message (i := front.length + j)
      (by rw [hsplit, List.getElem?_append_right (Nat.le_add_right ..), Nat.add_sub_cancel_left, hj])
    obtain ⟨order, horder, hterms, hserial⟩ := h.exists_order (List.mem_of_getElem? hmessage)
    have howner : order.owner = clientID :=
      (congrArg OrderTerms.owner hterms).trans (of_decide_eq_true hselected).1
    obtain ⟨ending, hending, hsame, hends⟩ := hended order horder howner
    have hnone := Pipeline.reportsOn_eq_nil_of_ended h.pipeline horder (List.take_append_drop front.length _).symm hending
      hsame hends
    have hdrop : message ∈ s.server.pipeline.engine.outgoingMessages.drop front.length :=
      List.mem_of_getElem? (i := j) (by rw [List.getElem?_drop, hmessage])
    have hmem : message ∈ reportsOn order.serial (s.server.pipeline.engine.outgoingMessages.drop front.length) :=
      List.mem_filter.mpr ⟨hdrop, beq_iff_eq.mpr hserial⟩
    rw [hnone] at hmem
    cases hmem
  · rintro symbol resting hresting rfl
    obtain ⟨original, horiginal, _, _, hterms, hserial⟩ :=
      Pipeline.exists_pushed_of_resting (Pipeline.consistent_of_reachable h.pipeline) hresting
    obtain ⟨message, hmessage, hsame, hends⟩ := hended original horiginal (congrArg OrderTerms.owner hterms)
    exact Pipeline.not_resting_of_ended h.pipeline horiginal (List.mem_of_mem_take hmessage) hsame hends hresting hserial.symm

end Linked

/-- Delivered reports stay delivered. -/
theorem next_delivered {label : Label} (hnext : ClientServer.next undefined transmit session label s = some t)
    (clientID : String) : s.delivered clientID <+: t.delivered clientID := by
  cases label with
  | setOrderID other | send other | thread other | process =>
    obtain ⟨_, _, rfl⟩ := Option.map_eq_some_iff.mp hnext
    exact List.prefix_refl _
  | receive other =>
    simp only [ClientServer.next] at hnext
    split at hnext
    · cases hnext
    · obtain ⟨_, _, rfl⟩ := Option.map_eq_some_iff.mp hnext
      exact List.prefix_refl _
  | deliver other =>
    simp only [ClientServer.next] at hnext
    split at hnext
    · cases hnext
    · obtain ⟨_, _, rfl⟩ := Option.map_eq_some_iff.mp hnext
      by_cases hother : clientID = other
      · subst hother
        simp only [Function.update_self]
        exact List.prefix_append ..
      · simp only [Function.update_of_ne hother]
        exact List.prefix_refl _

/-- Over a run, delivered reports stay delivered. -/
theorem run_delivered {labels : List Label}
    (hrun : (clientServer undefined transmit session symbols lines).run labels s = some t) (clientID : String) :
    s.delivered clientID <+: t.delivered clientID :=
  Machine.run_invariant (I := fun u => s.delivered clientID <+: u.delivered clientID)
    (fun _ _ _ hu hnext => hu.trans (next_delivered hnext clientID)) (List.prefix_refl _) hrun

/-- A file with an order and a cancel of it. -/
def orderAndCancel : List ClientRequestColumns :=
  [⟨"A", .buy, "EXCHANGE", .newOrder 10 5⟩, ⟨"A", .buy, "EXCHANGE", .cancelOrder "1"⟩]

/-- A client with this file, and the server for one symbol. Numbers as small as these reach the server unchanged. -/
def orderAndCancelServer : Machine ClientServer Label :=
  clientServer (fun _ => 0) some (fun _ _ => true) ["A"] fun _ => orderAndCancel

/-- The client enters the order and cancels it, and the reports reach it. -/
def orderAndCancelLabels : List Label :=
  [.setOrderID "CLIENT", .send "CLIENT", .setOrderID "CLIENT", .send "CLIENT", .receive "CLIENT", .receive "CLIENT",
    .thread .flush, .thread .dispatch, .thread .dispatcherOperation, .thread .dispatcherOperation, .thread .dispatch,
    .thread .dispatcherOperation, .thread (.pop 0), .thread (.execute 0), .thread (.pop 0), .thread (.execute 0),
    .thread (.workerOperation 0), .process, .process, .deliver "CLIENT", .deliver "CLIENT"]

/-- Nothing is left to do for a client: its messages were received, no new order is on its way, and all reports were sent
and have reached it. -/
structure Quiet (clientID : String) (s : ClientServer) : Prop where
  received : s.toServer clientID = []
  pipeline : s.server.pipeline.Quiet
  processed : s.dequeued = s.server.pipeline.engine.outgoingMessages.length
  delivered : s.toClient clientID = []

namespace Linked

/-- When nothing is left to do, a request is marked exactly when a message has ended it. -/
theorem marked_iff (h : s.Linked undefined transmit session symbols lines) (hquiet : s.Quiet clientID) {index : ℕ}
    {columns : ClientRequestColumns} (hline : (lines clientID)[index]? = some columns) :
    (∃ report ∈ s.delivered clientID, Marks index columns report) ↔
      ∃ message ∈ s.server.pipeline.engine.outgoingMessages, message.order.owner = clientID ∧
        message.order.clientOrderID = columns.orderNumber index ∧ columns.EndedBy message.type := by
  have hdelivered := h.reports clientID
  rw [hquiet.delivered, List.append_nil] at hdelivered
  rw [hdelivered]
  constructor
  · rintro ⟨report, hreport, hmarks⟩
    obtain ⟨hsent, hselected⟩ := List.mem_filter.mp hreport
    obtain ⟨i, hi⟩ := List.mem_iff_getElem?.mp hsent
    obtain ⟨message, hmessage, rfl⟩ := h.exists_message hi
    have hmem := List.mem_of_getElem? hmessage
    have howner : message.order.owner = clientID := (of_decide_eq_true hselected).1
    obtain ⟨hnumber, hends⟩ := (h.marks_iff hmem (howner ▸ hline) _).mp hmarks
    exact ⟨message, hmem, howner, hnumber, hends⟩
  · rintro ⟨message, hmem, rfl, hnumber, hends⟩
    obtain ⟨i, hi⟩ := List.mem_iff_getElem?.mp hmem
    have hreport : s.processor.sent[i]? = some (OutgoingMessageProcessor.executionReport (toString (i + 1)) message) := by
      rw [h.processor.2, hquiet.processed, List.take_length]
      exact OutgoingMessageProcessor.sent_getElem? hi
    -- The client has sent the order, so that there is a session to its target.
    obtain ⟨order, horder, hterms, _⟩ := h.exists_order hmem
    obtain ⟨other, others, _, _, hindex, hother, _, _, htarget, _⟩ := h.exists_order_line horder
    have howner : order.owner = message.order.owner := congrArg OrderTerms.owner hterms
    have hsession := h.sessions order.owner other others hindex hother
    rw [← htarget, howner, congrArg OrderTerms.target hterms] at hsession
    exact ⟨_, List.mem_filter.mpr ⟨List.mem_of_getElem? hreport, decide_eq_true ⟨rfl, hsession⟩⟩,
      (h.marks_iff hmem hline _).mpr ⟨hnumber, hends⟩⟩

/-- The order of a line that was sent and received. -/
theorem exists_order_of_line (h : s.Linked undefined transmit session symbols lines) (hreceived : s.toServer clientID = [])
    {index : ℕ} (hindex : index < (s.clients clientID).sent) {columns : ClientRequestColumns}
    (hline : (lines clientID)[index]? = some columns) {price : ℚ} {quantity : ℤ}
    (hdetails : columns.details = .newOrder price quantity) : ∃ order ∈ Pipeline.orders s.server.pipeline.pushed,
      order.owner = clientID ∧ order.symbol = columns.symbol ∧ order.clientOrderID = toString (index + 1) := by
  obtain ⟨waiting, hwaiting, hsent⟩ := h.sent clientID
  rw [hreceived] at hwaiting
  cases hwaiting
  rw [List.append_nil] at hsent
  have hmem : columns.request undefined clientID index ∈ s.pushedBy clientID := by
    rw [hsent]
    refine List.mem_of_getElem? (i := index) ?_
    rw [requestsUpTo, List.getElem?_mapIdx, List.getElem?_take, if_pos hindex, hline]
    rfl
  obtain ⟨message, hmessage, hrequest⟩ := List.mem_map.mp (List.mem_of_mem_filter hmem)
  rw [ClientRequestColumns.request, hdetails] at hrequest
  have htype : message.type = .newOrder := congrArg Request.type hrequest
  have hterms : message.order.toOrderTerms = _ := congrArg Request.terms hrequest
  refine ⟨message.order, List.mem_map_of_mem (List.mem_filter.mpr ⟨hmessage, beq_iff_eq.mpr htype⟩), ?_, ?_, ?_⟩
  all_goals rw [hterms]

end Linked

/-- The client enters the order, and it rests. -/
def orderRestsLabels : List Label :=
  [.setOrderID "CLIENT", .send "CLIENT", .receive "CLIENT", .thread .flush, .thread .dispatch, .thread .dispatcherOperation,
    .thread .dispatcherOperation, .thread (.pop 0), .thread (.execute 0), .process, .deliver "CLIENT"]

end ClientServer

end MatchingEngine
