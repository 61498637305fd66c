import MatchingEngine.CentralOrderBook

/-!
# Which symbols have a book

An addition looks its symbol up before it accesses the dictionaries, but a cancel accesses
them at once. A cancel on a symbol that is not configured therefore inserts it into both
dictionaries, and later orders on it are accepted.

The dictionaries hold exactly the configured symbols as long as, and only as long as,
every cancel request names one of them.
-/

namespace MatchingEngine

namespace CentralOrderBook

variable {symbols : List String} {c after : CentralOrderBook}

/-- Both dictionaries have exactly the configured symbols as keys. -/
structure KeysExact (symbols : List String) (c : CentralOrderBook) : Prop where
  orderBooks : ∀ symbol, symbol ∈ c.orderBookDictionary ↔ symbol ∈ symbols
  queueIDs : ∀ symbol, symbol ∈ c.queueIDDictionary ↔ symbol ∈ symbols

/-- An order is accepted with one message exactly when its symbol is configured; a rejection is
one message too, and changes no book and no work queue. -/
structure AdditionExact (symbols : List String) (c : CentralOrderBook) (order : Order) : Prop where
  accepted : order.symbol ∈ symbols → ∃ after, c.addOrder order = .ok (after, true) ∧
    after.outgoingMessages = c.outgoingMessages ++ [⟨order, .accepted, ""⟩]
  rejected : order.symbol ∉ symbols → ∃ after, c.addOrder order = .ok (after, false) ∧
    after.outgoingMessages = c.outgoingMessages ++ [⟨order, .rejected, "Symbol not supported"⟩] ∧
    after.orderBookDictionary = c.orderBookDictionary ∧ after.threadQueues = c.threadQueues

/-- Every queue ID that can be read belongs to a queue. -/
def Valid (c : CentralOrderBook) : Prop := ∀ symbol, c.queueIDOf symbol < c.queueCount

/-- Functions and tasks never change a queue ID that was or could be read. -/
theorem next_queues {event : Event} (h : next event c = some after) :
    after.queueIDOf = c.queueIDOf ∧ after.queueCount = c.queueCount := by
  obtain ⟨order, _, rfl⟩ | ⟨order, id, _, rfl⟩ | ⟨queueID, task, rest, _, _, rfl⟩ := c.next_cases h
  · have hsame := c.addOrderWork_sameQueues order
    exact ⟨funext hsame.queueIDOf, hsame.queueCount⟩
  · have hsame := c.cancelOrderWork_sameQueues order id
    exact ⟨funext hsame.queueIDOf, hsame.queueCount⟩
  · have hsame := (c.withQueue queueID rest).taskWork_sameQueues task
    exact ⟨funext hsame.queueIDOf, hsame.queueCount⟩

/-- The queue IDs of every state are those of the initialisation. -/
theorem reachable_queues (h : (engine symbols).Reachable c) :
    c.queueIDOf = (initialise symbols).queueIDOf ∧ c.queueCount = symbols.length := by
  induction h with
  | start => exact ⟨rfl, rfl⟩
  | step _ _ hnext ih =>
    obtain ⟨hids, hcount⟩ := next_queues hnext
    exact ⟨hids.trans ih.1, hcount.trans ih.2⟩

/-- With a thread for at least one symbol, no submission of a task throws. -/
theorem valid_of_reachable (hsymbols : symbols ≠ []) (h : (engine symbols).Reachable c) : c.Valid := by
  obtain ⟨hids, hcount⟩ := reachable_queues h
  intro symbol
  rw [hids, hcount]
  exact initialise_queueIDOf_lt hsymbols symbol

/-- A symbol has a book exactly when it is a key of the dictionary of books. -/
theorem doesOrderBookExist_iff (symbol : String) :
    c.doesOrderBookExist symbol = true ↔ symbol ∈ c.orderBookDictionary :=
  Finmap.lookup_isSome

/-- With exact keys, additions are exact. -/
theorem KeysExact.addition (h : KeysExact symbols c) (hvalid : c.Valid) (order : Order) :
    AdditionExact symbols c order := by
  have hexists := (doesOrderBookExist_iff order.symbol).trans (h.orderBooks order.symbol)
  constructor
  · intro hsymbol
    obtain ⟨operations, hoperations⟩ : ∃ operations : List QueueOperation, operations =
        [.enqueue ⟨order, .accepted, ""⟩, .submitTask (.newOrder order) (c.queueIDOf order.symbol)] := ⟨_, rfl⟩
    have hids : ∀ task queueID, .submitTask task queueID ∈ operations → queueID < c.queueCount := by
      simpa [hoperations] using hvalid order.symbol
    have hperform := performAll_eq
      { c with queueIDDictionary := c.queueIDDictionary.insertNew order.symbol 0 } hids
    refine ⟨afterOperations { c with queueIDDictionary := c.queueIDDictionary.insertNew order.symbol 0 } operations,
      ?_, ?_⟩
    · rw [addOrder, addOrderWork, if_pos (hexists.mpr hsymbol)]
      simp only
      rw [← hoperations, hperform]
      rfl
    · simp [hoperations]
  · intro hsymbol
    refine ⟨{ c with outgoingMessages := c.outgoingMessages ++ [⟨order, .rejected, "Symbol not supported"⟩] }, ?_,
      rfl, rfl, rfl⟩
    rw [addOrder, addOrderWork, if_neg fun hkey => hsymbol (hexists.mp hkey)]
    rfl

/-- Exact keys, and only tasks on configured symbols in the work queues. -/
structure Configured (symbols : List String) (c : CentralOrderBook) : Prop extends KeysExact symbols c where
  tasks : ∀ queueID, ∀ task ∈ c.threadQueues queueID, task.symbol ∈ symbols

/-- A request is configured unless it is a cancel on another symbol. -/
def Event.configured (symbols : List String) : Event → Prop
  | .cancelOrder order _ => order.symbol ∈ symbols
  | .addOrder _ => True
  | .work _ => True

/-- Additions change no key of exact dictionaries. -/
theorem Configured.addOrderWork_eq (h : Configured symbols c) (order : Order) : (c.addOrderWork order).1 = c := by
  unfold addOrderWork
  split
  · rename_i hexists
    have hsymbol := (h.orderBooks order.symbol).mp ((doesOrderBookExist_iff order.symbol).mp hexists)
    have hkey := (h.queueIDs order.symbol).mpr hsymbol
    simp only [c.queueIDDictionary.insertNew_of_mem _ _ hkey]
  · rfl

/-- An accepted order has a configured symbol, so that only tasks on configured symbols are submitted. -/
theorem Configured.submitted_addOrder (h : Configured symbols c) (order : Order) {queueID : ℕ} {task : Task}
    (htask : task ∈ submitted queueID (c.addOrderWork order).2.1) : task.symbol ∈ symbols := by
  unfold addOrderWork at htask
  split at htask
  · rename_i hexists
    have hsymbol := (h.orderBooks order.symbol).mp ((doesOrderBookExist_iff order.symbol).mp hexists)
    simp only [submitted_enqueue, submitted_submitTask, submitted_nil] at htask
    split at htask
    · rw [List.mem_singleton] at htask
      exact htask ▸ hsymbol
    · simp at htask
  · simp [rejectOrderWork] at htask

/-- A cancel on a configured symbol changes no key of exact dictionaries. -/
theorem Configured.cancelOrderWork_eq (h : Configured symbols c) {order : Order} (hsymbol : order.symbol ∈ symbols)
    (origClientOrderID : String) : (c.cancelOrderWork order origClientOrderID).1 = c := by
  have hkey := (h.queueIDs order.symbol).mpr hsymbol
  simp only [cancelOrderWork, c.queueIDDictionary.insertNew_of_mem _ _ hkey]

/-- A task on a configured symbol changes no key of exact dictionaries. -/
theorem Configured.taskWork_keys (h : Configured symbols c) {task : Task} (hsymbol : task.symbol ∈ symbols) :
    KeysExact symbols (c.taskWork task).1 := by
  have hkey := (h.orderBooks task.symbol).mpr hsymbol
  have hassign : ∀ book symbol, symbol ∈ c.orderBookDictionary.assign task.symbol book ↔ symbol ∈ symbols := by
    intro book symbol
    rw [Dictionary.mem_assign, h.orderBooks symbol]
    exact or_iff_right_of_imp fun heq => heq ▸ hsymbol
  cases task with
  | newOrder order => exact ⟨hassign _, h.queueIDs⟩
  | cancelOrder order origClientOrderID =>
    simp only [taskWork, taskCancelOrderWork]
    split
    · exact ⟨hassign _, h.queueIDs⟩
    · have hbooks := c.orderBookDictionary.insertNew_of_mem order.symbol .empty hkey
      have hcancel : (c.cancelOrderWork order origClientOrderID).1 = c := h.cancelOrderWork_eq hsymbol _
      rw [hbooks]
      exact hcancel.symm ▸ h.toKeysExact

/-- Configured requests and the tasks they lead to keep the dictionaries exact. -/
theorem Configured.next (h : Configured symbols c) {event : Event} (hevent : event.configured symbols)
    (hnext : next event c = some after) : Configured symbols after := by
  obtain ⟨order, rfl, rfl⟩ | ⟨order, id, rfl, rfl⟩ | ⟨queueID, task, rest, rfl, hqueue, rfl⟩ := c.next_cases hnext
  · rw [h.addOrderWork_eq order]
    refine ⟨⟨h.orderBooks, h.queueIDs⟩, fun q task htask => ?_⟩
    rcases List.mem_append.mp htask with htask | htask
    · exact h.tasks q task htask
    · exact h.submitted_addOrder order htask
  · rw [h.cancelOrderWork_eq hevent id]
    refine ⟨⟨h.orderBooks, h.queueIDs⟩, fun q task htask => ?_⟩
    rcases List.mem_append.mp htask with htask | htask
    · exact h.tasks q task htask
    · simp only [cancelOrderWork, submitted_submitTask, submitted_nil] at htask
      split at htask
      · rw [List.mem_singleton] at htask
        exact htask ▸ hevent
      · simp at htask
  · have hrest : Configured symbols (c.withQueue queueID rest) :=
      ⟨⟨h.orderBooks, h.queueIDs⟩, fun q t ht => h.tasks q t (c.mem_of_mem_withQueue hqueue ht)⟩
    have hsymbol : task.symbol ∈ symbols := h.tasks queueID task (hqueue ▸ List.mem_cons_self ..)
    have hsame := (c.withQueue queueID rest).taskWork_sameQueues task
    refine ⟨⟨(hrest.taskWork_keys hsymbol).orderBooks, (hrest.taskWork_keys hsymbol).queueIDs⟩, fun q t ht => ?_⟩
    rw [afterOperations, hsame.threadQueues, taskWork_operations] at ht
    rcases List.mem_append.mp ht with ht | ht
    · exact hrest.tasks q t ht
    · -- Only the task itself can be submitted again.
      rw [submitted_append, submitted_map_enqueue, List.nil_append] at ht
      split at ht
      · simp only [submitted_submitTask, submitted_nil] at ht
        split at ht
        · rw [List.mem_singleton] at ht
          exact ht ▸ hsymbol
        · simp at ht
      · simp at ht

/-- The initial dictionaries are exact. -/
theorem configured_initialise (symbols : List String) : Configured symbols (initialise symbols) where
  orderBooks := mem_initialise_orderBookDictionary symbols
  queueIDs := mem_initialise_queueIDDictionary symbols
  tasks _ _ htask := absurd htask List.not_mem_nil

/-- Queue IDs are never forgotten. -/
theorem next_mem_queueIDDictionary {event : Event} (h : next event c = some after) {symbol : String}
    (hmem : symbol ∈ c.queueIDDictionary) : symbol ∈ after.queueIDDictionary := by
  obtain ⟨order, _, rfl⟩ | ⟨order, id, _, rfl⟩ | ⟨queueID, task, rest, _, _, rfl⟩ := c.next_cases h
  · change symbol ∈ (c.addOrderWork order).1.queueIDDictionary
    unfold addOrderWork
    split
    · exact (Dictionary.mem_insertNew ..).mpr (Or.inr hmem)
    · exact hmem
  · exact (Dictionary.mem_insertNew ..).mpr (Or.inr hmem)
  · change symbol ∈ ((c.withQueue queueID rest).taskWork task).1.queueIDDictionary
    cases task with
    | newOrder order => exact hmem
    | cancelOrder order id =>
      simp only [taskWork, taskCancelOrderWork]
      split
      · exact hmem
      · exact (Dictionary.mem_insertNew ..).mpr (Or.inr hmem)

/-- A cancel request inserts its symbol at once. -/
theorem next_cancelOrder_mem {order : Order} {id : String} (h : next (.cancelOrder order id) c = some after) :
    order.symbol ∈ after.queueIDDictionary := by
  obtain ⟨_, heq, _⟩ | ⟨_, _, heq, rfl⟩ | ⟨_, _, _, heq, _⟩ := c.next_cases h
  · cases heq
  · cases heq
    exact (Dictionary.mem_insertNew ..).mpr (Or.inl rfl)
  · cases heq

/-- Over a run, queue IDs are never forgotten. -/
theorem run_mem_queueIDDictionary {events : List Event} {s t : CentralOrderBook}
    (hrun : (engine symbols).run events s = some t) {symbol : String} (hmem : symbol ∈ s.queueIDDictionary) :
    symbol ∈ t.queueIDDictionary := by
  induction events generalizing s with
  | nil => exact (Option.some.inj hrun) ▸ hmem
  | cons event events ih =>
    obtain ⟨u, hu, hrest⟩ := Option.bind_eq_some_iff.mp hrun
    exact ih hrest (next_mem_queueIDDictionary hu hmem)

/-- At the end of a run, the symbols of all its cancel requests have a queue ID. -/
theorem run_cancelOrder_mem {events : List Event} {s t : CentralOrderBook}
    (hrun : (engine symbols).run events s = some t) {order : Order} {id : String}
    (hmem : .cancelOrder order id ∈ events) : order.symbol ∈ t.queueIDDictionary := by
  induction events generalizing s with
  | nil => exact absurd hmem List.not_mem_nil
  | cons event events ih =>
    obtain ⟨u, hu, hrest⟩ := Option.bind_eq_some_iff.mp hrun
    rcases List.mem_cons.mp hmem with rfl | hmem
    · exact run_mem_queueIDDictionary hrest (next_cancelOrder_mem hu)
    · exact ih hrest hmem

/-- Runs of configured requests keep the dictionaries exact. -/
theorem Configured.run {events : List Event} (hevents : ∀ event ∈ events, event.configured symbols)
    (h : Configured symbols c) (hrun : (engine symbols).run events c = some after) : Configured symbols after := by
  induction events generalizing c with
  | nil => exact (Option.some.inj hrun) ▸ h
  | cons event events ih =>
    obtain ⟨u, hu, hrest⟩ := Option.bind_eq_some_iff.mp hrun
    exact ih (fun e he => hevents e (List.mem_cons_of_mem _ he))
      (h.next (hevents event (List.mem_cons_self ..)) hu) hrest

/-- After a run, the keys and with them all additions are exact if and only if every cancel request
of the run named a configured symbol. -/
theorem keysExact_iff (hsymbols : symbols ≠ []) {events : List Event}
    (hrun : (engine symbols).run events (engine symbols).start = some c) :
    (KeysExact symbols c ∧ ∀ order, AdditionExact symbols c order) ↔
      ∀ order id, .cancelOrder order id ∈ events → order.symbol ∈ symbols := by
  constructor
  · rintro ⟨hkeys, _⟩ order id hmem
    exact (hkeys.queueIDs order.symbol).mp (run_cancelOrder_mem hrun hmem)
  · intro hcancels
    have hevents : ∀ event ∈ events, event.configured symbols := by
      intro event hevent
      cases event with
      | cancelOrder order id => exact hcancels order id hevent
      | addOrder | work => trivial
    have hkeys := ((configured_initialise symbols).run hevents hrun).toKeysExact
    exact ⟨hkeys, hkeys.addition (valid_of_reachable hsymbols (Machine.reachable_of_run hrun))⟩

/-- A request for a symbol. -/
def exampleOrder (symbol : String) : Order :=
  .ofTerms ⟨"1", symbol, "CLIENT", "EXCHANGE", .buy, .limit, 10, 5⟩ 0

/-- After a cancel on a configured symbol, the keys are still exact. -/
theorem keysExact_iff_cancel :
    ∃ c, (engine ["A"]).run [.cancelOrder (exampleOrder "A") "1", .work 0] (engine ["A"]).start = some c ∧
      ((KeysExact ["A"] c ∧ ∀ order, AdditionExact ["A"] c order) ↔
        ∀ order id, Event.cancelOrder order id ∈ [.cancelOrder (exampleOrder "A") "1", .work 0] →
          order.symbol ∈ ["A"]) :=
  ⟨_, rfl, keysExact_iff (by decide) rfl⟩

/-- A cancel on a symbol that is not configured makes the engine accept an order on it. -/
theorem unknown_symbol_accepted :
    ∃ c after, (engine ["A"]).run [.cancelOrder (exampleOrder "B") "1", .work 0] (engine ["A"]).start = some c ∧
      c.addOrder (exampleOrder "B") = .ok (after, true) ∧
      after.outgoingMessages = [⟨exampleOrder "B", .accepted, ""⟩] ∧
      ¬ KeysExact ["A"] c ∧ ¬ AdditionExact ["A"] c (exampleOrder "B") := by
  obtain ⟨c, after, hrun, haccepted, hmessages, hkey⟩ : ∃ c after,
      (engine ["A"]).run [.cancelOrder (exampleOrder "B") "1", .work 0] (engine ["A"]).start = some c ∧
      c.addOrder (exampleOrder "B") = .ok (after, true) ∧
      after.outgoingMessages = [⟨exampleOrder "B", .accepted, ""⟩] ∧ "B" ∈ c.orderBookDictionary :=
    ⟨_, _, rfl, rfl, rfl, by decide⟩
  refine ⟨c, after, hrun, haccepted, hmessages, fun hkeys => ?_, fun haddition => ?_⟩
  · exact absurd ((hkeys.orderBooks "B").mp hkey) (by decide)
  · obtain ⟨_, hrejected, _⟩ := haddition.rejected (by decide)
    simp [haccepted] at hrejected

end CentralOrderBook

end MatchingEngine
