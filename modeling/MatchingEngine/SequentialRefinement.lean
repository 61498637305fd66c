import MatchingEngine.PipelineHistory

/-!
# The pipeline refines sequential processing

If no client submits an order after a cancel that names it, then a cancel that finds no
order at its first attempt never finds one later: no order on its way has its owner,
symbol, side and ID. All its further attempts change nothing.

The first attempts of a symbol's tasks are made in the order in which the messages were
pushed. The book and the messages of each symbol are therefore those of executing the
symbol's messages one after the other.
-/

namespace MatchingEngine

/-- Whether a task is a cancel that names the order submitted by another task. -/
def Task.names : Task → Task → Prop
  | .cancelOrder cancel origClientOrderID, .newOrder order =>
    order.owner = cancel.owner ∧ order.symbol = cancel.symbol ∧ order.side = cancel.side ∧
      order.clientOrderID = origClientOrderID
  | _, _ => False

/-- No order is submitted after a cancel that names it. -/
def Disciplined (messages : List IncomingMessage) : Prop :=
  (messages.map IncomingMessage.task).Pairwise fun earlier later => ¬ earlier.names later

/-- One more element is a first occurrence if it is new. -/
theorem eraseDups_concat {α : Type*} [DecidableEq α] (l : List α) (x : α) :
    (l ++ [x]).eraseDups = if x ∈ l then l.eraseDups else l.eraseDups ++ [x] := by
  rw [List.eraseDups_append]
  by_cases h : x ∈ l <;> simp [List.removeAll, h, List.eraseDups_cons]

/-- An unmatched cancel executes without an effect. -/
theorem execute_of_unmatched {book : OrderBook} {task : Task} (h : task.unmatched book = true) :
    book.execute task.bookTask = (book, []) := by
  cases task with
  | newOrder order => simp [Task.unmatched] at h
  | cancelOrder order id =>
    have hcancel := (book.taskCancelOrder_eq_none_iff _ _ _).mpr (Option.isNone_iff_eq_none.mp h)
    rw [Task.bookTask, OrderBook.execute, hcancel]

/-- An unmatched cancel stays unmatched when an order is added that it does not name. -/
theorem unmatched_newOrder {book : OrderBook} {task : Task} {order : Order} (h : task.unmatched book = true)
    (hsymbol : order.symbol = task.symbol) (hnames : ¬ task.names (.newOrder order)) :
    task.unmatched (book.execute (.newOrder order)).1 = true := by
  cases task with
  | newOrder other => simp [Task.unmatched] at h
  | cancelOrder cancel id =>
    simp only [Task.unmatched, Option.isNone_iff_eq_none, OrderBook.find_eq_none_iff] at h ⊢
    intro resting hresting
    obtain ⟨old, hold, hidentity⟩ := OrderBook.exists_identity_of_sublist
      ((book.insert order).processMatching_identities cancel.side) hresting
    have hclient : old.hasClient cancel.owner id = resting.hasClient cancel.owner id := by
      have hterms : old.toOrderTerms = resting.toOrderTerms := congrArg Prod.fst hidentity
      rw [Order.hasClient, Order.hasClient, hterms]
    rw [← hclient]
    rcases (OrderBook.mem_insert_orders ..).mp hold with ⟨rfl, hside⟩ | hold
    · by_contra hfound
      rw [Bool.not_eq_false, Order.hasClient_iff] at hfound
      exact hnames ⟨hfound.2, hsymbol, hside, hfound.1⟩
    · exact h old hold

namespace Pipeline

variable {symbols : List String} {s t : Pipeline}

/-- The tasks of a symbol that were not executed before. -/
def freshOf (symbol : String) (executed : List Task) (task : Task) : Bool :=
  task.symbol == symbol && !decide (task ∈ executed)

theorem freshOf_iff {symbol : String} {executed : List Task} {task : Task} :
    freshOf symbol executed task = true ↔ task.symbol = symbol ∧ task ∉ executed := by
  simp [freshOf]

/-- The tasks that the dispatcher has not submitted yet. -/
def waiting (s : Pipeline) (queueID : ℕ) : List Task :=
  submitted queueID s.dispatching ++ (s.flushed ++ s.incoming).map IncomingMessage.task

/-- The tasks that are with a worker or in its queue. -/
def atWorker (s : Pipeline) (queueID : ℕ) : List Task :=
  (s.holding queueID).toList ++ s.engine.threadQueues queueID ++ submitted queueID (s.working queueID)

/-- The first attempts of a symbol's tasks, and the tasks that were not attempted yet, are the pushed ones in their order. -/
def FirstInOrder (symbols : List String) (s : Pipeline) (symbol : String) : Prop :=
  (s.executed.eraseDups.filter fun task => task.symbol == symbol) ++
      (s.upstream (queueOf symbols symbol)).filter (freshOf symbol s.executed) =
    (s.pushed.map IncomingMessage.task).filter fun task => task.symbol == symbol

/-- The invariant of a disciplined run, for a symbol. -/
structure Sequential (symbols : List String) (s : Pipeline) (symbol : String) : Prop where
  first : (s.executed.eraseDups.filter fun task => task.symbol == symbol) ++
      (s.upstream (queueOf symbols symbol)).filter (freshOf symbol s.executed) =
    (s.pushed.map IncomingMessage.task).filter fun task => task.symbol == symbol
  untouched : ∀ task ∈ s.waiting (queueOf symbols symbol), task.symbol = symbol → task ∉ s.executed
  stale : ∀ task ∈ s.atWorker (queueOf symbols symbol), task.symbol = symbol → task ∈ s.executed →
    task.unmatched (s.engine.bookOf symbol) = true
  same : OrderBook.empty.executeAll (s.log symbol) =
    OrderBook.empty.executeAll (symbolTasks symbol s.executed.eraseDups)

/-- The first attempts and the fresh tasks are in order. -/
theorem Sequential.firstInOrder {symbol : String} (h : s.Sequential symbols symbol) : s.FirstInOrder symbols symbol :=
  h.first

/-- Different pushed messages have different tasks. -/
theorem StampedMessages.nodup {pushed : List IncomingMessage} (h : StampedMessages pushed) :
    (pushed.map IncomingMessage.task).Nodup := by
  refine h.increasing.imp ?_
  rintro x y hlt rfl
  exact lt_irrefl _ hlt

/-- Executed tasks of the symbol were pushed. -/
theorem FirstInOrder.pushed {symbol : String} (h : s.FirstInOrder symbols symbol) {task : Task}
    (htask : task ∈ s.executed) (hsymbol : task.symbol = symbol) : task ∈ s.pushed.map IncomingMessage.task := by
  have hmem : task ∈ s.executed.eraseDups.filter fun task => task.symbol == symbol :=
    List.mem_filter.mpr ⟨List.mem_eraseDups.mpr htask, by simpa using hsymbol⟩
  rw [FirstInOrder] at h
  exact List.mem_of_mem_filter (h ▸ List.mem_append_left _ hmem)

/-- A fresh task that a worker holds occurs nowhere else, and comes after all executed ones. -/
theorem FirstInOrder.holding {symbol : String} (h : s.FirstInOrder symbols symbol) (hstamped : StampedMessages s.pushed)
    {task : Task} (hholding : s.holding (queueOf symbols symbol) = some task) (hsymbol : task.symbol = symbol)
    (hfresh : task ∉ s.executed) :
    task ∉ (s.engine.threadQueues (queueOf symbols symbol) ++ s.waiting (queueOf symbols symbol)) ∧
      (s.executed.eraseDups.filter (fun task => task.symbol == symbol) ++ [task]).Sublist
        (s.pushed.map IncomingMessage.task) := by
  have hup : s.upstream (queueOf symbols symbol) =
      [task] ++ (s.engine.threadQueues (queueOf symbols symbol) ++ s.waiting (queueOf symbols symbol)) := by
    rw [upstream, waiting, hholding]
    simp
  have hselected : freshOf symbol s.executed task = true := freshOf_iff.mpr ⟨hsymbol, hfresh⟩
  have hfirst := h
  rw [FirstInOrder, hup, List.filter_append, List.filter_cons_of_pos hselected, List.filter_nil] at hfirst
  constructor
  · intro hmem
    have hnodup := hstamped.nodup.filter fun task => task.symbol == symbol
    rw [← hfirst, List.nodup_append] at hnodup
    have hrest := (List.nodup_append.mp hnodup.2.1).2.2 task (List.mem_singleton_self _) task
      (List.mem_filter.mpr ⟨hmem, hselected⟩)
    exact hrest rfl
  · refine List.Sublist.trans ?_ (List.filter_sublist (p := fun task => task.symbol == symbol))
    rw [← hfirst, ← List.append_assoc]
    exact List.sublist_append_left _ _

/-- A pushed task is stamped with a number below the number of messages. -/
theorem StampedMessages.serial_lt {pushed : List IncomingMessage} (h : StampedMessages pushed) {task : Task}
    (htask : task ∈ pushed.map IncomingMessage.task) : task.order.serial < pushed.length := by
  obtain ⟨message, hmem, rfl⟩ := List.mem_map.mp htask
  obtain ⟨i, hi, rfl⟩ := List.mem_iff_getElem.mp hmem
  rw [IncomingMessage.task_order, h i _ (List.getElem?_eq_getElem hi)]
  exact hi

/-- What a step pushes was never executed. -/
theorem FirstInOrder.added_fresh {symbol : String} (h : s.FirstInOrder symbols symbol) (hs : s.Consistent symbols)
    {label : Label} {task : Task} (htask : task ∈ (s.added label).map IncomingMessage.task)
    (hsymbol : task.symbol = symbol) : task ∉ s.executed := by
  intro hexecuted
  have hlt := hs.stamped.serial_lt (h.pushed hexecuted hsymbol)
  cases label with
  | push request =>
    rw [added, List.map_singleton, List.mem_singleton] at htask
    rw [htask, IncomingMessage.task_order] at hlt
    exact lt_irrefl _ hlt
  | flush | dispatch | dispatcherOperation | pop | execute | workerOperation => simp [added] at htask

/-- A step executes nothing, or the task that a worker holds. -/
theorem ran_cases {label : Label} (hnext : Pipeline.next label s = some t) :
    s.ran label = [] ∨ ∃ q task, label = .execute q ∧ s.holding q = some task ∧ s.ran label = [task] := by
  cases label with
  | execute q =>
    cases hholding : s.holding q with
    | none => simp [Pipeline.next, hholding] at hnext
    | some task => exact Or.inr ⟨q, task, rfl, hholding, by rw [ran, hholding]; rfl⟩
  | push | flush | dispatch | dispatcherOperation | pop | workerOperation => exact Or.inl rfl

/-- Only the execution of a fresh task of the symbol changes which tasks are fresh. -/
theorem freshOf_concat {symbol : String} {executed : List Task} {task : Task}
    (h : task.symbol ≠ symbol ∨ task ∈ executed) : freshOf symbol (executed ++ [task]) = freshOf symbol executed := by
  funext other
  rw [freshOf, freshOf]
  by_cases hother : other.symbol = symbol
  · have hiff : other ∈ executed ++ [task] ↔ other ∈ executed := by
      rw [List.mem_append, List.mem_singleton]
      refine or_iff_left_of_imp ?_
      rintro rfl
      exact h.resolve_left (not_not.mpr hother)
    simp only [hiff]
  · rw [beq_eq_false_iff_ne.mpr hother, Bool.false_and, Bool.false_and]

/-- The first attempts of a symbol grow by a fresh task of the symbol only. -/
theorem eraseDups_filter_concat {symbol : String} {executed : List Task} {task : Task}
    (h : task.symbol ≠ symbol ∨ task ∈ executed) :
    ((executed ++ [task]).eraseDups.filter fun task => task.symbol == symbol) =
      executed.eraseDups.filter fun task => task.symbol == symbol := by
  rw [eraseDups_concat]
  split
  · rfl
  · rename_i hfresh
    simp [h.resolve_right hfresh]

/-- The first attempts and the fresh tasks stay the pushed ones in their order. -/
theorem FirstInOrder.next {symbol : String} (h : s.FirstInOrder symbols symbol) (hs : s.Consistent symbols)
    (hsymbol : symbol ∈ symbols) {label : Label} (hnext : Pipeline.next label s = some t) :
    t.FirstInOrder symbols symbol := by
  obtain ⟨hexecuted, hpushed⟩ := next_records hnext
  have hstep := (upstream_step hs.routed (fun task htask => (freshOf_iff.mp htask).1)
    (fun q task id hmem => by
      have hstale := (hs.routed.working q task id hmem).2.2.1
      rw [freshOf, decide_eq_true hstale, Bool.not_true, Bool.and_false]) hnext).2 hsymbol
  have hadded : ((s.added label).map IncomingMessage.task).filter (freshOf symbol s.executed) =
      ((s.added label).map IncomingMessage.task).filter fun task => task.symbol == symbol := by
    refine List.filter_congr fun task htask => ?_
    by_cases htaskSymbol : task.symbol = symbol
    · simp [freshOf, h.added_fresh hs htask htaskSymbol]
    · simp [freshOf, htaskSymbol]
  rw [FirstInOrder, hpushed, List.map_append, List.filter_append, ← h, ← hadded, List.append_assoc, ← hstep, hexecuted]
  obtain hran | ⟨q, task, rfl, hholding, hran⟩ := ran_cases hnext
  · rw [hran, List.append_nil]
    rfl
  · rw [hran]
    by_cases hfresh : task.symbol = symbol ∧ task ∉ s.executed
    · -- The fresh task moves from the head of the stream to the first attempts.
      obtain ⟨htaskSymbol, hnew⟩ := hfresh
      have hq : queueOf symbols symbol = q := htaskSymbol ▸ (hs.routed.holding q task hholding).1
      have hnone := (h.holding hs.stamped (hq ▸ hholding) htaskSymbol hnew).1
      have hup : t.upstream (queueOf symbols symbol) =
          s.engine.threadQueues (queueOf symbols symbol) ++ s.waiting (queueOf symbols symbol) := by
        obtain ⟨_, h', _⟩ | ⟨h', _⟩ | ⟨_, _, h', _⟩ | ⟨_, _, h', _⟩ | ⟨_, _, _, h', _⟩ | ⟨_, other, h', hother, rfl⟩ |
          ⟨_, _, _, h', _⟩ := next_cases hnext
        all_goals cases h'
        simp [upstream, waiting, hq, (s.engine.taskWork_sameQueues other).threadQueues]
      have hcongr : (t.upstream (queueOf symbols symbol)).filter (freshOf symbol (s.executed ++ [task])) =
          (t.upstream (queueOf symbols symbol)).filter (freshOf symbol s.executed) := by
        refine List.filter_congr fun other hother => ?_
        have hne : other ≠ task := by
          rintro rfl
          exact hnone (hup ▸ hother)
        simp [freshOf, hne]
      have hselected : freshOf symbol s.executed task = true := freshOf_iff.mpr ⟨htaskSymbol, hnew⟩
      rw [hcongr, eraseDups_concat, if_neg hnew, List.filter_append, List.append_assoc]
      simp [htaskSymbol, hselected]
    · have hold : task.symbol ≠ symbol ∨ task ∈ s.executed := by
        rw [not_and_or, not_not] at hfresh
        exact hfresh
      have hnot : ¬ freshOf symbol s.executed task = true := by
        rw [freshOf_iff]
        exact hfresh
      rw [freshOf_concat hold, eraseDups_filter_concat hold, List.filter_cons_of_neg hnot]
      rfl

/-- A waiting task was waiting before, or is pushed in the step. -/
theorem mem_waiting_next {q : ℕ} {label : Label} (hnext : Pipeline.next label s = some t) {task : Task}
    (htask : task ∈ t.waiting q) : task ∈ s.waiting q ∨ task ∈ (s.added label).map IncomingMessage.task := by
  rw [waiting, List.mem_append, List.map_append, List.mem_append] at htask ⊢
  obtain ⟨request, rfl, rfl⟩ | ⟨rfl, hflushed, _, rfl⟩ | ⟨message, rest, rfl, hflushed, _, rfl⟩ |
    ⟨operation, operations, rfl, hdispatching, rfl⟩ | ⟨_, _, _, _, _, _, _, rfl⟩ | ⟨_, _, _, _, rfl⟩ |
    ⟨_, _, _, _, _, rfl⟩ := next_cases hnext
  · simp only [List.map_append, List.mem_append] at htask
    rw [added]
    tauto
  · simp only [List.map_nil, List.not_mem_nil, or_false] at htask
    tauto
  · rw [hflushed, List.map_cons, List.mem_cons]
    rcases htask with htask | htask | htask
    · have heq := (mem_dispatchWork ((mem_submitted _ _).mp htask)).1
      tauto
    · tauto
    · tauto
  · have hmem : task ∈ submitted q operations → task ∈ submitted q s.dispatching := by
      rw [hdispatching, mem_submitted, mem_submitted]
      exact List.mem_cons_of_mem _
    simp only at htask
    tauto
  · exact Or.inl htask
  · exact Or.inl htask
  · exact Or.inl htask

/-- The waiting tasks stay untouched. -/
theorem Sequential.untouched_next {symbol : String} (h : s.Sequential symbols symbol) (hs : s.Consistent symbols)
    {label : Label} (hnext : Pipeline.next label s = some t) :
    ∀ task ∈ t.waiting (queueOf symbols symbol), task.symbol = symbol → task ∉ t.executed := by
  intro task htask hsymbol
  have hold : task ∉ s.executed := by
    rcases mem_waiting_next hnext htask with htask | htask
    · exact h.untouched task htask hsymbol
    · exact h.firstInOrder.added_fresh hs htask hsymbol
  rw [(next_records hnext).1, List.mem_append, not_or]
  refine ⟨hold, fun hran => ?_⟩
  obtain heq | ⟨q, other, rfl, hholding, heq⟩ := ran_cases hnext
  · simp [heq] at hran
  · rw [heq, List.mem_singleton] at hran
    subst hran
    have hq : queueOf symbols symbol = q := hsymbol ▸ (hs.routed.holding q task hholding).1
    have hnone := (h.firstInOrder.holding hs.stamped (hq ▸ hholding) hsymbol hold).1
    rcases mem_waiting_next hnext htask with htask | htask
    · exact hnone (List.mem_append_right _ htask)
    · simp [added] at htask

/-- The repeated attempts of unmatched cancels change nothing. -/
theorem Sequential.same_next {symbol : String} (h : s.Sequential symbols symbol) (hs : s.Consistent symbols)
    {label : Label} (hnext : Pipeline.next label s = some t) :
    OrderBook.empty.executeAll (t.log symbol) =
      OrderBook.empty.executeAll (symbolTasks symbol t.executed.eraseDups) := by
  rw [log, (next_records hnext).1]
  obtain hran | ⟨q, task, rfl, hholding, hran⟩ := ran_cases hnext
  · rw [hran, List.append_nil]
    exact h.same
  · have hsame := h.same
    rw [log] at hsame
    rw [hran, symbolTasks_append, symbolTasks_singleton, eraseDups_concat]
    by_cases hsymbol : task.symbol = symbol
    · rw [if_pos hsymbol, OrderBook.executeAll_concat, hsame]
      split
      · rename_i hstale
        have hq : queueOf symbols symbol = q := hsymbol ▸ (hs.routed.holding q task hholding).1
        have hmem : task ∈ s.atWorker (queueOf symbols symbol) := by simp [atWorker, hq, hholding]
        have hunmatched := h.stale task hmem hsymbol hstale
        rw [hs.executed.books symbol, h.same] at hunmatched
        rw [execute_of_unmatched hunmatched, List.append_nil]
      · rw [symbolTasks_append, symbolTasks_singleton, if_pos hsymbol, OrderBook.executeAll_concat]
    · rw [if_neg hsymbol, List.append_nil, hsame]
      split
      · rfl
      · rw [symbolTasks_append, symbolTasks_singleton, if_neg hsymbol, List.append_nil]

/-- An unmatched cancel that was executed stays unmatched when the next task of its symbol is executed. -/
theorem Sequential.unmatched_next {symbol : String} (h : s.Sequential symbols symbol) (hs : s.Consistent symbols)
    (hdisciplined : Disciplined s.pushed) {task cancel : Task}
    (hholding : s.holding (queueOf symbols symbol) = some task) (htask : task.symbol = symbol)
    (hcancel : cancel.symbol = symbol) (hexecuted : cancel ∈ s.executed)
    (hunmatched : cancel.unmatched (s.engine.bookOf symbol) = true) :
    cancel.unmatched ((s.engine.bookOf symbol).execute task.bookTask).1 = true := by
  by_cases hstale : task ∈ s.executed
  · have hmem : task ∈ s.atWorker (queueOf symbols symbol) := by simp [atWorker, hholding]
    rw [execute_of_unmatched (h.stale task hmem htask hstale)]
    exact hunmatched
  · cases task with
    | cancelOrder order id =>
      refine CentralOrderBook.unmatched_execute ?_ rfl hunmatched
      rw [hs.executed.books symbol]
      exact (OrderBook.originates_executeAll _).1
    | newOrder order =>
      refine unmatched_newOrder hunmatched (htask.trans hcancel.symm) ?_
      -- The cancel was pushed before the order, which it therefore does not name.
      have hpairwise := hdisciplined.sublist (h.firstInOrder.holding hs.stamped hholding htask hstale).2
      refine (List.pairwise_append.mp hpairwise).2.2 cancel ?_ _ (List.mem_singleton_self _)
      exact List.mem_filter.mpr ⟨List.mem_eraseDups.mpr hexecuted, by simpa using hcancel⟩

/-- An executed cancel that is still at its worker stays unmatched. -/
theorem Sequential.stale_next {symbol : String} (h : s.Sequential symbols symbol) (hs : s.Consistent symbols)
    (hdisciplined : Disciplined s.pushed) {label : Label} (hnext : Pipeline.next label s = some t) :
    ∀ task ∈ t.atWorker (queueOf symbols symbol), task.symbol = symbol → task ∈ t.executed →
      task.unmatched (t.engine.bookOf symbol) = true := by
  intro x hx hsymbol hexecuted
  have hstale := fun hmem => h.stale x hmem hsymbol
  simp only [atWorker, List.mem_append] at hx hstale
  obtain ⟨request, rfl, rfl⟩ | ⟨rfl, hflushed, _, rfl⟩ | ⟨message, rest, rfl, hflushed, _, rfl⟩ |
    ⟨operation, operations, rfl, hdispatching, rfl⟩ | ⟨q, task, rest, rfl, hnone, _, hqueue, rfl⟩ |
    ⟨q, task, rfl, hholding, rfl⟩ | ⟨q, operation, operations, rfl, hworking, rfl⟩ := next_cases hnext
  · exact hstale hx hexecuted
  · exact hstale hx hexecuted
  · rw [CentralOrderBook.bookOf, dispatchWork_orderBookDictionary]
    simp only [(dispatchWork_sameQueues s.engine message).threadQueues] at hx
    exact hstale hx hexecuted
  · -- What the dispatcher submits was not executed before.
    rw [CentralOrderBook.afterOperations_threadQueues, List.mem_append] at hx
    have hfresh : x ∉ submitted (queueOf symbols symbol) [operation] := by
      intro hmem
      refine h.untouched x ?_ hsymbol hexecuted
      rw [waiting, List.mem_append, hdispatching, mem_submitted]
      rw [mem_submitted, List.mem_singleton] at hmem
      exact Or.inl (hmem ▸ List.mem_cons_self ..)
    exact hstale (by tauto) hexecuted
  · refine hstale ?_ hexecuted
    by_cases hq : queueOf symbols symbol = q
    · simp only [hq, Function.update_self, Option.toList_some, List.mem_singleton,
        CentralOrderBook.withQueue_threadQueues_self] at hx
      rw [hq, hqueue, List.mem_cons]
      tauto
    · simpa only [Function.update_of_ne hq, CentralOrderBook.withQueue_threadQueues_of_ne _ _ hq] using hx
  · obtain ⟨hroute, hidle⟩ := hs.routed.holding q task hholding
    simp only [(s.engine.taskWork_sameQueues task).threadQueues] at hx
    rw [CentralOrderBook.taskWork_bookOf]
    by_cases htask : task.symbol = symbol
    · have hq : queueOf symbols symbol = q := htask ▸ hroute
      simp only [hq, Function.update_self, Option.toList_none, List.not_mem_nil, false_or] at hx
      rw [if_pos htask.symm]
      rcases hx with hx | hx
      · -- A task that is queued twice was executed before.
        have hold : x ∈ s.executed := by
          rcases List.mem_append.mp hexecuted with hold | hold
          · exact hold
          · by_contra hnew
            rw [List.mem_singleton] at hold
            subst hold
            have hnone := (h.firstInOrder.holding hs.stamped (hq ▸ hholding) hsymbol hnew).1
            exact hnone (List.mem_append_left _ (hq ▸ hx))
        exact h.unmatched_next hs hdisciplined (hq ▸ hholding) htask hsymbol hold
          (hstale (Or.inl (Or.inr (hq ▸ hx))) hold)
      · rw [mem_submitted, CentralOrderBook.taskWork_operations, List.mem_append] at hx
        rcases hx with hx | hx
        · simp at hx
        · split at hx
          · rename_i hunmatched
            rw [List.mem_singleton, QueueOperation.submitTask.injEq] at hx
            rw [hx.1, ← htask, execute_of_unmatched hunmatched]
            exact hunmatched
          · simp at hx
    · have hold : x ∈ s.executed := by
        refine (List.mem_append.mp hexecuted).resolve_right fun hmem => ?_
        rw [List.mem_singleton] at hmem
        exact htask (hmem ▸ hsymbol)
      rw [if_neg (Ne.symm htask)]
      refine hstale ?_ hold
      by_cases hq : queueOf symbols symbol = q
      · simp only [hq, Function.update_self, Option.toList_none, List.not_mem_nil, false_or] at hx
        rcases hx with hx | hx
        · exact Or.inl (Or.inr (hq ▸ hx))
        · have heq := (mem_taskWork ((mem_submitted _ _).mp hx)).1
          exact absurd (heq ▸ hsymbol) htask
      · simpa only [Function.update_of_ne hq] using hx
  · refine hstale ?_ hexecuted
    rw [CentralOrderBook.afterOperations_threadQueues, List.mem_append] at hx
    by_cases hq : queueOf symbols symbol = q
    · have hsplit : submitted (queueOf symbols symbol) (s.working (queueOf symbols symbol)) =
          submitted (queueOf symbols symbol) [operation] ++ submitted (queueOf symbols symbol) operations := by
        rw [hq, hworking, ← submitted_append]
        rfl
      rw [hsplit, List.mem_append]
      simp only [hq, Function.update_self] at hx ⊢
      tauto
    · have hnone : x ∉ submitted (queueOf symbols symbol) [operation] := by
        intro hmem
        rw [mem_submitted, List.mem_singleton] at hmem
        exact hq (hs.routed.working q x _ (hworking ▸ hmem ▸ List.mem_cons_self ..)).1
      simp only [Function.update_of_ne hq] at hx
      tauto

/-- Every step of a disciplined run keeps the invariant. -/
theorem Sequential.next {symbol : String} (h : s.Sequential symbols symbol) (hs : s.Consistent symbols)
    (hsymbol : symbol ∈ symbols) (hdisciplined : Disciplined s.pushed) {label : Label}
    (hnext : Pipeline.next label s = some t) : t.Sequential symbols symbol :=
  ⟨h.firstInOrder.next hs hsymbol hnext, h.untouched_next hs hnext, h.stale_next hs hdisciplined hnext, h.same_next hs hnext⟩

/-- The first attempts are in order in every run. -/
theorem firstInOrder_of_reachable (h : (pipeline symbols).Reachable s) {symbol : String} (hsymbol : symbol ∈ symbols) :
    s.FirstInOrder symbols symbol := by
  induction h with
  | start => exact rfl
  | step hs _ hnext ih => exact ih.next (consistent_of_reachable hs) hsymbol hnext

/-- The messages pushed before a step are disciplined if those pushed after it are. -/
theorem Disciplined.of_next {label : Label} (hnext : Pipeline.next label s = some t) (h : Disciplined t.pushed) :
    Disciplined s.pushed := by
  rw [(next_records hnext).2, Disciplined, List.map_append] at h
  exact (List.pairwise_append.mp h).1

/-- The invariant holds for the configured symbols in every disciplined run. -/
theorem sequential_of_reachable (h : (pipeline symbols).Reachable s) {symbol : String} (hsymbol : symbol ∈ symbols)
    (hdisciplined : Disciplined s.pushed) : s.Sequential symbols symbol := by
  induction h with
  | start => exact ⟨rfl, fun _ hmem => absurd hmem List.not_mem_nil, fun _ hmem => absurd hmem List.not_mem_nil, rfl⟩
  | step hs _ hnext ih =>
    have hbefore := Disciplined.of_next hnext hdisciplined
    exact (ih hbefore).next (consistent_of_reachable hs) hsymbol hbefore hnext

/-- All tasks of a symbol were attempted, and their reports are enqueued. -/
def AllRun (symbols : List String) (s : Pipeline) (symbol : String) : Prop :=
  (∀ message ∈ s.pushed, message.order.symbol = symbol → message.task ∈ s.executed) ∧
    enqueued (s.working (queueOf symbols symbol)) = []

/-- The tasks of a symbol's messages, in the order in which the messages were pushed. -/
def pushedTasks (s : Pipeline) (symbol : String) : List BookTask :=
  symbolTasks symbol (s.pushed.map IncomingMessage.task)

/-- In a disciplined run, once all tasks of a configured symbol have run, its book and its messages are
those of executing the symbol's messages one after the other in the order in which they were pushed. -/
theorem refines_sequential (h : (pipeline symbols).Reachable s) (hdisciplined : Disciplined s.pushed) {symbol : String}
    (hsymbol : symbol ∈ symbols) (hrun : s.AllRun symbols symbol) :
    s.engine.bookOf symbol = (OrderBook.empty.executeAll (s.pushedTasks symbol)).1 ∧
      bookMessages symbol s.engine.outgoingMessages = (OrderBook.empty.executeAll (s.pushedTasks symbol)).2 := by
  have hs := consistent_of_reachable h
  have hsequential := sequential_of_reachable h hsymbol hdisciplined
  -- Everything on its way to the worker was executed before.
  have hnone : (s.upstream (queueOf symbols symbol)).filter (freshOf symbol s.executed) = [] := by
    refine List.eq_nil_iff_forall_not_mem.mpr fun task htask => ?_
    have hpushed := List.mem_of_mem_filter (hsequential.first ▸ List.mem_append_right _ htask)
    obtain ⟨message, hmessage, rfl⟩ := List.mem_map.mp hpushed
    obtain ⟨htaskSymbol, hfresh⟩ := freshOf_iff.mp (List.mem_filter.mp htask).2
    rw [Task.symbol, IncomingMessage.task_order] at htaskSymbol
    exact hfresh (hrun.1 message hmessage htaskSymbol)
  have hfirst := hsequential.first
  rw [hnone, List.append_nil] at hfirst
  have hlog : OrderBook.empty.executeAll (s.log symbol) = OrderBook.empty.executeAll (s.pushedTasks symbol) := by
    rw [hsequential.same, symbolTasks, hfirst]
    rfl
  have hreports := hs.executed.reports symbol
  rw [hrun.2, bookMessages_nil, List.append_nil] at hreports
  rw [hs.executed.books symbol, hreports, hlog]
  exact ⟨rfl, rfl⟩

/-- A request to buy five at ten. -/
def exampleRequest (symbol : String) (type : IncomingMessageType) : Request :=
  ⟨⟨"1", symbol, "CLIENT", "EXCHANGE", .buy, .limit, 10, 5⟩, "1", type⟩

/-- A run in which an order and its cancel are pushed, dispatched and executed. -/
theorem refines_sequential_order_and_cancel :
    ∃ s, (pipeline ["A"]).run
        [.push (exampleRequest "A" .newOrder), .push (exampleRequest "A" .cancelOrder), .flush, .dispatch,
          .dispatcherOperation, .dispatcherOperation, .dispatch, .dispatcherOperation, .pop 0, .execute 0, .pop 0,
          .execute 0, .workerOperation 0] (pipeline ["A"]).start = some s ∧
      s.engine.bookOf "A" = (OrderBook.empty.executeAll (s.pushedTasks "A")).1 ∧
      bookMessages "A" s.engine.outgoingMessages = (OrderBook.empty.executeAll (s.pushedTasks "A")).2 := by
  obtain ⟨s, hrun, hpushed, hexecuted, hworking⟩ : ∃ s, (pipeline ["A"]).run
        [.push (exampleRequest "A" .newOrder), .push (exampleRequest "A" .cancelOrder), .flush, .dispatch,
          .dispatcherOperation, .dispatcherOperation, .dispatch, .dispatcherOperation, .pop 0, .execute 0, .pop 0,
          .execute 0, .workerOperation 0] (pipeline ["A"]).start = some s ∧
      s.pushed = [(exampleRequest "A" .newOrder).message 0, (exampleRequest "A" .cancelOrder).message 1] ∧
      s.executed = s.pushed.map IncomingMessage.task ∧ enqueued (s.working (queueOf ["A"] "A")) = [] :=
    ⟨_, rfl, rfl, rfl, rfl⟩
  refine ⟨s, hrun, refines_sequential (Machine.reachable_of_run hrun) ?_ (List.mem_singleton_self _) ⟨?_, hworking⟩⟩
  · rw [hpushed]
    simp [Disciplined, Request.message, IncomingMessage.task, exampleRequest, Task.names]
  · intro message hmessage _
    rw [hexecuted]
    exact List.mem_map_of_mem hmessage

end Pipeline

end MatchingEngine
