import MatchingEngine.SequentialRefinement

/-!
# One worker for each book

Three enumerations of the configured symbols must agree: the queue IDs in the dictionary,
which skips repeated symbols, the queues and threads of the pool, which do not, and the
names of the threads. A symbol's queue ID is the position of its first occurrence, and the
thread created there carries its name; symbols without a queue ID use queue 0.

The queue of a symbol is looked up anew for every request and every rescheduled cancel, but
the lookup always gives the same answer, so that all tasks on a book come to one worker.
-/

namespace MatchingEngine

/-- A worker thread: its name, and the queue that it serves. -/
structure WorkerThread where
  threadName : String
  queueIndex : ℕ
deriving DecidableEq

/-- The threads of the pool and the number of its queues. -/
structure ThreadPool where
  threads : List WorkerThread
  queueCount : ℕ
deriving DecidableEq

namespace ThreadPool

/-- An iteration of the creation loop: a queue and the thread that serves it. -/
def addThread (threadNames : List String) (pool : ThreadPool) (threadID : ℕ) : ThreadPool where
  queueCount := pool.queueCount + 1
  threads := pool.threads ++ [⟨threadNames.getD pool.threads.length "", threadID⟩]

/-- Create a queue and a thread for every name. -/
def initialise (threadNames : List String) : ThreadPool :=
  (List.range threadNames.length).foldl (addThread threadNames) ⟨[], 0⟩

/-- The creation loop gives every name a thread, which serves the queue of its position. -/
theorem initialise_eq (threadNames : List String) :
    initialise threadNames = ⟨threadNames.mapIdx fun i name => ⟨name, i⟩, threadNames.length⟩ := by
  suffices h : ∀ n ≤ threadNames.length, (List.range n).foldl (addThread threadNames) ⟨[], 0⟩ =
      ⟨(threadNames.take n).mapIdx fun i name => ⟨name, i⟩, n⟩ by
    rw [initialise, h _ le_rfl, List.take_length]
  intro n hn
  induction n with
  | zero => rfl
  | succ n ih =>
    have hlt : n < threadNames.length := hn
    rw [List.range_succ, List.foldl_append, ih hlt.le, List.foldl_cons, List.foldl_nil, addThread,
      List.take_succ_eq_append_getElem hlt, List.mapIdx_append, List.length_mapIdx, List.length_take, min_eq_left hlt.le]
    simp [hlt]

end ThreadPool

namespace CentralOrderBook

/-- The queue ID of a symbol is the position of its first occurrence; other symbols have queue ID 0. -/
theorem initialise_queueIDOf (symbols : List String) (symbol : String) :
    (initialise symbols).queueIDOf symbol = if symbol ∈ symbols then symbols.idxOf symbol else 0 := by
  suffices h : ∀ (start : ℕ) (d : Dictionary String ℕ),
      ((symbols.zipIdx start).foldl (fun d entry => d.insertNew entry.1 entry.2) d).valueAt symbol 0 =
        if symbol ∈ d then d.valueAt symbol 0 else if symbol ∈ symbols then start + symbols.idxOf symbol else 0 by
    refine (h 0 ∅).trans ?_
    rw [if_neg Finmap.notMem_empty, Nat.zero_add]
  induction symbols with
  | nil =>
    intro start d
    split
    · rfl
    · rename_i hnew
      rw [if_neg List.not_mem_nil]
      exact congrArg (Option.getD · 0) (Finmap.lookup_eq_none.mpr hnew)
  | cons first rest ih =>
    intro start d
    rw [List.zipIdx_cons, List.foldl_cons, ih]
    simp only [Dictionary.mem_insertNew, Dictionary.valueAt_insertNew_eq, List.mem_cons]
    by_cases hsymbol : symbol = first
    · subst hsymbol
      by_cases hmem : symbol ∈ d <;> simp [hmem]
    · by_cases hmem : symbol ∈ d
      · simp [hmem, hsymbol]
      · by_cases hrest : symbol ∈ rest
        · simp only [hsymbol, hmem, hrest, or_true, or_false, if_false, if_true, List.idxOf_cons_ne _ (Ne.symm hsymbol)]
          omega
        · simp [hsymbol, hmem, hrest]

end CentralOrderBook

namespace Pipeline

variable {symbols : List String} {s : Pipeline}

/-- The queues of the configured symbols. -/
structure Aligned (symbols : List String) : Prop where
  distinct : ∀ first ∈ symbols, ∀ second ∈ symbols, queueOf symbols first = queueOf symbols second → first = second
  named : ∀ symbol ∈ symbols,
    (ThreadPool.initialise symbols).threads[queueOf symbols symbol]? = some ⟨symbol, queueOf symbols symbol⟩
  first : ∀ symbol ∈ symbols, ∀ i < queueOf symbols symbol, symbols[i]? ≠ some symbol
  served : (ThreadPool.initialise symbols).threads.map WorkerThread.queueIndex =
    List.range (ThreadPool.initialise symbols).queueCount
  valid : ∀ symbol, queueOf symbols symbol < (ThreadPool.initialise symbols).queueCount

/-- The enumerations agree. -/
theorem aligned (hsymbols : symbols ≠ []) : Aligned symbols := by
  have hqueue : ∀ symbol ∈ symbols, queueOf symbols symbol = symbols.idxOf symbol := by
    intro symbol hsymbol
    rw [queueOf, CentralOrderBook.initialise_queueIDOf, if_pos hsymbol]
  rw [← List.length_pos_iff] at hsymbols
  refine ⟨fun first hfirst second hsecond heq => ?_, fun symbol hsymbol => ?_, fun symbol hsymbol i hi heq => ?_, ?_,
    fun symbol => ?_⟩
  · rw [hqueue first hfirst, hqueue second hsecond] at heq
    exact (List.idxOf_inj hfirst).mp heq
  · have hlt := List.idxOf_lt_length_of_mem hsymbol
    rw [ThreadPool.initialise_eq, hqueue symbol hsymbol, List.getElem?_mapIdx, List.getElem?_eq_getElem hlt,
      List.getElem_idxOf]
    rfl
  · rw [hqueue symbol hsymbol] at hi
    obtain ⟨hlt, hvalue⟩ := List.getElem?_eq_some_iff.mp heq
    have hne := List.not_of_lt_findIdx (show i < symbols.findIdx (· == symbol) from hi)
    simp [hvalue] at hne
  · rw [ThreadPool.initialise_eq]
    apply List.ext_getElem
    · simp
    · intro i hi hi'
      simp
  · rw [ThreadPool.initialise_eq]
    exact CentralOrderBook.initialise_queueIDOf_lt (List.length_pos_iff.mp hsymbols) symbol

/-- All tasks on the book of a symbol are with the worker of the symbol's queue, and submissions do not throw. -/
structure SingleWriter (symbols : List String) (s : Pipeline) : Prop where
  queues : ∀ queueID, ∀ task ∈ s.engine.threadQueues queueID, queueID = queueOf symbols task.symbol
  holding : ∀ queueID task, s.holding queueID = some task → queueID = queueOf symbols task.symbol
  writes : ∀ label t symbol, next label s = some t → t.engine.bookOf symbol ≠ s.engine.bookOf symbol →
    ∃ task, label = .execute (queueOf symbols symbol) ∧ s.holding (queueOf symbols symbol) = some task ∧
      task.symbol = symbol
  submissions : ∀ task queueID,
    (.submitTask task queueID ∈ s.dispatching ∨ ∃ worker, .submitTask task queueID ∈ s.working worker) →
      queueID = queueOf symbols task.symbol ∧ (s.engine.submitTask task queueID).toOption.isSome = true

/-- A step changes the book of a symbol only by executing a task for the symbol. -/
theorem Routed.writes (h : s.Routed symbols) {label : Label} {t : Pipeline} (hnext : Pipeline.next label s = some t)
    {symbol : String} (hchanged : t.engine.bookOf symbol ≠ s.engine.bookOf symbol) :
    ∃ task, label = .execute (queueOf symbols symbol) ∧ s.holding (queueOf symbols symbol) = some task ∧
      task.symbol = symbol := by
  obtain ⟨_, _, rfl⟩ | ⟨_, _, _, rfl⟩ | ⟨message, _, _, _, _, rfl⟩ | ⟨_, _, _, _, rfl⟩ | ⟨_, _, _, _, _, _, _, rfl⟩ |
    ⟨queueID, task, rfl, hholding, rfl⟩ | ⟨_, _, _, _, _, rfl⟩ := next_cases hnext
  · exact absurd rfl hchanged
  · exact absurd rfl hchanged
  · refine absurd ?_ hchanged
    rw [CentralOrderBook.bookOf, dispatchWork_orderBookDictionary]
    rfl
  · exact absurd rfl hchanged
  · exact absurd rfl hchanged
  · rw [s.engine.taskWork_bookOf task symbol] at hchanged
    by_cases hsymbol : symbol = task.symbol
    · subst hsymbol
      obtain rfl := (h.holding queueID task hholding).1
      exact ⟨task, rfl, hholding, rfl⟩
    · exact absurd (if_neg hsymbol) hchanged
  · exact absurd rfl hchanged

/-- No step creates a queue. -/
theorem next_queueCount {label : Label} {t : Pipeline} (hnext : next label s = some t) :
    t.engine.queueCount = s.engine.queueCount := by
  obtain ⟨_, _, rfl⟩ | ⟨_, _, _, rfl⟩ | ⟨message, _, _, _, _, rfl⟩ | ⟨_, _, _, _, rfl⟩ | ⟨_, _, _, _, _, _, _, rfl⟩ |
    ⟨_, task, _, _, rfl⟩ | ⟨_, _, _, _, _, rfl⟩ := next_cases hnext
  · rfl
  · rfl
  · exact (dispatchWork_sameQueues s.engine message).queueCount
  · rfl
  · rfl
  · exact (s.engine.taskWork_sameQueues task).queueCount
  · rfl

/-- For any list of symbols, repeated or not, every book has one worker in every run, and no submission throws. -/
theorem single_writer (hsymbols : symbols ≠ []) (h : (pipeline symbols).Reachable s) :
    Aligned symbols ∧ SingleWriter symbols s := by
  have hrouted := (consistent_of_reachable h).routed
  have haligned := aligned hsymbols
  have hcount : s.engine.queueCount = (ThreadPool.initialise symbols).queueCount := by
    rw [ThreadPool.initialise_eq]
    exact h.invariant (I := fun u => u.engine.queueCount = symbols.length) rfl
      fun label u v _ hu _ hnext => (next_queueCount hnext).trans hu
  refine ⟨haligned, fun queueID task htask => (hrouted.queues queueID task htask).symm,
    fun queueID task hholding => (hrouted.holding queueID task hholding).1.symm,
    fun label t symbol hnext hchanged => hrouted.writes hnext hchanged, fun task queueID hsubmitted => ?_⟩
  have hqueue : queueID = queueOf symbols task.symbol := by
    rcases hsubmitted with hsubmitted | ⟨worker, hsubmitted⟩
    · exact hrouted.dispatching task queueID hsubmitted
    · obtain ⟨hworker, hsymbol, _⟩ := hrouted.working worker task queueID hsubmitted
      rw [hworker, hsymbol]
  have hvalid := haligned.valid task.symbol
  rw [CentralOrderBook.submitTask, if_neg (by omega)]
  exact ⟨hqueue, rfl⟩

/-- A run over a list with a repeated symbol in which the cancel for an unknown symbol comes to the first worker. -/
theorem single_writer_unknown_symbol :
    ∃ s, (pipeline ["A", "A", "B"]).run
        [.push (exampleRequest "Z" .cancelOrder), .flush, .dispatch, .dispatcherOperation, .pop 0]
        (pipeline ["A", "A", "B"]).start = some s ∧
      (s.holding 0).isSome = true ∧ Aligned ["A", "A", "B"] ∧ SingleWriter ["A", "A", "B"] s := by
  obtain ⟨s, hrun, hholding⟩ : ∃ s, (pipeline ["A", "A", "B"]).run
        [.push (exampleRequest "Z" .cancelOrder), .flush, .dispatch, .dispatcherOperation, .pop 0]
        (pipeline ["A", "A", "B"]).start = some s ∧ (s.holding 0).isSome = true := ⟨_, rfl, rfl⟩
  exact ⟨s, hrun, hholding, single_writer (by decide) (Machine.reachable_of_run hrun)⟩

end Pipeline

end MatchingEngine
