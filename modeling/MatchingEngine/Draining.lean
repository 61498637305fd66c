import MatchingEngine.ConfiguredSymbols
import Mathlib.Algebra.Order.BigOperators.Group.Finset

/-!
# Draining the work queues

A cancel that finds no order submits itself again, behind the tasks queued in the
meantime. As long as a new order is among these tasks the cancel comes closer to it, and
every other execution shortens a queue: a quadratic weight of the queues decreases.

Once only cancels are left in a queue, its books can only lose orders. A cancel that is
unmatched then stays unmatched, and its queue never becomes empty. In the single-threaded
build a submission is a call, so that a cancel which finds no order calls itself forever.
-/

namespace MatchingEngine

namespace CentralOrderBook

variable {symbols : List String} {c after : CentralOrderBook}

/-- Every queued task is in the queue of its symbol. -/
def Routed (c : CentralOrderBook) : Prop := ∀ queueID, ∀ task ∈ c.threadQueues queueID, c.queueIDOf task.symbol = queueID

/-- What draining relies on. -/
structure Drainable (c : CentralOrderBook) : Prop where
  valid : c.Valid
  routed : c.Routed
  sided : ∀ symbol, (c.bookOf symbol).Sided
  bounded : ∀ queueID, c.queueCount ≤ queueID → c.threadQueues queueID = []

/-- The execution of the next task of a queue: nothing but its queue and its book changes, and the
task is appended to its queue if it is an unmatched cancel. -/
theorem Drainable.work (h : c.Drainable) {queueID : ℕ} {task : Task} {rest : List Task}
    (hqueue : c.threadQueues queueID = task :: rest) :
    ∃ after, next (.work queueID) c = some after ∧
      after.threadQueues queueID = rest ++ (if task.unmatched (c.bookOf task.symbol) then [task] else []) ∧
      (∀ q, q ≠ queueID → after.threadQueues q = c.threadQueues q) ∧
      (∀ symbol, after.bookOf symbol =
        if symbol = task.symbol then ((c.bookOf symbol).execute task.bookTask).1 else c.bookOf symbol) ∧
      after.queueIDOf = c.queueIDOf ∧ after.queueCount = c.queueCount := by
  have hid : c.queueIDOf task.symbol = queueID := h.routed queueID task (hqueue ▸ List.mem_cons_self ..)
  have hsame := (c.withQueue queueID rest).taskWork_sameQueues task
  have hoperations := (c.withQueue queueID rest).taskWork_operations task
  rw [withQueue_bookOf, withQueue_queueIDOf, hid] at hoperations
  have hvalid : ∀ t q, .submitTask t q ∈ ((c.withQueue queueID rest).taskWork task).2 →
      q < ((c.withQueue queueID rest).taskWork task).1.queueCount := by
    intro t q hmem
    rw [hsame.queueCount]
    have hq : q = queueID := by
      rw [hoperations] at hmem
      split at hmem <;> simp at hmem
      exact hmem.2
    rw [hq, ← hid]
    exact h.valid task.symbol
  have hnext : next (.work queueID) c = some (((c.withQueue queueID rest).taskWork task).1.afterOperations
      ((c.withQueue queueID rest).taskWork task).2) := by
    have hperform := performAll_eq _ hvalid
    simp only [next, CentralOrderBook.work, tryPop, hqueue, Option.map_some, Option.bind_some, runTask]
    exact congrArg Except.toOption hperform
  refine ⟨_, hnext, ?_, ?_, ?_, funext hsame.queueIDOf, hsame.queueCount⟩
  · rw [afterOperations_threadQueues, hsame.threadQueues, withQueue_threadQueues_self, hoperations, submitted_append,
      submitted_map_enqueue, List.nil_append]
    split <;> simp
  · intro q hq
    rw [afterOperations_threadQueues, hsame.threadQueues, withQueue_threadQueues_of_ne _ _ hq, hoperations,
      submitted_append, submitted_map_enqueue, List.nil_append]
    split <;> simp [Ne.symm hq]
  · intro symbol
    rw [afterOperations_bookOf, taskWork_bookOf, withQueue_bookOf]

/-- A queue without tasks gives its worker nothing to do. -/
theorem next_work_eq_none_iff (h : c.Drainable) (queueID : ℕ) :
    next (.work queueID) c = none ↔ c.threadQueues queueID = [] := by
  cases hqueue : c.threadQueues queueID with
  | nil => simp [next, CentralOrderBook.work, tryPop, hqueue]
  | cons task rest =>
    obtain ⟨after, hnext, _⟩ := h.work hqueue
    simp [hnext]

/-- Executions of queued tasks keep what draining relies on. -/
theorem Drainable.next (h : c.Drainable) {queueID : ℕ} (hnext : next (.work queueID) c = some after) :
    after.Drainable := by
  cases hqueue : c.threadQueues queueID with
  | nil => simp [(next_work_eq_none_iff h queueID).mpr hqueue] at hnext
  | cons task rest =>
    obtain ⟨last, hlast, hown, hothers, hbooks, hids, hcount⟩ := h.work hqueue
    obtain rfl := Option.some.inj (hnext.symm.trans hlast)
    have hid := h.routed queueID task (hqueue ▸ List.mem_cons_self ..)
    refine ⟨fun symbol => ?_, fun q t ht => ?_, fun symbol => ?_, fun q hq => ?_⟩
    · rw [hids, hcount]
      exact h.valid symbol
    · rw [hids]
      by_cases hq : q = queueID
      · subst hq
        rw [hown] at ht
        rcases List.mem_append.mp ht with ht | ht
        · exact h.routed q t (hqueue ▸ List.mem_cons_of_mem _ ht)
        · split at ht
          · rw [List.mem_singleton] at ht
            exact ht ▸ hid
          · simp at ht
      · rw [hothers q hq] at ht
        exact h.routed q t ht
    · rw [hbooks]
      split
      · exact (h.sided symbol).execute _
      · exact h.sided symbol
    · rw [hcount] at hq
      have hne : q ≠ queueID := by
        rintro rfl
        have := h.bounded q hq
        simp [hqueue] at this
      rw [hothers q hne]
      exact h.bounded q hq

/-- Submissions to the queues of their symbols keep what draining relies on. -/
theorem Drainable.submit (h : c.Drainable) {before : CentralOrderBook} (hsame : SameQueues c before)
    (hbooks : before.bookOf = c.bookOf) {operations : List QueueOperation}
    (hroute : ∀ task queueID, .submitTask task queueID ∈ operations → queueID = c.queueIDOf task.symbol) :
    (before.afterOperations operations).Drainable := by
  have hids : before.queueIDOf = c.queueIDOf := funext hsame.queueIDOf
  have hsubmitted : ∀ q, ∀ task ∈ submitted q operations, c.queueIDOf task.symbol = q :=
    fun q task htask => (hroute task q ((mem_submitted q operations).mp htask)).symm
  refine ⟨fun symbol => ?_, fun q task htask => ?_, fun symbol => ?_, fun q hq => ?_⟩
  · rw [afterOperations_queueIDOf, afterOperations_queueCount, hids, hsame.queueCount]
    exact h.valid symbol
  · rw [afterOperations_queueIDOf, hids]
    rw [afterOperations_threadQueues, hsame.threadQueues] at htask
    rcases List.mem_append.mp htask with htask | htask
    · exact h.routed q task htask
    · exact hsubmitted q task htask
  · rw [afterOperations_bookOf, hbooks]
    exact h.sided symbol
  · rw [afterOperations_queueCount, hsame.queueCount] at hq
    rw [afterOperations_threadQueues, hsame.threadQueues, h.bounded q hq, List.nil_append, List.eq_nil_iff_forall_not_mem]
    intro task htask
    have hlt := h.valid task.symbol
    rw [hsubmitted q task htask] at hlt
    omega

/-- Every event keeps what draining relies on. -/
theorem Drainable.event (h : c.Drainable) {event : Event} (hnext : CentralOrderBook.next event c = some after) :
    after.Drainable := by
  obtain ⟨order, rfl, rfl⟩ | ⟨order, id, rfl, rfl⟩ | ⟨queueID, _, _, rfl, _⟩ := c.next_cases hnext
  · refine h.submit (c.addOrderWork_sameQueues order) (funext (c.addOrderWork_bookOf order)) ?_
    intro task queueID hmem
    unfold addOrderWork at hmem
    split at hmem
    · simp only [List.mem_cons, QueueOperation.submitTask.injEq, List.not_mem_nil, or_false, reduceCtorEq,
        false_or] at hmem
      rw [hmem.1, hmem.2]
      rfl
    · simp [rejectOrderWork] at hmem
  · refine h.submit (c.cancelOrderWork_sameQueues order id) rfl ?_
    intro task queueID hmem
    rw [cancelOrderWork, List.mem_singleton, QueueOperation.submitTask.injEq] at hmem
    rw [hmem.1, hmem.2]
    rfl
  · exact h.next hnext

/-- Initially every book is empty. -/
@[simp] theorem initialise_bookOf (symbols : List String) (symbol : String) :
    (initialise symbols).bookOf symbol = .empty := by
  suffices h : ∀ d : Dictionary String OrderBook, d.valueAt symbol .empty = .empty →
      (symbols.foldl (fun d s => d.insertNew s .empty) d).valueAt symbol .empty = .empty by
    exact h ∅ (Dictionary.valueAt_empty ..)
  induction symbols with
  | nil => exact fun _ h => h
  | cons first rest ih =>
    intro d hd
    exact ih _ ((Dictionary.valueAt_insertNew ..).trans hd)

/-- Every reachable state can be drained with these guarantees. -/
theorem drainable_of_reachable (hsymbols : symbols ≠ []) (h : (engine symbols).Reachable c) : c.Drainable := by
  induction h with
  | start =>
    refine ⟨initialise_queueIDOf_lt hsymbols, fun _ _ h => absurd h List.not_mem_nil, fun symbol => ?_, fun _ _ => rfl⟩
    intro side order horder
    change order ∈ (((initialise symbols).bookOf symbol).orders side).values at horder
    simp at horder
  | step _ _ hnext ih => exact ih.event hnext

/-- The engine without further client requests: each step executes the next task of a queue. -/
def draining (symbols : List String) : Machine CentralOrderBook ℕ where
  start := .initialise symbols
  next queueID := next (.work queueID)

/-- All work queues are empty. -/
def Drained (c : CentralOrderBook) : Prop := ∀ queueID, c.threadQueues queueID = []

/-- However the queued tasks are executed, after finitely many steps all work queues are empty. -/
def Drains (symbols : List String) (c : CentralOrderBook) : Prop :=
  (draining symbols).Terminates c ∧
    ∀ queueIDs t, (draining symbols).run queueIDs c = some t → (∀ queueID, (draining symbols).next queueID t = none) →
      t.Drained

/-- Where the next task of a queue is a cancel whose order is not found, a new order is still queued behind it. -/
def Resolvable (c : CentralOrderBook) : Prop :=
  ∀ queueID task rest, c.threadQueues queueID = task :: rest → task.unmatched (c.bookOf task.symbol) = true →
    ∃ other ∈ rest, other.isNewOrder = true

/-- The weight of a queue: its length counts quadratically, the position of its first new order once. -/
def queueWeight (tasks : List Task) : ℕ := tasks.length * (tasks.length + 1) + tasks.findIdx Task.isNewOrder

/-- The weight of the queues. -/
def weight (c : CentralOrderBook) : ℕ := ∑ queueID ∈ Finset.range c.queueCount,
  queueWeight (c.threadQueues queueID)

/-- An unmatched task is a cancel. -/
theorem unmatched_isNewOrder {task : Task} {book : OrderBook} (h : task.unmatched book = true) :
    task.isNewOrder = false := by
  cases task with
  | newOrder order => simp [Task.unmatched] at h
  | cancelOrder order id => rfl

/-- Executing the next task makes its queue lighter, unless an unmatched cancel has no new order behind it. -/
theorem queueWeight_work_lt {task : Task} {rest : List Task} {book : OrderBook}
    (hresolvable : task.unmatched book = true → ∃ other ∈ rest, other.isNewOrder = true) :
    queueWeight (rest ++ (if task.unmatched book then [task] else [])) < queueWeight (task :: rest) := by
  by_cases hunmatched : task.unmatched book = true
  · have hcancel := unmatched_isNewOrder hunmatched
    have hlt := List.findIdx_lt_length.mpr (hresolvable hunmatched)
    rw [if_pos hunmatched, queueWeight, queueWeight, List.findIdx_append, if_pos hlt, List.findIdx_cons, hcancel]
    simp
  · have hle : rest.findIdx Task.isNewOrder ≤ rest.length := List.findIdx_le_length
    rw [if_neg hunmatched, List.append_nil, queueWeight, queueWeight, List.length_cons]
    nlinarith

/-- In a resolvable state every execution makes the queues lighter. -/
theorem Drainable.weight_lt (h : c.Drainable) (hresolvable : c.Resolvable) {queueID : ℕ}
    (hnext : CentralOrderBook.next (.work queueID) c = some after) : after.weight < c.weight := by
  cases hqueue : c.threadQueues queueID with
  | nil => simp [(next_work_eq_none_iff h queueID).mpr hqueue] at hnext
  | cons task rest =>
    obtain ⟨last, hlast, hown, hothers, _, _, hcount⟩ := h.work hqueue
    obtain rfl := Option.some.inj (hnext.symm.trans hlast)
    have hlighter : queueWeight (after.threadQueues queueID) < queueWeight (c.threadQueues queueID) := by
      rw [hown, hqueue]
      exact queueWeight_work_lt (hresolvable queueID task rest hqueue)
    have hmem : queueID ∈ Finset.range c.queueCount := by
      rw [Finset.mem_range]
      by_contra hlarge
      simp [h.bounded queueID (not_lt.mp hlarge)] at hqueue
    rw [weight, weight, hcount]
    refine Finset.sum_lt_sum (fun q _ => ?_) ⟨queueID, hmem, hlighter⟩
    by_cases hq : q = queueID
    · exact hq ▸ hlighter.le
    · rw [hothers q hq]

/-- A queue without new orders in which a cancel will never find its order. -/
structure Stuck (queueID : ℕ) (task : Task) (c : CentralOrderBook) : Prop extends Drainable c where
  queued : task ∈ c.threadQueues queueID
  unmatched : task.unmatched (c.bookOf task.symbol) = true
  cancels : ∀ other ∈ c.threadQueues queueID, other.isNewOrder = false

/-- A cancel that finds nothing still finds nothing after another cancel. -/
theorem unmatched_execute {task other : Task} {book : OrderBook} (hsided : book.Sided)
    (hcancel : other.isNewOrder = false) (h : task.unmatched book = true) :
    task.unmatched (book.execute other.bookTask).1 = true := by
  cases task with
  | newOrder order => simp [Task.unmatched] at h
  | cancelOrder order id =>
    cases other with
    | newOrder order => simp [Task.isNewOrder] at hcancel
    | cancelOrder order' id' =>
      simp only [Task.unmatched, Option.isNone_iff_eq_none, OrderBook.find_eq_none_iff] at h ⊢
      exact fun o ho => h o (hsided.cancel_subset _ _ _ _ ho)

/-- Nothing that is executed ever resolves a stuck queue. -/
theorem Stuck.next {queueID : ℕ} {task : Task} (h : c.Stuck queueID task) {q : ℕ}
    (hnext : CentralOrderBook.next (.work q) c = some after) : after.Stuck queueID task := by
  have hid := h.routed queueID task h.queued
  suffices hstuck : task ∈ after.threadQueues queueID ∧ task.unmatched (after.bookOf task.symbol) = true ∧
      ∀ other ∈ after.threadQueues queueID, other.isNewOrder = false from
    ⟨h.toDrainable.next hnext, hstuck.1, hstuck.2.1, hstuck.2.2⟩
  cases hqueue : c.threadQueues q with
  | nil => simp [(next_work_eq_none_iff h.toDrainable q).mpr hqueue] at hnext
  | cons head rest =>
    obtain ⟨last, hlast, hown, hothers, hbooks, _⟩ := h.toDrainable.work hqueue
    obtain rfl := Option.some.inj (hnext.symm.trans hlast)
    have hheadID := h.routed q head (hqueue ▸ List.mem_cons_self ..)
    by_cases hq : queueID = q
    · subst hq
      have hheadCancel := h.cancels head (hqueue ▸ List.mem_cons_self ..)
      have hunmatched := h.unmatched
      have hbook : task.unmatched (after.bookOf task.symbol) = true := by
        rw [hbooks]
        split
        · exact unmatched_execute (h.sided _) hheadCancel hunmatched
        · exact hunmatched
      refine ⟨?_, hbook, fun other hother => ?_⟩
      · -- The cancel itself is queued again, and all others leave it in the queue.
        rw [hown]
        rcases List.mem_cons.mp (hqueue ▸ h.queued) with rfl | hmem
        · rw [if_pos hunmatched]
          exact List.mem_append_right _ (List.mem_singleton_self _)
        · exact List.mem_append_left _ hmem
      · rw [hown] at hother
        rcases List.mem_append.mp hother with hother | hother
        · exact h.cancels other (hqueue ▸ List.mem_cons_of_mem _ hother)
        · split at hother
          · rw [List.mem_singleton] at hother
            exact hother ▸ hheadCancel
          · simp at hother
    · have hsymbol : task.symbol ≠ head.symbol := by
        intro heq
        rw [heq, hheadID] at hid
        exact hq hid.symm
      rw [hothers queueID hq, hbooks task.symbol, if_neg hsymbol]
      exact ⟨h.queued, h.unmatched, h.cancels⟩

/-- A stuck queue is never drained: its worker always has a task to execute. -/
theorem Stuck.not_terminates {queueID : ℕ} {task : Task} (h : c.Stuck queueID task) :
    ¬ (draining symbols).Terminates c := by
  refine Machine.not_terminates_of_invariant (I := Stuck queueID task) (fun s hs => ?_) h
  obtain ⟨head, rest, hqueue⟩ := List.exists_cons_of_ne_nil (List.ne_nil_of_mem hs.queued)
  obtain ⟨after, hnext, _⟩ := hs.toDrainable.work hqueue
  exact ⟨queueID, after, hnext, hs.next hnext⟩

/-- However a stuck queue is worked on, it does not become empty. -/
theorem Stuck.not_drained {queueID : ℕ} {task : Task} (h : c.Stuck queueID task) {queueIDs : List ℕ}
    (hrun : (draining symbols).run queueIDs c = some after) : ¬ after.Drained := by
  have hstuck : after.Stuck queueID task := Machine.run_invariant (fun _ _ _ hs hnext => hs.next hnext) h hrun
  exact fun hdrained => List.ne_nil_of_mem hstuck.queued (hdrained queueID)

/-- Where the resolvability fails, a queue is stuck. -/
theorem Drainable.exists_stuck (h : c.Drainable) (hresolvable : ¬ c.Resolvable) :
    ∃ queueID task, c.Stuck queueID task := by
  unfold Resolvable at hresolvable
  push Not at hresolvable
  obtain ⟨queueID, task, rest, hqueue, hunmatched, hnone⟩ := hresolvable
  refine ⟨queueID, task, h, hqueue ▸ List.mem_cons_self .., hunmatched, fun other hother => ?_⟩
  rcases List.mem_cons.mp (hqueue ▸ hother) with rfl | hother
  · exact unmatched_isNewOrder hunmatched
  · exact Bool.eq_false_iff.mpr (hnone other hother)

/-- Replays of the draining keep what it relies on. -/
theorem Drainable.run (h : c.Drainable) {queueIDs : List ℕ} (hrun : (draining symbols).run queueIDs c = some after) :
    after.Drainable :=
  Machine.run_invariant (fun _ _ _ hs hnext => hs.next hnext) h hrun

/-- Termination passes to the states reached by a replay. -/
theorem terminates_run {queueIDs : List ℕ} (h : (draining symbols).Terminates c)
    (hrun : (draining symbols).run queueIDs c = some after) : (draining symbols).Terminates after :=
  Machine.run_invariant (fun _ _ _ hs hnext => hs.step hnext) h hrun

/-- Draining ends exactly when every unmatched cancel is executed with a new order still behind it. -/
theorem Drainable.terminates_iff (h : c.Drainable) :
    Drains symbols c ↔ ∀ queueIDs t, (draining symbols).run queueIDs c = some t → t.Resolvable := by
  constructor
  · rintro ⟨hterminates, _⟩ queueIDs t hrun
    by_contra hresolvable
    obtain ⟨_, _, hstuck⟩ := (h.run hrun).exists_stuck hresolvable
    exact hstuck.not_terminates (terminates_run hterminates hrun)
  · intro hresolvable
    constructor
    · refine Machine.terminates_of_measure (I := fun s => s.Drainable ∧
        ∀ queueIDs t, (draining symbols).run queueIDs s = some t → t.Resolvable) weight ?_ ⟨h, hresolvable⟩
      rintro queueID s t ⟨hs, hall⟩ hnext
      refine ⟨⟨hs.next hnext, fun queueIDs u hrun => hall (queueID :: queueIDs) u ?_⟩,
        hs.weight_lt (hall [] s rfl) hnext⟩
      rw [Machine.run, hnext]
      exact hrun
    · intro queueIDs t hrun hfinal queueID
      exact (next_work_eq_none_iff (h.run hrun) queueID).mp (hfinal queueID)

/-- The single-threaded build: a submission is a call of the task. `none` means that the calls have
not returned when the fuel runs out. -/
def performSynchronously : ℕ → CentralOrderBook → List QueueOperation → Option CentralOrderBook
  | _, c, [] => some c
  | 0, _, _ :: _ => none
  | fuel + 1, c, .enqueue message :: operations =>
    performSynchronously fuel { c with outgoingMessages := c.outgoingMessages ++ [message] } operations
  | fuel + 1, c, .submitTask task _ :: operations =>
    performSynchronously fuel (c.taskWork task).1 ((c.taskWork task).2 ++ operations)

/-- Whether a cancel request returns in the single-threaded build. -/
def CancelReturns (c : CentralOrderBook) (order : Order) (origClientOrderID : String) : Prop :=
  ∃ fuel, (performSynchronously fuel (c.cancelOrderWork order origClientOrderID).1
    (c.cancelOrderWork order origClientOrderID).2).isSome = true

/-- A cancel that finds nothing calls itself until the fuel runs out. -/
theorem performSynchronously_unmatched {order : Order} {id : String} (fuel queueID : ℕ)
    (h : (Task.cancelOrder order id).unmatched (c.bookOf order.symbol) = true) :
    performSynchronously fuel c [.submitTask (.cancelOrder order id) queueID] = none := by
  induction fuel generalizing c queueID with
  | zero => rfl
  | succ fuel ih =>
    have hfind : (c.bookOf order.symbol).find order.owner id order.side = none := Option.isNone_iff_eq_none.mp h
    have hcancel := ((c.bookOf order.symbol).taskCancelOrder_eq_none_iff ..).mpr hfind
    have hbook : (c.taskWork (.cancelOrder order id)).1.bookOf order.symbol = c.bookOf order.symbol := by
      refine (c.taskWork_bookOf _ _).trans ((if_pos rfl).trans ?_)
      rw [Task.bookTask, OrderBook.execute, hcancel]
    have hoperations := c.taskWork_operations (.cancelOrder order id)
    rw [Task.symbol, Task.order, if_pos h, Task.bookTask, OrderBook.execute, hcancel] at hoperations
    rw [performSynchronously, List.append_nil, hoperations]
    exact ih _ (by rw [hbook]; exact h)

/-- In the single-threaded build a cancel returns exactly when its order is found at once. -/
theorem cancelReturns_iff (order : Order) (id : String) :
    c.CancelReturns order id ↔ (c.bookOf order.symbol).find order.owner id order.side ≠ none := by
  constructor
  · rintro ⟨fuel, hreturns⟩ hfind
    have hunmatched : (Task.cancelOrder order id).unmatched
        ((c.cancelOrderWork order id).1.bookOf order.symbol) = true := Option.isNone_iff_eq_none.mpr hfind
    have hnone := performSynchronously_unmatched fuel (c.queueIDOf order.symbol) hunmatched
    change (performSynchronously fuel (c.cancelOrderWork order id).1
      [.submitTask (.cancelOrder order id) (c.queueIDOf order.symbol)]).isSome = true at hreturns
    simp [hnone] at hreturns
  · intro hfind
    have hcancel := mt ((c.bookOf order.symbol).taskCancelOrder_eq_none_iff ..).mp hfind
    obtain ⟨⟨book, message⟩, hresult⟩ := Option.ne_none_iff_exists'.mp hcancel
    have hwork : ((c.cancelOrderWork order id).1.taskWork (.cancelOrder order id)).2 = [.enqueue message] := by
      simp only [taskWork, taskCancelOrderWork, cancelOrderWork_bookOf, hresult]
    refine ⟨2, ?_⟩
    change (performSynchronously 1 ((c.cancelOrderWork order id).1.taskWork (.cancelOrder order id)).1
      (((c.cancelOrderWork order id).1.taskWork (.cancelOrder order id)).2 ++ [])).isSome = true
    rw [hwork]
    rfl

/-- From every reachable state, draining ends if and only if, whenever a cancel that does not find
its order is executed, a new order is still queued behind it; where none is, the work queues never
become empty again. In the single-threaded build a cancel request returns if and only if it finds
its order. -/
theorem drains_iff (hsymbols : symbols ≠ []) (h : (engine symbols).Reachable c) :
    (Drains symbols c ↔ ∀ queueIDs t, (draining symbols).run queueIDs c = some t → t.Resolvable) ∧
      (∀ queueIDs t, (draining symbols).run queueIDs c = some t → ¬ t.Resolvable →
        ∀ more u, (draining symbols).run more t = some u → ¬ u.Drained) ∧
      ∀ order id, c.CancelReturns order id ↔ (c.bookOf order.symbol).find order.owner id order.side ≠ none := by
  have hdrainable := drainable_of_reachable hsymbols h
  refine ⟨hdrainable.terminates_iff, fun queueIDs t hrun hresolvable more u hmore => ?_, cancelReturns_iff⟩
  obtain ⟨_, _, hstuck⟩ := (hdrainable.run hrun).exists_stuck hresolvable
  exact hstuck.not_drained hmore

/-- Draining after an order and its cancel. -/
theorem drains_iff_order_and_cancel :
    ∃ c, (engine ["A"]).run [.addOrder (exampleOrder "A"), .cancelOrder (exampleOrder "A") "1"]
        (engine ["A"]).start = some c ∧
      (Drains ["A"] c ↔ ∀ queueIDs t, (draining ["A"]).run queueIDs c = some t → t.Resolvable) := by
  obtain ⟨c, hrun⟩ : ∃ c, (engine ["A"]).run [.addOrder (exampleOrder "A"), .cancelOrder (exampleOrder "A") "1"]
      (engine ["A"]).start = some c := ⟨_, rfl⟩
  exact ⟨c, hrun, (drains_iff (by decide) (Machine.reachable_of_run hrun)).1⟩

/-- A cancel for an order that was never submitted circulates forever, and calls itself forever in the
single-threaded build. -/
theorem unknown_order_never_drains :
    ∃ c, (engine ["A"]).run [.cancelOrder (exampleOrder "A") "9"] (engine ["A"]).start = some c ∧
      ¬ Drains ["A"] c ∧ (∀ queueIDs t, (draining ["A"]).run queueIDs c = some t → ¬ t.Drained) ∧
      ¬ (initialise ["A"]).CancelReturns (exampleOrder "A") "9" := by
  obtain ⟨c, hrun, hqueued, hunmatched, hcancels⟩ : ∃ c,
      (engine ["A"]).run [.cancelOrder (exampleOrder "A") "9"] (engine ["A"]).start = some c ∧
      .cancelOrder (exampleOrder "A") "9" ∈ c.threadQueues 0 ∧
      (Task.cancelOrder (exampleOrder "A") "9").unmatched (c.bookOf "A") = true ∧
      ∀ other ∈ c.threadQueues 0, other.isNewOrder = false :=
    ⟨_, rfl, by decide, by decide, by decide⟩
  have hdrainable := drainable_of_reachable (by decide) (Machine.reachable_of_run hrun)
  have hstuck : c.Stuck 0 (.cancelOrder (exampleOrder "A") "9") := ⟨hdrainable, hqueued, hunmatched, hcancels⟩
  refine ⟨c, hrun, fun hdrains => hstuck.not_terminates hdrains.1, fun _ _ => hstuck.not_drained, ?_⟩
  exact fun hreturns => (cancelReturns_iff _ _).mp hreturns (by decide)

end CentralOrderBook

end MatchingEngine
