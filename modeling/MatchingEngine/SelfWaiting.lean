import MatchingEngine.WorkQueueSafety

/-!
# A worker that waits on itself

A worker pops a cancel, finds no order for it and pushes the cancel again to its own queue.
If the dispatcher has filled the queue in between, the push never returns: only the worker
pops from the queue.

The slot that the pop has freed has to stay free until the worker has claimed it. That is
so in runs in which the dispatcher leaves a slot whenever the worker is about to push.
-/

namespace MatchingEngine

/-- The operations of an unmatched cancel. -/
theorem CentralOrderBook.taskWork_operations_of_unmatched (c : CentralOrderBook) {task : Task}
    (hunmatched : task.unmatched (c.bookOf task.symbol) = true) :
    (c.taskWork task).2 = [.submitTask task (c.queueIDOf task.symbol)] := by
  rw [taskWork_operations, execute_of_unmatched hunmatched, if_pos hunmatched]
  rfl

namespace RingPipeline

open RingBufferSPSCLockFree

variable {symbols : List String} {capacity : ℕ} {s t : RingPipeline} {queueID : ℕ}

/-- A worker is inside a push to its own queue, and the queue is full. -/
def WaitsOnItself (s : RingPipeline) (queueID : ℕ) : Prop :=
  ∃ task rest, s.working queueID = .submitTask task queueID :: rest ∧ (s.queues queueID).ring.Full

/-- The worker of a queue holds an unmatched cancel, or pushes one without having claimed its slot. -/
def Reserved (s : RingPipeline) (queueID : ℕ) : Prop :=
  (∃ task, s.holding queueID = some task ∧ task.unmatched (s.engine.bookOf task.symbol) = true) ∨
    (∃ task id, .submitTask task id ∈ s.working queueID) ∧ ¬ (s.queues queueID).Claims (.worker queueID)

/-- When the dispatcher passes a space check while the worker of the queue is to push an unmatched cancel, two
slots are free. -/
def LeavesSlot (label : Pipeline.Label) (s : RingPipeline) : Prop :=
  ∀ queueID task currentTail, label = .dispatcherOperation →
    (s.queues queueID).producers .dispatcher = some (task, .loadRead currentTail) →
      (s.queues queueID).ring.increment currentTail ≠ (s.queues queueID).ring.read → s.Reserved queueID →
        (s.queues queueID).ring.contents.length + 2 < (s.queues queueID).ring.capacity

/-- The invariant of the queues whose workers are to push unmatched cancels. -/
structure Spare (s : RingPipeline) : Prop where
  alone : ∀ queueID task id, .submitTask task id ∈ s.working queueID → s.working queueID = [.submitTask task id]
  room : ∀ queueID, s.Reserved queueID →
    (s.queues queueID).ring.contents.length + 1 < (s.queues queueID).ring.capacity
  claimed : ∀ queueID, s.Reserved queueID → (s.queues queueID).Claims .dispatcher →
    (s.queues queueID).ring.contents.length + 2 < (s.queues queueID).ring.capacity

/-- A step that leaves the queues and reserves no more keeps the invariant. -/
theorem Spare.frame (h : s.Spare) {p : Pipeline}
    (halone : ∀ queueID task id, .submitTask task id ∈ p.working queueID → p.working queueID = [.submitTask task id])
    (hreserved : ∀ queueID, { s with toPipeline := p }.Reserved queueID → s.Reserved queueID) :
    { s with toPipeline := p }.Spare :=
  ⟨halone, fun queueID h' => h.room queueID (hreserved queueID h'),
    fun queueID h' hclaims => h.claimed queueID (hreserved queueID h') hclaims⟩

/-- A task that is executed is unmatched exactly if it was so when it was popped. -/
theorem Spare.execute (h : s.Spare) (hrouted : s.abstract.Routed symbols) {queueID : ℕ} {task : Task}
    (hholding : s.holding queueID = some task) :
    { s with
      engine := (s.engine.taskWork task).1
      holding := Function.update s.holding queueID none
      working := Function.update s.working queueID (s.engine.taskWork task).2
      executed := s.executed ++ [task] }.Spare := by
  have hself : ∀ other id, .submitTask other id ∈ (s.engine.taskWork task).2 →
      task.unmatched (s.engine.bookOf task.symbol) = true := by
    intro other id hmem
    rw [CentralOrderBook.taskWork_operations] at hmem
    rcases List.mem_append.mp hmem with hmem | hmem
    · simp at hmem
    · split at hmem
      · assumption
      · simp at hmem
  refine h.frame (fun q other id hmem => ?_) fun q hreserved => ?_
  · by_cases hq : q = queueID
    · subst hq
      simp only [Function.update_self] at hmem ⊢
      have hunmatched := hself other id hmem
      rw [s.engine.taskWork_operations_of_unmatched hunmatched] at hmem ⊢
      rw [List.mem_singleton.mp hmem]
    · simp only [Function.update_of_ne hq] at hmem ⊢
      exact h.alone q other id hmem
  · rcases hreserved with ⟨other, hother, hunmatched⟩ | ⟨⟨other, id, hmem⟩, hclaims⟩
    · have hq : q ≠ queueID := by
        rintro rfl
        simp [Function.update_self] at hother
      simp only [Function.update_of_ne hq] at hother
      -- The other worker holds a task of another symbol, whose book is not touched.
      have hsymbol : other.symbol ≠ task.symbol := by
        intro heq
        have hroute := (hrouted.holding q other hother).1
        rw [heq, (hrouted.holding queueID task hholding).1] at hroute
        exact hq hroute.symm
      rw [CentralOrderBook.taskWork_bookOf, if_neg hsymbol] at hunmatched
      exact Or.inl ⟨other, hother, hunmatched⟩
    · by_cases hq : q = queueID
      · subst hq
        simp only [Function.update_self] at hmem
        exact Or.inl ⟨task, hholding, hself other id hmem⟩
      · simp only [Function.update_of_ne hq] at hmem
        exact Or.inr ⟨⟨other, id, hmem⟩, hclaims⟩

/-- Steps that touch no queue keep the invariant. -/
theorem Spare.pipelineStep (h : s.Spare) (hrouted : s.abstract.Routed symbols) {label : Pipeline.Label} {p : Pipeline}
    (hnext : Pipeline.next label s.toPipeline = some p) (hunqueued : Unqueued label s) :
    { s with toPipeline := p }.Spare := by
  obtain ⟨_, _, rfl⟩ | ⟨_, _, _, rfl⟩ | ⟨message, _, _, _, _, rfl⟩ | ⟨_, _, rfl, _, rfl⟩ |
    ⟨queueID, _, _, rfl, _, _, _, rfl⟩ | ⟨worker, task, _, hholding, rfl⟩ |
    ⟨worker, operation, rest, rfl, hworking, rfl⟩ := Pipeline.next_cases hnext
  · exact h.frame h.alone fun _ hreserved => hreserved
  · exact h.frame h.alone fun _ hreserved => hreserved
  · refine h.frame h.alone fun queueID hreserved => ?_
    simp only [Reserved, CentralOrderBook.bookOf, Pipeline.dispatchWork_orderBookDictionary] at hreserved
    exact hreserved
  · exact h.frame h.alone fun _ hreserved => hreserved
  · exact absurd rfl (hunqueued.1 queueID)
  · exact h.execute hrouted hholding
  · obtain ⟨message, others, henqueue⟩ := hunqueued.2 (.worker worker) rfl
    have hhead : s.working worker = .enqueue message :: others := henqueue
    have hnone : ∀ task id, .submitTask task id ∉ rest := by
      intro task id hmem
      have halone := h.alone worker task id (hworking ▸ List.mem_cons_of_mem _ hmem)
      rw [hhead] at halone
      cases halone
    refine h.frame (fun queueID task id hmem => ?_) fun queueID hreserved => ?_
    · by_cases hq : queueID = worker
      · subst hq
        simp only [Function.update_self] at hmem
        exact absurd hmem (hnone task id)
      · simp only [Function.update_of_ne hq] at hmem ⊢
        exact h.alone queueID task id hmem
    · refine hreserved.imp_right fun hworker => ?_
      obtain ⟨⟨task, id, hmem⟩, hclaims⟩ := hworker
      by_cases hq : queueID = worker
      · subst hq
        simp only [Function.update_self] at hmem
        exact absurd hmem (hnone task id)
      · simp only [Function.update_of_ne hq] at hmem
        exact ⟨⟨task, id, hmem⟩, hclaims⟩

/-- A step on one queue keeps the invariant if it reserves no other queue and keeps it for this queue. -/
theorem Spare.move (h : s.Spare) {p : Pipeline} {queueID : ℕ} {queue : SharedRing Thread Task}
    (halone : ∀ q task id, .submitTask task id ∈ p.working q → p.working q = [.submitTask task id])
    (hother : ∀ q, q ≠ queueID → { s with toPipeline := p }.Reserved q → s.Reserved q)
    (hqueue : ({ s with toPipeline := p }.setQueue queueID queue).Reserved queueID →
      queue.ring.contents.length + 1 < queue.ring.capacity ∧
        (queue.Claims .dispatcher → queue.ring.contents.length + 2 < queue.ring.capacity)) :
    ({ s with toPipeline := p }.setQueue queueID queue).Spare := by
  refine ⟨halone, fun q hreserved => ?_, fun q hreserved hclaims => ?_⟩
  · by_cases hq : q = queueID
    · rw [hq] at hreserved ⊢
      rw [setQueue_queues_self]
      exact (hqueue hreserved).1
    · rw [Reserved, setQueue_queues_of_ne _ _ hq] at hreserved
      rw [setQueue_queues_of_ne _ _ hq]
      exact h.room q (hother q hq hreserved)
  · by_cases hq : q = queueID
    · rw [hq] at hreserved hclaims ⊢
      rw [setQueue_queues_self] at hclaims ⊢
      exact (hqueue hreserved).2 hclaims
    · rw [Reserved, setQueue_queues_of_ne _ _ hq] at hreserved
      rw [setQueue_queues_of_ne _ _ hq] at hclaims ⊢
      exact h.claimed q (hother q hq hreserved) hclaims

/-- A step on one queue that changes nothing else keeps the invariant if it keeps it for this queue. -/
theorem Spare.setQueue (h : s.Spare) {queueID : ℕ} {queue : SharedRing Thread Task}
    (hqueue : (s.setQueue queueID queue).Reserved queueID → queue.ring.contents.length + 1 < queue.ring.capacity ∧
      (queue.Claims .dispatcher → queue.ring.contents.length + 2 < queue.ring.capacity)) :
    (s.setQueue queueID queue).Spare :=
  h.move h.alone (fun _ _ hreserved => hreserved) hqueue

/-- Whether a queue is reserved for its worker depends on the claim of its worker only. -/
theorem reserved_setQueue {queueID : ℕ} {queue : SharedRing Thread Task}
    (hclaims : queue.Claims (.worker queueID) ↔ (s.queues queueID).Claims (.worker queueID)) :
    (s.setQueue queueID queue).Reserved queueID ↔ s.Reserved queueID := by
  rw [Reserved, Reserved, setQueue_queues_self, hclaims]
  rfl

/-- A call of `tryPush` changes no claim. -/
theorem tryPush_claims {queue : SharedRing Thread Task} {thread : Thread} (hproducer : queue.producers thread = none)
    (task : Task) (other : Thread) : (queue.tryPush thread task).Claims other ↔ queue.Claims other := by
  by_cases hother : other = thread
  · subst hother
    simp [SharedRing.Claims, SharedRing.tryPush, hproducer, PushState.claims]
  · simp only [SharedRing.Claims, SharedRing.tryPush, Function.update_of_ne hother]

/-- A call of `tryPush` keeps the invariant. -/
theorem Spare.tryPush (h : s.Spare) {queueID : ℕ} {thread : Thread} (hproducer : (s.queues queueID).producers thread = none)
    (task : Task) : (s.setQueue queueID ((s.queues queueID).tryPush thread task)).Spare := by
  refine h.setQueue fun hreserved => ?_
  rw [reserved_setQueue (tryPush_claims hproducer task _)] at hreserved
  exact ⟨h.room queueID hreserved, fun hclaims =>
    h.claimed queueID hreserved ((tryPush_claims hproducer task _).mp hclaims)⟩

/-- The dispatcher's steps inside `submitTask` keep the invariant if it leaves a slot. -/
theorem Spare.dispatcherStep (h : s.Spare) (hs : s.Linked) (ht : t.Linked) (hleaves : LeavesSlot .dispatcherOperation s)
    {task : Task} {queueID : ℕ} {returned : Bool} (hstep : s.submitStep .dispatcher task queueID = some (t, returned)) :
    t.Spare := by
  obtain ⟨_, ⟨hproducer, _, rfl⟩ | ⟨val, state, hproducer, _, rfl⟩⟩ := submitStep_cases hstep
  · exact h.tryPush hproducer task
  · have hfifo := ht.fifo queueID
    rw [setQueue_queues_self] at hfifo
    have hlength := (hs.fifo queueID).produce_contents_length hfifo
    refine h.setQueue fun hreserved => ?_
    have hne : Thread.worker queueID ≠ .dispatcher := fun heq => by cases heq
    rw [reserved_setQueue (SharedRing.claims_of_ne hne val state)] at hreserved
    have hroom := h.room queueID hreserved
    rw [hlength, SharedRing.produce_capacity]
    by_cases hreturned : ((s.queues queueID).produce .dispatcher val state).2 = some true
    · obtain ⟨hclaims, hnot⟩ := SharedRing.claims_of_returned hproducer hreturned
      have hclaimed := h.claimed queueID hreserved hclaims
      rw [if_pos hreturned]
      exact ⟨by omega, fun hclaims => absurd hclaims hnot⟩
    · rw [if_neg hreturned]
      refine ⟨hroom, fun hclaims => ?_⟩
      rcases (SharedRing.claims_of_running hproducer hreturned).mp hclaims with hclaims | ⟨currentTail, rfl, hspace⟩
      · exact h.claimed queueID hreserved hclaims
      · exact hleaves queueID val currentTail rfl hproducer hspace hreserved

/-- A worker's steps inside `submitTask` keep the invariant; when it returns, nothing is left to push. -/
theorem Spare.workerStep (h : s.Spare) (hs : s.Linked) (ht : t.Linked) {task : Task} {queueID : ℕ}
    {rest : List QueueOperation} (hworking : s.working queueID = .submitTask task queueID :: rest)
    (hholding : s.holding queueID = none) {returned : Bool}
    (hstep : s.submitStep (.worker queueID) task queueID = some (t, returned)) :
    (if returned then t.setOperations rest (.worker queueID) else t).Spare := by
  have halone := h.alone queueID task queueID (hworking ▸ List.mem_cons_self ..)
  obtain rfl : rest = [] := (List.cons.inj (hworking.symm.trans halone)).2
  obtain ⟨_, ⟨hproducer, rfl, rfl⟩ | ⟨val, state, hproducer, rfl, rfl⟩⟩ := submitStep_cases hstep
  · exact h.tryPush hproducer task
  · have hfifo := ht.fifo queueID
    rw [setQueue_queues_self] at hfifo
    have hlength := (hs.fifo queueID).produce_contents_length hfifo
    by_cases hreturned : ((s.queues queueID).produce (.worker queueID) val state).2 = some true
    · rw [beq_iff_eq.mpr hreturned, if_pos rfl]
      refine h.move (p := { s.toPipeline with working := Function.update s.working queueID [] }) (fun q other id hmem => ?_)
        (fun q hq hreserved => ?_) fun hreserved => ?_
      · by_cases hq : q = queueID
        · subst hq
          simp [Function.update_self] at hmem
        · simp only [Function.update_of_ne hq] at hmem ⊢
          exact h.alone q other id hmem
      · refine hreserved.imp_right fun ⟨⟨other, id, hmem⟩, hclaims⟩ => ?_
        simp only [Function.update_of_ne hq] at hmem
        exact ⟨⟨other, id, hmem⟩, hclaims⟩
      · rcases hreserved with ⟨other, hother, _⟩ | ⟨⟨other, id, hmem⟩, _⟩
        · cases hholding.symm.trans hother
        · simp [RingPipeline.setQueue] at hmem
    · rw [beq_false_of_ne hreturned]
      rw [if_neg hreturned, Nat.add_zero] at hlength
      refine h.setQueue fun hreserved => ?_
      rw [hlength, SharedRing.produce_capacity]
      have hbefore : s.Reserved queueID := by
        rcases hreserved with ⟨other, hother, _⟩ | ⟨hmem, hclaims⟩
        · cases hholding.symm.trans hother
        · rw [setQueue_queues_self, SharedRing.claims_of_running hproducer hreturned] at hclaims
          exact Or.inr ⟨hmem, fun h => hclaims (Or.inl h)⟩
      have hne : Thread.dispatcher ≠ .worker queueID := fun heq => by cases heq
      exact ⟨h.room queueID hbefore, fun hclaims =>
        h.claimed queueID hbefore ((SharedRing.claims_of_ne hne val state).mp hclaims)⟩

/-- A pop frees the slot that its worker may need. -/
theorem Spare.popStep (h : s.Spare) (hs : s.Linked) {queueID : ℕ} (hworking : s.working queueID = [])
    (hholding : s.holding queueID = none) :
    ((s.queues queueID).consume.2 = none → (s.setQueue queueID (s.queues queueID).consume.1).Spare) ∧
      ∀ task, (s.queues queueID).consume.2 = some (some task) →
        { s.setQueue queueID (s.queues queueID).consume.1 with
          holding := Function.update s.holding queueID (some task) }.Spare := by
  have hfifo := hs.fifo queueID
  have hlength := hfifo.consume_contents_length hfifo.consume
  refine ⟨fun hpopped => h.setQueue fun hreserved => ?_, fun task hpopped => ?_⟩
  · rcases hreserved with ⟨other, hother, _⟩ | ⟨⟨other, id, hmem⟩, _⟩
    · cases hholding.symm.trans hother
    · exact absurd (hworking ▸ hmem : QueueOperation.submitTask other id ∈ []) List.not_mem_nil
  · rw [hpopped, Option.toList_some, List.length_singleton] at hlength
    refine h.move (p := { s.toPipeline with holding := Function.update s.holding queueID (some task) }) h.alone
      (fun q hq hreserved => ?_) fun _ => ⟨?_, fun hclaims => ?_⟩
    · refine hreserved.imp_left fun ⟨other, hother, hunmatched⟩ => ?_
      simp only [Function.update_of_ne hq] at hother
      exact ⟨other, hother, hunmatched⟩
    · rw [SharedRing.consume_capacity, hlength]
      have hbounded := hfifo.bounded
      have hcontents := hfifo.contents_length
      omega
    · rw [SharedRing.Claims, SharedRing.consume_producers] at hclaims
      rw [SharedRing.consume_capacity]
      have hspace := hfifo.space_of_claims hclaims
      omega

/-- Every step of a run in which the dispatcher leaves a slot keeps the invariant. -/
theorem Spare.next (h : s.Spare) (hs : s.Linked) (ht : t.Linked) (hrouted : s.abstract.Routed symbols)
    {label : Pipeline.Label} (hleaves : LeavesSlot label s) (hexclusive : Exclusive label s)
    (hnext : RingPipeline.next label s = some t) : t.Spare := by
  obtain ⟨p, hp, hunqueued, rfl⟩ | ⟨thread, task, queueID, rest, u, returned, hlabel, hoperations, hstep, rfl⟩ |
    ⟨queueID, rfl, hholding, hworking, ⟨hpopped, rfl⟩ | ⟨task, hpopped, rfl⟩⟩ := next_cases hnext
  · exact h.pipelineStep hrouted hp hunqueued
  · have hu := (hs.submitStep hoperations (hexclusive thread task queueID rest hlabel hoperations) hstep).1
    cases thread with
    | dispatcher =>
      obtain rfl := eq_of_operating_dispatcher hlabel
      have hspare := h.dispatcherStep hs hu hleaves hstep
      cases returned with
      | false => exact hspare
      | true => exact ⟨hspare.alone, hspare.room, hspare.claimed⟩
    | worker worker =>
      have hsubmit : .submitTask task queueID ∈ s.working worker := by
        have hworking : s.working worker = .submitTask task queueID :: rest := hoperations
        rw [hworking]
        exact List.mem_cons_self ..
      obtain rfl := (hrouted.working worker task queueID hsubmit).1
      have hholding : s.holding queueID = none := by
        by_contra hheld
        obtain ⟨other, hother⟩ := Option.ne_none_iff_exists'.mp hheld
        have hidle : s.working queueID = [] := (hrouted.holding queueID other hother).2
        rw [hidle] at hsubmit
        exact absurd hsubmit List.not_mem_nil
      exact h.workerStep hs hu hoperations hholding hstep
  · exact (h.popStep hs hworking hholding).1 hpopped
  · exact (h.popStep hs hworking hholding).2 task hpopped

/-- In every run in which pushes exclude each other and the dispatcher leaves a slot for a worker that is to
push an unmatched cancel, no worker waits on itself. -/
theorem never_waits_on_itself (hcapacity : 0 < capacity)
    (h : (ringPipeline symbols capacity).ReachableBy (fun label s => Exclusive label s ∧ LeavesSlot label s) s)
    (queueID : ℕ) : ¬ s.WaitsOnItself queueID := by
  have hspare : s.Spare := by
    induction h with
    | start =>
      refine ⟨fun _ _ _ hmem => absurd hmem List.not_mem_nil, fun _ hreserved => ?_, fun _ _ ⟨_, _, hproducer, _⟩ => ?_⟩
      · obtain ⟨_, hholding, _⟩ | ⟨⟨_, _, hmem⟩, _⟩ := hreserved
        · cases hholding
        · exact absurd hmem List.not_mem_nil
      · cases hproducer
    | step hs hallowed hnext ih =>
      have hreach := hs.mono fun _ _ hallowed => hallowed.1
      obtain ⟨hlinked, habstract⟩ := linked_of_reachableBy hcapacity hreach
      have ht := (linked_of_reachableBy hcapacity (hreach.step hallowed.1 hnext)).1
      exact ih.next hlinked ht (Pipeline.consistent_of_reachable habstract).routed hallowed.2 hallowed.1 hnext
  obtain ⟨hlinked, _⟩ := linked_of_reachableBy hcapacity (h.mono fun _ _ hallowed => hallowed.1)
  rintro ⟨task, rest, hworking, hfull⟩
  have hfifo := hlinked.fifo queueID
  rw [hfifo.full_iff] at hfull
  by_cases hclaims : (s.queues queueID).Claims (.worker queueID)
  · have hspace := hfifo.space_of_claims hclaims
    omega
  · have hroom := hspare.room queueID (Or.inr ⟨⟨task, queueID, hworking ▸ List.mem_cons_self ..⟩, hclaims⟩)
    omega

/-- A test for steps at which pushes exclude each other and the dispatcher finds two slots free. -/
def leavesSlots (label : Pipeline.Label) (s : RingPipeline) : Bool :=
  ((operating label).all s.pushesAlone) && match label, s.dispatching with
    | .dispatcherOperation, .submitTask _ queueID :: _ =>
      decide ((s.queues queueID).ring.contents.length + 2 < (s.queues queueID).ring.capacity)
    | _, _ => true

/-- What the test says. -/
theorem leavesSlot_of_test (hlinked : s.Linked) (hown : s.OwnQueues) {label : Pipeline.Label}
    (htest : leavesSlots label s = true) : Exclusive label s ∧ LeavesSlot label s := by
  obtain ⟨halone, hslots⟩ := Bool.and_eq_true_iff.mp htest
  constructor
  · intro thread task queueID rest hlabel hoperations
    rw [hlabel] at halone
    exact hown.exclusive hlabel halone thread task queueID rest hlabel hoperations
  · rintro queueID task currentTail rfl hproducer _ _
    obtain ⟨rest, hdispatching⟩ := hlinked.calls queueID .dispatcher task _ hproducer
    have hdispatching : s.dispatching = .submitTask task queueID :: rest := hdispatching
    simpa only [hdispatching, decide_eq_true_eq] using hslots

/-- The dispatcher submits a cancel, which the worker pops and pushes again, between two steps of a second push of the
dispatcher. -/
def rescheduling : List Pipeline.Label :=
  List.flatten [
    [.push (Pipeline.exampleRequest "A" .cancelOrder), .push (Pipeline.exampleRequest "A" .cancelOrder), .flush, .dispatch],
    List.replicate 5 .dispatcherOperation, List.replicate 4 (.pop 0), [.execute 0, .dispatch, .dispatcherOperation],
    List.replicate 5 (.workerOperation 0), List.replicate 4 .dispatcherOperation]

/-- A run in which a worker pushes an unmatched cancel again while the dispatcher pushes another one. -/
theorem never_waits_on_itself_rescheduled :
    ∃ s, (ringPipeline ["A"] 4).run rescheduling (ringPipeline ["A"] 4).start = some s ∧
      (s.queues 0).pushes.length = 3 ∧ (s.queues 0).pops.length = 1 ∧ ¬ s.WaitsOnItself 0 := by
  obtain ⟨s, hrun, hpushes, hpops⟩ : ∃ s,
      (ringPipeline ["A"] 4).runIf leavesSlots rescheduling (ringPipeline ["A"] 4).start = some s ∧
      (s.queues 0).pushes.length = 3 ∧ (s.queues 0).pops.length = 1 := ⟨_, rfl, rfl, rfl⟩
  have hreach : (ringPipeline ["A"] 4).ReachableBy (fun label s => Exclusive label s ∧ LeavesSlot label s) s := by
    refine Machine.ReachableBy.runIf (fun label u hu htest => ?_) .start hrun
    have hexclusive := hu.mono fun _ _ hallowed => hallowed.1
    exact leavesSlot_of_test (linked_of_reachableBy (by decide) hexclusive).1
      (ownQueues_of_reachableBy (by decide) hexclusive) htest
  exact ⟨s, Machine.run_of_runIf hrun, hpushes, hpops, never_waits_on_itself (by decide) hreach 0⟩

/-- A worker waits on itself, and no thread is past a space check of a push to its queue. -/
structure Stuck (s : RingPipeline) (queueID : ℕ) : Prop where
  working : ∃ task rest, s.working queueID = .submitTask task queueID :: rest
  holding : s.holding queueID = none
  full : (s.queues queueID).ring.Full
  producers : ∀ thread, (s.queues queueID).producers thread = none ∨
    ∃ task, (s.queues queueID).producers thread = some (task, .loadWrite) ∨
      (s.queues queueID).producers thread = some (task, .loadRead (s.queues queueID).ring.write)

/-- Another state of a ring buffer on which no push is past its space check. -/
theorem Stuck.setQueue (h : s.Stuck queueID) {id : ℕ} {queue : SharedRing Thread Task}
    (hqueue : id = queueID → queue.ring = (s.queues queueID).ring ∧ ∀ thread, queue.producers thread = none ∨
      ∃ task, queue.producers thread = some (task, .loadWrite) ∨
        queue.producers thread = some (task, .loadRead (s.queues queueID).ring.write)) :
    (s.setQueue id queue).Stuck queueID := by
  by_cases hid : id = queueID
  · subst hid
    obtain ⟨hring, hproducers⟩ := hqueue rfl
    refine ⟨h.working, h.holding, ?_, fun thread => ?_⟩
    · rw [setQueue_queues_self, hring]
      exact h.full
    · rw [setQueue_queues_self, hring]
      exact hproducers thread
  · have hne : queueID ≠ id := fun heq => hid heq.symm
    refine ⟨h.working, h.holding, ?_, fun thread => ?_⟩
    · rw [setQueue_queues_of_ne _ _ hne]
      exact h.full
    · rw [setQueue_queues_of_ne _ _ hne]
      exact h.producers thread

/-- The pushes to a queue after a step on a ring buffer. -/
theorem pushes_setQueue {id : ℕ} {queue : SharedRing Thread Task}
    (hqueue : id = queueID → queue.pushes = (s.queues queueID).pushes) :
    ((s.setQueue id queue).queues queueID).pushes = (s.queues queueID).pushes := by
  by_cases hid : id = queueID
  · subst hid
    rw [setQueue_queues_self]
    exact hqueue rfl
  · have hne : queueID ≠ id := fun heq => hid heq.symm
    rw [setQueue_queues_of_ne _ _ hne]

/-- No push to a full queue gets past its space check. -/
theorem Stuck.produce (h : s.Stuck queueID) {thread : Thread} {task : Task} {state : PushState}
    (hproducer : (s.queues queueID).producers thread = some (task, state)) :
    ∃ current, (s.queues queueID).produce thread task state =
        ({ s.queues queueID with producers := Function.update (s.queues queueID).producers thread current },
          if current = none then some false else none) ∧
      (current = none ∨ current = some (task, .loadRead (s.queues queueID).ring.write)) := by
  have hfull : (s.queues queueID).ring.increment (s.queues queueID).ring.write = (s.queues queueID).ring.read := h.full
  rcases h.producers thread with hnone | ⟨other, hload | hload⟩
  · rw [hproducer] at hnone
    cases hnone
  · rw [hproducer, Option.some.injEq, Prod.mk.injEq] at hload
    obtain ⟨rfl, rfl⟩ := hload
    exact ⟨_, rfl, Or.inr rfl⟩
  · rw [hproducer, Option.some.injEq, Prod.mk.injEq] at hload
    obtain ⟨rfl, rfl⟩ := hload
    refine ⟨none, ?_, Or.inl rfl⟩
    simp [SharedRing.produce, tryPushStep, hfull]

/-- Steps inside `submitTask` leave a worker waiting on itself. -/
theorem Stuck.submitStep (h : s.Stuck queueID) {thread : Thread} {task : Task} {id : ℕ} {returned : Bool}
    (hstep : s.submitStep thread task id = some (t, returned)) :
    t.Stuck queueID ∧ (t.queues queueID).pushes = (s.queues queueID).pushes ∧ (returned = true → id ≠ queueID) := by
  obtain ⟨_, ⟨hproducer, rfl, rfl⟩ | ⟨val, state, hproducer, rfl, rfl⟩⟩ := submitStep_cases hstep
  · refine ⟨h.setQueue fun heq => ?_, pushes_setQueue fun heq => heq ▸ rfl, fun heq => by cases heq⟩
    subst heq
    refine ⟨rfl, fun other => ?_⟩
    by_cases hother : other = thread
    · subst hother
      exact Or.inr ⟨task, Or.inl (Function.update_self ..)⟩
    · simp only [SharedRing.tryPush, Function.update_of_ne hother]
      exact h.producers other
  · refine ⟨h.setQueue fun heq => ?_, pushes_setQueue fun heq => ?_, fun hreturned heq => ?_⟩
    · subst heq
      obtain ⟨current, hproduce, hcurrent⟩ := h.produce hproducer
      rw [hproduce]
      refine ⟨rfl, fun other => ?_⟩
      by_cases hother : other = thread
      · subst hother
        simp only [Function.update_self]
        exact hcurrent.imp_right fun heq => ⟨val, Or.inr heq⟩
      · simp only [Function.update_of_ne hother]
        exact h.producers other
    · subst heq
      obtain ⟨current, hproduce, _⟩ := h.produce hproducer
      rw [hproduce]
    · subst heq
      obtain ⟨current, hproduce, hcurrent⟩ := h.produce hproducer
      rw [hproduce] at hreturned
      rcases hcurrent with rfl | rfl
      · simp at hreturned
      · simp at hreturned

/-- Every step leaves a worker waiting on itself, and no push to its queue returns. -/
theorem Stuck.next (h : s.Stuck queueID) {label : Pipeline.Label} (hnext : RingPipeline.next label s = some t) :
    t.Stuck queueID ∧ (t.queues queueID).pushes = (s.queues queueID).pushes := by
  obtain ⟨task, rest, hworking⟩ := h.working
  obtain ⟨p, hp, hunqueued, rfl⟩ | ⟨thread, other, id, others, u, returned, hlabel, hoperations, hstep, rfl⟩ |
    ⟨id, rfl, _, hidle, hpop⟩ := next_cases hnext
  · refine ⟨⟨?_, ?_, h.full, h.producers⟩, rfl⟩
    · refine ⟨task, rest, ?_⟩
      have hself : operating _ ≠ some (.worker queueID) := hunqueued.operations_ne hworking
      obtain ⟨_, _, rfl⟩ | ⟨_, _, _, rfl⟩ | ⟨_, _, _, _, _, rfl⟩ | ⟨_, _, _, _, rfl⟩ | ⟨_, _, _, _, _, _, _, rfl⟩ |
        ⟨worker, _, _, hheld, rfl⟩ | ⟨worker, _, _, rfl, _, rfl⟩ := Pipeline.next_cases hp
      · exact hworking
      · exact hworking
      · exact hworking
      · exact hworking
      · exact hworking
      · have hne : queueID ≠ worker := by
          rintro rfl
          cases h.holding.symm.trans hheld
        simp only [Function.update_of_ne hne]
        exact hworking
      · have hne : queueID ≠ worker := by
          rintro rfl
          exact hself rfl
        simp only [Function.update_of_ne hne]
        exact hworking
    · obtain ⟨_, _, rfl⟩ | ⟨_, _, _, rfl⟩ | ⟨_, _, _, _, _, rfl⟩ | ⟨_, _, _, _, rfl⟩ | ⟨id, _, _, rfl, _, _, _, rfl⟩ |
        ⟨worker, _, _, hheld, rfl⟩ | ⟨worker, _, _, rfl, _, rfl⟩ := Pipeline.next_cases hp
      · exact h.holding
      · exact h.holding
      · exact h.holding
      · exact h.holding
      · exact absurd rfl (hunqueued.1 id)
      · by_cases hne : queueID = worker
        · subst hne
          exact Function.update_self ..
        · simp only [Function.update_of_ne hne]
          exact h.holding
      · exact h.holding
  · obtain ⟨hstuck, hpushes, hreturned⟩ := h.submitStep hstep
    cases returned with
    | false => exact ⟨hstuck, hpushes⟩
    | true =>
      cases thread with
      | dispatcher => exact ⟨⟨hstuck.working, hstuck.holding, hstuck.full, hstuck.producers⟩, hpushes⟩
      | worker worker =>
        have hne : queueID ≠ worker := by
          rintro rfl
          have hhead := hworking.symm.trans hoperations
          rw [List.cons.injEq, QueueOperation.submitTask.injEq] at hhead
          exact hreturned rfl hhead.1.2.symm
        refine ⟨⟨?_, hstuck.holding, hstuck.full, hstuck.producers⟩, hpushes⟩
        simp only [if_true, setOperations, Function.update_of_ne hne]
        exact hstuck.working
  · have hid : id ≠ queueID := by
      rintro rfl
      rw [hworking] at hidle
      cases hidle
    have hstuck : (s.setQueue id (s.queues id).consume.1).Stuck queueID := h.setQueue fun heq => absurd heq hid
    have hpushes : ((s.setQueue id (s.queues id).consume.1).queues queueID).pushes = (s.queues queueID).pushes :=
      pushes_setQueue fun heq => absurd heq hid
    obtain ⟨_, rfl⟩ | ⟨popped, _, rfl⟩ := hpop
    · exact ⟨hstuck, hpushes⟩
    · refine ⟨⟨hstuck.working, ?_, hstuck.full, hstuck.producers⟩, hpushes⟩
      simp only [Function.update_of_ne (Ne.symm hid)]
      exact h.holding

/-- In no continuation does the worker stop waiting, and no push to its queue returns. -/
theorem Stuck.run {labels : List Pipeline.Label} (h : s.Stuck queueID)
    (hrun : (ringPipeline symbols capacity).run labels s = some t) :
    t.Stuck queueID ∧ (t.queues queueID).pushes = (s.queues queueID).pushes := by
  refine Machine.run_invariant (I := fun u => u.Stuck queueID ∧ (u.queues queueID).pushes = (s.queues queueID).pushes)
    (fun label u v hu hnext => ?_) ⟨h, rfl⟩ hrun
  obtain ⟨hstuck, hpushes⟩ := hu.1.next hnext
  exact ⟨hstuck, hpushes.trans hu.2⟩

/-- A run over a ring buffer with two slots in which the dispatcher fills the slot that the worker has freed:
the worker waits on itself in all continuations, and the dispatcher never pushes to its queue again. -/
theorem worker_waits_on_itself :
    ∃ s, (ringPipeline ["A"] 2).Reachable s ∧ s.WaitsOnItself 0 ∧
      ∀ labels t, (ringPipeline ["A"] 2).run labels s = some t →
        t.WaitsOnItself 0 ∧ (t.queues 0).pushes = (s.queues 0).pushes := by
  obtain ⟨s, hrun, hworking, hholding, hfull, hdispatcher, hworker⟩ : ∃ s, (ringPipeline ["A"] 2).run
      (List.flatten [
        [.push (Pipeline.exampleRequest "A" .cancelOrder), .push (Pipeline.exampleRequest "A" .newOrder), .flush, .dispatch],
        List.replicate 5 .dispatcherOperation, List.replicate 4 (.pop 0), [.dispatch], List.replicate 6 .dispatcherOperation,
        [.execute 0]])
      (ringPipeline ["A"] 2).start = some s ∧
      s.working 0 = [.submitTask ((Pipeline.exampleRequest "A" .cancelOrder).message 0).task 0] ∧
      s.holding 0 = none ∧ (s.queues 0).ring.increment (s.queues 0).ring.write = (s.queues 0).ring.read ∧
      (s.queues 0).producers .dispatcher = none ∧ ∀ worker, (s.queues 0).producers (.worker worker) = none :=
    ⟨_, rfl, rfl, rfl, rfl, rfl, fun _ => rfl⟩
  have hstuck : s.Stuck 0 := by
    refine ⟨⟨_, _, hworking⟩, hholding, hfull, fun thread => Or.inl ?_⟩
    cases thread with
    | dispatcher => exact hdispatcher
    | worker worker => exact hworker worker
  have hwaits : ∀ {t : RingPipeline}, t.Stuck 0 → t.WaitsOnItself 0 := fun ht => by
    obtain ⟨task, rest, hworking⟩ := ht.working
    exact ⟨task, rest, hworking, ht.full⟩
  exact ⟨s, Machine.reachable_of_run hrun, hwaits hstuck, fun labels t hmore =>
    ⟨hwaits (hstuck.run hmore).1, (hstuck.run hmore).2⟩⟩

end RingPipeline

end MatchingEngine
