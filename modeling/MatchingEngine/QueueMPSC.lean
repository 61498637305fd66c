import MatchingEngine.Foundation.LinkedList
import MatchingEngine.Foundation.Machine

/-!
# The queue of the dispatcher

Any number of threads push, and the dispatcher flushes and walks what it gets. A push appends
a node under the lock; `flush` looks under the lock whether there is a node, and detaches all
nodes under a lock that it takes later. Between these steps all threads interleave.

The nodes in the queue and the nodes that the dispatcher walks are two chains. Every node has
one owner (the queue, the dispatcher, or the thread that has just constructed it), so that no
step of one owner reaches the nodes of another.
-/

namespace MatchingEngine

/-- The queue: its first node is a dummy whose data is never read. -/
structure QueueMPSC (T : Type*) where
  heap : Heap (Node (Option T))
  head : ℕ
  tail : ℕ

namespace QueueMPSC

variable {T : Type*}

/-- A new queue has a dummy node, default-constructed data included. -/
def new (T : Type*) : QueueMPSC T := ⟨(Heap.empty _).allocate ⟨none, none⟩, 0, 0⟩

/-- The critical section of `push`. -/
def push (q : QueueMPSC T) (newNode : ℕ) : Option (QueueMPSC T) :=
  (q.heap.store q.tail fun tail => { tail with next := some newNode }).map fun heap =>
    { q with heap := heap, tail := newNode }

/-- The critical section of `isEmpty`. -/
def isEmpty (q : QueueMPSC T) : Option Bool := (q.heap.cells q.head).map fun head => head.next.isNone

/-- The critical section of `flush`: the first node is returned, unless there is none to wait for. -/
def flush (q : QueueMPSC T) : Option (QueueMPSC T × Option ℕ) :=
  match q.heap.cells q.head with
  | none => none
  | some head =>
    match head.next with
    | none => some (q, none)
    | some ret =>
      (q.heap.store q.head fun head => { head with next := none }).map fun heap =>
        ({ q with heap := heap, tail := q.head }, some ret)

/-- The next step of a call of `push`. -/
inductive PushState (T : Type*)
  | construct (data : T)
  | append (data : T) (newNode : ℕ)
  | notify

/-- The next step of the dispatcher: in `flush` up to `waiting`, then in the walk. -/
inductive WalkState
  | isEmpty
  | lock
  | waiting
  | walk (messageLinkedList : Option ℕ)
  | advance (messageLinkedList : ℕ)
  | delete (temp : ℕ) (messageLinkedList : Option ℕ)
deriving DecidableEq

/-- The first node that the dispatcher has not deleted. -/
def WalkState.undeleted : WalkState → Option ℕ
  | isEmpty | lock | waiting => none
  | walk messageLinkedList => messageLinkedList
  | advance messageLinkedList => some messageLinkedList
  | delete temp _ => some temp

/-- The dispatcher has dispatched the message of the first node that it has not deleted. -/
def WalkState.dispatched : WalkState → Bool
  | isEmpty | lock | waiting | walk _ => false
  | advance _ | delete _ _ => true

end QueueMPSC

/-- A queue with its producers and its dispatcher, and records: the messages pushed, in the order in which the pushes
took the lock; what is found by following the links from each node that `flush` returned; the messages dispatched. -/
structure SharedQueue (ι T : Type*) where
  queue : QueueMPSC T
  producers : ι → Option (QueueMPSC.PushState T)
  consumer : QueueMPSC.WalkState
  pushed : List T
  flushed : List (Option (List (ℕ × Option T)))
  dispatched : List (Option T)

namespace SharedQueue

open QueueMPSC

variable {ι T : Type*} [DecidableEq ι]

/-- A thread calls `push` or takes a step of its call; the dispatcher takes a step, or wakes up without a notification. -/
inductive Label (ι T : Type*)
  | push (producer : ι) (data : T)
  | produce (producer : ι)
  | consume
  | wake

/-- A new queue that nobody uses. -/
def initial (ι T : Type*) : SharedQueue ι T := ⟨.new T, fun _ => none, .isEmpty, [], [], []⟩

/-- A step of a call of `push`. -/
def produce (s : SharedQueue ι T) (producer : ι) : PushState T → Option (SharedQueue ι T)
  | .construct data => some { s with
      queue := { s.queue with heap := s.queue.heap.allocate ⟨some data, none⟩ }
      producers := Function.update s.producers producer (some (.append data s.queue.heap.allocated)) }
  | .append data newNode => (s.queue.push newNode).map fun queue => { s with
      queue := queue
      producers := Function.update s.producers producer (some .notify)
      pushed := s.pushed ++ [data] }
  | .notify => some { s with
      producers := Function.update s.producers producer none
      consumer := if s.consumer = .waiting then .lock else s.consumer }

/-- A step of the dispatcher; it has none while it waits. -/
def consume (s : SharedQueue ι T) : Option (SharedQueue ι T) :=
  match s.consumer with
  | .isEmpty => s.queue.isEmpty.map fun empty => { s with consumer := if empty then .isEmpty else .lock }
  | .lock => s.queue.flush.map fun (queue, ret) =>
    match ret with
    | none => { s with consumer := .waiting }
    | some ret => { s with
        queue := queue
        consumer := .walk (some ret)
        flushed := s.flushed ++ [Node.walk queue.heap.cells s.pushed.length (some ret)] }
  | .waiting => none
  | .walk none => some { s with consumer := .isEmpty }
  | .walk (some messageLinkedList) => (s.queue.heap.cells messageLinkedList).map fun node => { s with
      consumer := .advance messageLinkedList
      dispatched := s.dispatched ++ [node.data] }
  | .advance messageLinkedList => (s.queue.heap.cells messageLinkedList).map fun node =>
      { s with consumer := .delete messageLinkedList node.next }
  | .delete temp messageLinkedList => (s.queue.heap.free temp).map fun heap => { s with
      queue := { s.queue with heap := heap }
      consumer := .walk messageLinkedList }

/-- The steps of the threads. -/
def next : Label ι T → SharedQueue ι T → Option (SharedQueue ι T)
  | .push producer data, s =>
    match s.producers producer with
    | none => some { s with producers := Function.update s.producers producer (some (.construct data)) }
    | some _ => none
  | .produce producer, s => (s.producers producer).bind (s.produce producer)
  | .consume, s => s.consume
  | .wake, s => if s.consumer = .waiting then some { s with consumer := .lock } else none

end SharedQueue

/-- The threads on one queue. -/
def sharedQueue (ι T : Type*) [DecidableEq ι] : Machine (SharedQueue ι T) (SharedQueue.Label ι T) where
  start := .initial ι T
  next := SharedQueue.next

namespace SharedQueue

open QueueMPSC

/-- Who may reach a node. -/
inductive Owner (ι : Type*)
  | queue
  | dispatcher
  | producer (producer : ι)

variable {ι T : Type*} {s t : SharedQueue ι T} {dummy : Option T} {queued walked : List (ℕ × Option T)}
  {lists : List (List (ℕ × Option T))} {owner : ℕ → Owner ι}

/-- What the state of the dispatcher says about the nodes it walks and the queue. -/
def Walks (queued walked : List (ℕ × Option T)) : WalkState → Prop
  | .isEmpty => walked = []
  | .lock => walked = [] ∧ queued ≠ []
  | .waiting => False
  | .walk messageLinkedList => messageLinkedList = Node.first walked
  | .advance messageLinkedList => ∃ data rest, walked = (messageLinkedList, data) :: rest
  | .delete temp messageLinkedList => ∃ data rest, walked = (temp, data) :: rest ∧ messageLinkedList = Node.first rest

/-- The nodes whose messages the dispatcher has still to dispatch. -/
def undispatched (s : SharedQueue ι T) (walked : List (ℕ × Option T)) : List (ℕ × Option T) :=
  if s.consumer.dispatched then walked.tail else walked

/-- The nodes of the queue and those of the dispatcher are chains. -/
structure Chained (s : SharedQueue ι T) (dummy : Option T) (queued walked : List (ℕ × Option T))
    (owner : ℕ → Owner ι) : Prop where
  queue : Node.Chain s.queue.heap.cells ((s.queue.head, dummy) :: queued)
  tail : (((s.queue.head, dummy) :: queued).map Prod.fst).getLast? = some s.queue.tail
  walk : Node.Chain s.queue.heap.cells walked
  queueOwner : ∀ entry ∈ (s.queue.head, dummy) :: queued, owner entry.1 = .queue
  walkOwner : ∀ entry ∈ walked, owner entry.1 = .dispatcher
  constructed : ∀ producer data newNode, s.producers producer = some (.append data newNode) →
    s.queue.heap.cells newNode = some ⟨some data, none⟩ ∧ owner newNode = .producer producer

/-- The messages are in the records, in the nodes of the dispatcher and in the queue. -/
structure Delivers (s : SharedQueue ι T) (lists : List (List (ℕ × Option T))) (queued walked : List (ℕ × Option T)) :
    Prop where
  flushed : s.flushed = lists.map some
  nonempty : ∀ list ∈ lists, list ≠ []
  pushed : (lists.flatten ++ queued).map Prod.snd = s.pushed.map some
  dispatched : s.dispatched ++ (s.undispatched walked).map Prod.snd = lists.flatten.map Prod.snd
  walks : Walks queued walked s.consumer

namespace Chained

variable (h : s.Chained dummy queued walked owner)
include h

/-- The last node of the queue is the one at the tail. -/
theorem exists_last : ∃ entries data, (s.queue.head, dummy) :: queued = entries ++ [(s.queue.tail, data)] :=
  Node.exists_last _ h.tail

/-- The head links to the first node of the queue. -/
theorem head_cell : s.queue.heap.cells s.queue.head = some ⟨dummy, Node.first queued⟩ := h.queue.1

/-- The tail exists and is the queue's. -/
theorem tail_cell : (∃ node, s.queue.heap.cells s.queue.tail = some node) ∧ owner s.queue.tail = .queue := by
  obtain ⟨entries, data, hlast⟩ := h.exists_last
  have hmem : (s.queue.tail, data) ∈ (s.queue.head, dummy) :: queued :=
    hlast ▸ List.mem_append_right _ (List.mem_singleton_self _)
  obtain ⟨next, hcell⟩ := h.queue.cell hmem
  exact ⟨⟨_, hcell⟩, h.queueOwner _ hmem⟩

omit h

/-- Chains do not depend on the records and on the control of the threads. -/
theorem congr (h : s.Chained dummy queued walked owner) (hqueue : t.queue = s.queue)
    (hconstructed : ∀ producer data newNode, t.producers producer = some (.append data newNode) →
      s.producers producer = some (.append data newNode)) : t.Chained dummy queued walked owner := by
  obtain ⟨_, _, _, _, _, _⟩ := s
  obtain ⟨_, _, _, _, _, _⟩ := t
  obtain rfl : _ = _ := hqueue
  exact ⟨h.queue, h.tail, h.walk, h.queueOwner, h.walkOwner, fun producer data newNode hproducer =>
    h.constructed producer data newNode (hconstructed producer data newNode hproducer)⟩

/-- A thread constructs a node. -/
theorem construct [DecidableEq ι] (h : s.Chained dummy queued walked owner) (producer : ι) (data : T) :
    { s with
      queue := { s.queue with heap := s.queue.heap.allocate ⟨some data, none⟩ }
      producers := Function.update s.producers producer (some (.append data s.queue.heap.allocated)) }.Chained
        dummy queued walked (Function.update owner s.queue.heap.allocated (.producer producer)) := by
  have hsame : ∀ {entries : List (ℕ × Option T)}, Node.Chain s.queue.heap.cells entries → ∀ entry ∈ entries,
      (s.queue.heap.allocate ⟨some data, none⟩).cells entry.1 = s.queue.heap.cells entry.1 ∧
        entry.1 ≠ s.queue.heap.allocated := by
    intro entries hchain entry hentry
    obtain ⟨next, hcell⟩ := hchain.cell hentry
    exact ⟨(Heap.allocate_cells_of_some hcell _).trans hcell.symm, Heap.ne_allocated hcell⟩
  refine ⟨h.queue.congr fun entry hentry => (hsame h.queue entry hentry).1, h.tail,
    h.walk.congr fun entry hentry => (hsame h.walk entry hentry).1, fun entry hentry => ?_, fun entry hentry => ?_,
    fun other data' newNode hother => ?_⟩
  · rw [Function.update_of_ne (hsame h.queue entry hentry).2]
    exact h.queueOwner entry hentry
  · rw [Function.update_of_ne (hsame h.walk entry hentry).2]
    exact h.walkOwner entry hentry
  · by_cases heq : other = producer
    · subst heq
      simp only [Function.update_self, Option.some.injEq, PushState.append.injEq] at hother
      obtain ⟨rfl, rfl⟩ := hother
      exact ⟨Heap.allocate_cells_self .., Function.update_self ..⟩
    · simp only [Function.update_of_ne heq] at hother
      obtain ⟨hcell, howner⟩ := h.constructed other data' newNode hother
      refine ⟨Heap.allocate_cells_of_some hcell _, ?_⟩
      rw [Function.update_of_ne (Heap.ne_allocated hcell), howner]

/-- A thread appends the node that it has constructed. -/
theorem append [DecidableEq ι] (h : s.Chained dummy queued walked owner) {producer : ι} {data : T} {newNode : ℕ}
    (hproducer : s.producers producer = some (.append data newNode)) (pushed : List T) :
    ∃ queue, s.queue.push newNode = some queue ∧
      { s with
        queue := queue
        producers := Function.update s.producers producer (some .notify)
        pushed := pushed }.Chained dummy (queued ++ [(newNode, some data)]) walked
          (Function.update owner newNode .queue) ∧
      ∀ entry ∈ walked, queue.heap.cells entry.1 = s.queue.heap.cells entry.1 := by
  obtain ⟨hnew, howner⟩ := h.constructed producer data newNode hproducer
  obtain ⟨entries, last, hlast⟩ := h.exists_last
  obtain ⟨⟨tail, htail⟩, htailOwner⟩ := h.tail_cell
  obtain ⟨heap, hstore, hcells⟩ :=
    Heap.exists_modify htail fun tail => some { tail with next := some newNode }
  have hchain := h.queue
  rw [hlast] at hchain
  obtain rfl : tail = ⟨last, none⟩ := Option.some.inj (htail.symm.trans hchain.right.1)
  -- The new node and the tail have different owners, so that no other chain is touched.
  have hapart : ∀ entry ∈ (s.queue.head, dummy) :: queued, entry.1 ≠ newNode := by
    intro entry hentry heq
    have hqueue := h.queueOwner entry hentry
    rw [heq, howner] at hqueue
    cases hqueue
  have hsame : ∀ address, owner address ≠ .queue → heap.cells address = s.queue.heap.cells address := by
    intro address hne
    rw [hcells, Function.update_of_ne]
    rintro rfl
    exact hne htailOwner
  have hlinked := hchain.link hnew (hlast ▸ hapart)
  rw [← hcells] at hlinked
  have happend : (s.queue.head, dummy) :: (queued ++ [(newNode, some data)]) =
      entries ++ [(s.queue.tail, last), (newNode, some data)] := by
    rw [← List.cons_append, hlast, List.append_assoc, List.singleton_append]
  have hwalk : ∀ entry ∈ walked, heap.cells entry.1 = s.queue.heap.cells entry.1 := fun entry hentry =>
    hsame entry.1 (by simp [h.walkOwner entry hentry])
  refine ⟨{ s.queue with heap := heap, tail := newNode }, ?_, ⟨?_, ?_, h.walk.congr hwalk, fun entry hentry => ?_,
    fun entry hentry => ?_, fun other data' node hother => ?_⟩, hwalk⟩
  · rw [QueueMPSC.push, Heap.store, hstore]
    rfl
  · simp only [happend]
    exact hlinked
  · simp only [happend, List.map_append, List.map_cons, List.map_nil]
    simp
  · rw [← List.cons_append] at hentry
    rcases List.mem_append.mp hentry with hold | hnewest
    · rw [Function.update_of_ne (hapart entry hold)]
      exact h.queueOwner entry hold
    · obtain rfl := List.mem_singleton.mp hnewest
      exact Function.update_self ..
  · have hdispatcher := h.walkOwner entry hentry
    rw [Function.update_of_ne, hdispatcher]
    intro heq
    rw [heq, howner] at hdispatcher
    cases hdispatcher
  · by_cases heq : other = producer
    · subst heq
      simp at hother
    · simp only [Function.update_of_ne heq] at hother
      obtain ⟨hcell, hother⟩ := h.constructed other data' node hother
      refine ⟨(hsame node (by simp [hother])).trans hcell, ?_⟩
      rw [Function.update_of_ne, hother]
      rintro rfl
      rw [howner] at hother
      exact heq (Owner.producer.inj hother).symm

/-- The dispatcher detaches all nodes of the queue. -/
theorem detach (h : s.Chained dummy queued [] owner) (hqueued : queued ≠ [])
    (consumer : WalkState) (flushed : List (Option (List (ℕ × Option T)))) :
    ∃ queue ret owner', Node.first queued = some ret ∧ s.queue.flush = some (queue, some ret) ∧
      Node.Chain queue.heap.cells queued ∧
      { s with queue := queue, consumer := consumer, flushed := flushed }.Chained dummy [] queued owner' := by
  obtain ⟨first, rest, rfl⟩ := List.exists_cons_of_ne_nil hqueued
  obtain ⟨heap, hstore, hcells⟩ :=
    Heap.exists_modify h.head_cell fun head => some { head with next := none }
  have hwalk : Node.Chain heap.cells (first :: rest) := by
    rw [hcells]
    exact h.queue.tail _
  have hflush : s.queue.flush = some ({ s.queue with heap := heap, tail := s.queue.head }, some first.1) := by
    rw [QueueMPSC.flush, h.head_cell]
    simp only [Node.first_cons, Heap.store, hstore, Option.map_some]
  refine ⟨_, first.1, fun address => if address = s.queue.head then .queue else
    if address ∈ (first :: rest).map Prod.fst then .dispatcher else owner address, rfl, hflush, hwalk, ?_⟩
  have hapart : ∀ entry ∈ first :: rest, entry.1 ≠ s.queue.head := by
    intro entry hentry heq
    have hnodup := h.queue.nodup
    rw [List.map_cons, List.nodup_cons] at hnodup
    have hmem := List.mem_map_of_mem (f := Prod.fst) hentry
    rw [heq] at hmem
    exact hnodup.1 hmem
  refine ⟨⟨?_, trivial⟩, rfl, hwalk, fun entry hentry => ?_, fun entry hentry => ?_,
    fun producer data newNode hproducer => ?_⟩
  · simp only [hcells, Function.update_self, Node.first_nil]
  · obtain rfl := List.mem_singleton.mp hentry
    exact if_pos rfl
  · rw [if_neg (hapart entry hentry), if_pos (List.mem_map_of_mem hentry)]
  · obtain ⟨hcell, howner⟩ := h.constructed producer data newNode hproducer
    have hhead : newNode ≠ s.queue.head := by
      rintro rfl
      rw [h.queueOwner _ (List.mem_cons_self ..)] at howner
      cases howner
    refine ⟨?_, ?_⟩
    · simp only [hcells, Function.update_of_ne hhead]
      exact hcell
    · rw [if_neg hhead, if_neg, howner]
      intro hmem
      obtain ⟨entry, hentry, rfl⟩ := List.mem_map.mp hmem
      rw [h.queueOwner entry (List.mem_cons_of_mem _ hentry)] at howner
      cases howner

/-- The dispatcher deletes the first of its nodes. -/
theorem delete {entry : ℕ × Option T} (h : s.Chained dummy queued (entry :: walked) owner) (consumer : WalkState) :
    ∃ heap, s.queue.heap.free entry.1 = some heap ∧
      { s with queue := { s.queue with heap := heap }, consumer := consumer }.Chained dummy queued walked owner := by
  obtain ⟨heap, hfree, hcells⟩ := Heap.exists_modify h.walk.1 fun _ => none
  have hsame : ∀ address, owner address ≠ .dispatcher → heap.cells address = s.queue.heap.cells address := by
    intro address hne
    rw [hcells, Function.update_of_ne]
    rintro rfl
    exact hne (h.walkOwner entry (List.mem_cons_self ..))
  refine ⟨heap, hfree, h.queue.congr fun other hother => hsame _ ?_, h.tail, ?_, h.queueOwner,
    fun other hother => h.walkOwner other (List.mem_cons_of_mem _ hother), fun producer data newNode hproducer => ?_⟩
  · simp [h.queueOwner other hother]
  · simp only [hcells]
    exact h.walk.tail _
  · obtain ⟨hcell, howner⟩ := h.constructed producer data newNode hproducer
    exact ⟨(hsame newNode (by simp [howner])).trans hcell, howner⟩

end Chained

namespace Delivers

variable (h : s.Delivers lists queued walked)
include h

/-- What is queued was pushed last. -/
theorem length_queued : queued.length ≤ s.pushed.length := by
  have hlength := congrArg List.length h.pushed
  simp only [List.length_map, List.length_append] at hlength
  omega

/-- Messages are dispatched in the order in which they were pushed, and those that were not are in the nodes of the
dispatcher or in the queue. -/
theorem accounted : s.dispatched ++ (s.undispatched walked ++ queued).map Prod.snd = s.pushed.map some := by
  rw [← h.pushed, List.map_append, List.map_append, ← h.dispatched, List.append_assoc]

/-- The dispatcher never waits. -/
theorem not_waiting : s.consumer ≠ .waiting := by
  intro hwaiting
  have hwalks := h.walks
  rw [hwaiting] at hwalks
  exact hwalks

/-- What the dispatcher has not deleted starts with the first of its nodes. -/
theorem undeleted : s.consumer.undeleted = Node.first walked := by
  have hwalks := h.walks
  cases hconsumer : s.consumer with
  | isEmpty =>
    rw [hconsumer] at hwalks
    rw [show walked = [] from hwalks]
    rfl
  | lock =>
    rw [hconsumer] at hwalks
    rw [hwalks.1]
    rfl
  | waiting => exact absurd hconsumer h.not_waiting
  | walk messageLinkedList =>
    rw [hconsumer] at hwalks
    exact hwalks
  | advance messageLinkedList =>
    rw [hconsumer] at hwalks
    obtain ⟨data, rest, rfl⟩ := hwalks
    rfl
  | delete temp messageLinkedList =>
    rw [hconsumer] at hwalks
    obtain ⟨data, rest, rfl, _⟩ := hwalks
    rfl

omit h

/-- Deliveries do not depend on the nodes and on the producers. -/
theorem congr (h : s.Delivers lists queued walked) (hconsumer : t.consumer = s.consumer) (hpushed : t.pushed = s.pushed)
    (hflushed : t.flushed = s.flushed) (hdispatched : t.dispatched = s.dispatched) : t.Delivers lists queued walked := by
  refine ⟨hflushed.trans h.flushed, h.nonempty, hpushed ▸ h.pushed, ?_, hconsumer ▸ h.walks⟩
  rw [hdispatched, undispatched, hconsumer]
  exact h.dispatched

/-- A message is pushed. -/
theorem append (h : s.Delivers lists queued walked) {data : T} (newNode : ℕ) (hconsumer : t.consumer = s.consumer)
    (hpushed : t.pushed = s.pushed ++ [data]) (hflushed : t.flushed = s.flushed)
    (hdispatched : t.dispatched = s.dispatched) : t.Delivers lists (queued ++ [(newNode, some data)]) walked := by
  refine ⟨hflushed.trans h.flushed, h.nonempty, ?_, ?_, ?_⟩
  · rw [← List.append_assoc, List.map_append, h.pushed, hpushed, List.map_append]
    rfl
  · rw [hdispatched, undispatched, hconsumer]
    exact h.dispatched
  · have hwalks := h.walks
    rw [hconsumer]
    cases hstate : s.consumer with
    | lock =>
      rw [hstate] at hwalks
      exact ⟨hwalks.1, by simp⟩
    | isEmpty | waiting | walk | advance | delete =>
      rw [hstate] at hwalks
      exact hwalks

end Delivers

/-- A state that the chains and the records describe. -/
def Described (s : SharedQueue ι T) (lists : List (List (ℕ × Option T))) (queued walked : List (ℕ × Option T)) : Prop :=
  s.Delivers lists queued walked ∧ ∃ dummy owner, s.Chained dummy queued walked owner

/-- How much the dispatcher has still to do if nothing more is pushed. -/
def work (queued walked : List (ℕ × Option T)) : WalkState → ℕ
  | .isEmpty | .advance _ => 7 * queued.length + 3 * walked.length + 1
  | .lock | .waiting | .delete _ _ => 7 * queued.length + 3 * walked.length
  | .walk _ => 7 * queued.length + 3 * walked.length + 2

/-- Where a step of the dispatcher from a described state leads to. -/
def Steps (s : SharedQueue ι T) (queued walked : List (ℕ × Option T)) : Prop :=
  ∃ t lists' queued' walked', s.consume = some t ∧ t.Described lists' queued' walked' ∧ t.pushed = s.pushed ∧
    (work queued' walked' t.consumer < work queued walked s.consumer ∨ s.consumer = .isEmpty ∧ queued = [])

namespace Described

/-- A step of the dispatcher that changes no node keeps the description. -/
theorem control (h : s.Described lists queued walked) {consumer : WalkState} {dispatched : List (Option T)}
    (hwalks : Walks queued walked consumer)
    (hdispatched : dispatched ++ ({ s with consumer := consumer }.undispatched walked).map Prod.snd =
      lists.flatten.map Prod.snd) :
    { s with consumer := consumer, dispatched := dispatched }.Described lists queued walked := by
  obtain ⟨hdelivers, dummy, owner, hchained⟩ := h
  exact ⟨⟨hdelivers.flushed, hdelivers.nonempty, hdelivers.pushed, hdispatched, hwalks⟩, dummy, owner,
    hchained.congr rfl fun _ _ _ heq => heq⟩

/-- The dispatcher looks whether there is a node. -/
theorem isEmpty (h : s.Described lists queued walked) (hconsumer : s.consumer = .isEmpty) : s.Steps queued walked := by
  obtain ⟨hdelivers, dummy, owner, hchained⟩ := id h
  have hwalks := hdelivers.walks
  have hdispatched := hdelivers.dispatched
  rw [hconsumer] at hwalks
  obtain rfl : walked = [] := hwalks
  rw [undispatched, hconsumer] at hdispatched
  have hempty : s.queue.isEmpty = some (Node.first queued).isNone := by
    rw [QueueMPSC.isEmpty, hchained.head_cell, Option.map_some]
  cases queued with
  | nil =>
    have hstep : s.consume = some { s with consumer := .isEmpty } := by
      simp [SharedQueue.consume, hconsumer, hempty]
    exact ⟨_, lists, [], [], hstep, h.control rfl hdispatched, rfl, Or.inr ⟨hconsumer, rfl⟩⟩
  | cons first rest =>
    have hstep : s.consume = some { s with consumer := .lock } := by
      simp [SharedQueue.consume, hconsumer, hempty]
    refine ⟨_, lists, first :: rest, [], hstep, h.control ⟨rfl, List.cons_ne_nil _ _⟩ hdispatched, rfl, Or.inl ?_⟩
    rw [hconsumer]
    exact Nat.lt_succ_self _

/-- The dispatcher flushes the queue, which still has a node. -/
theorem lock (h : s.Described lists queued walked) (hconsumer : s.consumer = .lock) : s.Steps queued walked := by
  obtain ⟨hdelivers, dummy, owner, hchained⟩ := h
  have hwalks := hdelivers.walks
  have hdispatched := hdelivers.dispatched
  have hlength := hdelivers.length_queued
  rw [hconsumer] at hwalks
  obtain ⟨rfl, hqueued⟩ := hwalks
  rw [undispatched, hconsumer] at hdispatched
  obtain ⟨queue, ret, owner', hret, hflush, hwalk, hdetached⟩ :=
    hchained.detach hqueued (.walk (Node.first queued)) (s.flushed ++ [some queued])
  have hstep : s.consume = some { s with
      queue := queue
      consumer := .walk (Node.first queued)
      flushed := s.flushed ++ [some queued] } := by
    have hfollow := hwalk.walk hlength
    rw [hret] at hfollow
    simp only [SharedQueue.consume, hconsumer, hflush, Option.map_some, hfollow, hret]
  refine ⟨_, lists ++ [queued], [], queued, hstep, ⟨⟨?_, ?_, ?_, ?_, rfl⟩, dummy, owner', hdetached⟩, rfl, Or.inl ?_⟩
  · simp only [hdelivers.flushed, List.map_append, List.map_singleton]
  · intro list hlist
    rcases List.mem_append.mp hlist with hold | hnewest
    · exact hdelivers.nonempty list hold
    · exact List.mem_singleton.mp hnewest ▸ hqueued
  · rw [List.flatten_append, List.flatten_singleton, List.append_nil]
    exact hdelivers.pushed
  · rw [List.flatten_append, List.flatten_singleton, List.map_append, ← hdispatched]
    simp [undispatched, WalkState.dispatched]
  · have hpos := List.length_pos_of_ne_nil hqueued
    simp only [hconsumer, work, List.length_nil]
    omega

/-- The dispatcher reads and dispatches a message, or ends its walk. -/
theorem walk (h : s.Described lists queued walked) {messageLinkedList : Option ℕ}
    (hconsumer : s.consumer = .walk messageLinkedList) : s.Steps queued walked := by
  obtain ⟨hdelivers, dummy, owner, hchained⟩ := id h
  have hwalks := hdelivers.walks
  have hdispatched := hdelivers.dispatched
  rw [hconsumer] at hwalks
  obtain rfl : messageLinkedList = Node.first walked := hwalks
  rw [undispatched, hconsumer] at hdispatched
  cases walked with
  | nil =>
    have hstep : s.consume = some { s with consumer := .isEmpty } := by simp [SharedQueue.consume, hconsumer]
    refine ⟨_, lists, queued, [], hstep, h.control rfl hdispatched, rfl, Or.inl ?_⟩
    rw [hconsumer]
    exact Nat.lt_succ_self _
  | cons first rest =>
    have hstep : s.consume = some { s with
        consumer := .advance first.1
        dispatched := s.dispatched ++ [first.2] } := by
      simp [SharedQueue.consume, hconsumer, hchained.walk.1]
    refine ⟨_, lists, queued, first :: rest, hstep, h.control ⟨first.2, rest, rfl⟩ ?_, rfl, Or.inl ?_⟩
    · simp only [undispatched, WalkState.dispatched, if_true, List.tail_cons, List.append_assoc, List.singleton_append]
      exact hdispatched
    · rw [hconsumer]
      exact Nat.lt_succ_self _

/-- The dispatcher reads the next node. -/
theorem advance (h : s.Described lists queued walked) {messageLinkedList : ℕ}
    (hconsumer : s.consumer = .advance messageLinkedList) : s.Steps queued walked := by
  obtain ⟨hdelivers, dummy, owner, hchained⟩ := id h
  have hwalks := hdelivers.walks
  have hdispatched := hdelivers.dispatched
  rw [hconsumer] at hwalks
  obtain ⟨data, rest, rfl⟩ := hwalks
  rw [undispatched, hconsumer] at hdispatched
  have hstep : s.consume = some { s with consumer := .delete messageLinkedList (Node.first rest) } := by
    simp [SharedQueue.consume, hconsumer, hchained.walk.1]
  refine ⟨_, lists, queued, (messageLinkedList, data) :: rest, hstep, h.control ⟨data, rest, rfl, rfl⟩ hdispatched, rfl,
    Or.inl ?_⟩
  rw [hconsumer]
  exact Nat.lt_succ_self _

/-- The dispatcher deletes the node whose message it has dispatched. -/
theorem delete (h : s.Described lists queued walked) {temp : ℕ} {messageLinkedList : Option ℕ}
    (hconsumer : s.consumer = .delete temp messageLinkedList) : s.Steps queued walked := by
  obtain ⟨hdelivers, dummy, owner, hchained⟩ := h
  have hwalks := hdelivers.walks
  have hdispatched := hdelivers.dispatched
  rw [hconsumer] at hwalks
  obtain ⟨data, rest, rfl, rfl⟩ := hwalks
  rw [undispatched, hconsumer] at hdispatched
  obtain ⟨heap, hfree, hdeleted⟩ := hchained.delete (.walk (Node.first rest))
  have hstep : s.consume = some { s with
      queue := { s.queue with heap := heap }
      consumer := .walk (Node.first rest) } := by
    simp only [SharedQueue.consume, hconsumer, hfree, Option.map_some]
  refine ⟨_, lists, queued, rest, hstep,
    ⟨⟨hdelivers.flushed, hdelivers.nonempty, hdelivers.pushed, hdispatched, rfl⟩, dummy, owner, hdeleted⟩, rfl,
    Or.inl ?_⟩
  simp only [hconsumer, work, List.length_cons]
  omega

/-- The dispatcher can always take a step; unless it finds the queue empty, it has less to do afterwards. -/
theorem consume (h : s.Described lists queued walked) : s.Steps queued walked := by
  cases hconsumer : s.consumer with
  | isEmpty => exact h.isEmpty hconsumer
  | lock => exact h.lock hconsumer
  | waiting => exact absurd hconsumer h.1.not_waiting
  | walk messageLinkedList => exact h.walk hconsumer
  | advance messageLinkedList => exact h.advance hconsumer
  | delete temp messageLinkedList => exact h.delete hconsumer

/-- A thread in a call of `push` can always take a step, which touches no node of the dispatcher. -/
theorem produce [DecidableEq ι] (h : s.Described lists queued walked) {producer : ι} {state : PushState T}
    (hproducer : s.producers producer = some state) :
    ∃ t queued', s.produce producer state = some t ∧ t.Described lists queued' walked ∧
      ∀ entry ∈ walked, t.queue.heap.cells entry.1 = s.queue.heap.cells entry.1 := by
  obtain ⟨hdelivers, dummy, owner, hchained⟩ := h
  cases state with
  | construct data =>
    refine ⟨_, queued, rfl, ⟨hdelivers.congr rfl rfl rfl rfl, dummy, _, hchained.construct producer data⟩,
      fun entry hentry => ?_⟩
    obtain ⟨next, hcell⟩ := hchained.walk.cell hentry
    exact (Heap.allocate_cells_of_some hcell _).trans hcell.symm
  | append data newNode =>
    obtain ⟨queue, hpush, happended, hsame⟩ := hchained.append hproducer (s.pushed ++ [data])
    have hstep : s.produce producer (.append data newNode) = some { s with
        queue := queue
        producers := Function.update s.producers producer (some .notify)
        pushed := s.pushed ++ [data] } := by
      rw [SharedQueue.produce, hpush, Option.map_some]
    exact ⟨_, queued ++ [(newNode, some data)], hstep,
      ⟨hdelivers.append newNode rfl rfl rfl rfl, dummy, _, happended⟩, hsame⟩
  | notify =>
    have hconsumer : (if s.consumer = .waiting then WalkState.lock else s.consumer) = s.consumer :=
      if_neg hdelivers.not_waiting
    refine ⟨_, queued, rfl, ⟨hdelivers.congr hconsumer rfl rfl rfl, dummy, owner,
      hchained.congr rfl fun other data newNode hother => ?_⟩, fun _ _ => rfl⟩
    by_cases heq : other = producer
    · subst heq
      simp at hother
    · simpa only [Function.update_of_ne heq] using hother

/-- Every step leads to a described state. -/
theorem next [DecidableEq ι] (h : s.Described lists queued walked) {label : Label ι T}
    (hnext : SharedQueue.next label s = some t) : ∃ lists' queued' walked', t.Described lists' queued' walked' := by
  cases label with
  | push producer data =>
    simp only [SharedQueue.next] at hnext
    split at hnext
    · obtain rfl := Option.some.inj hnext
      obtain ⟨hdelivers, dummy, owner, hchained⟩ := h
      refine ⟨lists, queued, walked, hdelivers.congr rfl rfl rfl rfl, dummy, owner,
        hchained.congr rfl fun other data' newNode hother => ?_⟩
      by_cases heq : other = producer
      · subst heq
        simp at hother
      · simpa only [Function.update_of_ne heq] using hother
    · cases hnext
  | produce producer =>
    obtain ⟨state, hproducer, hstep⟩ := Option.bind_eq_some_iff.mp hnext
    obtain ⟨u, queued', hproduced, hdescribed, _⟩ := h.produce hproducer
    obtain rfl : u = t := Option.some.inj (hproduced.symm.trans hstep)
    exact ⟨lists, queued', walked, hdescribed⟩
  | consume =>
    obtain ⟨u, lists', queued', walked', hstep, hdescribed, _⟩ := h.consume
    obtain rfl : u = t := Option.some.inj (hstep.symm.trans hnext)
    exact ⟨lists', queued', walked', hdescribed⟩
  | wake =>
    simp only [SharedQueue.next, if_neg h.1.not_waiting] at hnext
    cases hnext

end Described

/-- A new queue is described by empty lists. -/
theorem described_initial : (initial ι T).Described [] [] [] := by
  refine ⟨⟨rfl, fun _ hlist => absurd hlist List.not_mem_nil, rfl, rfl, rfl⟩, none, fun _ => .queue, ⟨rfl, trivial⟩,
    rfl, trivial, fun _ _ => rfl, fun _ hentry => absurd hentry List.not_mem_nil, fun _ _ _ hproducer => ?_⟩
  cases hproducer

/-- Every state reached is described. -/
theorem described_of_reachable [DecidableEq ι] (h : (sharedQueue ι T).Reachable s) :
    ∃ lists queued walked, s.Described lists queued walked := by
  refine h.invariant (I := fun s : SharedQueue ι T => ∃ lists queued walked, s.Described lists queued walked)
    ⟨[], [], [], described_initial⟩ fun _ s t _ hs _ hnext => ?_
  obtain ⟨lists, queued, walked, hdescribed⟩ := hs
  exact hdescribed.next hnext

/-- From a described state, the dispatcher alone gets every message dispatched. -/
theorem Described.drains [DecidableEq ι] (h : s.Described lists queued walked) :
    ∃ n t, (sharedQueue ι T).run (List.replicate n .consume) s = some t ∧ t.pushed = s.pushed ∧
      t.dispatched = s.pushed.map some := by
  generalize hwork : work queued walked s.consumer = bound
  induction bound using Nat.strong_induction_on generalizing s lists queued walked with
  | h bound ih =>
    obtain ⟨t, lists', queued', walked', hstep, hdescribed, hpushed, hless | ⟨hconsumer, rfl⟩⟩ := h.consume
    · obtain ⟨n, u, hrun, hu, hdispatched⟩ := ih _ (hwork ▸ hless) hdescribed rfl
      refine ⟨n + 1, u, ?_, hu.trans hpushed, hpushed ▸ hdispatched⟩
      rw [List.replicate_succ, Machine.run]
      exact Option.bind_eq_some_iff.mpr ⟨t, hstep, hrun⟩
    · refine ⟨0, s, rfl, rfl, ?_⟩
      have hwalks := h.1.walks
      rw [hconsumer] at hwalks
      obtain rfl : walked = [] := hwalks
      have haccounted := h.1.accounted
      simpa [undispatched] using haccounted

/-- In every interleaving of any number of pushing threads with the dispatcher: following the links from each node that
`flush` returned leads to null through at least one node, and these nodes, list by list, and then the nodes of the queue
hold the messages pushed, in the order in which the pushes took the lock; the tail is the last node reachable from the
head. The messages dispatched, those of the nodes still to be walked and those of the queue are the messages pushed, once
each and in order; the dispatcher can always take a step and alone gets all of them dispatched; no thread in a call of
`push` is stopped, and its steps change none of the nodes that the dispatcher has not deleted. -/
theorem flushed_exactly [DecidableEq ι] (h : (sharedQueue ι T).Reachable s) :
    ∃ (lists : List (List (ℕ × Option T))) (queued walked : List (ℕ × Option T)) (dummy : Option T),
      (s.flushed = lists.map some ∧ ∀ list ∈ lists, list ≠ []) ∧
      (lists.flatten ++ queued).map Prod.snd = s.pushed.map some ∧
      Node.Chain s.queue.heap.cells ((s.queue.head, dummy) :: queued) ∧
      (((s.queue.head, dummy) :: queued).map Prod.fst).getLast? = some s.queue.tail ∧
      Node.Chain s.queue.heap.cells walked ∧ s.consumer.undeleted = Node.first walked ∧
      s.dispatched ++ (s.undispatched walked ++ queued).map Prod.snd = s.pushed.map some ∧
      s.consumer ≠ .waiting ∧ (∃ t, SharedQueue.next .consume s = some t) ∧
      (∃ n t, (sharedQueue ι T).run (List.replicate n .consume) s = some t ∧ t.pushed = s.pushed ∧
        t.dispatched = s.pushed.map some) ∧
      ∀ producer, s.producers producer ≠ none → ∃ t, SharedQueue.next (.produce producer) s = some t ∧
        ∀ entry ∈ walked, t.queue.heap.cells entry.1 = s.queue.heap.cells entry.1 := by
  obtain ⟨lists, queued, walked, hdescribed⟩ := described_of_reachable h
  obtain ⟨dummy, owner, hchained⟩ := hdescribed.2
  have hdelivers := hdescribed.1
  refine ⟨lists, queued, walked, dummy, ⟨hdelivers.flushed, hdelivers.nonempty⟩, hdelivers.pushed, hchained.queue,
    hchained.tail, hchained.walk, hdelivers.undeleted, hdelivers.accounted, hdelivers.not_waiting, ?_,
    hdescribed.drains, fun producer hproducer => ?_⟩
  · obtain ⟨t, _, _, _, hstep, _⟩ := hdescribed.consume
    exact ⟨t, hstep⟩
  · obtain ⟨state, hstate⟩ := Option.ne_none_iff_exists'.mp hproducer
    obtain ⟨t, _, hstep, _, hsame⟩ := hdescribed.produce hstate
    exact ⟨t, by rw [SharedQueue.next, hstate, Option.bind_some, hstep], hsame⟩

/-- The dispatcher walks the first message while the second is pushed. -/
theorem flushed_exactly_overtaken :
    ∃ s : SharedQueue Bool ℕ, (sharedQueue Bool ℕ).Reachable s ∧ s.pushed = [7, 8] ∧
      s.flushed = [some [(1, some 7)]] ∧ s.consumer ≠ .waiting := by
  have hrun : ((sharedQueue Bool ℕ).run
      [.push false 7, .produce false, .produce false, .push true 8, .consume, .produce true, .consume, .produce true]
      (sharedQueue Bool ℕ).start).any (fun s => s.pushed == [7, 8] && s.flushed == [some [(1, some 7)]]) = true := by
    decide
  obtain ⟨s, hreachable, htest⟩ := Machine.exists_reachable_of_run hrun
  obtain ⟨hpushed, hflushed⟩ := Bool.and_eq_true_iff.mp htest
  obtain ⟨_, _, _, _, _, _, _, _, _, _, _, hwaiting, _⟩ := flushed_exactly hreachable
  exact ⟨s, hreachable, eq_of_beq hpushed, eq_of_beq hflushed, hwaiting⟩

end SharedQueue

end MatchingEngine
