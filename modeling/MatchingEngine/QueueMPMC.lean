import MatchingEngine.Foundation.LinkedList
import MatchingEngine.Foundation.Linearizability

/-!
# The two-lock queue

Any number of threads enqueue under one mutex and dequeue under another one. Each load and
store of the head, of the tail and of a node is a step, and so are taking and releasing a mutex
and deleting a node; the steps of all threads interleave.

The nodes from the head on are a chain. A thread that enqueues owns its node until it is linked,
and a thread that dequeues owns the old dummy from the store of the head on. The tail is the last
node of the chain whenever its mutex is free; between the two stores of an enqueue it may be a
node that was deleted.
-/

namespace MatchingEngine

/-- The queue with the threads that hold its mutexes. -/
structure QueueMPMC (ι T : Type*) where
  heap : Heap (Node (Option T))
  head : ℕ
  tail : ℕ
  headMutex : Option ι
  tailMutex : Option ι

namespace QueueMPMC

/-- A new queue has a dummy node, default-constructed data included. -/
def new (ι T : Type*) : QueueMPMC ι T := ⟨(Heap.empty _).allocate ⟨none, none⟩, 0, 0, none, none⟩

/-- The operations of the queue. -/
inductive Operation (T : Type*)
  | enqueue (data : T)
  | dequeue

/-- What the operations return; `empty` is a `dequeue` that returns false. -/
inductive Result (T : Type*)
  | enqueued
  | dequeued (data : Option T)
  | empty

/-- The queue as a sequential object. -/
def spec (T : Type*) : SequentialObject (List (Option T)) (Operation T) (Result T) where
  start := []
  apply
    | .enqueue data, contents => (contents ++ [some data], .enqueued)
    | .dequeue, [] => ([], .empty)
    | .dequeue, data :: rest => (rest, .dequeued data)

/-- The next step of a call, with the local variables set so far: those of `enqueue`, then those of `dequeue`. -/
inductive CallState (T : Type*)
  | allocate (data : T)
  | storeData (data : T) (newNode : ℕ)
  | lockTail (data : T) (newNode : ℕ)
  | loadTail (data : T) (newNode : ℕ)
  | storeNext (data : T) (newNode tail : ℕ)
  | storeTail (data : T) (newNode : ℕ)
  | unlockTail (data : T)
  | lockHead
  | loadHead
  | loadNext (currentHead : ℕ)
  | loadData (currentHead newHead : ℕ)
  | storeHead (currentHead newHead : ℕ) (data : Option T)
  | unlockHead (currentHead : ℕ) (data : Option T)
  | delete (currentHead : ℕ) (data : Option T)
  | unlockMissed

/-- The operation of a call, and its result once it took effect: with the link to the new node, with the store of the
head, or with the load of a null link. -/
def CallState.operation {T : Type*} : CallState T → Operation T × Option (Result T)
  | allocate data | storeData data _ | lockTail data _ | loadTail data _ | storeNext data _ _ => (.enqueue data, none)
  | storeTail data _ | unlockTail data => (.enqueue data, some .enqueued)
  | lockHead | loadHead | loadNext _ | loadData _ _ | storeHead _ _ _ => (.dequeue, none)
  | unlockHead _ data | delete _ data => (.dequeue, some (.dequeued data))
  | unlockMissed => (.dequeue, some .empty)

/-- The node whose member the step accesses, or that the step deletes. -/
def CallState.dereferenced {T : Type*} : CallState T → Option ℕ
  | storeData _ newNode => some newNode
  | storeNext _ _ tail => some tail
  | loadNext currentHead => some currentHead
  | loadData _ newHead => some newHead
  | delete currentHead _ => some currentHead
  | allocate _ | lockTail _ _ | loadTail _ _ | storeTail _ _ | unlockTail _ | lockHead | loadHead | storeHead _ _ _
  | unlockHead _ _ | unlockMissed => none

end QueueMPMC

/-- A queue with the calls of the threads, and records: the items in the order in which they were linked, the items
in the order in which the head passed them, and the calls and returns. -/
structure TwoLockQueue (ι T : Type*) where
  queue : QueueMPMC ι T
  calls : ι → Option (QueueMPMC.CallState T)
  linked : List T
  dequeued : List (Option T)
  history : List (Event ι (QueueMPMC.Operation T) (QueueMPMC.Result T))

namespace TwoLockQueue

open QueueMPMC

variable {ι T : Type*} [DecidableEq ι]

/-- A thread calls an operation, or takes a step of its call. -/
inductive Label (ι T : Type*)
  | enqueue (thread : ι) (data : T)
  | dequeue (thread : ι)
  | step (thread : ι)

/-- A new queue that nobody uses. -/
def initial (ι T : Type*) : TwoLockQueue ι T := ⟨.new ι T, fun _ => none, [], [], []⟩

/-- The call of a thread goes on. -/
def goOn (s : TwoLockQueue ι T) (thread : ι) (state : CallState T) : TwoLockQueue ι T :=
  { s with calls := Function.update s.calls thread (some state) }

/-- The call of a thread returns. -/
def returns (s : TwoLockQueue ι T) (thread : ι) (result : Result T) : TwoLockQueue ι T :=
  { s with
    calls := Function.update s.calls thread none
    history := s.history ++ [.returned thread result] }

/-- An idle thread calls an operation. -/
def call (s : TwoLockQueue ι T) (thread : ι) (operation : Operation T) (state : CallState T) :
    Option (TwoLockQueue ι T) :=
  match s.calls thread with
  | none => some { s.goOn thread state with history := s.history ++ [.call thread operation] }
  | some _ => none

/-- A step of a call; it fails where a mutex is not free or a node does not exist. -/
def step (s : TwoLockQueue ι T) (thread : ι) : CallState T → Option (TwoLockQueue ι T)
  | .allocate data => some
      ({ s with queue := { s.queue with heap := s.queue.heap.allocate ⟨none, none⟩ } }.goOn thread
        (.storeData data s.queue.heap.allocated))
  | .storeData data newNode =>
    (s.queue.heap.store newNode fun node => { node with data := some data }).map fun heap =>
      { s with queue := { s.queue with heap := heap } }.goOn thread (.lockTail data newNode)
  | .lockTail data newNode =>
    match s.queue.tailMutex with
    | none => some ({ s with queue := { s.queue with tailMutex := some thread } }.goOn thread (.loadTail data newNode))
    | some _ => none
  | .loadTail data newNode => some (s.goOn thread (.storeNext data newNode s.queue.tail))
  | .storeNext data newNode tail =>
    (s.queue.heap.store tail fun node => { node with next := some newNode }).map fun heap =>
      { s with queue := { s.queue with heap := heap }, linked := s.linked ++ [data] }.goOn thread
        (.storeTail data newNode)
  | .storeTail data newNode => some ({ s with queue := { s.queue with tail := newNode } }.goOn thread (.unlockTail data))
  | .unlockTail _ => some ({ s with queue := { s.queue with tailMutex := none } }.returns thread .enqueued)
  | .lockHead =>
    match s.queue.headMutex with
    | none => some ({ s with queue := { s.queue with headMutex := some thread } }.goOn thread .loadHead)
    | some _ => none
  | .loadHead => some (s.goOn thread (.loadNext s.queue.head))
  | .loadNext currentHead => (s.queue.heap.cells currentHead).map fun node =>
    match node.next with
    | none => s.goOn thread .unlockMissed
    | some newHead => s.goOn thread (.loadData currentHead newHead)
  | .loadData currentHead newHead => (s.queue.heap.cells newHead).map fun node =>
      s.goOn thread (.storeHead currentHead newHead node.data)
  | .storeHead currentHead newHead data => some
      ({ s with queue := { s.queue with head := newHead }, dequeued := s.dequeued ++ [data] }.goOn thread
        (.unlockHead currentHead data))
  | .unlockHead currentHead data => some
      ({ s with queue := { s.queue with headMutex := none } }.goOn thread (.delete currentHead data))
  | .delete currentHead data => (s.queue.heap.free currentHead).map fun heap =>
      { s with queue := { s.queue with heap := heap } }.returns thread (.dequeued data)
  | .unlockMissed => some ({ s with queue := { s.queue with headMutex := none } }.returns thread .empty)

/-- The steps of the threads. -/
def next : Label ι T → TwoLockQueue ι T → Option (TwoLockQueue ι T)
  | .enqueue thread data, s => s.call thread (.enqueue data) (.allocate data)
  | .dequeue thread, s => s.call thread .dequeue .lockHead
  | .step thread, s => (s.calls thread).bind (s.step thread)

end TwoLockQueue

/-- The threads on one queue. -/
def twoLockQueue (ι T : Type*) [DecidableEq ι] : Machine (TwoLockQueue ι T) (TwoLockQueue.Label ι T) where
  start := .initial ι T
  next := TwoLockQueue.next

namespace TwoLockQueue

open QueueMPMC

variable {ι T : Type*} {s t : TwoLockQueue ι T} {dummy : Option T} {items items' : List (ℕ × Option T)}
  {owner owner' : ℕ → Option ι} {thread other : ι} {state : CallState T}

/-- The last node of the queue. -/
def lastNode (s : TwoLockQueue ι T) (items : List (ℕ × Option T)) : Option ℕ :=
  (s.queue.head :: items.map Prod.fst).getLast?

/-- What holds where the call of a thread has come to; `owner` tells which thread may reach a node outside the chain. -/
def Permits (s : TwoLockQueue ι T) (items : List (ℕ × Option T)) (owner : ℕ → Option ι) (thread : ι) :
    CallState T → Prop
  | .allocate _ | .lockHead => True
  | .storeData _ newNode => owner newNode = some thread ∧ s.queue.heap.cells newNode = some ⟨none, none⟩
  | .lockTail data newNode => owner newNode = some thread ∧ s.queue.heap.cells newNode = some ⟨some data, none⟩
  | .loadTail data newNode =>
    (owner newNode = some thread ∧ s.queue.heap.cells newNode = some ⟨some data, none⟩) ∧
      s.queue.tailMutex = some thread ∧ s.lastNode items = some s.queue.tail
  | .storeNext data newNode tail =>
    (owner newNode = some thread ∧ s.queue.heap.cells newNode = some ⟨some data, none⟩) ∧
      s.queue.tailMutex = some thread ∧ s.lastNode items = some tail ∧ tail = s.queue.tail
  | .storeTail _ newNode => s.queue.tailMutex = some thread ∧ s.lastNode items = some newNode
  | .unlockTail _ => s.queue.tailMutex = some thread ∧ s.lastNode items = some s.queue.tail
  | .loadHead | .unlockMissed => s.queue.headMutex = some thread
  | .loadNext currentHead => s.queue.headMutex = some thread ∧ currentHead = s.queue.head
  | .loadData currentHead newHead =>
    s.queue.headMutex = some thread ∧ currentHead = s.queue.head ∧ ∃ data, items.head? = some (newHead, data)
  | .storeHead currentHead newHead data =>
    s.queue.headMutex = some thread ∧ currentHead = s.queue.head ∧ items.head? = some (newHead, data)
  | .unlockHead currentHead _ =>
    s.queue.headMutex = some thread ∧ owner currentHead = some thread ∧ s.queue.heap.cells currentHead ≠ none
  | .delete currentHead _ => owner currentHead = some thread ∧ s.queue.heap.cells currentHead ≠ none

/-- The chain from the head on, and where the calls have come to. -/
structure Described (s : TwoLockQueue ι T) (dummy : Option T) (items : List (ℕ × Option T)) (owner : ℕ → Option ι) :
    Prop where
  chain : Node.Chain s.queue.heap.cells ((s.queue.head, dummy) :: items)
  chainOwner : ∀ entry ∈ (s.queue.head, dummy) :: items, owner entry.1 = none
  tail : s.queue.tailMutex = none → s.lastNode items = some s.queue.tail
  accounted : s.dequeued ++ items.map Prod.snd = s.linked.map some
  calls : ∀ thread state, s.calls thread = some state → s.Permits items owner thread state

/-- A step of another thread keeps what a call relies on: the nodes it owns; while it holds a mutex, this mutex with the
tail and the last node, or with the head and the first item. -/
theorem Permits.frame (h : s.Permits items owner thread state)
    (howned : ∀ address, owner address = some thread → s.queue.heap.cells address ≠ none →
      owner' address = some thread ∧ t.queue.heap.cells address = s.queue.heap.cells address)
    (htail : s.queue.tailMutex = some thread → t.queue.tailMutex = some thread ∧ t.queue.tail = s.queue.tail ∧
      t.lastNode items' = s.lastNode items)
    (hhead : s.queue.headMutex = some thread → t.queue.headMutex = some thread ∧ t.queue.head = s.queue.head ∧
      ∀ entry, items.head? = some entry → items'.head? = some entry) :
    t.Permits items' owner' thread state := by
  have hnode : ∀ {address node}, owner address = some thread → s.queue.heap.cells address = some node →
      owner' address = some thread ∧ t.queue.heap.cells address = some node := by
    intro address node howner hcell
    obtain ⟨howner', hsame⟩ := howned address howner (by simp [hcell])
    exact ⟨howner', hsame.trans hcell⟩
  cases state with
  | allocate => trivial
  | lockHead => trivial
  | storeData data newNode => exact hnode h.1 h.2
  | lockTail data newNode => exact hnode h.1 h.2
  | loadTail data newNode =>
    obtain ⟨hnew, hmutex, hlast⟩ := h
    obtain ⟨hmutex', htail', hlast'⟩ := htail hmutex
    exact ⟨hnode hnew.1 hnew.2, hmutex', by rw [hlast', htail', hlast]⟩
  | storeNext data newNode tail =>
    obtain ⟨hnew, hmutex, hlast, htailEq⟩ := h
    obtain ⟨hmutex', htail', hlast'⟩ := htail hmutex
    exact ⟨hnode hnew.1 hnew.2, hmutex', hlast'.trans hlast, htailEq.trans htail'.symm⟩
  | storeTail data newNode =>
    obtain ⟨hmutex, hlast⟩ := h
    exact ⟨(htail hmutex).1, (htail hmutex).2.2.trans hlast⟩
  | unlockTail data =>
    obtain ⟨hmutex, hlast⟩ := h
    obtain ⟨hmutex', htail', hlast'⟩ := htail hmutex
    exact ⟨hmutex', by rw [hlast', htail', hlast]⟩
  | loadHead => exact (hhead h).1
  | unlockMissed => exact (hhead h).1
  | loadNext currentHead =>
    obtain ⟨hmutex, hcurrent⟩ := h
    exact ⟨(hhead hmutex).1, hcurrent.trans (hhead hmutex).2.1.symm⟩
  | loadData currentHead newHead =>
    obtain ⟨hmutex, hcurrent, data, hfirst⟩ := h
    obtain ⟨hmutex', hhead', hfirst'⟩ := hhead hmutex
    exact ⟨hmutex', hcurrent.trans hhead'.symm, data, hfirst' _ hfirst⟩
  | storeHead currentHead newHead data =>
    obtain ⟨hmutex, hcurrent, hfirst⟩ := h
    obtain ⟨hmutex', hhead', hfirst'⟩ := hhead hmutex
    exact ⟨hmutex', hcurrent.trans hhead'.symm, hfirst' _ hfirst⟩
  | unlockHead currentHead data =>
    obtain ⟨hmutex, howner, hcell⟩ := h
    exact ⟨(hhead hmutex).1, (howned _ howner hcell).1, by rwa [(howned _ howner hcell).2]⟩
  | delete currentHead data =>
    obtain ⟨howner, hcell⟩ := h
    exact ⟨(howned _ howner hcell).1, by rwa [(howned _ howner hcell).2]⟩

namespace Described

/-- The head is the dummy. -/
theorem head_cell (h : s.Described dummy items owner) :
    s.queue.heap.cells s.queue.head = some ⟨dummy, Node.first items⟩ := h.chain.1

/-- The last node exists, links to no other one and is outside the reach of single threads. -/
theorem last_cell (h : s.Described dummy items owner) {address : ℕ} (hlast : s.lastNode items = some address) :
    ∃ before data, (s.queue.head, dummy) :: items = before ++ [(address, data)] ∧
      s.queue.heap.cells address = some ⟨data, none⟩ ∧ owner address = none := by
  obtain ⟨before, data, heq⟩ := Node.exists_last ((s.queue.head, dummy) :: items) hlast
  have hchain := h.chain
  rw [heq] at hchain
  exact ⟨before, data, heq, hchain.right.1, h.chainOwner _ (heq ▸ List.mem_append_right _ (List.mem_singleton_self _))⟩

/-- The node that the next step of a call dereferences exists. -/
theorem dereferenced (h : s.Described dummy items owner) (hcall : s.calls thread = some state) {address : ℕ}
    (haddress : state.dereferenced = some address) : ∃ node, s.queue.heap.cells address = some node := by
  have hpermits := h.calls thread state hcall
  cases state with
  | storeData data newNode =>
    obtain rfl := Option.some.inj haddress
    exact ⟨_, hpermits.2⟩
  | storeNext data newNode tail =>
    obtain rfl := Option.some.inj haddress
    obtain ⟨_, data, _, hcell, _⟩ := h.last_cell hpermits.2.2.1
    exact ⟨_, hcell⟩
  | loadNext currentHead =>
    obtain rfl := Option.some.inj haddress
    exact ⟨_, hpermits.2 ▸ h.head_cell⟩
  | loadData currentHead newHead =>
    obtain rfl := Option.some.inj haddress
    obtain ⟨_, _, data, hfirst⟩ := hpermits
    obtain ⟨rest, rfl⟩ := List.head?_eq_some_iff.mp hfirst
    exact ⟨_, h.chain.2.1⟩
  | delete currentHead data =>
    obtain rfl := Option.some.inj haddress
    exact Option.ne_none_iff_exists'.mp hpermits.2
  | _ => cases haddress

variable [DecidableEq ι]

/-- A step of a thread keeps the description if it keeps what the other calls rely on. -/
theorem update (h : s.Described dummy items owner) {dummy' : Option T} {current : Option (CallState T)}
    (hcalls : t.calls = Function.update s.calls thread current)
    (hchain : Node.Chain t.queue.heap.cells ((t.queue.head, dummy') :: items'))
    (hchainOwner : ∀ entry ∈ (t.queue.head, dummy') :: items', owner' entry.1 = none)
    (hfree : t.queue.tailMutex = none → t.lastNode items' = some t.queue.tail)
    (haccounted : t.dequeued ++ items'.map Prod.snd = t.linked.map some)
    (howned : ∀ other, other ≠ thread → ∀ address, owner address = some other → s.queue.heap.cells address ≠ none →
      owner' address = some other ∧ t.queue.heap.cells address = s.queue.heap.cells address)
    (htail : ∀ other, other ≠ thread → s.queue.tailMutex = some other → t.queue.tailMutex = some other ∧
      t.queue.tail = s.queue.tail ∧ t.lastNode items' = s.lastNode items)
    (hhead : ∀ other, other ≠ thread → s.queue.headMutex = some other → t.queue.headMutex = some other ∧
      t.queue.head = s.queue.head ∧ ∀ entry, items.head? = some entry → items'.head? = some entry)
    (hpermits : ∀ state, current = some state → t.Permits items' owner' thread state) :
    t.Described dummy' items' owner' := by
  refine ⟨hchain, hchainOwner, hfree, haccounted, fun other state hother => ?_⟩
  rw [hcalls] at hother
  by_cases heq : other = thread
  · subst heq
    rw [Function.update_self] at hother
    exact hpermits state hother
  · rw [Function.update_of_ne heq] at hother
    exact (h.calls other state hother).frame (howned other heq) (htail other heq) (hhead other heq)

/-- A step that only concerns the mutexes and the call of the thread keeps the description. -/
theorem control (h : s.Described dummy items owner) {headMutex tailMutex : Option ι} {current : Option (CallState T)}
    (history : List (Event ι (Operation T) (Result T)))
    (hhead : ∀ other, other ≠ thread → s.queue.headMutex = some other → headMutex = some other)
    (htail : ∀ other, other ≠ thread → s.queue.tailMutex = some other → tailMutex = some other)
    (hfree : tailMutex = none → s.lastNode items = some s.queue.tail)
    (hpermits : ∀ state, current = some state →
      { s with queue := { s.queue with headMutex := headMutex, tailMutex := tailMutex } }.Permits items owner thread
        state) :
    { s with
      queue := { s.queue with headMutex := headMutex, tailMutex := tailMutex }
      calls := Function.update s.calls thread current
      history := history }.Described dummy items owner := by
  refine h.update rfl h.chain h.chainOwner hfree h.accounted (fun other hother address howner _ => ⟨howner, rfl⟩)
    (fun other hother hmutex => ⟨htail other hother hmutex, rfl, rfl⟩)
    (fun other hother hmutex => ⟨hhead other hother hmutex, rfl, fun _ hentry => hentry⟩) fun state hstate => ?_
  have h' := hpermits state hstate
  cases state <;> exact h'

/-- A step that only modifies a node of the thread, or deletes it, keeps the description. -/
theorem modifyOwned (h : s.Described dummy items owner) {address : ℕ} (howner : owner address = some thread)
    {heap : Heap (Node (Option T))} {cell : Option (Node (Option T))}
    (hcells : heap.cells = Function.update s.queue.heap.cells address cell) {current : Option (CallState T)}
    (history : List (Event ι (Operation T) (Result T)))
    (hpermits : ∀ state, current = some state →
      { s with queue := { s.queue with heap := heap } }.Permits items owner thread state) :
    { s with
      queue := { s.queue with heap := heap }
      calls := Function.update s.calls thread current
      history := history }.Described dummy items owner := by
  have hsame : ∀ other, owner other ≠ some thread → heap.cells other = s.queue.heap.cells other := by
    intro other hne
    rw [hcells, Function.update_of_ne]
    rintro rfl
    exact hne howner
  refine h.update rfl (h.chain.congr fun entry hmem => hsame _ ?_) h.chainOwner h.tail h.accounted
    (fun other hother address howner' _ => ⟨howner', hsame address ?_⟩) (fun _ _ hmutex => ⟨hmutex, rfl, rfl⟩)
    (fun _ _ hmutex => ⟨hmutex, rfl, fun _ hfirst => hfirst⟩) fun state hstate => ?_
  · simp [h.chainOwner entry hmem]
  · simpa [howner'] using hother
  · have h' := hpermits state hstate
    cases state <;> exact h'

end Described

/-- The atomic object that the queue stands for. -/
def toAtomic (s : TwoLockQueue ι T) : AtomicObject ι (List (Option T)) (Operation T) (Result T) where
  object := (s.linked.map some).drop s.dequeued.length
  calls := Option.map CallState.operation ∘ s.calls
  history := s.history

@[simp] theorem toAtomic_calls (s : TwoLockQueue ι T) (thread : ι) :
    s.toAtomic.calls thread = (s.calls thread).map CallState.operation := rfl

/-- What the step of a call means for the atomic object. -/
def committed (s : TwoLockQueue ι T) (thread : ι) : CallState T → List (AtomicObject.Label ι (Operation T))
  | .storeNext _ _ _ | .storeHead _ _ _ => [.effect thread]
  | .loadNext currentHead => if (s.queue.heap.cells currentHead).any (·.next.isNone) then [.effect thread] else []
  | .unlockTail _ | .delete _ _ | .unlockMissed => [.return thread]
  | .allocate _ | .storeData _ _ | .lockTail _ _ | .loadTail _ _ | .storeTail _ _ | .lockHead | .loadHead
  | .loadData _ _ | .unlockHead _ _ => []

/-- What a step means for the atomic object. -/
def commit : Label ι T → TwoLockQueue ι T → List (AtomicObject.Label ι (Operation T))
  | .enqueue thread data, _ => [.call thread (.enqueue data)]
  | .dequeue thread, _ => [.call thread .dequeue]
  | .step thread, s => (s.calls thread).elim [] (s.committed thread)

/-- A call that waits for a mutex. -/
def Waits (s : TwoLockQueue ι T) : CallState T → Prop
  | .lockTail _ _ => s.queue.tailMutex ≠ none
  | .lockHead => s.queue.headMutex ≠ none
  | _ => False

/-- The contents of the atomic object are the items of the chain. -/
theorem Described.toAtomic_object (h : s.Described dummy items owner) : s.toAtomic.object = items.map Prod.snd := by
  rw [toAtomic, ← h.accounted, List.drop_left]

/-- The new queue is described by its dummy. -/
theorem described_initial : (initial ι T).Described none [] fun _ => none := by
  refine ⟨⟨rfl, trivial⟩, fun _ _ => rfl, fun _ => rfl, rfl, fun _ _ hcall => ?_⟩
  cases hcall

/-- A mutex that a thread holds is held by no other thread. -/
theorem mutex_elim {mutex : Option ι} (hmutex : mutex = some thread) {p : ι → Prop} (other : ι) (hother : other ≠ thread)
    (hheld : mutex = some other) : p other :=
  absurd (Option.some.inj (hheld.symm.trans hmutex)) hother

section Steps

variable [DecidableEq ι]

/-- A call goes on without an effect. -/
theorem toAtomic_goOn (hcall : s.calls thread = some state) (queue : QueueMPMC ι T) {state' : CallState T}
    (hoperation : state'.operation = state.operation) :
    ({ s with queue := queue }.goOn thread state').toAtomic = s.toAtomic := by
  have hcalls : Option.map CallState.operation ∘ Function.update s.calls thread (some state') =
      Option.map CallState.operation ∘ s.calls := by
    rw [Function.comp_update, Function.update_eq_self_iff, Function.comp_apply, hcall, Option.map_some, Option.map_some,
      hoperation]
  rw [goOn, toAtomic, hcalls]
  rfl

/-- A call returns the result that it got when it took effect. -/
theorem toAtomic_returns (hcall : s.calls thread = some state) {operation : Operation T} {result : Result T}
    (hoperation : state.operation = (operation, some result)) :
    (atomicObject ι (spec T)).run [.return thread] s.toAtomic = some (s.returns thread result).toAtomic := by
  have hcalled : s.toAtomic.calls thread = some (operation, some result) := by
    rw [toAtomic_calls, hcall, Option.map_some, hoperation]
  rw [Machine.run_singleton, AtomicObject.next_return hcalled, returns, toAtomic, toAtomic, Function.comp_update]
  rfl

/-- An idle thread calls. -/
theorem toAtomic_call (hcall : s.calls thread = none) {operation : Operation T}
    (hoperation : state.operation = (operation, none)) :
    (atomicObject ι (spec T)).run [.call thread operation] s.toAtomic =
      some { s.goOn thread state with history := s.history ++ [Event.call thread operation] }.toAtomic := by
  have hcalled : s.toAtomic.calls thread = none := by
    rw [toAtomic_calls, hcall, Option.map_none]
  rw [Machine.run_singleton, AtomicObject.next_call hcalled]
  simp only [goOn, toAtomic, Function.comp_update, Option.map_some, hoperation]

/-- A call takes effect. -/
theorem Described.effect (h : s.Described dummy items owner) {dummy' : Option T} (ht : t.Described dummy' items' owner')
    (hcall : s.calls thread = some state) {operation : Operation T} (hoperation : state.operation = (operation, none))
    {result : Result T} (happly : (spec T).apply operation (items.map Prod.snd) = (items'.map Prod.snd, result))
    {state' : CallState T} (hcalls : t.calls = Function.update s.calls thread (some state'))
    (hoperation' : state'.operation = (operation, some result)) (hhistory : t.history = s.history) :
    (atomicObject ι (spec T)).run [.effect thread] s.toAtomic = some t.toAtomic := by
  have hcalled : s.toAtomic.calls thread = some (operation, none) := by
    rw [toAtomic_calls, hcall, Option.map_some, hoperation]
  rw [← h.toAtomic_object, ← ht.toAtomic_object] at happly
  rw [Machine.run_singleton, AtomicObject.next_effect hcalled happly]
  simp only [toAtomic, hcalls, hhistory, Function.comp_update, Option.map_some, hoperation']

/-- A step of a call leads to a described state and is the step of the atomic object that it stands for. -/
def Moves (s : TwoLockQueue ι T) (thread : ι) (state : CallState T) : Prop :=
  ∃ t dummy items owner, s.step thread state = some t ∧ t.Described dummy items owner ∧
    (atomicObject ι (spec T)).run (s.committed thread state) s.toAtomic = some t.toAtomic

namespace Described

variable (h : s.Described dummy items owner)
include h

/-- A thread allocates a node. -/
theorem allocate {data : T} (hcall : s.calls thread = some (.allocate data)) : s.Moves thread (.allocate data) := by
  have hsame : ∀ {address}, s.queue.heap.cells address ≠ none →
      (s.queue.heap.allocate ⟨none, none⟩).cells address = s.queue.heap.cells address ∧
        address ≠ s.queue.heap.allocated := by
    intro address hne
    obtain ⟨node, hcell⟩ := Option.ne_none_iff_exists'.mp hne
    exact ⟨(Heap.allocate_cells_of_some hcell _).trans hcell.symm, Heap.ne_allocated hcell⟩
  have hentry : ∀ entry ∈ (s.queue.head, dummy) :: items, s.queue.heap.cells entry.1 ≠ none := by
    intro entry hentry
    obtain ⟨next, hcell⟩ := h.chain.cell hentry
    simp [hcell]
  refine ⟨_, dummy, items, Function.update owner s.queue.heap.allocated (some thread), rfl, h.update rfl
    (h.chain.congr fun entry hmem => (hsame (hentry entry hmem)).1) (fun entry hmem => ?_) h.tail h.accounted
    (fun other hother address howner hne => ⟨?_, (hsame hne).1⟩) (fun _ _ hmutex => ⟨hmutex, rfl, rfl⟩)
    (fun _ _ hmutex => ⟨hmutex, rfl, fun _ hfirst => hfirst⟩) fun state hstate => ?_, ?_⟩
  · rw [Function.update_of_ne (hsame (hentry entry hmem)).2]
    exact h.chainOwner entry hmem
  · rw [Function.update_of_ne (hsame hne).2, howner]
  · obtain rfl := Option.some.inj hstate
    exact ⟨Function.update_self .., Heap.allocate_cells_self ..⟩
  · exact congrArg some (toAtomic_goOn hcall _ (by rfl)).symm

/-- A thread stores the item in its node. -/
theorem storeData {data : T} {newNode : ℕ} (hcall : s.calls thread = some (.storeData data newNode)) :
    s.Moves thread (.storeData data newNode) := by
  obtain ⟨howner, hcell⟩ := h.calls thread _ hcall
  obtain ⟨heap, hstore, hcells⟩ := Heap.exists_modify hcell fun node => some { node with data := some data }
  have hstep : s.step thread (.storeData data newNode) =
      some ({ s with queue := { s.queue with heap := heap } }.goOn thread (.lockTail data newNode)) := by
    rw [step, Heap.store, hstore, Option.map_some]
  refine ⟨_, dummy, items, owner, hstep, h.modifyOwned howner hcells _ fun state hstate => ?_,
    congrArg some (toAtomic_goOn hcall _ (by rfl)).symm⟩
  obtain rfl := Option.some.inj hstate
  refine ⟨howner, ?_⟩
  simp only [hcells, Function.update_self]

/-- A thread links its node. -/
theorem storeNext {data : T} {newNode tail : ℕ} (hcall : s.calls thread = some (.storeNext data newNode tail)) :
    s.Moves thread (.storeNext data newNode tail) := by
  obtain ⟨⟨hnewOwner, hnew⟩, hmutex, hlast, _⟩ := h.calls thread _ hcall
  obtain ⟨before, last, hentries, htail, htailOwner⟩ := h.last_cell hlast
  obtain ⟨heap, hstore, hcells⟩ := Heap.exists_modify htail fun node => some { node with next := some newNode }
  have hstep : s.step thread (.storeNext data newNode tail) = some
      ({ s with queue := { s.queue with heap := heap }, linked := s.linked ++ [data] }.goOn thread
        (.storeTail data newNode)) := by
    rw [step, Heap.store, hstore, Option.map_some]
  have happend : (s.queue.head, dummy) :: (items ++ [(newNode, some data)]) =
      before ++ [(tail, last), (newNode, some data)] := by
    rw [← List.cons_append, hentries, List.append_assoc, List.singleton_append]
  have hapart : ∀ entry ∈ (s.queue.head, dummy) :: items, entry.1 ≠ newNode := by
    intro entry hmem heq
    have hnone := h.chainOwner entry hmem
    rw [heq, hnewOwner] at hnone
    cases hnone
  have hchain := h.chain
  rw [hentries] at hchain
  have hlinked := hchain.link hnew (hentries ▸ hapart)
  rw [← hcells, ← happend] at hlinked
  have hlastNode : ∀ u : TwoLockQueue ι T, u.lastNode (items ++ [(newNode, some data)]) = some newNode := by
    intro u
    rw [lastNode, List.map_append, ← List.cons_append]
    exact List.getLast?_concat
  have hdescribed : ({ s with queue := { s.queue with heap := heap }, linked := s.linked ++ [data] }.goOn thread
      (.storeTail data newNode)).Described dummy (items ++ [(newNode, some data)])
        (Function.update owner newNode none) := by
    refine h.update rfl hlinked (fun entry hmem => ?_) (fun hnone => ?_) ?_ (fun other hother address howner _ => ?_)
      (mutex_elim hmutex) (fun _ _ hheld => ⟨hheld, rfl, fun entry hfirst => ?_⟩) fun state hstate => ?_
    · rw [← List.cons_append] at hmem
      rcases List.mem_append.mp hmem with hold | hnewest
      · rw [Function.update_of_ne (hapart entry hold)]
        exact h.chainOwner entry hold
      · obtain rfl := List.mem_singleton.mp hnewest
        exact Function.update_self ..
    · exact absurd (hmutex.symm.trans hnone) (by simp)
    · simp only [goOn, List.map_append, ← List.append_assoc, h.accounted]
      rfl
    · have hne : address ≠ newNode := by
        rintro rfl
        exact hother (Option.some.inj (howner.symm.trans hnewOwner))
      have hne' : address ≠ tail := by
        rintro rfl
        rw [htailOwner] at howner
        cases howner
      refine ⟨by rw [Function.update_of_ne hne, howner], ?_⟩
      simp only [goOn, hcells, Function.update_of_ne hne']
    · rw [List.head?_append, hfirst]
      rfl
    · obtain rfl := Option.some.inj hstate
      exact ⟨hmutex, hlastNode _⟩
  refine ⟨_, dummy, _, _, hstep, hdescribed, h.effect hdescribed hcall rfl ?_ rfl rfl rfl⟩
  rw [List.map_append]
  rfl

/-- A thread stores the tail, behind which its node is. -/
theorem storeTail {data : T} {newNode : ℕ} (hcall : s.calls thread = some (.storeTail data newNode)) :
    s.Moves thread (.storeTail data newNode) := by
  obtain ⟨hmutex, hlast⟩ := h.calls thread _ hcall
  refine ⟨_, dummy, items, owner, rfl, h.update rfl h.chain h.chainOwner (fun _ => hlast) h.accounted
    (fun _ _ _ howner _ => ⟨howner, rfl⟩) (mutex_elim hmutex) (fun _ _ hheld => ⟨hheld, rfl, fun _ hfirst => hfirst⟩)
    fun state hstate => ?_, congrArg some (toAtomic_goOn hcall _ (by rfl)).symm⟩
  obtain rfl := Option.some.inj hstate
  exact ⟨hmutex, hlast⟩

/-- A thread makes the first item the dummy. -/
theorem storeHead {currentHead newHead : ℕ} {data : Option T}
    (hcall : s.calls thread = some (.storeHead currentHead newHead data)) :
    s.Moves thread (.storeHead currentHead newHead data) := by
  obtain ⟨hmutex, rfl, hfirst⟩ := h.calls thread _ hcall
  obtain ⟨rest, rfl⟩ := List.head?_eq_some_iff.mp hfirst
  have hdescribed : ({ s with queue := { s.queue with head := newHead }, dequeued := s.dequeued ++ [data] }.goOn thread
      (.unlockHead s.queue.head data)).Described data rest (Function.update owner s.queue.head (some thread)) := by
    have hhead : owner s.queue.head = none := h.chainOwner _ (List.mem_cons_self ..)
    have hlastNode : (newHead :: rest.map Prod.fst).getLast? = s.lastNode ((newHead, data) :: rest) := by
      rw [lastNode, List.map_cons, List.getLast?_cons_cons]
    refine h.update rfl h.chain.2 (fun entry hmem => ?_) (fun hnone => ?_) ?_ (fun other hother address howner _ => ?_)
      (fun _ _ hheld => ⟨hheld, rfl, hlastNode⟩) (mutex_elim hmutex) fun state hstate => ?_
    · have hnodup := h.chain.nodup
      rw [List.map_cons, List.nodup_cons] at hnodup
      have hne : entry.1 ≠ s.queue.head := by
        intro heq
        have hmem' := List.mem_map_of_mem (f := Prod.fst) hmem
        rw [heq] at hmem'
        exact hnodup.1 hmem'
      rw [Function.update_of_ne hne]
      exact h.chainOwner entry (List.mem_cons_of_mem _ hmem)
    · exact hlastNode.trans (h.tail hnone)
    · simpa [goOn] using h.accounted
    · have hne : address ≠ s.queue.head := by
        rintro rfl
        rw [hhead] at howner
        cases howner
      exact ⟨by rw [Function.update_of_ne hne, howner], rfl⟩
    · obtain rfl := Option.some.inj hstate
      refine ⟨hmutex, Function.update_self .., ?_⟩
      simp [goOn, h.head_cell]
  exact ⟨_, data, rest, _, rfl, hdescribed, h.effect hdescribed hcall rfl rfl rfl rfl rfl⟩

/-- A thread deletes the old dummy and returns the item. -/
theorem delete {currentHead : ℕ} {data : Option T} (hcall : s.calls thread = some (.delete currentHead data)) :
    s.Moves thread (.delete currentHead data) := by
  obtain ⟨howner, hexists⟩ := h.calls thread _ hcall
  obtain ⟨node, hcell⟩ := Option.ne_none_iff_exists'.mp hexists
  obtain ⟨heap, hfree, hcells⟩ := Heap.exists_modify hcell fun _ => none
  have hstep : s.step thread (.delete currentHead data) =
      some ({ s with queue := { s.queue with heap := heap } }.returns thread (.dequeued data)) := by
    rw [step, Heap.free, hfree, Option.map_some]
  refine ⟨_, dummy, items, owner, hstep, h.modifyOwned howner hcells _ fun state hstate => ?_, toAtomic_returns hcall rfl⟩
  cases hstate

/-- A thread takes the mutex of the tail, if it is free. -/
theorem lockTail {data : T} {newNode : ℕ} (hcall : s.calls thread = some (.lockTail data newNode))
    (hmutex : s.queue.tailMutex = none) : s.Moves thread (.lockTail data newNode) := by
  obtain ⟨howner, hcell⟩ := h.calls thread _ hcall
  have hstep : s.step thread (.lockTail data newNode) =
      some ({ s with queue := { s.queue with tailMutex := some thread } }.goOn thread (.loadTail data newNode)) := by
    simp only [step, hmutex]
  refine ⟨_, dummy, items, owner, hstep, h.control _ (fun _ _ hheld => hheld) (fun other _ hheld => ?_)
    (fun hnone => ?_) fun state hstate => ?_, congrArg some (toAtomic_goOn hcall _ (by rfl)).symm⟩
  · rw [hmutex] at hheld
    cases hheld
  · cases hnone
  · obtain rfl := Option.some.inj hstate
    exact ⟨⟨howner, hcell⟩, rfl, h.tail hmutex⟩

/-- A thread loads the tail. -/
theorem loadTail {data : T} {newNode : ℕ} (hcall : s.calls thread = some (.loadTail data newNode)) :
    s.Moves thread (.loadTail data newNode) := by
  obtain ⟨hnew, hmutex, hlast⟩ := h.calls thread _ hcall
  refine ⟨_, dummy, items, owner, rfl, h.control _ (fun _ _ hheld => hheld) (fun _ _ hheld => hheld) h.tail
    fun state hstate => ?_, congrArg some (toAtomic_goOn hcall s.queue (by rfl)).symm⟩
  obtain rfl := Option.some.inj hstate
  exact ⟨hnew, hmutex, hlast, rfl⟩

/-- A thread releases the mutex of the tail. -/
theorem unlockTail {data : T} (hcall : s.calls thread = some (.unlockTail data)) :
    s.Moves thread (.unlockTail data) := by
  obtain ⟨hmutex, hlast⟩ := h.calls thread _ hcall
  refine ⟨_, dummy, items, owner, rfl, h.control _ (fun _ _ hheld => hheld)
    (mutex_elim hmutex) (fun _ => hlast) fun state hstate => ?_, toAtomic_returns hcall rfl⟩
  cases hstate

/-- A thread takes the mutex of the head, if it is free. -/
theorem lockHead (hcall : s.calls thread = some .lockHead) (hmutex : s.queue.headMutex = none) :
    s.Moves thread .lockHead := by
  have hstep : s.step thread .lockHead =
      some ({ s with queue := { s.queue with headMutex := some thread } }.goOn thread .loadHead) := by
    simp only [step, hmutex]
  refine ⟨_, dummy, items, owner, hstep, h.control _ (fun other _ hheld => ?_) (fun _ _ hheld => hheld) h.tail
    fun state hstate => ?_, congrArg some (toAtomic_goOn hcall _ (by rfl)).symm⟩
  · rw [hmutex] at hheld
    cases hheld
  · obtain rfl := Option.some.inj hstate
    exact rfl

/-- A thread loads the head. -/
theorem loadHead (hcall : s.calls thread = some .loadHead) : s.Moves thread .loadHead := by
  have hmutex : s.queue.headMutex = some thread := h.calls thread _ hcall
  refine ⟨_, dummy, items, owner, rfl, h.control _ (fun _ _ hheld => hheld) (fun _ _ hheld => hheld) h.tail
    fun state hstate => ?_, congrArg some (toAtomic_goOn hcall s.queue (by rfl)).symm⟩
  obtain rfl := Option.some.inj hstate
  exact ⟨hmutex, rfl⟩

/-- A thread loads the link of the dummy; a null link means that there is no item. -/
theorem loadNext {currentHead : ℕ} (hcall : s.calls thread = some (.loadNext currentHead)) :
    s.Moves thread (.loadNext currentHead) := by
  obtain ⟨hmutex, rfl⟩ := h.calls thread _ hcall
  cases items with
  | nil =>
    have hstep : s.step thread (.loadNext s.queue.head) = some (s.goOn thread .unlockMissed) := by
      simp [step, h.head_cell]
    have hdescribed : (s.goOn thread .unlockMissed).Described dummy [] owner := by
      refine h.control _ (fun _ _ hheld => hheld) (fun _ _ hheld => hheld) h.tail fun state hstate => ?_
      obtain rfl := Option.some.inj hstate
      exact hmutex
    have hcommitted : s.committed thread (.loadNext s.queue.head) = [.effect thread] := by
      simp [committed, h.head_cell]
    exact ⟨_, dummy, [], owner, hstep, hdescribed,
      hcommitted ▸ h.effect hdescribed hcall rfl rfl rfl rfl rfl⟩
  | cons first rest =>
    have hstep : s.step thread (.loadNext s.queue.head) = some (s.goOn thread (.loadData s.queue.head first.1)) := by
      simp [step, h.head_cell]
    have hdescribed : (s.goOn thread (.loadData s.queue.head first.1)).Described dummy (first :: rest) owner := by
      refine h.control _ (fun _ _ hheld => hheld) (fun _ _ hheld => hheld) h.tail fun state hstate => ?_
      obtain rfl := Option.some.inj hstate
      exact ⟨hmutex, rfl, first.2, rfl⟩
    have hcommitted : s.committed thread (.loadNext s.queue.head) = [] := by simp [committed, h.head_cell]
    refine ⟨_, dummy, first :: rest, owner, hstep, hdescribed, ?_⟩
    rw [hcommitted]
    exact congrArg some (toAtomic_goOn hcall s.queue (by rfl)).symm

/-- A thread loads the first item. -/
theorem loadData {currentHead newHead : ℕ} (hcall : s.calls thread = some (.loadData currentHead newHead)) :
    s.Moves thread (.loadData currentHead newHead) := by
  obtain ⟨hmutex, hcurrent, data, hfirst⟩ := h.calls thread _ hcall
  obtain ⟨rest, rfl⟩ := List.head?_eq_some_iff.mp hfirst
  have hstep : s.step thread (.loadData currentHead newHead) =
      some (s.goOn thread (.storeHead currentHead newHead data)) := by
    rw [step, h.chain.2.1, Option.map_some]
  refine ⟨_, dummy, _, owner, hstep, h.control _ (fun _ _ hheld => hheld) (fun _ _ hheld => hheld) h.tail
    fun state hstate => ?_, congrArg some (toAtomic_goOn hcall s.queue (by rfl)).symm⟩
  obtain rfl := Option.some.inj hstate
  exact ⟨hmutex, hcurrent, rfl⟩

/-- A thread that got an item releases the mutex of the head. -/
theorem unlockHead {currentHead : ℕ} {data : Option T} (hcall : s.calls thread = some (.unlockHead currentHead data)) :
    s.Moves thread (.unlockHead currentHead data) := by
  obtain ⟨hmutex, howner, hexists⟩ := h.calls thread _ hcall
  refine ⟨_, dummy, items, owner, rfl, h.control _ (mutex_elim hmutex) (fun _ _ hheld => hheld) h.tail
    fun state hstate => ?_, congrArg some (toAtomic_goOn hcall _ (by rfl)).symm⟩
  obtain rfl := Option.some.inj hstate
  exact ⟨howner, hexists⟩

/-- A thread that found no item releases the mutex of the head and returns. -/
theorem unlockMissed (hcall : s.calls thread = some .unlockMissed) : s.Moves thread .unlockMissed := by
  have hmutex : s.queue.headMutex = some thread := h.calls thread _ hcall
  refine ⟨_, dummy, items, owner, rfl, h.control _ (mutex_elim hmutex)
    (fun _ _ hheld => hheld) h.tail fun state hstate => ?_, toAtomic_returns hcall rfl⟩
  cases hstate

/-- A call goes on, or waits for a mutex. -/
theorem step (hcall : s.calls thread = some state) : s.Moves thread state ∨ s.Waits state ∧ s.step thread state = none := by
  cases state with
  | allocate => exact Or.inl (h.allocate hcall)
  | storeData => exact Or.inl (h.storeData hcall)
  | loadTail => exact Or.inl (h.loadTail hcall)
  | storeNext => exact Or.inl (h.storeNext hcall)
  | storeTail => exact Or.inl (h.storeTail hcall)
  | unlockTail => exact Or.inl (h.unlockTail hcall)
  | loadHead => exact Or.inl (h.loadHead hcall)
  | loadNext => exact Or.inl (h.loadNext hcall)
  | loadData => exact Or.inl (h.loadData hcall)
  | storeHead => exact Or.inl (h.storeHead hcall)
  | unlockHead => exact Or.inl (h.unlockHead hcall)
  | delete => exact Or.inl (h.delete hcall)
  | unlockMissed => exact Or.inl (h.unlockMissed hcall)
  | lockTail =>
    cases hmutex : s.queue.tailMutex with
    | none => exact Or.inl (h.lockTail hcall hmutex)
    | some holder => exact Or.inr ⟨by simp [Waits, hmutex], by simp only [TwoLockQueue.step, hmutex]⟩
  | lockHead =>
    cases hmutex : s.queue.headMutex with
    | none => exact Or.inl (h.lockHead hcall hmutex)
    | some holder => exact Or.inr ⟨by simp [Waits, hmutex], by simp only [TwoLockQueue.step, hmutex]⟩

/-- A call keeps the description and is the call of the atomic object. -/
theorem call {operation : Operation T} (state : CallState T) (hoperation : state.operation = (operation, none))
    (hpermits : ∀ u : TwoLockQueue ι T, u.Permits items owner thread state)
    (hnext : s.call thread operation state = some t) :
    t.Described dummy items owner ∧
      (atomicObject ι (spec T)).run [.call thread operation] s.toAtomic = some t.toAtomic := by
  unfold TwoLockQueue.call at hnext
  split at hnext
  · rename_i hcall
    obtain rfl := Option.some.inj hnext
    refine ⟨h.control _ (fun _ _ hheld => hheld) (fun _ _ hheld => hheld) h.tail
      fun state hstate => ?_, toAtomic_call hcall hoperation⟩
    obtain rfl := Option.some.inj hstate
    exact hpermits _
  · cases hnext

/-- Every step leads to a described state and is the step of the atomic object that it stands for. -/
theorem next {label : Label ι T} (hnext : TwoLockQueue.next label s = some t) :
    (∃ dummy items owner, t.Described dummy items owner) ∧
      (atomicObject ι (spec T)).run (commit label s) s.toAtomic = some t.toAtomic := by
  cases label with
  | enqueue thread data =>
    obtain ⟨hdescribed, hrun⟩ := h.call (.allocate data) rfl (fun _ => trivial) hnext
    exact ⟨⟨dummy, items, owner, hdescribed⟩, hrun⟩
  | dequeue thread =>
    obtain ⟨hdescribed, hrun⟩ := h.call .lockHead rfl (fun _ => trivial) hnext
    exact ⟨⟨dummy, items, owner, hdescribed⟩, hrun⟩
  | step thread =>
    obtain ⟨state, hcall, hstep⟩ := Option.bind_eq_some_iff.mp hnext
    rcases h.step hcall with ⟨u, dummy', items', owner', hu, hdescribed, hrun⟩ | ⟨_, hnone⟩
    · obtain rfl : u = t := Option.some.inj (hu.symm.trans hstep)
      refine ⟨⟨dummy', items', owner', hdescribed⟩, ?_⟩
      rw [commit, hcall]
      exact hrun
    · rw [hnone] at hstep
      cases hstep

end Described

/-- Every state reached is described. -/
theorem described_of_reachable (h : (twoLockQueue ι T).Reachable s) :
    ∃ dummy items owner, s.Described dummy items owner := by
  refine h.invariant (I := fun s : TwoLockQueue ι T => ∃ dummy items owner, s.Described dummy items owner)
    ⟨none, [], _, described_initial⟩ fun label s t _ hs _ hnext => ?_
  obtain ⟨dummy, items, owner, hdescribed⟩ := hs
  exact (hdescribed.next hnext).1

/-- The calls and returns of the threads are those of an atomic queue. -/
theorem linearizable : (twoLockQueue ι T).Linearizable TwoLockQueue.history (spec T) := by
  refine ⟨toAtomic, commit, ⟨rfl, fun label s t hs hnext => ?_⟩, fun _ => rfl⟩
  obtain ⟨dummy, items, owner, hdescribed⟩ := described_of_reachable hs
  exact (hdescribed.next hnext).2

/-- In every interleaving of any number of threads the two-lock queue is a linearizable queue. In each state reached the
head starts a chain of nodes; the items dequeued, in this order, and then those in the chain behind the dummy are the
items linked, in the order in which they were linked; a load of a null link, after which `dequeue` returns false, finds
no item in the chain; the node that the next step of a call dereferences was not deleted, also where `enqueue` links its
node behind the tail; and only a call that waits for a mutex has no next step. -/
theorem linearizable_queue :
    (twoLockQueue ι T).Linearizable TwoLockQueue.history (spec T) ∧
      ∀ s, (twoLockQueue ι T).Reachable s → ∃ (dummy : Option T) (items : List (ℕ × Option T)),
        Node.Chain s.queue.heap.cells ((s.queue.head, dummy) :: items) ∧
        s.dequeued ++ items.map Prod.snd = s.linked.map some ∧
        (∀ thread currentHead node, s.calls thread = some (.loadNext currentHead) →
          s.queue.heap.cells currentHead = some node → node.next = none → items = []) ∧
        (∀ thread state address, s.calls thread = some state → state.dereferenced = some address →
          ∃ node, s.queue.heap.cells address = some node) ∧
        (∀ thread data newNode tail, s.calls thread = some (.storeNext data newNode tail) → tail = s.queue.tail) ∧
        ∀ thread state, s.calls thread = some state → s.Waits state ∨ ∃ t, TwoLockQueue.next (.step thread) s = some t := by
  refine ⟨linearizable, fun s hs => ?_⟩
  obtain ⟨dummy, items, owner, h⟩ := described_of_reachable hs
  refine ⟨dummy, items, h.chain, h.accounted, fun thread currentHead node hcall hcell hnull => ?_,
    fun thread state address hcall => h.dereferenced hcall, fun thread data newNode tail hcall => ?_,
    fun thread state hcall => ?_⟩
  · obtain ⟨_, rfl⟩ := h.calls thread _ hcall
    obtain rfl := Option.some.inj (h.head_cell.symm.trans hcell)
    cases items with
    | nil => rfl
    | cons first rest => cases hnull
  · exact (h.calls thread _ hcall).2.2.2
  · rcases h.step hcall with ⟨t, _, _, _, hstep, _⟩ | ⟨hwaits, _⟩
    · exact Or.inr ⟨t, by rw [TwoLockQueue.next, hcall, Option.bind_some, hstep]⟩
    · exact Or.inl hwaits

end Steps

/-- Between the two stores of an enqueue, a dequeue deletes the node at the tail. -/
theorem linearizable_queue_dangling :
    ∃ s : TwoLockQueue Bool ℕ, (twoLockQueue Bool ℕ).Reachable s ∧ s.dequeued = [some 7] ∧ s.linked = [7] ∧
      s.queue.heap.cells s.queue.tail = none ∧
      ∀ thread state address, s.calls thread = some state → state.dereferenced = some address →
        ∃ node, s.queue.heap.cells address = some node := by
  have hrun : ((twoLockQueue Bool ℕ).run
      (.enqueue false 7 :: List.replicate 5 (.step false) ++ .dequeue true :: List.replicate 7 (.step true))
      (twoLockQueue Bool ℕ).start).any (fun s => s.dequeued == [some 7] && s.linked == [7] &&
        s.queue.heap.cells s.queue.tail == none) = true := by decide
  obtain ⟨s, hreachable, htest⟩ := Machine.exists_reachable_of_run hrun
  obtain ⟨hrecords, hdangling⟩ := Bool.and_eq_true_iff.mp htest
  obtain ⟨hdequeued, hlinked⟩ := Bool.and_eq_true_iff.mp hrecords
  obtain ⟨_, _, _, _, _, hdereferenced, _⟩ := linearizable_queue.2 s hreachable
  exact ⟨s, hreachable, eq_of_beq hdequeued, eq_of_beq hlinked, eq_of_beq hdangling, hdereferenced⟩

end TwoLockQueue

end MatchingEngine
