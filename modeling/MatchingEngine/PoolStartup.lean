import MatchingEngine.SingleWriter
import MatchingEngine.Foundation.GrowingArray
import MatchingEngine.Foundation.Machine

/-!
# Workers that run while the pool is created

The thread pool starts each worker right after it has created it, and goes on to append to its arrays
of queues, arguments and threads. The workers get the address of their argument and look up
their queue and their name in these arrays meanwhile. An array that moved its elements would leave them
with dangling addresses; the pool reserves the room for all elements before it creates the first worker.

A lookup takes two steps: the address is computed from the block of the array, and loaded from afterwards.
-/

namespace MatchingEngine

namespace PoolStartup

/-- Where the creation loop has come to, with its index and the address of the argument for the task. -/
inductive Creation
  | reserve
  | pushQueue (i : ℕ)
  | emplaceArgument (i : ℕ)
  | newTask (i : ℕ)
  | pushThread (i : ℕ) (argument : ElementAddress)
  | start (i : ℕ) (argument : ElementAddress)
  | finished
  | failed (i : ℕ)
deriving DecidableEq

/-- Where a worker has come to in its function: it reads its argument, logs its name, looks whether the pool shuts down,
and pops from its queue; it logs its name for each task that it got, and in the end. -/
inductive Place
  | argument
  | logStarting
  | checkShuttingDown
  | tryPop
  | logTask
  | execute
  | logExiting
  | exited
deriving DecidableEq

/-- A worker with its local variables: the queue index once it was read, and the address for the next load. -/
structure Worker where
  place : Place
  queueIndex : ℕ
  address : Option ElementAddress
deriving DecidableEq

/-- A worker looks an element up: it computes the address, and then loads from it. -/
def Worker.lookup {α : Type*} (w : Worker) (array : GrowingArray α) (after : Place) : Option Worker :=
  match w.address with
  | none => some { w with address := some (array.address w.queueIndex) }
  | some address => (array.load address).map fun _ => { w with place := after, address := none }

end PoolStartup

/-- The arrays of the pool, the creation loop and the workers started. -/
structure PoolStartup where
  threadQueues : GrowingArray ℕ
  threadArguments : GrowingArray ℕ
  threads : GrowingArray String
  creation : PoolStartup.Creation
  workers : List PoolStartup.Worker
  isShuttingDown : Bool

namespace PoolStartup

/-- The creation loop goes on, or creating a thread fails; the pool is shut down; a worker goes on, where its queue may
have a task. -/
inductive Label
  | create
  | createFails
  | shutdown
  | worker (k : ℕ) (popped : Bool)

/-- A new pool. -/
def initial : PoolStartup where
  threadQueues := .empty ℕ
  threadArguments := .empty ℕ
  threads := .empty String
  creation := .reserve
  workers := []
  isShuttingDown := false

/-- Enter the loop with an index. -/
def iteration (threadNames : List String) (i : ℕ) : Creation :=
  if i < threadNames.length then .pushQueue i else .finished

/-- The creation loop goes on. A queue is known by the index of its creation. -/
def create (threadNames : List String) (s : PoolStartup) : Option PoolStartup :=
  match s.creation with
  | .reserve => some { s with
      threadArguments := s.threadArguments.reserve threadNames.length
      threads := s.threads.reserve threadNames.length
      threadQueues := s.threadQueues.reserve threadNames.length
      creation := iteration threadNames 0 }
  | .pushQueue i => some { s with threadQueues := s.threadQueues.push i, creation := .emplaceArgument i }
  | .emplaceArgument i => some { s with threadArguments := s.threadArguments.push i, creation := .newTask i }
  | .newTask i => some { s with creation := .pushThread i s.threadArguments.back }
  | .pushThread i argument => some { s with
      threads := s.threads.push (threadNames.getD s.threads.elements.length "")
      creation := .start i argument }
  | .start i argument => some { s with
      workers := s.workers ++ [⟨.argument, 0, some argument⟩]
      creation := iteration threadNames (i + 1) }
  | .finished | .failed _ => none

/-- A worker goes on. -/
def work (s : PoolStartup) (popped : Bool) (w : Worker) : Option Worker :=
  match w.place with
  | .argument => (w.address.bind s.threadArguments.load).map fun queueIndex => ⟨.logStarting, queueIndex, none⟩
  | .logStarting => w.lookup s.threads .checkShuttingDown
  | .checkShuttingDown => some { w with place := if s.isShuttingDown then .logExiting else .tryPop }
  | .tryPop => w.lookup s.threadQueues (if popped then .logTask else .checkShuttingDown)
  | .logTask => w.lookup s.threads .execute
  | .execute => some { w with place := .checkShuttingDown }
  | .logExiting => w.lookup s.threads .exited
  | .exited => none

/-- The steps of the creating thread and of the workers. -/
def next (threadNames : List String) : Label → PoolStartup → Option PoolStartup
  | .create, s => create threadNames s
  | .createFails, s =>
    match s.creation with
    | .start i _ => some { s with creation := .failed i }
    | _ => none
  | .shutdown, s =>
    match s.creation with
    | .finished | .failed _ => some { s with isShuttingDown := true }
    | _ => none
  | .worker k popped, s => do
    let w ← s.workers[k]?
    let after ← s.work popped w
    some { s with workers := s.workers.set k after }

end PoolStartup

/-- The pool while it is created. -/
def poolStartup (threadNames : List String) : Machine PoolStartup PoolStartup.Label where
  start := .initial
  next := PoolStartup.next threadNames

namespace PoolStartup

variable {threadNames : List String} {s t : PoolStartup} {k : ℕ} {w after : Worker}

/-- What a worker must load in a place: its own argument, its own name and its own queue. -/
def Loads (threadNames : List String) (s : PoolStartup) (k : ℕ) (address : ElementAddress) : Place → Prop
  | .argument => s.threadArguments.load address = some k
  | .logStarting | .logTask | .logExiting => ∃ name, threadNames[k]? = some name ∧ s.threads.load address = some name
  | .tryPop => s.threadQueues.load address = some k
  | .checkShuttingDown | .execute | .exited => False

/-- A worker has read its own queue index, and loads its own elements. -/
structure Valid (threadNames : List String) (s : PoolStartup) (k : ℕ) (w : Worker) : Prop where
  argument : w.place = .argument → w.address ≠ none
  queueIndex : w.place ≠ .argument → w.queueIndex = k
  loads : ∀ address, w.address = some address → Loads threadNames s k address w.place

/-- Arrays that extend. -/
structure Grows (s t : PoolStartup) : Prop where
  threadQueues : s.threadQueues.Extends t.threadQueues
  threadArguments : s.threadArguments.Extends t.threadArguments
  threads : s.threads.Extends t.threads

/-- What a worker loads stays the same while the arrays extend. -/
theorem Loads.mono {address : ElementAddress} {place : Place} (h : Loads threadNames s k address place)
    (hgrows : s.Grows t) : Loads threadNames t k address place := by
  have hname : (∃ name, threadNames[k]? = some name ∧ s.threads.load address = some name) →
      ∃ name, threadNames[k]? = some name ∧ t.threads.load address = some name := by
    rintro ⟨name, hname, hload⟩
    exact ⟨name, hname, hgrows.threads.load hload⟩
  cases place with
  | argument => exact hgrows.threadArguments.load h
  | logStarting => exact hname h
  | checkShuttingDown => exact h
  | tryPop => exact hgrows.threadQueues.load h
  | logTask => exact hname h
  | execute => exact h
  | logExiting => exact hname h
  | exited => exact h

/-- A worker stays valid while the arrays extend. -/
theorem Valid.mono (h : Valid threadNames s k w) (hgrows : s.Grows t) : Valid threadNames t k w :=
  ⟨h.argument, h.queueIndex, fun address haddress => (h.loads address haddress).mono hgrows⟩

/-- What the creation loop has appended: there is room for all elements, and each worker has its queue, its argument and
its thread. -/
structure Prepared (threadNames : List String) (s : PoolStartup) (queueCount argumentCount threadCount : ℕ) :
    Prop where
  queues : s.threadQueues.elements = List.range queueCount
  arguments : s.threadArguments.elements = List.range argumentCount
  threads : s.threads.elements = threadNames.take threadCount
  room : threadNames.length ≤ s.threadQueues.capacity ∧ threadNames.length ≤ s.threadArguments.capacity ∧
    threadNames.length ≤ s.threads.capacity
  ordered : s.workers.length ≤ threadCount ∧ threadCount ≤ argumentCount ∧ argumentCount ≤ queueCount ∧
    queueCount ≤ threadNames.length
  valid : ∀ k w, s.workers[k]? = some w → Valid threadNames s k w

/-- What the creation loop has appended where it has come to. -/
def Describes (threadNames : List String) (s : PoolStartup) : Creation → Prop
  | .reserve => s.threadQueues.elements = [] ∧ s.threadArguments.elements = [] ∧ s.threads.elements = [] ∧ s.workers = []
  | .pushQueue i => i < threadNames.length ∧ s.workers.length = i ∧ Prepared threadNames s i i i
  | .emplaceArgument i => s.workers.length = i ∧ Prepared threadNames s (i + 1) i i
  | .newTask i => s.workers.length = i ∧ s.threadArguments.load s.threadArguments.back = some i ∧
      Prepared threadNames s (i + 1) (i + 1) i
  | .pushThread i argument => s.workers.length = i ∧ s.threadArguments.load argument = some i ∧
      Prepared threadNames s (i + 1) (i + 1) i
  | .start i argument => s.workers.length = i ∧ s.threadArguments.load argument = some i ∧
      Prepared threadNames s (i + 1) (i + 1) (i + 1)
  | .finished => Prepared threadNames s threadNames.length threadNames.length threadNames.length
  | .failed i => Prepared threadNames s (i + 1) (i + 1) (i + 1)

/-- A state with what the creation loop has appended. -/
def Described (threadNames : List String) (s : PoolStartup) : Prop := Describes threadNames s s.creation

/-- A worker without an address is valid outside of the first place. -/
theorem Valid.of_no_address {place : Place} (hplace : place ≠ .argument) :
    Valid threadNames s k ⟨place, k, none⟩ :=
  ⟨fun h => absurd h hplace, fun _ => rfl, nofun⟩

/-- A worker that looks up its own element stays valid. -/
theorem Valid.lookup {α : Type*} {array : GrowingArray α} {x : α} (hw : Valid threadNames s k w)
    (hnot : w.place ≠ .argument) (hloads : ∀ address, Loads threadNames s k address w.place ↔ array.load address = some x)
    (helement : array.elements[k]? = some x) {place : Place} (hplace : place ≠ .argument) :
    ∃ after, w.lookup array place = some after ∧ Valid threadNames s k after := by
  have hindex := hw.queueIndex hnot
  cases haddress : w.address with
  | none =>
    have hlookup : w.lookup array place = some { w with address := some (array.address w.queueIndex) } := by
      simp only [Worker.lookup, haddress]
    refine ⟨_, hlookup, fun heq => absurd heq hnot, fun _ => hindex, fun address hcomputed => ?_⟩
    obtain rfl := Option.some.inj hcomputed
    rw [hloads, GrowingArray.load_address, hindex, helement]
  | some address =>
    have hload := (hloads address).mp (hw.loads address haddress)
    have hlookup : w.lookup array place = some ⟨place, k, none⟩ := by
      simp only [Worker.lookup, haddress, hload, Option.map_some, hindex]
    exact ⟨_, hlookup, .of_no_address hplace⟩

namespace Prepared

/-- Every worker that has not exited goes on, and stays valid. -/
theorem work {queueCount argumentCount threadCount : ℕ}
    (h : Prepared threadNames s queueCount argumentCount threadCount) (hk : k < s.workers.length)
    (hw : Valid threadNames s k w) (hrunning : w.place ≠ .exited) (popped : Bool) :
    ∃ after, s.work popped w = some after ∧ Valid threadNames s k after := by
  obtain ⟨hthreads, harguments, hqueues, hlength⟩ := h.ordered
  have hqueue : s.threadQueues.elements[k]? = some k := by
    rw [h.queues, List.getElem?_range (by omega)]
  obtain ⟨name, hname⟩ : ∃ name, threadNames[k]? = some name := ⟨_, List.getElem?_eq_getElem (by omega)⟩
  have hthread : s.threads.elements[k]? = some name := by
    rw [h.threads, List.getElem?_take_of_lt (by omega), hname]
  have hloads : ∀ address, (∃ name, threadNames[k]? = some name ∧ s.threads.load address = some name) ↔
      s.threads.load address = some name := by
    simp [hname]
  obtain ⟨place, queueIndex, address⟩ := w
  cases place with
  | argument =>
    obtain ⟨address, rfl⟩ := Option.ne_none_iff_exists'.mp (hw.argument rfl)
    have hload : s.threadArguments.load address = some k := hw.loads address rfl
    exact ⟨⟨.logStarting, k, none⟩, by simp [PoolStartup.work, hload], .of_no_address nofun⟩
  | logStarting => exact hw.lookup nofun hloads hthread nofun
  | checkShuttingDown =>
    obtain rfl : queueIndex = k := hw.queueIndex nofun
    cases address with
    | some address => exact absurd (hw.loads address rfl) id
    | none =>
      refine ⟨_, rfl, .of_no_address ?_⟩
      split
      · nofun
      · nofun
  | tryPop =>
    refine hw.lookup nofun (fun _ => Iff.rfl) hqueue ?_
    cases popped with
    | false => nofun
    | true => nofun
  | logTask => exact hw.lookup nofun hloads hthread nofun
  | execute =>
    obtain rfl : queueIndex = k := hw.queueIndex nofun
    cases address with
    | some address => exact absurd (hw.loads address rfl) id
    | none => exact ⟨_, rfl, .of_no_address nofun⟩
  | logExiting => exact hw.lookup nofun hloads hthread nofun
  | exited => exact absurd rfl hrunning

/-- Arrays as long as the index of the loop, with room for all elements: a queue more. -/
theorem pushQueue {i : ℕ} (h : Prepared threadNames s i i i) (hi : i < threadNames.length) (creation : Creation) :
    Prepared threadNames { s with threadQueues := s.threadQueues.push i, creation := creation } (i + 1) i i := by
  obtain ⟨hqueueRoom, hargumentRoom, hthreadRoom⟩ := h.room
  have hroom : s.threadQueues.elements.length < s.threadQueues.capacity := by
    rw [h.queues, List.length_range]
    omega
  refine ⟨by simp [h.queues, List.range_succ], h.arguments, h.threads, ⟨?_, hargumentRoom, hthreadRoom⟩,
    ⟨h.ordered.1, le_rfl, Nat.le_succ i, hi⟩, fun k w hw => (h.valid k w hw).mono ⟨GrowingArray.extends_push _ hroom, .refl _, .refl _⟩⟩
  exact (GrowingArray.capacity_push i hroom).symm ▸ hqueueRoom

/-- An argument more. -/
theorem emplaceArgument {i : ℕ} (h : Prepared threadNames s (i + 1) i i) (creation : Creation) :
    Prepared threadNames { s with threadArguments := s.threadArguments.push i, creation := creation } (i + 1) (i + 1) i := by
  obtain ⟨hqueueRoom, hargumentRoom, hthreadRoom⟩ := h.room
  obtain ⟨hworkers, _, _, hi⟩ := h.ordered
  have hroom : s.threadArguments.elements.length < s.threadArguments.capacity := by
    rw [h.arguments, List.length_range]
    omega
  refine ⟨h.queues, by simp [h.arguments, List.range_succ], h.threads, ⟨hqueueRoom, ?_, hthreadRoom⟩,
    ⟨hworkers, Nat.le_succ i, le_rfl, hi⟩, fun k w hw => (h.valid k w hw).mono ⟨.refl _, GrowingArray.extends_push _ hroom, .refl _⟩⟩
  exact (GrowingArray.capacity_push i hroom).symm ▸ hargumentRoom

/-- A thread more. -/
theorem pushThread {i : ℕ} (h : Prepared threadNames s (i + 1) (i + 1) i) (creation : Creation) :
    Prepared threadNames { s with
      threads := s.threads.push (threadNames.getD s.threads.elements.length ""), creation := creation }
      (i + 1) (i + 1) (i + 1) := by
  obtain ⟨hqueueRoom, hargumentRoom, hthreadRoom⟩ := h.room
  obtain ⟨hworkers, _, _, hi⟩ := h.ordered
  have hlength : s.threads.elements.length = i := by
    rw [h.threads, List.length_take, min_eq_left (by omega)]
  have hroom : s.threads.elements.length < s.threads.capacity := by omega
  have hname : threadNames.getD i "" = threadNames[i] := by
    rw [List.getD_eq_getElem?_getD, List.getElem?_eq_getElem hi, Option.getD_some]
  refine ⟨h.queues, h.arguments, ?_, ⟨hqueueRoom, hargumentRoom, ?_⟩, ⟨hworkers.trans (Nat.le_succ i), le_rfl, le_rfl, hi⟩,
    fun k w hw => (h.valid k w hw).mono ⟨.refl _, .refl _, GrowingArray.extends_push _ hroom⟩⟩
  · simp only [GrowingArray.elements_push]
    rw [h.threads, List.length_take, min_eq_left (by omega), hname, List.take_append_getElem]
  · exact (GrowingArray.capacity_push _ hroom).symm ▸ hthreadRoom

/-- A worker more, which gets the address of its argument. -/
theorem start {i : ℕ} {argument : ElementAddress} (h : Prepared threadNames s (i + 1) (i + 1) (i + 1))
    (hargument : s.threadArguments.load argument = some i) (hworkers : s.workers.length = i) (creation : Creation) :
    Prepared threadNames { s with workers := s.workers ++ [⟨.argument, 0, some argument⟩], creation := creation }
      (i + 1) (i + 1) (i + 1) := by
  refine ⟨h.queues, h.arguments, h.threads, h.room, ⟨by simp [hworkers], h.ordered.2⟩, fun k w hw => ?_⟩
  rw [List.getElem?_append] at hw
  split at hw
  · exact (h.valid k w hw).mono ⟨.refl _, .refl _, .refl _⟩
  · obtain ⟨hk, rfl⟩ := List.getElem?_eq_some_iff.mp hw
    obtain rfl : k = i := by
      simp only [List.length_singleton] at hk
      omega
    simp only [List.getElem_singleton]
    refine ⟨nofun, fun hnot => absurd rfl hnot, fun address haddress => ?_⟩
    obtain rfl := Option.some.inj haddress
    exact hargument

/-- A worker that goes on, and stays valid. -/
theorem setWorker {queueCount argumentCount threadCount : ℕ}
    (h : Prepared threadNames s queueCount argumentCount threadCount) (hafter : Valid threadNames s k after) :
    Prepared threadNames { s with workers := s.workers.set k after } queueCount argumentCount threadCount := by
  refine ⟨h.queues, h.arguments, h.threads, h.room, ⟨by simpa using h.ordered.1, h.ordered.2⟩, fun j w hw => ?_⟩
  rw [List.getElem?_set] at hw
  split at hw
  · rename_i heq
    subst heq
    split at hw
    · obtain rfl := Option.some.inj hw
      exact hafter.mono ⟨.refl _, .refl _, .refl _⟩
    · cases hw
  · exact (h.valid j w hw).mono ⟨.refl _, .refl _, .refl _⟩

/-- The creation loop and the shutdown do not matter. -/
theorem control {queueCount argumentCount threadCount : ℕ}
    (h : Prepared threadNames s queueCount argumentCount threadCount) (creation : Creation) (isShuttingDown : Bool) :
    Prepared threadNames { s with creation := creation, isShuttingDown := isShuttingDown } queueCount argumentCount
      threadCount :=
  ⟨h.queues, h.arguments, h.threads, h.room, h.ordered,
    fun k w hw => (h.valid k w hw).mono ⟨.refl _, .refl _, .refl _⟩⟩

end Prepared

/-- The loop goes on with the next index, or is finished. -/
theorem Prepared.iteration {i : ℕ} (h : Prepared threadNames s i i i) (hworkers : s.workers.length = i)
    (hi : i ≤ threadNames.length) : Describes threadNames s (iteration threadNames i) := by
  unfold PoolStartup.iteration
  split
  · rename_i hlt
    exact ⟨hlt, hworkers, h⟩
  · obtain rfl : i = threadNames.length := by omega
    exact h

/-- Every step of the creating thread leads to a described state. -/
theorem Described.create (h : Described threadNames s) (hnext : create threadNames s = some t) :
    Described threadNames t := by
  unfold Described at h
  unfold PoolStartup.create at hnext
  cases hcreation : s.creation with
  | reserve =>
    rw [hcreation] at h hnext
    obtain ⟨hqueues, harguments, hthreads, hworkers⟩ := h
    obtain rfl := Option.some.inj hnext
    refine Prepared.iteration ⟨?_, ?_, ?_, ⟨GrowingArray.le_capacity_reserve .., GrowingArray.le_capacity_reserve ..,
      GrowingArray.le_capacity_reserve ..⟩, ?_, ?_⟩ (congrArg List.length hworkers) (Nat.zero_le _)
    · simp [hqueues]
    · simp [harguments]
    · simp [hthreads]
    · simp [hworkers]
    · simp [hworkers]
  | pushQueue i =>
    rw [hcreation] at h hnext
    obtain ⟨hi, hworkers, hprepared⟩ := h
    obtain rfl := Option.some.inj hnext
    exact ⟨hworkers, hprepared.pushQueue hi _⟩
  | emplaceArgument i =>
    rw [hcreation] at h hnext
    obtain ⟨hworkers, hprepared⟩ := h
    obtain rfl := Option.some.inj hnext
    exact ⟨hworkers, GrowingArray.load_back_push .., hprepared.emplaceArgument _⟩
  | newTask i =>
    rw [hcreation] at h hnext
    obtain ⟨hworkers, hargument, hprepared⟩ := h
    obtain rfl := Option.some.inj hnext
    exact ⟨hworkers, hargument, hprepared.control _ s.isShuttingDown⟩
  | pushThread i argument =>
    rw [hcreation] at h hnext
    obtain ⟨hworkers, hargument, hprepared⟩ := h
    obtain rfl := Option.some.inj hnext
    exact ⟨hworkers, hargument, hprepared.pushThread _⟩
  | start i argument =>
    rw [hcreation] at h hnext
    obtain ⟨hworkers, hargument, hprepared⟩ := h
    obtain rfl := Option.some.inj hnext
    exact (hprepared.start hargument hworkers _).iteration (by simp [hworkers]) hprepared.ordered.2.2.2
  | finished =>
    rw [hcreation] at hnext
    cases hnext
  | failed i =>
    rw [hcreation] at hnext
    cases hnext

/-- Whatever was appended, a worker can be replaced by a valid one. -/
theorem Describes.setWorker {creation : Creation} (h : Describes threadNames s creation)
    (hafter : Valid threadNames s k after) :
    Describes threadNames { s with workers := s.workers.set k after } creation := by
  have hlength : (s.workers.set k after).length = s.workers.length := List.length_set
  cases creation with
  | reserve =>
    obtain ⟨hqueues, harguments, hthreads, hworkers⟩ := h
    exact ⟨hqueues, harguments, hthreads, by simp [hworkers]⟩
  | pushQueue i =>
    obtain ⟨hi, hworkers, hprepared⟩ := h
    exact ⟨hi, hlength.trans hworkers, hprepared.setWorker hafter⟩
  | emplaceArgument i =>
    obtain ⟨hworkers, hprepared⟩ := h
    exact ⟨hlength.trans hworkers, hprepared.setWorker hafter⟩
  | newTask i =>
    obtain ⟨hworkers, hargument, hprepared⟩ := h
    exact ⟨hlength.trans hworkers, hargument, hprepared.setWorker hafter⟩
  | pushThread i argument =>
    obtain ⟨hworkers, hargument, hprepared⟩ := h
    exact ⟨hlength.trans hworkers, hargument, hprepared.setWorker hafter⟩
  | start i argument =>
    obtain ⟨hworkers, hargument, hprepared⟩ := h
    exact ⟨hlength.trans hworkers, hargument, hprepared.setWorker hafter⟩
  | finished => exact Prepared.setWorker h hafter
  | failed i => exact Prepared.setWorker h hafter

/-- As long as there are workers, the loop has appended what they need. -/
theorem Describes.prepared {creation : Creation} (h : Describes threadNames s creation) (hk : k < s.workers.length) :
    ∃ queueCount argumentCount threadCount, Prepared threadNames s queueCount argumentCount threadCount := by
  cases creation with
  | reserve =>
    obtain ⟨_, _, _, hworkers⟩ := h
    simp [hworkers] at hk
  | pushQueue i => exact ⟨_, _, _, h.2.2⟩
  | emplaceArgument i => exact ⟨_, _, _, h.2⟩
  | newTask i => exact ⟨_, _, _, h.2.2⟩
  | pushThread i argument => exact ⟨_, _, _, h.2.2⟩
  | start i argument => exact ⟨_, _, _, h.2.2⟩
  | finished => exact ⟨_, _, _, h⟩
  | failed i => exact ⟨_, _, _, h⟩

/-- Every worker is valid, and goes on if it has not exited. -/
theorem Described.work (h : Described threadNames s) (hw : s.workers[k]? = some w) :
    Valid threadNames s k w ∧ (w.place ≠ .exited → ∀ popped, ∃ after, s.work popped w = some after ∧
      Valid threadNames s k after) := by
  obtain ⟨hk, _⟩ := List.getElem?_eq_some_iff.mp hw
  obtain ⟨_, _, _, hprepared⟩ := Describes.prepared h hk
  have hvalid := hprepared.valid k w hw
  exact ⟨hvalid, fun hrunning popped => hprepared.work hk hvalid hrunning popped⟩

/-- Every step leads to a described state. -/
theorem Described.next (h : Described threadNames s) {label : Label} (hnext : PoolStartup.next threadNames label s = some t) :
    Described threadNames t := by
  cases label with
  | create => exact h.create hnext
  | createFails =>
    unfold Described at h
    simp only [PoolStartup.next] at hnext
    split at hnext
    · rename_i i argument hcreation
      obtain rfl := Option.some.inj hnext
      rw [hcreation] at h
      exact h.2.2.control _ s.isShuttingDown
    · cases hnext
  | shutdown =>
    unfold Described at h
    simp only [PoolStartup.next] at hnext
    split at hnext
    · rename_i hcreation
      obtain rfl := Option.some.inj hnext
      rw [hcreation] at h
      rw [Described, hcreation]
      exact Prepared.control h .finished true
    · rename_i i hcreation
      obtain rfl := Option.some.inj hnext
      rw [hcreation] at h
      rw [Described, hcreation]
      exact Prepared.control h (.failed i) true
    · cases hnext
  | worker k popped =>
    obtain ⟨w, hw, hnext⟩ := Option.bind_eq_some_iff.mp hnext
    obtain ⟨after, hafter, hnext⟩ := Option.bind_eq_some_iff.mp hnext
    obtain rfl := Option.some.inj hnext
    have hrunning : w.place ≠ .exited := fun hexited => by simp [PoolStartup.work, hexited] at hafter
    obtain ⟨after', hafter', hvalid⟩ := (h.work hw).2 hrunning popped
    obtain rfl := Option.some.inj (hafter'.symm.trans hafter)
    exact Describes.setWorker h hvalid

/-- While the pool is created and afterwards, whatever the interleaving of the creation loop with the workers that it has
started, and also where creating a thread fails: no worker loads from a dangling address or from behind the end of an
array, and what each loads is its own argument, its own name and its own queue; every worker that has not exited can go
on. When the loop is finished, the pool has the queues and threads of its names. -/
theorem accesses_valid (h : (poolStartup threadNames).Reachable s) :
    (∀ k w, s.workers[k]? = some w →
      (w.place ≠ .argument → w.queueIndex = k) ∧
      (∀ address, w.address = some address → Loads threadNames s k address w.place) ∧
      (w.place ≠ .exited → ∀ popped, ∃ t, PoolStartup.next threadNames (.worker k popped) s = some t)) ∧
    (s.creation = .finished →
      ThreadPool.mk (s.threads.elements.mapIdx fun k name => ⟨name, k⟩) s.threadQueues.elements.length =
        ThreadPool.initialise threadNames) := by
  have hdescribed : Described threadNames s := by
    have hinitial : Described threadNames initial := ⟨rfl, rfl, rfl, rfl⟩
    exact h.invariant hinitial fun label s t _ hs _ hnext => hs.next hnext
  refine ⟨fun k w hw => ?_, fun hfinished => ?_⟩
  · obtain ⟨hvalid, hgoesOn⟩ := hdescribed.work hw
    refine ⟨hvalid.queueIndex, hvalid.loads, fun hrunning popped => ?_⟩
    obtain ⟨after, hafter, _⟩ := hgoesOn hrunning popped
    exact ⟨{ s with workers := s.workers.set k after }, by simp [PoolStartup.next, hw, hafter]⟩
  · unfold Described at hdescribed
    rw [hfinished] at hdescribed
    obtain ⟨hqueues, _, hthreads, _⟩ := hdescribed
    rw [ThreadPool.initialise_eq, hqueues, hthreads, List.take_length, List.length_range]

/-- The first worker has computed the address of its name, and then the second thread is appended. -/
theorem accesses_valid_meanwhile : ∃ s, (poolStartup ["A", "B"]).Reachable s ∧ s.threads.elements = ["A", "B"] ∧
    ∃ address, s.workers[0]? = some ⟨.logStarting, 0, some address⟩ ∧ s.threads.load address = some "A" := by
  have hrun : ((poolStartup ["A", "B"]).run
      (List.replicate 6 .create ++ List.replicate 2 (.worker 0 false) ++ List.replicate 4 .create)
      (poolStartup ["A", "B"]).start).any (fun s => s.threads.elements == ["A", "B"] &&
        s.workers[0]? == some ⟨.logStarting, 0, some ⟨1, 0⟩⟩) = true := by decide
  obtain ⟨s, hreachable, htest⟩ := Machine.exists_reachable_of_run hrun
  obtain ⟨hthreads, hworker⟩ := Bool.and_eq_true_iff.mp htest
  obtain ⟨_, hloads, _⟩ := (accesses_valid hreachable).1 0 _ (eq_of_beq hworker)
  obtain ⟨name, hname, hload⟩ := hloads ⟨1, 0⟩ rfl
  obtain rfl : "A" = name := Option.some.inj hname
  exact ⟨s, hreachable, eq_of_beq hthreads, ⟨1, 0⟩, eq_of_beq hworker, hload⟩

end PoolStartup

end MatchingEngine
