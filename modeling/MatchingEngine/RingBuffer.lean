import MatchingEngine.Foundation.Circular
import MatchingEngine.Foundation.Machine

/-!
# The ring buffer

`tryPush` and `tryPop` take one step for each load or store of an index or a slot. Any
number of threads may push; the record of what was pushed lists the values in the order of
the stores of the write index.

The ring buffer is a queue as long as pushes exclude each other from a passed space check
to the store of the write index, and no check passes on an outdated write index. The
indices are exact for capacities that fit the source's index type.
-/

namespace MatchingEngine

/-- The ring buffer; a slot that was never stored to holds a default-constructed element. -/
structure RingBufferSPSCLockFree (T : Type*) where
  write : ℕ
  read : ℕ
  capacity : ℕ
  buffer : ℕ → Option T

namespace RingBufferSPSCLockFree

variable {T : Type*}

/-- A new ring buffer. -/
def ofCapacity (capacity : ℕ) : RingBufferSPSCLockFree T := ⟨0, 0, capacity, fun _ => none⟩

/-- The index after an index. -/
def increment (ring : RingBufferSPSCLockFree T) (n : ℕ) : ℕ := (n + 1) % ring.capacity

/-- The slots between the indices, in order. -/
def live (ring : RingBufferSPSCLockFree T) : List ℕ :=
  Circular.slots ring.capacity ring.read (Circular.distance ring.capacity ring.read ring.write)

/-- The elements between the indices, in order. -/
def contents (ring : RingBufferSPSCLockFree T) : List (Option T) := ring.live.map ring.buffer

/-- A push that loads the indices now finds no space. -/
def Full (ring : RingBufferSPSCLockFree T) : Prop := ring.increment ring.write = ring.read

instance (ring : RingBufferSPSCLockFree T) : Decidable ring.Full := inferInstanceAs (Decidable (_ = _))

/-- The next step of a call of `tryPush`, with the local variable set so far. -/
inductive PushState
  | loadWrite
  | loadRead (currentTail : ℕ)
  | storeSlot (currentTail : ℕ)
  | storeWrite (currentTail : ℕ)
deriving DecidableEq

/-- The next step of a call of `tryPop`, with the local variables set so far. -/
inductive PopState (T : Type*)
  | loadRead
  | loadWrite (currentHead : ℕ)
  | loadSlot (currentHead : ℕ)
  | storeRead (currentHead : ℕ) (element : Option T)

/-- A step of `tryPush`: the call goes on or returns. -/
def tryPushStep (ring : RingBufferSPSCLockFree T) (val : T) : PushState → RingBufferSPSCLockFree T × (PushState ⊕ Bool)
  | .loadWrite => (ring, .inl (.loadRead ring.write))
  | .loadRead currentTail =>
    if ring.increment currentTail ≠ ring.read then (ring, .inl (.storeSlot currentTail)) else (ring, .inr false)
  | .storeSlot currentTail =>
    ({ ring with buffer := Function.update ring.buffer currentTail (some val) }, .inl (.storeWrite currentTail))
  | .storeWrite currentTail => ({ ring with write := ring.increment currentTail }, .inr true)

/-- A step of `tryPop`: the call goes on, or returns with an element if there is one. -/
def tryPopStep (ring : RingBufferSPSCLockFree T) : PopState T → RingBufferSPSCLockFree T × (PopState T ⊕ Option (Option T))
  | .loadRead => (ring, .inl (.loadWrite ring.read))
  | .loadWrite currentHead => if currentHead = ring.write then (ring, .inr none) else (ring, .inl (.loadSlot currentHead))
  | .loadSlot currentHead => (ring, .inl (.storeRead currentHead (ring.buffer currentHead)))
  | .storeRead currentHead element => ({ ring with read := ring.increment currentHead }, .inr (some element))

/-- A push past its space check owns the slot at its tail. -/
def PushState.claims : PushState → Bool
  | loadWrite | loadRead _ => false
  | storeSlot _ | storeWrite _ => true

end RingBufferSPSCLockFree

/-- A ring buffer with its producers, its consumer, and records of the values pushed and popped. -/
structure SharedRing (ι T : Type*) where
  ring : RingBufferSPSCLockFree T
  producers : ι → Option (T × RingBufferSPSCLockFree.PushState)
  consumer : RingBufferSPSCLockFree.PopState T
  pushes : List T
  pops : List (Option T)

namespace SharedRing

open RingBufferSPSCLockFree

variable {ι T : Type*} [DecidableEq ι]

/-- A producer calls `tryPush` or takes a step of its call; the consumer takes a step of `tryPop`. -/
inductive Label (ι T : Type*)
  | tryPush (producer : ι) (val : T)
  | produce (producer : ι)
  | consume

/-- Nothing was pushed, and nobody pushes. -/
def initial (capacity : ℕ) : SharedRing ι T := ⟨.ofCapacity capacity, fun _ => none, .loadRead, [], []⟩

/-- A producer calls `tryPush`. -/
def tryPush (s : SharedRing ι T) (producer : ι) (val : T) : SharedRing ι T :=
  { s with producers := Function.update s.producers producer (some (val, .loadWrite)) }

/-- A producer takes a step of its call; the result is given when the call returns. -/
def produce (s : SharedRing ι T) (producer : ι) (val : T) (state : PushState) : SharedRing ι T × Option Bool :=
  match s.ring.tryPushStep val state with
  | (ring, .inl state) =>
    ({ s with ring := ring, producers := Function.update s.producers producer (some (val, state)) }, none)
  | (ring, .inr pushed) =>
    ({ s with
      ring := ring
      producers := Function.update s.producers producer none
      pushes := if pushed then s.pushes ++ [val] else s.pushes }, some pushed)

/-- The consumer takes a step of `tryPop`; the element is given when the call returns with one. -/
def consume (s : SharedRing ι T) : SharedRing ι T × Option (Option T) :=
  match s.ring.tryPopStep s.consumer with
  | (ring, .inl state) => ({ s with ring := ring, consumer := state }, none)
  | (ring, .inr none) => ({ s with ring := ring, consumer := .loadRead }, none)
  | (ring, .inr (some element)) =>
    ({ s with ring := ring, consumer := .loadRead, pops := s.pops ++ [element] }, some element)

/-- The steps of the threads. -/
def next : Label ι T → SharedRing ι T → Option (SharedRing ι T)
  | .tryPush producer val, s =>
    match s.producers producer with
    | none => some (s.tryPush producer val)
    | some _ => none
  | .produce producer, s => (s.producers producer).map fun (val, state) => (s.produce producer val state).1
  | .consume, s => some s.consume.1

end SharedRing

/-- The threads on one ring buffer. -/
def sharedRing (ι T : Type*) [DecidableEq ι] (capacity : ℕ) : Machine (SharedRing ι T) (SharedRing.Label ι T) where
  start := .initial capacity
  next := SharedRing.next

namespace SharedRing

open RingBufferSPSCLockFree

variable {ι T : Type*} {s t : SharedRing ι T}

@[simp] theorem tryPush_pushes [DecidableEq ι] (producer : ι) (val : T) : (s.tryPush producer val).pushes = s.pushes := rfl

@[simp] theorem tryPush_pops [DecidableEq ι] (producer : ι) (val : T) : (s.tryPush producer val).pops = s.pops := rfl

/-- A call that returns true has recorded the push. -/
theorem produce_returned [DecidableEq ι] {producer : ι} {val : T} {state : PushState}
    (h : (s.produce producer val state).2 = some true) :
    (s.produce producer val state).1.pushes = s.pushes ++ [val] ∧
      (s.produce producer val state).1.producers = Function.update s.producers producer none := by
  cases state with
  | loadWrite | storeSlot => cases h
  | loadRead currentTail =>
    by_cases hspace : s.ring.increment currentTail = s.ring.read
    · simp [produce, tryPushStep, hspace] at h
    · simp [produce, tryPushStep, hspace] at h
  | storeWrite currentTail => exact ⟨rfl, rfl⟩

/-- A call that goes on, or returns false, has not pushed. -/
theorem produce_running [DecidableEq ι] {producer : ι} {val : T} {state : PushState}
    (h : (s.produce producer val state).2 ≠ some true) :
    (s.produce producer val state).1.pushes = s.pushes ∧
      ∃ current, (s.produce producer val state).1.producers = Function.update s.producers producer current ∧
        (current = none ∨ ∃ state, current = some (val, state)) := by
  cases state with
  | loadWrite | storeSlot => exact ⟨rfl, _, rfl, Or.inr ⟨_, rfl⟩⟩
  | loadRead currentTail =>
    simp only [produce, tryPushStep]
    by_cases hspace : s.ring.increment currentTail = s.ring.read
    · simp only [ne_eq, hspace, not_true_eq_false, if_false]
      exact ⟨rfl, _, rfl, Or.inl rfl⟩
    · simp only [ne_eq, hspace, not_false_eq_true, if_true]
      exact ⟨trivial, _, rfl, Or.inr ⟨_, rfl⟩⟩
  | storeWrite currentTail => exact absurd rfl h

/-- Only the call of the producer that steps changes. -/
theorem produce_producers [DecidableEq ι] (producer : ι) (val : T) (state : PushState) :
    ∃ current, (s.produce producer val state).1.producers = Function.update s.producers producer current ∧
      (current = none ∨ ∃ state, current = some (val, state)) := by
  by_cases hreturned : (s.produce producer val state).2 = some true
  · exact ⟨none, (produce_returned hreturned).2, Or.inl rfl⟩
  · exact (produce_running hreturned).2

/-- A producer that has just loaded the write index knows its current value. -/
theorem produce_current [DecidableEq ι] {producer : ι} {val other : T} {state : PushState} {currentTail : ℕ}
    (h : (s.produce producer val state).1.producers producer = some (other, .loadRead currentTail)) :
    currentTail = (s.produce producer val state).1.ring.write := by
  cases state with
  | loadWrite =>
    simp only [produce, tryPushStep, Function.update_self, Option.some.injEq, Prod.mk.injEq, PushState.loadRead.injEq] at h
    exact h.2.symm
  | loadRead tail =>
    by_cases hspace : s.ring.increment tail = s.ring.read
    · simp [produce, tryPushStep, hspace] at h
    · simp [produce, tryPushStep, hspace] at h
  | storeSlot tail => simp [produce, tryPushStep] at h
  | storeWrite tail => simp [produce, tryPushStep] at h

/-- A producer does not pop. -/
@[simp] theorem produce_pops [DecidableEq ι] (producer : ι) (val : T) (state : PushState) :
    (s.produce producer val state).1.pops = s.pops := by
  unfold produce
  split <;> rfl

@[simp] theorem produce_capacity [DecidableEq ι] (producer : ι) (val : T) (state : PushState) :
    (s.produce producer val state).1.ring.capacity = s.ring.capacity := by
  cases state with
  | loadRead currentTail =>
    by_cases hspace : s.ring.increment currentTail = s.ring.read
    · simp [produce, tryPushStep, hspace]
    · simp [produce, tryPushStep, hspace]
  | _ => rfl

/-- The consumer does not push. -/
@[simp] theorem consume_pushes : s.consume.1.pushes = s.pushes := by
  unfold consume
  split <;> rfl

@[simp] theorem consume_producers : s.consume.1.producers = s.producers := by
  unfold consume
  split <;> rfl

/-- A step of the consumer changes the read index at most. -/
theorem consume_ring : ∃ read, s.consume.1.ring = { s.ring with read := read } := by
  unfold consume tryPopStep
  cases s.consumer with
  | loadWrite currentHead =>
    by_cases hempty : currentHead = s.ring.write
    · exact ⟨s.ring.read, by simp [hempty]⟩
    · exact ⟨s.ring.read, by simp [hempty]⟩
  | loadRead => exact ⟨s.ring.read, rfl⟩
  | loadSlot currentHead => exact ⟨s.ring.read, rfl⟩
  | storeRead currentHead element => exact ⟨_, rfl⟩

@[simp] theorem consume_write : s.consume.1.ring.write = s.ring.write := by
  obtain ⟨read, hring⟩ := s.consume_ring
  rw [hring]

@[simp] theorem consume_capacity : s.consume.1.ring.capacity = s.ring.capacity := by
  obtain ⟨read, hring⟩ := s.consume_ring
  rw [hring]

/-- What the consumer has popped after a step. -/
theorem consume_pops : s.consume.1.pops = s.pops ++ s.consume.2.toList := by
  unfold consume
  split <;> simp

/-- A producer is between its passed space check and its store of the write index. -/
def Claims (s : SharedRing ι T) (producer : ι) : Prop :=
  ∃ val state, s.producers producer = some (val, state) ∧ state.claims = true

/-- What a step of another producer does not change. -/
theorem claims_of_ne [DecidableEq ι] {producer other : ι} (hne : other ≠ producer) (val : T) (state : PushState) :
    (s.produce producer val state).1.Claims other ↔ s.Claims other := by
  obtain ⟨current, hupdate, _⟩ := s.produce_producers producer val state
  simp only [Claims, hupdate, Function.update_of_ne hne]

/-- A producer owns a slot until its call returns true. -/
theorem claims_of_returned [DecidableEq ι] {producer : ι} {val : T} {state : PushState}
    (hproducer : s.producers producer = some (val, state)) (h : (s.produce producer val state).2 = some true) :
    s.Claims producer ∧ ¬ (s.produce producer val state).1.Claims producer := by
  refine ⟨⟨val, state, hproducer, ?_⟩, fun ⟨_, _, hstate, _⟩ => ?_⟩
  · cases state with
    | loadWrite => cases h
    | loadRead currentTail =>
      by_cases hspace : s.ring.increment currentTail = s.ring.read
      · simp [produce, tryPushStep, hspace] at h
      · simp [produce, tryPushStep, hspace] at h
    | storeSlot | storeWrite => rfl
  · simp [(produce_returned h).2] at hstate

/-- A producer comes to own a slot when its space check passes, and keeps it while its call goes on. -/
theorem claims_of_running [DecidableEq ι] {producer : ι} {val : T} {state : PushState}
    (hproducer : s.producers producer = some (val, state)) (h : (s.produce producer val state).2 ≠ some true) :
    (s.produce producer val state).1.Claims producer ↔ s.Claims producer ∨
      ∃ currentTail, state = .loadRead currentTail ∧ s.ring.increment currentTail ≠ s.ring.read := by
  have hclaims : s.Claims producer ↔ state.claims = true := by
    simp only [Claims, hproducer, Option.some.injEq, Prod.mk.injEq]
    exact ⟨fun ⟨_, _, ⟨_, heq⟩, hstate⟩ => heq ▸ hstate, fun hstate => ⟨_, _, ⟨rfl, rfl⟩, hstate⟩⟩
  rw [hclaims]
  cases state with
  | loadWrite => simp [produce, tryPushStep, Claims, PushState.claims]
  | loadRead currentTail =>
    by_cases hspace : s.ring.increment currentTail = s.ring.read
    · simp [produce, tryPushStep, Claims, PushState.claims, hspace]
    · simp [produce, tryPushStep, Claims, PushState.claims, hspace]
  | storeSlot currentTail => simp [produce, tryPushStep, Claims, PushState.claims]
  | storeWrite currentTail => exact absurd rfl h

/-- Only checks against the current write index pass, and only while no other producer owns a slot. -/
def Exclusive : Label ι T → SharedRing ι T → Prop
  | .tryPush _ _, _ | .consume, _ => True
  | .produce producer, s =>
    ∀ val currentTail, s.producers producer = some (val, .loadRead currentTail) →
      s.ring.increment currentTail ≠ s.ring.read →
      currentTail = s.ring.write ∧ ∀ other, other ≠ producer → ¬ s.Claims other

/-- What holds of a producer: past the check it owns the slot at the write index. -/
def Owns (s : SharedRing ι T) : Option (T × PushState) → Prop
  | none | some (_, .loadWrite) | some (_, .loadRead _) => True
  | some (_, .storeSlot currentTail) =>
    currentTail = s.ring.write ∧ s.pushes.length + 1 < s.pops.length + s.ring.capacity
  | some (val, .storeWrite currentTail) =>
    currentTail = s.ring.write ∧ s.pushes.length + 1 < s.pops.length + s.ring.capacity ∧
      s.ring.buffer currentTail = some val

/-- A producer keeps what it owns while the write index and the slots do not change. -/
theorem Owns.mono {current : Option (T × PushState)} (h : s.Owns current) (hwrite : t.ring.write = s.ring.write)
    (hbuffer : t.ring.buffer = s.ring.buffer)
    (hspace : s.pushes.length + 1 < s.pops.length + s.ring.capacity →
      t.pushes.length + 1 < t.pops.length + t.ring.capacity) : t.Owns current := by
  match current with
  | none | some (_, .loadWrite) | some (_, .loadRead _) => trivial
  | some (_, .storeSlot _) => exact ⟨h.1.trans hwrite.symm, hspace h.2⟩
  | some (_, .storeWrite _) => exact ⟨h.1.trans hwrite.symm, hspace h.2.1, hbuffer ▸ h.2.2⟩

/-- A producer without a claim owns nothing. -/
theorem owns_of_not_claims {producer : ι} (h : ¬ s.Claims producer) : t.Owns (s.producers producer) := by
  match hstate : s.producers producer with
  | none | some (_, .loadWrite) | some (_, .loadRead _) => trivial
  | some (_, .storeSlot _) | some (_, .storeWrite _) => exact absurd ⟨_, _, hstate, rfl⟩ h

/-- What holds of the consumer: past the check there is something to pop. -/
def Pops (s : SharedRing ι T) : PopState T → Prop
  | .loadRead => True
  | .loadWrite currentHead => currentHead = s.ring.read
  | .loadSlot currentHead => currentHead = s.ring.read ∧ s.pops.length < s.pushes.length
  | .storeRead currentHead element =>
    currentHead = s.ring.read ∧ s.pops.length < s.pushes.length ∧ element = s.pushes[s.pops.length]?

/-- The invariant of a ring buffer that works as a queue. -/
structure Fifo (s : SharedRing ι T) : Prop where
  write : s.ring.write = s.pushes.length % s.ring.capacity
  read : s.ring.read = s.pops.length % s.ring.capacity
  popped : s.pops = (s.pushes.take s.pops.length).map some
  bounded : s.pushes.length < s.pops.length + s.ring.capacity
  stored : (Circular.slots s.ring.capacity s.pops.length (s.pushes.length - s.pops.length)).map s.ring.buffer =
    (s.pushes.drop s.pops.length).map some
  owns : ∀ producer, s.Owns (s.producers producer)
  exclusive : ∀ producer other, s.Claims producer → s.Claims other → producer = other
  consumer : s.Pops s.consumer

namespace Fifo

variable (h : s.Fifo)
include h

/-- Not more was popped than pushed. -/
theorem pops_le : s.pops.length ≤ s.pushes.length := by
  have hlength := congrArg List.length h.popped
  rw [List.length_map, List.length_take] at hlength
  omega

/-- The number of elements determines the indices. -/
theorem exists_count : ∃ count, s.pushes.length = s.pops.length + count ∧ count < s.ring.capacity ∧
    s.pushes.length - s.pops.length = count := by
  have hle := h.pops_le
  have hlt := h.bounded
  exact ⟨s.pushes.length - s.pops.length, by omega, by omega, rfl⟩

/-- The live slots are those of the values that were pushed and not yet popped. -/
theorem live_eq : s.ring.live = Circular.slots s.ring.capacity s.pops.length (s.pushes.length - s.pops.length) := by
  obtain ⟨count, hpushes, hcount, hsub⟩ := h.exists_count
  rw [live, h.read, h.write, hsub, hpushes, Circular.distance_mod hcount, Circular.slots_mod]

/-- What was popped and what the ring buffer holds is what was pushed. -/
theorem pops_append_contents : s.pops ++ s.ring.contents = s.pushes.map some := by
  rw [contents, h.live_eq, h.stored]
  nth_rewrite 1 [h.popped]
  rw [← List.map_append, List.take_append_drop]

/-- The ring buffer holds what was pushed last. -/
theorem contents_eq : s.ring.contents = (s.pushes.drop s.pops.length).map some := by
  rw [contents, h.live_eq, h.stored]

/-- The ring buffer holds as many elements as were pushed and not yet popped. -/
theorem contents_length : s.pops.length + s.ring.contents.length = s.pushes.length := by
  have hlength := congrArg List.length h.pops_append_contents
  rwa [List.length_append, List.length_map] at hlength

/-- A push to a queue that works adds an element when it returns true. -/
theorem produce_contents_length [DecidableEq ι] {producer : ι} {val : T} {state : PushState}
    (hafter : (s.produce producer val state).1.Fifo) :
    (s.produce producer val state).1.ring.contents.length =
      s.ring.contents.length + if (s.produce producer val state).2 = some true then 1 else 0 := by
  have hbefore := h.contents_length
  have hlength := hafter.contents_length
  rw [produce_pops] at hlength
  split
  · rename_i hreturned
    rw [(produce_returned hreturned).1, List.length_append, List.length_singleton] at hlength
    omega
  · rename_i hrunning
    rw [(produce_running hrunning).1] at hlength
    omega

/-- A pop from a queue that works removes an element when it returns one. -/
theorem consume_contents_length (hafter : s.consume.1.Fifo) :
    s.consume.1.ring.contents.length + s.consume.2.toList.length = s.ring.contents.length := by
  have hbefore := h.contents_length
  have hlength := hafter.contents_length
  rw [consume_pushes, consume_pops, List.length_append] at hlength
  omega

/-- A producer that owns a slot leaves one of the others free. -/
theorem space_of_claims {producer : ι} (hclaims : s.Claims producer) :
    s.ring.contents.length + 1 < s.ring.capacity := by
  obtain ⟨val, state, hproducer, hstate⟩ := hclaims
  have howns := h.owns producer
  have hlength := h.contents_length
  rw [hproducer] at howns
  cases state with
  | loadWrite | loadRead => cases hstate
  | storeSlot currentTail =>
    have hspace := howns.2
    omega
  | storeWrite currentTail =>
    have hspace := howns.2.1
    omega

/-- A ring buffer holds one element less than its capacity when it is full. -/
theorem full_iff : s.ring.Full ↔ s.ring.contents.length + 1 = s.ring.capacity := by
  obtain ⟨count, hpushes, hcount, _⟩ := h.exists_count
  have hlength := h.contents_length
  rw [Full, increment, h.read, h.write, Nat.mod_add_mod, hpushes, Circular.next_mod_eq_iff hcount]
  omega

/-- A producer that is about to store does not overwrite a live slot. -/
theorem not_mem_live {producer : ι} {val : T} {currentTail : ℕ}
    (hproducer : s.producers producer = some (val, .storeSlot currentTail)) : currentTail ∉ s.ring.live := by
  obtain ⟨count, hpushes, hcount, hsub⟩ := h.exists_count
  have howns := h.owns producer
  rw [hproducer] at howns
  rw [howns.1, h.live_eq, h.write, hsub, hpushes]
  exact Circular.not_mem_slots hcount

/-- The oldest element that was pushed and not yet popped is in the slot at the read index. -/
theorem buffer_read (hlt : s.pops.length < s.pushes.length) : s.ring.buffer s.ring.read = s.pushes[s.pops.length]? := by
  have hstored := h.stored
  obtain ⟨count, hcount⟩ : ∃ count, s.pushes.length - s.pops.length = count + 1 :=
    ⟨s.pushes.length - s.pops.length - 1, by omega⟩
  rw [hcount, Circular.slots_succ, ← h.read, List.drop_eq_getElem_cons hlt, List.map_cons, List.map_cons] at hstored
  rw [List.getElem?_eq_getElem hlt]
  exact (List.cons.inj hstored).1

omit h

/-- A new ring buffer works as a queue. -/
theorem initial {capacity : ℕ} (hcapacity : 0 < capacity) : (initial capacity : SharedRing ι T).Fifo where
  write := (Nat.zero_mod _).symm
  read := (Nat.zero_mod _).symm
  popped := rfl
  bounded := by simpa [SharedRing.initial, ofCapacity] using hcapacity
  stored := rfl
  owns _ := trivial
  exclusive := by simp [Claims, SharedRing.initial]
  consumer := trivial

/-- The consumer goes on without touching the ring buffer. -/
theorem setConsumer (h : s.Fifo) {consumer : PopState T} (hconsumer : s.Pops consumer) : { s with consumer := consumer }.Fifo :=
  ⟨h.write, h.read, h.popped, h.bounded, h.stored, h.owns, h.exclusive, hconsumer⟩

/-- The consumer stores the index after the element it has read. -/
theorem storeRead (h : s.Fifo) {currentHead : ℕ} {element : Option T}
    (hconsumer : s.Pops (.storeRead currentHead element)) :
    { s with
      ring := { s.ring with read := s.ring.increment currentHead }
      consumer := .loadRead
      pops := s.pops ++ [element] }.Fifo := by
  obtain ⟨rfl, hlt, rfl⟩ := hconsumer
  have hstored := h.stored
  obtain ⟨count, hcount⟩ : ∃ count, s.pushes.length - s.pops.length = count + 1 :=
    ⟨s.pushes.length - s.pops.length - 1, by omega⟩
  rw [hcount, Circular.slots_succ, List.drop_eq_getElem_cons hlt, List.map_cons, List.map_cons] at hstored
  have hcount' : s.pushes.length - (s.pops.length + 1) = count := by omega
  have hlength : (s.pops ++ [s.pushes[s.pops.length]?]).length = s.pops.length + 1 := List.length_append
  refine ⟨h.write, ?_, ?_, ?_, ?_, fun producer => ?_, h.exclusive, trivial⟩
  · simp only [increment, hlength]
    rw [h.read, Nat.mod_add_mod]
  · rw [hlength, List.take_add_one, List.map_append, ← h.popped, List.getElem?_eq_getElem hlt]
    rfl
  · simp only [hlength]
    have hbounded := h.bounded
    omega
  · simp only [hlength, hcount']
    exact (List.cons.inj hstored).2
  · refine (h.owns producer).mono rfl rfl fun hspace => ?_
    simp only [hlength]
    omega

/-- A step of the consumer keeps the invariant. -/
theorem consume (h : s.Fifo) : s.consume.1.Fifo := by
  have hconsumer := h.consumer
  unfold SharedRing.consume
  match hstate : s.consumer with
  | .loadRead => exact h.setConsumer rfl
  | .loadWrite currentHead =>
    rw [hstate] at hconsumer
    simp only [tryPopStep]
    by_cases hempty : currentHead = s.ring.write
    · simp only [hempty, if_true]
      exact h.setConsumer trivial
    · simp only [hempty, if_false]
      obtain ⟨count, hpushes, hcount, _⟩ := h.exists_count
      rw [hconsumer, h.read, h.write, hpushes, Circular.mod_eq_iff hcount] at hempty
      exact h.setConsumer ⟨hconsumer, by omega⟩
  | .loadSlot currentHead =>
    rw [hstate] at hconsumer
    obtain ⟨rfl, hlt⟩ := hconsumer
    exact h.setConsumer ⟨rfl, hlt, h.buffer_read hlt⟩
  | .storeRead currentHead element =>
    rw [hstate] at hconsumer
    exact h.storeRead hconsumer

variable [DecidableEq ι]

/-- Claims of the producers after one of them moved. -/
theorem claims_update {producer other : ι} {current : Option (T × PushState)}
    (hproducers : t.producers = Function.update s.producers producer current) (hother : t.Claims other) :
    (other = producer ∧ ∃ val state, current = some (val, state) ∧ state.claims = true) ∨
      other ≠ producer ∧ s.Claims other := by
  obtain ⟨val, state, hstate, hclaims⟩ := hother
  rw [hproducers] at hstate
  by_cases heq : other = producer
  · subst heq
    simp only [Function.update_self] at hstate
    exact Or.inl ⟨rfl, val, state, hstate, hclaims⟩
  · simp only [Function.update_of_ne heq] at hstate
    exact Or.inr ⟨heq, val, state, hstate, hclaims⟩

/-- A producer goes on without touching the ring buffer. -/
theorem setProducer (h : s.Fifo) {producer : ι} {current : Option (T × PushState)} (howns : s.Owns current)
    (hexclusive : ∀ val state, current = some (val, state) → state.claims = true →
      ∀ other, other ≠ producer → ¬ s.Claims other) :
    { s with producers := Function.update s.producers producer current }.Fifo := by
  refine ⟨h.write, h.read, h.popped, h.bounded, h.stored, fun other => ?_, fun i j hi hj => ?_, h.consumer⟩
  · by_cases heq : other = producer
    · subst heq
      simp only [Function.update_self]
      exact howns
    · simp only [Function.update_of_ne heq]
      exact h.owns other
  · rcases claims_update rfl hi with ⟨rfl, val, state, hcurrent, hclaims⟩ | ⟨hi, hclaimsi⟩
    · rcases claims_update rfl hj with ⟨rfl, _⟩ | ⟨hj, hclaimsj⟩
      · rfl
      · exact absurd hclaimsj (hexclusive val state hcurrent hclaims j hj)
    · rcases claims_update rfl hj with ⟨rfl, val, state, hcurrent, hclaims⟩ | ⟨hj, hclaimsj⟩
      · exact absurd hclaimsi (hexclusive val state hcurrent hclaims i hi)
      · exact h.exclusive i j hclaimsi hclaimsj

/-- A producer stores its value in the slot it owns. -/
theorem storeSlot (h : s.Fifo) {producer : ι} {val : T} {currentTail : ℕ}
    (hproducer : s.producers producer = some (val, .storeSlot currentTail)) :
    { s with
      ring := { s.ring with buffer := Function.update s.ring.buffer currentTail (some val) }
      producers := Function.update s.producers producer (some (val, .storeWrite currentTail)) }.Fifo := by
  have howns := h.owns producer
  rw [hproducer] at howns
  have hclaims : s.Claims producer := ⟨val, _, hproducer, rfl⟩
  have hlive := h.not_mem_live hproducer
  rw [h.live_eq] at hlive
  have hkept : ∀ i ∈ Circular.slots s.ring.capacity s.pops.length (s.pushes.length - s.pops.length),
      Function.update s.ring.buffer currentTail (some val) i = s.ring.buffer i := fun i hi =>
    Function.update_of_ne (fun heq : i = currentTail => hlive (heq ▸ hi)) ..
  refine ⟨h.write, h.read, h.popped, h.bounded, ?_, fun other => ?_, fun i j hi hj => ?_, ?_⟩
  · simp only [List.map_congr_left hkept]
    exact h.stored
  · by_cases heq : other = producer
    · subst heq
      simp only [Function.update_self]
      exact ⟨howns.1, howns.2, Function.update_self ..⟩
    · -- No other producer owns a slot, so that it does not matter which slot was stored to.
      simp only [Function.update_of_ne heq]
      exact owns_of_not_claims fun hother => heq (h.exclusive other producer hother hclaims)
  · rcases claims_update rfl hi with ⟨rfl, _⟩ | ⟨_, hclaimsi⟩
    · rcases claims_update rfl hj with ⟨rfl, _⟩ | ⟨_, hclaimsj⟩
      · rfl
      · exact h.exclusive i j hclaims hclaimsj
    · rcases claims_update rfl hj with ⟨rfl, _⟩ | ⟨_, hclaimsj⟩
      · exact h.exclusive i j hclaimsi hclaims
      · exact h.exclusive i j hclaimsi hclaimsj
  · have hconsumer := h.consumer
    match hstate : s.consumer with
    | .loadRead => trivial
    | .loadWrite _ | .loadSlot _ | .storeRead _ _ =>
      rw [hstate] at hconsumer
      exact hconsumer

/-- A producer publishes the value it has stored. -/
theorem storeWrite (h : s.Fifo) {producer : ι} {val : T} {currentTail : ℕ}
    (hproducer : s.producers producer = some (val, .storeWrite currentTail)) :
    { s with
      ring := { s.ring with write := s.ring.increment currentTail }
      producers := Function.update s.producers producer none
      pushes := s.pushes ++ [val] }.Fifo := by
  obtain ⟨count, hpushes, hcount, hsub⟩ := h.exists_count
  have howns := h.owns producer
  rw [hproducer] at howns
  obtain ⟨rfl, hspace, hslot⟩ := howns
  have hclaims : s.Claims producer := ⟨val, _, hproducer, rfl⟩
  have hpops := h.pops_le
  have hlength : (s.pushes ++ [val]).length = s.pushes.length + 1 := List.length_append
  have hsub' : s.pushes.length + 1 - s.pops.length = count + 1 := by omega
  refine ⟨?_, h.read, ?_, ?_, ?_, fun other => ?_, fun i j hi hj => ?_, ?_⟩
  · simp only [increment, hlength]
    rw [h.write, Nat.mod_add_mod]
  · rw [List.take_append_of_le_length hpops]
    exact h.popped
  · simp only [hlength]
    omega
  · have hstored := h.stored
    rw [hsub] at hstored
    simp only [hlength, hsub']
    rw [Circular.slots_concat, List.map_append, hstored, ← hpushes, ← h.write, List.map_singleton, hslot,
      List.drop_append_of_le_length hpops, List.map_append, List.map_singleton]
  · by_cases heq : other = producer
    · subst heq
      simp only [Function.update_self]
      trivial
    · simp only [Function.update_of_ne heq]
      exact owns_of_not_claims fun hother => heq (h.exclusive other producer hother hclaims)
  · rcases claims_update rfl hi with ⟨_, _, _, hnone, _⟩ | ⟨_, hi⟩
    · cases hnone
    · rcases claims_update rfl hj with ⟨_, _, _, hnone, _⟩ | ⟨_, hj⟩
      · cases hnone
      · exact h.exclusive i j hi hj
  · have hconsumer := h.consumer
    match hstate : s.consumer with
    | .loadRead => trivial
    | .loadWrite _ =>
      rw [hstate] at hconsumer
      exact hconsumer
    | .loadSlot _ =>
      rw [hstate] at hconsumer
      exact ⟨hconsumer.1, by simp only [hlength]; omega⟩
    | .storeRead _ _ =>
      rw [hstate] at hconsumer
      obtain ⟨hhead, hlt, helement⟩ := hconsumer
      exact ⟨hhead, by simp only [hlength]; omega, by rw [helement, List.getElem?_append_left hlt]⟩

/-- A step of a push keeps the invariant if its check passes at most on the current write index and while
no other producer owns a slot. -/
theorem produce (h : s.Fifo) {producer : ι} {val : T} {state : PushState}
    (hproducer : s.producers producer = some (val, state)) (hexclusive : Exclusive (.produce producer) s) :
    (s.produce producer val state).1.Fifo := by
  cases state with
  | loadWrite => exact h.setProducer trivial fun _ _ hstate hclaims => by cases hstate; cases hclaims
  | loadRead currentTail =>
    simp only [SharedRing.produce, tryPushStep]
    by_cases hspace : s.ring.increment currentTail = s.ring.read
    · simp only [ne_eq, hspace, not_true_eq_false, if_false]
      exact h.setProducer trivial fun _ _ hstate => by cases hstate
    · simp only [ne_eq, hspace, not_false_eq_true, if_true]
      obtain ⟨rfl, hothers⟩ := hexclusive val currentTail hproducer hspace
      obtain ⟨count, hpushes, hcount, _⟩ := h.exists_count
      rw [increment, h.read, h.write, Nat.mod_add_mod, hpushes, Circular.next_mod_eq_iff hcount] at hspace
      exact h.setProducer ⟨rfl, by omega⟩ fun _ _ _ _ => hothers
  | storeSlot currentTail => exact h.storeSlot hproducer
  | storeWrite currentTail => exact h.storeWrite hproducer

/-- A call of `tryPush` keeps the invariant. -/
theorem tryPush (h : s.Fifo) (producer : ι) (val : T) : (s.tryPush producer val).Fifo :=
  h.setProducer trivial fun _ _ hstate hclaims => by cases hstate; cases hclaims

/-- Every step of a run in which pushes exclude each other keeps the invariant. -/
theorem next (h : s.Fifo) {label : Label ι T} (hexclusive : Exclusive label s) (hnext : SharedRing.next label s = some t) :
    t.Fifo := by
  cases label with
  | tryPush producer val =>
    simp only [SharedRing.next] at hnext
    split at hnext
    · exact Option.some.inj hnext ▸ h.tryPush producer val
    · cases hnext
  | produce producer =>
    obtain ⟨⟨val, state⟩, hproducer, hnext⟩ := Option.map_eq_some_iff.mp hnext
    exact hnext ▸ h.produce hproducer hexclusive
  | consume => exact Option.some.inj hnext ▸ h.consume

end Fifo

end SharedRing

end MatchingEngine
