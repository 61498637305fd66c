import MatchingEngine.Foundation.Circular
import MatchingEngine.Foundation.Queue
import MatchingEngine.Foundation.Tally

/-!
# The blocking ring buffer

Any number of threads push and pop. A critical section is one step: it tests the predicate of
its wait and either works on the ring buffer or lets the thread wait. Waking up and notifying,
after the lock is released, are steps of their own; a thread that woke up tests its predicate
again, as one that has just called does. Threads may also wake up without a notification.

No wake-up is lost: while a thread waits to pop, each element has a thread that will notify or
test the predicate, and while a thread waits to push, so has each free slot.
-/

namespace MatchingEngine

/-- The ring buffer; a slot that was never stored to holds a default-constructed element. -/
structure RingBufferMPMC (T : Type*) where
  capacity : ℕ
  front : ℕ
  rear : ℕ
  count : ℕ
  buffer : ℕ → Option T

namespace RingBufferMPMC

variable {T : Type*}

/-- A new ring buffer. -/
def ofCapacity (capacity : ℕ) : RingBufferMPMC T := ⟨capacity, 0, 0, 0, fun _ => none⟩

/-- The index after an index. -/
def increment (ring : RingBufferMPMC T) (n : ℕ) : ℕ := (n + 1) % ring.capacity

/-- The critical section of `push`; none where the predicate of its wait does not hold. -/
def push (ring : RingBufferMPMC T) (data : T) : Option (RingBufferMPMC T) :=
  if ring.count ≠ ring.capacity then some { ring with
    buffer := Function.update ring.buffer ring.rear (some data)
    rear := ring.increment ring.rear
    count := ring.count + 1 }
  else none

/-- The critical section of `pop`; none where the predicate of its wait does not hold. -/
def pop (ring : RingBufferMPMC T) : Option (RingBufferMPMC T × Option T) :=
  if ring.count ≠ 0 then
    some ({ ring with front := ring.increment ring.front, count := ring.count - 1 }, ring.buffer ring.front)
  else none

/-- The elements in the ring buffer, in order. -/
def contents (ring : RingBufferMPMC T) : List (Option T) :=
  (Circular.slots ring.capacity ring.front ring.count).map ring.buffer

/-- The count is the number of the elements. -/
theorem contents_length (ring : RingBufferMPMC T) : ring.contents.length = ring.count := by
  rw [contents, List.length_map, Circular.slots_length]

/-- The next step of a call: the critical section, or waking up, or the notification. -/
inductive CallState (T : Type*)
  | push (data : T)
  | pushWaiting (data : T)
  | pushNotify
  | pop
  | popWaiting
  | popNotify (result : Option T)
deriving DecidableEq

/-- The thread waits until the ring buffer is not full. -/
def CallState.waitsNotFull : CallState T → Bool
  | pushWaiting _ => true
  | push _ | pushNotify | pop | popWaiting | popNotify _ => false

/-- The thread waits until the ring buffer is not empty. -/
def CallState.waitsNotEmpty : CallState T → Bool
  | popWaiting => true
  | push _ | pushWaiting _ | pushNotify | pop | popNotify _ => false

/-- A waiting thread wakes up. -/
def CallState.wake : CallState T → Option (CallState T)
  | pushWaiting data => some (push data)
  | popWaiting => some pop
  | push _ | pushNotify | pop | popNotify _ => none

end RingBufferMPMC

/-- A ring buffer with the calls of the threads, and records of the values pushed and popped, in the order in which the
calls took the lock. -/
structure SharedBuffer (ι T : Type*) where
  ring : RingBufferMPMC T
  calls : ι → Option (RingBufferMPMC.CallState T)
  pushes : List T
  pops : List (Option T)

namespace SharedBuffer

open RingBufferMPMC

variable {ι T : Type*} [DecidableEq ι]

/-- A thread calls `push` or `pop`; it makes its critical section; it notifies, which wakes up a waiting thread if there
is one; it wakes up without a notification. -/
inductive Label (ι T : Type*)
  | push (thread : ι) (data : T)
  | pop (thread : ι)
  | lock (thread : ι)
  | notify (thread : ι) (woken : Option ι)
  | wake (thread : ι)

/-- The value that a step calls `push` with. -/
def Label.pushed {ι T : Type*} : Label ι T → List T
  | push _ data => [data]
  | pop _ | lock _ | notify _ _ | wake _ => []

/-- A new ring buffer that nobody uses. -/
def initial (ι T : Type*) (capacity : ℕ) : SharedBuffer ι T := ⟨.ofCapacity capacity, fun _ => none, [], []⟩

/-- The call of a thread goes on, or returns. -/
def setCall (s : SharedBuffer ι T) (thread : ι) (call : Option (CallState T)) : SharedBuffer ι T :=
  { s with calls := Function.update s.calls thread call }

@[simp] theorem setCall_calls (s : SharedBuffer ι T) (thread : ι) (call : Option (CallState T)) :
    (s.setCall thread call).calls = Function.update s.calls thread call := rfl

/-- A thread makes its critical section. -/
def lock (s : SharedBuffer ι T) (thread : ι) : Option (SharedBuffer ι T) :=
  match s.calls thread with
  | some (.push data) => some (match s.ring.push data with
    | some ring => { s with ring := ring, pushes := s.pushes ++ [data] }.setCall thread (some .pushNotify)
    | none => s.setCall thread (some (.pushWaiting data)))
  | some .pop => some (match s.ring.pop with
    | some (ring, result) => { s with ring := ring, pops := s.pops ++ [result] }.setCall thread (some (.popNotify result))
    | none => s.setCall thread (some .popWaiting))
  | _ => none

/-- A thread wakes up. -/
def wake (s : SharedBuffer ι T) (thread : ι) : Option (SharedBuffer ι T) :=
  ((s.calls thread).bind CallState.wake).map fun state => s.setCall thread (some state)

/-- Wake up one of the threads that wait on a condition variable; there is none to wake up only if none waits. -/
def notifyOne [Fintype ι] (s : SharedBuffer ι T) (waits : CallState T → Bool) : Option ι → Option (SharedBuffer ι T)
  | some woken => if (s.calls woken).any waits then s.wake woken else none
  | none => if ∀ thread, (s.calls thread).any waits = false then some s else none

/-- A thread notifies and returns. -/
def notify [Fintype ι] (s : SharedBuffer ι T) (thread : ι) (woken : Option ι) : Option (SharedBuffer ι T) :=
  match s.calls thread with
  | some .pushNotify => (s.notifyOne CallState.waitsNotEmpty woken).map (·.setCall thread none)
  | some (.popNotify _) => (s.notifyOne CallState.waitsNotFull woken).map (·.setCall thread none)
  | _ => none

/-- An idle thread calls. -/
def call (s : SharedBuffer ι T) (thread : ι) (state : CallState T) : Option (SharedBuffer ι T) :=
  match s.calls thread with
  | none => some (s.setCall thread (some state))
  | some _ => none

/-- The steps of the threads. -/
def next [Fintype ι] : Label ι T → SharedBuffer ι T → Option (SharedBuffer ι T)
  | .push thread data, s => s.call thread (.push data)
  | .pop thread, s => s.call thread .pop
  | .lock thread, s => s.lock thread
  | .notify thread woken, s => s.notify thread woken
  | .wake thread, s => s.wake thread

end SharedBuffer

/-- The threads on one ring buffer. -/
def sharedBuffer (ι T : Type*) [Fintype ι] [DecidableEq ι] (capacity : ℕ) :
    Machine (SharedBuffer ι T) (SharedBuffer.Label ι T) where
  start := .initial ι T capacity
  next := SharedBuffer.next

namespace SharedBuffer

open RingBufferMPMC

variable {ι T : Type*} {s t : SharedBuffer ι T} {capacity : ℕ} {thread : ι} {state : CallState T}

/-- The queue that the ring buffer stands for. -/
def toQueue (s : SharedBuffer ι T) : Queue (Option T) := ⟨s.ring.contents, s.pushes.map some, s.pops⟩

/-- What a step means for the queue: a critical section that does not wait lets a value enter or leave. -/
def commit : Label ι T → SharedBuffer ι T → List (Queue.Label (Option T))
  | .lock thread, s =>
    match s.calls thread with
    | some (.push data) => if s.ring.count ≠ s.ring.capacity then [.enter (some data)] else []
    | some .pop => if s.ring.count ≠ 0 then [.leave] else []
    | _ => []
  | .push _ _, _ | .pop _, _ | .notify _ _, _ | .wake _, _ => []

/-- The ring buffer holds what was pushed and not yet popped. -/
structure Fifo (s : SharedBuffer ι T) (capacity : ℕ) : Prop where
  sized : s.ring.capacity = capacity
  front : s.ring.front = s.pops.length % capacity
  rear : s.ring.rear = s.pushes.length % capacity
  count : s.pushes.length = s.pops.length + s.ring.count
  bounded : s.ring.count ≤ capacity
  popped : s.pops = (s.pushes.take s.pops.length).map some
  stored : (Circular.slots capacity s.pops.length s.ring.count).map s.ring.buffer =
    (s.pushes.drop s.pops.length).map some

namespace Fifo

/-- A new ring buffer holds nothing. -/
theorem initial : (initial ι T capacity).Fifo capacity where
  sized := rfl
  front := (Nat.zero_mod _).symm
  rear := (Nat.zero_mod _).symm
  count := rfl
  bounded := Nat.zero_le _
  popped := rfl
  stored := rfl

/-- What the ring buffer holds does not depend on the calls. -/
theorem congr (h : s.Fifo capacity) (hring : t.ring = s.ring) (hpushes : t.pushes = s.pushes) (hpops : t.pops = s.pops) :
    t.Fifo capacity := by
  obtain ⟨_, _, _, _⟩ := s
  obtain ⟨_, _, _, _⟩ := t
  obtain rfl : _ = _ := hring
  obtain rfl : _ = _ := hpushes
  obtain rfl : _ = _ := hpops
  exact ⟨h.sized, h.front, h.rear, h.count, h.bounded, h.popped, h.stored⟩

variable (h : s.Fifo capacity)
include h

/-- The elements in the ring buffer are those pushed last. -/
theorem contents_eq : s.ring.contents = (s.pushes.drop s.pops.length).map some := by
  rw [contents, h.sized, h.front, Circular.slots_mod, h.stored]

/-- The rear is as many slots behind the front as there are elements. -/
theorem rear_eq : s.ring.rear = (s.ring.front + s.ring.count) % capacity := by
  rw [h.rear, h.front, Nat.mod_add_mod, ← h.count]

/-- A value is pushed while there is space. -/
theorem push (hspace : s.ring.count ≠ s.ring.capacity) {data : T} (ht : t.ring = { s.ring with
      buffer := Function.update s.ring.buffer s.ring.rear (some data)
      rear := s.ring.increment s.ring.rear
      count := s.ring.count + 1 })
    (hpushes : t.pushes = s.pushes ++ [data]) (hpops : t.pops = s.pops) : t.Fifo capacity := by
  have hlt : s.ring.count < capacity := by
    have hbounded := h.bounded
    rw [h.sized] at hspace
    omega
  have hlength : t.pushes.length = s.pushes.length + 1 := by rw [hpushes, List.length_append, List.length_singleton]
  have hle : s.pops.length ≤ s.pushes.length := by
    rw [h.count]
    exact Nat.le_add_right ..
  have hnew : ∀ i ∈ Circular.slots capacity s.pops.length s.ring.count,
      Function.update s.ring.buffer s.ring.rear (some data) i = s.ring.buffer i := by
    intro i hi
    refine Function.update_of_ne ?_ ..
    rintro rfl
    rw [h.rear, h.count] at hi
    exact Circular.not_mem_slots hlt hi
  refine ⟨by rw [ht, h.sized], by rw [ht, hpops, h.front], ?_, ?_, ?_, ?_, ?_⟩
  · rw [hlength, ht, increment, h.sized, h.rear, Nat.mod_add_mod]
  · rw [hlength, hpops, ht, h.count, Nat.add_assoc]
  · rw [ht]
    exact hlt
  · rw [hpushes, hpops, List.take_append_of_le_length hle]
    exact h.popped
  · have hbuffer : t.ring.buffer = Function.update s.ring.buffer s.ring.rear (some data) := by rw [ht]
    have hcount : t.ring.count = s.ring.count + 1 := by rw [ht]
    rw [hpops, hpushes, hbuffer, hcount, Circular.slots_concat, List.map_append, List.map_congr_left hnew, h.stored,
      List.drop_append_of_le_length hle, List.map_append, List.map_singleton, ← h.count, ← h.rear, Function.update_self,
      List.map_singleton]

/-- A value is popped while there is one; it is the oldest. -/
theorem pop (hcount : s.ring.count ≠ 0)
    (ht : t.ring = { s.ring with front := s.ring.increment s.ring.front, count := s.ring.count - 1 })
    (hpushes : t.pushes = s.pushes) (hpops : t.pops = s.pops ++ [s.ring.buffer s.ring.front]) :
    t.Fifo capacity ∧ s.ring.contents = s.ring.buffer s.ring.front :: t.ring.contents := by
  obtain ⟨count, hsucc⟩ : ∃ count, s.ring.count = count + 1 := ⟨s.ring.count - 1, by omega⟩
  have hlt : s.pops.length < s.pushes.length := by
    rw [h.count]
    omega
  have hlength : t.pops.length = s.pops.length + 1 := by rw [hpops, List.length_append, List.length_singleton]
  have hstored := h.stored
  rw [hsucc, Circular.slots_succ, List.map_cons, ← h.front, List.drop_eq_getElem_cons hlt, List.map_cons] at hstored
  obtain ⟨hfirst, hrest⟩ := List.cons.inj hstored
  have hcountAfter : t.ring.count = count := by
    rw [ht, hsucc]
    rfl
  have hfifo : t.Fifo capacity := by
    refine ⟨by rw [ht, h.sized], ?_, by rw [ht, hpushes, h.rear], ?_, ?_, ?_, ?_⟩
    · rw [hlength, ht, increment, h.sized, h.front, Nat.mod_add_mod]
    · rw [hlength, hpushes, hcountAfter, h.count, hsucc]
      omega
    · have hbounded := h.bounded
      omega
    · rw [hlength, hpushes, hpops, hfirst, List.take_add_one, List.getElem?_eq_getElem hlt, List.map_append, ← h.popped]
      rfl
    · rw [hlength, hpushes, hcountAfter, ← hrest, ht]
  refine ⟨hfifo, ?_⟩
  rw [hfifo.contents_eq, h.contents_eq, List.drop_eq_getElem_cons hlt, List.map_cons, hfirst, hlength, hpushes]

end Fifo

/-- A thread that will take from the count, or wake up one that does. -/
def takes : Option (CallState T) → ℕ
  | some .pop | some .pushNotify => 1
  | none | some (.push _) | some (.pushWaiting _) | some .popWaiting | some (.popNotify _) => 0

/-- A thread that will add to the count, or wake up one that does. -/
def adds : Option (CallState T) → ℕ
  | some (.push _) | some (.popNotify _) => 1
  | none | some .pop | some .pushNotify | some (.pushWaiting _) | some .popWaiting => 0

/-- While a thread waits to pop, each element has a thread that takes it or wakes one up; while a thread waits to push,
each free slot has such a thread. -/
structure Attended [Fintype ι] (s : SharedBuffer ι T) : Prop where
  elements : ∀ thread, s.calls thread = some .popWaiting → s.ring.count ≤ tally takes s.calls
  slots : ∀ thread data, s.calls thread = some (.pushWaiting data) →
    s.ring.capacity ≤ s.ring.count + tally adds s.calls

/-- Where nobody calls, nobody waits. -/
theorem Attended.initial [Fintype ι] : (SharedBuffer.initial ι T capacity).Attended := by
  refine ⟨fun thread hcall => ?_, fun thread data hcall => ?_⟩
  · cases hcall
  · cases hcall

/-- Waking up and notifying keep the elements and the free slots attended as long as a thread still waits for them. -/
theorem Attended.mono [Fintype ι] (h : s.Attended) (hring : t.ring = s.ring)
    (helements : ∀ thread, t.calls thread = some .popWaiting →
      s.calls thread = some .popWaiting ∧ tally takes s.calls ≤ tally takes t.calls)
    (hslots : ∀ thread data, t.calls thread = some (.pushWaiting data) →
      s.calls thread = some (.pushWaiting data) ∧ tally adds s.calls ≤ tally adds t.calls) : t.Attended := by
  refine ⟨fun thread hthread => ?_, fun thread data hthread => ?_⟩
  · obtain ⟨hbefore, hle⟩ := helements thread hthread
    rw [hring]
    exact (h.elements thread hbefore).trans hle
  · obtain ⟨hbefore, hle⟩ := hslots thread data hthread
    rw [hring]
    exact (h.slots thread data hbefore).trans (Nat.add_le_add_left hle _)

/-- Everything a critical section can do. -/
theorem lock_cases [DecidableEq ι] (h : s.lock thread = some t) :
    (∃ data, s.calls thread = some (.push data) ∧
      (s.ring.count ≠ s.ring.capacity ∧ t = { s with
          ring := { s.ring with
            buffer := Function.update s.ring.buffer s.ring.rear (some data)
            rear := s.ring.increment s.ring.rear
            count := s.ring.count + 1 }
          pushes := s.pushes ++ [data] }.setCall thread (some .pushNotify) ∨
        s.ring.count = s.ring.capacity ∧ t = s.setCall thread (some (.pushWaiting data)))) ∨
    s.calls thread = some .pop ∧
      (s.ring.count ≠ 0 ∧ t = { s with
          ring := { s.ring with front := s.ring.increment s.ring.front, count := s.ring.count - 1 }
          pops := s.pops ++ [s.ring.buffer s.ring.front] }.setCall thread
            (some (.popNotify (s.ring.buffer s.ring.front))) ∨
        s.ring.count = 0 ∧ t = s.setCall thread (some .popWaiting)) := by
  unfold SharedBuffer.lock at h
  split at h
  · rename_i data hcall
    refine Or.inl ⟨data, hcall, ?_⟩
    by_cases hfull : s.ring.count = s.ring.capacity
    · rw [RingBufferMPMC.push, if_neg (not_not.mpr hfull)] at h
      exact Or.inr ⟨hfull, (Option.some.inj h).symm⟩
    · rw [RingBufferMPMC.push, if_pos hfull] at h
      exact Or.inl ⟨hfull, (Option.some.inj h).symm⟩
  · rename_i hcall
    refine Or.inr ⟨hcall, ?_⟩
    by_cases hempty : s.ring.count = 0
    · rw [RingBufferMPMC.pop, if_neg (not_not.mpr hempty)] at h
      exact Or.inr ⟨hempty, (Option.some.inj h).symm⟩
    · rw [RingBufferMPMC.pop, if_pos hempty] at h
      exact Or.inl ⟨hempty, (Option.some.inj h).symm⟩
  · cases h

section Steps

variable [Fintype ι] [DecidableEq ι]

/-- A thread goes on, and the count changes, in such a way that every element and every free slot that a waiting thread
may want is still attended. -/
theorem Attended.setCall (h : s.Attended) {call : Option (CallState T)} (hcapacity : t.ring.capacity = s.ring.capacity)
    (hcalls : t.calls = Function.update s.calls thread call)
    (helements : call ≠ some .popWaiting → t.ring.count + takes (s.calls thread) ≤ s.ring.count + takes call)
    (hempty : call = some .popWaiting → t.ring.count = 0)
    (hslots : (∀ data, call ≠ some (.pushWaiting data)) →
      s.ring.count + adds (s.calls thread) ≤ t.ring.count + adds call)
    (hfull : ∀ data, call = some (.pushWaiting data) → t.ring.count = t.ring.capacity) : t.Attended := by
  have htakes := tally_update takes s.calls thread call
  have hadds := tally_update adds s.calls thread call
  refine ⟨fun other hother => ?_, fun other data hother => ?_⟩
  · by_cases hwaiting : call = some .popWaiting
    · rw [hempty hwaiting]
      exact Nat.zero_le _
    · have hne : other ≠ thread := by
        rintro rfl
        rw [hcalls, Function.update_self] at hother
        exact hwaiting hother
      rw [hcalls, Function.update_of_ne hne] at hother
      have hbefore := h.elements other hother
      have hchange := helements hwaiting
      rw [hcalls]
      omega
  · by_cases hwaiting : ∃ data, call = some (.pushWaiting data)
    · obtain ⟨data', hdata⟩ := hwaiting
      rw [hfull data' hdata]
      exact Nat.le_add_right ..
    · have hnone : ∀ data, call ≠ some (.pushWaiting data) := fun data heq => hwaiting ⟨data, heq⟩
      have hne : other ≠ thread := by
        rintro rfl
        rw [hcalls, Function.update_self] at hother
        exact hnone data hother
      rw [hcalls, Function.update_of_ne hne] at hother
      have hbefore := h.slots other data hother
      have hchange := hslots hnone
      rw [hcalls, hcapacity]
      omega

/-- A new call. -/
theorem Attended.call (h : s.Attended) (hwaits : ¬ (state.waitsNotEmpty || state.waitsNotFull) = true)
    (hnext : s.call thread state = some t) : t.Attended := by
  unfold SharedBuffer.call at hnext
  split at hnext
  · rename_i hcall
    obtain rfl := Option.some.inj hnext
    refine h.setCall rfl rfl (fun _ => ?_) (fun heq => ?_) (fun _ => ?_) fun data heq => ?_
    · rw [hcall]
      exact Nat.le_add_right ..
    · exact absurd (by rw [Option.some.inj heq]; rfl) hwaits
    · rw [hcall]
      exact Nat.le_add_right ..
    · exact absurd (by rw [Option.some.inj heq]; rfl) hwaits
  · cases hnext

/-- A thread wakes up. -/
theorem Attended.wake (h : s.Attended) (hnext : s.wake thread = some t) : t.Attended := by
  obtain ⟨state', hwake, rfl⟩ := Option.map_eq_some_iff.mp hnext
  obtain ⟨state, hcall, hstate⟩ := Option.bind_eq_some_iff.mp hwake
  cases state with
  | pushWaiting data =>
    obtain rfl := Option.some.inj hstate
    exact h.setCall rfl rfl (fun _ => by rw [hcall]; exact Nat.le_refl _) (fun heq => by cases heq)
      (fun _ => by rw [hcall]; exact Nat.le_succ _) fun data heq => by cases heq
  | popWaiting =>
    obtain rfl := Option.some.inj hstate
    exact h.setCall rfl rfl (fun _ => by rw [hcall]; exact Nat.le_succ _) (fun heq => by cases heq)
      (fun _ => by rw [hcall]; exact Nat.le_refl _) fun data heq => by cases heq
  | push => cases hstate
  | pushNotify => cases hstate
  | pop => cases hstate
  | popNotify => cases hstate

/-- A notification wakes up a waiting thread, or no thread waits. -/
theorem notifyOne_cases {waits : CallState T → Bool} {woken : Option ι} (h : s.notifyOne waits woken = some t) :
    (∃ other state, s.calls other = some state ∧ waits state = true ∧ s.wake other = some t) ∨
      t = s ∧ ∀ other, (s.calls other).any waits = false := by
  cases woken with
  | none =>
    simp only [notifyOne] at h
    split at h
    · rename_i hnone
      exact Or.inr ⟨(Option.some.inj h).symm, hnone⟩
    · cases h
  | some other =>
    simp only [notifyOne] at h
    split at h
    · rename_i hwaits
      obtain ⟨state, hcall, hstate⟩ := (Option.any_eq_true _ _).mp hwaits
      exact Or.inl ⟨other, state, hcall, hstate, h⟩
    · cases h

/-- A thread notifies another one, which attends to what the notification was for. -/
theorem Attended.wakeOne (h : s.Attended) {other : ι} {notifying waiting woken : CallState T}
    (hthread : s.calls thread = some notifying) (hother : s.calls other = some waiting)
    (hwake : waiting.wake = some woken) (hne : thread ≠ other)
    (htakes : takes (some notifying) + takes (some waiting) ≤ takes (some woken))
    (hadds : adds (some notifying) + adds (some waiting) ≤ adds (some woken)) :
    ((s.setCall other (some woken)).setCall thread none).Attended := by
  have hkept : ∀ {x state}, ((s.setCall other (some woken)).setCall thread none).calls x = some state →
      state ≠ woken → s.calls x = some state := by
    intro x state hx hstate
    simp only [setCall_calls] at hx
    by_cases hxt : x = thread
    · subst hxt
      simp at hx
    · rw [Function.update_of_ne hxt] at hx
      by_cases hxo : x = other
      · subst hxo
        rw [Function.update_self] at hx
        exact absurd (Option.some.inj hx).symm hstate
      · rwa [Function.update_of_ne hxo] at hx
  have htally := fun weight : Option (CallState T) → ℕ =>
    tally_update_update weight s.calls hne none (some woken)
  simp only [hthread, hother] at htally
  refine h.mono rfl (fun x hx => ⟨hkept hx ?_, ?_⟩) fun x data hx => ⟨hkept hx ?_, ?_⟩
  · rintro rfl
    cases waiting <;> cases hwake
  · have hsum := htally takes
    simp only [setCall_calls]
    omega
  · rintro rfl
    cases waiting <;> cases hwake
  · have hsum := htally adds
    simp only [setCall_calls]
    omega

/-- A thread whose notification finds no waiting thread returns. -/
theorem Attended.wakeNone (h : s.Attended) {notifying : CallState T} (hthread : s.calls thread = some notifying)
    (helements : takes (some notifying) = 0 ∨ ∀ other, s.calls other ≠ some .popWaiting)
    (hslots : adds (some notifying) = 0 ∨ ∀ other data, s.calls other ≠ some (.pushWaiting data)) :
    (s.setCall thread none).Attended := by
  have hkept : ∀ {x state}, (s.setCall thread none).calls x = some state → s.calls x = some state := by
    intro x state hx
    simp only [setCall_calls] at hx
    by_cases hxt : x = thread
    · subst hxt
      simp at hx
    · rwa [Function.update_of_ne hxt] at hx
  have htally := fun weight : Option (CallState T) → ℕ => tally_update weight s.calls thread none
  simp only [hthread] at htally
  refine h.mono rfl (fun x hx => ⟨hkept hx, ?_⟩) fun x data hx => ⟨hkept hx, ?_⟩
  · have hsum := htally takes
    have hzero := helements.resolve_right fun hnone => hnone x (hkept hx)
    simp only [setCall_calls]
    omega
  · have hsum := htally adds
    have hzero := hslots.resolve_right fun hnone => hnone x data (hkept hx)
    simp only [setCall_calls]
    omega

/-- The threads that a notification is for. -/
def notified : CallState T → Option (CallState T → Bool)
  | .pushNotify => some CallState.waitsNotEmpty
  | .popNotify _ => some CallState.waitsNotFull
  | .push _ | .pushWaiting _ | .pop | .popWaiting => none

/-- Only a call that has come to its notification notifies, and then it returns. -/
theorem notify_cases {woken : Option ι} (h : s.notify thread woken = some t) :
    ∃ notifying waits u, s.calls thread = some notifying ∧ notified notifying = some waits ∧
      s.notifyOne waits woken = some u ∧ t = u.setCall thread none := by
  unfold SharedBuffer.notify at h
  split at h
  · rename_i hcall
    obtain ⟨u, hone, rfl⟩ := Option.map_eq_some_iff.mp h
    exact ⟨_, _, u, hcall, rfl, hone, rfl⟩
  · rename_i hcall
    obtain ⟨u, hone, rfl⟩ := Option.map_eq_some_iff.mp h
    exact ⟨_, _, u, hcall, rfl, hone, rfl⟩
  · cases h

/-- A thread notifies. -/
theorem Attended.notify (h : s.Attended) {woken : Option ι} (hnext : s.notify thread woken = some t) : t.Attended := by
  obtain ⟨notifying, waits, u, hcall, hnotified, hone, rfl⟩ := notify_cases hnext
  obtain ⟨other, waiting, hother, hwaits, hwake⟩ | ⟨rfl, hnone⟩ := notifyOne_cases hone
  · have hne : thread ≠ other := by
      rintro rfl
      rw [hcall] at hother
      obtain rfl := Option.some.inj hother
      cases notifying <;> cases hnotified <;> cases hwaits
    obtain ⟨state, hstate, rfl⟩ := Option.map_eq_some_iff.mp hwake
    rw [hother, Option.bind_some] at hstate
    have hattends : takes (some notifying) + takes (some waiting) ≤ takes (some state) ∧
        adds (some notifying) + adds (some waiting) ≤ adds (some state) := by
      cases notifying <;> cases hnotified <;> cases waiting <;> cases hwaits <;> cases hstate <;>
        exact ⟨Nat.le_refl _, Nat.le_refl _⟩
    exact h.wakeOne hcall hother hstate hne hattends.1 hattends.2
  · cases notifying with
    | pushNotify =>
      cases hnotified
      refine h.wakeNone hcall (Or.inr fun other hother => ?_) (Or.inl rfl)
      have hfalse := hnone other
      rw [hother] at hfalse
      cases hfalse
    | popNotify result =>
      cases hnotified
      refine h.wakeNone hcall (Or.inl rfl) (Or.inr fun other data hother => ?_)
      have hfalse := hnone other
      rw [hother] at hfalse
      cases hfalse
    | _ => cases hnotified

/-- A critical section. -/
theorem Attended.lock (h : s.Attended) (hnext : s.lock thread = some t) : t.Attended := by
  obtain ⟨data, hcall, ⟨_, rfl⟩ | ⟨hfull, rfl⟩⟩ | ⟨hcall, ⟨hcount, rfl⟩ | ⟨hempty, rfl⟩⟩ := lock_cases hnext
  · exact h.setCall rfl rfl (fun _ => by rw [hcall]; exact Nat.le_refl _) (fun heq => by cases heq)
      (fun _ => by rw [hcall]; exact Nat.le_refl _) fun data heq => by cases heq
  · exact h.setCall rfl rfl (fun _ => by rw [hcall]; exact Nat.le_refl _) (fun heq => by cases heq)
      (fun hne => absurd rfl (hne data)) fun _ _ => hfull
  · refine h.setCall rfl rfl (fun _ => ?_) (fun heq => by cases heq) (fun _ => ?_) fun data heq => by cases heq
    · rw [hcall]
      change s.ring.count - 1 + 1 ≤ s.ring.count + 0
      omega
    · rw [hcall]
      change s.ring.count + 0 ≤ s.ring.count - 1 + 1
      omega
  · exact h.setCall rfl rfl (fun hne => absurd rfl hne) (fun _ => hempty)
      (fun _ => by rw [hcall]; exact Nat.le_refl _) fun data heq => by cases heq

/-- Every step keeps the elements and the free slots attended. -/
theorem Attended.next (h : s.Attended) {label : Label ι T} (hnext : SharedBuffer.next label s = some t) : t.Attended := by
  cases label with
  | push thread data => exact h.call (by simp [CallState.waitsNotEmpty, CallState.waitsNotFull]) hnext
  | pop thread => exact h.call (by simp [CallState.waitsNotEmpty, CallState.waitsNotFull]) hnext
  | lock thread => exact h.lock hnext
  | notify thread woken => exact h.notify hnext
  | wake thread => exact h.wake hnext

/-- Steps other than critical sections only concern the calls. -/
theorem next_records {label : Label ι T} (hlabel : ∀ thread, label ≠ .lock thread)
    (hnext : SharedBuffer.next label s = some t) : t.ring = s.ring ∧ t.pushes = s.pushes ∧ t.pops = s.pops := by
  have hcall : ∀ {thread state u}, s.call thread state = some u →
      u.ring = s.ring ∧ u.pushes = s.pushes ∧ u.pops = s.pops := by
    intro thread state u hu
    unfold call at hu
    split at hu
    · exact Option.some.inj hu ▸ ⟨rfl, rfl, rfl⟩
    · cases hu
  have hwake : ∀ {thread u}, s.wake thread = some u → u.ring = s.ring ∧ u.pushes = s.pushes ∧ u.pops = s.pops := by
    intro thread u hu
    obtain ⟨state, _, rfl⟩ := Option.map_eq_some_iff.mp hu
    exact ⟨rfl, rfl, rfl⟩
  have hone : ∀ {waits woken u}, s.notifyOne waits woken = some u →
      u.ring = s.ring ∧ u.pushes = s.pushes ∧ u.pops = s.pops := by
    intro waits woken u hu
    obtain ⟨other, _, _, _, hother⟩ | ⟨rfl, _⟩ := notifyOne_cases hu
    · exact hwake hother
    · exact ⟨rfl, rfl, rfl⟩
  cases label with
  | push thread data => exact hcall hnext
  | pop thread => exact hcall hnext
  | lock thread => exact absurd rfl (hlabel thread)
  | notify thread woken =>
    obtain ⟨_, _, u, _, _, hu, rfl⟩ := notify_cases hnext
    obtain ⟨hring, hrecords⟩ := hone hu
    exact ⟨hring, hrecords⟩
  | wake thread => exact hwake hnext

/-- Every step is the step of the queue that it stands for. -/
theorem Fifo.next (h : s.Fifo capacity) {label : Label ι T} (hnext : SharedBuffer.next label s = some t) :
    t.Fifo capacity ∧ (queue (Option T) (· < capacity)).run (commit label s) s.toQueue = some t.toQueue := by
  by_cases hlabel : ∃ thread, label = .lock thread
  · obtain ⟨thread, rfl⟩ := hlabel
    obtain ⟨data, hcall, ⟨hspace, ht⟩ | ⟨hfull, rfl⟩⟩ | ⟨hcall, ⟨hcount, ht⟩ | ⟨hempty, rfl⟩⟩ := lock_cases hnext
    · have hfifo : t.Fifo capacity := h.push hspace (by rw [ht]; rfl) (by rw [ht]; rfl) (by rw [ht]; rfl)
      refine ⟨hfifo, ?_⟩
      have hroom : decide (s.toQueue.contents.length < capacity) = true := by
        have hbounded := h.bounded
        rw [h.sized] at hspace
        refine decide_eq_true ?_
        rw [toQueue, contents_length]
        omega
      have hle : s.pops.length ≤ s.pushes.length := by
        rw [h.count]
        exact Nat.le_add_right ..
      have hpushes : t.pushes = s.pushes ++ [data] := by rw [ht]; rfl
      have hpops : t.pops = s.pops := by rw [ht]; rfl
      simp only [commit, hcall, hspace, ne_eq, not_false_eq_true, if_true, Machine.run_singleton]
      rw [Queue.next_enter hroom, toQueue, toQueue, hfifo.contents_eq, h.contents_eq, hpushes, hpops,
        List.drop_append_of_le_length hle, List.map_append, List.map_append, List.map_singleton]
    · simp only [commit, hcall, hfull, ne_eq, not_true_eq_false, if_false]
      exact ⟨h.congr rfl rfl rfl, rfl⟩
    · obtain ⟨hfifo, hcontents⟩ := h.pop (t := t) hcount (by rw [ht]; rfl) (by rw [ht]; rfl) (by rw [ht]; rfl)
      refine ⟨hfifo, ?_⟩
      have hpushes : t.pushes = s.pushes := by rw [ht]; rfl
      have hpops : t.pops = s.pops ++ [s.ring.buffer s.ring.front] := by rw [ht]; rfl
      simp only [commit, hcall, hcount, ne_eq, not_false_eq_true, if_true, Machine.run_singleton]
      rw [Queue.next_leave hcontents, toQueue, toQueue, hpushes, hpops]
    · simp only [commit, hcall, hempty, ne_eq, not_true_eq_false, if_false]
      exact ⟨h.congr rfl rfl rfl, rfl⟩
  · have hne : ∀ thread, label ≠ .lock thread := fun thread heq => hlabel ⟨thread, heq⟩
    obtain ⟨hring, hpushes, hpops⟩ := next_records hne hnext
    have hcommit : commit label s = [] := by
      cases label with
      | lock thread => exact absurd rfl (hne thread)
      | push | pop | notify | wake => rfl
    refine ⟨h.congr hring hpushes hpops, ?_⟩
    rw [hcommit, Machine.run_nil, toQueue, toQueue, hring, hpushes, hpops]

/-- What holds in every state reached. -/
theorem fifo_of_reachable (h : (sharedBuffer ι T capacity).Reachable s) : s.Fifo capacity ∧ s.Attended := by
  refine h.invariant (I := fun s : SharedBuffer ι T => s.Fifo capacity ∧ s.Attended)
    ⟨.initial, .initial⟩ fun label s t _ hs _ hnext => ?_
  exact ⟨(hs.1.next hnext).1, hs.2.next hnext⟩

omit [Fintype ι] [DecidableEq ι] in
/-- A waiting thread can wake up. -/
theorem wake_ne_none {waiting : CallState T} (h : (waiting.waitsNotEmpty || waiting.waitsNotFull) = true) :
    waiting.wake ≠ none := by
  cases waiting with
  | pushWaiting data => exact Option.some_ne_none _
  | popWaiting => exact Option.some_ne_none _
  | push => cases h
  | pushNotify => cases h
  | pop => cases h
  | popNotify => cases h

/-- A notification can choose a waiting thread if there is one. -/
theorem exists_notifyOne (s : SharedBuffer ι T) (waits : CallState T → Bool)
    (hwaits : ∀ waiting, waits waiting = true → waiting.wake ≠ none) : ∃ woken u, s.notifyOne waits woken = some u := by
  by_cases hnone : ∀ other, (s.calls other).any waits = false
  · exact ⟨none, s, if_pos hnone⟩
  · push Not at hnone
    obtain ⟨other, hother⟩ := hnone
    rw [ne_eq, Bool.not_eq_false] at hother
    obtain ⟨waiting, hwaiting, hwait⟩ := (Option.any_eq_true _ _).mp hother
    obtain ⟨woken, hwoken⟩ := Option.ne_none_iff_exists'.mp (hwaits waiting hwait)
    refine ⟨some other, s.setCall other (some woken), ?_⟩
    rw [notifyOne, if_pos hother, wake, hwaiting, Option.bind_some, hwoken, Option.map_some]

omit [Fintype ι] in
/-- A thread comes to wait when it pushes to a full ring buffer. -/
theorem exists_wait (hidle : s.calls = fun _ => none) (hfull : s.ring.count = s.ring.capacity) (thread : ι) (data : T) :
    ∃ called locked, s.call thread (.push data) = some called ∧ called.lock thread = some locked ∧
      locked.calls thread = some (.pushWaiting data) ∧ locked.ring = s.ring := by
  have hcall : s.call thread (.push data) = some (s.setCall thread (some (.push data))) := by
    rw [call, hidle]
  refine ⟨_, (s.setCall thread (some (.push data))).setCall thread (some (.pushWaiting data)), hcall, ?_, ?_, rfl⟩
  · have hpush : (s.setCall thread (some (.push data))).ring = s.ring := rfl
    simp only [lock, setCall_calls, Function.update_self]
    rw [hpush, RingBufferMPMC.push, if_neg (not_not.mpr hfull)]
  · rw [setCall_calls, Function.update_self]

/-- A thread that is alone can push while there is space. -/
theorem exists_push (hidle : s.calls = fun _ => none) (hspace : s.ring.count ≠ s.ring.capacity) (thread : ι) (data : T) :
    ∃ called locked returned, s.call thread (.push data) = some called ∧ called.lock thread = some locked ∧
      locked.notify thread none = some returned ∧ returned.calls = (fun _ => none) ∧
      returned.ring.count = s.ring.count + 1 := by
  have hcall : s.call thread (.push data) = some (s.setCall thread (some (.push data))) := by
    rw [call, hidle]
  obtain ⟨locked, hlock, hpushed, hcount⟩ : ∃ locked, (s.setCall thread (some (.push data))).lock thread = some locked ∧
      locked.calls = Function.update s.calls thread (some .pushNotify) ∧ locked.ring.count = s.ring.count + 1 := by
    simp only [lock, setCall_calls, Function.update_self]
    refine ⟨_, rfl, ?_⟩
    have hpush : (s.setCall thread (some (.push data))).ring = s.ring := rfl
    rw [hpush, RingBufferMPMC.push, if_pos hspace]
    exact ⟨Function.update_idem .., rfl⟩
  have hnone : ∀ other, (locked.calls other).any CallState.waitsNotEmpty = false := by
    intro other
    rw [hpushed, hidle]
    by_cases heq : other = thread
    · rw [heq, Function.update_self]
      rfl
    · rw [Function.update_of_ne heq]
      rfl
  refine ⟨_, locked, locked.setCall thread none, hcall, hlock, ?_, ?_, hcount⟩
  · simp only [notify, hpushed, Function.update_self, notifyOne]
    rw [← hpushed, if_pos hnone, Option.map_some]
  · rw [setCall_calls, hpushed, Function.update_idem, hidle]
    exact Function.update_eq_self ..

/-- No thread can take a step, other than waking up without a notification or calling. -/
def Stopped (s : SharedBuffer ι T) : Prop :=
  ∀ thread, SharedBuffer.next (.lock thread) s = none ∧ ∀ woken, SharedBuffer.next (.notify thread woken) s = none

/-- Where no thread can take a step, all calls wait. -/
theorem Stopped.waits (h : s.Stopped) (hcall : s.calls thread = some state) :
    (state.waitsNotEmpty || state.waitsNotFull) = true := by
  obtain ⟨hlock, hnotify⟩ := h thread
  cases state with
  | push data => simp [SharedBuffer.next, lock, hcall] at hlock
  | pop => simp [SharedBuffer.next, lock, hcall] at hlock
  | pushWaiting => rfl
  | popWaiting => rfl
  | pushNotify =>
    obtain ⟨woken, u, hu⟩ := s.exists_notifyOne CallState.waitsNotEmpty fun waiting hwaiting =>
      wake_ne_none (by rw [hwaiting]; rfl)
    have hnone := hnotify woken
    simp [SharedBuffer.next, notify, hcall, hu] at hnone
  | popNotify result =>
    obtain ⟨woken, u, hu⟩ := s.exists_notifyOne CallState.waitsNotFull fun waiting hwaiting =>
      wake_ne_none (by rw [hwaiting, Bool.or_true])
    have hnone := hnotify woken
    simp [SharedBuffer.next, notify, hcall, hu] at hnone

/-- Where no thread can take a step, those that wait to pop find no element, and those that wait to push no slot. -/
theorem Stopped.justified (h : s.Stopped) (hattended : s.Attended) :
    (∀ thread, s.calls thread = some .popWaiting → s.ring.count = 0) ∧
      ∀ thread data, s.calls thread = some (.pushWaiting data) → s.ring.capacity ≤ s.ring.count := by
  have hzero : ∀ weight : Option (CallState T) → ℕ, weight none = 0 →
      (∀ state : CallState T, (state.waitsNotEmpty || state.waitsNotFull) = true → weight (some state) = 0) →
      tally weight s.calls = 0 := by
    intro weight hnone hwaits
    refine tally_eq_zero fun thread => ?_
    cases hcall : s.calls thread with
    | none => exact hnone
    | some state => exact hwaits state (h.waits hcall)
  have htakes : tally takes s.calls = 0 := hzero takes rfl fun state hstate => by
    cases state <;> simp [takes, CallState.waitsNotEmpty, CallState.waitsNotFull] at hstate ⊢
  have hadds : tally adds s.calls = 0 := hzero adds rfl fun state hstate => by
    cases state <;> simp [adds, CallState.waitsNotEmpty, CallState.waitsNotFull] at hstate ⊢
  refine ⟨fun thread hcall => ?_, fun thread data hcall => ?_⟩
  · have hle := hattended.elements thread hcall
    omega
  · have hle := hattended.slots thread data hcall
    omega

/-- For any number of threads, every capacity and every interleaving, the ring buffer implements a queue that holds as many
values as its capacity; in each state reached the count is within the capacity, the rear is as many slots behind the front
as the count says, the values popped and those held are the values pushed, in the order in which the pushes took the lock,
and the machine arithmetic of the indices is exact; where no thread can take a step, a thread waits to pop only from an
empty and to push only to a full ring buffer. -/
theorem blocking_queue (hcapacity : 0 < capacity) (hfits : capacity < 2 ^ 31) :
    (sharedBuffer ι T capacity).Implements (queue (Option T) (· < capacity)) toQueue commit ∧
      ∀ s, (sharedBuffer ι T capacity).Reachable s →
        s.ring.count ≤ capacity ∧ s.ring.rear = (s.ring.front + s.ring.count) % capacity ∧
        s.ring.front < capacity ∧ s.ring.rear < capacity ∧
        s.pops ++ s.ring.contents = s.pushes.map some ∧ s.ring.contents.length = s.ring.count ∧
        (∀ n < capacity, (Circular.nextInt (.ofNat 64 capacity) (.ofNat 32 n)).toNat = s.ring.increment n) ∧
        (s.Stopped → (∀ thread, s.calls thread = some .popWaiting → ¬ 0 < s.ring.count) ∧
          ∀ thread data, s.calls thread = some (.pushWaiting data) → ¬ s.ring.count < capacity) := by
  have himplements : (sharedBuffer ι T capacity).Implements (queue (Option T) (· < capacity)) toQueue commit :=
    ⟨rfl, fun label s t hs hnext => ((fifo_of_reachable hs).1.next hnext).2⟩
  refine ⟨himplements, fun s hs => ?_⟩
  obtain ⟨hfifo, hattended⟩ := fifo_of_reachable hs
  have hqueue : s.pops ++ s.ring.contents = s.pushes.map some := Queue.left_append_contents (himplements.reachable hs)
  refine ⟨hfifo.bounded, hfifo.rear_eq, ?_, ?_, hqueue, s.ring.contents_length, fun n hn => ?_,
    fun hstopped => ?_⟩
  · rw [hfifo.front]
    exact Nat.mod_lt _ hcapacity
  · rw [hfifo.rear]
    exact Nat.mod_lt _ hcapacity
  · rw [Circular.nextInt_toNat hn hfits, increment, hfifo.sized]
  · obtain ⟨helements, hslots⟩ := hstopped.justified hattended
    refine ⟨fun thread hcall => ?_, fun thread data hcall => ?_⟩
    · rw [helements thread hcall]
      exact Nat.lt_irrefl 0
    · have hle := hslots thread data hcall
      rw [hfifo.sized] at hle
      omega

end Steps

/-- Two threads wait to pop, one is notified of a push, and the other one of the next push. -/
theorem blocking_queue_two_waiting :
    ∃ s : SharedBuffer (Fin 3) ℕ, (sharedBuffer (Fin 3) ℕ 1).Reachable s ∧ s.calls 1 = some .popWaiting ∧
      s.pops = [some 7] ∧ s.ring.count ≤ 1 ∧ s.pops ++ s.ring.contents = s.pushes.map some := by
  have hrun : ((sharedBuffer (Fin 3) ℕ 1).run
      [.pop 0, .pop 1, .lock 0, .lock 1, .push 2 7, .lock 2, .notify 2 (some 0), .lock 0, .notify 0 none]
      (sharedBuffer (Fin 3) ℕ 1).start).any (fun s => s.calls 1 == some .popWaiting && s.pops == [some 7]) = true := by
    decide
  obtain ⟨s, hreachable, htest⟩ := Machine.exists_reachable_of_run hrun
  obtain ⟨hcall, hpops⟩ := Bool.and_eq_true_iff.mp htest
  obtain ⟨hcount, _, _, _, hqueue, _⟩ := (blocking_queue (by decide) (by decide)).2 s hreachable
  exact ⟨s, hreachable, eq_of_beq hcall, eq_of_beq hpops, hcount, hqueue⟩

end SharedBuffer

end MatchingEngine
