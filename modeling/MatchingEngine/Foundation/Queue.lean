import MatchingEngine.Foundation.Machine

/-!
# First-in first-out queues

The queue that an implementation stands for, with records of the values that entered and left
it. How many values fit is a parameter, so that bounded and unbounded queues are covered.

A step on a queue is one operation that takes effect at once: a value enters or leaves, or an
operation is refused because there is no room, or because there is no value.
-/

namespace MatchingEngine

/-- The values in a queue, oldest first, and those that entered and left it so far. -/
structure Queue (α : Type*) where
  contents : List α
  entered : List α
  left : List α

namespace Queue

/-- The operations on a queue; the last two find it full, or empty, and leave it as it is. -/
inductive Label (α : Type*)
  | enter (value : α)
  | leave
  | refuse
  | miss

variable {α : Type*}

/-- The steps of a queue; values enter while there is room. -/
def next (hasRoom : ℕ → Bool) : Label α → Queue α → Option (Queue α)
  | .enter value, q =>
    if hasRoom q.contents.length then some ⟨q.contents ++ [value], q.entered ++ [value], q.left⟩ else none
  | .leave, q =>
    match q.contents with
    | [] => none
    | value :: rest => some ⟨rest, q.entered, q.left ++ [value]⟩
  | .refuse, q => if hasRoom q.contents.length then none else some q
  | .miss, q => if q.contents.isEmpty then some q else none

end Queue

/-- A queue that starts empty. -/
def queue (α : Type*) (hasRoom : ℕ → Bool) : Machine (Queue α) (Queue.Label α) where
  start := ⟨[], [], []⟩
  next := Queue.next hasRoom

namespace Queue

variable {α : Type*} {hasRoom : ℕ → Bool} {q r : Queue α}

/-- A value enters at the end. -/
theorem next_enter (hroom : hasRoom q.contents.length = true) (value : α) :
    (queue α hasRoom).next (.enter value) q = some ⟨q.contents ++ [value], q.entered ++ [value], q.left⟩ :=
  if_pos hroom

/-- The oldest value leaves. -/
theorem next_leave {value : α} {rest : List α} (h : q.contents = value :: rest) :
    (queue α hasRoom).next .leave q = some ⟨rest, q.entered, q.left ++ [value]⟩ := by
  simp only [queue, next, h]

/-- A full queue refuses. -/
theorem next_refuse (hroom : hasRoom q.contents.length = false) : (queue α hasRoom).next .refuse q = some q := by
  simp only [queue, next, hroom, Bool.false_eq_true, if_false]

/-- An empty queue is missed. -/
theorem next_miss (h : q.contents = []) : (queue α hasRoom).next .miss q = some q := by
  simp only [queue, next, h, List.isEmpty_nil, if_true]

/-- Values leave in the order in which they entered, and none is lost. -/
theorem left_append_contents (h : (queue α hasRoom).Reachable q) : q.left ++ q.contents = q.entered := by
  refine h.invariant (I := fun q => q.left ++ q.contents = q.entered) rfl fun label q r _ ih _ hnext => ?_
  cases label with
  | enter value =>
    simp only [queue, next] at hnext
    split at hnext
    · obtain rfl := Option.some.inj hnext
      simp only [← List.append_assoc, ih]
    · cases hnext
  | leave =>
    simp only [queue, next] at hnext
    cases hcontents : q.contents with
    | nil => simp [hcontents] at hnext
    | cons value rest =>
      simp only [hcontents, Option.some.injEq] at hnext
      subst hnext
      rw [← ih, hcontents, List.append_assoc, List.singleton_append]
  | refuse =>
    simp only [queue, next] at hnext
    split at hnext
    · cases hnext
    · exact Option.some.inj hnext ▸ ih
  | miss =>
    simp only [queue, next] at hnext
    split at hnext
    · exact Option.some.inj hnext ▸ ih
    · cases hnext

end Queue

end MatchingEngine
