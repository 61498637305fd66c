import Mathlib.Data.List.TakeWhile

/-!
# Waiting in a queue

What waits in a queue before the first element with a property. Only elements that leave at the
front shorten it, and nothing that joins at the end delays the element.
-/

namespace MatchingEngine

variable {α : Type*} {p : α → Bool}

/-- The elements before the first one with the property. -/
def frontOf (p : α → Bool) (queue : List α) : List α := queue.takeWhile fun x => !p x

/-- At the front, nothing is ahead. -/
theorem frontOf_cons_of_pos {x : α} (queue : List α) (h : p x = true) : frontOf p (x :: queue) = [] :=
  List.takeWhile_cons_of_neg (by simp [h])

/-- Another element at the front is ahead. -/
theorem frontOf_cons_of_neg {x : α} (queue : List α) (h : p x = false) : frontOf p (x :: queue) = x :: frontOf p queue :=
  List.takeWhile_cons_of_pos (by simp [h])

/-- What joins at the end is not ahead. -/
theorem frontOf_append {queue : List α} (more : List α) (h : ∃ x ∈ queue, p x = true) :
    frontOf p (queue ++ more) = frontOf p queue := by
  induction queue with
  | nil => simp at h
  | cons y queue ih =>
    rw [List.cons_append]
    cases hy : p y with
    | true => rw [frontOf_cons_of_pos _ hy, frontOf_cons_of_pos _ hy]
    | false =>
      obtain ⟨x, hx, hp⟩ := h
      have hne : x ≠ y := fun heq => by simp [heq, hy] at hp
      rw [frontOf_cons_of_neg _ hy, frontOf_cons_of_neg _ hy, ih ⟨x, (List.mem_cons.mp hx).resolve_left hne, hp⟩]

/-- What is ahead is in the queue. -/
theorem mem_of_mem_frontOf {queue : List α} {x : α} (h : x ∈ frontOf p queue) : x ∈ queue :=
  (List.takeWhile_prefix _).subset h

end MatchingEngine
