import Mathlib.Algebra.BigOperators.Fin
import Mathlib.Algebra.Order.BigOperators.Group.Finset

/-!
# Counting threads

The number of threads in a state, or the sum of weights that the states of the threads have. A
step that concerns one thread changes the sum by what it changes for this thread.

Sums are compared without subtraction: the old weight is added on the side of the new sum.
-/

namespace MatchingEngine

/-- The sum of the weights of the states that the threads are in. -/
def tally {ι α : Type*} [Fintype ι] (weight : α → ℕ) (states : ι → α) : ℕ := ∑ thread, weight (states thread)

variable {ι α : Type*} [Fintype ι] {weight : α → ℕ} {states : ι → α} {thread : ι}

/-- One thread changes its state. -/
theorem tally_update [DecidableEq ι] (weight : α → ℕ) (states : ι → α) (thread : ι) (state : α) :
    tally weight (Function.update states thread state) + weight (states thread) = tally weight states + weight state := by
  have hcomp : (fun other => weight (Function.update states thread state other)) =
      Function.update (fun other => weight (states other)) thread (weight state) := by
    funext other
    exact Function.apply_update (fun _ => weight) states thread state other
  rw [tally, tally, hcomp, Finset.sum_update_of_mem (Finset.mem_univ thread),
    Finset.sum_eq_add_sum_sdiff_singleton_of_mem (Finset.mem_univ thread) fun other => weight (states other)]
  omega

/-- Two threads change their states. -/
theorem tally_update_update [DecidableEq ι] (weight : α → ℕ) (states : ι → α) {thread other : ι} (hne : thread ≠ other)
    (state state' : α) :
    tally weight (Function.update (Function.update states other state') thread state) + weight (states thread) +
      weight (states other) = tally weight states + weight state + weight state' := by
  have hother := tally_update weight states other state'
  have hthread := tally_update weight (Function.update states other state') thread state
  rw [Function.update_of_ne hne] at hthread
  omega

/-- Where no thread has a weight, the sum is zero. -/
theorem tally_eq_zero (h : ∀ thread, weight (states thread) = 0) : tally weight states = 0 :=
  Finset.sum_eq_zero fun thread _ => h thread

end MatchingEngine
