import Mathlib.Algebra.Order.Group.Defs
import Mathlib.Algebra.Order.Group.Unbundled.Basic
import Mathlib.Algebra.Order.BigOperators.Group.List
import Mathlib.Algebra.Order.Monoid.Unbundled.MinMax
import Mathlib.Tactic.Abel

/-!
# Allocating an amount along a queue of capacities

An amount is taken from the capacities in order, from each as much as possible, until
nothing is left to take. With positive capacities this uses exactly the shortest prefix
that covers what can be taken at all, and leaves at most the last of its capacities
unexhausted.
-/

namespace MatchingEngine

variable {α : Type*} [AddCommGroup α] [LinearOrder α]

/-- The amounts taken from the capacities, in order; nothing is listed once the amount is exhausted. -/
def allocate (amount : α) : List α → List α
  | [] => []
  | capacity :: rest =>
    if 0 < amount then min amount capacity :: allocate (amount - min amount capacity) rest else []

/-- Nothing is taken by an exhausted amount. -/
theorem allocate_of_not_pos {amount : α} (h : ¬ 0 < amount) (capacities : List α) :
    allocate amount capacities = [] := by
  cases capacities <;> simp [allocate, h]

/-- At most one amount is taken from each capacity. -/
theorem allocate_length_le (amount : α) (capacities : List α) :
    (allocate amount capacities).length ≤ capacities.length := by
  induction capacities generalizing amount with
  | nil => simp [allocate]
  | cons capacity rest ih =>
    unfold allocate
    split
    · simpa using ih _
    · simp

variable [IsOrderedAddMonoid α]

/-- What remains of an amount after a capacity is never negative. -/
theorem sub_min_nonneg (amount capacity : α) : 0 ≤ amount - min amount capacity :=
  sub_nonneg.mpr (min_le_left _ _)

/-- In total, the amount or all the capacities are taken, whichever is less. -/
theorem allocate_sum {amount : α} (hamount : 0 ≤ amount) {capacities : List α}
    (hcapacities : ∀ capacity ∈ capacities, 0 < capacity) :
    (allocate amount capacities).sum = min amount capacities.sum := by
  induction capacities generalizing amount with
  | nil => simp [allocate, hamount]
  | cons capacity rest ih =>
    have hrest : ∀ c ∈ rest, 0 < c := fun c hc => hcapacities c (List.mem_cons_of_mem _ hc)
    have hsum : 0 ≤ rest.sum := List.sum_nonneg fun c hc => (hrest c hc).le
    unfold allocate
    by_cases hpos : 0 < amount
    · rw [if_pos hpos, List.sum_cons, ih (sub_min_nonneg _ _) hrest, List.sum_cons]
      rcases le_total amount capacity with hle | hle
      · have hcover : amount ≤ capacity + rest.sum := hle.trans (le_add_of_nonneg_right hsum)
        rw [min_eq_left hle, sub_self, min_eq_left hsum, add_zero, min_eq_left hcover]
      · rw [min_eq_right hle, ← min_add_add_left]
        congr 1
        abel
    · have hzero : amount = 0 := le_antisymm (not_lt.mp hpos) hamount
      have hcapacity := (hcapacities capacity (List.mem_cons_self ..)).le
      rw [if_neg hpos, List.sum_nil, hzero, List.sum_cons, min_eq_left (add_nonneg hcapacity hsum)]

omit [IsOrderedAddMonoid α] in
/-- Every amount taken is positive and within its capacity. -/
theorem allocate_getElem_le {amount : α} {capacities : List α} (hcapacities : ∀ capacity ∈ capacities, 0 < capacity)
    {i : ℕ} (hi : i < (allocate amount capacities).length) :
    0 < (allocate amount capacities)[i] ∧
      (allocate amount capacities)[i] ≤ capacities.get ⟨i, hi.trans_le (allocate_length_le _ _)⟩ := by
  induction capacities generalizing amount i with
  | nil => simp [allocate] at hi
  | cons capacity rest ih =>
    have hrest : ∀ c ∈ rest, 0 < c := fun c hc => hcapacities c (List.mem_cons_of_mem _ hc)
    by_cases hpos : 0 < amount
    · simp only [allocate, if_pos hpos] at hi ⊢
      cases i with
      | zero => exact ⟨lt_min hpos (hcapacities capacity (List.mem_cons_self ..)), min_le_right _ _⟩
      | succ i => exact ih hrest (by simpa using hi)
    · simp [allocate, hpos] at hi

/-- Before the last capacity used, every capacity is exhausted. -/
theorem allocate_getElem_eq {amount : α} {capacities : List α} {i : ℕ}
    (hi : i + 1 < (allocate amount capacities).length) :
    (allocate amount capacities)[i] =
      capacities.get ⟨i, (Nat.lt_of_succ_lt hi).trans_le (allocate_length_le _ _)⟩ := by
  induction capacities generalizing amount i with
  | nil => simp [allocate] at hi
  | cons capacity rest ih =>
    by_cases hpos : 0 < amount
    · simp only [allocate, if_pos hpos, List.length_cons] at hi ⊢
      cases i with
      | zero =>
        -- Something is taken after the first capacity, so the amount exceeded it.
        have hmore : 0 < amount - min amount capacity := by
          by_contra hnone
          rw [allocate_of_not_pos hnone] at hi
          simp at hi
        have hlt := sub_pos.mp hmore
        exact min_eq_right (not_lt.mp fun hlt' => absurd hlt (by rw [min_eq_left hlt'.le]; exact lt_irrefl _))
      | succ i => exact ih (by simpa using hi)
    · simp [allocate, hpos] at hi

/-- The capacities used cover what is taken. -/
theorem allocate_covers {amount : α} (hamount : 0 ≤ amount) {capacities : List α}
    (hcapacities : ∀ capacity ∈ capacities, 0 < capacity) :
    min amount capacities.sum ≤ (capacities.take (allocate amount capacities).length).sum := by
  rw [← allocate_sum hamount hcapacities]
  induction capacities generalizing amount with
  | nil => simp [allocate]
  | cons capacity rest ih =>
    have hrest : ∀ c ∈ rest, 0 < c := fun c hc => hcapacities c (List.mem_cons_of_mem _ hc)
    by_cases hpos : 0 < amount
    · simp only [allocate, if_pos hpos, List.length_cons, List.take_succ_cons, List.sum_cons]
      exact add_le_add (min_le_right _ _) (ih (sub_min_nonneg _ _) hrest)
    · simp [allocate, hpos]

/-- No shorter prefix of the capacities covers what is taken. -/
theorem allocate_shortest {amount : α} (hamount : 0 ≤ amount) {capacities : List α}
    (hcapacities : ∀ capacity ∈ capacities, 0 < capacity) {k : ℕ} (hk : k < (allocate amount capacities).length) :
    (capacities.take k).sum < min amount capacities.sum := by
  rw [← allocate_sum hamount hcapacities]
  induction capacities generalizing amount k with
  | nil => simp [allocate] at hk
  | cons capacity rest ih =>
    have hrest : ∀ c ∈ rest, 0 < c := fun c hc => hcapacities c (List.mem_cons_of_mem _ hc)
    by_cases hpos : 0 < amount
    · have hnonneg := sub_min_nonneg amount capacity
      simp only [allocate, if_pos hpos, List.length_cons] at hk ⊢
      cases k with
      | zero =>
        have hfirst := lt_min hpos (hcapacities capacity (List.mem_cons_self ..))
        have hothers : 0 ≤ (allocate (amount - min amount capacity) rest).sum := by
          rw [allocate_sum hnonneg hrest]
          exact le_min hnonneg (List.sum_nonneg fun c hc => (hrest c hc).le)
        simpa using add_pos_of_pos_of_nonneg hfirst hothers
      | succ k =>
        have hk' : k < (allocate (amount - min amount capacity) rest).length := by omega
        have hmore : 0 < amount - min amount capacity := by
          by_contra hnone
          rw [allocate_of_not_pos hnone] at hk'
          simp at hk'
        have hle : capacity ≤ amount :=
          not_lt.mp fun hlt => absurd (sub_pos.mp hmore) (by rw [min_eq_left hlt.le]; exact lt_irrefl _)
        rw [List.take_succ_cons, List.sum_cons, List.sum_cons, min_eq_right hle]
        rw [min_eq_right hle] at hk' hnonneg
        exact add_lt_add_right (ih hnonneg hrest hk') capacity
    · simp [allocate, hpos] at hk

end MatchingEngine
