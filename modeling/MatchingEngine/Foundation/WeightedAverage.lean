import Mathlib.Algebra.BigOperators.Ring.List
import Mathlib.Algebra.Order.BigOperators.Group.List
import Mathlib.Algebra.Order.Field.Basic

/-!
# Weighted averages

An average of entries is a number that, times the total weight, gives the weighted sum of the
values. It can be kept without the entries: un-average it with the old weight, add the weighted new
value, and divide by the new weight.

Without negative weights, an average lies between any bounds of the values.
-/

namespace MatchingEngine

namespace WeightedAverage

variable {ι K : Type*}

section Sums

variable [NonUnitalNonAssocSemiring K] (value weight : ι → K) (entries more : List ι) (entry : ι)

/-- The weight of all entries. -/
def totalWeight : K := (entries.map weight).sum

/-- The values of all entries, weighted. -/
def weightedSum : K := (entries.map fun entry => value entry * weight entry).sum

/-- A number that stands for every value gives the same weighted sum. -/
def IsAverage (average : K) : Prop := average * totalWeight weight entries = weightedSum value weight entries

@[simp] theorem totalWeight_concat : totalWeight weight (entries ++ [entry]) = totalWeight weight entries + weight entry := by
  simp [totalWeight]

@[simp] theorem weightedSum_concat :
    weightedSum value weight (entries ++ [entry]) = weightedSum value weight entries + value entry * weight entry := by
  simp [weightedSum]

end Sums

variable {value weight : ι → K} {entries : List ι} {average bound : K}

/-- An average is updated from the new entry and the old weight. -/
theorem IsAverage.concat [Field K] (h : IsAverage value weight entries average) (entry : ι)
    (hweight : weight entry + totalWeight weight entries ≠ 0) :
    IsAverage value weight (entries ++ [entry])
      ((average * totalWeight weight entries + value entry * weight entry) / (weight entry + totalWeight weight entries)) := by
  unfold IsAverage at h ⊢
  rw [totalWeight_concat, weightedSum_concat, ← h, add_comm (totalWeight weight entries), div_mul_cancel₀ _ hweight]

section Order

variable [Field K] [LinearOrder K] [IsStrictOrderedRing K]

/-- A bound of the values bounds the weighted sum. -/
theorem weightedSum_le (hweights : ∀ entry ∈ entries, 0 ≤ weight entry) (hvalues : ∀ entry ∈ entries, value entry ≤ bound) :
    weightedSum value weight entries ≤ bound * totalWeight weight entries := by
  rw [weightedSum, totalWeight, ← List.sum_map_mul_left]
  exact List.sum_le_sum fun entry hentry => mul_le_mul_of_nonneg_right (hvalues entry hentry) (hweights entry hentry)

/-- A lower bound of the values bounds the weighted sum from below. -/
theorem le_weightedSum (hweights : ∀ entry ∈ entries, 0 ≤ weight entry) (hvalues : ∀ entry ∈ entries, bound ≤ value entry) :
    bound * totalWeight weight entries ≤ weightedSum value weight entries := by
  rw [weightedSum, totalWeight, ← List.sum_map_mul_left]
  exact List.sum_le_sum fun entry hentry => mul_le_mul_of_nonneg_right (hvalues entry hentry) (hweights entry hentry)

/-- An average is at most a bound of the values. -/
theorem IsAverage.le (h : IsAverage value weight entries average) (hpositive : 0 < totalWeight weight entries)
    (hweights : ∀ entry ∈ entries, 0 ≤ weight entry) (hvalues : ∀ entry ∈ entries, value entry ≤ bound) :
    average ≤ bound :=
  le_of_mul_le_mul_right (h.trans_le (weightedSum_le hweights hvalues)) hpositive

/-- An average is at least a lower bound of the values. -/
theorem IsAverage.ge (h : IsAverage value weight entries average) (hpositive : 0 < totalWeight weight entries)
    (hweights : ∀ entry ∈ entries, 0 ≤ weight entry) (hvalues : ∀ entry ∈ entries, bound ≤ value entry) :
    bound ≤ average :=
  le_of_mul_le_mul_right ((le_weightedSum hweights hvalues).trans_eq h.symm) hpositive

end Order

end WeightedAverage

end MatchingEngine
