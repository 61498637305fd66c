import Mathlib.Data.List.Basic

/-!
# Arrays that grow

An array keeps its elements in one block of memory. Where it has no room left its elements move to another
block, and the addresses of the elements in the old one dangle. As long as there is room, an array
only extends: what its addresses load stays the same.
-/

namespace MatchingEngine

/-- An array with the block of its elements, the number of elements for which this has room, and the elements. -/
structure GrowingArray (α : Type*) where
  block : ℕ
  capacity : ℕ
  elements : List α

/-- The address of an element in a block. -/
structure ElementAddress where
  block : ℕ
  index : ℕ
deriving DecidableEq

namespace GrowingArray

variable {α : Type*} {v w : GrowingArray α}

/-- An array without elements has no room. -/
def empty (α : Type*) : GrowingArray α := ⟨0, 0, []⟩

/-- Make room for a number of elements. -/
def reserve (v : GrowingArray α) (capacity : ℕ) : GrowingArray α :=
  if v.capacity < capacity then { v with block := v.block + 1, capacity := capacity } else v

/-- Append an element; without room, the elements move to a block that is twice as large. -/
def push (v : GrowingArray α) (x : α) : GrowingArray α :=
  if v.elements.length < v.capacity then { v with elements := v.elements ++ [x] }
  else ⟨v.block + 1, max 1 (2 * v.capacity), v.elements ++ [x]⟩

/-- The address of the element at an index. -/
def address (v : GrowingArray α) (index : ℕ) : ElementAddress := ⟨v.block, index⟩

/-- The address of the last element. -/
def back (v : GrowingArray α) : ElementAddress := v.address (v.elements.length - 1)

/-- The element at an address, unless it dangles. -/
def load (v : GrowingArray α) (address : ElementAddress) : Option α :=
  if address.block = v.block then v.elements[address.index]? else none

@[simp] theorem load_address (v : GrowingArray α) (index : ℕ) : v.load (v.address index) = v.elements[index]? :=
  if_pos rfl

/-- An array where another one has its first elements, in the same block. -/
structure Extends (v w : GrowingArray α) : Prop where
  block : w.block = v.block
  elements : v.elements <+: w.elements

/-- Addresses stay valid while an array extends. -/
theorem Extends.load (h : v.Extends w) {address : ElementAddress} {x : α} (hload : v.load address = some x) :
    w.load address = some x := by
  unfold GrowingArray.load at hload ⊢
  rw [h.block]
  split at hload
  · rename_i hblock
    rw [if_pos hblock]
    obtain ⟨hlt, rfl⟩ := List.getElem?_eq_some_iff.mp hload
    exact List.prefix_iff_getElem?.mp h.elements address.index hlt
  · cases hload

/-- An array extends itself. -/
theorem Extends.refl (v : GrowingArray α) : v.Extends v := ⟨rfl, List.prefix_rfl⟩

/-- Where there is room, an element more extends the array. -/
theorem extends_push (x : α) (h : v.elements.length < v.capacity) : v.Extends (v.push x) := by
  rw [push, if_pos h]
  exact ⟨rfl, List.prefix_append ..⟩

@[simp] theorem elements_push (v : GrowingArray α) (x : α) : (v.push x).elements = v.elements ++ [x] := by
  unfold push
  split
  · rfl
  · rfl

/-- Where there is room, the capacity stays. -/
theorem capacity_push (x : α) (h : v.elements.length < v.capacity) : (v.push x).capacity = v.capacity := by
  rw [push, if_pos h]

@[simp] theorem elements_reserve (v : GrowingArray α) (capacity : ℕ) : (v.reserve capacity).elements = v.elements := by
  unfold reserve
  split
  · rfl
  · rfl

/-- There is as much room as was reserved. -/
theorem le_capacity_reserve (v : GrowingArray α) (capacity : ℕ) : capacity ≤ (v.reserve capacity).capacity := by
  unfold reserve
  split
  · exact Nat.le_refl _
  · rename_i h
    exact Nat.le_of_not_lt h

/-- The last element is the one that was appended. -/
theorem load_back_push (v : GrowingArray α) (x : α) : (v.push x).load (v.push x).back = some x := by
  simp [back]

end GrowingArray

end MatchingEngine
