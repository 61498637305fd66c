import Mathlib.Data.Finmap

/-!
# Dictionaries with an inserting access operator

A finite map with the two ways in which a hash map of the standard library grows: an
insertion that keeps an existing value, and the access operator, which inserts an initial
value under a key that is not present. Reading through the access operator is therefore
split into the value it refers to and the keys it leaves behind.
-/

namespace MatchingEngine

/-- A finite map from keys to values. -/
abbrev Dictionary (κ α : Type*) := Finmap fun _ : κ => α

namespace Dictionary

variable {κ α : Type*} [DecidableEq κ] (d : Dictionary κ α) (key other : κ) (value initial : α)

/-- Insert a value under a new key; a key that is present keeps its value. -/
def insertNew : Dictionary κ α := if key ∈ d then d else d.insert key value

/-- The value that the access operator refers to. -/
def valueAt : α := (d.lookup key).getD initial

/-- Write through the access operator. -/
def assign : Dictionary κ α := Finmap.insert key value d

/-- The access operator adds its key. -/
@[simp] theorem mem_insertNew : other ∈ d.insertNew key value ↔ other = key ∨ other ∈ d := by
  unfold insertNew
  split
  · rename_i hkey
    exact ⟨Or.inr, fun h => h.elim (fun heq => heq ▸ hkey) id⟩
  · exact Finmap.mem_insert

/-- Under a key that is present, nothing is inserted. -/
theorem insertNew_of_mem (h : key ∈ d) : d.insertNew key value = d := if_pos h

/-- Inserting the initial value does not change what the access operator refers to. -/
@[simp] theorem valueAt_insertNew : (d.insertNew key initial).valueAt other initial = d.valueAt other initial := by
  unfold insertNew
  split
  · rfl
  · rename_i hkey
    by_cases heq : other = key
    · rw [valueAt, valueAt, heq, Finmap.lookup_insert, Finmap.lookup_eq_none.mpr hkey]
      rfl
    · rw [valueAt, valueAt, Finmap.lookup_insert_of_ne d heq]

/-- An insertion takes effect under a new key only. -/
theorem valueAt_insertNew_eq :
    (d.insertNew key value).valueAt other initial =
      if other = key ∧ key ∉ d then value else d.valueAt other initial := by
  unfold insertNew
  by_cases hkey : key ∈ d
  · rw [if_pos hkey, if_neg fun h => h.2 hkey]
  · rw [if_neg hkey]
    by_cases heq : other = key
    · rw [if_pos ⟨heq, hkey⟩, valueAt, heq, Finmap.lookup_insert]
      rfl
    · rw [if_neg fun h => heq h.1, valueAt, valueAt, Finmap.lookup_insert_of_ne d heq]

/-- Writing through the access operator adds its key. -/
@[simp] theorem mem_assign : other ∈ d.assign key value ↔ other = key ∨ other ∈ d := Finmap.mem_insert

/-- Writing through the access operator changes one value. -/
@[simp] theorem valueAt_assign :
    (d.assign key value).valueAt other initial = if other = key then value else d.valueAt other initial := by
  unfold valueAt assign
  split
  · rename_i heq
    rw [heq, Finmap.lookup_insert]
    rfl
  · rename_i heq
    rw [Finmap.lookup_insert_of_ne d heq]

/-- An empty dictionary holds the initial value everywhere. -/
@[simp] theorem valueAt_empty : valueAt (∅ : Dictionary κ α) key initial = initial := by
  rw [valueAt, Finmap.lookup_empty]
  rfl

end Dictionary

end MatchingEngine
