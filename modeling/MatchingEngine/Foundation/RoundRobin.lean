import Mathlib.Data.Int.CardIntervalMod

/-!
# Round robin

Turns are given to places in rotation. The numbers of turns of any two places differ by one at
most, and no place gets a second turn before every place has had one.
-/

namespace MatchingEngine

/-- The places that get the turns. -/
def roundRobin (places turns : ℕ) : List ℕ := (List.range turns).map fun turn => turn % places

namespace RoundRobin

variable {places turns place : ℕ}

@[simp] theorem zero : roundRobin places 0 = [] := rfl

/-- One turn more. -/
theorem succ : roundRobin places (turns + 1) = roundRobin places turns ++ [turns % places] := by
  rw [roundRobin, List.range_succ, List.map_append]
  rfl

/-- A place that gets a turn is one of the places, and one of the first as many as there are turns. -/
theorem lt_of_mem (hplaces : 0 < places) (h : place ∈ roundRobin places turns) : place < places ∧ place < turns := by
  obtain ⟨turn, hturn, rfl⟩ := List.mem_map.mp h
  exact ⟨Nat.mod_lt _ hplaces, (Nat.mod_le ..).trans_lt (List.mem_range.mp hturn)⟩

/-- How many turns a place gets. -/
theorem count_eq (hplace : place < places) :
    (roundRobin places turns).count place = turns / places + if place < turns % places then 1 else 0 := by
  have hcount := Nat.count_modEq_card turns (Nat.zero_lt_of_lt hplace) place
  rw [Nat.mod_eq_of_lt hplace] at hcount
  rw [← hcount, roundRobin, Nat.count, List.count, List.countP_map]
  refine List.countP_congr fun turn _ => ?_
  simp [Nat.ModEq, Nat.mod_eq_of_lt hplace]

/-- Two places get the same number of turns, or one of them gets one turn more. -/
theorem count_le_succ {other : ℕ} (hplace : place < places) (hother : other < places) :
    (roundRobin places turns).count place ≤ (roundRobin places turns).count other + 1 := by
  rw [count_eq hplace, count_eq hother]
  split <;> split <;> omega

/-- If there are no more turns than places, every place gets one turn at most. -/
theorem count_le_one (hturns : turns ≤ places) (hplace : place < places) : (roundRobin places turns).count place ≤ 1 := by
  rw [count_eq hplace]
  rcases hturns.lt_or_eq with hlt | rfl
  · rw [Nat.div_eq_of_lt hlt]
    split <;> omega
  · rw [Nat.div_self (Nat.zero_lt_of_lt hplace), Nat.mod_self, if_neg (Nat.not_lt_zero _)]

/-- If there are more turns than places, the first place gets a second one. -/
theorem one_lt_count (hplaces : 0 < places) (hturns : places < turns) : 1 < (roundRobin places turns).count 0 := by
  have hdiv : 0 < turns / places := Nat.div_pos hturns.le hplaces
  have hsplit := Nat.div_add_mod turns places
  rw [count_eq hplaces]
  split
  · omega
  · rename_i hmod
    have hzero : turns % places = 0 := by omega
    have hne : turns / places ≠ 1 := by
      intro hone
      rw [hone, hzero] at hsplit
      omega
    omega

end RoundRobin

end MatchingEngine
