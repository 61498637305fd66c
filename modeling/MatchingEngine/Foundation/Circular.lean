import Mathlib.Data.List.Range
import Mathlib.Data.Nat.ModEq

/-!
# Circular positions

Positions that are counted without bound and stored modulo a capacity. As long as fewer
positions than the capacity are in use, the stored positions determine how many there are,
and the position after the last one is not in use.
-/

namespace MatchingEngine.Circular

/-- The stored positions of a stretch, in order. -/
def slots (capacity start count : ℕ) : List ℕ := (List.range count).map fun i => (start + i) % capacity

/-- The position after a stored position, computed from an `int` position and a `size_t` capacity. -/
def nextInt (capacity : BitVec 64) (position : BitVec 32) : BitVec 32 :=
  ((position + 1#32).signExtend 64 % capacity).setWidth 32

/-- How many positions lie between two stored positions. -/
def distance (capacity first last : ℕ) : ℕ := (last + capacity - first) % capacity

variable {capacity start count : ℕ}

@[simp] theorem slots_zero : slots capacity start 0 = [] := rfl

@[simp] theorem slots_length : (slots capacity start count).length = count := by
  rw [slots, List.length_map, List.length_range]

/-- The first position of a stretch. -/
theorem slots_succ : slots capacity start (count + 1) = start % capacity :: slots capacity (start + 1) count := by
  rw [slots, List.range_succ_eq_map, List.map_cons, List.map_map]
  refine congrArg _ (List.map_congr_left fun i _ => ?_)
  simp only [Function.comp, Nat.succ_eq_add_one]
  congr 1
  omega

/-- The last position of a stretch. -/
theorem slots_concat : slots capacity start (count + 1) = slots capacity start count ++ [(start + count) % capacity] := by
  rw [slots, List.range_succ, List.map_append]
  rfl

/-- A stretch may be counted from its stored start. -/
@[simp] theorem slots_mod : slots capacity (start % capacity) count = slots capacity start count :=
  List.map_congr_left fun i _ => Nat.mod_add_mod start capacity i

/-- The position after a stretch is not one of its positions. -/
theorem not_mem_slots (hcount : count < capacity) : (start + count) % capacity ∉ slots capacity start count := by
  intro hmem
  obtain ⟨i, hi, heq⟩ := List.mem_map.mp hmem
  have hlt := List.mem_range.mp hi
  have hmod : i ≡ count [MOD capacity] := Nat.ModEq.add_left_cancel' start heq
  have := hmod.eq_of_lt_of_lt (by omega) hcount
  omega

/-- Stored positions are a stretch apart that is shorter than the capacity. -/
theorem distance_mod (hcount : count < capacity) : distance capacity (start % capacity) ((start + count) % capacity) = count := by
  have hpos : 0 < capacity := by omega
  have hlt := Nat.mod_lt start hpos
  have hmod : ((start + count) % capacity + (capacity - start % capacity)) ≡ count [MOD capacity] := by
    refine Nat.ModEq.add_left_cancel' (start % capacity) ?_
    calc start % capacity + ((start + count) % capacity + (capacity - start % capacity))
        = (start + count) % capacity + capacity := by omega
      _ ≡ (start + count) % capacity [MOD capacity] := Nat.add_modEq_right
      _ ≡ start % capacity + count [MOD capacity] := by
        rw [Nat.ModEq, Nat.mod_mod, Nat.mod_add_mod]
  rw [distance, Nat.add_sub_assoc hlt.le]
  exact Nat.mod_eq_of_modEq hmod hcount

/-- The stored position after a stretch meets its start exactly when the stretch fills the capacity. -/
theorem next_mod_eq_iff (hcount : count < capacity) :
    (start + count + 1) % capacity = start % capacity ↔ count + 1 = capacity := by
  constructor
  · intro heq
    have hmod : start + (count + 1) ≡ start + 0 [MOD capacity] := heq
    have hdvd := (Nat.modEq_zero_iff_dvd.mp (Nat.ModEq.add_left_cancel' start hmod))
    have := Nat.le_of_dvd (by omega) hdvd
    omega
  · rintro rfl
    rw [Nat.add_assoc]
    exact Nat.add_mod_right ..

/-- Stored positions at the ends of a stretch agree exactly when the stretch is empty. -/
theorem mod_eq_iff (hcount : count < capacity) : start % capacity = (start + count) % capacity ↔ count = 0 := by
  constructor
  · intro heq
    have hmod : start + 0 ≡ start + count [MOD capacity] := heq
    exact ((Nat.ModEq.add_left_cancel' start hmod).eq_of_lt_of_lt (by omega) hcount).symm
  · rintro rfl
    rfl

/-- Machine arithmetic is exact for capacities that fit an `int`. -/
theorem nextInt_toNat {position : ℕ} (hposition : position < capacity) (hfits : capacity < 2 ^ 31) :
    (nextInt (BitVec.ofNat 64 capacity) (BitVec.ofNat 32 position)).toNat = (position + 1) % capacity := by
  have hsum : (BitVec.ofNat 32 position + 1#32).toNat = position + 1 := by
    simp only [BitVec.toNat_add, BitVec.toNat_ofNat]
    omega
  have hmsb : (BitVec.ofNat 32 position + 1#32).msb = false := by
    rw [BitVec.msb_eq_decide, hsum, decide_eq_false_iff_not]
    omega
  have hlt : (position + 1) % capacity < capacity := Nat.mod_lt _ (by omega)
  have hcapacity : (BitVec.ofNat 64 capacity).toNat = capacity := by
    rw [BitVec.toNat_ofNat]
    omega
  rw [nextInt, BitVec.signExtend_eq_setWidth_of_msb_false hmsb, BitVec.toNat_setWidth, BitVec.toNat_umod,
    BitVec.toNat_setWidth, hsum, hcapacity, Nat.mod_eq_of_lt (show position + 1 < 2 ^ 64 by omega)]
  exact Nat.mod_eq_of_lt (by omega)

end MatchingEngine.Circular
