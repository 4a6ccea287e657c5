/-
# Integers of a fixed width

An integer type of `w` bits has `2 ^ w` values, from zero on or around zero.
Every integer is congruent modulo `2 ^ w` to exactly one of them, and the
arithmetic of the type keeps that one. So a successor is the integer one, unless
it leaves the type at one end and comes back at the other.
-/

import Mathlib.Algebra.Order.Ring.Int
import Mathlib.Order.Defs.LinearOrder
import Mathlib.Tactic.Ring
import Mathlib.Tactic.Positivity
import NetDiscovery.Math.Cyclic

namespace NetDiscovery.Math

/-- An integer type whose arithmetic is modulo `2 ^ width`. -/
structure IntegerType where
  width : ℕ
  signed : Bool
  width_pos : 0 < width

namespace IntegerType

/-- `std::uint8_t`. -/
def uint8 : IntegerType := ⟨8, false, by decide⟩

/-- A 32-bit `int`. -/
def int : IntegerType := ⟨32, true, by decide⟩

variable (T : IntegerType)

/-- `std::numeric_limits<T>::min()`. -/
def min : ℤ :=
  if T.signed then -2 ^ (T.width - 1) else 0

/-- `std::numeric_limits<T>::max()`. -/
def max : ℤ :=
  if T.signed then 2 ^ (T.width - 1) - 1 else 2 ^ T.width - 1

/-- The values of the type. -/
def Value : Type :=
  {x : ℤ // T.min ≤ x ∧ x ≤ T.max}

theorem max_sub_min : T.max - T.min + 1 = 2 ^ T.width := by
  obtain ⟨width, signed, hpos⟩ := T
  obtain ⟨w, rfl⟩ : ∃ w, width = w + 1 := ⟨width - 1, by omega⟩
  cases signed
  · simp [min, max]
  · simp only [min, max, if_true, Nat.add_sub_cancel, pow_succ]
    ring

/-- The value of the type that an integer is congruent to. -/
def reduce (x : ℤ) : ℤ :=
  T.min + (x - T.min) % 2 ^ T.width

variable {T}

theorem reduce_mem (x : ℤ) : T.min ≤ T.reduce x ∧ T.reduce x ≤ T.max := by
  have hpos : (0 : ℤ) < 2 ^ T.width := by positivity
  have hlow := Int.emod_nonneg (x - T.min) hpos.ne'
  have hhigh := Int.emod_lt_of_pos (x - T.min) hpos
  have hcard := T.max_sub_min
  unfold reduce
  omega

theorem reduce_of_mem {x : ℤ} (hlow : T.min ≤ x) (hhigh : x ≤ T.max) : T.reduce x = x := by
  have hcard := T.max_sub_min
  rw [reduce, Int.emod_eq_of_lt (by omega) (by omega)]
  omega

/-- One past the end is the beginning. -/
theorem reduce_max_add_one : T.reduce (T.max + 1) = T.min := by
  have hcard := T.max_sub_min
  have hend : T.max + 1 - T.min = 2 ^ T.width := by omega
  rw [reduce, hend, Int.emod_self, add_zero]

theorem reduce_min_sub_one : T.reduce (T.min - 1) = T.max := by
  have hcard := T.max_sub_min
  have hend : (T.min - 1 - T.min) % 2 ^ T.width = 2 ^ T.width - 1 := by
    have hpos : (0 : ℤ) < 2 ^ T.width := by positivity
    rw [← Int.add_emod_right, Int.emod_eq_of_lt (by omega) (by omega)]
    omega
  rw [reduce, hend]
  omega

namespace Value

/-- The value that an integer is converted to. -/
def ofInt (T : IntegerType) (x : ℤ) : T.Value :=
  ⟨T.reduce x, reduce_mem x⟩

/-- The integer that a value stands for. -/
def toInt (v : T.Value) : ℤ :=
  v.1

variable {v : T.Value}

theorem toInt_injective : Function.Injective (toInt : T.Value → ℤ) :=
  Subtype.val_injective

/-- The order of the integers. -/
instance : LinearOrder T.Value :=
  LinearOrder.lift' toInt toInt_injective

theorem lt_iff_toInt_lt {v w : T.Value} : v < w ↔ v.toInt < w.toInt := Iff.rfl

theorem min_le_toInt (v : T.Value) : T.min ≤ v.toInt :=
  v.2.1

theorem toInt_le_max (v : T.Value) : v.toInt ≤ T.max :=
  v.2.2

@[simp]
theorem toInt_ofInt (x : ℤ) : (ofInt T x).toInt = T.reduce x :=
  rfl

/-- The built-in `++`. -/
def increment (v : T.Value) : T.Value :=
  ofInt T (v.toInt + 1)

/-- The built-in `--`. -/
def decrement (v : T.Value) : T.Value :=
  ofInt T (v.toInt - 1)

theorem toInt_increment : v.increment.toInt = if v.toInt = T.max then T.min else v.toInt + 1 := by
  have hlow := v.min_le_toInt
  have hhigh := v.toInt_le_max
  unfold increment
  rw [toInt_ofInt]
  split_ifs with hmax
  · rw [hmax, reduce_max_add_one]
  · exact reduce_of_mem (by omega) (by omega)

theorem toInt_decrement : v.decrement.toInt = if v.toInt = T.min then T.max else v.toInt - 1 := by
  have hlow := v.min_le_toInt
  have hhigh := v.toInt_le_max
  unfold decrement
  rw [toInt_ofInt]
  split_ifs with hmin
  · rw [hmin, reduce_min_sub_one]
  · exact reduce_of_mem (by omega) (by omega)

/-- The distance from the least value. -/
def index (v : T.Value) : ℕ :=
  (v.toInt - T.min).toNat

theorem natCast_index (v : T.Value) : (v.index : ℤ) = v.toInt - T.min :=
  Int.toNat_of_nonneg (Int.sub_nonneg_of_le v.min_le_toInt)

theorem lt_iff_index_lt (v w : T.Value) : v < w ↔ v.index < w.index := by
  have hv := v.natCast_index
  have hw := w.natCast_index
  rw [lt_iff_toInt_lt]
  omega

/-- `++` goes around all the values of the type. -/
theorem cyclic_increment :
    Cyclic (increment : T.Value → T.Value) index (2 ^ T.width) := by
  have hcard : ((2 ^ T.width : ℕ) : ℤ) = T.max - T.min + 1 := by
    rw [max_sub_min]
    norm_num
  refine .of_restart (fun v => ?_) (fun v w heq => ?_) (fun v hlt => ?_) fun v hlast => ?_
  · have hindex := v.natCast_index
    have hmax := v.toInt_le_max
    omega
  · have hv := v.natCast_index
    have hw := w.natCast_index
    exact toInt_injective (by omega)
  all_goals
    have hindex := v.natCast_index
    have hnext := v.increment.natCast_index
    rw [toInt_increment] at hnext
  · rw [if_neg (by omega)] at hnext
    omega
  · rw [if_pos (by omega)] at hnext
    omega

end Value

end IntegerType

end NetDiscovery.Math
