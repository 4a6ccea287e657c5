/-
# Numbers that wrap around

A `WrapAround` counts in an integer type from `Min` to `Max` and starts over. It
steps the stored number first, in the arithmetic of the type, and then puts a
number outside of the bounds at the other end.

A step over a bound that is also the end of the type is not outside of the bounds
on that side any more. With both bounds at the ends the type itself does the
wrapping. With one bound there the number is put back where it was.
-/

import Mathlib
import NetDiscovery.Math.Cyclic
import NetDiscovery.Math.FixedWidth

namespace NetDiscovery.Util

open NetDiscovery.Math

/-- The constants `Min` and `Max`. -/
structure Bounds (T : IntegerType) where
  min : T.Value
  max : T.Value
  min_le_max : min.toInt ≤ max.toInt

/-- `util::WrapAround`. -/
structure WrapAround {T : IntegerType} (bounds : Bounds T) where
  value : T.Value
  min_le : bounds.min.toInt ≤ value.toInt
  le_max : value.toInt ≤ bounds.max.toInt

variable {T : IntegerType}

namespace Bounds

variable (bounds : Bounds T)

/-- `MinValue == numeric_limits<T>::min()`. -/
def MinIsNatural : Prop :=
  bounds.min.toInt = T.min

/-- `MaxValue == numeric_limits<T>::max()`. -/
def MaxIsNatural : Prop :=
  bounds.max.toInt = T.max

instance : Decidable bounds.MinIsNatural :=
  inferInstanceAs (Decidable (_ = _))

instance : Decidable bounds.MaxIsNatural :=
  inferInstanceAs (Decidable (_ = _))

/-- How many numbers lie within the bounds. -/
def size : ℤ :=
  bounds.max.toInt - bounds.min.toInt + 1

/-- Both bounds are ends of the type, or neither is, or there is one number only. -/
def EndTogether : Prop :=
  (bounds.MinIsNatural ↔ bounds.MaxIsNatural) ∨ bounds.min.toInt = bounds.max.toInt

end Bounds

namespace WrapAround

variable {bounds : Bounds T}

/-- `WrapAround::wrap`, and so the constructor from a value. -/
def wrap (bounds : Bounds T) (value : T.Value) : WrapAround bounds :=
  if hnatural : bounds.MinIsNatural ∧ bounds.MaxIsNatural then
    ⟨value, hnatural.1.le.trans value.min_le_toInt, value.toInt_le_max.trans hnatural.2.ge⟩
  else if hlow : value.toInt < bounds.min.toInt then ⟨bounds.max, bounds.min_le_max, le_rfl⟩
  else if hhigh : bounds.max.toInt < value.toInt then ⟨bounds.min, le_rfl, bounds.min_le_max⟩
  else ⟨value, le_of_not_gt hlow, le_of_not_gt hhigh⟩

/-- `operator++`. -/
def increment (x : WrapAround bounds) : WrapAround bounds :=
  wrap bounds x.value.increment

/-- `operator--`. -/
def decrement (x : WrapAround bounds) : WrapAround bounds :=
  wrap bounds x.value.decrement

/-- The stored number. -/
def toInt (x : WrapAround bounds) : ℤ :=
  x.value.toInt

/-- `Min`, which the default constructor starts from, and `Max`. -/
def least (bounds : Bounds T) : WrapAround bounds :=
  ⟨bounds.min, le_rfl, bounds.min_le_max⟩

def greatest (bounds : Bounds T) : WrapAround bounds :=
  ⟨bounds.max, bounds.min_le_max, le_rfl⟩

@[simp]
theorem toInt_least : (least bounds).toInt = bounds.min.toInt :=
  rfl

@[simp]
theorem toInt_greatest : (greatest bounds).toInt = bounds.max.toInt :=
  rfl

/-- Counting up and down goes around the numbers within the bounds. -/
structure Lawful (bounds : Bounds T) : Prop where
  iterate_increment : ∀ (x : WrapAround bounds) (n : ℕ), (increment^[n] x).toInt =
    bounds.min.toInt + (x.toInt - bounds.min.toInt + n) % bounds.size
  iterate_decrement : ∀ (x : WrapAround bounds) (n : ℕ), (decrement^[n] x).toInt =
    bounds.max.toInt - (bounds.max.toInt - x.toInt + n) % bounds.size
  decrement_increment : ∀ x : WrapAround bounds, x.increment.decrement = x
  increment_decrement : ∀ x : WrapAround bounds, x.decrement.increment = x

theorem toInt_injective : Function.Injective (toInt : WrapAround bounds → ℤ) := by
  rintro ⟨v, hlow, hhigh⟩ ⟨w, hlow', hhigh'⟩ heq
  obtain rfl := IntegerType.Value.toInt_injective heq
  rfl

theorem toInt_wrap (value : T.Value) : (wrap bounds value).toInt =
    if bounds.MinIsNatural ∧ bounds.MaxIsNatural then value.toInt
    else if value.toInt < bounds.min.toInt then bounds.max.toInt
    else if bounds.max.toInt < value.toInt then bounds.min.toInt
    else value.toInt := by
  unfold wrap
  split_ifs <;> rfl

/-- What one `++` does. At the end of the type it goes astray if that is the upper
bound only. -/
theorem toInt_increment (x : WrapAround bounds) : x.increment.toInt =
    if x.toInt < bounds.max.toInt then x.toInt + 1
    else if bounds.MaxIsNatural ∧ ¬ bounds.MinIsNatural then bounds.max.toInt
    else bounds.min.toInt := by
  have hlow : bounds.min.toInt ≤ x.value.toInt := x.min_le
  have hhigh : x.value.toInt ≤ bounds.max.toInt := x.le_max
  have hmin := bounds.min.min_le_toInt
  have hmax := bounds.max.toInt_le_max
  unfold increment
  rw [toInt_wrap, IntegerType.Value.toInt_increment]
  unfold toInt Bounds.MinIsNatural Bounds.MaxIsNatural
  split_ifs <;> omega

/-- What one `--` does. -/
theorem toInt_decrement (x : WrapAround bounds) : x.decrement.toInt =
    if bounds.min.toInt < x.toInt then x.toInt - 1
    else if bounds.MinIsNatural ∧ ¬ bounds.MaxIsNatural then bounds.min.toInt
    else bounds.max.toInt := by
  have hlow : bounds.min.toInt ≤ x.value.toInt := x.min_le
  have hhigh : x.value.toInt ≤ bounds.max.toInt := x.le_max
  have hmin := bounds.min.min_le_toInt
  have hmax := bounds.max.toInt_le_max
  unfold decrement
  rw [toInt_wrap, IntegerType.Value.toInt_decrement]
  unfold toInt Bounds.MinIsNatural Bounds.MaxIsNatural
  split_ifs <;> omega

/-! ## The cycles of `++` and `--` -/

theorem toInt_increment_of_endTogether (hends : bounds.EndTogether) (x : WrapAround bounds) :
    x.increment.toInt = if x.toInt < bounds.max.toInt then x.toInt + 1 else bounds.min.toInt := by
  rw [toInt_increment]
  split_ifs with hlt hastray
  · rfl
  · exact (hends.resolve_left fun h => hastray.2 (h.mpr hastray.1)).symm
  · rfl

theorem toInt_decrement_of_endTogether (hends : bounds.EndTogether) (x : WrapAround bounds) :
    x.decrement.toInt = if bounds.min.toInt < x.toInt then x.toInt - 1 else bounds.max.toInt := by
  rw [toInt_decrement]
  split_ifs with hlt hastray
  · rfl
  · exact hends.resolve_left fun h => hastray.2 (h.mp hastray.1)
  · rfl

/-- The distance from `Min`. -/
def index (x : WrapAround bounds) : ℕ :=
  (x.toInt - bounds.min.toInt).toNat

/-- The distance from `Max`. -/
def coindex (x : WrapAround bounds) : ℕ :=
  (bounds.max.toInt - x.toInt).toNat

theorem natCast_index (x : WrapAround bounds) : (x.index : ℤ) = x.toInt - bounds.min.toInt :=
  Int.toNat_of_nonneg (Int.sub_nonneg_of_le x.min_le)

theorem natCast_coindex (x : WrapAround bounds) :
    (x.coindex : ℤ) = bounds.max.toInt - x.toInt :=
  Int.toNat_of_nonneg (Int.sub_nonneg_of_le x.le_max)

theorem natCast_size (bounds : Bounds T) :
    (bounds.size.toNat : ℤ) = bounds.max.toInt - bounds.min.toInt + 1 := by
  have hle := bounds.min_le_max
  refine Int.toNat_of_nonneg ?_
  unfold Bounds.size
  omega

theorem index_add_coindex (x : WrapAround bounds) :
    x.index + x.coindex + 1 = bounds.size.toNat := by
  have hindex := x.natCast_index
  have hcoindex := x.natCast_coindex
  have hsize := natCast_size bounds
  omega

theorem index_injective : Function.Injective (index : WrapAround bounds → ℕ) := by
  intro x y heq
  have hx := x.natCast_index
  have hy := y.natCast_index
  exact toInt_injective (by omega)

theorem coindex_injective : Function.Injective (coindex : WrapAround bounds → ℕ) := by
  intro x y heq
  have hx := x.index_add_coindex
  have hy := y.index_add_coindex
  exact index_injective (by omega)

theorem cyclic_increment (hends : bounds.EndTogether) :
    Cyclic (increment : WrapAround bounds → WrapAround bounds) index bounds.size.toNat := by
  refine .of_restart (fun x => ?_) index_injective (fun x hlt => ?_) fun x hlast => ?_
  · have hsum := x.index_add_coindex
    omega
  all_goals
    have hsum := x.index_add_coindex
    have hindex := x.natCast_index
    have hcoindex := x.natCast_coindex
    have hnext := x.increment.natCast_index
    rw [toInt_increment_of_endTogether hends] at hnext
  · rw [if_pos (by omega)] at hnext
    omega
  · rw [if_neg (by omega)] at hnext
    omega

theorem cyclic_decrement (hends : bounds.EndTogether) :
    Cyclic (decrement : WrapAround bounds → WrapAround bounds) coindex bounds.size.toNat := by
  refine .of_restart (fun x => ?_) coindex_injective (fun x hlt => ?_) fun x hlast => ?_
  · have hsum := x.index_add_coindex
    omega
  all_goals
    have hsum := x.index_add_coindex
    have hindex := x.natCast_index
    have hcoindex := x.natCast_coindex
    have hnext := x.decrement.natCast_coindex
    rw [toInt_decrement_of_endTogether hends] at hnext
  · rw [if_pos (by omega)] at hnext
    omega
  · rw [if_neg (by omega)] at hnext
    omega

/-! ## The law -/

theorem lawful_of_endTogether (hends : bounds.EndTogether) : Lawful bounds where
  iterate_increment x n := by
    have hiterate := congrArg (Nat.cast : ℕ → ℤ) ((cyclic_increment hends).index_iterate x n)
    push_cast [natCast_index, natCast_size] at hiterate
    unfold Bounds.size
    omega
  iterate_decrement x n := by
    have hiterate := congrArg (Nat.cast : ℕ → ℤ) ((cyclic_decrement hends).index_iterate x n)
    push_cast [natCast_coindex, natCast_size] at hiterate
    unfold Bounds.size
    omega
  decrement_increment x := by
    have hlow : bounds.min.toInt ≤ x.toInt := x.min_le
    have hhigh : x.toInt ≤ bounds.max.toInt := x.le_max
    apply toInt_injective
    rw [toInt_decrement_of_endTogether hends, toInt_increment_of_endTogether hends]
    split_ifs <;> omega
  increment_decrement x := by
    have hlow : bounds.min.toInt ≤ x.toInt := x.min_le
    have hhigh : x.toInt ≤ bounds.max.toInt := x.le_max
    apply toInt_injective
    rw [toInt_increment_of_endTogether hends, toInt_decrement_of_endTogether hends]
    split_ifs <;> omega

/-- If the bounds do not end together, the step over the end of the type stays. -/
theorem endTogether_of_lawful (lawful : Lawful bounds) : bounds.EndTogether := by
  have hup : (greatest bounds).increment.toInt = bounds.min.toInt := by
    have hlaw := lawful.iterate_increment (greatest bounds) 1
    rw [Function.iterate_one, toInt_greatest, Nat.cast_one] at hlaw
    exact hlaw.trans (by simp [Bounds.size])
  have hdown : (least bounds).decrement.toInt = bounds.max.toInt := by
    have hlaw := lawful.iterate_decrement (least bounds) 1
    rw [Function.iterate_one, toInt_least, Nat.cast_one] at hlaw
    exact hlaw.trans (by simp [Bounds.size])
  rw [toInt_increment, toInt_greatest, if_neg (lt_irrefl _)] at hup
  rw [toInt_decrement, toInt_least, if_neg (lt_irrefl _)] at hdown
  by_cases hmin : bounds.MinIsNatural
  · by_cases hmax : bounds.MaxIsNatural
    · exact .inl (iff_of_true hmin hmax)
    · rw [if_pos ⟨hmin, hmax⟩] at hdown
      exact .inr hdown
  · by_cases hmax : bounds.MaxIsNatural
    · rw [if_pos ⟨hmax, hmin⟩] at hup
      exact .inr hup.symm
    · exact .inl (iff_of_false hmin hmax)

/-- **Counting goes around the bounds precisely when both of them are ends of the
type, or neither is, or there is one number only.** -/
theorem lawful_iff (bounds : Bounds T) : Lawful bounds ↔ bounds.EndTogether :=
  ⟨endTogether_of_lawful, lawful_of_endTogether⟩

/-- Bounds of which the lower one alone is the end of the type. -/
def upToTen : Bounds .uint8 :=
  ⟨.ofInt _ 0, .ofInt _ 10, by decide⟩

/-- `--` stays at zero. -/
theorem not_lawful_upToTen : ¬ Lawful upToTen := by
  intro lawful
  have hlaw := lawful.iterate_decrement (least upToTen) 1
  revert hlaw
  decide

end WrapAround

end NetDiscovery.Util
