/-
# Byte arrays as little-endian numbers

An array of `n` bytes, least significant byte first, is a number below `256 ^ n`,
and every such number is the value of exactly one array. Reading the bytes of a
larger number keeps its remainder modulo `256 ^ n`. The numbers are ordered as
their bytes are, compared from the most significant one.
-/

import Mathlib.Algebra.BigOperators.Fin
import Mathlib.Data.List.OfFn
import Mathlib.Data.UInt
import Mathlib.Tactic.Ring

namespace NetDiscovery.Math

variable {n : ℕ}

/-- The number a byte array denotes, least significant byte first. -/
def leValue (bytes : Fin n → UInt8) : ℕ :=
  ∑ i, (bytes i).toNat * 256 ^ (i : ℕ)

/-- The bytes of a number, least significant byte first: byte `i` is the number
shifted right by `8 * i` bits and cut to eight bits. -/
def leBytes (n : ℕ) (number : ℕ) : Fin n → UInt8 :=
  fun i => UInt8.ofNat ((number >>> (8 * (i : ℕ))) &&& 0xFF)

theorem leBytes_toNat (number : ℕ) (i : Fin n) :
    (leBytes n number i).toNat = number / 256 ^ (i : ℕ) % 256 := by
  have hmask : ∀ x : ℕ, x &&& 0xFF = x % 256 := fun x => Nat.and_two_pow_sub_one_eq_mod x 8
  rw [leBytes, hmask, Nat.shiftRight_eq_div_pow, pow_mul, UInt8.toNat_ofNat']
  exact Nat.mod_mod _ _

/-- A byte as a digit to base 256. -/
private def digit (byte : UInt8) : Fin 256 := byte.toFin

private theorem leValue_eq_finFunctionFinEquiv (bytes : Fin n → UInt8) :
    leValue bytes = finFunctionFinEquiv fun i => digit (bytes i) := by
  rw [finFunctionFinEquiv_apply]
  rfl

/-- `n` bytes denote a number below `256 ^ n`. -/
theorem leValue_lt (bytes : Fin n → UInt8) : leValue bytes < 256 ^ n := by
  rw [leValue_eq_finFunctionFinEquiv]
  exact (finFunctionFinEquiv _).isLt

/-- Different arrays denote different numbers. -/
theorem leValue_injective : Function.Injective (leValue : (Fin n → UInt8) → ℕ) := by
  intro first second hvalue
  rw [leValue_eq_finFunctionFinEquiv, leValue_eq_finFunctionFinEquiv] at hvalue
  have hbytes := finFunctionFinEquiv.injective (Fin.ext hvalue)
  funext i
  exact UInt8.toFin_inj.mp (congrFun hbytes i)

private theorem mod_pow_div_mod (number : ℕ) {i m : ℕ} (hi : i < m) :
    number % 256 ^ m / 256 ^ i % 256 = number / 256 ^ i % 256 := by
  obtain ⟨k, rfl⟩ := Nat.exists_eq_add_of_lt hi
  -- byte `i` of the remainder is byte `i` of the number, as `256 ^ (i + 1)` divides `256 ^ m`
  have hpow : 256 ^ (i + k + 1) = 256 ^ i * (256 * 256 ^ k) := by ring
  rw [hpow, Nat.mod_mul_right_div_self, Nat.mod_mod_of_dvd _ (Dvd.intro _ rfl)]

/-- Taking the bytes of a number and reading them back cuts it to `n` bytes. -/
theorem leValue_leBytes (number : ℕ) : leValue (leBytes n number) = number % 256 ^ n := by
  -- both sides have the same digits to base 256
  have hdigits : ∀ i : Fin n, digit (leBytes n number i) =
      finFunctionFinEquiv.symm ⟨number % 256 ^ n, Nat.mod_lt _ (Nat.pow_pos (by decide))⟩ i := by
    intro i
    apply Fin.ext
    rw [finFunctionFinEquiv_symm_apply_val]
    exact (leBytes_toNat number i).trans (mod_pow_div_mod number i.isLt).symm
  rw [leValue_eq_finFunctionFinEquiv, funext hdigits, Equiv.apply_symm_apply]

theorem leBytes_leValue (bytes : Fin n → UInt8) : leBytes n (leValue bytes) = bytes :=
  leValue_injective (by rw [leValue_leBytes, Nat.mod_eq_of_lt (leValue_lt bytes)])

/-- Only the remainder modulo `256 ^ n` reaches the bytes. -/
theorem leBytes_congr {a b : ℕ} (hmod : a % 256 ^ n = b % 256 ^ n) :
    leBytes n a = leBytes n b :=
  leValue_injective (by rw [leValue_leBytes, leValue_leBytes, hmod])

/-! ## Order -/

/-- The last byte is the leading digit. -/
theorem leValue_succ (bytes : Fin (n + 1) → UInt8) :
    leValue bytes =
      leValue (fun i => bytes i.castSucc) + (bytes (Fin.last n)).toNat * 256 ^ n := by
  simp [leValue, Fin.sum_univ_castSucc]

theorem reverse_ofFn_succ {α : Type*} (f : Fin (n + 1) → α) :
    (List.ofFn f).reverse = f (Fin.last n) :: (List.ofFn fun i => f i.castSucc).reverse := by
  rw [List.ofFn_succ', List.concat_eq_append, List.reverse_append]
  rfl

/-- Two numbers compare by their leading digits, and below equal ones by the rest. -/
private theorem add_mul_lt_add_mul_iff {low low' size : ℕ} (digit digit' : ℕ) (hlow : low < size)
    (hlow' : low' < size) :
    low + digit * size < low' + digit' * size ↔ digit < digit' ∨ digit = digit' ∧ low < low' := by
  rcases lt_trichotomy digit digit' with hlt | rfl | hgt
  · have hmul := Nat.mul_le_mul_right size (Nat.succ_le_of_lt hlt)
    rw [Nat.succ_mul] at hmul
    exact iff_of_true (by omega) (.inl hlt)
  · simp
  · have hmul := Nat.mul_le_mul_right size (Nat.succ_le_of_lt hgt)
    rw [Nat.succ_mul] at hmul
    exact iff_of_false (by omega) (by omega)

/-- Numbers are ordered as their bytes are, from the most significant one on. -/
theorem leValue_lt_leValue_iff (first second : Fin n → UInt8) :
    leValue first < leValue second ↔ (List.ofFn first).reverse < (List.ofFn second).reverse := by
  induction n with
  | zero => simp [leValue]
  | succ n ih =>
    rw [leValue_succ, leValue_succ, add_mul_lt_add_mul_iff _ _ (leValue_lt _) (leValue_lt _), ih,
      reverse_ofFn_succ, reverse_ofFn_succ, List.cons_lt_cons_iff, UInt8.lt_iff_toNat_lt,
      UInt8.toNat_inj]

end NetDiscovery.Math
