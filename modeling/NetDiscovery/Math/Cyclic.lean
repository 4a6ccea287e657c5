/-
# Counting up around a cycle

A successor on a finite cycle of `size` elements adds one to an element's index,
modulo `size`. Counting up from one element to another takes a fixed number of
steps, the difference of the indices modulo `size`, and meets the target at no
earlier step. As long as no wrap happens the indices count up by one.
-/

import Mathlib.Data.Int.ModEq
import Mathlib.Data.List.Iterate
import Mathlib.Data.Nat.ModEq

namespace NetDiscovery.Math

variable {α : Type*} {succ : α → α} {index : α → ℕ} {size : ℕ} {a b : α} {i j k : ℕ}

/-- `succ` walks around the cycle `index` numbers from `0` to `size - 1`. -/
structure Cyclic (succ : α → α) (index : α → ℕ) (size : ℕ) : Prop where
  index_lt : ∀ a, index a < size
  index_injective : Function.Injective index
  index_succ : ∀ a, index (succ a) = (index a + 1) % size

namespace Cyclic

/-- The number of steps from `a` up to `b`. -/
def steps (index : α → ℕ) (size : ℕ) (a b : α) : ℕ :=
  (index b + size - index a) % size

/-- A successor that adds one to the index, and starts over at the last element. -/
theorem of_restart (index_lt : ∀ a, index a < size) (index_injective : Function.Injective index)
    (next : ∀ a, index a + 1 < size → index (succ a) = index a + 1)
    (restart : ∀ a, index a + 1 = size → index (succ a) = 0) : Cyclic succ index size where
  index_lt := index_lt
  index_injective := index_injective
  index_succ a := by
    have hle : index a + 1 ≤ size := index_lt a
    rcases hle.lt_or_eq with hlt | hlast
    · rw [next a hlt, Nat.mod_eq_of_lt hlt]
    · rw [restart a hlast, hlast, Nat.mod_self]

variable (cyclic : Cyclic succ index size)

include cyclic

theorem index_iterate (a : α) (k : ℕ) : index (succ^[k] a) = (index a + k) % size := by
  induction k with
  | zero => exact (Nat.mod_eq_of_lt (cyclic.index_lt a)).symm
  | succ k ih =>
    rw [Function.iterate_succ_apply', cyclic.index_succ, ih, Nat.mod_add_mod, add_assoc]

/-- Before the wrap the indices count up by one. -/
theorem index_iterate_of_lt (hlt : index a + k < size) : index (succ^[k] a) = index a + k := by
  rw [cyclic.index_iterate, Nat.mod_eq_of_lt hlt]

/-- Counting up by the difference reaches the target. -/
theorem iterate_steps (a b : α) : succ^[steps index size a b] a = b := by
  apply cyclic.index_injective
  have ha := cyclic.index_lt a
  rw [cyclic.index_iterate, steps, Nat.add_mod_mod]
  have hsum : index a + (index b + size - index a) = index b + size := by omega
  rw [hsum, Nat.add_mod_right, Nat.mod_eq_of_lt (cyclic.index_lt b)]

/-- The target is not met before that. -/
theorem iterate_ne_of_lt_steps (hk : k < steps index size a b) : succ^[k] a ≠ b := by
  rintro rfl
  have ha := cyclic.index_lt a
  have hsize : k < size := hk.trans (Nat.mod_lt _ (by omega))
  rw [steps, cyclic.index_iterate] at hk
  by_cases hwrap : index a + k < size
  -- the `k`-th element is `k` steps away, whether or not the count has wrapped
  · rw [Nat.mod_eq_of_lt hwrap] at hk
    have hsum : index a + k + size - index a = k + size := by omega
    rw [hsum, Nat.add_mod_right, Nat.mod_eq_of_lt hsize] at hk
    exact lt_irrefl k hk
  · have hmod : (index a + k) % size = index a + k - size := by
      rw [Nat.mod_eq_sub_mod (by omega), Nat.mod_eq_of_lt (by omega)]
    rw [hmod] at hk
    have hsum : index a + k - size + size - index a = k := by omega
    rw [hsum, Nat.mod_eq_of_lt hsize] at hk
    exact lt_irrefl k hk

/-- The elements on the way to the target are all different. -/
theorem nodup_iterate_steps (a b : α) : (List.iterate succ a (steps index size a b)).Nodup := by
  have hdistinct : ∀ i j, i < j → j < steps index size a b → succ^[i] a ≠ succ^[j] a := by
    intro i j hij hj heq
    -- if the count came back to an element it would be early at the target
    have hearly : steps index size a b - j + i < steps index size a b := by omega
    refine cyclic.iterate_ne_of_lt_steps hearly ?_
    rw [Function.iterate_add_apply, heq, ← Function.iterate_add_apply, Nat.sub_add_cancel hj.le,
      cyclic.iterate_steps]
  apply List.pairwise_iff_getElem.mpr
  intro i j hi hj hij
  rw [List.length_iterate] at hj
  rw [List.getElem_iterate, List.getElem_iterate]
  exact hdistinct i j hij hj

/-- The target is not among the elements on the way to it. -/
theorem target_notMem_iterate_steps (a b : α) :
    b ∉ List.iterate succ a (steps index size a b) := by
  rw [List.mem_iterate]
  rintro ⟨k, hk, rfl⟩
  exact cyclic.iterate_ne_of_lt_steps hk rfl

/-- The number of steps is the difference modulo `size`. -/
theorem cast_steps (a b : α) :
    (steps index size a b : ℤ) = ((index b : ℤ) - index a) % size := by
  have hle : index a ≤ index b + size := by
    have ha := cyclic.index_lt a
    omega
  rw [steps, Int.natCast_mod, Nat.cast_sub hle, Nat.cast_add, add_sub_right_comm,
    Int.add_emod_right]

/-- Counting up `k` steps without a wrap lists the elements with indices from
`index a` to `index a + k - 1`. -/
theorem mem_iterate_iff (hle : index a + k ≤ size) :
    b ∈ List.iterate succ a k ↔ index a ≤ index b ∧ index b < index a + k := by
  rw [List.mem_iterate]
  constructor
  · rintro ⟨m, hm, rfl⟩
    rw [cyclic.index_iterate_of_lt (by omega)]
    omega
  · rintro ⟨hlow, hhigh⟩
    refine ⟨index b - index a, by omega, cyclic.index_injective ?_⟩
    rw [cyclic.index_iterate_of_lt (by omega)]
    omega

/-- Without a wrap the listed indices increase. -/
theorem pairwise_iterate (hle : index a + k ≤ size) :
    (List.iterate succ a k).Pairwise fun b c => index b < index c := by
  rw [List.pairwise_iff_getElem]
  intro i j hi hj hij
  rw [List.length_iterate] at hi hj
  rw [List.getElem_iterate, List.getElem_iterate, cyclic.index_iterate_of_lt (by omega),
    cyclic.index_iterate_of_lt (by omega)]
  omega

end Cyclic

end NetDiscovery.Math
