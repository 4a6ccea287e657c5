/-
# Sequences

A `Sequence` runs from `first` to `last` by post-increment and stops when the
counter equals `last`; there is no order test. `rangeOf` normalises the bounds
it is given: wrapped bounds are incremented by calling the wrapper, or by
looking at which wrapper they carry.

The loop is run with fuel. It returns a list exactly when the counter meets
`last`, and the list then holds the values before that; on a cyclic type it
always does, after the difference of the bounds modulo the size of the type.
-/

import NetDiscovery.Math.Cyclic

namespace NetDiscovery.Util

open NetDiscovery.Math

/-- Types with the post-increment `Sequence` asks for: the value left behind. -/
class Incrementable (T : Type*) where
  increment : T → T

export Incrementable (increment)

/-- `util::Sequence<T>`. -/
structure Sequence (T : Type*) where
  first : T
  last : T

/-- `util::Inclusive<T>` and `util::Exclusive<T>`, the two bound wrappers. -/
inductive Bound (T : Type*)
  | inclusive (value : T)
  | exclusive (value : T)

variable {T : Type*} [Incrementable T] {first last value : T} {fuel k : ℕ} {values : List T}

/-- `operator()` of either wrapper: increment the stored value and return it. -/
def Bound.call : Bound T → T
  | inclusive value => increment value
  | exclusive value => increment value

/-- `rangeOf(T begin, T end)`. -/
def rangeOf (first last : T) : Sequence T :=
  ⟨first, last⟩

/-- `rangeOf(Begin<T> begin, End<T> end)`. -/
def rangeOfBounds (first last : Bound T) : Sequence T :=
  ⟨match first with
    | .inclusive value => value
    | .exclusive _ => first.call,
   match last with
    | .inclusive _ => last.call
    | .exclusive value => value⟩

/-- `rangeOf(Begin<T> begin, T end)`. -/
def rangeOfBegin (first : Bound T) (last : T) : Sequence T :=
  ⟨first.call, last⟩

/-- `rangeOf(T begin, End<T> end)`. -/
def rangeOfEnd (first : T) (last : Bound T) : Sequence T :=
  ⟨first, last.call⟩

namespace Sequence

variable [DecidableEq T]

/-- The range-based `for` loop from `value` on: the values it visits. `none`
says that the counter did not meet `last` within the fuel. -/
def loop (last : T) : ℕ → T → Option (List T)
  | 0, value => if value = last then some [] else none
  | fuel + 1, value =>
    if value = last then some []
    else (loop last fuel (increment value)).map (value :: ·)

/-- The values of a whole sequence. -/
def elements (sequence : Sequence T) (fuel : ℕ) : Option (List T) :=
  loop sequence.last fuel sequence.first

/-- The loop visits the first `k` values when the counter meets `last` after
`k` steps and not before. -/
theorem loop_eq_iterate (hmeet : increment^[k] value = last)
    (hbefore : ∀ i < k, increment^[i] value ≠ last) (hfuel : k ≤ fuel) :
    loop last fuel value = some (List.iterate increment value k) := by
  induction k generalizing value fuel with
  | zero =>
    have hvalue : value = last := hmeet
    cases fuel <;> simp [loop, hvalue]
  | succ k ih =>
    -- the first value is visited, and the rest meets `last` one step earlier
    obtain ⟨fuel, rfl⟩ := Nat.exists_eq_add_of_le' (by omega : 1 ≤ fuel)
    have hvalue : value ≠ last := hbefore 0 (by omega)
    have hrest : loop last fuel (increment value) =
        some (List.iterate increment (increment value) k) :=
      ih hmeet (fun i hi => hbefore (i + 1) (by omega)) (Nat.le_of_succ_le_succ hfuel)
    simp [loop, hvalue, hrest]

/-- The loop does not end within fuel too little to meet `last`. -/
theorem loop_eq_none (hbefore : ∀ i ≤ fuel, increment^[i] value ≠ last) :
    loop last fuel value = none := by
  have hvalue : value ≠ last := hbefore 0 (Nat.zero_le _)
  induction fuel generalizing value with
  | zero => simp [loop, hvalue]
  | succ fuel ih =>
    have hrest : loop last fuel (increment value) = none :=
      ih (fun i hi => hbefore (i + 1) (by omega)) (hbefore 1 (by omega))
    simp [loop, hvalue, hrest]

/-- More fuel changes nothing once the loop has ended. -/
theorem loop_mono (hloop : loop last fuel value = some values) {fuel' : ℕ} (hle : fuel ≤ fuel') :
    loop last fuel' value = some values := by
  induction fuel generalizing value values fuel' with
  | zero =>
    by_cases hvalue : value = last
    · cases fuel' <;> simp_all [loop]
    · simp [loop, hvalue] at hloop
  | succ fuel ih =>
    obtain ⟨fuel', rfl⟩ := Nat.exists_eq_add_of_le' (Nat.one_le_of_lt (Nat.lt_of_succ_le hle))
    by_cases hvalue : value = last
    · simpa [loop, hvalue] using hloop
    · simp only [loop, hvalue, if_false, Option.map_eq_some_iff] at hloop ⊢
      obtain ⟨rest, hrest, rfl⟩ := hloop
      exact ⟨rest, ih hrest (Nat.le_of_succ_le_succ hle), rfl⟩

/-- The result does not depend on the fuel. -/
theorem loop_unique {fuel' : ℕ} {values' : List T} (hloop : loop last fuel value = some values)
    (hloop' : loop last fuel' value = some values') : values = values' := by
  -- both results are the result at the larger fuel
  have hmax := loop_mono hloop (le_max_left fuel fuel')
  rw [loop_mono hloop' (le_max_right fuel fuel')] at hmax
  exact (Option.some.inj hmax).symm

/-- On a cyclic type the loop always ends, after the difference of the bounds. -/
theorem elements_of_cyclic {index : T → ℕ} {size : ℕ} (cyclic : Cyclic increment index size)
    (sequence : Sequence T) (hfuel : Cyclic.steps index size sequence.first sequence.last ≤ fuel) :
    sequence.elements fuel = some (List.iterate increment sequence.first
      (Cyclic.steps index size sequence.first sequence.last)) :=
  loop_eq_iterate (cyclic.iterate_steps _ _) (fun _ => cyclic.iterate_ne_of_lt_steps) hfuel

end Sequence

end NetDiscovery.Util
