/-
# Iterating over a sequence

A range-based `for` loop over a `Sequence` holds an iterator with the counter,
compares it with the end iterator before each round, runs its body on the
counter and increments it. `to<>()` is the loop whose body appends the counter
to a container.

An increment may read memory that it never wrote. What it finds there is part of
the environment, a stream with an element for each increment of the loop. If it
makes no difference to the counter left behind, the loop is the plain one, and on
a cyclic type it counts from `first` up to `last`, modulo the size of the type.
-/

import Mathlib.Data.List.Basic
import NetDiscovery.Util.Sequence

namespace NetDiscovery.Util

open NetDiscovery.Math

variable {T E S : Type*}

/-- `Sequence<T>::Iterator`. -/
structure Iterator (T : Type*) where
  value : T

namespace Iterator

/-- `Iterator::operator++()`: `next` is what `value++` leaves behind. -/
def increment (next : E → T → T) (found : E) (iterator : Iterator T) : Iterator T :=
  ⟨next found iterator.value⟩

/-- `Iterator::operator==`. -/
def equal [DecidableEq T] (iterator rhs : Iterator T) : Bool :=
  iterator.value = rhs.value

/-- `Iterator::operator!=`. -/
def notEqual [DecidableEq T] (iterator rhs : Iterator T) : Bool :=
  !iterator.equal rhs

@[simp]
theorem notEqual_iff [DecidableEq T] {iterator rhs : Iterator T} :
    iterator.notEqual rhs = true ↔ iterator.value ≠ rhs.value := by
  simp [notEqual, equal]

end Iterator

namespace Sequence

/-- `Sequence::begin`. -/
def beginIterator (sequence : Sequence T) : Iterator T :=
  ⟨sequence.first⟩

/-- `Sequence::end`. -/
def endIterator (sequence : Sequence T) : Iterator T :=
  ⟨sequence.last⟩

variable [DecidableEq T]

/-- A range-based `for` loop: what its body has made of `state` when the loop ends.
`none` says that it has not ended within the fuel, which pays for the rounds. -/
def forEach (next : E → T → T) (body : S → T → S) (last : Iterator T) :
    ℕ → (ℕ → E) → Iterator T → S → Option S
  | 0, _, iterator, state => if iterator.notEqual last then none else some state
  | fuel + 1, environment, iterator, state =>
    if iterator.notEqual last then
      forEach next body last fuel (fun k => environment (k + 1))
        (iterator.increment next (environment 0)) (body state iterator.value)
    else some state

/-- The loop over a whole sequence. -/
def iterate (next : E → T → T) (body : S → T → S) (sequence : Sequence T) (fuel : ℕ)
    (environment : ℕ → E) (state : S) : Option S :=
  forEach next body sequence.endIterator fuel environment sequence.beginIterator state

/-- `Sequence::to<>()`: the loop that calls `push_back` on a container. -/
def toContainer (next : E → T → T) (sequence : Sequence T) (fuel : ℕ) (environment : ℕ → E) :
    Option (List T) :=
  iterate next (fun cont self => cont ++ [self]) sequence fuel environment []

variable {next : E → T → T} {body : S → T → S} {environment : ℕ → E} {sequence : Sequence T}
  {first last value : T} {fuel size : ℕ} {state : S} {succ : T → T} {index : T → ℕ}
  {values : List T}

/-- If what an increment finds in memory makes no difference, the body is run on
the values of the plain loop. -/
theorem forEach_eq_loop [Incrementable T] (hnext : ∀ found v, next found v = increment v) :
    forEach next body ⟨last⟩ fuel environment ⟨value⟩ state =
      (loop last fuel value).map (List.foldl body state) := by
  induction fuel generalizing environment value state with
  | zero => by_cases hvalue : value = last <;> simp [forEach, loop, hvalue]
  | succ fuel ih =>
    by_cases hvalue : value = last
    · simp [forEach, loop, hvalue]
    · have hrest : forEach next body ⟨last⟩ fuel (fun k => environment (k + 1)) ⟨increment value⟩
          (body state value) =
          (loop last fuel (increment value)).map (List.foldl body (body state value)) := ih
      simpa [forEach, loop, Iterator.increment, hvalue, hnext, Function.comp_def] using hrest

/-- What a loop over a sequence of a cyclic type does; `index` numbers the `size`
values of the type. -/
structure Enumerates (next : E → T → T) (index : T → ℕ) (size : ℕ) (environment : ℕ → E)
    (sequence : Sequence T) (values : List T) : Prop where
  /-- It takes as many steps as the bounds differ by, modulo `size`. -/
  steps : (values.length : ℤ) = ((index sequence.last : ℤ) - index sequence.first) % size
  /-- Its values count up from `first`, modulo `size`. -/
  element : ∀ (i : ℕ) (hi : i < values.length),
    index values[i] = (index sequence.first + i) % size
  nodup : values.Nodup
  last_notMem : sequence.last ∉ values
  /-- It ends after exactly these steps, and its body has seen exactly these values. -/
  ends : ∀ {S : Type} (body : S → T → S) (state : S) (fuel : ℕ),
    iterate next body sequence fuel environment state =
      if values.length ≤ fuel then some (values.foldl body state) else none
  collects : ∀ fuel, toContainer next sequence fuel environment =
    if values.length ≤ fuel then some values else none

/-- The loop ends after exactly the steps from `first` to `last`. -/
theorem iterate_of_cyclic (cyclic : Cyclic succ index size)
    (hnext : ∀ found v, next found v = succ v) (body : S → T → S) (state : S) (fuel : ℕ) :
    iterate next body sequence fuel environment state =
      if Cyclic.steps index size sequence.first sequence.last ≤ fuel then
        some ((List.iterate succ sequence.first
          (Cyclic.steps index size sequence.first sequence.last)).foldl body state)
      else none := by
  let _ : Incrementable T := ⟨succ⟩
  rw [iterate, beginIterator, endIterator, forEach_eq_loop hnext]
  split_ifs with hfuel
  · exact congrArg _ (elements_of_cyclic cyclic sequence hfuel)
  · have hnone : loop sequence.last fuel sequence.first = none :=
      loop_eq_none fun i hi => cyclic.iterate_ne_of_lt_steps (by omega)
    rw [hnone, Option.map_none]

/-- On a cyclic type, whatever the increments find in memory, the loop counts from
`first` up to `last`. -/
theorem enumerates_of_cyclic (cyclic : Cyclic succ index size)
    (hnext : ∀ found v, next found v = succ v) (environment : ℕ → E) (sequence : Sequence T) :
    Enumerates next index size environment sequence (List.iterate succ sequence.first
      (Cyclic.steps index size sequence.first sequence.last)) where
  steps := by
    rw [List.length_iterate]
    exact cyclic.cast_steps _ _
  element i hi := by
    rw [List.getElem_iterate, cyclic.index_iterate]
  nodup := cyclic.nodup_iterate_steps _ _
  last_notMem := cyclic.target_notMem_iterate_steps _ _
  ends body state fuel := by
    rw [List.length_iterate]
    exact iterate_of_cyclic cyclic hnext body state fuel
  collects fuel := by
    rw [List.length_iterate, toContainer, iterate_of_cyclic cyclic hnext]
    -- appending one value after the other copies the list
    rw [List.foldl_append_eq_append, List.nil_append, ← List.flatMap_def, List.flatMap_singleton']

end Sequence

end NetDiscovery.Util
