/-
# Promises and the futures they serve

A promise and its future share one state: nothing has been stored yet, a value
has been stored, or the promise was destroyed before it stored one. A store
keeps the shared states of all promises handed out so far, each under its own
number, so that a table may own promises while callers hold the futures.

Storing a second value throws, so the operation is partial. Destroying a
promise whose state is already settled changes nothing.
-/

import Mathlib.Data.Nat.Basic
import Mathlib.Logic.Function.Basic

namespace NetDiscovery.Semantics

/-- The state shared by a promise and its future. -/
inductive SharedState (α : Type*)
  /-- no value yet -/
  | unset
  /-- `set_value` was called -/
  | value (v : α)
  /-- the promise was destroyed before a value was stored -/
  | broken
  deriving DecidableEq

/-- What a shared state becomes when its promise is destroyed. -/
def SharedState.abandoned {α : Type*} : SharedState α → SharedState α
  | .unset => .broken
  | state => state

theorem SharedState.abandoned_of_ne_unset {α : Type*} {state : SharedState α}
    (hset : state ≠ .unset) : state.abandoned = state := by
  cases state with
  | unset => exact absurd rfl hset
  | value | broken => rfl

theorem SharedState.abandoned_ne_unset {α : Type*} {state : SharedState α} :
    state.abandoned ≠ .unset := by
  cases state <;> simp [abandoned]

/-- The shared states of all promises, numbered in the order of creation. -/
structure PromiseStore (α : Type*) where
  next : ℕ
  cell : ℕ → SharedState α

namespace PromiseStore

variable {α : Type*} {s s' : PromiseStore α} {p : ℕ} {v : α}

/-- No promise has been created. -/
def empty : PromiseStore α where
  next := 0
  cell _ := .unset

/-- Create a promise; its number is the store's `next`. -/
def create (s : PromiseStore α) : PromiseStore α :=
  { s with next := s.next + 1 }

/-- Store a value. The result is `none` where `std::promise` throws because a
value is stored already or the state is gone. -/
def setValue (s : PromiseStore α) (p : ℕ) (v : α) : Option (PromiseStore α) :=
  match s.cell p with
  | .unset => some { s with cell := Function.update s.cell p (.value v) }
  | _ => none

/-- Destroy a promise. Its future is broken unless a value was stored. -/
def abandon (s : PromiseStore α) (p : ℕ) : PromiseStore α :=
  match s.cell p with
  | .unset => { s with cell := Function.update s.cell p .broken }
  | _ => s

@[simp]
theorem create_next : s.create.next = s.next + 1 := rfl

@[simp]
theorem create_cell : s.create.cell p = s.cell p := rfl

/-- A value is stored exactly when none was before. -/
theorem setValue_eq_some_iff : s.setValue p v = some s' ↔
    s.cell p = .unset ∧ s' = { s with cell := Function.update s.cell p (.value v) } := by
  unfold setValue
  cases s.cell p <;> simp [eq_comm]

theorem setValue_of_unset (hunset : s.cell p = .unset) :
    s.setValue p v = some { s with cell := Function.update s.cell p (.value v) } :=
  setValue_eq_some_iff.mpr ⟨hunset, rfl⟩

theorem abandon_of_unset (hunset : s.cell p = .unset) :
    s.abandon p = { s with cell := Function.update s.cell p .broken } := by
  simp [abandon, hunset]

/-- A promise with a value is not broken by being destroyed. -/
theorem abandon_of_value (hvalue : s.cell p = .value v) : s.abandon p = s := by
  simp [abandon, hvalue]

end PromiseStore

end NetDiscovery.Semantics
