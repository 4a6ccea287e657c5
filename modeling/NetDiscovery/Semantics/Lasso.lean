/-
# Runs that go round

A finite run that comes back to a state it has visited goes on forever by going round.
Each time of such an execution has a position in the finite run, and what is asked of
all times is asked of the positions: a request is answered if, from its position on or
on the way round, it is answered somewhere.
-/

import Mathlib.Data.Nat.ModEq
import NetDiscovery.Semantics.Execution

namespace NetDiscovery.Semantics

variable {State Label : Type*} {step : State → Label → Option State} {s t : State}
  {labels : List Label} {back n : ℕ}

namespace Lasso

/-- The position of a time: from `back` on the run goes round. -/
def position (labels : List Label) (back n : ℕ) : ℕ :=
  if n < back then n else back + (n - back) % (labels.length - back)

/-- The state at a position. -/
def stateAt (step : State → Label → Option State) (s : State) (labels : List Label) (i : ℕ) :
    State :=
  (exec step s (labels.take i)).getD s

theorem position_lt (hback : back < labels.length) : position labels back n < labels.length := by
  have hmod := Nat.mod_lt (n - back) (Nat.sub_pos_of_lt hback)
  unfold position
  split_ifs <;> omega

theorem position_of_lt (hlt : n < labels.length) : position labels back n = n := by
  unfold position
  split_ifs with hbefore
  · rfl
  · rw [Nat.mod_eq_of_lt (by omega)]
    omega

/-- The position after the last one is `back` again. -/
theorem position_succ (hback : back < labels.length) :
    position labels back (n + 1) = position labels back n + 1 ∨
      position labels back n + 1 = labels.length ∧ position labels back (n + 1) = back := by
  have hmod := Nat.mod_lt (n - back) (Nat.sub_pos_of_lt hback)
  unfold position
  by_cases hbefore : n + 1 < back
  · simp [hbefore, Nat.lt_of_succ_lt hbefore]
  · by_cases hat : n < back
    · have hback' : n + 1 = back := by omega
      simp [← hback']
    · rw [if_neg hbefore, if_neg hat, Nat.succ_sub (Nat.le_of_not_lt hat), Nat.succ_eq_add_one,
        ← Nat.mod_add_mod]
      rcases Nat.lt_or_ge ((n - back) % (labels.length - back) + 1) (labels.length - back) with
        hgoes | hround
      · rw [Nat.mod_eq_of_lt hgoes]
        omega
      · have hlast : (n - back) % (labels.length - back) + 1 = labels.length - back := by omega
        rw [hlast, Nat.mod_self]
        omega

/-- Every position from `back` on is reached again. -/
theorem exists_position (hback : back < labels.length) {j : ℕ} (hj : j < labels.length)
    (hle : min n back ≤ j) (hlater : n < back ∨ back ≤ j) :
    ∃ m, n ≤ m ∧ position labels back m = j := by
  rcases Nat.lt_or_ge n back with hbefore | hafter
  · exact ⟨j, by omega, position_of_lt hj⟩
  · have hround : back ≤ j := by omega
    have hdiv := Nat.div_add_mod (n - back) (labels.length - back)
    have hmod := Nat.mod_lt (n - back) (Nat.sub_pos_of_lt hback)
    refine ⟨back + ((labels.length - back) * ((n - back) / (labels.length - back) + 1) +
      (j - back)), ?_, ?_⟩
    · rw [Nat.mul_add]
      omega
    · unfold position
      rw [if_neg (by omega), Nat.add_sub_cancel_left, Nat.mul_add_mod,
        Nat.mod_eq_of_lt (by omega)]
      omega

end Lasso

open Lasso

/-- The run goes through its labels, and from `back` on again and again. -/
def Execution.ofLasso (hexec : exec step s labels = some t)
    (hloop : exec step s (labels.take back) = some t) (hback : back < labels.length) :
    Execution step s where
  state n := stateAt step s labels (position labels back n)
  label n := labels.get ⟨position labels back n, position_lt hback⟩
  start := by
    rw [position_of_lt (Nat.zero_lt_of_lt hback)]
    rfl
  next n := by
    have hstate : stateAt step s labels (position labels back (n + 1)) =
        stateAt step s labels (position labels back n + 1) := by
      rcases position_succ (n := n) hback with hsucc | ⟨hlast, hround⟩
      · rw [hsucc]
      · -- the last label leads back
        rw [hround, hlast, stateAt, stateAt, hloop, List.take_length, hexec]
    rw [hstate]
    exact step_exec_take hexec (position_lt hback) s

section OfLasso

variable {hexec : exec step s labels = some t} {hloop : exec step s (labels.take back) = some t}
  {hback : back < labels.length}

/-- What holds at all positions from `n` on, up to where the run goes round, holds at all
times from then on. -/
theorem Execution.forall_ofLasso {P : State → Label → Prop} {N : ℕ} (hle : N ≤ back)
    (hholds : ∀ i (hi : i < labels.length), N ≤ i →
      P (stateAt step s labels i) (labels.get ⟨i, hi⟩))
    (n : ℕ) (hn : N ≤ n) :
    P ((Execution.ofLasso hexec hloop hback).state n)
      ((Execution.ofLasso hexec hloop hback).label n) := by
  refine hholds _ (position_lt hback) ?_
  unfold position
  split_ifs <;> omega

/-- A request is answered if it is answered at a later position, or on the way round. -/
theorem Execution.answers_ofLasso {request : State → Prop} {answer : State → Label → Prop}
    (hanswered : ∀ i < labels.length, request (stateAt step s labels i) →
      ∃ j, ∃ hj : j < labels.length, min i back ≤ j ∧
        answer (stateAt step s labels j) (labels.get ⟨j, hj⟩)) :
    (Execution.ofLasso hexec hloop hback).Answers request answer := by
  intro n hrequest
  obtain ⟨j, hj, hle, hanswer⟩ := hanswered _ (position_lt hback) hrequest
  have hpos : min n back ≤ j ∧ (n < back ∨ back ≤ j) := by
    unfold position at hle
    split_ifs at hle <;> omega
  obtain ⟨m, hnm, rfl⟩ := exists_position hback hj hpos.1 hpos.2
  exact ⟨m, hnm, hanswer⟩

end OfLasso

end NetDiscovery.Semantics
