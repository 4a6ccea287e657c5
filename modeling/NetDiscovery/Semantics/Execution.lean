/-
# Infinite runs

An execution takes a step at every time. Up to each time it is a run, so what holds
of every run holds of it at all times. What it does eventually rests on fairness: a
request that stands at some time is answered by a step at that time or later.

A finite run that ends in a state with a step back to itself goes on forever.
-/

import Mathlib.Order.Nat
import Mathlib.Data.Nat.Init
import NetDiscovery.Semantics.Run

namespace NetDiscovery.Semantics

variable {State Label : Type*} {step : State → Label → Option State} {s t : State} {a : Label}
  {labels : List Label} {m n : ℕ}

/-- An infinite run from `s`. -/
structure Execution (step : State → Label → Option State) (s : State) where
  state : ℕ → State
  label : ℕ → Label
  start : state 0 = s
  next : ∀ n, step (state n) (label n) = some (state (n + 1))

namespace Execution

/-- The steps before time `n`. -/
def trace (e : Execution step s) (n : ℕ) : List (State × Label) :=
  (List.range n).map fun i => (e.state i, e.label i)

/-- Whenever the request stands, some step from then on answers it. -/
def Answers (e : Execution step s) (request : State → Prop) (answer : State → Label → Prop) :
    Prop :=
  ∀ n, request (e.state n) → ∃ m, n ≤ m ∧ answer (e.state m) (e.label m)

variable (e : Execution step s)

theorem trace_succ (n : ℕ) : e.trace (n + 1) = e.trace n ++ [(e.state n, e.label n)] := by
  simp [trace, List.range_succ]

/-- Up to each time an execution is a run. -/
theorem run (n : ℕ) : Run step s (e.trace n) (e.state n) := by
  induction n with
  | zero =>
    rw [e.start]
    exact .nil
  | succ n ih =>
    rw [e.trace_succ]
    exact ih.snoc (e.next n)

/-- What steps keep holds from some time on. -/
theorem stable {P : State → Prop} (kept : ∀ v a w, P v → step v a = some w → P w)
    (hholds : P (e.state m)) (hle : m ≤ n) : P (e.state n) := by
  induction n, hle using Nat.le_induction with
  | base => exact hholds
  | succ n _ ih => exact kept _ _ _ ih (e.next n)

end Execution

/-- Labels are taken one after the other. -/
theorem exec_append (first second : List Label) :
    exec step s (first ++ second) = (exec step s first).bind fun t => exec step t second := by
  induction first generalizing s with
  | nil => rfl
  | cons a first ih =>
    simp only [List.cons_append, exec, Option.bind_assoc]
    exact congrArg _ (funext fun t => ih)

theorem exists_exec_take (hexec : exec step s labels = some t) (n : ℕ) :
    ∃ u, exec step s (labels.take n) = some u := by
  rw [← List.take_append_drop n labels, exec_append] at hexec
  obtain ⟨u, htake, -⟩ := Option.bind_eq_some_iff.mp hexec
  exact ⟨u, htake⟩

/-- Each label is a step from the state that those before it lead to. -/
theorem step_exec_take (hexec : exec step s labels = some t) (hlt : n < labels.length)
    (d : State) : step ((exec step s (labels.take n)).getD d) labels[n] =
      some ((exec step s (labels.take (n + 1))).getD d) := by
  obtain ⟨u, hbefore⟩ := exists_exec_take hexec n
  obtain ⟨w, hafter⟩ := exists_exec_take hexec (n + 1)
  rw [hbefore, hafter]
  rw [List.take_succ_eq_append_getElem hlt, exec_append, hbefore] at hafter
  simpa [exec] using hafter

/-- Up to the end of the labels the run is theirs, and then it stays where it is. -/
def Execution.ofLoop (hexec : exec step s labels = some t) (hloop : step t a = some t) :
    Execution step s where
  state n := (exec step s (labels.take n)).getD t
  label n := labels[n]?.getD a
  start := rfl
  next n := by
    rcases Nat.lt_or_ge n labels.length with hlt | hge
    · rw [List.getElem?_eq_getElem hlt]
      exact step_exec_take hexec hlt t
    · rw [List.take_of_length_le hge, List.take_of_length_le (Nat.le_succ_of_le hge), hexec,
        List.getElem?_eq_none hge]
      exact hloop

section Loop

variable {hexec : exec step s labels = some t} {hloop : step t a = some t}

theorem Execution.state_ofLoop (hle : labels.length ≤ n) :
    (Execution.ofLoop hexec hloop).state n = t := by
  change (exec step s (labels.take n)).getD t = t
  rw [List.take_of_length_le hle, hexec]
  rfl

theorem Execution.label_ofLoop (hle : labels.length ≤ n) :
    (Execution.ofLoop hexec hloop).label n = a := by
  change labels[n]?.getD a = a
  rw [List.getElem?_eq_none hle]
  rfl

/-- What holds up to the end of the labels and of the state they lead to always holds. -/
theorem Execution.forall_state_ofLoop {P : State → Prop} (hend : P t)
    (hbefore : ∀ n < labels.length, P ((Execution.ofLoop hexec hloop).state n)) (n : ℕ) :
    P ((Execution.ofLoop hexec hloop).state n) := by
  rcases Nat.lt_or_ge n labels.length with hlt | hge
  · exact hbefore n hlt
  · rw [Execution.state_ofLoop hge]
    exact hend

/-- A request that does not stand at the end is answered if it is answered before. -/
theorem Execution.answers_ofLoop {request : State → Prop} {answer : State → Label → Prop}
    (hend : ¬ request t)
    (hbefore : ∀ n < labels.length, request ((Execution.ofLoop hexec hloop).state n) →
      ∃ m, n ≤ m ∧ answer ((Execution.ofLoop hexec hloop).state m)
        ((Execution.ofLoop hexec hloop).label m)) :
    (Execution.ofLoop hexec hloop).Answers request answer := by
  intro n hrequest
  rcases Nat.lt_or_ge n labels.length with hlt | hge
  · exact hbefore n hlt hrequest
  · rw [Execution.state_ofLoop hge] at hrequest
    exact absurd hrequest hend

end Loop

end NetDiscovery.Semantics
