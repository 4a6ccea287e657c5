/-
# The behaviour of a component

While a system goes on, each of its components takes steps of its own and stays where it
is while the others take theirs. What it does is a behaviour: an infinite sequence of its
states, with a label wherever it takes a step. Its own components have behaviours too.

What the steps of the component keep holds at all times. If it has a step that leads
back to where it is, its behaviour goes through the states of an execution.
-/

import NetDiscovery.Semantics.Execution

namespace NetDiscovery.Semantics

variable {State Label State' Label' : Type*} {step : State → Label → Option State} {s : State}
  {step' : State' → Label' → Option State'}

/-- An infinite run from `s` that may stay where it is. -/
structure Behaviour (step : State → Label → Option State) (s : State) where
  state : ℕ → State
  label : ℕ → Option Label
  start : state 0 = s
  next : ∀ n, StepOrStay step (state n) (label n) (state (n + 1))

namespace Behaviour

variable (b : Behaviour step s)

/-- Whenever the request stands, some step from then on answers it. -/
def Answers (request : State → Prop) (answer : State → Label → Prop) : Prop :=
  ∀ n, request (b.state n) → ∃ m, n ≤ m ∧ ∃ a, b.label m = some a ∧ answer (b.state m) a

theorem next_cases (n : ℕ) : (b.label n = none ∧ b.state (n + 1) = b.state n) ∨
    ∃ a, b.label n = some a ∧ step (b.state n) a = some (b.state (n + 1)) := by
  have hnext := b.next n
  cases hlabel : b.label n with
  | none =>
    rw [hlabel] at hnext
    exact .inl ⟨rfl, hnext⟩
  | some a =>
    rw [hlabel] at hnext
    exact .inr ⟨a, rfl, hnext⟩

theorem step_of_label {a : Label} {n : ℕ} (hlabel : b.label n = some a) :
    step (b.state n) a = some (b.state (n + 1)) := by
  have hnext := b.next n
  rwa [hlabel] at hnext

/-- What steps keep goes on to hold. -/
theorem keeps {P : State → Prop} (kept : ∀ v a w, P v → step v a = some w → P w) (n : ℕ)
    (hholds : P (b.state n)) : P (b.state (n + 1)) := by
  rcases b.next_cases n with ⟨-, hstays⟩ | ⟨a, -, hstep⟩
  · rwa [hstays]
  · exact kept _ _ _ hholds hstep

theorem stable {P : State → Prop} (kept : ∀ v a w, P v → step v a = some w → P w) {m n : ℕ}
    (hle : m ≤ n) (hholds : P (b.state m)) : P (b.state n) := by
  induction n, hle using Nat.le_induction with
  | base => exact hholds
  | succ n _ ih => exact b.keeps kept n ih

/-- An invariant holds at all times. -/
theorem invariant {I : State → Prop} (initial : I s)
    (preserved : ∀ v a w, I v → step v a = some w → I w) (n : ℕ) : I (b.state n) :=
  b.stable preserved (Nat.zero_le n) (b.start.symm ▸ initial)

/-- So does what those steps keep that are taken. -/
theorem invariant_of_guard {I : State → Prop} {C : Label → Prop} (initial : I s)
    (preserved : ∀ v a w, I v → C a → step v a = some w → I w)
    (hguard : ∀ n a, b.label n = some a → C a) (n : ℕ) : I (b.state n) := by
  induction n with
  | zero => exact b.start.symm ▸ initial
  | succ n ih =>
    rcases b.next_cases n with ⟨-, hstays⟩ | ⟨a, hlabel, hstep⟩
    · rwa [hstays]
    · exact preserved _ _ _ ih (hguard n a hlabel) hstep

/-- A component that can step to where it is need not stay. -/
def execution (idle : State → Label) (hidle : ∀ v, step v (idle v) = some v) :
    Execution step s where
  state := b.state
  label n := (b.label n).getD (idle (b.state n))
  start := b.start
  next n := by
    rcases b.next_cases n with ⟨hlabel, hstays⟩ | ⟨a, hlabel, hstep⟩
    · rw [hlabel, hstays]
      exact hidle _
    · rw [hlabel]
      exact hstep

theorem label_execution (idle : State → Label) (hidle : ∀ v, step v (idle v) = some v) (n : ℕ) :
    (b.execution idle hidle).label n = (b.label n).getD (idle (b.state n)) :=
  rfl

end Behaviour

/-- What a component does in a behaviour of the whole. -/
def Behaviour.component (b : Behaviour step s) (f : State → State')
    (g : State × Label → Option Label')
    (refines : ∀ n a, b.label n = some a →
      StepOrStay step' (f (b.state n)) (g (b.state n, a)) (f (b.state (n + 1)))) :
    Behaviour step' (f s) where
  state n := f (b.state n)
  label n := (b.label n).bind fun a => g (b.state n, a)
  start := congrArg f b.start
  next n := by
    rcases b.next_cases n with ⟨hlabel, hstays⟩ | ⟨a, hlabel, -⟩
    · rw [hlabel, hstays]
      rfl
    · rw [hlabel]
      exact refines n a hlabel

section Component

variable {b : Behaviour step s} {f : State → State'} {g : State × Label → Option Label'}
  {refines : ∀ n a, b.label n = some a →
    StepOrStay step' (f (b.state n)) (g (b.state n, a)) (f (b.state (n + 1)))}

theorem Behaviour.label_component {n : ℕ} {a : Label} (hlabel : b.label n = some a) :
    (b.component f g refines).label n = g (b.state n, a) := by
  change (b.label n).bind _ = _
  rw [hlabel, Option.bind_some]

theorem Behaviour.label_component_of_none {n : ℕ} (hlabel : b.label n = none) :
    (b.component f g refines).label n = none := by
  change (b.label n).bind _ = _
  rw [hlabel, Option.bind_none]

/-- A step of the component is one of the whole. -/
theorem Behaviour.exists_label_of_component {n : ℕ} {a' : Label'}
    (hlabel : (b.component f g refines).label n = some a') :
    ∃ a, b.label n = some a ∧ g (b.state n, a) = some a' :=
  Option.bind_eq_some_iff.mp hlabel

/-- The component answers when the whole does so for it. -/
theorem Behaviour.Answers.component {request : State' → Prop} {answer : State' → Label' → Prop}
    (answers : b.Answers (fun v => request (f v))
      fun v a => ∃ a', g (v, a) = some a' ∧ answer (f v) a') :
    (b.component f g refines).Answers request answer := by
  intro n hrequest
  obtain ⟨m, hle, a, hlabel, a', hg, hanswer⟩ := answers n hrequest
  exact ⟨m, hle, a', (Behaviour.label_component hlabel).trans hg, hanswer⟩

end Component

/-- The execution that goes through the same states answers as the behaviour does. -/
theorem Behaviour.Answers.execution {b : Behaviour step s} {idle : State → Label}
    {hidle : ∀ v, step v (idle v) = some v} {request : State → Prop}
    {answer : State → Label → Prop} (answers : b.Answers request answer) :
    (b.execution idle hidle).Answers request answer := by
  intro n hrequest
  obtain ⟨m, hle, a, hlabel, hanswer⟩ := answers n hrequest
  refine ⟨m, hle, ?_⟩
  have hsame : (b.execution idle hidle).label m = a := by
    rw [b.label_execution, hlabel, Option.getD_some]
  rw [hsame]
  exact hanswer

/-- A run that stays where it has come to. -/
def Behaviour.ofExec {labels : List Label} {t : State} (hexec : exec step s labels = some t) :
    Behaviour step s where
  state n := (exec step s (labels.take n)).getD t
  label n := labels[n]?
  start := rfl
  next n := by
    rcases Nat.lt_or_ge n labels.length with hlt | hge
    · rw [List.getElem?_eq_getElem hlt]
      exact step_exec_take hexec hlt t
    · rw [List.take_of_length_le hge, List.take_of_length_le (Nat.le_succ_of_le hge),
        List.getElem?_eq_none hge]
      rfl

/-- What holds of each of its labels holds of all its steps. -/
theorem Behaviour.forall_ofExec {labels : List Label} {t : State}
    {hexec : exec step s labels = some t} {P : State → Label → Prop}
    (hholds : ∀ n (hn : n < labels.length), P ((exec step s (labels.take n)).getD t) labels[n])
    (n : ℕ) (a : Label) (hlabel : (Behaviour.ofExec hexec).label n = some a) :
    P ((Behaviour.ofExec hexec).state n) a := by
  obtain ⟨hn, rfl⟩ := List.getElem?_eq_some_iff.mp hlabel
  exact hholds n hn

/-- A request that does not stand at the end is answered if the labels answer it. -/
theorem Behaviour.answers_ofExec {labels : List Label} {t : State}
    {hexec : exec step s labels = some t} {request : State → Prop} {answer : State → Label → Prop}
    (hend : ¬ request t)
    (hbefore : ∀ n < labels.length, request ((exec step s (labels.take n)).getD t) →
      ∃ m, ∃ hm : m < labels.length, n ≤ m ∧
        answer ((exec step s (labels.take m)).getD t) labels[m]) :
    (Behaviour.ofExec hexec).Answers request answer := by
  intro n hrequest
  rcases Nat.lt_or_ge n labels.length with hlt | hge
  · obtain ⟨m, hm, hle, hanswer⟩ := hbefore n hlt hrequest
    exact ⟨m, hle, labels[m], List.getElem?_eq_getElem hm, hanswer⟩
  · change request ((exec step s (labels.take n)).getD t) at hrequest
    rw [List.take_of_length_le hge, hexec] at hrequest
    exact absurd hrequest hend

end NetDiscovery.Semantics
