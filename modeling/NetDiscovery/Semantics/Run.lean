/-
# Runs of a step function

A transition system is a partial step function: the label carries every choice
of the environment, so a state and a label determine at most one next state. A
run records, for each step, the state it started from and the label it took.

Three rules carry the invariants of such a system. An invariant kept by every
step holds wherever a run ends. An invariant kept by the steps that meet a guard
holds at the end of every run whose steps all meet it. When the guard is exactly
what each step needs to keep the property, the property holds at every visited
state precisely when every step met the guard.

A system simulates another one whose steps it answers by runs. It refines another
one if each of its steps is a step of that one, or nothing to it.
-/

import Mathlib.Data.List.Basic

namespace NetDiscovery.Semantics

variable {State Label : Type*}

/-- A run from `s`: the state before each step together with the label taken,
in order, and the state in which it ends. -/
inductive Run (step : State → Label → Option State) (s : State) :
    List (State × Label) → State → Prop
  | nil : Run step s [] s
  | snoc {trace : List (State × Label)} {v w : State} {a : Label} :
      Run step s trace v → step v a = some w → Run step s (trace ++ [(v, a)]) w

/-- Every state a run passes through, its end included. -/
def visited (trace : List (State × Label)) (final : State) : List State :=
  trace.map Prod.fst ++ [final]

/-- Take the labels one after the other, as far as the system allows it. -/
def exec (step : State → Label → Option State) : State → List Label → Option State
  | s, [] => some s
  | s, a :: labels => (step s a).bind fun t => exec step t labels

/-- The steps taken by `exec`, each with the state before it. -/
def record (step : State → Label → Option State) : State → List Label → List (State × Label)
  | _, [] => []
  | s, a :: labels => (s, a) :: ((step s a).map fun t => record step t labels).getD []

variable {step : State → Label → Option State} {s t u v w : State} {a : Label}
  {trace trace' : List (State × Label)}

@[simp]
theorem visited_snoc : visited (trace ++ [(v, a)]) w = visited trace v ++ [w] := by
  simp [visited]

theorem mem_visited_final : t ∈ visited trace t := by
  simp [visited]

/-- A run without a step stays where it is. -/
theorem Run.eq_of_nil (run : Run step s [] t) : t = s := by
  generalize hnil : [] = trace at run
  cases run with
  | nil => rfl
  | snoc => simp at hnil

theorem Run.single (hstep : step s a = some t) : Run step s [(s, a)] t :=
  .snoc .nil hstep

/-- Runs compose. -/
theorem Run.append (first : Run step s trace t) (second : Run step t trace' u) :
    Run step s (trace ++ trace') u := by
  induction second with
  | nil => simpa using first
  | snoc _ hstep ih =>
    rw [← List.append_assoc]
    exact .snoc ih hstep

/-- A recorded step was taken from the state that the run up to it reached. -/
theorem Run.split_at {l r : List (State × Label)} (run : Run step s trace t)
    (hsplit : trace = l ++ (v, a) :: r) :
    ∃ w, Run step s l v ∧ step v a = some w ∧ Run step w r t := by
  induction run generalizing r with
  | nil => simp at hsplit
  | @snoc trace v' w' a' prior hstep ih =>
    -- the step in question is the last one, or it lies in the prior run
    rcases List.eq_nil_or_concat r with rfl | ⟨r', last, rfl⟩
    · obtain ⟨rfl, hlast⟩ := List.append_inj' hsplit rfl
      obtain ⟨rfl, rfl⟩ := Prod.mk.inj (List.cons.inj hlast).1
      exact ⟨w', prior, hstep, .nil⟩
    · rw [List.concat_eq_append, ← List.cons_append, ← List.append_assoc] at hsplit
      obtain ⟨rfl, hlast⟩ := List.append_inj' hsplit rfl
      obtain rfl := (List.cons.inj hlast).1
      obtain ⟨w, hleft, hmid, hright⟩ := ih rfl
      refine ⟨w, hleft, hmid, ?_⟩
      rw [List.concat_eq_append]
      exact .snoc hright hstep

/-- The first recorded step was taken from the start of the run. -/
theorem Run.head (run : Run step s ((v, a) :: trace) t) :
    v = s ∧ ∃ w, step v a = some w ∧ Run step w trace t := by
  obtain ⟨w, hleft, hmid, hright⟩ := run.split_at (l := []) rfl
  exact ⟨hleft.eq_of_nil, w, hmid, hright⟩

/-- The last recorded step leads to the end of the run. -/
theorem Run.last (run : Run step s (trace ++ [(v, a)]) t) :
    Run step s trace v ∧ step v a = some t := by
  obtain ⟨w, hleft, hmid, hright⟩ := run.split_at rfl
  obtain rfl := hright.eq_of_nil
  exact ⟨hleft, hmid⟩

/-- Each recorded step was taken from a state that a run reaches. -/
theorem Run.step_of_mem (run : Run step s trace t) (hmem : (v, a) ∈ trace) :
    ∃ l w, Run step s l v ∧ step v a = some w := by
  obtain ⟨l, r, hsplit⟩ := List.append_of_mem hmem
  obtain ⟨w, hleft, hstep, -⟩ := run.split_at hsplit
  exact ⟨l, w, hleft, hstep⟩

/-- The state after a recorded step is visited. -/
theorem Run.mem_visited_of_step (run : Run step s trace t) (hmem : (v, a) ∈ trace)
    (hstep : step v a = some w) : w ∈ visited trace t := by
  induction run with
  | nil => cases hmem
  | snoc _ hlast ih =>
    rw [visited_snoc]
    rcases List.mem_append.mp hmem with hprior | hself
    · exact List.mem_append_left _ (ih hprior)
    · obtain ⟨rfl, rfl⟩ := Prod.mk.inj (List.mem_singleton.mp hself)
      obtain rfl := Option.some.inj (hstep.symm.trans hlast)
      exact List.mem_append_right _ (List.mem_singleton_self _)

/-- An executed list of labels is a run. -/
theorem Run.of_exec {labels : List Label} (hexec : exec step s labels = some t) :
    Run step s (record step s labels) t := by
  induction labels generalizing s with
  | nil =>
    obtain rfl := Option.some.inj hexec
    exact .nil
  | cons a labels ih =>
    obtain ⟨m, hstep, hrest⟩ := Option.bind_eq_some_iff.mp hexec
    have htail := Run.append (.single hstep) (ih hrest)
    simpa [record, hstep] using htail

theorem map_snd_record {labels : List Label} (hexec : exec step s labels = some t) :
    (record step s labels).map Prod.snd = labels := by
  induction labels generalizing s with
  | nil => rfl
  | cons a labels ih =>
    obtain ⟨m, hstep, hrest⟩ := Option.bind_eq_some_iff.mp hexec
    simp [record, hstep, ih hrest]

section Invariants

variable {I P : State → Prop} {C : State → Label → Prop}

/-- A property of the run so far kept by every guarded step holds of every run
whose steps all meet the guard. -/
theorem Run.induction_of_guard {J : List (State × Label) → State → Prop}
    (run : Run step s trace t) (initial : J [] s)
    (preserved : ∀ trace v a w, J trace v → C v a → step v a = some w →
      J (trace ++ [(v, a)]) w)
    (guarded : ∀ x ∈ trace, C x.1 x.2) : J trace t := by
  induction run with
  | nil => exact initial
  | snoc _ hstep ih =>
    have hprior := ih fun x hx => guarded x (List.mem_append_left _ hx)
    exact preserved _ _ _ _ hprior (guarded (_, _) (by simp)) hstep

/-- An invariant kept by every guarded step holds at the end of every run whose
steps all meet the guard. -/
theorem Run.invariant_of_guard (run : Run step s trace t) (initial : I s)
    (preserved : ∀ v a w, I v → C v a → step v a = some w → I w)
    (guarded : ∀ x ∈ trace, C x.1 x.2) : I t :=
  run.induction_of_guard (J := fun _ => I) initial (fun _ => preserved) guarded

/-- So it does at every state that such a run visits. -/
theorem Run.forall_visited_of_guard (run : Run step s trace t) (initial : I s)
    (preserved : ∀ v a w, I v → C v a → step v a = some w → I w)
    (guarded : ∀ x ∈ trace, C x.1 x.2) : ∀ v ∈ visited trace t, I v := by
  refine run.induction_of_guard (J := fun trace t => ∀ v ∈ visited trace t, I v) ?_ ?_ guarded
  · intro v hv
    exact List.mem_singleton.mp hv ▸ initial
  · intro trace v a w ih hguard hstep u hu
    rw [visited_snoc] at hu
    rcases List.mem_append.mp hu with hprior | hlast
    · exact ih u hprior
    · rw [List.mem_singleton.mp hlast]
      exact preserved v a w (ih v mem_visited_final) hguard hstep

/-- An invariant kept by every step holds at the end of every run. -/
theorem Run.invariant (run : Run step s trace t) (initial : I s)
    (preserved : ∀ v a w, I v → step v a = some w → I w) : I t :=
  run.invariant_of_guard (C := fun _ _ => True) initial
    (fun v a w hv _ hstep => preserved v a w hv hstep) fun _ _ => trivial

/-- When each step keeps `P` exactly if it meets the guard, `P` holds at every
visited state exactly if every step of the run meets the guard. -/
theorem Run.forall_visited_iff (run : Run step s trace t) (initial : I s)
    (preserved : ∀ v a w, I v → step v a = some w → I w) (start : P s)
    (exact_step : ∀ v a w, I v → P v → step v a = some w → (P w ↔ C v a)) :
    (∀ v ∈ visited trace t, P v) ↔ ∀ x ∈ trace, C x.1 x.2 := by
  induction run with
  | nil => simpa [visited] using start
  | @snoc trace v w a prior hstep ih =>
    -- the last step is judged from the state before it, which the prior run reached
    have hI := prior.invariant initial preserved
    simp only [visited_snoc, List.forall_mem_append, List.forall_mem_singleton, ih]
    refine and_congr_right fun hguard => ?_
    exact exact_step v a w hI (ih.mpr hguard v mem_visited_final) hstep

end Invariants

section Simulation

variable {State' Label' : Type*} {step' : State' → Label' → Option State'}
  {R : State' → State → Prop} {s' : State'}

/-- If related states simulate each step by a run, they simulate every run. -/
theorem Run.simulate (run : Run step s trace t) (start : R s' s)
    (simulates : ∀ v' v a w, R v' v → step v a = some w →
      ∃ trace' w', Run step' v' trace' w' ∧ R w' w) :
    ∃ trace' t', Run step' s' trace' t' ∧ R t' t := by
  induction run with
  | nil => exact ⟨[], s', .nil, start⟩
  | snoc _ hstep ih =>
    obtain ⟨first, v', hfirst, related⟩ := ih
    obtain ⟨second, w', hsecond, hrelated⟩ := simulates _ _ _ _ related hstep
    exact ⟨first ++ second, w', hfirst.append hsecond, hrelated⟩

/-- A run as another system sees it: the steps it does not know are left out. -/
def project (f : State → State') (g : State × Label → Option Label')
    (trace : List (State × Label)) : List (State' × Label') :=
  trace.filterMap fun x => (g x).map fun b => (f x.1, b)

/-- A step of a system, or none. -/
def StepOrStay (step : State → Label → Option State) (s : State) : Option Label → State → Prop
  | some a, t => step s a = some t
  | none, t => t = s

/-- If each step is one of another system or leaves its state alone, each run is a
run of that system. -/
theorem Run.refine {f : State → State'} {g : State × Label → Option Label'} {I : State → Prop}
    (run : Run step s trace t) (initial : I s)
    (preserved : ∀ v a w, I v → step v a = some w → I w)
    (refines : ∀ v a w, I v → step v a = some w → StepOrStay step' (f v) (g (v, a)) (f w)) :
    Run step' (f s) (project f g trace) (f t) := by
  induction run with
  | nil => exact .nil
  | @snoc trace v w a prior hstep ih =>
    have hrefines := refines v a w (prior.invariant initial preserved) hstep
    unfold project at ih ⊢
    rw [List.filterMap_append]
    cases hlabel : g (v, a) with
    | some b =>
      rw [hlabel] at hrefines
      simpa [hlabel] using ih.snoc hrefines
    | none =>
      rw [hlabel] at hrefines
      have hstays : f w = f v := hrefines
      simpa [hlabel, hstays] using ih

end Simulation

end NetDiscovery.Semantics
