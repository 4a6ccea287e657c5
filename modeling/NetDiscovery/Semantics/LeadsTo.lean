/-
# What leads to what

One condition on times leads to another one if the second holds, whenever the first
does, at that time or later. Such facts compose, and split by cases.

Two rules begin them. A condition that stands until the goal is reached leads to the
goal if it leads to a step that reaches it: this is how a fairness assumption enters.
A condition leads to a goal if it leads to the goal or to itself with a lower rank.
-/

import Mathlib.Order.Nat
import NetDiscovery.Semantics.Behaviour

namespace NetDiscovery.Semantics

/-- Whenever `P` holds, `Q` holds then or later. -/
def LeadsTo (P Q : ℕ → Prop) : Prop :=
  ∀ n, P n → ∃ m, n ≤ m ∧ Q m

namespace LeadsTo

variable {P P' Q Q' R S : ℕ → Prop} {rank : ℕ → ℕ}

theorem of_imp (himp : ∀ n, P n → Q n) : LeadsTo P Q :=
  fun n hn => ⟨n, le_rfl, himp n hn⟩

theorem refl (P : ℕ → Prop) : LeadsTo P P :=
  of_imp fun _ => id

theorem trans (first : LeadsTo P Q) (second : LeadsTo Q R) : LeadsTo P R := by
  intro n hn
  obtain ⟨m, hnm, hm⟩ := first n hn
  obtain ⟨k, hmk, hk⟩ := second m hm
  exact ⟨k, hnm.trans hmk, hk⟩

theorem mono (leads : LeadsTo P Q) (hpre : ∀ n, P' n → P n) (hpost : ∀ n, Q n → Q' n) :
    LeadsTo P' Q' :=
  (of_imp hpre).trans (leads.trans (of_imp hpost))

theorem or (left : LeadsTo P R) (right : LeadsTo Q R) : LeadsTo (fun n => P n ∨ Q n) R := by
  rintro n (hn | hn)
  · exact left n hn
  · exact right n hn

/-- The cases that are left lead to the goal as well. -/
theorem cases (leads : LeadsTo P fun n => Q n ∨ R n) (rest : LeadsTo R Q) : LeadsTo P Q :=
  leads.trans ((refl Q).or rest)

/-- What steps keep is there at the goal. -/
theorem and_kept (leads : LeadsTo P Q) (kept : ∀ n, R n → R (n + 1)) :
    LeadsTo (fun n => P n ∧ R n) fun n => Q n ∧ R n := by
  rintro n ⟨hn, hR⟩
  obtain ⟨m, hle, hm⟩ := leads n hn
  exact ⟨m, hle, hm, Nat.le_induction hR (fun k _ => kept k) m hle⟩

/-- A condition that stands until the goal is reached leads to the goal, if it leads to
a step that reaches the goal. -/
theorem of_until (fair : LeadsTo P S) (stands : ∀ n, P n → P (n + 1) ∨ Q (n + 1))
    (reaches : ∀ n, P n → S n → Q (n + 1)) : LeadsTo P Q := by
  intro n hn
  obtain ⟨m, hle, hm⟩ := fair n hn
  -- until then the condition stands, or the goal has been reached on the way
  have hway : P m ∨ ∃ k, n ≤ k ∧ Q k := by
    clear hm
    induction m, hle using Nat.le_induction with
    | base => exact .inl hn
    | succ m hnm ih =>
      rcases ih with hstands | hreached
      · rcases stands m hstands with hstill | hnow
        · exact .inl hstill
        · exact .inr ⟨m + 1, hnm.trans (Nat.le_succ m), hnow⟩
      · exact .inr hreached
  rcases hway with hstands | hreached
  · exact ⟨m + 1, hle.trans (Nat.le_succ m), reaches m hstands hm⟩
  · exact hreached

/-- A condition that leads to the goal or to itself with a lower rank leads to the
goal. -/
theorem of_rank (rank : ℕ → ℕ)
    (descends : ∀ k, LeadsTo (fun n => P n ∧ rank n = k) fun n => Q n ∨ P n ∧ rank n < k) :
    LeadsTo P Q := by
  intro n hn
  generalize hk : rank n = k
  induction k using Nat.strong_induction_on generalizing n with
  | _ k ih =>
    obtain ⟨m, hnm, hgoal | ⟨hm, hlt⟩⟩ := descends k n ⟨hn, hk⟩
    · exact ⟨m, hnm, hgoal⟩
    · obtain ⟨l, hml, hl⟩ := ih (rank m) hlt m hm rfl
      exact ⟨l, hnm.trans hml, hl⟩

end LeadsTo

variable {State Label : Type*} {step : State → Label → Option State} {s : State}

/-- A fairness assumption as a fact of this kind. -/
theorem Execution.leadsTo_of_answers {e : Execution step s} {request : State → Prop}
    {answer : State → Label → Prop} (fair : e.Answers request answer) :
    LeadsTo (fun n => request (e.state n)) fun n => answer (e.state n) (e.label n) :=
  fair

/-- A condition leads to the goal if it stands until then, and the answer to what it
requests reaches the goal. -/
theorem Behaviour.leadsTo_of_answers {b : Behaviour step s} {request : State → Prop}
    {answer : State → Label → Prop} {P Q : ℕ → Prop} (answers : b.Answers request answer)
    (asks : ∀ n, P n → request (b.state n)) (stands : ∀ n, P n → P (n + 1) ∨ Q (n + 1))
    (reaches : ∀ n a, P n → b.label n = some a → answer (b.state n) a → Q (n + 1)) :
    LeadsTo P Q := by
  refine .of_until (S := fun n => ∃ a, b.label n = some a ∧ answer (b.state n) a) ?_ stands ?_
  · exact fun n hn => answers n (asks n hn)
  · rintro n hn ⟨a, hlabel, hanswer⟩
    exact reaches n a hn hlabel hanswer

end NetDiscovery.Semantics
