/-
# Linearization

A sequential object answers one call at a time. A concurrent history records
when calls were invoked and when they returned. A sequential order of the calls
explains a history when executing the calls in that order gives every returned
value and the final contents, and no call comes before one that had returned
before it was invoked. A call that has not returned may be in the order or not.

An order that explains a history is built along the run, one rule for each thing
that can happen to a call: it is invoked, it takes effect at one point with the
answer the object gives there, and it returns that answer.
-/

import Mathlib.Data.List.Basic
import Mathlib.Data.List.Sublists

namespace NetDiscovery.Semantics

open scoped List

variable {Id State Call Ret : Type*}

/-- What a client sees of a call. -/
inductive Event (Id Call Ret : Type*)
  | invoke (id : Id) (call : Call)
  | respond (id : Id) (ret : Ret)

/-- Executing the calls of `order` one after the other from `s` returns the
recorded values and ends in `t`. -/
def Executes (act : State → Call → State × Ret) :
    State → List (Id × Call × Ret) → State → Prop
  | s, [], t => s = t
  | s, (_, call, ret) :: order, t => (act s call).2 = ret ∧ Executes act (act s call).1 order t

/-- The sequential `order` explains the history and the final contents. -/
structure Linearizes (act : State → Call → State × Ret) (initial : State)
    (history : List (Event Id Call Ret)) (order : List (Id × Call × Ret)) (final : State) :
    Prop where
  /-- Executed in this order the calls return what they returned. -/
  executes : Executes act initial order final
  /-- No call is executed twice. -/
  nodup : (order.map Prod.fst).Nodup
  /-- Only invoked calls are executed. -/
  invoked : ∀ id call ret, (id, call, ret) ∈ order → .invoke id call ∈ history
  /-- Every call that returned was executed, with the value it returned. -/
  responded : ∀ id ret, .respond id ret ∈ history → ∃ call, (id, call, ret) ∈ order
  /-- The order respects real time. -/
  real_time : ∀ first ret second call, [.respond first ret, .invoke second call] <+ history →
    second ∈ order.map Prod.fst → [first, second] <+ order.map Prod.fst

variable {act : State → Call → State × Ret} {initial s t : State} {id : Id} {call : Call}
  {ret : Ret} {order : List (Id × Call × Ret)} {history : List (Event Id Call Ret)}

theorem Executes.concat (executes : Executes act s order t) (id : Id) (call : Call) :
    Executes act s (order ++ [(id, call, (act t call).2)]) (act t call).1 := by
  induction order generalizing s with
  | nil =>
    obtain rfl : s = t := executes
    exact ⟨rfl, rfl⟩
  | cons entry order ih => exact ⟨executes.1, ih executes.2⟩

/-- In an extended list `x` precedes `y` if it did before, or `y` is new. -/
private theorem pair_sublist_concat {α : Type*} {l : List α} {x y z : α} :
    [x, y] <+ l ++ [z] ↔ [x, y] <+ l ∨ x ∈ l ∧ y = z := by
  constructor
  · intro hsub
    -- the new element takes part in the pair or it does not
    obtain ⟨left, right, hsplit, hleft, hright⟩ := List.sublist_append_iff.mp hsub
    rcases List.sublist_singleton.mp hright with rfl | rfl
    · rw [List.append_nil] at hsplit
      exact Or.inl (hsplit ▸ hleft)
    · have hpair : [x] ++ [y] = left ++ [z] := hsplit
      obtain ⟨rfl, hlast⟩ := List.append_inj' hpair rfl
      exact Or.inr ⟨List.singleton_sublist.mp hleft, (List.cons.inj hlast).1⟩
  · rintro (hsub | ⟨hx, rfl⟩)
    · exact hsub.trans (List.sublist_append_left l [z])
    · exact (List.singleton_sublist.mpr hx).append (List.Sublist.refl [y])

namespace Linearizes

theorem nil : Linearizes act s ([] : List (Event Id Call Ret)) [] s :=
  ⟨rfl, by simp, by simp, by simp, by simp⟩

/-- **Invocation.** A call that has not been executed may be invoked. -/
theorem concat_invoke (linearizes : Linearizes act initial history order s)
    (fresh : id ∉ order.map Prod.fst) (call : Call) :
    Linearizes act initial (history ++ [.invoke id call]) order s where
  executes := linearizes.executes
  nodup := linearizes.nodup
  invoked id' call' ret hmem := List.mem_append_left _ (linearizes.invoked id' call' ret hmem)
  responded id' ret hmem := linearizes.responded id' ret (by simpa using hmem)
  real_time first ret second call' hsub hsecond := by
    rcases pair_sublist_concat.mp hsub with hprior | ⟨-, hlast⟩
    · exact linearizes.real_time first ret second call' hprior hsecond
    · obtain ⟨rfl, -⟩ := Event.invoke.inj hlast
      exact absurd hsecond fresh

/-- **Effect.** An invoked call may be executed, with the answer the object
gives at that point. -/
theorem concat_effect (linearizes : Linearizes act initial history order s)
    (hinvoked : .invoke id call ∈ history) (fresh : id ∉ order.map Prod.fst) :
    Linearizes act initial history (order ++ [(id, call, (act s call).2)]) (act s call).1 where
  executes := linearizes.executes.concat id call
  nodup := by
    rw [List.map_append, List.nodup_append']
    exact ⟨linearizes.nodup, by simp, by simpa using fresh⟩
  invoked id' call' ret hmem := by
    rcases List.mem_append.mp hmem with hprior | hlast
    · exact linearizes.invoked id' call' ret hprior
    · simp only [List.mem_singleton, Prod.mk.injEq] at hlast
      obtain ⟨rfl, rfl, -⟩ := hlast
      exact hinvoked
  responded id' ret hmem := by
    obtain ⟨call', hentry⟩ := linearizes.responded id' ret hmem
    exact ⟨call', List.mem_append_left _ hentry⟩
  real_time first ret second call' hsub hsecond := by
    rw [List.map_append] at hsecond ⊢
    rcases List.mem_append.mp hsecond with hprior | hlast
    · exact (linearizes.real_time first ret second call' hsub hprior).trans
        (List.sublist_append_left _ _)
    · -- whatever had returned by now has been executed
      obtain ⟨call'', hentry⟩ := linearizes.responded first ret (hsub.subset (by simp))
      exact pair_sublist_concat.mpr
        (Or.inr ⟨List.mem_map.mpr ⟨_, hentry, rfl⟩, by simpa using hlast⟩)

/-- **Return.** An executed call may return its answer. -/
theorem concat_respond (linearizes : Linearizes act initial history order s)
    (hexecuted : (id, call, ret) ∈ order) :
    Linearizes act initial (history ++ [.respond id ret]) order s where
  executes := linearizes.executes
  nodup := linearizes.nodup
  invoked id' call' ret' hmem := List.mem_append_left _ (linearizes.invoked id' call' ret' hmem)
  responded id' ret' hmem := by
    rcases List.mem_append.mp hmem with hprior | hlast
    · exact linearizes.responded id' ret' hprior
    · simp only [List.mem_singleton, Event.respond.injEq] at hlast
      obtain ⟨rfl, rfl⟩ := hlast
      exact ⟨call, hexecuted⟩
  real_time first ret' second call' hsub hsecond := by
    rcases pair_sublist_concat.mp hsub with hprior | ⟨-, hlast⟩
    · exact linearizes.real_time first ret' second call' hprior hsecond
    · cases hlast

end Linearizes

end NetDiscovery.Semantics
