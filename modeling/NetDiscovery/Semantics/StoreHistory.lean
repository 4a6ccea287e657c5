/-
# What a history leaves in a store

A store maps keys to values. A history is the list of operations on it, oldest
first: a value is stored, taken out, erased, or everything is cleared. Reads, and
steps that are nothing to the store, are in the history too, so that a position
in it is a position in the run it was read off.

A key holds the value that was stored last under it, unless it was touched since.
As each value comes from one position of the history, and a take is a touch, no
stored value is taken twice.
-/

import Mathlib.Data.List.Induction
import Mathlib.Order.Nat
import Mathlib.Logic.Function.Basic

namespace NetDiscovery.Semantics

/-- An operation on a store. -/
inductive StoreOp (K V : Type*)
  | store (key : K) (value : V)
  | take (key : K)
  | erase (key : K)
  | clear
  /-- a read, or no operation on the store -/
  | skip

namespace StoreOp

variable {K V : Type*} {op : StoreOp K V} {history : List (StoreOp K V)} {key key' : K}
  {value value' : V} {p q q' : ℕ}

/-- The operation replaces or removes what the key holds. -/
def Touches (key : K) : StoreOp K V → Prop
  | store key' _ | take key' | erase key' => key' = key
  | clear => True
  | skip => False

/-- The value was stored under the key at position `p`, and the key was not touched
since. -/
def Latest (history : List (StoreOp K V)) (p : ℕ) (key : K) (value : V) : Prop :=
  history[p]? = some (.store key value) ∧
    ∀ q op, p < q → history[q]? = some op → ¬ op.Touches key

/-- The take at position `q` hands out the value that was stored at position `p`. -/
def Takes (history : List (StoreOp K V)) (q p : ℕ) (key : K) (value : V) : Prop :=
  history[q]? = some (.take key) ∧ Latest (history.take q) p key value

variable [DecidableEq K]

/-- One operation on a store. -/
def apply (contents : K → Option V) : StoreOp K V → K → Option V
  | store key value => Function.update contents key (some value)
  | take key | erase key => Function.update contents key none
  | clear => fun _ => none
  | skip => contents

/-- What a history leaves in an empty store. -/
def contents (history : List (StoreOp K V)) : K → Option V :=
  history.foldl apply fun _ => none

@[simp]
theorem contents_nil : contents ([] : List (StoreOp K V)) key = none := rfl

@[simp]
theorem contents_concat : contents (history ++ [op]) = apply (contents history) op := by
  simp [contents]

/-- The frame rule. -/
theorem apply_of_not_touches {contents : K → Option V} (huntouched : ¬ op.Touches key) :
    apply contents op key = contents key := by
  cases op with
  | store key' | take key' | erase key' => exact Function.update_of_ne (Ne.symm huntouched) _ _
  | clear => exact absurd trivial huntouched
  | skip => rfl

/-- An operation that touches a key leaves a value there only by storing it. -/
theorem apply_eq_some_of_touches {contents : K → Option V} (htouched : op.Touches key) :
    apply contents op key = some value ↔ op = .store key value := by
  cases op with
  | store key' value' =>
    obtain rfl : key' = key := htouched
    simp [apply]
  | take key' | erase key' =>
    obtain rfl : key' = key := htouched
    simp [apply]
  | clear => simp [apply]
  | skip => exact htouched.elim

/-! ## The latest store -/

omit [DecidableEq K]

/-- The elements of a longer list are those before and the last one. -/
private theorem getElem?_concat_eq_some_iff {α : Type*} {l : List α} {x y : α} {i : ℕ} :
    (l ++ [x])[i]? = some y ↔ l[i]? = some y ∨ i = l.length ∧ x = y := by
  rcases lt_trichotomy i l.length with hlt | rfl | hgt
  · simp [List.getElem?_append_left hlt, hlt.ne]
  · simp
  · have hnone : (l ++ [x])[i]? = none := List.getElem?_eq_none (by simp; omega)
    simp [hnone, hgt.le, hgt.ne']

/-- The latest store is the last operation, or it is an earlier one and the last
operation does not touch the key. -/
theorem latest_concat_iff : Latest (history ++ [op]) p key value ↔
    p = history.length ∧ op = .store key value ∨ ¬ op.Touches key ∧ Latest history p key value := by
  constructor
  · rintro ⟨hstored, hsince⟩
    rcases getElem?_concat_eq_some_iff.mp hstored with hprior | hlast
    · have hlt : p < history.length := (List.getElem?_eq_some_iff.mp hprior).1
      have huntouched : ¬ op.Touches key :=
        hsince history.length op hlt (getElem?_concat_eq_some_iff.mpr (.inr ⟨rfl, rfl⟩))
      exact .inr ⟨huntouched, hprior, fun q op' hq hop' =>
        hsince q op' hq (getElem?_concat_eq_some_iff.mpr (.inl hop'))⟩
    · exact .inl hlast
  · rintro (⟨rfl, rfl⟩ | ⟨huntouched, hstored, hsince⟩)
    · refine ⟨getElem?_concat_eq_some_iff.mpr (.inr ⟨rfl, rfl⟩), fun q op' hq hop' => ?_⟩
      -- nothing comes after the last operation
      have hlength := (List.getElem?_eq_some_iff.mp hop').1
      rw [List.length_append, List.length_singleton] at hlength
      omega
    · refine ⟨getElem?_concat_eq_some_iff.mpr (.inl hstored), fun q op' hq hop' => ?_⟩
      rcases getElem?_concat_eq_some_iff.mp hop' with hprior | ⟨-, rfl⟩
      · exact hsince q op' hq hprior
      · exact huntouched

/-- A value that was stored before position `q` and is the latest at a later one was
not touched at `q`. -/
theorem Latest.not_touches_of_take {n : ℕ} (hlatest : Latest (history.take n) p key value)
    (hp : p < q) (hq : q < n) (hop : history[q]? = some op) : ¬ op.Touches key :=
  hlatest.2 q op hp (by rwa [List.getElem?_take_of_lt hq])

/-- **No stored value is taken twice.** -/
theorem Takes.unique (htakes : Takes history q p key value)
    (htakes' : Takes history q' p key' value') : q = q' := by
  have hpq : ∀ {n key value}, Takes history n p key value → p < n := by
    intro n key value htakes
    have hlength := (List.getElem?_eq_some_iff.mp htakes.2.1).1
    exact hlength.trans_le (List.length_take_le _ _)
  have hkey : key = key' := by
    have hstored := htakes.2.1
    have hstored' := htakes'.2.1
    rw [List.getElem?_take_of_lt (hpq htakes)] at hstored
    rw [List.getElem?_take_of_lt (hpq htakes')] at hstored'
    exact (StoreOp.store.inj (Option.some.inj (hstored.symm.trans hstored'))).1
  subst hkey
  -- the earlier take touched the key before the later one
  rcases lt_trichotomy q q' with hlt | heq | hgt
  · exact absurd rfl (htakes'.2.not_touches_of_take (hpq htakes) hlt htakes.1)
  · exact heq
  · exact absurd rfl (htakes.2.not_touches_of_take (hpq htakes') hgt htakes'.1)

variable [DecidableEq K]

/-- **A key holds the value stored last under it, if it was not touched since.** -/
theorem contents_eq_some_iff :
    contents history key = some value ↔ ∃ p, Latest history p key value := by
  induction history using List.reverseRecOn with
  | nil => simp [Latest]
  | append_singleton history op ih =>
    rw [contents_concat]
    by_cases htouched : op.Touches key
    · rw [apply_eq_some_of_touches htouched]
      simp [latest_concat_iff, htouched]
    · rw [apply_of_not_touches htouched, ih]
      have hnot : op ≠ .store key value := by
        rintro rfl
        exact htouched rfl
      simp [latest_concat_iff, htouched, hnot]

/-- What a take hands out was stored at some position. -/
theorem exists_takes (htake : history[q]? = some (.take key))
    (hholds : contents (history.take q) key = some value) : ∃ p, Takes history q p key value := by
  obtain ⟨p, hlatest⟩ := contents_eq_some_iff.mp hholds
  exact ⟨p, htake, hlatest⟩

end StoreOp

end NetDiscovery.Semantics
