/-
# The ranges between two bounds

A bound is passed to `rangeOf` as it is, or in a wrapper that says whether it
belongs to the range. There is an overload for each of the four ways to pass a
begin and an end.

The overload for two wrapped bounds looks at which wrappers they are. The two for
one wrapped bound call the wrapper, which increments the bound whatever the
wrapper says: an `Inclusive` begin loses the first value of its range, and an
`Exclusive` end gains one.
-/

import Mathlib
import NetDiscovery.Math.FixedWidth
import NetDiscovery.Util.Sequence

namespace NetDiscovery.Util

open NetDiscovery.Math

/-- Types in which the increment of a value is the next one, up to the last, and
leads to every greater one. -/
class LawfulIncrement (T : Type*) [LinearOrder T] [Incrementable T] : Prop where
  covBy_increment : ∀ x : T, ¬ IsMax x → x ⋖ increment x
  exists_iterate : ∀ x y : T, x ≤ y → ∃ n, increment^[n] x = y

/-- A bound as `rangeOf` is given it. -/
inductive Endpoint (T : Type*)
  | plain (value : T)
  | wrapped (bound : Bound T)

variable {T : Type*}

/-- The value in a wrapper. -/
def Bound.value : Bound T → T
  | inclusive value | exclusive value => value

namespace Endpoint

def value : Endpoint T → T
  | plain value => value
  | wrapped bound => bound.value

/-- The values on the inner side of a begin, as it is named. -/
def From [LinearOrder T] : Endpoint T → T → Prop
  | plain b, v | wrapped (.inclusive b), v => b ≤ v
  | wrapped (.exclusive b), v => b < v

/-- The values on the inner side of an end. -/
def Upto [LinearOrder T] : Endpoint T → T → Prop
  | plain e, v | wrapped (.exclusive e), v => v < e
  | wrapped (.inclusive e), v => v ≤ e

/-- Incrementing a wrapped end does not overflow. -/
def NotLast [LinearOrder T] : Endpoint T → Prop
  | plain _ => True
  | wrapped bound => ¬ IsMax bound.value

end Endpoint

/-- `rangeOf(begin, end)`: the overload for the bounds given. Two wrappers of one
kind fit the first overload as well, and a program that passes them does not compile. -/
def range [Incrementable T] : Endpoint T → Endpoint T → Sequence T
  | .plain first, .plain last => rangeOf first last
  | .wrapped first, .wrapped last => rangeOfBounds first last
  | .wrapped first, .plain last => rangeOfBegin first last
  | .plain first, .wrapped last => rangeOfEnd first last

/-- Not a lone `Inclusive` begin, nor a lone `Exclusive` end. -/
def WrappersHeeded : Endpoint T → Endpoint T → Prop
  | .wrapped (.inclusive _), .plain _ | .plain _, .wrapped (.exclusive _) => False
  | _, _ => True

/-- Iterating over a sequence ends, and gives the values with the property, in
increasing order. -/
def Sequence.Lists [LinearOrder T] [Incrementable T] (sequence : Sequence T) (P : T → Prop) :
    Prop :=
  ∃ fuel values, sequence.elements fuel = some values ∧ values.Pairwise (· < ·) ∧
    ∀ v, v ∈ values ↔ P v

variable [LinearOrder T] [Incrementable T] {first last : T} {P Q : T → Prop} {n : ℕ}

/-- An order-preserving numbering of a cycle makes its successor lawful. -/
theorem LawfulIncrement.of_cyclic {index : T → ℕ} {size : ℕ}
    (cyclic : Cyclic increment index size) (hmono : ∀ x y, x < y ↔ index x < index y) :
    LawfulIncrement T where
  covBy_increment x hmax := by
    obtain ⟨y, hxy⟩ := not_isMax_iff.mp hmax
    have hstep : index (increment x) = index x + 1 := by
      have hlt := (hmono x y).mp hxy
      have hy := cyclic.index_lt y
      rw [cyclic.index_succ, Nat.mod_eq_of_lt (by omega)]
    refine ⟨(hmono _ _).mpr (by omega), fun z hlow hhigh => ?_⟩
    have hlow := (hmono _ _).mp hlow
    have hhigh := (hmono _ _).mp hhigh
    omega
  exists_iterate x y _ := ⟨_, cyclic.iterate_steps x y⟩

instance {W : IntegerType} : Incrementable W.Value where
  increment := IntegerType.Value.increment

/-- The machine integers. -/
instance {W : IntegerType} : LawfulIncrement W.Value :=
  .of_cyclic IntegerType.Value.cyclic_increment IntegerType.Value.lt_iff_index_lt

/-! ## What a sequence lists -/

/-- Two sequences that list the same values are iterated over alike. -/
theorem Sequence.Lists.elements_eq {s t : Sequence T} (hs : s.Lists P) (ht : t.Lists Q)
    (hsame : ∀ v, P v ↔ Q v) :
    ∃ fuel values, s.elements fuel = some values ∧ t.elements fuel = some values := by
  obtain ⟨fuel, values, hvalues, hsorted, hmem⟩ := hs
  obtain ⟨fuel', values', hvalues', hsorted', hmem'⟩ := ht
  have hequal : values = values' := by
    refine List.Pairwise.eq_of_mem_iff hsorted hsorted' fun v => ?_
    rw [hmem, hmem', hsame]
  subst hequal
  exact ⟨Nat.max fuel fuel', values, Sequence.loop_mono hvalues (Nat.le_max_left _ _),
    Sequence.loop_mono hvalues' (Nat.le_max_right _ _)⟩

/-- A sequence lists one set of values only. -/
theorem Sequence.Lists.unique {s : Sequence T} (hP : s.Lists P) (hQ : s.Lists Q) (v : T) :
    P v ↔ Q v := by
  obtain ⟨fuel, values, hvalues, -, hmem⟩ := hP
  obtain ⟨fuel', values', hvalues', -, hmem'⟩ := hQ
  obtain rfl := Sequence.loop_unique hvalues hvalues'
  rw [← hmem, ← hmem']

variable [LawfulIncrement T]

theorem increment_le_iff (hlt : first < last) {v : T} : increment first ≤ v ↔ first < v :=
  ⟨fun hle => (LawfulIncrement.covBy_increment first hlt.not_isMax).lt.trans_le hle,
    (LawfulIncrement.covBy_increment first hlt.not_isMax).ge_of_gt⟩

/-- The loop that meets `last` from below lists the values before it. The induction
is on the steps that are left. -/
theorem loop_lists (hle : first ≤ last) (hmeet : increment^[n] first = last) :
    ∃ values, Sequence.loop last n first = some values ∧ values.Pairwise (· < ·) ∧
      ∀ v, v ∈ values ↔ first ≤ v ∧ v < last := by
  induction n generalizing first with
  | zero =>
    obtain rfl : first = last := hmeet
    exact ⟨[], by simp [Sequence.loop], .nil, fun v => by simp⟩
  | succ n ih =>
    rcases hle.eq_or_lt with rfl | hlt
    · exact ⟨[], by simp [Sequence.loop], .nil, fun v => by simp⟩
    · have hnext : increment first ≤ last := (increment_le_iff hlt).mpr hlt
      obtain ⟨values, hloop, hsorted, hmem⟩ := ih hnext hmeet
      refine ⟨first :: values, by simp [Sequence.loop, hlt.ne, hloop], ?_, fun v => ?_⟩
      · refine List.pairwise_cons.mpr ⟨fun v hv => ?_, hsorted⟩
        exact (increment_le_iff hlt).mp ((hmem v).mp hv).1
      · rw [List.mem_cons, hmem, increment_le_iff hlt, le_iff_eq_or_lt]
        constructor
        · rintro (rfl | ⟨hlow, hhigh⟩)
          · exact ⟨.inl rfl, hlt⟩
          · exact ⟨.inr hlow, hhigh⟩
        · rintro ⟨rfl | hlow, hhigh⟩
          · exact .inl rfl
          · exact .inr ⟨hlow, hhigh⟩

theorem lists_rangeOf (hle : first ≤ last) (hlists : ∀ v, first ≤ v ∧ v < last ↔ P v) :
    (rangeOf first last).Lists P := by
  obtain ⟨n, hmeet⟩ := LawfulIncrement.exists_iterate first last hle
  obtain ⟨values, hloop, hsorted, hmem⟩ := loop_lists hle hmeet
  exact ⟨n, values, hloop, hsorted, fun v => (hmem v).trans (hlists v)⟩

/-! ## The overloads -/

theorem lt_increment_iff (hlast : ¬ IsMax last) {v : T} : v < increment last ↔ v ≤ last := by
  have hcovers := LawfulIncrement.covBy_increment last hlast
  exact ⟨hcovers.le_of_lt, fun hle => hle.trans_lt hcovers.lt⟩

/-- An increment of its last bound includes it. -/
theorem lists_rangeOf_increment (hle : first ≤ last) (hlast : ¬ IsMax last)
    (hlists : ∀ v, first ≤ v ∧ v ≤ last ↔ P v) : (rangeOf first (increment last)).Lists P :=
  lists_rangeOf ((lt_increment_iff hlast).mpr hle).le fun v =>
    (and_congr_right fun _ => lt_increment_iff hlast).trans (hlists v)

/-- A call that heeds its wrappers lists the values that its bounds name. -/
theorem lists_range {first last : Endpoint T} (hlt : first.value < last.value)
    (hlast : last.NotLast) (heeded : WrappersHeeded first last) :
    (range first last).Lists fun v => first.From v ∧ last.Upto v := by
  cases first with
  | plain b =>
    cases last with
    | plain e => exact lists_rangeOf hlt.le fun v => Iff.rfl
    | wrapped bound =>
      cases bound with
      | inclusive e =>
        exact lists_rangeOf_increment hlt.le hlast fun v => Iff.rfl
      | exclusive e => exact heeded.elim
  | wrapped bound =>
    cases bound with
    | inclusive b =>
      cases last with
      | plain e => exact heeded.elim
      | wrapped bound =>
        cases bound with
        | inclusive e =>
          exact lists_rangeOf_increment hlt.le hlast fun v => Iff.rfl
        | exclusive e => exact lists_rangeOf hlt.le fun v => Iff.rfl
    | exclusive b =>
      -- the range begins with the value after b
      have hnext : increment b ≤ last.value := (increment_le_iff hlt).mpr hlt
      cases last with
      | plain e => exact lists_rangeOf hnext fun v => and_congr_left fun _ => increment_le_iff hlt
      | wrapped bound =>
        cases bound with
        | inclusive e =>
          exact lists_rangeOf_increment hnext hlast fun v =>
            and_congr_left fun _ => increment_le_iff hlt
        | exclusive e =>
          exact lists_rangeOf hnext fun v => and_congr_left fun _ => increment_le_iff hlt

/-- The two calls that do not heed their wrapper lose `b`, or gain `e`. -/
theorem heeded_of_lists {first last : Endpoint T} (hlt : first.value < last.value)
    (hlast : last.NotLast) (hlists : (range first last).Lists fun v => first.From v ∧ last.Upto v) :
    WrappersHeeded first last := by
  cases first with
  | plain b =>
    cases last with
    | plain e => trivial
    | wrapped bound =>
      cases bound with
      | inclusive e => trivial
      | exclusive e =>
        -- this call goes up to e itself
        have hmore : (range (.plain b) (.wrapped (.exclusive e))).Lists
            fun v => b ≤ v ∧ v < increment e :=
          lists_rangeOf ((lt_increment_iff hlast).mpr hlt.le).le fun v => Iff.rfl
        have hgained := (hlists.unique hmore e).mpr ⟨hlt.le, (lt_increment_iff hlast).mpr le_rfl⟩
        exact lt_irrefl e hgained.2
  | wrapped bound =>
    cases bound with
    | inclusive b =>
      cases last with
      | plain e =>
        -- and this one begins after b
        have hless : (range (.wrapped (.inclusive b)) (.plain e)).Lists
            fun v => increment b ≤ v ∧ v < e :=
          lists_rangeOf ((increment_le_iff hlt).mpr hlt) fun v => Iff.rfl
        have hlost := (hlists.unique hless b).mp ⟨le_rfl, hlt⟩
        exact lt_irrefl b ((increment_le_iff hlt).mp hlost.1)
      | wrapped bound => trivial
    | exclusive b =>
      cases last with
      | plain e => trivial
      | wrapped bound => trivial

/-- **`rangeOf` gives the values that its bounds name, in increasing order,
precisely unless its one wrapped bound is an `Inclusive` begin or an `Exclusive`
end; and other calls for the same values are iterated over alike.** -/
theorem lists_range_iff (first last : Endpoint T) (hlt : first.value < last.value)
    (hlast : last.NotLast) :
    ((range first last).Lists (fun v => first.From v ∧ last.Upto v) ↔ WrappersHeeded first last) ∧
      ∀ first' last' : Endpoint T, first'.value < last'.value → last'.NotLast →
        WrappersHeeded first last → WrappersHeeded first' last' →
        (∀ v, first.From v ∧ last.Upto v ↔ first'.From v ∧ last'.Upto v) →
          ∃ fuel values, (range first last).elements fuel = some values ∧
            (range first' last').elements fuel = some values := by
  refine ⟨⟨heeded_of_lists hlt hlast, lists_range hlt hlast⟩, ?_⟩
  intro first' last' hlt' hlast' heeded heeded' hsame
  exact (lists_range hlt hlast heeded).elements_eq (lists_range hlt' hlast' heeded') hsame

/-- An `int` in the text of a program. -/
def literal (x : ℤ) : IntegerType.int.Value :=
  .ofInt .int x

/-- `rangeOf(1, Inclusive(5))`. -/
theorem lists_range_upToFive :
    (range (.plain (literal 1)) (.wrapped (.inclusive (literal 5)))).Lists
      fun v => literal 1 ≤ v ∧ v ≤ literal 5 :=
  (lists_range_iff (.plain (literal 1)) (.wrapped (.inclusive (literal 5))) (by decide)
    (not_isMax_iff.mpr ⟨literal 6, by decide⟩)).1.mpr trivial

/-- `rangeOf(Inclusive(1), 5)` lacks the 1. -/
theorem not_lists_range_fromOne :
    ¬ (range (.wrapped (.inclusive (literal 1))) (.plain (literal 5))).Lists
      fun v => literal 1 ≤ v ∧ v < literal 5 := by
  rintro ⟨fuel, values, hvalues, -, hmem⟩
  have hfromTwo : (range (.wrapped (.inclusive (literal 1))) (.plain (literal 5))).elements 3 =
      some [literal 2, literal 3, literal 4] := by decide
  obtain rfl := Sequence.loop_unique hfromTwo hvalues
  exact absurd ((hmem (literal 1)).mpr ⟨le_rfl, by decide⟩) (by decide)

end NetDiscovery.Util
