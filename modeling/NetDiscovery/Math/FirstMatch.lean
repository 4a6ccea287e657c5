/-
# The first match in an ordered map

A map that is walked in the order of its keys finds, among the values with some
property, the one under the least key.
-/

import Mathlib

namespace NetDiscovery.Math

variable {κ α : Type*} [LinearOrder κ]

/-- The first value with a property, in the order of the keys. -/
def firstMatch (map : Std.ExtTreeMap κ α compare) (p : α → Bool) : Option α :=
  (map.toList.find? fun entry => p entry.2).map Prod.snd

variable {map : Std.ExtTreeMap κ α compare} {p : α → Bool} {key : κ} {value : α}

/-- A value under the least key among those with the property. -/
structure IsLeastMatch (map : Std.ExtTreeMap κ α compare) (p : α → Bool) (key : κ) (value : α) :
    Prop where
  lookup : map[key]? = some value
  holds : p value = true
  le : ∀ key' value', map[key']? = some value' → p value' = true → key ≤ key'

/-- What is found first is under the least key. -/
theorem isLeastMatch_of_find?
    (hfind : map.toList.find? (fun entry => p entry.2) = some (key, value)) :
    IsLeastMatch map p key value where
  lookup := Std.ExtTreeMap.mem_toList_iff_getElem?_eq_some.mp (List.mem_of_find?_eq_some hfind)
  holds := (List.find?_eq_some_iff_append.mp hfind).1
  le key' value' hlookup hholds := by
    obtain ⟨-, before, rest, hsplit, hbefore⟩ := List.find?_eq_some_iff_append.mp hfind
    have hmem : (key', value') ∈ map.toList :=
      Std.ExtTreeMap.mem_toList_iff_getElem?_eq_some.mpr hlookup
    have hordered := map.ordered_keys_toList
    rw [hsplit] at hmem hordered
    rcases List.mem_append.mp hmem with hmem | hmem
    · -- nothing before the match has the property
      have hnot := hbefore _ hmem
      simp [hholds] at hnot
    · rcases List.mem_cons.mp hmem with heq | hmem
      · exact (Prod.mk.inj heq).1.ge
      · have hlt := (List.pairwise_cons.mp (List.pairwise_append.mp hordered).2.1).1 _ hmem
        exact (compare_lt_iff_lt.mp hlt).le

/-- The first match is the one under the least key. -/
theorem firstMatch_eq_some_iff :
    firstMatch map p = some value ↔ ∃ key, IsLeastMatch map p key value := by
  constructor
  · intro hfirst
    obtain ⟨⟨key, found⟩, hfind, rfl⟩ := Option.map_eq_some_iff.mp hfirst
    exact ⟨key, isLeastMatch_of_find? hfind⟩
  · rintro ⟨key, least⟩
    have hmem : (key, value) ∈ map.toList :=
      Std.ExtTreeMap.mem_toList_iff_getElem?_eq_some.mpr least.lookup
    cases hfind : map.toList.find? (fun entry => p entry.2) with
    | none =>
      have hnot := List.find?_eq_none.mp hfind _ hmem
      exact absurd least.holds hnot
    | some entry =>
      obtain ⟨key', value'⟩ := entry
      -- two least keys are the same key
      have least' := isLeastMatch_of_find? hfind
      obtain rfl : key' = key := le_antisymm (least'.le _ _ least.lookup least.holds)
        (least.le _ _ least'.lookup least'.holds)
      have hvalue : value' = value := Option.some.inj (least'.lookup.symm.trans least.lookup)
      rw [firstMatch, hfind, Option.map_some, hvalue]

/-- A map that has a value with the property is not walked to its end. -/
theorem exists_firstMatch (hlookup : map[key]? = some value) (hholds : p value = true) :
    ∃ first, firstMatch map p = some first := by
  have hmem : (key, value) ∈ map.toList :=
    Std.ExtTreeMap.mem_toList_iff_getElem?_eq_some.mpr hlookup
  have hsome : (map.toList.find? fun entry => p entry.2).isSome :=
    List.find?_isSome.mpr ⟨(key, value), hmem, hholds⟩
  obtain ⟨entry, hfind⟩ := Option.isSome_iff_exists.mp hsome
  exact ⟨entry.2, by rw [firstMatch, hfind, Option.map_some]⟩

/-! ## The walk -/

/-- The entries that an iterator still comes to, from the start or after a key. -/
def entriesAfter (map : Std.ExtTreeMap κ α compare) : Option κ → List (κ × α)
  | none => map.toList
  | some key => map.toList.filter fun entry => key < entry.1

variable {last : Option κ} {rest : List (κ × α)}

/-- The keys of a walk increase. -/
theorem pairwise_entriesAfter : (entriesAfter map last).Pairwise fun a b => a.1 < b.1 := by
  have hall : map.toList.Pairwise fun a b => a.1 < b.1 :=
    map.ordered_keys_toList.imp compare_lt_iff_lt.mp
  cases last with
  | none => exact hall
  | some key => exact hall.filter _

/-- After its first entry a walk goes on with the rest. -/
theorem entriesAfter_of_eq_cons (hnext : entriesAfter map last = (key, value) :: rest) :
    entriesAfter map (some key) = rest := by
  have hordered : (entriesAfter map last).Pairwise fun a b => a.1 < b.1 := pairwise_entriesAfter
  rw [hnext, List.pairwise_cons] at hordered
  have hrest : ((key, value) :: rest).filter (fun entry => decide (key < entry.1)) = rest := by
    rw [List.filter_cons_of_neg (by simp), List.filter_eq_self]
    exact fun entry hmem => decide_eq_true (hordered.1 entry hmem)
  cases last with
  | none => rwa [← hnext] at hrest
  | some before =>
    have hbefore : before < key := by
      have hmem : (key, value) ∈ entriesAfter map (some before) := by
        rw [hnext]
        exact List.mem_cons_self
      exact of_decide_eq_true (List.mem_filter.mp hmem).2
    rw [← hnext, entriesAfter, List.filter_filter] at hrest
    rw [← hrest, entriesAfter]
    refine List.filter_congr fun entry _ => ?_
    -- what comes after the key comes after what was before it
    by_cases hafter : key < entry.1
    · simp [hafter, hbefore.trans hafter]
    · simp [hafter]

end NetDiscovery.Math
