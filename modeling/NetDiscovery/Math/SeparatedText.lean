/-
# Texts joined by a separator

Joining texts with a one-character separator loses nothing when no text contains
the separator: the parts can be split off again. Decimal numerals contain only
digits, so numbers joined by any other character can be recovered.
-/

import Mathlib

namespace NetDiscovery.Math

/-- Joining with a separator that occurs in no part is injective. -/
theorem intercalate_injective {sep : Char} {first second : List String}
    (hfirst : ∀ text ∈ first, sep ∉ text.toList) (hsecond : ∀ text ∈ second, sep ∉ text.toList)
    (first_ne_nil : first ≠ []) (second_ne_nil : second ≠ [])
    (hjoin : (String.singleton sep).intercalate first =
      (String.singleton sep).intercalate second) : first = second := by
  have hlists := congrArg String.toList hjoin
  rw [String.toList_intercalate, String.toList_intercalate, String.toList_singleton] at hlists
  -- splitting undoes joining as long as no part contains the separator
  have hsplit := congrArg (List.splitOn sep) hlists
  rw [List.splitOn_intercalate _ (by simpa using hfirst) (by simpa using first_ne_nil),
    List.splitOn_intercalate _ (by simpa using hsecond) (by simpa using second_ne_nil)] at hsplit
  exact List.map_injective_iff.mpr (fun _ _ => String.toList_inj.mp) hsplit

/-- A decimal numeral consists of digits. -/
theorem isDigit_of_mem_repr {number : ℕ} {c : Char} (hmem : c ∈ number.repr.toList) :
    c.isDigit := by
  rw [Nat.toList_repr] at hmem
  exact Nat.isDigit_of_mem_toDigits (by decide) (by decide) hmem

/-- Splitting undoes the joining of numerals. -/
theorem splitOn_intercalate_repr {sep : Char} (hsep : sep.isDigit = false) {numbers : List ℕ}
    (hne : numbers ≠ []) :
    ((String.singleton sep).intercalate (numbers.map Nat.repr)).toList.splitOn sep =
      numbers.map fun number => number.repr.toList := by
  have hclean : ∀ text ∈ numbers.map fun number => number.repr.toList, sep ∉ text := by
    intro text htext hmem
    obtain ⟨number, -, rfl⟩ := List.mem_map.mp htext
    rw [isDigit_of_mem_repr hmem] at hsep
    exact Bool.noConfusion hsep
  rw [String.toList_intercalate, String.toList_singleton, List.map_map]
  exact List.splitOn_intercalate sep hclean (by simpa using hne)

/-- Numerals joined by a character that is no digit determine the numbers. -/
theorem intercalate_repr_injective {sep : Char} (hsep : sep.isDigit = false)
    {first second : List ℕ} (first_ne_nil : first ≠ []) (second_ne_nil : second ≠ [])
    (hjoin : (String.singleton sep).intercalate (first.map Nat.repr) =
      (String.singleton sep).intercalate (second.map Nat.repr)) : first = second := by
  have hclean : ∀ numbers : List ℕ, ∀ text ∈ numbers.map Nat.repr, sep ∉ text.toList := by
    intro numbers text htext hmem
    obtain ⟨number, -, rfl⟩ := List.mem_map.mp htext
    rw [isDigit_of_mem_repr hmem] at hsep
    exact Bool.noConfusion hsep
  have hparts := intercalate_injective (hclean first) (hclean second)
    (by simpa using first_ne_nil) (by simpa using second_ne_nil) hjoin
  exact List.map_injective_iff.mpr (fun _ _ => Nat.repr_inj.mp) hparts

end NetDiscovery.Math
