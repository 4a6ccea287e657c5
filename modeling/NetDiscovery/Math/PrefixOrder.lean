/-
# Prefixes in the lexicographic order

The lists with a given prefix lie next to each other in the lexicographic order:
between the prefix itself and any of its extensions there are only extensions.
In an increasing list the extensions of a prefix therefore form one block, and
past the prefix itself that block comes first.
-/

import Mathlib

namespace NetDiscovery.Math

variable {α β : Type*}

/-- Between a list and one of its extensions there are only extensions. -/
theorem prefix_of_lt_of_lt [LinearOrder α] {root a b : List α} (hroot : root < a) (hlt : a < b)
    (hstart : root <+: b) : root <+: a := by
  induction root generalizing a b with
  | nil => exact List.nil_prefix
  | cons x root ih =>
    obtain ⟨rest, rfl⟩ := hstart
    rw [List.cons_append] at hlt
    cases a with
    | nil => exact absurd hroot (List.not_lt_nil _)
    | cons y a =>
      -- `root`, `a` and `b` share their first element, or `a` would not lie between
      rw [List.cons_lt_cons_iff] at hroot hlt
      rcases hroot with hxy | ⟨rfl, hroot⟩
      · rcases hlt with hyx | ⟨rfl, -⟩
        · exact absurd hxy hyx.asymm
        · exact absurd hxy (lt_irrefl _)
      · rcases hlt with hxx | ⟨-, hlt⟩
        · exact absurd hxx (lt_irrefl _)
        · exact List.cons_prefix_cons.mpr ⟨rfl, ih hroot hlt (List.prefix_append root rest)⟩

/-- When a property once lost stays lost along a list, its elements are an
initial segment. -/
theorem takeWhile_eq_filter {p : α → Bool} {l : List α}
    (hlost : l.Pairwise fun a b => p b = true → p a = true) : l.takeWhile p = l.filter p := by
  induction hlost with
  | nil => rfl
  | @cons a l hhead _ ih =>
    cases hpa : p a with
    | true => rw [List.takeWhile_cons_of_pos hpa, List.filter_cons_of_pos hpa, ih]
    | false =>
      rw [List.takeWhile_cons_of_neg (by simp [hpa]), List.filter_cons_of_neg (by simp [hpa])]
      symm
      rw [List.filter_eq_nil_iff]
      intro b hb hpb
      simpa [hpa] using hhead b hb hpb

/-- In an increasing list whose keys all lie past `root`, the extensions of
`root` come first. -/
theorem takeWhile_prefix_eq_filter [LinearOrder α] {root : List α} {key : β → List α} {l : List β}
    (hsorted : l.Pairwise fun a b => key a < key b) (hpast : ∀ a ∈ l, root < key a) :
    l.takeWhile (fun a => root.isPrefixOf (key a)) =
      l.filter fun a => root.isPrefixOf (key a) := by
  -- an extension of `root` is preceded by extensions of `root` only
  refine takeWhile_eq_filter ?_
  refine hsorted.imp_of_mem fun {a b} ha hb hlt hstart => ?_
  rw [List.isPrefixOf_iff_prefix] at hstart ⊢
  exact prefix_of_lt_of_lt (hpast a ha) hlt hstart

end NetDiscovery.Math
