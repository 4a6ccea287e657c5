/-
# The order of IPv4 addresses

The relational operators compare the numbers, which are read from the bytes in
their stored order, last octet first. They order the addresses as the dotted
notation does, octet by octet from the left.

`isBetween` takes its bounds in either order: it swaps them by calling itself
when the first is the greater one. Each call of it costs a unit of fuel, so the
fuel bounds the swaps.
-/

import NetDiscovery.Net.IPv4Address

namespace NetDiscovery.Net

open NetDiscovery.Math

namespace IPv4Address

variable {a b x first last : IPv4Address} {calls : ℕ}

/-- The octets from left to right, as the dotted notation has them. -/
def octets (a : IPv4Address) : List UInt8 :=
  (List.ofFn a.ipAsBytes).reverse

/-- `operator<`. -/
def less (a b : IPv4Address) : Bool :=
  a.toInt < b.toInt

/-- `operator>`. -/
def greater (a b : IPv4Address) : Bool :=
  less b a

/-- `operator<=`. -/
def lessEqual (a b : IPv4Address) : Bool :=
  !less b a

/-- `operator>=`. -/
def greaterEqual (a b : IPv4Address) : Bool :=
  !less a b

/-- `IPv4Address::isBetween(begin, end)` with the number of calls it may take. -/
def isBetween : ℕ → IPv4Address → IPv4Address → IPv4Address → Option Bool
  | 0, _, _, _ => none
  | calls + 1, x, first, last =>
    if greater first last then isBetween calls x last first
    else some (greater x first && less x last)

theorem toString_eq_octets (a : IPv4Address) :
    a.toString = ".".intercalate (a.octets.map fun byte => byte.toNat.repr) := rfl

@[simp]
theorem octets_ofOctets (o₁ o₂ o₃ o₄ : UInt8) :
    (ofOctets o₁ o₂ o₃ o₄).octets = [o₁, o₂, o₃, o₄] := rfl

/-! ## The operators -/

theorem less_iff_lt : less a b = true ↔ a < b := by
  rw [less, decide_eq_true_iff, UInt32.lt_iff_toNat_lt, lt_iff_toNat_lt]

theorem greater_iff_lt : greater a b = true ↔ b < a :=
  less_iff_lt

/-- The numeric order is the lexicographic order of the octets. -/
theorem lt_iff_octets_lt : a < b ↔ a.octets < b.octets := by
  rw [lt_iff_toNat_lt, toNat_toInt, toNat_toInt]
  exact leValue_lt_leValue_iff a.ipAsBytes b.ipAsBytes

/-- What the relational operators have to be for the addresses to be ordered as
they are written. -/
structure OrderedAsWritten : Prop where
  /-- The text is the octets, in this order. -/
  written : ∀ a : IPv4Address,
    a.toString = ".".intercalate (a.octets.map fun byte => byte.toNat.repr)
  /-- `<` compares the octets from the left. -/
  lexicographic : ∀ a b, less a b = true ↔ a.octets < b.octets
  /-- It is the order in which `min` and `max` are taken. -/
  numeric : ∀ a b, less a b = true ↔ a < b
  irreflexive : ∀ a, less a a = false
  transitive : ∀ a b c, less a b = true → less b c = true → less a c = true
  /-- Exactly one of `a < b`, `a == b` and `b < a` holds. -/
  trichotomous : ∀ a b,
    (less a b = true ∧ a ≠ b ∧ less b a = false) ∨ (less a b = false ∧ a = b ∧ less b a = false) ∨
      (less a b = false ∧ a ≠ b ∧ less b a = true)
  /-- The other operators are read off `<` and `==`. -/
  derived : ∀ a b, greater a b = less b a ∧ (lessEqual a b = true ↔ less a b = true ∨ a = b) ∧
    (greaterEqual a b = true ↔ greater a b = true ∨ a = b)

theorem lessEqual_iff : lessEqual a b = true ↔ less a b = true ∨ a = b := by
  rw [lessEqual, Bool.not_eq_true', Bool.eq_false_iff, ne_eq, less_iff_lt, less_iff_lt, not_lt,
    le_iff_lt_or_eq]

theorem orderedAsWritten : OrderedAsWritten where
  written := toString_eq_octets
  lexicographic _ _ := less_iff_lt.trans lt_iff_octets_lt
  numeric _ _ := less_iff_lt
  irreflexive a := by
    rw [Bool.eq_false_iff, ne_eq, less_iff_lt]
    exact lt_irrefl a
  transitive a b c := by
    simp only [less_iff_lt]
    exact lt_trans
  trichotomous a b := by
    simp only [less_iff_lt, Bool.eq_false_iff, ne_eq]
    rcases lt_trichotomy a b with hlt | rfl | hgt
    · exact .inl ⟨hlt, hlt.ne, hlt.asymm⟩
    · exact .inr (.inl ⟨lt_irrefl a, rfl, lt_irrefl a⟩)
    · exact .inr (.inr ⟨hgt.asymm, hgt.ne', hgt⟩)
  -- `a >= b` is `b <= a`
  derived a b := ⟨rfl, lessEqual_iff, lessEqual_iff.trans (or_congr_right eq_comm)⟩

/-! ## Between two bounds -/

/-- Bounds in order are not swapped. -/
theorem isBetween_of_le (hle : first ≤ last) (calls : ℕ) (x : IPv4Address) :
    isBetween (calls + 1) x first last = some (greater x first && less x last) := by
  rw [isBetween, if_neg fun hgreater => (greater_iff_lt.mp hgreater).not_ge hle]

/-- Other bounds are swapped once: the swapped ones are in order. -/
theorem isBetween_of_gt (hgt : last < first) (calls : ℕ) (x : IPv4Address) :
    isBetween (calls + 2) x first last = some (greater x last && less x first) := by
  rw [isBetween, if_pos (greater_iff_lt.mpr hgt), isBetween_of_le hgt.le]

/-- With a call to spare for the swap, the answer is that for the sorted bounds. -/
theorem isBetween_eq_min_max (hcalls : 2 ≤ calls) (x first last : IPv4Address) :
    isBetween calls x first last =
      some (greater x (min first last) && less x (max first last)) := by
  obtain ⟨calls, rfl⟩ := Nat.exists_eq_add_of_le' hcalls
  rcases le_or_gt first last with hle | hgt
  · rw [min_eq_left hle, max_eq_right hle, isBetween_of_le hle]
  · rw [min_eq_right hgt.le, max_eq_left hgt.le, isBetween_of_gt hgt]

/-- **Addresses are ordered as they are written, and `isBetween` finds in at most
two calls whether an address lies strictly between two others, given in either
order.** -/
theorem orderedAsWritten_and_isBetween :
    OrderedAsWritten ∧ ∀ x first last : IPv4Address, ∃ answer : Bool,
      (∀ calls, 2 ≤ calls → isBetween calls x first last = some answer) ∧
        (less last first = false → isBetween 1 x first last = some answer) ∧
        (∀ calls, 2 ≤ calls → isBetween calls x last first = some answer) ∧
        (answer = true ↔
          (min first last).octets < x.octets ∧ x.octets < (max first last).octets) := by
  refine ⟨orderedAsWritten, fun x first last =>
    ⟨greater x (min first last) && less x (max first last), fun calls hcalls => ?_, fun hordered =>
      ?_, fun calls hcalls => ?_, ?_⟩⟩
  · exact isBetween_eq_min_max hcalls x first last
  · -- bounds in order need no second call
    have hle : first ≤ last := by
      rwa [Bool.eq_false_iff, ne_eq, less_iff_lt, not_lt] at hordered
    rw [min_eq_left hle, max_eq_right hle]
    exact isBetween_of_le hle 0 x
  · rw [isBetween_eq_min_max hcalls, min_comm, max_comm]
  · rw [Bool.and_eq_true, greater_iff_lt, less_iff_lt, lt_iff_octets_lt, lt_iff_octets_lt]

example :
    isBetween 2 (ofOctets 10 0 1 0) (ofOctets 10 1 0 0) (ofOctets 10 0 0 255) = some true := by
  decide

end IPv4Address

end NetDiscovery.Net
