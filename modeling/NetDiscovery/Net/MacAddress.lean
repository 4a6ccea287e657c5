/-
# MAC addresses

Six octets stored in reverse, read as a 48-bit little-endian number. The number
form is copied into a 64-bit local variable that is not initialised: `memcpy`
writes the six low bytes and the two high bytes keep whatever the memory held.
Every call of `toInt` therefore takes those two bytes, its residue, as an extra
argument, and a comparison makes two calls.

The residue never reaches an address built from the number, since `parse` keeps
only the low six bytes. It does reach the number itself and every comparison:
the conversion and the order are the intended ones exactly when all residues are
zero.
-/

import Mathlib
import NetDiscovery.Math.LittleEndian

namespace NetDiscovery.Net

open NetDiscovery.Math

/-- `net::MacAddress`: the bytes `m_macAsBytes`, last octet first. -/
@[ext]
structure MacAddress where
  macAsBytes : Fin 6 → UInt8

namespace MacAddress

/-- `operator==` compares the stored bytes. -/
instance : DecidableEq MacAddress := fun a b =>
  decidable_of_iff (a.macAsBytes = b.macAsBytes) MacAddress.ext_iff.symm

variable {a b m : MacAddress} {residue residue' : UInt16}

/-- `MacAddress::parse(std::uint64_t)`: the low six bytes of the number. -/
def parseNumber (number : UInt64) : MacAddress :=
  ⟨leBytes 6 number.toNat⟩

/-- `MacAddress::toInt`: `memcpy` of the six bytes over the low bytes of a
64-bit variable whose two high bytes hold `residue`. -/
def toInt (residue : UInt16) (m : MacAddress) : UInt64 :=
  UInt64.ofNat (leValue m.macAsBytes + 2 ^ 48 * residue.toNat)

/-- `MacAddress::operator<`, with the residues of its two calls of `toInt`. -/
def less (left right : UInt16) (a b : MacAddress) : Bool :=
  a.toInt left < b.toInt right

/-- The 48-bit number of an address. -/
def number (m : MacAddress) : ℕ :=
  leValue m.macAsBytes

/-- `MacAddress::broadcast()`. -/
def broadcast : MacAddress :=
  ⟨fun _ => 0xFF⟩

theorem number_lt (m : MacAddress) : m.number < 2 ^ 48 :=
  leValue_lt m.macAsBytes

theorem number_injective : Function.Injective number :=
  fun _ _ hnumber => MacAddress.ext (leValue_injective hnumber)

/-- The numeric order. -/
instance : LinearOrder MacAddress :=
  LinearOrder.lift' number number_injective

theorem lt_iff_number_lt : a < b ↔ a.number < b.number := Iff.rfl

theorem toNat_toInt (residue : UInt16) (m : MacAddress) :
    (m.toInt residue).toNat = m.number + 2 ^ 48 * residue.toNat := by
  have hnumber := m.number_lt
  have hresidue := residue.toNat_lt
  exact UInt64.toNat_ofNat_of_lt' (by simp only [number] at hnumber; simp only [UInt64.size]; omega)

/-- The residue does not reach the address rebuilt from the number. -/
@[simp]
theorem parseNumber_toInt (residue : UInt16) (m : MacAddress) :
    parseNumber (m.toInt residue) = m := by
  -- the residue only reaches the two bytes that `parse` cuts off
  have hlow : (m.toInt residue).toNat % 256 ^ 6 = leValue m.macAsBytes % 256 ^ 6 := by
    rw [toNat_toInt, number]
    omega
  ext1
  rw [parseNumber, leBytes_congr hlow, leBytes_leValue]

@[simp]
theorem number_parseNumber (n : UInt64) : (parseNumber n).number = n.toNat % 2 ^ 48 :=
  leValue_leBytes n.toNat

theorem toNat_toInt_eq_number_iff : (m.toInt residue).toNat = m.number ↔ residue = 0 := by
  rw [toNat_toInt, ← UInt16.toNat_inj]
  simp

theorem less_iff_lt (a b : MacAddress) : less 0 0 a b = true ↔ a < b := by
  rw [less, decide_eq_true_iff, UInt64.lt_iff_toNat_lt, toNat_toInt, toNat_toInt, lt_iff_number_lt]
  simp

/-- What callers expect of the number form and of the order, whichever calls of
`toInt` are involved; `residue k` is what the `k`-th call finds in the two bytes
it does not write. -/
structure ToIntLawful (residue : ℕ → UInt16) : Prop where
  /-- `toInt` is the 48-bit number. -/
  toInt_eq : ∀ k m, (toInt (residue k) m).toNat = m.number
  /-- `parse` undoes `toInt`. -/
  parse_toInt : ∀ k m, parseNumber (toInt (residue k) m) = m
  /-- `toInt` undoes `parse` on 48-bit numbers. -/
  toInt_parse : ∀ k (n : UInt64), n.toNat < 2 ^ 48 → toInt (residue k) (parseNumber n) = n
  /-- No address is less than itself. -/
  irreflexive : ∀ i j m, less (residue i) (residue j) m m = false
  /-- The order is transitive. -/
  transitive : ∀ i j k l p q a b c, less (residue i) (residue j) a b = true →
    less (residue k) (residue l) b c = true → less (residue p) (residue q) a c = true
  /-- Exactly one of `a < b`, `a == b` and `b < a` holds. -/
  trichotomous : ∀ i j k l a b,
    (less (residue i) (residue j) a b = true ∧ a ≠ b ∧ less (residue k) (residue l) b a = false) ∨
    (less (residue i) (residue j) a b = false ∧ a = b ∧
      less (residue k) (residue l) b a = false) ∨
    (less (residue i) (residue j) a b = false ∧ a ≠ b ∧ less (residue k) (residue l) b a = true)

/-- With clean memory the number form and the order are the intended ones. -/
private theorem toIntLawful_zero : ToIntLawful fun _ => 0 where
  toInt_eq _ m := toNat_toInt_eq_number_iff.mpr rfl
  parse_toInt _ m := parseNumber_toInt 0 m
  toInt_parse _ n hn := by
    apply UInt64.toNat_inj.mp
    rw [toNat_toInt, number_parseNumber, Nat.mod_eq_of_lt hn]
    simp
  irreflexive _ _ m := by
    rw [Bool.eq_false_iff, ne_eq, less_iff_lt]
    exact lt_irrefl m
  transitive _ _ _ _ _ _ a b c := by
    simp only [less_iff_lt]
    exact lt_trans
  trichotomous _ _ _ _ a b := by
    simp only [less_iff_lt, Bool.eq_false_iff, ne_eq]
    rcases lt_trichotomy a b with hlt | rfl | hgt
    · exact Or.inl ⟨hlt, hlt.ne, hlt.asymm⟩
    · exact Or.inr (Or.inl ⟨lt_irrefl a, rfl, lt_irrefl a⟩)
    · exact Or.inr (Or.inr ⟨hgt.asymm, hgt.ne', hgt⟩)

/-- **The number form and the order are lawful exactly when every call of
`toInt` finds its two unwritten bytes zero.** -/
theorem toIntLawful_iff (residue : ℕ → UInt16) :
    ToIntLawful residue ↔ ∀ k, residue k = 0 := by
  constructor
  · intro lawful k
    exact toNat_toInt_eq_number_iff.mp (lawful.toInt_eq k broadcast)
  · intro hzero
    obtain rfl : residue = fun _ => 0 := funext hzero
    exact toIntLawful_zero

/-- With a stray one above the six bytes in the second call, the broadcast
address is less than itself. -/
theorem not_toIntLawful_of_stray_byte : ¬ ToIntLawful fun k => if k = 1 then 1 else 0 := by
  intro lawful
  have hless := lawful.irreflexive 0 1 broadcast
  revert hless
  decide

end MacAddress

end NetDiscovery.Net
