/-
# IPv4 addresses

The four octets are stored in reverse, so the first stored byte is the last
octet of the dotted notation and reading the array as a little-endian number
gives the address as a number. Equality compares the stored bytes, the order
compares the numbers, and the text form prints the bytes from the last to the
first.

The number form is a bijection with the 32-bit numbers. Distinct addresses have
distinct texts, which is what the tables keyed by printed addresses rest on.
-/

import Mathlib
import NetDiscovery.Math.LittleEndian
import NetDiscovery.Math.SeparatedText

namespace NetDiscovery.Net

open NetDiscovery.Math

/-- `net::IPv4Address`: the bytes `m_ipAsBytes`, last octet first. -/
@[ext]
structure IPv4Address where
  ipAsBytes : Fin 4 → UInt8

namespace IPv4Address

/-- `operator==` compares the stored bytes. -/
instance : DecidableEq IPv4Address := fun a b =>
  decidable_of_iff (a.ipAsBytes = b.ipAsBytes) IPv4Address.ext_iff.symm

variable {a b : IPv4Address}

/-- `IPv4Address::parse(std::uint32_t)`. Every number is an address. -/
def parseNumber (number : UInt32) : IPv4Address :=
  ⟨leBytes 4 number.toNat⟩

/-- `IPv4Address::toInt`: `memcpy` of the bytes into a 32-bit number. -/
def toInt (a : IPv4Address) : UInt32 :=
  UInt32.ofNat (leValue a.ipAsBytes)

/-- `IPv4Address::toString`: the bytes from last to first, joined by dots. -/
def toString (a : IPv4Address) : String :=
  ".".intercalate ((List.ofFn a.ipAsBytes).reverse.map fun byte => byte.toNat.repr)

/-- `IPv4Address::operator++`: the value left behind by the increment. -/
def increment (a : IPv4Address) : IPv4Address :=
  parseNumber (a.toInt + 1)

/-- The address written `o₁.o₂.o₃.o₄`. -/
def ofOctets (o₁ o₂ o₃ o₄ : UInt8) : IPv4Address :=
  ⟨![o₄, o₃, o₂, o₁]⟩

@[simp]
theorem toNat_toInt (a : IPv4Address) : a.toInt.toNat = leValue a.ipAsBytes :=
  UInt32.toNat_ofNat_of_lt' (leValue_lt a.ipAsBytes)

@[simp]
theorem parseNumber_toInt (a : IPv4Address) : parseNumber a.toInt = a := by
  ext1
  simp [parseNumber, leBytes_leValue]

@[simp]
theorem toInt_parseNumber (number : UInt32) : (parseNumber number).toInt = number := by
  apply UInt32.toNat_inj.mp
  rw [toNat_toInt, parseNumber, leValue_leBytes]
  exact Nat.mod_eq_of_lt number.toNat_lt

theorem toInt_injective : Function.Injective toInt :=
  Function.LeftInverse.injective parseNumber_toInt

theorem toNat_toInt_injective : Function.Injective fun a : IPv4Address => a.toInt.toNat :=
  fun _ _ hnumber => toInt_injective (UInt32.toNat_inj.mp hnumber)

/-- The numeric order, `operator<` of the source. -/
instance : LinearOrder IPv4Address :=
  LinearOrder.lift' (fun a => a.toInt.toNat) toNat_toInt_injective

theorem le_iff_toNat_le : a ≤ b ↔ a.toInt.toNat ≤ b.toInt.toNat := Iff.rfl

theorem lt_iff_toNat_lt : a < b ↔ a.toInt.toNat < b.toInt.toNat := Iff.rfl

@[simp]
theorem toInt_increment (a : IPv4Address) : a.increment.toInt = a.toInt + 1 :=
  toInt_parseNumber _

/-- Incrementing adds one modulo `2 ^ 32`. -/
theorem toNat_toInt_increment (a : IPv4Address) :
    a.increment.toInt.toNat = (a.toInt.toNat + 1) % 2 ^ 32 := by
  rw [toInt_increment, UInt32.toNat_add]
  rfl

/-- Distinct addresses print differently. -/
theorem toString_injective : Function.Injective toString := by
  intro first second htext
  -- the text is the reversed bytes as numerals joined by dots
  have hparts : ∀ c : IPv4Address, c.toString = (String.singleton '.').intercalate
      (((List.ofFn c.ipAsBytes).reverse.map UInt8.toNat).map Nat.repr) := by
    intro c
    rw [List.map_map]
    rfl
  rw [hparts, hparts] at htext
  have hnumbers := intercalate_repr_injective (by decide) (by simp) (by simp) htext
  have hbytes := List.map_injective_iff.mpr (fun _ _ => UInt8.toNat_inj.mp) hnumbers
  exact IPv4Address.ext (List.ofFn_injective (List.reverse_injective hbytes))

@[simp]
theorem toString_inj : a.toString = b.toString ↔ a = b :=
  toString_injective.eq_iff

example : (ofOctets 192 168 13 5).toString = "192.168.13.5" := by decide

end IPv4Address

end NetDiscovery.Net
