/-
# Sequences of addresses

Both kinds of address are incremented through their number: convert, add one,
convert back. IPv4 addresses run through the 32-bit numbers. A MAC address is
converted with whatever the two bytes hold that `toInt` does not write, but
`parse` drops those bytes, and the carry out of the low six goes nowhere else, so
MAC addresses run through the 48-bit numbers.
-/

import NetDiscovery.Net.IPv4Address
import NetDiscovery.Net.MacAddress
import NetDiscovery.Util.SequenceIterator

namespace NetDiscovery.Net

open NetDiscovery.Math NetDiscovery.Util

/-- Incrementing an IPv4 address walks around the 32-bit numbers. -/
theorem IPv4Address.cyclic_increment :
    Cyclic IPv4Address.increment (fun a => a.toInt.toNat) (2 ^ 32) where
  index_lt a := a.toInt.toNat_lt
  index_injective := IPv4Address.toNat_toInt_injective
  index_succ := IPv4Address.toNat_toInt_increment

namespace MacAddress

/-- `MacAddress::operator++`: the value left behind by the increment, with the
residue of its call of `toInt`. -/
def increment (residue : UInt16) (m : MacAddress) : MacAddress :=
  parseNumber (m.toInt residue + 1)

/-- Incrementing adds one modulo `2 ^ 48`, whatever the residue. -/
theorem number_increment (residue : UInt16) (m : MacAddress) :
    (m.increment residue).number = (m.number + 1) % 2 ^ 48 := by
  rw [increment, number_parseNumber, UInt64.toNat_add, toNat_toInt]
  -- the residue stays above the 48 bits that are kept
  change (m.number + 2 ^ 48 * residue.toNat + 1) % 2 ^ 64 % 2 ^ 48 = (m.number + 1) % 2 ^ 48
  omega

theorem increment_congr (residue residue' : UInt16) (m : MacAddress) :
    m.increment residue = m.increment residue' :=
  number_injective (by simp only [number_increment])

/-- Incrementing a MAC address walks around the 48-bit numbers. -/
theorem cyclic_increment (residue : UInt16) : Cyclic (increment residue) number (2 ^ 48) where
  index_lt := number_lt
  index_injective := number_injective
  index_succ := number_increment residue

end MacAddress

/-- **Iterating over any sequence of IPv4 or of MAC addresses counts from `first`
up to `last` around the address space, whatever the increments of MAC addresses
find in the bytes they do not write.** -/
theorem addressSequence_enumerates :
    (∀ sequence : Sequence IPv4Address, ∃ values,
      sequence.Enumerates (fun _ : Unit => IPv4Address.increment) (fun a => a.toInt.toNat) (2 ^ 32)
        (fun _ => ()) values) ∧
    ∀ (residues : ℕ → UInt16) (sequence : Sequence MacAddress), ∃ values,
      sequence.Enumerates MacAddress.increment MacAddress.number (2 ^ 48) residues values := by
  constructor
  · intro sequence
    exact ⟨_, Sequence.enumerates_of_cyclic IPv4Address.cyclic_increment (fun _ _ => rfl) _ _⟩
  · intro residues sequence
    -- every increment leaves behind what it would leave behind on clean memory
    have hresidue : ∀ found m, MacAddress.increment found m = MacAddress.increment 0 m :=
      fun found => MacAddress.increment_congr found 0
    exact ⟨_, Sequence.enumerates_of_cyclic (MacAddress.cyclic_increment 0) hresidue residues _⟩

end NetDiscovery.Net
