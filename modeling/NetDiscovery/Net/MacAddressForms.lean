/-
# The forms of MAC addresses

An address is parsed from a text, an array, a list, a span or a number, converted from
the packet library's address, and printed as a text or as bytes. The text is printed
from the last stored byte to the first and read by `sscanf`; the number is unpacked by
shifts.

`macFormsAgree` says that they all agree.
-/

import NetDiscovery.Net.AddressBytes
import NetDiscovery.Net.MacAddressText

namespace NetDiscovery.Net.MacAddress

open NetDiscovery.Math NetDiscovery.Text NetDiscovery.Util

/-- `parse(std::array)`. -/
def parseArray (bytes : Fin 6 → UInt8) (order : ByteOrder) : Result ErrorType MacAddress :=
  addressOfArray MacAddress.mk bytes order

/-- `parse(std::initializer_list)`. -/
def parseList (bytes : List UInt8) (order : ByteOrder) : Result ErrorType MacAddress :=
  addressOfBytes MacAddress.mk bytes order

/-- `parse(nonstd::span)`. -/
def parseSpan (bytes : List UInt8) (order : ByteOrder) : Result ErrorType MacAddress :=
  addressOfBytes MacAddress.mk bytes order

/-- The conversion from `pcpp::MacAddress`, whose raw data are in the order in which
they are written. -/
def ofPcpp (bytes : Fin 6 → UInt8) : MacAddress :=
  ⟨ByteOrder.copy .hostOrder .networkOrder bytes⟩

/-- An upper-case hexadecimal digit. -/
def upperDigit (digit : UInt8) : UInt8 :=
  if digit < 10 then 48 + digit else 55 + digit

/-- A byte printed with `{:02X}`. -/
def twoDigits (byte : UInt8) : List UInt8 :=
  [upperDigit (byte / 16), upperDigit (byte % 16)]

/-- Bytes printed with `{:02X}` and joined by colons. -/
def colonJoined (bytes : List UInt8) : List UInt8 :=
  [58].intercalate (bytes.map twoDigits)

variable {bytes : List UInt8} {octets : Fin 6 → UInt8}

theorem hexDigit_upperDigit {digit : UInt8} (hdigit : digit < 16) :
    hexDigit (upperDigit digit) = some digit.toNat := by
  obtain ⟨n, hn, rfl⟩ : ∃ n < 16, digit = UInt8.ofNat n :=
    ⟨digit.toNat, by simpa [UInt8.lt_iff_toNat_lt] using hdigit, by simp⟩
  interval_cases n <;> decide

theorem hexDigit_twoDigits (byte : UInt8) :
    hexDigit (upperDigit (byte / 16)) = some (byte.toNat / 16) ∧
      hexDigit (upperDigit (byte % 16)) = some (byte.toNat % 16) := by
  have hbyte := byte.toNat_lt
  constructor
  · rw [hexDigit_upperDigit, UInt8.toNat_div]
    · rfl
    · rw [UInt8.lt_iff_toNat_lt, UInt8.toNat_div]
      change byte.toNat / 16 < 16
      omega
  · rw [hexDigit_upperDigit, UInt8.toNat_mod]
    · rfl
    · rw [UInt8.lt_iff_toNat_lt, UInt8.toNat_mod]
      exact Nat.mod_lt _ (by decide)

theorem isOctet_twoDigits (byte : UInt8) : IsOctet (twoDigits byte) := by
  obtain ⟨hhigh, hlow⟩ := hexDigit_twoDigits byte
  refine ⟨.inr rfl, fun c hc => ?_⟩
  rcases List.mem_pair.mp hc with rfl | rfl
  · simp [isHexDigit, hhigh]
  · simp [isHexDigit, hlow]

theorem octet_twoDigits (byte : UInt8) : octet (twoDigits byte) = byte := by
  obtain ⟨hhigh, hlow⟩ := hexDigit_twoDigits byte
  have hvalue : hexValue (twoDigits byte) = byte.toNat := by
    simp only [hexValue, twoDigits, List.foldl_cons, List.foldl_nil, hhigh, hlow, Option.getD_some]
    omega
  rw [octet, hvalue, UInt8.ofNat_toNat]

/-- Six bytes are printed in the usual notation. -/
theorem spells_colonJoined (hlength : bytes.length = 6) :
    Spells (bytes.map twoDigits) (colonJoined bytes) where
  length_eq := by rw [List.length_map, hlength]
  isOctet group hgroup := by
    obtain ⟨byte, -, rfl⟩ := List.mem_map.mp hgroup
    exact isOctet_twoDigits byte
  joined := joined_intercalate (by decide) (by
    intro hnil
    rw [List.map_eq_nil_iff.mp hnil] at hlength
    cases hlength)

/-- No character of a printed address is the terminator. -/
theorem Spells.zero_notMem {groups : List (List UInt8)} {text : List UInt8}
    (spells : Spells groups text) : 0 ∉ text := by
  intro hmem
  rcases spells.joined.mem hmem with hsep | ⟨group, hgroup, hself⟩
  · exact absurd hsep (by decide)
  · exact absurd ((spells.isOctet group hgroup).2 0 hself) (by decide)

/-- Six octets, printed. -/
def text (octets : Fin 6 → UInt8) : CString where
  bytes := colonJoined (List.ofFn octets)
  zero_notMem := (spells_colonJoined List.length_ofFn).zero_notMem

/-- `toString`: the bytes from last to first. -/
def toString (m : MacAddress) : CString where
  bytes := colonJoined (List.ofFn m.macAsBytes).reverse
  zero_notMem := (spells_colonJoined (by simp)).zero_notMem

/-- The address that is written with these octets. -/
def ofOctets (octets : Fin 6 → UInt8) : MacAddress :=
  ⟨octets ∘ Fin.rev⟩

/-- The 48-bit number of six octets. -/
def ofDigits (octets : Fin 6 → UInt8) : UInt64 :=
  .ofNat (∑ i, (octets i).toNat * 256 ^ (5 - (i : ℕ)))

/-- All forms of an address agree. -/
structure FormsAgree : Prop where
  parse_text : ∀ octets, parseString (text octets) = .ok (ofOctets octets)
  parse_array : ∀ octets, parseArray octets .hostOrder = .ok (ofOctets octets) ∧
    parseArray (octets ∘ Fin.rev) .networkOrder = .ok (ofOctets octets)
  parse_list : ∀ octets, parseList (List.ofFn octets) .hostOrder = .ok (ofOctets octets) ∧
    parseList (List.ofFn octets).reverse .networkOrder = .ok (ofOctets octets)
  parse_span : ∀ octets, parseSpan (List.ofFn octets) .hostOrder = .ok (ofOctets octets) ∧
    parseSpan (List.ofFn octets).reverse .networkOrder = .ok (ofOctets octets)
  parse_number : ∀ octets, parseNumber (ofDigits octets) = ofOctets octets
  of_pcpp : ∀ octets, ofPcpp octets = ofOctets octets
  toString_eq : ∀ octets, (ofOctets octets).toString = text octets
  toBytes_eq : ∀ octets, (ofOctets octets).toBytes .hostOrder = octets ∧
    (ofOctets octets).toBytes .networkOrder = octets ∘ Fin.rev
  /-- Each parser undoes its printer. -/
  parse_toString : ∀ m, parseString m.toString = .ok m
  parse_toBytes : ∀ m order, parseArray (m.toBytes order) order = .ok m ∧
    parseList (List.ofFn (m.toBytes order)) order = .ok m ∧
    parseSpan (List.ofFn (m.toBytes order)) order = .ok m
  injective : Function.Injective toString
  rejects : ∀ bytes : List UInt8, bytes.length ≠ 6 → ∀ order,
    parseList bytes order = .error .invalidArgument ∧
      parseSpan bytes order = .error .invalidArgument

theorem rev_rev (octets : Fin 6 → UInt8) : (octets ∘ Fin.rev) ∘ Fin.rev = octets :=
  funext fun i => congrArg octets (Fin.rev_rev i)

/-- Every address is written with some octets. -/
theorem exists_octets (m : MacAddress) : ∃ octets, m = ofOctets octets :=
  ⟨m.macAsBytes ∘ Fin.rev, MacAddress.ext (rev_rev _).symm⟩

theorem reverse_ofFn (octets : Fin 6 → UInt8) :
    (List.ofFn octets).reverse = List.ofFn (octets ∘ Fin.rev) := by
  refine List.ext_getElem (by simp) fun i hi hi' => ?_
  rw [List.getElem_reverse, List.getElem_ofFn, List.getElem_ofFn]
  refine congrArg octets (Fin.ext ?_)
  rw [List.length_ofFn] at hi'
  simp only [List.length_ofFn, Fin.val_rev]
  omega

theorem toString_ofOctets : (ofOctets octets).toString = text octets := by
  simp only [toString, text, ofOctets, reverse_ofFn, rev_rev]

/-- What is printed is read. -/
theorem parseString_text : parseString (text octets) = .ok (ofOctets octets) := by
  have spells : Spells ((List.ofFn octets).map twoDigits) (text octets).bytes :=
    spells_colonJoined List.length_ofFn
  obtain ⟨m, hparse, hoctets⟩ := parseString_of_spells spells
  -- the octets that are read are those that were printed
  have hself : ((List.ofFn octets).map twoDigits).map octet = List.ofFn octets := by
    rw [List.map_map]
    exact (List.map_congr_left fun byte _ => octet_twoDigits byte).trans (List.map_id _)
  rw [hself] at hoctets
  rw [hparse, ← List.ofFn_injective hoctets]
  exact congrArg Except.ok (MacAddress.ext (rev_rev _).symm)

/-- The first octet is the last one of the little-endian number. -/
theorem sum_octets :
    ∑ i, (octets i).toNat * 256 ^ (5 - (i : ℕ)) = leValue (octets ∘ Fin.rev) := by
  -- sum the same terms in the opposite order
  rw [leValue, ← Equiv.sum_comp Fin.revPerm]
  refine Finset.sum_congr rfl fun i _ => ?_
  have hrev : 5 - (Fin.rev i : ℕ) = i := by
    rw [Fin.val_rev]
    omega
  rw [Fin.revPerm_apply, hrev]
  rfl

theorem parseNumber_ofDigits : parseNumber (ofDigits octets) = ofOctets octets := by
  have hlt := leValue_lt (octets ∘ Fin.rev)
  have hnumber : (ofDigits octets).toNat = leValue (octets ∘ Fin.rev) := by
    rw [ofDigits, sum_octets]
    exact UInt64.toNat_ofNat_of_lt' (hlt.trans (by decide))
  rw [parseNumber, hnumber, leBytes_leValue, ofOctets]

/-- All forms of an address agree. -/
theorem macFormsAgree : FormsAgree where
  parse_text _ := parseString_text
  parse_array octets := ⟨rfl, rfl⟩
  parse_list octets := by
    rw [reverse_ofFn]
    exact ⟨addressOfBytes_ofFn, addressOfBytes_ofFn⟩
  parse_span octets := by
    rw [reverse_ofFn]
    exact ⟨addressOfBytes_ofFn, addressOfBytes_ofFn⟩
  parse_number _ := parseNumber_ofDigits
  of_pcpp _ := rfl
  toString_eq _ := toString_ofOctets
  toBytes_eq octets := ⟨rev_rev octets, rfl⟩
  parse_toString m := by
    obtain ⟨octets, rfl⟩ := exists_octets m
    rw [toString_ofOctets, parseString_text]
  parse_toBytes m order := by
    have harray : parseArray (m.toBytes order) order = .ok m := addressOfArray_copy
    exact ⟨harray, addressOfBytes_ofFn.trans harray, addressOfBytes_ofFn.trans harray⟩
  injective first second htext := by
    obtain ⟨octets, rfl⟩ := exists_octets first
    obtain ⟨octets', rfl⟩ := exists_octets second
    -- the one text is parsed to both addresses
    rw [toString_ofOctets, toString_ofOctets] at htext
    have hparse : parseString (text octets) = .ok (ofOctets octets') := htext ▸ parseString_text
    exact Except.ok.inj (parseString_text.symm.trans hparse)
  rejects _ hlength _ :=
    ⟨addressOfBytes_of_length_ne hlength, addressOfBytes_of_length_ne hlength⟩

end NetDiscovery.Net.MacAddress
