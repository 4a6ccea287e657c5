/-
# The forms of IPv4 addresses

An address is parsed from a text, an array, a list, a span or a number, converted from
the packet library's address, and printed as a text, as bytes or as a number. Each of
them goes its own way around the stored bytes, which are in reverse.

`ipv4FormsAgree` says that they all agree. The text is parsed by asio; all that is known of
it is that it parses the dotted notation.
-/

import NetDiscovery.Net.AddressBytes
import NetDiscovery.Net.IPv4Address

namespace NetDiscovery.Net.IPv4Address

open NetDiscovery.Math NetDiscovery.Util

/-- `parse(std::array)`. -/
def parseArray (bytes : Fin 4 → UInt8) (order : ByteOrder) : Result ErrorType IPv4Address :=
  addressOfArray IPv4Address.mk bytes order

/-- `parse(std::initializer_list)`. -/
def parseList (bytes : List UInt8) (order : ByteOrder) : Result ErrorType IPv4Address :=
  addressOfBytes IPv4Address.mk bytes order

/-- `parse(nonstd::span)`. -/
def parseSpan (bytes : List UInt8) (order : ByteOrder) : Result ErrorType IPv4Address :=
  addressOfBytes IPv4Address.mk bytes order

/-- `parse(std::string_view)`; `makeAddressV4` gives the bytes of an address, the first
octet first, or an error. -/
def parseText (makeAddressV4 : String → Option (Fin 4 → UInt8)) (ip : String) :
    Result ErrorType IPv4Address :=
  match makeAddressV4 ip with
  | none => .error .invalidArgument
  | some bytes => .ok ⟨ByteOrder.copy .hostOrder .networkOrder bytes⟩

/-- The conversion from `pcpp::IPv4Address`, whose `toBytes` are in the order in which
they are written. -/
def ofPcpp (bytes : Fin 4 → UInt8) : IPv4Address :=
  ⟨ByteOrder.copy .hostOrder .networkOrder bytes⟩

/-- `toBytes`. -/
def toBytes (order : ByteOrder) (x : IPv4Address) : Fin 4 → UInt8 :=
  ByteOrder.copy .networkOrder order x.ipAsBytes

/-- The text of four octets. -/
def dotted (a b c d : UInt8) : String :=
  ".".intercalate ([a, b, c, d].map fun octet => octet.toNat.repr)

/-- The number of four octets. -/
def ofDigits (a b c d : UInt8) : UInt32 :=
  .ofNat (a.toNat * 2 ^ 24 + b.toNat * 2 ^ 16 + c.toNat * 2 ^ 8 + d.toNat)

/-- The contract of `make_address_v4`, as far as `parse` relies on it. -/
def ParsesDotted (makeAddressV4 : String → Option (Fin 4 → UInt8)) : Prop :=
  ∀ a b c d, makeAddressV4 (dotted a b c d) = some ![a, b, c, d]

/-- All forms of an address agree. -/
structure FormsAgree (makeAddressV4 : String → Option (Fin 4 → UInt8)) : Prop where
  parse_dotted : ∀ a b c d, parseText makeAddressV4 (dotted a b c d) = .ok (ofOctets a b c d)
  parse_array : ∀ a b c d, parseArray ![a, b, c, d] .hostOrder = .ok (ofOctets a b c d) ∧
    parseArray ![d, c, b, a] .networkOrder = .ok (ofOctets a b c d)
  parse_list : ∀ a b c d, parseList [a, b, c, d] .hostOrder = .ok (ofOctets a b c d) ∧
    parseList [d, c, b, a] .networkOrder = .ok (ofOctets a b c d)
  parse_span : ∀ a b c d, parseSpan [a, b, c, d] .hostOrder = .ok (ofOctets a b c d) ∧
    parseSpan [d, c, b, a] .networkOrder = .ok (ofOctets a b c d)
  parse_number : ∀ a b c d, parseNumber (ofDigits a b c d) = ofOctets a b c d
  of_pcpp : ∀ a b c d, ofPcpp ![a, b, c, d] = ofOctets a b c d
  toString_eq : ∀ a b c d, (ofOctets a b c d).toString = dotted a b c d
  toBytes_eq : ∀ a b c d, (ofOctets a b c d).toBytes .hostOrder = ![a, b, c, d] ∧
    (ofOctets a b c d).toBytes .networkOrder = ![d, c, b, a]
  toInt_eq : ∀ a b c d, (ofOctets a b c d).toInt = ofDigits a b c d
  /-- Each parser undoes its printer. -/
  parse_toString : ∀ x, parseText makeAddressV4 x.toString = .ok x
  parse_toBytes : ∀ x order, parseArray (x.toBytes order) order = .ok x ∧
    parseList (List.ofFn (x.toBytes order)) order = .ok x ∧
    parseSpan (List.ofFn (x.toBytes order)) order = .ok x
  parse_toInt : ∀ x, parseNumber x.toInt = x
  injective : Function.Injective toString
  rejects : ∀ bytes : List UInt8, bytes.length ≠ 4 → ∀ order,
    parseList bytes order = .error .invalidArgument ∧
      parseSpan bytes order = .error .invalidArgument

variable {a b c d : UInt8} {makeAddressV4 : String → Option (Fin 4 → UInt8)}

theorem rev_octets : ![a, b, c, d] ∘ Fin.rev = ![d, c, b, a] := by
  funext i
  fin_cases i <;> rfl

theorem exists_octets (x : IPv4Address) : ∃ a b c d, x = ofOctets a b c d := by
  refine ⟨x.ipAsBytes 3, x.ipAsBytes 2, x.ipAsBytes 1, x.ipAsBytes 0, ?_⟩
  ext1
  funext i
  fin_cases i <;> rfl

theorem parseArray_hostOrder : parseArray ![a, b, c, d] .hostOrder = .ok (ofOctets a b c d) := by
  rw [parseArray, addressOfArray_hostOrder, rev_octets, ofOctets]

theorem parseList_eq_parseArray (order : ByteOrder) :
    parseList [a, b, c, d] order = parseArray ![a, b, c, d] order := by
  have hlist : [a, b, c, d] = List.ofFn ![a, b, c, d] := by simp
  rw [parseList, hlist]
  exact addressOfBytes_ofFn

theorem leValue_octets : leValue ![d, c, b, a] =
    a.toNat * 2 ^ 24 + b.toNat * 2 ^ 16 + c.toNat * 2 ^ 8 + d.toNat := by
  simp only [leValue, Fin.sum_univ_four]
  simp
  ring

theorem toInt_ofOctets : (ofOctets a b c d).toInt = ofDigits a b c d := by
  rw [toInt, ofOctets, leValue_octets, ofDigits]

theorem parseText_dotted (parses : ParsesDotted makeAddressV4) :
    parseText makeAddressV4 (dotted a b c d) = .ok (ofOctets a b c d) := by
  rw [parseText, parses a b c d]
  exact parseArray_hostOrder

/-- All forms of an address agree, if the text is parsed as it should. -/
theorem ipv4FormsAgree (parses : ParsesDotted makeAddressV4) : FormsAgree makeAddressV4 where
  parse_dotted _ _ _ _ := parseText_dotted parses
  parse_array _ _ _ _ := ⟨parseArray_hostOrder, rfl⟩
  parse_list _ _ _ _ := ⟨(parseList_eq_parseArray _).trans parseArray_hostOrder,
    parseList_eq_parseArray _⟩
  parse_span _ _ _ _ := ⟨(parseList_eq_parseArray _).trans parseArray_hostOrder,
    parseList_eq_parseArray _⟩
  parse_number _ _ _ _ := by rw [← toInt_ofOctets, parseNumber_toInt]
  of_pcpp _ _ _ _ := congrArg IPv4Address.mk rev_octets
  toString_eq _ _ _ _ := rfl
  toBytes_eq _ _ _ _ := ⟨rev_octets, rfl⟩
  toInt_eq _ _ _ _ := toInt_ofOctets
  parse_toString x := by
    -- every address is written with four octets
    obtain ⟨a, b, c, d, rfl⟩ := exists_octets x
    exact parseText_dotted parses
  parse_toBytes x order := by
    have harray : parseArray (x.toBytes order) order = .ok x := addressOfArray_copy
    exact ⟨harray, addressOfBytes_ofFn.trans harray, addressOfBytes_ofFn.trans harray⟩
  parse_toInt := parseNumber_toInt
  injective := toString_injective
  rejects _ hlength _ :=
    ⟨addressOfBytes_of_length_ne hlength, addressOfBytes_of_length_ne hlength⟩

/-! ## A parser of the dotted notation -/

/-- The octet with a numeral. -/
def octetOf (numeral : List Char) : Option UInt8 :=
  ((List.range 256).find? fun n => n.repr.toList = numeral).map UInt8.ofNat

/-- Four numerals of octets with dots in between. -/
def dottedDecimal (ip : String) : Option (Fin 4 → UInt8) :=
  match (ip.toList.splitOn '.').map octetOf with
  | [some a, some b, some c, some d] => some ![a, b, c, d]
  | _ => none

theorem octetOf_repr (octet : UInt8) : octetOf octet.toNat.repr.toList = some octet := by
  have hfind : (List.range 256).find? (fun n => n.repr.toList = octet.toNat.repr.toList) =
      some octet.toNat := by
    rw [List.find?_range_eq_some]
    -- no smaller number has the same numeral
    refine ⟨by simp, by simpa using octet.toNat_lt, fun n hn => ?_⟩
    have hne : n.repr.toList ≠ octet.toNat.repr.toList := fun heq =>
      hn.ne (Nat.repr_inj.mp (String.toList_inj.mp heq))
    simpa using hne
  rw [octetOf, hfind, Option.map_some, UInt8.ofNat_toNat]

theorem parsesDotted_dottedDecimal : ParsesDotted dottedDecimal := by
  intro a b c d
  have htext : dotted a b c d = (String.singleton '.').intercalate
      (([a, b, c, d].map UInt8.toNat).map Nat.repr) := by
    rw [List.map_map]
    rfl
  have hsplit : (dotted a b c d).toList.splitOn '.' =
      [a, b, c, d].map fun octet => octet.toNat.repr.toList := by
    rw [htext, splitOn_intercalate_repr (by decide) (by simp), List.map_map]
    rfl
  simp only [dottedDecimal, hsplit, List.map_cons, List.map_nil, octetOf_repr]

theorem ipv4FormsAgree_dottedDecimal : FormsAgree dottedDecimal :=
  ipv4FormsAgree parsesDotted_dottedDecimal

end NetDiscovery.Net.IPv4Address
