/-
# The text form of MAC addresses

`parse` reads a text with one `sscanf`: six times `%hhx`, with one of the
characters `-`, `:` and blank between each two, and then `%n` to check that the
text is at its end.

Every address in the usual notation is read, and its octets are the numbers in the
text. But `%hhx` accepts more than an octet: leading white space, a sign, a `0x`,
and any number of digits, of whose value the low byte is kept.
-/

import Mathlib
import NetDiscovery.Net.MacAddress
import NetDiscovery.Text.Scanf
import NetDiscovery.Util.ByteOrder
import NetDiscovery.Util.Result

namespace NetDiscovery.Net

open NetDiscovery.Text NetDiscovery.Util

/-- A NUL-terminated string. -/
structure CString where
  bytes : List UInt8
  zero_notMem : 0 ∉ bytes

namespace CString

/-- The character at an index up to the terminator's. -/
def get (text : CString) (n : ℕ) : UInt8 :=
  text.bytes.getD n 0

theorem get_eq_zero_iff (text : CString) {n : ℕ} : text.get n = 0 ↔ text.bytes.length ≤ n := by
  constructor
  · intro hzero
    by_contra hlt
    have hmem := List.getElem_mem (Nat.lt_of_not_le hlt)
    rw [get, List.getD_eq_getElem _ _ (Nat.lt_of_not_le hlt)] at hzero
    exact text.zero_notMem (hzero ▸ hmem)
  · intro hle
    exact List.getD_eq_default _ _ hle

end CString

namespace MacAddress

/-- The characters of `[-: ]`. -/
def separators : List UInt8 :=
  [45, 58, 32]

/-- `%hhx%*1[-: ]%hhx%*1[-: ]%hhx%*1[-: ]%hhx%*1[-: ]%hhx%*1[-: ]%hhx%n`. -/
def pattern : List Directive :=
  [.hex, .skipOne separators, .hex, .skipOne separators, .hex, .skipOne separators,
    .hex, .skipOne separators, .hex, .skipOne separators, .hex, .count]

/-- `MacAddress::parse(std::string_view)`. -/
def parseString (mac : CString) : Result ErrorType MacAddress :=
  let scanned := sscanf pattern mac.bytes
  if scanned.values.length = 6 ∧ mac.get scanned.n = 0 then
    .ok ⟨ByteOrder.copy .hostOrder .networkOrder fun i => scanned.values.getD i 0⟩
  else .error .invalidArgument

/-- `MacAddress::toBytes`. -/
def toBytes (order : ByteOrder) (m : MacAddress) : Fin 6 → UInt8 :=
  ByteOrder.copy .networkOrder order m.macAsBytes

/-- One or two hexadecimal digits. -/
def IsOctet (group : List UInt8) : Prop :=
  (group.length = 1 ∨ group.length = 2) ∧ ∀ c ∈ group, isHexDigit c = true

/-- The value of a group. -/
def octet (group : List UInt8) : UInt8 :=
  UInt8.ofNat (hexValue group)

/-- The text is six groups of one or two digits joined by single separators. -/
structure Spells (groups : List (List UInt8)) (text : List UInt8) : Prop where
  length_eq : groups.length = 6
  isOctet : ∀ group ∈ groups, IsOctet group
  joined : Joined separators groups text

/-- What the callers of `parse` expect for a text. -/
structure ParsesAddress (mac : CString) : Prop where
  /-- It succeeds for the usual notation and nothing else. -/
  succeeds_iff : (∃ m, parseString mac = .ok m) ↔ ∃ groups, Spells groups mac.bytes
  /-- The octets are the numbers in the text. -/
  octets : ∀ groups, Spells groups mac.bytes →
    ∃ m, parseString mac = .ok m ∧ List.ofFn (m.toBytes .hostOrder) = groups.map octet
  /-- Everything else is an invalid argument. -/
  rejects : (¬ ∃ groups, Spells groups mac.bytes) → parseString mac = .error .invalidArgument

/-- The text is six numerals joined by single separators, and one of them has white
space, a sign or a `0x` before its digits, or more than two digits. -/
def Loose (text : List UInt8) : Prop :=
  ∃ numerals : List Numeral, numerals.length = 6 ∧
    Joined separators (numerals.map Numeral.text) text ∧ ∃ numeral ∈ numerals, ¬ numeral.Bare

/-! ## What is read -/

variable {mac : CString} {numerals : List Numeral} {group : List UInt8}
  {groups : List (List UInt8)} {text : List UInt8}

theorem stops_of_mem_separators : ∀ c ∈ separators, Stops c :=
  List.forall_mem_cons.mpr ⟨by decide, List.forall_mem_cons.mpr ⟨by decide,
    List.forall_mem_singleton.mpr (by decide)⟩⟩

theorem pattern_eq : pattern = numbers separators 5 :=
  rfl

/-- What `parse` stores in network order comes out of `toBytes` as it was. -/
theorem toBytes_copy (bytes : Fin 6 → UInt8) :
    toBytes .hostOrder ⟨ByteOrder.copy .hostOrder .networkOrder bytes⟩ = bytes :=
  ByteOrder.copy_copy .hostOrder .networkOrder bytes

private theorem ofFn_getD {values : List UInt8} (hlength : values.length = 6) :
    List.ofFn (fun i : Fin 6 => values.getD i 0) = values := by
  refine List.ext_getElem (by simp [hlength]) fun i _ hi => ?_
  rw [List.getElem_ofFn, List.getD_eq_getElem _ _ hi]

/-- Six joined numerals are read, each into its octet. -/
theorem parseString_of_joined (hlength : numerals.length = 6)
    (joined : Joined separators (numerals.map Numeral.text) mac.bytes) :
    ∃ m, parseString mac = .ok m ∧
      List.ofFn (m.toBytes .hostOrder) = numerals.map Numeral.value := by
  have hscan : sscanf pattern mac.bytes = ⟨numerals.map Numeral.value, mac.bytes.length⟩ := by
    rw [pattern_eq]
    exact sscanf_of_joined stops_of_mem_separators joined hlength
  have hvalues : (numerals.map Numeral.value).length = 6 := by rw [List.length_map, hlength]
  have hend : mac.get mac.bytes.length = 0 := mac.get_eq_zero_iff.mpr le_rfl
  refine ⟨⟨ByteOrder.copy .hostOrder .networkOrder
    fun i => (numerals.map Numeral.value).getD i 0⟩, ?_, ?_⟩
  · simp only [parseString, hscan, hvalues, hend, and_self, if_true]
  · rw [toBytes_copy, ofFn_getD hvalues]

/-- Only six joined numerals are read. -/
theorem exists_joined_of_parseString {m : MacAddress} (hparse : parseString mac = .ok m) :
    ∃ numerals : List Numeral, numerals.length = 6 ∧
      Joined separators (numerals.map Numeral.text) mac.bytes := by
  simp only [parseString] at hparse
  split_ifs at hparse with hread
  obtain ⟨hvalues, hend⟩ := hread
  rw [pattern_eq] at hvalues hend
  obtain ⟨numerals, text, rest, hlength, hsplit, joined, hn⟩ := exists_joined_of_sscanf hvalues
  -- the character after what was read is the terminator
  rw [mac.get_eq_zero_iff, hn, hsplit, List.length_append] at hend
  have hnil : rest = [] := List.length_eq_zero_iff.mp (by omega)
  refine ⟨numerals, hlength, ?_⟩
  rwa [hsplit, hnil, List.append_nil]

theorem parseString_cases (mac : CString) :
    (∃ m, parseString mac = .ok m) ∨ parseString mac = .error .invalidArgument := by
  simp only [parseString]
  split_ifs
  · exact .inl ⟨_, rfl⟩
  · exact .inr rfl

/-! ## Octets and bare numerals -/

theorem hexValue_lt (hoctet : IsOctet group) : hexValue group < 256 := by
  have hdigit : ∀ c : UInt8, (hexDigit c).getD 0 < 16 := by
    intro c
    cases h : hexDigit c with
    | none => decide
    | some d => exact hexDigit_lt h
  rcases hoctet.1 with hone | htwo
  · obtain ⟨c, rfl⟩ := List.length_eq_one_iff.mp hone
    have hc := hdigit c
    simp only [hexValue, List.foldl_cons, List.foldl_nil]
    omega
  · obtain ⟨c, d, rfl⟩ := List.length_eq_two.mp htwo
    have hc := hdigit c
    have hd := hdigit d
    simp only [hexValue, List.foldl_cons, List.foldl_nil]
    omega

/-- An address in the usual notation has 17 characters at most. -/
theorem Spells.length_le (spells : Spells groups text) : text.length ≤ 17 := by
  have hgroups : ∀ {groups text}, Joined separators groups text →
      (∀ group ∈ groups, IsOctet group) → text.length + 1 ≤ 3 * groups.length := by
    intro groups text joined hoctets
    induction joined with
    | single piece =>
      have hpiece := (hoctets piece (by simp)).1
      rw [List.length_singleton]
      omega
    | cons piece _ _ ih =>
      have hpiece := (hoctets piece (by simp)).1
      have hrest := ih fun group hgroup => hoctets group (List.mem_cons_of_mem _ hgroup)
      rw [List.length_append, List.length_cons, List.length_cons]
      omega
  have hle := hgroups spells.joined spells.isOctet
  rw [spells.length_eq] at hle
  omega

/-- A group as a numeral. -/
def IsOctet.numeral (hoctet : IsOctet group) : Numeral where
  blanks := []
  sign := []
  hexPrefix := []
  digits := group
  isSpace_of_mem := nofun
  sign_mem := by decide
  hexPrefix_mem := by decide
  isHexDigit_of_mem := hoctet.2
  digits_ne_nil := by
    rintro rfl
    rcases hoctet.1 with h | h <;> cases h

theorem IsOctet.value_numeral (hoctet : IsOctet group) : hoctet.numeral.value = octet group := by
  have hlt := hexValue_lt hoctet
  rw [Numeral.value, octet, unsignedLong, if_neg (by change ¬ 2 ^ 64 ≤ hexValue group; omega)]
  rfl

/-- Groups are the texts of numerals. -/
theorem exists_numerals (hoctets : ∀ group ∈ groups, IsOctet group) :
    ∃ numerals : List Numeral, numerals.map Numeral.text = groups ∧
      numerals.map Numeral.value = groups.map octet := by
  induction groups with
  | nil => exact ⟨[], rfl, rfl⟩
  | cons group groups ih =>
    have hoctet := hoctets group (List.mem_cons_self ..)
    obtain ⟨numerals, htexts, hvalues⟩ := ih fun g hg => hoctets g (List.mem_cons_of_mem _ hg)
    refine ⟨hoctet.numeral :: numerals, ?_, ?_⟩
    · rw [List.map_cons, htexts]
      rfl
    · rw [List.map_cons, List.map_cons, hvalues, hoctet.value_numeral]

/-- The bare numerals are those whose texts are groups. -/
theorem bare_iff_isOctet (numeral : Numeral) : numeral.Bare ↔ IsOctet numeral.text := by
  constructor
  · intro bare
    have htext : numeral.text = numeral.digits := by
      simp [Numeral.text, bare.blanks, bare.sign, bare.hexPrefix]
    have hpos := List.length_pos_iff.mpr numeral.digits_ne_nil
    have hle := bare.digits
    rw [htext]
    exact ⟨by omega, numeral.isHexDigit_of_mem⟩
  · rintro ⟨hlength, hdigits⟩
    -- a part before the digits would hold a character that is no digit
    have hmem : ∀ c, c ∈ numeral.blanks ∨ c ∈ numeral.sign ∨ c ∈ numeral.hexPrefix →
        isHexDigit c = true := by
      intro c hc
      refine hdigits c ?_
      simp only [Numeral.text, List.mem_append]
      tauto
    refine ⟨?_, ?_, ?_, ?_⟩
    · refine List.eq_nil_iff_forall_not_mem.mpr fun c hc => ?_
      have hspace := numeral.isSpace_of_mem c hc
      rw [(ne_of_isHexDigit (hmem c (.inl hc))).1] at hspace
      cases hspace
    · have hsign := numeral.sign_mem
      simp only [signs, List.mem_cons, List.not_mem_nil, or_false] at hsign
      rcases hsign with hnil | hplus | hminus
      · exact hnil
      · exact absurd (hmem 43 (.inr (.inl (by simp [hplus])))) (by decide)
      · exact absurd (hmem 45 (.inr (.inl (by simp [hminus])))) (by decide)
    · have hlead := numeral.hexPrefix_mem
      simp only [hexPrefixes, List.mem_cons, List.not_mem_nil, or_false] at hlead
      rcases hlead with hnil | hlower | hupper
      · exact hnil
      · exact absurd (hmem 120 (.inr (.inr (by simp [hlower])))) (by decide)
      · exact absurd (hmem 88 (.inr (.inr (by simp [hupper])))) (by decide)
    · simp only [Numeral.text, List.length_append] at hlength
      omega

/-! ## Which texts are parsed as expected -/

/-- The usual notation is read. -/
theorem parseString_of_spells (spells : Spells groups mac.bytes) :
    ∃ m, parseString mac = .ok m ∧ List.ofFn (m.toBytes .hostOrder) = groups.map octet := by
  obtain ⟨numerals, htexts, hvalues⟩ := exists_numerals spells.isOctet
  have hlength : numerals.length = 6 := by
    rw [← spells.length_eq, ← htexts, List.length_map]
  rw [← hvalues]
  exact parseString_of_joined hlength (htexts ▸ spells.joined)

/-- Of the texts that are not loose nothing else is read. -/
theorem exists_spells_of_parseString {m : MacAddress} (hparse : parseString mac = .ok m)
    (hstrict : ¬ Loose mac.bytes) : ∃ groups, Spells groups mac.bytes := by
  obtain ⟨numerals, hlength, joined⟩ := exists_joined_of_parseString hparse
  refine ⟨numerals.map Numeral.text, by rw [List.length_map, hlength], ?_, joined⟩
  intro group hgroup
  obtain ⟨numeral, hmem, rfl⟩ := List.mem_map.mp hgroup
  by_contra hoctet
  exact hstrict ⟨numerals, hlength, joined, numeral, hmem, mt (bare_iff_isOctet numeral).mp hoctet⟩

/-- A loose text is not in the usual notation. -/
theorem not_spells_of_loose (hloose : Loose text) : ¬ Spells groups text := by
  intro spells
  obtain ⟨numerals, hlength, joined, numeral, hmem, hbare⟩ := hloose
  obtain ⟨numerals', htexts, -⟩ := exists_numerals spells.isOctet
  have hlength' : numerals.length = numerals'.length := by
    rw [hlength, ← spells.length_eq, ← htexts, List.length_map]
  -- the text is joined of numerals in one way only
  have hsame := joined.texts_unique stops_of_mem_separators (htexts ▸ spells.joined) hlength'
  rw [htexts] at hsame
  have hgroup : numeral.text ∈ groups := hsame ▸ List.mem_map_of_mem hmem
  exact hbare ((bare_iff_isOctet numeral).mpr (spells.isOctet _ hgroup))

/-- **`parse` does what is expected of it for exactly the texts that are not six
numerals of which one has white space, a sign, a prefix or too many digits.** -/
theorem parsesAddress_iff (mac : CString) : ParsesAddress mac ↔ ¬ Loose mac.bytes := by
  constructor
  · intro parses hloose
    obtain ⟨numerals, hlength, joined, -⟩ := id hloose
    -- a loose text is parsed although no groups spell it
    obtain ⟨m, hparse, -⟩ := parseString_of_joined hlength joined
    obtain ⟨groups, spells⟩ := parses.succeeds_iff.mp ⟨m, hparse⟩
    exact not_spells_of_loose hloose spells
  · intro hstrict
    refine ⟨⟨?_, ?_⟩, fun groups => parseString_of_spells, fun hnone => ?_⟩
    · rintro ⟨m, hparse⟩
      exact exists_spells_of_parseString hparse hstrict
    · rintro ⟨groups, spells⟩
      obtain ⟨m, hparse, -⟩ := parseString_of_spells spells
      exact ⟨m, hparse⟩
    · refine (parseString_cases mac).resolve_left ?_
      rintro ⟨m, hparse⟩
      exact hnone (exists_spells_of_parseString hparse hstrict)

/-- A text of ASCII characters. -/
def codes (text : String) : List UInt8 :=
  text.toList.map fun c => c.toNat.toUInt8

/-- `14:D7:D8:C8:A7:121`. -/
def overlong : CString :=
  ⟨codes "14:D7:D8:C8:A7:121", by decide⟩

/-- It is read, with the last octet `0x21`. -/
theorem not_parsesAddress_overlong : ¬ ParsesAddress overlong := by
  intro parses
  have hread : (sscanf pattern overlong.bytes).values.length = 6 ∧
      overlong.get (sscanf pattern overlong.bytes).n = 0 := by decide
  have hparse : ∃ m, parseString overlong = .ok m := by
    simp only [parseString]
    rw [if_pos hread]
    exact ⟨_, rfl⟩
  obtain ⟨groups, spells⟩ := parses.succeeds_iff.mp hparse
  exact absurd spells.length_le (by decide)

end MacAddress

end NetDiscovery.Net
