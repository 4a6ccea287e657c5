/-
# Converting the value of a binding

`toOidValue` copies numbers. It reads octets into a zeroed buffer of 256 bytes and makes
a string of the buffer, which ends at the first zero byte. It prints an object
identifier and parses the text, without looking whether it was parsed.

The SNMP library's functions are parameters with a contract. Under it the conversion is
the one that the client's model uses, and `preservesValues_iff` says which values survive
it.
-/

import NetDiscovery.Math.SeparatedText
import NetDiscovery.Net.Snmp.Oid

namespace NetDiscovery.Net

open NetDiscovery.Math

/-- What `toOidValue` uses of the SNMP library. -/
structure SnmpLibrary where
  /-- what is in the buffer after `Vb::get_value(ptr, len, maxlen, true)` -/
  getValue : (octets : List UInt8) → (maxlen : ℕ) → (buffer : List UInt8) → List UInt8
  /-- `Oid::get_printable` -/
  getPrintable : Oid → String
  /-- `Oid(const char*)`, if it is valid -/
  ofText : String → Option Oid

namespace SnmpLibrary

/-- The contract of these functions: as many octets are copied as fit into `maxlen`
bytes with a terminating zero, and an identifier is read as it was printed; one without
subidentifiers is not valid. -/
structure Lawful (library : SnmpLibrary) : Prop where
  getValue_eq : ∀ octets maxlen (buffer : List UInt8), 0 < maxlen → maxlen ≤ buffer.length →
    library.getValue octets maxlen buffer =
      octets.take (maxlen - 1) ++ 0 :: buffer.drop ((octets.take (maxlen - 1)).length + 1)
  ofText_getPrintable : ∀ oid, oid ≠ [] → library.ofText (library.getPrintable oid) = some oid
  ofText_getPrintable_nil : library.ofText (library.getPrintable []) = none

/-- `toOidValue`. There is no value if it takes an identifier that was not parsed. -/
def toOidValue (library : SnmpLibrary) (vb : Vb) : Option OidValue :=
  match vb.value with
  | .int i => some (.integer32 i)
  | .octets bytes =>
    let octet := library.getValue bytes 256 (List.replicate 256 0)
    some (.octetString (octet.takeWhile (· ≠ 0)))
  | .counter32 i => some (.uinteger32 i)
  | .gauge32 i => some (.uinteger32 i)
  | .timeticks i => some (.timeTicks i)
  | .counter64 i => some (.counter64 i)
  | .oid oid => (library.ofText (library.getPrintable oid)).map .oidType
  | .endOfMibView | .other => some (.opaqueText vb.printableValue)

end SnmpLibrary

/-- The value that a binding of one of the converted syntaxes holds. -/
def Smi.held : Smi → Option OidValue
  | .int i => some (.integer32 i)
  | .octets bytes => some (.octetString bytes)
  | .counter32 i | .gauge32 i => some (.uinteger32 i)
  | .timeticks i => some (.timeTicks i)
  | .counter64 i => some (.counter64 i)
  | .oid name => some (.oidType name)
  | .endOfMibView | .other => none

/-- Two values of one converted syntax. -/
def Smi.SameSyntax : Smi → Smi → Prop
  | .int _, .int _ | .octets _, .octets _ | .counter32 _, .counter32 _ | .gauge32 _, .gauge32 _
  | .timeticks _, .timeticks _ | .counter64 _, .counter64 _ | .oid _, .oid _ => True
  | _, _ => False

/-- The conversion of two bindings keeps their values, and so keeps them apart. -/
structure PreservesValues (library : SnmpLibrary) (vb vb' : Vb) : Prop where
  first : ∀ value, vb.value.held = some value → library.toOidValue vb = some value
  second : ∀ value, vb'.value.held = some value → library.toOidValue vb' = some value
  distinct : vb.value.SameSyntax vb'.value → vb.value ≠ vb'.value →
    library.toOidValue vb ≠ library.toOidValue vb'

/-- Octets that fit into the buffer and have no zero among them, and an identifier with
a subidentifier. -/
def Smi.Convertible : Smi → Prop
  | .octets bytes => bytes.length ≤ 255 ∧ 0 ∉ bytes
  | .oid name => name ≠ []
  | _ => True

variable {library : SnmpLibrary} {vb vb' : Vb} {bytes rest : List UInt8} {value : OidValue}

/-- A string ends at the first zero byte. -/
theorem takeWhile_append_zero :
    (bytes ++ 0 :: rest).takeWhile (· ≠ 0) = bytes.takeWhile (· ≠ 0) := by
  rw [List.takeWhile_append]
  split_ifs with hlength
  · -- there is no zero before this one
    have hself := (List.takeWhile_prefix _).eq_of_length hlength
    rw [hself, List.takeWhile_cons_of_neg (by simp), List.append_nil]
  · rfl

/-- The text in the buffer is all of the octets exactly if they fit and have no zero
among them. -/
theorem octetText_eq_self_iff : octetText bytes = bytes ↔ bytes.length ≤ 255 ∧ 0 ∉ bytes := by
  have hnonzero : bytes.takeWhile (· ≠ 0) = bytes ↔ 0 ∉ bytes := by
    rw [List.takeWhile_eq_self_iff]
    constructor
    · intro hall hmem
      simpa using hall 0 hmem
    · intro hnot byte hmem
      have hne : byte ≠ 0 := fun hzero => hnot (hzero ▸ hmem)
      simpa using hne
  constructor
  · -- what is read is a part of what was copied
    intro hself
    rw [octetText] at hself
    have hle : ((bytes.take 255).takeWhile (· ≠ 0)).length ≤ (bytes.take 255).length :=
      (List.takeWhile_prefix _).length_le
    rw [hself, List.length_take] at hle
    have hlength : bytes.length ≤ 255 := by omega
    rw [List.take_of_length_le hlength] at hself
    exact ⟨hlength, hnonzero.mp hself⟩
  · rintro ⟨hlength, hnot⟩
    rw [octetText, List.take_of_length_le hlength, hnonzero.mpr hnot]

namespace SnmpLibrary

/-- Under the contract the conversion is the client's. -/
theorem toOidValue_eq (lawful : library.Lawful) (hoid : vb.value ≠ .oid []) :
    library.toOidValue vb = some (NetDiscovery.Net.toOidValue vb) := by
  cases hvalue : vb.value with
  | int | counter32 | gauge32 | timeticks | counter64 | endOfMibView | other =>
    simp only [toOidValue, NetDiscovery.Net.toOidValue, hvalue]
  | octets bytes =>
    have hbuffer : 256 ≤ (List.replicate 256 (0 : UInt8)).length := by rw [List.length_replicate]
    simp only [toOidValue, NetDiscovery.Net.toOidValue, hvalue,
      lawful.getValue_eq bytes 256 _ (by decide) hbuffer]
    rw [takeWhile_append_zero]
    rfl
  | oid name =>
    have hname : name ≠ [] := by
      rintro rfl
      exact hoid hvalue
    simp only [toOidValue, NetDiscovery.Net.toOidValue, hvalue,
      lawful.ofText_getPrintable name hname, Option.map_some]

/-- A value survives the conversion exactly if it is convertible. -/
theorem toOidValue_eq_held_iff (lawful : library.Lawful) :
    (∀ value, vb.value.held = some value → library.toOidValue vb = some value) ↔
      vb.value.Convertible := by
  cases hvalue : vb.value with
  | int | counter32 | gauge32 | timeticks | counter64 =>
    refine iff_of_true (fun value hheld => ?_) trivial
    simpa [toOidValue, hvalue, Smi.held] using hheld
  | endOfMibView | other =>
    refine iff_of_true (fun value hheld => ?_) trivial
    simp [Smi.held] at hheld
  | octets bytes =>
    have hconverted : library.toOidValue vb = some (NetDiscovery.Net.toOidValue vb) :=
      toOidValue_eq lawful (by simp [hvalue])
    simp only [NetDiscovery.Net.toOidValue, hvalue] at hconverted
    simp only [hconverted, Smi.held, Option.some.injEq, forall_eq', OidValue.octetString.injEq,
      octetText_eq_self_iff, Smi.Convertible]
  | oid name =>
    by_cases hname : name = []
    · subst hname
      simp [toOidValue, hvalue, Smi.held, Smi.Convertible, lawful.ofText_getPrintable_nil]
    · have hconverted : library.toOidValue vb = some (NetDiscovery.Net.toOidValue vb) :=
        toOidValue_eq lawful (by simpa [hvalue] using hname)
      simp [hconverted, NetDiscovery.Net.toOidValue, hvalue, Smi.held, Smi.Convertible, hname]

end SnmpLibrary

/-- Values of one syntax that hold the same are the same. -/
theorem Smi.eq_of_held {first second : Smi} (hsame : first.SameSyntax second)
    (hheld : first.held = second.held) : first = second := by
  cases first <;> cases second <;> simp_all [Smi.SameSyntax, Smi.held]

/-- A value of a converted syntax is held. -/
theorem Smi.exists_held {first second : Smi} (hsame : first.SameSyntax second) :
    (∃ value, first.held = some value) ∧ ∃ value, second.held = some value := by
  cases first <;> cases second <;> simp_all [Smi.SameSyntax, Smi.held]

/-- Two bindings keep their values exactly if both are convertible. -/
theorem preservesValues_iff (lawful : library.Lawful) (vb vb' : Vb) :
    PreservesValues library vb vb' ↔ vb.value.Convertible ∧ vb'.value.Convertible := by
  rw [← SnmpLibrary.toOidValue_eq_held_iff lawful, ← SnmpLibrary.toOidValue_eq_held_iff lawful]
  constructor
  · rintro ⟨hfirst, hsecond, -⟩
    exact ⟨hfirst, hsecond⟩
  · rintro ⟨hfirst, hsecond⟩
    -- values that survive can be told apart by what they are converted to
    refine ⟨hfirst, hsecond, fun hsame hne heq => hne (Smi.eq_of_held hsame ?_)⟩
    obtain ⟨⟨value, hvalue⟩, ⟨value', hvalue'⟩⟩ := Smi.exists_held hsame
    rw [hfirst value hvalue, hsecond value' hvalue'] at heq
    rw [hvalue, hvalue', heq]

/-! ## A library for identifiers in dotted notation -/

/-- The number of a decimal numeral. -/
def numeralOf (numeral : List Char) : Option ℕ :=
  if numeral ≠ [] ∧ numeral.all Char.isDigit then some (Nat.ofDigitChars 10 numeral 0) else none

/-- Identifiers are printed as their subidentifiers with dots in between. -/
def SnmpLibrary.dotted : SnmpLibrary where
  getValue octets maxlen buffer :=
    octets.take (maxlen - 1) ++ 0 :: buffer.drop ((octets.take (maxlen - 1)).length + 1)
  getPrintable oid := ".".intercalate (oid.map Nat.repr)
  ofText text := (text.toList.splitOn '.').mapM numeralOf

theorem numeralOf_repr (n : ℕ) : numeralOf n.repr.toList = some n := by
  have hne : n.repr.toList ≠ [] := by
    rw [Nat.toList_repr]
    exact Nat.toDigits_ne_nil
  have hdigits : n.repr.toList.all Char.isDigit := by
    rw [List.all_eq_true]
    exact fun c hmem => isDigit_of_mem_repr hmem
  rw [numeralOf, if_pos ⟨hne, hdigits⟩, Nat.toList_repr, Nat.ofDigitChars_ten_toDigits]

theorem mapM_numeralOf (oid : Oid) :
    (oid.map fun subidentifier => subidentifier.repr.toList).mapM numeralOf = some oid := by
  induction oid with
  | nil => rfl
  | cons subidentifier oid ih =>
    rw [List.map_cons, List.mapM_cons, numeralOf_repr, ih]
    rfl

theorem SnmpLibrary.lawful_dotted : SnmpLibrary.dotted.Lawful where
  getValue_eq _ _ _ _ _ := rfl
  ofText_getPrintable oid hne := by
    have hsplit : (".".intercalate (oid.map Nat.repr)).toList.splitOn '.' =
        oid.map fun subidentifier => subidentifier.repr.toList :=
      splitOn_intercalate_repr (by decide) hne
    simp only [dotted, hsplit, mapM_numeralOf]
  ofText_getPrintable_nil := by decide

/-- `ifPhysAddress` with a number of octets. -/
def physicalAddress (octets : List UInt8) : Vb where
  oid := [1, 3, 6, 1, 2, 1, 2, 2, 1, 6, 1]
  value := .octets octets
  valid := true
  printableValue := ""

theorem preservesValues_physicalAddress :
    PreservesValues .dotted (physicalAddress [2, 66, 172, 17, 1, 2])
      (physicalAddress [2, 66, 172, 17, 1, 3]) :=
  (preservesValues_iff SnmpLibrary.lawful_dotted _ _).mpr
    ⟨⟨by decide, by decide⟩, ⟨by decide, by decide⟩⟩

/-- Two physical addresses that differ after a zero are converted to the same value. -/
theorem not_preservesValues_zeroByte :
    ¬ PreservesValues .dotted (physicalAddress [2, 66, 0, 17, 1, 2])
      (physicalAddress [2, 66, 0, 17, 1, 3]) := by
  intro hpreserves
  exact hpreserves.distinct trivial (by decide) (by decide)

end NetDiscovery.Net
