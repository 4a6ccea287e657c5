/-
# Object identifiers, variable bindings and their values

An object identifier is the list of its subidentifiers, ordered
lexicographically. A received binding offers what the SNMP library's accessors
return for it. The client keeps a binding as its name together with a converted
value.

Printing an identifier and parsing the text back gives the same identifier, so
identifiers are passed on as they are.
-/

import Mathlib.Data.List.Lex
import NetDiscovery.Net.IPv4Address
import NetDiscovery.Util.Result

namespace NetDiscovery.Net

/-- `net::Oid` and `Snmp_pp::Oid`. -/
abbrev Oid := List ℕ

/-- `Snmp_pp::Oid::nCompare`: compare the first `n` subidentifiers. -/
def Oid.nCompare (oid : Oid) (n : ℕ) (other : Oid) : ℤ :=
  if oid.take n = other.take n then 0
  else if oid.take n < other.take n then -1 else 1

/-- Compared over its own length, an identifier equals exactly its extensions. -/
theorem Oid.nCompare_length_eq_zero_iff {oid other : Oid} :
    oid.nCompare oid.length other = 0 ↔ oid <+: other := by
  rw [List.prefix_iff_eq_take, nCompare, List.take_length]
  split_ifs with heq
  · exact iff_of_true rfl heq
  · exact iff_of_false (by decide) heq
  · exact iff_of_false (by decide) heq

/-- The syntax of a received value, with the value where the client reads it. -/
inductive Smi
  | int (i : Int32)
  | octets (bytes : List UInt8)
  | counter32 (i : UInt32)
  | gauge32 (i : UInt32)
  | timeticks (i : UInt32)
  | counter64 (i : UInt64)
  | oid (oid : Oid)
  /-- the exception that marks the end of the MIB -/
  | endOfMibView
  /-- any other syntax -/
  | other
  deriving DecidableEq

/-- A received variable binding, `Snmp_pp::Vb`. -/
structure Vb where
  oid : Oid
  value : Smi
  /-- `valid()` -/
  valid : Bool
  /-- `get_printable_value()` -/
  printableValue : String
  deriving DecidableEq

/-- A binding that was not assigned. -/
def Vb.default : Vb where
  oid := []
  value := .other
  valid := false
  printableValue := ""

/-- `net::OidValue`. -/
inductive OidValue
  | integer32 (value : Int32)
  | uinteger32 (value : UInt32)
  | octetString (value : List UInt8)
  | oidType (value : Oid)
  | counter64 (value : UInt64)
  | timeTicks (value : UInt32)
  | opaqueText (value : String)
  deriving DecidableEq

/-- The text in a 256-byte buffer: at most 255 bytes, up to the first zero. -/
def octetText (bytes : List UInt8) : List UInt8 :=
  (bytes.take 255).takeWhile (· ≠ 0)

/-- `toOidValue`. -/
def toOidValue (vb : Vb) : OidValue :=
  match vb.value with
  | .int i => .integer32 i
  | .octets bytes => .octetString (octetText bytes)
  | .counter32 i => .uinteger32 i
  | .gauge32 i => .uinteger32 i
  | .timeticks i => .timeTicks i
  | .counter64 i => .counter64 i
  | .oid oid => .oidType oid
  | .endOfMibView | .other => .opaqueText vb.printableValue

/-- `net::VarBind`. -/
structure VarBind where
  oid : Oid
  value : Option OidValue
  deriving DecidableEq

/-- The binding that is kept of a received one. -/
def Vb.toVarBind (vb : Vb) : VarBind where
  oid := vb.oid
  value := some (toOidValue vb)

end NetDiscovery.Net
