/-
# Byte orders

`ByteOrder::copy(bytes).from(source).to(target)` keeps the bytes or reverses them.
The host is a little-endian machine.
-/

import Mathlib.Data.Fin.Rev

namespace NetDiscovery.Util

/-- `ByteOrder::Value`. -/
inductive ByteOrder
  | littleEndian
  | bigEndian
  deriving DecidableEq

namespace ByteOrder

/-- `HostOrder`. -/
abbrev hostOrder : ByteOrder := .littleEndian

/-- `NetworkOrder`. -/
abbrev networkOrder : ByteOrder := .bigEndian

variable {n : ℕ}

/-- `copy(bytes).from(source).to(target)`. -/
def copy (source target : ByteOrder) (bytes : Fin n → UInt8) : Fin n → UInt8 :=
  if source = target then bytes else bytes ∘ Fin.rev

/-- Copying back gives the bytes again. -/
@[simp]
theorem copy_copy (source target : ByteOrder) (bytes : Fin n → UInt8) :
    copy target source (copy source target bytes) = bytes := by
  by_cases hsame : source = target
  · simp [copy, hsame]
  · funext i
    simp [copy, hsame, Ne.symm hsame]

end ByteOrder

end NetDiscovery.Util
