/-
# Addresses as bytes

`IPv4Address` and `MacAddress` keep their octets in network order, and copy there
whatever array, list or span they are parsed from. A list or span can have the wrong
length.
-/

import Mathlib.Data.List.GetD
import NetDiscovery.Util.ByteOrder
import NetDiscovery.Util.Result

namespace NetDiscovery.Net

open NetDiscovery.Util

variable {n : ℕ} {Address : Type*} {make : (Fin n → UInt8) → Address} {bytes : Fin n → UInt8}
  {order : ByteOrder}

/-- `parse(std::array)` of an address that is made of bytes in network order. -/
def addressOfArray (make : (Fin n → UInt8) → Address) (bytes : Fin n → UInt8)
    (order : ByteOrder) : Result ErrorType Address :=
  .ok (make (ByteOrder.copy order .networkOrder bytes))

/-- `parse(std::initializer_list)` and `parse(nonstd::span)`. -/
def addressOfBytes (make : (Fin n → UInt8) → Address) (bytes : List UInt8) (order : ByteOrder) :
    Result ErrorType Address :=
  if bytes.length ≠ n then .error .invalidArgument
  else addressOfArray make (fun i => bytes.getD i 0) order

theorem addressOfBytes_ofFn :
    addressOfBytes make (List.ofFn bytes) order = addressOfArray make bytes order := by
  have hbytes : (fun i : Fin n => (List.ofFn bytes).getD i 0) = bytes := by
    funext i
    rw [List.getD_eq_getElem _ _ (by simp), List.getElem_ofFn]
  rw [addressOfBytes, if_neg (by simp), hbytes]

theorem addressOfBytes_of_length_ne {bytes : List UInt8} (hlength : bytes.length ≠ n) :
    addressOfBytes make bytes order = .error .invalidArgument :=
  if_pos hlength

/-- An array in host order is turned around. -/
theorem addressOfArray_hostOrder :
    addressOfArray make bytes .hostOrder = .ok (make (bytes ∘ Fin.rev)) :=
  rfl

/-- The bytes that an address keeps, copied to any order and parsed again. -/
theorem addressOfArray_copy :
    addressOfArray make (ByteOrder.copy .networkOrder order bytes) order = .ok (make bytes) := by
  rw [addressOfArray, ByteOrder.copy_copy]

end NetDiscovery.Net
