/-
# The ICMP filter

The scanner attaches a packet filter to its socket. It looks at the type field of
the Ethernet header and the protocol field of the IPv4 header, and keeps the frames
of ICMP packets in whole.
-/

import NetDiscovery.Net.Packet
import NetDiscovery.Net.ReceivingSocket
import NetDiscovery.Semantics.ClassicBpf

namespace NetDiscovery.Net.IcmpFilter

open NetDiscovery.Semantics.ClassicBpf

/-- `code`, the program of `IcmpFilter()`. -/
def code : List Instruction := [
  ⟨0x28, 0, 0, 0x0000000c⟩,
  ⟨0x15, 0, 3, 0x00000800⟩,
  ⟨0x30, 0, 0, 0x00000017⟩,
  ⟨0x15, 0, 1, 0x00000001⟩,
  ⟨0x6, 0, 0, 0x00040000⟩,
  ⟨0x6, 0, 0, 0x00000000⟩]

/-- The frame reaches to the protocol field and says that it holds an IPv4 packet
with an ICMP message. -/
def HoldsIcmp (frame : List UInt8) : Prop :=
  24 ≤ frame.length ∧ Packet.halfWord frame 12 = 0x0800 ∧ Packet.octet frame 23 = 1

instance (frame : List UInt8) : Decidable (HoldsIcmp frame) :=
  inferInstanceAs (Decidable (_ ∧ _ ∧ _))

variable {frame : List UInt8} {a : UInt32}

theorem checked_code : Checked code := by
  decide

/-- A field of one byte. -/
theorem readField_octet {i : ℕ} (hlength : i + 1 ≤ frame.length) :
    readField frame 1 i = some (Packet.octet frame i).toUInt32 := by
  rw [readField, if_pos hlength, List.drop_eq_getElem_cons hlength, List.take_succ_cons,
    List.take_zero, Packet.octet, List.getD_eq_getElem _ _ hlength]
  simp [bigEndian]

/-- A field of two bytes. -/
theorem readField_halfWord {i : ℕ} (hlength : i + 2 ≤ frame.length) :
    readField frame 2 i = some (Packet.halfWord frame i).toUInt32 := by
  have hfirst : i < frame.length := by omega
  have hsecond : i + 1 < frame.length := by omega
  have hfield : (frame.drop i).take 2 = [frame[i], frame[i + 1]] := by
    rw [List.drop_eq_getElem_cons hfirst, List.drop_eq_getElem_cons hsecond]
    rfl
  have hhigh := frame[i].toNat_lt
  have hlow := frame[i + 1].toNat_lt
  have hvalue : (Packet.halfWord frame i).toNat = 256 * frame[i].toNat + frame[i + 1].toNat := by
    rw [Packet.halfWord, Packet.octet, Packet.octet, List.getD_eq_getElem _ _ hfirst,
      List.getD_eq_getElem _ _ hsecond]
    simp only [UInt16.toNat_add, UInt16.toNat_mul, UInt8.toNat_toUInt16, UInt16.reduceToNat]
    omega
  rw [readField, if_pos hlength, hfield, ← UInt32.ofNat_uInt16ToNat, hvalue]
  simp only [bigEndian, List.foldl_cons, List.foldl_nil, Nat.mul_zero, Nat.zero_add]

/-! ## The program, instruction by instruction -/

theorem step_loadType : step code frame ⟨0, a⟩ =
    some (match readField frame 2 12 with | some value => .inl ⟨1, value⟩ | none => .inr 0) :=
  rfl

theorem step_testType : step code frame ⟨1, a⟩ =
    some (.inl ⟨if a = 0x0800 then 2 else 5, a⟩) := by
  have hbranch : step code frame ⟨1, a⟩ =
      some (.inl (Machine.skip ⟨1, a⟩ (if Test.eq.holds a 0x0800 then 0 else 3))) := rfl
  rw [hbranch]
  by_cases htype : a = 0x0800 <;> simp [Machine.skip, Test.holds, htype]

theorem step_loadProtocol : step code frame ⟨2, a⟩ =
    some (match readField frame 1 23 with | some value => .inl ⟨3, value⟩ | none => .inr 0) :=
  rfl

theorem step_testProtocol : step code frame ⟨3, a⟩ =
    some (.inl ⟨if a = 1 then 4 else 5, a⟩) := by
  have hbranch : step code frame ⟨3, a⟩ =
      some (.inl (Machine.skip ⟨3, a⟩ (if Test.eq.holds a 1 then 0 else 1))) := rfl
  rw [hbranch]
  by_cases hprotocol : a = 1 <;> simp [Machine.skip, Test.holds, hprotocol]

theorem step_keep : step code frame ⟨4, a⟩ = some (.inr 0x00040000) :=
  rfl

theorem step_drop : step code frame ⟨5, a⟩ = some (.inr 0) :=
  rfl

/-- The verdict on a frame, by the tests that the frame fails. -/
theorem exec_code (frame : List UInt8) : exec code frame code.length .start =
    some (if HoldsIcmp frame then 0x00040000 else 0) := by
  have hip_iff : (Packet.halfWord frame 12).toUInt32 = 0x0800 ↔
      Packet.halfWord frame 12 = 0x0800 := UInt16.toUInt32_inj (b := 0x0800)
  have hicmp_iff : (Packet.octet frame 23).toUInt32 = 1 ↔ Packet.octet frame 23 = 1 :=
    UInt8.toUInt32_inj (b := 1)
  change exec code frame 6 ⟨0, 0⟩ = _
  -- the cases are those in which the program drops the frame, in its order
  by_cases htype : 14 ≤ frame.length
  · have hload : step code frame ⟨0, 0⟩ =
        some (.inl ⟨1, (Packet.halfWord frame 12).toUInt32⟩) := by
      rw [step_loadType, readField_halfWord htype]
    rw [exec_of_next hload, exec_of_next step_testType]
    by_cases hip : Packet.halfWord frame 12 = 0x0800
    · rw [if_pos (hip_iff.mpr hip)]
      by_cases hprotocol : 24 ≤ frame.length
      · have hload' : step code frame ⟨2, (Packet.halfWord frame 12).toUInt32⟩ =
            some (.inl ⟨3, (Packet.octet frame 23).toUInt32⟩) := by
          rw [step_loadProtocol, readField_octet hprotocol]
        rw [exec_of_next hload', exec_of_next step_testProtocol]
        by_cases hicmp : Packet.octet frame 23 = 1
        · rw [if_pos (hicmp_iff.mpr hicmp), exec_of_verdict step_keep,
            if_pos ⟨hprotocol, hip, hicmp⟩]
        · rw [if_neg (mt hicmp_iff.mp hicmp), exec_of_verdict step_drop,
            if_neg fun holds => hicmp holds.2.2]
      · -- the frame ends before the protocol field
        rw [exec_of_verdict, if_neg fun holds => hprotocol holds.1]
        rw [step_loadProtocol, readField_eq_none (by omega)]
    · -- this is no IPv4 packet
      rw [if_neg (mt hip_iff.mp hip), exec_of_verdict step_drop,
        if_neg fun holds => hip holds.2.1]
  · -- it ends before the type field
    have hshort : ¬ HoldsIcmp frame := fun holds => htype (le_trans (by decide) holds.1)
    rw [exec_of_verdict, if_neg hshort]
    rw [step_loadType, readField_eq_none (by omega)]

/-! ## Which frames are kept -/

/-- What the filter does with a frame. -/
structure FiltersIcmp (frame : List UInt8) : Prop where
  /-- The program is never left. -/
  stays : ∀ m, Reaches code frame m → m.pc < code.length
  /-- It runs no instruction twice and ends with a verdict. -/
  ends : ∃ kept, exec code frame code.length .start = some kept
  /-- The frames kept are those that hold an ICMP message. -/
  accepts : ∀ kept, exec code frame code.length .start = some kept →
    (kept ≠ 0 ↔ HoldsIcmp frame)
  /-- They are kept in whole, as far as they fit in the receive buffer. -/
  whole : ∀ kept, exec code frame code.length .start = some kept → kept ≠ 0 →
    maxBufferSize ≤ kept.toNat

/-- **The filter ends on every frame and keeps those that hold an ICMP message, with
all the bytes that can be received.** -/
theorem filtersIcmp (frame : List UInt8) : FiltersIcmp frame where
  stays _ hreaches := checked_code.pc_lt_of_reaches hreaches
  ends := checked_code.exists_exec frame checked_code.1 (Nat.zero_add _).ge
  accepts kept hexec := by
    obtain rfl := Option.some.inj ((exec_code frame).symm.trans hexec)
    split_ifs with holds
    · exact iff_of_true (by decide) holds
    · exact iff_of_false (fun hne => hne rfl) holds
  whole kept hexec hne := by
    obtain rfl := Option.some.inj ((exec_code frame).symm.trans hexec)
    split_ifs at hne ⊢
    · decide
    · exact absurd rfl hne

example : HoldsIcmp (Packet.sampleReply 7) := by decide

end NetDiscovery.Net.IcmpFilter
