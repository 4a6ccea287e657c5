/-
# The receiving side of a socket

The socket's thread stamps each received packet with the clock and appends it to
a queue of bounded size, from which the scanner's thread takes packets later.
Stamping and appending are separate steps of that thread. A packet that finds
the queue full is dropped.
-/

import Mathlib.Data.List.Basic

namespace NetDiscovery.Net

/-- `SystemClock::time_point`, in nanoseconds since the epoch. -/
abbrev TimePoint := ℕ

/-- `MaxBufferSize()`: one kibibyte. It bounds the bytes of a packet and also
the number of packets in the queue. -/
def maxBufferSize : ℕ := 1024

/-- `v2::ReceivedPacket`: the bytes and when they arrived. -/
structure ReceivedPacket where
  arrival : TimePoint
  bytes : List UInt8
  bounded : bytes.length ≤ maxBufferSize

/-- `m_packetBuffer`, a queue of at most `maxBufferSize` packets. -/
structure PacketBuffer where
  packets : List ReceivedPacket
  bounded : packets.length ≤ maxBufferSize

namespace PacketBuffer

/-- The queue of a new socket. -/
def empty : PacketBuffer where
  packets := []
  bounded := Nat.zero_le _

/-- `m_packetBuffer.push`: a full queue stays as it is. -/
def push (buffer : PacketBuffer) (packet : ReceivedPacket) : PacketBuffer :=
  if hroom : buffer.packets.length < maxBufferSize then
    ⟨buffer.packets ++ [packet], by simpa [Nat.succ_le_iff] using hroom⟩
  else buffer

/-- `nextReceivedPacket`: the oldest packet, if there is one. -/
def pop : PacketBuffer → Option (ReceivedPacket × PacketBuffer)
  | ⟨[], _⟩ => none
  | ⟨packet :: rest, bounded⟩ =>
    some (packet, ⟨rest, Nat.le_of_succ_le bounded⟩)

variable {buffer buffer' : PacketBuffer} {packet other : ReceivedPacket}

theorem mem_of_mem_push (hmem : other ∈ (buffer.push packet).packets) :
    other ∈ buffer.packets ∨ other = packet := by
  unfold push at hmem
  split_ifs at hmem
  · simpa using hmem
  · exact .inl hmem

theorem packets_push (buffer : PacketBuffer) (packet : ReceivedPacket) :
    (buffer.push packet).packets =
      if buffer.packets.length < maxBufferSize then buffer.packets ++ [packet]
      else buffer.packets := by
  unfold push
  split_ifs <;> rfl

theorem packets_of_pop (hpop : buffer.pop = some (packet, buffer')) :
    buffer.packets = packet :: buffer'.packets := by
  -- only a queue with a first packet yields one
  rcases buffer with ⟨_ | ⟨first, rest⟩, bounded⟩
  · simp [pop] at hpop
  · simp only [pop, Option.some.injEq, Prod.mk.injEq] at hpop
    obtain ⟨rfl, rfl⟩ := hpop
    rfl

theorem packets_of_pop_eq_none (hpop : buffer.pop = none) : buffer.packets = [] := by
  rcases buffer with ⟨_ | ⟨first, rest⟩, bounded⟩
  · rfl
  · simp [pop] at hpop

end PacketBuffer

end NetDiscovery.Net
