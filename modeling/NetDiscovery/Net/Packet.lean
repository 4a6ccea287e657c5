/-
# Packets

The layers a parsed frame may have, with the fields the scanner writes and
reads. The scanner works with any parser. The parser given here follows the
Ethernet, IPv4 and ICMP formats and is what concrete frames are read with.
-/

import NetDiscovery.Net.IPv4Address
import NetDiscovery.Net.MacAddress

namespace NetDiscovery.Net

open NetDiscovery.Math

/-- The Ethernet layer, `pcpp::EthLayer`. -/
structure EthLayer where
  sourceMac : MacAddress
  destMac : MacAddress
  deriving DecidableEq

/-- The IPv4 layer, `pcpp::IPv4Layer`. -/
structure IPv4Layer where
  srcIpAddress : IPv4Address
  dstIpAddress : IPv4Address
  ipId : UInt16
  timeToLive : UInt8
  deriving DecidableEq

/-- The ICMP layer, `pcpp::IcmpLayer`, with the fields of an echo message. -/
structure IcmpLayer where
  type : UInt8
  code : UInt8
  id : UInt16
  sequence : UInt16
  timestamp : UInt64
  payload : List UInt8
  deriving DecidableEq

/-- `ICMP_ECHO_REPLY`. -/
def echoReplyType : UInt8 := 0

/-- `ICMP_ECHO_REQUEST`. -/
def echoRequestType : UInt8 := 8

/-- A parsed packet: the layers that were found. -/
structure Packet where
  ethLayer : Option EthLayer
  ipv4Layer : Option IPv4Layer
  icmpLayer : Option IcmpLayer
  deriving DecidableEq

/-- A packet parser, `PacketParser` as the scanner sees it. -/
abbrev Parser := List UInt8 → Packet

namespace Packet

variable (frame : List UInt8)

/-- One byte of a frame. -/
def octet (i : ℕ) : UInt8 :=
  frame.getD i 0

/-- A 16-bit field in network order. -/
def halfWord (i : ℕ) : UInt16 :=
  (octet frame i).toUInt16 * 256 + (octet frame (i + 1)).toUInt16

/-- The address in the four bytes from `i`; the last one is stored first. -/
def addressAt (i : ℕ) : IPv4Address :=
  ⟨fun k => octet frame (i + 3 - k)⟩

/-- The MAC address in the six bytes from `i`. -/
def macAt (i : ℕ) : MacAddress :=
  ⟨fun k => octet frame (i + 5 - k)⟩

/-- The length of the IPv4 header in bytes. -/
def headerLength : ℕ :=
  4 * ((octet frame 14).toNat % 16)

def parseEth : Option EthLayer :=
  if 14 ≤ frame.length then
    some { sourceMac := macAt frame 6, destMac := macAt frame 0 }
  else none

def parseIPv4 : Option IPv4Layer :=
  if 34 ≤ frame.length ∧ halfWord frame 12 = 0x0800 ∧ (octet frame 14).toNat / 16 = 4 ∧
      20 ≤ headerLength frame then
    some {
      srcIpAddress := addressAt frame 26
      dstIpAddress := addressAt frame 30
      ipId := halfWord frame 18
      timeToLive := octet frame 22 }
  else none

def parseIcmp : Option IcmpLayer :=
  let start := 14 + headerLength frame
  if (parseIPv4 frame).isSome ∧ octet frame 23 = 1 ∧ start + 16 ≤ frame.length then
    some {
      type := octet frame start
      code := octet frame (start + 1)
      id := halfWord frame (start + 4)
      sequence := halfWord frame (start + 6)
      timestamp := UInt64.ofNat (leValue fun k : Fin 8 => octet frame (start + 8 + k))
      payload := frame.drop (start + 16) }
  else none

/-- Read the layers of an Ethernet frame. -/
def parse : Packet where
  ethLayer := parseEth frame
  ipv4Layer := parseIPv4 frame
  icmpLayer := parseIcmp frame

/-- An echo reply from 10.0.0.`last` to 10.0.0.1. -/
def sampleReply (last : UInt8) : List UInt8 := [
  0x02, 0, 0, 0, 0, 0x01, 0x02, 0, 0, 0, 0, last, 0x08, 0x00,
  0x45, 0, 0, 40, 0, 1, 0, 0, 64, 1, 0, 0, 10, 0, 0, last, 10, 0, 0, 1,
  0, 0, 0, 0, 0, 7, 0, 0, 0, 0, 0, 0, 0, 0, 0, 0, 87, 72, 65, 84]

example : (parse (sampleReply 7)).icmpLayer =
    some ⟨echoReplyType, 0, 7, 0, 0, [87, 72, 65, 84]⟩ := by decide

end Packet

end NetDiscovery.Net
