/-
# The ICMP scanner

A ping sends an echo request and registers a pending request under the printed
address of the host. A received packet answers the request that is pending under
its printed source address. A sweep answers every request older than the timeout
with an error.

A packet is matched by its source address alone. Whether it is an ICMP packet at
all, and which identifier and sequence number it carries, is not looked at:
`onPacketReceived_answersBySource` says exactly which packets answer which
request.
-/

import NetDiscovery.Net.Packet
import NetDiscovery.Net.ReceivingSocket
import NetDiscovery.Semantics.PendingTable
import NetDiscovery.Util.Result

namespace NetDiscovery.Net

open NetDiscovery.Semantics NetDiscovery.Util

/-- `net::IcmpResponse`; the response time is in milliseconds. -/
structure IcmpResponse where
  srcIp : IPv4Address
  dstIp : IPv4Address
  srcMac : MacAddress
  dstMac : MacAddress
  ttl : UInt8
  responseTime : ℤ
  deriving DecidableEq

/-- `net::IcmpError`. -/
structure IcmpError where
  dstIp : IPv4Address
  error : ErrorType
  deriving DecidableEq

/-- The addresses of the interface that sends, `net::NetworkInterface`. -/
structure NetworkInterface where
  ipAddress : IPv4Address
  macAddress : MacAddress

namespace IcmpScanner

/-- What a ping is answered with. -/
abbrev Outcome := Result IcmpError IcmpResponse

/-- `IcmpScanner::Request`, without the promise, which the table adds. -/
structure Request where
  dstIp : IPv4Address
  time : TimePoint
  deriving DecidableEq

/-- `Request{}`, what `operator[]` puts under a missing key. -/
def Request.default : Request where
  dstIp := .ofOctets 0 0 0 0
  time := 0

/-- `m_pendingRequests`. -/
abbrev PendingRequests := PendingTable String Request Outcome

/-- The echo request that `pingAsync` sends. `threadHash` is the hash of the
calling thread's id, cut to the identifier's 16 bits. -/
def echoRequest (networkInterface : NetworkInterface) (host : IPv4Address) (mac : MacAddress)
    (threadHash timestamp : UInt64) : Packet where
  ethLayer := some { sourceMac := networkInterface.macAddress, destMac := mac }
  ipv4Layer := some {
    srcIpAddress := networkInterface.ipAddress
    dstIpAddress := host
    -- `htons(2000)` on a little-endian host
    ipId := 0xD007
    timeToLive := 64 }
  icmpLayer := some {
    type := echoRequestType
    code := 0
    id := threadHash.toUInt16
    sequence := 0
    timestamp := timestamp
    payload := "WHAT".toUTF8.data.toList }

/-- The second half of `pingAsync`: the request is assigned to the host's key. -/
def registerRequest (table : PendingRequests) (host : IPv4Address) (sentTime : TimePoint) :
    PendingRequests :=
  table.assign host.toString { dstIp := host, time := sentTime }

/-- The time from `sent` to `arrival` in whole milliseconds, rounded to zero. -/
def elapsedMilliseconds (sent arrival : TimePoint) : ℤ :=
  Int.tdiv (arrival - sent) 1000000

/-- The response read off a packet, before its response time is known. There is
none without an Ethernet and an IPv4 layer. -/
def readResponse (packet : Packet) : Option IcmpResponse :=
  match packet.ethLayer with
  | none => none
  | some ethLayer =>
    match packet.ipv4Layer with
    | none => none
    | some ipLayer => some {
        srcIp := ipLayer.srcIpAddress
        srcMac := ethLayer.sourceMac
        dstIp := ipLayer.dstIpAddress
        dstMac := ethLayer.destMac
        ttl := ipLayer.timeToLive
        responseTime := 0 }

/-- `IcmpScanner::onPacketReceived`. -/
def onPacketReceived (parser : Parser) (table : PendingRequests) (packet : ReceivedPacket) :
    PendingRequests :=
  match readResponse (parser packet.bytes) with
  | none => table
  | some response =>
    match table.lookup response.srcIp.toString with
    | none => table
    | some entry =>
      table.resolve response.srcIp.toString
        (.ok { response with
          responseTime := elapsedMilliseconds entry.request.time packet.arrival })

/-- Five seconds. -/
def defaultTimeout : ℕ := 5000000000

/-- `now - req.time >= defaultTimeout`. -/
def isDue (now : TimePoint) (request : Request) : Bool :=
  request.time + defaultTimeout ≤ now

/-- The answer to a request that timed out. -/
def timeoutError (request : Request) : Outcome :=
  .error { dstIp := request.dstIp, error := .timedOut }

/-- `IcmpScanner::handleTimeouts`: the map is visited in the order of its keys. -/
def handleTimeouts (table : PendingRequests) (now : TimePoint) : PendingRequests :=
  table.sweep (isDue now) timeoutError table.entries.keys

/-- `IcmpScanner::hasPendingRequests`. -/
def hasPendingRequests (table : PendingRequests) : Bool :=
  !table.entries.isEmpty

/-! ## Packets and the requests they answer -/

variable {parser : Parser} {table : PendingRequests} {packet : ReceivedPacket}
  {host : IPv4Address} {entry : Entry Request} {response : IcmpResponse} {key : String} {p : ℕ}

/-- The packet has an Ethernet and an IPv4 layer and its source is `host`. -/
def ComesFrom (packet : Packet) (host : IPv4Address) : Prop :=
  packet.ethLayer.isSome ∧ packet.ipv4Layer.map IPv4Layer.srcIpAddress = some host

instance (packet : Packet) (host : IPv4Address) : Decidable (ComesFrom packet host) :=
  inferInstanceAs (Decidable (_ ∧ _))

/-- The packets a response is read off are those with a source. -/
theorem comesFrom_iff {packet : Packet} :
    ComesFrom packet host ↔ ∃ response, readResponse packet = some response ∧
      response.srcIp = host := by
  unfold ComesFrom readResponse
  cases packet.ethLayer <;> cases packet.ipv4Layer <;> simp

theorem comesFrom_unique {packet : Packet} {host' : IPv4Address} (hfrom : ComesFrom packet host)
    (hfrom' : ComesFrom packet host') : host = host' :=
  Option.some.inj (hfrom.2.symm.trans hfrom'.2)

/-- The response to a request sent at `sent`, if `packet` can answer one. -/
def responseAt (parser : Parser) (packet : ReceivedPacket) (sent : TimePoint) :
    Option IcmpResponse :=
  (readResponse (parser packet.bytes)).map fun response =>
    { response with responseTime := elapsedMilliseconds sent packet.arrival }

private theorem responseAt_of_read {sent : TimePoint}
    (hread : readResponse (parser packet.bytes) = some response) :
    responseAt parser packet sent =
      some { response with responseTime := elapsedMilliseconds sent packet.arrival } := by
  rw [responseAt, hread, Option.map_some]

/-- What a response carries is the packet's, and its time is from the request to the
arrival of the packet. -/
theorem responseAt_eq_some_iff {sent : TimePoint} :
    responseAt parser packet sent = some response ↔
      ∃ ethLayer ipLayer, (parser packet.bytes).ethLayer = some ethLayer ∧
        (parser packet.bytes).ipv4Layer = some ipLayer ∧
        response = {
          srcIp := ipLayer.srcIpAddress
          srcMac := ethLayer.sourceMac
          dstIp := ipLayer.dstIpAddress
          dstMac := ethLayer.destMac
          ttl := ipLayer.timeToLive
          responseTime := elapsedMilliseconds sent packet.arrival } := by
  unfold responseAt readResponse
  cases (parser packet.bytes).ethLayer <;> cases (parser packet.bytes).ipv4Layer <;>
    simp [eq_comm]

theorem responseAt_eq_some {sent : TimePoint}
    (hresponse : responseAt parser packet sent = some response) :
    ComesFrom (parser packet.bytes) response.srcIp ∧
      response.responseTime = elapsedMilliseconds sent packet.arrival := by
  obtain ⟨ethLayer, ipLayer, heth, hip, rfl⟩ := responseAt_eq_some_iff.mp hresponse
  exact ⟨⟨by simp [heth], by simp [hip]⟩, rfl⟩

/-- The destination of a response is the packet's. -/
theorem dstIp_of_responseAt {sent : TimePoint}
    (hresponse : responseAt parser packet sent = some response) :
    (parser packet.bytes).ipv4Layer.map IPv4Layer.dstIpAddress = some response.dstIp := by
  obtain ⟨ethLayer, ipLayer, -, hip, rfl⟩ := responseAt_eq_some_iff.mp hresponse
  rw [hip, Option.map_some]

/-- A packet from a host with a pending request answers that request. -/
theorem onPacketReceived_of_pending (hfrom : ComesFrom (parser packet.bytes) host)
    (hentry : table.lookup host.toString = some entry) :
    ∃ response, responseAt parser packet entry.request.time = some response ∧
      response.srcIp = host ∧
      onPacketReceived parser table packet = table.resolve host.toString (.ok response) := by
  obtain ⟨read, hread, rfl⟩ := comesFrom_iff.mp hfrom
  refine ⟨_, responseAt_of_read hread, rfl, ?_⟩
  simp [onPacketReceived, hread, hentry]

/-- Any other packet leaves the table as it is. -/
theorem onPacketReceived_of_not_pending
    (hnone : ∀ host, ComesFrom (parser packet.bytes) host → table.lookup host.toString = none) :
    onPacketReceived parser table packet = table := by
  unfold onPacketReceived
  cases hread : readResponse (parser packet.bytes) with
  | none => rfl
  | some read => simp [hnone read.srcIp (comesFrom_iff.mpr ⟨read, hread, rfl⟩)]

/-- Everything `onPacketReceived` can do. -/
theorem onPacketReceived_cases (parser : Parser) (table : PendingRequests)
    (packet : ReceivedPacket) :
    (∃ host entry response, ComesFrom (parser packet.bytes) host ∧
      table.lookup host.toString = some entry ∧
      responseAt parser packet entry.request.time = some response ∧ response.srcIp = host ∧
      onPacketReceived parser table packet = table.resolve host.toString (.ok response)) ∨
    (onPacketReceived parser table packet = table ∧
      ∀ host, ComesFrom (parser packet.bytes) host → table.lookup host.toString = none) := by
  by_cases hpending : ∃ host entry, ComesFrom (parser packet.bytes) host ∧
      table.lookup host.toString = some entry
  · obtain ⟨host, entry, hfrom, hentry⟩ := hpending
    obtain ⟨response, hresponse, hhost, heq⟩ := onPacketReceived_of_pending hfrom hentry
    exact .inl ⟨host, entry, response, hfrom, hentry, hresponse, hhost, heq⟩
  · have hnone : ∀ host, ComesFrom (parser packet.bytes) host →
        table.lookup host.toString = none := fun host hfrom =>
      Option.eq_none_iff_forall_ne_some.mpr fun entry hentry =>
        hpending ⟨host, entry, hfrom, hentry⟩
    exact .inr ⟨onPacketReceived_of_not_pending hnone, hnone⟩

theorem extends_onPacketReceived : table.Extends (onPacketReceived parser table packet) := by
  rcases onPacketReceived_cases parser table packet with
    ⟨host, entry, response, -, -, -, -, heq⟩ | ⟨heq, -⟩
  · exact heq ▸ PendingTable.extends_remove
  · exact heq.symm ▸ .refl table

theorem extends_handleTimeouts {now : TimePoint} : table.Extends (handleTimeouts table now) :=
  PendingTable.extends_sweep

theorem shrinks_onPacketReceived : table.Shrinks (onPacketReceived parser table packet) := by
  rcases onPacketReceived_cases parser table packet with
    ⟨host, entry, response, -, -, -, -, heq⟩ | ⟨heq, -⟩
  · exact heq ▸ PendingTable.shrinks_remove
  · exact heq.symm ▸ .refl table

theorem shrinks_handleTimeouts {now : TimePoint} : table.Shrinks (handleTimeouts table now) :=
  PendingTable.shrinks_sweep

/-- A request pending under another key outlives the answer. -/
theorem lookup_onPacketReceived_of_ne (hentry : table.lookup key = some entry)
    (hne : ∀ host, ComesFrom (parser packet.bytes) host → key ≠ host.toString) :
    (onPacketReceived parser table packet).lookup key = some entry := by
  rcases onPacketReceived_cases parser table packet with
    ⟨host, _, _, hfrom, -, -, -, heq⟩ | ⟨heq, -⟩
  · rw [heq, PendingTable.lookup_remove_of_ne (hne host hfrom).symm, hentry]
  · rw [heq, hentry]

/-- Whoever is answered by a packet is pending under its source. -/
theorem answered_of_success (hentry : table.lookup key = some entry)
    (hsuccess : (onPacketReceived parser table packet).future entry.promise =
      .value (.ok response)) :
    ∃ host, key = host.toString ∧ ComesFrom (parser packet.bytes) host ∧
      responseAt parser packet entry.request.time = some response := by
  have hunset := PendingTable.future_of_lookup hentry
  rcases onPacketReceived_cases parser table packet with
    ⟨host, found, read, hfrom, hfound, hread, -, heq⟩ | ⟨heq, -⟩
  · rw [heq] at hsuccess
    -- promises are distinct, so the answered entry is the one under the source
    by_cases hkey : entry.promise = found.promise
    · obtain rfl := table.distinct key host.toString entry found hentry hfound hkey
      obtain rfl := Option.some.inj (hentry.symm.trans hfound)
      rw [PendingTable.future_remove_self hentry] at hsuccess
      obtain rfl : read = response := by simpa using hsuccess
      exact ⟨host, rfl, hfrom, hread⟩
    · rw [PendingTable.future_remove_of_ne, hunset] at hsuccess
      · cases hsuccess
      · rintro found' hfound' hpromise
        obtain rfl := Option.some.inj (hfound.symm.trans hfound')
        exact hkey hpromise
  · rw [heq, hunset] at hsuccess
    cases hsuccess

/-- A request survives a sweep, or the sweep answers it with an error. -/
theorem lookup_or_error_of_handleTimeouts {now : TimePoint}
    (hentry : table.lookup key = some entry) :
    (handleTimeouts table now).lookup key = some entry ∨
      ∃ error, (handleTimeouts table now).future entry.promise = .value (.error error) := by
  refine PendingTable.sweep_induction (J := fun t : PendingRequests =>
    t.lookup key = some entry ∨ ∃ error, t.future entry.promise = .value (.error error))
    (.inl hentry) ?_ _
  -- the sweep resolves one entry at a time; ours is either that entry or untouched
  rintro t key' entry' (hkept | ⟨error, herror⟩) hentry' -
  · by_cases heq : key' = key
    · subst heq
      obtain rfl := Option.some.inj (hkept.symm.trans hentry')
      exact .inr ⟨_, PendingTable.future_remove_self hkept⟩
    · exact .inl ((PendingTable.lookup_remove_of_ne heq).trans hkept)
  · refine .inr ⟨error, ?_⟩
    rw [← herror]
    exact PendingTable.extends_remove.settled _ (by simp [herror])

private theorem mem_keys_of_lookup (hentry : table.lookup key = some entry) :
    key ∈ table.entries.keys := by
  rw [Std.ExtTreeMap.mem_keys, Std.ExtTreeMap.mem_iff_isSome_getElem?]
  exact Option.isSome_iff_exists.mpr ⟨entry, hentry⟩

/-- A sweep answers a request that is due, and takes it out. -/
theorem handleTimeouts_of_due {now : TimePoint} (hentry : table.lookup key = some entry)
    (hdue : isDue now entry.request = true) :
    (handleTimeouts table now).lookup key = none ∧
      (handleTimeouts table now).future entry.promise = .value (timeoutError entry.request) :=
  ⟨PendingTable.lookup_sweep_of_due hentry hdue (mem_keys_of_lookup hentry),
    PendingTable.future_sweep_of_due hentry hdue (mem_keys_of_lookup hentry)⟩

/-- Registering a request destroys the promise of the host's earlier one. -/
theorem future_registerRequest_eq_broken_iff {sent : TimePoint} :
    (registerRequest table host sent).future p = .broken ↔ table.future p = .broken ∨
      ∃ entry, table.lookup host.toString = some entry ∧ entry.promise = p :=
  PendingTable.future_assign_eq_broken_iff

/-- A received packet destroys no promise. -/
theorem future_onPacketReceived_eq_broken_iff :
    (onPacketReceived parser table packet).future p = .broken ↔ table.future p = .broken := by
  rcases onPacketReceived_cases parser table packet with
    ⟨host, entry, response, -, -, -, -, heq⟩ | ⟨heq, -⟩
  · rw [heq, PendingTable.future_resolve_eq_broken_iff]
  · rw [heq]

/-- Neither does a sweep. -/
theorem future_handleTimeouts_eq_broken_iff {now : TimePoint} :
    (handleTimeouts table now).future p = .broken ↔ table.future p = .broken :=
  PendingTable.future_sweep_eq_broken_iff

/-! ## Which packets answer which requests -/

/-- What `onPacketReceived` makes of a packet: it answers the request of the
host the packet comes from, takes that request out, and does nothing else. -/
structure AnswersBySource (parser : Parser) (table : PendingRequests) (packet : ReceivedPacket) :
    Prop where
  /-- A pending request succeeds exactly when the packet comes from its host. -/
  answered_iff : ∀ host entry, table.lookup host.toString = some entry →
    ((∃ response, (onPacketReceived parser table packet).future entry.promise =
      .value (.ok response)) ↔ ComesFrom (parser packet.bytes) host)
  /-- The answer carries the addresses and the time to live in the layers of the packet, and
  the time from the request to the arrival of the packet. -/
  response_eq : ∀ host entry, table.lookup host.toString = some entry →
    ComesFrom (parser packet.bytes) host →
    ∃ ethLayer ipLayer, (parser packet.bytes).ethLayer = some ethLayer ∧
      (parser packet.bytes).ipv4Layer = some ipLayer ∧
      (onPacketReceived parser table packet).future entry.promise = .value (.ok {
        srcIp := ipLayer.srcIpAddress
        srcMac := ethLayer.sourceMac
        dstIp := ipLayer.dstIpAddress
        dstMac := ethLayer.destMac
        ttl := ipLayer.timeToLive
        responseTime := elapsedMilliseconds entry.request.time packet.arrival })
  /-- The answered request leaves the table. -/
  removed : ∀ host, ComesFrom (parser packet.bytes) host →
    (onPacketReceived parser table packet).lookup host.toString = none
  /-- Every other request stays, with its future. -/
  kept : ∀ key entry, table.lookup key = some entry →
    (∀ host, ComesFrom (parser packet.bytes) host → key ≠ host.toString) →
    (onPacketReceived parser table packet).lookup key = some entry ∧
      (onPacketReceived parser table packet).future entry.promise = .unset
  /-- A packet from no pending host changes nothing. -/
  unchanged : (∀ host, ComesFrom (parser packet.bytes) host →
    table.lookup host.toString = none) → onPacketReceived parser table packet = table

/-- **A packet answers the pending request of the host it comes from, and only
that one, whatever it carries above its IPv4 layer.** -/
theorem onPacketReceived_answersBySource (parser : Parser) (table : PendingRequests)
    (packet : ReceivedPacket) : AnswersBySource parser table packet where
  answered_iff host entry hentry := by
    constructor
    · rintro ⟨response, hresponse⟩
      by_contra hnot
      -- a packet from elsewhere leaves the entry, and its future, alone
      have hne : ∀ host', ComesFrom (parser packet.bytes) host' →
          host.toString ≠ host'.toString := fun host' hfrom htext =>
        hnot (IPv4Address.toString_injective htext ▸ hfrom)
      have hkept := lookup_onPacketReceived_of_ne hentry hne
      rw [PendingTable.future_of_lookup hkept] at hresponse
      cases hresponse
    · intro hfrom
      obtain ⟨response, -, -, heq⟩ := onPacketReceived_of_pending hfrom hentry
      exact ⟨response, by rw [heq, PendingTable.future_remove_self hentry]⟩
  response_eq host entry hentry hfrom := by
    obtain ⟨response, hresponse, -, heq⟩ := onPacketReceived_of_pending hfrom hentry
    obtain ⟨ethLayer, ipLayer, heth, hip, rfl⟩ := responseAt_eq_some_iff.mp hresponse
    exact ⟨ethLayer, ipLayer, heth, hip, by rw [heq, PendingTable.future_remove_self hentry]⟩
  removed host hfrom := by
    cases hlookup : table.lookup host.toString with
    | none =>
      rw [onPacketReceived_of_not_pending, hlookup]
      exact fun host' hfrom' => comesFrom_unique hfrom hfrom' ▸ hlookup
    | some entry =>
      obtain ⟨response, -, -, heq⟩ := onPacketReceived_of_pending hfrom hlookup
      rw [heq, PendingTable.lookup_remove_self]
  kept key entry hentry hne := by
    have hkept := lookup_onPacketReceived_of_ne hentry hne
    exact ⟨hkept, PendingTable.future_of_lookup hkept⟩
  unchanged := onPacketReceived_of_not_pending

/-- The packet is an ICMP echo reply from `host` with the identifier and the
sequence number of `request`. -/
def IsReplyTo (request : Packet) (host : IPv4Address) (packet : Packet) : Prop :=
  ComesFrom packet host ∧ ∃ sent reply, request.icmpLayer = some sent ∧
    packet.icmpLayer = some reply ∧ reply.type = echoReplyType ∧ reply.id = sent.id ∧
    reply.sequence = sent.sequence

/-- Only the reply to its own echo request answers a ping, and every other
packet from its host leaves the table alone. -/
def AnswersOnlyReplies (parser : Parser) : Prop :=
  ∀ (networkInterface : NetworkInterface) (mac : MacAddress) (threadHash timestamp : UInt64)
    (host : IPv4Address) (table : PendingRequests) (entry : Entry Request)
    (packet : ReceivedPacket), table.lookup host.toString = some entry →
    let request := echoRequest networkInterface host mac threadHash timestamp
    ((∃ response, (onPacketReceived parser table packet).future entry.promise =
      .value (.ok response)) → IsReplyTo request host (parser packet.bytes)) ∧
    (ComesFrom (parser packet.bytes) host → ¬ IsReplyTo request host (parser packet.bytes) →
      onPacketReceived parser table packet = table)

/-- An empty UDP datagram from 10.0.0.7 to 10.0.0.1. -/
def datagram : ReceivedPacket where
  arrival := 3000000
  bytes := [
    0x02, 0, 0, 0, 0, 0x01, 0x02, 0, 0, 0, 0, 0x07, 0x08, 0x00,
    0x45, 0, 0, 28, 0, 1, 0, 0, 64, 17, 0, 0, 10, 0, 0, 7, 10, 0, 0, 1,
    0, 53, 0, 53, 0, 8, 0, 0]
  bounded := by decide

/-- A datagram that is no ICMP packet at all answers a ping to its sender. -/
theorem not_answersOnlyReplies_datagram : ¬ AnswersOnlyReplies Packet.parse := by
  intro onlyReplies
  let host := IPv4Address.ofOctets 10 0 0 7
  let table : PendingRequests := registerRequest .empty host 0
  have hfrom : ComesFrom (Packet.parse datagram.bytes) host := by decide
  have hentry : table.lookup host.toString = some ⟨{ dstIp := host, time := 0 }, 0⟩ :=
    PendingTable.lookup_assign_self
  obtain ⟨response, -, -, heq⟩ := onPacketReceived_of_pending hfrom hentry
  have hsuccess : (onPacketReceived Packet.parse table datagram).future 0 =
      .value (.ok response) := by
    rw [heq, PendingTable.future_remove_self hentry]
  obtain ⟨-, _, reply, -, hreply, -⟩ := (onlyReplies ⟨.ofOctets 10 0 0 1, .broadcast⟩ .broadcast
    0 0 host table _ datagram hentry).1 ⟨response, hsuccess⟩
  have hnone : (Packet.parse datagram.bytes).icmpLayer = none := by decide
  rw [hnone] at hreply
  cases hreply

end IcmpScanner

end NetDiscovery.Net
