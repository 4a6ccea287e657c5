/-
# The socket listener

The listener keeps one receive outstanding. When it completes, the handler moves
the bytes of the datagram from the stream buffer into a packet, queues the packet
and starts the next receive. After an error it only starts the next receive.
`nextReceivedPacket` takes the oldest packet off the queue.

The stream buffer is asio's; all that is known of it is its contract. The queue of
packets refines a bounded queue, and no byte gets from one datagram into another.
-/

import NetDiscovery.Net.ReceivingSocket
import NetDiscovery.Semantics.BoundedQueue

namespace NetDiscovery.Net

open NetDiscovery.Semantics

/-- What the listener uses of `boost::asio::streambuf`. -/
structure StreamBuf (B : Type*) where
  empty : B
  /-- the bytes that can be read -/
  data : B → List UInt8
  prepare : B → ℕ → B
  /-- a receive stores its bytes from the start of the prepared area -/
  store : B → List UInt8 → B
  commit : B → ℕ → B
  consume : B → ℕ → B
  /-- the bytes that `std::istream::read` gets, and the buffer after that -/
  read : B → ℕ → List UInt8 × B

/-- The contract of a stream buffer, as far as the listener relies on it. -/
structure StreamBuf.Lawful {B : Type*} (buf : StreamBuf B) : Prop where
  data_commit : ∀ b n (bytes : List UInt8), bytes.length ≤ n →
    buf.data (buf.commit (buf.store (buf.prepare b n) bytes) bytes.length) = buf.data b ++ bytes
  data_consume : ∀ b n, buf.data (buf.consume b n) = (buf.data b).drop n
  read_bytes : ∀ b n, (buf.read b n).1 = (buf.data b).take n

/-- The bytes that a receive has stored; they fit in the prepared area. -/
structure Datagram where
  bytes : List UInt8
  bounded : bytes.length ≤ maxBufferSize

/-- The packet that is made of a datagram. -/
def Datagram.packet (datagram : Datagram) (arrival : TimePoint) : ReceivedPacket where
  arrival := arrival
  bytes := datagram.bytes
  bounded := datagram.bounded

/-- `v2::BoostSocketListener`, with the number of receives outstanding. -/
structure SocketListener (B : Type*) where
  asioBuffer : B
  packetBuffer : PacketBuffer
  receives : ℕ

namespace SocketListener

variable {B : Type*} (buf : StreamBuf B)

/-- `startReceive`. -/
def startReceive (s : SocketListener B) : SocketListener B :=
  { s with
    asioBuffer := buf.prepare (buf.consume s.asioBuffer (buf.data s.asioBuffer).length)
      maxBufferSize
    receives := s.receives + 1 }

/-- A listener that has been created and started. -/
def create : SocketListener B :=
  startReceive buf { asioBuffer := buf.empty, packetBuffer := .empty, receives := 0 }

/-- `ReceivedPacket(length)`, into which bytes are read: the others stay zero. -/
def readPacket (now : TimePoint) (length : ℕ) (hlength : length ≤ maxBufferSize)
    (read : List UInt8) : ReceivedPacket where
  arrival := now
  bytes := (read ++ List.replicate (length - read.length) 0).take length
  bounded := Nat.le_trans (List.length_take_le _ _) hlength

/-- `handleReceive`. -/
def handleReceive (s : SocketListener B) (ec : Bool) (length : ℕ)
    (hlength : length ≤ maxBufferSize) (now : TimePoint) : SocketListener B :=
  -- what an unfinished receive has stored is never committed
  if ec then startReceive buf s
  else
    let (read, asioBuffer) := buf.read (buf.commit s.asioBuffer length) length
    startReceive buf { s with
      asioBuffer := asioBuffer
      packetBuffer := s.packetBuffer.push (readPacket now length hlength read) }

/-- `nextReceivedPacket`. -/
def nextReceivedPacket (s : SocketListener B) : Option ReceivedPacket × SocketListener B :=
  match s.packetBuffer.pop with
  | some (packet, rest) => (some packet, { s with packetBuffer := rest })
  | none => (none, s)

/-- A receive completes, with an error or without, and with whatever bytes it has
stored by then; or a client asks for a packet. -/
inductive Label
  | complete (ec : Bool) (datagram : Datagram) (now : TimePoint)
  | nextReceivedPacket

/-- One completion or call. -/
def step (s : SocketListener B) : Label → Option (SocketListener B)
  | .complete ec datagram now =>
    if s.receives = 0 then none
    else some (handleReceive buf { s with
      asioBuffer := buf.store s.asioBuffer datagram.bytes
      receives := s.receives - 1 } ec datagram.bytes.length datagram.bounded now)
  | .nextReceivedPacket => some s.nextReceivedPacket.2

/-! ## What each step does -/

variable {buf} {s t : SocketListener B} {ec : Bool} {datagram : Datagram} {now : TimePoint}
  {a : Label} {trace : List (SocketListener B × Label)}

/-- One receive is outstanding, and no bytes wait to be read. -/
structure Armed (buf : StreamBuf B) (s : SocketListener B) : Prop where
  one_receive : s.receives = 1
  prepared : ∃ b, s.asioBuffer = buf.prepare b maxBufferSize ∧ buf.data b = []

theorem armed_startReceive (lawful : buf.Lawful) (hnone : s.receives = 0) :
    Armed buf (startReceive buf s) where
  one_receive := by rw [startReceive, hnone]
  prepared := by
    refine ⟨_, rfl, ?_⟩
    rw [lawful.data_consume, List.drop_length]

theorem armed_create (lawful : buf.Lawful) : Armed buf (create buf) :=
  armed_startReceive lawful rfl

/-- All the bytes of a datagram are read, and no others. -/
theorem readPacket_eq (read : List UInt8) (hread : read = datagram.bytes) :
    readPacket now datagram.bytes.length datagram.bounded read = datagram.packet now := by
  subst hread
  simp [readPacket, Datagram.packet]

/-- The spec of a completion. -/
theorem Armed.complete (armed : Armed buf s) (lawful : buf.Lawful)
    (hstep : step buf s (.complete ec datagram now) = some t) :
    Armed buf t ∧ t.packetBuffer =
      if ec then s.packetBuffer else s.packetBuffer.push (datagram.packet now) := by
  simp only [step] at hstep
  split_ifs at hstep
  obtain rfl := Option.some.inj hstep
  have hnone : s.receives - 1 = 0 := by rw [armed.one_receive]
  cases ec with
  | true => exact ⟨armed_startReceive lawful hnone, rfl⟩
  | false =>
    refine ⟨armed_startReceive lawful hnone, ?_⟩
    obtain ⟨b, hprepared, hempty⟩ := armed.prepared
    -- the prepared buffer held no bytes, so those that are committed are all there are
    refine congrArg s.packetBuffer.push (readPacket_eq _ ?_)
    rw [lawful.read_bytes, hprepared, lawful.data_commit b _ _ datagram.bounded, hempty,
      List.nil_append, List.take_length]

theorem packets_nextReceivedPacket (s : SocketListener B) :
    s.nextReceivedPacket.1 = s.packetBuffer.packets.head? ∧
      s.nextReceivedPacket.2.packetBuffer.packets = s.packetBuffer.packets.tail := by
  obtain ⟨b, ⟨packets, bounded⟩, n⟩ := s
  cases packets <;> exact ⟨rfl, rfl⟩

theorem Armed.nextReceivedPacket (armed : Armed buf s) : Armed buf s.nextReceivedPacket.2 := by
  unfold SocketListener.nextReceivedPacket
  split
  · exact ⟨armed.one_receive, armed.prepared⟩
  · exact armed

theorem Armed.step (armed : Armed buf s) (lawful : buf.Lawful) (hstep : step buf s a = some t) :
    Armed buf t := by
  cases a with
  | complete ec datagram now => exact (armed.complete lawful hstep).1
  | nextReceivedPacket =>
    obtain rfl := Option.some.inj hstep
    exact armed.nextReceivedPacket

/-! ## The queue of packets -/

/-- What a step does to the queue of packets. -/
def queueLabel? : SocketListener B × Label → Option (BoundedQueue.Label ReceivedPacket)
  | (_, .complete true ..) => none
  | (_, .complete false datagram now) => some (.offer (datagram.packet now))
  | (_, .nextReceivedPacket) => some .take

/-- The packet that a call returns. -/
def returned? : SocketListener B × Label → Option ReceivedPacket
  | (s, .nextReceivedPacket) => s.nextReceivedPacket.1
  | _ => none

/-- The packet of a datagram that is received while fewer than `maxBufferSize` packets
are queued. -/
def received? : SocketListener B × Label → Option ReceivedPacket
  | (s, .complete false datagram now) =>
    if s.packetBuffer.packets.length < maxBufferSize then some (datagram.packet now) else none
  | _ => none

/-- The run as the queue of packets sees it. -/
def queueTrace : List (SocketListener B × Label) →
    List (List ReceivedPacket × BoundedQueue.Label ReceivedPacket) :=
  project (fun s => s.packetBuffer.packets) queueLabel?

theorem filterMap_taken_queueTrace (trace : List (SocketListener B × Label)) :
    (queueTrace trace).filterMap BoundedQueue.taken? = trace.filterMap returned? := by
  rw [queueTrace, project, List.filterMap_filterMap]
  refine List.filterMap_congr fun x _ => ?_
  rcases x with ⟨s, ⟨_ | _, datagram, now⟩ | _⟩
  · rfl
  · rfl
  · exact (packets_nextReceivedPacket s).1.symm

theorem filterMap_accepted_queueTrace (trace : List (SocketListener B × Label)) :
    (queueTrace trace).filterMap (BoundedQueue.accepted? maxBufferSize) =
      trace.filterMap received? := by
  rw [queueTrace, project, List.filterMap_filterMap]
  refine List.filterMap_congr fun x _ => ?_
  rcases x with ⟨s, ⟨_ | _, datagram, now⟩ | _⟩ <;> rfl

/-- Each step is one of the queue, or leaves it alone. -/
theorem Armed.refines (armed : Armed buf s) (lawful : buf.Lawful)
    (hstep : SocketListener.step buf s a = some t) :
    StepOrStay (BoundedQueue.step maxBufferSize) s.packetBuffer.packets (queueLabel? (s, a))
      t.packetBuffer.packets := by
  cases a with
  | complete ec datagram now =>
    obtain ⟨-, hbuffer⟩ := armed.complete lawful hstep
    cases ec with
    | true => exact congrArg PacketBuffer.packets hbuffer
    | false =>
      rw [hbuffer]
      exact congrArg some (PacketBuffer.packets_push _ _).symm
  | nextReceivedPacket =>
    obtain rfl := Option.some.inj hstep
    exact congrArg some (packets_nextReceivedPacket s).2.symm

/-- A run in which the listener is a bounded first-in first-out queue: it keeps one
receive outstanding, does to its packets what a queue of `maxBufferSize` does, and
what it has returned, followed by what is queued, is what it has received while
there was room. -/
structure BehavesAsFifo (trace : List (SocketListener B × Label)) (final : SocketListener B) :
    Prop where
  one_receive : ∀ v ∈ visited trace final, v.receives = 1
  refines : Run (BoundedQueue.step maxBufferSize) [] (queueTrace trace)
    final.packetBuffer.packets
  in_order : trace.filterMap returned? ++ final.packetBuffer.packets = trace.filterMap received?

/-- Over any completions and calls, a listener with a lawful stream buffer behaves as
a bounded first-in first-out queue. -/
theorem behavesAsFifo_of_run (lawful : buf.Lawful) (run : Run (step buf) (create buf) trace t) :
    BehavesAsFifo trace t := by
  have hpreserved : ∀ v a w, Armed buf v → step buf v a = some w → Armed buf w :=
    fun _ _ _ armed hstep => armed.step lawful hstep
  have hrefines : Run (BoundedQueue.step maxBufferSize) [] (queueTrace trace)
      t.packetBuffer.packets :=
    run.refine (f := fun s : SocketListener B => s.packetBuffer.packets)
      (g := queueLabel?) (armed_create lawful)
      hpreserved fun _ _ _ armed hstep => armed.refines lawful hstep
  refine ⟨fun v hv => ?_, hrefines, ?_⟩
  · exact (run.forall_visited_of_guard (C := fun _ _ => True) (armed_create lawful)
      (fun v a w armed _ => hpreserved v a w armed) (fun _ _ => trivial) v hv).one_receive
  · rw [← filterMap_taken_queueTrace, ← filterMap_accepted_queueTrace]
    exact BoundedQueue.taken_append_of_run hrefines

/-! ## A stream buffer -/

/-- The bytes to be read, and the prepared area. -/
def listBuf : StreamBuf (List UInt8 × List UInt8) where
  empty := ([], [])
  data b := b.1
  prepare b n := (b.1, List.replicate n 0)
  store b bytes := (b.1, bytes ++ b.2.drop bytes.length)
  commit b n := (b.1 ++ b.2.take n, b.2.drop n)
  consume b n := (b.1.drop n, b.2)
  read b n := (b.1.take n, (b.1.drop n, b.2))

theorem lawful_listBuf : listBuf.Lawful where
  data_commit b n bytes _ := by simp [listBuf]
  data_consume _ _ := rfl
  read_bytes _ _ := rfl

/-- A datagram, an error that leaves bytes in the area, and another datagram. -/
theorem behavesAsFifo_of_error_between :
    ∃ final, exec (step listBuf) (create listBuf)
        [.complete false ⟨[1, 2], by decide⟩ 5, .complete true ⟨[9, 9, 9], by decide⟩ 6,
          .complete false ⟨[3], by decide⟩ 7, .nextReceivedPacket, .nextReceivedPacket] =
        some final ∧
      BehavesAsFifo (record (step listBuf) (create listBuf)
        [.complete false ⟨[1, 2], by decide⟩ 5, .complete true ⟨[9, 9, 9], by decide⟩ 6,
          .complete false ⟨[3], by decide⟩ 7, .nextReceivedPacket, .nextReceivedPacket]) final :=
  ⟨_, rfl, behavesAsFifo_of_run lawful_listBuf (.of_exec rfl)⟩

end SocketListener

end NetDiscovery.Net
