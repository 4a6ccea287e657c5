/-
# The scanner and its threads

Three kinds of threads share a scanner. Callers send an echo request and then
register it; a blocking ping goes on to wait, and when the wait times out it
looks its request up, erases it and returns an error. The socket's thread stamps
packets and queues them. The task runner's thread repeats one task: while
requests are pending it takes a packet and handles it, or sweeps the timed out
requests when there is no packet.

Each label is one step of one thread, so a run is an interleaving of the
threads' steps. The clock may be set to any value. Packets of any content arrive
at any time.
-/

import NetDiscovery.Net.Scanner.IcmpScanner
import NetDiscovery.Semantics.Run

namespace NetDiscovery.Net.IcmpScanner

open NetDiscovery.Semantics

/-- A call of `pingAsync`, by itself or inside the blocking `ping`. -/
structure Ping where
  host : IPv4Address
  blocking : Bool
  /-- `sentTime`, read before the echo request is sent -/
  sentTime : TimePoint

/-- How far a blocking ping is, once `pingAsync` has returned its future. -/
inductive WaitPhase
  | waiting
  /-- `wait_for` returned `timeout` -/
  | timedOut
  /-- the request was looked up with `operator[]` -/
  | referenced
  /-- the request was erased -/
  | erased
  /-- `ping` returned, or threw if there is no outcome -/
  | returned (outcome : Option Outcome)

/-- How far the task is within one call of `PingResolver::run`. -/
inductive TaskPhase
  | idle
  /-- requests are pending, and the queue will be read next -/
  | reading
  /-- a packet was taken off the queue -/
  | handling (packet : ReceivedPacket)
  /-- the queue was empty -/
  | sweeping

/-- The state that the threads share, and where each of them is. -/
structure System where
  clock : TimePoint
  /-- `m_running` -/
  running : Bool
  /-- tasks posted by `startScanning` that have not ended -/
  tasks : ℕ
  /-- `m_pendingRequests` -/
  table : PendingRequests
  /-- the calls whose echo request was sent -/
  pings : ℕ → Option Ping
  /-- the promise whose future a call returned, once it is registered -/
  futures : ℕ → Option ℕ
  phases : ℕ → WaitPhase
  /-- a packet that was stamped but not yet queued -/
  receiving : Option ReceivedPacket
  /-- `m_packetBuffer` -/
  buffer : PacketBuffer
  task : TaskPhase

/-- The steps of the threads. A number names a call. -/
inductive Label
  | setClock (now : TimePoint)
  | start
  | stop
  | send (c : ℕ) (host : IPv4Address) (blocking : Bool)
  | register (c : ℕ)
  | expire (c : ℕ)
  | reference (c : ℕ)
  | erase (c : ℕ)
  /-- `ping` returns an error whose address is read through a reference into
  the erased entry, so it may be any address -/
  | giveUp (c : ℕ) (read : IPv4Address)
  | get (c : ℕ)
  | receive (bytes : List UInt8)
  | push
  | poll
  | pop
  | handle
  | sweep

/-- The steps that leave the table and the calls alone. -/
def Label.quiet : Label → Bool
  | .send _ _ _ | .register _ | .reference _ | .erase _ | .handle | .sweep => false
  | _ => true

/-- The steps of callers. -/
def Label.ofCaller : Label → Bool
  | .setClock _ | .receive _ | .push | .poll | .pop | .handle | .sweep => false
  | _ => true

namespace System

/-- A new scanner, at any time. -/
def initial (now : TimePoint) : System where
  clock := now
  running := false
  tasks := 0
  table := .empty
  pings _ := none
  futures _ := none
  phases _ := .waiting
  receiving := none
  buffer := .empty
  task := .idle

variable (s : System)

/-- What the future that call `c` returned holds. -/
def futureState (c : ℕ) : SharedState Outcome :=
  match s.futures c with
  | some p => s.table.future p
  | none => .unset

/-- The first half of `pingAsync`: read the clock and send the echo request. -/
def send (c : ℕ) (host : IPv4Address) (blocking : Bool) : Option System :=
  match s.pings c with
  | some _ => none
  | none => some { s with
      pings := Function.update s.pings c (some ⟨host, blocking, s.clock⟩) }

/-- The second half of `pingAsync`: register the request and return its future. The
assignment and the second `operator[]`, which gets the future, are one step. -/
def register (c : ℕ) : Option System :=
  match s.pings c, s.futures c with
  | some ping, none => some { s with
      table := registerRequest s.table ping.host ping.sentTime
      futures := Function.update s.futures c (some s.table.next) }
  | _, _ => none

/-- The next phase of a blocking ping, with what it does to the table. -/
def wait (c : ℕ) (phase : WaitPhase) (table : PendingRequests) : System :=
  { s with table := table, phases := Function.update s.phases c phase }

/-- `wait_for` times out while the future is not ready. -/
def expire (c : ℕ) : Option System :=
  match s.pings c, s.futures c, s.phases c with
  | some ping, some p, .waiting =>
    match ping.blocking, s.table.future p with
    | true, .unset => some (s.wait c .timedOut s.table)
    | _, _ => none
  | _, _, _ => none

/-- `m_pendingRequests[host.toString()]` in `ping`. -/
def reference (c : ℕ) : Option System :=
  match s.pings c, s.phases c with
  | some ping, .timedOut =>
    some (s.wait c .referenced (s.table.touch ping.host.toString .default))
  | _, _ => none

/-- `m_pendingRequests.erase(host.toString())` in `ping`. -/
def erase (c : ℕ) : Option System :=
  match s.pings c, s.phases c with
  | some ping, .referenced => some (s.wait c .erased (s.table.discard ping.host.toString))
  | _, _ => none

/-- `ping` returns the error. -/
def giveUp (c : ℕ) (read : IPv4Address) : Option System :=
  match s.phases c with
  | .erased =>
    some (s.wait c (.returned (some (.error { dstIp := read, error := .timedOut }))) s.table)
  | _ => none

/-- `fut.get()` in `ping`, after `wait_for` found the future ready. -/
def get (c : ℕ) : Option System :=
  match s.pings c, s.phases c with
  | some ping, .waiting =>
    match ping.blocking, s.futureState c with
    | true, .value outcome => some (s.wait c (.returned (some outcome)) s.table)
    | true, .broken => some (s.wait c (.returned none) s.table)
    | _, _ => none
  | _, _ => none

/-- `handleReceive` makes a packet stamped with the clock. -/
def receive (bytes : List UInt8) : Option System :=
  match s.receiving with
  | some _ => none
  | none =>
    if hbound : bytes.length ≤ maxBufferSize then
      some { s with receiving := some ⟨s.clock, bytes, hbound⟩ }
    else none

/-- `handleReceive` queues the packet and starts to receive again. -/
def push : Option System :=
  match s.receiving with
  | some packet => some { s with receiving := none, buffer := s.buffer.push packet }
  | none => none

/-- `PingResolver::run` up to the test for pending requests. -/
def poll : Option System :=
  match s.task, s.tasks with
  | .idle, tasks + 1 =>
    if s.running then
      -- nothing pending: the task is posted again and the queue keeps filling
      if hasPendingRequests s.table then some { s with task := .reading } else some s
    else some { s with tasks := tasks }
  | _, _ => none

/-- `nextReceivedPacket` in `PingResolver::run`. -/
def pop : Option System :=
  match s.task with
  | .reading =>
    match s.buffer.pop with
    | some (packet, rest) => some { s with buffer := rest, task := .handling packet }
    | none => some { s with task := .sweeping }
  | _ => none

/-- `onPacketReceived` in `PingResolver::run`. -/
def handle (parser : Parser) : Option System :=
  match s.task with
  | .handling packet => some { s with
      table := onPacketReceived parser s.table packet
      task := .idle }
  | _ => none

/-- `handleTimeouts` in `PingResolver::run`. -/
def sweep : Option System :=
  match s.task with
  | .sweeping => some { s with table := handleTimeouts s.table s.clock, task := .idle }
  | _ => none

/-- One step of one thread, if it can take that step. -/
def step (parser : Parser) (s : System) : Label → Option System
  | .setClock now => some { s with clock := now }
  | .start => some { s with running := true, tasks := s.tasks + 1 }
  | .stop => some { s with running := false }
  | .send c host blocking => s.send c host blocking
  | .register c => s.register c
  | .expire c => s.expire c
  | .reference c => s.reference c
  | .erase c => s.erase c
  | .giveUp c read => s.giveUp c read
  | .get c => s.get c
  | .receive bytes => s.receive bytes
  | .push => s.push
  | .poll => s.poll
  | .pop => s.pop
  | .handle => s.handle parser
  | .sweep => s.sweep

/-! ## What each step does -/

variable {s} {t : System} {parser : Parser} {c p : ℕ} {host : IPv4Address} {blocking : Bool}
  {bytes : List UInt8}

theorem send_eq_some (hstep : s.send c host blocking = some t) :
    s.pings c = none ∧ t = { s with
      pings := Function.update s.pings c (some ⟨host, blocking, s.clock⟩) } := by
  unfold send at hstep
  split at hstep
  · cases hstep
  · exact ⟨‹_›, (Option.some.inj hstep).symm⟩

theorem register_eq_some (hstep : s.register c = some t) :
    ∃ ping, s.pings c = some ping ∧ s.futures c = none ∧ t = { s with
      table := registerRequest s.table ping.host ping.sentTime
      futures := Function.update s.futures c (some s.table.next) } := by
  unfold register at hstep
  split at hstep
  · exact ⟨_, ‹_›, ‹_›, (Option.some.inj hstep).symm⟩
  · cases hstep

theorem reference_eq_some (hstep : s.reference c = some t) :
    ∃ ping, s.pings c = some ping ∧
      t = s.wait c .referenced (s.table.touch ping.host.toString .default) := by
  unfold reference at hstep
  split at hstep
  · exact ⟨_, ‹_›, (Option.some.inj hstep).symm⟩
  · cases hstep

theorem erase_eq_some (hstep : s.erase c = some t) :
    ∃ ping, s.pings c = some ping ∧
      t = s.wait c .erased (s.table.discard ping.host.toString) := by
  unfold erase at hstep
  split at hstep
  · exact ⟨_, ‹_›, (Option.some.inj hstep).symm⟩
  · cases hstep

theorem receive_eq_some (hstep : s.receive bytes = some t) :
    s.receiving = none ∧ ∃ bounded,
      t = { s with receiving := some ⟨s.clock, bytes, bounded⟩ } := by
  unfold receive at hstep
  split at hstep
  · cases hstep
  · split_ifs at hstep with hbound
    exact ⟨‹_›, hbound, (Option.some.inj hstep).symm⟩

theorem push_eq_some (hstep : s.push = some t) : ∃ packet, s.receiving = some packet ∧
    t = { s with receiving := none, buffer := s.buffer.push packet } := by
  unfold push at hstep
  split at hstep
  · exact ⟨_, ‹_›, (Option.some.inj hstep).symm⟩
  · cases hstep

theorem pop_eq_some (hstep : s.pop = some t) :
    s.task = .reading ∧
      ((∃ packet rest, s.buffer.pop = some (packet, rest) ∧
        t = { s with buffer := rest, task := .handling packet }) ∨
      t = { s with task := .sweeping }) := by
  unfold pop at hstep
  split at hstep
  · refine ⟨‹_›, ?_⟩
    split at hstep
    · exact .inl ⟨_, _, ‹_›, (Option.some.inj hstep).symm⟩
    · exact .inr (Option.some.inj hstep).symm
  · cases hstep

theorem handle_eq_some (hstep : s.handle parser = some t) :
    ∃ packet, s.task = .handling packet ∧ t = { s with
      table := onPacketReceived parser s.table packet
      task := .idle } := by
  unfold handle at hstep
  split at hstep
  · exact ⟨_, ‹_›, (Option.some.inj hstep).symm⟩
  · cases hstep

theorem sweep_eq_some (hstep : s.sweep = some t) :
    s.task = .sweeping ∧
      t = { s with table := handleTimeouts s.table s.clock, task := .idle } := by
  unfold sweep at hstep
  split at hstep
  · exact ⟨‹_›, (Option.some.inj hstep).symm⟩
  · cases hstep

theorem expire_eq_some (hstep : s.expire c = some t) : t = s.wait c .timedOut s.table := by
  unfold expire at hstep
  split at hstep
  · split at hstep
    · exact (Option.some.inj hstep).symm
    · cases hstep
  · cases hstep

theorem giveUp_eq_some {read : IPv4Address} (hstep : s.giveUp c read = some t) :
    ∃ phase, t = s.wait c phase s.table := by
  unfold giveUp at hstep
  split at hstep
  · exact ⟨_, (Option.some.inj hstep).symm⟩
  · cases hstep

theorem get_eq_some (hstep : s.get c = some t) : ∃ phase, t = s.wait c phase s.table := by
  unfold get at hstep
  split at hstep
  · split at hstep
    · exact ⟨_, (Option.some.inj hstep).symm⟩
    · exact ⟨_, (Option.some.inj hstep).symm⟩
    · cases hstep
  · cases hstep

theorem poll_eq_some (hstep : s.poll = some t) :
    s.task = .idle ∧ ∃ tasks task, (task = .idle ∨ task = .reading) ∧
      t = { s with tasks := tasks, task := task } := by
  unfold poll at hstep
  split at hstep
  · rename_i tasks hidle _
    refine ⟨hidle, ?_⟩
    split_ifs at hstep
    · exact ⟨s.tasks, .reading, .inr rfl, (Option.some.inj hstep).symm⟩
    · exact ⟨s.tasks, .idle, .inl rfl, by rw [← hidle]; exact (Option.some.inj hstep).symm⟩
    · exact ⟨tasks, .idle, .inl rfl, by rw [← hidle]; exact (Option.some.inj hstep).symm⟩
  · cases hstep

variable {a : Label}

/-- Quiet steps leave the table and the calls alone. -/
theorem frame_of_quiet (hquiet : a.quiet = true) (hstep : step parser s a = some t) :
    t.table = s.table ∧ t.pings = s.pings ∧ t.futures = s.futures := by
  cases a with
  | setClock | start | stop =>
    obtain rfl := Option.some.inj hstep
    exact ⟨rfl, rfl, rfl⟩
  | expire =>
    obtain rfl := expire_eq_some hstep
    exact ⟨rfl, rfl, rfl⟩
  | giveUp =>
    obtain ⟨_, rfl⟩ := giveUp_eq_some hstep
    exact ⟨rfl, rfl, rfl⟩
  | get =>
    obtain ⟨_, rfl⟩ := get_eq_some hstep
    exact ⟨rfl, rfl, rfl⟩
  | receive =>
    obtain ⟨-, _, rfl⟩ := receive_eq_some hstep
    exact ⟨rfl, rfl, rfl⟩
  | push =>
    obtain ⟨_, -, rfl⟩ := push_eq_some hstep
    exact ⟨rfl, rfl, rfl⟩
  | poll =>
    obtain ⟨-, _, _, -, rfl⟩ := poll_eq_some hstep
    exact ⟨rfl, rfl, rfl⟩
  | pop =>
    obtain ⟨-, ⟨_, _, -, rfl⟩ | rfl⟩ := pop_eq_some hstep
    · exact ⟨rfl, rfl, rfl⟩
    · exact ⟨rfl, rfl, rfl⟩
  | send | register | reference | erase | handle | sweep => cases hquiet

/-- The callers' steps leave the clock, the receive path and the task alone. -/
theorem frame_of_caller (hcaller : a.ofCaller = true) (hstep : step parser s a = some t) :
    t.clock = s.clock ∧ t.receiving = s.receiving ∧ t.buffer = s.buffer ∧ t.task = s.task := by
  cases a with
  | start | stop =>
    obtain rfl := Option.some.inj hstep
    exact ⟨rfl, rfl, rfl, rfl⟩
  | send =>
    obtain ⟨-, rfl⟩ := send_eq_some hstep
    exact ⟨rfl, rfl, rfl, rfl⟩
  | register =>
    obtain ⟨_, -, -, rfl⟩ := register_eq_some hstep
    exact ⟨rfl, rfl, rfl, rfl⟩
  | expire =>
    obtain rfl := expire_eq_some hstep
    exact ⟨rfl, rfl, rfl, rfl⟩
  | reference =>
    obtain ⟨_, -, rfl⟩ := reference_eq_some hstep
    exact ⟨rfl, rfl, rfl, rfl⟩
  | erase =>
    obtain ⟨_, -, rfl⟩ := erase_eq_some hstep
    exact ⟨rfl, rfl, rfl, rfl⟩
  | giveUp =>
    obtain ⟨_, rfl⟩ := giveUp_eq_some hstep
    exact ⟨rfl, rfl, rfl, rfl⟩
  | get =>
    obtain ⟨_, rfl⟩ := get_eq_some hstep
    exact ⟨rfl, rfl, rfl, rfl⟩
  | setClock | receive | push | poll | pop | handle | sweep => cases hcaller

/-- What a step does to the table. -/
inductive TableStep (parser : Parser) (s : System) : Label → PendingRequests → Prop
  | keep (a : Label) : TableStep parser s a s.table
  | register {c : ℕ} {ping : Ping} : s.pings c = some ping →
      TableStep parser s (.register c) (registerRequest s.table ping.host ping.sentTime)
  | reference {c : ℕ} {ping : Ping} : s.pings c = some ping →
      TableStep parser s (.reference c) (s.table.touch ping.host.toString .default)
  | erase {c : ℕ} {ping : Ping} : s.pings c = some ping →
      TableStep parser s (.erase c) (s.table.discard ping.host.toString)
  | handle {packet : ReceivedPacket} : s.task = .handling packet →
      TableStep parser s .handle (onPacketReceived parser s.table packet)
  | sweep : TableStep parser s .sweep (handleTimeouts s.table s.clock)

theorem tableStep_of_step (hstep : step parser s a = some t) : TableStep parser s a t.table := by
  cases a with
  | send =>
    obtain ⟨-, rfl⟩ := send_eq_some hstep
    exact .keep _
  | register =>
    obtain ⟨_, hping, -, rfl⟩ := register_eq_some hstep
    exact .register hping
  | reference =>
    obtain ⟨_, hping, rfl⟩ := reference_eq_some hstep
    exact .reference hping
  | erase =>
    obtain ⟨_, hping, rfl⟩ := erase_eq_some hstep
    exact .erase hping
  | handle =>
    obtain ⟨_, htask, rfl⟩ := handle_eq_some hstep
    exact .handle htask
  | sweep =>
    obtain ⟨-, rfl⟩ := sweep_eq_some hstep
    exact .sweep
  | setClock | start | stop | expire | giveUp | get | receive | push | poll | pop =>
    exact (frame_of_quiet rfl hstep).1 ▸ .keep _

/-- Only sending starts a call. -/
theorem pings_of_step (hstep : step parser s a = some t) :
    t.pings = s.pings ∨ ∃ c host blocking, a = .send c host blocking ∧ s.pings c = none ∧
      t.pings = Function.update s.pings c (some ⟨host, blocking, s.clock⟩) := by
  cases a with
  | send c host blocking =>
    obtain ⟨hnew, rfl⟩ := send_eq_some hstep
    exact .inr ⟨c, host, blocking, rfl, hnew, rfl⟩
  | register =>
    obtain ⟨_, -, -, rfl⟩ := register_eq_some hstep
    exact .inl rfl
  | reference =>
    obtain ⟨_, -, rfl⟩ := reference_eq_some hstep
    exact .inl rfl
  | erase =>
    obtain ⟨_, -, rfl⟩ := erase_eq_some hstep
    exact .inl rfl
  | handle =>
    obtain ⟨_, -, rfl⟩ := handle_eq_some hstep
    exact .inl rfl
  | sweep =>
    obtain ⟨-, rfl⟩ := sweep_eq_some hstep
    exact .inl rfl
  | setClock | start | stop | expire | giveUp | get | receive | push | poll | pop =>
    exact .inl (frame_of_quiet rfl hstep).2.1

/-- Only registering a call hands out a future. -/
theorem futures_of_step (hstep : step parser s a = some t) :
    t.futures = s.futures ∨ ∃ c ping, a = .register c ∧ s.pings c = some ping ∧
      s.futures c = none ∧ t.futures = Function.update s.futures c (some s.table.next) ∧
      t.table = registerRequest s.table ping.host ping.sentTime := by
  cases a with
  | register c =>
    obtain ⟨ping, hping, hnone, rfl⟩ := register_eq_some hstep
    exact .inr ⟨c, ping, rfl, hping, hnone, rfl, rfl⟩
  | send =>
    obtain ⟨-, rfl⟩ := send_eq_some hstep
    exact .inl rfl
  | reference =>
    obtain ⟨_, -, rfl⟩ := reference_eq_some hstep
    exact .inl rfl
  | erase =>
    obtain ⟨_, -, rfl⟩ := erase_eq_some hstep
    exact .inl rfl
  | handle =>
    obtain ⟨_, -, rfl⟩ := handle_eq_some hstep
    exact .inl rfl
  | sweep =>
    obtain ⟨-, rfl⟩ := sweep_eq_some hstep
    exact .inl rfl
  | setClock | start | stop | expire | giveUp | get | receive | push | poll | pop =>
    exact .inl (frame_of_quiet rfl hstep).2.2

/-- Only setting the clock changes it. -/
theorem clock_of_step (hstep : step parser s a = some t) :
    t.clock = s.clock ∨ a = .setClock t.clock := by
  cases a with
  | setClock =>
    obtain rfl := Option.some.inj hstep
    exact .inr rfl
  | start | stop | send | register | expire | reference | erase | giveUp | get =>
    exact .inl (frame_of_caller rfl hstep).1
  | receive =>
    obtain ⟨-, _, rfl⟩ := receive_eq_some hstep
    exact .inl rfl
  | push =>
    obtain ⟨_, -, rfl⟩ := push_eq_some hstep
    exact .inl rfl
  | poll =>
    obtain ⟨-, _, _, -, rfl⟩ := poll_eq_some hstep
    exact .inl rfl
  | pop =>
    obtain ⟨-, ⟨_, _, -, rfl⟩ | rfl⟩ := pop_eq_some hstep
    · exact .inl rfl
    · exact .inl rfl
  | handle =>
    obtain ⟨_, -, rfl⟩ := handle_eq_some hstep
    exact .inl rfl
  | sweep =>
    obtain ⟨-, rfl⟩ := sweep_eq_some hstep
    exact .inl rfl

/-- The packet was stamped and has not been handled yet: it waits to be queued,
is queued, or was taken off the queue. -/
def InFlight (s : System) (packet : ReceivedPacket) : Prop :=
  s.receiving = some packet ∨ packet ∈ s.buffer.packets ∨ s.task = .handling packet

/-- A packet gets into flight by being received, and is stamped then. -/
theorem inFlight_of_step {packet : ReceivedPacket} (hstep : step parser s a = some t)
    (hflight : t.InFlight packet) :
    s.InFlight packet ∨
      ∃ bytes bounded, a = .receive bytes ∧ packet = ⟨s.clock, bytes, bounded⟩ := by
  cases a with
  | setClock =>
    obtain rfl := Option.some.inj hstep
    exact .inl hflight
  | start | stop | send | register | expire | reference | erase | giveUp | get =>
    obtain ⟨-, hreceiving, hbuffer, htask⟩ := frame_of_caller rfl hstep
    unfold InFlight at hflight
    rw [hreceiving, hbuffer, htask] at hflight
    exact .inl hflight
  | receive bytes =>
    obtain ⟨-, bounded, rfl⟩ := receive_eq_some hstep
    rcases hflight with hreceiving | hrest
    · exact .inr ⟨bytes, bounded, rfl, (Option.some.inj hreceiving).symm⟩
    · exact .inl (.inr hrest)
  | push =>
    obtain ⟨stamped, hreceiving, rfl⟩ := push_eq_some hstep
    rcases hflight with hnone | hqueued | htask
    · cases hnone
    -- the buffer may drop the packet, and has no other new one
    · rcases PacketBuffer.mem_of_mem_push hqueued with hmem | rfl
      · exact .inl (.inr (.inl hmem))
      · exact .inl (.inl hreceiving)
    · exact .inl (.inr (.inr htask))
  | poll =>
    obtain ⟨-, tasks, task, hnew, rfl⟩ := poll_eq_some hstep
    rcases hflight with hreceiving | hqueued | htask
    · exact .inl (.inl hreceiving)
    · exact .inl (.inr (.inl hqueued))
    · rcases hnew with rfl | rfl <;> cases htask
  | pop =>
    obtain ⟨-, ⟨popped, rest, hpop, rfl⟩ | rfl⟩ := pop_eq_some hstep
    -- what is popped was in the buffer
    · have hpackets := PacketBuffer.packets_of_pop hpop
      rcases hflight with hreceiving | hqueued | htask
      · exact .inl (.inl hreceiving)
      · exact .inl (.inr (.inl (hpackets ▸ List.mem_cons_of_mem _ hqueued)))
      · obtain rfl := TaskPhase.handling.inj htask
        exact .inl (.inr (.inl (hpackets ▸ List.mem_cons_self)))
    · rcases hflight with hreceiving | hqueued | htask
      · exact .inl (.inl hreceiving)
      · exact .inl (.inr (.inl hqueued))
      · cases htask
  | handle =>
    obtain ⟨_, -, rfl⟩ := handle_eq_some hstep
    rcases hflight with hreceiving | hqueued | htask
    · exact .inl (.inl hreceiving)
    · exact .inl (.inr (.inl hqueued))
    · cases htask
  | sweep =>
    obtain ⟨-, rfl⟩ := sweep_eq_some hstep
    rcases hflight with hreceiving | hqueued | htask
    · exact .inl (.inl hreceiving)
    · exact .inl (.inr (.inl hqueued))
    · cases htask

/-! ## Calls, futures and the entries that answer them -/

/-- A request gets into the table by being registered, or as the default that
`operator[]` inserts. -/
theorem entry_of_step {key : String} {entry : Entry Request} (hstep : step parser s a = some t)
    (hentry : t.table.lookup key = some entry) :
    s.table.lookup key = some entry ∨
    (∃ c ping, a = .register c ∧ s.pings c = some ping ∧ key = ping.host.toString ∧
      entry = ⟨{ dstIp := ping.host, time := ping.sentTime }, s.table.next⟩) ∨
    (∃ c, a = .reference c ∧ entry = ⟨.default, s.table.next⟩) := by
  have htable := tableStep_of_step hstep
  generalize t.table = table at htable hentry
  cases htable with
  | keep => exact .inl hentry
  | @register c ping hping =>
    rcases PendingTable.lookup_of_lookup_assign hentry with ⟨rfl, rfl⟩ | ⟨-, hprior⟩
    · exact .inr (.inl ⟨c, ping, rfl, hping, rfl, rfl⟩)
    · exact .inl hprior
  | @reference c ping hping =>
    rcases PendingTable.lookup_of_lookup_touch hentry with ⟨rfl, rfl⟩ | hprior
    · exact .inr (.inr ⟨c, rfl, rfl⟩)
    · exact .inl hprior
  | erase => exact .inl (PendingTable.shrinks_discard.lookup key entry hentry)
  | handle => exact .inl (shrinks_onPacketReceived.lookup key entry hentry)
  | sweep => exact .inl (shrinks_handleTimeouts.lookup key entry hentry)

/-- A settled future keeps its value. -/
theorem extends_of_step (hstep : step parser s a = some t) : s.table.Extends t.table := by
  have htable := tableStep_of_step hstep
  generalize t.table = table at htable
  cases htable with
  | keep => exact .refl _
  | register => exact PendingTable.extends_assign
  | reference => exact PendingTable.extends_touch
  | erase => exact PendingTable.extends_discard
  | handle => exact extends_onPacketReceived
  | sweep => exact extends_handleTimeouts

/-- The value of a future is a response read off a packet in flight from the
pending host, or the timeout error of the pending request. -/
theorem value_of_step {outcome : Outcome} (hstep : step parser s a = some t)
    (hvalue : t.table.future p = .value outcome) :
    s.table.future p = .value outcome ∨
      ∃ key entry, s.table.lookup key = some entry ∧ entry.promise = p ∧
        ((∃ packet response, s.InFlight packet ∧ key = response.srcIp.toString ∧
          responseAt parser packet entry.request.time = some response ∧ outcome = .ok response) ∨
        outcome = timeoutError entry.request) := by
  have htable := tableStep_of_step hstep
  generalize t.table = table at htable hvalue
  cases htable with
  | keep => exact .inl hvalue
  | register => exact .inl (PendingTable.future_assign_eq_value_iff.mp hvalue)
  | reference => exact .inl (PendingTable.future_touch.symm.trans hvalue)
  | erase => exact .inl (PendingTable.future_discard_eq_value_iff.mp hvalue)
  | @handle packet htask =>
    rcases onPacketReceived_cases parser s.table packet with
      ⟨host, found, response, -, hfound, hresponse, rfl, heq⟩ | ⟨heq, -⟩
    · rw [heq] at hvalue
      -- a promise that is set now is that of the entry that was found
      rcases PendingTable.value_of_resolve hvalue with hprior | ⟨entry, hentry, rfl, rfl⟩
      · exact .inl hprior
      · obtain rfl := Option.some.inj (hfound.symm.trans hentry)
        exact .inr ⟨_, found, hfound, rfl,
          .inl ⟨packet, response, .inr (.inr htask), rfl, hresponse, rfl⟩⟩
    · exact .inl (heq ▸ hvalue)
  | sweep =>
    rcases PendingTable.value_of_sweep hvalue with hprior | ⟨key, entry, hentry, rfl, rfl⟩
    · exact .inl hprior
    · exact .inr ⟨key, entry, hentry, rfl, .inr rfl⟩

/-- A future gets a response when the scanner handles a packet. -/
theorem response_of_step {response : IcmpResponse} (hstep : step parser s a = some t)
    (hvalue : t.table.future p = .value (.ok response)) :
    s.table.future p = .value (.ok response) ∨
      a = .handle ∧ ∃ packet key entry, s.task = .handling packet ∧
        s.table.lookup key = some entry ∧ entry.promise = p ∧ key = response.srcIp.toString ∧
          responseAt parser packet entry.request.time = some response := by
  have htable := tableStep_of_step hstep
  generalize t.table = table at htable hvalue
  cases htable with
  | keep => exact .inl hvalue
  | register => exact .inl (PendingTable.future_assign_eq_value_iff.mp hvalue)
  | reference => exact .inl (PendingTable.future_touch.symm.trans hvalue)
  | erase => exact .inl (PendingTable.future_discard_eq_value_iff.mp hvalue)
  | @handle packet htask =>
    rcases onPacketReceived_cases parser s.table packet with
      ⟨host, found, read, -, hfound, hresponse, rfl, heq⟩ | ⟨heq, -⟩
    · rw [heq] at hvalue
      rcases PendingTable.value_of_resolve hvalue with hprior | ⟨entry, hentry, rfl, hsame⟩
      · exact .inl hprior
      · obtain rfl := Option.some.inj (hfound.symm.trans hentry)
        obtain rfl : response = read := by simpa using hsame
        exact .inr ⟨rfl, packet, _, found, htask, hfound, rfl, rfl, hresponse⟩
    · exact .inl (heq ▸ hvalue)
  | sweep =>
    rcases PendingTable.value_of_sweep hvalue with hprior | ⟨key, entry, -, -, herror⟩
    · exact .inl hprior
    · cases herror

/-- A call that was sent reads the clock then. -/
theorem ping_of_step {ping : Ping} (hstep : step parser s a = some t)
    (hping : t.pings c = some ping) :
    s.pings c = some ping ∨
      ∃ host blocking, a = .send c host blocking ∧ ping = ⟨host, blocking, s.clock⟩ := by
  rcases pings_of_step hstep with hsame | ⟨c', host, blocking, rfl, -, hsent⟩
  · exact .inl (hsame ▸ hping)
  · rw [hsent] at hping
    by_cases heq : c = c'
    · subst heq
      obtain rfl : ⟨host, blocking, s.clock⟩ = ping := by simpa using hping
      exact .inr ⟨host, blocking, rfl, rfl⟩
    · exact .inl ((Function.update_of_ne heq _ _).symm.trans hping)

/-- A future is handed out by registering its call, and it is the next one. -/
theorem future_of_step (hstep : step parser s a = some t) (hfuture : t.futures c = some p) :
    s.futures c = some p ∨
      (a = .register c ∧ p = s.table.next ∧ p < t.table.next ∧ ∃ ping, s.pings c = some ping) := by
  rcases futures_of_step hstep with hsame | ⟨c', ping, rfl, hping, -, hnew, htable⟩
  · exact .inl (hsame ▸ hfuture)
  · rw [hnew] at hfuture
    by_cases heq : c = c'
    · subst heq
      obtain rfl : s.table.next = p := by simpa using hfuture
      exact .inr ⟨rfl, rfl, htable ▸ Nat.lt_succ_self _, ping, hping⟩
    · exact .inl ((Function.update_of_ne heq _ _).symm.trans hfuture)

/-- A call that was sent stays sent, and a registered one keeps its future. -/
theorem call_of_step (hstep : step parser s a = some t) :
    (∀ c ping, s.pings c = some ping → t.pings c = some ping) ∧
      ∀ c p, s.futures c = some p → t.futures c = some p := by
  constructor
  · intro c ping hping
    rcases pings_of_step hstep with hsame | ⟨c', _, _, rfl, hunsent, hsent⟩
    · exact hsame ▸ hping
    · rw [hsent, Function.update_of_ne, hping]
      rintro rfl
      cases hunsent.symm.trans hping
  · intro c p hfuture
    rcases futures_of_step hstep with hsame | ⟨c', _, rfl, -, hnone, hnew, -⟩
    · exact hsame ▸ hfuture
    · rw [hnew, Function.update_of_ne, hfuture]
      rintro rfl
      cases hnone.symm.trans hfuture

/-- What ties the calls to the table in every reachable state: a registered call
has a promise of its own, and the entry that holds it was made from that call. -/
structure Consistent (s : System) : Prop where
  future_lt : ∀ c p, s.futures c = some p → p < s.table.next
  future_injective : ∀ c c' p, s.futures c = some p → s.futures c' = some p → c = c'
  pinged : ∀ c p, s.futures c = some p → ∃ ping, s.pings c = some ping
  routed : ∀ c p ping key entry, s.futures c = some p → s.pings c = some ping →
    s.table.lookup key = some entry → entry.promise = p →
    key = ping.host.toString ∧ entry.request = { dstIp := ping.host, time := ping.sentTime }

theorem Consistent.initial (now : TimePoint) : Consistent (initial now) where
  future_lt _ _ hfuture := by cases hfuture
  future_injective _ _ _ hfuture := by cases hfuture
  pinged _ _ hfuture := by cases hfuture
  routed _ _ _ _ _ hfuture := by cases hfuture

/-- The entry of a call was made from it, after a step. -/
private theorem Consistent.routed_of_step {ping : Ping} {key : String} {entry : Entry Request}
    (consistent : s.Consistent) (hstep : System.step parser s a = some t)
    (hfuture : t.futures c = some entry.promise) (hping : t.pings c = some ping)
    (hentry : t.table.lookup key = some entry) :
    key = ping.host.toString ∧ entry.request = { dstIp := ping.host, time := ping.sentTime } := by
  have hprior : s.futures c = some entry.promise → entry.promise < s.table.next :=
    consistent.future_lt c entry.promise
  rcases entry_of_step hstep hentry with hold | ⟨c', ping', rfl, hping', rfl, rfl⟩ | ⟨c', rfl, rfl⟩
  · -- an old entry holds an old promise, so its call was registered before
    have hlt : entry.promise < s.table.next := PendingTable.promise_lt_next hold
    rcases future_of_step hstep hfuture with hfuture | ⟨-, hnext, -⟩
    · obtain ⟨ping', hping'⟩ := consistent.pinged c _ hfuture
      obtain rfl := Option.some.inj
        (((call_of_step hstep).1 c ping' hping').symm.trans hping)
      exact consistent.routed c _ ping' key entry hfuture hping' hold rfl
    · exact absurd hnext hlt.ne
  · -- the new entry holds the promise of the call that is being registered
    rcases future_of_step hstep hfuture with hfuture | ⟨hregister, -⟩
    · exact absurd (hprior hfuture) (lt_irrefl _)
    · obtain rfl := Label.register.inj hregister
      obtain rfl := Option.some.inj
        (((call_of_step hstep).1 c' ping' hping').symm.trans hping)
      exact ⟨rfl, rfl⟩
  · -- the promise that `operator[]` makes belongs to no call
    rcases future_of_step hstep hfuture with hfuture | ⟨hregister, -⟩
    · exact absurd (hprior hfuture) (lt_irrefl _)
    · cases hregister

/-- Every step keeps the calls and the table consistent. -/
theorem Consistent.step (consistent : s.Consistent) (hstep : System.step parser s a = some t) :
    t.Consistent where
  future_lt c p hfuture := by
    rcases future_of_step hstep hfuture with hprior | ⟨-, -, hlt, -⟩
    · exact (consistent.future_lt c p hprior).trans_le (extends_of_step hstep).next_le
    · exact hlt
  future_injective c c' p hfuture hfuture' := by
    rcases future_of_step hstep hfuture with hprior | ⟨hregister, rfl, -⟩ <;>
      rcases future_of_step hstep hfuture' with hprior' | ⟨hregister', hnext, -⟩
    · exact consistent.future_injective c c' p hprior hprior'
    · exact absurd (consistent.future_lt c p hprior) (by omega)
    · exact absurd (consistent.future_lt c' _ hprior') (lt_irrefl _)
    · exact Label.register.inj (hregister.symm.trans hregister')
  pinged c p hfuture := by
    have hsent : ∃ ping, s.pings c = some ping := by
      rcases future_of_step hstep hfuture with hprior | ⟨-, -, -, hsent⟩
      · exact consistent.pinged c p hprior
      · exact hsent
    obtain ⟨ping, hping⟩ := hsent
    exact ⟨ping, (call_of_step hstep).1 c ping hping⟩
  routed c p ping key entry hfuture hping hentry hpromise := by
    subst hpromise
    exact consistent.routed_of_step hstep hfuture hping hentry

/-- The calls and the table are consistent wherever a run ends. -/
theorem Consistent.of_run {now : TimePoint} {trace : List (System × Label)}
    (run : Run (System.step parser) (System.initial now) trace t) : t.Consistent :=
  run.invariant (.initial now) fun _ _ _ consistent hstep => consistent.step hstep

/-- What a call has got it keeps along a run. -/
structure Continues (s t : System) : Prop where
  pings : ∀ c ping, s.pings c = some ping → t.pings c = some ping
  futures : ∀ c p, s.futures c = some p → t.futures c = some p
  table : s.table.Extends t.table

theorem Continues.of_run {trace : List (System × Label)} (run : Run (step parser) s trace t) :
    s.Continues t :=
  run.invariant ⟨fun _ _ hping => hping, fun _ _ hfuture => hfuture, .refl _⟩
    fun _ _ _ continues hstep =>
      ⟨fun c ping hping => (call_of_step hstep).1 c ping (continues.pings c ping hping),
        fun c p hfuture => (call_of_step hstep).2 c p (continues.futures c p hfuture),
        continues.table.trans (extends_of_step hstep)⟩

end System

end NetDiscovery.Net.IcmpScanner
