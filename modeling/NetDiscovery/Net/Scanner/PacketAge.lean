/-
# The age of the packets that answer pings

Packets are queued while no request is pending, and they are taken off the queue
only while one is. A packet can therefore wait in the queue, or in the hands of
the thread that queues it, from before a ping was sent until after the ping is
registered, and then it answers that ping with a negative response time.

When no such packet of the host is in flight at the moment a request is
registered, and the clock does not go back, every answer is younger than its
request.
-/

import NetDiscovery.Net.Scanner.ScannerSystem

namespace NetDiscovery.Net.IcmpScanner

open NetDiscovery.Semantics

namespace System

variable {parser : Parser} {s t : System} {a : Label} {now : TimePoint}
  {trace : List (System × Label)}

/-- The clock does not go back. -/
def ClockAdvances (s : System) : Label → Prop
  | .setClock now => s.clock ≤ now
  | _ => True

instance : Decidable (s.ClockAdvances a) := by
  cases a <;>
    first | exact inferInstanceAs (Decidable (_ ≤ _)) | exact inferInstanceAs (Decidable True)

/-- A request is registered only while no packet of its host is in flight that
arrived before the request was sent. -/
def RegistersUnanswered (parser : Parser) (s : System) : Label → Prop
  | .register c => ∀ ping packet, s.pings c = some ping → s.InFlight packet →
      ComesFrom (parser packet.bytes) ping.host → ping.sentTime ≤ packet.arrival
  | _ => True

/-- No pending request is younger than a packet in flight that would answer it,
and none was sent in the future. -/
structure Timely (parser : Parser) (s : System) : Prop where
  ping_le : ∀ c ping, s.pings c = some ping → ping.sentTime ≤ s.clock
  entry_le : ∀ key entry, s.table.lookup key = some entry → entry.request.time ≤ s.clock
  answer_le : ∀ host entry packet, s.table.lookup host.toString = some entry →
    s.InFlight packet → ComesFrom (parser packet.bytes) host →
    entry.request.time ≤ packet.arrival

theorem Timely.initial (parser : Parser) (now : TimePoint) : Timely parser (initial now) where
  ping_le _ _ hping := by cases hping
  entry_le _ _ hentry := by simp [System.initial] at hentry
  answer_le _ _ _ hentry := by simp [System.initial] at hentry

theorem clock_le_of_step (hclock : s.ClockAdvances a) (hstep : step parser s a = some t) :
    s.clock ≤ t.clock := by
  rcases clock_of_step hstep with hsame | hset
  · exact hsame.ge
  · rw [hset] at hclock
    exact hclock

/-- The step lemma for `Timely`. -/
theorem Timely.step (timely : s.Timely parser) (hclock : s.ClockAdvances a)
    (hregisters : s.RegistersUnanswered parser a) (hstep : System.step parser s a = some t) :
    t.Timely parser := by
  have hle := clock_le_of_step hclock hstep
  refine ⟨fun c ping hping => ?_, fun key entry hentry => ?_,
    fun host entry packet hentry hflight hfrom => ?_⟩
  · rcases ping_of_step hstep hping with hprior | ⟨host, blocking, -, rfl⟩
    · exact (timely.ping_le c ping hprior).trans hle
    · exact hle
  · rcases entry_of_step hstep hentry with hprior | ⟨c, ping, -, hping, -, rfl⟩ | ⟨c, -, rfl⟩
    · exact (timely.entry_le key entry hprior).trans hle
    · exact (timely.ping_le c ping hping).trans hle
    · exact Nat.zero_le _
  · rcases entry_of_step hstep hentry with hprior | ⟨c, ping, rfl, hping, hkey, rfl⟩ | ⟨c, -, rfl⟩
    · -- a new packet is stamped with a clock no earlier than any pending request
      rcases inFlight_of_step hstep hflight with hold | ⟨bytes, bounded, -, rfl⟩
      · exact timely.answer_le host entry packet hprior hold hfrom
      · exact timely.entry_le _ entry hprior
    · -- the packets in flight when a request is registered are the guard's concern
      rcases inFlight_of_step hstep hflight with hold | ⟨_, _, hreceive, -⟩
      · obtain rfl := IPv4Address.toString_injective hkey
        exact hregisters ping packet hping hold hfrom
      · cases hreceive
    · exact Nat.zero_le _

/-- If handling a packet answers a request with success, the packet arrived no
earlier than the request was sent, and the response time is not negative. -/
def AnswersInTime (parser : Parser) (s : System) : Label → Prop
  | .handle => ∀ packet key entry response, s.task = .handling packet →
      s.table.lookup key = some entry →
      (onPacketReceived parser s.table packet).future entry.promise = .value (.ok response) →
      entry.request.time ≤ packet.arrival ∧ 0 ≤ response.responseTime
  | _ => True

theorem elapsedMilliseconds_nonneg {sent arrival : TimePoint} (hle : sent ≤ arrival) :
    0 ≤ elapsedMilliseconds sent arrival :=
  Int.tdiv_nonneg (Int.sub_nonneg_of_le (Int.ofNat_le.mpr hle)) (by decide)

theorem Timely.answersInTime (timely : s.Timely parser) (a : Label) :
    s.AnswersInTime parser a := by
  cases a with
  | handle =>
    intro packet key entry response htask hentry hsuccess
    obtain ⟨host, rfl, hfrom, hresponse⟩ := answered_of_success hentry hsuccess
    have hle := timely.answer_le host entry packet hentry (.inr (.inr htask)) hfrom
    refine ⟨hle, ?_⟩
    rw [(responseAt_eq_some hresponse).2]
    exact elapsedMilliseconds_nonneg hle
  | _ => exact trivial

/-- A packet older than the request of its host answers that request too. -/
theorem not_answersInTime_of_older {packet : ReceivedPacket} (host : IPv4Address)
    (entry : Entry Request) (htask : s.task = .handling packet)
    (hfrom : ComesFrom (parser packet.bytes) host)
    (hentry : s.table.lookup host.toString = some entry)
    (holder : packet.arrival < entry.request.time) : ¬ s.AnswersInTime parser .handle := by
  intro hintime
  obtain ⟨response, -, -, heq⟩ := onPacketReceived_of_pending hfrom hentry
  have hsuccess : (onPacketReceived parser s.table packet).future entry.promise =
      .value (.ok response) := by
    rw [heq, PendingTable.future_remove_self hentry]
  exact absurd (hintime packet _ entry response htask hentry hsuccess).1 holder.not_ge

/-- **In a run whose clock does not go back and whose requests are all registered
while no older packet of their host is in flight, every successful answer is a
packet that arrived after its request was sent.** -/
theorem answersInTime_of_registersUnanswered (parser : Parser) (now : TimePoint)
    (trace : List (System × Label)) (final : System)
    (run : Run (step parser) (initial now) trace final)
    (hclock : ∀ x ∈ trace, x.1.ClockAdvances x.2)
    (hregisters : ∀ x ∈ trace, x.1.RegistersUnanswered parser x.2) :
    ∀ x ∈ trace, x.1.AnswersInTime parser x.2 := by
  rintro ⟨v, a⟩ hmem
  -- the state before each step is reached by a run of its own
  obtain ⟨l, r, rfl⟩ := List.append_of_mem hmem
  obtain ⟨_, hbefore, -, -⟩ := run.split_at rfl
  have htimely : v.Timely parser := hbefore.invariant_of_guard
    (C := fun s a => s.ClockAdvances a ∧ s.RegistersUnanswered parser a) (.initial parser now)
    (fun _ _ _ timely hguard hstep => timely.step hguard.1 hguard.2 hstep)
    fun x hx => ⟨hclock x (List.mem_append_left _ hx), hregisters x (List.mem_append_left _ hx)⟩
  exact htimely.answersInTime a

/-- A ping, answered by a reply that arrives after it was sent. -/
def replyAfterPing : List Label :=
  [.send 0 (.ofOctets 10 0 0 7) false, .register 0, .start, .setClock 8000000,
    .receive (Packet.sampleReply 7), .push, .poll, .pop, .handle]

theorem answersInTime_replyAfterPing :
    ∃ final, exec (step Packet.parse) (initial 0) replyAfterPing = some final ∧
      final.table.future 0 ≠ .unset ∧
      ∀ x ∈ record (step Packet.parse) (initial 0) replyAfterPing,
        x.1.AnswersInTime Packet.parse x.2 := by
  have hexec := Option.some_get (x := exec (step Packet.parse) (initial 0) replyAfterPing)
    (by decide)
  refine ⟨_, hexec.symm, by decide, ?_⟩
  refine answersInTime_of_registersUnanswered _ _ _ _ (Run.of_exec hexec.symm) (by decide) ?_
  -- nothing is in flight when the request is registered
  refine List.forall_mem_cons.mpr ⟨trivial, List.forall_mem_cons.mpr ⟨?_, ?_⟩⟩
  · rintro ping packet - (hnone | hnone | hnone) <;> cases hnone
  · iterate 7 refine List.forall_mem_cons.mpr ⟨trivial, ?_⟩
    nofun

/-- A packet that is queued before its host is pinged. -/
def packetBeforePing : List Label :=
  [.receive (Packet.sampleReply 7), .push, .setClock 8000000,
    .send 0 (.ofOctets 10 0 0 7) false, .register 0, .start, .poll, .pop, .handle]

/-- The old packet answers the ping after minus eight milliseconds. -/
theorem not_answersInTime_packetBeforePing :
    ∃ final, Run (step Packet.parse) (initial 0)
      (record (step Packet.parse) (initial 0) packetBeforePing) final ∧
      (∀ x ∈ record (step Packet.parse) (initial 0) packetBeforePing, x.1.ClockAdvances x.2) ∧
      ¬ ∀ x ∈ record (step Packet.parse) (initial 0) packetBeforePing,
        x.1.AnswersInTime Packet.parse x.2 := by
  have hexec := Option.some_get (x := exec (step Packet.parse) (initial 0) packetBeforePing)
    (by decide)
  refine ⟨_, Run.of_exec hexec.symm, by decide, fun hall => ?_⟩
  iterate 8 replace hall := (List.forall_mem_cons.mp hall).2
  exact not_answersInTime_of_older (.ofOctets 10 0 0 7) ⟨⟨.ofOctets 10 0 0 7, 8000000⟩, 0⟩ rfl
    (by decide) (by decide) (by decide) (List.forall_mem_cons.mp hall).1

end System

end NetDiscovery.Net.IcmpScanner
