/-
# Delivery of replies

A ping sends its echo request before it registers the request. While other hosts
are pending, the scanner's thread goes on taking packets, so it may handle the
reply in between. The reply then finds no request, and the ping that registers
afterwards waits for an answer that has already been dropped.

The reply is delivered exactly when the request was registered before the reply is
handled and still has its entry: since then no other packet of the host was handled,
no other ping of the host was registered, and none erased the entry.
-/

import NetDiscovery.Net.Scanner.ScannerSystem

namespace NetDiscovery.Net.IcmpScanner

open NetDiscovery.Semantics

namespace System

variable {parser : Parser} {s t v : System} {a : Label} {now : TimePoint} {c p : ℕ}
  {host : IPv4Address} {ping : Ping} {packet : ReceivedPacket} {trace : List (System × Label)}

/-- The step takes the entry of `host` out of the table or puts another one in its
place: it handles a packet of the host, registers a ping of it, or erases its entry. -/
def TakesEntry (parser : Parser) (host : IPv4Address) (s : System) : Label → Prop
  | .handle => ∃ packet, s.task = .handling packet ∧ ComesFrom (parser packet.bytes) host
  | .register c | .erase c => ∃ ping, s.pings c = some ping ∧ ping.host = host
  | _ => False

/-- Handling `packet` resolves the future of call `c` with the response read off
that packet. -/
def Delivered (parser : Parser) (packet : ReceivedPacket) (c : ℕ) (before after : System) : Prop :=
  ∃ p ping response, after.futures c = some p ∧ after.pings c = some ping ∧
    responseAt parser packet ping.sentTime = some response ∧
    before.table.future p = .unset ∧ after.table.future p = .value (.ok response)

/-- What holds of a ping of `host` until its reply is handled: once registered it is
pending unless it timed out. -/
structure Awaiting (c : ℕ) (host : IPv4Address) (s : System) : Prop where
  consistent : s.Consistent
  pending : ∀ p ping, s.futures c = some p → s.pings c = some ping → ping.host = host →
    s.table.lookup host.toString = some ⟨{ dstIp := host, time := ping.sentTime }, p⟩ ∨
      ∃ error, s.table.future p = .value (.error error)

theorem Awaiting.initial (c : ℕ) (host : IPv4Address) (now : TimePoint) :
    Awaiting c host (initial now) where
  consistent := .initial now
  pending _ _ hfuture := by cases hfuture

/-- The step lemma for `Awaiting`. -/
theorem Awaiting.step (awaiting : s.Awaiting c host)
    (hkeeps : s.futures c ≠ none → ¬ s.TakesEntry parser host a)
    (hstep : System.step parser s a = some t) : t.Awaiting c host := by
  refine ⟨awaiting.consistent.step hstep, fun p ping hfuture hping hhost => ?_⟩
  have herror : (∃ error, s.table.future p = .value (.error error)) →
      ∃ error, t.table.future p = .value (.error error) := by
    rintro ⟨error, hvalue⟩
    exact ⟨error, ((extends_of_step hstep).settled p (by simp [hvalue])).trans hvalue⟩
  -- a step of another host leaves the entry where it was
  have hregistered : s.futures c = some p → ¬ s.TakesEntry parser host a := fun hprior =>
    hkeeps (by simp [hprior])
  cases a with
  | send c' host' blocking =>
    obtain ⟨hnew, rfl⟩ := send_eq_some hstep
    have hne : c ≠ c' := by
      rintro rfl
      obtain ⟨ping', hping'⟩ := awaiting.consistent.pinged c p hfuture
      cases hnew.symm.trans hping'
    exact awaiting.pending p ping hfuture ((Function.update_of_ne hne _ _).symm.trans hping) hhost
  | register c' =>
    obtain ⟨ping', hping', hnone, rfl⟩ := register_eq_some hstep
    by_cases heq : c = c'
    · subst heq
      obtain rfl := Option.some.inj (hping'.symm.trans hping)
      obtain rfl : s.table.next = p := by simpa using hfuture
      subst hhost
      exact .inl PendingTable.lookup_assign_self
    · have hprior := (Function.update_of_ne heq _ _).symm.trans hfuture
      refine (awaiting.pending p ping hprior hping hhost).imp (fun hentry => ?_) herror
      refine (PendingTable.lookup_assign_of_ne fun htext => hregistered hprior ?_).trans hentry
      exact ⟨ping', hping', IPv4Address.toString_injective htext⟩
  | reference c' =>
    obtain ⟨ping', -, rfl⟩ := reference_eq_some hstep
    exact (awaiting.pending p ping hfuture hping hhost).imp PendingTable.lookup_touch_of_lookup
      herror
  | erase c' =>
    obtain ⟨ping', hping', rfl⟩ := erase_eq_some hstep
    refine (awaiting.pending p ping hfuture hping hhost).imp (fun hentry => ?_) herror
    refine (PendingTable.lookup_discard_of_ne fun htext => hregistered hfuture ?_).trans hentry
    exact ⟨ping', hping', IPv4Address.toString_injective htext⟩
  | handle =>
    obtain ⟨packet, htask, rfl⟩ := handle_eq_some hstep
    refine (awaiting.pending p ping hfuture hping hhost).imp (fun hentry => ?_) herror
    refine lookup_onPacketReceived_of_ne hentry fun host' hfrom htext => ?_
    obtain rfl := IPv4Address.toString_injective htext
    exact hregistered hfuture ⟨packet, htask, hfrom⟩
  | sweep =>
    obtain ⟨-, rfl⟩ := sweep_eq_some hstep
    rcases awaiting.pending p ping hfuture hping hhost with hentry | hvalue
    · exact lookup_or_error_of_handleTimeouts hentry
    · exact .inr (herror hvalue)
  | setClock | start | stop | expire | giveUp | get | receive | push | poll | pop =>
    obtain ⟨htable, hpings, hfutures⟩ := frame_of_quiet rfl hstep
    rw [htable]
    exact awaiting.pending p ping (hfutures ▸ hfuture) (hpings ▸ hping) hhost

/-- A call that is awaiting its reply is answered by a packet of its host. -/
theorem Awaiting.delivered (awaiting : v.Awaiting c ping.host) (hping : v.pings c = some ping)
    (hfuture : v.futures c = some p) (htime : ∀ error, v.table.future p ≠ .value (.error error))
    (hfrom : ComesFrom (parser packet.bytes) ping.host) (htask : v.task = .handling packet)
    (hstep : v.handle parser = some t) : Delivered parser packet c v t := by
  obtain ⟨packet', htask', rfl⟩ := handle_eq_some hstep
  obtain rfl := TaskPhase.handling.inj (htask.symm.trans htask')
  rcases awaiting.pending p ping hfuture hping rfl with hentry | ⟨error, herror⟩
  · obtain ⟨response, hresponse, -, heq⟩ := onPacketReceived_of_pending hfrom hentry
    refine ⟨p, ping, response, hfuture, hping, hresponse, PendingTable.future_of_lookup hentry, ?_⟩
    change (onPacketReceived parser v.table packet).future p = _
    rw [heq]
    exact PendingTable.future_remove_self hentry
  · exact absurd herror (htime error)

/-- A step that takes the entry of its host away from a registered call settles its
future. -/
theorem settled_of_takesEntry (consistent : s.Consistent) (hping : s.pings c = some ping)
    (hfuture : s.futures c = some p) (htakes : s.TakesEntry parser ping.host a)
    (hstep : step parser s a = some t) : t.table.future p ≠ .unset := by
  intro hunset
  -- an unset future belongs to the entry of its host
  have hprior : s.table.future p = .unset := by
    by_contra hset
    exact hset (((extends_of_step hstep).settled p hset).symm.trans hunset)
  obtain ⟨key, entry, hentry, rfl⟩ :=
    PendingTable.lookup_of_future_unset (consistent.future_lt c _ hfuture) hprior
  obtain ⟨rfl, -⟩ := consistent.routed c _ ping key entry hfuture hping hentry rfl
  cases a with
  | handle =>
    obtain ⟨packet, htask, hfrom⟩ := htakes
    obtain ⟨packet', htask', rfl⟩ := handle_eq_some hstep
    obtain rfl := TaskPhase.handling.inj (htask.symm.trans htask')
    obtain ⟨response, -, -, heq⟩ := onPacketReceived_of_pending hfrom hentry
    rw [heq, PendingTable.future_remove_self hentry] at hunset
    cases hunset
  | register c' =>
    obtain ⟨ping', hping', hhost⟩ := htakes
    obtain ⟨other, hother, -, rfl⟩ := register_eq_some hstep
    obtain rfl := Option.some.inj (hping'.symm.trans hother)
    have hbroken : (registerRequest s.table ping'.host ping'.sentTime).future entry.promise =
        .broken :=
      PendingTable.future_assign_eq_broken_iff.mpr (.inr ⟨entry, hhost ▸ hentry, rfl⟩)
    cases hbroken.symm.trans hunset
  | erase c' =>
    obtain ⟨ping', hping', hhost⟩ := htakes
    obtain ⟨other, hother, rfl⟩ := erase_eq_some hstep
    obtain rfl := Option.some.inj (hping'.symm.trans hother)
    have hbroken : (s.table.discard ping'.host.toString).future entry.promise = .broken :=
      PendingTable.future_discard_eq_broken_iff.mpr (.inr ⟨entry, hhost ▸ hentry, rfl⟩)
    cases hbroken.symm.trans hunset
  | _ => exact htakes.elim

/-- So the future of a call that lost its entry is settled from then on. -/
private theorem settled_of_mem {final : System} {l : Label}
    (run : Run (step parser) (initial now) trace final) (hping : final.pings c = some ping)
    (hfuture : final.futures c = some p) (hmem : (s, l) ∈ trace) (hregistered : s.futures c ≠ none)
    (htakes : s.TakesEntry parser ping.host l) : final.table.future p ≠ .unset := by
  obtain ⟨before, after, hsplit⟩ := List.append_of_mem hmem
  obtain ⟨w, hbefore, hstep, hafter⟩ := run.split_at hsplit
  have consistent := Consistent.of_run hbefore
  have hcontinues := Continues.of_run (.append (.single hstep) hafter)
  obtain ⟨p', hfuture'⟩ := Option.ne_none_iff_exists'.mp hregistered
  obtain ⟨ping', hping'⟩ := consistent.pinged c p' hfuture'
  obtain rfl := Option.some.inj ((hcontinues.futures c p' hfuture').symm.trans hfuture)
  obtain rfl := Option.some.inj ((hcontinues.pings c ping' hping').symm.trans hping)
  have hsettled := settled_of_takesEntry consistent hping' hfuture' htakes hstep
  rwa [(Continues.of_run hafter).table.settled p' hsettled]

/-- **The reply to a ping is delivered, and stays delivered, exactly if the ping was
registered before the reply is handled and no step since then has taken the entry of
its host.** The ping must not have timed out. -/
theorem delivered_iff (parser : Parser) (now : TimePoint) (c : ℕ) (ping : Ping)
    (packet : ReceivedPacket) (trace trace' : List (System × Label)) (v t final : System)
    (run : Run (step parser) (initial now) trace v) (hping : v.pings c = some ping)
    (htime : ∀ error, v.futureState c ≠ .value (.error error))
    (hfrom : ComesFrom (parser packet.bytes) ping.host) (htask : v.task = .handling packet)
    (hstep : step parser v .handle = some t) (rest : Run (step parser) t trace' final) :
    (Delivered parser packet c v t ∧ final.futureState c = t.futureState c) ↔
      v.futures c ≠ none ∧
        ∀ x ∈ trace, x.1.futures c ≠ none → ¬ x.1.TakesEntry parser ping.host x.2 := by
  have hfutures : t.futures = v.futures := by
    obtain ⟨_, -, rfl⟩ := handle_eq_some hstep
    rfl
  constructor
  · rintro ⟨⟨p, -, -, hfuture, -, -, hunset, -⟩, -⟩
    rw [hfutures] at hfuture
    refine ⟨by simp [hfuture], fun x hmem hregistered htakes => ?_⟩
    exact settled_of_mem run hping hfuture hmem hregistered htakes hunset
  · rintro ⟨hregistered, hkeeps⟩
    obtain ⟨p, hfuture⟩ := Option.ne_none_iff_exists'.mp hregistered
    -- the ping awaits its reply along the whole run before it
    have hawaiting : v.Awaiting c ping.host := run.invariant_of_guard
      (C := fun s a => s.futures c ≠ none → ¬ s.TakesEntry parser ping.host a)
      (.initial c ping.host now) (fun _ _ _ awaiting => awaiting.step) hkeeps
    have hdelivered := hawaiting.delivered hping hfuture
      (by simpa [futureState, hfuture] using htime) hfrom htask hstep
    refine ⟨hdelivered, ?_⟩
    obtain ⟨q, _, _, hfuture', -, -, -, hvalue⟩ := hdelivered
    have hcontinues := Continues.of_run rest
    simp only [futureState, hfuture', hcontinues.futures c q hfuture']
    exact hcontinues.table.settled q (by simp [hvalue])

/-- The reply of host 10.0.0.7. -/
def hostReply : ReceivedPacket :=
  ⟨0, Packet.sampleReply 7, by decide⟩

/-- While another host is pending, the host is pinged and answered, and pinged again. Its
second reply is taken off the queue after the second ping is registered. -/
def repliedAfterRegister : List Label :=
  [.send 0 (.ofOctets 10 0 0 9) false, .register 0, .start,
    .send 1 (.ofOctets 10 0 0 7) false, .receive (Packet.sampleReply 7), .push, .register 1,
    .poll, .pop, .handle, .send 2 (.ofOctets 10 0 0 7) false, .receive (Packet.sampleReply 7),
    .push, .register 2, .poll, .pop]

theorem delivered_repliedAfterRegister :
    ∃ v t, exec (step Packet.parse) (initial 0) repliedAfterRegister = some v ∧
      step Packet.parse v .handle = some t ∧ Delivered Packet.parse hostReply 2 v t := by
  have hexec := Option.some_get
    (x := exec (step Packet.parse) (initial 0) repliedAfterRegister) (by decide)
  refine ⟨_, _, hexec.symm, rfl, ?_⟩
  have hunset : ((exec (step Packet.parse) (initial 0) repliedAfterRegister).get
      (by decide)).futureState 2 = .unset := by decide
  refine ((delivered_iff Packet.parse 0 2 ⟨.ofOctets 10 0 0 7, false, 0⟩ hostReply _ [] _ _ _
    (Run.of_exec hexec.symm) rfl ?_ (by decide) rfl rfl .nil).mpr ⟨by decide, ?_⟩).1
  · simp [hunset]
  -- before its registration the second ping has no future, and nothing takes its entry after
  · iterate 14 refine List.forall_mem_cons.mpr ⟨fun hregistered => absurd rfl hregistered, ?_⟩
    iterate 2 refine List.forall_mem_cons.mpr ⟨fun _ htakes => htakes, ?_⟩
    nofun

/-- The same threads, but the reply is taken off the queue first. -/
def repliedBeforeRegister : List Label :=
  [.send 0 (.ofOctets 10 0 0 9) false, .register 0, .start,
    .send 1 (.ofOctets 10 0 0 7) false, .receive (Packet.sampleReply 7), .push, .poll, .pop]

/-- The reply is dropped and the ping that is registered next stays unanswered. -/
theorem not_delivered_repliedBeforeRegister :
    ∃ v t final, Run (step Packet.parse) (initial 0)
        (record (step Packet.parse) (initial 0) repliedBeforeRegister) v ∧
      v.task = .handling hostReply ∧ v.pings 1 = some ⟨.ofOctets 10 0 0 7, false, 0⟩ ∧
      step Packet.parse v .handle = some t ∧ step Packet.parse t (.register 1) = some final ∧
      ¬ Delivered Packet.parse hostReply 1 v t ∧
      final.futures 1 = some 1 ∧ final.futureState 1 = .unset := by
  have hexec := Option.some_get
    (x := exec (step Packet.parse) (initial 0) repliedBeforeRegister) (by decide)
  refine ⟨_, _, _, Run.of_exec hexec.symm, rfl, rfl, rfl, rfl, ?_, rfl, by decide⟩
  rintro ⟨p, -, -, hfuture, -⟩
  cases hfuture

end System

end NetDiscovery.Net.IcmpScanner
