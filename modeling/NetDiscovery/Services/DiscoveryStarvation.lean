/-
# Discoveries that do not end

The scanner's task looks for overdue requests only when it finds the packet queue
empty. As long as every read of the queue finds a packet, nobody is told that a ping
has timed out, whatever the clock says; and the call of a host that does not answer
goes on waiting.
-/

import NetDiscovery.Services.DiscoveryProgress

namespace NetDiscovery.Services

open NetDiscovery.Net NetDiscovery.Net.IcmpScanner NetDiscovery.Semantics NetDiscovery.Util

namespace DiscoverySystem

variable {s t : DiscoverySystem} {v w : System} {parser : Parser} {a : Label}
  {b : IcmpScanner.Label} {c p : ℕ} {host : IPv4Address} {error : IcmpError}
  {trace : List (DiscoverySystem × Label)}

/-- If the statement reads the packet queue, it finds a packet. -/
def FindsPacket (s : DiscoverySystem) : Label → Prop
  | .body =>
    match s.scanner.task with
    | .reading => 0 < s.scanner.buffer.packets.length
    | _ => True
  | _ => True

instance (s : DiscoverySystem) : DecidablePred (FindsPacket s) := fun a => by
  unfold FindsPacket
  split
  · split <;> infer_instance
  · infer_instance

theorem FindsPacket.nonempty (hfinds : FindsPacket s .body)
    (hreading : s.scanner.task = .reading) : s.scanner.buffer.packets ≠ [] := by
  simp only [FindsPacket, hreading] at hfinds
  exact List.ne_nil_of_length_pos hfinds

/-- The statement is nothing to the request of `host`: it handles no packet from there, and
does not register another call of it. -/
def Ignores (parser : Parser) (host : IPv4Address) (s : DiscoverySystem) (a : Label) : Prop :=
  (∀ packet, a = .body → s.scanner.task = .handling packet →
    ¬ ComesFrom (parser packet.bytes) host) ∧
  ∀ c ping, a = .scan (.register c) → s.scanner.pings c = some ping → ping.host ≠ host

/-! ## Steps of the scanner -/

/-- A step that is no sweep gives no future an error. -/
theorem error_of_scan (hstep : v.step parser b = some w) (hsweep : b ≠ .sweep)
    (herror : w.table.future p = .value (.error error)) :
    v.table.future p = .value (.error error) := by
  have htable := System.tableStep_of_step hstep
  generalize w.table = table at htable herror
  cases htable with
  | keep => exact herror
  | register => exact PendingTable.future_assign_eq_value_iff.mp herror
  | reference => exact PendingTable.future_touch.symm.trans herror
  | erase => exact PendingTable.future_discard_eq_value_iff.mp herror
  | @handle packet htask =>
    rcases onPacketReceived_cases parser v.table packet with
      ⟨host, entry, response, -, hentry, -, -, heq⟩ | ⟨heq, -⟩
    · rw [heq] at herror
      rcases PendingTable.value_of_resolve herror with hprior | ⟨-, -, -, hvalue⟩
      · exact hprior
      · cases hvalue
    · exact heq ▸ herror
  | sweep => exact absurd rfl hsweep

/-- A sweep begins when the queue is found empty. -/
theorem sweeping_of_scan (hstep : v.step parser b = some w) (hsweeping : w.task = .sweeping) :
    v.task = .sweeping ∨ b = .pop ∧ v.task = .reading ∧ v.buffer.packets = [] := by
  cases b with
  | setClock =>
    obtain rfl := Option.some.inj hstep
    exact .inl hsweeping
  | start | stop | send | register | expire | reference | erase | giveUp | get =>
    exact .inl ((System.frame_of_caller rfl hstep).2.2.2 ▸ hsweeping)
  | receive =>
    obtain ⟨-, _, rfl⟩ := System.receive_eq_some hstep
    exact .inl hsweeping
  | push =>
    obtain ⟨_, -, rfl⟩ := System.push_eq_some hstep
    exact .inl hsweeping
  | poll =>
    obtain ⟨-, _, task, hnew, rfl⟩ := System.poll_eq_some hstep
    rcases hnew with rfl | rfl <;> cases hsweeping
  | pop =>
    obtain ⟨hreading, -⟩ := System.pop_eq_some hstep
    refine .inr ⟨rfl, hreading, PacketBuffer.packets_of_pop_eq_none ?_⟩
    -- with a packet in the queue the task would go on to handle it
    cases hpop : v.buffer.pop with
    | none => rfl
    | some popped =>
      change v.pop = some w at hstep
      simp only [System.pop, hreading, hpop] at hstep
      obtain rfl := Option.some.inj hstep
      cases hsweeping
  | handle =>
    obtain ⟨_, -, rfl⟩ := System.handle_eq_some hstep
    cases hsweeping
  | sweep =>
    obtain ⟨-, rfl⟩ := System.sweep_eq_some hstep
    cases hsweeping

/-- A request stays in the table through the steps that are nothing to it. -/
theorem lookup_of_scan {entry : Entry Request} (hstep : v.step parser b = some w)
    (hentry : v.table.lookup host.toString = some entry) (hsweep : b ≠ .sweep)
    (herase : ∀ c, b ≠ .erase c)
    (hhandle : ∀ packet, b = .handle → v.task = .handling packet →
      ¬ ComesFrom (parser packet.bytes) host)
    (hregister : ∀ c ping, b = .register c → v.pings c = some ping → ping.host ≠ host) :
    w.table.lookup host.toString = some entry := by
  have htable := System.tableStep_of_step hstep
  generalize w.table = table at htable
  cases htable with
  | keep => exact hentry
  | @register c ping hping =>
    refine (PendingTable.lookup_assign_of_ne fun hkey => ?_).trans hentry
    exact hregister c ping rfl hping (IPv4Address.toString_injective hkey)
  | reference => exact PendingTable.lookup_touch_of_lookup hentry
  | @erase c => exact absurd rfl (herase c)
  | @handle packet htask =>
    refine lookup_onPacketReceived_of_ne hentry fun source hfrom hkey => ?_
    exact hhandle packet rfl htask (IPv4Address.toString_injective hkey ▸ hfrom)
  | sweep => exact absurd rfl hsweep

/-! ## Statements -/

theorem ScansBy.ne_erase (hscans : ScansBy a b) (c : ℕ) : b ≠ .erase c := by
  rintro rfl
  cases a with
  | scan a =>
    obtain ⟨rfl, houtside⟩ := hscans
    cases houtside
  | startScanning => cases hscans
  | body => rcases hscans with h | h | h | h <;> cases h
  | postPingResolver | postRequest | clearResults | clearResult | runner => exact hscans

/-- The statements that read the queue, handle a packet or sweep are those of a run. -/
theorem ScansBy.eq_body (hscans : ScansBy a b) (hb : b = .pop ∨ b = .handle ∨ b = .sweep) :
    a = .body := by
  cases a with
  | scan a =>
    obtain ⟨rfl, houtside⟩ := hscans
    rcases hb with rfl | rfl | rfl <;> cases houtside
  | startScanning =>
    obtain rfl : b = .start := hscans
    rcases hb with h | h | h <;> cases h
  | body => rfl
  | postPingResolver | postRequest | clearResults | clearResult | runner => exact hscans.elim

theorem ScansBy.eq_scan_of_register (hscans : ScansBy a (.register c)) :
    a = .scan (.register c) := by
  cases a with
  | scan a => exact congrArg _ hscans.1
  | startScanning => cases hscans
  | body => rcases hscans with h | h | h | h <;> cases h
  | postPingResolver | postRequest | clearResults | clearResult | runner => exact hscans.elim

/-- No sweep begins while packets are found. -/
theorem not_sweeping_of_step (hnot : s.scanner.task ≠ .sweeping) (hfinds : FindsPacket s a)
    (hstep : s.step parser a = some t) : t.scanner.task ≠ .sweeping := by
  intro hsweeping
  rcases scanner_of_step hstep with ⟨b, hscans, hscan⟩ | hsame
  · rcases sweeping_of_scan hscan hsweeping with hprior | ⟨rfl, hreading, hempty⟩
    · exact hnot hprior
    · obtain rfl := hscans.eq_body (.inl rfl)
      exact hfinds.nonempty hreading hempty
  · exact hnot (hsame ▸ hsweeping)

/-- A stretch of a run in which every read of the queue finds a packet. -/
structure Starved (parser : Parser) (s : DiscoverySystem) (trace : List (DiscoverySystem × Label))
    (t : DiscoverySystem) : Prop where
  /-- No call is told that its ping has timed out. -/
  no_timeout : ∀ p error, t.scanner.table.future p = .value (.error error) →
    s.scanner.table.future p = .value (.error error)
  /-- A call whose request is left alone does not complete. -/
  waits : ∀ c ping, s.scanner.pings c = some ping → (∃ p, s.scanner.futures c = some p) →
    ¬ Settled s.scanner c → (∀ x ∈ trace, Ignores parser ping.host x.1 x.2) →
    ¬ Settled t.scanner c ∧ c ∉ completions trace

/-- The request of a call is where it was. -/
theorem lookup_of_step {entry : Entry Request} (hnot : s.scanner.task ≠ .sweeping)
    (hignores : Ignores parser host s a) (hstep : s.step parser a = some t)
    (hentry : s.scanner.table.lookup host.toString = some entry) :
    t.scanner.table.lookup host.toString = some entry := by
  rcases scanner_of_step hstep with ⟨b, hscans, hscan⟩ | hsame
  · refine lookup_of_scan hscan hentry ?_ hscans.ne_erase ?_ ?_
    · rintro rfl
      exact hnot (System.sweep_eq_some hscan).1
    · rintro packet rfl
      exact hignores.1 packet (hscans.eq_body (.inr (.inl rfl)))
    · rintro c ping rfl
      exact hignores.2 c ping hscans.eq_scan_of_register
  · exact hsame ▸ hentry

/-- A run that waits for nobody but for the queue. -/
theorem not_settled_of_run {ping : Ping} (run : Run (step parser) s trace t) (sound : s.Sound)
    (hnot : s.scanner.task ≠ .sweeping) (hping : s.scanner.pings c = some ping)
    (hregistered : ∃ p, s.scanner.futures c = some p) (hpending : ¬ Settled s.scanner c)
    (hfinds : ∀ x ∈ trace, FindsPacket x.1 x.2)
    (hignores : ∀ x ∈ trace, Ignores parser ping.host x.1 x.2) :
    ¬ Settled t.scanner c ∧ c ∉ completions trace := by
  obtain ⟨p, hfuture⟩ := hregistered
  obtain ⟨ping', entry, hping', hentry, rfl, -⟩ :=
    pending_of_not_settled sound.consistent hfuture hpending
  obtain rfl := Option.some.inj (hping'.symm.trans hping)
  have hunsettled : ∀ {u : DiscoverySystem}, u.scanner.futures c = some entry.promise →
      u.scanner.table.lookup ping'.host.toString = some entry → ¬ Settled u.scanner c := by
    intro u hfuture hentry hsettled
    exact (settled_of_promise hfuture).mp hsettled (PendingTable.future_of_lookup hentry)
  have hkept := run.induction_of_guard
    (C := fun s a => FindsPacket s a ∧ Ignores parser ping'.host s a)
    (J := fun trace u => u.scanner.task ≠ .sweeping ∧
      u.scanner.futures c = some entry.promise ∧
      u.scanner.table.lookup ping'.host.toString = some entry ∧ c ∉ completions trace)
    ⟨hnot, hfuture, hentry, by simp [completions]⟩ ?_ fun x hx => ⟨hfinds x hx, hignores x hx⟩
  · exact ⟨hunsettled hkept.2.1 hkept.2.2.1, hkept.2.2.2⟩
  · rintro trace u a w ⟨htask, hfuture, hentry, hnone⟩ ⟨hfind, hignore⟩ hstep
    refine ⟨not_sweeping_of_step htask hfind hstep, futures_of_step hfuture hstep,
      lookup_of_step htask hignore hstep hentry, ?_⟩
    -- its resolver does not find the future ready
    have hnow : completes (u, a) ≠ some c := fun hcompletes =>
      hunsettled hfuture hentry (completes_eq_some hcompletes).2.2
    rw [completions_snoc, List.mem_append, Option.mem_toList]
    exact not_or.mpr ⟨hnone, hnow⟩

/-- **As long as every read of the packet queue finds a packet, no ping times out, and a
call whose request nobody answers or replaces does not complete.** The stretch must not
begin between an empty read of the queue and its sweep. -/
theorem starved_of_run (now : TimePoint) (before : List (DiscoverySystem × Label))
    (trace : List (DiscoverySystem × Label)) (s t : DiscoverySystem)
    (prior : Run (step parser) (initial now) before s) (run : Run (step parser) s trace t)
    (hnot : s.scanner.task ≠ .sweeping) (hfinds : ∀ x ∈ trace, FindsPacket x.1 x.2) :
    Starved parser s trace t where
  no_timeout p error herror := by
    -- no sweep begins, so an error in a future was there before
    have hkept := run.induction_of_guard (C := FindsPacket)
      (J := fun _ u => u.scanner.task ≠ .sweeping ∧
        (u.scanner.table.future p = .value (.error error) →
          s.scanner.table.future p = .value (.error error))) ⟨hnot, id⟩ ?_ hfinds
    · exact hkept.2 herror
    · rintro - u a w ⟨htask, hearlier⟩ hfind hstep
      refine ⟨not_sweeping_of_step htask hfind hstep, fun hlater => hearlier ?_⟩
      rcases scanner_of_step hstep with ⟨b, -, hscan⟩ | hsame
      · refine error_of_scan hscan ?_ hlater
        rintro rfl
        exact htask (System.sweep_eq_some hscan).1
      · exact hsame ▸ hlater
  waits c ping hping hregistered hpending hignores :=
    not_settled_of_run run (sound_of_run prior) hnot hping hregistered hpending hfinds hignores

/-- A host is discovered. -/
def discoverHost : List Label :=
  [.scan (.send 0 (.ofOctets 10 0 0 7) false), .scan (.register 0), .postRequest 0, .startScanning,
    .postPingResolver, .runner (.run 1)]

/-- The packet of another host comes in time. -/
def flooded : List Label :=
  [.scan (.setClock 6000000000), .scan (.receive (Packet.sampleReply 8)), .scan .push, .body, .body,
    .body, .runner (.finish .runAgain)]

theorem starved_flooded :
    ∃ s t, exec (step Packet.parse) (initial 0) discoverHost = some s ∧
      exec (step Packet.parse) s flooded = some t ∧
      Starved Packet.parse s (record (step Packet.parse) s flooded) t := by
  have hstart := Option.some_get
    (x := exec (step Packet.parse) (initial 0) discoverHost) (by decide)
  have hexec := Option.some_get (x := exec (step Packet.parse)
    ((exec (step Packet.parse) (initial 0) discoverHost).get (by decide)) flooded) (by decide)
  refine ⟨_, _, hstart.symm, hexec.symm, ?_⟩
  exact starved_of_run 0 _ _ _ _ (Run.of_exec hstart.symm) (Run.of_exec hexec.symm)
    (fun h => by cases h) (by decide)

end DiscoverySystem

end NetDiscovery.Services
