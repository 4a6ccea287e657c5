/-
# The ping resolver

While requests are pending, each call of `PingResolver::run` takes one packet off
the queue and handles it. It sweeps the timed out requests when it finds the queue
empty, and only then.

No packet is handled twice or out of order. As long as no packets and no pings are
added, every call finds the queue one packet shorter or no request pending, so the
call after the last packet sweeps every request that is due by then.
-/

import NetDiscovery.Net.Scanner.AsyncScanner
import NetDiscovery.Net.Scanner.ScannerSystem

namespace NetDiscovery.Net.IcmpScanner

open NetDiscovery.Semantics NetDiscovery.Util

/-- What a call of `PingResolver::run` reads and changes: `m_running`,
`m_pendingRequests` and the queue of packets. -/
structure ScannerState where
  running : Bool
  table : PendingRequests
  buffer : PacketBuffer

/-- What a call returns, the packet that it hands to `onPacketReceived`, and the state
that it leaves. -/
structure RunResult where
  continuation : Continuation
  handed : Option ReceivedPacket
  state : ScannerState

namespace PingResolver

/-- `PingResolver::run`, called at `now`. -/
def run (parser : Parser) (s : ScannerState) (now : TimePoint) : RunResult :=
  if s.running = false then ⟨.ended, none, s⟩
  else if hasPendingRequests s.table then
    match s.buffer.pop with
    | some (packet, rest) =>
      ⟨.runAgain, some packet,
        { s with table := onPacketReceived parser s.table packet, buffer := rest }⟩
    | none => ⟨.runAgainDelayed 100, none, { s with table := handleTimeouts s.table now }⟩
  else ⟨.runAgainDelayed 1000, none, s⟩

/-- One call; the label is the time. -/
def step (parser : Parser) (s : ScannerState) (now : TimePoint) : Option ScannerState :=
  some (run parser s now).state

/-- The packets that the calls of a run hand to `onPacketReceived`. -/
def handed (parser : Parser) (trace : List (ScannerState × TimePoint)) : List ReceivedPacket :=
  trace.filterMap fun x => (run parser x.1 x.2).handed

/-- The request under `key` has been resolved, with the response read off one of
`packets` that comes from its host, or with `TimedOut`. -/
def Resolved (parser : Parser) (packets : List ReceivedPacket) (key : String)
    (entry : Entry Request) (table : PendingRequests) : Prop :=
  (∃ packet ∈ packets, ∃ response, responseAt parser packet entry.request.time = some response ∧
    response.srcIp.toString = key ∧ table.future entry.promise = .value (.ok response)) ∨
  table.future entry.promise = .value (timeoutError entry.request)

/-! ## One call -/

variable {parser : Parser} {s t v w : ScannerState} {now : TimePoint} {key : String}
  {entry : Entry Request} {packets : List ReceivedPacket} {table table' : PendingRequests}
  {trace : List (ScannerState × TimePoint)}

theorem hasPendingRequests_eq_false_iff :
    hasPendingRequests table = false ↔ ∀ key, table.lookup key = none := by
  rw [hasPendingRequests, Bool.not_eq_false', PendingTable.isEmpty_entries_iff]

/-- The three things that a call of a running scanner can do. -/
theorem run_cases (parser : Parser) (now : TimePoint) (hrunning : s.running = true) :
    (hasPendingRequests s.table = false ∧ run parser s now = ⟨.runAgainDelayed 1000, none, s⟩) ∨
    (∃ packet rest, s.buffer.packets = packet :: rest.packets ∧
      run parser s now = ⟨.runAgain, some packet,
        { s with table := onPacketReceived parser s.table packet, buffer := rest }⟩) ∨
    (s.buffer.packets = [] ∧ run parser s now =
      ⟨.runAgainDelayed 100, none, { s with table := handleTimeouts s.table now }⟩) := by
  unfold run
  rw [if_neg (by simp [hrunning])]
  cases hpending : hasPendingRequests s.table with
  | false => exact .inl ⟨rfl, rfl⟩
  | true =>
    cases hpop : s.buffer.pop with
    | some popped => exact .inr (.inl ⟨_, _, PacketBuffer.packets_of_pop hpop, rfl⟩)
    | none => exact .inr (.inr ⟨PacketBuffer.packets_of_pop_eq_none hpop, rfl⟩)

/-- What a call returns, as the task runner's model has it. -/
theorem continuation_run : (run parser s now).continuation =
    AsyncScanner.pingResolverRun s.running (hasPendingRequests s.table)
      s.buffer.pop.isSome := by
  unfold run
  cases hrunning : s.running <;> cases hpending : hasPendingRequests s.table <;>
    cases hpop : s.buffer.pop <;> rfl

theorem Resolved.extend (resolved : Resolved parser packets key entry table)
    (hextends : table.Extends table') : Resolved parser packets key entry table' := by
  refine resolved.imp ?_ fun hvalue => ?_
  · rintro ⟨packet, hmem, response, hresponse, hkey, hvalue⟩
    have hkept := hextends.settled entry.promise (by simp [hvalue])
    exact ⟨packet, hmem, response, hresponse, hkey, hkept.trans hvalue⟩
  · exact (hextends.settled entry.promise (by simp [hvalue])).trans hvalue

/-- A packet leaves a request pending or resolves it. -/
theorem lookup_or_resolved_of_packet {packet : ReceivedPacket} (hmem : packet ∈ packets)
    (hentry : table.lookup key = some entry) :
    (onPacketReceived parser table packet).lookup key = some entry ∨
      Resolved parser packets key entry (onPacketReceived parser table packet) := by
  rcases onPacketReceived_cases parser table packet with
    ⟨host, found, response, -, hfound, hresponse, rfl, heq⟩ | ⟨heq, -⟩
  · rw [heq]
    by_cases hkey : response.srcIp.toString = key
    · subst hkey
      obtain rfl := Option.some.inj (hfound.symm.trans hentry)
      exact .inr (.inl ⟨packet, hmem, response, hresponse, rfl,
        PendingTable.future_remove_self hentry⟩)
    · exact .inl ((PendingTable.lookup_remove_of_ne hkey).trans hentry)
  · exact .inl (heq.symm ▸ hentry)

/-- A sweep leaves a request pending or resolves it. -/
theorem lookup_or_resolved_of_sweep (hentry : table.lookup key = some entry) :
    (handleTimeouts table now).lookup key = some entry ∨
      Resolved parser packets key entry (handleTimeouts table now) := by
  cases hdue : isDue now entry.request with
  | false => exact .inl (PendingTable.lookup_sweep_of_not_due hentry hdue)
  | true => exact .inr (.inr (handleTimeouts_of_due hentry hdue).2)

/-! ## Runs of calls -/

/-- What calls that started in `s` have come to. -/
structure Progress (parser : Parser) (s : ScannerState) (trace : List (ScannerState × TimePoint))
    (v : ScannerState) : Prop where
  running : v.running = true
  in_order : handed parser trace ++ v.buffer.packets = s.buffer.packets
  accounted : ∀ key entry, s.table.lookup key = some entry → v.table.lookup key = some entry ∨
    Resolved parser s.buffer.packets key entry v.table
  /-- While requests are pending, every call has taken a packet as long as there was one. -/
  drains : hasPendingRequests v.table = true →
    v.buffer.packets.length = s.buffer.packets.length - trace.length

theorem Progress.initial (hrunning : s.running = true) : Progress parser s [] s where
  running := hrunning
  in_order := rfl
  accounted _ _ := .inl
  drains _ := rfl

theorem handed_snoc : handed parser (trace ++ [(v, now)]) =
    handed parser trace ++ (run parser v now).handed.toList := by
  rw [handed, handed, List.filterMap_append]
  cases hhanded : (run parser v now).handed <;> simp [hhanded]

/-- A table that has no request that another did not have is pending only if that
one is. -/
theorem hasPendingRequests_of_shrinks (hshrinks : table.Shrinks table')
    (hpending : hasPendingRequests table' = true) : hasPendingRequests table = true := by
  by_contra hnot
  have hnone := hasPendingRequests_eq_false_iff.mp (Bool.eq_false_iff.mpr hnot)
  rw [hasPendingRequests_eq_false_iff.mpr] at hpending
  · cases hpending
  · intro key
    refine Option.eq_none_iff_forall_ne_some.mpr fun entry hentry => ?_
    cases (hnone key).symm.trans (hshrinks.lookup key entry hentry)

/-- The step lemma. -/
theorem Progress.step (progress : Progress parser s trace v) :
    Progress parser s (trace ++ [(v, now)]) (run parser v now).state := by
  rcases run_cases parser now progress.running with
    ⟨hnone, hrun⟩ | ⟨packet, rest, hpackets, hrun⟩ | ⟨hempty, hrun⟩
  · -- nothing is pending, and the call leaves everything as it is
    rw [hrun]
    refine ⟨progress.running, ?_, progress.accounted, fun hpending => ?_⟩
    · rw [handed_snoc, hrun]
      simpa using progress.in_order
    · cases hnone.symm.trans hpending
  · -- a packet moves from the queue to those handed over
    have hmem : packet ∈ s.buffer.packets := by
      rw [← progress.in_order, hpackets]
      simp
    rw [hrun]
    refine ⟨progress.running, ?_, fun key entry hentry => ?_, fun hpending => ?_⟩
    · rw [handed_snoc, hrun, ← progress.in_order, hpackets]
      simp
    · rcases progress.accounted key entry hentry with hkept | hresolved
      · exact lookup_or_resolved_of_packet hmem hkept
      · exact .inr (hresolved.extend extends_onPacketReceived)
    · have hdrains := progress.drains
        (hasPendingRequests_of_shrinks shrinks_onPacketReceived hpending)
      simp only [hpackets, List.length_cons, List.length_append, List.length_nil] at hdrains ⊢
      omega
  · -- the queue is empty, and the call sweeps
    rw [hrun]
    refine ⟨progress.running, ?_, fun key entry hentry => ?_, fun hpending => ?_⟩
    · rw [handed_snoc, hrun]
      simpa using progress.in_order
    · rcases progress.accounted key entry hentry with hkept | hresolved
      · exact lookup_or_resolved_of_sweep hkept
      · exact .inr (hresolved.extend extends_handleTimeouts)
    · have hdrains := progress.drains
        (hasPendingRequests_of_shrinks shrinks_handleTimeouts hpending)
      simp only [hempty, List.length_nil, List.length_append, List.length_cons] at hdrains ⊢
      omega

theorem Progress.of_run (hrunning : s.running = true)
    (run : Run (PingResolver.step parser) s trace t) :
    Progress parser s trace t := by
  induction run with
  | nil => exact .initial hrunning
  | snoc _ hstep ih =>
    obtain rfl := Option.some.inj hstep
    exact ih.step

/-- A call that comes after as many calls as there were packets leaves no request
unresolved that is due by then. -/
theorem Progress.resolved (progress : Progress parser s trace v)
    (hlength : s.buffer.packets.length ≤ trace.length) (hentry : s.table.lookup key = some entry)
    (hdue : entry.request.time + defaultTimeout ≤ now) :
    Resolved parser s.buffer.packets key entry (run parser v now).state.table := by
  rcases run_cases parser now progress.running with
    ⟨hnone, hrun⟩ | ⟨packet, rest, hpackets, hrun⟩ | ⟨-, hrun⟩
  · -- nothing is pending any more
    rw [hrun]
    refine (progress.accounted key entry hentry).resolve_left fun hkept => ?_
    cases (hasPendingRequests_eq_false_iff.mp hnone key).symm.trans hkept
  · rw [hrun]
    rcases progress.accounted key entry hentry with hkept | hresolved
    · -- the queue was emptied before this call
      have hpending : hasPendingRequests v.table = true := by
        by_contra hnot
        have hnone := hasPendingRequests_eq_false_iff.mp (Bool.eq_false_iff.mpr hnot) key
        cases hnone.symm.trans hkept
      have hdrains := progress.drains hpending
      simp only [hpackets, List.length_cons] at hdrains
      omega
    · exact hresolved.extend extends_onPacketReceived
  · rw [hrun]
    rcases progress.accounted key entry hentry with hkept | hresolved
    · exact .inr (handleTimeouts_of_due hkept (decide_eq_true hdue)).2
    · exact hresolved.extend extends_handleTimeouts

/-- Consecutive calls serve the scanner: with as many calls before the last one as
there were packets, every request that is due at the last one has been resolved; the
packets are handed over in the order of the queue; and no call ends the task. -/
structure Serves (parser : Parser) (s : ScannerState) (trace : List (ScannerState × TimePoint))
    (t : ScannerState) : Prop where
  resolved : ∀ prior v now, trace = prior ++ [(v, now)] → s.buffer.packets.length ≤ prior.length →
    ∀ key entry, s.table.lookup key = some entry → entry.request.time + defaultTimeout ≤ now →
      Resolved parser s.buffer.packets key entry t.table
  in_order : handed parser trace <+: s.buffer.packets
  goes_on : ∀ x ∈ trace, (run parser x.1 x.2).continuation ≠ .ended

/-- The calls of a running scanner to which no packet and no ping is added serve it. -/
theorem serves_of_run (hrunning : s.running = true) (run : Run (step parser) s trace t) :
    Serves parser s trace t where
  resolved prior v now htrace hlength key entry hentry hdue := by
    subst htrace
    obtain ⟨hprior, hstep⟩ := run.last
    obtain rfl := Option.some.inj hstep
    exact (Progress.of_run hrunning hprior).resolved hlength hentry hdue
  in_order := ⟨_, (Progress.of_run hrunning run).in_order⟩
  goes_on x hx := by
    obtain ⟨_, _, hprior, -⟩ := run.step_of_mem hx
    rw [continuation_run, Ne, AsyncScanner.pingResolverRun_eq_ended_iff,
      (Progress.of_run hrunning hprior).running]
    simp

/-- A queued packet of one of two hosts is handled, and the other host times out. -/
def twoHosts : ScannerState where
  running := true
  table := registerRequest (registerRequest .empty (.ofOctets 10 0 0 7) 0) (.ofOctets 10 0 0 8) 0
  buffer := PacketBuffer.empty.push datagram

theorem serves_twoHosts : ∃ t, exec (step Packet.parse) twoHosts [6000000000, 6000000000] = some t ∧
    Serves Packet.parse twoHosts
      (record (step Packet.parse) twoHosts [6000000000, 6000000000]) t :=
  ⟨_, rfl, serves_of_run rfl (.of_exec rfl)⟩

/-! ## The threads of a scanner -/

/-- What a call finds of a scanner that is shared by threads. -/
def scannerState (s : System) : ScannerState where
  running := s.running
  table := s.table
  buffer := s.buffer

/-- The steps of the task's thread in a call that no other thread interrupts. -/
def labels (s : ScannerState) : List Label :=
  if s.running && hasPendingRequests s.table then
    match s.buffer.pop with
    | some _ => [.poll, .pop, .handle]
    | none => [.poll, .pop, .sweep]
  else [.poll]

/-- A call that no other thread interrupts is such a sequence of steps. -/
theorem exec_labels {s : System} (hidle : s.task = .idle) (htasks : s.tasks ≠ 0) :
    ∃ t, exec (System.step parser) s (labels (scannerState s)) = some t ∧ t.task = .idle ∧
      scannerState t = (run parser (scannerState s) s.clock).state := by
  obtain ⟨tasks, htasks⟩ := Nat.exists_eq_succ_of_ne_zero htasks
  have hpoll : s.poll = if s.running then
      if hasPendingRequests s.table then some { s with task := .reading } else some s
      else some { s with tasks := tasks } := by
    simp only [System.poll, hidle, htasks]
  -- one case for each way through the run
  cases hrunning : s.running with
  | false =>
    refine ⟨{ s with tasks := tasks }, ?_, hidle, ?_⟩
    · simp [labels, scannerState, exec, System.step, hpoll, hrunning]
    · simp [run, scannerState, hrunning]
  | true =>
    cases hpending : hasPendingRequests s.table with
    | false =>
      refine ⟨s, ?_, hidle, ?_⟩
      · simp [labels, scannerState, exec, System.step, hpoll, hrunning, hpending]
      · simp [run, scannerState, hrunning, hpending]
    | true =>
      cases hpop : s.buffer.pop with
      | some popped =>
        obtain ⟨packet, rest⟩ := popped
        refine ⟨{ s with
          table := onPacketReceived parser s.table packet
          buffer := rest
          task := .idle }, ?_, rfl, ?_⟩
        · simp [labels, scannerState, exec, hpoll, hrunning, hpending, hpop, System.step,
            System.pop, System.handle]
        · simp [run, scannerState, hrunning, hpending, hpop]
      | none =>
        refine ⟨{ s with table := handleTimeouts s.table s.clock, task := .idle }, ?_, rfl, ?_⟩
        · simp [labels, scannerState, exec, hpoll, hrunning, hpending, hpop, System.step,
            System.pop, System.sweep]
        · simp [run, scannerState, hrunning, hpending, hpop]

end PingResolver

end NetDiscovery.Net.IcmpScanner
