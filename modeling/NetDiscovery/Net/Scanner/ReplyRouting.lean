/-
# Routing of replies

Pings, packets and sweeps come in any order, and the clock is read anew each
time. A request is kept under the text of its host, and different hosts have
different texts, so an answer reaches the request of its own host only. A sweep
takes out the requests that are due while it visits the map.

`routesReplies_of_run` says what every future holds in the end, and what each
step leaves alone.
-/

import NetDiscovery.Net.Scanner.IcmpScanner
import NetDiscovery.Semantics.Run

namespace NetDiscovery.Net.IcmpScanner

open NetDiscovery.Semantics NetDiscovery.Util

/-- The scanner, with the request behind each future that `pingAsync` returned. -/
structure Scanner where
  table : PendingRequests
  requests : ℕ → Option Request

namespace Scanner

/-- A new scanner. -/
def initial : Scanner where
  table := .empty
  requests _ := none

/-- The calls of a scanner. -/
inductive Call
  | pingAsync (host : IPv4Address) (sentTime : TimePoint)
  | onPacketReceived (packet : ReceivedPacket)
  | handleTimeouts (now : TimePoint)

/-- One call. -/
def step (parser : Parser) (s : Scanner) : Call → Option Scanner
  | .pingAsync host sentTime => some {
      table := registerRequest s.table host sentTime
      requests := Function.update s.requests s.table.next
        (some { dstIp := host, time := sentTime }) }
  | .onPacketReceived packet =>
    some { s with table := IcmpScanner.onPacketReceived parser s.table packet }
  | .handleTimeouts now => some { s with table := IcmpScanner.handleTimeouts s.table now }

variable {parser : Parser} {s t : Scanner} {a : Call} {trace : List (Scanner × Call)}
  {table : PendingRequests} {key : String} {entry : Entry Request} {now : TimePoint}

/-! ## One sweep -/

/-- A sweep answers and takes out the requests that are due, and no other. -/
structure SweepsDue (table : PendingRequests) (now : TimePoint) : Prop where
  answered : ∀ key entry, table.lookup key = some entry →
    entry.request.time + defaultTimeout ≤ now →
      (IcmpScanner.handleTimeouts table now).lookup key = none ∧
        (IcmpScanner.handleTimeouts table now).future entry.promise =
          .value (timeoutError entry.request)
  kept : ∀ key entry, table.lookup key = some entry →
    now < entry.request.time + defaultTimeout →
      (IcmpScanner.handleTimeouts table now).lookup key = some entry ∧
        (IcmpScanner.handleTimeouts table now).future entry.promise = .unset

theorem sweepsDue (table : PendingRequests) (now : TimePoint) : SweepsDue table now where
  answered _ _ hentry hdue := handleTimeouts_of_due hentry (decide_eq_true hdue)
  kept key entry hentry hyoung := by
    have hdue : isDue now entry.request = false := decide_eq_false (Nat.not_le.mpr hyoung)
    have hkept : (IcmpScanner.handleTimeouts table now).lookup key = some entry :=
      PendingTable.lookup_sweep_of_not_due hentry hdue
    exact ⟨hkept, PendingTable.future_of_lookup hkept⟩

/-! ## What the futures hold -/

/-- The outcome is right for the request: a response comes from its host, and an
error says that its host timed out, given by a sweep that it was due for. -/
def Answers (trace : List (Scanner × Call)) (p : ℕ) (request : Request) :
    Outcome → Prop
  | .ok response => response.srcIp = request.dstIp
  | .error error => error = { dstIp := request.dstIp, error := .timedOut } ∧
      ∃ v now, (v, Call.handleTimeouts now) ∈ trace ∧ v.table.future p = .unset ∧
        (IcmpScanner.handleTimeouts v.table now).future p = .value (.error error) ∧
        request.time + defaultTimeout ≤ now

/-- Each request is pending under the text of its host, and each future that is
ready holds the right outcome. -/
structure Routed (trace : List (Scanner × Call)) (s : Scanner) : Prop where
  key_eq : ∀ key entry, s.table.lookup key = some entry →
    key = entry.request.dstIp.toString ∧ s.requests entry.promise = some entry.request
  request_lt : ∀ p request, s.requests p = some request → p < s.table.next
  settled : ∀ v ∈ visited trace s, v.table.Extends s.table
  answers : ∀ p request outcome, s.requests p = some request →
    s.table.future p = .value outcome → Answers trace p request outcome

theorem Answers.snoc {p : ℕ} {request : Request} {outcome : Outcome}
    (answers : Answers trace p request outcome) :
    Answers (trace ++ [(s, a)]) p request outcome := by
  cases outcome with
  | ok response => exact answers
  | error error =>
    obtain ⟨herror, v, now, hmem, hunset, hvalue, hdue⟩ := answers
    exact ⟨herror, v, now, List.mem_append_left _ hmem, hunset, hvalue, hdue⟩

theorem Routed.initial : Routed [] initial where
  key_eq _ _ hentry := by cases PendingTable.lookup_empty.symm.trans hentry
  request_lt _ _ hrequest := by cases hrequest
  settled v hv := List.mem_singleton.mp hv ▸ .refl _
  answers _ _ _ hrequest := by cases hrequest

/-- The earlier tables extend to the one after the next step. -/
private theorem Routed.settled_snoc (routed : Routed trace s)
    (hnext : s.table.Extends t.table) :
    ∀ v ∈ visited (trace ++ [(s, a)]) t, v.table.Extends t.table := by
  intro v hv
  rw [visited_snoc] at hv
  rcases List.mem_append.mp hv with hprior | hlast
  · exact (routed.settled v hprior).trans hnext
  · exact List.mem_singleton.mp hlast ▸ .refl _

private theorem Routed.pingAsync (routed : Routed trace s) {host : IPv4Address}
    {sentTime : TimePoint} (hstep : step parser s (.pingAsync host sentTime) = some t) :
    Routed (trace ++ [(s, .pingAsync host sentTime)]) t := by
  obtain rfl := Option.some.inj hstep
  -- the promises handed out before are not the new one
  have hother : ∀ {p : ℕ}, p < s.table.next →
      Function.update s.requests s.table.next (some { dstIp := host, time := sentTime }) p =
        s.requests p := fun hlt => Function.update_of_ne (by omega) _ _
  refine ⟨fun key entry hentry => ?_, fun p request hrequest => ?_,
    routed.settled_snoc PendingTable.extends_assign, fun p request outcome hrequest hvalue => ?_⟩
  · rcases PendingTable.lookup_of_lookup_assign hentry with ⟨rfl, rfl⟩ | ⟨-, hprior⟩
    · exact ⟨rfl, Function.update_self _ _ _⟩
    · obtain ⟨hkey, hself⟩ := routed.key_eq key entry hprior
      exact ⟨hkey, (hother (PendingTable.promise_lt_next hprior)).trans hself⟩
  · by_cases heq : p = s.table.next
    · subst heq
      exact Nat.lt_succ_self _
    · have hprior := (Function.update_of_ne heq _ _).symm.trans hrequest
      exact Nat.lt_succ_of_lt (routed.request_lt p request hprior)
  · have hprior := PendingTable.future_assign_eq_value_iff.mp hvalue
    have hne : p ≠ s.table.next := by
      rintro rfl
      cases PendingTable.future_next.symm.trans hprior
    have hrequest := (Function.update_of_ne hne _ _).symm.trans hrequest
    exact (routed.answers p request outcome hrequest hprior).snoc

/-- A step that only takes requests out keeps them under their texts. -/
private theorem Routed.of_shrinks (routed : Routed trace s) (hrequests : t.requests = s.requests)
    (hextends : s.table.Extends t.table) (hshrinks : s.table.Shrinks t.table)
    (hanswers : ∀ p request outcome, s.requests p = some request → s.table.future p = .unset →
      t.table.future p = .value outcome → Answers (trace ++ [(s, a)]) p request outcome) :
    Routed (trace ++ [(s, a)]) t where
  key_eq key entry hentry := hrequests ▸ routed.key_eq key entry (hshrinks.lookup key entry hentry)
  request_lt p request hrequest := by
    rw [hshrinks.next_eq]
    exact routed.request_lt p request (hrequests ▸ hrequest)
  settled := routed.settled_snoc hextends
  answers p request outcome hrequest hvalue := by
    rw [hrequests] at hrequest
    by_cases hunset : s.table.future p = .unset
    · exact hanswers p request outcome hrequest hunset hvalue
    · have hprior := (hextends.settled p hunset).symm.trans hvalue
      exact (routed.answers p request outcome hrequest hprior).snoc

private theorem Routed.onPacketReceived (routed : Routed trace s) {packet : ReceivedPacket}
    (hstep : step parser s (.onPacketReceived packet) = some t) :
    Routed (trace ++ [(s, .onPacketReceived packet)]) t := by
  obtain rfl := Option.some.inj hstep
  refine routed.of_shrinks rfl extends_onPacketReceived shrinks_onPacketReceived
    fun p request outcome hrequest hunset hvalue => ?_
  obtain ⟨key, entry, hentry, rfl⟩ :=
    PendingTable.lookup_of_future_unset (routed.request_lt p request hrequest) hunset
  obtain ⟨hkey, hself⟩ := routed.key_eq key entry hentry
  obtain rfl := Option.some.inj (hself.symm.trans hrequest)
  rcases onPacketReceived_cases parser s.table packet with
    ⟨host, found, response, -, hfound, -, hhost, heq⟩ | ⟨heq, -⟩
  · change (IcmpScanner.onPacketReceived parser s.table packet).future entry.promise = _ at hvalue
    rw [heq] at hvalue
    rcases PendingTable.value_of_resolve hvalue with hprior | ⟨found', hfound', hpromise, rfl⟩
    · cases hunset.symm.trans hprior
    · -- the answered entry is the one of this promise, kept under the text of its host
      have hsame := s.table.distinct _ _ _ _ hfound' hentry hpromise
      exact hhost.trans (IPv4Address.toString_injective (hsame.trans hkey))
  · change (IcmpScanner.onPacketReceived parser s.table packet).future entry.promise = _ at hvalue
    rw [heq, hunset] at hvalue
    cases hvalue

private theorem Routed.handleTimeouts (routed : Routed trace s)
    (hstep : step parser s (.handleTimeouts now) = some t) :
    Routed (trace ++ [(s, .handleTimeouts now)]) t := by
  obtain rfl := Option.some.inj hstep
  refine routed.of_shrinks rfl extends_handleTimeouts shrinks_handleTimeouts
    fun p request outcome hrequest hunset hvalue => ?_
  obtain ⟨key, entry, hentry, rfl⟩ :=
    PendingTable.lookup_of_future_unset (routed.request_lt p request hrequest) hunset
  obtain ⟨-, hself⟩ := routed.key_eq key entry hentry
  obtain rfl := Option.some.inj (hself.symm.trans hrequest)
  have sweeps := sweepsDue s.table now
  rcases Nat.lt_or_ge now (entry.request.time + defaultTimeout) with hyoung | hdue
  · cases (sweeps.kept key entry hentry hyoung).2.symm.trans hvalue
  · obtain rfl := SharedState.value.inj
      ((sweeps.answered key entry hentry hdue).2.symm.trans hvalue)
    exact ⟨rfl, s, now, by simp, hunset, hvalue, hdue⟩

/-- Every call keeps the requests and their outcomes routed. -/
theorem Routed.step (routed : Routed trace s) (hstep : step parser s a = some t) :
    Routed (trace ++ [(s, a)]) t := by
  cases a with
  | pingAsync host sentTime => exact routed.pingAsync hstep
  | onPacketReceived packet => exact routed.onPacketReceived hstep
  | handleTimeouts now => exact routed.handleTimeouts hstep

/-! ## Runs -/

/-- What a run owes the futures that `pingAsync` has returned. -/
structure RoutesReplies (trace : List (Scanner × Call)) (final : Scanner) : Prop where
  /-- A future that was ready holds in the end what it held then. -/
  once : ∀ v ∈ visited trace final, ∀ p, v.table.future p ≠ .unset →
    final.table.future p = v.table.future p
  success : ∀ p request response, final.requests p = some request →
    final.table.future p = .value (.ok response) → response.srcIp = request.dstIp
  timedOut : ∀ p request error, final.requests p = some request →
    final.table.future p = .value (.error error) →
      error = { dstIp := request.dstIp, error := .timedOut } ∧
        ∃ v now, (v, Call.handleTimeouts now) ∈ trace ∧ v.table.future p = .unset ∧
          (IcmpScanner.handleTimeouts v.table now).future p = .value (.error error) ∧
          request.time + defaultTimeout ≤ now

/-- A packet leaves every request alone but its sender's, and a sweep takes out
exactly those that are due. -/
def LeavesOthers (parser : Parser) (s : Scanner) : Call → Prop
  | .pingAsync _ _ => True
  | .onPacketReceived packet => ∀ key entry, s.table.lookup key = some entry →
      (∀ host, ComesFrom (parser packet.bytes) host → key ≠ host.toString) →
      (IcmpScanner.onPacketReceived parser s.table packet).lookup key = some entry ∧
        (IcmpScanner.onPacketReceived parser s.table packet).future entry.promise = .unset
  | .handleTimeouts now => SweepsDue s.table now

/-- **Every future is resolved at most once, by a response of its host or by a
timeout of its host that was due, and no step touches the other requests.** -/
theorem routesReplies_of_run (parser : Parser) (trace : List (Scanner × Call)) (final : Scanner)
    (run : Run (step parser) initial trace final) :
    RoutesReplies trace final ∧ ∀ x ∈ trace, LeavesOthers parser x.1 x.2 := by
  have routed : Routed trace final :=
    run.induction_of_guard (C := fun _ _ => True) .initial
      (fun _ _ _ _ routed _ hstep => routed.step hstep) fun _ _ => trivial
  refine ⟨⟨fun v hv => (routed.settled v hv).settled, fun p request response hrequest hvalue =>
    routed.answers p request _ hrequest hvalue, fun p request error hrequest hvalue =>
    routed.answers p request _ hrequest hvalue⟩, fun ⟨v, a⟩ _ => ?_⟩
  cases a with
  | pingAsync => trivial
  | onPacketReceived packet =>
    intro key entry hentry hne
    -- a packet touches the entry of its own key only
    have hkept := lookup_onPacketReceived_of_ne hentry hne
    exact ⟨hkept, PendingTable.future_of_lookup hkept⟩
  | handleTimeouts now => exact sweepsDue v.table now

/-- Pings to two hosts; a packet comes from one of them and the other times out. -/
def pingTwoHosts : List Call :=
  [.pingAsync (.ofOctets 10 0 0 7) 0, .pingAsync (.ofOctets 10 0 0 8) 1000000,
    .onPacketReceived datagram, .handleTimeouts 6000000000]

theorem routesReplies_pingTwoHosts :
    ∃ final, exec (step Packet.parse) initial pingTwoHosts = some final ∧
      RoutesReplies (record (step Packet.parse) initial pingTwoHosts) final ∧
        ∀ x ∈ record (step Packet.parse) initial pingTwoHosts,
          LeavesOthers Packet.parse x.1 x.2 :=
  ⟨_, rfl, routesReplies_of_run Packet.parse _ _ (Run.of_exec rfl)⟩

end Scanner

end NetDiscovery.Net.IcmpScanner
