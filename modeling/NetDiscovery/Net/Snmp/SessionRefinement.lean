/-
# Whole calls as statements

The client of `SnmpClient` runs a call in one step, with an operation that the
session accepts. The session runs its three statements, with callbacks between
them. Every run of the client is one of the session in which each call runs
through and every operation is accepted. So what is found there is found here.
-/

import NetDiscovery.Net.Snmp.SessionCoherence

namespace NetDiscovery.Net.SnmpSession

open NetDiscovery.Semantics NetDiscovery.Util SnmpClient

variable {session t : SnmpSession} {client next : SnmpClient} {uuid : Uuid} {reason : Reason}
  {pdu : Pdu} {request : SnmpRequest} {outcome : Outcome}

/-- The session has this client, and what the client counts as an operation is one
that the session is going to answer. -/
structure Simulates (session : SnmpSession) (client : SnmpClient) : Prop where
  client_eq : session.client = client
  coherent : session.Coherent
  outstanding : ∀ uuid, client.operations uuid ≠ none → (session.tracks uuid).outstanding ≠ 0

theorem Simulates.initial : Simulates initial .initial :=
  ⟨rfl, .initial, fun _ h => absurd rfl h⟩

/-! ## Calls -/

theorem run_createRequest (call : Call) (host : IPv4Address)
    (hstage : (session.tracks uuid).stage = .createRequest) :
    Run step session [(session, .createRequest uuid call host)]
      (session.createRequest uuid call host) :=
  .single (by simp only [step, hstage])

theorem run_handOver {operation : Operation} (accepted : Bool)
    (hstage : (session.tracks uuid).stage = .handOver operation) :
    Run step session [(session, .handOver uuid accepted)]
      ((session.issue uuid operation accepted).advance uuid .takeFuture) :=
  .single (by simp only [step, hstage])

theorem run_takeFuture (hstage : (session.tracks uuid).stage = .takeFuture) :
    Run step session [(session, .takeFuture uuid)] (session.advance uuid
      (.returned (session.client.pendingRequests[uuid]?.map SnmpRequest.promise))) :=
  .single (by simp only [step, hstage])

/-- The three statements of a call, one after the other. -/
theorem run_call (call : Call) (host : IPv4Address)
    (hstage : (session.tracks uuid).stage = .createRequest) :
    ∃ trace t, Run step session trace t ∧
      t.client = (call.createRequest session.client uuid host).submit uuid call.operation ∧
      t.tracks = Function.update session.tracks uuid (t.tracks uuid) ∧
      (t.tracks uuid).outstanding = (session.tracks uuid).outstanding + 1 := by
  have created := run_createRequest call host hstage
  have hsecond : ((session.createRequest uuid call host).tracks uuid).stage =
      .handOver call.operation := by
    simp [createRequest]
  have handedOver := run_handOver true hsecond
  have hthird : ((((session.createRequest uuid call host).issue uuid call.operation true).advance
      uuid .takeFuture).tracks uuid).stage = .takeFuture := by
    simp [advance, setTrack]
  have taken := run_takeFuture hthird
  refine ⟨_, _, created.append (handedOver.append taken), rfl,
    ?_, ?_⟩
  · simp [advance, setTrack, issue, createRequest]
  · simp [advance, setTrack, issue, createRequest, Track.issue, Track.add]

theorem Simulates.call (simulates : Simulates session client) (call : Call) (host : IPv4Address)
    (hnew : client.futures uuid = none) :
    ∃ trace t, Run step session trace t ∧
      Simulates t ((call.createRequest client uuid host).submit uuid call.operation) := by
  obtain ⟨rfl, coherent, houtstanding⟩ := simulates
  have htrack := (coherent.new uuid hnew).1
  obtain ⟨trace, t, run, hclient, htracks, hone⟩ := run_call call host (congrArg Track.stage htrack)
  have hcoherent : t.Coherent := run.invariant coherent fun _ _ _ hv hstep => hv.step hstep
  refine ⟨trace, t, run, hclient, hcoherent, fun other hop => ?_⟩
  by_cases heq : other = uuid
  · subst heq
    omega
  · obtain ⟨request, opens⟩ := opens_callCreateRequest call session.client uuid host
    rw [opens.operations, Function.update_of_ne heq] at hop
    rw [htracks, Function.update_of_ne heq]
    exact houtstanding other hop

/-! ## Callbacks -/

theorem client_handleGet (hget : session.client.handleGet reason pdu request = some next) :
    (session.handleGet reason pdu request).client = next := by
  obtain ⟨resolved, hvalue, rfl⟩ : ∃ resolved,
      session.client.setValue request (getOutcome reason pdu request) = some resolved ∧
        resolved.erase request.uuid = next := by
    cases reason <;> exact Option.map_eq_some_iff.mp hget
  simp [handleGet, setValue, erase, hvalue]

theorem client_handleWalk (hwalk : session.client.handleWalk reason pdu request = some next) :
    (session.handleWalk reason pdu true request).client = next := by
  by_cases hreason : reason = .timeout
  · subst hreason
    have hvalue : session.client.setValue request (.error .timedOut) = some next := hwalk
    simp [handleWalk, setValue, hvalue]
  · cases hroot : request.walkOid with
    | none => cases reason <;> simp_all [SnmpClient.handleWalk]
    | some root =>
      cases hexit : walkPdu root request.response .default pdu with
      | resolve response outcome =>
        rw [SnmpClient.handleWalk_of_resolve hreason hroot hexit] at hwalk
        rw [handleWalk_of_resolve hreason hroot hexit]
        simp [setValue, store, hwalk]
      | again response vb =>
        rw [SnmpClient.handleWalk_of_again hreason hroot hexit] at hwalk
        rw [handleWalk_of_again hreason hroot hexit]
        exact Option.some.inj hwalk

/-- A callback does to the client what the client's own step does. -/
theorem client_callback (hcallback : session.client.callback uuid reason pdu = some next) :
    (session.callback uuid reason pdu true).client = next := by
  unfold SnmpClient.callback at hcallback
  split at hcallback
  · next operation request hoperation hrequest =>
    simp only [callback, hrequest]
    split_ifs at hcallback ⊢
    · exact client_handleWalk hcallback
    · exact client_handleGet hcallback
  · cases hcallback

theorem Coherent.uuid_eq (coherent : session.Coherent)
    (hrequest : session.client.pendingRequests[uuid]? = some request) : request.uuid = uuid := by
  cases hfuture : session.client.futures uuid with
  | none => cases hrequest.symm.trans (coherent.new uuid hfuture).2
  | some p =>
    obtain ⟨status, tracked⟩ := coherent.tracked uuid p hfuture
    exact (tracked.request request hrequest).1

theorem Simulates.callback (simulates : Simulates session client)
    (hcallback : client.callback uuid reason pdu = some next) :
    Run step session [(session, .callback uuid reason pdu true)]
        (session.callback uuid reason pdu true) ∧
      Simulates (session.callback uuid reason pdu true) next := by
  obtain ⟨rfl, coherent, houtstanding⟩ := simulates
  obtain ⟨operation, request, hoperation, hrequest, hclient⟩ :=
    SnmpClient.callback_cases (fun _ => coherent.uuid_eq) hcallback
  have hone : (session.tracks uuid).outstanding ≠ 0 :=
    houtstanding uuid (by simp [hoperation])
  obtain ⟨found, hfound, -, -, hsession⟩ := coherent.callback_cases reason pdu true hone
  obtain rfl := Option.some.inj (hrequest.symm.trans hfound)
  refine ⟨.single (if_neg hone), client_callback hcallback, coherent.callback hone,
    fun other hop => ?_⟩
  by_cases heq : other = uuid
  · subst heq
    rcases hclient with ⟨-, outcome, closes⟩ | ⟨-, -, -, response, outcome, continues⟩ |
      ⟨hwalk, hgoes, -⟩
    · rw [closes.operations, Function.update_self] at hop
      exact absurd rfl hop
    · rw [continues.operations, Function.update_self] at hop
      exact absurd rfl hop
    · -- the walk has issued its next operation
      rcases hsession with ⟨hget, -⟩ | ⟨-, hstops, -⟩ | ⟨-, -, root, response, vb, -, changes⟩
      · cases hget.symm.trans hwalk
      · exact absurd hgoes hstops
      · rw [changes.track_eq]
        exact Nat.succ_ne_zero _
  · have hoperations : next.operations other = session.client.operations other := by
      rcases hclient with ⟨-, outcome, closes⟩ | ⟨-, -, -, response, outcome, continues⟩ |
        ⟨-, -, response, vb, continues⟩
      · rw [closes.operations, Function.update_of_ne heq]
      · rw [continues.operations, Function.update_of_ne heq]
      · rw [continues.operations, Function.update_of_ne heq]
    have htracks : (session.callback uuid reason pdu true).tracks other = session.tracks other := by
      rcases hsession with ⟨-, outcome, changes⟩ | ⟨-, -, response, outcome, changes⟩ |
        ⟨-, -, root, response, vb, -, changes⟩
      · rw [changes.tracks, Function.update_of_ne heq]
      · rw [changes.tracks, Function.update_of_ne heq]
      · rw [changes.tracks, Function.update_of_ne heq]
    rw [htracks]
    exact houtstanding other (hoperations ▸ hop)

/-! ## Runs -/

/-- Every step of the client is a run of the session. -/
theorem Simulates.step {a : SnmpClient.Label} (simulates : Simulates session client)
    (hstep : client.step a = some next) :
    ∃ trace t, Run step session trace t ∧ Simulates t next := by
  cases a with
  | get uuid oids host =>
    simp only [SnmpClient.step] at hstep
    split_ifs at hstep with hnew
    obtain rfl := Option.some.inj hstep
    exact simulates.call (.get oids) host hnew
  | getBulk uuid oids host nonRepeaters maxReps =>
    simp only [SnmpClient.step] at hstep
    split_ifs at hstep with hnew
    obtain rfl := Option.some.inj hstep
    exact simulates.call (.getBulk oids nonRepeaters maxReps) host hnew
  | walk uuid oid host =>
    simp only [SnmpClient.step] at hstep
    split_ifs at hstep with hnew
    obtain rfl := Option.some.inj hstep
    exact simulates.call (.walk oid) host hnew
  | callback uuid reason pdu =>
    obtain ⟨run, hnext⟩ := simulates.callback hstep
    exact ⟨_, _, run, hnext⟩

/-- **Every client that is reached by whole calls and callbacks is the client of a
session.** -/
theorem exists_run_of_client {trace : List (SnmpClient × SnmpClient.Label)}
    (run : Run SnmpClient.step .initial trace client) :
    ∃ trace' session, Run step initial trace' session ∧ session.client = client := by
  obtain ⟨trace', session, run', simulates⟩ := run.simulate Simulates.initial
    fun _ _ _ _ simulates hstep => simulates.step hstep
  exact ⟨trace', session, run', simulates.client_eq⟩

end NetDiscovery.Net.SnmpSession
