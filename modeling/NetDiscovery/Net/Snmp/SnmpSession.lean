/-
# The SNMP client and its session

A call of the client is made of three statements: create the request, hand its
operation to the session, take the future of its promise. The poll thread of the
session calls back in between, at any time after the hand-over, once for each
operation that the session accepted. A refused operation gets no callback, and
the client does not look at the return code.

Beside the client, a session keeps a track of each request: the next statement
of its call, the number of accepted operations without a callback, and what has
happened to it so far.
-/

import NetDiscovery.Net.Snmp.SnmpClient
import NetDiscovery.Semantics.RequestLife

namespace NetDiscovery.Net

open NetDiscovery.Semantics NetDiscovery.Util

namespace SnmpSession

open SnmpClient

/-- A call of `getAsync`, `getBulkAsync` or `walkAsync`. -/
inductive Call
  | get (oids : List Oid)
  | getBulk (oids : List Oid) (nonRepeaters maxReps : ℤ)
  | walk (oid : Oid)

/-- The operation that a call hands to the session. -/
def Call.operation : Call → Operation
  | .get oids => .get oids
  | .getBulk oids nonRepeaters maxReps => .getBulk oids nonRepeaters maxReps
  | .walk oid => .getBulk [oid] 0 10

/-- `createRequest`; `walkAsync` then marks the request. -/
def Call.createRequest (call : Call) (client : SnmpClient) (uuid : Uuid) (host : IPv4Address) :
    SnmpClient :=
  match call with
  | .get _ | .getBulk _ _ _ => (client.createRequest uuid host).1
  | .walk oid =>
    let (client, request) := client.createRequest uuid host
    client.store { request with isWalk := true, walkOid := some oid }

/-- The next statement of a call. -/
inductive Stage
  /-- there is no call with this identifier yet -/
  | createRequest
  | handOver (operation : Operation)
  | takeFuture
  /-- the call has returned its future, if the request was still there -/
  | returned (future : Option ℕ)

/-- The operation has been handed to the session. -/
def Stage.Sent : Stage → Prop
  | .takeFuture | .returned _ => True
  | _ => False

/-- One request, as its caller and the session see it. -/
structure Track where
  stage : Stage
  outstanding : ℕ
  history : List (RequestEvent Operation Outcome)

namespace Track

/-- No call yet. -/
def new : Track where
  stage := .createRequest
  outstanding := 0
  history := []

/-- One event more. -/
def add (track : Track) (event : RequestEvent Operation Outcome) : Track :=
  { track with history := track.history ++ [event] }

/-- An accepted operation is outstanding. -/
def issue (track : Track) (operation : Operation) (accepted : Bool) : Track :=
  { track.add (.issue operation accepted) with
    outstanding := if accepted then track.outstanding + 1 else track.outstanding }

/-- The callback to an outstanding operation. -/
def deliver (track : Track) : Track :=
  { track.add .deliver with outstanding := track.outstanding - 1 }

end Track

end SnmpSession

open SnmpClient SnmpSession

/-- The client together with the tracks of its requests. -/
structure SnmpSession where
  client : SnmpClient
  tracks : Uuid → Track

namespace SnmpSession

/-- A new client. -/
def initial : SnmpSession where
  client := .initial
  tracks _ := .new

variable (session : SnmpSession)

/-- Change the track of one request. -/
def setTrack (uuid : Uuid) (track : Track) : SnmpSession :=
  { session with tracks := Function.update session.tracks uuid track }

/-- A call is past its last statement and before `stage`. -/
def advance (uuid : Uuid) (stage : Stage) : SnmpSession :=
  session.setTrack uuid { session.tracks uuid with stage := stage }

/-- The first statement of a call. -/
def createRequest (uuid : Uuid) (call : Call) (host : IPv4Address) : SnmpSession where
  client := call.createRequest session.client uuid host
  tracks := Function.update session.tracks uuid
    { session.tracks uuid with stage := .handOver call.operation }

/-- `m_snmp->get` or `get_bulk`. The client does not look at the return code. -/
def issue (uuid : Uuid) (operation : Operation) (accepted : Bool) : SnmpSession where
  client := if accepted then session.client.submit uuid operation else session.client
  tracks := Function.update session.tracks uuid ((session.tracks uuid).issue operation accepted)

/-- `request->promise.set_value`; a second value is not stored. -/
def setValue (request : SnmpRequest) (outcome : Outcome) : SnmpSession where
  client := (session.client.setValue request outcome).getD session.client
  tracks := Function.update session.tracks request.uuid
    ((session.tracks request.uuid).add (.setValue outcome))

/-- `m_pendingRequests.erase`. -/
def erase (uuid : Uuid) : SnmpSession where
  client := session.client.erase uuid
  tracks := Function.update session.tracks uuid ((session.tracks uuid).add .erase)

/-- Keep what a request has collected. -/
def store (request : SnmpRequest) : SnmpSession :=
  { session with client := session.client.store request }

/-- What `handleGet` stores in the promise. -/
def getOutcome (reason : Reason) (pdu : Pdu) (request : SnmpRequest) : Outcome :=
  match reason with
  | .asyncResponse => .ok (readVariables request pdu)
  | .timeout => .error .timedOut
  | .other _ => .error .unknown

/-- `SnmpClient::handleGet`; the deferred erase comes last. -/
def handleGet (reason : Reason) (pdu : Pdu) (request : SnmpRequest) : SnmpSession :=
  (session.setValue request (getOutcome reason pdu request)).erase request.uuid

/-- `SnmpClient::handleWalk`. The session accepts the next operation, or not. -/
def handleWalk (reason : Reason) (pdu : Pdu) (accepted : Bool) (request : SnmpRequest) :
    SnmpSession :=
  match reason, request.walkOid with
  | .timeout, _ => session.setValue request (.error .timedOut)
  | _, none => session
  | _, some root =>
    match walkPdu root request.response .default pdu with
    | .resolve response outcome =>
      (session.store { request with response := response }).setValue request outcome
    | .again response nextVb =>
      (session.store { request with response := response }).issue request.uuid
        (.getBulk [nextVb.oid] 0 10) accepted

/-- An operation of a request has been answered. -/
def deliver (uuid : Uuid) : SnmpSession where
  client := session.client.answered uuid
  tracks := Function.update session.tracks uuid (session.tracks uuid).deliver

/-- `SnmpClient::callback`. Nothing else is said of a callback whose request is
not in the map any more. -/
def callback (uuid : Uuid) (reason : Reason) (pdu : Pdu) (accepted : Bool) : SnmpSession :=
  match session.client.pendingRequests[uuid]? with
  | some request =>
    if request.isWalk then (session.deliver uuid).handleWalk reason pdu accepted request
    else (session.deliver uuid).handleGet reason pdu request
  | none => session.deliver uuid

/-- The statements of the calls, each with the identifier of its request, and
the callbacks. The session accepts the operation issued in a step, or not. -/
inductive Label
  | createRequest (uuid : Uuid) (call : Call) (host : IPv4Address)
  | handOver (uuid : Uuid) (accepted : Bool)
  | takeFuture (uuid : Uuid)
  | callback (uuid : Uuid) (reason : Reason) (pdu : Pdu) (accepted : Bool)

/-- One statement of a call or one callback. -/
def step (session : SnmpSession) : Label → Option SnmpSession
  | .createRequest uuid call host =>
    match (session.tracks uuid).stage with
    | .createRequest => some (session.createRequest uuid call host)
    | _ => none
  | .handOver uuid accepted =>
    match (session.tracks uuid).stage with
    | .handOver operation => some ((session.issue uuid operation accepted).advance uuid .takeFuture)
    | _ => none
  | .takeFuture uuid =>
    match (session.tracks uuid).stage with
    | .takeFuture => some (session.advance uuid
        (.returned (session.client.pendingRequests[uuid]?.map SnmpRequest.promise)))
    | _ => none
  | .callback uuid reason pdu accepted =>
    if (session.tracks uuid).outstanding = 0 then none
    else some (session.callback uuid reason pdu accepted)

/-! ## What a step changes -/

variable {session} {t : SnmpSession} {uuid other : Uuid} {p : ℕ} {track : Track}
  {cell : SharedState Outcome} {request : SnmpRequest} {found : Option SnmpRequest}
  {outcome : Outcome} {operation : Operation} {reason : Reason} {pdu : Pdu} {accepted : Bool}
  {root : Oid} {response : SnmpResponse} {vb : Vb} {status : RequestStatus} {stage : Stage}
  {host : IPv4Address} {call : Call} {a : Label}

/-- The effect of a statement or callback on the request with promise `p`: its
place in the map, the cell of its promise and its track. -/
structure Changes (session : SnmpSession) (uuid : Uuid) (p : ℕ) (found : Option SnmpRequest)
    (cell : SharedState Outcome) (track : Track) (t : SnmpSession) : Prop where
  requests : ∀ other, t.client.pendingRequests[other]? =
    if uuid = other then found else session.client.pendingRequests[other]?
  next : t.client.promises.next = session.client.promises.next
  cell_eq : t.client.promises.cell = Function.update session.client.promises.cell p cell
  futures : t.client.futures = session.client.futures
  tracks : t.tracks = Function.update session.tracks uuid track

/-- The client after `createRequest`: one request more, with a new promise. -/
theorem opens_callCreateRequest (call : Call) (client : SnmpClient) (uuid : Uuid)
    (host : IPv4Address) :
    ∃ request, client.Opens uuid request call.operation
      ((call.createRequest client uuid host).submit uuid call.operation) := by
  cases call with
  | get _ | getBulk _ _ _ => exact ⟨_, opens_createRequest client uuid host _⟩
  | walk oid => exact ⟨_, opens_walkAsync client uuid oid host⟩

/-- A new request leaves the others alone. -/
theorem createRequest_of_ne (session : SnmpSession) (call : Call) (host : IPv4Address)
    (hne : other ≠ uuid) :
    (session.createRequest uuid call host).client.futures other = session.client.futures other ∧
      (session.createRequest uuid call host).client.pendingRequests[other]? =
        session.client.pendingRequests[other]? ∧
      (session.createRequest uuid call host).tracks other = session.tracks other := by
  obtain ⟨request, opens⟩ := opens_callCreateRequest call session.client uuid host
  refine ⟨?_, (opens.requests other).trans (if_neg hne.symm), Function.update_of_ne hne _ _⟩
  exact (congrFun opens.futures other).trans (Function.update_of_ne hne _ _)

theorem changes_advance (session : SnmpSession) (uuid : Uuid) (p : ℕ) (stage : Stage) :
    session.Changes uuid p session.client.pendingRequests[uuid]? (session.client.promises.cell p)
      { session.tracks uuid with stage := stage } (session.advance uuid stage) where
  requests other := by
    split_ifs with heq
    · exact heq ▸ rfl
    · rfl
  next := rfl
  cell_eq := (Function.update_eq_self _ _).symm
  futures := rfl
  tracks := rfl

theorem changes_issue (session : SnmpSession) (uuid : Uuid) (p : ℕ) (operation : Operation)
    (accepted : Bool) :
    session.Changes uuid p session.client.pendingRequests[uuid]? (session.client.promises.cell p)
      ((session.tracks uuid).issue operation accepted)
      (session.issue uuid operation accepted) where
  requests other := by
    split_ifs with heq <;> cases accepted <;> simp [issue, submit, heq]
  next := by cases accepted <;> rfl
  cell_eq := by cases accepted <;> exact (Function.update_eq_self _ _).symm
  futures := by cases accepted <;> rfl
  tracks := rfl

theorem changes_deliver (session : SnmpSession) (uuid : Uuid) (p : ℕ) :
    session.Changes uuid p session.client.pendingRequests[uuid]? (session.client.promises.cell p)
      (session.tracks uuid).deliver (session.deliver uuid) where
  requests other := by
    split_ifs with heq
    · exact heq ▸ rfl
    · rfl
  next := rfl
  cell_eq := (Function.update_eq_self _ _).symm
  futures := rfl
  tracks := rfl

theorem changes_store (session : SnmpSession) (p : ℕ) (request : SnmpRequest) :
    session.Changes request.uuid p (some request) (session.client.promises.cell p)
      (session.tracks request.uuid) (session.store request) where
  requests _ := getElem?_store
  next := rfl
  cell_eq := (Function.update_eq_self _ _).symm
  futures := rfl
  tracks := (Function.update_eq_self _ _).symm

theorem changes_setValue (session : SnmpSession) (request : SnmpRequest)
    (hunset : session.client.promises.cell request.promise = .unset) (outcome : Outcome) :
    session.Changes request.uuid request.promise session.client.pendingRequests[request.uuid]?
      (.value outcome) ((session.tracks request.uuid).add (.setValue outcome))
      (session.setValue request outcome) := by
  unfold setValue
  rw [SnmpClient.setValue_of_unset hunset, Option.getD_some]
  refine ⟨fun other => ?_, rfl, rfl, rfl, rfl⟩
  split_ifs with heq
  · exact heq ▸ rfl
  · rfl

theorem changes_erase (hrequest : session.client.pendingRequests[uuid]? = some request)
    (hvalue : session.client.promises.cell request.promise = .value outcome) :
    session.Changes uuid request.promise none (.value outcome) ((session.tracks uuid).add .erase)
      (session.erase uuid) := by
  unfold erase
  rw [SnmpClient.erase_of_value hrequest hvalue]
  refine ⟨fun other => ?_, rfl, ?_, rfl, rfl⟩
  · simp [Std.ExtTreeMap.getElem?_erase]
  · rw [← hvalue, Function.update_eq_self]

/-- Effects on one request compose; the second sees what the first has left. -/
theorem Changes.trans {u : SnmpSession} {cell' : SharedState Outcome} {found' : Option SnmpRequest}
    {track' : Track} (first : session.Changes uuid p found cell track t)
    (second : t.Changes uuid p found' cell' track' u) :
    session.Changes uuid p found' cell' track' u where
  requests other := by
    rw [second.requests]
    split_ifs with heq
    · rfl
    · rw [first.requests, if_neg heq]
  next := second.next.trans first.next
  cell_eq := by rw [second.cell_eq, first.cell_eq, Function.update_idem]
  futures := second.futures.trans first.futures
  tracks := by rw [second.tracks, first.tracks, Function.update_idem]

theorem Changes.found_eq (changes : session.Changes uuid p found cell track t) :
    t.client.pendingRequests[uuid]? = found :=
  (changes.requests uuid).trans (if_pos rfl)

theorem Changes.cell_self (changes : session.Changes uuid p found cell track t) :
    t.client.promises.cell p = cell := by
  rw [changes.cell_eq, Function.update_self]

theorem Changes.track_eq (changes : session.Changes uuid p found cell track t) :
    t.tracks uuid = track := by
  rw [changes.tracks, Function.update_self]

/-- Handing over an operation, which may be refused, changes nothing but the track. -/
theorem changes_handOver (session : SnmpSession) (uuid : Uuid) (p : ℕ) (operation : Operation)
    (accepted : Bool) :
    session.Changes uuid p session.client.pendingRequests[uuid]? (session.client.promises.cell p)
      { (session.tracks uuid).issue operation accepted with stage := .takeFuture }
      ((session.issue uuid operation accepted).advance uuid .takeFuture) := by
  have issued := changes_issue session uuid p operation accepted
  have advanced := issued.trans (changes_advance (session.issue uuid operation accepted) uuid p
    .takeFuture)
  rwa [issued.track_eq, issued.found_eq, issued.cell_self] at advanced

/-! ## What a callback changes -/

theorem handleWalk_of_resolve (hreason : reason ≠ .timeout) (hroot : request.walkOid = some root)
    (hexit : walkPdu root request.response .default pdu = .resolve response outcome) :
    session.handleWalk reason pdu accepted request =
      (session.store { request with response := response }).setValue request outcome := by
  cases reason with
  | timeout => exact absurd rfl hreason
  | asyncResponse | other => simp only [handleWalk, hroot, hexit]

theorem handleWalk_of_again (hreason : reason ≠ .timeout) (hroot : request.walkOid = some root)
    (hexit : walkPdu root request.response .default pdu = .again response vb) :
    session.handleWalk reason pdu accepted request =
      (session.store { request with response := response }).issue request.uuid
        (.getBulk [vb.oid] 0 10) accepted := by
  cases reason with
  | timeout => exact absurd rfl hreason
  | asyncResponse | other => simp only [handleWalk, hroot, hexit]

/-- The callback of a `get` or `getBulk` resolves the request and erases it. -/
theorem changes_callback_get (hrequest : session.client.pendingRequests[uuid]? = some request)
    (huuid : request.uuid = uuid) (hget : request.isWalk = false)
    (hunset : session.client.promises.cell request.promise = .unset) :
    session.Changes uuid request.promise none (.value (getOutcome reason pdu request))
      (((session.tracks uuid).deliver.add (.setValue (getOutcome reason pdu request))).add .erase)
      (session.callback uuid reason pdu accepted) := by
  subst huuid
  have hcallback : session.callback request.uuid reason pdu accepted =
      (session.deliver request.uuid).handleGet reason pdu request := by
    simp [callback, hrequest, hget]
  rw [hcallback, handleGet]
  have delivered := changes_deliver session request.uuid request.promise
  have resolved := delivered.trans
    (changes_setValue (session.deliver request.uuid) request hunset
      (getOutcome reason pdu request))
  have erased := resolved.trans
    (changes_erase (resolved.found_eq.trans hrequest) resolved.cell_self)
  rwa [resolved.track_eq, delivered.track_eq] at erased

/-- The callback of a walk that leaves the loop with an outcome resolves the request and
leaves it in the map. -/
theorem changes_callback_resolve
    (hrequest : session.client.pendingRequests[uuid]? = some request)
    (huuid : request.uuid = uuid) (hwalk : request.isWalk = true)
    (hroot : request.walkOid = some root)
    (hunset : session.client.promises.cell request.promise = .unset) (hreason : reason ≠ .timeout)
    (hexit : walkPdu root request.response .default pdu = .resolve response outcome) :
    session.Changes uuid request.promise (some { request with response := response })
      (.value outcome) ((session.tracks uuid).deliver.add (.setValue outcome))
      (session.callback uuid reason pdu accepted) := by
  subst huuid
  have hcallback : session.callback request.uuid reason pdu accepted =
      (session.deliver request.uuid).handleWalk reason pdu accepted request := by
    simp [callback, hrequest, hwalk]
  rw [hcallback, handleWalk_of_resolve hreason hroot hexit]
  have delivered := changes_deliver session request.uuid request.promise
  have kept := delivered.trans (changes_store (session.deliver request.uuid) request.promise
    { request with response := response })
  have resolved := kept.trans (changes_setValue _ request (kept.cell_self.trans hunset) outcome)
  rwa [kept.track_eq, kept.found_eq, delivered.track_eq] at resolved

/-- So does a timeout, with an error. -/
theorem changes_callback_timeout
    (hrequest : session.client.pendingRequests[uuid]? = some request)
    (huuid : request.uuid = uuid) (hwalk : request.isWalk = true)
    (hunset : session.client.promises.cell request.promise = .unset) :
    session.Changes uuid request.promise (some request) (.value (.error .timedOut))
      ((session.tracks uuid).deliver.add (.setValue (.error .timedOut)))
      (session.callback uuid .timeout pdu accepted) := by
  subst huuid
  have hcallback : session.callback request.uuid .timeout pdu accepted =
      (session.deliver request.uuid).handleWalk .timeout pdu accepted request := by
    simp [callback, hrequest, hwalk]
  rw [hcallback]
  have delivered := changes_deliver session request.uuid request.promise
  have resolved := delivered.trans
    (changes_setValue (session.deliver request.uuid) request hunset (.error .timedOut))
  rwa [delivered.track_eq, delivered.found_eq, hrequest] at resolved

/-- These are the callbacks with which a walk does not go on. -/
theorem changes_callback_stop (hrequest : session.client.pendingRequests[uuid]? = some request)
    (huuid : request.uuid = uuid) (hwalk : request.isWalk = true)
    (hroot : ∃ root, request.walkOid = some root)
    (hunset : session.client.promises.cell request.promise = .unset)
    (hstops : ¬ WalkGoesOn request reason pdu) :
    ∃ response outcome, session.Changes uuid request.promise
      (some { request with response := response }) (.value outcome)
      ((session.tracks uuid).deliver.add (.setValue outcome))
      (session.callback uuid reason pdu accepted) := by
  obtain ⟨root, hroot⟩ := hroot
  by_cases hreason : reason = .timeout
  · subst hreason
    exact ⟨request.response, _, changes_callback_timeout hrequest huuid hwalk hunset⟩
  · cases hexit : walkPdu root request.response .default pdu with
    | again response vb =>
      refine absurd ⟨hreason, fun other hother => ?_⟩ hstops
      obtain rfl := Option.some.inj (hroot.symm.trans hother)
      exact walkPdu_eq_again_iff.mp ⟨_, _, hexit⟩
    | resolve response outcome =>
      exact ⟨response, outcome,
        changes_callback_resolve hrequest huuid hwalk hroot hunset hreason hexit⟩

/-- The callback of a walk that goes on issues the next operation. -/
theorem changes_callback_again (hrequest : session.client.pendingRequests[uuid]? = some request)
    (huuid : request.uuid = uuid) (hwalk : request.isWalk = true)
    (hroot : request.walkOid = some root) (hgoes : WalkGoesOn request reason pdu) :
    ∃ (response : SnmpResponse) (nextVb : Vb),
      walkPdu root request.response .default pdu = .again response nextVb ∧
      session.Changes uuid request.promise (some { request with response := response })
        (session.client.promises.cell request.promise)
        ((session.tracks uuid).deliver.issue (.getBulk [nextVb.oid] 0 10) accepted)
        (session.callback uuid reason pdu accepted) := by
  subst huuid
  have hcallback : session.callback request.uuid reason pdu accepted =
      (session.deliver request.uuid).handleWalk reason pdu accepted request := by
    simp [callback, hrequest, hwalk]
  obtain ⟨response, nextVb, hexit⟩ := walkPdu_eq_again_iff.mpr (hgoes.2 root hroot)
  rw [hcallback, handleWalk_of_again hgoes.1 hroot hexit]
  have delivered := changes_deliver session request.uuid request.promise
  have kept := delivered.trans (changes_store (session.deliver request.uuid) request.promise
    { request with response := response })
  have issued := kept.trans (changes_issue ((session.deliver request.uuid).store
    { request with response := response }) request.uuid request.promise
    (.getBulk [nextVb.oid] 0 10) accepted)
  rw [kept.track_eq, kept.found_eq, kept.cell_self, delivered.track_eq] at issued
  exact ⟨response, nextVb, hexit, issued⟩

end SnmpSession

end NetDiscovery.Net
