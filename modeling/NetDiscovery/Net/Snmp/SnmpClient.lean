/-
# The SNMP client

Each call makes a request, keeps it under a new identifier and hands the SNMP
library an operation. The library answers an operation by one callback, with a
reason and a response. The callback of a `get` or `getBulk` resolves the request
and erases it. The callback of a walk resolves the request, or asks for the next
bindings and waits for the next callback.

The client's state keeps the requests by their identifiers, the promises they
hold and the operations that have not been answered. Callbacks may arrive in any
order.
-/

import NetDiscovery.Net.Snmp.Oid
import NetDiscovery.Semantics.Promise
import NetDiscovery.Semantics.Run

namespace NetDiscovery.Net

open NetDiscovery.Semantics NetDiscovery.Util

/-- `net::SnmpResponse`; `varBinds` is its field `variables`. -/
structure SnmpResponse where
  host : IPv4Address
  varBinds : List VarBind

/-- `SnmpResponse{}`. -/
def SnmpResponse.empty : SnmpResponse where
  host := .ofOctets 0 0 0 0
  varBinds := []

/-- `response.variables.push_back`. -/
def SnmpResponse.push (response : SnmpResponse) (vb : Vb) : SnmpResponse :=
  { response with varBinds := response.varBinds ++ [vb.toVarBind] }

namespace SnmpClient

/-- A generated identifier, `util::Uuid`. -/
abbrev Uuid := ℕ

/-- What a request is resolved with. -/
abbrev Outcome := Result ErrorType SnmpResponse

/-- `SnmpClient::SnmpRequest`; the promise is named by its number. -/
structure SnmpRequest where
  uuid : Uuid
  host : IPv4Address
  promise : ℕ
  response : SnmpResponse
  isWalk : Bool
  walkOid : Option Oid

/-- An operation handed to the SNMP library: the names asked for, and the
non-repeaters and max-repetitions of a GETBULK. -/
inductive Operation
  | get (oids : List Oid)
  | getBulk (oids : List Oid) (nonRepeaters maxReps : ℤ)

/-- Why a callback is made. -/
inductive Reason
  /-- `SNMP_CLASS_ASYNC_RESPONSE` -/
  | asyncResponse
  /-- `SNMP_CLASS_TIMEOUT` -/
  | timeout
  | other (code : ℤ)
  deriving DecidableEq

/-- The bindings of a response, `Snmp_pp::Pdu`. -/
abbrev Pdu := List Vb

end SnmpClient

open SnmpClient

/-- `net::SnmpClient`: the pending requests and their promises, the operations
without an answer, and the promise behind the future each call returned. -/
structure SnmpClient where
  pendingRequests : Std.ExtTreeMap Uuid SnmpRequest compare
  promises : PromiseStore Outcome
  operations : Uuid → Option Operation
  futures : Uuid → Option ℕ

namespace SnmpClient

/-- A new client. -/
def initial : SnmpClient where
  pendingRequests := ∅
  promises := .empty
  operations _ := none
  futures _ := none

variable (client : SnmpClient)

/-- Write a request back to its place in the map. -/
def store (request : SnmpRequest) : SnmpClient :=
  { client with pendingRequests := client.pendingRequests.insert request.uuid request }

/-- Hand an operation of a request to the SNMP library. -/
def submit (uuid : Uuid) (operation : Operation) : SnmpClient :=
  { client with operations := Function.update client.operations uuid (some operation) }

/-- `request->promise.set_value`, which throws if a value is stored already. -/
def setValue (request : SnmpRequest) (outcome : Outcome) : Option SnmpClient :=
  (client.promises.setValue request.promise outcome).map fun promises =>
    { client with promises := promises }

/-- `m_pendingRequests.erase`; the promise goes with the request. -/
def erase (uuid : Uuid) : SnmpClient :=
  match client.pendingRequests[uuid]? with
  | some request => { client with
      pendingRequests := client.pendingRequests.erase uuid
      promises := client.promises.abandon request.promise }
  | none => client

/-- `SnmpClient::createRequest`, and the future of the new request. -/
def createRequest (uuid : Uuid) (host : IPv4Address) : SnmpClient × SnmpRequest :=
  let request : SnmpRequest := {
    uuid := uuid
    host := host
    promise := client.promises.next
    response := .empty
    isWalk := false
    walkOid := none }
  ({ client.store request with
    promises := client.promises.create
    futures := Function.update client.futures uuid (some client.promises.next) }, request)

/-- `SnmpClient::getAsync`. -/
def getAsync (uuid : Uuid) (oids : List Oid) (host : IPv4Address) : SnmpClient :=
  (client.createRequest uuid host).1.submit uuid (.get oids)

/-- `SnmpClient::getBulkAsync`. -/
def getBulkAsync (uuid : Uuid) (oids : List Oid) (host : IPv4Address)
    (nonRepeaters maxReps : ℤ) : SnmpClient :=
  (client.createRequest uuid host).1.submit uuid (.getBulk oids nonRepeaters maxReps)

/-- `SnmpClient::walkAsync`. -/
def walkAsync (uuid : Uuid) (oid : Oid) (host : IPv4Address) : SnmpClient :=
  let (client, request) := client.createRequest uuid host
  (client.store { request with isWalk := true, walkOid := some oid }).submit uuid
    (.getBulk [oid] 0 10)

/-- The response of `handleGet`: every valid binding, and the host. -/
def readVariables (request : SnmpRequest) (pdu : Pdu) : SnmpResponse :=
  pdu.foldl
    (fun response vb =>
      if vb.valid then { response with host := request.host }.push vb
      else { response with host := request.host })
    request.response

/-- `SnmpClient::handleGet`; the deferred erase comes last. -/
def handleGet (reason : Reason) (pdu : Pdu) (request : SnmpRequest) : Option SnmpClient :=
  let resolved := match reason with
    | .asyncResponse => client.setValue request (.ok (readVariables request pdu))
    | .timeout => client.setValue request (.error .timedOut)
    | .other _ => client.setValue request (.error .unknown)
  resolved.map fun client => client.erase request.uuid

/-- How the loop of `handleWalk` over the bindings of a response ends: with an
outcome, or past the last binding. Both keep the response collected so far. -/
inductive WalkExit
  | resolve (response : SnmpResponse) (outcome : Outcome)
  | again (response : SnmpResponse) (nextVb : Vb)

/-- The loop of `handleWalk`. `nextVb` is the binding read last. -/
def walkPdu (root : Oid) : SnmpResponse → Vb → Pdu → WalkExit
  | response, nextVb, [] => .again response nextVb
  | response, _, vb :: pdu =>
    -- the subtree has been left
    if root.nCompare root.length vb.oid ≠ 0 then .resolve response (.ok response)
    else if vb.value ≠ .endOfMibView then walkPdu root (response.push vb) vb pdu
    else .resolve response (.error .timedOut)

/-- `SnmpClient::handleWalk`. A walk always has its `walkOid`. -/
def handleWalk (reason : Reason) (pdu : Pdu) (request : SnmpRequest) : Option SnmpClient :=
  match reason, request.walkOid with
  | .timeout, _ => client.setValue request (.error .timedOut)
  | _, none => none
  | _, some root =>
    match walkPdu root request.response .default pdu with
    | .resolve response outcome =>
      (client.store { request with response := response }).setValue request outcome
    | .again response nextVb =>
      some ((client.store { request with response := response }).submit request.uuid
        (.getBulk [nextVb.oid] 0 10))

/-- The operation of a request has got its answer. -/
def answered (uuid : Uuid) : SnmpClient :=
  { client with operations := Function.update client.operations uuid none }

/-- `SnmpClient::callback`, the answer to the operation of a request. -/
def callback (uuid : Uuid) (reason : Reason) (pdu : Pdu) : Option SnmpClient :=
  match client.operations uuid, client.pendingRequests[uuid]? with
  | some _, some request =>
    if request.isWalk then (client.answered uuid).handleWalk reason pdu request
    else (client.answered uuid).handleGet reason pdu request
  | _, _ => none

/-- The calls and callbacks of a client. A call generates a new identifier. -/
inductive Label
  | get (uuid : Uuid) (oids : List Oid) (host : IPv4Address)
  | getBulk (uuid : Uuid) (oids : List Oid) (host : IPv4Address) (nonRepeaters maxReps : ℤ)
  | walk (uuid : Uuid) (oid : Oid) (host : IPv4Address)
  | callback (uuid : Uuid) (reason : Reason) (pdu : Pdu)

/-- One call or callback. -/
def step (client : SnmpClient) : Label → Option SnmpClient
  | .get uuid oids host =>
    if client.futures uuid = none then some (client.getAsync uuid oids host) else none
  | .getBulk uuid oids host nonRepeaters maxReps =>
    if client.futures uuid = none then
      some (client.getBulkAsync uuid oids host nonRepeaters maxReps)
    else none
  | .walk uuid oid host =>
    if client.futures uuid = none then some (client.walkAsync uuid oid host) else none
  | .callback uuid reason pdu => client.callback uuid reason pdu

/-! ## What each operation does -/

variable {client} {t : SnmpClient} {uuid other : Uuid} {p : ℕ} {request : SnmpRequest}
  {outcome : Outcome} {operation : Operation} {reason : Reason} {pdu : Pdu} {host : IPv4Address}
  {root : Oid} {response : SnmpResponse} {vb last : Vb}

theorem getElem?_store : (client.store request).pendingRequests[other]? =
    if request.uuid = other then some request else client.pendingRequests[other]? := by
  simp [store, Std.ExtTreeMap.getElem?_insert]

theorem setValue_eq_some (hvalue : client.setValue request outcome = some t) :
    client.promises.cell request.promise = .unset ∧ t = { client with
      promises := { client.promises with
        cell := Function.update client.promises.cell request.promise (.value outcome) } } := by
  obtain ⟨promises, hpromises, rfl⟩ := Option.map_eq_some_iff.mp hvalue
  obtain ⟨hunset, rfl⟩ := PromiseStore.setValue_eq_some_iff.mp hpromises
  exact ⟨hunset, rfl⟩

theorem setValue_of_unset (hunset : client.promises.cell request.promise = .unset) :
    client.setValue request outcome = some { client with
      promises := { client.promises with
        cell := Function.update client.promises.cell request.promise (.value outcome) } } := by
  rw [setValue, PromiseStore.setValue_of_unset hunset, Option.map_some]

/-- The effect of a call: one request more, with a new promise and an operation. -/
structure Opens (client : SnmpClient) (uuid : Uuid) (request : SnmpRequest)
    (operation : Operation) (t : SnmpClient) : Prop where
  uuid_eq : request.uuid = uuid
  promise_eq : request.promise = client.promises.next
  walk_oid : request.isWalk = true → ∃ root, request.walkOid = some root
  requests : ∀ other, t.pendingRequests[other]? =
    if uuid = other then some request else client.pendingRequests[other]?
  promises : t.promises = client.promises.create
  operations : t.operations = Function.update client.operations uuid (some operation)
  futures : t.futures = Function.update client.futures uuid (some client.promises.next)

theorem opens_createRequest (client : SnmpClient) (uuid : Uuid) (host : IPv4Address)
    (operation : Operation) : client.Opens uuid (client.createRequest uuid host).2 operation
      ((client.createRequest uuid host).1.submit uuid operation) where
  uuid_eq := rfl
  promise_eq := rfl
  walk_oid hwalk := by cases hwalk
  requests _ := getElem?_store
  promises := rfl
  operations := rfl
  futures := rfl

theorem opens_walkAsync (client : SnmpClient) (uuid : Uuid) (root : Oid) (host : IPv4Address) :
    client.Opens uuid
      { (client.createRequest uuid host).2 with isWalk := true, walkOid := some root }
      (.getBulk [root] 0 10) (client.walkAsync uuid root host) where
  uuid_eq := rfl
  promise_eq := rfl
  walk_oid _ := ⟨root, rfl⟩
  requests other := by
    refine getElem?_store.trans ?_
    split_ifs with heq
    · rfl
    · exact getElem?_store.trans (if_neg heq)
  promises := rfl
  operations := rfl
  futures := rfl

/-- The promise of a call is new; the other calls keep theirs. -/
theorem Opens.future_cases (opens : client.Opens uuid request operation t)
    (hfuture : t.futures other = some p) :
    (other = uuid ∧ p = client.promises.next) ∨ (other ≠ uuid ∧ client.futures other = some p) := by
  rw [opens.futures] at hfuture
  by_cases heq : other = uuid
  · subst heq
    exact .inl ⟨rfl, by simpa using hfuture.symm⟩
  · exact .inr ⟨heq, (Function.update_of_ne heq _ _).symm.trans hfuture⟩

/-- The request of a call is new; the others are as they were. -/
theorem Opens.request_cases (opens : client.Opens uuid request operation t)
    {found : SnmpRequest} (hfound : t.pendingRequests[other]? = some found) :
    (other = uuid ∧ found = request) ∨
      (other ≠ uuid ∧ client.pendingRequests[other]? = some found) := by
  rw [opens.requests] at hfound
  split_ifs at hfound with heq
  · exact .inl ⟨heq.symm, (Option.some.inj hfound).symm⟩
  · exact .inr ⟨Ne.symm heq, hfound⟩

/-- The effect of the callback of a `get` or `getBulk`: the request is resolved
and leaves the map. -/
structure Closes (client : SnmpClient) (uuid : Uuid) (request : SnmpRequest) (outcome : Outcome)
    (t : SnmpClient) : Prop where
  unset : client.promises.cell request.promise = .unset
  requests : ∀ other, t.pendingRequests[other]? =
    if uuid = other then none else client.pendingRequests[other]?
  next : t.promises.next = client.promises.next
  cell : t.promises.cell =
    Function.update client.promises.cell request.promise (.value outcome)
  operations : t.operations = Function.update client.operations uuid none
  futures : t.futures = client.futures

/-- The effect of the callback of a walk: the request stays in the map, with the
response collected so far. It is resolved if there is an outcome. -/
structure Continues (client : SnmpClient) (uuid : Uuid) (request : SnmpRequest)
    (response : SnmpResponse) (cell : ℕ → SharedState Outcome) (operation : Option Operation)
    (t : SnmpClient) : Prop where
  requests : ∀ other, t.pendingRequests[other]? =
    if uuid = other then some { request with response := response }
    else client.pendingRequests[other]?
  next : t.promises.next = client.promises.next
  cell_eq : t.promises.cell = cell
  operations : t.operations = Function.update client.operations uuid operation
  futures : t.futures = client.futures

/-- All bindings lie under `root` and none marks the end of the MIB. -/
def AllUnder (root : Oid) (pdu : Pdu) : Prop :=
  ∀ vb ∈ pdu, root <+: vb.oid ∧ vb.value ≠ .endOfMibView

theorem walkPdu_cons_of_not_under (hroot : ¬ root <+: vb.oid) :
    walkPdu root response last (vb :: pdu) = .resolve response (.ok response) := by
  simp [walkPdu, Oid.nCompare_length_eq_zero_iff, hroot]

theorem walkPdu_cons_of_value (hroot : root <+: vb.oid) (hvalue : vb.value ≠ .endOfMibView) :
    walkPdu root response last (vb :: pdu) = walkPdu root (response.push vb) vb pdu := by
  simp [walkPdu, Oid.nCompare_length_eq_zero_iff.mpr hroot, hvalue]

theorem walkPdu_cons_of_end (hroot : root <+: vb.oid) (hend : vb.value = .endOfMibView) :
    walkPdu root response last (vb :: pdu) = .resolve response (.error .timedOut) := by
  simp [walkPdu, Oid.nCompare_length_eq_zero_iff.mpr hroot, hend]

/-- The loop of `handleWalk` passes the last binding exactly when all lie under
the root and none marks the end. -/
theorem walkPdu_eq_again_iff : (∃ collected nextVb,
    walkPdu root response last pdu = .again collected nextVb) ↔ AllUnder root pdu := by
  induction pdu generalizing response last with
  | nil => simp [walkPdu, AllUnder]
  | cons vb pdu ih =>
    unfold AllUnder at ih ⊢
    rw [List.forall_mem_cons]
    by_cases hroot : root <+: vb.oid
    · by_cases hend : vb.value = .endOfMibView
      · simp [walkPdu_cons_of_end hroot hend, hend]
      · simp [walkPdu_cons_of_value hroot hend, ih, hroot, hend]
    · simp [walkPdu_cons_of_not_under hroot, hroot]

/-- Before it passes the last binding, the loop has kept the first one. -/
theorem walkPdu_again_cons {collected : SnmpResponse} {nextVb : Vb}
    (hexit : walkPdu root response last (vb :: pdu) = .again collected nextVb) :
    walkPdu root (response.push vb) vb pdu = .again collected nextVb := by
  have hunder : root <+: vb.oid ∧ vb.value ≠ .endOfMibView :=
    walkPdu_eq_again_iff.mp ⟨_, _, hexit⟩ vb List.mem_cons_self
  rwa [walkPdu_cons_of_value hunder.1 hunder.2] at hexit

/-- Erasing a resolved request destroys no promise. -/
theorem erase_of_value (hrequest : client.pendingRequests[uuid]? = some request)
    (hvalue : client.promises.cell request.promise = .value outcome) :
    client.erase uuid = { client with
      pendingRequests := client.pendingRequests.erase uuid } := by
  simp only [erase, hrequest, PromiseStore.abandon_of_value hvalue]

theorem handleGet_eq_some (hrequest : client.pendingRequests[request.uuid]? = some request)
    (hstep : client.handleGet reason pdu request = some t) :
    ∃ outcome, client.promises.cell request.promise = .unset ∧ t = { client with
      pendingRequests := client.pendingRequests.erase request.uuid
      promises := { client.promises with
        cell := Function.update client.promises.cell request.promise (.value outcome) } } := by
  obtain ⟨outcome, hresolved⟩ : ∃ outcome,
      (client.setValue request outcome).map (fun client => client.erase request.uuid) = some t := by
    cases reason <;> exact ⟨_, hstep⟩
  obtain ⟨resolved, hvalue, rfl⟩ := Option.map_eq_some_iff.mp hresolved
  obtain ⟨hunset, rfl⟩ := setValue_eq_some hvalue
  exact ⟨outcome, hunset, erase_of_value hrequest (Function.update_self _ _ _)⟩

/-- The callback of a walk asks for more, and does not resolve the request. -/
def WalkGoesOn (request : SnmpRequest) (reason : Reason) (pdu : Pdu) : Prop :=
  reason ≠ .timeout ∧ ∀ root, request.walkOid = some root → AllUnder root pdu

theorem handleWalk_of_resolve (hreason : reason ≠ .timeout) (hroot : request.walkOid = some root)
    (hexit : walkPdu root request.response .default pdu = .resolve response outcome) :
    client.handleWalk reason pdu request =
      (client.store { request with response := response }).setValue request outcome := by
  cases reason with
  | timeout => exact absurd rfl hreason
  | asyncResponse | other => simp only [handleWalk, hroot, hexit]

theorem handleWalk_of_again (hreason : reason ≠ .timeout) (hroot : request.walkOid = some root)
    (hexit : walkPdu root request.response .default pdu = .again response vb) :
    client.handleWalk reason pdu request =
      some ((client.store { request with response := response }).submit request.uuid
        (.getBulk [vb.oid] 0 10)) := by
  cases reason with
  | timeout => exact absurd rfl hreason
  | asyncResponse | other => simp only [handleWalk, hroot, hexit]

/-- The callback of a walk resolves the request or asks for more, and leaves the
request in the map either way. -/
theorem handleWalk_cases (huuid : request.uuid = uuid)
    (hrequest : client.pendingRequests[uuid]? = some request)
    (hnone : client.operations uuid = none)
    (hstep : client.handleWalk reason pdu request = some t) :
    (¬ WalkGoesOn request reason pdu ∧ client.promises.cell request.promise = .unset ∧
      ∃ response outcome, client.Continues uuid request response
        (Function.update client.promises.cell request.promise (.value outcome)) none t) ∨
    (WalkGoesOn request reason pdu ∧ ∃ (response : SnmpResponse) (nextVb : Vb),
      client.Continues uuid request response client.promises.cell
        (some (.getBulk [nextVb.oid] 0 10)) t) := by
  -- the operation has been answered already
  have hquiet : Function.update client.operations uuid none = client.operations := by
    rw [← hnone, Function.update_eq_self]
  by_cases hreason : reason = .timeout
  · subst hreason
    obtain ⟨hunset, rfl⟩ := setValue_eq_some hstep
    refine .inl ⟨fun hon => hon.1 rfl, hunset, request.response, _, ⟨fun other => ?_, rfl, rfl,
      hquiet.symm, rfl⟩⟩
    split_ifs with heq
    · exact heq ▸ hrequest
    · rfl
  · cases hroot : request.walkOid with
    | none =>
      cases reason with
      | timeout => exact absurd rfl hreason
      | asyncResponse | other => simp [handleWalk, hroot] at hstep
    | some root =>
      have hgoes : WalkGoesOn request reason pdu ↔ AllUnder root pdu := by
        simp [WalkGoesOn, hreason, hroot]
      subst huuid
      cases hexit : walkPdu root request.response .default pdu with
      | resolve response outcome =>
        rw [handleWalk_of_resolve hreason hroot hexit] at hstep
        obtain ⟨hunset, rfl⟩ := setValue_eq_some hstep
        refine .inl ⟨fun hon => ?_, hunset, response, outcome,
          ⟨fun _ => getElem?_store, rfl, rfl, hquiet.symm, rfl⟩⟩
        -- a PDU of bindings under the root is passed to its end
        obtain ⟨_, _, hagain⟩ := walkPdu_eq_again_iff.mpr (hgoes.mp hon)
        cases hexit.symm.trans hagain
      | again response nextVb =>
        rw [handleWalk_of_again hreason hroot hexit] at hstep
        obtain rfl := Option.some.inj hstep
        exact .inr ⟨hgoes.mpr (walkPdu_eq_again_iff.mp ⟨_, _, hexit⟩), response, nextVb,
          ⟨fun _ => getElem?_store, rfl, rfl, rfl, rfl⟩⟩

/-- Everything a callback can do to a client whose requests are kept under their
own identifiers. -/
theorem callback_cases
    (hkeys : ∀ request, client.pendingRequests[uuid]? = some request → request.uuid = uuid)
    (hstep : client.callback uuid reason pdu = some t) :
    ∃ operation request, client.operations uuid = some operation ∧
      client.pendingRequests[uuid]? = some request ∧
      ((request.isWalk = false ∧ ∃ outcome, client.Closes uuid request outcome t) ∨
      (request.isWalk = true ∧ ¬ WalkGoesOn request reason pdu ∧
        client.promises.cell request.promise = .unset ∧
        ∃ response outcome, client.Continues uuid request response
          (Function.update client.promises.cell request.promise (.value outcome)) none t) ∨
      (request.isWalk = true ∧ WalkGoesOn request reason pdu ∧
        ∃ (response : SnmpResponse) (nextVb : Vb), client.Continues uuid request response
          client.promises.cell (some (.getBulk [nextVb.oid] 0 10)) t)) := by
  unfold callback at hstep
  split at hstep
  · rename_i operation request hoperation hrequest
    obtain rfl := hkeys request hrequest
    refine ⟨operation, request, hoperation, hrequest, ?_⟩
    have hkept : (client.answered request.uuid).pendingRequests[request.uuid]? = some request :=
      hrequest
    split_ifs at hstep with hwalk
    · refine .inr ?_
      have hnone : (client.answered request.uuid).operations request.uuid = none :=
        Function.update_self _ _ _
      rcases handleWalk_cases rfl hkept hnone hstep with
        ⟨hstops, hunset, response, outcome, hcontinues⟩ | ⟨hon, response, nextVb, hcontinues⟩
      · exact .inl ⟨hwalk, hstops, hunset, response, outcome,
          { hcontinues with operations := by simpa [answered] using hcontinues.operations }⟩
      · exact .inr ⟨hwalk, hon, response, nextVb,
          { hcontinues with operations := by simpa [answered] using hcontinues.operations }⟩
    · obtain ⟨outcome, hunset, rfl⟩ := handleGet_eq_some hkept hstep
      refine .inl ⟨by simpa using hwalk, outcome, hunset, fun other => ?_, rfl, rfl, rfl, rfl⟩
      simp [answered, Std.ExtTreeMap.getElem?_erase]
  · cases hstep

end SnmpClient

end NetDiscovery.Net
