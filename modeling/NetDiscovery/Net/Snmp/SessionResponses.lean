/-
# What a request is resolved with

The bindings that the callbacks of a request bring make up its response. A `get` or
`getBulk` gets them in one PDU and keeps the valid ones; a walk keeps those of one PDU
after the other, valid or not, up to the first one outside its subtree. The address of
the target is put into the response only in the loop over the bindings of a `get` or
`getBulk`.

`answersCall_iff` says for which bindings the response is what the call asked for.
-/

import NetDiscovery.Net.Snmp.SessionCoherence

namespace NetDiscovery.Net.SnmpSession

open NetDiscovery.Semantics NetDiscovery.Util SnmpClient

variable {session t v : SnmpSession} {uuid other : Uuid} {p q : ℕ} {track : Track}
  {cell : SharedState Outcome} {found : Option SnmpRequest} {request : SnmpRequest}
  {reason : Reason} {pdu bindings : List Vb} {accepted : Bool} {a : Label} {root : Oid}
  {response collected answer : SnmpResponse} {last nextVb : Vb} {host : IPv4Address} {call : Call}
  {trace : List (SnmpSession × Label)}

/-- The bindings that a callback brings to a request. -/
def brought (uuid : Uuid) : Label → List Vb
  | .callback other _ pdu _ => if other = uuid then pdu else []
  | _ => []

/-- The bindings that the callbacks of a run bring to a request, in order. -/
def received (uuid : Uuid) (trace : List (SnmpSession × Label)) : List Vb :=
  trace.flatMap fun x => brought uuid x.2

/-- The bindings that a call asks for: a walk ends at the first one outside its
subtree. -/
def Call.reported : Call → List Vb → List Vb
  | .get _, bindings | .getBulk _ _ _, bindings => bindings
  | .walk root, bindings => bindings.takeWhile fun vb => root.isPrefixOf vb.oid

/-- The response names the target, and its variables are the valid ones among the
bindings that the call asks for. -/
structure AnswersCall (call : Call) (host : IPv4Address) (bindings : List Vb)
    (response : SnmpResponse) : Prop where
  host_eq : response.host = host
  varBinds_eq : response.varBinds =
    ((call.reported bindings).filter Vb.valid).map Vb.toVarBind

/-- The response that the client makes of the bindings. -/
def Call.toResponse (host : IPv4Address) (bindings : List Vb) : Call → SnmpResponse
  | .get _ | .getBulk _ _ _ => if bindings = [] then .empty else {
      host := host
      varBinds := (bindings.filter Vb.valid).map Vb.toVarBind }
  | .walk root => { SnmpResponse.empty with
      varBinds := ((Call.walk root).reported bindings).map Vb.toVarBind }

/-- A `get` or `getBulk` is answered rightly if there is a binding, and a walk if the
bindings it asks for are valid; but without a binding, and in a walk, the response names
no target. -/
def Call.Answerable (host : IPv4Address) (bindings : List Vb) : Call → Prop
  | .get _ | .getBulk _ _ _ => bindings ≠ [] ∨ host = .ofOctets 0 0 0 0
  | .walk root => host = .ofOctets 0 0 0 0 ∧
      ∀ vb ∈ (Call.walk root).reported bindings, vb.valid = true

/-- Dropping what is not valid changes nothing only if there is no such thing. -/
private theorem map_toVarBind_filter_eq_iff : bindings.map Vb.toVarBind =
    (bindings.filter Vb.valid).map Vb.toVarBind ↔ ∀ vb ∈ bindings, vb.valid = true := by
  rw [← List.filter_eq_self]
  constructor
  · intro heq
    have hlength := congrArg List.length heq
    rw [List.length_map, List.length_map] at hlength
    exact List.filter_sublist.eq_of_length hlength.symm
  · intro hself
    rw [hself]

theorem answersCall_toResponse_iff : AnswersCall call host bindings
    (call.toResponse host bindings) ↔ call.Answerable host bindings := by
  cases call with
  | get | getBulk =>
    by_cases hempty : bindings = []
    · subst hempty
      simp only [Call.Answerable, ne_eq, not_true_eq_false, false_or]
      exact ⟨fun answers => answers.host_eq.symm, fun hhost => ⟨hhost.symm, rfl⟩⟩
    · refine iff_of_true ?_ (.inl hempty)
      simp only [Call.toResponse, if_neg hempty]
      exact ⟨rfl, rfl⟩
  | walk root =>
    constructor
    · intro answers
      exact ⟨answers.host_eq.symm, map_toVarBind_filter_eq_iff.mp answers.varBinds_eq⟩
    · rintro ⟨hhost, hvalid⟩
      exact ⟨hhost.symm, map_toVarBind_filter_eq_iff.mpr hvalid⟩

/-! ## One callback -/

/-- The loop over the bindings of a `get` or `getBulk`, from what has been collected. -/
private theorem foldl_readVariables (host : IPv4Address) (hne : bindings ≠ []) :
    bindings.foldl
      (fun response vb =>
        if vb.valid then { response with host := host }.push vb
        else { response with host := host })
      response =
    { host := host
      varBinds := response.varBinds ++ (bindings.filter Vb.valid).map Vb.toVarBind } := by
  induction bindings generalizing response with
  | nil => exact absurd rfl hne
  | cons vb bindings ih =>
    rw [List.foldl_cons]
    -- only with the last binding is there nothing left for the induction
    by_cases hrest : bindings = []
    · subst hrest
      cases hvalid : vb.valid <;> simp [hvalid, SnmpResponse.push]
    · rw [ih hrest]
      cases hvalid : vb.valid <;> simp [hvalid, SnmpResponse.push]

theorem readVariables_of_empty (hempty : request.response = .empty) :
    readVariables request pdu = if pdu = [] then .empty else {
      host := request.host
      varBinds := (pdu.filter Vb.valid).map Vb.toVarBind } := by
  rw [readVariables, hempty]
  split_ifs with hpdu
  · rw [hpdu]
    rfl
  · exact foldl_readVariables request.host hpdu

/-- The loop of a walk that goes on has kept the whole PDU. -/
theorem walkPdu_again_response (hexit : walkPdu root response last pdu = .again collected nextVb) :
    collected = { response with varBinds := response.varBinds ++ pdu.map Vb.toVarBind } := by
  induction pdu generalizing response last with
  | nil =>
    cases hexit
    simp
  | cons vb pdu ih =>
    rw [ih (walkPdu_again_cons hexit)]
    simp [SnmpResponse.push]

/-- The loop of a walk that succeeds has kept the PDU up to the binding outside the
subtree. -/
theorem walkPdu_resolve_response
    (hexit : walkPdu root response last pdu = .resolve collected (.ok answer)) :
    answer = { response with varBinds := response.varBinds ++
      (pdu.takeWhile fun vb => root.isPrefixOf vb.oid).map Vb.toVarBind } := by
  induction pdu generalizing response last with
  | nil => cases hexit
  | cons vb pdu ih =>
    by_cases hroot : root <+: vb.oid
    · by_cases hend : vb.value = .endOfMibView
      · rw [walkPdu_cons_of_end hroot hend] at hexit
        cases hexit
      · rw [walkPdu_cons_of_value hroot hend] at hexit
        rw [ih hexit, List.takeWhile_cons_of_pos (by simpa using hroot)]
        simp [SnmpResponse.push]
    · rw [walkPdu_cons_of_not_under hroot] at hexit
      cases hexit
      rw [List.takeWhile_cons_of_neg (by simpa using hroot)]
      simp

/-! ## One request -/

/-- The request has collected the bindings, and goes on. -/
def Call.Collecting (bindings : List Vb) (request : SnmpRequest) : Call → Prop
  | .get _ | .getBulk _ _ _ =>
    request.isWalk = false ∧ request.response = .empty ∧ bindings = []
  | .walk root => request.isWalk = true ∧ request.walkOid = some root ∧ AllUnder root bindings ∧
      request.response = { SnmpResponse.empty with varBinds := bindings.map Vb.toVarBind }

/-- What the request of a call has made of the bindings that it was brought. -/
structure Contents (call : Call) (host : IPv4Address) (bindings : List Vb)
    (found : Option SnmpRequest) (cell : SharedState Outcome) : Prop where
  collecting : cell = .unset → ∃ request, found = some request ∧ request.host = host ∧
    call.Collecting bindings request
  resolved : ∀ response, cell = .value (.ok response) → response = call.toResponse host bindings

/-- A request that is resolved with an error has no response. -/
private theorem Contents.of_error {error : ErrorType} :
    Contents call host bindings found (.value (.error error)) where
  collecting hunset := by cases hunset
  resolved _ hvalue := by cases hvalue

private theorem Contents.of_ok (hresponse : response = call.toResponse host bindings) :
    Contents call host bindings found (.value (.ok response)) where
  collecting hunset := by cases hunset
  resolved other hvalue := by
    cases hvalue
    exact hresponse

/-- After an effect on the request, it is found as the effect has left it. -/
private theorem Contents.of_changes (changes : session.Changes uuid p found cell track t)
    (contents : Contents call host bindings found cell) :
    Contents call host bindings t.client.pendingRequests[uuid]? (t.client.promises.cell p) := by
  rwa [changes.found_eq, changes.cell_self]

private theorem Contents.of_collecting
    (hcollecting : request.host = host ∧ call.Collecting bindings request) :
    Contents call host bindings (some request) .unset where
  collecting _ := ⟨request, rfl, hcollecting⟩
  resolved _ hvalue := by cases hvalue

private theorem contents_getOutcome (hpdu : readVariables request pdu = call.toResponse host pdu) :
    Contents call host pdu found (.value (getOutcome reason pdu request)) := by
  cases reason with
  | asyncResponse => exact .of_ok hpdu
  | timeout | other => exact .of_error

/-- The bindings under the root go on with those of the next PDU. -/
private theorem takeWhile_append_of_allUnder (hunder : AllUnder root bindings) :
    (bindings ++ pdu).takeWhile (fun vb => root.isPrefixOf vb.oid) =
      bindings ++ pdu.takeWhile fun vb => root.isPrefixOf vb.oid :=
  List.takeWhile_append_of_pos fun vb hvb => by simpa using (hunder vb hvb).1

/-- A callback adds its bindings to what the request has made of those before. -/
theorem Contents.callback (coherent : session.Coherent)
    (houtstanding : (session.tracks uuid).outstanding ≠ 0)
    (hfuture : session.client.futures uuid = some p)
    (contents : Contents call host bindings session.client.pendingRequests[uuid]?
      (session.client.promises.cell p)) :
    Contents call host (bindings ++ pdu)
      (session.callback uuid reason pdu accepted).client.pendingRequests[uuid]?
      ((session.callback uuid reason pdu accepted).client.promises.cell p) := by
  obtain ⟨request, hrequest, hfuture', hunset, tracked⟩ := coherent.exists_waiting houtstanding
  obtain rfl := Option.some.inj (hfuture'.symm.trans hfuture)
  obtain ⟨huuid, -, -⟩ := tracked.request request rfl
  obtain ⟨request', hrequest', rfl, hcollecting⟩ := contents.collecting hunset
  obtain rfl := Option.some.inj (hrequest.symm.trans hrequest')
  cases call with
  | get | getBulk =>
    -- the first callback resolves the request, so nothing came before
    obtain ⟨hget, hempty, rfl⟩ := hcollecting
    exact .of_changes (changes_callback_get hrequest huuid hget hunset)
      (contents_getOutcome (readVariables_of_empty hempty))
  | walk root =>
    obtain ⟨hwalk, hroot, hunder, hresponse⟩ := hcollecting
    by_cases hreason : reason = .timeout
    · subst hreason
      exact .of_changes (changes_callback_timeout hrequest huuid hwalk hunset) .of_error
    cases hexit : walkPdu root request.response .default pdu with
    | again collected nextVb =>
      -- all of the PDU is under the root, and the walk asks for more
      have hall : AllUnder root pdu := walkPdu_eq_again_iff.mp ⟨_, _, hexit⟩
      have hgoes : WalkGoesOn request reason pdu := by
        refine ⟨hreason, fun other hother => ?_⟩
        obtain rfl := Option.some.inj (hroot.symm.trans hother)
        exact hall
      obtain ⟨collected', nextVb', hexit', changes⟩ :=
        changes_callback_again hrequest huuid hwalk hroot hgoes
      rw [hunset] at changes
      refine .of_changes changes (.of_collecting ⟨rfl, hwalk, hroot, ?_, ?_⟩)
      · intro vb hvb
        exact (List.mem_append.mp hvb).elim (hunder vb) (hall vb)
      · rw [walkPdu_again_response hexit', hresponse, List.map_append]
    | resolve collected outcome =>
      refine .of_changes (changes_callback_resolve hrequest huuid hwalk hroot hunset hreason hexit)
        ?_
      cases outcome with
      | error error => exact .of_error
      | ok answer =>
        refine .of_ok ?_
        rw [walkPdu_resolve_response hexit, hresponse, Call.toResponse, Call.reported,
          takeWhile_append_of_allUnder hunder, List.map_append]

/-! ## Runs -/

/-- What the requests of a run have made of the bindings that they were brought. -/
structure RunContents (trace : List (SnmpSession × Label)) (session : SnmpSession) : Prop where
  coherent : session.Coherent
  new : ∀ uuid, session.client.futures uuid = none → received uuid trace = []
  contents : ∀ v uuid call host, (v, .createRequest uuid call host) ∈ trace →
    ∃ p, session.client.futures uuid = some p ∧ Contents call host (received uuid trace)
      session.client.pendingRequests[uuid]? (session.client.promises.cell p)

theorem RunContents.initial : RunContents [] initial where
  coherent := .initial
  new _ _ := rfl
  contents _ _ _ _ hmem := by cases hmem

theorem received_snoc :
    received uuid (trace ++ [(session, a)]) = received uuid trace ++ brought uuid a := by
  simp [received]

/-- An effect on one request that puts the bindings brought to it where they belong. -/
theorem RunContents.changes (run : RunContents trace session) (coherent : t.Coherent)
    (hfuture : session.client.futures uuid = some p)
    (changes : session.Changes uuid p found cell track t)
    (hcreates : ∀ other call host, a ≠ .createRequest other call host)
    (hothers : ∀ other, other ≠ uuid → brought other a = [])
    (hself : ∀ call host, Contents call host (received uuid trace)
        session.client.pendingRequests[uuid]? (session.client.promises.cell p) →
      Contents call host (received uuid trace ++ brought uuid a) t.client.pendingRequests[uuid]?
        (t.client.promises.cell p)) :
    RunContents (trace ++ [(session, a)]) t where
  coherent := coherent
  new other hnone := by
    rw [changes.futures] at hnone
    have hne : other ≠ uuid := by
      rintro rfl
      cases hfuture.symm.trans hnone
    rw [received_snoc, run.new other hnone, hothers other hne, List.append_nil]
  contents v other call host hmem := by
    have hprior : (v, .createRequest other call host) ∈ trace := by
      rcases List.mem_append.mp hmem with hprior | hlast
      · exact hprior
      · exact absurd (Prod.mk.inj (List.mem_singleton.mp hlast)).2.symm (hcreates other call host)
    obtain ⟨q, hother, contents⟩ := run.contents v other call host hprior
    rw [received_snoc]
    by_cases heq : other = uuid
    · subst heq
      obtain rfl := Option.some.inj (hfuture.symm.trans hother)
      exact ⟨p, changes.futures ▸ hfuture, hself call host contents⟩
    -- what is brought to one request is nothing to another
    · obtain ⟨hkept, hfound, hcell⟩ := run.coherent.frame hfuture changes hother heq
      rw [hothers other heq, List.append_nil, hfound]
      exact ⟨q, hkept, hcell.symm ▸ contents⟩

/-- A new request has collected nothing. -/
theorem contents_createRequest (coherent : session.Coherent) :
    (session.createRequest uuid call host).client.futures uuid =
        some session.client.promises.next ∧
      Contents call host [] (session.createRequest uuid call host).client.pendingRequests[uuid]?
        ((session.createRequest uuid call host).client.promises.cell
          session.client.promises.next) := by
  obtain ⟨request, opens⟩ := opens_callCreateRequest call session.client uuid host
  have hcell : (session.createRequest uuid call host).client.promises.cell
      session.client.promises.next = .unset :=
    (congrFun (congrArg PromiseStore.cell opens.promises) _).trans (coherent.fresh _ le_rfl)
  refine ⟨(congrFun opens.futures uuid).trans (Function.update_self _ _ _), ?_⟩
  rw [hcell]
  cases call with
  | get | getBulk =>
    have hrequest := (opens_createRequest session.client uuid host (.get [])).requests uuid
    exact (hrequest.trans (if_pos rfl)).symm ▸ .of_collecting ⟨rfl, rfl, rfl, rfl⟩
  | walk root =>
    have hrequest := (opens_walkAsync session.client uuid root host).requests uuid
    refine (hrequest.trans (if_pos rfl)).symm ▸ .of_collecting ⟨rfl, rfl, rfl, ?_, rfl⟩
    intro vb hvb
    cases hvb

theorem RunContents.createRequest (run : RunContents trace session)
    (hstage : (session.tracks uuid).stage = .createRequest) :
    RunContents (trace ++ [(session, .createRequest uuid call host)])
      (session.createRequest uuid call host) where
  coherent := run.coherent.createRequest hstage
  new other hnone := by
    rw [received_snoc]
    by_cases heq : other = uuid
    · subst heq
      cases (contents_createRequest run.coherent).1.symm.trans hnone
    · rw [(createRequest_of_ne session call host heq).1] at hnone
      rw [run.new other hnone]
      rfl
  contents v other call' host' hmem := by
    have hnone := run.coherent.future_eq_none hstage
    have hbrought : brought other (.createRequest uuid call host) = [] := rfl
    rw [received_snoc, hbrought, List.append_nil]
    rcases List.mem_append.mp hmem with hprior | hlast
    · obtain ⟨p, hfuture, contents⟩ := run.contents v other call' host' hprior
      have hne : other ≠ uuid := by
        rintro rfl
        cases hnone.symm.trans hfuture
      obtain ⟨hkept, hfound, -⟩ := createRequest_of_ne session call host hne
      obtain ⟨request, opens⟩ := opens_callCreateRequest call session.client uuid host
      have hcell : (session.createRequest uuid call host).client.promises.cell p =
          session.client.promises.cell p := congrFun (congrArg PromiseStore.cell opens.promises) p
      rw [hkept, hfound]
      exact ⟨p, hfuture, hcell.symm ▸ contents⟩
    -- the new request itself, which has received nothing so far
    · cases List.mem_singleton.mp hlast
      rw [run.new uuid hnone]
      exact ⟨_, contents_createRequest run.coherent⟩

/-- The step lemma. -/
theorem RunContents.step (run : RunContents trace session) (hstep : session.step a = some t) :
    RunContents (trace ++ [(session, a)]) t := by
  have coherent := run.coherent.step hstep
  cases a with
  | createRequest uuid call host =>
    obtain ⟨hstage, rfl⟩ := step_createRequest hstep
    exact run.createRequest hstage
  | handOver uuid accepted =>
    obtain ⟨operation, hstage, rfl⟩ := step_handOver hstep
    obtain ⟨p, status, hfuture, -⟩ := run.coherent.exists_tracked uuid (by simp [hstage])
    have advanced := changes_handOver session uuid p operation accepted
    refine run.changes coherent hfuture advanced (by simp) (fun _ _ => rfl)
      fun call host contents => .of_changes advanced ?_
    simpa [brought] using contents
  | takeFuture uuid =>
    obtain ⟨hstage, rfl⟩ := step_takeFuture hstep
    obtain ⟨p, status, hfuture, -⟩ := run.coherent.exists_tracked uuid (by simp [hstage])
    have advanced := changes_advance session uuid p
      (.returned (session.client.pendingRequests[uuid]?.map SnmpRequest.promise))
    refine run.changes coherent hfuture advanced (by simp) (fun _ _ => rfl)
      fun call host contents => .of_changes advanced ?_
    simpa [brought] using contents
  | callback uuid reason pdu accepted =>
    obtain ⟨houtstanding, rfl⟩ := step_callback hstep
    obtain ⟨request, -, hfuture, -, ⟨-, _, changes⟩ | ⟨-, -, _, _, changes⟩ |
      ⟨-, -, _, _, _, -, changes⟩⟩ := run.coherent.callback_cases reason pdu accepted houtstanding
    -- whatever the callback changes, it brings its bindings to its own request
    all_goals
      refine run.changes coherent hfuture changes (by simp) (fun other hne => if_neg hne.symm)
        fun call host contents => ?_
      have hbrought : brought uuid (.callback uuid reason pdu accepted) = pdu := if_pos rfl
      rw [hbrought]
      exact contents.callback run.coherent houtstanding hfuture

theorem RunContents.of_run (run : Run SnmpSession.step SnmpSession.initial trace session) :
    RunContents trace session := by
  induction run with
  | nil => exact .initial
  | snoc _ hstep ih => exact ih.step hstep

/-- A request that is resolved with a response got what its call asked for exactly if the
bindings brought to it are answerable. -/
theorem answersCall_iff (run : Run step initial trace session)
    (hcreate : (v, .createRequest uuid call host) ∈ trace)
    (hfuture : session.client.futures uuid = some p)
    (hvalue : session.client.promises.cell p = .value (.ok response)) :
    AnswersCall call host (received uuid trace) response ↔
      call.Answerable host (received uuid trace) := by
  obtain ⟨q, hfuture', contents⟩ := (RunContents.of_run run).contents v uuid call host hcreate
  obtain rfl := Option.some.inj (hfuture.symm.trans hfuture')
  rw [contents.resolved response hvalue, answersCall_toResponse_iff]

/-- A `get` that is answered with a value. -/
def getValue : List Label :=
  [.createRequest 0 (.get [[1, 3, 1]]) (.ofOctets 10 0 0 7), .handOver 0 true, .takeFuture 0,
    .callback 0 .asyncResponse [⟨[1, 3, 1], .int 7, true, "7"⟩] true]

theorem answersCall_getValue :
    ∃ final response, exec step initial getValue = some final ∧
      final.client.promises.cell 0 = .value (.ok response) ∧
      AnswersCall (.get [[1, 3, 1]]) (.ofOctets 10 0 0 7)
        (received 0 (record step initial getValue)) response := by
  have hexec := Option.some_get (x := exec step initial getValue) (by decide)
  have hcreate : (initial, .createRequest 0 (.get [[1, 3, 1]]) (.ofOctets 10 0 0 7)) ∈
      record step initial getValue := List.mem_cons_self
  refine ⟨_, _, hexec.symm, rfl,
    (answersCall_iff (Run.of_exec hexec.symm) hcreate rfl rfl).mpr (.inl ?_)⟩
  decide

/-- A walk that finds a value and then leaves its subtree. -/
def walkValue : List Label :=
  [.createRequest 0 (.walk [1, 3]) (.ofOctets 10 0 0 7), .handOver 0 true, .takeFuture 0,
    .callback 0 .asyncResponse
      [⟨[1, 3, 1], .int 7, true, "7"⟩, ⟨[1, 4], .int 8, true, "8"⟩] true]

/-- Its response names no target. -/
theorem not_answersCall_walkValue :
    ∃ final response, Run step initial (record step initial walkValue) final ∧
      final.client.futures 0 = some 0 ∧ final.client.promises.cell 0 = .value (.ok response) ∧
      ¬ AnswersCall (.walk [1, 3]) (.ofOctets 10 0 0 7)
        (received 0 (record step initial walkValue)) response := by
  have hexec := Option.some_get (x := exec step initial walkValue) (by decide)
  refine ⟨_, _, Run.of_exec hexec.symm, rfl, rfl, fun answers => ?_⟩
  have hhost : IPv4Address.ofOctets 0 0 0 0 = .ofOctets 10 0 0 7 := answers.host_eq
  exact absurd hhost (by decide)

end NetDiscovery.Net.SnmpSession
