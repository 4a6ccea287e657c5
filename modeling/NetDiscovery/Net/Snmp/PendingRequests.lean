/-
# Requests that stay pending

A request should be in the client's map exactly as long as it has not been
resolved. Resolving a `get` erases it in the same callback. A walk never erases
its request: each of the exits of its callback that resolves the promise leaves
the resolved request in the map for good.

`pendingIffUnresolved_iff` says that this is the only way the map and the
promises come apart.
-/

import NetDiscovery.Net.Snmp.SnmpClient

namespace NetDiscovery.Net.SnmpClient

open NetDiscovery.Semantics

variable {client t : SnmpClient} {uuid other : Uuid} {p : ℕ} {request : SnmpRequest}
  {outcome : Outcome} {operation : Operation} {reason : Reason} {pdu : Pdu}
  {response : SnmpResponse} {a : Label}

/-- What ties requests, promises and operations together in every reachable
state. -/
structure Consistent (client : SnmpClient) : Prop where
  future_lt : ∀ uuid p, client.futures uuid = some p → p < client.promises.next
  future_injective : ∀ uuid other p, client.futures uuid = some p →
    client.futures other = some p → uuid = other
  fresh : ∀ p, client.promises.next ≤ p → client.promises.cell p = .unset
  uuid_eq : ∀ (uuid : Uuid) (request : SnmpRequest),
    client.pendingRequests[uuid]? = some request → request.uuid = uuid
  promise_eq : ∀ (uuid : Uuid) (request : SnmpRequest),
    client.pendingRequests[uuid]? = some request →
    client.futures uuid = some request.promise
  /-- the callback of a walk finds its root -/
  walk_oid : ∀ (uuid : Uuid) (request : SnmpRequest),
    client.pendingRequests[uuid]? = some request →
    request.isWalk = true → ∃ root, request.walkOid = some root
  /-- a callback finds its request, not yet resolved -/
  operation_open : ∀ uuid operation, client.operations uuid = some operation →
    ∃ request, client.pendingRequests[uuid]? = some request ∧
      client.promises.cell request.promise = .unset

theorem Consistent.initial : Consistent initial where
  future_lt _ _ hfuture := by cases hfuture
  future_injective _ _ _ hfuture := by cases hfuture
  fresh _ _ := rfl
  uuid_eq _ _ hrequest := by simp [SnmpClient.initial] at hrequest
  promise_eq _ _ hrequest := by simp [SnmpClient.initial] at hrequest
  walk_oid _ _ hrequest := by simp [SnmpClient.initial] at hrequest
  operation_open _ _ hoperation := by cases hoperation

/-- A created request is in the map if and only if its promise has no value. -/
def PendingIffUnresolved (client : SnmpClient) : Prop :=
  ∀ uuid p, client.futures uuid = some p →
    ((∃ request, client.pendingRequests[uuid]? = some request) ↔
      ¬ ∃ outcome, client.promises.cell p = .value outcome)

/-- The callback of a walk takes no exit that resolves the request. -/
def LeavesWalksOpen (client : SnmpClient) : Label → Prop
  | .callback uuid reason pdu => ∀ request : SnmpRequest,
      client.pendingRequests[uuid]? = some request → request.isWalk = true →
        WalkGoesOn request reason pdu
  | _ => True

/-- The requests of other identifiers have other promises. -/
private theorem Consistent.promise_ne (consistent : client.Consistent)
    (hrequest : client.pendingRequests[uuid]? = some request) (hne : uuid ≠ other)
    (hfuture : client.futures other = some p) : p ≠ request.promise := by
  rintro rfl
  exact hne (consistent.future_injective _ _ _ (consistent.promise_eq _ _ hrequest) hfuture)

/-! ## Calls -/

theorem Consistent.opens (consistent : client.Consistent) (hnew : client.futures uuid = none)
    (opens : client.Opens uuid request operation t) : t.Consistent where
  future_lt other p hfuture := by
    rw [opens.promises, PromiseStore.create_next]
    rcases opens.future_cases hfuture with ⟨-, rfl⟩ | ⟨-, hprior⟩
    · exact Nat.lt_succ_self _
    · exact Nat.lt_succ_of_lt (consistent.future_lt other p hprior)
  future_injective first second p hfirst hsecond := by
    -- the new promise is later than those of the other calls
    rcases opens.future_cases hfirst with ⟨rfl, rfl⟩ | ⟨-, hfirst⟩ <;>
      rcases opens.future_cases hsecond with ⟨rfl, hp⟩ | ⟨-, hsecond⟩
    · rfl
    · exact absurd (consistent.future_lt _ _ hsecond) (lt_irrefl _)
    · exact absurd (consistent.future_lt _ _ hfirst) (by omega)
    · exact consistent.future_injective _ _ _ hfirst hsecond
  fresh p hp := by
    rw [opens.promises] at hp ⊢
    exact consistent.fresh p (Nat.le_of_succ_le hp)
  uuid_eq other found hfound := by
    rcases opens.request_cases hfound with ⟨rfl, rfl⟩ | ⟨-, hprior⟩
    · exact opens.uuid_eq
    · exact consistent.uuid_eq other found hprior
  promise_eq other found hfound := by
    rw [opens.futures]
    rcases opens.request_cases hfound with ⟨rfl, rfl⟩ | ⟨hne, hprior⟩
    · rw [Function.update_self, opens.promise_eq]
    · rw [Function.update_of_ne hne, consistent.promise_eq other found hprior]
  walk_oid other found hfound := by
    rcases opens.request_cases hfound with ⟨rfl, rfl⟩ | ⟨-, hprior⟩
    · exact opens.walk_oid
    · exact consistent.walk_oid other found hprior
  operation_open other found hfound := by
    rw [opens.operations] at hfound
    rw [opens.promises]
    -- an operation is open for the new request, whose promise is unset, or for a prior one
    by_cases heq : uuid = other
    · refine ⟨request, (opens.requests other).trans (if_pos heq), ?_⟩
      rw [opens.promise_eq]
      exact consistent.fresh _ le_rfl
    · rw [Function.update_of_ne (Ne.symm heq)] at hfound
      obtain ⟨prior, hprior, hunset⟩ := consistent.operation_open other found hfound
      exact ⟨prior, (opens.requests other).trans ((if_neg heq).trans hprior), hunset⟩

private theorem PendingIffUnresolved.opens (consistent : client.Consistent)
    (hpending : client.PendingIffUnresolved) (opens : client.Opens uuid request operation t) :
    t.PendingIffUnresolved := by
  intro other p hfuture
  rw [opens.requests, opens.promises]
  rcases opens.future_cases hfuture with ⟨rfl, rfl⟩ | ⟨hne, hprior⟩
  · simp [consistent.fresh _ le_rfl]
  · rw [if_neg hne.symm]
    exact hpending other p hprior

/-! ## Callbacks -/

private theorem Consistent.promise_lt (consistent : client.Consistent)
    (hrequest : client.pendingRequests[uuid]? = some request) :
    request.promise < client.promises.next :=
  consistent.future_lt _ _ (consistent.promise_eq _ _ hrequest)

/-- The request of an unanswered operation is not resolved. -/
private theorem Consistent.unset (consistent : client.Consistent)
    (hrequest : client.pendingRequests[uuid]? = some request)
    (hoperation : client.operations uuid = some operation) :
    client.promises.cell request.promise = .unset := by
  obtain ⟨found, hfound, hunset⟩ := consistent.operation_open uuid operation hoperation
  exact Option.some.inj (hfound.symm.trans hrequest) ▸ hunset

theorem Consistent.closes (consistent : client.Consistent)
    (hrequest : client.pendingRequests[uuid]? = some request)
    (closes : client.Closes uuid request outcome t) : t.Consistent := by
  -- what is still pending was pending before
  have hprior : ∀ (other : Uuid) (found : SnmpRequest), t.pendingRequests[other]? = some found →
      client.pendingRequests[other]? = some found := by
    intro other found hfound
    rw [closes.requests] at hfound
    split_ifs at hfound
    exact hfound
  refine ⟨?_, closes.futures ▸ consistent.future_injective, fun p hp => ?_,
    fun other found hfound => consistent.uuid_eq other found (hprior other found hfound),
    fun other found hfound => ?_,
    fun other found hfound => consistent.walk_oid other found (hprior other found hfound),
    fun other operation hoperation => ?_⟩
  · rw [closes.futures, closes.next]
    exact consistent.future_lt
  · rw [closes.next] at hp
    have hlt := consistent.promise_lt hrequest
    rw [closes.cell, Function.update_of_ne (by omega)]
    exact consistent.fresh p hp
  · rw [closes.futures]
    exact consistent.promise_eq other found (hprior other found hfound)
  · rw [closes.operations] at hoperation
    have hne : uuid ≠ other := by
      rintro rfl
      simp at hoperation
    rw [Function.update_of_ne hne.symm] at hoperation
    obtain ⟨found, hfound, hunset⟩ := consistent.operation_open other operation hoperation
    refine ⟨found, (closes.requests other).trans ((if_neg hne).trans hfound), ?_⟩
    rw [closes.cell, Function.update_of_ne, hunset]
    exact consistent.promise_ne hrequest hne (consistent.promise_eq other found hfound)

private theorem PendingIffUnresolved.closes (consistent : client.Consistent)
    (hpending : client.PendingIffUnresolved)
    (hrequest : client.pendingRequests[uuid]? = some request)
    (closes : client.Closes uuid request outcome t) : t.PendingIffUnresolved := by
  intro other p hfuture
  rw [closes.futures] at hfuture
  rw [closes.requests, closes.cell]
  by_cases heq : uuid = other
  · subst heq
    obtain rfl := Option.some.inj ((consistent.promise_eq _ _ hrequest).symm.trans hfuture)
    simp
  · rw [if_neg heq, Function.update_of_ne (consistent.promise_ne hrequest heq hfuture)]
    exact hpending other p hfuture

private theorem Continues.request_cases {cell : ℕ → SharedState Outcome}
    {next : Option Operation} (continues : client.Continues uuid request response cell next t)
    {found : SnmpRequest} (hfound : t.pendingRequests[other]? = some found) :
    (other = uuid ∧ found = { request with response := response }) ∨
      (other ≠ uuid ∧ client.pendingRequests[other]? = some found) := by
  rw [continues.requests] at hfound
  split_ifs at hfound with heq
  · exact .inl ⟨heq.symm, (Option.some.inj hfound).symm⟩
  · exact .inr ⟨Ne.symm heq, hfound⟩

theorem Consistent.continues (consistent : client.Consistent)
    (hrequest : client.pendingRequests[uuid]? = some request)
    {cell : ℕ → SharedState Outcome} {next : Option Operation}
    (hothers : ∀ p, p ≠ request.promise → cell p = client.promises.cell p)
    (hopen : next ≠ none → cell request.promise = .unset)
    (continues : client.Continues uuid request response cell next t) : t.Consistent := by
  refine ⟨?_, continues.futures ▸ consistent.future_injective, fun p hp => ?_,
    fun other found hfound => ?_, fun other found hfound => ?_, fun other found hfound => ?_,
    fun other operation hoperation => ?_⟩
  · rw [continues.futures, continues.next]
    exact consistent.future_lt
  · rw [continues.next] at hp
    have hlt := consistent.promise_lt hrequest
    rw [continues.cell_eq, hothers p (by omega)]
    exact consistent.fresh p hp
  · rcases continues.request_cases hfound with ⟨rfl, rfl⟩ | ⟨-, hprior⟩
    · exact consistent.uuid_eq _ request hrequest
    · exact consistent.uuid_eq other found hprior
  · rw [continues.futures]
    rcases continues.request_cases hfound with ⟨rfl, rfl⟩ | ⟨-, hprior⟩
    · exact consistent.promise_eq _ request hrequest
    · exact consistent.promise_eq other found hprior
  · rcases continues.request_cases hfound with ⟨rfl, rfl⟩ | ⟨-, hprior⟩
    · exact consistent.walk_oid _ request hrequest
    · exact consistent.walk_oid other found hprior
  · rw [continues.operations] at hoperation
    rw [continues.cell_eq]
    by_cases heq : uuid = other
    · subst heq
      rw [Function.update_self] at hoperation
      exact ⟨_, (continues.requests uuid).trans (if_pos rfl), hopen (by simp [hoperation])⟩
    · rw [Function.update_of_ne (Ne.symm heq)] at hoperation
      obtain ⟨found, hfound, hunset⟩ := consistent.operation_open other operation hoperation
      refine ⟨found, (continues.requests other).trans ((if_neg heq).trans hfound), ?_⟩
      -- the promises of other requests are other ones
      rw [hothers, hunset]
      exact consistent.promise_ne hrequest heq (consistent.promise_eq other found hfound)

/-- After the callback of a walk the map agrees with the promises exactly if the
promise was not set. -/
private theorem pendingIffUnresolved_continues_iff (consistent : client.Consistent)
    (hpending : client.PendingIffUnresolved)
    (hrequest : client.pendingRequests[uuid]? = some request)
    {cell : ℕ → SharedState Outcome} {next : Option Operation}
    (hothers : ∀ p, p ≠ request.promise → cell p = client.promises.cell p)
    (continues : client.Continues uuid request response cell next t) :
    t.PendingIffUnresolved ↔ ¬ ∃ outcome, cell request.promise = .value outcome := by
  -- only the request of the walk itself is concerned: it stays in the map
  have hself := consistent.promise_eq _ _ hrequest
  constructor
  · intro hnext
    have hkept := hnext uuid request.promise (continues.futures ▸ hself)
    rw [continues.requests, if_pos rfl, continues.cell_eq] at hkept
    exact hkept.mp ⟨_, rfl⟩
  · intro hunresolved other p hfuture
    rw [continues.futures] at hfuture
    rw [continues.requests, continues.cell_eq]
    by_cases heq : uuid = other
    · subst heq
      obtain rfl := Option.some.inj (hself.symm.trans hfuture)
      rw [if_pos rfl]
      exact iff_of_true ⟨_, rfl⟩ hunresolved
    · rw [if_neg heq, hothers p (consistent.promise_ne hrequest heq hfuture)]
      exact hpending other p hfuture

/-! ## Steps and runs -/

/-- A step is a call, which opens a request, or a callback. -/
private theorem step_cases (hstep : client.step a = some t) :
    (client.LeavesWalksOpen a ∧ ∃ uuid request operation, client.futures uuid = none ∧
      client.Opens uuid request operation t) ∨
    ∃ uuid reason pdu, a = .callback uuid reason pdu ∧
      client.callback uuid reason pdu = some t := by
  cases a with
  | get uuid oids host =>
    obtain ⟨hnew, rfl⟩ : client.futures uuid = none ∧ client.getAsync uuid oids host = t := by
      simpa [step] using hstep
    exact .inl ⟨trivial, uuid, _, _, hnew, opens_createRequest client uuid host _⟩
  | getBulk uuid oids host nonRepeaters maxReps =>
    obtain ⟨hnew, rfl⟩ : client.futures uuid = none ∧
        client.getBulkAsync uuid oids host nonRepeaters maxReps = t := by
      simpa [step] using hstep
    exact .inl ⟨trivial, uuid, _, _, hnew, opens_createRequest client uuid host _⟩
  | walk uuid root host =>
    obtain ⟨hnew, rfl⟩ : client.futures uuid = none ∧ client.walkAsync uuid root host = t := by
      simpa [step] using hstep
    exact .inl ⟨trivial, uuid, _, _, hnew, opens_walkAsync client uuid root host⟩
  | callback uuid reason pdu => exact .inr ⟨uuid, reason, pdu, rfl, hstep⟩

/-- Every step keeps the client consistent. -/
theorem Consistent.step (consistent : client.Consistent) (hstep : client.step a = some t) :
    t.Consistent := by
  rcases step_cases hstep with
    ⟨-, uuid, request, operation, hnew, opens⟩ | ⟨uuid, reason, pdu, rfl, hcallback⟩
  · exact consistent.opens hnew opens
  · obtain ⟨operation, request, hoperation, hrequest, ⟨-, outcome, closes⟩ |
      ⟨-, -, -, response, outcome, continues⟩ | ⟨-, -, response, nextVb, continues⟩⟩ :=
        callback_cases (consistent.uuid_eq uuid) hcallback
    · exact consistent.closes hrequest closes
    · exact consistent.continues hrequest (fun p hne => Function.update_of_ne hne _ _)
        (absurd rfl) continues
    · exact consistent.continues hrequest (fun _ _ => rfl)
        (fun _ => consistent.unset hrequest hoperation) continues

/-- The step lemma: from a state whose map agrees with its promises, a step keeps
them so exactly if it leaves walks open. -/
theorem pendingIffUnresolved_of_step_iff (consistent : client.Consistent)
    (hpending : client.PendingIffUnresolved) (hstep : client.step a = some t) :
    t.PendingIffUnresolved ↔ client.LeavesWalksOpen a := by
  rcases step_cases hstep with
    ⟨hleaves, uuid, request, operation, -, opens⟩ | ⟨uuid, reason, pdu, rfl, hcallback⟩
  · exact iff_of_true (hpending.opens consistent opens) hleaves
  -- the guard speaks of the one request that the callback finds
  · have hleaves : ∀ {request : SnmpRequest}, client.pendingRequests[uuid]? = some request →
        (client.LeavesWalksOpen (.callback uuid reason pdu) ↔
          (request.isWalk = true → WalkGoesOn request reason pdu)) := by
      intro request hrequest
      refine ⟨fun hall => hall request hrequest, fun hself found hfound => ?_⟩
      exact Option.some.inj (hrequest.symm.trans hfound) ▸ hself
    obtain ⟨operation, request, hoperation, hrequest, ⟨hget, outcome, closes⟩ |
      ⟨hwalk, hstops, hunset, response, outcome, continues⟩ |
      ⟨hwalk, hon, response, nextVb, continues⟩⟩ :=
        callback_cases (consistent.uuid_eq uuid) hcallback
    · rw [hleaves hrequest]
      exact iff_of_true (hpending.closes consistent hrequest closes) (by simp [hget])
    · rw [hleaves hrequest, pendingIffUnresolved_continues_iff consistent hpending hrequest
        (fun p hne => Function.update_of_ne hne _ _) continues]
      simp [hwalk, hstops]
    · rw [hleaves hrequest, pendingIffUnresolved_continues_iff consistent hpending hrequest
        (fun _ _ => rfl) continues]
      simp [hwalk, hon, consistent.unset hrequest hoperation]

/-- **Along every run, the requests in the map are the unresolved ones exactly as
long as no callback of a walk resolves it.** -/
theorem pendingIffUnresolved_iff (trace : List (SnmpClient × Label)) (final : SnmpClient)
    (run : Run step initial trace final) :
    (∀ v ∈ visited trace final, v.PendingIffUnresolved) ↔
      ∀ x ∈ trace, x.1.LeavesWalksOpen x.2 :=
  run.forall_visited_iff (I := Consistent) .initial
    (fun _ _ _ consistent hstep => consistent.step hstep) (fun _ _ hfuture => by cases hfuture)
    fun _ _ _ => pendingIffUnresolved_of_step_iff

/-- A `get` that times out. -/
def getTimesOut : List Label :=
  [.get 0 [[1, 3, 6, 1]] (.ofOctets 10 0 0 7), .callback 0 .timeout []]

theorem pendingIffUnresolved_getTimesOut :
    ∃ final, exec step initial getTimesOut = some final ∧
      ∀ v ∈ visited (record step initial getTimesOut) final, v.PendingIffUnresolved := by
  have hexec := Option.some_get (x := exec step initial getTimesOut) (by decide)
  refine ⟨_, hexec.symm, (pendingIffUnresolved_iff _ _ (Run.of_exec hexec.symm)).mpr ?_⟩
  refine List.forall_mem_cons.mpr ⟨trivial, List.forall_mem_cons.mpr ⟨?_, nofun⟩⟩
  intro request hrequest hwalk
  obtain rfl := Option.some.inj (getElem?_store.symm.trans hrequest)
  cases hwalk

/-- A walk that times out. -/
def walkTimesOut : List Label :=
  [.walk 0 [1, 3, 6, 1] (.ofOctets 10 0 0 7), .callback 0 .timeout []]

/-- The request of the walk is resolved and still in the map. -/
theorem not_pendingIffUnresolved_walkTimesOut :
    ∃ final, Run step initial (record step initial walkTimesOut) final ∧
      ¬ final.PendingIffUnresolved := by
  have hexec := Option.some_get (x := exec step initial walkTimesOut) (by decide)
  refine ⟨_, Run.of_exec hexec.symm, fun hpending => ?_⟩
  have hself := hpending 0 0 (by decide)
  exact hself.mp (Option.isSome_iff_exists.mp (by decide)) ⟨.error .timedOut, rfl⟩

end NetDiscovery.Net.SnmpClient
