/-
# A walk beside other requests

`Walk` runs one walk alone against its agent. In a session the callers' statements and
the callbacks of all requests come in any order. The agent of one walk answers each of
its operations for the identifier that the operation started from; nothing is said of
the other requests, which may be refused, time out or be answered with anything.

What the walk will be resolved with is again determined by where it stands, and its
steps are the only ones that move it. So the outcome is the one of the walk alone. The
operations on the way start from the root and from some bindings of the subtree, in
order.
-/

import NetDiscovery.Net.Snmp.SessionResponses
import NetDiscovery.Net.Snmp.Walk
import NetDiscovery.Net.Snmp.WalkProgress
import NetDiscovery.Semantics.Behaviour
import NetDiscovery.Semantics.LeadsTo

namespace NetDiscovery.Net

open NetDiscovery.Semantics NetDiscovery.Util SnmpClient

/-- What remains of the MIB is the answer and what remains past its last binding. -/
theorem Mib.Answers.after_eq {mib : Mib} {oid : Oid} {pdu : Pdu} (answers : mib.Answers oid pdu)
    (hvalues : ∀ vb ∈ pdu, vb.value ≠ .endOfMibView) (last : Vb)
    (hlast : pdu = [] → last.oid = oid) :
    mib.after oid = pdu ++ mib.after (pdu.getLast?.getD last).oid := by
  induction answers generalizing last with
  | nil oid => simp [hlast rfl]
  | @successor oid vb pdu hnext _ ih =>
    have hrest := ih (fun other hmem => hvalues other (List.mem_cons_of_mem _ hmem)) vb fun _ => rfl
    rw [Mib.after_of_next_eq_some hnext, hrest, List.getLast?_cons, Option.getD_some,
      List.cons_append]
  | endOfMib _ _ hend => exact absurd hend (hvalues _ List.mem_cons_self)

namespace SnmpSession

/-- The request that a step is about. -/
def Label.uuid : Label → Uuid
  | .createRequest uuid _ _ | .handOver uuid _ | .takeFuture uuid | .callback uuid _ _ _ => uuid

variable {mib : Mib} {session t : SnmpSession} {uuid : Uuid} {p : ℕ} {root oid : Oid}
  {request : SnmpRequest} {track : Track} {reason : Reason} {pdu : Pdu} {accepted : Bool}
  {host : IPv4Address} {a : Label} {n : ℕ}

/-- The step is a callback of the request. -/
def CallsBack (uuid : Uuid) : Label → Prop
  | .callback other _ _ _ => other = uuid
  | _ => False

/-- The agent's part in a walk: each operation is accepted and answered for the
identifier it started from, and not by a timeout. -/
def ServesWalk (mib : Mib) (uuid : Uuid) (session : SnmpSession) : Label → Prop
  | .handOver other accepted => other = uuid → accepted = true
  | .callback other reason pdu accepted => other = uuid → accepted = true ∧ reason ≠ .timeout ∧
      1 ≤ pdu.length ∧ mib.Answers (lastRequested (session.tracks uuid).history) pdu
  | _ => True

/-- What a walk of a served MIB comes to. -/
def servedOutcome (mib : Mib) (root : Oid) : Outcome :=
  walkOutcome root .empty (mib.after root)

/-- The walk has not handed over its first operation. -/
structure Unsent (root : Oid) (request : SnmpRequest) (track : Track) : Prop where
  isWalk : request.isWalk = true
  walk_oid : request.walkOid = some root
  response : request.response = .empty
  stage : track.stage = .handOver (.getBulk [root] 0 10)
  history : track.history = []

/-- The walk waits for the bindings past `oid`. Of the subtree, it has asked from some of
the bindings up to there. -/
structure Asking (mib : Mib) (root oid : Oid) (request : SnmpRequest) (track : Track) : Prop where
  isWalk : request.isWalk = true
  walk_oid : request.walkOid = some root
  last : lastRequested track.history = oid
  under : root <+: oid
  outstanding : track.outstanding ≠ 0
  outcome_eq : walkOutcome root request.response (mib.after oid) = servedOutcome mib root
  asked : ∃ front tail, requested track.history = root :: tail ∧ tail.Sublist front ∧
    (mib.subtree root).map Vb.oid =
      front ++ ((mib.after oid).takeWhile fun vb => root.isPrefixOf vb.oid).map Vb.oid

/-- A walk that has asked from these names began with the root, and went on with some of
the subtree in order. -/
def AsksInOrder (mib : Mib) (root : Oid) (names : List Oid) : Prop :=
  ∃ tail, names = root :: tail ∧ tail.Sublist ((mib.subtree root).map Vb.oid)

/-- The walk is resolved, and has asked from the root and some of the subtree. -/
structure Walked (mib : Mib) (root : Oid) (cell : SharedState Outcome) (track : Track) : Prop where
  cell_eq : cell = .value (servedOutcome mib root)
  asked : AsksInOrder mib root (requested track.history)

/-- A request that waits in the map, with its promise unset. -/
def Waits (session : SnmpSession) (uuid : Uuid) (stands : SnmpRequest → Track → Prop) : Prop :=
  ∃ p request, session.client.futures uuid = some p ∧
    session.client.pendingRequests[uuid]? = some request ∧
    session.client.promises.cell p = .unset ∧ stands request (session.tracks uuid)

/-- A walk that is resolved in its session. Its request stays in the map. -/
def IsWalked (session : SnmpSession) (mib : Mib) (uuid : Uuid) (root : Oid) : Prop :=
  ∃ p request, session.client.futures uuid = some p ∧
    session.client.pendingRequests[uuid]? = some request ∧
    Walked mib root (session.client.promises.cell p) (session.tracks uuid)

/-! ## Steps of other requests -/

/-- A step leaves the requests alone that it is not about. -/
structure Unchanged (session : SnmpSession) (uuid : Uuid) (p : ℕ) (t : SnmpSession) : Prop where
  futures : t.client.futures uuid = some p
  pending : t.client.pendingRequests[uuid]? = session.client.pendingRequests[uuid]?
  cell : t.client.promises.cell p = session.client.promises.cell p
  tracks : t.tracks uuid = session.tracks uuid

/-- Every step but a creation is an effect on the request that it is about. -/
theorem Coherent.changes_of_step (coherent : session.Coherent) (hstep : session.step a = some t)
    (hcreates : ¬ ∃ call host, a = .createRequest a.uuid call host) :
    ∃ q found cell track, session.client.futures a.uuid = some q ∧
      session.Changes a.uuid q found cell track t := by
  cases a with
  | createRequest other call host => exact absurd ⟨call, host, rfl⟩ hcreates
  | handOver other accepted =>
    obtain ⟨operation, hstage, rfl⟩ := step_handOver hstep
    obtain ⟨q, status, hother, -⟩ := coherent.exists_tracked other (by simp [hstage])
    exact ⟨q, _, _, _, hother, changes_handOver session other q operation accepted⟩
  | takeFuture other =>
    obtain ⟨hstage, rfl⟩ := step_takeFuture hstep
    obtain ⟨q, status, hother, -⟩ := coherent.exists_tracked other (by simp [hstage])
    exact ⟨q, _, _, _, hother, changes_advance session other q _⟩
  | callback other reason pdu accepted =>
    obtain ⟨houtstanding, rfl⟩ := step_callback hstep
    obtain ⟨request, -, hother, -, ⟨-, _, changes⟩ | ⟨-, -, _, _, changes⟩ |
      ⟨-, -, _, _, _, -, changes⟩⟩ := coherent.callback_cases reason pdu accepted houtstanding
    all_goals exact ⟨_, _, _, _, hother, changes⟩

theorem Coherent.tracks_of_step (coherent : session.Coherent) (hstep : session.step a = some t)
    (hne : uuid ≠ a.uuid) : t.tracks uuid = session.tracks uuid := by
  by_cases hcreates : ∃ call host, a = .createRequest a.uuid call host
  · obtain ⟨call, host, hlabel⟩ := hcreates
    rw [hlabel] at hstep
    obtain ⟨-, rfl⟩ := step_createRequest hstep
    exact (createRequest_of_ne session call host hne).2.2
  · obtain ⟨q, found, cell, track, -, changes⟩ := coherent.changes_of_step hstep hcreates
    rw [changes.tracks, Function.update_of_ne hne]

theorem Coherent.unchanged (coherent : session.Coherent)
    (hfuture : session.client.futures uuid = some p) (hstep : session.step a = some t)
    (hne : uuid ≠ a.uuid) : session.Unchanged uuid p t := by
  have htracks := coherent.tracks_of_step hstep hne
  by_cases hcreates : ∃ call host, a = .createRequest a.uuid call host
  · obtain ⟨call, host, hlabel⟩ := hcreates
    rw [hlabel] at hstep
    obtain ⟨-, rfl⟩ := step_createRequest hstep
    obtain ⟨hkept, hpending, -⟩ := createRequest_of_ne session call host hne
    obtain ⟨request, opens⟩ := opens_callCreateRequest call session.client a.uuid host
    have hcell : (session.createRequest a.uuid call host).client.promises.cell p =
        session.client.promises.cell p := congrFun (congrArg PromiseStore.cell opens.promises) p
    exact ⟨hkept.trans hfuture, hpending, hcell, htracks⟩
  · obtain ⟨q, found, cell, track, hother, changes⟩ := coherent.changes_of_step hstep hcreates
    obtain ⟨hkept, hpending, hcell⟩ := coherent.frame hother changes hfuture hne
    exact ⟨hkept, hpending, hcell, htracks⟩

theorem Waits.of_unchanged {stands : SnmpRequest → Track → Prop} (waits : session.Waits uuid stands)
    (hunchanged : ∀ p, session.client.futures uuid = some p → session.Unchanged uuid p t) :
    t.Waits uuid stands := by
  obtain ⟨p, request, hfuture, hpending, hunset, hstands⟩ := waits
  have unchanged := hunchanged p hfuture
  refine ⟨p, request, unchanged.futures, unchanged.pending.trans hpending,
    unchanged.cell.trans hunset, ?_⟩
  rwa [unchanged.tracks]

theorem IsWalked.of_unchanged (walked : session.IsWalked mib uuid root)
    (hunchanged : ∀ p, session.client.futures uuid = some p → session.Unchanged uuid p t) :
    t.IsWalked mib uuid root := by
  obtain ⟨p, request, hfuture, hpending, hwalked⟩ := walked
  have unchanged := hunchanged p hfuture
  refine ⟨p, request, unchanged.futures, unchanged.pending.trans hpending, ?_⟩
  rwa [unchanged.cell, unchanged.tracks]

/-! ## The walk's own steps -/

/-- A new walk is unsent. -/
theorem Coherent.unsent_createRequest (coherent : session.Coherent)
    (hstep : session.step (.createRequest uuid (.walk root) host) = some t) :
    t.Waits uuid (Unsent root) := by
  obtain ⟨hstage, rfl⟩ := step_createRequest hstep
  have htrack := (coherent.new uuid (coherent.future_eq_none hstage)).1
  have opens := opens_walkAsync session.client uuid root host
  have hrequest := (opens.requests uuid).trans (if_pos rfl)
  have hfuture := (congrFun opens.futures uuid).trans (Function.update_self _ _ _)
  have hcell := (congrFun (congrArg PromiseStore.cell opens.promises) _).trans
    (coherent.fresh _ le_rfl)
  refine ⟨_, _, hfuture, hrequest, hcell, rfl, rfl, rfl, ?_, ?_⟩
  · simp [SnmpSession.createRequest, Call.operation]
  · simp [SnmpSession.createRequest, htrack, Track.new]

/-- Once it is handed over, it waits for what comes after the root. -/
theorem Waits.handOver (waits : session.Waits uuid (Unsent root))
    (hstep : session.step (.handOver uuid true) = some t) :
    t.Waits uuid (Asking mib root root) := by
  obtain ⟨operation, hstage, rfl⟩ := step_handOver hstep
  obtain ⟨p, request, hfuture, hpending, hunset, unsent⟩ := waits
  obtain rfl : Operation.getBulk [root] 0 10 = operation := by
    have hsame := unsent.stage.symm.trans hstage
    exact Stage.handOver.inj hsame
  have changes := changes_handOver session uuid p (.getBulk [root] 0 10) true
  refine ⟨p, request, changes.futures ▸ hfuture, changes.found_eq.trans hpending,
    changes.cell_self.trans hunset, ?_⟩
  rw [changes.track_eq]
  have hrequested : requested ((session.tracks uuid).issue (.getBulk [root] 0 10) true).history =
      [root] := by
    simp [Track.issue, Track.add, unsent.history, start]
  refine ⟨unsent.isWalk, unsent.walk_oid, ?_, List.prefix_rfl, ?_, ?_, [], [], ?_, .slnil, ?_⟩
  · simp [lastRequested, hrequested]
  · simp [Track.issue]
  · rw [unsent.response, servedOutcome]
  · exact hrequested
  · rw [List.nil_append, Mib.takeWhile_after]

/-- The names that a walk has asked for so far are among those of the whole subtree. -/
theorem Asking.asksInOrder (asking : Asking mib root oid request track) :
    AsksInOrder mib root (requested track.history) := by
  obtain ⟨front, tail, hrequested, htail, hsplit⟩ := asking.asked
  refine ⟨tail, hrequested, ?_⟩
  rw [hsplit]
  exact htail.trans (List.sublist_append_left _ _)

/-- A walk that goes on has asked from the last binding of the answer. -/
theorem Asking.next (asking : Asking mib root oid request track) (answers : mib.Answers oid pdu)
    (hpdu : 1 ≤ pdu.length) (hunder : AllUnder root pdu) {vb : Vb}
    (hlast : pdu.getLast? = some vb) :
    ∃ front tail, requested track.history ++ [vb.oid] = root :: tail ∧ tail.Sublist front ∧
      (mib.subtree root).map Vb.oid =
        front ++ ((mib.after vb.oid).takeWhile fun vb => root.isPrefixOf vb.oid).map Vb.oid := by
  obtain ⟨front, tail, hrequested, htail, hsplit⟩ := asking.asked
  have hafter := answers.after_eq (fun vb hvb => (hunder vb hvb).2) .default
    fun hnil => absurd hpdu (by simp [hnil])
  rw [hlast, Option.getD_some] at hafter
  refine ⟨front ++ pdu.map Vb.oid, tail ++ [vb.oid], ?_, ?_, ?_⟩
  · rw [hrequested, List.cons_append]
  · refine htail.append (List.singleton_sublist.mpr ?_)
    exact List.mem_map_of_mem (List.mem_of_getLast? hlast)
  · rw [hsplit, hafter, List.takeWhile_append_of_pos fun vb hvb => by
      simpa using (hunder vb hvb).1, List.map_append, List.append_assoc]

/-- The callback with the answer resolves the walk, or the walk asks on with less
remaining. -/
theorem Coherent.asking_callback (coherent : session.Coherent)
    (waits : session.Waits uuid (Asking mib root oid)) (hreason : reason ≠ .timeout)
    (hpdu : 1 ≤ pdu.length) (answers : mib.Answers oid pdu)
    (hstep : session.step (.callback uuid reason pdu true) = some t) :
    t.IsWalked mib uuid root ∨ ∃ next, t.Waits uuid (Asking mib root next) ∧
      (mib.after next).length < (mib.after oid).length := by
  obtain ⟨houtstanding, rfl⟩ := step_callback hstep
  obtain ⟨p, request, hfuture, hrequest, hunset, asking⟩ := waits
  obtain ⟨found, hfound, hfuture', -, tracked⟩ := coherent.exists_waiting houtstanding
  obtain rfl := Option.some.inj (hrequest.symm.trans hfound)
  obtain rfl := Option.some.inj (hfuture.symm.trans hfuture')
  obtain ⟨huuid, -, -⟩ := tracked.request request rfl
  -- the answer leaves the subtree, or the walk asks on from its last binding
  rcases walkPdu_cases request.response .default answers asking.under
      (fun hnil => absurd hpdu (by simp [hnil])) with
    ⟨collected, hexit⟩ | ⟨collected, nextVb, hexit, hunder, houtcome, hlength⟩
  · have changes : session.Changes uuid request.promise
        (some { request with response := collected })
        (.value (walkOutcome root request.response (mib.after oid))) _
        (session.callback uuid reason pdu true) :=
      changes_callback_resolve hrequest huuid asking.isWalk asking.walk_oid hunset hreason hexit
    refine .inl ⟨request.promise, _, changes.futures ▸ hfuture, changes.found_eq, ?_⟩
    rw [changes.cell_self, changes.track_eq, asking.outcome_eq]
    refine ⟨rfl, ?_⟩
    simpa [Track.add, Track.deliver] using asking.asksInOrder
  · have hall : AllUnder root pdu := walkPdu_eq_again_iff.mp ⟨_, _, hexit⟩
    have hgoes : WalkGoesOn request reason pdu := by
      refine ⟨hreason, fun other hother => ?_⟩
      obtain rfl := Option.some.inj (asking.walk_oid.symm.trans hother)
      exact hall
    obtain ⟨collected', nextVb', hexit', hchanges⟩ :=
      changes_callback_again hrequest huuid asking.isWalk asking.walk_oid hgoes
    obtain ⟨rfl, rfl⟩ := WalkExit.again.inj (hexit.symm.trans hexit')
    have changes : session.Changes uuid request.promise
        (some { request with response := collected }) _
        ((session.tracks uuid).deliver.issue (.getBulk [nextVb.oid] 0 10) true)
        (session.callback uuid reason pdu true) := hchanges
    refine .inr ⟨nextVb.oid, ⟨request.promise, _, changes.futures ▸ hfuture, changes.found_eq,
      changes.cell_self.trans hunset, ?_⟩, by omega⟩
    have hlast : pdu.getLast? = some nextVb := by
      obtain ⟨vb, hvb⟩ : ∃ vb, pdu.getLast? = some vb := by
        rw [← Option.isSome_iff_exists, List.getLast?_isSome]
        rintro rfl
        cases hpdu
      rw [walkPdu_again_eq hexit, hvb, Option.getD_some]
    -- so what is requested next comes after all that was requested before
    have hrequested : requested ((session.tracks uuid).deliver.issue
        (.getBulk [nextVb.oid] 0 10) true).history =
          requested (session.tracks uuid).history ++ [nextVb.oid] := by
      simp [Track.issue, Track.add, Track.deliver, start]
    rw [changes.track_eq]
    refine ⟨asking.isWalk, asking.walk_oid, ?_, hunder, ?_, houtcome.trans asking.outcome_eq, ?_⟩
    · simp [lastRequested, hrequested]
    · simp [Track.issue]
    · rw [hrequested]
      exact asking.next answers hpdu hall hlast

/-! ## Every step -/

/-- A request with a promise has been created. -/
theorem Coherent.ne_createRequest (coherent : session.Coherent)
    (hfuture : session.client.futures uuid = some p) :
    (session.tracks uuid).stage ≠ .createRequest := by
  intro hstage
  cases hfuture.symm.trans (coherent.future_eq_none hstage)

/-- A request whose operation is still to be handed over is unsent. -/
theorem Coherent.tracked_unsent (coherent : session.Coherent) {operation : Operation}
    (hfuture : session.client.futures uuid = some p)
    (hstage : (session.tracks uuid).stage = .handOver operation) :
    (session.tracks uuid).outstanding = 0 ∧ session.client.promises.cell p = .unset := by
  obtain ⟨status, tracked⟩ := coherent.tracked uuid p hfuture
  obtain rfl := tracked.eq_unsent hstage
  refine ⟨tracked.outstanding, ?_⟩
  rw [tracked.cell_eq, tracked.life.eq_nil]
  rfl

/-- Taking the future changes nothing but the stage. -/
theorem changes_takeFuture (hstep : session.step (.takeFuture uuid) = some t)
    (hfuture : session.client.futures uuid = some p) :
    t.client.futures uuid = some p ∧
      t.client.pendingRequests[uuid]? = session.client.pendingRequests[uuid]? ∧
      t.client.promises.cell p = session.client.promises.cell p ∧
      (t.tracks uuid).history = (session.tracks uuid).history ∧
      (t.tracks uuid).outstanding = (session.tracks uuid).outstanding := by
  obtain ⟨-, rfl⟩ := step_takeFuture hstep
  have changes := changes_advance session uuid p
    (.returned (session.client.pendingRequests[uuid]?.map SnmpRequest.promise))
  refine ⟨changes.futures ▸ hfuture, changes.found_eq, changes.cell_self, ?_, ?_⟩
  · rw [changes.track_eq]
  · rw [changes.track_eq]

/-- An unsent walk waits for its hand-over. -/
theorem Coherent.unsent_step (coherent : session.Coherent)
    (waits : session.Waits uuid (Unsent root))
    (serves : session.ServesWalk mib uuid a) (hstep : session.step a = some t) :
    (t.Waits uuid (Unsent root) ∧ ¬ ∃ accepted, a = .handOver uuid accepted) ∨
      t.Waits uuid (Asking mib root root) := by
  by_cases hne : uuid = a.uuid
  · obtain ⟨p, request, hfuture, -, -, unsent⟩ := id waits
    cases a with
    | createRequest other call host =>
      obtain rfl : uuid = other := hne
      exact absurd (step_createRequest hstep).1 (coherent.ne_createRequest hfuture)
    | handOver other accepted =>
      obtain rfl : uuid = other := hne
      obtain rfl : accepted = true := serves rfl
      exact .inr (waits.handOver hstep)
    | takeFuture other =>
      obtain rfl : uuid = other := hne
      cases unsent.stage.symm.trans (step_takeFuture hstep).1
    | callback other reason pdu accepted =>
      obtain rfl : uuid = other := hne
      exact absurd (coherent.tracked_unsent hfuture unsent.stage).1 (step_callback hstep).1
  · refine .inl ⟨waits.of_unchanged fun p hfuture => coherent.unchanged hfuture hstep hne, ?_⟩
    rintro ⟨accepted, rfl⟩
    exact hne rfl

/-- A walk that has asked waits for its callback, which resolves it or leaves less to
remain. -/
theorem Coherent.asking_step (coherent : session.Coherent)
    (waits : session.Waits uuid (Asking mib root oid)) (serves : session.ServesWalk mib uuid a)
    (hstep : session.step a = some t) :
    (t.Waits uuid (Asking mib root oid) ∧ ¬ CallsBack uuid a) ∨ t.IsWalked mib uuid root ∨
      ∃ next, t.Waits uuid (Asking mib root next) ∧
        (mib.after next).length < (mib.after oid).length := by
  by_cases hne : uuid = a.uuid
  · obtain ⟨p, request, hfuture, hpending, hunset, asking⟩ := id waits
    cases a with
    | createRequest other call host =>
      obtain rfl : uuid = other := hne
      exact absurd (step_createRequest hstep).1 (coherent.ne_createRequest hfuture)
    | handOver other accepted =>
      obtain rfl : uuid = other := hne
      -- the operation of the call has been handed over already
      obtain ⟨operation, hstage, -⟩ := step_handOver hstep
      exact absurd (coherent.tracked_unsent hfuture hstage).1 asking.outstanding
    | takeFuture other =>
      obtain rfl : uuid = other := hne
      obtain ⟨hkept, hfound, hcell, hhistory, houtstanding⟩ := changes_takeFuture hstep hfuture
      refine .inl ⟨⟨p, request, hkept, hfound.trans hpending, hcell.trans hunset, asking.isWalk,
        asking.walk_oid, ?_, asking.under, ?_, asking.outcome_eq, ?_⟩, id⟩
      · rw [hhistory, asking.last]
      · rw [houtstanding]
        exact asking.outstanding
      · rw [hhistory]
        exact asking.asked
    | callback other reason pdu accepted =>
      obtain rfl : uuid = other := hne
      obtain ⟨rfl, hreason, hpdu, answers⟩ := serves rfl
      rw [asking.last] at answers
      exact .inr (coherent.asking_callback waits hreason hpdu answers hstep)
  -- a step of another request
  · refine .inl ⟨waits.of_unchanged fun p hfuture => coherent.unchanged hfuture hstep hne, ?_⟩
    intro hcalls
    cases a with
    | callback other reason pdu accepted => exact hne hcalls.symm
    | createRequest | handOver | takeFuture => exact hcalls

/-- A resolved walk stays as it is. -/
theorem Coherent.walked_step (coherent : session.Coherent) (walked : session.IsWalked mib uuid root)
    (hstep : session.step a = some t) : t.IsWalked mib uuid root := by
  by_cases hne : uuid = a.uuid
  · obtain ⟨p, request, hfuture, hpending, hwalked⟩ := id walked
    have hvalue := hwalked.cell_eq
    cases a with
    | createRequest other call host =>
      obtain rfl : uuid = other := hne
      exact absurd (step_createRequest hstep).1 (coherent.ne_createRequest hfuture)
    | handOver other accepted =>
      obtain rfl : uuid = other := hne
      obtain ⟨operation, hstage, -⟩ := step_handOver hstep
      cases (coherent.tracked_unsent hfuture hstage).2.symm.trans hvalue
    | takeFuture other =>
      obtain rfl : uuid = other := hne
      obtain ⟨hkept, hfound, hcell, hhistory, -⟩ := changes_takeFuture hstep hfuture
      refine ⟨p, request, hkept, hfound.trans hpending, hcell.trans hvalue, ?_⟩
      rw [hhistory]
      exact hwalked.asked
    | callback other reason pdu accepted =>
      obtain rfl : uuid = other := hne
      -- a callback would find the promise unset
      obtain ⟨request, -, hfuture', hunset, -⟩ := coherent.exists_waiting (step_callback hstep).1
      obtain rfl := Option.some.inj (hfuture.symm.trans hfuture')
      cases hunset.symm.trans hvalue
  · exact walked.of_unchanged fun p hfuture => coherent.unchanged hfuture hstep hne

/-! ## Behaviours -/

variable {b : Behaviour SnmpSession.step SnmpSession.initial}

/-- The caller of the request and the session do their part in it. -/
structure Fair (b : Behaviour SnmpSession.step SnmpSession.initial) (uuid : Uuid) : Prop where
  /-- a caller with an operation to hand over does so -/
  handsOver : b.Answers
    (fun session => ∃ operation, (session.tracks uuid).stage = .handOver operation)
    fun _ a => ∃ accepted, a = .handOver uuid accepted
  /-- the session calls back for each operation -/
  callsBack : b.Answers (fun session => (session.tracks uuid).outstanding ≠ 0)
    fun _ a => CallsBack uuid a

/-- The agent does its part in the walk whenever the session takes a step. -/
def Served (b : Behaviour SnmpSession.step SnmpSession.initial) (mib : Mib) (uuid : Uuid) : Prop :=
  ∀ n a, b.label n = some a → (b.state n).ServesWalk mib uuid a

theorem coherent_state (b : Behaviour SnmpSession.step SnmpSession.initial) (n : ℕ) :
    (b.state n).Coherent :=
  b.invariant .initial (fun _ _ _ coherent hstep => coherent.step hstep) n

/-- The walk waits for an answer. -/
def IsAsking (session : SnmpSession) (mib : Mib) (uuid : Uuid) (root : Oid) : Prop :=
  ∃ oid, session.Waits uuid (Asking mib root oid)

/-- How much of the MIB remains past what the request has asked from. -/
def remaining (mib : Mib) (uuid : Uuid) (session : SnmpSession) : ℕ :=
  (mib.after (lastRequested (session.tracks uuid).history)).length

theorem Waits.remaining_eq (waits : session.Waits uuid (Asking mib root oid)) :
    remaining mib uuid session = (mib.after oid).length := by
  obtain ⟨p, request, -, -, -, asking⟩ := waits
  rw [remaining, asking.last]

/-- At each time a walk that has asked waits as before, is resolved, or has less to remain. -/
theorem asking_next (served : Served b mib uuid)
    (waits : (b.state n).Waits uuid (Asking mib root oid)) :
    ((b.state (n + 1)).Waits uuid (Asking mib root oid) ∧
        ¬ ∃ a, b.label n = some a ∧ CallsBack uuid a) ∨
      (b.state (n + 1)).IsWalked mib uuid root ∨
        ∃ next, (b.state (n + 1)).Waits uuid (Asking mib root next) ∧
          (mib.after next).length < (mib.after oid).length := by
  rcases b.next_cases n with ⟨hlabel, hstays⟩ | ⟨a, hlabel, hstep⟩
  · refine .inl ⟨hstays ▸ waits, ?_⟩
    simp [hlabel]
  · rcases (coherent_state b n).asking_step waits (served n a hlabel) hstep with
      ⟨hstill, hquiet⟩ | hlater
    · refine .inl ⟨hstill, ?_⟩
      simpa [hlabel] using hquiet
    · exact .inr hlater

theorem unsent_next (served : Served b mib uuid)
    (waits : (b.state n).Waits uuid (Unsent root)) :
    ((b.state (n + 1)).Waits uuid (Unsent root) ∧
        ¬ ∃ a, b.label n = some a ∧ ∃ accepted, a = .handOver uuid accepted) ∨
      (b.state (n + 1)).Waits uuid (Asking mib root root) := by
  rcases b.next_cases n with ⟨hlabel, hstays⟩ | ⟨a, hlabel, hstep⟩
  · refine .inl ⟨hstays ▸ waits, ?_⟩
    simp [hlabel]
  · rcases (coherent_state b n).unsent_step waits (served n a hlabel) hstep with
      ⟨hstill, hquiet⟩ | hasks
    · refine .inl ⟨hstill, ?_⟩
      simpa [hlabel] using hquiet
    · exact .inr hasks

/-- Each answer resolves the walk or leaves less to remain. -/
theorem leadsTo_walked (served : Served b mib uuid) (fair : Fair b uuid) :
    LeadsTo (fun n => (b.state n).IsAsking mib uuid root)
      fun n => (b.state n).IsWalked mib uuid root := by
  refine .of_rank (fun n => remaining mib uuid (b.state n)) fun k => ?_
  refine Behaviour.leadsTo_of_answers fair.callsBack ?_ ?_ ?_
  · rintro n ⟨⟨oid, p, request, -, -, -, asking⟩, -⟩
    exact asking.outstanding
  · rintro n ⟨⟨oid, waits⟩, rfl⟩
    rcases asking_next served waits with ⟨hstill, -⟩ | hwalked | ⟨next, hnext, hless⟩
    · exact .inl ⟨⟨oid, hstill⟩, hstill.remaining_eq.trans waits.remaining_eq.symm⟩
    · exact .inr (.inl hwalked)
    · refine .inr (.inr ⟨⟨next, hnext⟩, ?_⟩)
      rwa [hnext.remaining_eq, waits.remaining_eq]
  · rintro n a ⟨⟨oid, waits⟩, rfl⟩ hlabel hcalls
    rcases asking_next served waits with ⟨-, hquiet⟩ | hwalked | ⟨next, hnext, hless⟩
    · exact absurd ⟨a, hlabel, hcalls⟩ hquiet
    · exact .inl hwalked
    · refine .inr ⟨⟨next, hnext⟩, ?_⟩
      rwa [hnext.remaining_eq, waits.remaining_eq]

theorem leadsTo_asking (served : Served b mib uuid) (fair : Fair b uuid) :
    LeadsTo (fun n => (b.state n).Waits uuid (Unsent root))
      fun n => (b.state n).IsAsking mib uuid root := by
  refine Behaviour.leadsTo_of_answers fair.handsOver ?_ ?_ ?_
  · rintro n ⟨p, request, -, -, -, unsent⟩
    exact ⟨_, unsent.stage⟩
  · intro n waits
    rcases unsent_next served waits with ⟨hstill, -⟩ | hasks
    · exact .inl hstill
    · exact .inr ⟨root, hasks⟩
  · intro n a waits hlabel hhands
    rcases unsent_next served waits with ⟨-, hquiet⟩ | hasks
    · exact absurd ⟨a, hlabel, hhands⟩ hquiet
    · exact ⟨root, hasks⟩

/-- Where a walk can be once it has been called. -/
def Underway (session : SnmpSession) (mib : Mib) (uuid : Uuid) (root : Oid) : Prop :=
  session.Waits uuid (Unsent root) ∨ session.IsAsking mib uuid root ∨ session.IsWalked mib uuid root

theorem Coherent.underway_step (coherent : session.Coherent)
    (underway : session.Underway mib uuid root) (serves : session.ServesWalk mib uuid a)
    (hstep : session.step a = some t) : t.Underway mib uuid root := by
  rcases underway with hunsent | ⟨oid, hasking⟩ | hwalked
  · rcases coherent.unsent_step hunsent serves hstep with ⟨hstill, -⟩ | hasks
    · exact .inl hstill
    · exact .inr (.inl ⟨root, hasks⟩)
  · rcases coherent.asking_step hasking serves hstep with ⟨hstill, -⟩ | hwalked | ⟨next, hnext, -⟩
    · exact .inr (.inl ⟨oid, hstill⟩)
    · exact .inr (.inr hwalked)
    · exact .inr (.inl ⟨next, hnext⟩)
  · exact .inr (.inr (coherent.walked_step hwalked hstep))

theorem Underway.requested_eq (underway : session.Underway mib uuid root) :
    requested (session.tracks uuid).history = [] ∨
      AsksInOrder mib root (requested (session.tracks uuid).history) := by
  rcases underway with ⟨p, request, -, -, -, unsent⟩ | ⟨oid, p, request, -, -, -, asking⟩ |
    ⟨p, request, -, -, walked⟩
  · rw [unsent.history]
    exact .inl rfl
  · exact .inr asking.asksInOrder
  · exact .inr walked.asked

theorem underway_next (served : Served b mib uuid)
    (underway : (b.state n).Underway mib uuid root) :
    (b.state (n + 1)).Underway mib uuid root := by
  rcases b.next_cases n with ⟨-, hstays⟩ | ⟨a, hlabel, hstep⟩
  · exact hstays ▸ underway
  · exact (coherent_state b n).underway_step underway (served n a hlabel) hstep

theorem walked_next (walked : (b.state n).IsWalked mib uuid root) :
    (b.state (n + 1)).IsWalked mib uuid root := by
  rcases b.next_cases n with ⟨-, hstays⟩ | ⟨a, -, hstep⟩
  · exact hstays ▸ walked
  · exact (coherent_state b n).walked_step walked hstep

/-- The call of a walk begins it. -/
theorem unsent_of_call (hcall : b.label n = some (.createRequest uuid (.walk root) host)) :
    (b.state (n + 1)).Waits uuid (Unsent root) :=
  (coherent_state b n).unsent_createRequest (b.step_of_label hcall)

/-- Once it is called it is resolved, and stays so. -/
theorem eventually_walked (served : Served b mib uuid) (fair : Fair b uuid)
    (hcall : b.label n = some (.createRequest uuid (.walk root) host)) :
    ∃ m, n < m ∧ ∀ k, m ≤ k → (b.state k).IsWalked mib uuid root := by
  obtain ⟨m, hm, hwalked⟩ := ((leadsTo_asking served fair).trans (leadsTo_walked served fair))
    (n + 1) (unsent_of_call hcall)
  exact ⟨m, hm, fun k hk => Nat.le_induction hwalked (fun _ _ => walked_next) k hk⟩

theorem underway_of_call (served : Served b mib uuid)
    (hcall : b.label n = some (.createRequest uuid (.walk root) host)) {k : ℕ} (hk : n < k) :
    (b.state k).Underway mib uuid root :=
  Nat.le_induction (P := fun k _ => (b.state k).Underway mib uuid root)
    (.inl (unsent_of_call hcall)) (fun _ _ => underway_next served) k hk

/-- A walk is resolved with the outcome of the walk alone. Its first operation starts from
the root, and the others from bindings of the subtree, each at most once and in order. -/
structure Walks (b : Behaviour SnmpSession.step SnmpSession.initial) (mib : Mib) (uuid : Uuid)
    (root : Oid) (n : ℕ) : Prop where
  resolved : ∃ m, n < m ∧ ∀ k, m ≤ k → ∃ p, (b.state k).client.futures uuid = some p ∧
    (b.state k).client.promises.cell p = .value (servedOutcome mib root)
  requested : ∀ k, n < k → requested ((b.state k).tracks uuid).history = [] ∨
    AsksInOrder mib root (requested ((b.state k).tracks uuid).history)

/-- **In every fair behaviour of a session a walk whose agent serves it is resolved as if
it were alone, whatever the other requests do.** -/
theorem walks_of_fair (b : Behaviour SnmpSession.step SnmpSession.initial) (mib : Mib)
    (uuid : Uuid) (root : Oid) (host : IPv4Address) (fair : Fair b uuid)
    (served : Served b mib uuid) (n : ℕ)
    (hcall : b.label n = some (.createRequest uuid (.walk root) host)) :
    Walks b mib uuid root n := by
  constructor
  · obtain ⟨m, hm, hwalked⟩ := eventually_walked served fair hcall
    refine ⟨m, hm, fun k hk => ?_⟩
    obtain ⟨p, request, hfuture, -, walked⟩ := hwalked k hk
    exact ⟨p, hfuture, walked.cell_eq⟩
  · exact fun k hk => (underway_of_call served hcall hk).requested_eq

/-- A walk of `innerSubtree` in two answers, beside a `get` that times out. -/
def walkBesideTimeout : List Label :=
  [.createRequest 0 (.walk [1, 3, 6, 1]) (.ofOctets 10 0 0 7),
    .createRequest 1 (.get [[1, 3, 6, 1]]) (.ofOctets 10 0 0 8), .handOver 0 true, .handOver 1 true,
    .callback 0 .asyncResponse [integer [1, 3, 6, 1, 2] 7] true, .callback 1 .timeout [] true,
    .takeFuture 0,
    .callback 0 .asyncResponse [integer [1, 3, 6, 1, 5] 8, integer [1, 3, 6, 2] 9] true]

theorem walks_walkBesideTimeout : ∃ b : Behaviour step initial,
    Fair b 0 ∧ Served b innerSubtree 0 ∧ Walks b innerSubtree 0 [1, 3, 6, 1] 0 := by
  have hexec := Option.some_get (x := exec step initial walkBesideTimeout) (by decide)
  have fair : Fair (Behaviour.ofExec hexec.symm) 0 := by
    constructor
    -- the operation is handed over
    · refine Behaviour.answers_ofExec ?_ ?_
      · rintro ⟨operation, hstage⟩
        cases hstage
      · rintro n hn ⟨operation, hstage⟩
        change n < 8 at hn
        interval_cases n
        · cases hstage
        · exact ⟨2, by decide, by decide, true, rfl⟩
        · exact ⟨2, by decide, by decide, true, rfl⟩
        all_goals cases hstage
    -- the session calls back for both operations
    · refine Behaviour.answers_ofExec (fun houtstanding => houtstanding rfl) ?_
      intro n hn houtstanding
      change n < 8 at hn
      interval_cases n
      · exact absurd rfl houtstanding
      · exact absurd rfl houtstanding
      · exact absurd rfl houtstanding
      · exact ⟨4, by decide, by decide, rfl⟩
      · exact ⟨4, by decide, by decide, rfl⟩
      all_goals exact ⟨7, by decide, by decide, rfl⟩
  have served : Served (Behaviour.ofExec hexec.symm) innerSubtree 0 := by
    refine Behaviour.forall_ofExec ?_
    intro n hn
    change n < 8 at hn
    interval_cases n
    · trivial
    · trivial
    · exact fun _ => rfl
    · exact fun _ => rfl
    · exact fun _ => ⟨rfl, by decide, by decide, .successor rfl (.nil _)⟩
    · exact fun h => absurd h (by decide)
    · trivial
    · exact fun _ => ⟨rfl, by decide, by decide, .successor rfl (.successor rfl (.nil _))⟩
  exact ⟨_, fair, served, walks_of_fair _ _ _ _ _ fair served 0 rfl⟩

end SnmpSession

end NetDiscovery.Net
