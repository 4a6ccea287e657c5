/-
# Coherent sessions

In every reachable state each request has had a well-conducted life so far, and
its track, its promise and its place in the client's map agree on where it
stands. The effect of a step on one request is compared with that life; the
other requests are as they were.
-/

import NetDiscovery.Net.Snmp.SnmpSession

namespace NetDiscovery.Net.SnmpSession

open NetDiscovery.Semantics NetDiscovery.Util SnmpClient

variable {session t : SnmpSession} {uuid : Uuid} {p : ℕ} {track : Track}
  {cell : SharedState Outcome} {found : Option SnmpRequest} {operation : Operation}
  {reason : Reason} {pdu : Pdu} {accepted : Bool} {status : RequestStatus} {host : IPv4Address}
  {call : Call} {a : Label}

/-! ## Steps -/

theorem step_createRequest (hstep : session.step (.createRequest uuid call host) = some t) :
    (session.tracks uuid).stage = .createRequest ∧ session.createRequest uuid call host = t := by
  simp only [step] at hstep
  split at hstep
  · rename_i hstage
    exact ⟨hstage, Option.some.inj hstep⟩
  · cases hstep

theorem step_handOver (hstep : session.step (.handOver uuid accepted) = some t) :
    ∃ operation, (session.tracks uuid).stage = .handOver operation ∧
      (session.issue uuid operation accepted).advance uuid .takeFuture = t := by
  simp only [step] at hstep
  split at hstep
  · rename_i operation hstage
    exact ⟨operation, hstage, Option.some.inj hstep⟩
  · cases hstep

theorem step_takeFuture (hstep : session.step (.takeFuture uuid) = some t) :
    (session.tracks uuid).stage = .takeFuture ∧ session.advance uuid
      (.returned (session.client.pendingRequests[uuid]?.map SnmpRequest.promise)) = t := by
  simp only [step] at hstep
  split at hstep
  · rename_i hstage
    exact ⟨hstage, Option.some.inj hstep⟩
  · cases hstep

theorem step_callback (hstep : session.step (.callback uuid reason pdu accepted) = some t) :
    (session.tracks uuid).outstanding ≠ 0 ∧ session.callback uuid reason pdu accepted = t := by
  simp only [step] at hstep
  split_ifs at hstep with houtstanding
  exact ⟨houtstanding, Option.some.inj hstep⟩

/-! ## What holds between two steps -/

/-- The state of a promise in which `value?` has been stored. -/
def sharedState : Option Outcome → SharedState Outcome
  | some outcome => .value outcome
  | none => .unset

/-- The request with promise `p` has had a well-conducted life so far. Its track,
its promise and its place in the map say the same about where it stands. -/
structure Tracked (uuid : Uuid) (p : ℕ) (found : Option SnmpRequest) (cell : SharedState Outcome)
    (track : Track) (status : RequestStatus) : Prop where
  life : Life track.history status
  outstanding : track.outstanding = status.outstanding
  /-- no callback is at work -/
  settled : status ≠ .called
  created : track.stage ≠ .createRequest
  sent_iff : track.stage.Sent ↔ status ≠ .unsent
  cell_eq : cell = sharedState (stored track.history)
  request : ∀ request, found = some request →
    request.uuid = uuid ∧ request.promise = p ∧
      (request.isWalk = true → ∃ root, request.walkOid = some root)
  found_iff : found = none ↔ status = .erased

/-- What holds of the requests in every reachable state. -/
structure Coherent (session : SnmpSession) : Prop where
  new : ∀ uuid, session.client.futures uuid = none →
    session.tracks uuid = .new ∧ session.client.pendingRequests[uuid]? = none
  tracked : ∀ uuid p, session.client.futures uuid = some p →
    ∃ status, Tracked uuid p session.client.pendingRequests[uuid]?
      (session.client.promises.cell p) (session.tracks uuid) status
  future_lt : ∀ uuid p, session.client.futures uuid = some p → p < session.client.promises.next
  future_injective : ∀ uuid other p, session.client.futures uuid = some p →
    session.client.futures other = some p → uuid = other
  fresh : ∀ p, session.client.promises.next ≤ p → session.client.promises.cell p = .unset

theorem Coherent.initial : Coherent initial where
  new _ _ := ⟨rfl, by simp [SnmpSession.initial, SnmpClient.initial]⟩
  tracked _ _ hfuture := by cases hfuture
  future_lt _ _ hfuture := by cases hfuture
  future_injective _ _ _ hfuture := by cases hfuture
  fresh _ _ := rfl

/-- A call that is past its first statement has a promise. -/
theorem Coherent.exists_tracked (coherent : session.Coherent) (uuid : Uuid)
    (hstage : (session.tracks uuid).stage ≠ .createRequest) :
    ∃ p status, session.client.futures uuid = some p ∧
      Tracked uuid p session.client.pendingRequests[uuid]? (session.client.promises.cell p)
        (session.tracks uuid) status := by
  cases hfuture : session.client.futures uuid with
  | none => exact absurd (congrArg Track.stage (coherent.new uuid hfuture).1) hstage
  | some p =>
    obtain ⟨status, tracked⟩ := coherent.tracked uuid p hfuture
    exact ⟨p, status, rfl, tracked⟩

/-- An effect on one request keeps a session coherent if that request is left with
a well-conducted life. -/
theorem Coherent.changes (coherent : session.Coherent) (status : RequestStatus)
    (hfuture : session.client.futures uuid = some p)
    (changes : session.Changes uuid p found cell track t)
    (tracked : Tracked uuid p found cell track status) : t.Coherent where
  new other hother := by
    rw [changes.futures] at hother
    have hne : uuid ≠ other := by
      rintro rfl
      cases hfuture.symm.trans hother
    rw [changes.tracks, Function.update_of_ne hne.symm, changes.requests, if_neg hne]
    exact coherent.new other hother
  tracked other q hother := by
    rw [changes.futures] at hother
    rw [changes.requests, changes.cell_eq, changes.tracks]
    by_cases heq : uuid = other
    · subst heq
      obtain rfl := Option.some.inj (hfuture.symm.trans hother)
      rw [if_pos rfl, Function.update_self, Function.update_self]
      exact ⟨status, tracked⟩
    -- two requests have two promises
    · have hpromise : q ≠ p := by
        rintro rfl
        exact heq (coherent.future_injective _ _ _ hfuture hother)
      rw [if_neg heq, Function.update_of_ne hpromise, Function.update_of_ne (Ne.symm heq)]
      exact coherent.tracked other q hother
  future_lt := by
    rw [changes.futures, changes.next]
    exact coherent.future_lt
  future_injective := by
    rw [changes.futures]
    exact coherent.future_injective
  fresh q hq := by
    rw [changes.next] at hq
    have hlt := coherent.future_lt uuid p hfuture
    rw [changes.cell_eq, Function.update_of_ne (by omega)]
    exact coherent.fresh q hq

/-- An effect on one request leaves the others as they were. -/
theorem Coherent.frame (coherent : session.Coherent) {other : Uuid} {q : ℕ}
    (hfuture : session.client.futures uuid = some p)
    (changes : session.Changes uuid p found cell track t)
    (hother : session.client.futures other = some q) (hne : other ≠ uuid) :
    t.client.futures other = some q ∧
      t.client.pendingRequests[other]? = session.client.pendingRequests[other]? ∧
      t.client.promises.cell q = session.client.promises.cell q := by
  refine ⟨by rw [changes.futures, hother], ?_, ?_⟩
  · rw [changes.requests, if_neg hne.symm]
  · rw [changes.cell_eq, Function.update_of_ne]
    rintro rfl
    exact hne (coherent.future_injective _ _ _ hother hfuture)

/-! ## Each step keeps it -/

theorem Coherent.future_eq_none (coherent : session.Coherent)
    (hstage : (session.tracks uuid).stage = .createRequest) :
    session.client.futures uuid = none := by
  cases hfuture : session.client.futures uuid with
  | none => rfl
  | some p =>
    obtain ⟨status, tracked⟩ := coherent.tracked uuid p hfuture
    exact absurd hstage tracked.created

theorem Coherent.createRequest (coherent : session.Coherent)
    (hstage : (session.tracks uuid).stage = .createRequest) :
    (session.createRequest uuid call host).Coherent := by
  obtain ⟨request, opens⟩ := opens_callCreateRequest call session.client uuid host
  obtain ⟨htrack, -⟩ := coherent.new uuid (coherent.future_eq_none hstage)
  -- whether the operation has been handed over concerns nothing below
  have hrequests : ∀ other : Uuid,
      (session.createRequest uuid call host).client.pendingRequests[other]? =
        if uuid = other then some request else session.client.pendingRequests[other]? :=
    opens.requests
  have hpromises : (session.createRequest uuid call host).client.promises =
      session.client.promises.create := opens.promises
  have hfutures : (session.createRequest uuid call host).client.futures =
      Function.update session.client.futures uuid (some session.client.promises.next) :=
    opens.futures
  have htracks : (session.createRequest uuid call host).tracks =
      Function.update session.tracks uuid { Track.new with stage := .handOver call.operation } :=
    htrack ▸ rfl
  refine ⟨fun other hother => ?_, fun other p hother => ?_, fun other p hother => ?_,
    fun first second p hfirst hsecond => ?_, fun p hp => ?_⟩
  · have hne : uuid ≠ other := by
      rintro rfl
      rw [hfutures, Function.update_self] at hother
      cases hother
    rw [hfutures, Function.update_of_ne hne.symm] at hother
    rw [hrequests, if_neg hne, htracks, Function.update_of_ne hne.symm]
    exact coherent.new other hother
  · rw [hrequests, hpromises, PromiseStore.create_cell, htracks]
    rcases opens.future_cases hother with ⟨rfl, rfl⟩ | ⟨hne, hprior⟩
    · rw [if_pos rfl, Function.update_self]
      refine ⟨.unsent, .new, rfl, nofun, nofun, by simp [Stage.Sent], coherent.fresh _ le_rfl,
        fun found hfound => ?_, by simp⟩
      obtain rfl := Option.some.inj hfound
      exact ⟨opens.uuid_eq, opens.promise_eq, opens.walk_oid⟩
    · rw [if_neg hne.symm, Function.update_of_ne hne]
      exact coherent.tracked other p hprior
  · rw [hpromises, PromiseStore.create_next]
    rcases opens.future_cases hother with ⟨-, rfl⟩ | ⟨-, hprior⟩
    · exact Nat.lt_succ_self _
    · exact Nat.lt_succ_of_lt (coherent.future_lt other p hprior)
  · rcases opens.future_cases hfirst with ⟨rfl, rfl⟩ | ⟨-, hfirst'⟩ <;>
      rcases opens.future_cases hsecond with ⟨rfl, hp⟩ | ⟨-, hsecond'⟩
    · rfl
    · exact absurd (coherent.future_lt _ _ hsecond') (lt_irrefl _)
    · exact absurd (coherent.future_lt _ _ hfirst') (by omega)
    · exact coherent.future_injective _ _ _ hfirst' hsecond'
  · rw [hpromises] at hp ⊢
    exact coherent.fresh p (Nat.le_of_succ_le hp)

/-- A call about to hand over its operation has not been sent. -/
theorem Tracked.eq_unsent (tracked : Tracked uuid p found cell track status)
    (hstage : track.stage = .handOver operation) : status = .unsent := by
  by_contra hsent
  have hhandedOver := tracked.sent_iff.mpr hsent
  rw [hstage] at hhandedOver
  exact hhandedOver

theorem Coherent.handOver (coherent : session.Coherent)
    (hstage : (session.tracks uuid).stage = .handOver operation) :
    ((session.issue uuid operation accepted).advance uuid .takeFuture).Coherent := by
  obtain ⟨p, status, hfuture, tracked⟩ := coherent.exists_tracked uuid (by simp [hstage])
  have advanced := changes_handOver session uuid p operation accepted
  -- the call was unsent, so the token is with its caller
  obtain rfl := tracked.eq_unsent hstage
  have hlife := tracked.life
  have hfound := tracked.found_iff
  refine coherent.changes (if accepted then .waiting else .stranded) hfuture advanced
    ⟨?_, ?_, ?_, nofun, ?_, ?_,
      tracked.request, ?_⟩
  · cases accepted with
    | true => exact hlife.accept (.inl rfl)
    | false => exact hlife.refuse (.inl rfl)
  · have hidle : (session.tracks uuid).outstanding = 0 := tracked.outstanding
    cases accepted <;> simp [Track.issue, hidle, RequestStatus.outstanding]
  · cases accepted <;> nofun
  · cases accepted <;> simp [Stage.Sent]
  · simpa [Track.issue, Track.add] using tracked.cell_eq
  · cases accepted <;> simpa using hfound

theorem Coherent.takeFuture (coherent : session.Coherent) {future : Option ℕ}
    (hstage : (session.tracks uuid).stage = .takeFuture) :
    (session.advance uuid (.returned future)).Coherent := by
  obtain ⟨p, status, hfuture, tracked⟩ := coherent.exists_tracked uuid (by simp [hstage])
  have hsent : status ≠ .unsent := tracked.sent_iff.mp (by rw [hstage]; trivial)
  exact coherent.changes status hfuture (changes_advance session uuid p (.returned future))
    { tracked with created := nofun, sent_iff := iff_of_true trivial hsent }

/-- A request with an operation outstanding is in the map, unresolved. -/
theorem Coherent.exists_waiting (coherent : session.Coherent)
    (houtstanding : (session.tracks uuid).outstanding ≠ 0) :
    ∃ request, session.client.pendingRequests[uuid]? = some request ∧
      session.client.futures uuid = some request.promise ∧
      session.client.promises.cell request.promise = .unset ∧
      Tracked uuid request.promise (some request) .unset (session.tracks uuid) .waiting := by
  have hcreated : (session.tracks uuid).stage ≠ .createRequest := by
    intro hstage
    have htrack := (coherent.new uuid (coherent.future_eq_none hstage)).1
    exact houtstanding (htrack ▸ rfl)
  obtain ⟨p, status, hfuture, tracked⟩ := coherent.exists_tracked uuid hcreated
  have hwaiting : status = .waiting := by
    have hone := tracked.outstanding ▸ houtstanding
    cases status <;> first | rfl | exact absurd rfl hone
  subst hwaiting
  cases hfound : session.client.pendingRequests[uuid]? with
  | none => cases tracked.found_iff.mp hfound
  | some request =>
    rw [hfound] at tracked
    obtain ⟨-, rfl, -⟩ := tracked.request request rfl
    have hunset : session.client.promises.cell request.promise = .unset := by
      rw [tracked.cell_eq, tracked.life.stored_eq_none_iff.mpr ⟨nofun, nofun⟩, sharedState]
    exact ⟨request, rfl, hfuture, hunset, hunset ▸ tracked⟩

/-- Everything a callback can do. -/
theorem Coherent.callback_cases (coherent : session.Coherent) (reason : Reason) (pdu : Pdu)
    (accepted : Bool)
    (houtstanding : (session.tracks uuid).outstanding ≠ 0) :
    ∃ request, session.client.pendingRequests[uuid]? = some request ∧
      session.client.futures uuid = some request.promise ∧
      Tracked uuid request.promise (some request) .unset (session.tracks uuid) .waiting ∧
      ((request.isWalk = false ∧ ∃ outcome, session.Changes uuid request.promise none
          (.value outcome) (((session.tracks uuid).deliver.add (.setValue outcome)).add .erase)
          (session.callback uuid reason pdu accepted)) ∨
        (request.isWalk = true ∧ ¬ WalkGoesOn request reason pdu ∧ ∃ response outcome,
          session.Changes uuid request.promise (some { request with response := response })
            (.value outcome) ((session.tracks uuid).deliver.add (.setValue outcome))
            (session.callback uuid reason pdu accepted)) ∨
        (request.isWalk = true ∧ WalkGoesOn request reason pdu ∧
          ∃ (root : Oid) (response : SnmpResponse) (nextVb : Vb),
            walkPdu root request.response .default pdu = .again response nextVb ∧
            session.Changes uuid request.promise (some { request with response := response })
              .unset ((session.tracks uuid).deliver.issue (.getBulk [nextVb.oid] 0 10) accepted)
              (session.callback uuid reason pdu accepted))) := by
  obtain ⟨request, hrequest, hfuture, hunset, tracked⟩ := coherent.exists_waiting houtstanding
  obtain ⟨huuid, -, hroot⟩ := tracked.request request rfl
  refine ⟨request, hrequest, hfuture, tracked, ?_⟩
  -- a walk goes on or stops; what is no walk is over
  by_cases hwalk : request.isWalk = true
  · by_cases hgoes : WalkGoesOn request reason pdu
    · obtain ⟨root, hroot⟩ := hroot hwalk
      obtain ⟨response, nextVb, hexit, changes⟩ :=
        changes_callback_again hrequest huuid hwalk hroot hgoes
      rw [hunset] at changes
      exact .inr (.inr ⟨hwalk, hgoes, root, response, nextVb, hexit, changes⟩)
    · exact .inr (.inl ⟨hwalk, hgoes,
        changes_callback_stop hrequest huuid hwalk (hroot hwalk) hunset hgoes⟩)
  · have hget := Bool.eq_false_iff.mpr hwalk
    exact .inl ⟨hget, _, changes_callback_get hrequest huuid hget hunset⟩

theorem Coherent.callback (coherent : session.Coherent)
    (houtstanding : (session.tracks uuid).outstanding ≠ 0) :
    (session.callback uuid reason pdu accepted).Coherent := by
  obtain ⟨request, hrequest, hfuture, tracked, ⟨-, outcome, changes⟩ |
    ⟨-, -, response, outcome, changes⟩ | ⟨-, -, root, response, nextVb, -, changes⟩⟩ :=
      coherent.callback_cases reason pdu accepted houtstanding
  all_goals
    -- the callback was for the one operation that is outstanding
    have hidle : (session.tracks uuid).outstanding - 1 = 0 :=
      Nat.sub_eq_zero_of_le tracked.outstanding.le
    have hsent : (session.tracks uuid).stage.Sent := tracked.sent_iff.mpr nofun
    have hnone : stored (session.tracks uuid).history = none :=
      tracked.life.stored_eq_none_iff.mpr ⟨nofun, nofun⟩
  · exact coherent.changes .erased hfuture changes
      ⟨tracked.life.deliver.setValue.erase, hidle, nofun, tracked.created, iff_of_true hsent nofun,
        by simp [Track.add, Track.deliver, hnone, sharedState], nofun, iff_of_true rfl rfl⟩
  · exact coherent.changes .resolved hfuture changes
      ⟨tracked.life.deliver.setValue, hidle, nofun, tracked.created, iff_of_true hsent nofun,
        by simp [Track.add, Track.deliver, hnone, sharedState], by simpa using tracked.request,
        by simp⟩
  · refine coherent.changes (if accepted then .waiting else .stranded) hfuture changes
      ⟨?_, ?_, ?_, tracked.created, iff_of_true hsent ?_, ?_, by simpa using tracked.request, ?_⟩
    · cases accepted with
      | true => exact tracked.life.deliver.accept (.inr rfl)
      | false => exact tracked.life.deliver.refuse (.inr rfl)
    · cases accepted <;> simp [Track.issue, Track.deliver, hidle, RequestStatus.outstanding]
    · cases accepted <;> nofun
    · cases accepted <;> nofun
    · simp [Track.issue, Track.deliver, Track.add, hnone, sharedState]
    · cases accepted <;> simp

/-- Every step keeps the session coherent. -/
theorem Coherent.step (coherent : session.Coherent) (hstep : session.step a = some t) :
    t.Coherent := by
  cases a with
  | createRequest uuid call host =>
    obtain ⟨hstage, rfl⟩ := step_createRequest hstep
    exact coherent.createRequest hstage
  | handOver uuid accepted =>
    obtain ⟨operation, hstage, rfl⟩ := step_handOver hstep
    exact coherent.handOver hstage
  | takeFuture uuid =>
    obtain ⟨hstage, rfl⟩ := step_takeFuture hstep
    exact coherent.takeFuture hstage
  | callback uuid reason pdu accepted =>
    obtain ⟨houtstanding, rfl⟩ := step_callback hstep
    exact coherent.callback houtstanding

end NetDiscovery.Net.SnmpSession
