/-
# Taking the future of a request

`getAsync` and `getBulkAsync` take the future of a request after they have handed
the request to the session, through a reference into the map. A callback in
between resolves the request and erases it, and the reference dangles.

`futuresAtHand_iff` says that this is the only way a caller can miss its future.
-/

import NetDiscovery.Net.Snmp.SessionCoherence

namespace NetDiscovery.Net.SnmpSession

open NetDiscovery.Semantics NetDiscovery.Util SnmpClient

variable {session t : SnmpSession} {uuid : Uuid} {p : ℕ} {track : Track}
  {cell : SharedState Outcome} {found : Option SnmpRequest} {reason : Reason} {pdu : Pdu}
  {accepted : Bool} {host : IPv4Address} {call : Call} {a : Label}

/-- A caller about to take its future finds the request, and a caller that is back
holds the future in which the request's value is stored. -/
structure FuturesAtHand (session : SnmpSession) : Prop where
  pending : ∀ uuid, (session.tracks uuid).stage = .takeFuture →
    ∃ request, session.client.pendingRequests[uuid]? = some request
  obtained : ∀ uuid future, (session.tracks uuid).stage = .returned future →
    ∃ p, future = some p ∧ session.client.futures uuid = some p ∧
      ∀ outcome, .setValue outcome ∈ (session.tracks uuid).history →
        session.client.promises.cell p = .value outcome

/-- A `get` or `getBulk` is called back only when its caller has taken the future. -/
def CallerIsBack (session : SnmpSession) : Label → Prop
  | .callback uuid _ _ _ => ∀ request : SnmpRequest,
      session.client.pendingRequests[uuid]? = some request → request.isWalk = false →
        (session.tracks uuid).stage ≠ .takeFuture
  | _ => True

/-! ## One request -/

/-- What `FuturesAtHand` asks of one request. -/
def FutureAtHand (promise : Option ℕ) (found : Option SnmpRequest) : Stage → Prop
  | .takeFuture => ∃ request, found = some request
  | .returned future => future = promise
  | _ => True

/-- The value of a request is stored in its own promise. -/
theorem Coherent.cell_of_mem (coherent : session.Coherent) {outcome : Outcome}
    (hfuture : session.client.futures uuid = some p)
    (hmem : .setValue outcome ∈ (session.tracks uuid).history) :
    session.client.promises.cell p = .value outcome := by
  obtain ⟨status, tracked⟩ := coherent.tracked uuid p hfuture
  rw [tracked.cell_eq, tracked.life.stored_eq_of_mem hmem, sharedState]

theorem futuresAtHand_iff_forall (coherent : session.Coherent) :
    session.FuturesAtHand ↔ ∀ uuid, FutureAtHand (session.client.futures uuid)
      session.client.pendingRequests[uuid]? (session.tracks uuid).stage := by
  constructor
  · intro hall uuid
    cases hstage : (session.tracks uuid).stage with
    | createRequest | handOver => trivial
    | takeFuture => exact hall.pending uuid hstage
    | returned future =>
      obtain ⟨p, rfl, hfuture, -⟩ := hall.obtained uuid future hstage
      exact hfuture.symm
  · intro hall
    refine ⟨fun uuid hstage => ?_, fun uuid future hstage => ?_⟩
    · have hself := hall uuid
      rwa [hstage] at hself
    · have hself := hall uuid
      rw [hstage] at hself
      obtain ⟨p, status, hfuture, -⟩ := coherent.exists_tracked uuid (by simp [hstage])
      exact ⟨p, hself.trans hfuture, hfuture, fun _ => coherent.cell_of_mem hfuture⟩

/-- After an effect on one request the others are as they were. -/
theorem forall_futureAtHand_iff (changes : session.Changes uuid p found cell track t)
    (hall : ∀ uuid, FutureAtHand (session.client.futures uuid)
      session.client.pendingRequests[uuid]? (session.tracks uuid).stage) :
    (∀ uuid, FutureAtHand (t.client.futures uuid) t.client.pendingRequests[uuid]?
      (t.tracks uuid).stage) ↔ FutureAtHand (session.client.futures uuid) found track.stage := by
  rw [changes.futures, changes.tracks]
  constructor
  · intro hnext
    simpa [changes.found_eq] using hnext uuid
  · intro hself other
    rw [changes.requests]
    by_cases heq : uuid = other
    · subst heq
      simpa using hself
    · rw [if_neg heq, Function.update_of_ne (Ne.symm heq)]
      exact hall other

/-! ## Steps and runs -/

/-- The step lemma: from a state in which the futures are at hand, a step keeps
them so exactly if it calls back no caller that is not back. -/
theorem futuresAtHand_of_step_iff (coherent : session.Coherent)
    (hall : session.FuturesAtHand) (hstep : session.step a = some t) :
    t.FuturesAtHand ↔ session.CallerIsBack a := by
  rw [futuresAtHand_iff_forall (coherent.step hstep)]
  rw [futuresAtHand_iff_forall coherent] at hall
  cases a with
  | createRequest uuid call host =>
    obtain ⟨hstage, rfl⟩ := step_createRequest hstep
    refine iff_of_true (fun other => ?_) trivial
    by_cases heq : other = uuid
    · subst heq
      simp [SnmpSession.createRequest, FutureAtHand]
    · obtain ⟨hfuture, hfound, htrack⟩ := createRequest_of_ne session call host heq
      rw [hfuture, hfound, htrack]
      exact hall other
  | handOver uuid accepted =>
    obtain ⟨operation, hstage, rfl⟩ := step_handOver hstep
    obtain ⟨p, status, -, tracked⟩ := coherent.exists_tracked uuid (by simp [hstage])
    rw [forall_futureAtHand_iff (changes_handOver session uuid p operation accepted) hall]
    -- a request that has not been handed over has not been erased
    refine iff_of_true (Option.ne_none_iff_exists'.mp fun hnone => ?_) trivial
    cases (tracked.found_iff.mp hnone).symm.trans (tracked.eq_unsent hstage)
  | takeFuture uuid =>
    obtain ⟨hstage, rfl⟩ := step_takeFuture hstep
    obtain ⟨p, status, hfuture, tracked⟩ := coherent.exists_tracked uuid
      (by simp [hstage])
    rw [forall_futureAtHand_iff (changes_advance session uuid p _) hall]
    obtain ⟨request, hrequest⟩ : ∃ request,
        session.client.pendingRequests[uuid]? = some request := by
      have hself := hall uuid
      rwa [hstage] at hself
    refine iff_of_true ?_ trivial
    obtain ⟨-, rfl, -⟩ := tracked.request request hrequest
    rw [hrequest, hfuture]
    rfl
  | callback uuid reason pdu accepted =>
    obtain ⟨houtstanding, rfl⟩ := step_callback hstep
    obtain ⟨request, hrequest, hfuture, -, ⟨hget, outcome, changes⟩ |
      ⟨hwalk, -, response, outcome, changes⟩ | ⟨hwalk, -, root, response, nextVb, -, changes⟩⟩ :=
        coherent.callback_cases reason pdu accepted houtstanding
    all_goals
      have hback : session.CallerIsBack (.callback uuid reason pdu accepted) ↔
          (request.isWalk = false → (session.tracks uuid).stage ≠ .takeFuture) := by
        simp [CallerIsBack, hrequest]
      rw [forall_futureAtHand_iff changes hall, hback]
      have hself := hall uuid
    -- only a `get` or `getBulk` takes the request away
    · simp only [hget, true_implies, Track.add, Track.deliver]
      cases hstage : (session.tracks uuid).stage with
      | createRequest | handOver => simp [FutureAtHand]
      | takeFuture => simp [FutureAtHand]
      | returned future => simpa [FutureAtHand, hstage] using hself
    all_goals
      refine iff_of_true ?_ (by simp [hwalk])
      simp only [Track.add, Track.deliver, Track.issue]
      cases hstage : (session.tracks uuid).stage with
      | createRequest | handOver => trivial
      | takeFuture => exact ⟨_, rfl⟩
      | returned future => simpa [FutureAtHand, hstage] using hself

/-- **In every state of a run the callers' futures are at hand, exactly if no `get`
or `getBulk` is called back between its hand-over and its caller's next
statement.** -/
theorem futuresAtHand_iff (trace : List (SnmpSession × Label)) (final : SnmpSession)
    (run : Run step initial trace final) :
    (∀ v ∈ visited trace final, v.FuturesAtHand) ↔ ∀ x ∈ trace, x.1.CallerIsBack x.2 :=
  run.forall_visited_iff (I := Coherent) .initial
    (fun _ _ _ coherent hstep => coherent.step hstep)
    ((futuresAtHand_iff_forall .initial).mpr fun _ => trivial)
    fun _ _ _ => futuresAtHand_of_step_iff

/-- A `get` whose reply comes after its caller is back. -/
def getAnswered : List Label :=
  [.createRequest 0 (.get [[1, 3, 6, 1]]) (.ofOctets 10 0 0 7), .handOver 0 true, .takeFuture 0,
    .callback 0 .asyncResponse [] true]

theorem futuresAtHand_getAnswered :
    ∃ final, exec step initial getAnswered = some final ∧
      ∀ v ∈ visited (record step initial getAnswered) final, v.FuturesAtHand := by
  have hexec := Option.some_get (x := exec step initial getAnswered) (by decide)
  refine ⟨_, hexec.symm, (futuresAtHand_iff _ _ (Run.of_exec hexec.symm)).mpr ?_⟩
  iterate 3 refine List.forall_mem_cons.mpr ⟨trivial, ?_⟩
  exact List.forall_mem_cons.mpr ⟨fun _ _ _ => nofun, nofun⟩

/-- A `get` whose reply overtakes its caller. -/
def replyOvertakes : List Label :=
  [.createRequest 0 (.get [[1, 3, 6, 1]]) (.ofOctets 10 0 0 7), .handOver 0 true,
    .callback 0 .asyncResponse [] true, .takeFuture 0]

/-- The request is gone when the caller takes the future. -/
theorem not_futuresAtHand_replyOvertakes :
    ∃ final, Run step initial (record step initial replyOvertakes) final ∧
      ¬ final.FuturesAtHand := by
  have hexec := Option.some_get (x := exec step initial replyOvertakes) (by decide)
  refine ⟨_, Run.of_exec hexec.symm, fun hall => ?_⟩
  obtain ⟨p, hfuture, -⟩ := hall.obtained 0 none rfl
  cases hfuture

end NetDiscovery.Net.SnmpSession
