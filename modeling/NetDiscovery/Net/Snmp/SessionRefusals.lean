/-
# Refused operations

The session may refuse an operation, the first one of a request or the next one
of a walk. Nothing looks at the return code: the request stays in the map without
a value, and no callback will come for it.

`answersRefusals_iff` says that a run is free of such requests exactly as long as
no operation is refused.
-/

import NetDiscovery.Net.Snmp.SessionCoherence

namespace NetDiscovery.Net.SnmpSession

open NetDiscovery.Semantics NetDiscovery.Util SnmpClient

variable {session t : SnmpSession} {uuid : Uuid} {p : ℕ} {track : Track}
  {cell : SharedState Outcome} {found : Option SnmpRequest} {reason : Reason} {pdu : Pdu}
  {accepted : Bool} {host : IPv4Address} {call : Call} {a : Label}

/-- Each request that was sent and has no value has exactly one operation
outstanding, and each request with a refused operation has been resolved with an
error and has left the map. -/
structure AnswersRefusals (session : SnmpSession) : Prop where
  outstanding : ∀ uuid p, (session.tracks uuid).stage.Sent →
    session.client.futures uuid = some p → session.client.promises.cell p = .unset →
      (session.tracks uuid).outstanding = 1
  refused : ∀ uuid p operation, .issue operation false ∈ (session.tracks uuid).history →
    session.client.futures uuid = some p →
      (∃ error, session.client.promises.cell p = .value (.error error)) ∧
        session.client.pendingRequests[uuid]? = none

/-- The session accepts the operation that a step issues. -/
def Accepts (session : SnmpSession) : Label → Prop
  | .handOver _ accepted => accepted = true
  | .callback uuid reason pdu accepted => ∀ request : SnmpRequest,
      session.client.pendingRequests[uuid]? = some request → request.isWalk = true →
        WalkGoesOn request reason pdu → accepted = true
  | _ => True

/-! ## Stranded requests -/

/-- No operation in the history was refused. -/
def Unrefused (history : List (RequestEvent Operation Outcome)) : Prop :=
  ∀ operation, .issue operation false ∉ history

/-- The client has answered all refusals exactly if there were none. -/
theorem answersRefusals_iff_forall (coherent : session.Coherent) :
    session.AnswersRefusals ↔ ∀ uuid, Unrefused (session.tracks uuid).history := by
  constructor
  · intro hall uuid operation hmem
    cases hfuture : session.client.futures uuid with
    | none =>
      rw [(coherent.new uuid hfuture).1] at hmem
      cases hmem
    | some p =>
      -- a stranded request has no value
      obtain ⟨status, tracked⟩ := coherent.tracked uuid p hfuture
      have hstranded := tracked.life.refused_mem_iff.mp ⟨operation, hmem⟩
      obtain ⟨⟨error, hvalue⟩, -⟩ := hall.refused uuid p operation hmem hfuture
      have hnone := tracked.life.stored_eq_none_iff.mpr (by simp [hstranded])
      rw [tracked.cell_eq, hnone] at hvalue
      cases hvalue
  · intro hall
    refine ⟨fun uuid p hsent hfuture hunset => ?_, fun uuid p operation hmem _ =>
      absurd hmem (hall uuid operation)⟩
    obtain ⟨status, tracked⟩ := coherent.tracked uuid p hfuture
    rw [tracked.outstanding, RequestStatus.outstanding_eq_one_iff]
    have hresolved : status ≠ .resolved ∧ status ≠ .erased := by
      refine tracked.life.stored_eq_none_iff.mp ?_
      have hcell := tracked.cell_eq.symm.trans hunset
      cases hstored : stored (session.tracks uuid).history with
      | none => rfl
      | some outcome => simp [hstored, sharedState] at hcell
    have hstranded : status ≠ .stranded := fun heq => by
      obtain ⟨operation, hmem⟩ := tracked.life.refused_mem_iff.mpr heq
      exact hall uuid operation hmem
    have hsettled := tracked.settled
    have hunsent := tracked.sent_iff.mp hsent
    cases status with
    | waiting => rfl
    | unsent => exact absurd rfl hunsent
    | stranded => exact absurd rfl hstranded
    | called => exact absurd rfl hsettled
    | resolved => exact absurd rfl hresolved.1
    | erased => exact absurd rfl hresolved.2

theorem forall_unrefused_iff (changes : session.Changes uuid p found cell track t)
    (hall : ∀ uuid, Unrefused (session.tracks uuid).history) :
    (∀ uuid, Unrefused (t.tracks uuid).history) ↔ Unrefused track.history := by
  rw [changes.tracks]
  constructor
  · intro hnext
    simpa using hnext uuid
  · intro hself other
    by_cases heq : other = uuid
    · subst heq
      simpa using hself
    · rw [Function.update_of_ne heq]
      exact hall other

/-! ## Steps and runs -/

/-- The step lemma: from a state without refused operations, a step leads to one
exactly if its operation is accepted. -/
theorem unrefused_of_step_iff (coherent : session.Coherent)
    (hall : ∀ uuid, Unrefused (session.tracks uuid).history) (hstep : session.step a = some t) :
    (∀ uuid, Unrefused (t.tracks uuid).history) ↔ session.Accepts a := by
  cases a with
  | createRequest uuid call host =>
    obtain ⟨hstage, rfl⟩ := step_createRequest hstep
    refine iff_of_true (fun other => ?_) trivial
    by_cases heq : other = uuid
    · subst heq
      simpa [SnmpSession.createRequest] using hall other
    · rw [(createRequest_of_ne session call host heq).2.2]
      exact hall other
  | handOver uuid accepted =>
    obtain ⟨operation, hstage, rfl⟩ := step_handOver hstep
    obtain ⟨p, -⟩ := coherent.exists_tracked uuid (by simp [hstage])
    rw [forall_unrefused_iff (changes_handOver session uuid p operation accepted) hall]
    have hself := hall uuid
    cases accepted with
    | true =>
      refine iff_of_true (fun operation hmem => hself operation ?_) rfl
      simpa [Track.issue, Track.add] using hmem
    | false =>
      -- the refused operation is in the history from now on
      exact iff_of_false (fun hnone => hnone operation (by simp [Track.issue, Track.add]))
        Bool.false_ne_true
  | takeFuture uuid =>
    obtain ⟨hstage, rfl⟩ := step_takeFuture hstep
    rw [forall_unrefused_iff (changes_advance session uuid 0 _) hall]
    exact iff_of_true (hall uuid) trivial
  | callback uuid reason pdu accepted =>
    obtain ⟨houtstanding, rfl⟩ := step_callback hstep
    -- only a walk that goes on hands over another operation
    obtain ⟨request, hrequest, -, -, ⟨hget, outcome, changes⟩ |
      ⟨hwalk, hstops, response, outcome, changes⟩ |
      ⟨hwalk, hgoes, root, response, nextVb, -, changes⟩⟩ :=
        coherent.callback_cases reason pdu accepted houtstanding
    all_goals
      have haccepts : session.Accepts (.callback uuid reason pdu accepted) ↔
          (request.isWalk = true → WalkGoesOn request reason pdu → accepted = true) := by
        simp [Accepts, hrequest]
      rw [forall_unrefused_iff changes hall, haccepts]
      have hself := hall uuid
    · refine iff_of_true ?_ (by simp [hget])
      simpa [Unrefused, Track.add, Track.deliver] using hself
    · refine iff_of_true ?_ fun _ hgoes => absurd hgoes hstops
      simpa [Unrefused, Track.add, Track.deliver] using hself
    · cases accepted with
      | true =>
        refine iff_of_true (fun operation hmem => hself operation ?_) fun _ _ => rfl
        simpa [Track.issue, Track.add, Track.deliver] using hmem
      | false =>
        exact iff_of_false (fun hnone => hnone (.getBulk [nextVb.oid] 0 10)
          (by simp [Track.issue, Track.add])) fun hall => Bool.false_ne_true (hall hwalk hgoes)

/-- **Along every run, unresolved requests have one operation outstanding and
refusals are answered with errors, exactly as long as the session refuses no
operation.** -/
theorem answersRefusals_iff (trace : List (SnmpSession × Label)) (final : SnmpSession)
    (run : Run step initial trace final) :
    (∀ v ∈ visited trace final, v.AnswersRefusals) ↔ ∀ x ∈ trace, x.1.Accepts x.2 := by
  refine run.forall_visited_iff (I := Coherent) .initial
    (fun _ _ _ coherent hstep => coherent.step hstep)
    ((answersRefusals_iff_forall .initial).mpr fun _ _ => nofun)
    fun v a w coherent hall hstep => ?_
  rw [answersRefusals_iff_forall (coherent.step hstep)]
  exact unrefused_of_step_iff coherent ((answersRefusals_iff_forall coherent).mp hall) hstep

/-- A walk whose first answer goes on; the next operation is accepted. -/
def walkGoesOn : List Label :=
  [.createRequest 0 (.walk [1, 3]) (.ofOctets 10 0 0 7), .handOver 0 true, .takeFuture 0,
    .callback 0 .asyncResponse [⟨[1, 3, 1], .int 7, true, "7"⟩] true]

theorem answersRefusals_walkGoesOn :
    ∃ final, exec step initial walkGoesOn = some final ∧
      ∀ v ∈ visited (record step initial walkGoesOn) final, v.AnswersRefusals := by
  have hexec := Option.some_get (x := exec step initial walkGoesOn) (by decide)
  refine ⟨_, hexec.symm, (answersRefusals_iff _ _ (Run.of_exec hexec.symm)).mpr ?_⟩
  refine List.forall_mem_cons.mpr ⟨trivial, List.forall_mem_cons.mpr ⟨rfl, ?_⟩⟩
  refine List.forall_mem_cons.mpr ⟨trivial, List.forall_mem_cons.mpr ⟨?_, nofun⟩⟩
  exact fun _ _ _ _ => rfl

/-- A `get` that the session refuses. -/
def getRefused : List Label :=
  [.createRequest 0 (.get [[1, 3, 6, 1]]) (.ofOctets 10 0 0 7), .handOver 0 false]

/-- Its future has no value, and nothing is outstanding that could give it one. -/
theorem not_answersRefusals_getRefused :
    ∃ final, Run step initial (record step initial getRefused) final ∧
      ¬ final.AnswersRefusals := by
  have hexec := Option.some_get (x := exec step initial getRefused) (by decide)
  refine ⟨_, Run.of_exec hexec.symm, fun hall => ?_⟩
  cases hall.outstanding 0 0 trivial rfl rfl

end NetDiscovery.Net.SnmpSession
