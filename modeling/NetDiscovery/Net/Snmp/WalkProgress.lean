/-
# Progress of a walk

A walk asks on from the name of the last binding it was given, or from no name at
all if it was given none. Only a timeout ends it for its reason, and nothing
compares the name with the one the walk has asked from before.

`walkProgress_iff` says that the names a walk asks from increase exactly if each
answer that goes on ends with a greater name than it was asked from.
-/

import Mathlib
import NetDiscovery.Net.Snmp.SessionCoherence

namespace NetDiscovery.Net.SnmpSession

open NetDiscovery.Semantics NetDiscovery.Util SnmpClient

variable {session t : SnmpSession} {uuid : Uuid} {p : ℕ} {track : Track}
  {cell : SharedState Outcome} {found : Option SnmpRequest} {request : SnmpRequest}
  {reason : Reason} {pdu : Pdu} {accepted : Bool} {a : Label} {root next : Oid}
  {response collected : SnmpResponse} {last nextVb : Vb}
  {history : List (RequestEvent Operation Outcome)}

/-- The name an operation starts from. -/
def start : Operation → Oid
  | .get oids | .getBulk oids _ _ => oids.headD []

/-- The names that the operations of a request have started from. -/
def requested (history : List (RequestEvent Operation Outcome)) : List Oid :=
  history.filterMap fun
    | .issue operation _ => some (start operation)
    | _ => none

/-- The name that the last operation of a request has started from. -/
def lastRequested (history : List (RequestEvent Operation Outcome)) : Oid :=
  (requested history).getLastD []

/-- Each walk has asked from increasing names. -/
def RequestsIncrease (session : SnmpSession) : Prop :=
  ∀ (uuid : Uuid) (request : SnmpRequest), session.client.pendingRequests[uuid]? = some request →
    request.isWalk = true → (requested (session.tracks uuid).history).Pairwise (· < ·)

/-- The callback of a walk resolves it, or asks on from a greater name than the
last operation started from. -/
def WalkProgresses (session : SnmpSession) : Label → Prop
  | .callback uuid reason pdu accepted => ∀ request : SnmpRequest,
      session.client.pendingRequests[uuid]? = some request → request.isWalk = true →
        (∃ outcome, ((session.callback uuid reason pdu accepted).tracks uuid).history =
          (session.tracks uuid).history ++ [.deliver, .setValue outcome]) ∨
        ∃ next, ((session.callback uuid reason pdu accepted).tracks uuid).history =
            (session.tracks uuid).history ++
              [.deliver, .issue (.getBulk [next] 0 10) accepted] ∧
          lastRequested (session.tracks uuid).history < next
  | _ => True

/-- An answer that a walk goes on with has a last binding, and its name is greater
than the one the operation started from. -/
def Advances (session : SnmpSession) : Label → Prop
  | .callback uuid reason pdu _ => ∀ request : SnmpRequest,
      session.client.pendingRequests[uuid]? = some request → request.isWalk = true →
        WalkGoesOn request reason pdu → ∃ vb, pdu.getLast? = some vb ∧
          lastRequested (session.tracks uuid).history < vb.oid
  | _ => True

/-! ## Names asked for -/

@[simp]
theorem requested_append {later : List (RequestEvent Operation Outcome)} :
    requested (history ++ later) = requested history ++ requested later :=
  List.filterMap_append

@[simp]
theorem requested_nil : requested [] = [] := rfl

@[simp]
theorem requested_cons_deliver : requested (.deliver :: history) = requested history := rfl

@[simp]
theorem requested_cons_issue {operation : Operation} :
    requested (.issue operation accepted :: history) = start operation :: requested history := rfl

@[simp]
theorem requested_cons_setValue {outcome : Outcome} :
    requested (.setValue outcome :: history) = requested history := rfl

/-- The loop that passes a whole answer stands at its last binding. -/
theorem walkPdu_again_eq (hexit : walkPdu root response last pdu = .again collected nextVb) :
    nextVb = pdu.getLast?.getD last := by
  induction pdu generalizing response last with
  | nil =>
    cases hexit
    rfl
  | cons vb pdu ih =>
    rw [ih (walkPdu_again_cons hexit), List.getLast?_cons, Option.getD_some]

/-- No name is less than the empty one. -/
private theorem lt_default_iff {oid : Oid} :
    oid < (pdu.getLast?.getD .default).oid ↔ ∃ vb, pdu.getLast? = some vb ∧ oid < vb.oid := by
  cases pdu.getLast? with
  | none => simp [Vb.default]
  | some vb => simp

/-- An increasing list goes on increasing with an element above its last one. -/
private theorem pairwise_lt_snoc_iff {names : List Oid} (hne : names ≠ [])
    (increasing : names.Pairwise (· < ·)) :
    (names ++ [next]).Pairwise (· < ·) ↔ names.getLastD [] < next := by
  rw [List.pairwise_append]
  obtain ⟨front, oid, rfl⟩ := List.eq_nil_or_concat' names |>.resolve_left hne
  constructor
  · rintro ⟨-, -, hbelow⟩
    simpa using hbelow oid (by simp) next (by simp)
  · intro hlast
    refine ⟨increasing, List.pairwise_singleton _ _, fun first hfirst second hsecond => ?_⟩
    obtain rfl := List.mem_singleton.mp hsecond
    have hoid : oid < second := by simpa using hlast
    rcases List.mem_append.mp hfirst with hfront | hself
    · exact ((List.pairwise_append.mp increasing).2.2 first hfront oid (by simp)).trans hoid
    · exact List.mem_singleton.mp hself ▸ hoid

/-- A request that was sent has asked for something. -/
private theorem requested_ne_nil {status : RequestStatus} (life : Life history status)
    (hsent : status ≠ .unsent) : requested history ≠ [] := by
  obtain ⟨operation, accepted, hmem⟩ := life.exists_issue hsent
  exact List.ne_nil_of_mem (List.mem_filterMap.mpr ⟨_, hmem, rfl⟩)

/-! ## Steps and runs -/

/-- After an effect on one request the walks of the others are as they were. -/
theorem requestsIncrease_iff (changes : session.Changes uuid p found cell track t)
    (increase : session.RequestsIncrease) :
    t.RequestsIncrease ↔ ∀ request : SnmpRequest, found = some request → request.isWalk = true →
      (requested track.history).Pairwise (· < ·) := by
  constructor
  · intro hnext request hfound hwalk
    have hself := hnext uuid request (changes.found_eq.trans hfound) hwalk
    rwa [changes.track_eq] at hself
  · intro hself other request hrequest hwalk
    rw [changes.requests] at hrequest
    rw [changes.tracks]
    split_ifs at hrequest with heq
    · subst heq
      rw [Function.update_self]
      exact hself request hrequest hwalk
    · rw [Function.update_of_ne (Ne.symm heq)]
      exact increase other request hrequest hwalk

/-- A callback makes progress exactly if the answer advances. -/
theorem walkProgresses_iff (coherent : session.Coherent) (hstep : session.step a = some t) :
    session.WalkProgresses a ↔ session.Advances a := by
  cases a with
  | createRequest | handOver | takeFuture => exact Iff.rfl
  | callback uuid reason pdu accepted =>
    obtain ⟨houtstanding, rfl⟩ := step_callback hstep
    obtain ⟨request, hrequest, -, -, ⟨hget, outcome, changes⟩ |
      ⟨hwalk, hstops, response, outcome, changes⟩ |
      ⟨hwalk, hgoes, root, response, nextVb, hexit, changes⟩⟩ :=
        coherent.callback_cases reason pdu accepted houtstanding
    all_goals
      simp only [WalkProgresses, Advances, hrequest, Option.some.injEq, forall_eq',
        changes.track_eq]
    · simp [hget]
    · refine iff_of_true (fun _ => .inl ⟨outcome, ?_⟩) fun _ hgoes => absurd hgoes hstops
      simp [Track.add, Track.deliver]
    · have hlast := walkPdu_again_eq hexit
      simp only [hwalk, hgoes, true_implies, ← lt_default_iff, ← hlast]
      simp [Track.issue, Track.add, Track.deliver]

/-- The step lemma: from a state in which the walks have asked from increasing
names, a step leads to one exactly if its answer advances. -/
theorem requestsIncrease_of_step_iff (coherent : session.Coherent)
    (increase : session.RequestsIncrease) (hstep : session.step a = some t) :
    t.RequestsIncrease ↔ session.Advances a := by
  cases a with
  | createRequest uuid call host =>
    obtain ⟨hstage, rfl⟩ := step_createRequest hstep
    have htrack := (coherent.new uuid (coherent.future_eq_none hstage)).1
    refine iff_of_true (fun other request hrequest hwalk => ?_) trivial
    by_cases heq : other = uuid
    · subst heq
      simp [SnmpSession.createRequest, htrack, Track.new, requested]
    · obtain ⟨-, hfound, hother⟩ := createRequest_of_ne session call host heq
      rw [hother]
      exact increase other request (hfound.symm.trans hrequest) hwalk
  | handOver uuid accepted =>
    obtain ⟨operation, hstage, rfl⟩ := step_handOver hstep
    obtain ⟨p, status, -, tracked⟩ := coherent.exists_tracked uuid (by simp [hstage])
    rw [requestsIncrease_iff (changes_handOver session uuid p operation accepted) increase]
    -- it is the first name of the request
    have hnew : (session.tracks uuid).history = [] :=
      (tracked.eq_unsent hstage ▸ tracked.life).eq_nil
    refine iff_of_true (fun _ _ _ => ?_) trivial
    simp [Track.issue, Track.add, hnew]
  | takeFuture uuid =>
    obtain ⟨hstage, rfl⟩ := step_takeFuture hstep
    rw [requestsIncrease_iff (changes_advance session uuid 0 _) increase]
    exact iff_of_true (increase uuid) trivial
  | callback uuid reason pdu accepted =>
    obtain ⟨houtstanding, rfl⟩ := step_callback hstep
    obtain ⟨request, hrequest, -, tracked, ⟨hget, outcome, changes⟩ |
      ⟨hwalk, hstops, response, outcome, changes⟩ |
      ⟨hwalk, hgoes, root, response, nextVb, hexit, changes⟩⟩ :=
        coherent.callback_cases reason pdu accepted houtstanding
    all_goals
      rw [requestsIncrease_iff changes increase]
      simp only [Advances, hrequest, Option.some.injEq, forall_eq']
    · simp [hget]
    · refine iff_of_true (fun _ => ?_) fun _ hgoes => absurd hgoes hstops
      simpa [Track.add, Track.deliver] using increase uuid request hrequest hwalk
    · have hlast := walkPdu_again_eq hexit
      have hne := requested_ne_nil tracked.life (by decide)
      simp only [hwalk, hgoes, true_implies, ← lt_default_iff, ← hlast]
      simpa [Track.issue, Track.add, Track.deliver, start, lastRequested] using
        pairwise_lt_snoc_iff hne (increase uuid request hrequest hwalk)

/-- **Every callback of a walk resolves it or asks on from a greater name, and no
walk asks twice from the same one, exactly if each answer that goes on ends with a
greater name than it was asked from.** -/
theorem walkProgress_iff (trace : List (SnmpSession × Label)) (final : SnmpSession)
    (run : Run step initial trace final) :
    ((∀ x ∈ trace, x.1.WalkProgresses x.2) ∧ ∀ v ∈ visited trace final, v.RequestsIncrease) ↔
      ∀ x ∈ trace, x.1.Advances x.2 := by
  have hvisited := run.forall_visited_iff (I := Coherent) (P := RequestsIncrease)
    (C := Advances) .initial
    (fun _ _ _ coherent hstep => coherent.step hstep)
    (fun uuid request hrequest _ => by simp [SnmpSession.initial, Track.new])
    fun _ _ _ => requestsIncrease_of_step_iff
  rw [hvisited]
  -- if the answers advance, so do the walks, each from a coherent state
  refine and_iff_right_of_imp ?_
  rintro hadvances ⟨v, a⟩ hmem
  obtain ⟨l, w, prior, hstep⟩ := run.step_of_mem hmem
  have coherent : v.Coherent :=
    prior.invariant .initial fun _ _ _ coherent hstep => coherent.step hstep
  exact (walkProgresses_iff coherent hstep).mpr (hadvances _ hmem)

/-- A walk of a subtree with one binding. -/
def walkOne : List Label :=
  [.createRequest 0 (.walk [1, 3]) (.ofOctets 10 0 0 7), .handOver 0 true, .takeFuture 0,
    .callback 0 .asyncResponse [⟨[1, 3, 1], .int 7, true, "7"⟩] true,
    .callback 0 .asyncResponse [⟨[1, 4], .int 8, true, "8"⟩] true]

theorem walkProgress_walkOne :
    ∃ final, exec step initial walkOne = some final ∧
      (∀ x ∈ record step initial walkOne, x.1.WalkProgresses x.2) ∧
        ∀ v ∈ visited (record step initial walkOne) final, v.RequestsIncrease := by
  have hexec := Option.some_get (x := exec step initial walkOne) (by decide)
  refine ⟨_, hexec.symm, (walkProgress_iff _ _ (Run.of_exec hexec.symm)).mpr ?_⟩
  iterate 3 refine List.forall_mem_cons.mpr ⟨trivial, ?_⟩
  refine List.forall_mem_cons.mpr ⟨fun _ _ _ _ => ⟨_, rfl, by decide⟩, ?_⟩
  exact List.forall_mem_cons.mpr ⟨fun _ _ _ _ => ⟨_, rfl, by decide⟩, nofun⟩

/-- A walk that is answered with nothing. -/
def emptyAnswer : List Label :=
  [.createRequest 0 (.walk [1, 3]) (.ofOctets 10 0 0 7), .handOver 0 true, .takeFuture 0,
    .callback 0 .asyncResponse [] true]

/-- It asks on from the empty name. -/
theorem not_walkProgress_emptyAnswer :
    ∃ final, Run step initial (record step initial emptyAnswer) final ∧
      ¬ ((∀ x ∈ record step initial emptyAnswer, x.1.WalkProgresses x.2) ∧
        ∀ v ∈ visited (record step initial emptyAnswer) final, v.RequestsIncrease) := by
  have hexec := Option.some_get (x := exec step initial emptyAnswer) (by decide)
  refine ⟨_, Run.of_exec hexec.symm, fun hprogress => ?_⟩
  have increase := hprogress.2 _ mem_visited_final
  have hsome : (((exec step initial emptyAnswer).get (by decide)).client.pendingRequests[0]?).any
      SnmpRequest.isWalk = true := by decide
  obtain ⟨request, hrequest, hwalk⟩ := (Option.any_eq_true _ _).mp hsome
  have hnames : [[1, 3], ([] : Oid)].Pairwise (· < ·) := increase 0 request hrequest hwalk
  exact absurd hnames (by decide)

end NetDiscovery.Net.SnmpSession
