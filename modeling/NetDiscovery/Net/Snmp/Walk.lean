/-
# Walking a subtree

`SnmpClient::walk` waits for the future of `walkAsync` while an agent answers
one GETBULK after the other. Between two callbacks the walk stands at an
identifier: it has collected the bindings up to it and asks for those past it.
What it will be resolved with is determined by what remains of the MIB there,
and each callback that goes on keeps that outcome and leaves less to remain.

The walk is resolved with the subtree exactly when the MIB goes on past the
subtree. Otherwise the answer that marks the end of the MIB makes it an error.
-/

import NetDiscovery.Net.Snmp.Mib
import NetDiscovery.Net.Snmp.PendingRequests

namespace NetDiscovery.Net.SnmpClient

open NetDiscovery.Semantics NetDiscovery.Util

/-- An agent's answers to the operations of a walk, counted from the first. -/
abbrev Agent := ℕ → Operation → Pdu

/-- `std::future::get` while an agent answers the operations of the request. The
number bounds how often the future is looked at. -/
def await (agent : Agent) (uuid : Uuid) (p : ℕ) : ℕ → ℕ → SnmpClient → Option Outcome
  | 0, _, _ => none
  | fuel + 1, n, client =>
    match client.promises.cell p, client.operations uuid with
    | .value outcome, _ => some outcome
    | .unset, some operation =>
      (client.callback uuid .asyncResponse (agent n operation)).bind
        (await agent uuid p fuel (n + 1))
    | _, _ => none

/-- `SnmpClient::walk`. -/
def walk (client : SnmpClient) (agent : Agent) (uuid : Uuid) (root : Oid) (host : IPv4Address)
    (fuel : ℕ) : Option Outcome :=
  (client.walkAsync uuid root host).await agent uuid client.promises.next fuel 0

/-- The agent answers each GETBULK of a walk with 1 to 10 repetitions. -/
def Serves (agent : Agent) (mib : Mib) : Prop :=
  ∀ n oid, mib.Answers oid (agent n (.getBulk [oid] 0 10)) ∧
    1 ≤ (agent n (.getBulk [oid] 0 10)).length ∧ (agent n (.getBulk [oid] 0 10)).length ≤ 10

/-- The agent that fills all repetitions. -/
def fillingAgent (mib : Mib) : Agent
  | _, .getBulk [oid] _ maxReps => mib.answer maxReps.toNat oid
  | _, _ => []

theorem serves_fillingAgent (mib : Mib) : Serves (fillingAgent mib) mib := by
  intro n oid
  have hanswer : fillingAgent mib n (.getBulk [oid] 0 10) = mib.answer 10 oid := rfl
  rw [hanswer, Mib.length_answer]
  exact ⟨mib.answers_answer 10 oid, by decide, le_rfl⟩

/-- The walk resolves with success, and its variables are the subtree. -/
def WalksSubtree (client : SnmpClient) (agent : Agent) (uuid : Uuid) (root : Oid)
    (host : IPv4Address) (mib : Mib) : Prop :=
  ∃ fuel response, client.walk agent uuid root host fuel = some (.ok response) ∧
    response.varBinds = (mib.subtree root).map Vb.toVarBind

/-- The outcome of a walk that has collected `response`, when `rest` remains. -/
def walkOutcome (root : Oid) (response : SnmpResponse) (rest : List Vb) : Outcome :=
  if ∀ vb ∈ rest, root <+: vb.oid then .error .timedOut
  else .ok { response with
    varBinds := response.varBinds ++
      (rest.takeWhile fun vb => root.isPrefixOf vb.oid).map Vb.toVarBind }

variable {client t : SnmpClient} {agent : Agent} {uuid : Uuid} {p n fuel : ℕ} {root oid : Oid}
  {host : IPv4Address} {mib : Mib} {request : SnmpRequest} {response : SnmpResponse} {vb last : Vb}
  {pdu : Pdu} {rest : List Vb} {outcome : Outcome}

/-! ## The outcome -/

theorem walkOutcome_nil : walkOutcome root response [] = .error .timedOut := by
  simp [walkOutcome]

theorem walkOutcome_cons_of_under (hroot : root <+: vb.oid) :
    walkOutcome root response (vb :: rest) = walkOutcome root (response.push vb) rest := by
  have htake : (vb :: rest).takeWhile (fun vb => root.isPrefixOf vb.oid) =
      vb :: rest.takeWhile fun vb => root.isPrefixOf vb.oid :=
    List.takeWhile_cons_of_pos (by simpa using hroot)
  simp [walkOutcome, htake, hroot, SnmpResponse.push]

theorem walkOutcome_cons_of_not_under (hroot : ¬ root <+: vb.oid) :
    walkOutcome root response (vb :: rest) = .ok response := by
  have htake : (vb :: rest).takeWhile (fun vb => root.isPrefixOf vb.oid) = [] :=
    List.takeWhile_cons_of_neg (by simpa using hroot)
  simp [walkOutcome, htake, hroot]

/-! ## One answer -/

/-- Over an answer for `oid`, the loop of `handleWalk` either finds the outcome or
passes the whole answer and stands at its last binding. -/
theorem walkPdu_cases (response : SnmpResponse) (last : Vb) (answers : mib.Answers oid pdu)
    (hroot : root <+: oid) (hlast : pdu = [] → last.oid = oid) :
    (∃ collected, walkPdu root response last pdu =
      .resolve collected (walkOutcome root response (mib.after oid))) ∨
    ∃ collected nextVb, walkPdu root response last pdu = .again collected nextVb ∧
      root <+: nextVb.oid ∧
      walkOutcome root collected (mib.after nextVb.oid) =
        walkOutcome root response (mib.after oid) ∧
      (mib.after nextVb.oid).length + pdu.length = (mib.after oid).length := by
  induction answers generalizing response last with
  | nil oid =>
    -- the loop is past the last binding, which it stands at
    obtain rfl := hlast rfl
    exact .inr ⟨response, last, rfl, hroot, rfl, rfl⟩
  | @successor oid vb pdu hnext _ ih =>
    rw [Mib.after_of_next_eq_some hnext]
    by_cases hunder : root <+: vb.oid
    · have hvalue := mib.value_ne_end vb (Mib.mem_of_next_eq_some hnext)
      rw [walkPdu_cons_of_value hunder hvalue, walkOutcome_cons_of_under hunder]
      rcases ih (response.push vb) vb hunder fun _ => rfl with
        hresolve | ⟨collected, nextVb, hexit, hnextVb, houtcome, hlength⟩
      · exact .inl hresolve
      · refine .inr ⟨collected, nextVb, hexit, hnextVb, houtcome, ?_⟩
        simp only [List.length_cons]
        omega
    · rw [walkPdu_cons_of_not_under hunder, walkOutcome_cons_of_not_under hunder]
      exact .inl ⟨response, rfl⟩
  | @endOfMib oid vb pdu hnext hoid hend =>
    subst hoid
    -- nothing remains, and the end is marked under the name of the last binding
    rw [Mib.after_of_next_eq_none hnext, walkPdu_cons_of_end hroot hend, walkOutcome_nil]
    exact .inl ⟨response, rfl⟩

/-- A walk of `root` stands at `oid`: it has asked for the bindings past it. -/
structure StandsAt (client : SnmpClient) (request : SnmpRequest) (root oid : Oid) : Prop where
  pending : client.pendingRequests[request.uuid]? = some request
  isWalk : request.isWalk = true
  walk_oid : request.walkOid = some root
  operation : client.operations request.uuid = some (.getBulk [oid] 0 10)
  unset : client.promises.cell request.promise = .unset
  under : root <+: oid

/-- The callback with the answer resolves the walk with its outcome, or the walk
stands at a later identifier with the same outcome and less remaining. -/
theorem StandsAt.callback (stands : client.StandsAt request root oid)
    (answers : mib.Answers oid pdu) (hpdu : 1 ≤ pdu.length) :
    ∃ t, client.callback request.uuid .asyncResponse pdu = some t ∧
      (t.promises.cell request.promise =
          .value (walkOutcome root request.response (mib.after oid)) ∨
        ∃ response nextOid, t.StandsAt { request with response := response } root nextOid ∧
          walkOutcome root response (mib.after nextOid) =
            walkOutcome root request.response (mib.after oid) ∧
          (mib.after nextOid).length < (mib.after oid).length) := by
  have hcallback : client.callback request.uuid .asyncResponse pdu =
      (client.answered request.uuid).handleWalk .asyncResponse pdu request := by
    simp [SnmpClient.callback, stands.operation, stands.pending, stands.isWalk]
  have hreason : Reason.asyncResponse ≠ .timeout := by decide
  rw [hcallback]
  -- the answer leaves the subtree, or its last binding is where the walk stands next
  rcases walkPdu_cases request.response .default answers stands.under
      (fun hnil => absurd hpdu (by simp [hnil])) with
    ⟨collected, hexit⟩ | ⟨collected, nextVb, hexit, hunder, houtcome, hlength⟩
  · refine ⟨_, (handleWalk_of_resolve hreason stands.walk_oid hexit).trans
      (setValue_of_unset stands.unset), .inl ?_⟩
    exact Function.update_self _ _ _
  · refine ⟨_, handleWalk_of_again hreason stands.walk_oid hexit, .inr ⟨collected, nextVb.oid,
      ⟨?_, stands.isWalk, stands.walk_oid, Function.update_self _ _ _, stands.unset, hunder⟩,
      houtcome, by omega⟩⟩
    exact getElem?_store.trans (if_pos rfl)

/-! ## The whole walk -/

theorem await_of_value (hvalue : client.promises.cell p = .value outcome) :
    client.await agent uuid p (fuel + 1) n = some outcome := by
  simp [await, hvalue]

theorem StandsAt.await_succ (stands : client.StandsAt request root oid) :
    client.await agent request.uuid request.promise (fuel + 1) n =
      (client.callback request.uuid .asyncResponse (agent n (.getBulk [oid] 0 10))).bind
        (await agent request.uuid request.promise fuel (n + 1)) := by
  simp [await, stands.unset, stands.operation]

/-- With enough fuel, a walk ends with the outcome of where it stands. -/
theorem StandsAt.await (serves : Serves agent mib) (stands : client.StandsAt request root oid)
    (hfuel : (mib.after oid).length + 1 < fuel) :
    client.await agent request.uuid request.promise fuel n =
      some (walkOutcome root request.response (mib.after oid)) := by
  induction fuel generalizing client request oid n with
  | zero => exact absurd hfuel (Nat.not_lt_zero _)
  | succ fuel ih =>
    -- one answer resolves the walk, or leaves less to remain than the fuel left
    obtain ⟨answers, hpdu, -⟩ := serves n oid
    obtain ⟨t, hcallback, hvalue | ⟨response, nextOid, hstands, houtcome, hlength⟩⟩ :=
      stands.callback answers hpdu
    · obtain ⟨fuel, rfl⟩ := Nat.exists_eq_add_one_of_ne_zero (n := fuel) (by omega)
      rw [stands.await_succ, hcallback, Option.bind_some, await_of_value hvalue]
    · rw [stands.await_succ, hcallback, Option.bind_some, ← houtcome]
      exact ih hstands (by omega)

/-- More fuel does not change an outcome. -/
theorem await_mono (hawait : client.await agent uuid p fuel n = some outcome) (more : ℕ) :
    client.await agent uuid p (fuel + more) n = some outcome := by
  induction fuel generalizing client n with
  | zero => cases hawait
  | succ fuel ih =>
    rw [Nat.add_right_comm]
    unfold SnmpClient.await at hawait ⊢
    split at hawait
    · exact hawait
    · obtain ⟨t, hcallback, hrest⟩ := Option.bind_eq_some_iff.mp hawait
      rw [hcallback, Option.bind_some]
      exact ih hrest
    · cases hawait

theorem standsAt_walkAsync (consistent : client.Consistent) :
    (client.walkAsync uuid root host).StandsAt
      { (client.createRequest uuid host).2 with isWalk := true, walkOid := some root }
      root root where
  pending := ((opens_walkAsync client uuid root host).requests uuid).trans (if_pos rfl)
  isWalk := rfl
  walk_oid := rfl
  operation := Function.update_self _ _ _
  unset := consistent.fresh _ le_rfl
  under := List.prefix_rfl

/-- A walk of a served MIB ends, with one outcome. -/
theorem walk_eq_some_iff (consistent : client.Consistent) (serves : Serves agent mib)
    (uuid : Uuid) (root : Oid) (host : IPv4Address) :
    (∃ fuel, client.walk agent uuid root host fuel = some outcome) ↔
      outcome = walkOutcome root .empty (mib.after root) := by
  have hwalk : ∀ more, client.walk agent uuid root host ((mib.after root).length + 2 + more) =
      some (walkOutcome root .empty (mib.after root)) := fun more =>
    (standsAt_walkAsync consistent).await serves (by omega)
  constructor
  · rintro ⟨fuel, hfuel⟩
    -- any other amount of fuel that suffices gives the same outcome
    have hmore := await_mono hfuel ((mib.after root).length + 2)
    rw [Nat.add_comm] at hmore
    exact Option.some.inj (hmore.symm.trans (hwalk fuel))
  · rintro rfl
    exact ⟨_, hwalk 0⟩

/-- **A walk collects its subtree exactly when the MIB goes on past the
subtree.** -/
theorem walksSubtree_iff (trace : List (SnmpClient × Label)) (client : SnmpClient)
    (run : Run step initial trace client) (agent : Agent) (mib : Mib) (serves : Serves agent mib)
    (uuid : Uuid) (root : Oid) (host : IPv4Address) :
    client.WalksSubtree agent uuid root host mib ↔
      ∃ vb ∈ mib.bindings, root < vb.oid ∧ ¬ root <+: vb.oid := by
  have consistent : client.Consistent :=
    run.invariant .initial fun _ _ _ prior hstep => prior.step hstep
  have hpast : (∃ vb ∈ mib.bindings, root < vb.oid ∧ ¬ root <+: vb.oid) ↔
      ¬ ∀ vb ∈ mib.after root, root <+: vb.oid := by
    simp [Mib.after]
  rw [hpast]
  constructor
  · rintro ⟨fuel, response, hwalk, -⟩ hall
    -- with nothing past the subtree the outcome is the error
    have hok := (walk_eq_some_iff consistent serves uuid root host).mp ⟨fuel, hwalk⟩
    rw [walkOutcome, if_pos hall] at hok
    cases hok
  · intro hnot
    obtain ⟨fuel, hwalk⟩ := (walk_eq_some_iff consistent serves uuid root host).mpr rfl
    rw [walkOutcome, if_neg hnot, Mib.takeWhile_after] at hwalk
    exact ⟨fuel, _, hwalk, rfl⟩

/-- A received integer. -/
def integer (oid : Oid) (i : Int32) : Vb where
  oid := oid
  value := .int i
  valid := true
  printableValue := toString i

/-- A subtree of two bindings with one past it. -/
def innerSubtree : Mib where
  bindings := [integer [1, 3, 6, 1, 2] 7, integer [1, 3, 6, 1, 5] 8, integer [1, 3, 6, 2] 9]
  increasing := by decide
  value_ne_end := by decide

theorem walksSubtree_innerSubtree :
    initial.WalksSubtree (fillingAgent innerSubtree) 0 [1, 3, 6, 1] (.ofOctets 10 0 0 7)
      innerSubtree :=
  (walksSubtree_iff [] initial .nil _ _ (serves_fillingAgent innerSubtree) _ _ _).mpr
    ⟨integer [1, 3, 6, 2] 9, by decide, by decide, by decide⟩

/-- The same subtree at the end of the MIB. -/
def lastSubtree : Mib where
  bindings := [integer [1, 3, 6, 1, 2] 7, integer [1, 3, 6, 1, 5] 8]
  increasing := by decide
  value_ne_end := by decide

/-- The walk ends with an error. -/
theorem not_walksSubtree_lastSubtree :
    ∃ agent, Serves agent lastSubtree ∧
      ¬ initial.WalksSubtree agent 0 [1, 3, 6, 1] (.ofOctets 10 0 0 7) lastSubtree := by
  refine ⟨fillingAgent lastSubtree, serves_fillingAgent lastSubtree, ?_⟩
  rintro ⟨fuel, response, hwalk, -⟩
  have hok := (walk_eq_some_iff .initial (serves_fillingAgent lastSubtree) _ _ _).mp ⟨fuel, hwalk⟩
  have hall : ∀ vb ∈ lastSubtree.after [1, 3, 6, 1], [1, 3, 6, 1] <+: vb.oid := by decide
  rw [walkOutcome, if_pos hall] at hok
  cases hok

end NetDiscovery.Net.SnmpClient
