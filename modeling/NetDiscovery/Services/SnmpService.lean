/-
# The SNMP service on its runner

`requestSystem` begins a walk of the interface table and posts a resolver for its future
to the default runner. The runner's thread polls the future and writes what it holds to
the log; the session's thread calls back for the operations of the walk. Other calls of
the client and other tasks of the runner go on beside it.

Each resolver is a future resolver on the runner, whatever the rest of the service does:
the steps of the others are nothing to it, but for the callback that resolves its walk.
-/

import NetDiscovery.Net.Snmp.ConcurrentWalk
import NetDiscovery.Util.Async.FutureDelivery

namespace NetDiscovery.Net

open NetDiscovery.Semantics SnmpClient

/-- `Oid::ifTable`. -/
def Oid.ifTable : Oid :=
  [1, 3, 6, 1, 2, 1, 2, 2]

namespace SnmpSession

variable {session t : SnmpSession} {uuid : Uuid} {p : ℕ} {a : Label}

/-- What the future of a request holds. -/
def futureState (session : SnmpSession) (uuid : Uuid) : SharedState Outcome :=
  match session.client.futures uuid with
  | some p => session.client.promises.cell p
  | none => .unset

theorem futureState_eq (hfuture : session.client.futures uuid = some p) :
    session.futureState uuid = session.client.promises.cell p := by
  rw [futureState, hfuture]

/-- A future is settled once, by a callback. -/
theorem Coherent.futureState_of_step (coherent : session.Coherent)
    (hstep : session.step a = some t) (uuid : Uuid) :
    t.futureState uuid = session.futureState uuid ∨
      session.futureState uuid = .unset ∧ ∃ outcome, t.futureState uuid = .value outcome := by
  cases hfuture : session.client.futures uuid with
  | none =>
    -- a future that begins is unset
    refine .inl ?_
    have hunset : session.futureState uuid = .unset := by rw [futureState, hfuture]
    by_cases hcreates : ∃ call host, a = .createRequest a.uuid call host
    · obtain ⟨call, host, hlabel⟩ := hcreates
      rw [hlabel] at hstep
      obtain ⟨-, rfl⟩ := step_createRequest hstep
      obtain ⟨request, opens⟩ := opens_callCreateRequest call session.client a.uuid host
      have hfutures : (session.createRequest a.uuid call host).client.futures =
          Function.update session.client.futures a.uuid (some session.client.promises.next) :=
        opens.futures
      by_cases heq : uuid = a.uuid
      · have hcell := (congrFun (congrArg PromiseStore.cell opens.promises) _).trans
          (coherent.fresh _ le_rfl)
        rw [hunset, futureState_eq (by rw [hfutures, heq, Function.update_self])]
        exact hcell
      · rw [hunset, futureState, hfutures, Function.update_of_ne heq, hfuture]
    · obtain ⟨q, found, cell, track, -, changes⟩ := coherent.changes_of_step hstep hcreates
      rw [hunset, futureState, changes.futures, hfuture]
  | some p =>
    by_cases hne : uuid = a.uuid
    · cases a with
      | createRequest other call host =>
        obtain rfl : uuid = other := hne
        exact absurd (step_createRequest hstep).1 (coherent.ne_createRequest hfuture)
      | handOver other accepted =>
        obtain rfl : uuid = other := hne
        obtain ⟨operation, -, rfl⟩ := step_handOver hstep
        have changes := changes_handOver session uuid p operation accepted
        rw [futureState_eq hfuture, futureState_eq (changes.futures ▸ hfuture)]
        exact .inl changes.cell_self
      | takeFuture other =>
        obtain rfl : uuid = other := hne
        obtain ⟨hkept, -, hcell, -⟩ := changes_takeFuture hstep hfuture
        rw [futureState_eq hfuture, futureState_eq hkept]
        exact .inl hcell
      | callback other reason pdu accepted =>
        obtain rfl : uuid = other := hne
        obtain ⟨houtstanding, rfl⟩ := step_callback hstep
        obtain ⟨waiting, -, hwaiting, hunset, -⟩ := coherent.exists_waiting houtstanding
        obtain rfl := Option.some.inj (hfuture.symm.trans hwaiting)
        obtain ⟨request, -, hrequest, -, ⟨-, outcome, changes⟩ | ⟨-, -, _, outcome, changes⟩ |
          ⟨-, -, _, _, _, -, changes⟩⟩ := coherent.callback_cases reason pdu accepted houtstanding
        all_goals
          obtain hpromise := Option.some.inj (hfuture.symm.trans hrequest)
          rw [futureState_eq hfuture, hunset, futureState_eq (changes.futures ▸ hfuture), hpromise,
            changes.cell_self]
        · exact .inr ⟨rfl, outcome, rfl⟩
        · exact .inr ⟨rfl, outcome, rfl⟩
        · exact .inl rfl
    · have unchanged := coherent.unchanged hfuture hstep hne
      rw [futureState_eq hfuture, futureState_eq unchanged.futures]
      exact .inl unchanged.cell

end SnmpSession

end NetDiscovery.Net

namespace NetDiscovery.Services

open NetDiscovery.Net NetDiscovery.Net.SnmpClient NetDiscovery.Semantics NetDiscovery.Util
open FutureResolver (Phase Entry)

/-- The tasks of the default runner. -/
inductive SnmpJob
  /-- `SnmpResolver`, which every `requestSystem` posts -/
  | snmpResolver (uuid : Uuid)
  | other (number : ℕ)
  deriving DecidableEq

/-- `service::SnmpService` with its client, the default runner and the log. An `E` is what
a callback throws. -/
structure SnmpService (E : Type*) where
  session : SnmpSession
  runner : TaskRunner SnmpJob
  /-- the resolvers that have been posted -/
  posted : Uuid → Bool
  /-- the resolvers that have read their futures -/
  read : Uuid → Bool
  /-- where the run in progress is, if it is one of a resolver -/
  phase : Phase Outcome E
  /-- the callbacks that have been entered, the oldest first -/
  log : List (Uuid × Entry Outcome E)

namespace SnmpService

variable {E : Type*}

/-- A new service. -/
def initial : SnmpService E where
  session := .initial
  runner := .initial
  posted _ := false
  read _ := false
  phase := .idle
  log := []

/-- The statements of callers and threads. -/
inductive Label (E : Type*)
  /-- a statement of a call of the client, or a callback of its session -/
  | session (a : SnmpSession.Label)
  /-- `setFuture` and `post` in `requestSystem` -/
  | postResolver (uuid : Uuid)
  /-- a step of the runner, or a post of another task -/
  | runner (b : TaskRunner.Label SnmpJob)
  /-- the run in progress: `FutureResolver::run` up to its return or its callback -/
  | poll
  | callbackReturns
  | callbackThrows (e : E)

/-- The first statement of `requestSystem`; the target has version 2. -/
def requestSystem (uuid : Uuid) (host : IPv4Address) : Label E :=
  .session (.createRequest uuid (.walk .ifTable) host)

variable (s : SnmpService E)

/-- The shared state of a future that gets no exception. -/
def withoutException : SharedState Outcome → SharedState (Except E Outcome)
  | .unset => .unset
  | .value outcome => .value (.ok outcome)
  | .broken => .broken

/-- The resolver of a request as a resolver of its own; the retry delay is a second. -/
def resolver (uuid : Uuid) : FutureResolver.System SnmpJob Outcome E where
  runner := s.runner
  future := withoutException (s.session.futureState uuid)
  valid := !s.read uuid
  retryDelay := 1000
  phase := if s.runner.running = some (.snmpResolver uuid) then s.phase else .idle

/-- The run in progress comes to a phase, and enters a callback if the phase is one. -/
def come (uuid : Uuid) (valid : Bool) (phase : Phase Outcome E) : SnmpService E :=
  { s with
    read := Function.update s.read uuid (!valid)
    phase := phase
    log := s.log ++ phase.entry.toList.map fun entry => (uuid, entry) }

/-- A run of a resolver returns what it has come to; others return anything. The default
runner is neither stopped nor destroyed. -/
def allows : TaskRunner.Label SnmpJob → Bool
  | .post (.other _) | .postDelayed (.other _) _ | .run _ | .expire _ => true
  | .finish continuation =>
    match s.runner.running with
    | some (.snmpResolver _) => s.phase.continuation = some continuation
    | _ => true
  | _ => false

/-- Where the run in progress is after a step of the runner. -/
def phaseAfter : TaskRunner.Label SnmpJob → Phase Outcome E
  | .run _ => .polling
  | .finish _ => .idle
  | _ => s.phase

/-- One statement. -/
def step (s : SnmpService E) : Label E → Option (SnmpService E)
  | .session a => (s.session.step a).map fun session => { s with session := session }
  | .postResolver uuid =>
    match (s.session.tracks uuid).stage, s.posted uuid with
    | .returned (some _), false => some { s with
        runner := s.runner.post (.snmpResolver uuid)
        posted := Function.update s.posted uuid true }
    | _, _ => none
  | .runner b =>
    if s.allows b then
      (s.runner.step b).map fun runner => { s with runner := runner, phase := s.phaseAfter b }
    else none
  | .poll =>
    match s.runner.running, s.phase with
    | some (.snmpResolver uuid), .polling =>
      let polled := FutureResolver.poll (s.resolver uuid)
      some (s.come uuid polled.valid polled.phase)
    | _, _ => none
  | .callbackReturns =>
    match s.runner.running with
    | some (.snmpResolver _) => s.phase.afterReturn.map fun phase => { s with phase := phase }
    | _ => none
  | .callbackThrows e =>
    match s.runner.running with
    | some (.snmpResolver uuid) => (s.phase.afterThrow e).map (s.come uuid (!s.read uuid))
    | _ => none

/-- What a resolver has handed to its callbacks. -/
def logged (uuid : Uuid) : List (Entry Outcome E) :=
  s.log.filterMap fun line => if line.1 = uuid then some line.2 else none

/-- A step as the session sees it. -/
def sessionLabel : SnmpService E × Label E → Option SnmpSession.Label
  | (_, .session a) => some a
  | _ => none

/-- The callback that settles a future settles it for its resolver. -/
def settles (before after : SharedState Outcome) :
    Option (FutureResolver.Label SnmpJob Outcome E) :=
  match before, after with
  | .unset, .value outcome => some (.set (.ok outcome))
  | _, _ => none

/-- A step as a resolver sees it. -/
def observe (uuid : Uuid) :
    SnmpService E × Label E → Option (FutureResolver.Label SnmpJob Outcome E)
  | (s, .session a) => (s.step (.session a)).bind fun t =>
      settles (s.session.futureState uuid) (t.session.futureState uuid)
  | (_, .postResolver other) => some (.runner (.post (.snmpResolver other)))
  | (_, .runner b) => some (.runner b)
  | (s, .poll) => if s.runner.running = some (.snmpResolver uuid) then some .poll else none
  | (s, .callbackReturns) =>
    if s.runner.running = some (.snmpResolver uuid) then some .callbackReturns else none
  | (s, .callbackThrows e) =>
    if s.runner.running = some (.snmpResolver uuid) then some (.callbackThrows e) else none

/-! ## Steps -/

variable {s} {t : SnmpService E} {a : SnmpSession.Label} {b : TaskRunner.Label SnmpJob}
  {uuid other : Uuid} {l : Label E} {e : E}

theorem step_session (hstep : s.step (.session a) = some t) :
    ∃ session, s.session.step a = some session ∧ t = { s with session := session } := by
  obtain ⟨session, hsession, rfl⟩ := Option.map_eq_some_iff.mp hstep
  exact ⟨session, hsession, rfl⟩

theorem step_postResolver (hstep : s.step (.postResolver uuid) = some t) :
    s.posted uuid = false ∧ t = { s with
      runner := s.runner.post (.snmpResolver uuid)
      posted := Function.update s.posted uuid true } := by
  simp only [step] at hstep
  split at hstep
  · exact ⟨‹_›, (Option.some.inj hstep).symm⟩
  · cases hstep

theorem step_runner (hstep : s.step (.runner b) = some t) :
    s.allows b = true ∧ ∃ runner, s.runner.step b = some runner ∧
      t = { s with runner := runner, phase := s.phaseAfter b } := by
  simp only [step] at hstep
  split_ifs at hstep with hallows
  obtain ⟨runner, hrunner, rfl⟩ := Option.map_eq_some_iff.mp hstep
  exact ⟨hallows, runner, hrunner, rfl⟩

theorem step_poll (hstep : s.step .poll = some t) :
    ∃ uuid, s.runner.running = some (.snmpResolver uuid) ∧ s.phase = .polling ∧
      t = s.come uuid (FutureResolver.poll (s.resolver uuid)).valid
        (FutureResolver.poll (s.resolver uuid)).phase := by
  simp only [step] at hstep
  split at hstep
  · exact ⟨_, ‹_›, ‹_›, (Option.some.inj hstep).symm⟩
  · cases hstep

theorem step_callbackReturns (hstep : s.step .callbackReturns = some t) :
    ∃ uuid phase, s.runner.running = some (.snmpResolver uuid) ∧
      s.phase.afterReturn = some phase ∧ t = { s with phase := phase } := by
  simp only [step] at hstep
  split at hstep
  · obtain ⟨phase, hphase, rfl⟩ := Option.map_eq_some_iff.mp hstep
    exact ⟨_, phase, ‹_›, hphase, rfl⟩
  · cases hstep

theorem step_callbackThrows (hstep : s.step (.callbackThrows e) = some t) :
    ∃ uuid phase, s.runner.running = some (.snmpResolver uuid) ∧
      s.phase.afterThrow e = some phase ∧ t = s.come uuid (!s.read uuid) phase := by
  simp only [step] at hstep
  split at hstep
  · obtain ⟨phase, hphase, rfl⟩ := Option.map_eq_some_iff.mp hstep
    exact ⟨_, phase, ‹_›, hphase, rfl⟩
  · cases hstep

/-! ## Each resolver by itself -/

theorem phase_resolver (hrunning : s.runner.running = some (.snmpResolver uuid)) :
    (s.resolver uuid).phase = s.phase :=
  if_pos hrunning

theorem phase_resolver_of_ne (hrunning : s.runner.running ≠ some (.snmpResolver uuid)) :
    (s.resolver uuid).phase = .idle :=
  if_neg hrunning

theorem ne_of_running (hrunning : s.runner.running = some (.snmpResolver other))
    (hne : s.runner.running ≠ some (.snmpResolver uuid)) : uuid ≠ other := by
  rintro rfl
  exact hne hrunning

theorem eq_of_running (hown : s.runner.running = some (.snmpResolver uuid))
    (hrunning : s.runner.running = some (.snmpResolver other)) : uuid = other :=
  SnmpJob.snmpResolver.inj (Option.some.inj (hown.symm.trans hrunning))

/-- Where a run of one resolver has come to is nothing to the others. -/
theorem resolver_come_of_ne (valid : Bool) (phase : Phase Outcome E)
    (hrunning : s.runner.running = some (.snmpResolver other))
    (hne : s.runner.running ≠ some (.snmpResolver uuid)) :
    (s.come other valid phase).resolver uuid = s.resolver uuid := by
  have hother : uuid ≠ other := ne_of_running hrunning hne
  simp [resolver, come, hother, hne]

theorem resolver_come (valid : Bool) (phase : Phase Outcome E)
    (hrunning : s.runner.running = some (.snmpResolver uuid)) :
    (s.come uuid valid phase).resolver uuid =
      { s.resolver uuid with valid := valid, phase := phase } := by
  simp [resolver, come, hrunning]

/-- A callback of the session settles the future of the resolver or is nothing to it. -/
theorem resolver_of_session (coherent : s.session.Coherent)
    (hstep : s.step (.session a) = some t) :
    StepOrStay (FutureResolver.step (.snmpResolver uuid)) (s.resolver uuid)
      (observe uuid (s, .session a)) (t.resolver uuid) := by
  have hobserve : observe uuid (s, .session a) =
      settles (s.session.futureState uuid) (t.session.futureState uuid) := by
    rw [observe, hstep, Option.bind_some]
  obtain ⟨session, hsession, rfl⟩ := step_session hstep
  rw [hobserve]
  rcases coherent.futureState_of_step hsession uuid with hsame | ⟨hunset, outcome, hvalue⟩
  · have hstays : settles (E := E) (s.session.futureState uuid) (session.futureState uuid) =
        none := by
      rw [hsame]
      cases s.session.futureState uuid <;> rfl
    rw [hstays]
    simp [StepOrStay, resolver, hsame]
  · rw [hunset, hvalue]
    simp [StepOrStay, settles, FutureResolver.step, resolver, hunset, hvalue, withoutException]

/-- So does a step of the runner. -/
theorem resolver_of_runner (hstep : s.step (.runner b) = some t) :
    FutureResolver.step (.snmpResolver uuid) (s.resolver uuid) (.runner b) =
      some (t.resolver uuid) := by
  obtain ⟨hallows, runner, hrunner, rfl⟩ := step_runner hstep
  have hresolver : FutureResolver.allows (.snmpResolver uuid) (s.resolver uuid) b = true := by
    cases b with
    | finish continuation =>
      by_cases hrunning : s.runner.running = some (.snmpResolver uuid)
      · rw [allows, hrunning] at hallows
        simpa [FutureResolver.allows, phase_resolver hrunning] using Or.inr hallows
      · simp [FutureResolver.allows, resolver, hrunning]
    | post | postDelayed | run | expire | stop | destroy => rfl
  -- the phase is that of the run in progress, so it is idle for the other resolvers
  have hphase : FutureResolver.phaseAfter (.snmpResolver uuid) (s.resolver uuid) runner b =
      if runner.running = some (.snmpResolver uuid) then s.phaseAfter b else .idle := by
    cases b with
    | run index =>
      obtain ⟨⟨-, hidle⟩, task, -, rfl⟩ := TaskRunner.step_run hrunner
      have hne : s.runner.running ≠ some (.snmpResolver uuid) := by simp [hidle]
      simp [FutureResolver.phaseAfter, phaseAfter, phase_resolver_of_ne hne]
    | finish continuation =>
      obtain ⟨task, -, rfl⟩ := TaskRunner.step_finish hrunner
      by_cases hrunning : s.runner.running = some (.snmpResolver uuid)
      · simp [FutureResolver.phaseAfter, resolver, hrunning]
      · simp [FutureResolver.phaseAfter, resolver, hrunning]
    | post | postDelayed | expire | stop | destroy =>
      have hrunning := TaskRunner.running_of_step hrunner (by simp) (by simp)
      simp [FutureResolver.phaseAfter, phaseAfter, resolver, hrunning]
  rw [FutureResolver.step, if_pos hresolver]
  have hsame : (s.resolver uuid).runner.step b = some runner := hrunner
  rw [hsame, Option.map_some, hphase]
  rfl

/-- A poll changes the phase and whether the future can still be read. -/
theorem poll_eq (r : FutureResolver.System SnmpJob Outcome E) :
    FutureResolver.poll r = { r with
      valid := (FutureResolver.poll r).valid
      phase := (FutureResolver.poll r).phase } := by
  unfold FutureResolver.poll
  split_ifs
  · split <;> rfl
  · rfl

/-- The simulation: each step of the service is a step of the resolver, or nothing to it. -/
theorem resolver_of_step (coherent : s.session.Coherent) (hstep : s.step l = some t) :
    StepOrStay (FutureResolver.step (.snmpResolver uuid)) (s.resolver uuid) (observe uuid (s, l))
      (t.resolver uuid) := by
  cases l with
  | session a => exact resolver_of_session coherent hstep
  | postResolver other =>
    obtain ⟨-, rfl⟩ := step_postResolver hstep
    simp [StepOrStay, observe, FutureResolver.step, FutureResolver.allows,
      FutureResolver.phaseAfter, TaskRunner.step, resolver]
  | runner b => exact resolver_of_runner hstep
  | poll =>
    obtain ⟨other, hrunning, hphase, rfl⟩ := step_poll hstep
    by_cases hown : s.runner.running = some (.snmpResolver uuid)
    · obtain rfl := eq_of_running hown hrunning
      have hpolling := (phase_resolver hown).trans hphase
      rw [observe, if_pos hown, resolver_come _ _ hown, StepOrStay, FutureResolver.step, hpolling]
      exact congrArg some (poll_eq _)
    · rw [observe, if_neg hown]
      exact resolver_come_of_ne _ _ hrunning hown
  | callbackReturns =>
    obtain ⟨other, phase, hrunning, hphase, rfl⟩ := step_callbackReturns hstep
    by_cases hown : s.runner.running = some (.snmpResolver uuid)
    · rw [observe, if_pos hown, StepOrStay, FutureResolver.step, phase_resolver hown, hphase]
      simp [resolver, hown]
    · rw [observe, if_neg hown]
      simp [StepOrStay, resolver, hown]
  | callbackThrows e =>
    obtain ⟨other, phase, hrunning, hphase, rfl⟩ := step_callbackThrows hstep
    by_cases hown : s.runner.running = some (.snmpResolver uuid)
    · obtain rfl := eq_of_running hown hrunning
      rw [observe, if_pos hown, resolver_come _ _ hown, StepOrStay, FutureResolver.step,
        phase_resolver hown, hphase]
      rfl
    · rw [observe, if_neg hown]
      exact resolver_come_of_ne _ _ hrunning hown

/-- The callback of a resolver that is entered in a step. -/
def enters (uuid : Uuid) (x : SnmpService E × Label E) : Option (Entry Outcome E) :=
  (observe uuid x).bind fun l => FutureResolver.enters (x.1.resolver uuid, l)

theorem logged_come (valid : Bool) (phase : Phase Outcome E) :
    (s.come uuid valid phase).logged uuid = s.logged uuid ++ phase.entry.toList := by
  simp only [logged, come, List.filterMap_append, List.filterMap_map]
  cases phase.entry <;> simp

theorem logged_come_of_ne (valid : Bool) (phase : Phase Outcome E) (hne : uuid ≠ other) :
    (s.come other valid phase).logged uuid = s.logged uuid := by
  simp only [logged, come, List.filterMap_append, List.filterMap_map]
  cases phase.entry <;> simp [hne.symm]

/-- What a resolver has handed to its callbacks grows by the callback that is entered. -/
theorem logged_of_step (hstep : s.step l = some t) :
    t.logged uuid = s.logged uuid ++ (enters uuid (s, l)).toList := by
  cases l with
  | session a =>
    -- a future that is settled is only read by a later poll
    have hnone : enters uuid (s, .session a) = none := by
      rw [enters, observe, hstep, Option.bind_some]
      cases s.session.futureState uuid <;> cases t.session.futureState uuid <;> rfl
    obtain ⟨session, -, rfl⟩ := step_session hstep
    rw [hnone]
    exact (List.append_nil _).symm
  | postResolver other =>
    obtain ⟨-, rfl⟩ := step_postResolver hstep
    exact (List.append_nil _).symm
  | runner b =>
    obtain ⟨-, runner, -, rfl⟩ := step_runner hstep
    exact (List.append_nil _).symm
  | poll =>
    obtain ⟨other, hrunning, -, rfl⟩ := step_poll hstep
    by_cases hown : s.runner.running = some (.snmpResolver uuid)
    · obtain rfl := eq_of_running hown hrunning
      rw [logged_come, enters, observe, if_pos hown]
      rfl
    · rw [logged_come_of_ne _ _ (ne_of_running hrunning hown), enters, observe, if_neg hown]
      exact (List.append_nil _).symm
  | callbackReturns =>
    obtain ⟨other, phase, -, -, rfl⟩ := step_callbackReturns hstep
    have hnone : enters uuid (s, .callbackReturns) = none := by
      rw [enters, observe]
      split_ifs <;> rfl
    rw [hnone]
    exact (List.append_nil _).symm
  | callbackThrows e =>
    obtain ⟨other, phase, hrunning, hphase, rfl⟩ := step_callbackThrows hstep
    by_cases hown : s.runner.running = some (.snmpResolver uuid)
    · obtain rfl := eq_of_running hown hrunning
      rw [logged_come, enters, observe, if_pos hown, Option.bind_some, FutureResolver.enters,
        phase_resolver hown, hphase, Option.bind_some]
    · rw [logged_come_of_ne _ _ (ne_of_running hrunning hown), enters, observe, if_neg hown]
      exact (List.append_nil _).symm

end SnmpService

end NetDiscovery.Services
