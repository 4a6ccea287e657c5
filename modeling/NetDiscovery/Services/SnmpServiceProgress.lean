/-
# What the SNMP service logs

A `requestSystem` whose caller, session and runner go on comes to its end: the future is
taken and its resolver posted, the walk is resolved, and a run of the resolver finds the
future ready. So the outcome of the walk is logged, and it is logged once.

The walk is the session's part and the resolver the runner's. Both are behaviours of
components of the one service, and what is known of them is put together here.
-/

import NetDiscovery.Services.SnmpService

namespace NetDiscovery.Net.SnmpSession

open NetDiscovery.Semantics NetDiscovery.Util SnmpClient

variable {mib : Mib} {session t : SnmpSession} {uuid : Uuid} {p n : ℕ} {root : Oid} {a : Label}
  {b : Behaviour SnmpSession.step SnmpSession.initial}

/-! ## The statements of a call -/

/-- A call goes from one statement to the next one by its own steps only. -/
theorem Coherent.stage_of_step (coherent : session.Coherent)
    (hfuture : session.client.futures uuid = some p) (hstep : session.step a = some t) :
    ((t.tracks uuid).stage = (session.tracks uuid).stage ∧
        (¬ ∃ accepted, a = .handOver uuid accepted) ∧ a ≠ .takeFuture uuid) ∨
      ((∃ operation, (session.tracks uuid).stage = .handOver operation) ∧
        (t.tracks uuid).stage = .takeFuture) ∨
      ((session.tracks uuid).stage = .takeFuture ∧ (t.tracks uuid).stage =
        .returned (session.client.pendingRequests[uuid]?.map SnmpRequest.promise)) := by
  by_cases hne : uuid = a.uuid
  · cases a with
    | createRequest other call host =>
      obtain rfl : uuid = other := hne
      exact absurd (step_createRequest hstep).1 (coherent.ne_createRequest hfuture)
    | handOver other accepted =>
      obtain rfl : uuid = other := hne
      obtain ⟨operation, hstage, rfl⟩ := step_handOver hstep
      have changes := changes_handOver session uuid p operation accepted
      exact .inr (.inl ⟨⟨operation, hstage⟩, congrArg Track.stage changes.track_eq⟩)
    | takeFuture other =>
      obtain rfl : uuid = other := hne
      obtain ⟨hstage, rfl⟩ := step_takeFuture hstep
      have changes := changes_advance session uuid p
        (.returned (session.client.pendingRequests[uuid]?.map SnmpRequest.promise))
      exact .inr (.inr ⟨hstage, congrArg Track.stage changes.track_eq⟩)
    | callback other reason pdu accepted =>
      obtain rfl : uuid = other := hne
      obtain ⟨houtstanding, rfl⟩ := step_callback hstep
      -- a callback is no statement of the call
      refine .inl ⟨?_, by simp, by simp⟩
      obtain ⟨request, -, -, -, ⟨-, _, changes⟩ | ⟨-, -, _, _, changes⟩ |
        ⟨-, -, _, _, _, -, changes⟩⟩ := coherent.callback_cases reason pdu accepted houtstanding
      all_goals exact (congrArg Track.stage changes.track_eq).trans rfl
  · refine .inl ⟨congrArg Track.stage (coherent.tracks_of_step hstep hne), ?_, ?_⟩
    · rintro ⟨accepted, rfl⟩
      exact hne rfl
    · rintro rfl
      exact hne rfl

/-- A request is created by its own call only. -/
theorem Coherent.new_of_step (coherent : session.Coherent)
    (hnew : (session.tracks uuid).stage = .createRequest) (hstep : session.step a = some t)
    (hother : ∀ call host, a ≠ .createRequest uuid call host) :
    (t.tracks uuid).stage = .createRequest := by
  by_cases hne : uuid = a.uuid
  · cases a with
    | createRequest other call host =>
      obtain rfl : uuid = other := hne
      exact absurd rfl (hother call host)
    | handOver other accepted =>
      obtain rfl : uuid = other := hne
      obtain ⟨operation, hstage, -⟩ := step_handOver hstep
      cases hnew.symm.trans hstage
    | takeFuture other =>
      obtain rfl : uuid = other := hne
      cases hnew.symm.trans (step_takeFuture hstep).1
    | callback other reason pdu accepted =>
      obtain rfl : uuid = other := hne
      -- what is called back for has a future
      obtain ⟨request, -, hfuture, -⟩ := coherent.exists_waiting (step_callback hstep).1
      exact absurd hnew (coherent.ne_createRequest hfuture)
  · rw [coherent.tracks_of_step hstep hne]
    exact hnew

theorem Underway.exists_pending (underway : session.Underway mib uuid root) :
    ∃ p request, session.client.futures uuid = some p ∧
      session.client.pendingRequests[uuid]? = some request := by
  rcases underway with ⟨p, request, hfuture, hpending, -⟩ |
    ⟨oid, p, request, hfuture, hpending, -⟩ | ⟨p, request, hfuture, hpending, -⟩
  all_goals exact ⟨p, request, hfuture, hpending⟩

/-- The call has returned its future. -/
def Returned (session : SnmpSession) (uuid : Uuid) : Prop :=
  ∃ p, (session.tracks uuid).stage = .returned (some p)

/-- A walk that is underway goes on to its next statement, or stays where it is. -/
theorem stage_next (underway : (b.state n).Underway mib uuid root) :
    (((b.state (n + 1)).tracks uuid).stage = ((b.state n).tracks uuid).stage ∧
        (¬ ∃ a, b.label n = some a ∧ ∃ accepted, a = .handOver uuid accepted) ∧
        ¬ ∃ a, b.label n = some a ∧ a = .takeFuture uuid) ∨
      ((∃ operation, ((b.state n).tracks uuid).stage = .handOver operation) ∧
        ((b.state (n + 1)).tracks uuid).stage = .takeFuture) ∨
      ((((b.state n).tracks uuid).stage = .takeFuture) ∧ (b.state (n + 1)).Returned uuid) := by
  obtain ⟨p, request, hfuture, hpending⟩ := underway.exists_pending
  rcases b.next_cases n with ⟨hlabel, hstays⟩ | ⟨a, hlabel, hstep⟩
  · refine .inl ⟨by rw [hstays], ?_, ?_⟩ <;> simp [hlabel]
  · rcases (coherent_state b n).stage_of_step hfuture hstep with
      ⟨hsame, hhands, htakes⟩ | hhands | ⟨htakes, hreturned⟩
    · refine .inl ⟨hsame, ?_, ?_⟩
      · simpa [hlabel] using hhands
      · simpa [hlabel] using htakes
    · exact .inr (.inl hhands)
    · rw [hpending, Option.map_some] at hreturned
      exact .inr (.inr ⟨htakes, request.promise, hreturned⟩)

/-- A call returns once. -/
theorem returned_next (underway : (b.state n).Underway mib uuid root)
    (hreturned : (b.state n).Returned uuid) : (b.state (n + 1)).Returned uuid := by
  obtain ⟨p, hstage⟩ := hreturned
  rcases stage_next underway with ⟨hsame, -⟩ | ⟨⟨operation, hhands⟩, -⟩ | ⟨htakes, -⟩
  · exact ⟨p, hsame.trans hstage⟩
  · cases hstage.symm.trans hhands
  · cases hstage.symm.trans htakes

section Call

variable (served : Served b mib uuid)
  (takes : b.Answers (fun session => (session.tracks uuid).stage = .takeFuture)
    fun _ a => a = .takeFuture uuid)

include served

theorem leadsTo_takeFuture (fair : Fair b uuid) :
    LeadsTo (fun n => (b.state n).Underway mib uuid root ∧
        ∃ operation, ((b.state n).tracks uuid).stage = .handOver operation)
      fun n => (b.state n).Underway mib uuid root ∧
        ((b.state n).tracks uuid).stage = .takeFuture := by
  refine Behaviour.leadsTo_of_answers fair.handsOver (fun n hn => hn.2) ?_ ?_
  · rintro n ⟨underway, operation, hstage⟩
    rcases stage_next underway with ⟨hsame, -⟩ | ⟨-, hgoes⟩ | ⟨htakes, -⟩
    · exact .inl ⟨underway_next served underway, operation, hsame.trans hstage⟩
    · exact .inr ⟨underway_next served underway, hgoes⟩
    · cases hstage.symm.trans htakes
  · rintro n a ⟨underway, operation, hstage⟩ hlabel hhands
    rcases stage_next underway with ⟨-, hquiet, -⟩ | ⟨-, hgoes⟩ | ⟨htakes, -⟩
    · exact absurd ⟨a, hlabel, hhands⟩ hquiet
    · exact ⟨underway_next served underway, hgoes⟩
    · cases hstage.symm.trans htakes

include takes

theorem leadsTo_returned :
    LeadsTo (fun n => (b.state n).Underway mib uuid root ∧
        ((b.state n).tracks uuid).stage = .takeFuture)
      fun n => (b.state n).Underway mib uuid root ∧ (b.state n).Returned uuid := by
  refine Behaviour.leadsTo_of_answers takes (fun n hn => hn.2) ?_ ?_
  · rintro n ⟨underway, hstage⟩
    rcases stage_next underway with ⟨hsame, -⟩ | ⟨⟨operation, hhands⟩, -⟩ | ⟨-, hreturned⟩
    · exact .inl ⟨underway_next served underway, hsame.trans hstage⟩
    · cases hstage.symm.trans hhands
    · exact .inr ⟨underway_next served underway, hreturned⟩
  · rintro n a ⟨underway, hstage⟩ hlabel htakes
    rcases stage_next underway with ⟨-, -, hquiet⟩ | ⟨⟨operation, hhands⟩, -⟩ | ⟨-, hreturned⟩
    · exact absurd ⟨a, hlabel, htakes⟩ hquiet
    · cases hstage.symm.trans hhands
    · exact ⟨underway_next served underway, hreturned⟩

/-- A walk that is called returns its future. -/
theorem eventually_returned {host : IPv4Address} (fair : Fair b uuid)
    (hcall : b.label n = some (.createRequest uuid (.walk root) host)) :
    ∃ m, ∀ k, m ≤ k → (b.state k).Returned uuid := by
  have hunsent := unsent_of_call hcall
  have hstage : ∃ operation, ((b.state (n + 1)).tracks uuid).stage = .handOver operation := by
    obtain ⟨p, request, -, -, -, unsent⟩ := hunsent
    exact ⟨_, unsent.stage⟩
  have hreturns : LeadsTo (fun n => (b.state n).Underway mib uuid root ∧
      ∃ operation, ((b.state n).tracks uuid).stage = .handOver operation)
      fun n => (b.state n).Underway mib uuid root ∧ (b.state n).Returned uuid :=
    (leadsTo_takeFuture served fair).trans (leadsTo_returned served takes)
  obtain ⟨m, -, hboth⟩ := hreturns (n + 1) ⟨.inl hunsent, hstage⟩
  refine ⟨m, fun k hk => ?_⟩
  have hlater : (b.state k).Underway mib uuid root ∧ (b.state k).Returned uuid := by
    induction k, hk using Nat.le_induction with
    | base => exact hboth
    | succ k _ ih => exact ⟨underway_next served ih.1, returned_next ih.1 ih.2⟩
  exact hlater.2

end Call

end NetDiscovery.Net.SnmpSession

namespace NetDiscovery.Services.SnmpService

open NetDiscovery.Net NetDiscovery.Net.SnmpClient NetDiscovery.Semantics NetDiscovery.Util

variable {E : Type*} {s t : SnmpService E} {l : Label E} {uuid : Uuid} {host : IPv4Address}
  {mib : Mib} {m n : ℕ} {b : Behaviour step (initial : SnmpService E)}

/-! ## The components -/

/-- A step of the service is one of the session, or nothing to it. -/
theorem session_of_step (hstep : s.step l = some t) :
    StepOrStay SnmpSession.step s.session (sessionLabel (s, l)) t.session := by
  cases l with
  | session a =>
    obtain ⟨session, hsession, rfl⟩ := step_session hstep
    exact hsession
  | postResolver other =>
    obtain ⟨-, rfl⟩ := step_postResolver hstep
    rfl
  | runner a =>
    obtain ⟨-, runner, -, rfl⟩ := step_runner hstep
    rfl
  | poll =>
    obtain ⟨other, -, -, rfl⟩ := step_poll hstep
    rfl
  | callbackReturns =>
    obtain ⟨other, phase, -, -, rfl⟩ := step_callbackReturns hstep
    rfl
  | callbackThrows e =>
    obtain ⟨other, phase, -, -, rfl⟩ := step_callbackThrows hstep
    rfl

/-- What the session does. -/
def sessionBehaviour (b : Behaviour step (initial : SnmpService E)) :
    Behaviour SnmpSession.step SnmpSession.initial :=
  b.component SnmpService.session sessionLabel fun _ _ hlabel =>
    session_of_step (b.step_of_label hlabel)

theorem label_sessionBehaviour {a : SnmpSession.Label} (hlabel : b.label n = some (.session a)) :
    (sessionBehaviour b).label n = some a :=
  Behaviour.label_component hlabel

theorem exists_label_of_sessionBehaviour {a : SnmpSession.Label}
    (hlabel : (sessionBehaviour b).label n = some a) :
    ∃ l, b.label n = some l ∧ sessionLabel (b.state n, l) = some a :=
  Behaviour.exists_label_of_component hlabel

/-- What the resolver of a request does; to be given the retry delay that it has is
nothing to it. -/
def resolverExecution (b : Behaviour step (initial : SnmpService E)) (uuid : Uuid) :
    Execution (FutureResolver.step (.snmpResolver uuid))
      (FutureResolver.initial 1000 : FutureResolver.System SnmpJob Outcome E) :=
  (b.component (fun s => s.resolver uuid) (observe uuid) fun n _ hlabel =>
    resolver_of_step (SnmpSession.coherent_state (sessionBehaviour b) n)
      (b.step_of_label hlabel)).execution (fun r => .setRetryDelay r.retryDelay) fun _ => rfl

theorem label_resolverExecution (hlabel : b.label n = some l) :
    (resolverExecution b uuid).label n = (observe uuid (b.state n, l)).getD
      (.setRetryDelay ((b.state n).resolver uuid).retryDelay) := by
  refine (Behaviour.label_execution _ _ _ n).trans ?_
  rw [Behaviour.label_component hlabel]
  rfl

theorem label_resolverExecution_of_none (hlabel : b.label n = none) :
    (resolverExecution b uuid).label n =
      .setRetryDelay ((b.state n).resolver uuid).retryDelay := by
  refine (Behaviour.label_execution _ _ _ n).trans ?_
  rw [Behaviour.label_component_of_none hlabel]
  rfl

/-- The resolver's callbacks are those in the log. -/
theorem entries_trace (b : Behaviour step (initial : SnmpService E)) (n : ℕ) :
    FutureResolver.entries ((resolverExecution b uuid).trace n) = (b.state n).logged uuid := by
  induction n with
  | zero =>
    rw [b.start]
    rfl
  | succ n ih =>
    rw [Execution.trace_succ, FutureResolver.entries_snoc, ih]
    rcases b.next_cases n with ⟨hlabel, hstays⟩ | ⟨l, hlabel, hstep⟩
    · rw [hstays, label_resolverExecution_of_none hlabel]
      exact List.append_nil _
    · rw [logged_of_step hstep, label_resolverExecution hlabel, enters]
      cases observe uuid (b.state n, l) <;> rfl

/-- The default runner goes on. -/
theorem not_stopped (b : Behaviour step (initial : SnmpService E)) (n : ℕ) :
    (b.state n).runner.stopped = false := by
  refine b.invariant (I := fun s : SnmpService E => s.runner.stopped = false) rfl ?_ n
  intro v l w hgoes hstep
  cases l with
  | session a =>
    obtain ⟨session, -, rfl⟩ := step_session hstep
    exact hgoes
  | postResolver other =>
    obtain ⟨-, rfl⟩ := step_postResolver hstep
    exact TaskRunner.stopped_post.trans hgoes
  | runner a =>
    obtain ⟨hallows, runner, hrunner, rfl⟩ := step_runner hstep
    rcases TaskRunner.step_flags hrunner with ⟨hsame, -⟩ | ⟨-, rfl | rfl⟩
    · exact hsame.trans hgoes
    · cases hallows
    · cases hallows
  | poll =>
    obtain ⟨other, -, -, rfl⟩ := step_poll hstep
    exact hgoes
  | callbackReturns =>
    obtain ⟨other, phase, -, -, rfl⟩ := step_callbackReturns hstep
    exact hgoes
  | callbackThrows e =>
    obtain ⟨other, phase, -, -, rfl⟩ := step_callbackThrows hstep
    exact hgoes

/-! ## A resolver is posted once -/

/-- A resolver is posted with the future that its call has returned. -/
theorem returned_of_post (hstep : s.step (.postResolver uuid) = some t) :
    s.session.Returned uuid := by
  simp only [step] at hstep
  split at hstep
  case h_1 p hstage _ => exact ⟨p, hstage⟩
  case h_2 => cases hstep

theorem posted_of_step (hstep : s.step l = some t) :
    (l = .postResolver uuid → s.posted uuid = false) ∧
      (t.posted uuid = true ↔ s.posted uuid = true ∨ l = .postResolver uuid) := by
  cases l with
  | session a =>
    obtain ⟨session, -, rfl⟩ := step_session hstep
    simp
  | postResolver other =>
    obtain ⟨hnew, rfl⟩ := step_postResolver hstep
    by_cases heq : uuid = other
    · subst heq
      simp [hnew]
    · simp [heq, Ne.symm heq]
  | runner a =>
    obtain ⟨-, runner, -, rfl⟩ := step_runner hstep
    simp
  | poll =>
    obtain ⟨other, -, -, rfl⟩ := step_poll hstep
    simp [come]
  | callbackReturns =>
    obtain ⟨other, phase, -, -, rfl⟩ := step_callbackReturns hstep
    simp
  | callbackThrows e =>
    obtain ⟨other, phase, -, -, rfl⟩ := step_callbackThrows hstep
    simp [come]

/-- Only `requestSystem` posts the resolver to the runner. -/
theorem posts_iff (hstep : s.step l = some t) {r : FutureResolver.System SnmpJob Outcome E}
    {delay : ℕ} : FutureResolver.Posts (.snmpResolver uuid)
      (r, (observe uuid (s, l)).getD (.setRetryDelay delay)) ↔ l = .postResolver uuid := by
  cases l with
  | session a =>
    have hsettles : ∀ before after : SharedState Outcome,
        ¬ FutureResolver.Posts (.snmpResolver uuid)
          (r, (settles before after).getD (.setRetryDelay delay)) := by
      intro before after hposts
      cases before <;> cases after <;> cases hposts
    rw [observe, hstep, Option.bind_some]
    exact iff_of_false (hsettles _ _) (by simp)
  | postResolver other =>
    simp [FutureResolver.Posts, observe, FutureResolver.runnerLabel, TaskRunner.Label.posts]
  | runner a =>
    obtain ⟨hallows, -⟩ := step_runner hstep
    refine iff_of_false (fun hposts => ?_) (by simp)
    cases a with
    | post task | postDelayed task _ =>
      cases task with
      | snmpResolver => cases hallows
      | other number => cases hposts
    | run | finish | expire | stop | destroy => cases hposts
  | poll | callbackReturns | callbackThrows =>
    refine iff_of_false (fun hposts => ?_) (by simp)
    rw [observe] at hposts
    split_ifs at hposts <;> cases hposts

theorem posts_resolverExecution (n : ℕ) : FutureResolver.Posts (SnmpJob.snmpResolver uuid)
    ((resolverExecution b uuid).state n, (resolverExecution b uuid).label n) ↔
      b.label n = some (.postResolver uuid) := by
  rcases b.next_cases n with ⟨hlabel, -⟩ | ⟨l, hlabel, hstep⟩
  · rw [label_resolverExecution_of_none hlabel, hlabel]
    refine iff_of_false (fun hposts => ?_) (by simp)
    cases hposts
  · rw [label_resolverExecution hlabel, hlabel, posts_iff hstep, Option.some_inj]

theorem posted_stable (hle : m ≤ n) (hposted : (b.state m).posted uuid = true) :
    (b.state n).posted uuid = true :=
  b.stable (P := fun s => s.posted uuid = true)
    (fun _ _ _ hprior hstep => (posted_of_step hstep).2.mpr (.inl hprior)) hle hposted

/-- It is posted at one time at most. -/
theorem eq_of_posts (hm : b.label m = some (.postResolver uuid))
    (hn : b.label n = some (.postResolver uuid)) : m = n := by
  have hnot : ∀ {i j : ℕ}, b.label i = some (.postResolver uuid) →
      b.label j = some (.postResolver uuid) → ¬ i < j := by
    intro i j hi hj hlt
    have hposted := (posted_of_step (b.step_of_label hi)).2.mpr (.inr rfl)
    have hnew := (posted_of_step (b.step_of_label hj)).1 rfl
    cases hnew.symm.trans (posted_stable hlt hposted)
  exact le_antisymm (Nat.not_lt.mp (hnot hn hm)) (Nat.not_lt.mp (hnot hm hn))

/-! ## Fair behaviours -/

/-- The caller of `requestSystem`, the session and the runner go on. -/
structure Fair (b : Behaviour step (initial : SnmpService E)) (uuid : Uuid) : Prop where
  handsOver : b.Answers
    (fun s => ∃ operation, (s.session.tracks uuid).stage = .handOver operation)
    fun _ l => ∃ accepted, l = .session (.handOver uuid accepted)
  takesFuture : b.Answers (fun s => (s.session.tracks uuid).stage = .takeFuture)
    fun _ l => l = .session (.takeFuture uuid)
  posts : b.Answers (fun s => s.session.Returned uuid ∧ s.posted uuid = false)
    fun _ l => l = .postResolver uuid
  callsBack : b.Answers (fun s => (s.session.tracks uuid).outstanding ≠ 0)
    fun _ l => ∃ a, l = .session a ∧ SnmpSession.CallsBack uuid a
  run : b.Answers (fun s => .snmpResolver uuid ∈ s.runner.queue)
    fun s l => ∃ index, l = .runner (.run index) ∧
      s.runner.queue[index]? = some (.snmpResolver uuid)
  expire : b.Answers (fun s => .snmpResolver uuid ∈ s.runner.timers.map Prod.fst)
    fun s l => ∃ index timer, l = .runner (.expire index) ∧
      s.runner.timers[index]? = some timer ∧ timer.1 = .snmpResolver uuid
  polls : b.Answers
    (fun s => s.runner.running = some (.snmpResolver uuid) ∧ s.phase = .polling)
    fun s l => s.runner.running = some (.snmpResolver uuid) ∧ l = .poll
  finish : b.Answers
    (fun s => s.runner.running = some (.snmpResolver uuid) ∧ s.phase.continuation.isSome)
    fun s l => s.runner.running = some (.snmpResolver uuid) ∧
      ∃ continuation, l = .runner (.finish continuation)

theorem Fair.session (fair : Fair b uuid) : SnmpSession.Fair (sessionBehaviour b) uuid where
  handsOver := by
    refine Behaviour.Answers.component ?_
    intro n hstage
    obtain ⟨m, hle, l, hlabel, accepted, rfl⟩ := fair.handsOver n hstage
    exact ⟨m, hle, _, hlabel, .handOver uuid accepted, rfl, accepted, rfl⟩
  callsBack := by
    refine Behaviour.Answers.component ?_
    intro n houtstanding
    obtain ⟨m, hle, l, hlabel, a, rfl, hcalls⟩ := fair.callsBack n houtstanding
    exact ⟨m, hle, _, hlabel, a, rfl, hcalls⟩

theorem running_of_phase {r : Util.FutureResolver.Phase Outcome E}
    (hphase : (s.resolver uuid).phase = r) (hbusy : r ≠ .idle) :
    s.runner.running = some (.snmpResolver uuid) ∧ s.phase = r := by
  by_cases hrunning : s.runner.running = some (.snmpResolver uuid)
  · exact ⟨hrunning, (phase_resolver hrunning).symm.trans hphase⟩
  · exact absurd (hphase.symm.trans (phase_resolver_of_ne hrunning)) hbusy

theorem Fair.resolver (fair : Fair b uuid) :
    FutureResolver.Fair (SnmpJob.snmpResolver uuid) (resolverExecution b uuid) where
  run := by
    refine Behaviour.Answers.execution (Behaviour.Answers.component ?_)
    intro n hqueued
    obtain ⟨m, hle, l, hlabel, index, rfl, hindex⟩ := fair.run n hqueued
    exact ⟨m, hle, _, hlabel, .runner (.run index), rfl, index, rfl, hindex⟩
  expire := by
    refine Behaviour.Answers.execution (Behaviour.Answers.component ?_)
    intro n harmed
    obtain ⟨m, hle, l, hlabel, index, timer, rfl, htimer, htask⟩ := fair.expire n harmed
    exact ⟨m, hle, _, hlabel, .runner (.expire index), rfl, index, timer, rfl, htimer, htask⟩
  poll := by
    refine Behaviour.Answers.execution (Behaviour.Answers.component ?_)
    intro n hphase
    obtain ⟨m, hle, l, hlabel, hrunning, rfl⟩ := fair.polls n (running_of_phase hphase (by simp))
    exact ⟨m, hle, _, hlabel, .poll, by rw [observe, if_pos hrunning], rfl⟩
  finish := by
    refine Behaviour.Answers.execution (Behaviour.Answers.component ?_)
    intro n hreturns
    obtain ⟨hrunning, hphase⟩ := running_of_phase (r := ((b.state n).resolver uuid).phase) rfl
      (by rintro hidle; rw [hidle] at hreturns; cases hreturns)
    obtain ⟨m, hle, l, hlabel, hstill, continuation, rfl⟩ :=
      fair.finish n ⟨hrunning, hphase ▸ hreturns⟩
    exact ⟨m, hle, _, hlabel, .runner (.finish continuation), rfl, hstill, continuation, rfl⟩

/-! ## What is logged -/

/-- A call that returns its future posts its resolver, once. -/
theorem exists_post (fair : Fair b uuid)
    (hreturned : ∀ k, m ≤ k → (b.state k).session.Returned uuid) :
    ∃ N, ∀ n, b.label n = some (.postResolver uuid) ↔ n = N := by
  have hposts : ∃ N, b.label N = some (.postResolver uuid) := by
    by_contra hnever
    have hnew : (b.state m).posted uuid = false := by
      refine b.invariant_of_guard (I := fun s : SnmpService E => s.posted uuid = false)
        (C := fun l => l ≠ .postResolver uuid) rfl ?_ ?_ m
      · intro v l w hnew hother hstep
        have hiff : w.posted uuid = true ↔ v.posted uuid = true ∨ l = .postResolver uuid :=
          (posted_of_step hstep).2
        simpa [hnew, hother] using hiff
      · rintro i l hlabel rfl
        exact hnever ⟨i, hlabel⟩
    obtain ⟨N, -, l, hlabel, rfl⟩ := fair.posts m ⟨hreturned m le_rfl, hnew⟩
    exact hnever ⟨N, hlabel⟩
  obtain ⟨N, hN⟩ := hposts
  exact ⟨N, fun n => ⟨fun hn => eq_of_posts hn hN, fun hn => hn ▸ hN⟩⟩

/-- Once the resolver is posted and the future is settled, what it holds is logged. -/
theorem eventually_logged (fair : Fair b uuid) {N : ℕ}
    (hposts : ∀ n, b.label n = some (.postResolver uuid) ↔ n = N) {outcome : Outcome}
    (hvalue : (b.state n).session.futureState uuid = .value outcome) :
    ∃ M, ∀ m, M ≤ m → FutureResolver.Delivered (.ok outcome) ((b.state m).logged uuid) := by
  have honce : ∀ n, FutureResolver.Posts (SnmpJob.snmpResolver uuid)
      ((resolverExecution b uuid).state n, (resolverExecution b uuid).label n) ↔ n = N := fun n =>
    (posts_resolverExecution n).trans (hposts n)
  have hheld : FutureResolver.held ((resolverExecution b uuid).state n).future =
      some (.ok outcome) := by
    change FutureResolver.held (withoutException ((b.state n).session.futureState uuid)) = _
    rw [hvalue]
    rfl
  obtain ⟨M, hM⟩ := FutureResolver.eventually_delivered fair.resolver (not_stopped b) honce hheld
  refine ⟨M, fun m hle => ?_⟩
  rw [← entries_trace]
  exact hM m hle

/-- An agent that serves a request serves it as one of the session. -/
theorem served_sessionBehaviour
    (served : ∀ n a, b.label n = some (.session a) → (b.state n).session.ServesWalk mib uuid a) :
    SnmpSession.Served (sessionBehaviour b) mib uuid := by
  intro n a hlabel
  obtain ⟨l, hl, ha⟩ := exists_label_of_sessionBehaviour hlabel
  cases l with
  | session a' =>
    obtain rfl := Option.some.inj ha
    exact served n a' hl
  | postResolver | runner | poll | callbackReturns | callbackThrows => cases ha

/-- **In every fair behaviour of the service a request whose agent serves the interface
table is logged once, with the outcome of the walk alone.** -/
theorem requestSystem_logged (b : Behaviour step (initial : SnmpService E)) (uuid : Uuid)
    (host : IPv4Address) (mib : Mib) (fair : Fair b uuid)
    (served : ∀ n a, b.label n = some (.session a) → (b.state n).session.ServesWalk mib uuid a)
    (n : ℕ) (hcall : b.label n = some (requestSystem uuid host)) :
    ∃ M, ∀ m, M ≤ m → FutureResolver.Delivered
      (.ok (SnmpSession.servedOutcome mib .ifTable)) ((b.state m).logged uuid) := by
  have hserved : SnmpSession.Served (sessionBehaviour b) mib uuid := served_sessionBehaviour served
  have hcalls := label_sessionBehaviour hcall
  have htakes : (sessionBehaviour b).Answers
      (fun session => (session.tracks uuid).stage = .takeFuture)
      fun _ a => a = .takeFuture uuid := by
    refine Behaviour.Answers.component ?_
    intro n hstage
    obtain ⟨m, hle, l, hlabel, rfl⟩ := fair.takesFuture n hstage
    exact ⟨m, hle, _, hlabel, .takeFuture uuid, rfl, rfl⟩
  -- the call posts its resolver, and the walk settles the future that it was given
  obtain ⟨m, hreturned⟩ := SnmpSession.eventually_returned hserved htakes fair.session hcalls
  obtain ⟨N, hposts⟩ := exists_post fair hreturned
  obtain ⟨k, -, hwalked⟩ := SnmpSession.eventually_walked hserved fair.session hcalls
  obtain ⟨p, request, hfuture, -, walked⟩ := hwalked k le_rfl
  exact eventually_logged fair hposts ((SnmpSession.futureState_eq hfuture).trans walked.cell_eq)

/-! ## A request that is answered while its resolver waits -/

/-- The interface table is one binding, and there is one past it. -/
def oneInterface : Mib where
  bindings := [integer [1, 3, 6, 1, 2, 1, 2, 2, 1] 7, integer [1, 3, 6, 1, 2, 1, 4] 9]
  increasing := by decide
  value_ne_end := by decide

/-- The resolver finds the future unset, waits a second and reads it then. -/
def requestOneInterface : List (Label ℕ) :=
  [requestSystem 0 (.ofOctets 10 0 0 7), .session (.handOver 0 true), .session (.takeFuture 0),
    .postResolver 0, .runner (.run 0), .poll, .runner (.finish (.runAgainDelayed 1000)),
    .session (.callback 0 .asyncResponse oneInterface.bindings true), .runner (.expire 0),
    .runner (.run 0), .poll, .callbackReturns, .runner (.finish .ended)]

theorem requestSystem_logged_requestOneInterface :
    ∃ b : Behaviour step (initial : SnmpService ℕ), Fair b 0 ∧
      (∀ n a, b.label n = some (.session a) →
        (b.state n).session.ServesWalk oneInterface 0 a) ∧
      ∃ M, ∀ m, M ≤ m → FutureResolver.Delivered
        (.ok (SnmpSession.servedOutcome oneInterface .ifTable)) ((b.state m).logged 0) := by
  have hexec := Option.some_get
    (x := exec step (initial : SnmpService ℕ) requestOneInterface) (by decide)
  have fair : Fair (Behaviour.ofExec hexec.symm) 0 := by
    constructor
    -- the operation is handed over
    · refine Behaviour.answers_ofExec ?_ ?_
      · rintro ⟨operation, hstage⟩
        cases hstage
      · rintro n hn ⟨operation, hstage⟩
        change n < 13 at hn
        interval_cases n
        · cases hstage
        · exact ⟨1, by decide, by decide, true, rfl⟩
        all_goals cases hstage
    -- the future is taken
    · refine Behaviour.answers_ofExec (fun hstage => by cases hstage) ?_
      intro n hn hstage
      change n < 13 at hn
      interval_cases n
      · cases hstage
      · cases hstage
      · exact ⟨2, by decide, by decide, rfl⟩
      all_goals cases hstage
    -- the resolver is posted
    · refine Behaviour.answers_ofExec ?_ ?_
      · rintro ⟨-, hposted⟩
        cases hposted
      · rintro n hn ⟨⟨p, hstage⟩, hposted⟩
        change n < 13 at hn
        interval_cases n
        · cases hstage
        · cases hstage
        · cases hstage
        · exact ⟨3, by decide, by decide, rfl⟩
        all_goals cases hposted
    -- the session calls back
    · refine Behaviour.answers_ofExec (fun houtstanding => houtstanding rfl) ?_
      intro n hn houtstanding
      change n < 13 at hn
      interval_cases n
      · exact absurd rfl houtstanding
      · exact absurd rfl houtstanding
      all_goals first
        | exact absurd rfl houtstanding
        | exact ⟨7, by decide, by decide, _, rfl, rfl⟩
    -- the resolver is run, twice
    · refine Behaviour.answers_ofExec (by decide) ?_
      intro n hn hqueued
      change n < 13 at hn
      interval_cases n
      all_goals first
        | exact absurd hqueued (by decide)
        | exact ⟨4, by decide, by decide, 0, rfl, rfl⟩
        | exact ⟨9, by decide, by decide, 0, rfl, rfl⟩
    -- its timer expires
    · refine Behaviour.answers_ofExec (by decide) ?_
      intro n hn harmed
      change n < 13 at hn
      interval_cases n
      all_goals first
        | exact absurd harmed (by decide)
        | exact ⟨8, by decide, by decide, 0, _, rfl, rfl, rfl⟩
    -- both runs poll
    · refine Behaviour.answers_ofExec ?_ ?_
      · rintro ⟨hrunning, -⟩
        cases hrunning
      · rintro n hn ⟨hrunning, hphase⟩
        change n < 13 at hn
        interval_cases n
        all_goals first
          | exact absurd hrunning (by decide)
          | exact ⟨5, by decide, by decide, rfl, rfl⟩
          | exact ⟨10, by decide, by decide, rfl, rfl⟩
          | cases hphase
    -- and return
    · refine Behaviour.answers_ofExec ?_ ?_
      · rintro ⟨hrunning, -⟩
        cases hrunning
      · rintro n hn ⟨hrunning, hreturns⟩
        change n < 13 at hn
        interval_cases n
        all_goals first
          | exact absurd hrunning (by decide)
          | exact absurd hreturns (by decide)
          | exact ⟨6, by decide, by decide, rfl, _, rfl⟩
          | exact ⟨12, by decide, by decide, rfl, _, rfl⟩
  have served : ∀ n a, (Behaviour.ofExec hexec.symm).label n = some (.session a) →
      ((Behaviour.ofExec hexec.symm).state n).session.ServesWalk oneInterface 0 a := by
    have hall : ∀ n l, (Behaviour.ofExec hexec.symm).label n = some l → ∀ a, l = .session a →
        ((Behaviour.ofExec hexec.symm).state n).session.ServesWalk oneInterface 0 a := by
      refine Behaviour.forall_ofExec (P := fun (s : SnmpService ℕ) (l : Label ℕ) =>
        ∀ a, l = .session a → s.session.ServesWalk oneInterface 0 a) ?_
      intro n hn a hlabel
      change n < 13 at hn
      interval_cases n
      all_goals cases hlabel
      · trivial
      · exact fun _ => rfl
      · trivial
      · exact fun _ => ⟨rfl, by decide, by decide, .successor rfl (.successor rfl (.nil _))⟩
    exact fun n a hlabel => hall n _ hlabel a rfl
  exact ⟨_, fair, served, requestSystem_logged _ _ _ _ fair served 0 rfl⟩

end NetDiscovery.Services.SnmpService
