/-
# The discovery task on its runner

The scanner's `PingResolver` and the `IcmpPingResolver` of every `discover` are tasks
of one runner. Its service thread executes their runs statement by statement; the
callers of the discovery task and the socket's thread take steps in between.

`IcmpDeviceDiscoveryTask` leaves the runner out. It counts the scanner's tasks, and it
lets each call complete only once. Here a call completes whenever a run of its resolver
finds the future ready. That this happens once, and that the count of the scanner's
tasks is the runner's, follow from the runner's tokens.
-/

import NetDiscovery.Services.IcmpDeviceDiscoveryTask
import NetDiscovery.Util.Async.TaskRunner

namespace NetDiscovery.Services

open NetDiscovery.Net NetDiscovery.Net.IcmpScanner NetDiscovery.Semantics NetDiscovery.Util

/-- The tasks of the default runner. -/
inductive Job
  /-- `PingResolver`, which every `startScanning` posts -/
  | pingResolver
  /-- `IcmpPingResolver`, which every `discover` posts -/
  | icmpPingResolver (c : ℕ)
  | other (number : ℕ)
  deriving DecidableEq

/-- Where the run in progress stands. -/
inductive RunPhase
  /-- no run is in progress -/
  | idle
  /-- at the first statement of `run` -/
  | entered
  /-- in `PingResolver::run`, which has found a request pending -/
  | scanning
  | returning (continuation : Continuation)
  deriving DecidableEq

/-- The discovery task, its scanner and the runner of their tasks. -/
structure DiscoverySystem where
  runner : TaskRunner Job
  scanner : System
  results : DeviceDiscoveryTask
  /-- the calls of `startScanning` that have set the flag and not posted yet -/
  starting : ℕ
  /-- the calls of `discover` that have posted their resolver -/
  posted : ℕ → Bool
  phase : RunPhase

namespace DiscoverySystem

/-- A new discovery task. -/
def initial (now : TimePoint) : DiscoverySystem where
  runner := .initial
  scanner := .initial now
  results := .empty
  starting := 0
  posted _ := false
  phase := .idle

/-- The statements of callers and threads. -/
inductive Label
  /-- a step of the scanner outside the runner's thread -/
  | scan (a : IcmpScanner.Label)
  /-- `m_running.store(true)` in `startScanning` -/
  | startScanning
  /-- `post<PingResolver>(this)` in `startScanning` -/
  | postPingResolver
  /-- `postRequest` in `discover` -/
  | postRequest (c : ℕ)
  | clearResults
  | clearResult (host : IPv4Address)
  /-- a step of the runner, or a post of another task -/
  | runner (b : TaskRunner.Label Job)
  /-- the next statement of the run in progress -/
  | body

/-- The steps of the scanner that are not taken by the runner's thread. -/
def outside : IcmpScanner.Label → Bool
  | .setClock _ | .stop | .send _ _ false | .register _ | .receive _ | .push => true
  | _ => false

variable (s : DiscoverySystem)

/-- A step of the scanner. -/
def scan (parser : Parser) (a : IcmpScanner.Label) (phase : RunPhase) : Option DiscoverySystem :=
  (s.scanner.step parser a).map fun scanner => { s with scanner := scanner, phase := phase }

/-- What a run of `PingResolver` goes on with after its two tests. -/
def afterPoll : RunPhase :=
  if s.scanner.running = false then .returning .ended
  else if hasPendingRequests s.scanner.table then .scanning
  else .returning (.runAgainDelayed 1000)

/-- `IcmpPingResolver::run`: `FutureResolver::run` with `onCompletion` and
`onException`, the latter of which only writes to the log. -/
def resolve (c : ℕ) : DiscoverySystem :=
  match s.scanner.futureState c with
  | .unset => { s with phase := .returning (.runAgainDelayed 1000) }
  | .value outcome => { s with
      results := onCompletion s.results s.scanner.clock outcome
      phase := .returning .ended }
  | .broken => { s with phase := .returning .ended }

/-- The next statement of the run in progress. -/
def body (parser : Parser) : Option DiscoverySystem :=
  match s.runner.running, s.phase with
  | some .pingResolver, .entered => s.scan parser .poll s.afterPoll
  | some .pingResolver, .scanning =>
    match s.scanner.task with
    | .reading => s.scan parser .pop .scanning
    | .handling _ => s.scan parser .handle (.returning .runAgain)
    | .sweeping => s.scan parser .sweep (.returning (.runAgainDelayed 100))
    | .idle => none
  | some (.icmpPingResolver c), .entered => some (s.resolve c)
  | _, _ => none

/-- A run of one of the two tasks returns what it has come to; others return anything.
The default runner is neither stopped nor destroyed. -/
def allows : TaskRunner.Label Job → Bool
  | .post (.other _) | .postDelayed (.other _) _ | .run _ | .expire _ => true
  | .finish continuation =>
    match s.runner.running with
    | some (.other _) => true
    | _ => s.phase = .returning continuation
  | _ => false

/-- Where the run in progress is after a step of the runner. -/
def phaseAfter : TaskRunner.Label Job → RunPhase
  | .run _ => .entered
  | .finish _ => .idle
  | _ => s.phase

/-- One statement. -/
def step (parser : Parser) (s : DiscoverySystem) : Label → Option DiscoverySystem
  | .scan a => if outside a then s.scan parser a s.phase else none
  | .startScanning =>
    (s.scan parser .start s.phase).map fun t => { t with starting := s.starting + 1 }
  | .postPingResolver =>
    match s.starting with
    | starting + 1 => some { s with
        runner := s.runner.post .pingResolver
        starting := starting }
    | 0 => none
  | .postRequest c =>
    match s.scanner.futures c, s.posted c with
    | some _, false => some { s with
        runner := s.runner.post (.icmpPingResolver c)
        posted := Function.update s.posted c true }
    | _, _ => none
  | .clearResults => some { s with results := s.results.clearResults }
  | .clearResult host => some { s with results := s.results.clearResult host }
  | .runner b =>
    if s.allows b then
      (s.runner.step b).map fun runner => { s with runner := runner, phase := s.phaseAfter b }
    else none
  | .body => s.body parser

/-- How often a task is scheduled, without a run that is about to end it. -/
def remaining (job : Job) : ℕ :=
  s.runner.queue.count job + (s.runner.timers.map Prod.fst).count job +
    if s.phase = .returning .ended then 0 else s.runner.running.toList.count job

/-- The resolver of a call has been posted and has not read its future. -/
def Waiting (c : ℕ) : Prop :=
  s.remaining (.icmpPingResolver c) ≠ 0

/-- The call whose resolver reads its future in a step. -/
def completes : DiscoverySystem × Label → Option ℕ
  | (s, .body) =>
    match s.runner.running with
    | some (.icmpPingResolver c) => if s.scanner.futureState c = .unset then none else some c
    | _ => none
  | _ => none

/-- A step of the discovery task as the model without a runner has it. -/
def observe : DiscoverySystem × Label → Option IcmpDeviceDiscoveryTask.Label
  | (_, .scan a) => some (.scan a)
  | (_, .startScanning) => some (.scan .start)
  | (_, .clearResults) => some .clearResults
  | (_, .clearResult host) => some (.clearResult host)
  | (s, .body) =>
    match s.runner.running, s.phase, s.scanner.task with
    | some .pingResolver, .entered, _ => some (.scan .poll)
    | some .pingResolver, .scanning, .reading => some (.scan .pop)
    | some .pingResolver, .scanning, .handling _ => some (.scan .handle)
    | some .pingResolver, .scanning, .sweeping => some (.scan .sweep)
    | _, _, _ => (completes (s, .body)).map .complete
  | _ => none

/-! ## Steps -/

variable {s} {t : DiscoverySystem} {scanner : System} {parser : Parser} {a : IcmpScanner.Label}
  {b : TaskRunner.Label Job} {phase : RunPhase} {job : Job} {c : ℕ}

theorem scan_eq_some (hstep : s.scan parser a phase = some t) :
    ∃ scanner, s.scanner.step parser a = some scanner ∧
      t = { s with scanner := scanner, phase := phase } := by
  obtain ⟨scanner, hscanner, rfl⟩ := Option.map_eq_some_iff.mp hstep
  exact ⟨scanner, hscanner, rfl⟩

/-- What the next statement of a run does. -/
inductive BodyStep (parser : Parser) (s : DiscoverySystem) : DiscoverySystem → Prop
  | poll {scanner : System} : s.runner.running = some .pingResolver → s.phase = .entered →
      s.scanner.step parser .poll = some scanner →
      BodyStep parser s { s with scanner := scanner, phase := s.afterPoll }
  | pop {scanner : System} : s.runner.running = some .pingResolver → s.phase = .scanning →
      s.scanner.task = .reading → s.scanner.step parser .pop = some scanner →
      BodyStep parser s { s with scanner := scanner, phase := .scanning }
  | handle {scanner : System} {packet : ReceivedPacket} :
      s.runner.running = some .pingResolver → s.phase = .scanning →
      s.scanner.task = .handling packet → s.scanner.step parser .handle = some scanner →
      BodyStep parser s { s with scanner := scanner, phase := .returning .runAgain }
  | sweep {scanner : System} : s.runner.running = some .pingResolver → s.phase = .scanning →
      s.scanner.task = .sweeping → s.scanner.step parser .sweep = some scanner →
      BodyStep parser s { s with
        scanner := scanner
        phase := .returning (.runAgainDelayed 100) }
  | resolve {c : ℕ} : s.runner.running = some (.icmpPingResolver c) → s.phase = .entered →
      BodyStep parser s (s.resolve c)

theorem bodyStep_of_body (hstep : s.body parser = some t) : BodyStep parser s t := by
  unfold body at hstep
  split at hstep
  · next hrunning hphase =>
    obtain ⟨scanner, hscanner, rfl⟩ := scan_eq_some hstep
    exact .poll hrunning hphase hscanner
  · next hrunning hphase =>
    split at hstep
    · next htask =>
      obtain ⟨scanner, hscanner, rfl⟩ := scan_eq_some hstep
      exact .pop hrunning hphase htask hscanner
    · next packet htask =>
      obtain ⟨scanner, hscanner, rfl⟩ := scan_eq_some hstep
      exact .handle hrunning hphase htask hscanner
    · next htask =>
      obtain ⟨scanner, hscanner, rfl⟩ := scan_eq_some hstep
      exact .sweep hrunning hphase htask hscanner
    · cases hstep
  · next c hrunning hphase =>
    obtain rfl := Option.some.inj hstep
    exact .resolve hrunning hphase
  · cases hstep

theorem step_scan (hstep : s.step parser (.scan a) = some t) :
    outside a = true ∧ ∃ scanner, s.scanner.step parser a = some scanner ∧
      t = { s with scanner := scanner } := by
  simp only [step] at hstep
  split_ifs at hstep with houtside
  obtain ⟨scanner, hscanner, rfl⟩ := scan_eq_some hstep
  exact ⟨houtside, scanner, hscanner, rfl⟩

theorem step_startScanning (hstep : s.step parser .startScanning = some t) :
    t = { s with
      scanner := { s.scanner with running := true, tasks := s.scanner.tasks + 1 }
      starting := s.starting + 1 } :=
  (Option.some.inj hstep).symm

theorem step_postPingResolver (hstep : s.step parser .postPingResolver = some t) :
    ∃ starting, s.starting = starting + 1 ∧ t = { s with
      runner := s.runner.post .pingResolver
      starting := starting } := by
  simp only [step] at hstep
  split at hstep
  · exact ⟨_, ‹_›, (Option.some.inj hstep).symm⟩
  · cases hstep

theorem step_postRequest (hstep : s.step parser (.postRequest c) = some t) :
    (∃ p, s.scanner.futures c = some p) ∧ s.posted c = false ∧ t = { s with
      runner := s.runner.post (.icmpPingResolver c)
      posted := Function.update s.posted c true } := by
  simp only [step] at hstep
  split at hstep
  · exact ⟨⟨_, ‹_›⟩, ‹_›, (Option.some.inj hstep).symm⟩
  · cases hstep

theorem step_runner (hstep : s.step parser (.runner b) = some t) :
    s.allows b = true ∧ ∃ runner, s.runner.step b = some runner ∧
      t = { s with runner := runner, phase := s.phaseAfter b } := by
  simp only [step] at hstep
  split_ifs at hstep with hallows
  obtain ⟨runner, hrunner, rfl⟩ := Option.map_eq_some_iff.mp hstep
  exact ⟨hallows, runner, hrunner, rfl⟩

@[simp]
theorem runner_resolve : (s.resolve c).runner = s.runner := by
  unfold resolve
  split <;> rfl

@[simp]
theorem scanner_resolve : (s.resolve c).scanner = s.scanner := by
  unfold resolve
  split <;> rfl

@[simp]
theorem starting_resolve : (s.resolve c).starting = s.starting := by
  unfold resolve
  split <;> rfl

@[simp]
theorem posted_resolve : (s.resolve c).posted = s.posted := by
  unfold resolve
  split <;> rfl

/-- A run of `IcmpPingResolver` ends when it finds its future ready. -/
theorem phase_resolve : (s.resolve c).phase =
    if s.scanner.futureState c = .unset then .returning (.runAgainDelayed 1000)
    else .returning .ended := by
  unfold resolve
  split <;> simp [*]

/-! ## The scanner's part of a step -/

/-- Outside the runner's thread nothing is done to the scanner's tasks. -/
theorem tasks_of_outside {v w : System} (houtside : outside a = true)
    (hstep : v.step parser a = some w) : w.tasks = v.tasks ∧ w.task = v.task := by
  cases a with
  | setClock | stop =>
    obtain rfl := Option.some.inj hstep
    exact ⟨rfl, rfl⟩
  | send =>
    obtain ⟨-, rfl⟩ := System.send_eq_some hstep
    exact ⟨rfl, rfl⟩
  | register =>
    obtain ⟨_, -, -, rfl⟩ := System.register_eq_some hstep
    exact ⟨rfl, rfl⟩
  | receive =>
    obtain ⟨-, _, rfl⟩ := System.receive_eq_some hstep
    exact ⟨rfl, rfl⟩
  | push =>
    obtain ⟨_, -, rfl⟩ := System.push_eq_some hstep
    exact ⟨rfl, rfl⟩
  | start | expire | reference | erase | giveUp | get | poll | pop | handle | sweep =>
    cases houtside

/-- What the two tests of `PingResolver::run` come to. -/
theorem poll_cases {v w : System} (hstep : v.step parser .poll = some w) :
    v.task = .idle ∧ ∃ tasks, v.tasks = tasks + 1 ∧
      ((v.running = false ∧ w = { v with tasks := tasks }) ∨
      (v.running = true ∧ hasPendingRequests v.table = true ∧ w = { v with task := .reading }) ∨
      (v.running = true ∧ hasPendingRequests v.table = false ∧ w = v)) := by
  change v.poll = some w at hstep
  unfold System.poll at hstep
  split at hstep
  · next tasks htask htasks =>
    refine ⟨htask, tasks, htasks, ?_⟩
    split_ifs at hstep with hrunning hpending
    · exact .inr (.inl ⟨hrunning, hpending, (Option.some.inj hstep).symm⟩)
    · exact .inr (.inr ⟨hrunning, Bool.eq_false_iff.mpr hpending, (Option.some.inj hstep).symm⟩)
    · exact .inl ⟨Bool.eq_false_iff.mpr hrunning, (Option.some.inj hstep).symm⟩
  · cases hstep

/-- What the other statements of `PingResolver::run` do to the scanner's tasks. -/
theorem tasks_of_body {v w : System} (hbody : a = .pop ∨ a = .handle ∨ a = .sweep)
    (hstep : v.step parser a = some w) :
    w.tasks = v.tasks ∧ (w.task ≠ .idle ↔ a = .pop) := by
  rcases hbody with rfl | rfl | rfl
  · obtain ⟨-, ⟨_, _, -, rfl⟩ | rfl⟩ := System.pop_eq_some hstep <;> simp
  · obtain ⟨_, -, rfl⟩ := System.handle_eq_some hstep
    simp
  · obtain ⟨-, rfl⟩ := System.sweep_eq_some hstep
    simp

/-! ## How often a task is scheduled -/

/-- A post of another task, or a step of the runner's thread. -/
def Plain : TaskRunner.Label Job → Prop
  | .post (.other _) | .postDelayed (.other _) _ | .run _ | .finish _ | .expire _ => True
  | _ => False

theorem plain_of_allows (hallows : s.allows b = true) : Plain b := by
  cases b with
  | post job | postDelayed job _ => cases job <;> trivial
  | run | finish | expire => trivial
  | stop | destroy => cases hallows

/-- The task that a run of one of the two kinds is going to end. -/
def ending (s : DiscoverySystem) : Option Job :=
  if s.phase = .returning .ended then s.runner.running else none

theorem tokens_eq_remaining (s : DiscoverySystem) (job : Job) :
    s.runner.tokens job = s.remaining job + s.ending.toList.count job := by
  unfold TaskRunner.tokens remaining ending
  split_ifs <;> simp

/-- A plain step of a runner that goes on. -/
theorem tokens_of_plain {runner runner' : TaskRunner Job} (hgoes : runner.stopped = false)
    (halive : runner.isAlive = true) (hplain : Plain b) (hstep : runner.step b = some runner')
    (hown : ∀ number, job ≠ .other number) :
    runner'.stopped = false ∧ runner'.isAlive = true ∧
      runner'.tokens job + (runner.ends b).toList.count job = runner.tokens job := by
  have hflags : runner'.stopped = false ∧ runner'.isAlive = true := by
    rcases TaskRunner.step_flags hstep with ⟨hstopped, hstill⟩ | ⟨-, rfl | rfl⟩
    · exact ⟨hstopped.trans hgoes, hstill.trans halive⟩
    · exact hplain.elim
    · exact hplain.elim
  refine ⟨hflags.1, hflags.2, ?_⟩
  -- what is posted is a task of others
  have hposts : b.posts.toList.count job = 0 := by
    refine List.count_eq_zero.mpr fun hmem => ?_
    have hposts := Option.mem_toList.mp hmem
    cases b with
    | post task | postDelayed task _ =>
      obtain rfl : task = job := Option.some.inj hposts
      cases task with
      | pingResolver | icmpPingResolver => exact hplain.elim
      | other number => exact hown number rfl
    | run | finish | expire | stop | destroy => cases hposts
  rw [TaskRunner.tokens_of_step hgoes halive hflags.1 hstep job, hposts, Nat.add_zero]

/-- When a step of the runner ends a task, its run has come to that. -/
theorem ends_eq_ending (hallows : s.allows b = true) (hown : ∀ number, job ≠ .other number)
    (hends : s.runner.ends b = some job) : s.ending = some job := by
  cases b with
  | finish continuation =>
    cases continuation with
    | ended =>
      have hrunning : s.runner.running = some job := hends
      have hphase : s.phase = .returning .ended := by
        cases job with
        | other number => exact absurd rfl (hown number)
        | pingResolver | icmpPingResolver => simpa [allows, hrunning] using hallows
      rw [ending, if_pos hphase, hrunning]
    | runAgain | runAgainDelayed => cases hends
  | post | postDelayed | run | expire | stop | destroy => cases hends

/-- A task is about to be ended when a step of the runner ends it, and not after that. -/
theorem ending_of_runner (hallows : s.allows b = true) (hown : ∀ number, job ≠ .other number)
    (hstep : s.step parser (.runner b) = some t) :
    t.ending.toList.count job + (s.runner.ends b).toList.count job =
      s.ending.toList.count job := by
  obtain ⟨-, runner, hrunner, rfl⟩ := step_runner hstep
  cases b with
  | run index =>
    obtain ⟨⟨-, hnone⟩, task, -, rfl⟩ := TaskRunner.step_run hrunner
    simp [ending, phaseAfter, TaskRunner.ends, hnone]
  | finish continuation =>
    obtain ⟨task, hrunning, rfl⟩ := TaskRunner.step_finish hrunner
    have hends : s.runner.ends (.finish continuation) = some job ↔ s.ending = some job := by
      refine ⟨ends_eq_ending hallows hown, fun hending => ?_⟩
      unfold ending at hending
      split_ifs at hending with hphase
      -- the run is one of the two kinds, so it returns what it has come to
      have hreturns : s.phase = .returning continuation := by
        cases job with
        | other number => exact absurd rfl (hown number)
        | pingResolver | icmpPingResolver => simpa [allows, hending] using hallows
      obtain rfl := RunPhase.returning.inj (hphase.symm.trans hreturns)
      exact hending
    have hcount : ∀ o o' : Option Job, (o = some job ↔ o' = some job) →
        o.toList.count job = o'.toList.count job := by
      intro o o' hiff
      cases o <;> cases o' <;> simp_all [List.count_singleton]
    simpa [ending, phaseAfter] using hcount _ _ hends
  | post | postDelayed | expire | stop | destroy =>
    have hrunning := TaskRunner.running_of_step hrunner (by simp) (by simp)
    simp [ending, phaseAfter, TaskRunner.ends, hrunning]

/-- A step of the runner schedules each of the tasks as often as before. -/
theorem remaining_of_runner (hgoes : s.runner.stopped = false)
    (halive : s.runner.isAlive = true) (hown : ∀ number, job ≠ .other number)
    (hstep : s.step parser (.runner b) = some t) : t.remaining job = s.remaining job := by
  have hallows := (step_runner hstep).1
  have hending := ending_of_runner hallows hown hstep
  obtain ⟨-, runner, hrunner, heq⟩ := step_runner hstep
  obtain ⟨-, -, htokens⟩ := tokens_of_plain hgoes halive (plain_of_allows hallows) hrunner hown
  have hs := tokens_eq_remaining s job
  have ht := tokens_eq_remaining t job
  have hrunner' : t.runner = runner := by rw [heq]
  rw [hrunner'] at ht
  omega

/-- A post schedules its task once more. -/
theorem remaining_post (hgoes : s.runner.stopped = false) (posted : Job) {t : DiscoverySystem}
    (hrunner : t.runner = s.runner.post posted) (hphase : t.phase = s.phase) (job : Job) :
    t.remaining job = s.remaining job + [posted].count job := by
  unfold remaining
  rw [hrunner, hphase, TaskRunner.post_of_not_stopped hgoes]
  simp only [List.count_append]
  omega

/-- The next statement of a run schedules each task as often as before, but for the one
that it brings to its end. -/
theorem remaining_of_body (hrunner : t.runner = s.runner) (hphase : s.phase ≠ .returning .ended)
    (job : Job) :
    t.remaining job + t.ending.toList.count job = s.remaining job := by
  have hs := tokens_eq_remaining s job
  have ht := tokens_eq_remaining t job
  have hnone : s.ending = none := if_neg hphase
  rw [hrunner] at ht
  rw [hnone] at hs
  simp only [Option.toList_none, List.count_nil] at hs
  omega

/-! ## What holds of every discovery task -/

/-- The runner goes on, the scanner counts the tasks that the runner has of it, and a call
has at most one resolver. -/
structure Sound (s : DiscoverySystem) : Prop where
  not_stopped : s.runner.stopped = false
  isAlive : s.runner.isAlive = true
  consistent : s.scanner.Consistent
  tasks : s.scanner.tasks = s.remaining .pingResolver + s.starting
  /-- The scanner's task has begun with the requests in the middle of its run. -/
  task : s.scanner.task ≠ .idle ↔
    s.runner.running = some .pingResolver ∧ s.phase = .scanning
  scanning : s.phase = .scanning → s.runner.running = some .pingResolver
  busy : s.runner.running ≠ none → s.phase ≠ .idle
  once : ∀ c, s.runner.tokens (.icmpPingResolver c) ≤ 1
  unposted : ∀ c, s.posted c = false → s.runner.tokens (.icmpPingResolver c) = 0
  registered : ∀ c, s.posted c = true → ∃ p, s.scanner.futures c = some p

theorem sound_initial (now : TimePoint) : (initial now).Sound where
  not_stopped := rfl
  isAlive := rfl
  consistent := .initial now
  tasks := rfl
  task := by simp [initial, System.initial]
  scanning := by simp [initial]
  busy := by simp [initial, TaskRunner.initial]
  once _ := Nat.zero_le 1
  unposted _ _ := rfl
  registered _ hposted := by cases hposted

namespace Sound

variable (sound : s.Sound)

include sound

theorem registered_of_continues {w : System} (hstep : s.scanner.step parser a = some w) (c : ℕ)
    (hposted : s.posted c = true) : ∃ p, w.futures c = some p := by
  obtain ⟨p, hfuture⟩ := sound.registered c hposted
  exact ⟨p, (System.call_of_step hstep).2 c p hfuture⟩

/-- The step lemma for the steps outside the runner's thread. -/
theorem step_scan (hstep : s.step parser (.scan a) = some t) : t.Sound := by
  obtain ⟨houtside, w, hscan, rfl⟩ := DiscoverySystem.step_scan hstep
  obtain ⟨htasks, htask⟩ := tasks_of_outside houtside hscan
  exact { sound with
    consistent := sound.consistent.step hscan
    tasks := htasks.trans sound.tasks
    task := by simpa [htask] using sound.task
    registered := sound.registered_of_continues hscan }

theorem step_startScanning (hstep : s.step parser .startScanning = some t) : t.Sound := by
  obtain rfl := DiscoverySystem.step_startScanning hstep
  refine { sound with
    consistent := sound.consistent.step (show s.scanner.step parser .start = some _ from rfl)
    tasks := ?_ }
  change s.scanner.tasks + 1 = s.remaining .pingResolver + (s.starting + 1)
  rw [sound.tasks, Nat.add_assoc]

theorem step_postPingResolver (hstep : s.step parser .postPingResolver = some t) : t.Sound := by
  obtain ⟨starting, hstarting, rfl⟩ := DiscoverySystem.step_postPingResolver hstep
  have htokens : ∀ c, (s.runner.post .pingResolver).tokens (.icmpPingResolver c) =
      s.runner.tokens (.icmpPingResolver c) := fun c =>
    (TaskRunner.tokens_post sound.not_stopped (.icmpPingResolver c)).trans (by simp)
  refine { sound with
    not_stopped := by simpa using sound.not_stopped
    isAlive := by simpa using sound.isAlive
    tasks := ?_
    task := by simpa using sound.task
    scanning := by simpa using sound.scanning
    busy := by simpa using sound.busy
    once := fun c => (htokens c).le.trans (sound.once c)
    unposted := fun c hc => (htokens c).trans (sound.unposted c hc) }
  have hremaining := remaining_post (s := s) sound.not_stopped .pingResolver
    (t := { s with runner := s.runner.post .pingResolver, starting := starting }) rfl rfl
    .pingResolver
  change s.scanner.tasks = _ + starting
  rw [hremaining, sound.tasks, hstarting, List.count_singleton_self, Nat.add_assoc,
    Nat.add_comm starting 1]

theorem step_postRequest (hstep : s.step parser (.postRequest c) = some t) : t.Sound := by
  obtain ⟨hregistered, hnew, rfl⟩ := DiscoverySystem.step_postRequest hstep
  have htokens : ∀ c', (s.runner.post (.icmpPingResolver c)).tokens (.icmpPingResolver c') =
      s.runner.tokens (.icmpPingResolver c') + [Job.icmpPingResolver c].count
        (.icmpPingResolver c') := fun c' =>
    TaskRunner.tokens_post sound.not_stopped (.icmpPingResolver c')
  refine { sound with
    not_stopped := by simpa using sound.not_stopped
    isAlive := by simpa using sound.isAlive
    tasks := ?_
    task := by simpa using sound.task
    scanning := by simpa using sound.scanning
    busy := by simpa using sound.busy
    once := fun c' => ?_
    unposted := fun c' hc' => ?_
    registered := fun c' hc' => ?_ }
  · have hremaining := remaining_post (s := s) sound.not_stopped (.icmpPingResolver c)
      (t := { s with
        runner := s.runner.post (.icmpPingResolver c)
        posted := Function.update s.posted c true }) rfl rfl .pingResolver
    exact sound.tasks.trans (congrArg (· + s.starting) hremaining.symm)
  · change (s.runner.post (.icmpPingResolver c)).tokens (.icmpPingResolver c') ≤ 1
    rw [htokens]
    by_cases heq : c = c'
    · subst heq
      -- the resolver of a call that is posted now was not posted before
      rw [sound.unposted c hnew, List.count_singleton_self]
    · simpa [List.count_singleton, heq] using sound.once c'
  · have hne : c' ≠ c := by
      rintro rfl
      simp at hc'
    change (s.runner.post (.icmpPingResolver c)).tokens (.icmpPingResolver c') = 0
    rw [htokens]
    simpa [List.count_singleton, hne.symm] using sound.unposted c' (by simpa [hne] using hc')
  · by_cases heq : c' = c
    · exact heq ▸ hregistered
    · exact sound.registered c' (by simpa [heq] using hc')

/-- The step lemma for the runner. -/
theorem step_runner (hstep : s.step parser (.runner b) = some t) : t.Sound := by
  obtain ⟨hallows, runner, hrunner, heq⟩ := DiscoverySystem.step_runner hstep
  have htokens : ∀ c, runner.stopped = false ∧ runner.isAlive = true ∧
      runner.tokens (.icmpPingResolver c) + (s.runner.ends b).toList.count (.icmpPingResolver c) =
        s.runner.tokens (.icmpPingResolver c) := fun c =>
    tokens_of_plain sound.not_stopped sound.isAlive (plain_of_allows hallows) hrunner (by simp)
  have hremaining : t.remaining .pingResolver = s.remaining .pingResolver :=
    remaining_of_runner sound.not_stopped sound.isAlive (by simp) hstep
  subst heq
  refine { sound with
    not_stopped := (htokens 0).1
    isAlive := (htokens 0).2.1
    tasks := sound.tasks.trans (congrArg (· + s.starting) hremaining.symm)
    task := ?_
    scanning := ?_
    busy := ?_
    once := fun c => ?_
    unposted := fun c hc => ?_ }
  · -- a run is entered, left, or goes on as before
    cases b with
    | run index =>
      obtain ⟨⟨-, hnone⟩, task, -, rfl⟩ := TaskRunner.step_run hrunner
      simpa [phaseAfter, hnone] using sound.task
    | finish continuation =>
      obtain ⟨task, hrunning, rfl⟩ := TaskRunner.step_finish hrunner
      have hreturned : ¬ (s.runner.running = some .pingResolver ∧ s.phase = .scanning) := by
        rintro ⟨hping, hphase⟩
        simp [allows, hping, hphase] at hallows
      simpa [phaseAfter, hreturned] using sound.task
    | post | postDelayed | expire | stop | destroy =>
      have hrunning := TaskRunner.running_of_step hrunner (by simp) (by simp)
      simpa [phaseAfter, hrunning] using sound.task
  · cases b with
    | run | finish => simp [phaseAfter]
    | post | postDelayed | expire | stop | destroy =>
      have hrunning := TaskRunner.running_of_step hrunner (by simp) (by simp)
      simpa [phaseAfter, hrunning] using sound.scanning
  · cases b with
    | run => simp [phaseAfter]
    | finish continuation =>
      obtain ⟨task, -, rfl⟩ := TaskRunner.step_finish hrunner
      simp
    | post | postDelayed | expire | stop | destroy =>
      have hrunning := TaskRunner.running_of_step hrunner (by simp) (by simp)
      simpa [phaseAfter, hrunning] using sound.busy
  · have hsum := (htokens c).2.2
    have hle := sound.once c
    change runner.tokens _ ≤ 1
    omega
  · have hsum := (htokens c).2.2
    have hzero := sound.unposted c hc
    change runner.tokens _ = 0
    omega

/-- A run of a scanner's task never waits for the count of these tasks. -/
theorem tasks_pos (hrunning : s.runner.running = some .pingResolver)
    (hphase : s.phase ≠ .returning .ended) : 0 < s.scanner.tasks := by
  have hcount : 0 < s.remaining .pingResolver := by
    simp [remaining, hphase, hrunning]
  rw [sound.tasks]
  omega

/-- The step lemma for the run in progress. -/
theorem step_body (hstep : s.step parser .body = some t) : t.Sound := by
  have hbody := bodyStep_of_body hstep
  cases hbody with
  | @poll w hrunning hphase hscan =>
    obtain ⟨htask, tasks, htasks, hcases⟩ := poll_cases hscan
    have hremaining := remaining_of_body (s := s)
      (t := { s with scanner := w, phase := s.afterPoll }) rfl (by simp [hphase]) .pingResolver
    have hcount := sound.tasks
    refine { sound with
      consistent := sound.consistent.step hscan
      tasks := ?_
      task := ?_
      scanning := fun _ => hrunning
      busy := fun _ => ?_
      registered := sound.registered_of_continues hscan }
    · rcases hcases with ⟨hstopped, rfl⟩ | ⟨hgoes, hpending, rfl⟩ | ⟨hgoes, hpending, rfl⟩
      · -- the flag is cleared, and this run is the one that is taken off
        simp only [ending, afterPoll, hstopped, hrunning, if_true, Option.toList_some,
          List.count_singleton_self] at hremaining
        simp only [afterPoll, hstopped, if_true]
        omega
      · simpa [ending, afterPoll, hgoes, hpending, hcount] using hremaining.symm
      · simpa [ending, afterPoll, hgoes, hpending, hcount] using hremaining.symm
    · rcases hcases with ⟨hstopped, rfl⟩ | ⟨hgoes, hpending, rfl⟩ | ⟨hgoes, hpending, rfl⟩
      · simp [afterPoll, hstopped, htask]
      · simp [afterPoll, hgoes, hpending, hrunning]
      · simp [afterPoll, hgoes, hpending, htask]
    · simp only [afterPoll]
      split_ifs <;> simp
  | @pop w hrunning hphase htask hscan =>
    obtain ⟨htasks, hreading⟩ := tasks_of_body (.inl rfl) hscan
    have hremaining := remaining_of_body (s := s)
      (t := { s with scanner := w, phase := .scanning }) rfl (by simp [hphase]) .pingResolver
    refine { sound with
      consistent := sound.consistent.step hscan
      tasks := ?_
      task := by simpa [hrunning] using hreading
      scanning := fun _ => hrunning
      busy := fun _ => by simp
      registered := sound.registered_of_continues hscan }
    rw [htasks, sound.tasks, ← hremaining]
    simp [ending]
  | @handle w packet hrunning hphase htask hscan =>
    obtain ⟨htasks, hreading⟩ := tasks_of_body (.inr (.inl rfl)) hscan
    have hremaining := remaining_of_body (s := s)
      (t := { s with scanner := w, phase := .returning .runAgain }) rfl (by simp [hphase])
      .pingResolver
    refine { sound with
      consistent := sound.consistent.step hscan
      tasks := ?_
      task := by simpa using hreading
      scanning := fun h => by cases h
      busy := fun _ => by simp
      registered := sound.registered_of_continues hscan }
    rw [htasks, sound.tasks, ← hremaining]
    simp [ending]
  | @sweep w hrunning hphase htask hscan =>
    obtain ⟨htasks, hreading⟩ := tasks_of_body (.inr (.inr rfl)) hscan
    have hremaining := remaining_of_body (s := s)
      (t := { s with scanner := w, phase := .returning (.runAgainDelayed 100) }) rfl
      (by simp [hphase]) .pingResolver
    refine { sound with
      consistent := sound.consistent.step hscan
      tasks := ?_
      task := by simpa using hreading
      scanning := fun h => by cases h
      busy := fun _ => by simp
      registered := sound.registered_of_continues hscan }
    rw [htasks, sound.tasks, ← hremaining]
    simp [ending]
  | @resolve c hrunning hphase =>
    have hremaining := remaining_of_body (s := s) (t := s.resolve c) runner_resolve
      (by simp [hphase]) .pingResolver
    have hreturns : (s.resolve c).phase ≠ .scanning ∧ (s.resolve c).phase ≠ .idle := by
      rw [phase_resolve]
      split_ifs <;> simp
    refine ⟨by simpa using sound.not_stopped, by simpa using sound.isAlive,
      by simpa using sound.consistent, ?_, ?_, fun h => absurd h hreturns.1,
      fun _ => hreturns.2, by simpa using sound.once, by simpa using sound.unposted,
      by simpa using sound.registered⟩
    · have hother : (s.resolve c).ending.toList.count .pingResolver = 0 := by
        unfold ending
        split_ifs <;> simp [hrunning]
      rw [scanner_resolve, starting_resolve, sound.tasks, ← hremaining, hother, Nat.add_zero]
    · have hidle := sound.task
      rw [hrunning, hphase] at hidle
      simpa [hreturns.1] using hidle

/-- The step lemma. -/
theorem step {a : Label} (hstep : s.step parser a = some t) : t.Sound := by
  cases a with
  | scan a => exact sound.step_scan hstep
  | startScanning => exact sound.step_startScanning hstep
  | postPingResolver => exact sound.step_postPingResolver hstep
  | postRequest c => exact sound.step_postRequest hstep
  | clearResults | clearResult =>
    obtain rfl := Option.some.inj hstep
    exact { sound with }
  | runner b => exact sound.step_runner hstep
  | body => exact sound.step_body hstep

end Sound

theorem sound_of_run {now : TimePoint} {trace : List (DiscoverySystem × Label)}
    (run : Run (step parser) (initial now) trace t) : t.Sound :=
  run.invariant (sound_initial now) fun _ _ _ sound hstep => sound.step hstep

end DiscoverySystem

end NetDiscovery.Services
