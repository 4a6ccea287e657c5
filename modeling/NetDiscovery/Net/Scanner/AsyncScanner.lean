/-
# Starting and stopping a scanner

`startScanning` sets a flag and posts a task, a ping resolver, to the default
task runner. `stopScanning` clears the flag and waits until the task is gone. A
resolver ends when a run of it reads the cleared flag, and posts itself again,
now or after a delay, while it reads the set one.

The scanner keeps a weak pointer to its last resolver only. When it is started
twice, the first resolver is not waited for.
-/

import NetDiscovery.Util.Async.TaskRunner

namespace NetDiscovery.Net

open NetDiscovery.Semantics NetDiscovery.Util

namespace AsyncScanner

/-- The tasks of the default runner: the ping resolvers of a scanner, numbered in
the order in which they are made, and the tasks of others. -/
inductive Job
  | pingResolver (number : ℕ)
  | other (number : ℕ)
  deriving DecidableEq

/-- `PingResolver::run`: whether the flag is set, a request is pending and a packet
has been received. -/
def pingResolverRun (running pending received : Bool) : Continuation :=
  if running = false then .ended
  else if pending then
    if received then .runAgain else .runAgainDelayed 100
  else .runAgainDelayed 1000

/-- Where the caller of a scanner stands. -/
inductive Phase
  /-- no `startScanning` since `stopScanning` has returned, or since the beginning -/
  | stopped
  /-- in `startScanning`, the flag is set; `again` if the scanner was scanning -/
  | starting (again : Bool)
  /-- in `startScanning`, the task is posted -/
  | posted (number : ℕ)
  /-- `startScanning` has returned -/
  | scanning
  /-- `stopScanning` waits -/
  | stopping
  deriving DecidableEq

end AsyncScanner

open AsyncScanner

/-- `net::IAsyncScanner` and the runner of its tasks. -/
structure AsyncScanner where
  runner : TaskRunner Job
  /-- `m_running` -/
  running : Bool
  /-- the resolver that `m_currentTask` points to -/
  currentTask : Option ℕ
  /-- the number of resolvers made -/
  starts : ℕ
  phase : Phase
  /-- what the run of a resolver in progress is going to return -/
  outcome : Option Continuation

namespace AsyncScanner

/-- A new scanner. -/
def initial : AsyncScanner where
  runner := .initial
  running := false
  currentTask := none
  starts := 0
  phase := .stopped
  outcome := none

variable (s : AsyncScanner)

/-- The resolver is queued, waits on a timer or runs. -/
def Alive (number : ℕ) : Prop :=
  s.runner.tokens (.pingResolver number) ≠ 0

/-- `m_currentTask.expired()`: the runner holds no pointer to the resolver. -/
def expired : Bool :=
  match s.currentTask with
  | none => true
  | some number => s.runner.tokens (.pingResolver number) = 0

/-- The statements of `startScanning` and `stopScanning`, the posts of others, and
the steps of the runner. -/
inductive Label
  /-- `m_running.store(true)` -/
  | startScanning
  /-- `post<PingResolver>(this)` -/
  | postResolver
  /-- the assignment to `m_currentTask` -/
  | assignTask
  /-- `m_running.store(false)` -/
  | stopScanning
  /-- one look at `m_currentTask.expired()` -/
  | checkExpired
  | postOther (number : ℕ)
  | postOtherDelayed (number delay : ℕ)
  | run (index : ℕ) (pending received : Bool)
  | finish (continuation : Continuation)
  | expire (index : ℕ)

/-- A run of a resolver returns what it has come to; other tasks return anything. -/
def mayReturn (continuation : Continuation) : Bool :=
  match s.runner.running with
  | some (.pingResolver _) => s.outcome = some continuation
  | _ => true

/-- A step of the runner. -/
def stepRunner (a : TaskRunner.Label Job) : Option AsyncScanner :=
  (s.runner.step a).map fun runner => { s with runner := runner }

/-- One statement of a call, or one step of the runner. -/
def step (s : AsyncScanner) : Label → Option AsyncScanner
  | .startScanning =>
    match s.phase with
    | .stopped => some { s with running := true, phase := .starting false }
    | .scanning => some { s with running := true, phase := .starting true }
    | _ => none
  | .postResolver =>
    match s.phase with
    | .starting _ => some { s with
        runner := s.runner.post (.pingResolver s.starts)
        starts := s.starts + 1
        phase := .posted s.starts }
    | _ => none
  | .assignTask =>
    match s.phase with
    | .posted number => some { s with currentTask := some number, phase := .scanning }
    | _ => none
  | .stopScanning =>
    match s.phase with
    | .stopped | .scanning => some { s with running := false, phase := .stopping }
    | _ => none
  | .checkExpired =>
    match s.phase with
    | .stopping => if s.expired then some { s with phase := .stopped } else some s
    | _ => none
  | .postOther number => s.stepRunner (.post (.other number))
  | .postOtherDelayed number delay => s.stepRunner (.postDelayed (.other number) delay)
  | .run index pending received =>
    (s.stepRunner (.run index)).map fun t => { t with
      outcome := match t.runner.running with
        | some (.pingResolver _) => some (pingResolverRun s.running pending received)
        | _ => none }
  | .finish continuation =>
    if s.mayReturn continuation then s.stepRunner (.finish continuation) else none
  | .expire index => s.stepRunner (.expire index)

/-- At most one resolver is alive, and none after `stopScanning` has returned and
until the next `startScanning`. -/
structure AtMostOne (s : AsyncScanner) : Prop where
  unique : ∀ m n, s.Alive m → s.Alive n → m = n
  quiet : s.phase = .stopped → ∀ n, ¬ s.Alive n

/-- A resolver is not posted by a `startScanning` that found the scanner scanning. -/
def StartsAfresh (s : AsyncScanner) : Label → Prop
  | .postResolver => s.phase = .starting false
  | _ => True

instance (a : Label) : Decidable (s.StartsAfresh a) :=
  match a with
  | .postResolver => inferInstanceAs (Decidable (s.phase = .starting false))
  | .startScanning | .assignTask | .stopScanning | .checkExpired | .postOther _
  | .postOtherDelayed _ _ | .run _ _ _ | .finish _ | .expire _ => .isTrue trivial

/-! ## Steps of the runner -/

variable {s} {t : AsyncScanner} {a : Label} {b : TaskRunner.Label Job} {m n index : ℕ}
  {pending received : Bool} {continuation : Continuation}

theorem pingResolverRun_eq_ended_iff {running : Bool} :
    pingResolverRun running pending received = .ended ↔ running = false := by
  cases running <;> cases pending <;> cases received <;> decide

/-- The runner neither stops nor is it given a resolver. -/
def Plain : TaskRunner.Label Job → Prop
  | .post (.pingResolver _) | .postDelayed (.pingResolver _) _ | .stop | .destroy => False
  | _ => True

/-- The resolver that scans, from its posting to the next `stopScanning`. -/
def serving (s : AsyncScanner) : Option ℕ :=
  match s.phase with
  | .posted number => some number
  | .scanning | .starting true => s.currentTask
  | _ => none

/-- The resolver that the next `stopScanning` waits for. -/
def tracked (s : AsyncScanner) : Option ℕ :=
  match s.phase with
  | .posted number => some number
  | .scanning | .starting true | .stopping => s.currentTask
  | _ => none

/-- What holds of every scanner: its runner goes on, and the resolver posted last
does not end while the flag is set. -/
structure Sound (s : AsyncScanner) : Prop where
  not_stopped : s.runner.stopped = false
  isAlive : s.runner.isAlive = true
  fresh : ∀ n, s.starts ≤ n → ¬ s.Alive n
  isSet : s.phase ≠ .stopped → s.phase ≠ .stopping → s.running = true
  serves : s.phase = .scanning ∨ s.phase = .starting true → s.currentTask ≠ none
  alive : ∀ n, s.serving = some n → s.Alive n
  goesOn : ∀ n, s.serving = some n → s.runner.running = some (.pingResolver n) →
    s.outcome ≠ some .ended

/-- No resolver is alive but the one that is waited for. -/
def Accounted (s : AsyncScanner) : Prop :=
  ∀ n, s.Alive n → s.tracked = some n

/-- A plain step of the runner keeps the resolvers alive but the one that ends. -/
theorem tokens_of_plain {runner t : TaskRunner Job} (hgoes : runner.stopped = false)
    (halive : runner.isAlive = true) (hplain : Plain b) (hstep : runner.step b = some t) :
    t.stopped = false ∧ t.isAlive = true ∧ ∀ n,
      t.tokens (.pingResolver n) + (runner.ends b).toList.count (.pingResolver n) =
        runner.tokens (.pingResolver n) := by
  have hflags : t.stopped = false ∧ t.isAlive = true := by
    rcases TaskRunner.step_flags hstep with ⟨hstopped, hstill⟩ | ⟨-, rfl | rfl⟩
    · exact ⟨hstopped.trans hgoes, hstill.trans halive⟩
    · exact hplain.elim
    · exact hplain.elim
  refine ⟨hflags.1, hflags.2, fun n => ?_⟩
  have htokens := TaskRunner.tokens_of_step hgoes halive hflags.1 hstep (.pingResolver n)
  -- the clients of a plain step are others
  have hposts : b.posts.toList.count (.pingResolver n) = 0 := by
    cases b with
    | post task | postDelayed task _ =>
      cases task with
      | pingResolver => exact hplain.elim
      | other => simp [TaskRunner.Label.posts]
    | run | finish | expire | stop | destroy => rfl
  rw [htokens, hposts, Nat.add_zero]

/-- A step in which the caller has no part. -/
def Label.OfRunner : Label → Prop
  | .postOther _ | .postOtherDelayed _ _ | .run _ _ _ | .finish _ | .expire _ => True
  | _ => False

/-- What a step of the runner does to a scanner. -/
structure RunnerStep (s : AsyncScanner) (b : TaskRunner.Label Job) (t : AsyncScanner) : Prop where
  plain : Plain b
  step : s.runner.step b = some t.runner
  frame : t = { s with runner := t.runner, outcome := t.outcome }
  /-- A resolver ends after a run that has come to it. -/
  ended : ∀ n, s.runner.ends b = some (.pingResolver n) →
    s.runner.running = some (.pingResolver n) ∧ s.outcome = some .ended
  /-- A run comes to it when it finds the flag cleared. -/
  comesTo : ∀ n, t.runner.running = some (.pingResolver n) → t.outcome = some .ended →
    s.running = false ∨ s.runner.running = some (.pingResolver n) ∧ s.outcome = some .ended

/-- A step that runs nothing and ends nothing. -/
private theorem runnerStep_of_running_eq (hplain : Plain b)
    (hends : s.runner.ends b = none) (hstep : s.stepRunner b = some t)
    (hrunning : t.runner.running = s.runner.running) : RunnerStep s b t := by
  obtain ⟨runner, hrunner, rfl⟩ := Option.map_eq_some_iff.mp hstep
  refine ⟨hplain, hrunner, rfl, fun n hn => ?_, fun n hn houtcome => ?_⟩
  · rw [hends] at hn
    cases hn
  · exact .inr ⟨hrunning.symm.trans hn, houtcome⟩

theorem exists_runnerStep (ha : a.OfRunner) (hstep : s.step a = some t) :
    ∃ b, RunnerStep s b t := by
  cases a with
  | startScanning | postResolver | assignTask | stopScanning | checkExpired => exact ha.elim
  | postOther number =>
    refine ⟨_, runnerStep_of_running_eq (b := .post (.other number)) trivial rfl hstep ?_⟩
    obtain rfl := Option.some.inj hstep
    exact TaskRunner.running_post
  | postOtherDelayed number delay =>
    refine ⟨_, runnerStep_of_running_eq (b := .postDelayed (.other number) delay) trivial rfl
      hstep ?_⟩
    obtain rfl := Option.some.inj hstep
    rfl
  | expire index =>
    refine ⟨_, runnerStep_of_running_eq (b := .expire index) trivial rfl hstep ?_⟩
    obtain ⟨runner, hrunner, rfl⟩ := Option.map_eq_some_iff.mp hstep
    obtain ⟨-, timer, -, rfl⟩ := TaskRunner.step_expire hrunner
    exact TaskRunner.running_expired
  | run index pending received =>
    obtain ⟨u, hrun, rfl⟩ := Option.map_eq_some_iff.mp hstep
    obtain ⟨runner, hrunner, rfl⟩ := Option.map_eq_some_iff.mp hrun
    refine ⟨.run index, trivial, hrunner, rfl, nofun, fun n hn houtcome => .inl ?_⟩
    change runner.running = _ at hn
    simp only [hn] at houtcome
    exact pingResolverRun_eq_ended_iff.mp (Option.some.inj houtcome)
  | finish continuation =>
    simp only [step] at hstep
    split_ifs at hstep with hreturns
    obtain ⟨runner, hrunner, rfl⟩ := Option.map_eq_some_iff.mp hstep
    refine ⟨.finish continuation, trivial, hrunner, rfl, fun n hends => ?_, fun n hn => ?_⟩
    · cases continuation with
      | runAgain | runAgainDelayed => cases hends
      | ended =>
        change s.runner.running = _ at hends
        exact ⟨hends, by simpa [mayReturn, hends] using hreturns⟩
    · -- no run is in progress
      obtain ⟨task, -, rfl⟩ := TaskRunner.step_finish hrunner
      change (TaskRunner.resolve _ _ _).running = _ at hn
      rw [TaskRunner.running_resolve] at hn
      cases hn

/-- A step of the runner revives no resolver, and keeps those that it does not end. -/
theorem RunnerStep.alive (runs : RunnerStep s b t) (sound : s.Sound) :
    t.runner.stopped = false ∧ t.runner.isAlive = true ∧ (∀ n, t.Alive n → s.Alive n) ∧
      ∀ n, s.runner.ends b ≠ some (.pingResolver n) → s.Alive n → t.Alive n := by
  obtain ⟨hgoes, halive, htokens⟩ :=
    tokens_of_plain sound.not_stopped sound.isAlive runs.plain runs.step
  refine ⟨hgoes, halive, fun n hn => ?_, fun n hends hn => ?_⟩
  · have hle := htokens n
    unfold Alive at hn ⊢
    omega
  · have heq := htokens n
    have hnone : (s.runner.ends b).toList.count (.pingResolver n) = 0 :=
      List.count_eq_zero.mpr fun hmem => hends (Option.mem_toList.mp hmem)
    unfold Alive at hn ⊢
    omega

theorem Sound.isSet_of_serving (sound : s.Sound) (hserving : s.serving = some n) :
    s.running = true := by
  refine sound.isSet ?_ ?_ <;>
  · intro hphase
    simp [serving, hphase] at hserving

theorem Sound.runner (sound : s.Sound) (runs : RunnerStep s b t) : t.Sound := by
  obtain ⟨hgoes, halive, hold, hkept⟩ := runs.alive sound
  have hphase : t.phase = s.phase := by rw [runs.frame]
  have hstarts : t.starts = s.starts := by rw [runs.frame]
  have hrunning : t.running = s.running := by rw [runs.frame]
  have htask : t.currentTask = s.currentTask := by rw [runs.frame]
  have hserving : t.serving = s.serving := by simp [serving, hphase, htask]
  refine ⟨hgoes, halive, ?_, ?_, ?_, ?_, ?_⟩
  · rw [hstarts]
    exact fun n hn hnew => sound.fresh n hn (hold n hnew)
  · rw [hphase, hrunning]
    exact sound.isSet
  · rw [hphase, htask]
    exact sound.serves
  · rw [hserving]
    refine fun n hn => hkept n (fun hends => ?_) (sound.alive n hn)
    -- no run of the task that serves has come to its end
    obtain ⟨hrun, houtcome⟩ := runs.ended n hends
    exact sound.goesOn n hn hrun houtcome
  · rw [hserving]
    intro n hn hrun houtcome
    rcases runs.comesTo n hrun houtcome with hcleared | ⟨hran, hcame⟩
    · rw [sound.isSet_of_serving hn] at hcleared
      cases hcleared
    · exact sound.goesOn n hn hran hcame

theorem Accounted.runner (accounted : s.Accounted) (sound : s.Sound) (runs : RunnerStep s b t) :
    t.Accounted := by
  obtain ⟨-, -, hold, -⟩ := runs.alive sound
  intro n hn
  rw [← accounted n (hold n hn), runs.frame]
  rfl

/-! ## Steps of the caller -/

theorem step_postResolver (hstep : s.step .postResolver = some t) :
    ∃ again, s.phase = .starting again ∧ t = { s with
      runner := s.runner.post (.pingResolver s.starts)
      starts := s.starts + 1
      phase := .posted s.starts } := by
  simp only [step] at hstep
  split at hstep
  · next again hphase => exact ⟨again, hphase, (Option.some.inj hstep).symm⟩
  · cases hstep

theorem step_startScanning (hstep : s.step .startScanning = some t) :
    (s.phase = .stopped ∧ t = { s with running := true, phase := .starting false }) ∨
      (s.phase = .scanning ∧ t = { s with running := true, phase := .starting true }) := by
  simp only [step] at hstep
  split at hstep
  · next hphase => exact .inl ⟨hphase, (Option.some.inj hstep).symm⟩
  · next hphase => exact .inr ⟨hphase, (Option.some.inj hstep).symm⟩
  · cases hstep

theorem step_assignTask (hstep : s.step .assignTask = some t) :
    ∃ number, s.phase = .posted number ∧
      t = { s with currentTask := some number, phase := .scanning } := by
  simp only [step] at hstep
  split at hstep
  · next number hphase => exact ⟨number, hphase, (Option.some.inj hstep).symm⟩
  · cases hstep

theorem step_stopScanning (hstep : s.step .stopScanning = some t) :
    (s.phase = .stopped ∨ s.phase = .scanning) ∧
      t = { s with running := false, phase := .stopping } := by
  simp only [step] at hstep
  split at hstep
  · next hphase => exact ⟨.inl hphase, (Option.some.inj hstep).symm⟩
  · next hphase => exact ⟨.inr hphase, (Option.some.inj hstep).symm⟩
  · cases hstep

theorem step_checkExpired (hstep : s.step .checkExpired = some t) :
    s.phase = .stopping ∧ (t = s ∨ s.expired = true ∧ t = { s with phase := .stopped }) := by
  simp only [step] at hstep
  split at hstep
  · next hphase =>
    refine ⟨hphase, ?_⟩
    split_ifs at hstep with hexpired
    · exact .inr ⟨hexpired, (Option.some.inj hstep).symm⟩
    · exact .inl (Option.some.inj hstep).symm
  · cases hstep

/-- The resolvers alive after a start are those before it and its own. -/
theorem alive_post (sound : s.Sound) {t : AsyncScanner}
    (hrunner : t.runner = s.runner.post (.pingResolver s.starts)) :
    t.Alive n ↔ n = s.starts ∨ s.Alive n := by
  have hcount : [Job.pingResolver s.starts].count (.pingResolver n) =
      if n = s.starts then 1 else 0 := by
    by_cases hn : n = s.starts
    · simp [hn]
    · simp [hn, Ne.symm hn]
  unfold Alive
  rw [hrunner, TaskRunner.tokens_post sound.not_stopped, hcount]
  split_ifs with hn
  · simp [hn]
  · simp [hn]

theorem Sound.post (sound : s.Sound) (hstep : s.step .postResolver = some t) : t.Sound := by
  obtain ⟨again, hphase, rfl⟩ := step_postResolver hstep
  have halive := fun n => alive_post (n := n) sound (t := { s with
      runner := s.runner.post (.pingResolver s.starts)
      starts := s.starts + 1
      phase := .posted s.starts }) rfl
  refine ⟨?_, ?_, fun n hn hnew => ?_, fun _ _ => ?_, ?_, ?_, ?_⟩
  · exact TaskRunner.stopped_post.trans sound.not_stopped
  · exact TaskRunner.isAlive_post.trans sound.isAlive
  · rcases (halive n).mp hnew with rfl | hold
    · exact Nat.not_succ_le_self _ hn
    · exact sound.fresh n (Nat.le_of_succ_le hn) hold
  · exact sound.isSet (by simp [hphase]) (by simp [hphase])
  · rintro (hscanning | hstarting) <;> contradiction
  · intro n hn
    exact (halive n).mpr (.inl (Option.some.inj hn).symm)
  · intro n hn hrun
    -- a resolver that has just been made has not run
    obtain rfl := Option.some.inj hn
    rw [TaskRunner.running_post] at hrun
    refine absurd ?_ (sound.fresh s.starts le_rfl)
    simp [Alive, TaskRunner.tokens, hrun]

theorem Sound.step (sound : s.Sound) (hstep : s.step a = some t) : t.Sound := by
  by_cases ha : a.OfRunner
  · obtain ⟨b, runs⟩ := exists_runnerStep ha hstep
    exact sound.runner runs
  cases a with
  | postOther | postOtherDelayed | run | finish | expire => exact absurd trivial ha
  | postResolver => exact sound.post hstep
  | startScanning =>
    rcases step_startScanning hstep with ⟨hphase, rfl⟩ | ⟨hphase, rfl⟩
    · exact { sound with
        isSet := fun _ _ => rfl
        serves := by simp
        alive := nofun
        goesOn := nofun }
    · -- the resolver that scans goes on
      have halive := sound.alive
      have hgoesOn := sound.goesOn
      simp only [serving, hphase] at halive hgoesOn
      exact { sound with
        isSet := fun _ _ => rfl
        serves := fun _ => sound.serves (.inl hphase)
        alive := halive
        goesOn := hgoesOn }
  | assignTask =>
    obtain ⟨number, hphase, rfl⟩ := step_assignTask hstep
    have halive := sound.alive
    have hgoesOn := sound.goesOn
    simp only [serving, hphase] at halive hgoesOn
    exact { sound with
      isSet := fun _ _ => sound.isSet (by simp [hphase]) (by simp [hphase])
      serves := fun _ => nofun
      alive := halive
      goesOn := hgoesOn }
  | stopScanning =>
    obtain ⟨-, rfl⟩ := step_stopScanning hstep
    exact { sound with
      isSet := fun _ hphase => absurd rfl hphase
      serves := by simp
      alive := nofun
      goesOn := nofun }
  | checkExpired =>
    obtain ⟨-, rfl | ⟨-, rfl⟩⟩ := step_checkExpired hstep
    · exact sound
    · exact { sound with
        isSet := fun hphase => absurd rfl hphase
        serves := by simp
        alive := nofun
        goesOn := nofun }

/-- A statement that leaves the runner alone keeps waiting for the same resolver. -/
theorem Accounted.mono (accounted : s.Accounted) (hrunner : t.runner = s.runner)
    (htracked : ∀ n, s.tracked = some n → t.tracked = some n) : t.Accounted := by
  intro n hn
  refine htracked n (accounted n ?_)
  unfold Alive at hn ⊢
  rwa [hrunner] at hn

/-- The step lemma: with fresh starts only, the scanner waits for every resolver. -/
theorem Accounted.step (accounted : s.Accounted) (sound : s.Sound) (hafresh : s.StartsAfresh a)
    (hstep : s.step a = some t) : t.Accounted := by
  by_cases ha : a.OfRunner
  · obtain ⟨b, runs⟩ := exists_runnerStep ha hstep
    exact accounted.runner sound runs
  cases a with
  | postOther | postOtherDelayed | run | finish | expire => exact absurd trivial ha
  | postResolver =>
    obtain ⟨again, -, rfl⟩ := step_postResolver hstep
    intro n hn
    rcases (alive_post sound rfl).mp hn with rfl | hold
    · rfl
    · have htracked := accounted n hold
      rw [tracked, show s.phase = .starting false from hafresh] at htracked
      cases htracked
  | startScanning =>
    rcases step_startScanning hstep with ⟨hphase, rfl⟩ | ⟨hphase, rfl⟩
    · exact accounted.mono rfl (by simp [tracked, hphase])
    · exact accounted.mono rfl (by simp [tracked, hphase])
  | assignTask =>
    obtain ⟨number, hphase, rfl⟩ := step_assignTask hstep
    exact accounted.mono rfl (by simp [tracked, hphase])
  | stopScanning =>
    obtain ⟨hphase | hphase, rfl⟩ := step_stopScanning hstep
    · exact accounted.mono rfl (by simp [tracked, hphase])
    · exact accounted.mono rfl (by simp [tracked, hphase])
  | checkExpired =>
    obtain ⟨hphase, rfl | ⟨hexpired, rfl⟩⟩ := step_checkExpired hstep
    · exact accounted
    · intro n hn
      have htask : s.currentTask = some n := by
        simpa only [tracked, hphase] using accounted n hn
      -- the weak pointer to it has not expired
      simp only [expired, htask, decide_eq_true_eq] at hexpired
      exact absurd hexpired hn

theorem Accounted.atMostOne (accounted : s.Accounted) : s.AtMostOne := by
  refine ⟨fun m n hm hn => ?_, fun hphase n hn => ?_⟩
  · exact Option.some.inj ((accounted m hm).symm.trans (accounted n hn))
  · have hnone := accounted n hn
    rw [tracked, hphase] at hnone
    cases hnone

/-! ## Runs -/

variable {trace : List (AsyncScanner × Label)}

theorem sound_initial : initial.Sound where
  not_stopped := rfl
  isAlive := rfl
  fresh := fun _ _ halive => halive rfl
  isSet := fun h => absurd rfl h
  serves := by rintro (h | h) <;> contradiction
  alive := nofun
  goesOn := nofun

theorem accounted_initial : initial.Accounted :=
  fun _ halive => absurd rfl halive

/-- A second start posts a second resolver beside the one that scans. -/
theorem not_atMostOne_of_startedTwice (sound : s.Sound) (hstep : s.step .postResolver = some t)
    (hphase : s.phase ≠ .starting false) : ¬ t.AtMostOne := by
  intro hone
  obtain ⟨again, hagain, rfl⟩ := step_postResolver hstep
  obtain rfl : again = true := by
    cases again
    · exact absurd hagain hphase
    · rfl
  obtain ⟨n, htask⟩ := Option.ne_none_iff_exists'.mp (sound.serves (.inr hagain))
  have hfirst : s.Alive n := sound.alive n (by simp [serving, hagain, htask])
  have hsecond := hone.unique n s.starts ((alive_post sound rfl).mpr (.inr hfirst))
    ((alive_post sound rfl).mpr (.inl rfl))
  exact sound.fresh n hsecond.ge hfirst

/-- **Along every run at most one resolver is alive, and none while the scanner is
stopped, precisely when no start posts a resolver while the scanner scans.** -/
theorem atMostOne_iff (trace : List (AsyncScanner × Label)) (final : AsyncScanner)
    (run : Run step initial trace final) :
    (∀ v ∈ visited trace final, v.AtMostOne) ↔ ∀ x ∈ trace, x.1.StartsAfresh x.2 := by
  constructor
  · rintro hone ⟨v, a⟩ hmem
    obtain ⟨l, w, hprior, hstep⟩ := run.step_of_mem hmem
    have sound : v.Sound := hprior.invariant sound_initial fun _ _ _ hv => hv.step
    cases a with
    | postResolver =>
      -- a second start posts a second task
      by_contra hphase
      exact not_atMostOne_of_startedTwice sound hstep hphase
        (hone w (run.mem_visited_of_step hmem hstep))
    | startScanning | assignTask | stopScanning | checkExpired | postOther | postOtherDelayed
    | run | finish | expire => trivial
  · intro hafresh v hv
    have hboth := run.forall_visited_of_guard (I := fun v => v.Sound ∧ v.Accounted)
      (C := StartsAfresh) ⟨sound_initial, accounted_initial⟩
      (fun v a w hv hguard hstep => ⟨hv.1.step hstep, hv.2.step hv.1 hguard hstep⟩) hafresh v hv
    exact hboth.2.atMostOne

/-- A scanner that is started, stopped and started again. -/
def restarted : List Label :=
  [.startScanning, .postResolver, .assignTask, .run 0 false false, .stopScanning, .checkExpired,
    .finish (.runAgainDelayed 1000), .expire 0, .run 0 false false, .finish .ended, .checkExpired,
    .startScanning, .postResolver, .assignTask]

theorem atMostOne_restarted :
    ∃ final, exec step initial restarted = some final ∧
      ∀ v ∈ visited (record step initial restarted) final, v.AtMostOne := by
  have hexec := Option.some_get (x := exec step initial restarted) (by decide)
  exact ⟨_, hexec.symm, (atMostOne_iff _ _ (Run.of_exec hexec.symm)).mpr (by decide)⟩

/-- A scanner that is started twice and stopped. Its first resolver waits on a timer
when `stopScanning` returns. -/
def startedTwice : List Label :=
  [.startScanning, .postResolver, .assignTask, .startScanning, .postResolver, .assignTask,
    .run 0 false false, .finish (.runAgainDelayed 1000), .stopScanning, .run 0 false false,
    .finish .ended, .checkExpired]

theorem not_atMostOne_startedTwice :
    ∃ final, exec step initial startedTwice = some final ∧ final.phase = .stopped ∧
      final.Alive 0 ∧ ¬ ∀ v ∈ visited (record step initial startedTwice) final, v.AtMostOne := by
  have hexec := Option.some_get (x := exec step initial startedTwice) (by decide)
  have halive : ((exec step initial startedTwice).get (by decide)).Alive 0 := by
    unfold Alive
    decide
  refine ⟨_, hexec.symm, rfl, halive, fun hone => ?_⟩
  exact (hone _ mem_visited_final).quiet rfl 0 halive

end AsyncScanner

end NetDiscovery.Net
