/-
# What a resolver delivers

A resolver that was posted once delivers what its future holds once, by its last
run, and stays scheduled until then. In an infinite run it comes to that, if the
runner is fair to it: handlers are run, timers expire, and runs return.
-/

import NetDiscovery.Semantics.Execution
import NetDiscovery.Util.Async.FutureResolver

namespace NetDiscovery.Util

open NetDiscovery.Semantics

namespace FutureResolver

variable {T V E : Type*} [DecidableEq T] {resolver : T} {s t u v w final : System T V E}
  {a : Label T V E} {trace l r : List (System T V E × Label T V E)} {retryDelay : ℕ}
  {result : Except (Raised E) V}

/-! ## Runs -/

omit [DecidableEq T] in
@[simp]
theorem runner_poll : (poll s).runner = s.runner := by
  unfold poll
  split_ifs
  · split <;> rfl
  · rfl

omit [DecidableEq T] in
@[simp]
theorem future_poll : (poll s).future = s.future := by
  unfold poll
  split_ifs
  · split <;> rfl
  · rfl

/-- Each step is one of the runner, or nothing to it. -/
theorem runner_of_step (hstep : step resolver s a = some t) :
    StepOrStay TaskRunner.step s.runner (runnerLabel (s, a)) t.runner := by
  cases a with
  | runner b =>
    obtain ⟨-, runner, hrunner, rfl⟩ := step_runner hstep
    exact hrunner
  | set | abandon | setRetryDelay => exact (step_owner hstep trivial).1
  | poll =>
    obtain ⟨-, rfl⟩ := step_poll hstep
    exact runner_poll
  | callbackReturns =>
    obtain ⟨-, rfl⟩ := step_callbackReturns hstep
    rfl
  | callbackThrows e =>
    rcases step_callbackThrows hstep with ⟨item, -, rfl⟩ | ⟨-, rfl⟩ <;> rfl

/-- What a future that is ready holds does not change any more, and one that was read
stays so. -/
theorem settled_of_step (hstep : step resolver s a = some t) :
    (∀ result, held s.future = some result → held t.future = some result) ∧
      (s.valid = false → t.valid = false) := by
  cases a with
  | runner b =>
    obtain ⟨-, runner, -, rfl⟩ := step_runner hstep
    exact ⟨fun _ hheld => hheld, id⟩
  | set | abandon | setRetryDelay =>
    obtain ⟨-, hvalid, -, hheld⟩ := step_owner hstep trivial
    exact ⟨hheld, hvalid.trans⟩
  | poll =>
    obtain ⟨-, rfl⟩ := step_poll hstep
    refine ⟨fun result hheld => ?_, fun hread => ?_⟩
    · rwa [future_poll]
    · simp [poll, hread]
  | callbackReturns =>
    obtain ⟨-, rfl⟩ := step_callbackReturns hstep
    exact ⟨fun _ hheld => hheld, id⟩
  | callbackThrows e =>
    rcases step_callbackThrows hstep with ⟨item, -, rfl⟩ | ⟨-, rfl⟩ <;>
      exact ⟨fun _ hheld => hheld, id⟩

theorem runnerRun (run : Run (step resolver) (initial retryDelay) trace final) :
    Run TaskRunner.step .initial (runnerTrace trace) final.runner :=
  run.refine (I := fun _ => True) trivial (fun _ _ _ _ _ => trivial)
    fun _ _ _ _ hstep => runner_of_step hstep

/-- A runner that is not stopped was not stopped before. -/
theorem not_stopped_of_step (hgoes : t.runner.stopped = false)
    (hstep : step resolver s a = some t) : s.runner.stopped = false := by
  have hrunner := runner_of_step hstep
  cases hlabel : runnerLabel (s, a) with
  | some b =>
    rw [hlabel] at hrunner
    exact (TaskRunner.goesOn_of_step hgoes hrunner).1
  | none =>
    rw [hlabel] at hrunner
    have hsame : t.runner = s.runner := hrunner
    rwa [← hsame]

theorem not_stopped_of_run (run : Run (step resolver) s trace t)
    (hgoes : t.runner.stopped = false) : s.runner.stopped = false := by
  induction run with
  | nil => exact hgoes
  | snoc _ hstep ih => exact ih (not_stopped_of_step hgoes hstep)

omit [DecidableEq T] in
theorem runnerTrace_append : runnerTrace (l ++ r) = runnerTrace l ++ runnerTrace r := by
  simp [runnerTrace, project]

/-- The run lemma. -/
theorem tracked_of_run (run : Run (step resolver) (initial retryDelay) trace final)
    (hgoes : final.runner.stopped = false)
    (honce : TaskRunner.posted resolver (runnerTrace trace) ≤ 1) :
    Tracked resolver trace final := by
  induction run with
  | nil => exact .initial
  | @snoc trace v w a prior hstep ih =>
    have hv := not_stopped_of_step hgoes hstep
    have hle := TaskRunner.posted_le_append resolver (runnerTrace trace) (runnerTrace [(v, a)])
    rw [← runnerTrace_append] at hle
    have hconserved := (TaskRunner.tokens_add_ended_of_run (runnerRun prior) hv).2 resolver
    exact (ih hv (hle.trans honce)).step (by omega) hstep

/-- What the owner of a resolver that was posted once relies on. -/
structure ResolvesOnce (resolver : T) (trace : List (System T V E × Label T V E))
    (final : System T V E) : Prop where
  /-- No callback is entered but for what the future holds, and for that once. -/
  delivered : entries trace = [] ∨
    ∃ result, held final.future = some result ∧ Delivered result (entries trace)
  /-- `onCompletion` is entered when the future holds its value. -/
  holds : ∀ s a item, (s, a) ∈ trace → enters (s, a) = some (.onCompletion item) →
    held s.future = some (.ok item)
  readOnce : trace.countP reads ≤ 1
  /-- It is not waited for after it was read. -/
  polled : ∀ s, (s, .poll) ∈ trace → s.valid = true
  /-- A run that finds the future ready delivers what it holds. -/
  found : ∀ s result, (s, .poll) ∈ trace → held s.future = some result →
    Delivered result (entries trace)
  /-- It is the last run of the resolver. -/
  last : ∀ l s r, trace = l ++ (s, .poll) :: r → (held s.future).isSome →
    ∀ u index, (u, .runner (.run index)) ∈ r → u.runner.queue[index]? ≠ some resolver
  /-- Until then the resolver stays scheduled. -/
  kept : trace.countP reads = 0 → final.runner.tokens resolver = 1

/-- A run that has read the future has spent it. -/
theorem Tracked.not_valid (tracked : Tracked resolver trace s) (hread : trace.countP reads ≠ 0) :
    s.valid = false := by
  by_contra hnot
  exact hread (tracked.unread (Bool.not_eq_false _ ▸ hnot)).not_read

omit [DecidableEq T] in
/-- A poll of a future that is ready is a read. -/
theorem countP_reads_ne_zero (hmem : (s, .poll) ∈ trace) (hready : (held s.future).isSome) :
    trace.countP reads ≠ 0 :=
  (List.countP_pos_iff.mpr ⟨(s, .poll), hmem, hready⟩).ne'

theorem Tracked.readOnce (tracked : Tracked resolver trace s) : trace.countP reads ≤ 1 := by
  cases hvalid : s.valid with
  | true => exact (tracked.unread hvalid).not_read.le.trans zero_le_one
  | false => exact (tracked.read hvalid).read_once.le

/-- `onCompletion` is handed the value of the future. -/
theorem Tracked.holds (tracked : Tracked resolver trace t) {item : V} (hmem : (s, a) ∈ trace)
    (henters : enters (s, a) = some (.onCompletion item)) : held s.future = some (.ok item) := by
  cases a with
  | poll =>
    have hvalid := tracked.polled s hmem
    cases hheld : held s.future with
    | none => simp [enters, poll_of_unready hvalid hheld, Phase.entry] at henters
    | some result =>
      cases result with
      | ok item' =>
        simpa [enters, poll_of_ready hvalid hheld, Phase.afterGet, Phase.entry] using henters
      | error raised =>
        simp [enters, poll_of_ready hvalid hheld, Phase.afterGet, Phase.entry] at henters
  | callbackThrows e =>
    -- what follows a callback that throws is not `onCompletion`
    cases hphase : s.phase <;> simp [enters, hphase, Phase.afterThrow, Phase.entry] at henters
  | _ => cases henters

/-- A run that finds the future ready delivers what it holds. -/
theorem delivered_of_poll (run : Run (step resolver) (initial retryDelay) trace final)
    (tracked : Tracked resolver trace final) (hmem : (s, .poll) ∈ trace)
    (hheld : held s.future = some result) : Delivered result (entries trace) := by
  have hvalid := tracked.not_valid (countP_reads_ne_zero hmem (by simp [hheld]))
  obtain ⟨result', hresult, hdelivered⟩ := (tracked.read hvalid).delivered
  -- the future still holds what the run has found
  obtain ⟨l, r, rfl⟩ := List.append_of_mem hmem
  obtain ⟨t, -, hstep, hright⟩ := run.split_at rfl
  have hfinal : held final.future = some result :=
    hright.invariant (I := fun s => held s.future = some result)
      ((settled_of_step hstep).1 _ hheld) fun _ _ _ hheld hstep => (settled_of_step hstep).1 _ hheld
  obtain rfl := Option.some.inj (hresult.symm.trans hfinal)
  exact hdelivered

/-- No run of the resolver begins after one that has read the future. -/
theorem not_run_of_read (run : Run (step resolver) (initial retryDelay) trace u)
    (hgoes : u.runner.stopped = false)
    (honce : TaskRunner.posted resolver (runnerTrace trace) ≤ 1) (hread : trace.countP reads ≠ 0)
    {index : ℕ} (hstep : step resolver u (.runner (.run index)) = some w) :
    u.runner.queue[index]? ≠ some resolver := by
  intro hqueued
  have tracked := tracked_of_run run hgoes honce
  obtain ⟨-, runner, hrunner, -⟩ := step_runner hstep
  obtain ⟨⟨-, hnone⟩, -⟩ := TaskRunner.step_run hrunner
  -- between its runs a resolver that has read the future has ended, and has no token
  have hidle := tracked.idle_of_not_running (by simp [hnone])
  have hended := (tracked.read (tracked.not_valid hread)).ended_of_idle hidle
  have hconserved := (TaskRunner.tokens_add_ended_of_run (runnerRun run) hgoes).2 resolver
  have hqueue := List.count_pos_iff.mpr (List.mem_of_getElem? hqueued)
  unfold TaskRunner.tokens at hconserved
  omega

theorem resolvesOnce_of_postedOnce (run : Run (step resolver) (initial retryDelay) trace final)
    (hgoes : final.runner.stopped = false)
    (honce : TaskRunner.posted resolver (runnerTrace trace) = 1) :
    ResolvesOnce resolver trace final := by
  have tracked := tracked_of_run run hgoes honce.le
  refine ⟨?_, fun s a item hmem => tracked.holds hmem, tracked.readOnce, tracked.polled,
    fun s result hmem hheld => delivered_of_poll run tracked hmem hheld,
    fun l s r hsplit hready u index hmem => ?_, fun hunread => ?_⟩
  · cases hvalid : final.valid with
    | true => exact .inl (tracked.unread hvalid).nothing_entered
    | false => exact .inr (tracked.read hvalid).delivered
  · -- the run up to the later start has read the future too
    obtain ⟨m, m', rfl⟩ := List.append_of_mem hmem
    have hlater : trace = (l ++ (s, .poll) :: m) ++ (u, .runner (.run index)) :: m' := by
      simpa using hsplit
    subst hlater
    obtain ⟨w, hbefore, hstep, hafter⟩ := run.split_at rfl
    have hgoes' := not_stopped_of_step (not_stopped_of_run hafter hgoes) hstep
    rw [runnerTrace_append] at honce
    have hle := TaskRunner.posted_le_append resolver (runnerTrace (l ++ (s, .poll) :: m))
      (runnerTrace ((u, .runner (.run index)) :: m'))
    exact not_run_of_read hbefore hgoes' (hle.trans honce.le)
      (countP_reads_ne_zero (by simp) hready) hstep
  · have hvalid : final.valid = true := by
      by_contra hnot
      have hread := (tracked.read (Bool.eq_false_iff.mpr hnot)).read_once
      omega
    have hended := (tracked.unread hvalid).not_ended
    have hconserved := (TaskRunner.tokens_add_ended_of_run (runnerRun run) hgoes).2 resolver
    omega

/-! ## Infinite runs -/

/-- A poll reads a future that is ready. -/
theorem valid_of_poll (hheld : held s.future = some result)
    (hstep : step resolver s .poll = some t) : t.valid = false := by
  obtain ⟨-, rfl⟩ := step_poll hstep
  cases hvalid : s.valid with
  | true => rw [poll_of_ready hvalid hheld]
  | false => simp [poll, hvalid]

/-- A handler of the resolver starts a run of it. -/
theorem polling_of_run {index : ℕ} (hqueued : s.runner.queue[index]? = some resolver)
    (hstep : step resolver s (.runner (.run index)) = some t) : t.phase = .polling := by
  obtain ⟨-, runner, hrunner, rfl⟩ := step_runner hstep
  obtain ⟨-, task, htask, rfl⟩ := TaskRunner.step_run hrunner
  obtain rfl := Option.some.inj (htask.symm.trans hqueued)
  simp [phaseAfter]

/-- An expired timer of the resolver posts it. -/
theorem mem_queue_of_expire {index : ℕ} {timer : T × ℕ} (hgoes : s.runner.stopped = false)
    (halive : s.runner.isAlive = true) (htimer : s.runner.timers[index]? = some timer)
    (hstep : step resolver s (.runner (.expire index)) = some t) : timer.1 ∈ t.runner.queue := by
  obtain ⟨-, runner, hrunner, rfl⟩ := step_runner hstep
  obtain ⟨-, timer', htimer', rfl⟩ := TaskRunner.step_expire hrunner
  obtain rfl := Option.some.inj (htimer.symm.trans htimer')
  rw [TaskRunner.expired_of_alive (by exact halive),
    TaskRunner.post_of_not_stopped (by exact hgoes)]
  simp

/-- A run of the resolver that has not read the future arms a timer. -/
theorem mem_timers_of_finish {continuation : Continuation}
    (hrunning : s.runner.running = some resolver) (hfresh : s.phase.Fresh)
    (hstep : step resolver s (.runner (.finish continuation)) = some t) :
    resolver ∈ t.runner.timers.map Prod.fst := by
  obtain ⟨hallows, runner, hrunner, rfl⟩ := step_runner hstep
  obtain ⟨task, htask, rfl⟩ := TaskRunner.step_finish hrunner
  obtain rfl := Option.some.inj (htask.symm.trans hrunning)
  have hphase : s.phase = .returning continuation :=
    Phase.eq_returning (by simpa [allows, hrunning] using hallows)
  rw [hphase] at hfresh
  cases continuation with
  | runAgainDelayed delay => simp [TaskRunner.resolve, TaskRunner.postDelayed]
  | runAgain | ended => exact hfresh.elim

/-- What the runner and the callers of a resolver owe it: its handlers are run, its
timers expire, and what a run waits for comes to an end. -/
structure Fair (resolver : T) (e : Execution (step resolver) (initial retryDelay : System T V E)) :
    Prop where
  run : e.Answers (fun s => resolver ∈ s.runner.queue) fun s a =>
    ∃ index, a = .runner (.run index) ∧ s.runner.queue[index]? = some resolver
  expire : e.Answers (fun s => resolver ∈ s.runner.timers.map Prod.fst) fun s a =>
    ∃ index timer, a = .runner (.expire index) ∧ s.runner.timers[index]? = some timer ∧
      timer.1 = resolver
  poll : e.Answers (fun s => s.phase = .polling) fun _ a => a = .poll
  finish : e.Answers (fun s => s.phase.continuation.isSome) fun s a =>
    s.runner.running = some resolver ∧ ∃ continuation, a = .runner (.finish continuation)

/-- The client posts the task in the step. -/
def Posts (task : T) (x : System T V E × Label T V E) : Prop :=
  (runnerLabel x).bind TaskRunner.Label.posts = some task

instance (task : T) (x : System T V E × Label T V E) : Decidable (Posts task x) :=
  inferInstanceAs (Decidable (_ = some task))

section Eventually

variable {e : Execution (step resolver) (initial retryDelay : System T V E)} {n N : ℕ}

/-- A task that is posted at one time is posted once. -/
theorem posted_trace (honce : ∀ n, Posts resolver (e.state n, e.label n) ↔ n = N) (n : ℕ) :
    TaskRunner.posted resolver (runnerTrace (e.trace n)) = if N < n then 1 else 0 := by
  induction n with
  | zero => rfl
  | succ n ih =>
    have hlast : TaskRunner.posted resolver (runnerTrace [(e.state n, e.label n)]) =
        if n = N then 1 else 0 := by
      have hposts := honce n
      unfold Posts at hposts
      cases hlabel : runnerLabel (e.state n, e.label n) <;>
        simp_all [runnerTrace, project, TaskRunner.posted]
    rw [e.trace_succ, runnerTrace_append, TaskRunner.posted, List.countP_append]
    change TaskRunner.posted _ _ + TaskRunner.posted _ _ = _
    rw [ih, hlast]
    split_ifs <;> omega

variable (fair : Fair resolver e) (hgoes : ∀ n, (e.state n).runner.stopped = false)
  (honce : ∀ n, Posts resolver (e.state n, e.label n) ↔ n = N)

include hgoes honce

theorem tracked_of_execution (n : ℕ) : Tracked resolver (e.trace n) (e.state n) := by
  refine tracked_of_run (e.run n) (hgoes n) ?_
  rw [posted_trace honce]
  split_ifs <;> omega

include fair

/-- Once it is posted and its future is ready, the resolver reads it. -/
theorem eventually_read (hposted : N < n) (hheld : held (e.state n).future = some result) :
    ∃ m, (e.state m).valid = false := by
  by_contra hnever
  push Not at hnever
  have hvalid : ∀ m, (e.state m).valid = true := fun m => Bool.eq_true_of_not_eq_false (hnever m)
  have tracked := tracked_of_execution hgoes honce
  have hheld : ∀ m, n ≤ m → held (e.state m).future = some result := fun m hle =>
    e.stable (fun _ _ _ hheld hstep => (settled_of_step hstep).1 _ hheld) hheld hle
  have hconserved := fun m => TaskRunner.tokens_add_ended_of_run (runnerRun (e.run m)) (hgoes m)
  -- a run would read the future, a handler begin a run, a timer post a handler
  have hpolling : ∀ m, n ≤ m → (e.state m).phase ≠ .polling := by
    intro m hle hphase
    obtain ⟨k, hk, hlabel⟩ := fair.poll m hphase
    have hstep := e.next k
    rw [hlabel] at hstep
    exact hnever _ (valid_of_poll (hheld k (hle.trans hk)) hstep)
  have hqueue : ∀ m, n ≤ m → resolver ∉ (e.state m).runner.queue := by
    intro m hle hqueued
    obtain ⟨k, hk, index, hlabel, hindex⟩ := fair.run m hqueued
    have hstep := e.next k
    rw [hlabel] at hstep
    exact hpolling (k + 1) (by omega) (polling_of_run hindex hstep)
  have htimers : ∀ m, n ≤ m → resolver ∉ (e.state m).runner.timers.map Prod.fst := by
    intro m hle harmed
    obtain ⟨k, hk, index, timer, hlabel, htimer, rfl⟩ := fair.expire m harmed
    have hstep := e.next k
    rw [hlabel] at hstep
    exact hqueue (k + 1) (by omega) (mem_queue_of_expire (hgoes k) (hconserved k).1 htimer hstep)
  have hreturning : ∀ m, n ≤ m → (e.state m).phase.continuation = none := by
    intro m hle
    by_contra hsome
    obtain ⟨k, hk, hrunning, continuation, hlabel⟩ :=
      fair.finish m (Option.isSome_iff_ne_none.mpr hsome)
    have hstep := e.next k
    rw [hlabel] at hstep
    exact htimers (k + 1) (by omega)
      (mem_timers_of_finish hrunning ((tracked k).unread (hvalid k)).phase hstep)
  -- but the resolver has a token somewhere
  obtain ⟨hfresh, -, -, hended⟩ := (tracked n).unread (hvalid n)
  have htokens := (hconserved n).2 resolver
  rw [posted_trace honce, if_pos hposted, hended, TaskRunner.tokens,
    List.count_eq_zero.mpr (hqueue n le_rfl), List.count_eq_zero.mpr (htimers n le_rfl)] at htokens
  have hrunning : (e.state n).runner.running = some resolver := by
    cases hother : (e.state n).runner.running with
    | none => simp [hother] at htokens
    | some task => simpa [hother, List.count_singleton] using htokens
  have hbusy := (tracked n).running.mp hrunning
  cases hphase : (e.state n).phase with
  | idle => exact hbusy hphase
  | polling => exact hpolling n le_rfl hphase
  | returning continuation =>
    have hnone := hreturning n le_rfl
    rw [hphase] at hnone
    cases hnone
  | completing | handling | escaped =>
    rw [hphase] at hfresh
    exact hfresh

/-- Then what the future holds has been delivered for good. -/
theorem eventually_delivered (hheld : held (e.state n).future = some result) :
    ∃ M, ∀ m, M ≤ m → Delivered result (entries (e.trace m)) := by
  have hstays : ∀ m, n ≤ m → held (e.state m).future = some result := fun m hle =>
    e.stable (fun _ _ _ hheld hstep => (settled_of_step hstep).1 _ hheld) hheld hle
  obtain ⟨k, hread⟩ := eventually_read fair hgoes honce (Nat.lt_succ_iff.mpr (le_max_left N n))
    (hstays (max N n + 1) ((le_max_right N n).trans (Nat.le_succ _)))
  refine ⟨max k n, fun m hle => ?_⟩
  have hspent : (e.state m).valid = false :=
    e.stable (fun _ _ _ hread hstep => (settled_of_step hstep).2 hread) hread
      ((le_max_left k n).trans hle)
  obtain ⟨result', hresult, hdelivered⟩ :=
    ((tracked_of_execution hgoes honce m).read hspent).delivered
  obtain rfl := Option.some.inj (hresult.symm.trans (hstays m ((le_max_right k n).trans hle)))
  exact hdelivered

end Eventually

/-- **A resolver that is posted once to a runner that goes on delivers what its future
holds once, whatever happens in which order, and in a fair infinite run it comes to
that.** -/
theorem resolvesOnce_of_run (resolver : T) (retryDelay : ℕ) :
    (∀ (trace : List (System T V E × Label T V E)) (final : System T V E),
      Run (step resolver) (initial retryDelay) trace final → final.runner.stopped = false →
      TaskRunner.posted resolver (runnerTrace trace) = 1 → ResolvesOnce resolver trace final) ∧
    ∀ e : Execution (step resolver) (initial retryDelay : System T V E), Fair resolver e →
      (∀ n, (e.state n).runner.stopped = false) →
      ∀ N, (∀ n, Posts resolver (e.state n, e.label n) ↔ n = N) →
        ∀ n result, held (e.state n).future = some result →
          ∃ M, ∀ m, M ≤ m → Delivered result (entries (e.trace m)) :=
  ⟨fun _ _ => resolvesOnce_of_postedOnce, fun _ fair hgoes _ honce _ _ =>
    eventually_delivered fair hgoes honce⟩

/-- The future is not ready at the first poll, and holds an exception at the second. -/
def polledTwice : List (Label ℕ ℕ ℕ) :=
  [.runner (.post 0), .runner (.run 0), .poll, .runner (.finish (.runAgainDelayed 1000)),
    .set (.error 7), .runner (.expire 0), .runner (.run 0), .poll, .callbackReturns,
    .runner (.finish .ended)]

/-- The run of these steps, after which nothing happens any more. -/
def polledTwiceForever : Execution (step 0) (initial 1000 : System ℕ ℕ ℕ) :=
  .ofLoop (a := .setRetryDelay 1000)
    (Option.some_get (x := exec (step 0) (initial 1000) polledTwice) (by decide)).symm rfl

theorem fair_polledTwiceForever : Fair 0 polledTwiceForever where
  run := Execution.answers_ofLoop (by decide) fun n hn hqueued => by
    have htimes : ∀ n < 10, 0 ∈ (polledTwiceForever.state n).runner.queue → n = 1 ∨ n = 6 := by
      decide
    obtain rfl | rfl := htimes n hn hqueued
    · exact ⟨1, le_rfl, 0, rfl, rfl⟩
    · exact ⟨6, le_rfl, 0, rfl, rfl⟩
  expire := Execution.answers_ofLoop (by decide) fun n hn harmed => by
    have htimes : ∀ n < 10, 0 ∈ (polledTwiceForever.state n).runner.timers.map Prod.fst →
        n ≤ 5 := by decide
    exact ⟨5, htimes n hn harmed, 0, (0, 1000), rfl, rfl, rfl⟩
  poll := Execution.answers_ofLoop (by decide) fun n hn hpolling => by
    have htimes : ∀ n < 10, (polledTwiceForever.state n).phase = .polling → n = 2 ∨ n = 7 := by
      decide
    obtain rfl | rfl := htimes n hn hpolling
    · exact ⟨2, le_rfl, rfl⟩
    · exact ⟨7, le_rfl, rfl⟩
  finish := Execution.answers_ofLoop (by decide) fun n hn hreturning => by
    have htimes : ∀ n < 10, (polledTwiceForever.state n).phase.continuation.isSome →
        n = 3 ∨ n = 9 := by decide
    obtain rfl | rfl := htimes n hn hreturning
    · exact ⟨3, le_rfl, rfl, _, rfl⟩
    · exact ⟨9, le_rfl, rfl, _, rfl⟩

theorem posts_polledTwiceForever (n : ℕ) :
    Posts 0 (polledTwiceForever.state n, polledTwiceForever.label n) ↔ n = 0 := by
  rcases Nat.lt_or_ge n 10 with hlt | hge
  · have htimes : ∀ n < 10,
        Posts 0 (polledTwiceForever.state n, polledTwiceForever.label n) ↔ n = 0 := by
      decide
    exact htimes n hlt
  · have hlabel : polledTwiceForever.label n = .setRetryDelay 1000 := Execution.label_ofLoop hge
    rw [hlabel]
    exact iff_of_false nofun (by omega)

theorem resolvesOnce_polledTwice :
    (∃ final, exec (step 0) (initial 1000) polledTwice = some final ∧
      ResolvesOnce 0 (record (step 0) (initial 1000) polledTwice) final) ∧
    ∃ M, ∀ m, M ≤ m →
      Delivered (.error (.exception 7)) (entries (polledTwiceForever.trace m)) := by
  have hexec := Option.some_get (x := exec (step 0) (initial 1000) polledTwice) (by decide)
  have hgoes : ∀ n, (polledTwiceForever.state n).runner.stopped = false :=
    Execution.forall_state_ofLoop (P := fun s : System ℕ ℕ ℕ => s.runner.stopped = false)
      (by decide) (by decide)
  obtain ⟨honce, heventually⟩ := resolvesOnce_of_run (V := ℕ) (E := ℕ) 0 1000
  refine ⟨⟨_, hexec.symm, honce _ _ (Run.of_exec hexec.symm) (by decide) (by decide)⟩, ?_⟩
  exact heventually polledTwiceForever fair_polledTwiceForever hgoes 0 posts_polledTwiceForever 5 _
    rfl

end FutureResolver

end NetDiscovery.Util
