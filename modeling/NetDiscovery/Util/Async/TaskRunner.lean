/-
# The task runner

A posted task waits as a handler of the runner's `io_context` until the service
thread runs it. What the run returns decides whether the task is posted again,
now or when a timer has expired, or is done with. Handlers and timers are served
in any order, one at a time.

Every post by a client schedules a task once: as a handler, as a timer, or as the
run in progress. The runner passes that token on until a run returns `End`.
-/

import Mathlib
import NetDiscovery.Semantics.Run

namespace NetDiscovery.Util

open NetDiscovery.Semantics

/-- `Task::Continuation`; the delay is in milliseconds. -/
inductive Continuation
  | runAgain
  | runAgainDelayed (delay : ℕ)
  /-- `Task::End` -/
  | ended
  deriving DecidableEq

/-- `util::TaskRunner`, with the handlers, the timers and the run in progress on its
service thread. -/
structure TaskRunner (T : Type*) where
  queue : List T
  timers : List (T × ℕ)
  running : Option T
  /-- `m_ioContext.stopped()` -/
  stopped : Bool
  isAlive : Bool

namespace TaskRunner

variable {T : Type*}

/-- A new runner. -/
def initial : TaskRunner T where
  queue := []
  timers := []
  running := none
  stopped := false
  isAlive := true

variable (runner : TaskRunner T)

/-- `TaskRunner::post`. -/
def post (task : T) : TaskRunner T :=
  if runner.stopped then runner else { runner with queue := runner.queue ++ [task] }

/-- `TaskRunner::postDelayed`. -/
def postDelayed (task : T) (delay : ℕ) : TaskRunner T :=
  { runner with timers := runner.timers ++ [(task, delay)] }

/-- `TaskRunner::stop`. -/
def stop : TaskRunner T :=
  { runner with stopped := true }

/-- `~TaskRunner`. -/
def destroy : TaskRunner T :=
  { runner with isAlive := false }.stop

/-- The handler of an expired timer. -/
def expired (task : T) : TaskRunner T :=
  if runner.isAlive then runner.post task else runner

/-- `TaskRunner::resolve` once the run has returned. -/
def resolve (task : T) : Continuation → TaskRunner T
  | .runAgain => runner.post task
  | .runAgainDelayed delay => runner.postDelayed task delay
  | .ended => runner

/-- What clients and the service thread do. A client may post at any time. The
service thread starts a handler, comes back from a run with a continuation, or
serves an expired timer. -/
inductive Label (T : Type*)
  | post (task : T)
  | postDelayed (task : T) (delay : ℕ)
  | run (index : ℕ)
  | finish (continuation : Continuation)
  | expire (index : ℕ)
  | stop
  | destroy

/-- The service thread is free to serve a handler or a timer. -/
def Idle : Prop :=
  runner.stopped = false ∧ runner.running = none

instance : Decidable runner.Idle :=
  inferInstanceAs (Decidable (_ ∧ runner.running = none))

/-- One step of a client or of the service thread. -/
def step (runner : TaskRunner T) : Label T → Option (TaskRunner T)
  | .post task => some (runner.post task)
  | .postDelayed task delay => some (runner.postDelayed task delay)
  | .run index =>
    if runner.Idle then
      runner.queue[index]?.map fun task =>
        { runner with queue := runner.queue.eraseIdx index, running := some task }
    else none
  | .finish continuation =>
    runner.running.map fun task => { runner with running := none }.resolve task continuation
  | .expire index =>
    if runner.Idle then
      runner.timers[index]?.map fun timer =>
        { runner with timers := runner.timers.eraseIdx index }.expired timer.1
    else none
  | .stop => some runner.stop
  | .destroy => some runner.destroy

/-! ## Steps -/

variable {runner} {t : TaskRunner T} {task : T} {delay index : ℕ} {continuation : Continuation}
  {a : Label T}

theorem step_run (hstep : runner.step (.run index) = some t) :
    runner.Idle ∧ ∃ task, runner.queue[index]? = some task ∧
      t = { runner with queue := runner.queue.eraseIdx index, running := some task } := by
  simp only [step] at hstep
  split_ifs at hstep with hidle
  obtain ⟨task, htask, rfl⟩ := Option.map_eq_some_iff.mp hstep
  exact ⟨hidle, task, htask, rfl⟩

theorem step_finish (hstep : runner.step (.finish continuation) = some t) :
    ∃ task, runner.running = some task ∧
      t = { runner with running := none }.resolve task continuation := by
  obtain ⟨task, htask, rfl⟩ := Option.map_eq_some_iff.mp hstep
  exact ⟨task, htask, rfl⟩

theorem step_expire (hstep : runner.step (.expire index) = some t) :
    runner.Idle ∧ ∃ timer, runner.timers[index]? = some timer ∧
      t = { runner with timers := runner.timers.eraseIdx index }.expired timer.1 := by
  simp only [step] at hstep
  split_ifs at hstep with hidle
  obtain ⟨timer, htimer, rfl⟩ := Option.map_eq_some_iff.mp hstep
  exact ⟨hidle, timer, htimer, rfl⟩

/-! ## Whether a runner goes on -/

theorem post_of_not_stopped (hgoes : runner.stopped = false) (task : T) :
    runner.post task = { runner with queue := runner.queue ++ [task] } := by
  simp [post, hgoes]

theorem expired_of_alive (halive : runner.isAlive = true) (task : T) :
    runner.expired task = runner.post task := by
  simp [expired, halive]

@[simp]
theorem stopped_post : (runner.post task).stopped = runner.stopped := by
  unfold post
  split_ifs <;> rfl

@[simp]
theorem isAlive_post : (runner.post task).isAlive = runner.isAlive := by
  unfold post
  split_ifs <;> rfl

@[simp]
theorem timers_post : (runner.post task).timers = runner.timers := by
  unfold post
  split_ifs <;> rfl

@[simp]
theorem timers_expired : (runner.expired task).timers = runner.timers := by
  unfold expired
  split_ifs <;> simp

@[simp]
theorem running_post : (runner.post task).running = runner.running := by
  unfold post
  split_ifs <;> rfl

@[simp]
theorem running_expired : (runner.expired task).running = runner.running := by
  unfold expired
  split_ifs <;> simp

@[simp]
theorem running_resolve : (runner.resolve task continuation).running = runner.running := by
  cases continuation <;> simp [resolve, postDelayed]

@[simp]
theorem stopped_expired : (runner.expired task).stopped = runner.stopped := by
  unfold expired
  split_ifs <;> simp

@[simp]
theorem isAlive_expired : (runner.expired task).isAlive = runner.isAlive := by
  unfold expired
  split_ifs <;> simp

@[simp]
theorem stopped_resolve : (runner.resolve task continuation).stopped = runner.stopped := by
  cases continuation <;> simp [resolve, postDelayed]

@[simp]
theorem isAlive_resolve : (runner.resolve task continuation).isAlive = runner.isAlive := by
  cases continuation <;> simp [resolve, postDelayed]

/-- Only `stop` and the destructor change whether a runner goes on. -/
theorem step_flags (hstep : runner.step a = some t) :
    (t.stopped = runner.stopped ∧ t.isAlive = runner.isAlive) ∨
      t.stopped = true ∧ (a = .stop ∨ a = .destroy) := by
  cases a with
  | post task =>
    obtain rfl := Option.some.inj hstep
    exact .inl ⟨stopped_post, isAlive_post⟩
  | postDelayed task delay =>
    obtain rfl := Option.some.inj hstep
    exact .inl ⟨rfl, rfl⟩
  | run index =>
    obtain ⟨-, task, -, rfl⟩ := step_run hstep
    exact .inl ⟨rfl, rfl⟩
  | finish continuation =>
    obtain ⟨task, -, rfl⟩ := step_finish hstep
    exact .inl ⟨stopped_resolve, isAlive_resolve⟩
  | expire index =>
    obtain ⟨-, timer, -, rfl⟩ := step_expire hstep
    exact .inl ⟨stopped_expired, isAlive_expired⟩
  | stop =>
    obtain rfl := Option.some.inj hstep
    exact .inr ⟨rfl, .inl rfl⟩
  | destroy =>
    obtain rfl := Option.some.inj hstep
    exact .inr ⟨rfl, .inr rfl⟩

/-- Only the service thread changes which task is running. -/
theorem running_of_step (hstep : runner.step a = some t) (hrun : ∀ index, a ≠ .run index)
    (hfinish : ∀ continuation, a ≠ .finish continuation) : t.running = runner.running := by
  cases a with
  | post task =>
    obtain rfl := Option.some.inj hstep
    exact running_post
  | run index => exact absurd rfl (hrun index)
  | finish continuation => exact absurd rfl (hfinish continuation)
  | expire index =>
    obtain ⟨-, timer, -, rfl⟩ := step_expire hstep
    exact running_expired
  | postDelayed | stop | destroy =>
    obtain rfl := Option.some.inj hstep
    rfl

/-! ## Timers -/

variable {trace : List (TaskRunner T × Label T)} {s : TaskRunner T}

/-- A runner that is not stopped has never been, and it is alive. -/
theorem goesOn_of_step (hrunning : t.stopped = false) (hstep : s.step a = some t) :
    s.stopped = false ∧ t.isAlive = s.isAlive := by
  rcases step_flags hstep with ⟨hstopped, halive⟩ | ⟨hstopped, -⟩
  · exact ⟨hstopped.symm.trans hrunning, halive⟩
  · cases hrunning.symm.trans hstopped

theorem not_stopped_of_run (run : Run step s trace t) (hrunning : t.stopped = false) :
    s.stopped = false := by
  induction run with
  | nil => exact hrunning
  | snoc _ hstep ih => exact ih (goesOn_of_step hrunning hstep).1

/-- A timer stays armed until it is served. -/
theorem mem_timers_of_step {timer : T × ℕ} (harmed : timer ∈ s.timers)
    (hother : ∀ index, a = .expire index → s.timers[index]? ≠ some timer)
    (hstep : s.step a = some t) : timer ∈ t.timers := by
  cases a with
  | post task =>
    obtain rfl := Option.some.inj hstep
    rwa [timers_post]
  | postDelayed task delay =>
    obtain rfl := Option.some.inj hstep
    exact List.mem_append_left _ harmed
  | run index =>
    obtain ⟨-, task, -, rfl⟩ := step_run hstep
    exact harmed
  | finish continuation =>
    obtain ⟨task, -, rfl⟩ := step_finish hstep
    cases continuation with
    | runAgain => rwa [resolve, timers_post]
    | runAgainDelayed delay => exact List.mem_append_left _ harmed
    | ended => exact harmed
  | expire index =>
    obtain ⟨-, served, hserved, rfl⟩ := step_expire hstep
    -- it is not the timer that was served
    rw [timers_expired]
    obtain ⟨hlt, rfl⟩ := List.getElem?_eq_some_iff.mp hserved
    have hmem := (List.getElem_cons_eraseIdx_perm hlt).mem_iff.mpr harmed
    refine (List.mem_cons.mp hmem).resolve_left fun heq => hother index rfl ?_
    rw [heq, hserved]
  | stop | destroy =>
    obtain rfl := Option.some.inj hstep
    exact harmed

/-! ## Tokens -/

variable [DecidableEq T]

/-- How often a task is scheduled: its handlers, its timers and its run. -/
def tokens (runner : TaskRunner T) (task : T) : ℕ :=
  runner.queue.count task + (runner.timers.map Prod.fst).count task +
    runner.running.toList.count task

/-- The task a client posts in a step. -/
def Label.posts : Label T → Option T
  | .post task | .postDelayed task _ => some task
  | _ => none

/-- The task whose run returns `End` in a step. -/
def ends (runner : TaskRunner T) : Label T → Option T
  | .finish .ended => runner.running
  | _ => none

/-- How often clients have posted a task. -/
def posted (task : T) (trace : List (TaskRunner T × Label T)) : ℕ :=
  trace.countP fun x => x.2.posts = some task

/-- How often the runs of a task have returned `End`. -/
def ended (task : T) (trace : List (TaskRunner T × Label T)) : ℕ :=
  trace.countP fun x => x.1.ends x.2 = some task

theorem tokens_post (hgoes : runner.stopped = false) (other : T) :
    (runner.post task).tokens other = runner.tokens other + [task].count other := by
  rw [post_of_not_stopped hgoes]
  simp only [tokens, List.count_append]
  omega

theorem tokens_postDelayed (other : T) :
    (runner.postDelayed task delay).tokens other = runner.tokens other + [task].count other := by
  simp only [tokens, postDelayed, List.map_append, List.map_cons, List.map_nil, List.count_append]
  omega

/-- Taking one element out of a list takes one from its count. -/
private theorem count_eraseIdx {α : Type*} [DecidableEq α] {l : List α} {x : α}
    (hindex : l[index]? = some x) (y : α) :
    l.count y = (l.eraseIdx index).count y + [x].count y := by
  obtain ⟨hlt, rfl⟩ := List.getElem?_eq_some_iff.mp hindex
  rw [← (List.getElem_cons_eraseIdx_perm hlt).count_eq y, ← List.singleton_append,
    List.count_append, Nat.add_comm]

/-- A resolved run passes its token on, or ends. -/
theorem tokens_resolve (runner : TaskRunner T) (hgoes : runner.stopped = false) (task : T)
    (continuation : Continuation) (other : T) :
    (runner.resolve task continuation).tokens other +
        (if continuation = .ended then [task].count other else 0) =
      runner.tokens other + [task].count other := by
  cases continuation with
  | runAgain => simp [resolve, tokens_post hgoes]
  | runAgainDelayed delay => simp [resolve, tokens_postDelayed]
  | ended => simp [resolve]

/-- The step lemma: a step of a runner that goes on creates a token for a post and
takes one for an `End`. -/
theorem tokens_of_step (hgoes : s.stopped = false) (halive : s.isAlive = true)
    (hrunning : t.stopped = false) (hstep : s.step a = some t) (other : T) :
    t.tokens other + (s.ends a).toList.count other =
      s.tokens other + a.posts.toList.count other := by
  cases a with
  | post task =>
    obtain rfl := Option.some.inj hstep
    simpa [ends, Label.posts] using tokens_post hgoes other
  | postDelayed task delay =>
    obtain rfl := Option.some.inj hstep
    simpa [ends, Label.posts] using tokens_postDelayed other
  | run index =>
    obtain ⟨⟨-, hidle⟩, task, htask, rfl⟩ := step_run hstep
    have hcount := count_eraseIdx htask other
    simp only [ends, Label.posts, tokens, hidle, Option.toList_none, Option.toList_some,
      List.count_nil]
    omega
  | finish continuation =>
    obtain ⟨task, htask, rfl⟩ := step_finish hstep
    -- a run that returns gives its token back to the queue or a timer, or ends
    have hresolve := tokens_resolve { s with running := none } hgoes task continuation other
    have hrun : s.tokens other =
        ({ s with running := none } : TaskRunner T).tokens other + [task].count other := by
      simp [tokens, htask]
    cases continuation with
    | runAgain | runAgainDelayed => simpa [ends, Label.posts, hrun] using hresolve
    | ended => simpa [ends, Label.posts, htask, hrun] using hresolve
  | expire index =>
    obtain ⟨-, timer, htimer, rfl⟩ := step_expire hstep
    have htask : (s.timers.map Prod.fst)[index]? = some timer.1 := by simp [htimer]
    have hcount := count_eraseIdx htask other
    rw [expired_of_alive (by exact halive), tokens_post (by exact hgoes)]
    simp only [ends, Label.posts, tokens, Option.toList_none, List.count_nil, List.eraseIdx_map]
      at hcount ⊢
    omega
  | stop | destroy =>
    obtain rfl := Option.some.inj hstep
    cases hrunning

/-! ## Runs -/

private theorem countP_snoc {α : Type*} {l : List α} {x : α} {f : α → Option T} :
    (l ++ [x]).countP (fun y => f y = some task) =
      l.countP (fun y => f y = some task) + (f x).toList.count task := by
  rw [List.countP_append, List.countP_singleton]
  cases f x <;> simp [List.count_singleton]

theorem posted_snoc : posted task (trace ++ [(s, a)]) =
    posted task trace + a.posts.toList.count task :=
  countP_snoc (f := fun x : TaskRunner T × Label T => x.2.posts)

theorem ended_snoc : ended task (trace ++ [(s, a)]) =
    ended task trace + (s.ends a).toList.count task :=
  countP_snoc (f := fun x : TaskRunner T × Label T => x.1.ends x.2)

/-- The conservation law: posts become tokens, and tokens end. -/
theorem tokens_add_ended_of_run (run : Run step initial trace t) (hrunning : t.stopped = false) :
    t.isAlive = true ∧ ∀ task, t.tokens task + ended task trace = posted task trace := by
  refine run.induction_of_guard (C := fun _ _ => True)
    (J := fun trace (s : TaskRunner T) => s.stopped = false →
      s.isAlive = true ∧ ∀ task, s.tokens task + ended task trace = posted task trace)
    (fun _ => ⟨rfl, fun _ => rfl⟩) ?_ (fun _ _ => trivial) hrunning
  intro trace v a w ih _ hstep hw
  obtain ⟨hv, halive⟩ := goesOn_of_step hw hstep
  obtain ⟨hvalive, hconserved⟩ := ih hv
  refine ⟨halive.trans hvalive, fun task => ?_⟩
  have htokens := tokens_of_step hv hvalive hw hstep task
  have hprior := hconserved task
  rw [posted_snoc, ended_snoc]
  omega

/-- A task that waits for its timer and has no second token has no handler. -/
theorem not_mem_queue_of_armed {timer : T × ℕ} (harmed : timer ∈ s.timers)
    (hone : s.tokens timer.1 ≤ 1) : timer.1 ∉ s.queue := by
  intro hqueued
  have htimers := List.count_pos_iff.mpr (List.mem_map_of_mem (f := Prod.fst) harmed)
  have hqueue := List.count_pos_iff.mpr hqueued
  unfold tokens at hone
  omega

/-- What a client that has posted a task once can rely on. -/
structure ServedOnce (trace : List (TaskRunner T × Label T)) (final : TaskRunner T) (task : T) :
    Prop where
  /-- It is never scheduled twice. -/
  scheduled : ∀ v ∈ visited trace final, v.tokens task ≤ 1
  /-- It is not dropped before its run returns `End`. -/
  kept : ended task trace = 0 → final.tokens task = 1
  /-- It is not run after that. -/
  gone : ∀ (l m : List (TaskRunner T × Label T)) (v : TaskRunner T),
    trace = l ++ (v, .finish .ended) :: m → v.running = some task →
    final.tokens task = 0 ∧
      ∀ x ∈ m, ∀ index, x.2 = .run index → x.1.queue[index]? ≠ some task
  /-- After `RunAgainDelayed` it is not run before its timer has fired. -/
  delayed : ∀ (l m r : List (TaskRunner T × Label T)) (v u : TaskRunner T) (delay index : ℕ),
    trace = l ++ (v, .finish (.runAgainDelayed delay)) :: (m ++ (u, .run index) :: r) →
    v.running = some task → u.queue[index]? = some task →
      ∃ x ∈ m, ∃ i, x.2 = .expire i ∧ x.1.timers[i]? = some (task, delay)

section Once

variable {final u v : TaskRunner T} {l m r : List (TaskRunner T × Label T)}

/-- At every point of a run the posts so far are tokens or ended. -/
private theorem tokens_add_ended_of_append (task : T)
    (run : Run step initial (l ++ (v, a) :: r) final) (hrunning : final.stopped = false) :
    ∃ w, Run step initial l v ∧ step v a = some w ∧ Run step w r final ∧
      v.tokens task + ended task l = posted task l := by
  obtain ⟨w, hleft, hstep, hright⟩ := run.split_at rfl
  have hv := (goesOn_of_step (not_stopped_of_run hright hrunning) hstep).1
  exact ⟨w, hleft, hstep, hright, (tokens_add_ended_of_run hleft hv).2 task⟩

theorem posted_le_append (task : T) (l m : List (TaskRunner T × Label T)) :
    posted task l ≤ posted task (l ++ m) := by
  simp [posted]

theorem scheduled_of_postedOnce (run : Run step initial trace final)
    (hrunning : final.stopped = false) (honce : posted task trace = 1) :
    ∀ v ∈ visited trace final, v.tokens task ≤ 1 := by
  intro v hv
  rcases List.mem_append.mp hv with hmem | hlast
  · obtain ⟨⟨v, a⟩, hstep, rfl⟩ := List.mem_map.mp hmem
    obtain ⟨l, r, rfl⟩ := List.append_of_mem hstep
    obtain ⟨-, -, -, -, hconserved⟩ := tokens_add_ended_of_append task run hrunning
    have hle := posted_le_append task l ((v, a) :: r)
    change v.tokens task ≤ 1
    omega
  · obtain rfl := List.mem_singleton.mp hlast
    have hconserved := (tokens_add_ended_of_run run hrunning).2 task
    omega

theorem gone_of_postedOnce (run : Run step initial (l ++ (v, .finish .ended) :: m) final)
    (hrunning : final.stopped = false)
    (honce : posted task (l ++ (v, .finish .ended) :: m) = 1) (htask : v.running = some task) :
    final.tokens task = 0 ∧ ∀ x ∈ m, ∀ index, x.2 = .run index → x.1.queue[index]? ≠ some task := by
  have hended : ∀ m' : List (TaskRunner T × Label T),
      1 ≤ ended task (l ++ (v, .finish .ended) :: m') := by
    intro m'
    refine List.countP_pos_iff.mpr ⟨(v, .finish .ended), by simp, ?_⟩
    simp [ends, htask]
  have hfinal := (tokens_add_ended_of_run run hrunning).2 task
  have hend := hended m
  refine ⟨by omega, ?_⟩
  rintro ⟨u, a⟩ hmem index - hqueued
  -- the run up to the later step has ended the task too
  obtain ⟨m₁, m₂, rfl⟩ := List.append_of_mem hmem
  have hlater : Run step initial ((l ++ (v, .finish .ended) :: m₁) ++ (u, a) :: m₂) final := by
    simpa using run
  obtain ⟨-, -, -, -, hconserved⟩ := tokens_add_ended_of_append task hlater hrunning
  have hle := posted_le_append task (l ++ (v, .finish .ended) :: m₁) ((u, a) :: m₂)
  have hend := hended m₁
  have hqueue : 0 < u.queue.count task := List.count_pos_iff.mpr (List.mem_of_getElem? hqueued)
  rw [List.append_assoc, List.cons_append] at hle
  unfold tokens at hconserved
  omega

theorem delayed_of_postedOnce {index : ℕ}
    (run : Run step initial
      (l ++ (v, .finish (.runAgainDelayed delay)) :: (m ++ (u, .run index) :: r)) final)
    (hscheduled : ∀ w ∈ visited
      (l ++ (v, .finish (.runAgainDelayed delay)) :: (m ++ (u, .run index) :: r)) final,
      w.tokens task ≤ 1)
    (htask : v.running = some task) (hqueued : u.queue[index]? = some task) :
    ∃ x ∈ m, ∃ i, x.2 = .expire i ∧ x.1.timers[i]? = some (task, delay) := by
  by_contra hnone
  push Not at hnone
  obtain ⟨w, -, hstep, hright⟩ := run.split_at rfl
  obtain ⟨-, hmiddle, -, -⟩ := hright.split_at rfl
  -- the timer was armed by the run's continuation, and nothing has served it
  have harmed : (task, delay) ∈ w.timers := by
    obtain ⟨task', htask', rfl⟩ := step_finish hstep
    obtain rfl := Option.some.inj (htask.symm.trans htask')
    simp [resolve, postDelayed]
  have hstill : (task, delay) ∈ u.timers :=
    hmiddle.invariant_of_guard (I := fun s : TaskRunner T => (task, delay) ∈ s.timers)
      (C := fun s a => ∀ i, a = .expire i → s.timers[i]? ≠ some (task, delay)) harmed
      (fun _ _ _ hmem hguard hstep => mem_timers_of_step hmem hguard hstep)
      fun x hx i => hnone x hx i
  refine not_mem_queue_of_armed hstill (hscheduled u ?_) (List.mem_of_getElem? hqueued)
  simp [visited]

end Once

/-- **Along every run of a runner that was not stopped, the tokens of a task are
its posts less the times it ended, and a task that was posted once is served as
its client expects.** -/
theorem conserved_of_run (trace : List (TaskRunner T × Label T)) (final : TaskRunner T)
    (run : Run step initial trace final) (hrunning : final.stopped = false) (task : T) :
    final.tokens task + ended task trace = posted task trace ∧
      (posted task trace = 1 → ServedOnce trace final task) := by
  have hconserved := (tokens_add_ended_of_run run hrunning).2 task
  refine ⟨hconserved, fun honce => ?_⟩
  have hscheduled := scheduled_of_postedOnce run hrunning honce
  refine ⟨hscheduled, fun hnone => by omega, fun l m v hsplit htask => ?_,
    fun l m r v u delay index hsplit htask hqueued => ?_⟩
  · subst hsplit
    exact gone_of_postedOnce run hrunning honce htask
  · subst hsplit
    exact delayed_of_postedOnce run hscheduled htask hqueued

/-- A task that asks for a delay once and then ends, beside another one. -/
def delayedOnce : List (Label ℕ) :=
  [.post 0, .post 1, .run 0, .finish (.runAgainDelayed 100), .run 0, .finish .runAgain, .expire 0,
    .run 1, .finish .ended]

theorem conserved_delayedOnce :
    ∃ final, exec step initial delayedOnce = some final ∧
      final.tokens 0 + ended 0 (record step initial delayedOnce) =
        posted 0 (record step initial delayedOnce) ∧
      ServedOnce (record step initial delayedOnce) final 0 := by
  have hexec := Option.some_get (x := exec step initial delayedOnce) (by decide)
  obtain ⟨hconserved, honce⟩ := conserved_of_run _ _ (Run.of_exec hexec.symm) (by decide) 0
  exact ⟨_, hexec.symm, hconserved, honce (by decide)⟩

end TaskRunner

end NetDiscovery.Util
