/-
# The service thread of a runner

Three classes serve an `io_context` on a thread of their own: the task runner, the
socket pool and the task context. Each begins the thread when it is built, and its
destructor joins it. The join waits for `run` to return, which it does once the context
is stopped, as the work guard is only released after the join.

The destructor is a list of statements: its own, and then the ends of the members in
reverse order. Between two of them the thread goes on, and so does the run in progress.
A destructor returns if and only if the context is stopped, by itself or by a caller.
-/

import NetDiscovery.Util.Async.TaskRunner

namespace NetDiscovery.Util

/-- The classes with a service thread. -/
inductive Owner
  | taskRunner
  | socketPool
  | taskContext
  deriving DecidableEq

namespace Owner

/-- A statement of a destructor, or the end of a member. -/
inductive Statement
  /-- `m_isAlive->store(false)` -/
  | storeIsAlive
  /-- `m_ioContext.stop()` -/
  | stopContext
  /-- the end of `m_isAlive` -/
  | endIsAlive
  /-- `Thread::requestStop` -/
  | requestStop
  /-- `m_thread.join()` -/
  | join
  /-- the end of the work guard -/
  | endWork
  /-- the end of the `io_context`, with its handlers and timers -/
  | endContext
  deriving DecidableEq

/-- `~Thread`. -/
def endThread : List Statement :=
  [.requestStop, .join]

/-- The destructors. `TaskContext::stop` leaves the context alone. -/
def destructor : Owner → List Statement
  | taskRunner =>
    [.storeIsAlive, .stopContext, .endIsAlive] ++ endThread ++ [.endWork, .endContext]
  | socketPool => [.stopContext] ++ endThread ++ [.endWork, .endContext]
  | taskContext => [.requestStop] ++ endThread ++ [.endWork, .endContext]

/-- In every part that has been executed, the one statement comes with the other. -/
theorem mem_take_of_mem_take {first second : Statement} {l : List Statement}
    (hbefore : ∀ i ≤ l.length, second ∈ l.take i → first ∈ l.take i) (i : ℕ)
    (hsecond : second ∈ l.take i) : first ∈ l.take i := by
  rcases Nat.le_total i l.length with hle | hge
  · exact hbefore i hle hsecond
  · have hall : l.take i = l.take l.length := by
      rw [List.take_of_length_le hge, List.take_length]
    rw [hall] at hsecond ⊢
    exact hbefore l.length le_rfl hsecond

/-- The work guard ends after the join. -/
theorem join_mem_of_endWork (owner : Owner) (i : ℕ)
    (hends : .endWork ∈ owner.destructor.take i) : .join ∈ owner.destructor.take i := by
  cases owner
  all_goals exact mem_take_of_mem_take (by decide) i hends

/-- `m_isAlive` ends after the context is stopped. -/
theorem stopContext_mem_of_endIsAlive (owner : Owner) (i : ℕ)
    (hends : .endIsAlive ∈ owner.destructor.take i) : .stopContext ∈ owner.destructor.take i := by
  cases owner
  all_goals exact mem_take_of_mem_take (by decide) i hends

/-- A destructor that stops the context does so before the join. -/
theorem stopContext_mem_of_join {owner : Owner} (hstops : .stopContext ∈ owner.destructor) (i : ℕ)
    (hnext : owner.destructor[i]? = some .join) : .stopContext ∈ owner.destructor.take i := by
  have hlt : i < owner.destructor.length := (List.getElem?_eq_some_iff.mp hnext).1
  revert i
  cases owner with
  | taskRunner =>
    have hall : ∀ i < taskRunner.destructor.length, taskRunner.destructor[i]? = some .join →
        .stopContext ∈ taskRunner.destructor.take i := by decide
    exact fun i hnext hlt => hall i hlt hnext
  | socketPool =>
    have hall : ∀ i < socketPool.destructor.length, socketPool.destructor[i]? = some .join →
        .stopContext ∈ socketPool.destructor.take i := by decide
    exact fun i hnext hlt => hall i hlt hnext
  | taskContext => exact absurd hstops (by decide)

theorem join_mem_destructor (owner : Owner) : .join ∈ owner.destructor := by
  cases owner <;> decide

end Owner

/-- An object with a service thread. -/
structure ServiceThread (T : Type*) where
  /-- the `io_context` and the run in progress -/
  runner : TaskRunner T
  /-- `run` has returned -/
  exited : Bool
  /-- the work guard is there -/
  working : Bool
  /-- `Thread::Stop`; the thread's function does not take the token -/
  stopToken : Bool
  /-- `m_isAlive` is there -/
  holdsIsAlive : Bool
  /-- how many statements of the destructor have been executed, once it has begun -/
  executed : Option ℕ

namespace ServiceThread

open Owner

variable {T : Type*}

/-- A new object. -/
def initial : ServiceThread T where
  runner := .initial
  exited := false
  working := true
  stopToken := false
  holdsIsAlive := true
  executed := none

variable (owner : Owner) (s : ServiceThread T)

/-- What the destructor has executed. -/
def past : List Statement :=
  owner.destructor.take (s.executed.getD 0)

/-- The next statement of the destructor. -/
def next? : Option Statement :=
  s.executed.bind fun i => owner.destructor[i]?

/-- The destructor has returned. -/
def Returned : Prop :=
  s.executed = some owner.destructor.length

/-- Callers leave an object alone whose destructor has begun; the run in progress may
still use it. -/
def Usable : Prop :=
  s.executed = none ∨ s.runner.running.isSome

instance : Decidable s.Usable :=
  inferInstanceAs (Decidable (_ ∨ s.runner.running.isSome))

/-- `post`. Only the task runner asks whether the context is stopped. -/
def post (task : T) : TaskRunner T :=
  match owner with
  | taskRunner => s.runner.post task
  | socketPool | taskContext => { s.runner with queue := s.runner.queue ++ [task] }

/-- No work is left that would keep `run` from returning. -/
def outOfWork : Bool :=
  !s.working && s.runner.queue.isEmpty && s.runner.timers.isEmpty

/-- One statement of the destructor. -/
def execute : Statement → ServiceThread T
  | .storeIsAlive => { s with runner := { s.runner with isAlive := false } }
  | .stopContext => { s with runner := s.runner.stop }
  | .endIsAlive => { s with holdsIsAlive := false }
  | .requestStop => { s with stopToken := true }
  | .join => s
  | .endWork => { s with working := false }
  | .endContext => { s with runner := { s.runner with queue := [], timers := [] } }

/-- What callers, the service thread and the owner do. -/
inductive Label (T : Type*)
  | post (task : T)
  | postDelayed (task : T) (delay : ℕ)
  /-- `TaskRunner::stop`, `SocketPool::shutdown` or `ioContext().stop()` -/
  | stop
  | run (index : ℕ)
  | expire (index : ℕ)
  | finish (continuation : Continuation)
  /-- `run` returns on the service thread -/
  | exit
  | beginDestructor
  | statement

/-- The service thread takes the step. -/
def Label.OnThread : Label T → Prop
  | .run _ | .expire _ | .finish _ | .exit => True
  | _ => False

/-- The step copies `m_isAlive` for a timer. -/
def Label.ReadsIsAlive : Label T → Prop
  | .postDelayed _ _ | .finish (.runAgainDelayed _) => True
  | _ => False

/-- One step. -/
def step (s : ServiceThread T) : Label T → Option (ServiceThread T)
  | .post task => if s.Usable then some { s with runner := s.post owner task } else none
  | .postDelayed task delay =>
    if s.Usable ∧ owner = taskRunner then
      some { s with runner := s.runner.postDelayed task delay }
    else none
  | .stop => if s.Usable then some { s with runner := s.runner.stop } else none
  | .run index =>
    if s.exited then none
    else (s.runner.step (.run index)).map fun runner => { s with runner := runner }
  | .expire index =>
    if s.exited then none
    else (s.runner.step (.expire index)).map fun runner => { s with runner := runner }
  | .finish continuation =>
    if owner = taskRunner ∨ continuation = .ended then
      (s.runner.step (.finish continuation)).map fun runner => { s with runner := runner }
    else none
  | .exit =>
    if s.exited = false ∧ s.runner.running = none ∧
        (s.runner.stopped = true ∨ s.outOfWork = true) then
      some { s with exited := true, runner := s.runner.stop }
    else none
  | .beginDestructor => if s.executed = none then some { s with executed := some 0 } else none
  | .statement =>
    match s.next? owner with
    | some statement =>
      if statement = .join → s.exited = true then
        some { s.execute statement with executed := s.executed.map (· + 1) }
      else none
    | none => none

/-- The body of `~TaskRunner`, with nothing in between. -/
theorem execute_taskRunner :
    ((s.execute .storeIsAlive).execute .stopContext).runner = s.runner.destroy :=
  rfl

/-! ## Steps -/

variable {owner} {s} {t : ServiceThread T} {l : Label T} {task : T} {continuation : Continuation}
  {index i : ℕ}

theorem step_run (hstep : s.step owner (.run index) = some t) :
    s.exited = false ∧ ∃ runner, s.runner.step (.run index) = some runner ∧
      t = { s with runner := runner } := by
  simp only [step] at hstep
  split_ifs at hstep with hexited
  obtain ⟨runner, hrunner, rfl⟩ := Option.map_eq_some_iff.mp hstep
  exact ⟨Bool.eq_false_of_not_eq_true hexited, runner, hrunner, rfl⟩

theorem step_expire (hstep : s.step owner (.expire index) = some t) :
    s.exited = false ∧ ∃ runner, s.runner.step (.expire index) = some runner ∧
      t = { s with runner := runner } := by
  simp only [step] at hstep
  split_ifs at hstep with hexited
  obtain ⟨runner, hrunner, rfl⟩ := Option.map_eq_some_iff.mp hstep
  exact ⟨Bool.eq_false_of_not_eq_true hexited, runner, hrunner, rfl⟩

theorem step_finish (hstep : s.step owner (.finish continuation) = some t) :
    ∃ runner, s.runner.step (.finish continuation) = some runner ∧
      t = { s with runner := runner } := by
  simp only [step] at hstep
  split_ifs at hstep
  obtain ⟨runner, hrunner, rfl⟩ := Option.map_eq_some_iff.mp hstep
  exact ⟨runner, hrunner, rfl⟩

theorem step_exit (hstep : s.step owner .exit = some t) :
    s.exited = false ∧ s.runner.running = none ∧
      (s.runner.stopped = true ∨ s.outOfWork = true) ∧
      t = { s with exited := true, runner := s.runner.stop } := by
  simp only [step] at hstep
  split_ifs at hstep with hguard
  obtain ⟨hexited, hidle, hdone⟩ := hguard
  exact ⟨hexited, hidle, hdone, (Option.some.inj hstep).symm⟩

theorem step_beginDestructor (hstep : s.step owner .beginDestructor = some t) :
    s.executed = none ∧ t = { s with executed := some 0 } := by
  simp only [step] at hstep
  split_ifs at hstep with hnew
  exact ⟨hnew, (Option.some.inj hstep).symm⟩

theorem step_statement (hstep : s.step owner .statement = some t) :
    ∃ i statement, s.executed = some i ∧ owner.destructor[i]? = some statement ∧
      (statement = .join → s.exited = true) ∧
      t = { s.execute statement with executed := some (i + 1) } := by
  simp only [step] at hstep
  split at hstep
  · rename_i statement hnext
    obtain ⟨i, hexecuted, hstatement⟩ := Option.bind_eq_some_iff.mp hnext
    split_ifs at hstep with hguard
    refine ⟨i, statement, hexecuted, hstatement, hguard, ?_⟩
    rw [← Option.some.inj hstep, hexecuted]
    rfl
  · cases hstep

/-- What a step other than those of the destructor does to the context. -/
structure Serves (s : ServiceThread T) (l : Label T) (runner : TaskRunner T) : Prop where
  stopped : runner.stopped = true ↔ s.runner.stopped = true ∨ l = .stop
  /-- Once the context is stopped no run begins. -/
  running : s.runner.stopped = true → runner.running = s.runner.running ∨
    runner.running = none ∧ ∃ continuation, l = .finish continuation
  /-- Without a run in progress the thread takes no step after `run` has returned, and callers
  none after the destructor has begun. -/
  quiet : s.runner.running = none → s.exited = false ∨ s.executed = none ∧ ¬ l.OnThread
  other : l ≠ .statement

theorem Usable.not_begun (husable : s.Usable) (hidle : s.runner.running = none) :
    s.executed = none :=
  husable.resolve_right (by simp [hidle])

theorem serves_post (husable : s.Usable) (task : T) :
    s.Serves (.post task) (s.post owner task) := by
  refine ⟨?_, fun _ => .inl ?_, fun hidle => .inr ⟨husable.not_begun hidle, id⟩, by simp⟩
  · cases owner <;> simp [post]
  · cases owner <;> simp [post]

theorem serves_postDelayed (husable : s.Usable) (task : T) (delay : ℕ) :
    s.Serves (.postDelayed task delay) (s.runner.postDelayed task delay) :=
  ⟨by simp [TaskRunner.postDelayed], fun _ => .inl rfl,
    fun hidle => .inr ⟨husable.not_begun hidle, id⟩, by simp⟩

theorem serves_stop (husable : s.Usable) : s.Serves .stop s.runner.stop :=
  ⟨by simp [TaskRunner.stop], fun _ => .inl rfl,
    fun hidle => .inr ⟨husable.not_begun hidle, id⟩, by simp⟩

theorem serves_run {runner : TaskRunner T} (hexited : s.exited = false)
    (hrunner : s.runner.step (.run index) = some runner) : s.Serves (.run index) runner := by
  obtain ⟨⟨hgoes, -⟩, task, -, rfl⟩ := TaskRunner.step_run hrunner
  refine ⟨by simp, fun hstopped => ?_, fun _ => .inl hexited, by simp⟩
  cases hstopped.symm.trans hgoes

theorem serves_expire {runner : TaskRunner T} (hexited : s.exited = false)
    (hrunner : s.runner.step (.expire index) = some runner) :
    s.Serves (.expire index) runner := by
  obtain ⟨⟨hgoes, -⟩, timer, -, rfl⟩ := TaskRunner.step_expire hrunner
  refine ⟨by simp, fun hstopped => ?_, fun _ => .inl hexited, by simp⟩
  cases hstopped.symm.trans hgoes

theorem serves_finish {runner : TaskRunner T}
    (hrunner : s.runner.step (.finish continuation) = some runner) :
    s.Serves (.finish continuation) runner := by
  obtain ⟨task, hrunning, rfl⟩ := TaskRunner.step_finish hrunner
  refine ⟨by simp, fun _ => .inr ⟨TaskRunner.running_resolve, continuation, rfl⟩, fun hidle => ?_,
    by simp⟩
  cases hidle.symm.trans hrunning

/-- A step is one of the context, the thread's last one, or one of the destructor. -/
theorem step_cases (hstep : s.step owner l = some t) :
    (∃ runner, s.Serves l runner ∧ t = { s with runner := runner }) ∨
      (l = .exit ∧ s.exited = false ∧ s.runner.running = none ∧
        (s.runner.stopped = true ∨ s.outOfWork = true) ∧
        t = { s with exited := true, runner := s.runner.stop }) ∨
      (l = .beginDestructor ∧ s.executed = none ∧ t = { s with executed := some 0 }) ∨
      (l = .statement ∧ ∃ i statement, s.executed = some i ∧
        owner.destructor[i]? = some statement ∧ (statement = .join → s.exited = true) ∧
        t = { s.execute statement with executed := some (i + 1) }) := by
  cases l with
  | post task =>
    simp only [step] at hstep
    split_ifs at hstep with husable
    exact .inl ⟨_, serves_post husable task, (Option.some.inj hstep).symm⟩
  | postDelayed task delay =>
    simp only [step] at hstep
    split_ifs at hstep with hguard
    exact .inl ⟨_, serves_postDelayed hguard.1 task delay, (Option.some.inj hstep).symm⟩
  | stop =>
    simp only [step] at hstep
    split_ifs at hstep with husable
    exact .inl ⟨_, serves_stop husable, (Option.some.inj hstep).symm⟩
  | run index =>
    obtain ⟨hexited, runner, hrunner, rfl⟩ := step_run hstep
    exact .inl ⟨runner, serves_run hexited hrunner, rfl⟩
  | expire index =>
    obtain ⟨hexited, runner, hrunner, rfl⟩ := step_expire hstep
    exact .inl ⟨runner, serves_expire hexited hrunner, rfl⟩
  | finish continuation =>
    obtain ⟨runner, hrunner, rfl⟩ := step_finish hstep
    exact .inl ⟨runner, serves_finish hrunner, rfl⟩
  | exit =>
    obtain ⟨hexited, hidle, hdone, rfl⟩ := step_exit hstep
    exact .inr (.inl ⟨rfl, hexited, hidle, hdone, rfl⟩)
  | beginDestructor =>
    obtain ⟨hnew, rfl⟩ := step_beginDestructor hstep
    exact .inr (.inr (.inl ⟨rfl, hnew, rfl⟩))
  | statement =>
    obtain ⟨i, statement, hexecuted, hnext, hjoin, rfl⟩ := step_statement hstep
    exact .inr (.inr (.inr ⟨rfl, i, statement, hexecuted, hnext, hjoin, rfl⟩))

/-! ## What steps keep -/

theorem stopped_of_step (hstopped : s.runner.stopped = true) (hstep : s.step owner l = some t) :
    t.runner.stopped = true := by
  rcases step_cases hstep with ⟨runner, serves, rfl⟩ | ⟨-, -, -, -, rfl⟩ | ⟨-, -, rfl⟩ |
    ⟨-, i, statement, -, -, -, rfl⟩
  · exact serves.stopped.mpr (.inl hstopped)
  · rfl
  · exact hstopped
  · cases statement <;> first | exact hstopped | rfl

theorem exited_of_step (hexited : s.exited = true) (hstep : s.step owner l = some t) :
    t.exited = true := by
  rcases step_cases hstep with ⟨runner, -, rfl⟩ | ⟨-, -, -, -, rfl⟩ | ⟨-, -, rfl⟩ |
    ⟨-, i, statement, -, -, -, rfl⟩
  · exact hexited
  · rfl
  · exact hexited
  · cases statement <;> exact hexited

/-- Once the context is stopped no run begins. -/
theorem running_of_step (hstopped : s.runner.stopped = true) (hstep : s.step owner l = some t) :
    t.runner.running = s.runner.running ∨
      t.runner.running = none ∧ ∃ continuation, l = .finish continuation := by
  rcases step_cases hstep with ⟨runner, serves, rfl⟩ | ⟨-, -, -, -, rfl⟩ | ⟨-, -, rfl⟩ |
    ⟨-, i, statement, -, -, -, rfl⟩
  · exact serves.running hstopped
  · exact .inl rfl
  · exact .inl rfl
  · cases statement <;> exact .inl rfl

/-- A statement that has been executed is past. -/
theorem past_of_statement {statement : Statement} (hexecuted : s.executed = some i)
    (hnext : owner.destructor[i]? = some statement) :
    ({ s.execute statement with executed := some (i + 1) } : ServiceThread T).past owner =
      s.past owner ++ [statement] := by
  simp [past, hexecuted, List.take_add_one, hnext]

/-- What is known of an object at any time. -/
structure Coherent (owner : Owner) (s : ServiceThread T) : Prop where
  stopped : .stopContext ∈ s.past owner → s.runner.stopped = true
  joined : .join ∈ s.past owner → s.exited = true
  working : s.working = false → .endWork ∈ s.past owner
  holdsIsAlive : s.holdsIsAlive = false → .endIsAlive ∈ s.past owner
  exited : s.exited = true → s.runner.stopped = true ∧ s.runner.running = none

theorem Coherent.initial : Coherent owner (.initial : ServiceThread T) := by
  constructor <;> simp [past, ServiceThread.initial]

theorem Coherent.step (coherent : Coherent owner s) (hstep : s.step owner l = some t) :
    Coherent owner t := by
  -- the thread's last step is its only way to its end, and nothing runs after it
  have hexited : t.exited = true → t.runner.stopped = true ∧ t.runner.running = none := by
    intro ht
    by_cases hs : s.exited = true
    · obtain ⟨hstopped, hidle⟩ := coherent.exited hs
      refine ⟨stopped_of_step hstopped hstep, ?_⟩
      rcases running_of_step hstopped hstep with hsame | ⟨hnone, -⟩
      · exact hsame.trans hidle
      · exact hnone
    · rcases step_cases hstep with ⟨runner, -, rfl⟩ | ⟨-, -, hidle, -, rfl⟩ | ⟨-, -, rfl⟩ |
        ⟨-, i, statement, -, -, -, rfl⟩
      · exact absurd ht hs
      · exact ⟨rfl, hidle⟩
      · exact absurd ht hs
      · refine absurd ?_ hs
        cases statement <;> exact ht
  rcases step_cases hstep with ⟨runner, serves, rfl⟩ | ⟨-, -, -, -, rfl⟩ | ⟨-, hnew, rfl⟩ |
    ⟨-, i, statement, hexecuted, hnext, hjoin, rfl⟩
  · exact ⟨fun hpast => serves.stopped.mpr (.inl (coherent.stopped hpast)), coherent.joined,
      coherent.working, coherent.holdsIsAlive, hexited⟩
  · exact ⟨fun _ => rfl, fun _ => rfl, coherent.working, coherent.holdsIsAlive, hexited⟩
  · have hpast : ({ s with executed := some 0 } : ServiceThread T).past owner = s.past owner := by
      simp [past, hnew]
    exact ⟨hpast ▸ coherent.stopped, hpast ▸ coherent.joined, hpast ▸ coherent.working,
      hpast ▸ coherent.holdsIsAlive, hexited⟩
  · have hpast := past_of_statement hexecuted hnext
    -- a statement is past once it has had its effect
    refine ⟨?_, ?_, ?_, ?_, hexited⟩
    all_goals
      rw [hpast, List.mem_append, List.mem_singleton]
    · rintro (hpast | rfl)
      · exact stopped_of_step (coherent.stopped hpast) hstep
      · rfl
    · rintro (hpast | rfl)
      · exact exited_of_step (coherent.joined hpast) hstep
      · exact exited_of_step (hjoin rfl) hstep
    · intro hends
      cases statement with
      | endWork => exact .inr rfl
      | _ => exact .inl (coherent.working hends)
    · intro hends
      cases statement with
      | endIsAlive => exact .inr rfl
      | _ => exact .inl (coherent.holdsIsAlive hends)

/-- Before `run` has returned the work guard is there. -/
theorem Coherent.working_of_serving (coherent : Coherent owner s) (hserving : s.exited = false) :
    s.working = true := by
  by_contra hends
  have hpast := coherent.working (Bool.eq_false_of_not_eq_true hends)
  have hjoined := coherent.joined (join_mem_of_endWork owner _ hpast)
  cases hserving.symm.trans hjoined

/-- `m_isAlive` is there until the context is stopped. -/
theorem Coherent.stopped_of_ended (coherent : Coherent owner s) (hends : s.holdsIsAlive = false) :
    s.runner.stopped = true :=
  coherent.stopped (stopContext_mem_of_endIsAlive owner _ (coherent.holdsIsAlive hends))

/-- A context is stopped by the destructor or by a caller. -/
theorem Coherent.stops_of_step (coherent : Coherent owner s) (hstep : s.step owner l = some t)
    (hbefore : s.runner.stopped = false) (hafter : t.runner.stopped = true) :
    .stopContext ∈ owner.destructor ∨ l = .stop := by
  rcases step_cases hstep with ⟨runner, serves, rfl⟩ | ⟨-, hserving, -, hdone, rfl⟩ |
    ⟨-, -, rfl⟩ | ⟨-, i, statement, -, hnext, -, rfl⟩
  · exact .inr ((serves.stopped.mp hafter).resolve_left (by simp [hbefore]))
  · -- there is work as long as the guard is there
    have hworking := coherent.working_of_serving hserving
    simp [hbefore, outOfWork, hworking] at hdone
  · cases hbefore.symm.trans hafter
  · cases statement with
    | stopContext => exact .inl (List.mem_of_getElem? hnext)
    | _ => cases hbefore.symm.trans hafter

/-- A destructor that has begun goes on by its own statements. -/
theorem executed_of_step (hexecuted : s.executed = some i) (hstep : s.step owner l = some t) :
    (t.executed = some i ∧ l ≠ .statement) ∨ (t.executed = some (i + 1) ∧ l = .statement) := by
  by_cases hstatement : l = .statement
  · obtain rfl := hstatement
    obtain ⟨j, statement, hj, -, -, rfl⟩ := step_statement hstep
    obtain rfl := Option.some.inj (hexecuted.symm.trans hj)
    exact .inr ⟨rfl, rfl⟩
  · rcases step_cases hstep with ⟨runner, -, rfl⟩ | ⟨-, -, -, -, rfl⟩ | ⟨-, hnew, rfl⟩ | ⟨hl, -⟩
    · exact .inl ⟨hexecuted, hstatement⟩
    · exact .inl ⟨hexecuted, hstatement⟩
    · cases hnew.symm.trans hexecuted
    · exact absurd hl hstatement

/-- Only its own statement ends `m_isAlive`. -/
theorem ended_of_step (hstep : s.step owner l = some t) : t.holdsIsAlive = false ↔
    s.holdsIsAlive = false ∨ l = .statement ∧ s.next? owner = some .endIsAlive := by
  rcases step_cases hstep with ⟨runner, serves, rfl⟩ | ⟨rfl, -, -, -, rfl⟩ | ⟨rfl, -, rfl⟩ |
    ⟨rfl, i, statement, hexecuted, hnext, -, rfl⟩
  · simp [serves.other]
  · simp
  · simp
  · rw [next?, hexecuted, Option.bind_some, hnext]
    cases statement <;> simp [execute]

end ServiceThread

end NetDiscovery.Util
