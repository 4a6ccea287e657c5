/-
# The future resolver

A resolver is a task that polls a future and hands what it holds to a callback. A
run that does not find the future ready asks to be run again after the retry delay.
A run that does reads the future, which can be done once, and ends: a value goes to
`onCompletion`, an exception to `onException`, and so does whatever `onCompletion`
throws. The promise is fulfilled, broken or given an exception at any time.

The resolver is one task among others of its runner, and what follows rests on the
runner's tokens: a task that was posted once has none left after its run has
returned `End`. So no run comes after the one that reads the future.
-/

import Mathlib
import NetDiscovery.Semantics.Run
import NetDiscovery.Semantics.Promise
import NetDiscovery.Util.Async.TaskRunner

namespace NetDiscovery.Util

open NetDiscovery.Semantics

namespace FutureResolver

/-- What `onException` is handed. -/
inductive Raised (E : Type*)
  | exception (e : E)
  /-- `broken_promise`, which `get` throws when the promise was destroyed -/
  | brokenPromise
  deriving DecidableEq

/-- Where a run of the resolver is. -/
inductive Phase (V E : Type*)
  /-- the resolver is not running -/
  | idle
  /-- in `wait_for` -/
  | polling
  /-- in `onCompletion` -/
  | completing (item : V)
  /-- in `onException` -/
  | handling (raised : Raised E)
  | returning (continuation : Continuation)
  /-- an exception has left `run`, and its service thread does not go on -/
  | escaped
  deriving DecidableEq

/-- A callback that is entered. -/
inductive Entry (V E : Type*)
  | onCompletion (item : V)
  | onException (raised : Raised E)
  deriving DecidableEq

variable {T V E : Type*}

/-- What a future that is ready holds: a value, or what `get` throws. -/
def held : SharedState (Except E V) → Option (Except (Raised E) V)
  | .unset => none
  | .value (.ok item) => some (.ok item)
  | .value (.error e) => some (.error (.exception e))
  | .broken => some (.error .brokenPromise)

/-- The continuation with which the run returns. -/
def Phase.continuation : Phase V E → Option Continuation
  | .returning continuation => some continuation
  | _ => none

/-- The callback that is running. -/
def Phase.entry : Phase V E → Option (Entry V E)
  | .completing item => some (.onCompletion item)
  | .handling raised => some (.onException raised)
  | _ => none

/-- `run` after `get`: the callback that is entered, with the value or with what `get`
has thrown. -/
def Phase.afterGet : Except (Raised E) V → Phase V E
  | .ok item => .completing item
  | .error raised => .handling raised

/-- `run` after a callback has returned. -/
def Phase.afterReturn : Phase V E → Option (Phase V E)
  | .completing _ | .handling _ => some (.returning .ended)
  | _ => none

/-- `run` after a callback has thrown: the `catch` is around `onCompletion` only. -/
def Phase.afterThrow (e : E) : Phase V E → Option (Phase V E)
  | .completing _ => some (.handling (.exception e))
  | .handling _ => some .escaped
  | _ => none

/-- A resolver, the shared state of its future, and the runner it is posted to. -/
structure System (T V E : Type*) where
  runner : TaskRunner T
  future : SharedState (Except E V)
  /-- `m_fut.valid()`: the future has not been read -/
  valid : Bool
  /-- `m_retryDelay` in milliseconds -/
  retryDelay : ℕ
  phase : Phase V E

/-- A resolver with a future, before it is posted. -/
def initial (retryDelay : ℕ) : System T V E where
  runner := .initial
  future := .unset
  valid := true
  retryDelay := retryDelay
  phase := .idle

/-- The steps of the runner, of the owner of the promise, and of a run of the
resolver. -/
inductive Label (T V E : Type*)
  | runner (a : TaskRunner.Label T)
  /-- `set_value` or `set_exception` -/
  | set (result : Except E V)
  /-- the promise is destroyed -/
  | abandon
  | setRetryDelay (delay : ℕ)
  | poll
  | callbackReturns
  | callbackThrows (e : E)

/-- `FutureResolver::run` up to its return or to the callback it enters. A future
that is ready stays so, and `get` does not wait. On a future that was read before,
`wait_for` throws. -/
def poll (s : System T V E) : System T V E :=
  if s.valid then
    match held s.future with
    | none => { s with phase := .returning (.runAgainDelayed s.retryDelay) }
    | some result => { s with valid := false, phase := .afterGet result }
  else { s with phase := .escaped }

/-- What the owner of the promise leaves in the future. -/
def abandoned : SharedState (Except E V) → SharedState (Except E V)
  | .unset => .broken
  | settled => settled

variable [DecidableEq T] (resolver : T)

/-- A run of the resolver comes back with its own continuation, any other run with
some continuation. -/
def allows (s : System T V E) : TaskRunner.Label T → Bool
  | .finish continuation =>
    s.runner.running ≠ some resolver || s.phase.continuation = some continuation
  | _ => true

/-- A step of the runner begins or ends a run of the resolver, or does neither. -/
def phaseAfter (s : System T V E) (runner : TaskRunner T) : TaskRunner.Label T → Phase V E
  | .run _ => if runner.running = some resolver then .polling else s.phase
  | .finish _ => if s.runner.running = some resolver then .idle else s.phase
  | _ => s.phase

/-- One step; `resolver` is the resolver as a task. -/
def step (s : System T V E) : Label T V E → Option (System T V E)
  | .runner a =>
    if allows resolver s a then
      (s.runner.step a).map fun runner =>
        { s with runner := runner, phase := phaseAfter resolver s runner a }
    else none
  | .set result =>
    match s.future with
    | .unset => some { s with future := .value result }
    | _ => none
  | .abandon => some { s with future := abandoned s.future }
  | .setRetryDelay delay => some { s with retryDelay := delay }
  | .poll =>
    match s.phase with
    | .polling => some (poll s)
    | _ => none
  | .callbackReturns => s.phase.afterReturn.map fun phase => { s with phase := phase }
  | .callbackThrows e => (s.phase.afterThrow e).map fun phase => { s with phase := phase }

/-! ## What a run shows -/

/-- The callback that is entered in a step. -/
def enters : System T V E × Label T V E → Option (Entry V E)
  | (s, .poll) => (poll s).phase.entry
  | (s, .callbackThrows e) => (s.phase.afterThrow e).bind Phase.entry
  | _ => none

/-- The callbacks entered so far. -/
def entries (trace : List (System T V E × Label T V E)) : List (Entry V E) :=
  trace.filterMap enters

/-- The step is a run that finds the future ready and reads it. -/
def reads : System T V E × Label T V E → Bool
  | (s, .poll) => (held s.future).isSome
  | _ => false

/-- The step as the runner sees it. -/
def runnerLabel : System T V E × Label T V E → Option (TaskRunner.Label T)
  | (_, .runner a) => some a
  | _ => none

/-- The run as the runner sees it. -/
def runnerTrace (trace : List (System T V E × Label T V E)) :
    List (TaskRunner T × TaskRunner.Label T) :=
  project System.runner runnerLabel trace

/-- The callbacks that what the future holds leads to. -/
def Delivered : Except (Raised E) V → List (Entry V E) → Prop
  | .ok item, entries => entries = [.onCompletion item] ∨
    ∃ e, entries = [.onCompletion item, .onException (.exception e)]
  | .error raised, entries => entries = [.onException raised]

/-! ## Steps -/

variable {resolver} {s t : System T V E} {a : Label T V E} {b : TaskRunner.Label T}
  {trace : List (System T V E × Label T V E)} {retryDelay : ℕ} {result : Except (Raised E) V}

theorem Phase.eq_returning {phase : Phase V E} {continuation : Continuation}
    (hreturns : phase.continuation = some continuation) : phase = .returning continuation := by
  cases phase with
  | returning continuation' => exact congrArg _ (Option.some.inj hreturns)
  | _ => cases hreturns

theorem step_runner (hstep : step resolver s (.runner b) = some t) :
    allows resolver s b = true ∧ ∃ runner, s.runner.step b = some runner ∧
      t = { s with runner := runner, phase := phaseAfter resolver s runner b } := by
  simp only [step] at hstep
  split_ifs at hstep with hallows
  obtain ⟨runner, hrunner, rfl⟩ := Option.map_eq_some_iff.mp hstep
  exact ⟨hallows, runner, hrunner, rfl⟩

theorem step_poll (hstep : step resolver s .poll = some t) : s.phase = .polling ∧ t = poll s := by
  simp only [step] at hstep
  split at hstep
  · exact ⟨by assumption, (Option.some.inj hstep).symm⟩
  · cases hstep

omit [DecidableEq T] in
theorem poll_of_unready (hvalid : s.valid = true) (hheld : held s.future = none) :
    poll s = { s with phase := .returning (.runAgainDelayed s.retryDelay) } := by
  simp [poll, hvalid, hheld]

omit [DecidableEq T] in
theorem poll_of_ready (hvalid : s.valid = true) (hheld : held s.future = some result) :
    poll s = { s with valid := false, phase := .afterGet result } := by
  simp [poll, hvalid, hheld]

/-- A step of the owner of the promise, or of that of the resolver. -/
def Label.OfOwner : Label T V E → Prop
  | .set _ | .abandon | .setRetryDelay _ => True
  | _ => False

/-- What owners do is nothing to the runner, to the run, and to a future that is ready. -/
theorem step_owner (hstep : step resolver s a = some t) (howner : a.OfOwner) :
    t.runner = s.runner ∧ t.valid = s.valid ∧ t.phase = s.phase ∧
      ∀ result, held s.future = some result → held t.future = some result := by
  cases a with
  | set result =>
    simp only [step] at hstep
    split at hstep
    · rename_i hunset
      obtain rfl := Option.some.inj hstep
      exact ⟨rfl, rfl, rfl, fun result hheld => by simp [hunset, held] at hheld⟩
    · cases hstep
  | abandon =>
    obtain rfl := Option.some.inj hstep
    refine ⟨rfl, rfl, rfl, fun result hheld => ?_⟩
    cases hfuture : s.future with
    | unset => simp [hfuture, held] at hheld
    | value | broken => simpa [hfuture, abandoned] using hheld
  | setRetryDelay delay =>
    obtain rfl := Option.some.inj hstep
    exact ⟨rfl, rfl, rfl, fun _ hheld => hheld⟩
  | _ => exact howner.elim

theorem step_callbackReturns (hstep : step resolver s .callbackReturns = some t) :
    (∃ entry, s.phase.entry = some entry) ∧ t = { s with phase := .returning .ended } := by
  obtain ⟨phase, hphase, rfl⟩ := Option.map_eq_some_iff.mp hstep
  cases hbefore : s.phase <;> simp_all [Phase.afterReturn, Phase.entry]

theorem step_callbackThrows {e : E} (hstep : step resolver s (.callbackThrows e) = some t) :
    (∃ item, s.phase = .completing item ∧ t = { s with phase := .handling (.exception e) }) ∨
      (∃ raised, s.phase = .handling raised) ∧ t = { s with phase := .escaped } := by
  obtain ⟨phase, hphase, rfl⟩ := Option.map_eq_some_iff.mp hstep
  cases hbefore : s.phase <;> simp_all [Phase.afterThrow]

/-! ## The invariant -/

section Snoc

omit [DecidableEq T]

theorem entries_snoc : entries (trace ++ [(s, a)]) = entries trace ++ (enters (s, a)).toList := by
  rw [entries, List.filterMap_append]
  cases henters : enters (s, a) <;> simp [entries, henters]

theorem runnerTrace_snoc_runner :
    runnerTrace (trace ++ [(s, .runner b)]) = runnerTrace trace ++ [(s.runner, b)] := by
  simp [runnerTrace, project, runnerLabel]

theorem runnerTrace_snoc_of_none (hlabel : runnerLabel (s, a) = none) :
    runnerTrace (trace ++ [(s, a)]) = runnerTrace trace := by
  simp [runnerTrace, project, hlabel]

theorem ended_snoc_runner [DecidableEq T] (resolver : T)
    (trace : List (System T V E × Label T V E)) (s : System T V E) (b : TaskRunner.Label T) :
    TaskRunner.ended resolver (runnerTrace (trace ++ [(s, .runner b)])) =
      TaskRunner.ended resolver (runnerTrace trace) + (s.runner.ends b).toList.count resolver := by
  rw [runnerTrace_snoc_runner, TaskRunner.ended_snoc]

/-- A step in which no callback is entered and the future is not read. -/
theorem history_snoc_of_none (trace : List (System T V E × Label T V E))
    (henters : enters (s, a) = none) (hreads : reads (s, a) = false) :
    entries (trace ++ [(s, a)]) = entries trace ∧
      (trace ++ [(s, a)]).countP reads = trace.countP reads := by
  constructor
  · simp [entries_snoc, henters]
  · simp [hreads]

end Snoc

/-- A run of the resolver that has not read the future. -/
def Phase.Fresh : Phase V E → Prop
  | .idle | .polling | .returning (.runAgainDelayed _) => True
  | _ => False

/-- A run of the resolver that has read the future. -/
def Phase.Spent (entries : List (Entry V E)) : Phase V E → Prop
  | .polling => False
  | .completing item => entries = [.onCompletion item]
  | .returning continuation => continuation = .ended
  | _ => True

/-- Before the future is read, nothing has happened. -/
structure Unread (resolver : T) (trace : List (System T V E × Label T V E)) (s : System T V E) :
    Prop where
  phase : s.phase.Fresh
  nothing_entered : entries trace = []
  not_read : trace.countP reads = 0
  not_ended : TaskRunner.ended resolver (runnerTrace trace) = 0

/-- After that, what it holds has been handed to a callback, and the resolver ends. -/
structure Read (resolver : T) (trace : List (System T V E × Label T V E)) (s : System T V E) :
    Prop where
  phase : s.phase.Spent (entries trace)
  read_once : trace.countP reads = 1
  delivered : ∃ result, held s.future = some result ∧ Delivered result (entries trace)
  ended_of_idle : s.phase = .idle → 0 < TaskRunner.ended resolver (runnerTrace trace)

/-- Where the resolver is, and what it has done. -/
structure Tracked (resolver : T) (trace : List (System T V E × Label T V E)) (s : System T V E) :
    Prop where
  running : s.runner.running = some resolver ↔ s.phase ≠ .idle
  polled : ∀ v, (v, .poll) ∈ trace → v.valid = true
  unread : s.valid = true → Unread resolver trace s
  read : s.valid = false → Read resolver trace s

/-- What `onCompletion` throws is the one thing that may follow it. -/
theorem Delivered.callbackThrows {item : V} (hdelivered : Delivered result [.onCompletion item])
    (e : E) : Delivered result ([.onCompletion item] ++ [.onException (.exception e)]) := by
  cases result with
  | ok item' =>
    rcases hdelivered with hself | ⟨e', hself⟩
    · exact .inr ⟨e, congrArg (· ++ [.onException (.exception e)]) hself⟩
    · cases hself
  | error raised => cases hdelivered

namespace Tracked

theorem initial : Tracked resolver [] (initial retryDelay : System T V E) where
  running := by simp [FutureResolver.initial, TaskRunner.initial]
  polled _ hmem := by cases hmem
  unread _ := ⟨trivial, rfl, rfl, rfl⟩
  read hread := by cases hread

variable (tracked : Tracked resolver trace s)

include tracked

theorem idle_of_not_running (hother : s.runner.running ≠ some resolver) : s.phase = .idle := by
  by_contra hbusy
  exact hother (tracked.running.mpr hbusy)

/-- While a callback runs, the future has been read. -/
theorem in_callback {entry : Entry V E} (hentry : s.phase.entry = some entry) :
    s.valid = false ∧ s.runner.running = some resolver := by
  constructor
  · by_contra hnot
    have hfresh := (tracked.unread (Bool.not_eq_false _ ▸ hnot)).phase
    cases hphase : s.phase <;> simp_all [Phase.entry, Phase.Fresh]
  · refine tracked.running.mpr fun hidle => ?_
    rw [hidle] at hentry
    cases hentry

/-- The future is polled only before it is read. -/
theorem polled_snoc (hpoll : a = .poll → s.valid = true) (v : System T V E)
    (hmem : (v, .poll) ∈ trace ++ [(s, a)]) : v.valid = true := by
  rcases List.mem_append.mp hmem with hprior | hlast
  · exact tracked.polled v hprior
  · obtain ⟨rfl, rfl⟩ := Prod.mk.inj (List.mem_singleton.mp hlast)
    exact hpoll rfl

/-- A step that is nothing to the resolver. -/
theorem of_same (hrunning : t.runner.running = some resolver ↔ s.runner.running = some resolver)
    (hphase : t.phase = s.phase) (hvalid : t.valid = s.valid)
    (hheld : ∀ result, held s.future = some result → held t.future = some result)
    (henters : enters (s, a) = none) (hreads : reads (s, a) = false) (hpoll : a ≠ .poll)
    (hended : TaskRunner.ended resolver (runnerTrace (trace ++ [(s, a)])) =
      TaskRunner.ended resolver (runnerTrace trace)) : Tracked resolver (trace ++ [(s, a)]) t := by
  obtain ⟨hentries, hcount⟩ := history_snoc_of_none trace henters hreads
  refine ⟨by rw [hrunning, hphase, tracked.running],
    tracked.polled_snoc fun heq => absurd heq hpoll, fun hunread => ?_, fun hread => ?_⟩
  · obtain ⟨hfresh, hnothing, hnone, hended'⟩ := tracked.unread (hvalid ▸ hunread)
    exact ⟨hphase ▸ hfresh, hentries.trans hnothing, hcount.trans hnone, hended.trans hended'⟩
  · obtain ⟨hspent, honce, ⟨result, hresult, hdelivered⟩, hidle⟩ := tracked.read (hvalid ▸ hread)
    refine ⟨?_, hcount.trans honce, ⟨result, hheld result hresult, ?_⟩, fun hnow => ?_⟩
    · rwa [hphase, hentries]
    · rwa [hentries]
    · rw [hended]
      exact hidle (hphase ▸ hnow)

/-- The step lemma for owners. -/
theorem step_owner (hstep : step resolver s a = some t) (howner : a.OfOwner) :
    Tracked resolver (trace ++ [(s, a)]) t := by
  obtain ⟨hrunner, hvalid, hphase, hheld⟩ := FutureResolver.step_owner hstep howner
  have hnone : runnerLabel (s, a) = none ∧ enters (s, a) = none ∧ reads (s, a) = false ∧
      a ≠ .poll := by
    cases a with
    | set | abandon | setRetryDelay => simp [runnerLabel, enters, reads]
    | _ => exact howner.elim
  obtain ⟨hlabel, henters, hreads, hpoll⟩ := hnone
  refine tracked.of_same (by rw [hrunner]) hphase hvalid hheld henters hreads hpoll ?_
  rw [runnerTrace_snoc_of_none hlabel]

/-- The step lemma for a handler. The resolver does not run again after it has ended,
as it has at most one token. -/
theorem step_run {index : ℕ}
    (hone : s.runner.tokens resolver + TaskRunner.ended resolver (runnerTrace trace) ≤ 1)
    (hstep : step resolver s (.runner (.run index)) = some t) :
    Tracked resolver (trace ++ [(s, .runner (.run index))]) t := by
  obtain ⟨-, runner, hrunner, rfl⟩ := FutureResolver.step_runner hstep
  obtain ⟨⟨-, hnone⟩, task, htask, rfl⟩ := TaskRunner.step_run hrunner
  have hended := ended_snoc_runner resolver trace s (.run index)
  by_cases hself : task = resolver
  · -- its token is in the queue, so it has not ended
    subst hself
    have hidle := tracked.idle_of_not_running (by simp [hnone])
    have hqueue := List.count_pos_iff.mpr (List.mem_of_getElem? htask)
    have hvalid : s.valid = true := by
      by_contra hnot
      have hgone := (tracked.read (Bool.eq_false_iff.mpr hnot)).ended_of_idle hidle
      unfold TaskRunner.tokens at hone
      omega
    obtain ⟨-, hnothing, hnoread, hnoend⟩ := tracked.unread hvalid
    obtain ⟨hentries, hcount⟩ :=
      history_snoc_of_none trace (s := s) (a := .runner (.run index)) rfl rfl
    refine ⟨by simp [phaseAfter], tracked.polled_snoc (by simp), fun _ => ?_, fun hread => ?_⟩
    · exact ⟨by simp [phaseAfter, Phase.Fresh], hentries.trans hnothing, hcount.trans hnoread,
        hended.trans hnoend⟩
    · cases hvalid.symm.trans hread
  · refine tracked.of_same ?_ ?_ rfl (fun _ hheld => hheld) rfl rfl (by simp) hended
    · simp [hself, hnone]
    · simp [phaseAfter, hself]

/-- The step lemma for a run that comes back. If it is the resolver's own, it returns
`End` if and only if it has read the future. -/
theorem step_finish {continuation : Continuation}
    (hstep : step resolver s (.runner (.finish continuation)) = some t) :
    Tracked resolver (trace ++ [(s, .runner (.finish continuation))]) t := by
  obtain ⟨hallows, runner, hrunner, rfl⟩ := FutureResolver.step_runner hstep
  obtain ⟨task, htask, rfl⟩ := TaskRunner.step_finish hrunner
  have hended := ended_snoc_runner resolver trace s (.finish continuation)
  by_cases hself : task = resolver
  · subst hself
    have hphase : s.phase = .returning continuation :=
      Phase.eq_returning (by simpa [allows, htask] using hallows)
    obtain ⟨hentries, hcount⟩ :=
      history_snoc_of_none trace (s := s) (a := .runner (.finish continuation)) rfl rfl
    refine ⟨by simp [phaseAfter, htask], tracked.polled_snoc (by simp), fun hunread => ?_,
      fun hread => ?_⟩
    -- the future has not been read, so the run asked for another one
    · obtain ⟨hfresh, hnothing, hnoread, hnoend⟩ := tracked.unread hunread
      rw [hphase] at hfresh
      cases continuation with
      | runAgainDelayed delay =>
        exact ⟨by simp [phaseAfter, htask, Phase.Fresh], hentries.trans hnothing,
          hcount.trans hnoread, hended.trans hnoend⟩
      | runAgain | ended => exact hfresh.elim
    -- it has been read, so the run came to its end
    · obtain ⟨hspent, honce, hdelivered, -⟩ := tracked.read hread
      rw [hphase] at hspent
      obtain rfl : continuation = .ended := hspent
      refine ⟨by simp [phaseAfter, htask, Phase.Spent], hcount.trans honce, ?_, fun _ => ?_⟩
      · rwa [hentries]
      · simp [hended, TaskRunner.ends, htask]
  · have hother : s.runner.running ≠ some resolver := by simp [htask, hself]
    refine tracked.of_same ?_ ?_ rfl (fun _ hheld => hheld) rfl rfl (by simp) ?_
    · simp [htask, hself]
    · simp [phaseAfter, hother]
    · rw [hended]
      cases continuation <;> simp [TaskRunner.ends, htask, hself]

/-- The step lemma for the runner. -/
theorem step_runner
    (hone : s.runner.tokens resolver + TaskRunner.ended resolver (runnerTrace trace) ≤ 1)
    (hstep : step resolver s (.runner b) = some t) :
    Tracked resolver (trace ++ [(s, .runner b)]) t := by
  cases b with
  | run index => exact tracked.step_run hone hstep
  | finish continuation => exact tracked.step_finish hstep
  | post | postDelayed | expire | stop | destroy =>
    obtain ⟨-, runner, hrunner, rfl⟩ := FutureResolver.step_runner hstep
    have hrunning := TaskRunner.running_of_step hrunner (by simp) (by simp)
    refine tracked.of_same (by rw [hrunning]) rfl rfl (fun _ hheld => hheld) rfl rfl (by simp) ?_
    exact ended_snoc_runner ..

/-- The step lemma for a poll. -/
theorem step_poll (hstep : step resolver s .poll = some t) :
    Tracked resolver (trace ++ [(s, .poll)]) t := by
  obtain ⟨hphase, rfl⟩ := FutureResolver.step_poll hstep
  have hvalid : s.valid = true := by
    by_contra hnot
    have hspent := (tracked.read (Bool.eq_false_iff.mpr hnot)).phase
    rwa [hphase] at hspent
  obtain ⟨-, hnothing, hnoread, hnoend⟩ := tracked.unread hvalid
  have hrunning : s.runner.running = some resolver := tracked.running.mpr (by simp [hphase])
  have hpolled := tracked.polled_snoc (a := .poll) fun _ => hvalid
  cases hheld : held s.future with
  | none =>
    have hunready := poll_of_unready hvalid hheld
    obtain ⟨hentries, hcount⟩ := history_snoc_of_none trace (s := s) (a := .poll)
      (by simp [enters, hunready, Phase.entry]) (by simp [reads, hheld])
    rw [hunready]
    refine ⟨by simp [hrunning], hpolled, fun _ => ?_, fun hread => ?_⟩
    · refine ⟨trivial, hentries.trans hnothing, hcount.trans hnoread, ?_⟩
      rwa [runnerTrace_snoc_of_none rfl]
    · cases hvalid.symm.trans hread
  | some result =>
    have hready := poll_of_ready hvalid hheld
    -- the callback that is entered is the first one
    have hentered : entries (trace ++ [(s, .poll)]) = (Phase.afterGet result).entry.toList := by
      rw [entries_snoc, hnothing, List.nil_append, enters, hready]
    have hcount : (trace ++ [(s, Label.poll)]).countP reads = 1 := by
      simp [hnoread, reads, hheld]
    rw [hready]
    refine ⟨by cases result <;> simp [hrunning, Phase.afterGet], hpolled, fun hunread => ?_,
      fun _ => ?_⟩
    · cases hunread
    · cases result with
      | ok item =>
        exact ⟨hentered, hcount, ⟨_, hheld, .inl hentered⟩, fun hidle => by cases hidle⟩
      | error raised => exact ⟨trivial, hcount, ⟨_, hheld, hentered⟩, fun hidle => by cases hidle⟩

/-- The step lemma for a callback that returns. -/
theorem step_callbackReturns (hstep : step resolver s .callbackReturns = some t) :
    Tracked resolver (trace ++ [(s, .callbackReturns)]) t := by
  obtain ⟨⟨entry, hentry⟩, rfl⟩ := FutureResolver.step_callbackReturns hstep
  obtain ⟨hvalid, hrunning⟩ := tracked.in_callback hentry
  obtain ⟨hentries, hcount⟩ :=
    history_snoc_of_none trace (s := s) (a := .callbackReturns) rfl rfl
  obtain ⟨-, honce, hdelivered, -⟩ := tracked.read hvalid
  refine ⟨by simp [hrunning], tracked.polled_snoc (by simp), fun hunread => ?_,
    fun _ => ⟨rfl, hcount.trans honce, ?_, fun hidle => by cases hidle⟩⟩
  · cases hvalid.symm.trans hunread
  · rwa [hentries]

/-- The step lemma for a callback that throws. -/
theorem step_callbackThrows {e : E} (hstep : step resolver s (.callbackThrows e) = some t) :
    Tracked resolver (trace ++ [(s, .callbackThrows e)]) t := by
  have hpolled := tracked.polled_snoc (a := .callbackThrows e) (by simp)
  rcases FutureResolver.step_callbackThrows hstep with ⟨item, hphase, rfl⟩ | ⟨⟨raised, hphase⟩, rfl⟩
  · -- `onCompletion` was the only callback so far
    obtain ⟨hvalid, hrunning⟩ := tracked.in_callback (by rw [hphase]; rfl)
    obtain ⟨honly, honce, ⟨result, hresult, hdelivered⟩, -⟩ := tracked.read hvalid
    rw [hphase] at honly
    have honly : entries trace = [.onCompletion item] := honly
    have henters : enters (s, .callbackThrows e) = some (.onException (.exception e)) := by
      simp [enters, hphase, Phase.afterThrow, Phase.entry]
    have hcount : (trace ++ [(s, Label.callbackThrows e)]).countP reads = 1 := by
      simp [honce, reads]
    refine ⟨by simp [hrunning], hpolled, fun hunread => ?_,
      fun _ => ⟨trivial, hcount, ⟨result, hresult, ?_⟩, fun hidle => by cases hidle⟩⟩
    · cases hvalid.symm.trans hunread
    · rw [entries_snoc, honly, henters]
      rw [honly] at hdelivered
      exact hdelivered.callbackThrows e
  · obtain ⟨hentries, hcount⟩ := history_snoc_of_none trace (s := s)
      (a := .callbackThrows e) (by simp [enters, hphase, Phase.afterThrow, Phase.entry]) rfl
    obtain ⟨hvalid, hrunning⟩ := tracked.in_callback (by rw [hphase]; rfl)
    obtain ⟨-, honce, hdelivered, -⟩ := tracked.read hvalid
    refine ⟨by simp [hrunning], hpolled, fun hunread => ?_,
      fun _ => ⟨trivial, hcount.trans honce, ?_, fun hidle => by cases hidle⟩⟩
    · cases hvalid.symm.trans hunread
    · rwa [hentries]

/-- The step lemma. -/
theorem step
    (hone : s.runner.tokens resolver + TaskRunner.ended resolver (runnerTrace trace) ≤ 1)
    (hstep : FutureResolver.step resolver s a = some t) :
    Tracked resolver (trace ++ [(s, a)]) t := by
  cases a with
  | runner b => exact tracked.step_runner hone hstep
  | set | abandon | setRetryDelay => exact tracked.step_owner hstep trivial
  | poll => exact tracked.step_poll hstep
  | callbackReturns => exact tracked.step_callbackReturns hstep
  | callbackThrows e => exact tracked.step_callbackThrows hstep

end Tracked

end FutureResolver

end NetDiscovery.Util
