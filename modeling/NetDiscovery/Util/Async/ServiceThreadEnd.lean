/-
# The end of a service thread

The owner of a service thread destroys it while runs are in progress. If the owner and
the thread go on and runs return, the destructor returns exactly when the context is
stopped: the task runner and the socket pool stop theirs before they join, and the task
context waits for a caller to do so.

The task runner ends `m_isAlive` before it joins. A run that is in progress then and
asks to be run again later copies the pointer after its end.
-/

import NetDiscovery.Semantics.Behaviour
import NetDiscovery.Semantics.LeadsTo
import NetDiscovery.Util.Async.ServiceThread

namespace NetDiscovery.Util.ServiceThread

open NetDiscovery.Semantics Owner

variable {T : Type*} {owner : Owner} {s t : ServiceThread T} {l : Label T} {i : ℕ}

/-- The owner and the thread go on, and runs return. -/
structure Fair (owner : Owner) (b : Behaviour (step owner) (initial : ServiceThread T)) : Prop where
  executes : b.Answers
    (fun s => ∃ statement, s.next? owner = some statement ∧
      (statement = .join → s.exited = true))
    fun _ l => l = .statement
  exits : b.Answers
    (fun s => s.exited = false ∧ s.runner.stopped = true ∧ s.runner.running = none)
    fun _ l => l = .exit
  finishes : b.Answers (fun s => s.runner.running.isSome = true)
    fun _ l => ∃ continuation, l = .finish continuation

section Behaviours

variable {b : Behaviour (step owner) (initial : ServiceThread T)} {m n : ℕ}

theorem coherent_state (b : Behaviour (step owner) (initial : ServiceThread T)) (n : ℕ) :
    Coherent owner (b.state n) :=
  b.invariant .initial (fun _ _ _ coherent hstep => coherent.step hstep) n

theorem stopped_stable (hle : m ≤ n) (hstopped : (b.state m).runner.stopped = true) :
    (b.state n).runner.stopped = true :=
  b.stable (P := fun s => s.runner.stopped = true) (fun _ _ _ => stopped_of_step) hle hstopped

theorem stopped_next (hstopped : (b.state n).runner.stopped = true) :
    (b.state (n + 1)).runner.stopped = true :=
  stopped_stable (Nat.le_succ n) hstopped

/-- Once the context is stopped the run in progress is all that still runs. -/
theorem running_next (hstopped : (b.state n).runner.stopped = true) :
    (b.state (n + 1)).runner.running = (b.state n).runner.running ∨
      (b.state (n + 1)).runner.running = none := by
  rcases b.next_cases n with ⟨-, hstays⟩ | ⟨l, -, hstep⟩
  · exact .inl (by rw [hstays])
  · exact (running_of_step hstopped hstep).imp_right And.left

theorem running_stable (hstopped : (b.state m).runner.stopped = true) (hle : m ≤ n) :
    (b.state n).runner.running = (b.state m).runner.running ∨
      (b.state n).runner.running = none := by
  induction n, hle using Nat.le_induction with
  | base => exact .inl rfl
  | succ n hle ih =>
    rcases running_next (stopped_stable hle hstopped) with hsame | hnone
    · rwa [hsame]
    · exact .inr hnone

theorem leadsTo_idle (fair : Fair owner b) :
    LeadsTo (fun n => (b.state n).runner.stopped = true) fun n =>
      (b.state n).runner.stopped = true ∧ (b.state n).runner.running = none := by
  have hbusy : LeadsTo
      (fun n => (b.state n).runner.stopped = true ∧ (b.state n).runner.running.isSome = true)
      fun n => (b.state n).runner.stopped = true ∧ (b.state n).runner.running = none := by
    refine Behaviour.leadsTo_of_answers fair.finishes (fun n hn => hn.2) ?_ ?_
    · rintro n ⟨hstopped, hrunning⟩
      rcases running_next hstopped with hsame | hnone
      · exact .inl ⟨stopped_next hstopped, hsame ▸ hrunning⟩
      · exact .inr ⟨stopped_next hstopped, hnone⟩
    · rintro n l ⟨hstopped, -⟩ hlabel ⟨continuation, rfl⟩
      obtain ⟨runner, hrunner, hnext⟩ := step_finish (b.step_of_label hlabel)
      obtain ⟨task, -, rfl⟩ := TaskRunner.step_finish hrunner
      refine ⟨stopped_next hstopped, ?_⟩
      rw [hnext]
      exact TaskRunner.running_resolve
  intro n hstopped
  cases hrunning : (b.state n).runner.running with
  | none => exact ⟨n, le_rfl, hstopped, hrunning⟩
  | some task => exact hbusy n ⟨hstopped, by rw [hrunning]; rfl⟩

/-- The service thread of a context that is stopped comes to its end. -/
theorem leadsTo_exited (fair : Fair owner b) :
    LeadsTo (fun n => (b.state n).runner.stopped = true) fun n => (b.state n).exited = true := by
  refine (leadsTo_idle fair).trans ?_
  intro n hidle
  cases hexited : (b.state n).exited with
  | true => exact ⟨n, le_rfl, hexited⟩
  | false =>
    -- nothing but the thread's last step is left to it
    have hexits : LeadsTo
        (fun n => (b.state n).exited = false ∧ (b.state n).runner.stopped = true ∧
          (b.state n).runner.running = none) fun n => (b.state n).exited = true := by
      refine Behaviour.leadsTo_of_answers fair.exits (fun n hn => hn) ?_ ?_
      · rintro n ⟨-, hstopped, hnone⟩
        cases hnext : (b.state (n + 1)).exited with
        | true => exact .inr rfl
        | false =>
          refine .inl ⟨rfl, stopped_next hstopped, ?_⟩
          rcases running_next hstopped with hsame | hnone'
          · exact hsame.trans hnone
          · exact hnone'
      · rintro n l - hlabel rfl
        obtain ⟨-, -, -, hnext⟩ := step_exit (b.step_of_label hlabel)
        rw [hnext]
    exact hexits n ⟨hexited, hidle⟩

/-- The destructor has come to a statement, and the join will not block forever. -/
def Reaches (owner : Owner) (s : ServiceThread T) (i : ℕ) : Prop :=
  s.executed = some i ∧ (.stopContext ∈ owner.destructor ∨ s.runner.stopped = true)

theorem reaches_next (hreaches : Reaches owner (b.state n) i) :
    (Reaches owner (b.state (n + 1)) i ∧ b.label n ≠ some .statement) ∨
      Reaches owner (b.state (n + 1)) (i + 1) := by
  obtain ⟨hexecuted, hstops⟩ := hreaches
  have hstill := hstops.imp_right (stopped_next (n := n))
  rcases b.next_cases n with ⟨hquiet, hstays⟩ | ⟨l, hlabel, hstep⟩
  · exact .inl ⟨⟨hstays ▸ hexecuted, hstill⟩, by simp [hquiet]⟩
  · rcases executed_of_step hexecuted hstep with ⟨hsame, hother⟩ | ⟨hnext, -⟩
    · exact .inl ⟨⟨hsame, hstill⟩, fun hstatement => hother (Option.some.inj
        (hlabel.symm.trans hstatement))⟩
    · exact .inr ⟨hnext, hstill⟩

/-- A statement that does not block is executed. -/
theorem leadsTo_reaches_of_answers (P : ℕ → Prop)
    (hanswers : LeadsTo (fun n => Reaches owner (b.state n) i ∧ P n)
      fun n => ∃ l, b.label n = some l ∧ l = .statement) (kept : ∀ n, P n → P (n + 1)) :
    LeadsTo (fun n => Reaches owner (b.state n) i ∧ P n)
      fun n => Reaches owner (b.state n) (i + 1) := by
  refine .of_until hanswers ?_ ?_
  · rintro n ⟨hreaches, hP⟩
    rcases reaches_next hreaches with ⟨hstill, -⟩ | hnext
    · exact .inl ⟨hstill, kept n hP⟩
    · exact .inr hnext
  · rintro n ⟨hreaches, -⟩ ⟨l, hlabel, rfl⟩
    rcases reaches_next hreaches with ⟨-, hother⟩ | hnext
    · exact absurd hlabel hother
    · exact hnext

theorem next?_of_reaches (hreaches : Reaches owner s i) :
    s.next? owner = owner.destructor[i]? := by
  rw [next?, hreaches.1, Option.bind_some]

theorem exited_next (hexited : (b.state n).exited = true) : (b.state (n + 1)).exited = true :=
  b.keeps (P := fun s => s.exited = true) (fun _ _ _ => exited_of_step) n hexited

/-- The join is reached with the context stopped. -/
theorem stopped_of_reaches (hreaches : Reaches owner (b.state n) i)
    (hjoin : owner.destructor[i]? = some .join) : (b.state n).runner.stopped = true := by
  refine hreaches.2.elim (fun hstops => (coherent_state b n).stopped ?_) id
  rw [past, hreaches.1, Option.getD_some]
  exact stopContext_mem_of_join hstops i hjoin

/-- One statement leads to the next one. -/
theorem leadsTo_reaches (fair : Fair owner b) (hlt : i < owner.destructor.length) :
    LeadsTo (fun n => Reaches owner (b.state n) i) fun n => Reaches owner (b.state n) (i + 1) := by
  have hstatement := List.getElem?_eq_getElem hlt
  by_cases hjoin : owner.destructor[i] = .join
  · -- the join waits for the thread
    have hexits : LeadsTo (fun n => Reaches owner (b.state n) i) fun n =>
        Reaches owner (b.state n) (i + 1) ∨
          Reaches owner (b.state n) i ∧ (b.state n).exited = true := by
      refine .of_until (S := fun n => (b.state n).exited = true) ?_ ?_ ?_
      · exact (leadsTo_exited fair).mono
          (fun n hreaches => stopped_of_reaches hreaches (hstatement.trans (congrArg some hjoin)))
          fun n => id
      · intro n hreaches
        exact (reaches_next hreaches).imp And.left .inl
      · intro n hreaches hexited
        rcases reaches_next hreaches with ⟨hstill, -⟩ | hnext
        · exact .inr ⟨hstill, exited_next hexited⟩
        · exact .inl hnext
    refine hexits.cases (leadsTo_reaches_of_answers _ ?_ fun n => exited_next)
    rintro n ⟨hreaches, hexited⟩
    exact fair.executes n ⟨_, (next?_of_reaches hreaches).trans hstatement, fun _ => hexited⟩
  · refine (leadsTo_reaches_of_answers (fun _ => True) ?_ fun n => id).mono
      (fun n hreaches => ⟨hreaches, trivial⟩) fun n => id
    rintro n ⟨hreaches, -⟩
    exact fair.executes n ⟨_, (next?_of_reaches hreaches).trans hstatement,
      fun hnext => absurd hnext hjoin⟩

/-- So a destructor that has begun returns. -/
theorem leadsTo_returned (fair : Fair owner b) (hle : i ≤ owner.destructor.length) :
    LeadsTo (fun n => Reaches owner (b.state n) i) fun n => (b.state n).Returned owner := by
  induction hle using Nat.decreasingInduction with
  | self => exact .of_imp fun n hreaches => hreaches.1
  | of_succ i hlt ih => exact (leadsTo_reaches fair hlt).trans ih

theorem exited_of_returned (hreturned : (b.state n).Returned owner) :
    (b.state n).exited = true := by
  refine (coherent_state b n).joined ?_
  rw [past, hreturned, Option.getD_some, List.take_length]
  exact join_mem_destructor owner

/-- A context that is stopped has been stopped by someone. -/
theorem exists_stop (hstopped : (b.state n).runner.stopped = true) :
    .stopContext ∈ owner.destructor ∨ ∃ m, b.label m = some .stop := by
  induction n with
  | zero =>
    rw [b.start] at hstopped
    cases hstopped
  | succ n ih =>
    cases hbefore : (b.state n).runner.stopped with
    | true => exact ih hbefore
    | false =>
      rcases b.next_cases n with ⟨-, hstays⟩ | ⟨l, hlabel, hstep⟩
      · rw [hstays, hbefore] at hstopped
        cases hstopped
      · rcases (coherent_state b n).stops_of_step hstep hbefore hstopped with hself | rfl
        · exact .inl hself
        · exact .inr ⟨n, hlabel⟩

/-- After the destructor has returned nothing happens. -/
theorem rests_of_returned (hreturned : (b.state n).Returned owner) :
    b.state (n + 1) = b.state n := by
  have hidle := ((coherent_state b n).exited (exited_of_returned hreturned)).2
  rcases b.next_cases n with ⟨-, hstays⟩ | ⟨l, hlabel, hstep⟩
  · exact hstays
  · exfalso
    rcases step_cases hstep with ⟨runner, serves, -⟩ | ⟨-, hserving, -⟩ | ⟨-, hnew, -⟩ |
      ⟨-, i, statement, hexecuted, hnext, -⟩
    · rcases serves.quiet hidle with hserving | ⟨hnew, -⟩
      · cases hserving.symm.trans (exited_of_returned hreturned)
      · cases hnew.symm.trans hreturned
    · cases hserving.symm.trans (exited_of_returned hreturned)
    · cases hnew.symm.trans hreturned
    · obtain rfl := Option.some.inj (hexecuted.symm.trans hreturned)
      simp at hnext

/-! ## What a destructor comes to -/

/-- The destructor has begun. -/
def Begun (owner : Owner) (s : ServiceThread T) : Prop :=
  ∃ i ≤ owner.destructor.length, s.executed = some i

theorem Begun.step (begun : Begun owner s) (hstep : s.step owner l = some t) : Begun owner t := by
  obtain ⟨i, hle, hexecuted⟩ := begun
  rcases executed_of_step hexecuted hstep with ⟨hsame, -⟩ | ⟨hnext, rfl⟩
  · exact ⟨i, hle, hsame⟩
  · obtain ⟨j, statement, hj, hstatement, -⟩ := step_statement hstep
    obtain rfl := Option.some.inj (hexecuted.symm.trans hj)
    exact ⟨i + 1, (List.getElem?_eq_some_iff.mp hstatement).1, hnext⟩

theorem begun_of_begins (hbegins : b.label n = some .beginDestructor) :
    Begun owner (b.state (n + 1)) := by
  obtain ⟨-, hnext⟩ := step_beginDestructor (b.step_of_label hbegins)
  exact ⟨0, Nat.zero_le _, by rw [hnext]⟩

theorem begun_stable (hle : m ≤ n) (begun : Begun owner (b.state m)) : Begun owner (b.state n) :=
  b.stable (P := Begun owner) (fun _ _ _ begun hstep => begun.step hstep) hle begun

theorem stopped_of_stop (hstop : b.label n = some .stop) :
    (b.state (n + 1)).runner.stopped = true := by
  rcases step_cases (b.step_of_label hstop) with ⟨runner, serves, hnext⟩ | ⟨hl, -⟩ | ⟨hl, -⟩ |
    ⟨hl, -⟩
  · rw [hnext]
    exact serves.stopped.mpr (.inr rfl)
  all_goals cases hl

/-- It returns if and only if the context is stopped, by itself or by a caller. -/
theorem returns_iff (fair : Fair owner b) (hbegins : b.label n = some .beginDestructor) :
    (∃ k, (b.state k).Returned owner) ↔
      .stopContext ∈ owner.destructor ∨ ∃ k, b.label k = some .stop := by
  constructor
  · rintro ⟨k, hreturned⟩
    exact exists_stop ((coherent_state b k).exited (exited_of_returned hreturned)).1
  · intro hstops
    have hreaches : ∃ k i, i ≤ owner.destructor.length ∧ Reaches owner (b.state k) i := by
      have hbegun := begun_of_begins hbegins
      rcases hstops with hself | ⟨k, hstop⟩
      · obtain ⟨i, hle, hexecuted⟩ := hbegun
        exact ⟨n + 1, i, hle, hexecuted, .inl hself⟩
      · obtain ⟨i, hle, hexecuted⟩ := begun_stable (Nat.le_max_left (n + 1) (k + 1)) hbegun
        have hstopped := stopped_stable (Nat.le_max_right (n + 1) (k + 1)) (stopped_of_stop hstop)
        exact ⟨max (n + 1) (k + 1), i, hle, hexecuted, .inr hstopped⟩
    obtain ⟨k, i, hle, hreaches⟩ := hreaches
    obtain ⟨m, -, hreturned⟩ := leadsTo_returned fair hle k hreaches
    exact ⟨m, hreturned⟩

/-- `m_isAlive` ends in the step. -/
def EndsIsAlive (b : Behaviour (step owner) (initial : ServiceThread T)) (n : ℕ) : Prop :=
  b.label n = some .statement ∧ (b.state n).next? owner = some .endIsAlive

/-- The step reads `m_isAlive`. -/
def ReadsIsAlive (b : Behaviour (step owner) (initial : ServiceThread T)) (n : ℕ) : Prop :=
  ∃ l, b.label n = some l ∧ l.ReadsIsAlive

/-- A run that is in progress when `m_isAlive` ends reads it afterwards. -/
def RunsOn (b : Behaviour (step owner) (initial : ServiceThread T)) (m n : ℕ) : Prop :=
  EndsIsAlive b m ∧ m ≤ n ∧ (b.state m).runner.running.isSome = true ∧
    (b.state n).runner.running = (b.state m).runner.running ∧ ReadsIsAlive b n

theorem ended_next (n : ℕ) : (b.state (n + 1)).holdsIsAlive = false ↔
    (b.state n).holdsIsAlive = false ∨ EndsIsAlive b n := by
  rcases b.next_cases n with ⟨hquiet, hstays⟩ | ⟨l, hlabel, hstep⟩
  · simp [EndsIsAlive, hquiet, hstays]
  · rw [ended_of_step hstep, EndsIsAlive, hlabel, Option.some_inj]

theorem ended_iff : (b.state n).holdsIsAlive = false ↔ ∃ m < n, EndsIsAlive b m := by
  induction n with
  | zero => simp [b.start, initial]
  | succ n ih =>
    rw [ended_next, ih]
    constructor
    · rintro (⟨m, hlt, hends⟩ | hends)
      · exact ⟨m, Nat.lt_succ_of_lt hlt, hends⟩
      · exact ⟨n, Nat.lt_succ_self n, hends⟩
    · rintro ⟨m, hlt, hends⟩
      rcases Nat.lt_succ_iff_lt_or_eq.mp hlt with hbefore | rfl
      · exact .inl ⟨m, hbefore, hends⟩
      · exact .inr hends

/-- Only a run in progress uses an object whose destructor has begun. -/
theorem running_of_reads (hreads : ReadsIsAlive b n) (begun : (b.state n).executed ≠ none) :
    (b.state n).runner.running.isSome = true := by
  obtain ⟨l, hlabel, hreads⟩ := hreads
  have hstep := b.step_of_label hlabel
  cases l with
  | postDelayed task delay =>
    simp only [step] at hstep
    split_ifs at hstep with hguard
    exact hguard.1.resolve_left begun
  | finish continuation =>
    obtain ⟨runner, hrunner, -⟩ := step_finish hstep
    obtain ⟨task, hrunning, -⟩ := TaskRunner.step_finish hrunner
    rw [hrunning]
    rfl
  | _ => exact absurd hreads id

/-- `m_isAlive` is read after its end if and only if a run in progress outlives it and
then reads it. -/
theorem late_iff : (∃ n, ReadsIsAlive b n ∧ (b.state n).holdsIsAlive = false) ↔
    ∃ m n, RunsOn b m n := by
  constructor
  · rintro ⟨n, hreads, hended⟩
    obtain ⟨m, hlt, hends⟩ := ended_iff.mp hended
    have hafter : (b.state (m + 1)).holdsIsAlive = false := (ended_next m).mpr (.inr hends)
    obtain ⟨i, statement, hexecuted, hstatement, -, hnext⟩ :=
      step_statement (b.step_of_label hends.1)
    have hsame : (b.state (m + 1)).runner = (b.state m).runner := by
      have hendsIsAlive := hends.2
      rw [next?, hexecuted, Option.bind_some, hstatement] at hendsIsAlive
      obtain rfl := Option.some.inj hendsIsAlive
      rw [hnext]
      rfl
    have hbegun : Begun owner (b.state m) :=
      ⟨i, (List.getElem?_eq_some_iff.mp hstatement).1.le, hexecuted⟩
    obtain ⟨j, -, hlater⟩ := begun_stable hlt.le hbegun
    -- once the destructor has begun only a run in progress still reads the flag
    have hrunning := running_of_reads hreads (by simp [hlater])
    -- no run begins after the stop, so it is the one from before the end
    have hstill : (b.state n).runner.running = (b.state m).runner.running := by
      rw [← hsame]
      refine (running_stable ((coherent_state b (m + 1)).stopped_of_ended hafter) hlt).resolve_right
        fun hnone => ?_
      rw [hnone] at hrunning
      cases hrunning
    exact ⟨m, n, hends, hlt.le, hstill ▸ hrunning, hstill, hreads⟩
  · rintro ⟨m, n, hends, hle, -, -, hreads⟩
    refine ⟨n, hreads, ended_iff.mpr ⟨m, lt_of_le_of_ne hle ?_, hends⟩⟩
    rintro rfl
    obtain ⟨l, hlabel, hl⟩ := hreads
    obtain rfl := Option.some.inj (hlabel.symm.trans hends.1)
    exact hl

/-- What the end of an object comes to. -/
structure Ends (owner : Owner) (b : Behaviour (step owner) (initial : ServiceThread T)) :
    Prop where
  returns : (∃ n, (b.state n).Returned owner) ↔
    .stopContext ∈ owner.destructor ∨ ∃ n, b.label n = some .stop
  /-- Then no run is in progress, and none follows. -/
  rests : ∀ m n, (b.state m).Returned owner → m ≤ n →
    (b.state m).runner.running = none ∧ b.state n = b.state m
  /-- After the stop nothing begins to run. -/
  last_run : ∀ m n, (b.state m).runner.stopped = true → m ≤ n →
    (b.state n).runner.running = (b.state m).runner.running ∨ (b.state n).runner.running = none
  reads : (∃ n, ReadsIsAlive b n ∧ (b.state n).holdsIsAlive = false) ↔ ∃ m n, RunsOn b m n

/-- **In every fair behaviour a destructor that has begun returns if and only if it stops the
context or a caller does; then nothing runs any more; and `m_isAlive` is read after its end if
and only if a run outlives it that then asks for a timer.** -/
theorem ends_of_fair (b : Behaviour (step owner) (initial : ServiceThread T)) (fair : Fair owner b)
    (n : ℕ) (hbegins : b.label n = some .beginDestructor) : Ends owner b := by
  refine ⟨returns_iff fair hbegins, ?_, fun m n hstopped hle => running_stable hstopped hle,
    late_iff⟩
  intro m n hreturned hle
  have hidle := ((coherent_state b m).exited (exited_of_returned hreturned)).2
  have hrests : b.state n = b.state m := by
    induction n, hle using Nat.le_induction with
    | base => rfl
    | succ n _ ih => exact (rests_of_returned (ih ▸ hreturned)).trans ih
  exact ⟨hidle, hrests⟩

end Behaviours

/-- The task runner is destroyed while a run is in progress that asks to be run again. -/
def destroyDuringRun : List (Label ℕ) :=
  [.post 0, .run 0, .beginDestructor, .statement, .statement, .statement,
    .finish (.runAgainDelayed 1000), .statement, .exit, .statement, .statement, .statement]

theorem ends_destroyDuringRun :
    ∃ b : Behaviour (step taskRunner) (initial : ServiceThread ℕ), Fair taskRunner b ∧
      b.label 2 = some .beginDestructor ∧ RunsOn b 5 6 ∧ Ends taskRunner b := by
  have hexec := Option.some_get
    (x := exec (step taskRunner) (initial : ServiceThread ℕ) destroyDuringRun) (by decide)
  have fair : Fair taskRunner (Behaviour.ofExec hexec.symm) := by
    constructor
    -- the statements are executed
    · refine Behaviour.answers_ofExec ?_ ?_
      · rintro ⟨statement, hnext, -⟩
        cases hnext
      · intro n hn _
        exact ⟨11, by decide, Nat.le_of_lt_succ hn, rfl⟩
    -- the thread ends
    · refine Behaviour.answers_ofExec (by decide) ?_
      rintro n hn ⟨hserving, -⟩
      change n < 12 at hn
      rcases Nat.lt_or_ge 8 n with hafter | hbefore
      · interval_cases n
        all_goals cases hserving
      · exact ⟨8, by decide, hbefore, rfl⟩
    -- the run returns
    · refine Behaviour.answers_ofExec (by decide) ?_
      intro n hn hrunning
      change n < 12 at hn
      rcases Nat.lt_or_ge 6 n with hafter | hbefore
      · interval_cases n
        all_goals cases hrunning
      · exact ⟨6, by decide, hbefore, _, rfl⟩
  have hrunsOn : RunsOn (Behaviour.ofExec hexec.symm) 5 6 :=
    ⟨⟨rfl, rfl⟩, by decide, rfl, rfl, _, rfl, trivial⟩
  exact ⟨_, fair, rfl, hrunsOn, ends_of_fair _ fair 2 rfl⟩

end NetDiscovery.Util.ServiceThread
