/-
# Destroying a discovery task

The tasks on the runner hold raw pointers: the scanner's task to the scanner, the
resolver of a call to the discovery task. The destructor stops neither; it destroys the
pending promises with the scanner. So a resolver that still waits for its future finds
it broken and only writes to the log. But a task of the scanner reads the scanner by the
first statement of its next run, and a resolver whose future already holds an outcome
hands it to the discovery task.

What a statement does to an object that is gone has no meaning. The model lets it go on,
and the results are about the first such statement.
-/

import NetDiscovery.Services.DiscoveryProgress

namespace NetDiscovery.Services

open NetDiscovery.Net NetDiscovery.Net.IcmpScanner NetDiscovery.Semantics NetDiscovery.Util

/-- A discovery task, and whether its owner has destroyed it. -/
structure OwnedTask where
  system : DiscoverySystem
  destroyed : Bool

namespace OwnedTask

/-- A new discovery task. -/
def initial (now : TimePoint) : OwnedTask where
  system := .initial now
  destroyed := false

inductive Label
  | statement (a : DiscoverySystem.Label)
  /-- `~IcmpDeviceDiscoveryTask` -/
  | destroy

/-- The statement of a step. -/
def Label.statement? : Label → Option DiscoverySystem.Label
  | .statement a => some a
  | .destroy => none

/-- The statements of those who call the discovery task. -/
def ofCaller : DiscoverySystem.Label → Bool
  | .scan (.setClock _) | .scan (.receive _) | .scan .push | .runner _ | .body => false
  | _ => true

variable (s : OwnedTask)

/-- The task is gone, and its pending promises with it. -/
def destroy : OwnedTask where
  system := { s.system with scanner := { s.system.scanner with
    table := s.system.scanner.table.clear } }
  destroyed := true

/-- The owner destroys the task when no call of `startScanning` is in progress, and
calls it no more. -/
def step (parser : Parser) (s : OwnedTask) : Label → Option OwnedTask
  | .statement a =>
    if s.destroyed && ofCaller a then none
    else (s.system.step parser a).map fun system => { s with system := system }
  | .destroy =>
    if s.destroyed = false ∧ s.system.starting = 0 then some s.destroy else none

/-- A run executes a statement that uses the scanner or the discovery task after both
are gone. -/
def Touches (s : OwnedTask) : Label → Prop
  | .statement .body => s.destroyed = true ∧
    (s.system.runner.running = some .pingResolver ∨
      ∃ c outcome, s.system.runner.running = some (.icmpPingResolver c) ∧
        s.system.scanner.futureState c = .value outcome)
  | _ => False

end OwnedTask

namespace DiscoverySystem

/-- The runner has a task of the scanner, or a resolver with an outcome to hand over. -/
def Referenced (s : DiscoverySystem) : Prop :=
  s.remaining .pingResolver ≠ 0 ∨
    ∃ c outcome, s.Waiting c ∧ s.scanner.futureState c = .value outcome

end DiscoverySystem

namespace OwnedTask

variable {s t : OwnedTask} {parser : Parser} {a : Label} {now : TimePoint} {c n N : ℕ}

theorem step_statement {b : DiscoverySystem.Label}
    (hstep : s.step parser (.statement b) = some t) :
    (s.destroyed = true → ofCaller b = false) ∧ s.system.step parser b = some t.system ∧
      t.destroyed = s.destroyed := by
  simp only [step] at hstep
  split_ifs at hstep with hcaller
  obtain ⟨system, hsystem, rfl⟩ := Option.map_eq_some_iff.mp hstep
  refine ⟨fun hdestroyed => ?_, hsystem, rfl⟩
  simpa [hdestroyed] using hcaller

theorem step_destroy (hstep : s.step parser .destroy = some t) :
    s.destroyed = false ∧ s.system.starting = 0 ∧ t = s.destroy := by
  simp only [step] at hstep
  split_ifs at hstep with hquiet
  exact ⟨hquiet.1, hquiet.2, (Option.some.inj hstep).symm⟩

/-! ## The moment of destruction -/

/-- What a future holds when the task is destroyed. -/
theorem futureState_destroy (hregistered : ∃ p, s.system.scanner.futures c = some p)
    (consistent : s.system.scanner.Consistent) :
    s.destroy.system.scanner.futureState c = (s.system.scanner.futureState c).abandoned := by
  obtain ⟨p, hfuture⟩ := hregistered
  have hlt := consistent.future_lt c p hfuture
  have hfuture' : s.destroy.system.scanner.futures c = some p := hfuture
  simp only [System.futureState, hfuture, hfuture']
  change s.system.scanner.table.clear.future p = (s.system.scanner.table.future p).abandoned
  cases hstate : s.system.scanner.table.future p with
  | unset => exact PendingTable.future_clear_of_unset hlt hstate
  | value | broken =>
    exact (PendingTable.future_clear_of_settled (by simp [hstate])).trans hstate

theorem sound_destroy (sound : s.system.Sound) : s.destroy.system.Sound :=
  { sound with
    consistent :=
      { sound.consistent with
        routed := fun _ _ _ key _ _ _ hentry => by
          have hnone : s.system.scanner.table.clear.lookup key = none :=
            PendingTable.lookup_clear
          cases hnone.symm.trans hentry } }

theorem sound_of_step (sound : s.system.Sound) (hstep : s.step parser a = some t) :
    t.system.Sound := by
  cases a with
  | statement b => exact sound.step (step_statement hstep).2.1
  | destroy =>
    obtain ⟨-, -, rfl⟩ := step_destroy hstep
    exact sound_destroy sound

theorem destroyed_of_step (hdestroyed : s.destroyed = true) (hstep : s.step parser a = some t) :
    t.destroyed = true ∧ ∃ b, a = .statement b ∧ ofCaller b = false ∧
      s.system.step parser b = some t.system := by
  cases a with
  | statement b =>
    obtain ⟨hcaller, hsystem, hsame⟩ := step_statement hstep
    exact ⟨hsame.trans hdestroyed, b, rfl, hcaller hdestroyed, hsystem⟩
  | destroy =>
    obtain ⟨hnot, -⟩ := step_destroy hstep
    cases hdestroyed.symm.trans hnot

/-! ## A task that nothing refers to -/

/-- A statement of a run is executed before the run returns. -/
theorem phase_of_body {v w : DiscoverySystem} (hbody : v.body parser = some w) :
    v.phase ≠ .returning .ended := by
  cases DiscoverySystem.bodyStep_of_body hbody with
  | poll _ hphase | pop _ hphase | handle _ hphase | sweep _ hphase | resolve _ hphase =>
    simp [hphase]

/-- The scanner gets no new task from those that do not call it. -/
theorem remaining_le_of_step {v w : DiscoverySystem} {b : DiscoverySystem.Label} (sound : v.Sound)
    (hcaller : ofCaller b = false) (hstep : v.step parser b = some w) :
    w.remaining .pingResolver ≤ v.remaining .pingResolver ∧ w.starting = v.starting := by
  cases b with
  | scan a =>
    obtain ⟨-, scanner, -, rfl⟩ := DiscoverySystem.step_scan hstep
    exact ⟨le_rfl, rfl⟩
  | runner b =>
    refine ⟨(DiscoverySystem.remaining_of_runner sound.not_stopped sound.isAlive (by simp)
      hstep).le, ?_⟩
    obtain ⟨-, runner, -, rfl⟩ := DiscoverySystem.step_runner hstep
    rfl
  | body =>
    have hphase := phase_of_body hstep
    have hrunner : w.runner = v.runner ∧ w.starting = v.starting := by
      cases DiscoverySystem.bodyStep_of_body hstep <;> simp
    have hremaining := DiscoverySystem.remaining_of_body hrunner.1 hphase .pingResolver
    exact ⟨by omega, hrunner.2⟩
  | startScanning | postPingResolver | postRequest | clearResults | clearResult => cases hcaller

/-- The task is gone, and what the runner has left of it does not need it. -/
structure Unreferenced (s : OwnedTask) : Prop where
  destroyed : s.destroyed = true
  starting : s.system.starting = 0
  no_scan : s.system.remaining .pingResolver = 0
  broken : ∀ c, s.system.Waiting c → s.system.scanner.futureState c = .broken

/-- What a future holds it keeps. -/
theorem futureState_of_step {v w : DiscoverySystem} {b : DiscoverySystem.Label}
    (hset : v.scanner.futureState c ≠ .unset) (hstep : v.step parser b = some w) :
    w.scanner.futureState c = v.scanner.futureState c := by
  rcases DiscoverySystem.scanner_of_step hstep with ⟨b, -, hscan⟩ | hsame
  · cases hfuture : v.scanner.futures c with
    | none => simp [System.futureState, hfuture] at hset
    | some p =>
      have hfuture' := (System.call_of_step hscan).2 c p hfuture
      simp only [System.futureState, hfuture, hfuture'] at hset ⊢
      exact (System.extends_of_step hscan).settled p hset
  · rw [hsame]

/-- The step lemma. -/
theorem Unreferenced.step (unreferenced : Unreferenced s) (sound : s.system.Sound)
    (hstep : s.step parser a = some t) : Unreferenced t ∧ ¬ s.Touches a := by
  obtain ⟨hdestroyed, b, rfl, hcaller, hsystem⟩ := destroyed_of_step unreferenced.destroyed hstep
  have hpost : ∀ c, b ≠ .postRequest c := by
    rintro c rfl
    cases hcaller
  obtain ⟨hremaining, hstarting⟩ := remaining_le_of_step sound hcaller hsystem
  refine ⟨⟨hdestroyed, hstarting.trans unreferenced.starting,
    Nat.le_zero.mp (hremaining.trans unreferenced.no_scan.le), fun c hwaiting => ?_⟩, ?_⟩
  · have hbroken := unreferenced.broken c
      ((DiscoverySystem.waiting_of_step sound hsystem (hpost c)).mp hwaiting).1
    rw [futureState_of_step (by simp [hbroken]) hsystem, hbroken]
  · intro htouches
    cases b with
    | body =>
      have hphase := phase_of_body hsystem
      obtain ⟨-, hrunning | ⟨c, outcome, hrunning, hvalue⟩⟩ := htouches
      · exact DiscoverySystem.remaining_ne_zero_iff.mpr (.inr ⟨hrunning, hphase⟩)
          unreferenced.no_scan
      · cases hvalue.symm.trans
          (unreferenced.broken c (DiscoverySystem.waiting_of_running hrunning hphase))
    | scan | startScanning | postPingResolver | postRequest | clearResults | clearResult
    | runner => exact htouches

/-- A task that is destroyed while nothing refers to it. -/
theorem unreferenced_destroy (sound : s.system.Sound) (hstarting : s.system.starting = 0)
    (hnot : ¬ s.system.Referenced) : Unreferenced s.destroy where
  destroyed := rfl
  starting := hstarting
  no_scan := by
    by_contra halive
    exact hnot (.inl halive)
  broken c hwaiting := by
    have hsame : s.system.Waiting c := hwaiting
    have hregistered := sound.registered c (sound.posted_of_waiting hsame)
    rw [futureState_destroy hregistered sound.consistent]
    cases hstate : s.system.scanner.futureState c with
    | unset | broken => rfl
    | value outcome => exact absurd (.inr ⟨c, outcome, hsame, hstate⟩) hnot

/-! ## Fair runs -/

/-- The runner is fair, as without an owner. -/
structure Fair (e : Execution (step parser) (initial now)) : Prop where
  run : ∀ job, e.Answers (fun s => job ∈ s.system.runner.queue) fun s a =>
    ∃ b ∈ a.statement?, DiscoverySystem.Runs job s.system b
  expire : ∀ job, e.Answers (fun s => job ∈ s.system.runner.timers.map Prod.fst) fun s a =>
    ∃ b ∈ a.statement?, DiscoverySystem.Expires job s.system b
  proceed : e.Answers (fun s => s.system.runner.running.isSome) fun _ a =>
    ∃ b ∈ a.statement?, DiscoverySystem.Proceeds b

section Fair

variable {e : Execution (step parser) (initial now)}

theorem sound_of_execution (e : Execution (step parser) (initial now)) (n : ℕ) :
    (e.state n).system.Sound :=
  (e.run n).invariant (I := fun s => s.system.Sound) (DiscoverySystem.sound_initial now)
    fun _ _ _ sound hstep => sound_of_step sound hstep

/-- The task stays destroyed, and its callers are gone. -/
theorem statement_of_destroyed (hdestroyed : (e.state N).destroyed = true) (hle : N ≤ n) :
    ∃ b, e.label n = .statement b ∧
      (e.state n).system.step parser b = some (e.state (n + 1)).system := by
  have hstays : (e.state n).destroyed = true :=
    e.stable (P := fun s => s.destroyed = true)
      (fun _ _ _ hprior hstep => (destroyed_of_step hprior hstep).1) hdestroyed hle
  obtain ⟨-, b, hlabel, -, hsystem⟩ := destroyed_of_step hstays (e.next n)
  exact ⟨b, hlabel, hsystem⟩

/-- What the runner does from then on. -/
def afterwards (e : Execution (step parser) (initial now))
    (hdestroyed : (e.state N).destroyed = true) :
    Execution (DiscoverySystem.step parser) (e.state N).system where
  state n := (e.state (N + n)).system
  label n := (e.label (N + n)).statement?.getD .clearResults
  start := rfl
  next n := by
    obtain ⟨b, hlabel, hsystem⟩ := statement_of_destroyed hdestroyed (Nat.le_add_right N n)
    rw [hlabel]
    exact hsystem

/-- What is answered in the run is answered from then on. -/
theorem answers_afterwards (hdestroyed : (e.state N).destroyed = true)
    {request : DiscoverySystem → Prop} {answer : DiscoverySystem → DiscoverySystem.Label → Prop}
    (fair : e.Answers (fun s => request s.system)
      fun s a => ∃ b ∈ a.statement?, answer s.system b) :
    (afterwards e hdestroyed).Answers request answer := by
  intro n hrequest
  obtain ⟨m, hle, b, hb, hanswer⟩ := fair (N + n) hrequest
  obtain ⟨k, rfl⟩ := Nat.exists_eq_add_of_le ((Nat.le_add_right N n).trans hle)
  refine ⟨k, by omega, ?_⟩
  change answer (e.state (N + k)).system ((e.label (N + k)).statement?.getD .clearResults)
  rw [Option.mem_def.mp hb]
  exact hanswer

theorem Fair.afterwards (fair : Fair e) (hdestroyed : (e.state N).destroyed = true) :
    DiscoverySystem.Fair (afterwards e hdestroyed) where
  run job := answers_afterwards hdestroyed (fair.run job)
  expire job := answers_afterwards hdestroyed (fair.expire job)
  proceed := answers_afterwards hdestroyed fair.proceed

/-- A task that is entered after the destruction, and needs what is gone, uses it. -/
theorem touches_of_remaining (fair : Fair e) (hdestroyed : (e.state N).destroyed = true)
    (job : Job) (hown : ∀ number, job ≠ .other number)
    (halive : (e.state N).system.remaining job ≠ 0)
    (hneeds : ∀ n, N ≤ n → (e.state n).system.runner.running = some job →
      Touches (e.state n) (.statement .body)) :
    ∃ n, Touches (e.state n) (e.label n) := by
  have sound := sound_of_execution e N
  have hfair := fair.afterwards hdestroyed
  have hentered := DiscoverySystem.entered_of_remaining hfair sound job hown
  -- the run that is entered executes its body, and that needs what is gone
  have htouches := hentered.trans (DiscoverySystem.leadsTo_of_busy hfair
    (Q := fun _ => ∃ n, Touches (e.state n) (e.label n)) ?_ ?_ ?_ ?_)
  · obtain ⟨-, -, hdone⟩ := htouches 0 halive
    exact hdone
  · exact fun n hn => ⟨_, hn.1⟩
  · rintro n ⟨hrunning, hphase⟩ hsame hstill -
    exact ⟨hsame.trans hrunning, hstill.trans hphase⟩
  · rintro n ⟨hrunning, -⟩ hlabel -
    refine ⟨N + n, ?_⟩
    obtain ⟨b, hb, -⟩ := statement_of_destroyed hdestroyed (Nat.le_add_right N n)
    have hbody : b = .body := by
      change (e.label (N + n)).statement?.getD .clearResults = .body at hlabel
      rwa [hb] at hlabel
    rw [hb, hbody]
    exact hneeds (N + n) (Nat.le_add_right N n) hrunning
  · rintro n continuation ⟨hrunning, hphase⟩ hstep
    exact absurd hstep (DiscoverySystem.not_finish_of_phase hrunning hown (by simp [hphase]))

/-- **In a fair run, a statement uses the scanner or the discovery task after their
destruction if and only if, at that moment, the runner has a task of the scanner or a
resolver whose outcome has not been handed over.** -/
theorem touches_iff (e : Execution (step parser) (initial now)) (fair : Fair e) (N : ℕ)
    (hdestroy : e.label N = .destroy) :
    (∃ n, Touches (e.state n) (e.label n)) ↔ (e.state N).system.Referenced := by
  have sound := sound_of_execution e N
  have hstep := e.next N
  rw [hdestroy] at hstep
  obtain ⟨hbefore, hstarting, hnext⟩ := step_destroy hstep
  have hdestroyed : (e.state (N + 1)).destroyed = true := by rw [hnext]; rfl
  constructor
  · rintro ⟨n, htouches⟩
    by_contra hnot
    -- nothing is destroyed before, and nothing refers to the task afterwards
    have hafter : N + 1 ≤ n := by
      by_contra hlt
      have halive : (e.state n).destroyed = true := by
        unfold Touches at htouches
        split at htouches
        · exact htouches.1
        · exact htouches.elim
      have hstays := e.stable (P := fun s => s.destroyed = true)
        (fun _ _ _ hprior hstep => (destroyed_of_step hprior hstep).1) halive (n := N) (by omega)
      cases hbefore.symm.trans hstays
    have hunreferenced : Unreferenced (e.state n) := by
      have hfirst : Unreferenced (e.state (N + 1)) :=
        hnext ▸ unreferenced_destroy sound hstarting hnot
      clear htouches
      induction n, hafter using Nat.le_induction with
      | base => exact hfirst
      | succ n _ ih => exact (ih.step (sound_of_execution e n) (e.next n)).1
    exact (hunreferenced.step (sound_of_execution e n) (e.next n)).2 htouches
  · rintro (halive | ⟨c, outcome, hwaiting, hvalue⟩)
    · refine touches_of_remaining fair hdestroyed .pingResolver (by simp) ?_ ?_
      · rw [hnext]
        exact halive
      · intro n hle hrunning
        refine ⟨?_, .inl hrunning⟩
        exact e.stable (P := fun s => s.destroyed = true)
          (fun _ _ _ hprior hstep => (destroyed_of_step hprior hstep).1) hdestroyed hle
    · refine touches_of_remaining fair hdestroyed (.icmpPingResolver c) (by simp) ?_ ?_
      · rw [hnext]
        exact hwaiting
      · intro n hle hrunning
        have hstays := e.stable
          (P := fun s => s.destroyed = true ∧ s.system.scanner.futureState c = .value outcome)
          (fun v a w hprior hstep => ?_) ⟨hdestroyed, ?_⟩ hle
        · exact ⟨hstays.1, .inr ⟨c, outcome, hrunning, hstays.2⟩⟩
        · obtain ⟨hgone, b, -, -, hsystem⟩ := destroyed_of_step hprior.1 hstep
          exact ⟨hgone, (futureState_of_step (by simp [hprior.2]) hsystem).trans hprior.2⟩
        · have hregistered := sound.registered c (sound.posted_of_waiting hwaiting)
          rw [hnext, futureState_destroy hregistered sound.consistent, hvalue]
          rfl

end Fair

/-- A scanner is stopped, and the task is destroyed while a call waits for its answer. -/
def destroyedInTime : List Label :=
  [.statement (.scan (.send 0 (.ofOctets 10 0 0 7) false)), .statement (.scan (.register 0)),
    .statement (.postRequest 0), .statement .startScanning, .statement .postPingResolver,
    .statement (.runner (.run 1)), .statement (.scan .stop), .statement .body,
    .statement (.runner (.finish .ended)), .statement (.runner (.run 0)), .statement .body,
    .statement (.runner (.finish (.runAgainDelayed 1000))), .destroy,
    .statement (.runner (.expire 0)), .statement (.runner (.run 0)), .statement .body,
    .statement (.runner (.finish .ended))]

/-- Nothing is left to do. -/
def idleRound : List Label :=
  [.statement (.scan (.setClock 0))]

theorem exec_idleRound (hclock : s.system.scanner.clock = 0) :
    exec (step parser) s idleRound = some s := by
  rw [idleRound, ← hclock]
  simp [exec, step, ofCaller, DiscoverySystem.step, DiscoverySystem.outside,
    DiscoverySystem.scan, System.step]

abbrev destroyedForever : List Label :=
  destroyedInTime ++ idleRound

/-- The states that such a task goes through. -/
abbrev destroyedForeverAt (i : ℕ) : OwnedTask :=
  Lasso.stateAt (step Packet.parse) (initial 0) destroyedForever i

theorem touches_iff_destroyedInTime :
    ∃ e : Execution (step Packet.parse) (initial 0), Fair e ∧ e.label 12 = .destroy ∧
      ((∃ n, Touches (e.state n) (e.label n)) ↔ (e.state 12).system.Referenced) := by
  have hend := Option.some_get
    (x := exec (step Packet.parse) (initial 0) destroyedInTime) (by decide)
  have hround : exec (step Packet.parse) _ idleRound = some _ := exec_idleRound
    (s := (exec (step Packet.parse) (initial 0) destroyedInTime).get (by decide)) (by decide)
  have hexec : exec (step Packet.parse) (initial 0) destroyedForever = _ :=
    exec_append destroyedInTime idleRound
  rw [← hend, Option.bind_some, hround] at hexec
  have htake : destroyedForever.take 17 = destroyedInTime := List.take_left' rfl
  have hloop := (congrArg (exec (step Packet.parse) (initial 0)) htake).trans hend.symm
  have hback : 17 < destroyedForever.length := by decide
  have fair : Fair (Execution.ofLasso hexec hloop hback) := by
    refine ⟨fun job => ?_, fun job => ?_, ?_⟩
    · have hruns : ∀ i < destroyedForever.length,
          ∀ job ∈ (destroyedForeverAt i).system.runner.queue,
          ∃ j, ∃ hj : j < destroyedForever.length,
            min i 17 ≤ j ∧
            ∃ b ∈ (destroyedForever.get ⟨j, hj⟩).statement?,
              DiscoverySystem.Runs job (destroyedForeverAt j).system b := by
        decide +kernel
      exact Execution.answers_ofLasso fun i hi => hruns i hi job
    · have hexpires : ∀ i < destroyedForever.length,
          ∀ job ∈ (destroyedForeverAt i).system.runner.timers.map Prod.fst,
          ∃ j, ∃ hj : j < destroyedForever.length,
            min i 17 ≤ j ∧
            ∃ b ∈ (destroyedForever.get ⟨j, hj⟩).statement?,
              DiscoverySystem.Expires job (destroyedForeverAt j).system b := by
        decide +kernel
      exact Execution.answers_ofLasso fun i hi => hexpires i hi job
    · exact Execution.answers_ofLasso (by decide +kernel)
  exact ⟨_, fair, rfl, touches_iff _ fair 12 rfl⟩

end OwnedTask

end NetDiscovery.Services
