/-
# The runner behind the discovery task

Every run of the discovery task on its runner is, seen from its callers, a run of the
model without a runner: the scanner and the stored results are the same, and the calls
whose resolver has ended are those that have completed there.

So each call completes once, whatever the order in which the runner serves handlers and
timers and the threads take their steps.
-/

import NetDiscovery.Services.DiscoverySystem

namespace NetDiscovery.Services

open NetDiscovery.Net NetDiscovery.Net.IcmpScanner NetDiscovery.Semantics NetDiscovery.Util

namespace DiscoverySystem

variable {s t : DiscoverySystem} {parser : Parser} {a : Label} {c : ℕ} {now : TimePoint}
  {trace : List (DiscoverySystem × Label)} {task : IcmpDeviceDiscoveryTask}

/-- The resolver of a call has been posted, and a run of it has read its future. -/
def Completed (s : DiscoverySystem) (c : ℕ) : Prop :=
  s.posted c = true ∧ ¬ s.Waiting c

/-- The calls whose resolvers have read their futures, in order. -/
def completions (trace : List (DiscoverySystem × Label)) : List ℕ :=
  trace.filterMap completes

theorem completions_snoc : completions (trace ++ [(s, a)]) =
    completions trace ++ (completes (s, a)).toList := by
  cases hcompletes : completes (s, a) <;> simp [completions, hcompletes]

/-! ## Which calls have completed -/

/-- A resolver that waits has been posted. -/
theorem Sound.posted_of_waiting (sound : s.Sound) (hwaiting : s.Waiting c) :
    s.posted c = true := by
  by_contra hnew
  have hzero := sound.unposted c (Bool.eq_false_iff.mpr hnew)
  have htokens := tokens_eq_remaining s (.icmpPingResolver c)
  unfold Waiting at hwaiting
  omega

/-- A resolver that is running and has not come to its end waits. -/
theorem waiting_of_running (hrunning : s.runner.running = some (.icmpPingResolver c))
    (hphase : s.phase ≠ .returning .ended) : s.Waiting c := by
  simp [Waiting, remaining, hphase, hrunning]

theorem completes_eq_some (hcompletes : completes (s, a) = some c) :
    a = .body ∧ s.runner.running = some (.icmpPingResolver c) ∧
      s.scanner.futureState c ≠ .unset := by
  unfold completes at hcompletes
  split at hcompletes
  · next s' heq =>
    obtain ⟨rfl, rfl⟩ := Prod.mk.inj heq
    refine ⟨rfl, ?_⟩
    split at hcompletes
    · next c' hrunning =>
      split_ifs at hcompletes with hunset
      obtain rfl := Option.some.inj hcompletes
      exact ⟨hrunning, hunset⟩
    · cases hcompletes
  · cases hcompletes

/-- A step that ends no run of a resolver keeps which of them wait. -/
theorem waiting_of_step (sound : s.Sound) (hstep : s.step parser a = some t)
    (hpost : a ≠ .postRequest c) :
    t.Waiting c ↔ s.Waiting c ∧ completes (s, a) ≠ some c := by
  have hsame : ∀ {u : DiscoverySystem}, u.runner = s.runner → u.phase = s.phase →
      (u.Waiting c ↔ s.Waiting c ∧ (none : Option ℕ) ≠ some c) := fun {u} hrunner hphase => by
    simp [Waiting, remaining, hrunner, hphase]
  cases a with
  | scan a =>
    obtain ⟨-, w, -, rfl⟩ := step_scan hstep
    exact hsame rfl rfl
  | startScanning =>
    obtain rfl := step_startScanning hstep
    exact hsame rfl rfl
  | postPingResolver =>
    obtain ⟨starting, -, rfl⟩ := step_postPingResolver hstep
    have hremaining := remaining_post (s := s) sound.not_stopped .pingResolver
      (t := { s with runner := s.runner.post .pingResolver, starting := starting }) rfl rfl
      (.icmpPingResolver c)
    simp [Waiting, hremaining, completes]
  | postRequest c' =>
    obtain ⟨-, -, rfl⟩ := step_postRequest hstep
    have hne : c' ≠ c := fun h => hpost (by rw [h])
    have hremaining := remaining_post (s := s) sound.not_stopped (.icmpPingResolver c')
      (t := { s with
        runner := s.runner.post (.icmpPingResolver c')
        posted := Function.update s.posted c' true }) rfl rfl (.icmpPingResolver c)
    simp [Waiting, hremaining, hne, completes]
  | clearResults | clearResult =>
    obtain rfl := Option.some.inj hstep
    exact hsame rfl rfl
  | runner b =>
    have hremaining : t.remaining (.icmpPingResolver c) = s.remaining (.icmpPingResolver c) :=
      remaining_of_runner sound.not_stopped sound.isAlive (by simp) hstep
    simp [Waiting, hremaining, completes]
  | body =>
    have hbody := bodyStep_of_body hstep
    -- a run of the scanner's task is no run of a resolver
    have hscan : ∀ {u : DiscoverySystem}, s.runner.running = some .pingResolver →
        s.phase ≠ .returning .ended → u.runner = s.runner →
        (u.Waiting c ↔ s.Waiting c ∧ completes (s, .body) ≠ some c) := by
      intro u hrunning hphase hrunner
      have hremaining := remaining_of_body hrunner hphase (.icmpPingResolver c)
      have hother : u.ending.toList.count (.icmpPingResolver c) = 0 := by
        unfold ending
        split_ifs <;> simp [hrunner, hrunning]
      rw [hother, Nat.add_zero] at hremaining
      simp [Waiting, hremaining, completes, hrunning]
    cases hbody with
    | poll hrunning hphase => exact hscan hrunning (by simp [hphase]) rfl
    | pop hrunning hphase => exact hscan hrunning (by simp [hphase]) rfl
    | handle hrunning hphase => exact hscan hrunning (by simp [hphase]) rfl
    | sweep hrunning hphase => exact hscan hrunning (by simp [hphase]) rfl
    | @resolve c' hrunning hphase =>
      have hremaining := remaining_of_body (s := s) (t := s.resolve c') runner_resolve
        (by simp [hphase]) (.icmpPingResolver c)
      have hone := sound.once c
      have htokens := tokens_eq_remaining s (.icmpPingResolver c)
      by_cases hready : s.scanner.futureState c' = .unset
      · have hnone : (s.resolve c').ending = none := by simp [ending, phase_resolve, hready]
        rw [hnone, Option.toList_none, List.count_nil, Nat.add_zero] at hremaining
        simp [Waiting, hremaining, completes, hrunning, hready]
      · have hends : (s.resolve c').ending = some (.icmpPingResolver c') := by
          simp [ending, phase_resolve, hready, hrunning]
        rw [hends, Option.toList_some] at hremaining
        by_cases heq : c' = c
        · -- its only token is the run that ends
          subst heq
          rw [List.count_singleton_self] at hremaining
          simp only [Waiting, completes, hrunning, hready, if_false, ne_eq, not_true_eq_false,
            and_false, iff_false, not_not]
          omega
        · simp only [List.count_singleton, beq_iff_eq, Job.icmpPingResolver.injEq, heq, if_false,
            Nat.add_zero] at hremaining
          simp [Waiting, hremaining, completes, hrunning, hready, heq]

/-- A call posts its resolver itself. -/
theorem posted_eq_of_step (hstep : s.step parser a = some t) (hpost : a ≠ .postRequest c) :
    t.posted c = s.posted c := by
  cases a with
  | scan a =>
    obtain ⟨-, w, -, rfl⟩ := step_scan hstep
    rfl
  | startScanning =>
    obtain rfl := step_startScanning hstep
    rfl
  | postPingResolver =>
    obtain ⟨starting, -, rfl⟩ := step_postPingResolver hstep
    rfl
  | postRequest c' =>
    obtain ⟨-, -, rfl⟩ := step_postRequest hstep
    exact Function.update_of_ne (fun h => hpost (by rw [h])) _ _
  | clearResults | clearResult =>
    obtain rfl := Option.some.inj hstep
    rfl
  | runner b =>
    obtain ⟨-, runner, -, rfl⟩ := step_runner hstep
    rfl
  | body => cases bodyStep_of_body hstep <;> simp

theorem posted_of_step (hposted : s.posted c = true) (hstep : s.step parser a = some t) :
    t.posted c = true := by
  by_cases hpost : a = .postRequest c
  · subst hpost
    cases hposted.symm.trans (step_postRequest hstep).2.1
  · exact (posted_eq_of_step hstep hpost).trans hposted

/-- The step lemma: a call completes when its resolver, which waits, reads its future. -/
theorem completed_of_step (sound : s.Sound) (hstep : s.step parser a = some t) (c : ℕ) :
    (t.Completed c ↔ s.Completed c ∨ completes (s, a) = some c) ∧
      (completes (s, a) = some c → ¬ s.Completed c) := by
  have hwaits : completes (s, a) = some c → s.Waiting c := fun hcompletes => by
    obtain ⟨rfl, hrunning, -⟩ := completes_eq_some hcompletes
    refine waiting_of_running hrunning fun hphase => ?_
    have hbody : s.body parser = some t := hstep
    simp [body, hrunning, hphase] at hbody
  refine ⟨?_, fun hcompletes hcompleted => hcompleted.2 (hwaits hcompletes)⟩
  by_cases hpost : a = .postRequest c
  · subst hpost
    obtain ⟨-, hnew, rfl⟩ := step_postRequest hstep
    have hremaining := remaining_post (s := s) sound.not_stopped (.icmpPingResolver c)
      (t := { s with
        runner := s.runner.post (.icmpPingResolver c)
        posted := Function.update s.posted c true }) rfl rfl (.icmpPingResolver c)
    simp [Completed, Waiting, hremaining, completes, hnew]
  · have hposted := posted_eq_of_step hstep hpost
    have hstill := waiting_of_step sound hstep hpost
    unfold Completed
    rw [hposted, hstill]
    constructor
    · rintro ⟨hyes, hnot⟩
      by_cases hcompletes : completes (s, a) = some c
      · exact .inr hcompletes
      · exact .inl ⟨hyes, fun hwaiting => hnot ⟨hwaiting, hcompletes⟩⟩
    · rintro (⟨hyes, hnot⟩ | hcompletes)
      · exact ⟨hyes, fun hboth => hnot hboth.1⟩
      · exact ⟨sound.posted_of_waiting (hwaits hcompletes), fun hboth => hboth.2 hcompletes⟩

/-! ## The simulation -/

/-- The discovery task without a runner is where the one on its runner is. -/
structure Mirrors (task : IcmpDeviceDiscoveryTask) (s : DiscoverySystem) : Prop where
  scanner : task.scanner = s.scanner
  results : task.task = s.results
  ended : ∀ c, task.ended c = true ↔ s.Completed c

theorem mirrors_initial : Mirrors (.initial now) (initial now) where
  scanner := rfl
  results := rfl
  ended c := by simp [IcmpDeviceDiscoveryTask.initial, Completed, initial]

/-- A step of the scanner is the same step there. -/
theorem Mirrors.scan (mirrors : Mirrors task s) {a : IcmpScanner.Label} {w : System}
    (huses : IcmpDeviceDiscoveryTask.usesLabel a = true) (hscan : s.scanner.step parser a = some w)
    (hscanner : t.scanner = w) (hresults : t.results = s.results)
    (hcompleted : ∀ c, t.Completed c ↔ s.Completed c) :
    ∃ task', task.step parser (.scan a) = some task' ∧ Mirrors task' t := by
  refine ⟨{ task with scanner := w }, ?_, hscanner.symm, mirrors.results.trans hresults.symm,
    fun c => (mirrors.ended c).trans (hcompleted c).symm⟩
  rw [IcmpDeviceDiscoveryTask.step, if_pos huses, mirrors.scanner, hscan]
  rfl

/-- A call completes there when a run of its resolver finds the future ready. -/
theorem Mirrors.resolve (mirrors : Mirrors task s) (hcompletes : completes (s, .body) = some c)
    (hnot : ¬ s.Completed c)
    (hcompleted : ∀ c', (s.resolve c).Completed c' ↔
      s.Completed c' ∨ completes (s, .body) = some c') :
    ∃ task', task.step parser (.complete c) = some task' ∧ Mirrors task' (s.resolve c) := by
  have hended : task.ended c = false :=
    Bool.eq_false_iff.mpr fun hended => hnot ((mirrors.ended c).mp hended)
  obtain ⟨-, -, hready⟩ := completes_eq_some hcompletes
  have hstill : ∀ c', Function.update task.ended c true c' = true ↔ (s.resolve c).Completed c' := by
    intro c'
    rw [hcompleted, hcompletes, ← mirrors.ended]
    by_cases heq : c' = c
    · simp [heq]
    · simp [heq, Ne.symm heq]
  -- a future that is ready holds an outcome, or its promise is gone
  cases hstate : s.scanner.futureState c with
  | unset => exact absurd hstate hready
  | value outcome =>
    refine ⟨{ task with
      task := onCompletion task.task task.scanner.clock outcome
      ended := Function.update task.ended c true }, ?_, ?_, ?_, hstill⟩
    · simp [IcmpDeviceDiscoveryTask.step, IcmpDeviceDiscoveryTask.complete, hended,
        mirrors.scanner, hstate]
    · exact mirrors.scanner.trans scanner_resolve.symm
    · simp [DiscoverySystem.resolve, hstate, mirrors.results, mirrors.scanner]
  | broken =>
    refine ⟨{ task with ended := Function.update task.ended c true }, ?_, ?_, ?_, hstill⟩
    · simp [IcmpDeviceDiscoveryTask.step, IcmpDeviceDiscoveryTask.complete, hended,
        mirrors.scanner, hstate]
    · exact mirrors.scanner.trans scanner_resolve.symm
    · simp [DiscoverySystem.resolve, hstate, mirrors.results]

/-- A step that is nothing to the model without a runner. -/
theorem Mirrors.stay (mirrors : Mirrors task s) (hscanner : t.scanner = s.scanner)
    (hresults : t.results = s.results) (hcompleted : ∀ c, t.Completed c ↔ s.Completed c) :
    Mirrors task t where
  scanner := mirrors.scanner.trans hscanner.symm
  results := mirrors.results.trans hresults.symm
  ended c := (mirrors.ended c).trans (hcompleted c).symm

/-- The step lemma. -/
theorem Mirrors.step (mirrors : Mirrors task s) (sound : s.Sound)
    (hstep : s.step parser a = some t) :
    ∃ task', StepOrStay (IcmpDeviceDiscoveryTask.step parser) task (observe (s, a)) task' ∧
      Mirrors task' t := by
  have hcompleted : ∀ c, t.Completed c ↔ s.Completed c ∨ completes (s, a) = some c :=
    fun c => (completed_of_step sound hstep c).1
  have hsame : completes (s, a) = none → ∀ c, t.Completed c ↔ s.Completed c := fun hnone c => by
    simp [hcompleted c, hnone]
  cases a with
  | scan a =>
    obtain ⟨houtside, w, hscan, rfl⟩ := step_scan hstep
    refine mirrors.scan ?_ hscan rfl rfl (hsame rfl)
    cases a with
    | send c host blocking =>
      cases blocking with
      | false => rfl
      | true => cases houtside
    | _ => rfl
  | startScanning =>
    obtain rfl := step_startScanning hstep
    exact mirrors.scan (a := .start) rfl rfl rfl rfl (hsame rfl)
  | postPingResolver =>
    obtain ⟨starting, -, rfl⟩ := step_postPingResolver hstep
    exact ⟨task, rfl, mirrors.stay rfl rfl (hsame rfl)⟩
  | postRequest c =>
    obtain ⟨-, -, rfl⟩ := step_postRequest hstep
    exact ⟨task, rfl, mirrors.stay rfl rfl (hsame rfl)⟩
  | clearResults =>
    obtain rfl := Option.some.inj hstep
    exact ⟨_, rfl, mirrors.scanner, congrArg (·.clearResults) mirrors.results, mirrors.ended⟩
  | clearResult host =>
    obtain rfl := Option.some.inj hstep
    exact ⟨_, rfl, mirrors.scanner, congrArg (·.clearResult host) mirrors.results, mirrors.ended⟩
  | runner b =>
    obtain ⟨-, runner, -, rfl⟩ := step_runner hstep
    exact ⟨task, rfl, mirrors.stay rfl rfl (hsame rfl)⟩
  | body =>
    -- a body is a step of the scanner's task, or the run of a resolver
    cases bodyStep_of_body hstep with
    | poll hrunning hphase hscan =>
      have hobserve : observe (s, .body) = some (.scan .poll) := by simp [observe, hrunning, hphase]
      rw [hobserve]
      exact mirrors.scan rfl hscan rfl rfl (hsame (by simp [completes, hrunning]))
    | pop hrunning hphase htask hscan =>
      have hobserve : observe (s, .body) = some (.scan .pop) := by
        simp [observe, hrunning, hphase, htask]
      rw [hobserve]
      exact mirrors.scan rfl hscan rfl rfl (hsame (by simp [completes, hrunning]))
    | handle hrunning hphase htask hscan =>
      have hobserve : observe (s, .body) = some (.scan .handle) := by
        simp [observe, hrunning, hphase, htask]
      rw [hobserve]
      exact mirrors.scan rfl hscan rfl rfl (hsame (by simp [completes, hrunning]))
    | sweep hrunning hphase htask hscan =>
      have hobserve : observe (s, .body) = some (.scan .sweep) := by
        simp [observe, hrunning, hphase, htask]
      rw [hobserve]
      exact mirrors.scan rfl hscan rfl rfl (hsame (by simp [completes, hrunning]))
    | @resolve c hrunning hphase =>
      have hobserve : observe (s, .body) = (completes (s, .body)).map .complete := by
        simp [observe, hrunning, hphase]
      rw [hobserve]
      -- a run that finds the future unset only asks for a later one
      by_cases hunset : s.scanner.futureState c = .unset
      · have hnone : completes (s, .body) = none := by simp [completes, hrunning, hunset]
        rw [hnone]
        refine ⟨task, rfl, mirrors.stay scanner_resolve ?_ (hsame hnone)⟩
        simp [DiscoverySystem.resolve, hunset]
      · have hsome : completes (s, .body) = some c := by simp [completes, hrunning, hunset]
        rw [hsome]
        exact mirrors.resolve hsome ((completed_of_step sound hstep c).2 hsome) hcompleted

/-- The run of the model without a runner that a run of the discovery task is. -/
structure Refines (parser : Parser) (now : TimePoint) (trace : List (DiscoverySystem × Label))
    (s : DiscoverySystem) : Prop where
  simulated : ∃ trace' task, Run (IcmpDeviceDiscoveryTask.step parser) (.initial now) trace' task ∧
    trace'.map Prod.snd = trace.filterMap observe ∧ Mirrors task s
  /-- No call completes twice. -/
  once : (completions trace).Nodup
  /-- The calls that have completed are those whose resolvers have been posted and do
  not wait any more. -/
  completed : ∀ c, c ∈ completions trace ↔ s.Completed c

/-- The step lemma. -/
theorem Refines.snoc (refines : Refines parser now trace s) (sound : s.Sound)
    (hstep : s.step parser a = some t) : Refines parser now (trace ++ [(s, a)]) t := by
  refine ⟨?_, ?_, fun c => ?_⟩
  · obtain ⟨trace', task, hrun, hlabels, mirrors⟩ := refines.simulated
    obtain ⟨task', hstay, hmirrors⟩ := mirrors.step sound hstep
    cases hobserve : observe (s, a) with
    | none =>
      rw [hobserve] at hstay
      obtain rfl : task' = task := hstay
      exact ⟨trace', task', hrun, by simp [hlabels, hobserve], hmirrors⟩
    | some b =>
      rw [hobserve] at hstay
      exact ⟨trace' ++ [(task, b)], task', hrun.snoc hstay, by simp [hlabels, hobserve], hmirrors⟩
  · rw [completions_snoc]
    refine List.Nodup.append refines.once ?_ fun c hbefore hnow => ?_
    · cases completes (s, a) <;> simp
    · exact (completed_of_step sound hstep c).2 (Option.mem_toList.mp hnow)
        ((refines.completed c).mp hbefore)
  · rw [completions_snoc, List.mem_append, refines.completed, Option.mem_toList]
    exact (completed_of_step sound hstep c).1.symm

/-- **Every run of the discovery task on its runner is one of the model without a
runner, with the same scanner and the same results, in which the same calls complete;
and each of them completes once.** -/
theorem refines_of_run (run : Run (step parser) (initial now) trace s) :
    Refines parser now trace s := by
  have hboth := run.induction_of_guard (C := fun _ _ => True)
    (J := fun trace s => s.Sound ∧ Refines parser now trace s) ?_ ?_ fun _ _ => trivial
  · exact hboth.2
  · refine ⟨sound_initial now, ⟨[], _, .nil, rfl, mirrors_initial⟩, List.nodup_nil, fun c => ?_⟩
    simp [completions, Completed, initial]
  · rintro trace v a w ⟨sound, refines⟩ - hstep
    exact ⟨sound.step hstep, refines.snoc sound hstep⟩

/-- A host answers between the first and the second run of its resolver. -/
def discoverHostOnRunner : List Label :=
  [.startScanning, .postPingResolver, .scan (.send 0 (.ofOctets 10 0 0 7) false),
    .scan (.register 0), .postRequest 0, .scan (.receive (Packet.sampleReply 7)),
    .runner (.run 1), .body, .runner (.finish (.runAgainDelayed 1000)), .scan .push,
    .runner (.run 0), .body, .body, .body, .runner (.finish .runAgain), .runner (.expire 0),
    .runner (.run 1), .body, .runner (.finish .ended)]

theorem refines_discoverHostOnRunner :
    ∃ final, exec (step Packet.parse) (initial 0) discoverHostOnRunner = some final ∧
      final.results.hasResult (.ofOctets 10 0 0 1) = true ∧
      completions (record (step Packet.parse) (initial 0) discoverHostOnRunner) = [0] ∧
      Refines Packet.parse 0 (record (step Packet.parse) (initial 0) discoverHostOnRunner)
        final := by
  have hexec := Option.some_get
    (x := exec (step Packet.parse) (initial 0) discoverHostOnRunner) (by decide)
  exact ⟨_, hexec.symm, by decide, by decide, refines_of_run (Run.of_exec hexec.symm)⟩

end DiscoverySystem

end NetDiscovery.Services
