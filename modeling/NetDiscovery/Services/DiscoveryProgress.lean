/-
# Every discovery ends

In an infinite run the runner is fair if handlers are run, timers expire and runs
return. Then, once a scanner has been started and is not stopped, its task is entered
again and again. While a call is pending, each of its runs takes a packet off the queue
or answers what is overdue; so when no more packets arrive and the clock has passed
the call's timeout, the call's future becomes ready, and its resolver reads it.
-/

import NetDiscovery.Semantics.Lasso
import NetDiscovery.Semantics.LeadsTo
import NetDiscovery.Net.Scanner.PingResolver
import NetDiscovery.Services.DiscoveryRefinement
import NetDiscovery.Util.Async.TaskProgress

namespace NetDiscovery.Services

open NetDiscovery.Net NetDiscovery.Net.IcmpScanner NetDiscovery.Semantics NetDiscovery.Util

namespace DiscoverySystem

variable {s t : DiscoverySystem} {parser : Parser} {a : Label} {job : Job} {c : ℕ}
  {now : TimePoint}

/-! ## Where a task is -/

/-- A run of the task has been entered. -/
def Entered (s : DiscoverySystem) (job : Job) : Prop :=
  s.runner.running = some job ∧ s.phase = .entered

/-- The task has a handler or a timer. -/
def Scheduled (s : DiscoverySystem) (job : Job) : Prop :=
  job ∈ s.runner.queue ∨ job ∈ s.runner.timers.map Prod.fst

/-- The task is the runner's, and no run of it is about to end it. -/
theorem remaining_ne_zero_iff : s.remaining job ≠ 0 ↔
    s.Scheduled job ∨ s.runner.running = some job ∧ s.phase ≠ .returning .ended := by
  unfold remaining Scheduled
  by_cases hphase : s.phase = .returning .ended
  · simp [hphase, ← List.count_pos_iff, Nat.pos_iff_ne_zero]
    omega
  · have hrunning : s.runner.running.toList.count job ≠ 0 ↔ s.runner.running = some job := by
      cases s.runner.running <;> simp [List.count_singleton]
    simp only [hphase, if_false, not_false_eq_true, and_true, ← List.count_pos_iff, ← hrunning,
      Nat.pos_iff_ne_zero, ne_eq]
    omega

/-- Each statement is a step of the runner, or nothing to it. -/
theorem runner_of_step (hstep : s.step parser a = some t) :
    (∃ b, s.runner.step b = some t.runner ∧ (∀ index, b = .run index → a = .runner b) ∧
      (∀ continuation, b = .finish continuation → a = .runner b)) ∨ t.runner = s.runner := by
  cases a with
  | scan a =>
    obtain ⟨-, w, -, rfl⟩ := step_scan hstep
    exact .inr rfl
  | startScanning =>
    obtain rfl := step_startScanning hstep
    exact .inr rfl
  | postPingResolver =>
    obtain ⟨starting, -, rfl⟩ := step_postPingResolver hstep
    exact .inl ⟨.post .pingResolver, rfl, by simp, by simp⟩
  | postRequest c =>
    obtain ⟨-, -, rfl⟩ := step_postRequest hstep
    exact .inl ⟨.post (.icmpPingResolver c), rfl, by simp, by simp⟩
  | clearResults | clearResult =>
    obtain rfl := Option.some.inj hstep
    exact .inr rfl
  | runner b =>
    obtain ⟨-, runner, hrunner, rfl⟩ := step_runner hstep
    exact .inl ⟨b, hrunner, fun _ _ => rfl, fun _ _ => rfl⟩
  | body => cases bodyStep_of_body hstep <;> exact .inr (by simp)

/-- A queued task stays queued until a run of it is entered. -/
theorem queued_of_step (hqueued : job ∈ s.runner.queue)
    (hstep : s.step parser a = some t) : job ∈ t.runner.queue ∨ t.Entered job := by
  rcases runner_of_step hstep with ⟨b, hrunner, hrun, -⟩ | hsame
  · by_cases hself : ∃ index, b = .run index ∧ s.runner.queue[index]? = some job
    · obtain ⟨index, rfl, hindex⟩ := hself
      obtain rfl := hrun index rfl
      obtain ⟨-, runner, hrunner, rfl⟩ := step_runner hstep
      obtain ⟨-, task, htask, rfl⟩ := TaskRunner.step_run hrunner
      obtain rfl := Option.some.inj (hindex.symm.trans htask)
      exact .inr ⟨rfl, rfl⟩
    · refine .inl (TaskRunner.mem_queue_of_step hqueued ?_ hrunner)
      exact fun index hb hindex => hself ⟨index, hb, hindex⟩
  · exact .inl (hsame ▸ hqueued)

/-- An armed task stays armed until it is queued. -/
theorem armed_of_step (sound : s.Sound) (harmed : job ∈ s.runner.timers.map Prod.fst)
    (hstep : s.step parser a = some t) :
    job ∈ t.runner.timers.map Prod.fst ∨ job ∈ t.runner.queue := by
  rcases runner_of_step hstep with ⟨b, hrunner, -⟩ | hsame
  · exact TaskRunner.mem_armed_of_step sound.not_stopped sound.isAlive harmed hrunner
  · exact .inl (hsame ▸ harmed)

/-- The run in progress stays where it is while neither a statement of it is executed nor
it returns. -/
theorem busy_of_step (hrunning : s.runner.running = some job) (hstep : s.step parser a = some t)
    (hbody : a ≠ .body) (hfinish : ∀ continuation, a ≠ .runner (.finish continuation)) :
    t.runner.running = s.runner.running ∧ t.phase = s.phase ∧ t.scanner.task = s.scanner.task := by
  have hsame : t.runner.running = s.runner.running := by
    rcases runner_of_step hstep with ⟨b, hrunner, -, hreturns⟩ | hsame
    · refine TaskRunner.running_of_busy hrunning (fun continuation hb => ?_) hrunner
      exact hfinish continuation ((hreturns continuation hb).trans (congrArg _ hb))
    · rw [hsame]
  cases a with
  | scan a =>
    obtain ⟨houtside, w, hscan, rfl⟩ := step_scan hstep
    exact ⟨hsame, rfl, (tasks_of_outside houtside hscan).2⟩
  | startScanning =>
    obtain rfl := step_startScanning hstep
    exact ⟨hsame, rfl, rfl⟩
  | postPingResolver =>
    obtain ⟨starting, -, rfl⟩ := step_postPingResolver hstep
    exact ⟨hsame, rfl, rfl⟩
  | postRequest c =>
    obtain ⟨-, -, rfl⟩ := step_postRequest hstep
    exact ⟨hsame, rfl, rfl⟩
  | clearResults | clearResult =>
    obtain rfl := Option.some.inj hstep
    exact ⟨hsame, rfl, rfl⟩
  | runner b =>
    obtain ⟨-, runner, hrunner, rfl⟩ := step_runner hstep
    refine ⟨hsame, ?_, rfl⟩
    cases b with
    | run index =>
      -- a run begins only when none is in progress
      obtain ⟨⟨-, hnone⟩, -⟩ := TaskRunner.step_run hrunner
      cases hnone.symm.trans hrunning
    | finish continuation => exact absurd rfl (hfinish continuation)
    | post | postDelayed | expire | stop | destroy => rfl
  | body => exact absurd rfl hbody

/-- A run of one of the two kinds does not return before it has come to something. -/
theorem not_finish_of_phase {continuation : Continuation} (hrunning : s.runner.running = some job)
    (hown : ∀ number, job ≠ .other number) (hphase : s.phase ≠ .returning continuation) :
    s.step parser (.runner (.finish continuation)) ≠ some t := by
  intro hstep
  have hallows := (step_runner hstep).1
  cases job with
  | other number => exact hown number rfl
  | pingResolver | icmpPingResolver => simp [allows, hrunning, hphase] at hallows

/-- While the flag is set, no task of the scanner ends. -/
theorem remaining_of_scanning (sound : s.Sound) (hflag : s.scanner.running = true)
    (halive : s.remaining .pingResolver ≠ 0) (hstep : s.step parser a = some t) :
    t.remaining .pingResolver ≠ 0 := by
  cases a with
  | scan a =>
    obtain ⟨-, w, -, rfl⟩ := step_scan hstep
    exact halive
  | startScanning =>
    obtain rfl := step_startScanning hstep
    exact halive
  | postPingResolver =>
    obtain ⟨starting, -, rfl⟩ := step_postPingResolver hstep
    rw [remaining_post (s := s) sound.not_stopped .pingResolver
      (t := { s with runner := s.runner.post .pingResolver, starting := starting }) rfl rfl]
    simp
  | postRequest c =>
    obtain ⟨-, -, rfl⟩ := step_postRequest hstep
    rw [remaining_post (s := s) sound.not_stopped (.icmpPingResolver c)
      (t := { s with
        runner := s.runner.post (.icmpPingResolver c)
        posted := Function.update s.posted c true }) rfl rfl]
    simpa using halive
  | clearResults | clearResult =>
    obtain rfl := Option.some.inj hstep
    exact halive
  | runner b =>
    rw [remaining_of_runner sound.not_stopped sound.isAlive (by simp) hstep]
    exact halive
  | body =>
    -- a body changes the count only by coming to the end of its task
    have hends : s.phase ≠ .returning .ended → t.runner = s.runner →
        t.ending ≠ some .pingResolver → t.remaining .pingResolver ≠ 0 := by
      intro hphase hrunner hending
      have hremaining := remaining_of_body hrunner hphase .pingResolver
      have hother : t.ending.toList.count .pingResolver = 0 :=
        List.count_eq_zero.mpr fun hmem => hending (Option.mem_toList.mp hmem)
      omega
    cases bodyStep_of_body hstep with
    | poll hrunning hphase hscan =>
      refine hends (by simp [hphase]) rfl ?_
      simp only [ending, afterPoll, hflag]
      split_ifs <;> simp_all
    | pop hrunning hphase | handle hrunning hphase | sweep hrunning hphase =>
      exact hends (by simp [hphase]) rfl (by simp [ending])
    | resolve hrunning hphase =>
      refine hends (by simp [hphase]) runner_resolve ?_
      unfold ending
      split_ifs <;> simp [hrunning]

/-! ## What the scanner has to do -/

/-- The steps of the scanner that a statement may be. -/
def ScansBy : Label → IcmpScanner.Label → Prop
  | .scan a, b => a = b ∧ outside a = true
  | .startScanning, b => b = .start
  | .body, b => b = .poll ∨ b = .pop ∨ b = .handle ∨ b = .sweep
  | _, _ => False

/-- Each statement is a step of the scanner, or nothing to it. -/
theorem scanner_of_step (hstep : s.step parser a = some t) :
    (∃ b, ScansBy a b ∧ s.scanner.step parser b = some t.scanner) ∨ t.scanner = s.scanner := by
  cases a with
  | scan a =>
    obtain ⟨houtside, w, hscan, rfl⟩ := step_scan hstep
    exact .inl ⟨a, ⟨rfl, houtside⟩, hscan⟩
  | startScanning =>
    obtain rfl := step_startScanning hstep
    exact .inl ⟨.start, rfl, rfl⟩
  | postPingResolver =>
    obtain ⟨starting, -, rfl⟩ := step_postPingResolver hstep
    exact .inr rfl
  | postRequest c =>
    obtain ⟨-, -, rfl⟩ := step_postRequest hstep
    exact .inr rfl
  | clearResults | clearResult =>
    obtain rfl := Option.some.inj hstep
    exact .inr rfl
  | runner b =>
    obtain ⟨-, runner, -, rfl⟩ := step_runner hstep
    exact .inr rfl
  | body =>
    cases bodyStep_of_body hstep with
    | poll _ _ hscan => exact .inl ⟨.poll, .inl rfl, hscan⟩
    | pop _ _ _ hscan => exact .inl ⟨.pop, .inr (.inl rfl), hscan⟩
    | handle _ _ _ hscan => exact .inl ⟨.handle, .inr (.inr (.inl rfl)), hscan⟩
    | sweep _ _ _ hscan => exact .inl ⟨.sweep, .inr (.inr (.inr rfl)), hscan⟩
    | resolve => exact .inr scanner_resolve

/-- Packets are received outside the runner's thread. -/
theorem ScansBy.eq_scan_of_receive {bytes : List UInt8} (hscans : ScansBy a (.receive bytes)) :
    a = .scan (.receive bytes) := by
  cases a with
  | scan a => exact congrArg _ hscans.1
  | startScanning => cases hscans
  | body => rcases hscans with h | h | h | h <;> cases h
  | postPingResolver | postRequest | clearResults | clearResult | runner => exact hscans.elim

/-- The future of a call is ready. -/
def Settled (v : System) (c : ℕ) : Prop :=
  v.futureState c ≠ .unset

theorem settled_of_promise {v : System} {p : ℕ} (hfuture : v.futures c = some p) :
    Settled v c ↔ v.table.future p ≠ .unset := by
  simp [Settled, System.futureState, hfuture]

theorem settled_of_scan {v w : System} {b : IcmpScanner.Label} (hsettled : Settled v c)
    (hstep : v.step parser b = some w) : Settled w c := by
  cases hfuture : v.futures c with
  | none => simp [Settled, System.futureState, hfuture] at hsettled
  | some p =>
    rw [settled_of_promise hfuture] at hsettled
    rw [settled_of_promise ((System.call_of_step hstep).2 c p hfuture),
      (System.extends_of_step hstep).settled p hsettled]
    exact hsettled

/-- What a future holds is there to stay. -/
theorem settled_of_step (hsettled : Settled s.scanner c) (hstep : s.step parser a = some t) :
    Settled t.scanner c := by
  rcases scanner_of_step hstep with ⟨b, -, hscan⟩ | hsame
  · exact settled_of_scan hsettled hscan
  · exact hsame ▸ hsettled

/-- The packets that have arrived and wait to be handled. -/
def inbound (v : System) : ℕ :=
  v.buffer.packets.length + v.receiving.toList.length

/-- Packets get there by being received. -/
theorem inbound_of_scan {v w : System} {b : IcmpScanner.Label} (hstep : v.step parser b = some w)
    (hreceive : ∀ bytes, b ≠ .receive bytes) : inbound w ≤ inbound v := by
  unfold inbound
  cases b with
  | setClock =>
    obtain rfl := Option.some.inj hstep
    exact le_rfl
  | start | stop | send | register | expire | reference | erase | giveUp | get =>
    obtain ⟨-, hreceiving, hbuffer, -⟩ := System.frame_of_caller rfl hstep
    rw [hreceiving, hbuffer]
  | receive bytes => exact absurd rfl (hreceive bytes)
  | push =>
    obtain ⟨packet, hreceiving, rfl⟩ := System.push_eq_some hstep
    -- the packet goes from one place to the other, or is dropped
    simp only [hreceiving, PacketBuffer.packets_push]
    split_ifs <;> simp
  | poll =>
    obtain ⟨-, tasks, task, -, rfl⟩ := System.poll_eq_some hstep
    exact le_rfl
  | pop =>
    obtain ⟨-, ⟨packet, rest, hpop, rfl⟩ | rfl⟩ := System.pop_eq_some hstep
    · simp [PacketBuffer.packets_of_pop hpop]
    · exact le_rfl
  | handle =>
    obtain ⟨packet, -, rfl⟩ := System.handle_eq_some hstep
    exact le_rfl
  | sweep =>
    obtain ⟨-, rfl⟩ := System.sweep_eq_some hstep
    exact le_rfl

theorem inbound_of_step (hstep : s.step parser a = some t)
    (hreceive : ∀ bytes, a ≠ .scan (.receive bytes)) : inbound t.scanner ≤ inbound s.scanner := by
  rcases scanner_of_step hstep with ⟨b, hscans, hscan⟩ | hsame
  · refine inbound_of_scan hscan fun bytes hb => hreceive bytes ?_
    subst hb
    exact hscans.eq_scan_of_receive
  · rw [hsame]

/-- A registered call whose future is not ready has its request in the table. -/
theorem pending_of_not_settled {v : System} {p : ℕ} (consistent : v.Consistent)
    (hfuture : v.futures c = some p) (hpending : ¬ Settled v c) :
    ∃ ping entry, v.pings c = some ping ∧ v.table.lookup ping.host.toString = some entry ∧
      entry.promise = p ∧ entry.request.time = ping.sentTime := by
  rw [settled_of_promise hfuture, not_not] at hpending
  obtain ⟨ping, hping⟩ := consistent.pinged c p hfuture
  obtain ⟨key, entry, hentry, rfl⟩ :=
    PendingTable.lookup_of_future_unset (consistent.future_lt c p hfuture) hpending
  obtain ⟨rfl, hrequest⟩ := consistent.routed c _ ping key entry hfuture hping hentry rfl
  exact ⟨ping, entry, hping, hentry, rfl, congrArg Request.time hrequest⟩

theorem hasPendingRequests_of_not_settled {v : System} {p : ℕ} (consistent : v.Consistent)
    (hfuture : v.futures c = some p) (hpending : ¬ Settled v c) :
    hasPendingRequests v.table = true := by
  obtain ⟨ping, entry, -, hentry, -⟩ := pending_of_not_settled consistent hfuture hpending
  by_contra hnone
  have hempty := PingResolver.hasPendingRequests_eq_false_iff.mp (Bool.eq_false_iff.mpr hnone)
  cases (hempty _).symm.trans hentry

/-- The call has been waiting for as long as the timeout. -/
def Overdue (v : System) (c : ℕ) : Prop :=
  ∀ ping ∈ v.pings c, ping.sentTime + defaultTimeout ≤ v.clock

instance (v : System) (c : ℕ) : Decidable (Overdue v c) :=
  inferInstanceAs (Decidable (∀ ping ∈ v.pings c, _))

/-- A sweep settles the calls that are overdue. -/
theorem settled_of_sweep {v w : System} {p : ℕ} (consistent : v.Consistent)
    (hfuture : v.futures c = some p) (hoverdue : Overdue v c)
    (hstep : v.step parser .sweep = some w) : Settled w c := by
  by_cases hsettled : Settled v c
  · exact settled_of_scan hsettled hstep
  · obtain ⟨ping, entry, hping, hentry, rfl, htime⟩ :=
      pending_of_not_settled consistent hfuture hsettled
    obtain ⟨-, rfl⟩ := System.sweep_eq_some hstep
    have hdue : isDue v.clock entry.request = true :=
      decide_eq_true (htime ▸ hoverdue ping hping)
    refine (settled_of_promise (p := entry.promise) (by exact hfuture)).mpr ?_
    change (handleTimeouts v.table v.clock).future entry.promise ≠ .unset
    rw [(handleTimeouts_of_due hentry hdue).2]
    simp

/-! ## Fair runs -/

/-- The step runs a handler of the task. -/
def Runs (job : Job) (s : DiscoverySystem) : Label → Prop
  | .runner (.run index) => s.runner.queue[index]? = some job
  | _ => False

/-- The step serves a timer of the task. -/
def Expires (job : Job) (s : DiscoverySystem) : Label → Prop
  | .runner (.expire index) => (s.runner.timers.map Prod.fst)[index]? = some job
  | _ => False

/-- The step is one of the run in progress. -/
def Proceeds : Label → Prop
  | .body | .runner (.finish _) => True
  | _ => False

instance (job : Job) (s : DiscoverySystem) : DecidablePred (Runs job s) := fun a => by
  unfold Runs
  split <;> infer_instance

instance (job : Job) (s : DiscoverySystem) : DecidablePred (Expires job s) := fun a => by
  unfold Expires
  split <;> infer_instance

instance : DecidablePred Proceeds := fun a => by
  unfold Proceeds
  split <;> infer_instance

/-- What the runner and its tasks owe to each other: handlers are run, timers expire, and
a run in progress executes its statements and returns. -/
structure Fair (e : Execution (step parser) s) : Prop where
  run : ∀ job, e.Answers (fun s => job ∈ s.runner.queue) (Runs job)
  expire : ∀ job, e.Answers (fun s => job ∈ s.runner.timers.map Prod.fst) (Expires job)
  proceed : e.Answers (fun s => s.runner.running.isSome) fun _ => Proceeds

theorem Runs.exists_index (hruns : Runs job s a) :
    ∃ index, a = .runner (.run index) ∧ s.runner.queue[index]? = some job := by
  unfold Runs at hruns
  split at hruns
  · exact ⟨_, rfl, hruns⟩
  · exact hruns.elim

theorem Expires.exists_index (hexpires : Expires job s a) :
    ∃ index timer, a = .runner (.expire index) ∧ s.runner.timers[index]? = some timer ∧
      timer.1 = job := by
  unfold Expires at hexpires
  split at hexpires
  · rw [List.getElem?_map] at hexpires
    obtain ⟨timer, htimer, hjob⟩ := Option.map_eq_some_iff.mp hexpires
    exact ⟨_, timer, rfl, htimer, hjob⟩
  · exact hexpires.elim

theorem Proceeds.cases (hproceeds : Proceeds a) :
    a = .body ∨ ∃ continuation, a = .runner (.finish continuation) := by
  unfold Proceeds at hproceeds
  split at hproceeds
  · exact .inl rfl
  · exact .inr ⟨_, rfl⟩
  · exact hproceeds.elim

theorem sound_of_execution (e : Execution (step parser) s) (sound : s.Sound) (n : ℕ) :
    (e.state n).Sound :=
  (e.run n).invariant sound fun _ _ _ sound hstep => sound.step hstep

section Fair

variable {e : Execution (step parser) s} {P Q : ℕ → Prop} (fair : Fair e)

include fair

/-- A condition that only the run in progress can end leads to what its next statement,
or its return, comes to. -/
theorem leadsTo_of_busy (hbusy : ∀ n, P n → ∃ job, (e.state n).runner.running = some job)
    (stands : ∀ n, P n → (e.state (n + 1)).runner.running = (e.state n).runner.running →
      (e.state (n + 1)).phase = (e.state n).phase →
      (e.state (n + 1)).scanner.task = (e.state n).scanner.task → P (n + 1))
    (body : ∀ n, P n → e.label n = .body → (e.state n).body parser = some (e.state (n + 1)) →
      Q (n + 1))
    (finish : ∀ n continuation, P n →
      (e.state n).step parser (.runner (.finish continuation)) = some (e.state (n + 1)) →
      Q (n + 1)) : LeadsTo P Q := by
  -- a run in progress goes on by a body or by its return
  have hproceeds : LeadsTo P fun n =>
      e.label n = .body ∨ ∃ continuation, e.label n = .runner (.finish continuation) :=
    LeadsTo.mono (Execution.leadsTo_of_answers fair.proceed)
      (fun n hn => by
        obtain ⟨job, hrunning⟩ := hbusy n hn
        simp [hrunning])
      fun _ => Proceeds.cases
  refine LeadsTo.of_until hproceeds (fun n hn => ?_) fun n hn hlabel => ?_
  · have hstep := e.next n
    by_cases hbody : e.label n = .body
    · rw [hbody] at hstep
      exact .inr (body n hn hbody hstep)
    · by_cases hfinish : ∃ continuation, e.label n = .runner (.finish continuation)
      · obtain ⟨continuation, hlabel⟩ := hfinish
        rw [hlabel] at hstep
        exact .inr (finish n continuation hn hstep)
      · obtain ⟨job, hrunning⟩ := hbusy n hn
        obtain ⟨hsame, hphase, htask⟩ := busy_of_step hrunning hstep hbody
          fun continuation hlabel => hfinish ⟨continuation, hlabel⟩
        exact .inl (stands n hn hsame hphase htask)
  · have hstep := e.next n
    rcases hlabel with hbody | ⟨continuation, hfinish⟩
    · rw [hbody] at hstep
      exact body n hn hbody hstep
    · rw [hfinish] at hstep
      exact finish n continuation hn hstep

theorem entered_of_queued (job : Job) :
    LeadsTo (fun n => job ∈ (e.state n).runner.queue) fun n => (e.state n).Entered job := by
  refine LeadsTo.of_until (fair.run job) (fun n hn => queued_of_step hn (e.next n)) ?_
  intro n _ hruns
  obtain ⟨index, hlabel, hindex⟩ := hruns.exists_index
  have hstep := e.next n
  rw [hlabel] at hstep
  obtain ⟨-, runner, hrunner, heq⟩ := step_runner hstep
  obtain ⟨-, task, htask, hrun⟩ := TaskRunner.step_run hrunner
  obtain rfl := Option.some.inj (hindex.symm.trans htask)
  rw [heq, hrun]
  exact ⟨rfl, rfl⟩

variable (sound : s.Sound)

include sound

theorem queued_of_armed (job : Job) :
    LeadsTo (fun n => job ∈ (e.state n).runner.timers.map Prod.fst) fun n =>
      job ∈ (e.state n).runner.queue := by
  refine LeadsTo.of_until (fair.expire job)
    (fun n hn => armed_of_step (sound_of_execution e sound n) hn (e.next n)) ?_
  intro n _ hexpires
  obtain ⟨index, timer, hlabel, htimer, rfl⟩ := hexpires.exists_index
  have sound := sound_of_execution e sound n
  have hstep := e.next n
  rw [hlabel] at hstep
  obtain ⟨-, runner, hrunner, heq⟩ := step_runner hstep
  obtain ⟨-, served, hserved, hexpired⟩ := TaskRunner.step_expire hrunner
  obtain rfl := Option.some.inj (htimer.symm.trans hserved)
  rw [heq, hexpired, TaskRunner.expired_of_alive (by exact sound.isAlive)]
  exact TaskRunner.mem_queue_post (by exact sound.not_stopped) timer.1

theorem entered_of_scheduled (job : Job) :
    LeadsTo (fun n => (e.state n).Scheduled job) fun n => (e.state n).Entered job :=
  (entered_of_queued fair job).or
    ((queued_of_armed fair sound job).trans (entered_of_queued fair job))

/-- A run that has come to go on leaves its task with a handler or a timer. -/
theorem scheduled_of_returning (job : Job) (hown : ∀ number, job ≠ .other number) :
    LeadsTo (fun n => (e.state n).runner.running = some job ∧
        ∃ continuation, (e.state n).phase = .returning continuation ∧ continuation ≠ .ended)
      fun n => (e.state n).Scheduled job := by
  refine leadsTo_of_busy fair (fun n hn => ⟨job, hn.1⟩) ?_ ?_ ?_
  · rintro n ⟨hrunning, continuation, hphase, hgoes⟩ hsame hstill -
    exact ⟨hsame.trans hrunning, continuation, hstill.trans hphase, hgoes⟩
  · rintro n ⟨hrunning, continuation, hphase, -⟩ - hbody
    simp [body, hphase] at hbody
  · rintro n returned ⟨hrunning, continuation, hphase, hgoes⟩ hstep
    obtain ⟨hallows, runner, hrunner, heq⟩ := step_runner hstep
    -- the run returns what it has come to
    have hreturned : continuation = returned := by
      cases job with
      | other number => exact absurd rfl (hown number)
      | pingResolver | icmpPingResolver => simpa [allows, hrunning, hphase] using hallows
    have hleft := TaskRunner.scheduled_of_finish (sound_of_execution e sound n).not_stopped hrunning
      (hreturned ▸ hgoes) hrunner
    rw [heq]
    exact hleft

/-- So does a run of the scanner's task that has found a request pending. -/
theorem scheduled_of_scanning :
    LeadsTo (fun n => (e.state n).runner.running = some .pingResolver ∧
        (e.state n).phase = .scanning) fun n => (e.state n).Scheduled .pingResolver := by
  -- a run that has a packet to handle or a sweep to make comes to go on
  have hreturns : LeadsTo
      (fun n => ((e.state n).runner.running = some .pingResolver ∧ (e.state n).phase = .scanning) ∧
        (e.state n).scanner.task ≠ .reading)
      fun n => (e.state n).runner.running = some .pingResolver ∧
        ∃ continuation, (e.state n).phase = .returning continuation ∧ continuation ≠ .ended := by
    refine leadsTo_of_busy fair (fun n hn => ⟨_, hn.1.1⟩) ?_ ?_ ?_
    · rintro n ⟨⟨hrunning, hphase⟩, htask⟩ hsame hstill hleft
      exact ⟨⟨hsame.trans hrunning, hstill.trans hphase⟩, hleft ▸ htask⟩
    · rintro n ⟨⟨hrunning, hphase⟩, htask⟩ - hbody
      generalize e.state (n + 1) = t at hbody
      cases bodyStep_of_body hbody with
      | poll _ hentered => cases hphase.symm.trans hentered
      | pop _ _ hreading => exact absurd hreading htask
      | handle => exact ⟨hrunning, _, rfl, by simp⟩
      | sweep => exact ⟨hrunning, _, rfl, by simp⟩
      | resolve hother => cases hrunning.symm.trans hother
    · rintro n continuation ⟨⟨hrunning, hphase⟩, -⟩ hstep
      exact absurd hstep (not_finish_of_phase hrunning (by simp) (by simp [hphase]))
  -- a run that reads the buffer comes to one of the two
  have hpopped : LeadsTo
      (fun n => ((e.state n).runner.running = some .pingResolver ∧ (e.state n).phase = .scanning) ∧
        (e.state n).scanner.task = .reading)
      fun n => ((e.state n).runner.running = some .pingResolver ∧
        (e.state n).phase = .scanning) ∧ (e.state n).scanner.task ≠ .reading := by
    refine leadsTo_of_busy fair (fun n hn => ⟨_, hn.1.1⟩) ?_ ?_ ?_
    · rintro n ⟨⟨hrunning, hphase⟩, htask⟩ hsame hstill hleft
      exact ⟨⟨hsame.trans hrunning, hstill.trans hphase⟩, hleft.trans htask⟩
    · rintro n ⟨⟨hrunning, hphase⟩, htask⟩ - hbody
      generalize e.state (n + 1) = t at hbody
      cases bodyStep_of_body hbody with
      | poll _ hentered => cases hphase.symm.trans hentered
      | pop _ _ _ hscan =>
        refine ⟨⟨hrunning, rfl⟩, ?_⟩
        obtain ⟨-, ⟨packet, rest, -, hpop⟩ | hpop⟩ := System.pop_eq_some hscan <;>
          simp [hpop]
      | handle _ _ hhandling => cases htask.symm.trans hhandling
      | sweep _ _ hsweeping => cases htask.symm.trans hsweeping
      | resolve hother => cases hrunning.symm.trans hother
    · rintro n continuation ⟨⟨hrunning, hphase⟩, -⟩ hstep
      exact absurd hstep (not_finish_of_phase hrunning (by simp) (by simp [hphase]))
  have hscheduled := scheduled_of_returning fair sound .pingResolver (by simp)
  intro n hn
  by_cases htask : (e.state n).scanner.task = .reading
  · exact (hpopped.trans (hreturns.trans hscheduled)) n ⟨hn, htask⟩
  · exact (hreturns.trans hscheduled) n ⟨hn, htask⟩

/-- A task that the runner is not about to end is entered, now or later. -/
theorem entered_of_remaining (job : Job) (hown : ∀ number, job ≠ .other number) :
    LeadsTo (fun n => (e.state n).remaining job ≠ 0) fun n => (e.state n).Entered job := by
  intro n hn
  rcases remaining_ne_zero_iff.mp hn with hscheduled | ⟨hrunning, hgoes⟩
  · exact entered_of_scheduled fair sound job n hscheduled
  · have hsound := sound_of_execution e sound n
    cases hphase : (e.state n).phase with
    | idle => exact absurd hphase (hsound.busy (by simp [hrunning]))
    | entered => exact ⟨n, le_rfl, hrunning, hphase⟩
    | scanning =>
      have hping := hsound.scanning hphase
      obtain rfl := Option.some.inj (hrunning.symm.trans hping)
      exact ((scheduled_of_scanning fair sound).trans
        (entered_of_scheduled fair sound .pingResolver)) n
        ⟨hrunning, hphase⟩
    | returning continuation =>
      refine ((scheduled_of_returning fair sound job hown).trans
        (entered_of_scheduled fair sound job)) n
        ⟨hrunning, continuation, hphase, ?_⟩
      rintro rfl
      exact hgoes hphase

/-! ## A call becomes ready -/

/-- What a call needs from some time on: its resolver has been posted, the scanner goes on
and the runner has a task of it, the call is overdue, and no more packets are received. -/
structure Unhindered (e : Execution (step parser) s) (c N : ℕ) : Prop where
  posted : (e.state N).posted c = true
  scanning : ∀ n, N ≤ n → (e.state n).scanner.running = true
  alive : (e.state N).remaining .pingResolver ≠ 0
  overdue : ∀ n, N ≤ n → Overdue (e.state n).scanner c
  silent : ∀ n, N ≤ n → ∀ bytes, e.label n ≠ .scan (.receive bytes)

omit fair sound in
theorem futures_of_step {p : ℕ} (hfuture : s.scanner.futures c = some p)
    (hstep : s.step parser a = some t) : t.scanner.futures c = some p := by
  rcases scanner_of_step hstep with ⟨b, -, hscan⟩ | hsame
  · exact (System.call_of_step hscan).2 c p hfuture
  · exact hsame ▸ hfuture

omit fair in
theorem Unhindered.registered_of_le {N n : ℕ} (unhindered : Unhindered e c N) (hle : N ≤ n) :
    ∃ p, (e.state n).scanner.futures c = some p := by
  obtain ⟨p, hfuture⟩ := (sound_of_execution e sound N).registered c unhindered.posted
  exact ⟨p, e.stable (fun _ _ _ hprior hstep => futures_of_step hprior hstep) hfuture hle⟩

omit fair in
theorem Unhindered.alive_of_le {N n : ℕ} (unhindered : Unhindered e c N) (hle : N ≤ n) :
    (e.state n).remaining .pingResolver ≠ 0 := by
  induction n, hle using Nat.le_induction with
  | base => exact unhindered.alive
  | succ n hle ih =>
    exact remaining_of_scanning (sound_of_execution e sound n) (unhindered.scanning n hle) ih
      (e.next n)

/-- The call is ready, or fewer than `k` packets wait. -/
def Advanced (e : Execution (step parser) s) (c N k n : ℕ) : Prop :=
  Settled (e.state n).scanner c ∨ N ≤ n ∧ inbound (e.state n).scanner < k

omit fair sound in
theorem Advanced.succ {N k n : ℕ} (unhindered : Unhindered e c N)
    (advanced : Advanced e c N k n) : Advanced e c N k (n + 1) := by
  rcases advanced with hsettled | ⟨hle, hlt⟩
  · exact .inl (settled_of_step hsettled (e.next n))
  · exact .inr ⟨hle.trans (Nat.le_succ n),
      (inbound_of_step (e.next n) (unhindered.silent n hle)).trans_lt hlt⟩

/-- A run of the scanner's task has come to `task`. -/
def InScan (s : DiscoverySystem) (task : TaskPhase) : Prop :=
  s.runner.running = some .pingResolver ∧ s.phase = .scanning ∧ s.scanner.task = task

variable {N : ℕ} (unhindered : Unhindered e c N) (k : ℕ)

include unhindered

/-- A run of the scanner's task finds the call pending. -/
theorem reading_of_entered :
    LeadsTo (fun n => (e.state n).Entered .pingResolver ∧ N ≤ n ∧ Advanced e c N (k + 1) n)
      fun n => Advanced e c N k n ∨
        InScan (e.state n) .reading ∧ N ≤ n ∧ Advanced e c N (k + 1) n := by
  refine leadsTo_of_busy fair (fun n hn => ⟨_, hn.1.1⟩) ?_ ?_ ?_
  · rintro n ⟨⟨hrunning, hphase⟩, hle, hadvanced⟩ hsame hstill -
    exact ⟨⟨hsame.trans hrunning, hstill.trans hphase⟩, hle.trans (Nat.le_succ n),
      hadvanced.succ unhindered⟩
  · rintro n ⟨⟨hrunning, hphase⟩, hle, hadvanced⟩ - hbody
    by_cases hsettled : Settled (e.state n).scanner c
    · exact .inl (.inl (settled_of_step hsettled (a := .body) hbody))
    · have consistent := (sound_of_execution e sound n).consistent
      obtain ⟨p, hfuture⟩ := unhindered.registered_of_le sound hle
      have hpending := hasPendingRequests_of_not_settled consistent hfuture hsettled
      have hflag := unhindered.scanning n hle
      refine .inr ⟨?_, hle.trans (Nat.le_succ n), hadvanced.succ unhindered⟩
      generalize e.state (n + 1) = t at hbody
      cases bodyStep_of_body hbody with
      | poll _ _ hscan =>
        -- the flag is set and the call is pending, so the run reads the buffer
        obtain ⟨-, tasks, -, ⟨hstopped, -⟩ | ⟨-, -, rfl⟩ | ⟨-, hnone, -⟩⟩ := poll_cases hscan
        · cases hflag.symm.trans hstopped
        · exact ⟨hrunning, by simp [afterPoll, hflag, hpending], rfl⟩
        · cases hpending.symm.trans hnone
      | pop _ hscanning | handle _ hscanning | sweep _ hscanning =>
        cases hphase.symm.trans hscanning
      | resolve hother => cases hrunning.symm.trans hother
  · rintro n continuation ⟨⟨hrunning, hphase⟩, -⟩ hstep
    exact absurd hstep (not_finish_of_phase hrunning (by simp) (by simp [hphase]))

omit sound in
/-- It takes a packet off the queue, or finds the queue empty. -/
theorem sweeping_of_reading :
    LeadsTo (fun n => InScan (e.state n) .reading ∧ N ≤ n ∧ Advanced e c N (k + 1) n)
      fun n => Advanced e c N k n ∨ InScan (e.state n) .sweeping ∧ N ≤ n := by
  refine leadsTo_of_busy fair (fun n hn => ⟨_, hn.1.1⟩) ?_ ?_ ?_
  · rintro n ⟨⟨hrunning, hphase, htask⟩, hle, hadvanced⟩ hsame hstill hleft
    exact ⟨⟨hsame.trans hrunning, hstill.trans hphase, hleft.trans htask⟩,
      hle.trans (Nat.le_succ n), hadvanced.succ unhindered⟩
  · rintro n ⟨⟨hrunning, hphase, htask⟩, hle, hadvanced⟩ - hbody
    rcases hadvanced with hsettled | ⟨-, hlt⟩
    · exact .inl (.inl (settled_of_step hsettled (a := .body) hbody))
    · unfold Advanced
      generalize e.state (n + 1) = t at hbody
      cases bodyStep_of_body hbody with
      | poll _ hentered => cases hphase.symm.trans hentered
      | pop _ _ _ hscan =>
        -- a packet that is popped is one less to handle before the sweep
        obtain ⟨-, ⟨packet, rest, hpop, rfl⟩ | rfl⟩ := System.pop_eq_some hscan
        · refine .inl (.inr ⟨hle.trans (Nat.le_succ n), ?_⟩)
          simp only [inbound, PacketBuffer.packets_of_pop hpop, List.length_cons] at hlt ⊢
          omega
        · exact .inr ⟨⟨hrunning, rfl, rfl⟩, hle.trans (Nat.le_succ n)⟩
      | handle _ _ hhandling => cases htask.symm.trans hhandling
      | sweep _ _ hsweeping => cases htask.symm.trans hsweeping
      | resolve hother => cases hrunning.symm.trans hother
  · rintro n continuation ⟨⟨hrunning, hphase, -⟩, -⟩ hstep
    exact absurd hstep (not_finish_of_phase hrunning (by simp) (by simp [hphase]))

/-- When the queue is empty, the call is answered. -/
theorem settled_of_sweeping :
    LeadsTo (fun n => InScan (e.state n) .sweeping ∧ N ≤ n) (Advanced e c N k) := by
  refine leadsTo_of_busy fair (fun n hn => ⟨_, hn.1.1⟩) ?_ ?_ ?_
  · rintro n ⟨⟨hrunning, hphase, htask⟩, hle⟩ hsame hstill hleft
    exact ⟨⟨hsame.trans hrunning, hstill.trans hphase, hleft.trans htask⟩,
      hle.trans (Nat.le_succ n)⟩
  · rintro n ⟨⟨hrunning, hphase, htask⟩, hle⟩ - hbody
    obtain ⟨p, hfuture⟩ := unhindered.registered_of_le sound hle
    have consistent := (sound_of_execution e sound n).consistent
    refine .inl ?_
    generalize e.state (n + 1) = t at hbody
    cases bodyStep_of_body hbody with
    | poll _ hentered => cases hphase.symm.trans hentered
    | pop _ _ hreading => cases htask.symm.trans hreading
    | handle _ _ hhandling => cases htask.symm.trans hhandling
    | sweep _ _ _ hscan =>
      exact settled_of_sweep consistent hfuture (unhindered.overdue n hle) hscan
    | resolve hother => cases hrunning.symm.trans hother
  · rintro n continuation ⟨⟨hrunning, hphase, -⟩, -⟩ hstep
    exact absurd hstep (not_finish_of_phase hrunning (by simp) (by simp [hphase]))

/-- The future of the call becomes ready: every run of the scanner's task leaves fewer
packets waiting, until one finds the queue empty. -/
theorem eventually_settled :
    LeadsTo (fun n => N ≤ n) fun n => Settled (e.state n).scanner c := by
  refine LeadsTo.of_rank (fun n => inbound (e.state n).scanner) fun k => ?_
  have hentered : LeadsTo (fun n => N ≤ n ∧ inbound (e.state n).scanner = k)
      fun n => (e.state n).Entered .pingResolver ∧ N ≤ n ∧ Advanced e c N (k + 1) n := by
    refine LeadsTo.mono ((entered_of_remaining fair sound .pingResolver (by simp)).and_kept
      (R := fun n => N ≤ n ∧ Advanced e c N (k + 1) n) ?_) ?_ fun _ => id
    · rintro n ⟨hle, hadvanced⟩
      exact ⟨hle.trans (Nat.le_succ n), hadvanced.succ unhindered⟩
    · rintro n ⟨hle, hinbound⟩
      exact ⟨unhindered.alive_of_le sound hle, hle, .inr ⟨hle, hinbound ▸ Nat.lt_succ_self _⟩⟩
  have hswept :=
    (sweeping_of_reading fair unhindered k).cases (settled_of_sweeping fair sound unhindered k)
  exact hentered.trans ((reading_of_entered fair sound unhindered k).cases hswept)

end Fair

section Completion

variable {e : Execution (step parser) (initial now)} {m n N : ℕ}

theorem completed_of_completes (hcompletes : completes (e.state n, e.label n) = some c)
    (hlt : n < m) : (e.state m).Completed c := by
  have hnext : (e.state (n + 1)).Completed c :=
    (completed_of_step (sound_of_execution e (sound_initial now) n) (e.next n) c).1.mpr
      (.inr hcompletes)
  induction m, hlt using Nat.le_induction with
  | base => exact hnext
  | succ m _ ih =>
    exact (completed_of_step (sound_of_execution e (sound_initial now) m) (e.next m) c).1.mpr
      (.inl ih)

theorem completes_of_completed (hcompleted : (e.state n).Completed c) :
    ∃ m, completes (e.state m, e.label m) = some c := by
  induction n with
  | zero =>
    rw [e.start] at hcompleted
    simp [Completed, initial] at hcompleted
  | succ n ih =>
    rcases (completed_of_step (sound_of_execution e (sound_initial now) n) (e.next n) c).1.mp
        hcompleted with
      hbefore | hnow
    · exact ih hbefore
    · exact ⟨n, hnow⟩

/-- A call whose future is ready completes. -/
theorem completes_of_settled (fair : Fair e) (hposted : (e.state n).posted c = true)
    (hsettled : Settled (e.state n).scanner c) :
    ∃ m, completes (e.state m, e.label m) = some c := by
  by_cases hwaiting : (e.state n).Waiting c
  · have hentered :=
      (entered_of_remaining fair (sound_initial now) (.icmpPingResolver c) (by simp)).and_kept
      (R := fun n => Settled (e.state n).scanner c)
      fun n hn => settled_of_step hn (e.next n)
    have hcompletes := hentered.trans (leadsTo_of_busy fair
      (Q := fun _ => ∃ m, completes (e.state m, e.label m) = some c) ?_ ?_ ?_ ?_)
    · obtain ⟨-, -, hdone⟩ := hcompletes n ⟨hwaiting, hsettled⟩
      exact hdone
    · exact fun n hn => ⟨_, hn.1.1⟩
    · rintro n ⟨⟨hrunning, hphase⟩, hready⟩ hsame hstill -
      exact ⟨⟨hsame.trans hrunning, hstill.trans hphase⟩, settled_of_step hready (e.next n)⟩
    · rintro n ⟨⟨hrunning, -⟩, hready⟩ hlabel -
      refine ⟨n, ?_⟩
      rw [hlabel]
      simp only [completes, hrunning]
      exact if_neg hready
    · rintro n continuation ⟨⟨hrunning, hphase⟩, -⟩ hstep
      exact absurd hstep (not_finish_of_phase hrunning (by simp) (by simp [hphase]))
  · exact completes_of_completed ⟨hposted, hwaiting⟩

/-- **In a fair run, the resolver of a call that is overdue completes, and does so once,
if the scanner has been started, is not stopped, and receives no more packets.** -/
theorem completes_once (e : Execution (step parser) (initial now)) (fair : Fair e) (c N : ℕ)
    (unhindered : Unhindered e c N) :
    ∃ n, completes (e.state n, e.label n) = some c ∧
      ∀ m, completes (e.state m, e.label m) = some c → m = n := by
  obtain ⟨n, hle, hsettled⟩ := eventually_settled fair (sound_initial now) unhindered N le_rfl
  have hposted : (e.state n).posted c = true := by
    refine e.stable (P := fun s => s.posted c = true) (fun v a w hprior hstep => ?_)
      unhindered.posted hle
    exact posted_of_step hprior hstep
  obtain ⟨k, hcompletes⟩ := completes_of_settled fair hposted hsettled
  refine ⟨k, hcompletes, fun m hagain => ?_⟩
  -- a call that has completed does not complete again
  have hnot : ∀ i j, completes (e.state i, e.label i) = some c →
      completes (e.state j, e.label j) = some c → ¬ i < j := fun i j hi hj hlt =>
    (completed_of_step (sound_of_execution e (sound_initial now) j) (e.next j) c).2 hj
      (completed_of_completes hi hlt)
  exact le_antisymm (Nat.not_lt.mp (hnot k m hcompletes hagain))
    (Nat.not_lt.mp (hnot m k hagain hcompletes))

end Completion

/-- A host is discovered that does not answer. -/
def discoverSilentHost : List Label :=
  [.scan (.send 0 (.ofOctets 10 0 0 7) false), .scan (.register 0), .postRequest 0, .startScanning,
    .postPingResolver, .scan (.setClock 6000000000), .runner (.run 1), .body, .body, .body,
    .runner (.finish (.runAgainDelayed 100)), .runner (.run 0), .body, .runner (.finish .ended),
    .runner (.expire 0), .runner (.run 0), .body, .runner (.finish (.runAgainDelayed 1000))]

/-- One timer of the scanner's task is all that is left. -/
structure Resting (s : DiscoverySystem) : Prop where
  queue : s.runner.queue = []
  timers : s.runner.timers = [(.pingResolver, 1000)]
  running : s.runner.running = none
  goes : s.runner.stopped = false ∧ s.runner.isAlive = true
  phase : s.phase = .idle
  scanning : s.scanner.running = true
  tasks : s.scanner.tasks ≠ 0
  task : s.scanner.task = .idle
  nothing_pending : hasPendingRequests s.scanner.table = false

/-- The scanner's task finds no request pending. -/
def goRound : List Label :=
  [.runner (.expire 0), .runner (.run 0), .body, .runner (.finish (.runAgainDelayed 1000))]

theorem exec_goRound (resting : s.Resting) : exec (step parser) s goRound = some s := by
  obtain ⟨⟨queue, timers, running, stopped, isAlive⟩, scanner, results, starting, posted,
    phase⟩ := s
  obtain ⟨rfl, rfl, rfl, ⟨rfl, rfl⟩, rfl, hflag, htasks, htask, hnothing⟩ := resting
  have hpoll : scanner.step parser .poll = some scanner := by
    obtain ⟨tasks, htasks⟩ := Nat.exists_eq_succ_of_ne_zero htasks
    simp only [System.step, System.poll]
    simp_all
  simp_all [exec, goRound, step, allows, TaskRunner.step, TaskRunner.Idle, TaskRunner.expired,
    TaskRunner.post, TaskRunner.resolve, TaskRunner.postDelayed, phaseAfter, body, scan, afterPoll]

abbrev silentHostForever : List Label :=
  discoverSilentHost ++ goRound

/-- The states that the discovery and the rounds after it go through. -/
abbrev silentHostAt (i : ℕ) : DiscoverySystem :=
  Lasso.stateAt (step Packet.parse) (initial 0) silentHostForever i

theorem completes_once_discoverSilentHost :
    ∃ e : Execution (step Packet.parse) (initial 0), Fair e ∧ Unhindered e 0 6 ∧
      ∃ n, completes (e.state n, e.label n) = some 0 ∧
        ∀ m, completes (e.state m, e.label m) = some 0 → m = n := by
  have hrest := Option.some_get
    (x := exec (step Packet.parse) (initial 0) discoverSilentHost) (by decide)
  have hround : exec (step Packet.parse) _ goRound = some _ := exec_goRound
    (s := (exec (step Packet.parse) (initial 0) discoverSilentHost).get (by decide))
    ⟨by decide, by decide, by decide, by decide, by decide, by decide, by decide, rfl, by decide⟩
  have hexec : exec (step Packet.parse) (initial 0) silentHostForever = _ :=
    exec_append discoverSilentHost goRound
  rw [← hrest, Option.bind_some, hround] at hexec
  have htake : silentHostForever.take 18 = discoverSilentHost := List.take_left' rfl
  have hloop := (congrArg (exec (step Packet.parse) (initial 0)) htake).trans hrest.symm
  -- from then on the scanner's task goes round
  have hback : 18 < silentHostForever.length := by decide
  have fair : Fair (Execution.ofLasso hexec hloop hback) := by
    refine ⟨fun job => ?_, fun job => ?_, ?_⟩
    · have hruns : ∀ i < silentHostForever.length,
          ∀ job ∈ (silentHostAt i).runner.queue,
          ∃ j, ∃ hj : j < silentHostForever.length, min i 18 ≤ j ∧
            Runs job (silentHostAt j) (silentHostForever.get ⟨j, hj⟩) := by
        decide +kernel
      exact Execution.answers_ofLasso fun i hi => hruns i hi job
    · have hexpires : ∀ i < silentHostForever.length,
          ∀ job ∈ (silentHostAt i).runner.timers.map Prod.fst,
          ∃ j, ∃ hj : j < silentHostForever.length, min i 18 ≤ j ∧
            Expires job (silentHostAt j) (silentHostForever.get ⟨j, hj⟩) := by
        decide +kernel
      exact Execution.answers_ofLasso fun i hi => hexpires i hi job
    · exact Execution.answers_ofLasso (by decide +kernel)
  have unhindered : Unhindered (Execution.ofLasso hexec hloop hback) 0 6 := by
    have hposted : (silentHostAt 6).posted 0 = true := by decide +kernel
    have halive : (silentHostAt 6).remaining .pingResolver ≠ 0 := by decide +kernel
    have hsilent : ∀ a ∈ silentHostForever, ∀ bytes, a ≠ .scan (.receive bytes) := by
      simp [silentHostForever, discoverSilentHost, goRound]
    refine ⟨hposted, ?_, halive, ?_, ?_⟩
    · exact Execution.forall_ofLasso
        (P := fun (s : DiscoverySystem) (_ : Label) => s.scanner.running = true) (by decide)
        (by decide +kernel)
    · exact Execution.forall_ofLasso
        (P := fun (s : DiscoverySystem) (_ : Label) => Overdue s.scanner 0) (by decide)
        (by decide +kernel)
    · exact Execution.forall_ofLasso
        (P := fun (_ : DiscoverySystem) (a : Label) => ∀ bytes, a ≠ .scan (.receive bytes))
        (by decide) fun i hi _ => hsilent _ (List.get_mem _ _)
  exact ⟨_, fair, unhindered, completes_once _ fair 0 6 unhindered⟩

end DiscoverySystem

end NetDiscovery.Services
