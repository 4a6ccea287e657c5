/-
# Where a runner keeps a task

A step takes a task off the queue only by running it, disarms its timer only by
posting it, and ends its run only by returning from it. While a run is in progress no
other one begins.
-/

import NetDiscovery.Util.Async.TaskRunner

namespace NetDiscovery.Util.TaskRunner

variable {T : Type*} {s t : TaskRunner T} {a : Label T} {task : T} {continuation : Continuation}

theorem mem_queue_post_of_mem (hqueued : task ∈ s.queue) (posted : T) :
    task ∈ (s.post posted).queue := by
  unfold post
  split_ifs
  · exact hqueued
  · exact List.mem_append_left _ hqueued

theorem mem_queue_expired_of_mem (hqueued : task ∈ s.queue) (posted : T) :
    task ∈ (s.expired posted).queue := by
  unfold expired
  split_ifs
  · exact mem_queue_post_of_mem hqueued posted
  · exact hqueued

theorem mem_queue_post (hgoes : s.stopped = false) (task : T) : task ∈ (s.post task).queue := by
  simp [post_of_not_stopped hgoes]

/-- A handler stays queued until it is run. -/
theorem mem_queue_of_step (hqueued : task ∈ s.queue)
    (hother : ∀ index, a = .run index → s.queue[index]? ≠ some task) (hstep : s.step a = some t) :
    task ∈ t.queue := by
  cases a with
  | post posted =>
    obtain rfl := Option.some.inj hstep
    exact mem_queue_post_of_mem hqueued posted
  | postDelayed | stop | destroy =>
    obtain rfl := Option.some.inj hstep
    exact hqueued
  | run index =>
    obtain ⟨-, run, hrun, rfl⟩ := step_run hstep
    -- it is not the handler that was run
    obtain ⟨hlt, rfl⟩ := List.getElem?_eq_some_iff.mp hrun
    have hmem := (List.getElem_cons_eraseIdx_perm hlt).mem_iff.mpr hqueued
    refine (List.mem_cons.mp hmem).resolve_left fun heq => hother index rfl ?_
    rw [heq, hrun]
  | finish continuation =>
    obtain ⟨run, -, rfl⟩ := step_finish hstep
    cases continuation with
    | runAgain => exact mem_queue_post_of_mem (by exact hqueued) run
    | runAgainDelayed | ended => exact hqueued
  | expire index =>
    obtain ⟨-, timer, -, rfl⟩ := step_expire hstep
    exact mem_queue_expired_of_mem (by exact hqueued) timer.1

/-- A timer stays armed until it posts its task. -/
theorem mem_armed_of_step (hgoes : s.stopped = false) (halive : s.isAlive = true)
    (harmed : task ∈ s.timers.map Prod.fst) (hstep : s.step a = some t) :
    task ∈ t.timers.map Prod.fst ∨ task ∈ t.queue := by
  obtain ⟨timer, hmem, rfl⟩ := List.mem_map.mp harmed
  by_cases hserved : ∃ index, a = .expire index ∧ s.timers[index]? = some timer
  · obtain ⟨index, rfl, htimer⟩ := hserved
    obtain ⟨-, served, hserved, rfl⟩ := step_expire hstep
    obtain rfl := Option.some.inj (htimer.symm.trans hserved)
    rw [expired_of_alive (by exact halive)]
    exact .inr (mem_queue_post (by exact hgoes) timer.1)
  · refine .inl (List.mem_map_of_mem (mem_timers_of_step hmem ?_ hstep))
    exact fun index ha htimer => hserved ⟨index, ha, htimer⟩

/-- The run in progress goes on until it returns. -/
theorem running_of_busy (hrunning : s.running = some task)
    (hfinish : ∀ continuation, a ≠ .finish continuation) (hstep : s.step a = some t) :
    t.running = s.running := by
  refine running_of_step hstep ?_ hfinish
  rintro index rfl
  obtain ⟨⟨-, hnone⟩, -⟩ := step_run hstep
  cases hnone.symm.trans hrunning

/-- A run that does not end its task leaves it with a handler or a timer. -/
theorem scheduled_of_finish (hgoes : s.stopped = false) (hrunning : s.running = some task)
    (hcontinues : continuation ≠ .ended) (hstep : s.step (.finish continuation) = some t) :
    task ∈ t.queue ∨ task ∈ t.timers.map Prod.fst := by
  obtain ⟨run, hrun, rfl⟩ := step_finish hstep
  obtain rfl := Option.some.inj (hrun.symm.trans hrunning)
  cases continuation with
  | runAgain => exact .inl (mem_queue_post (by exact hgoes) run)
  | runAgainDelayed delay => exact .inr (by simp [resolve, postDelayed])
  | ended => exact absurd rfl hcontinues

end NetDiscovery.Util.TaskRunner
