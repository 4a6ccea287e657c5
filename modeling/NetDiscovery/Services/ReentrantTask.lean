/-
# Callbacks that use their own task

`addSuccess` and `addError` hand an outcome to its callback before they store it.
The callback runs inside the call: it may look at the task, change it and add other
results, whose callbacks run inside of it, before it returns or throws. The open
calls form a stack, and what is done between the entry and the end of a call is any
sequence of operations that leaves the stack as it was.

Each step is one operation on a map from addresses to outcomes, or nothing to it.
The map is keyed by the addresses themselves; the task keys its results by printed
addresses.
-/

import NetDiscovery.Semantics.Run
import NetDiscovery.Semantics.StoreHistory
import NetDiscovery.Services.DeviceDiscoveryTask

namespace NetDiscovery.Services

open NetDiscovery.Net NetDiscovery.Semantics

/-- A task, which of its callbacks are set, and the calls of `addSuccess` and
`addError` that have not stored their outcome yet, innermost first. -/
structure ReentrantTask where
  task : DeviceDiscoveryTask
  /-- `m_onDevicePinged` is set -/
  onDevicePinged : Bool
  /-- `m_onPingFailed` is set -/
  onPingFailed : Bool
  calls : List (IPv4Address × TaskResult)

namespace ReentrantTask

/-- A new task. -/
def initial : ReentrantTask where
  task := .empty
  onDevicePinged := false
  onPingFailed := false
  calls := []

variable (s : ReentrantTask)

/-- `addSuccess` up to the end, or up to the entry of its callback. -/
def addSuccess (host : IPv4Address) (result : TaskSuccess) : ReentrantTask :=
  if s.onDevicePinged then
    { s with task := s.task.callDevicePinged result, calls := (host, .ok result) :: s.calls }
  else { s with task := s.task.store host (.ok result) }

/-- `addError` up to the end, or up to the entry of its callback. -/
def addError (host : IPv4Address) (error : TaskError) : ReentrantTask :=
  if s.onPingFailed then
    { s with task := s.task.callPingFailed error, calls := (host, .error error) :: s.calls }
  else { s with task := s.task.store host (.error error) }

/-- The operations of a task and the ways in which its innermost callback ends. -/
inductive Label
  | addSuccess (host : IPv4Address) (result : TaskSuccess)
  | addError (host : IPv4Address) (error : TaskError)
  | callbackReturns
  | callbackThrows
  | getResult (host : IPv4Address)
  | consumeResult (host : IPv4Address)
  | clearResult (host : IPv4Address)
  | clearResults
  /-- assignment to `onDevicePinged()` -/
  | setOnDevicePinged (isSet : Bool)
  /-- assignment to `onPingFailed()` -/
  | setOnPingFailed (isSet : Bool)

/-- One operation, by a client or by the innermost callback, or the end of that
callback. If it returns, the call it was made from stores its outcome. -/
def step (s : ReentrantTask) : Label → Option ReentrantTask
  | .addSuccess host result => some (s.addSuccess host result)
  | .addError host error => some (s.addError host error)
  | .callbackReturns =>
    s.calls.head?.map fun call =>
      { s with task := s.task.store call.1 call.2, calls := s.calls.tail }
  | .callbackThrows => s.calls.head?.map fun _ => { s with calls := s.calls.tail }
  | .getResult _ => some s
  | .consumeResult host => some { s with task := (s.task.consumeResult host).2 }
  | .clearResult host => some { s with task := s.task.clearResult host }
  | .clearResults => some { s with task := s.task.clearResults }
  | .setOnDevicePinged isSet => some { s with onDevicePinged := isSet }
  | .setOnPingFailed isSet => some { s with onPingFailed := isSet }

/-- The outcome a call is made to add. -/
def Label.adds : Label → Option (IPv4Address × TaskResult)
  | .addSuccess host result => some (host, .ok result)
  | .addError host error => some (host, .error error)
  | _ => none

/-- What a step is to the map from addresses to outcomes. -/
def op : ReentrantTask × Label → StoreOp IPv4Address TaskResult
  | (s, .addSuccess host result) => if s.onDevicePinged then .skip else .store host (.ok result)
  | (s, .addError host error) => if s.onPingFailed then .skip else .store host (.error error)
  | (s, .callbackReturns) => (s.calls.head?.map fun call => .store call.1 call.2).getD .skip
  | (_, .consumeResult host) => .take host
  | (_, .clearResult host) => .erase host
  | (_, .clearResults) => .clear
  | _ => .skip

/-! ## Steps -/

variable {s} {t u v w : ReentrantTask} {a b : Label} {host : IPv4Address} {outcome : TaskResult}
  {trace inner : List (ReentrantTask × Label)} {final : ReentrantTask}

theorem step_callbackReturns (hstep : s.step .callbackReturns = some t) :
    ∃ call, s.calls = call :: t.calls ∧ t.task = s.task.store call.1 call.2 := by
  obtain ⟨call, hcall, rfl⟩ := Option.map_eq_some_iff.mp hstep
  obtain ⟨calls, hcalls⟩ := List.head?_eq_some_iff.mp hcall
  exact ⟨call, by simp [hcalls], rfl⟩

theorem step_callbackThrows (hstep : s.step .callbackThrows = some t) :
    ∃ call, s.calls = call :: t.calls ∧ t.task = s.task := by
  obtain ⟨call, hcall, rfl⟩ := Option.map_eq_some_iff.mp hstep
  obtain ⟨calls, hcalls⟩ := List.head?_eq_some_iff.mp hcall
  exact ⟨call, by simp [hcalls], rfl⟩

/-- A callback that returns at once: the call logs its outcome and stores it. -/
theorem exec_addSuccess (hset : s.onDevicePinged = true) (result : TaskSuccess) :
    exec step s [.addSuccess host result, .callbackReturns] =
      some { s with task := s.task.addSuccess host result } := by
  simp [exec, step, addSuccess, hset, DeviceDiscoveryTask.addSuccess_eq]

theorem exec_addError (hset : s.onPingFailed = true) (error : TaskError) :
    exec step s [.addError host error, .callbackReturns] =
      some { s with task := s.task.addError host error } := by
  simp [exec, step, addError, hset, DeviceDiscoveryTask.addError_eq]

/-- An update, tested the other way around. -/
private theorem update_eq_ite (contents : IPv4Address → Option TaskResult) (host : IPv4Address)
    (result : Option TaskResult) (host' : IPv4Address) :
    Function.update contents host result host' =
      if host = host' then result else contents host' := by
  rw [Function.update_apply]
  exact if_congr eq_comm rfl rfl

/-- The step lemma of the refinement: each step is its operation on the map. -/
theorem getResult_of_step (hstep : s.step a = some t) :
    t.task.getResult = (op (s, a)).apply s.task.getResult := by
  funext host'
  cases a with
  | addSuccess host result =>
    obtain rfl := Option.some.inj hstep
    cases hset : s.onDevicePinged
    · simp [op, addSuccess, hset, StoreOp.apply, update_eq_ite,
        DeviceDiscoveryTask.getResult_store]
    · simp [op, addSuccess, hset, StoreOp.apply]
  | addError host error =>
    obtain rfl := Option.some.inj hstep
    cases hset : s.onPingFailed
    · simp [op, addError, hset, StoreOp.apply, update_eq_ite, DeviceDiscoveryTask.getResult_store]
    · simp [op, addError, hset, StoreOp.apply]
  | callbackReturns =>
    obtain ⟨call, hcalls, htask⟩ := step_callbackReturns hstep
    rw [htask, DeviceDiscoveryTask.getResult_store]
    simp [op, hcalls, StoreOp.apply, update_eq_ite]
  | callbackThrows =>
    obtain ⟨call, -, htask⟩ := step_callbackThrows hstep
    rw [htask]
    rfl
  | consumeResult host =>
    obtain rfl := Option.some.inj hstep
    simp [op, StoreOp.apply, update_eq_ite, DeviceDiscoveryTask.getResult_consumeResult]
  | clearResult host =>
    obtain rfl := Option.some.inj hstep
    simp [op, StoreOp.apply, update_eq_ite, DeviceDiscoveryTask.getResult_clearResult]
  | clearResults =>
    obtain rfl := Option.some.inj hstep
    exact DeviceDiscoveryTask.getResult_clearResults
  | getResult | setOnDevicePinged | setOnPingFailed =>
    obtain rfl := Option.some.inj hstep
    rfl

/-- The step lemma of the stack: a step opens a call, ends one, or leaves the stack
alone. -/
theorem calls_of_step (hstep : s.step a = some t) :
    t.calls = s.calls ∨ (∃ call, a.adds = some call ∧ t.calls = call :: s.calls) ∨
      ∃ call, s.calls = call :: t.calls ∧
        (a = .callbackThrows ∨ t.task = s.task.store call.1 call.2) := by
  cases a with
  | addSuccess host result =>
    obtain rfl := Option.some.inj hstep
    unfold addSuccess
    split_ifs
    · exact .inr (.inl ⟨_, rfl, rfl⟩)
    · exact .inl rfl
  | addError host error =>
    obtain rfl := Option.some.inj hstep
    unfold addError
    split_ifs
    · exact .inr (.inl ⟨_, rfl, rfl⟩)
    · exact .inl rfl
  | callbackReturns =>
    obtain ⟨call, hcalls, htask⟩ := step_callbackReturns hstep
    exact .inr (.inr ⟨call, hcalls, .inr htask⟩)
  | callbackThrows =>
    obtain ⟨call, hcalls, -⟩ := step_callbackThrows hstep
    exact .inr (.inr ⟨call, hcalls, .inl rfl⟩)
  | getResult | consumeResult | clearResult | clearResults | setOnDevicePinged | setOnPingFailed =>
    obtain rfl := Option.some.inj hstep
    exact .inl rfl

/-! ## Calls -/

/-- A call made in `v` by the step `a`, with what is done inside of it, which ends
in `w` by returning: the stack is back at its height for the first time, and the
last step was not an exception. -/
structure Returns (v : ReentrantTask) (a : Label) (inner : List (ReentrantTask × Label))
    (w : ReentrantTask) : Prop where
  run : Run step v ((v, a) :: inner) w
  inside : ∀ x ∈ inner, v.calls.length < x.1.calls.length
  back : w.calls.length = v.calls.length
  normal : ∀ l u, inner ≠ l ++ [(u, .callbackThrows)]

/-- As long as the stack is higher than before the call, the call is on it. -/
theorem suffix_of_run {call : IPv4Address × TaskResult} (run : Run step s trace t)
    (hentered : s.calls = call :: v.calls)
    (hinside : ∀ x ∈ trace, v.calls.length < x.1.calls.length)
    (hheight : v.calls.length < t.calls.length) : call :: v.calls <:+ t.calls := by
  have hinv : call :: v.calls <:+ t.calls ∨ t.calls.length ≤ v.calls.length := by
    refine run.invariant_of_guard
      (I := fun t => call :: v.calls <:+ t.calls ∨ t.calls.length ≤ v.calls.length)
      (C := fun t _ => v.calls.length < t.calls.length) (.inl (by rw [hentered])) ?_ hinside
    intro s a t hprior hhigh hstep
    have hsuffix := hprior.resolve_right hhigh.not_ge
    rcases calls_of_step hstep with hsame | ⟨opened, -, hopened⟩ | ⟨ended, hended, -⟩
    · exact .inl (hsame ▸ hsuffix)
    · exact .inl (hopened ▸ hsuffix.trans (List.suffix_cons _ _))
    · -- either the call itself has ended, or one inside of it
      rw [hended, List.suffix_cons_iff] at hsuffix
      rcases hsuffix with hself | hinner
      · rw [(List.cons.inj hself).2]
        exact .inr le_rfl
      · exact .inl hinner
  exact hinv.resolve_right hheight.not_ge

/-- A call enters its callback, or stores its outcome at once. -/
theorem step_adds (hstep : s.step a = some t) (hadds : a.adds = some (host, outcome)) :
    t.calls = (host, outcome) :: s.calls ∨
      t.calls = s.calls ∧ t.task = s.task.store host outcome := by
  cases a with
  | addSuccess host' result =>
    obtain ⟨rfl, rfl⟩ := Prod.mk.inj (Option.some.inj hadds)
    obtain rfl := Option.some.inj hstep
    unfold addSuccess
    split_ifs
    · exact .inl rfl
    · exact .inr ⟨rfl, rfl⟩
  | addError host' error =>
    obtain ⟨rfl, rfl⟩ := Prod.mk.inj (Option.some.inj hadds)
    obtain rfl := Option.some.inj hstep
    unfold addError
    split_ifs
    · exact .inl rfl
    · exact .inr ⟨rfl, rfl⟩
  | _ => cases hadds

/-- The last step of a call whose callback was entered stores its outcome. -/
theorem store_of_returns {l : List (ReentrantTask × Label)} (run : Run step t (l ++ [(u, b)]) w)
    (hentered : t.calls = (host, outcome) :: v.calls)
    (hinside : ∀ x ∈ l ++ [(u, b)], v.calls.length < x.1.calls.length)
    (hback : w.calls.length = v.calls.length) (hnormal : b ≠ .callbackThrows) :
    w.task = u.task.store host outcome := by
  obtain ⟨hbefore, hlast⟩ := run.last
  have hhigh : v.calls.length < u.calls.length := hinside (u, b) (by simp)
  have hsuffix := suffix_of_run hbefore hentered
    (fun x hx => hinside x (List.mem_append_left _ hx)) hhigh
  rcases calls_of_step hlast with hsame | ⟨opened, -, hopened⟩ | ⟨ended, hended, hend⟩
  · rw [hsame] at hback
    omega
  · rw [hopened, List.length_cons] at hback
    omega
  · -- the step has taken the call off the stack
    have hlength : ((host, outcome) :: v.calls).length = u.calls.length := by
      rw [hended, List.length_cons, List.length_cons, hback]
    have hcall := hsuffix.eq_of_length hlength
    rw [hended] at hcall
    obtain rfl := (List.cons.inj hcall).1
    exact hend.resolve_left hnormal

/-- Whatever its callback did, a call that has returned has just stored its outcome. -/
theorem getResult_of_returns (hreturns : Returns v a inner w)
    (hadds : a.adds = some (host, outcome)) : w.task.getResult host = some outcome := by
  have hstored : ∃ task : DeviceDiscoveryTask, w.task = task.store host outcome := by
    obtain ⟨-, t, hstep, hrun⟩ := hreturns.run.head
    have hback := hreturns.back
    rcases step_adds hstep hadds with hentered | ⟨hsame, htask⟩
    · rcases List.eq_nil_or_concat inner with rfl | ⟨l, ⟨u, b⟩, rfl⟩
      · -- the callback is still running
        rw [hrun.eq_of_nil, hentered, List.length_cons] at hback
        omega
      · rw [List.concat_eq_append] at hrun hreturns
        have hnormal : b ≠ .callbackThrows := by
          rintro rfl
          exact hreturns.normal l u rfl
        exact ⟨u.task, store_of_returns hrun hentered hreturns.inside hback hnormal⟩
    · cases inner with
      | nil =>
        rw [hrun.eq_of_nil]
        exact ⟨v.task, htask⟩
      | cons first rest =>
        -- the stack never got higher
        have hhigh := hreturns.inside first List.mem_cons_self
        rw [hrun.head.1, hsame] at hhigh
        exact absurd hhigh (lt_irrefl _)
  obtain ⟨task, htask⟩ := hstored
  rw [htask, DeviceDiscoveryTask.getResult_store, if_pos rfl]

/-! ## Runs -/

/-- The store is what the run so far leaves in a map. -/
theorem getResult_eq_contents (run : Run step initial trace final) :
    final.task.getResult = StoreOp.contents (trace.map op) := by
  refine run.induction_of_guard (C := fun _ _ => True)
    (J := fun trace s => s.task.getResult = StoreOp.contents (trace.map op)) ?_ ?_
    fun _ _ => trivial
  · funext host
    exact DeviceDiscoveryTask.getResult_empty
  · intro trace s a t ih _ hstep
    rw [List.map_append, List.map_singleton, StoreOp.contents_concat, ← ih]
    exact getResult_of_step hstep

/-- What clients and callbacks of a task rely on. -/
structure RefinesMap (trace : List (ReentrantTask × Label)) (final : ReentrantTask) : Prop where
  /-- The store is what the operations leave in a map from addresses to outcomes. -/
  refines : final.task.getResult = StoreOp.contents (trace.map op)
  /-- A host's outcome is the one stored last, if it was not consumed or cleared since. -/
  latest : ∀ host outcome, final.task.getResult host = some outcome ↔
    ∃ p, StoreOp.Latest (trace.map op) p host outcome
  /-- What is consumed was stored before. -/
  consumed : ∀ l r s host outcome, trace = l ++ (s, .consumeResult host) :: r →
    (s.task.consumeResult host).1 = some outcome →
      ∃ p, StoreOp.Takes (trace.map op) l.length p host outcome
  /-- Nothing that was stored is consumed twice. -/
  consumedOnce : ∀ p q q' host host' outcome outcome',
    StoreOp.Takes (trace.map op) q p host outcome →
    StoreOp.Takes (trace.map op) q' p host' outcome' → q = q'
  /-- Operations leave the outcomes of other hosts alone. -/
  frame : ∀ s a t host, (s, a) ∈ trace → step s a = some t → ¬ (op (s, a)).Touches host →
    t.task.getResult host = s.task.getResult host

/-- What is consumed was stored before. -/
theorem takes_of_consumeResult {l r : List (ReentrantTask × Label)}
    (run : Run step initial (l ++ (s, .consumeResult host) :: r) final)
    (hconsumed : (s.task.consumeResult host).1 = some outcome) :
    ∃ p, StoreOp.Takes ((l ++ (s, .consumeResult host) :: r).map op) l.length p host outcome := by
  obtain ⟨-, hbefore, -, -⟩ := run.split_at rfl
  rw [DeviceDiscoveryTask.consumeResult_fst, getResult_eq_contents hbefore] at hconsumed
  have hdone : ((l ++ (s, .consumeResult host) :: r).map op).take l.length = l.map op := by
    simp
  refine StoreOp.exists_takes (by simp [op]) ?_
  rw [hdone]
  exact hconsumed

/-- A new task whose `m_onDevicePinged` has been set. -/
def observed : ReentrantTask :=
  { initial with onDevicePinged := true }

/-- The result that `nestedCalls` begins with. -/
def firstSuccess : TaskSuccess :=
  ⟨.ofOctets 10 0 0 1, none, .ofOctets 10 0 0 1, none, 64, 3, 0⟩

/-- Before it returns, a callback adds another outcome for its host, consumes it, adds
an error and clears everything. -/
def nestedCalls : List Label :=
  let host := IPv4Address.ofOctets 10 0 0 1
  [.addSuccess host firstSuccess, .addSuccess host { firstSuccess with ttl := 128 },
    .callbackReturns, .consumeResult host, .addError host ⟨host, 0⟩, .clearResults,
    .callbackReturns]

end ReentrantTask

end NetDiscovery.Services
