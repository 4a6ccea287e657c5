/-
# Bounded queues

A queue of bounded size accepts what it is offered as long as it has room, and
gives back the oldest element when one is taken.

In whatever order elements are offered and taken, those taken so far, followed by
those still queued, are those accepted so far, in order.
-/

import NetDiscovery.Semantics.Run

namespace NetDiscovery.Semantics.BoundedQueue

variable {α : Type*}

/-- What is done with a queue. -/
inductive Label (α : Type*)
  | offer (x : α)
  | take

/-- One operation on a queue. -/
def step (capacity : ℕ) (queue : List α) : Label α → Option (List α)
  | .offer x => some (if queue.length < capacity then queue ++ [x] else queue)
  | .take => some queue.tail

/-- The element that a step takes. -/
def taken? : List α × Label α → Option α
  | (queue, .take) => queue.head?
  | _ => none

/-- The element that a step offers to a queue with room for it. -/
def accepted? (capacity : ℕ) : List α × Label α → Option α
  | (queue, .offer x) => if queue.length < capacity then some x else none
  | _ => none

variable {capacity : ℕ} {queue queue' : List α} {a : Label α} {trace : List (List α × Label α)}

/-- The step lemma: what is taken comes from the front, and what is accepted goes to
the back. -/
theorem taken_append_of_step (hstep : step capacity queue a = some queue') :
    (taken? (queue, a)).toList ++ queue' = queue ++ (accepted? capacity (queue, a)).toList := by
  cases a with
  | offer x =>
    obtain rfl := Option.some.inj hstep
    by_cases hroom : queue.length < capacity <;> simp [taken?, accepted?, hroom]
  | take =>
    obtain rfl := Option.some.inj hstep
    cases queue <;> simp [taken?, accepted?]

/-- The elements taken, followed by those queued, are those accepted. -/
theorem taken_append_of_run (run : Run (step capacity) [] trace queue) :
    trace.filterMap taken? ++ queue = trace.filterMap (accepted? capacity) := by
  induction run with
  | nil => rfl
  | @snoc trace v w a _ hstep ih =>
    have hmoved := taken_append_of_step hstep
    rw [List.filterMap_append, List.filterMap_append, ← ih, List.append_assoc, List.append_assoc]
    -- the elements of earlier steps are the same on both sides
    refine congrArg _ ?_
    cases htaken : taken? (v, a) <;> cases haccepted : accepted? capacity (v, a) <;>
      simpa [htaken, haccepted] using hmoved

end NetDiscovery.Semantics.BoundedQueue
