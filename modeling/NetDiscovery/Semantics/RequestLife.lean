/-
# The life of an asynchronous request

A client issues operations for a request to a library that may refuse each one
and calls back once for each one it accepts. The client stores a value in the
promise of the request and may erase the request afterwards.

The history of a request lists what happened to it, in order. A well-conducted
history passes a single token around: at any time the request has one operation
outstanding, or its callback is at work, or it has been resolved. A refused
operation drops the token, and such a request is stranded.
-/

import Mathlib.Data.List.Basic
import Mathlib.Tactic.Common

namespace NetDiscovery.Semantics

variable {Operation Outcome : Type*}

/-- What can happen to a request. -/
inductive RequestEvent (Operation Outcome : Type*)
  /-- an operation is issued, which the library accepts or refuses -/
  | issue (operation : Operation) (accepted : Bool)
  /-- the library calls back -/
  | deliver
  /-- a value is stored in the promise -/
  | setValue (outcome : Outcome)
  | erase

/-- Where a request stands. -/
inductive RequestStatus
  | unsent
  /-- one operation is outstanding -/
  | waiting
  /-- the last operation was refused -/
  | stranded
  /-- a callback is at work -/
  | called
  | resolved
  | erased
  deriving DecidableEq

namespace RequestStatus

/-- An operation is issued first when the request is sent, and then only by a
callback. -/
def MayIssue (status : RequestStatus) : Prop :=
  status = .unsent ∨ status = .called

/-- The number of operations outstanding at the library. -/
def outstanding : RequestStatus → ℕ
  | .waiting => 1
  | _ => 0

theorem outstanding_eq_one_iff {status : RequestStatus} :
    status.outstanding = 1 ↔ status = .waiting := by
  cases status <;> decide

end RequestStatus

/-- The well-conducted histories, each with the status it leads to. -/
inductive Life : List (RequestEvent Operation Outcome) → RequestStatus → Prop
  | new : Life [] .unsent
  | accept {history : List (RequestEvent Operation Outcome)} {status : RequestStatus}
      {operation : Operation} :
      Life history status → status.MayIssue →
      Life (history ++ [.issue operation true]) .waiting
  | refuse {history : List (RequestEvent Operation Outcome)} {status : RequestStatus}
      {operation : Operation} :
      Life history status → status.MayIssue →
      Life (history ++ [.issue operation false]) .stranded
  | deliver {history : List (RequestEvent Operation Outcome)} :
      Life history .waiting → Life (history ++ [.deliver]) .called
  | setValue {history : List (RequestEvent Operation Outcome)} {outcome : Outcome} :
      Life history .called → Life (history ++ [.setValue outcome]) .resolved
  | erase {history : List (RequestEvent Operation Outcome)} :
      Life history .resolved → Life (history ++ [.erase]) .erased

/-- The order in which two events of one request may happen: after a value was
stored no other is stored and no operation issued, and an erased request gets no
callback. -/
def InOrder : RequestEvent Operation Outcome → RequestEvent Operation Outcome → Prop
  | .setValue _, .setValue _ => False
  | .setValue _, .issue _ _ => False
  | .erase, .deliver => False
  | _, _ => True

/-- The value an event stores. -/
def RequestEvent.outcome? : RequestEvent Operation Outcome → Option Outcome
  | .setValue outcome => some outcome
  | _ => none

/-- The value that a history has stored in the promise. -/
def stored (history : List (RequestEvent Operation Outcome)) : Option Outcome :=
  history.findSome? RequestEvent.outcome?

section Stored

variable {history : List (RequestEvent Operation Outcome)} {outcome : Outcome}

@[simp]
theorem stored_append {later : List (RequestEvent Operation Outcome)} :
    stored (history ++ later) = (stored history).or (stored later) :=
  List.findSome?_append

@[simp]
theorem stored_nil : stored ([] : List (RequestEvent Operation Outcome)) = none := rfl

@[simp]
theorem stored_cons_issue {operation : Operation} {accepted : Bool} :
    stored (.issue operation accepted :: history) = stored history := rfl

@[simp]
theorem stored_cons_deliver : stored (.deliver :: history) = stored history := rfl

@[simp]
theorem stored_cons_erase : stored (.erase :: history) = stored history := rfl

@[simp]
theorem stored_cons_setValue : stored (.setValue outcome :: history) = some outcome := rfl

/-- Nothing is stored exactly if no event stores a value. -/
theorem stored_eq_none : stored history = none ↔ ∀ outcome, .setValue outcome ∉ history := by
  rw [stored, List.findSome?_eq_none_iff]
  constructor
  · intro hnone outcome hmem
    cases hnone _ hmem
  · intro hno e he
    cases e with
    | setValue outcome => exact absurd he (hno outcome)
    | issue | deliver | erase => rfl

end Stored

namespace Life

variable {history : List (RequestEvent Operation Outcome)} {status : RequestStatus}
  {outcome : Outcome}

/-- Nothing is stored exactly as long as the request is not resolved. -/
theorem stored_eq_none_iff (life : Life history status) :
    stored history = none ↔ status ≠ .resolved ∧ status ≠ .erased := by
  induction life with
  | new => simp
  | accept _ hmay ih | refuse _ hmay ih =>
    rcases hmay with rfl | rfl <;> simpa using ih
  | deliver _ ih => simpa using ih
  | setValue _ _ => simp
  | erase _ ih => simpa using ih

theorem erase_mem_iff (life : Life history status) : .erase ∈ history ↔ status = .erased := by
  induction life with
  | new => simp
  | accept _ hmay ih | refuse _ hmay ih =>
    rcases hmay with rfl | rfl <;> simpa using ih
  | deliver _ ih => simpa using ih
  | setValue _ ih => simpa using ih
  | erase _ _ => simp

/-- An operation has been refused exactly if the request is stranded: nothing
happens to it any more. -/
theorem refused_mem_iff (life : Life history status) :
    (∃ operation, .issue operation false ∈ history) ↔ status = .stranded := by
  induction life with
  | new => simp
  | accept _ hmay ih =>
    rcases hmay with rfl | rfl <;> simpa using ih
  | refuse _ _ _ => simp
  | deliver _ ih => simpa using ih
  | setValue _ ih => simpa using ih
  | erase _ ih => simpa using ih

/-- Before the request is resolved no value is in its history. -/
theorem setValue_not_mem (life : Life history status) (hresolved : status ≠ .resolved)
    (herased : status ≠ .erased) : .setValue outcome ∉ history :=
  stored_eq_none.mp (life.stored_eq_none_iff.mpr ⟨hresolved, herased⟩) outcome

/-- The value in the history is the one that is stored. -/
theorem stored_eq_of_mem (life : Life history status) (hmem : .setValue outcome ∈ history) :
    stored history = some outcome := by
  induction life with
  | new => cases hmem
  | accept _ _ ih | refuse _ _ ih | deliver _ ih | erase _ ih =>
    simp [ih (by simpa using hmem)]
  | setValue prior _ =>
    -- there was no value before this one
    have hprior : RequestEvent.setValue outcome ∉ _ := prior.setValue_not_mem nofun nofun
    have hnone := prior.stored_eq_none_iff.mpr ⟨nofun, nofun⟩
    obtain rfl : outcome = _ := by simpa [hprior] using hmem
    simp [hnone]

/-- Nothing has happened to a request that was not sent. -/
theorem eq_nil (life : Life history .unsent) : history = [] := by
  cases life
  rfl

/-- A request that was sent has had an operation issued. -/
theorem exists_issue (life : Life history status) (hsent : status ≠ .unsent) :
    ∃ operation accepted, .issue operation accepted ∈ history := by
  induction life with
  | new => exact absurd rfl hsent
  | @accept _ _ operation _ _ _ => exact ⟨operation, true, by simp⟩
  | @refuse _ _ operation _ _ _ => exact ⟨operation, false, by simp⟩
  | deliver _ ih | setValue _ ih | erase _ ih =>
    obtain ⟨operation, accepted, hmem⟩ := ih nofun
    exact ⟨operation, accepted, List.mem_append_left _ hmem⟩

private theorem pairwise_snoc {next : RequestEvent Operation Outcome}
    (ordered : history.Pairwise InOrder) (hnext : ∀ e ∈ history, InOrder e next) :
    (history ++ [next]).Pairwise InOrder := by
  refine List.pairwise_append.mpr ⟨ordered, List.pairwise_singleton _ _, fun e he e' he' => ?_⟩
  rw [List.mem_singleton.mp he']
  exact hnext e he

/-- **In a well-conducted history a value is stored at most once, no operation is
issued after that, and no callback comes after the request was erased.** -/
theorem ordered (life : Life history status) : history.Pairwise InOrder := by
  -- the status before an event says which events cannot have happened yet
  induction life with
  | new => exact .nil
  | accept prior hmay ih | refuse prior hmay ih =>
    refine pairwise_snoc ih fun e he => ?_
    cases e with
    | setValue outcome =>
      rcases hmay with rfl | rfl <;> exact prior.setValue_not_mem nofun nofun he
    | issue | deliver | erase => trivial
  | deliver prior ih =>
    refine pairwise_snoc ih fun e he => ?_
    cases e with
    | erase => simpa using prior.erase_mem_iff.mp he
    | issue | deliver | setValue => trivial
  | setValue prior ih =>
    refine pairwise_snoc ih fun e he => ?_
    cases e with
    | setValue outcome => exact prior.setValue_not_mem nofun nofun he
    | issue | deliver | erase => trivial
  | erase _ ih =>
    refine pairwise_snoc ih fun e _ => ?_
    cases e <;> trivial

end Life

end NetDiscovery.Semantics
