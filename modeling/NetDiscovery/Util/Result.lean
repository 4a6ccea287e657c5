/-
# Results and error codes

`util::Result<T, E>` is the value or the error of an operation; the error codes
are shared by the whole library.
-/

import Mathlib.Tactic.TypeStar

namespace NetDiscovery.Util

/-- `util::Error::ErrorType`. -/
inductive ErrorType
  | aborted
  | alreadyExists
  | cancelled
  | deadlineExceeded
  | failedPrecondition
  | invalidArgument
  | notFound
  | outOfRange
  | permissionDenied
  | resourceExhausted
  | timedOut
  | unauthenticated
  | unavailable
  | unimplemented
  | unknown
  deriving DecidableEq

/-- `util::Result<T, Err>`, with the error type first. -/
abbrev Result (Err T : Type*) := Except Err T

end NetDiscovery.Util
