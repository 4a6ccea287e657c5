/-
# The order of values, operations and callbacks

A second value for a promise would end the process, and a callback to an erased
request would use a dangling pointer. Neither happens while the session calls
back once for each accepted operation: a request has one operation outstanding
until its value is stored, and none after that.
-/

import NetDiscovery.Net.Snmp.SessionCoherence

namespace NetDiscovery.Net.SnmpSession

open NetDiscovery.Semantics NetDiscovery.Util SnmpClient

variable {session : SnmpSession} {uuid : Uuid}

/-- The history of every request is well conducted. -/
theorem Coherent.ordered (coherent : session.Coherent) (uuid : Uuid) :
    (session.tracks uuid).history.Pairwise InOrder := by
  cases hfuture : session.client.futures uuid with
  | none =>
    rw [(coherent.new uuid hfuture).1]
    exact .nil
  | some p =>
    obtain ⟨status, tracked⟩ := coherent.tracked uuid p hfuture
    exact tracked.life.ordered

/-- A callback finds its request, and the promise is still without a value. -/
def FindsRequest (session : SnmpSession) : Label → Prop
  | .callback uuid _ _ _ => ∃ request, session.client.pendingRequests[uuid]? = some request ∧
      session.client.promises.cell request.promise = .unset
  | _ => True

theorem Coherent.findsRequest {a : Label} {t : SnmpSession} (coherent : session.Coherent)
    (hstep : session.step a = some t) : session.FindsRequest a := by
  cases a with
  | createRequest | handOver | takeFuture => trivial
  | callback uuid reason pdu accepted =>
    obtain ⟨houtstanding, -⟩ := step_callback hstep
    obtain ⟨request, hrequest, -, hunset, -⟩ := coherent.exists_waiting houtstanding
    exact ⟨request, hrequest, hunset⟩

/-- **In every run the value of a request is stored at most once, no operation is
issued for it after that, and every callback finds its request.** -/
theorem ordered_of_run (trace : List (SnmpSession × Label)) (final : SnmpSession)
    (run : Run step initial trace final) :
    (∀ uuid, (final.tracks uuid).history.Pairwise InOrder) ∧
      ∀ x ∈ trace, x.1.FindsRequest x.2 := by
  have hcoherent : ∀ {l : List (SnmpSession × Label)} {v : SnmpSession},
      Run step initial l v → v.Coherent := fun prior =>
    prior.invariant .initial fun _ _ _ coherent hstep => coherent.step hstep
  refine ⟨(hcoherent run).ordered, fun ⟨v, a⟩ hmem => ?_⟩
  obtain ⟨l, w, prior, hstep⟩ := run.step_of_mem hmem
  exact (hcoherent prior).findsRequest hstep

/-- A walk whose first answer goes on and whose second one leaves the subtree,
beside a `get` that times out. -/
def walkBesideGet : List Label :=
  [.createRequest 0 (.walk [1, 3]) (.ofOctets 10 0 0 7), .handOver 0 true,
    .createRequest 1 (.get [[1, 4]]) (.ofOctets 10 0 0 8), .takeFuture 0, .handOver 1 true,
    .callback 0 .asyncResponse [⟨[1, 3, 1], .int 7, true, "7"⟩] true, .callback 1 .timeout [] true,
    .takeFuture 1, .callback 0 .asyncResponse [⟨[1, 4], .int 7, true, "7"⟩] true]

theorem ordered_walkBesideGet :
    ∃ final, exec step initial walkBesideGet = some final ∧
      (∀ uuid, (final.tracks uuid).history.Pairwise InOrder) ∧
      ∀ x ∈ record step initial walkBesideGet, x.1.FindsRequest x.2 := by
  have hexec := Option.some_get (x := exec step initial walkBesideGet) (by decide)
  exact ⟨_, hexec.symm, ordered_of_run _ _ (Run.of_exec hexec.symm)⟩

end NetDiscovery.Net.SnmpSession
