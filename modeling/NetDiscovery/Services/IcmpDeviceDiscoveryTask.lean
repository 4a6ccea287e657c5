/-
# The ICMP discovery task

`discover` pings a host and posts a resolver for the returned future. When the
future is ready, the resolver stores its outcome as the result of a host. An
error is stored under the pinged host. A response is turned round, so that the
stored result reads in the direction of the request, but the key is taken from
the response's own destination, which is the interface that received the reply.

So a success is stored under the local address, whichever host was pinged.
`recorded_iff` says when an outcome is stored where it belongs.
-/

import NetDiscovery.Net.Scanner.ScannerSystem
import NetDiscovery.Services.DeviceDiscoveryTask

namespace NetDiscovery.Services

open NetDiscovery.Net NetDiscovery.Net.IcmpScanner NetDiscovery.Semantics NetDiscovery.Util

/-- The `TaskSuccess` that `IcmpPingResolver::onCompletion` makes of a response:
the sides are exchanged, to follow the order of the request. -/
def successOf (now : TimePoint) (response : IcmpResponse) : TaskSuccess where
  srcIp := response.dstIp
  srcMac := some response.dstMac
  dstIp := response.srcIp
  dstMac := some response.srcMac
  ttl := response.ttl
  responseTime := response.responseTime
  completedAt := now

/-- The `TaskError` that `IcmpPingResolver::onCompletion` makes of an error. -/
def errorOf (now : TimePoint) (error : IcmpError) : TaskError where
  dstIp := error.dstIp
  completedAt := now

/-- `IcmpPingResolver::onCompletion`. -/
def onCompletion (task : DeviceDiscoveryTask) (now : TimePoint) :
    Outcome → DeviceDiscoveryTask
  | .ok response => task.addSuccess response.dstIp (successOf now response)
  | .error error => task.addError error.dstIp (errorOf now error)

/-- An outcome as the result of a discovery task. -/
def resultOf (now : TimePoint) : Outcome → TaskResult
  | .ok response => .ok (successOf now response)
  | .error error => .error (errorOf now error)

/-- The host under which an outcome is stored: `dstIp` of either kind. -/
def storedUnder : Outcome → IPv4Address
  | .ok response => response.dstIp
  | .error error => error.dstIp

theorem getResult_onCompletion {task : DeviceDiscoveryTask} {now : TimePoint} {outcome : Outcome}
    {host : IPv4Address} : (onCompletion task now outcome).getResult host =
      if storedUnder outcome = host then some (resultOf now outcome) else task.getResult host := by
  cases outcome with
  | ok response => exact DeviceDiscoveryTask.getResult_addSuccess
  | error error => exact DeviceDiscoveryTask.getResult_addError

/-- `IcmpDeviceDiscoveryTask`: the results, the scanner, and which resolvers
have ended. -/
structure IcmpDeviceDiscoveryTask where
  task : DeviceDiscoveryTask
  scanner : System
  ended : ℕ → Bool

namespace IcmpDeviceDiscoveryTask

/-- The steps of a discovery task. -/
inductive Label
  /-- a step of the scanner, such as the two steps of `discover` -/
  | scan (a : IcmpScanner.Label)
  /-- the resolver of a call finds its future ready -/
  | complete (c : ℕ)
  | clearResults
  | clearResult (host : IPv4Address)

/-- A new discovery task. -/
def initial (now : TimePoint) : IcmpDeviceDiscoveryTask where
  task := .empty
  scanner := .initial now
  ended _ := false

variable (s : IcmpDeviceDiscoveryTask)

/-- `FutureResolver::run` once the future is ready. A broken promise makes
`onException`, which only writes to the log. -/
def complete (c : ℕ) : Option IcmpDeviceDiscoveryTask :=
  match s.ended c, s.scanner.futureState c with
  | false, .value outcome => some { s with
      task := onCompletion s.task s.scanner.clock outcome
      ended := Function.update s.ended c true }
  | false, .broken => some { s with ended := Function.update s.ended c true }
  | _, _ => none

/-- A discovery task uses `pingAsync` only, never the blocking `ping`. -/
def usesLabel : IcmpScanner.Label → Bool
  | .send _ _ blocking => !blocking
  | _ => true

/-- One step of a discovery task. -/
def step (parser : Parser) (s : IcmpDeviceDiscoveryTask) : Label → Option IcmpDeviceDiscoveryTask
  | .scan a =>
    if usesLabel a then
      (s.scanner.step parser a).map fun scanner => { s with scanner := scanner }
    else none
  | .complete c => s.complete c
  | .clearResults => some { s with task := s.task.clearResults }
  | .clearResult host => some { s with task := s.task.clearResult host }

variable {s} {t : IcmpDeviceDiscoveryTask} {parser : Parser} {c p : ℕ} {host localIp : IPv4Address}
  {now : TimePoint} {outcome : Outcome} {task : DeviceDiscoveryTask} {a : Label}

/-! ## Outcomes name their hosts -/

/-- A packet with an IPv4 layer is addressed to the local interface. -/
def AddressedTo (parser : Parser) (localIp : IPv4Address) (bytes : List UInt8) : Prop :=
  ∀ address, (parser bytes).ipv4Layer.map IPv4Layer.dstIpAddress = some address →
    address = localIp

/-- An outcome of a ping of `host`: its packet came from `host` to the local
interface, or its error names `host`. -/
def NamesHost (localIp host : IPv4Address) : Outcome → Prop
  | .ok response => response.srcIp = host ∧ response.dstIp = localIp
  | .error error => error.dstIp = host

/-- What ties the outcomes of pings to their hosts. -/
structure Routed (parser : Parser) (localIp : IPv4Address) (s : System) : Prop where
  consistent : s.Consistent
  addressed : ∀ packet, s.InFlight packet → AddressedTo parser localIp packet.bytes
  named : ∀ c p ping outcome, s.futures c = some p → s.pings c = some ping →
    s.table.future p = .value outcome → NamesHost localIp ping.host outcome

/-- The step lemma for `Routed`. -/
theorem Routed.step {s t : System} {a : IcmpScanner.Label} (routed : Routed parser localIp s)
    (haddressed : ∀ bytes, a = .receive bytes → AddressedTo parser localIp bytes)
    (hstep : s.step parser a = some t) : Routed parser localIp t where
  consistent := routed.consistent.step hstep
  addressed packet hflight := by
    rcases System.inFlight_of_step hstep hflight with hprior | ⟨bytes, _, hreceive, rfl⟩
    · exact routed.addressed packet hprior
    · exact haddressed bytes hreceive
  named c p ping outcome hfuture hping hvalue := by
    rcases System.future_of_step hstep hfuture with hprior | ⟨-, rfl, -⟩
    · obtain ⟨ping', hping'⟩ := routed.consistent.pinged c p hprior
      obtain rfl := Option.some.inj
        (((System.call_of_step hstep).1 c ping' hping').symm.trans hping)
      rcases System.value_of_step hstep hvalue with
        hold | ⟨key, entry, hentry, rfl, ⟨packet, response, hflight, rfl, hresponse, rfl⟩ | rfl⟩
      · exact routed.named c p ping' outcome hprior hping' hold
      · obtain ⟨htext, -⟩ := routed.consistent.routed c _ ping' _ entry hprior hping' hentry rfl
        exact ⟨IPv4Address.toString_injective htext,
          routed.addressed packet hflight _ (dstIp_of_responseAt hresponse)⟩
      · obtain ⟨-, hrequest⟩ :=
          routed.consistent.routed c _ ping' key entry hprior hping' hentry rfl
        exact congrArg Request.dstIp hrequest
    · -- a future that was just handed out has no value
      rcases System.value_of_step hstep hvalue with hold | ⟨key, entry, hentry, hpromise, -⟩
      · cases PendingTable.future_next.symm.trans hold
      · exact absurd (PendingTable.promise_lt_next hentry) (by simp [hpromise])

/-! ## Where outcomes are stored -/

theorem scan_eq_some {a : IcmpScanner.Label} (hstep : s.step parser (.scan a) = some t) :
    ∃ scanner, s.scanner.step parser a = some scanner ∧ t = { s with scanner := scanner } := by
  simp only [step] at hstep
  split_ifs at hstep
  obtain ⟨scanner, hscanner, rfl⟩ := Option.map_eq_some_iff.mp hstep
  exact ⟨scanner, hscanner, rfl⟩

theorem complete_eq_some (hstep : s.complete c = some t) :
    t.scanner = s.scanner ∧
      ((∃ outcome, s.scanner.futureState c = .value outcome ∧
        t.task = onCompletion s.task s.scanner.clock outcome) ∨
      (s.scanner.futureState c = .broken ∧ t.task = s.task)) := by
  unfold complete at hstep
  split at hstep
  · obtain rfl := Option.some.inj hstep
    exact ⟨rfl, .inl ⟨_, ‹_›, rfl⟩⟩
  · obtain rfl := Option.some.inj hstep
    exact ⟨rfl, .inr ⟨‹_›, rfl⟩⟩
  · cases hstep

/-- The packets a step receives are addressed to the local interface. -/
def ReceivesLocal (parser : Parser) (localIp : IPv4Address) : Label → Prop
  | .scan (.receive bytes) => AddressedTo parser localIp bytes
  | _ => True

/-- The outcomes of the scanner name their hosts, and no success is stored under
a host other than the local interface. -/
structure Sorted (parser : Parser) (localIp : IPv4Address) (s : IcmpDeviceDiscoveryTask) :
    Prop where
  routed : Routed parser localIp s.scanner
  local_of_success : ∀ host success, s.task.getResult host = some (.ok success) → host = localIp

theorem Sorted.initial (parser : Parser) (localIp : IPv4Address) (now : TimePoint) :
    Sorted parser localIp (initial now) where
  routed := {
    consistent := .initial now
    addressed := fun _ hflight => by rcases hflight with hnone | hnone | hnone <;> cases hnone
    named := fun _ _ _ _ hfuture => by cases hfuture }
  local_of_success host success hresult := by
    simp [IcmpDeviceDiscoveryTask.initial] at hresult

/-- The outcome of a registered call names the host it pinged. -/
theorem Sorted.names (sorted : Sorted parser localIp s) {ping : Ping}
    (hping : s.scanner.pings c = some ping) (hvalue : s.scanner.futureState c = .value outcome) :
    NamesHost localIp ping.host outcome := by
  unfold System.futureState at hvalue
  split at hvalue
  · exact sorted.routed.named c _ ping outcome ‹_› hping hvalue
  · cases hvalue

theorem Sorted.complete (sorted : Sorted parser localIp s) (hstep : s.complete c = some t) :
    Sorted parser localIp t := by
  obtain ⟨hscanner, ⟨outcome, hvalue, htask⟩ | ⟨-, htask⟩⟩ := complete_eq_some hstep
  · refine ⟨hscanner ▸ sorted.routed, fun host success hresult => ?_⟩
    -- a future with a value was registered, by a call of its own
    obtain ⟨p, hfuture⟩ : ∃ p, s.scanner.futures c = some p := by
      cases hfuture : s.scanner.futures c with
      | none => simp [System.futureState, hfuture] at hvalue
      | some p => exact ⟨p, rfl⟩
    obtain ⟨ping, hping⟩ := sorted.routed.consistent.pinged c p hfuture
    have hnames := sorted.names hping hvalue
    rw [htask, getResult_onCompletion] at hresult
    split_ifs at hresult with hhost
    · cases outcome with
      | ok response => exact hhost.symm.trans hnames.2
      | error error => cases hresult
    · exact sorted.local_of_success host success hresult
  · exact ⟨hscanner ▸ sorted.routed, htask ▸ sorted.local_of_success⟩

/-- The step lemma for `Sorted`. -/
theorem Sorted.step (sorted : Sorted parser localIp s) (hlocal : ReceivesLocal parser localIp a)
    (hstep : s.step parser a = some t) : Sorted parser localIp t := by
  cases a with
  | scan a =>
    obtain ⟨scanner, hscanner, rfl⟩ := scan_eq_some hstep
    refine ⟨sorted.routed.step ?_ hscanner, sorted.local_of_success⟩
    rintro bytes rfl
    exact hlocal
  | complete c => exact sorted.complete hstep
  | clearResults =>
    obtain rfl := Option.some.inj hstep
    refine ⟨sorted.routed, fun host success hresult => ?_⟩
    simp at hresult
  | clearResult cleared =>
    obtain rfl := Option.some.inj hstep
    refine ⟨sorted.routed, fun host success hresult => ?_⟩
    rw [DeviceDiscoveryTask.getResult_clearResult] at hresult
    split_ifs at hresult
    exact sorted.local_of_success host success hresult

/-- The result is stored for `host`, names it as its destination, and every
other host keeps its result. -/
def Recorded (before after : DeviceDiscoveryTask) (host : IPv4Address) (result : TaskResult) :
    Prop :=
  after.getResult host = some result ∧ result.dstIp = host ∧
    ∀ other, other ≠ host → after.getResult other = before.getResult other

theorem recorded_onCompletion (hnames : NamesHost localIp host outcome)
    (hhost : (∃ error, outcome = .error error) ∨ host = localIp) :
    Recorded task (onCompletion task now outcome) host (resultOf now outcome) := by
  -- the key is the pinged host: an error names it, and a success names the local address
  have hkey : storedUnder outcome = host := by
    cases outcome with
    | ok response =>
      rcases hhost with ⟨_, herror⟩ | rfl
      · cases herror
      · exact hnames.2
    | error error => exact hnames
  refine ⟨by rw [getResult_onCompletion, if_pos hkey], ?_, fun other hother => ?_⟩
  · cases outcome with
    | ok response => exact hnames.1
    | error error => exact hnames
  · rw [getResult_onCompletion, if_neg (hkey ▸ hother.symm)]

/-- **When the resolver of a ping completes, its outcome is recorded under the
pinged host exactly if it is an error or the host is the local interface.** -/
theorem recorded_iff (parser : Parser) (localIp : IPv4Address) (now : TimePoint)
    (trace : List (IcmpDeviceDiscoveryTask × Label)) (v w : IcmpDeviceDiscoveryTask) (c : ℕ)
    (ping : Ping) (outcome : Outcome) (run : Run (step parser) (initial now) trace v)
    (hlocal : ∀ x ∈ trace, ReceivesLocal parser localIp x.2)
    (hping : v.scanner.pings c = some ping) (hvalue : v.scanner.futureState c = .value outcome)
    (hstep : v.step parser (.complete c) = some w) :
    Recorded v.task w.task ping.host (resultOf v.scanner.clock outcome) ↔
      (∃ error, outcome = .error error) ∨ ping.host = localIp := by
  have sorted : Sorted parser localIp v := run.invariant_of_guard
    (C := fun _ a => ReceivesLocal parser localIp a) (.initial parser localIp now)
    (fun _ _ _ sorted hguard hstep => sorted.step hguard hstep) hlocal
  have hnames := sorted.names hping hvalue
  have htask : w.task = onCompletion v.task v.scanner.clock outcome := by
    obtain ⟨-, ⟨found, hfound, htask⟩ | ⟨hbroken, -⟩⟩ := complete_eq_some hstep
    · obtain rfl := SharedState.value.inj (hvalue.symm.trans hfound)
      exact htask
    · cases hvalue.symm.trans hbroken
  rw [htask]
  refine ⟨fun hrecorded => ?_, recorded_onCompletion hnames⟩
  cases outcome with
  | error error => exact .inl ⟨error, rfl⟩
  | ok response =>
    -- a success is stored under the local address, and no other host ever has one
    refine .inr (by_contra fun hremote => ?_)
    have hresult := hrecorded.1
    rw [getResult_onCompletion, if_neg] at hresult
    · exact hremote (sorted.local_of_success _ _ hresult)
    · exact fun hkey => hremote (hkey.symm.trans hnames.2)

/-- One host is discovered and does not answer. -/
def discoverSilentHost : List Label :=
  [.scan (.send 0 (.ofOctets 10 0 0 7) false), .scan (.register 0), .scan .start, .scan .poll,
    .scan .pop, .scan (.setClock 6000000000), .scan .sweep]

theorem recorded_discoverSilentHost :
    ∃ v w outcome, exec (step Packet.parse) (initial 0) discoverSilentHost = some v ∧
      v.scanner.futureState 0 = .value outcome ∧ v.step Packet.parse (.complete 0) = some w ∧
      Recorded v.task w.task (.ofOctets 10 0 0 7) (resultOf v.scanner.clock outcome) := by
  have hexec := Option.some_get
    (x := exec (step Packet.parse) (initial 0) discoverSilentHost) (by decide)
  refine ⟨_, _, _, hexec.symm, rfl, rfl, ?_⟩
  refine (recorded_iff Packet.parse (.ofOctets 10 0 0 1) 0 _ _ _ 0
    ⟨.ofOctets 10 0 0 7, false, 0⟩ _ (Run.of_exec hexec.symm) ?_ rfl rfl rfl).mpr (.inl ⟨_, rfl⟩)
  iterate 7 refine List.forall_mem_cons.mpr ⟨trivial, ?_⟩
  nofun

/-- One host is discovered and answers. -/
def discoverHost : List Label :=
  [.scan (.send 0 (.ofOctets 10 0 0 7) false), .scan (.register 0), .scan .start,
    .scan (.receive (Packet.sampleReply 7)), .scan .push, .scan .poll, .scan .pop, .scan .handle]

/-- The success of 10.0.0.7 is stored under the local address 10.0.0.1. -/
theorem not_recorded_discoverHost :
    ∃ v w outcome, Run (step Packet.parse) (initial 0)
        (record (step Packet.parse) (initial 0) discoverHost) v ∧
      (∀ x ∈ record (step Packet.parse) (initial 0) discoverHost,
        ReceivesLocal Packet.parse (.ofOctets 10 0 0 1) x.2) ∧
      v.scanner.pings 0 = some ⟨.ofOctets 10 0 0 7, false, 0⟩ ∧
      v.scanner.futureState 0 = .value outcome ∧ v.step Packet.parse (.complete 0) = some w ∧
      w.task.getResult (.ofOctets 10 0 0 7) = none ∧
      ¬ Recorded v.task w.task (.ofOctets 10 0 0 7) (resultOf v.scanner.clock outcome) := by
  have hexec := Option.some_get
    (x := exec (step Packet.parse) (initial 0) discoverHost) (by decide)
  have hlocal : (Packet.parse (Packet.sampleReply 7)).ipv4Layer.map IPv4Layer.dstIpAddress =
      some (.ofOctets 10 0 0 1) := by decide
  refine ⟨_, _, _, Run.of_exec hexec.symm, ?_, rfl, rfl, rfl, ?_⟩
  · iterate 3 refine List.forall_mem_cons.mpr ⟨trivial, ?_⟩
    refine List.forall_mem_cons.mpr ⟨fun address haddress => ?_, ?_⟩
    · exact Option.some.inj (haddress.symm.trans hlocal)
    · iterate 4 refine List.forall_mem_cons.mpr ⟨trivial, ?_⟩
      nofun
  · refine and_iff_left_of_imp ?_ |>.mpr (Option.isNone_iff_eq_none.mp (by decide))
    intro hnone hrecorded
    cases hnone.symm.trans hrecorded.1

end IcmpDeviceDiscoveryTask

end NetDiscovery.Services
