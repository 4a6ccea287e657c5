/-
# The application's directed pings

The application's `discover` looks for a device with the host's address, and then sends
the echo request to the device's station, or as a broadcast. Between the two statements
the runner's thread may hand further answers to the success callback, which makes a
device of every station that answers for the first time.

A device keeps its station and its address. So the station of a directed ping is the
least one whose first answer came from the host, and a packet of the host has come from
it. A host that was found is found for good: no later ping of it is broadcast, and none
goes to a higher station, whoever has the address by then.
-/

import NetDiscovery.App.MyIcmpDeviceDiscoveryTask
import NetDiscovery.Services.DiscoverySystem

namespace NetDiscovery.App

open NetDiscovery.Math NetDiscovery.Net NetDiscovery.Net.IcmpScanner NetDiscovery.Repo
open NetDiscovery.Semantics NetDiscovery.Services NetDiscovery.Util

/-- The discovery task of the application with its repository. -/
structure Application where
  discovery : DiscoverySystem
  devices : DeviceMap Device
  /-- the host and the station that a call of `discover` has come to -/
  lookups : ℕ → Option (IPv4Address × MacAddress)

namespace Application

/-- A new application. -/
def initial (now : TimePoint) : Application where
  discovery := .initial now
  devices := ∅
  lookups _ := none

/-- The statements of `discover`, and what else happens to the discovery task. -/
inductive Label
  /-- `m_deviceRepo.find(host)` -/
  | lookUp (c : ℕ) (host : IPv4Address)
  /-- `pingAsync` in `createPingResolver`, up to the echo request -/
  | send (c : ℕ)
  /-- any other step, such as the rest of `discover` -/
  | discovery (a : DiscoverySystem.Label)

/-- A step that sends an echo request. -/
def sends : DiscoverySystem.Label → Bool
  | .scan (.send _ _ _) => true
  | _ => false

/-- What a step hands to `m_onDevicePinged`. -/
def pinged (s : DiscoverySystem) (a : DiscoverySystem.Label) : Option TaskSuccess :=
  match DiscoverySystem.completes (s, a) with
  | some c =>
    match s.scanner.futureState c with
    | .value (.ok response) => some (successOf s.scanner.clock response)
    | _ => none
  | none => none

/-- One step. The callback reads and creates under the repository's lock, and no one else
creates a device, so a lookup comes before both or after both. -/
def step (parser : Parser) (s : Application) : Label → Option Application
  | .lookUp c host =>
    match s.lookups c with
    | none => some { s with
        lookups := Function.update s.lookups c (some (discover s.devices host)) }
    | some _ => none
  | .send c =>
    match s.lookups c with
    | some (host, _) => (s.discovery.step parser (.scan (.send c host false))).map
        fun discovery => { s with discovery := discovery }
    | none => none
  | .discovery a =>
    if sends a then none
    else (s.discovery.step parser a).map fun discovery => { s with
      discovery := discovery
      devices := (pinged s.discovery a).toList.foldl onDevicePinged s.devices }

/-- The packet that the runner's thread hands to `onPacketReceived` in a step. -/
def handles : Application × Label → Option ReceivedPacket
  | (s, .discovery .body) =>
    match s.discovery.runner.running, s.discovery.phase, s.discovery.scanner.task with
    | some .pingResolver, .scanning, .handling packet => some packet
    | _, _, _ => none
  | _ => none

/-- The packets that have been handled in a run. -/
def handled (trace : List (Application × Label)) : List ReceivedPacket :=
  trace.filterMap handles

/-- The answers that the application has been handed, oldest first. -/
def answers (s : Application) : List TaskSuccess :=
  s.discovery.results.devicePinged

end Application

/-- The packet comes from the host and from the station. -/
def Announces (parser : Parser) (packet : ReceivedPacket) (host : IPv4Address)
    (mac : MacAddress) : Prop :=
  ∃ read, readResponse (parser packet.bytes) = some read ∧ read.srcIp = host ∧ read.srcMac = mac

/-- The first answer of the station came from the host. -/
def FirstFrom (results : List TaskSuccess) (host : IPv4Address) (mac : MacAddress) : Prop :=
  ∃ result, (results.find? fun result => result.dstMac = some mac) = some result ∧
    result.dstIp = host

variable {results later : List TaskSuccess} {host : IPv4Address} {mac : MacAddress}
  {device : Device} {parser : Parser} {packet : ReceivedPacket} {response : IcmpResponse}
  {sent : TimePoint}

/-! ## Which device is found -/

/-- The devices are the first answers of their stations. -/
theorem firstFrom_iff : FirstFrom results host mac ↔
    ∃ device, contents (process results) mac = some device ∧ device.ipAddress = host := by
  have hidentity := identity_process results mac
  constructor
  · rintro ⟨result, hfirst, rfl⟩
    rw [hfirst] at hidentity
    obtain ⟨device, hlookup, hdevice⟩ := Option.map_eq_some_iff.mp hidentity
    exact ⟨device, hlookup, congrArg Prod.fst hdevice⟩
  · rintro ⟨device, hlookup, rfl⟩
    rw [hlookup] at hidentity
    obtain ⟨result, hfirst, hresult⟩ := Option.map_eq_some_iff.mp hidentity.symm
    exact ⟨result, hfirst, congrArg Prod.fst hresult⟩

theorem isLeast_of_find (hfind : find (process results) host = .ok device) :
    IsLeast {mac | FirstFrom results host mac} device.macAddress := by
  obtain ⟨key, least⟩ := find_eq_ok_iff.mp hfind
  obtain ⟨rfl, -⟩ := exists_result least.lookup
  constructor
  · exact firstFrom_iff.mpr ⟨device, least.lookup, of_decide_eq_true least.holds⟩
  · intro mac hfirst
    obtain ⟨other, hother, hhost⟩ := firstFrom_iff.mp hfirst
    exact least.le mac other hother (decide_eq_true hhost)

theorem exists_find (hfirst : FirstFrom results host mac) :
    ∃ device, find (process results) host = .ok device := by
  obtain ⟨device, hlookup, hhost⟩ := firstFrom_iff.mp hfirst
  obtain ⟨first, hmatch⟩ := exists_firstMatch (p := fun device : Device => device.ipAddress = host)
    hlookup (decide_eq_true hhost)
  exact ⟨first, by rw [find, findBy, hmatch, found]⟩

/-- The station that is found is the least of those. -/
theorem isLeast_iff : IsLeast {mac | FirstFrom results host mac} mac ↔
    ∃ device, find (process results) host = .ok device ∧ device.macAddress = mac := by
  constructor
  · intro least
    obtain ⟨device, hfind⟩ := exists_find least.1
    exact ⟨device, hfind, (isLeast_of_find hfind).unique least⟩
  · rintro ⟨device, hfind, rfl⟩
    exact isLeast_of_find hfind

theorem FirstFrom.append (hfirst : FirstFrom results host mac) :
    FirstFrom (results ++ later) host mac := by
  obtain ⟨result, hfind, hhost⟩ := hfirst
  refine ⟨result, ?_, hhost⟩
  rw [List.find?_append, hfind, Option.some_or]

/-- A host that is found stays found, under no higher station. -/
theorem find_append (hfind : find (process results) host = .ok device) :
    ∃ device', find (process (results ++ later)) host = .ok device' ∧
      device'.macAddress ≤ device.macAddress := by
  have hfirst : FirstFrom (results ++ later) host device.macAddress :=
    (isLeast_of_find hfind).1.append
  obtain ⟨device', hfind'⟩ := exists_find hfirst
  exact ⟨device', hfind', (isLeast_of_find hfind').2 hfirst⟩

/-! ## Steps of the discovery task -/

theorem announces_of_responseAt (hresponse : responseAt parser packet sent = some response) :
    Announces parser packet response.srcIp response.srcMac := by
  obtain ⟨read, hread, rfl⟩ := Option.map_eq_some_iff.mp hresponse
  exact ⟨read, hread, rfl, rfl⟩

namespace Application

variable {s t : Application} {v w : DiscoverySystem} {a : Label} {b : DiscoverySystem.Label}
  {trace : List (Application × Label)} {c p : ℕ} {now : TimePoint} {success : TaskSuccess}

/-- The answers grow by what a step hands to the callback. -/
theorem devicePinged_of_step (hstep : v.step parser b = some w) :
    w.results.devicePinged = v.results.devicePinged ++ (pinged v b).toList := by
  cases b with
  | scan a =>
    obtain ⟨-, scanner, -, rfl⟩ := DiscoverySystem.step_scan hstep
    exact (List.append_nil _).symm
  | startScanning =>
    obtain rfl := DiscoverySystem.step_startScanning hstep
    exact (List.append_nil _).symm
  | postPingResolver =>
    obtain ⟨starting, -, rfl⟩ := DiscoverySystem.step_postPingResolver hstep
    exact (List.append_nil _).symm
  | postRequest c =>
    obtain ⟨-, -, rfl⟩ := DiscoverySystem.step_postRequest hstep
    exact (List.append_nil _).symm
  | clearResults | clearResult =>
    obtain rfl := Option.some.inj hstep
    exact (List.append_nil _).symm
  | runner b =>
    obtain ⟨-, runner, -, rfl⟩ := DiscoverySystem.step_runner hstep
    exact (List.append_nil _).symm
  | body =>
    cases DiscoverySystem.bodyStep_of_body hstep with
    | poll hrunning | pop hrunning | handle hrunning | sweep hrunning =>
      simp [pinged, DiscoverySystem.completes, hrunning]
    | @resolve c hrunning =>
      -- a resolver calls back only for an outcome, and only once it is there
      cases hstate : v.scanner.futureState c with
      | unset | broken =>
        simp [pinged, DiscoverySystem.completes, DiscoverySystem.resolve, hrunning, hstate]
      | value outcome =>
        cases outcome <;> simp [pinged, DiscoverySystem.completes, DiscoverySystem.resolve,
          hrunning, hstate, onCompletion, DeviceDiscoveryTask.addSuccess,
          DeviceDiscoveryTask.addError]

/-- A future gets a response when the runner's thread handles a packet. -/
theorem response_of_step (hstep : v.step parser b = some w)
    (hvalue : w.scanner.table.future p = .value (.ok response)) :
    v.scanner.table.future p = .value (.ok response) ∨
      b = .body ∧ ∃ packet, v.runner.running = some .pingResolver ∧ v.phase = .scanning ∧
        v.scanner.task = .handling packet ∧
          Announces parser packet response.srcIp response.srcMac := by
  cases b with
  | scan a =>
    obtain ⟨houtside, scanner, hscan, rfl⟩ := DiscoverySystem.step_scan hstep
    -- packets are handled by the run of the task, not outside of it
    rcases System.response_of_step hscan hvalue with hprior | ⟨rfl, -⟩
    · exact .inl hprior
    · cases houtside
  | startScanning =>
    obtain rfl := DiscoverySystem.step_startScanning hstep
    exact .inl hvalue
  | postPingResolver =>
    obtain ⟨starting, -, rfl⟩ := DiscoverySystem.step_postPingResolver hstep
    exact .inl hvalue
  | postRequest c =>
    obtain ⟨-, -, rfl⟩ := DiscoverySystem.step_postRequest hstep
    exact .inl hvalue
  | clearResults | clearResult =>
    obtain rfl := Option.some.inj hstep
    exact .inl hvalue
  | runner b =>
    obtain ⟨-, runner, -, rfl⟩ := DiscoverySystem.step_runner hstep
    exact .inl hvalue
  | body =>
    cases DiscoverySystem.bodyStep_of_body hstep with
    | poll _ _ hscan | pop _ _ _ hscan | sweep _ _ _ hscan =>
      exact .inl ((System.response_of_step hscan hvalue).resolve_right (by simp))
    | @handle scanner packet hrunning hphase htask hscan =>
      rcases System.response_of_step hscan hvalue with
        hprior | ⟨-, read, _, _, hread, -, -, -, hresponse⟩
      · exact .inl hprior
      · obtain rfl := TaskPhase.handling.inj (htask.symm.trans hread)
        exact .inr ⟨rfl, packet, hrunning, hphase, htask, announces_of_responseAt hresponse⟩
    | resolve => exact .inl (by simpa using hvalue)

/-! ## Steps -/

theorem step_lookUp (hstep : s.step parser (.lookUp c host) = some t) :
    t = { s with lookups := Function.update s.lookups c (some (discover s.devices host)) } := by
  simp only [step] at hstep
  split at hstep
  · exact (Option.some.inj hstep).symm
  · cases hstep

theorem step_send (hstep : s.step parser (.send c) = some t) :
    ∃ host mac w, s.lookups c = some (host, mac) ∧
      s.discovery.step parser (.scan (.send c host false)) = some w ∧
        t = { s with discovery := w } := by
  simp only [step] at hstep
  split at hstep
  · next host mac hlookup =>
    obtain ⟨w, hsend, rfl⟩ := Option.map_eq_some_iff.mp hstep
    exact ⟨host, mac, w, hlookup, hsend, rfl⟩
  · cases hstep

theorem step_discovery (hstep : s.step parser (.discovery b) = some t) :
    ∃ w, s.discovery.step parser b = some w ∧ t = { s with
      discovery := w
      devices := (pinged s.discovery b).toList.foldl onDevicePinged s.devices } := by
  simp only [step] at hstep
  split_ifs at hstep
  obtain ⟨w, hdiscovery, rfl⟩ := Option.map_eq_some_iff.mp hstep
  exact ⟨w, hdiscovery, rfl⟩

theorem answers_of_send {w : DiscoverySystem}
    (hsend : s.discovery.step parser (.scan (.send c host false)) = some w) :
    w.results.devicePinged = s.answers :=
  (devicePinged_of_step hsend).trans (List.append_nil _)

/-- What is handed to the callback has been the response of some future. -/
theorem response_of_pinged (hpinged : pinged v b = some success) :
    ∃ p response, v.scanner.table.future p = .value (.ok response) ∧
      success = successOf v.scanner.clock response := by
  unfold pinged at hpinged
  split at hpinged
  · next c _ =>
    split at hpinged
    · next response hstate =>
      obtain rfl := Option.some.inj hpinged
      unfold System.futureState at hstate
      split at hstate
      · exact ⟨_, response, hstate, rfl⟩
      · cases hstate
    · cases hpinged
  · cases hpinged

/-! ## Runs -/

/-- A packet has been handled that comes from the host and from the station. -/
def Heard (parser : Parser) (trace : List (Application × Label)) (host : IPv4Address)
    (mac : MacAddress) : Prop :=
  ∃ packet ∈ handled trace, Announces parser packet host mac

theorem handled_snoc : handled (trace ++ [(s, a)]) = handled trace ++ (handles (s, a)).toList := by
  rw [handled, List.filterMap_append]
  cases h : handles (s, a) <;> simp [handled, h]

theorem Heard.snoc (heard : Heard parser trace host mac) :
    Heard parser (trace ++ [(s, a)]) host mac := by
  obtain ⟨packet, hmem, hannounces⟩ := heard
  rw [Heard, handled_snoc]
  exact ⟨packet, List.mem_append_left _ hmem, hannounces⟩

/-- What holds of the devices and of the answers they are made of. -/
structure Sound (parser : Parser) (trace : List (Application × Label)) (s : Application) :
    Prop where
  devices_eq : s.devices = process s.answers
  responded : ∀ p response, s.discovery.scanner.table.future p = .value (.ok response) →
    Heard parser trace response.srcIp response.srcMac
  answered : ∀ success ∈ s.answers, ∀ mac, success.dstMac = some mac →
    Heard parser trace success.dstIp mac
  directed : ∀ c host mac, s.lookups c = some (host, mac) → mac ≠ .broadcast →
    Heard parser trace host mac

theorem sound_initial (parser : Parser) (now : TimePoint) : Sound parser [] (initial now) where
  devices_eq := rfl
  responded _ _ hvalue := by cases hvalue
  answered _ hmem := by cases hmem
  directed _ _ _ hlookup := by cases hlookup

/-- The station of a device has been heard of. -/
theorem Sound.heard_of_find (sound : Sound parser trace s)
    (hfind : find s.devices host = .ok device) : Heard parser trace host device.macAddress := by
  rw [sound.devices_eq] at hfind
  obtain ⟨⟨result, hfirst, rfl⟩, -⟩ := isLeast_of_find hfind
  exact sound.answered result (List.mem_of_find?_eq_some hfirst) _
    (by simpa using List.find?_some hfirst)

theorem Sound.step_lookUp (sound : Sound parser trace s)
    (hstep : s.step parser (.lookUp c host) = some t) :
    Sound parser (trace ++ [(s, .lookUp c host)]) t := by
  obtain rfl := Application.step_lookUp hstep
  refine ⟨sound.devices_eq, fun p response hvalue => (sound.responded p response hvalue).snoc,
    fun success hmem mac hmac => (sound.answered success hmem mac hmac).snoc, ?_⟩
  intro d other mac hlookup hdirected
  by_cases heq : d = c
  · subst heq
    have hdiscover : discover s.devices host = (other, mac) := by simpa using hlookup
    unfold discover at hdiscover
    split at hdiscover
    · next device hfind =>
      obtain ⟨rfl, rfl⟩ := Prod.mk.inj hdiscover
      exact (sound.heard_of_find hfind).snoc
    · obtain ⟨-, rfl⟩ := Prod.mk.inj hdiscover
      exact absurd rfl hdirected
  · have hprior : s.lookups d = some (other, mac) := by simpa [heq] using hlookup
    exact (sound.directed d other mac hprior hdirected).snoc

/-- The step lemma for the discovery task. -/
theorem Sound.step_discovery (sound : Sound parser trace s)
    (hstep : s.step parser (.discovery b) = some t) :
    Sound parser (trace ++ [(s, .discovery b)]) t := by
  obtain ⟨w, hdiscovery, rfl⟩ := Application.step_discovery hstep
  have hanswers : w.results.devicePinged = s.answers ++ (pinged s.discovery b).toList :=
    devicePinged_of_step hdiscovery
  -- the devices follow the successes, these the futures, and the futures the packets
  refine ⟨?_, ?_, ?_, fun c host mac hlookup hdirected =>
    (sound.directed c host mac hlookup hdirected).snoc⟩
  · change List.foldl onDevicePinged s.devices _ = process w.results.devicePinged
    rw [hanswers, sound.devices_eq, process, process, List.foldl_append]
  · intro p response hvalue
    rcases response_of_step hdiscovery hvalue with
      hprior | ⟨rfl, packet, hrunning, hphase, htask, hannounces⟩
    · exact (sound.responded p response hprior).snoc
    · refine ⟨packet, ?_, hannounces⟩
      rw [handled_snoc]
      refine List.mem_append_right _ ?_
      simp [handles, hrunning, hphase, htask]
  · intro success hmem mac hmac
    change success ∈ w.results.devicePinged at hmem
    rw [hanswers] at hmem
    rcases List.mem_append.mp hmem with hprior | hnew
    · exact (sound.answered success hprior mac hmac).snoc
    · obtain ⟨p, response, hvalue, rfl⟩ := response_of_pinged (Option.mem_toList.mp hnew)
      obtain rfl : response.srcMac = mac := Option.some.inj hmac
      exact (sound.responded p response hvalue).snoc

/-- The step lemma for an echo request, which gives no future a response. -/
theorem Sound.step_send (sound : Sound parser trace s)
    (hstep : s.step parser (.send c) = some t) : Sound parser (trace ++ [(s, .send c)]) t := by
  obtain ⟨host, mac, w, -, hsend, rfl⟩ := Application.step_send hstep
  have hanswers : w.results.devicePinged = s.answers := answers_of_send hsend
  refine ⟨?_, ?_, ?_, fun d other mac hlookup hdirected =>
    (sound.directed d other mac hlookup hdirected).snoc⟩
  · change s.devices = process w.results.devicePinged
    rw [hanswers, sound.devices_eq]
  · intro p response hvalue
    rcases response_of_step hsend hvalue with hprior | ⟨hbody, -⟩
    · exact (sound.responded p response hprior).snoc
    · cases hbody
  · intro success hmem mac hmac
    change success ∈ w.results.devicePinged at hmem
    rw [hanswers] at hmem
    exact (sound.answered success hmem mac hmac).snoc

/-- The step lemma. -/
theorem Sound.step (sound : Sound parser trace s) (hstep : s.step parser a = some t) :
    Sound parser (trace ++ [(s, a)]) t := by
  cases a with
  | lookUp c host => exact sound.step_lookUp hstep
  | send c => exact sound.step_send hstep
  | discovery b => exact sound.step_discovery hstep

theorem sound_of_run (run : Run (step parser) (initial now) trace s) : Sound parser trace s :=
  run.induction_of_guard (C := fun _ _ => True) (sound_initial parser now)
    (fun _ _ _ _ sound _ hstep => sound.step hstep) fun _ _ => trivial

/-- No answer is forgotten. -/
theorem answers_of_step (hstep : s.step parser a = some t) :
    ∃ later, t.answers = s.answers ++ later := by
  cases a with
  | lookUp c host =>
    obtain rfl := step_lookUp hstep
    exact ⟨[], (List.append_nil _).symm⟩
  | send c =>
    obtain ⟨host, mac, w, -, hsend, rfl⟩ := step_send hstep
    exact ⟨[], (answers_of_send hsend).trans (List.append_nil _).symm⟩
  | discovery b =>
    obtain ⟨w, hdiscovery, rfl⟩ := step_discovery hstep
    exact ⟨_, devicePinged_of_step hdiscovery⟩

theorem answers_of_run (run : Run (step parser) s trace t) :
    ∃ later, t.answers = s.answers ++ later := by
  induction run with
  | nil => exact ⟨[], (List.append_nil _).symm⟩
  | snoc _ hstep ih =>
    obtain ⟨later, hlater⟩ := ih
    obtain ⟨more, hmore⟩ := answers_of_step hstep
    exact ⟨later ++ more, by rw [hmore, hlater, List.append_assoc]⟩

/-- To which stations the pings of a run go. -/
structure PingsStations (parser : Parser) (trace : List (Application × Label)) : Prop where
  /-- A ping goes out as a broadcast, or to a station from which a packet of the host has
  been handled. -/
  heard : ∀ l v c r host mac, trace = l ++ (v, .send c) :: r →
    v.lookups c = some (host, mac) → mac ≠ .broadcast → Heard parser l host mac
  /-- The station that a lookup finds is the least of those whose first answer came from
  the host. -/
  least : ∀ l v c host r mac, trace = l ++ (v, .lookUp c host) :: r →
    ((∃ device, find v.devices host = .ok device ∧ device.macAddress = mac) ↔
      IsLeast {mac | FirstFrom v.answers host mac} mac)
  /-- After that every lookup of the host finds a station, and no higher one. -/
  kept : ∀ l v c m w d r host device,
    trace = l ++ (v, .lookUp c host) :: (m ++ (w, .lookUp d host) :: r) →
    find v.devices host = .ok device →
      ∃ device', find w.devices host = .ok device' ∧ device'.macAddress ≤ device.macAddress

/-- **In every run of the application, a ping that is not broadcast goes to a station
that the host has been heard from, the least of those whose first answer came from the
host; and once a host is found, it is found for good and under no higher station.** -/
theorem pingsStations_of_run (parser : Parser) (now : TimePoint)
    (trace : List (Application × Label)) (s : Application)
    (run : Run (step parser) (initial now) trace s) : PingsStations parser trace := by
  refine ⟨?_, ?_, ?_⟩
  · intro l v c r host mac hsplit hlookup hdirected
    obtain ⟨-, hleft, -, -⟩ := run.split_at hsplit
    exact (sound_of_run hleft).directed c host mac hlookup hdirected
  · intro l v c host r mac hsplit
    obtain ⟨-, hleft, -, -⟩ := run.split_at hsplit
    rw [(sound_of_run hleft).devices_eq]
    exact isLeast_iff.symm
  · intro l v c m w d r host device hsplit hfind
    obtain ⟨u, hleft, hstep, hright⟩ := run.split_at hsplit
    obtain ⟨-, hmiddle, -, -⟩ := hright.split_at rfl
    have hlater := (hleft.snoc hstep).append hmiddle
    -- the successes at the later time begin with those of the earlier one
    obtain ⟨more, hmore⟩ := answers_of_run hmiddle
    obtain ⟨more', hmore'⟩ := answers_of_step hstep
    rw [(sound_of_run hleft).devices_eq] at hfind
    rw [(sound_of_run hlater).devices_eq, hmore, hmore', List.append_assoc]
    exact find_append hfind

/-- A host is discovered and answers, and is then discovered again. -/
def discoverTwice : List Label :=
  [.discovery .startScanning, .discovery .postPingResolver, .lookUp 0 (.ofOctets 10 0 0 7),
    .send 0, .discovery (.scan (.register 0)), .discovery (.postRequest 0),
    .discovery (.scan (.receive (Packet.sampleReply 7))), .discovery (.scan .push),
    .discovery (.runner (.run 0)), .discovery .body, .discovery .body, .discovery .body,
    .discovery (.runner (.finish .runAgain)), .discovery (.runner (.run 0)), .discovery .body,
    .discovery (.runner (.finish .ended)), .lookUp 1 (.ofOctets 10 0 0 7), .send 1]

theorem pingsStations_discoverTwice :
    ∃ final, exec (step Packet.parse) (initial 0) discoverTwice = some final ∧
      final.lookups 0 = some (.ofOctets 10 0 0 7, .broadcast) ∧
      final.lookups 1 = some (.ofOctets 10 0 0 7, ⟨![7, 0, 0, 0, 0, 2]⟩) ∧
      PingsStations Packet.parse (record (step Packet.parse) (initial 0) discoverTwice) := by
  have hexec := Option.some_get (x := exec (step Packet.parse) (initial 0) discoverTwice)
    (by decide)
  exact ⟨_, hexec.symm, by decide, by decide,
    pingsStations_of_run _ _ _ _ (Run.of_exec hexec.symm)⟩

end Application

end NetDiscovery.App
