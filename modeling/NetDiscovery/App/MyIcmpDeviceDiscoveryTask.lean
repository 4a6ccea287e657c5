/-
# Discovering known devices

The application keeps a device for every station that has answered a ping. A result of
an unknown station makes a device, one of a known station only updates its response time.
`discover` looks for a device with the host's address, in the order of the stations, and
pings its station; without such a device the ping is broadcast.

A device keeps the address of the first result of its station, and a device never goes
away. `findsStations_iff` says for which results the station that answered last is found.
-/

import NetDiscovery.Math.FirstMatch
import NetDiscovery.Repo.DeviceRepository
import NetDiscovery.Services.DeviceDiscoveryTask

namespace NetDiscovery.App

open NetDiscovery.Math NetDiscovery.Net NetDiscovery.Repo NetDiscovery.Services NetDiscovery.Util

/-- `models::Device`. -/
structure Device where
  ipAddress : IPv4Address
  macAddress : MacAddress
  responseTime : ℤ

/-- `Device::setResponseTime`. -/
def Device.setResponseTime (device : Device) (ms : ℤ) : Device :=
  { device with responseTime := ms }

/-- The address and the station of a device. -/
def Device.identity (device : Device) : IPv4Address × MacAddress :=
  (device.ipAddress, device.macAddress)

/-- `DeviceRepository::findBy`. -/
def findBy (devices : DeviceMap Device) (func : Device → Bool) : Result ErrorType Device :=
  found (firstMatch devices func)

/-- `DeviceRepository::find`. -/
def find (devices : DeviceMap Device) (ip : IPv4Address) : Result ErrorType Device :=
  findBy devices fun device => device.ipAddress = ip

/-- The success callback of the application. The device that `read` returns is shared
with the repository. -/
def onDevicePinged (devices : DeviceMap Device) (result : TaskSuccess) : DeviceMap Device :=
  match result.dstMac with
  | none => devices
  | some mac =>
    match found (contents devices mac) with
    | .ok device => mutate devices mac (device.setResponseTime result.responseTime)
    | .error _ => perform devices (.create mac ⟨result.dstIp, mac, result.responseTime⟩)

/-- `MyIcmpDeviceDiscoveryTask::discover`: the host and the station of the ping. -/
def discover (devices : DeviceMap Device) (host : IPv4Address) : IPv4Address × MacAddress :=
  match find devices host with
  | .ok device => (host, device.macAddress)
  | .error _ => (host, .broadcast)

/-- The repository after some results. -/
def process (results : List TaskSuccess) : DeviceMap Device :=
  results.foldl onDevicePinged ∅

/-- The station that gave a result is found under its address, and pinged next. -/
structure FindsStation (devices : DeviceMap Device) (result : TaskSuccess) : Prop where
  find_eq : ∀ mac, result.dstMac = some mac →
    ∃ device, find devices result.dstIp = .ok device ∧ device.macAddress = mac
  discover_eq : ∀ mac, result.dstMac = some mac →
    discover devices result.dstIp = (result.dstIp, mac)

/-- It is found after each of a sequence of results. -/
def FindsStations (results : List TaskSuccess) : Prop :=
  ∀ earlier result later, results = earlier ++ result :: later →
    FindsStation (process (earlier ++ [result])) result

/-- A later result of the same station has the same address, and one of the same address
has a station that is no higher. -/
def Settled (earlier later : TaskSuccess) : Prop :=
  ∀ mac mac', earlier.dstMac = some mac → later.dstMac = some mac' →
    (mac = mac' → earlier.dstIp = later.dstIp) ∧ (earlier.dstIp = later.dstIp → mac' ≤ mac)

variable {devices : DeviceMap Device} {result : TaskSuccess} {results : List TaskSuccess}
  {mac : MacAddress} {ip : IPv4Address} {device : Device}

/-! ## The devices are the first results of their stations -/

theorem process_concat :
    process (results ++ [result]) = onDevicePinged (process results) result := by
  rw [process, List.foldl_concat, process]

/-- The step lemma: an unknown station gets a device, and nothing else changes but a
response time. -/
theorem identity_onDevicePinged : (contents (onDevicePinged devices result) mac).map
    Device.identity = ((contents devices mac).map Device.identity).or
      (if result.dstMac = some mac then some (result.dstIp, mac) else none) := by
  unfold onDevicePinged
  cases hmac : result.dstMac with
  | none => simp
  | some mac' =>
    cases hlookup : contents devices mac' with
    | some device =>
      -- the device keeps its address and its station
      simp only [hlookup, found, contents_mutate]
      by_cases heq : mac = mac'
      · subst heq
        simp [hlookup, Device.identity, Device.setResponseTime]
      · simp [heq, Ne.symm heq]
    | none =>
      simp only [hlookup, found, contents_perform, act]
      by_cases heq : mac = mac'
      · subst heq
        simp [hlookup, Device.identity]
      · simp [heq, Ne.symm heq]

/-- The run lemma. -/
theorem identity_process (results : List TaskSuccess) (mac : MacAddress) :
    (contents (process results) mac).map Device.identity =
      (results.find? fun result => result.dstMac = some mac).map
        fun result => (result.dstIp, mac) := by
  induction results using List.reverseRecOn with
  | nil => simp [process, contents]
  | append_singleton results result ih =>
    rw [process_concat, identity_onDevicePinged, ih, List.find?_append, Option.map_or]
    congr 1
    by_cases hmac : result.dstMac = some mac <;> simp [hmac]

/-- A device was made of some result of its station. -/
theorem exists_result (hlookup : contents (process results) mac = some device) :
    device.macAddress = mac ∧
      ∃ result ∈ results, result.dstMac = some mac ∧ result.dstIp = device.ipAddress := by
  have hidentity := identity_process results mac
  rw [hlookup] at hidentity
  obtain ⟨result, hfind, heq⟩ := Option.map_eq_some_iff.mp hidentity.symm
  obtain ⟨hip, hmac⟩ := Prod.mk.inj heq
  exact ⟨hmac.symm, result, List.mem_of_find?_eq_some hfind,
    by simpa using List.find?_some hfind, hip⟩

/-! ## Results whose stations are found -/

/-- A device is found exactly if it is the one of the least station with its address. -/
theorem find_eq_ok_iff : find devices ip = .ok device ↔
    ∃ mac, IsLeastMatch devices (fun device => device.ipAddress = ip) mac device := by
  rw [← firstMatch_eq_some_iff, find, findBy]
  cases firstMatch devices fun device => device.ipAddress = ip <;> simp [found]

theorem findsStation_iff : FindsStation devices result ↔ ∀ mac, result.dstMac = some mac →
    ∃ device, find devices result.dstIp = .ok device ∧ device.macAddress = mac := by
  refine ⟨FindsStation.find_eq, fun hfind => ⟨hfind, fun mac hmac => ?_⟩⟩
  obtain ⟨device, hfound, rfl⟩ := hfind mac hmac
  rw [discover, hfound]

/-- After settled results every station is registered under its address. -/
theorem identity_of_settled (settled : results.Pairwise Settled) (hmem : result ∈ results)
    (hmac : result.dstMac = some mac) :
    (contents (process results) mac).map Device.identity = some (result.dstIp, mac) := by
  rw [identity_process]
  induction results with
  | nil => cases hmem
  | cons first results ih =>
    obtain ⟨hfirst, hrest⟩ := List.pairwise_cons.mp settled
    rcases List.mem_cons.mp hmem with rfl | hmem
    · simp [hmac]
    · -- an earlier result of the station has the same address
      by_cases hsame : first.dstMac = some mac
      · have hip := ((hfirst result hmem) mac mac hsame hmac).1 rfl
        simp [hsame, hip]
      · rw [List.find?_cons_of_neg (by simpa using hsame)]
        exact ih hrest hmem

/-- Once the earlier results are settled, a station is found exactly if its result is
settled with them. -/
theorem findsStation_concat_iff (settled : results.Pairwise Settled) :
    FindsStation (process (results ++ [result])) result ↔
      ∀ earlier ∈ results, Settled earlier result := by
  rw [findsStation_iff]
  constructor
  · intro hfinds earlier hmem mac mac' hmac hmac'
    obtain ⟨device, hfind, rfl⟩ := hfinds mac' hmac'
    obtain ⟨key, least⟩ := find_eq_ok_iff.mp hfind
    obtain ⟨rfl, -⟩ := exists_result least.lookup
    -- the device of the earlier result is still there
    have hearlier : (contents (process (results ++ [result])) mac).map Device.identity =
        some (earlier.dstIp, mac) := by
      rw [process_concat, identity_onDevicePinged, identity_of_settled settled hmem hmac]
      rfl
    obtain ⟨old, hold, hidentity⟩ := Option.map_eq_some_iff.mp hearlier
    obtain ⟨hip, hkey⟩ := Prod.mk.inj hidentity
    constructor
    · -- of one station there is one device
      rintro rfl
      have hsame : old = device := Option.some.inj (hold.symm.trans least.lookup)
      rw [← hip, hsame]
      exact of_decide_eq_true least.holds
    · intro hdstIp
      exact least.le mac old hold (decide_eq_true (hip.trans hdstIp))
  · intro hsettled mac hmac
    have settled' : (results ++ [result]).Pairwise Settled :=
      List.pairwise_append.mpr ⟨settled, List.pairwise_singleton _ _, by simpa using hsettled⟩
    have hself := identity_of_settled settled' (by simp) hmac
    obtain ⟨device, hlookup, hidentity⟩ := Option.map_eq_some_iff.mp hself
    obtain ⟨hip, hkey⟩ := Prod.mk.inj hidentity
    refine ⟨device, find_eq_ok_iff.mpr ⟨mac, hlookup, decide_eq_true hip, ?_⟩, hkey⟩
    intro mac' device' hlookup' hholds
    -- any other device with the address is of an earlier result
    obtain ⟨-, origin, horigin, hmac', hip'⟩ := exists_result hlookup'
    have hsame : origin.dstIp = result.dstIp := hip'.trans (of_decide_eq_true hholds)
    rcases List.mem_append.mp horigin with hmem | hmem
    · exact (hsettled origin hmem mac' mac hmac' hmac).2 hsame
    · obtain rfl := List.mem_singleton.mp hmem
      exact (Option.some.inj (hmac.symm.trans hmac')).le

theorem findsStations_concat_iff : FindsStations (results ++ [result]) ↔
    FindsStations results ∧ FindsStation (process (results ++ [result])) result := by
  constructor
  · intro hfinds
    refine ⟨fun earlier middle later hsplit => ?_, hfinds results result [] rfl⟩
    exact hfinds earlier middle (later ++ [result]) (by simp [hsplit])
  · rintro ⟨hfinds, hlast⟩ earlier middle later hsplit
    rcases List.eq_nil_or_concat later with rfl | ⟨later, last, rfl⟩
    · obtain ⟨rfl, heq⟩ := List.append_inj' hsplit rfl
      obtain ⟨rfl, -⟩ := List.cons.inj heq
      exact hlast
    · have hsplit' : results ++ [result] = (earlier ++ middle :: later) ++ [last] := by
        simpa using hsplit
      exact hfinds earlier middle later (List.append_inj' hsplit' rfl).1

/-- **After each result the station is found under its address exactly if no station
changes its address and every address only passes to lower stations.** -/
theorem findsStations_iff (results : List TaskSuccess) :
    FindsStations results ↔ results.Pairwise Settled := by
  induction results using List.reverseRecOn with
  | nil => exact iff_of_true (fun _ _ _ hsplit => by simp at hsplit) List.Pairwise.nil
  | append_singleton results result ih =>
    rw [findsStations_concat_iff, List.pairwise_append]
    constructor
    · rintro ⟨hfinds, hlast⟩
      have settled := ih.mp hfinds
      exact ⟨settled, List.pairwise_singleton _ _,
        by simpa using (findsStation_concat_iff settled).mp hlast⟩
    · rintro ⟨settled, -, hlast⟩
      exact ⟨ih.mpr settled, (findsStation_concat_iff settled).mpr (by simpa using hlast)⟩

/-- A result of the station 02:00:00:00:00:01. -/
def answerFrom (ip : IPv4Address) : TaskSuccess where
  srcIp := .ofOctets 10 0 0 1
  srcMac := none
  dstIp := ip
  dstMac := some ⟨![1, 0, 0, 0, 0, 2]⟩
  ttl := 64
  responseTime := 3
  completedAt := 0

/-- A station that got a new address is not found under it. -/
theorem not_findsStations_newAddress :
    ¬ FindsStations [answerFrom (.ofOctets 10 0 0 7), answerFrom (.ofOctets 10 0 0 8)] := by
  intro hfinds
  obtain ⟨device, hfind, -⟩ := (hfinds [answerFrom (.ofOctets 10 0 0 7)]
    (answerFrom (.ofOctets 10 0 0 8)) [] rfl).find_eq _ rfl
  have hnone : find (process [answerFrom (.ofOctets 10 0 0 7), answerFrom (.ofOctets 10 0 0 8)])
      (.ofOctets 10 0 0 8) = .error .notFound := by rfl
  cases hnone.symm.trans hfind

end NetDiscovery.App
