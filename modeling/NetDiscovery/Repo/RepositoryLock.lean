/-
# The device repository and its lock

`m_devices` is behind a lock that `synchronize` takes and the end of its scope gives back.
A call takes it once or twice; under it `count`, `at`, `emplace` and `erase` are one
statement each. `findBy`, `iterate` and `contains` walk the map under the lock and hand
the devices to a callback, one after the other, until it says so.

The lock is not recursive: a callback that calls the repository waits for itself.
-/

import NetDiscovery.Math.FirstMatch
import NetDiscovery.Repo.DeviceRepository
import NetDiscovery.Semantics.Monitor

namespace NetDiscovery.Repo

open NetDiscovery.Math NetDiscovery.Net NetDiscovery.Semantics NetDiscovery.Util

/-- What the callback of a walk does with a device. It depends on the device alone: a
callback has no state of its own. -/
inductive Reaction
  /-- false, `IterResult::Continue`, or nothing -/
  | goOn
  /-- true or `IterResult::Break` -/
  | stop
  /-- it calls the repository -/
  | reenters

/-- `findBy`, `iterate` and `contains`, which walk the devices in the same way. -/
inductive Walk (Device : Type*)
  | findBy (func : Device → Reaction)
  | iterate (func : Device → Reaction)
  | contains (func : Device → Reaction)

variable {Device : Type*}

/-- The callback. -/
def Walk.func : Walk Device → Device → Reaction
  | .findBy func | .iterate func | .contains func => func

/-- What a walk returns from where it stopped; `iterate` returns nothing. -/
def Walk.ret : Walk Device → Option Device → Option (Ret Device)
  | .findBy _, stop => some (.item (found stop))
  | .iterate _, _ => none
  | .contains _, stop => some (.flag stop.isSome)

/-- The devices that are handed to a callback and the one that it stops at, if it does not
call the repository. -/
def handOver (func : Device → Reaction) : List Device → Option (List Device × Option Device)
  | [] => some ([], none)
  | device :: rest =>
    match func device with
    | .goOn => (handOver func rest).map fun seen => (device :: seen.1, seen.2)
    | .stop => some ([device], some device)
    | .reenters => none

/-- The operations of the map rest on the order of the addresses. -/
local instance transCmp_compare : Std.TransCmp (compare : MacAddress → MacAddress → Ordering) :=
  inferInstance

/-- The MAC address that a call is about. -/
def Call.mac : Call Device → MacAddress
  | .create mac _ | .read mac | .update mac _ | .remove mac | .has mac => mac

/-- Where a call is under the lock. -/
inductive Stage (Device : Type*)
  | begin
  /-- `count` has returned -/
  | counted (present : Bool)
  /-- `at` has returned a reference -/
  | located
  /-- at the end of the scope -/
  | left (progress : Progress Device)

/-- Where a walk is under the lock. -/
inductive WalkStage (Device : Type*)
  | walking
  | stopped (device : Option Device)
  /-- the callback waits for the lock -/
  | waiting

/-- A client with its call or its walk. -/
inductive Client (Device : Type*)
  | idle
  | calling (call : Call Device) (progress : Progress Device)
  | inside (call : Call Device) (progress : Progress Device) (stage : Stage Device)
  | entering (walk : Walk Device)
  | walking (walk : Walk Device) (last : Option MacAddress) (handed : List Device)
    (stage : WalkStage Device)
  | walked (walk : Walk Device) (handed : List Device) (ret : Option (Ret Device))
  | returned

/-- The steps without the lock. -/
inductive Free (Device : Type*)
  | invoke (call : Call Device)
  | invokeWalk (walk : Walk Device)
  | respond

namespace Client

/-- A step without the lock. -/
def free : Client Device → Free Device → Option (Client Device)
  | .idle, .invoke call => some (.calling call .started)
  | .idle, .invokeWalk walk => some (.entering walk)
  | .calling call (.finished _), .respond => some (.calling call .returned)
  | .walked _ _ _, .respond => some .returned
  | _, _ => none

/-- `m_devices.synchronize()`. -/
def enter : Client Device → Option (Client Device)
  | .calling call .started => some (.inside call .started .begin)
  | .calling call .tested => some (.inside call .tested .begin)
  | .entering walk => some (.walking walk none [] .walking)
  | _ => none

/-- What follows on `count` under the same lock. -/
def afterCount (devices : DeviceMap Device) (present : Bool) : Call Device → Progress Device
  | .create _ _ => if present then .finished (.flag false) else .tested
  | .read mac =>
    if present then devices[mac]?.elim .threw fun device => .finished (.item (.ok device))
    else .finished (.item (.error .notFound))
  | .update _ _ | .remove _ => if present then .tested else .finished (.flag false)
  | .has _ => .finished (.flag present)

/-- The next device goes to the callback. -/
def handNext (walk : Walk Device) (last : Option MacAddress) (handed : List Device) :
    List (MacAddress × Device) → Client Device
  | [] => .walking walk last handed (.stopped none)
  | (mac, device) :: _ => .walking walk (some mac) (handed ++ [device])
    (match walk.func device with
    | .goOn => .walking
    | .stop => .stopped (some device)
    | .reenters => .waiting)

/-- A statement under the lock. -/
def work (devices : DeviceMap Device) : Client Device → Option (DeviceMap Device × Client Device)
  | .inside call .started .begin =>
    some (devices, .inside call .started (.counted (devices.contains call.mac)))
  | .inside call .started (.counted present) =>
    some (devices, .inside call .started (.left (afterCount devices present call)))
  | .inside (.create mac item) .tested .begin => some (devices.insertIfNew mac item,
      .inside (.create mac item) .tested (.left (.finished (.flag true))))
  | .inside (.update mac item) .tested .begin => some (devices,
      .inside (.update mac item) .tested
        (if devices.contains mac then .located else .left .threw))
  | .inside (.update mac item) .tested .located => some (devices.insert mac item,
      .inside (.update mac item) .tested (.left (.finished (.flag true))))
  | .inside (.remove mac) .tested .begin => some (devices.erase mac,
      .inside (.remove mac) .tested (.left (.finished (.flag true))))
  | .walking walk last handed .walking =>
    some (devices, handNext walk last handed (entriesAfter devices last))
  | _ => none

/-- The end of the scope. -/
def leave : Client Device → Option (Client Device)
  | .inside call _ (.left progress) => some (.calling call progress)
  | .walking walk _ handed (.stopped stop) => some (.walked walk handed (walk.ret stop))
  | _ => none

/-- Where the client was before it took the lock. -/
def before : Client Device → Client Device
  | .inside call progress _ => .calling call progress
  | .walking walk _ _ _ => .entering walk
  | client => client

/-- How many statements are left at most. -/
def rank (devices : DeviceMap Device) : Client Device → ℕ
  | .inside _ _ .begin => 2
  | .inside _ _ (.counted _) => 1
  | .inside _ _ .located => 1
  | .walking _ last _ .walking => (entriesAfter devices last).length + 1
  | _ => 0

variable {devices devices' : DeviceMap Device} {c d : Client Device} {walk : Walk Device}
  {last : Option MacAddress} {handed : List Device} {call : Call Device}

/-- Calls and walks begin and return. -/
theorem free_cases {a : Free Device} (hfree : free c a = some d) :
    (∃ call, c = .idle ∧ a = .invoke call ∧ d = .calling call .started) ∨
      (∃ walk, c = .idle ∧ a = .invokeWalk walk ∧ d = .entering walk) ∨
      (∃ call ret, c = .calling call (.finished ret) ∧ a = .respond ∧
        d = .calling call .returned) ∨
      ∃ walk handed ret, c = .walked walk handed ret ∧ a = .respond ∧ d = .returned := by
  unfold free at hfree
  split at hfree
  · exact .inl ⟨_, rfl, rfl, (Option.some.inj hfree).symm⟩
  · exact .inr (.inl ⟨_, rfl, rfl, (Option.some.inj hfree).symm⟩)
  · exact .inr (.inr (.inl ⟨_, _, rfl, rfl, (Option.some.inj hfree).symm⟩))
  · exact .inr (.inr (.inr ⟨_, _, _, rfl, rfl, (Option.some.inj hfree).symm⟩))
  · cases hfree

/-- A call enters each of its sections, and a walk its only one. -/
theorem enter_cases (henter : enter c = some d) :
    (∃ call, c = .calling call .started ∧ d = .inside call .started .begin) ∨
      (∃ call, c = .calling call .tested ∧ d = .inside call .tested .begin) ∨
      ∃ walk, c = .entering walk ∧ d = .walking walk none [] .walking := by
  unfold enter at henter
  split at henter
  · exact .inl ⟨_, rfl, (Option.some.inj henter).symm⟩
  · exact .inr (.inl ⟨_, rfl, (Option.some.inj henter).symm⟩)
  · exact .inr (.inr ⟨_, rfl, (Option.some.inj henter).symm⟩)
  · cases henter

theorem before_enter (henter : enter c = some d) : before d = c := by
  rcases enter_cases henter with ⟨call, rfl, rfl⟩ | ⟨call, rfl, rfl⟩ | ⟨walk, rfl, rfl⟩
  all_goals rfl

theorem before_handNext (entries : List (MacAddress × Device)) :
    before (handNext walk last handed entries) = .entering walk := by
  cases entries <;> rfl

theorem before_work (hwork : work devices c = some (devices', d)) : before d = before c := by
  unfold work at hwork
  split at hwork
  case h_7 =>
    obtain ⟨-, rfl⟩ := Prod.mk.inj (Option.some.inj hwork)
    exact before_handNext _
  all_goals cases hwork <;> rfl

/-- After the last entry, and after a callback that does not go on, the walk is over. -/
theorem rank_handNext_lt (entries : List (MacAddress × Device))
    (hentries : entriesAfter devices last = entries) :
    rank devices (handNext walk last handed entries) < entries.length + 1 := by
  cases entries with
  | nil => exact Nat.zero_lt_succ _
  | cons entry rest =>
    obtain ⟨mac, device⟩ := entry
    rw [handNext]
    cases walk.func device with
    | goOn =>
      rw [rank, entriesAfter_of_eq_cons hentries]
      exact Nat.lt_succ_self _
    | stop | reenters => exact Nat.zero_lt_succ _

theorem rank_work (hwork : work devices c = some (devices', d)) :
    rank devices' d < rank devices c := by
  unfold work at hwork
  split at hwork
  case h_4 =>
    obtain ⟨rfl, rfl⟩ := Prod.mk.inj (Option.some.inj hwork)
    split_ifs <;> simp [rank]
  case h_7 =>
    obtain ⟨rfl, rfl⟩ := Prod.mk.inj (Option.some.inj hwork)
    exact rank_handNext_lt _ rfl
  all_goals
    cases hwork
    try simp [rank]

end Client

/-- The repository's clients. -/
def monitor : Monitor (DeviceMap Device) (Client Device) (Free Device) where
  free := Client.free
  enter := Client.enter
  work := Client.work
  leave := Client.leave
  before := Client.before
  rank := Client.rank
  before_enter := Client.before_enter
  before_work := Client.before_work
  rank_work := Client.rank_work

/-! ## What a section comes to -/

variable {devices devices' : DeviceMap Device} {c d : Client Device} {walk : Walk Device}
  {last : Option MacAddress} {handed : List Device} {call : Call Device} {ret : Ret Device}

/-- The devices that an iterator still comes to. -/
def devicesAfter (devices : DeviceMap Device) (last : Option MacAddress) : List Device :=
  (entriesAfter devices last).map Prod.snd

/-- How far the first section of a call brings it. -/
def afterFirst (devices : DeviceMap Device) (call : Call Device) : Progress Device :=
  match firstSection devices call with
  | some ret => .finished ret
  | none => .tested

theorem afterCount_eq (devices : DeviceMap Device) (call : Call Device) :
    Client.afterCount devices (devices.contains call.mac) call = afterFirst devices call := by
  cases call with
  | read mac =>
    have hcontains : devices.contains mac = (devices[mac]?).isSome :=
      Std.ExtTreeMap.isSome_getElem?_eq_contains.symm
    simp only [Client.afterCount, afterFirst, firstSection, Call.mac, hcontains]
    cases devices[mac]? <;> rfl
  | has mac => rfl
  | create mac item | update mac item | remove mac =>
    by_cases hpresent : devices.contains mac = true
    all_goals simp [Client.afterCount, afterFirst, firstSection, Call.mac, hpresent]

/-- The statements of the first section make up `firstSection`. -/
theorem complete_first (devices : DeviceMap Device) (call : Call Device) :
    monitor.complete devices (.inside call .started .begin) =
      some (devices, .calling call (afterFirst devices call)) := by
  rw [Monitor.complete_of_work rfl, Monitor.complete_of_work rfl, Monitor.complete_of_end rfl,
    ← afterCount_eq]
  rfl

/-- Those of the second one make up `secondSection`. -/
theorem complete_second (devices : DeviceMap Device) (call : Call Device) :
    monitor.complete devices (.inside call .tested .begin) =
      (secondSection devices call).map fun entry => (entry.1, .calling call entry.2) := by
  cases call with
  | create mac item | remove mac =>
    rw [Monitor.complete_of_work rfl, Monitor.complete_of_end rfl]
    rfl
  | update mac item =>
    rw [Monitor.complete_of_work rfl, secondSection]
    split_ifs
    · rw [Monitor.complete_of_work rfl, Monitor.complete_of_end rfl]
      rfl
    · rw [Monitor.complete_of_end rfl]
      rfl
  | read mac | has mac =>
    rw [Monitor.complete_of_end rfl]
    rfl

/-- A walk hands over the devices that are there when it begins. -/
theorem complete_walking (devices : DeviceMap Device) (walk : Walk Device)
    (last : Option MacAddress) (handed : List Device) :
    monitor.complete devices (.walking walk last handed .walking) =
      (handOver walk.func (devicesAfter devices last)).map fun seen =>
        (devices, .walked walk (handed ++ seen.1) (walk.ret seen.2)) := by
  generalize hentries : entriesAfter devices last = entries
  induction entries generalizing last handed with
  | nil =>
    rw [Monitor.complete_of_work rfl, devicesAfter, hentries, Client.handNext,
      Monitor.complete_of_end rfl]
    simp [handOver, monitor, Client.leave]
  | cons entry rest ih =>
    obtain ⟨mac, device⟩ := entry
    have hrest := entriesAfter_of_eq_cons hentries
    rw [Monitor.complete_of_work rfl, devicesAfter, hentries, Client.handNext, List.map_cons,
      handOver]
    -- the callback goes on to the rest of the devices, or the section is over here
    cases walk.func device with
    | goOn =>
      rw [ih _ _ hrest, devicesAfter, hrest]
      simp [Option.map_map, Function.comp_def]
    | stop =>
      rw [Monitor.complete_of_end rfl]
      rfl
    | reenters =>
      rw [Monitor.complete_of_end rfl]
      rfl

/-- A callback that stops at a device with a property stops at the first one. -/
theorem handOver_findBy (devices : DeviceMap Device) (p : Device → Bool) :
    ∃ handed, handOver (fun device => if p device then .stop else .goOn)
      (devicesAfter devices none) = some (handed, firstMatch devices p) := by
  rw [firstMatch, devicesAfter, entriesAfter]
  induction devices.toList with
  | nil => exact ⟨[], rfl⟩
  | cons entry rest ih =>
    obtain ⟨handed, hrest⟩ := ih
    rw [List.map_cons, handOver]
    by_cases hp : p entry.2 = true
    · exact ⟨[entry.2], by simp [hp]⟩
    · exact ⟨entry.2 :: handed, by simp [hp, hrest]⟩

/-- A section that blocks is that of a walk. -/
theorem blocksQuietly : Monitor.BlocksQuietly (@monitor Device) := by
  intro devices c devices' d hwork hblocks
  rw [Monitor.complete_of_work hwork] at hblocks
  change Client.work devices c = some (devices', d) at hwork
  unfold Client.work at hwork
  split at hwork
  -- `emplace`, an assignment and `erase` are the last statements of their sections
  case h_3 | h_5 | h_6 =>
    obtain ⟨rfl, rfl⟩ := Prod.mk.inj (Option.some.inj hwork)
    rw [Monitor.complete_of_end rfl] at hblocks
    cases hblocks
  all_goals
    cases hwork
    try rfl

/-! ## The calls -/

/-- A client as the section-by-section repository sees it. -/
def Client.call? : Client Device → Option (Call Device × Progress Device)
  | .calling call progress => some (call, progress)
  | _ => none

/-- The repository without the walks. -/
def callState (s : Monitor.Atomic (DeviceMap Device) (Client Device) ℕ) : State Device where
  devices := s.store
  calls id := (s.clients id).call?

/-- A step as that repository sees it. -/
def callLabel : Monitor.Atomic (DeviceMap Device) (Client Device) ℕ ×
    Monitor.AtomicLabel ℕ (Free Device) → Option (Label Device)
  | (_, .free id (.invoke call)) => some (.invoke id call)
  | (_, .free _ (.invokeWalk _)) => none
  | (s, .free id .respond) => (s.clients id).call?.map fun _ => .respond id
  | (s, .critical id) => (s.clients id).call?.map fun _ => .critical id

variable {s t : Monitor.Atomic (DeviceMap Device) (Client Device) ℕ}
  {l : Monitor.AtomicLabel ℕ (Free Device)} {id : ℕ}

theorem callState_update (s : Monitor.Atomic (DeviceMap Device) (Client Device) ℕ) (id : ℕ)
    (devices : DeviceMap Device) (call : Call Device) (progress : Progress Device) :
    callState ⟨devices, Function.update s.clients id (.calling call progress)⟩ =
      { (callState s).setCall id call progress with devices := devices } := by
  refine congrArg (State.mk devices) (funext fun other => ?_)
  by_cases hne : other = id
  · subst hne
    simp [Client.call?, State.setCall]
  · simp [callState, State.setCall, hne]

/-- The steps of a walk are nothing to the calls. -/
theorem callState_of_walk (hbefore : (s.clients id).call? = none) (hafter : c.call? = none) :
    callState { s with clients := Function.update s.clients id c } = callState s := by
  refine congrArg (State.mk s.store) (funext fun other => ?_)
  by_cases hne : other = id
  · subst hne
    simp [hbefore, hafter]
  · simp [hne]

theorem calls_callState {progress : Progress Device} (hc : s.clients id = .calling call progress) :
    (callState s).calls id = some (call, progress) :=
  congrArg Client.call? hc

theorem callState_of_free {a : Free Device} (hstep : monitor.atomicStep s (.free id a) = some t) :
    StepOrStay step (callState s) (callLabel (s, .free id a)) (callState t) := by
  obtain ⟨c, hfree, rfl⟩ := Option.map_eq_some_iff.mp hstep
  rcases Client.free_cases hfree with ⟨call, hc, rfl, rfl⟩ | ⟨walk, hc, rfl, rfl⟩ |
    ⟨call, ret, hc, rfl, rfl⟩ | ⟨walk, handed, ret, hc, rfl, rfl⟩
  · have hnew : (callState s).calls id = none := congrArg Client.call? hc
    rw [callState_update s id s.store call .started]
    simp only [StepOrStay, callLabel, step, hnew]
    rfl
  · exact callState_of_walk (congrArg Client.call? hc) rfl
  · rw [callState_update s id s.store call .returned, callLabel, hc]
    simp only [StepOrStay, Client.call?, Option.map_some, step, calls_callState hc]
    rfl
  · rw [callLabel, hc]
    exact callState_of_walk (congrArg Client.call? hc) rfl

theorem callState_of_critical (hstep : monitor.atomicStep s (.critical id) = some t) :
    StepOrStay step (callState s) (callLabel (s, .critical id)) (callState t) := by
  obtain ⟨c, henter, hcomplete⟩ := Option.bind_eq_some_iff.mp hstep
  obtain ⟨entry, hentry, rfl⟩ := Option.map_eq_some_iff.mp hcomplete
  rcases Client.enter_cases henter with ⟨call, hc, rfl⟩ | ⟨call, hc, rfl⟩ | ⟨walk, hc, rfl⟩
  · rw [complete_first] at hentry
    obtain rfl := Option.some.inj hentry
    rw [callState_update, callLabel, hc]
    simp only [StepOrStay, Client.call?, Option.map_some, step, calls_callState hc, afterFirst]
    have hsame : firstSection (callState s).devices call = firstSection s.store call := rfl
    rw [hsame]
    cases firstSection s.store call <;> rfl
  · rw [complete_second] at hentry
    obtain ⟨⟨devices, progress⟩, hsecond, rfl⟩ := Option.map_eq_some_iff.mp hentry
    have hsection : secondSection (callState s).devices call = some (devices, progress) := hsecond
    rw [callState_update, callLabel, hc]
    simp only [StepOrStay, Client.call?, Option.map_some, step, calls_callState hc, hsection]
  · rw [complete_walking] at hentry
    obtain ⟨seen, -, rfl⟩ := Option.map_eq_some_iff.mp hentry
    rw [callLabel, hc]
    exact callState_of_walk (congrArg Client.call? hc) rfl

theorem callState_of_step (hstep : monitor.atomicStep s l = some t) :
    StepOrStay step (callState s) (callLabel (s, l)) (callState t) := by
  cases l with
  | free id a => exact callState_of_free hstep
  | critical id => exact callState_of_critical hstep

/-! ## Runs -/

/-- The repository, statement by statement. -/
abbrev LockedRepository (Device : Type*) :=
  Monitor.Locked (DeviceMap Device) (Client Device) ℕ

/-- No client has begun. -/
def LockedRepository.idle (devices : DeviceMap Device) : LockedRepository Device where
  store := devices
  clients _ := .idle
  holder := none

/-- What the callers see of a step. -/
def callEvents : LockedRepository Device × Monitor.Label ℕ (Free Device) →
    List (Event ℕ (Call Device) (Ret Device))
  | (_, .free id (.invoke call)) => [.invoke id call]
  | (s, .free id .respond) =>
    match s.clients id with
    | .calling _ (.finished ret) => [.respond id ret]
    | _ => []
  | _ => []

/-- A run, section by section and without the walks. -/
def callTrace (trace : List (LockedRepository Device × Monitor.Label ℕ (Free Device))) :
    List (State Device × Label Device) :=
  project callState callLabel (project monitor.atomic monitor.observe trace)

variable {u v w : LockedRepository Device} {b : Monitor.Label ℕ (Free Device)}
  {trace : List (LockedRepository Device × Monitor.Label ℕ (Free Device))}

/-- Callers see the same of both. -/
theorem history_callTrace_singleton (hstep : monitor.step v b = some w) :
    history (callTrace [(v, b)]) = callEvents (v, b) := by
  cases b with
  | free id a =>
    obtain ⟨hother, c, hfree, -⟩ := Monitor.step_free hstep
    have hsame : (monitor.atomic v).clients id = v.clients id := Monitor.clients_atomic hother
    rcases Client.free_cases hfree with ⟨call, hc, rfl, rfl⟩ | ⟨walk, hc, rfl, rfl⟩ |
      ⟨call, ret, hc, rfl, rfl⟩ | ⟨walk, handed, ret, hc, rfl, rfl⟩
    · rfl
    · rfl
    · rw [hc] at hsame
      simp [callTrace, project, Monitor.observe, callLabel, history, events, callEvents, hsame, hc,
        Client.call?, calls_callState hsame]
    · rw [hc] at hsame
      simp [callTrace, project, Monitor.observe, callLabel, history, callEvents, hsame, hc,
        Client.call?]
  | acquire id =>
    have hquiet : ∀ s : Monitor.Atomic (DeviceMap Device) (Client Device) ℕ,
        history (project callState callLabel [(s, .critical id)]) = [] := by
      intro s
      simp only [project, callLabel, List.filterMap_cons, List.filterMap_nil]
      cases (s.clients id).call? <;> rfl
    simp only [callTrace, project, Monitor.observe, List.filterMap_cons, List.filterMap_nil]
    split_ifs
    · exact hquiet _
    · rfl
  | work id => rfl
  | release id => rfl

theorem history_callTrace (run : Run monitor.step u trace v) :
    history (callTrace trace) = trace.flatMap callEvents := by
  induction run with
  | nil => rfl
  | @snoc trace v w b _ hstep ih =>
    have hsplit : history (callTrace (trace ++ [(v, b)])) =
        history (callTrace trace) ++ history (callTrace [(v, b)]) := by
      simp [callTrace, project, history]
    rw [hsplit, ih, history_callTrace_singleton hstep, List.flatMap_append, List.flatMap_singleton]

/-- What a walk hands over and returns if it finds these devices. -/
def Walk.Sees (walk : Walk Device) (devices : DeviceMap Device) (handed : List Device)
    (result : Option (Ret Device)) : Prop :=
  ∃ stop, handOver walk.func (devicesAfter devices none) = some (handed, stop) ∧
    result = walk.ret stop

variable {result : Option (Ret Device)}

/-- What `findBy` returns if its callback looks for a property. -/
theorem Walk.Sees.findBy_eq {p : Device → Bool}
    (hsees : (Walk.findBy fun device => if p device then .stop else .goOn).Sees
      devices handed result) : result = some (.item (found (firstMatch devices p))) := by
  obtain ⟨stop, hover, rfl⟩ := hsees
  obtain ⟨handed', hfirst⟩ := handOver_findBy devices p
  obtain ⟨-, rfl⟩ := Prod.mk.inj (Option.some.inj (hfirst.symm.trans hover))
  rfl

/-- A walk is over in one section, and sees the devices that are there. -/
theorem walked_of_step (hstep : monitor.atomicStep s l = some t)
    (hwalked : t.clients id = .walked walk handed result) :
    s.clients id = .walked walk handed result ∨
      l = .critical id ∧ walk.Sees s.store handed result := by
  cases l with
  | free other a =>
    obtain ⟨c, hfree, rfl⟩ := Option.map_eq_some_iff.mp hstep
    by_cases hne : id = other
    · subst hne
      obtain rfl : c = .walked walk handed result :=
        (Function.update_self id c s.clients).symm.trans hwalked
      rcases Client.free_cases hfree with ⟨_, -, -, hc⟩ | ⟨_, -, -, hc⟩ | ⟨_, _, -, -, hc⟩ |
        ⟨_, _, _, -, -, hc⟩
      all_goals cases hc
    · exact .inl ((Function.update_of_ne hne c s.clients).symm.trans hwalked)
  | critical other =>
    obtain ⟨c, henter, hcomplete⟩ := Option.bind_eq_some_iff.mp hstep
    obtain ⟨⟨devices, d⟩, hentry, rfl⟩ := Option.map_eq_some_iff.mp hcomplete
    by_cases hne : id = other
    · subst hne
      obtain rfl : d = .walked walk handed result :=
        (Function.update_self id d s.clients).symm.trans hwalked
      -- of the three sections only that of a walk ends so
      rcases Client.enter_cases henter with ⟨call, -, rfl⟩ | ⟨call, -, rfl⟩ | ⟨other, -, rfl⟩
      · rw [complete_first] at hentry
        cases hentry
      · rw [complete_second] at hentry
        obtain ⟨_, -, hc⟩ := Option.map_eq_some_iff.mp hentry
        cases hc
      · rw [complete_walking] at hentry
        obtain ⟨seen, hseen, hc⟩ := Option.map_eq_some_iff.mp hentry
        cases hc
        exact .inr ⟨rfl, seen.2, hseen, rfl⟩
    · exact .inl ((Function.update_of_ne hne d s.clients).symm.trans hwalked)

/-- So a walk that is over has seen the devices of one time. -/
theorem sees_of_walked {initial : Monitor.Atomic (DeviceMap Device) (Client Device) ℕ}
    {atomicTrace : List (Monitor.Atomic (DeviceMap Device) (Client Device) ℕ ×
      Monitor.AtomicLabel ℕ (Free Device))}
    (hidle : ∀ id, initial.clients id = .idle)
    (run : Run monitor.atomicStep initial atomicTrace t)
    (hwalked : t.clients id = .walked walk handed result) :
    ∃ s, (s, .critical id) ∈ atomicTrace ∧ walk.Sees s.store handed result := by
  induction run with
  | nil => cases (hidle id).symm.trans hwalked
  | @snoc prior v w b _ hstep ih =>
    rcases walked_of_step hstep hwalked with hbefore | ⟨rfl, hsees⟩
    · obtain ⟨s, hmem, hsees⟩ := ih hbefore
      exact ⟨s, List.mem_append_left _ hmem, hsees⟩
    · exact ⟨v, by simp, hsees⟩

/-- A run, with each section as one step. -/
theorem atomic_of_run (run : Run monitor.step (LockedRepository.idle devices) trace v) :
    Run monitor.atomicStep ⟨devices, fun _ => .idle⟩
      (project monitor.atomic monitor.observe trace) (monitor.atomic v) :=
  Monitor.atomic_of_run blocksQuietly run

/-- A walk that can return has seen the devices that were there when it took the lock. -/
theorem sees_of_respond (run : Run monitor.step (LockedRepository.idle devices) trace v)
    (hstep : monitor.step v (.free id .respond) = some w)
    (hwalked : v.clients id = .walked walk handed result) :
    ∃ u, (u, .acquire id) ∈ trace ∧ walk.Sees u.store handed result := by
  obtain ⟨hother, -⟩ := Monitor.step_free hstep
  -- the section that the walk was is where it took the lock
  obtain ⟨s, hmem, hsees⟩ := sees_of_walked (fun _ => rfl) (atomic_of_run run)
    ((Monitor.clients_atomic hother).trans hwalked)
  obtain ⟨⟨u, b⟩, hu, hobserve⟩ := List.mem_filterMap.mp hmem
  obtain ⟨c, hc, hpair⟩ := Option.map_eq_some_iff.mp hobserve
  obtain ⟨rfl, rfl⟩ := Prod.mk.inj hpair
  obtain rfl := Monitor.acquire_of_observe hc
  obtain ⟨prior, w, -, hacquire⟩ := run.step_of_mem hu
  have hstore : (monitor.atomic u).store = u.store := by
    rw [Monitor.atomic_of_free (Monitor.step_acquire hacquire).1]
  exact ⟨u, hu, hstore ▸ hsees⟩

/-- The section of a walk whose callback calls the repository does not come to its end. -/
theorem blocks_of_acquire (hstep : monitor.step v (.acquire id) = some w)
    (hentering : v.clients id = .entering walk)
    (hreenters : handOver walk.func (devicesAfter v.store none) = none) :
    w.store = v.store ∧ monitor.Blocks w id := by
  obtain ⟨-, c, henter, rfl⟩ := Monitor.step_acquire hstep
  obtain rfl : c = .walking walk none [] .walking := by
    rw [hentering] at henter
    exact (Option.some.inj henter).symm
  exact ⟨rfl, rfl, by simp [complete_walking, hreenters]⟩

/-- What a locked repository comes to. -/
structure Serialized (devices : DeviceMap Device)
    (trace : List (LockedRepository Device × Monitor.Label ℕ (Free Device)))
    (final : LockedRepository Device) : Prop where
  /-- The calls are a run of the repository whose sections are one step each. -/
  calls : Run step (State.idle devices) (callTrace trace) (callState (monitor.atomic final))
  history : history (callTrace trace) = trace.flatMap callEvents
  /-- A walk sees the devices that are there when it takes the lock. -/
  walks : ∀ l r v id walk handed result, trace = l ++ (v, .free id .respond) :: r →
    v.clients id = .walked walk handed result →
    ∃ u, (u, .acquire id) ∈ l ∧ walk.Sees u.store handed result
  /-- A `findBy` that looks for a property returns the device of the least station that has
  it then. -/
  finds : ∀ l r v id (p : Device → Bool) handed result, trace = l ++ (v, .free id .respond) :: r →
    v.clients id = .walked (.findBy fun device => if p device then .stop else .goOn)
      handed result →
    ∃ u, (u, .acquire id) ∈ l ∧ result = some (.item (found (firstMatch u.store p)))
  /-- A walk whose callback calls the repository never gives the lock back. -/
  blocks : ∀ l r v id walk, trace = l ++ (v, .acquire id) :: r → v.clients id = .entering walk →
    handOver walk.func (devicesAfter v.store none) = none →
    ∀ x ∈ r, x.1.store = v.store ∧ (x.2 = .work id ∨ ∃ other a, x.2 = .free other a)

/-- **Behind its lock the repository is one whose sections are one step each, a walk sees it
at one time, and a callback that calls it back ends all other calls.** -/
theorem serialized_of_run (devices : DeviceMap Device)
    (trace : List (LockedRepository Device × Monitor.Label ℕ (Free Device)))
    (final : LockedRepository Device)
    (run : Run monitor.step (LockedRepository.idle devices) trace final) :
    Serialized devices trace final := by
  constructor
  · exact (atomic_of_run run).refine (I := fun _ => True) trivial (fun _ _ _ _ _ => trivial)
      fun _ _ _ _ hstep => callState_of_step hstep
  · exact history_callTrace run
  · intro l r v id walk handed result hsplit hwalked
    obtain ⟨w, hleft, hstep, -⟩ := run.split_at hsplit
    exact sees_of_respond hleft hstep hwalked
  · intro l r v id p handed result hsplit hwalked
    obtain ⟨w, hleft, hstep, -⟩ := run.split_at hsplit
    obtain ⟨u, hu, hsees⟩ := sees_of_respond hleft hstep hwalked
    exact ⟨u, hu, hsees.findBy_eq⟩
  · intro l r v id walk hsplit hentering hreenters
    obtain ⟨w, -, hstep, hright⟩ := run.split_at hsplit
    obtain ⟨hstore, hstuck⟩ := blocks_of_acquire hstep hentering hreenters
    exact hstore ▸ (hstuck.run blocksQuietly hright).2

/-- A device is created, while a walk waits for the lock; it is found by a property, and
another walk then calls the repository. -/
def createThenWalk : List (Monitor.Label ℕ (Free Bool)) :=
  [.free 0 (.invoke (.create .broadcast true)), .acquire 0, .work 0, .work 0, .release 0,
    .free 1 (.invokeWalk (.iterate fun _ => .goOn)), .acquire 0, .work 0, .release 0, .acquire 1,
    .work 1, .free 0 .respond, .work 1, .release 1, .free 1 .respond,
    .free 2 (.invokeWalk (.findBy fun device => if device then .stop else .goOn)), .acquire 2,
    .work 2, .release 2, .free 2 .respond, .free 3 (.invokeWalk (.findBy fun _ => .reenters)),
    .acquire 3, .work 3, .free 4 (.invoke (.has .broadcast))]

theorem serialized_createThenWalk :
    ∃ final, exec monitor.step (LockedRepository.idle ∅) createThenWalk = some final ∧
      Serialized ∅ (record monitor.step (LockedRepository.idle ∅) createThenWalk) final := by
  have hexec := Option.some_get
    (x := exec monitor.step (LockedRepository.idle ∅) createThenWalk) (by decide)
  exact ⟨_, hexec.symm, serialized_of_run _ _ _ (Run.of_exec hexec.symm)⟩

end NetDiscovery.Repo
