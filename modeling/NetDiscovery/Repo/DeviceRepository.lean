/-
# The device repository under concurrent clients

The repository maps MAC addresses to devices behind a lock. `read` and `has`
hold the lock once. `create`, `update` and `remove` hold it twice: the first
section tests whether the address is present and may end the call, the second
one acts on the map without testing again. The sections of different calls
interleave freely.

A call takes effect in its last section, and the repository is a linearizable
finite map as long as the outcome of every test still holds when its second
section runs.
-/

import Mathlib
import NetDiscovery.Net.MacAddress
import NetDiscovery.Semantics.Linearization
import NetDiscovery.Semantics.Run
import NetDiscovery.Util.Result

namespace NetDiscovery.Repo

open NetDiscovery.Net NetDiscovery.Semantics NetDiscovery.Util

variable {Device : Type*}

/-- `m_devices`, the map from MAC address to device. Its order is that of the octets, as
if `toInt` always found the bytes that it does not write to be zero. -/
abbrev DeviceMap (Device : Type*) := Std.ExtTreeMap MacAddress Device compare

/-- The operations of `DeviceRepository`. -/
inductive Call (Device : Type*)
  | create (mac : MacAddress) (item : Device)
  | read (mac : MacAddress)
  | update (mac : MacAddress) (item : Device)
  | remove (mac : MacAddress)
  | has (mac : MacAddress)

/-- What they return. -/
inductive Ret (Device : Type*)
  | flag (value : Bool)
  | item (value : Result ErrorType Device)

/-- How far a call has come. -/
inductive Progress (Device : Type*)
  /-- before its first section -/
  | started
  /-- the test of the first section let it go on -/
  | tested
  /-- out of its last section, about to return -/
  | finished (ret : Ret Device)
  /-- `std::map::at` threw -/
  | threw
  | returned

/-- The result of looking up a device. -/
def found : Option Device → Result ErrorType Device
  | some device => .ok device
  | none => .error .notFound

/-- The first lock-protected section of a call: the value it returns, or `none`
if the test lets it go on. -/
def firstSection (devices : DeviceMap Device) : Call Device → Option (Ret Device)
  | .create mac _ => if devices.contains mac then some (.flag false) else none
  | .read mac => some (.item (found devices[mac]?))
  | .update mac _ => if devices.contains mac then none else some (.flag false)
  | .remove mac => if devices.contains mac then none else some (.flag false)
  | .has mac => some (.flag (devices.contains mac))

/-- The second section: `emplace`, `at` with an assignment, or `erase`. `read`
and `has` have none. -/
def secondSection (devices : DeviceMap Device) :
    Call Device → Option (DeviceMap Device × Progress Device)
  | .create mac item => some (devices.insertIfNew mac item, .finished (.flag true))
  | .update mac item =>
    if devices.contains mac then some (devices.insert mac item, .finished (.flag true))
    else some (devices, .threw)
  | .remove mac => some (devices.erase mac, .finished (.flag true))
  | .read _ => none
  | .has _ => none

/-- The repository and the calls in progress, each under its own number. -/
structure State (Device : Type*) where
  devices : DeviceMap Device
  calls : ℕ → Option (Call Device × Progress Device)

/-- A repository with the given contents and no call in progress. -/
def State.idle (devices : DeviceMap Device) : State Device :=
  ⟨devices, fun _ => none⟩

/-- What may happen next: a client invokes an operation, a call runs its next
section, or a finished call returns. -/
inductive Label (Device : Type*)
  | invoke (id : ℕ) (call : Call Device)
  | critical (id : ℕ)
  | respond (id : ℕ)

/-- Record how far a call has come. -/
def State.setCall (s : State Device) (id : ℕ) (call : Call Device)
    (progress : Progress Device) : State Device :=
  { s with calls := Function.update s.calls id (some (call, progress)) }

/-- One step of one client. -/
def step (s : State Device) : Label Device → Option (State Device)
  | .invoke id call =>
    match s.calls id with
    | none => some (s.setCall id call .started)
    | some _ => none
  | .critical id =>
    match s.calls id with
    | some (call, .started) =>
      match firstSection s.devices call with
      | some ret => some (s.setCall id call (.finished ret))
      | none => some (s.setCall id call .tested)
    | some (call, .tested) =>
      (secondSection s.devices call).map fun (devices, progress) =>
        { s.setCall id call progress with devices := devices }
    | _ => none
  | .respond id =>
    match s.calls id with
    | some (call, .finished _) => some (s.setCall id call .returned)
    | _ => none

/-- What the clients see of a step. -/
def events : State Device × Label Device → List (Event ℕ (Call Device) (Ret Device))
  | (_, .invoke id call) => [.invoke id call]
  | (_, .critical _) => []
  | (s, .respond id) =>
    match s.calls id with
    | some (_, .finished ret) => [.respond id ret]
    | _ => []

/-- The history of a run. -/
def history (trace : List (State Device × Label Device)) :
    List (Event ℕ (Call Device) (Ret Device)) :=
  trace.flatMap events

/-! ## The finite map behind it -/

/-- The contents as a finite map. -/
def contents (devices : DeviceMap Device) : MacAddress → Option Device :=
  fun mac => devices[mac]?

/-- The operations on a finite map from MAC address to device, one at a time. -/
def act (table : MacAddress → Option Device) :
    Call Device → (MacAddress → Option Device) × Ret Device
  | .create mac item =>
    if (table mac).isSome then (table, .flag false)
    else (Function.update table mac (some item), .flag true)
  | .read mac => (table, .item (found (table mac)))
  | .update mac item =>
    if (table mac).isSome then (Function.update table mac (some item), .flag true)
    else (table, .flag false)
  | .remove mac =>
    if (table mac).isSome then (Function.update table mac none, .flag true)
    else (table, .flag false)
  | .has mac => (table, .flag (table mac).isSome)

variable {devices devices' : DeviceMap Device} {mac : MacAddress} {item : Device}
  {call : Call Device} {ret : Ret Device} {progress : Progress Device}

theorem isSome_contents : (contents devices mac).isSome = devices.contains mac :=
  Std.ExtTreeMap.isSome_getElem?_eq_contains

theorem contents_insert :
    contents (devices.insert mac item) = Function.update (contents devices) mac (some item) := by
  funext other
  simp only [contents, Std.ExtTreeMap.getElem?_insert, compare_eq_iff_eq, Function.update_apply,
    eq_comm (a := mac)]

theorem contents_insertIfNew (habsent : devices.contains mac = false) :
    contents (devices.insertIfNew mac item) =
      Function.update (contents devices) mac (some item) := by
  -- an absent address makes `emplace` an insertion
  have hmem : mac ∉ devices := by
    rw [← Std.ExtTreeMap.contains_iff_mem, habsent]
    exact Bool.false_ne_true
  funext other
  simp only [contents, Std.ExtTreeMap.getElem?_insertIfNew, compare_eq_iff_eq, hmem,
    not_false_eq_true, and_true, Function.update_apply, eq_comm (a := mac)]

theorem contents_erase :
    contents (devices.erase mac) = Function.update (contents devices) mac none := by
  funext other
  simp only [contents, Std.ExtTreeMap.getElem?_erase, compare_eq_iff_eq, Function.update_apply,
    eq_comm (a := mac)]

/-- A call that ends in its first section answers as the finite map does and
leaves it unchanged. -/
theorem act_of_firstSection (hfirst : firstSection devices call = some ret) :
    act (contents devices) call = (contents devices, ret) := by
  cases call with
  | create mac item =>
    simp only [firstSection] at hfirst
    split_ifs at hfirst with hpresent
    obtain rfl := Option.some.inj hfirst
    simp [act, isSome_contents, hpresent]
  | read mac =>
    obtain rfl := Option.some.inj hfirst
    rfl
  | update mac item =>
    simp only [firstSection] at hfirst
    split_ifs at hfirst with hpresent
    obtain rfl := Option.some.inj hfirst
    simp [act, isSome_contents, hpresent]
  | remove mac =>
    simp only [firstSection] at hfirst
    split_ifs at hfirst with hpresent
    obtain rfl := Option.some.inj hfirst
    simp [act, isSome_contents, hpresent]
  | has mac =>
    obtain rfl := Option.some.inj hfirst
    simp [act, isSome_contents]

/-- The outcome of the test still holds. -/
def TestHolds (devices : DeviceMap Device) : Call Device → Prop
  | .create mac _ => devices.contains mac = false
  | .update mac _ => devices.contains mac = true
  | .remove mac => devices.contains mac = true
  | .read _ => True
  | .has _ => True

instance : (call : Call Device) → Decidable (TestHolds devices call)
  | .create mac _ => inferInstanceAs (Decidable (devices.contains mac = false))
  | .update mac _ => inferInstanceAs (Decidable (devices.contains mac = true))
  | .remove mac => inferInstanceAs (Decidable (devices.contains mac = true))
  | .read _ => .isTrue trivial
  | .has _ => .isTrue trivial

/-- A second section whose test still holds does what the finite map does. -/
theorem act_of_secondSection (hholds : TestHolds devices call)
    (hsecond : secondSection devices call = some (devices', progress)) :
    ∃ ret, progress = .finished ret ∧ act (contents devices) call = (contents devices', ret) := by
  cases call with
  | create mac item =>
    obtain ⟨rfl, rfl⟩ := Prod.mk.inj (Option.some.inj hsecond)
    exact ⟨_, rfl, by simp [act, isSome_contents, show devices.contains mac = false from hholds,
      contents_insertIfNew]⟩
  | update mac item =>
    have hpresent : devices.contains mac = true := hholds
    rw [secondSection, if_pos hpresent] at hsecond
    obtain ⟨rfl, rfl⟩ := Prod.mk.inj (Option.some.inj hsecond)
    exact ⟨_, rfl, by simp only [act, isSome_contents, hpresent, if_true, contents_insert]⟩
  | remove mac =>
    have hpresent : devices.contains mac = true := hholds
    obtain ⟨rfl, rfl⟩ := Prod.mk.inj (Option.some.inj hsecond)
    exact ⟨_, rfl, by simp only [act, isSome_contents, hpresent, if_true, contents_erase]⟩
  | read mac => cases hsecond
  | has mac => cases hsecond

/-! ## Calls that run alone -/

/-- Both sections of a call, one after the other. -/
def perform (devices : DeviceMap Device) (call : Call Device) : DeviceMap Device :=
  match firstSection devices call with
  | some _ => devices
  | none => ((secondSection devices call).map Prod.fst).getD devices

/-- The devices after one of them was changed through a shared pointer. -/
def mutate (devices : DeviceMap Device) (mac : MacAddress) (item : Device) : DeviceMap Device :=
  devices.insert mac item

theorem contents_mutate :
    contents (mutate devices mac item) = Function.update (contents devices) mac (some item) :=
  contents_insert

/-- A call that goes on to its second section has passed its test. -/
theorem testHolds_of_firstSection (hfirst : firstSection devices call = none) :
    TestHolds devices call ∧ ∃ result, secondSection devices call = some result := by
  cases call with
  | create mac item =>
    simp only [firstSection] at hfirst
    split_ifs at hfirst with hpresent
    exact ⟨Bool.eq_false_iff.mpr hpresent, _, rfl⟩
  | read mac => cases hfirst
  | update mac item =>
    simp only [firstSection] at hfirst
    split_ifs at hfirst with hpresent
    exact ⟨hpresent, _, if_pos hpresent⟩
  | remove mac =>
    simp only [firstSection] at hfirst
    split_ifs at hfirst with hpresent
    exact ⟨hpresent, _, rfl⟩
  | has mac => cases hfirst

/-- A call that runs alone does what the finite map does. -/
theorem contents_perform (devices : DeviceMap Device) (call : Call Device) :
    contents (perform devices call) = (act (contents devices) call).1 := by
  cases hfirst : firstSection devices call with
  | some ret => rw [perform, hfirst, act_of_firstSection hfirst]
  | none =>
    obtain ⟨hholds, ⟨devices', progress⟩, hsecond⟩ := testHolds_of_firstSection hfirst
    obtain ⟨ret, -, hact⟩ := act_of_secondSection hholds hsecond
    rw [perform, hfirst, hsecond, hact]
    rfl

/-! ## Runs -/

/-- The order and the history account for a call: one that has not reached its
effect is not in the order, one that has is there with its answer, and no call
has thrown. -/
def Accounted (hist : List (Event ℕ (Call Device) (Ret Device)))
    (order : List (ℕ × Call Device × Ret Device)) (id : ℕ) :
    Option (Call Device × Progress Device) → Prop
  | none => id ∉ order.map Prod.fst
  | some (call, .started) => .invoke id call ∈ hist ∧ id ∉ order.map Prod.fst
  | some (call, .tested) => .invoke id call ∈ hist ∧ id ∉ order.map Prod.fst
  | some (call, .finished ret) => (id, call, ret) ∈ order
  | some (_, .threw) => False
  | some (_, .returned) => True

variable {hist : List (Event ℕ (Call Device) (Ret Device))}
  {order : List (ℕ × Call Device × Ret Device)} {id other : ℕ}
  {entry : Option (Call Device × Progress Device)} {s t : State Device}

theorem Accounted.append_history (accounted : Accounted hist order id entry)
    (more : List (Event ℕ (Call Device) (Ret Device))) :
    Accounted (hist ++ more) order id entry := by
  rcases entry with _ | ⟨call, progress⟩
  · exact accounted
  · cases progress with
    | started | tested => exact ⟨List.mem_append_left _ accounted.1, accounted.2⟩
    | finished | threw | returned => exact accounted

theorem Accounted.concat_order (accounted : Accounted hist order other entry)
    (hne : other ≠ id) : Accounted hist (order ++ [(id, call, ret)]) other entry := by
  have habsent : other ∉ order.map Prod.fst →
      other ∉ (order ++ [(id, call, ret)]).map Prod.fst := by
    intro hother
    simpa [hne] using hother
  rcases entry with _ | ⟨call', progress⟩
  · exact habsent accounted
  · cases progress with
    | started | tested => exact ⟨accounted.1, habsent accounted.2⟩
    | finished => exact List.mem_append_left _ accounted
    | threw | returned => exact accounted

/-- The history so far is explained by an order in which every call in progress
is accounted for. -/
def Explained (devices : DeviceMap Device) (hist : List (Event ℕ (Call Device) (Ret Device)))
    (s : State Device) : Prop :=
  ∃ order, Linearizes act (contents devices) hist order (contents s.devices) ∧
    ∀ id, Accounted hist order id (s.calls id)

/-- A call waiting for its second section finds the outcome of its test
unchanged. -/
def EntryHolds (devices : DeviceMap Device) : Option (Call Device × Progress Device) → Prop
  | some (call, .tested) => TestHolds devices call
  | some (_, .started) | some (_, .finished _) | some (_, .threw) | some (_, .returned) => True
  | none => True

/-- Every second section finds the outcome of its test unchanged. -/
def TestsHold (s : State Device) : Label Device → Prop
  | .critical id => EntryHolds s.devices (s.calls id)
  | .invoke _ _ => True
  | .respond _ => True

instance : (entry : Option (Call Device × Progress Device)) →
    Decidable (EntryHolds devices entry)
  | some (call, .tested) => inferInstanceAs (Decidable (TestHolds devices call))
  | some (_, .started) | some (_, .finished _) | some (_, .threw) | some (_, .returned) =>
    .isTrue trivial
  | none => .isTrue trivial

instance (s : State Device) : (a : Label Device) → Decidable (TestsHold s a)
  | .critical id => inferInstanceAs (Decidable (EntryHolds s.devices (s.calls id)))
  | .invoke _ _ => .isTrue trivial
  | .respond _ => .isTrue trivial

theorem forall_accounted_setCall (hothers : ∀ id, Accounted hist order id (s.calls id))
    (hself : Accounted hist order id (some (call, progress))) :
    ∀ other, Accounted hist order other ((s.setCall id call progress).calls other) := by
  intro other
  by_cases hother : other = id
  · subst hother
    simpa [State.setCall] using hself
  · simpa [State.setCall, hother] using hothers other

variable {initial : DeviceMap Device}

theorem Explained.invoke (explained : Explained initial hist s) (hnew : s.calls id = none) :
    Explained initial (hist ++ [.invoke id call]) (s.setCall id call .started) := by
  obtain ⟨order, linearizes, accounted⟩ := explained
  have hfresh : id ∉ order.map Prod.fst := by simpa [hnew, Accounted] using accounted id
  exact ⟨order, linearizes.concat_invoke hfresh call,
    forall_accounted_setCall (fun other => (accounted other).append_history _)
      ⟨by simp, hfresh⟩⟩

/-- A call that passed its test waits for its second section. -/
theorem Explained.tested (explained : Explained initial hist s)
    (hcall : s.calls id = some (call, .started)) :
    Explained initial hist (s.setCall id call .tested) := by
  obtain ⟨order, linearizes, accounted⟩ := explained
  have hself := accounted id
  rw [hcall] at hself
  exact ⟨order, linearizes, forall_accounted_setCall accounted hself⟩

/-- A call takes effect: its section does what the finite map does. -/
theorem Explained.effect (explained : Explained initial hist s)
    (hcall : s.calls id = some (call, .started) ∨ s.calls id = some (call, .tested))
    (hact : act (contents s.devices) call = (contents devices, ret)) :
    Explained initial hist { s.setCall id call (.finished ret) with devices := devices } := by
  obtain ⟨order, linearizes, accounted⟩ := explained
  have hself : .invoke id call ∈ hist ∧ id ∉ order.map Prod.fst := by
    have haccounted := accounted id
    rcases hcall with hcall | hcall <;> rwa [hcall] at haccounted
  -- the call goes to the end of the order, where the map is as the section found it
  have heffect := linearizes.concat_effect hself.1 hself.2
  rw [hact] at heffect
  refine ⟨_, heffect, fun other => ?_⟩
  by_cases hother : other = id
  · subst hother
    simp [State.setCall, Accounted]
  · simpa [State.setCall, hother] using (accounted other).concat_order hother

theorem Explained.respond (explained : Explained initial hist s)
    (hcall : s.calls id = some (call, .finished ret)) :
    Explained initial (hist ++ [.respond id ret]) (s.setCall id call .returned) := by
  obtain ⟨order, linearizes, accounted⟩ := explained
  have hself : (id, call, ret) ∈ order := by simpa [hcall, Accounted] using accounted id
  exact ⟨order, linearizes.concat_respond hself,
    forall_accounted_setCall (fun other => (accounted other).append_history _) trivial⟩

/-- **Step lemma.** A step that finds its test unchanged keeps the history
explained. -/
theorem Explained.step {a : Label Device} (explained : Explained initial hist s)
    (hholds : TestsHold s a) (hstep : step s a = some t) :
    Explained initial (hist ++ events (s, a)) t := by
  cases a with
  | invoke id call =>
    cases hcall : s.calls id with
    | none =>
      obtain rfl : s.setCall id call .started = t := by simpa [Repo.step, hcall] using hstep
      exact explained.invoke hcall
    | some entry => simp [Repo.step, hcall] at hstep
  | critical id =>
    simp only [events, List.append_nil]
    rcases hcall : s.calls id with _ | ⟨call, _ | _ | ret | _ | _⟩ <;>
      simp only [Repo.step, hcall, reduceCtorEq] at hstep
    case some.started =>
      cases hfirst : firstSection s.devices call with
      | some ret =>
        obtain rfl : s.setCall id call (.finished ret) = t := by simpa [hfirst] using hstep
        exact explained.effect (Or.inl hcall) (act_of_firstSection hfirst)
      | none =>
        obtain rfl : s.setCall id call .tested = t := by simpa [hfirst] using hstep
        exact explained.tested hcall
    case some.tested =>
      obtain ⟨⟨devices, progress⟩, hsecond, rfl⟩ := Option.map_eq_some_iff.mp hstep
      -- the guard says that the test is still right, so the section is the effect
      have htest : TestHolds s.devices call := by simpa [TestsHold, EntryHolds, hcall] using hholds
      obtain ⟨ret, rfl, hact⟩ := act_of_secondSection htest hsecond
      exact explained.effect (Or.inr hcall) hact
  | respond id =>
    rcases hcall : s.calls id with _ | ⟨call, _ | _ | ret | _ | _⟩ <;>
      simp only [Repo.step, hcall, reduceCtorEq] at hstep
    obtain rfl := Option.some.inj hstep
    simpa [events, hcall] using explained.respond hcall

/-- **Run lemma.** A run whose second sections all find their tests unchanged is
explained. -/
theorem explained_of_run {trace : List (State Device × Label Device)}
    (run : Run step (State.idle initial) trace t) (hholds : ∀ x ∈ trace, TestsHold x.1 x.2) :
    Explained initial (history trace) t := by
  refine run.induction_of_guard (J := fun trace => Explained initial (history trace))
    ⟨[], .nil, fun _ => by simp [Accounted, State.idle]⟩ ?_ hholds
  intro trace v a w hexplained hguard hstep
  simpa [history] using hexplained.step hguard hstep

/-- No call has thrown, and the values returned so far and the contents are those
of a sequential order of the calls on a finite map. -/
def Linearizable (initial : DeviceMap Device) (trace : List (State Device × Label Device))
    (final : State Device) : Prop :=
  (∀ id call, final.calls id ≠ some (call, .threw)) ∧
    ∃ order, Linearizes act (contents initial) (history trace) order (contents final.devices)

/-- **In a run in which no second section finds the outcome of its test changed,
the repository is a linearizable finite map in every state reached.** -/
theorem linearizable_of_testsHold (initial : DeviceMap Device)
    (trace : List (State Device × Label Device)) (final : State Device)
    (run : Run step (State.idle initial) trace final)
    (hholds : ∀ x ∈ trace, TestsHold x.1 x.2) : Linearizable initial trace final := by
  obtain ⟨order, linearizes, accounted⟩ := explained_of_run run hholds
  refine ⟨fun id call hthrew => ?_, order, linearizes⟩
  have hself := accounted id
  rw [hthrew] at hself
  exact hself

/-- Two clients in turn: one creates a device, the other updates it. -/
def createThenUpdate : List (Label Bool) :=
  [.invoke 0 (.create .broadcast false), .critical 0, .critical 0, .respond 0,
    .invoke 1 (.update .broadcast true), .critical 1, .critical 1, .respond 1]

theorem linearizable_createThenUpdate :
    ∃ final, exec step (State.idle ∅) createThenUpdate = some final ∧
      Linearizable ∅ (record step (State.idle ∅) createThenUpdate) final := by
  have hexec := Option.some_get (x := exec step (State.idle ∅) createThenUpdate) (by decide)
  exact ⟨_, hexec.symm, linearizable_of_testsHold _ _ _ (Run.of_exec hexec.symm) (by decide)⟩

/-- A device is removed between the test of an update and its second section. -/
def updateDuringRemove : List (Label Bool) :=
  [.invoke 0 (.create .broadcast false), .critical 0, .critical 0, .respond 0,
    .invoke 1 (.update .broadcast true), .critical 1,
    .invoke 2 (.remove .broadcast), .critical 2, .critical 2, .critical 1]

/-- The update throws. -/
theorem not_linearizable_updateDuringRemove :
    ∃ final, Run step (State.idle ∅) (record step (State.idle ∅) updateDuringRemove) final ∧
      ¬ Linearizable ∅ (record step (State.idle ∅) updateDuringRemove) final := by
  have hexec := Option.some_get (x := exec step (State.idle ∅) updateDuringRemove) (by decide)
  refine ⟨_, Run.of_exec hexec.symm, fun hlinearizable => ?_⟩
  exact hlinearizable.1 1 (.update .broadcast true) rfl

end NetDiscovery.Repo
