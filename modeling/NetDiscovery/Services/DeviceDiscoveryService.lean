/-
# The device discovery service

`discover(begin, end)` iterates over `rangeOf(begin, Inclusive(end))` and hands
every address to every registered task. The inclusive end is turned into an
exclusive one by incrementing it, and the loop compares with `!=`, so the
number of addresses visited is the difference modulo `2 ^ 32`: the full address
space becomes the empty range, and swapped ends run around the whole space.
-/

import Mathlib
import NetDiscovery.Net.AddressSequence
import NetDiscovery.Services.DeviceDiscoveryTask
import NetDiscovery.Util.RangeOf

namespace NetDiscovery.Services

open NetDiscovery.Math NetDiscovery.Net NetDiscovery.Util

instance : Incrementable IPv4Address where
  increment := IPv4Address.increment

/-- Post-increment walks around the 32-bit numbers. -/
theorem cyclic_increment :
    Cyclic (increment : IPv4Address → IPv4Address) (fun a => a.toInt.toNat) (2 ^ 32) :=
  IPv4Address.cyclic_increment

/-- So `rangeOf` over addresses is a range of the numeric order. -/
instance : LawfulIncrement IPv4Address :=
  .of_cyclic cyclic_increment fun _ _ => IPv4Address.lt_iff_toNat_lt

/-- A call `task->discover(host)` on the task at a position of `m_discoveryTasks`. -/
structure DiscoverCall where
  position : ℕ
  host : IPv4Address
  deriving DecidableEq

/-- `DeviceDiscoveryService`: its registered tasks. -/
structure DeviceDiscoveryService (Task : Type*) where
  discoveryTasks : List Task

namespace DeviceDiscoveryService

variable {Task : Type*} {service : DeviceDiscoveryService Task} {first last : IPv4Address}
  {hosts : List IPv4Address} {position : ℕ}

/-- `discover(host)`: the calls it makes, in order. -/
def discover (service : DeviceDiscoveryService Task) (host : IPv4Address) : List DiscoverCall :=
  service.discoveryTasks.mapIdx fun position _ => ⟨position, host⟩

/-- `discover(begin, end)`: the calls it makes, in order; `none` while the loop
has not ended within the fuel. -/
def discoverRange (service : DeviceDiscoveryService Task) (first last : IPv4Address)
    (fuel : ℕ) : Option (List DiscoverCall) :=
  ((rangeOfEnd first (.inclusive last)).elements fuel).map fun ips => ips.flatMap service.discover

/-- `clearResults()`. -/
def clearResults (service : DeviceDiscoveryService DeviceDiscoveryTask) :
    DeviceDiscoveryService DeviceDiscoveryTask where
  discoveryTasks := service.discoveryTasks.map DeviceDiscoveryTask.clearResults

/-- The hosts the task at `position` was called with, in order. -/
def hostsAt (position : ℕ) (calls : List DiscoverCall) : List IPv4Address :=
  (calls.filter fun call => call.position = position).map DiscoverCall.host

/-- The call `discover(begin, end)` returns, and every task was called exactly
once for each address from `first` to `last`, in increasing order, and for no
other address. -/
def DiscoversRange (service : DeviceDiscoveryService Task) (first last : IPv4Address) : Prop :=
  ∃ fuel calls, service.discoverRange first last fuel = some calls ∧
    ∀ position < service.discoveryTasks.length,
      (hostsAt position calls).Pairwise (· < ·) ∧
        ∀ a, a ∈ hostsAt position calls ↔ first ≤ a ∧ a ≤ last

/-- The number of addresses the loop visits. -/
def rangeSteps (first last : IPv4Address) : ℕ :=
  (last.toInt.toNat + 1 + 2 ^ 32 - first.toInt.toNat) % 2 ^ 32

/-- One round calls each task once. -/
theorem hostsAt_discover (hposition : position < service.discoveryTasks.length)
    (host : IPv4Address) : hostsAt position (service.discover host) = [host] := by
  have hcalls : service.discover host =
      (List.range service.discoveryTasks.length).map fun i => ⟨i, host⟩ := by
    apply List.ext_getElem
    · simp [discover]
    · intro i _ _
      simp [discover]
  -- the position occurs once among the calls of a round
  have hone : (List.range service.discoveryTasks.length).filter (· = position) = [position] := by
    rw [List.filter_eq, List.count_eq_one_of_mem List.nodup_range (List.mem_range.mpr hposition)]
    rfl
  rw [hostsAt, hcalls, List.filter_map, List.map_map]
  exact congrArg (List.map _) hone

/-- Over all rounds a task is called with the visited addresses in turn. -/
theorem hostsAt_flatMap_discover (hposition : position < service.discoveryTasks.length) :
    hostsAt position (hosts.flatMap service.discover) = hosts := by
  induction hosts with
  | nil => rfl
  | cons host hosts ih =>
    have happend : ∀ l r : List DiscoverCall,
        hostsAt position (l ++ r) = hostsAt position l ++ hostsAt position r := by
      simp [hostsAt]
    rw [List.flatMap_cons, happend, hostsAt_discover hposition, ih, List.singleton_append]

/-- The loop always ends, after `rangeSteps` rounds. -/
theorem discoverRange_eq (fuel : ℕ) (hfuel : rangeSteps first last ≤ fuel) :
    service.discoverRange first last fuel =
      some ((List.iterate increment first (rangeSteps first last)).flatMap service.discover) := by
  -- the exclusive end is the increment of `last`, which may wrap to zero
  have hsteps : Cyclic.steps (fun a : IPv4Address => a.toInt.toNat) (2 ^ 32) first
      (increment last) = rangeSteps first last := by
    have hindex : (increment last).toInt.toNat = (last.toInt.toNat + 1) % 2 ^ 32 :=
      IPv4Address.toNat_toInt_increment last
    have hfirst := first.toInt.toNat_lt
    have hlast := last.toInt.toNat_lt
    simp only [Cyclic.steps, rangeSteps, hindex]
    omega
  have helements : (rangeOfEnd first (.inclusive last)).elements fuel =
      some (List.iterate increment first (rangeSteps first last)) := by
    rw [← hsteps] at hfuel ⊢
    exact Sequence.elements_of_cyclic cyclic_increment (rangeOfEnd first (.inclusive last)) hfuel
  rw [discoverRange, helements, Option.map_some]

/-- A service with tasks discovers the range exactly when the visited addresses
are the addresses from `first` to `last` in increasing order. -/
theorem discoversRange_iff_iterate (hregistered : service.discoveryTasks ≠ []) :
    service.DiscoversRange first last ↔
      (List.iterate increment first (rangeSteps first last)).Pairwise (· < ·) ∧
        ∀ a, a ∈ List.iterate increment first (rangeSteps first last) ↔ first ≤ a ∧ a ≤ last := by
  constructor
  · rintro ⟨fuel, calls, hcalls, hall⟩
    have hpos : 0 < service.discoveryTasks.length := List.length_pos_iff.mpr hregistered
    -- whatever fuel the loop returned with, it returned the same addresses
    obtain ⟨ips, hips, rfl⟩ := Option.map_eq_some_iff.mp hcalls
    have hvisits : service.discoverRange first last (rangeSteps first last) = some
        ((List.iterate increment first (rangeSteps first last)).flatMap service.discover) :=
      discoverRange_eq _ le_rfl
    obtain ⟨ips', hips', hcalls'⟩ := Option.map_eq_some_iff.mp hvisits
    obtain rfl := Sequence.loop_unique hips hips'
    have hhosts := hall 0 hpos
    rw [hcalls', hostsAt_flatMap_discover hpos] at hhosts
    exact hhosts
  · rintro hvisited
    refine ⟨_, _, discoverRange_eq _ le_rfl, fun position hposition => ?_⟩
    rw [hostsAt_flatMap_discover hposition]
    exact hvisited

/-- **Every task is called exactly for the addresses from `first` to `last`
exactly when no task is registered, the ends are in order and do not span the
whole address space, or `first` directly follows `last`.** -/
theorem discoversRange_iff (service : DeviceDiscoveryService Task) (first last : IPv4Address) :
    service.DiscoversRange first last ↔
      service.discoveryTasks = [] ∨
        (first ≤ last ∧
          ¬ (first.toInt.toNat = 0 ∧ last.toInt.toNat = 2 ^ 32 - 1)) ∨
        first.toInt.toNat = last.toInt.toNat + 1 := by
  by_cases hregistered : service.discoveryTasks = []
  · refine iff_of_true ⟨_, _, discoverRange_eq _ le_rfl, ?_⟩ (Or.inl hregistered)
    simp [hregistered]
  rw [discoversRange_iff_iterate hregistered, IPv4Address.le_iff_toNat_le]
  simp only [hregistered, false_or]
  have hfirst := first.toInt.toNat_lt
  have hlast := last.toInt.toNat_lt
  constructor
  · rintro ⟨-, hmem⟩
    by_contra hcond
    by_cases hle : first.toInt.toNat ≤ last.toInt.toNat
    · -- the whole space: the loop visits nothing, but `first` is in the range
      have hsteps : rangeSteps first last = 0 := by
        unfold rangeSteps
        omega
      have hvisit := (hmem first).mpr ⟨le_rfl, IPv4Address.le_iff_toNat_le.mpr hle⟩
      simp [hsteps, List.iterate] at hvisit
    · -- swapped ends: `first` is visited, but the range is empty
      have hsteps : 0 < rangeSteps first last := by
        unfold rangeSteps
        omega
      have hvisit := (hmem first).mp (List.mem_iterate.mpr ⟨0, hsteps, rfl⟩)
      exact hle (IPv4Address.le_iff_toNat_le.mp hvisit.2)
  · intro hcond
    have hsteps : rangeSteps first last = last.toInt.toNat + 1 - first.toInt.toNat := by
      unfold rangeSteps
      omega
    -- no wrap happens on the way, so the visited numbers count up by one
    have hbound : first.toInt.toNat + rangeSteps first last ≤ 2 ^ 32 := by omega
    refine ⟨cyclic_increment.pairwise_iterate hbound, fun a => ?_⟩
    rw [cyclic_increment.mem_iterate_iff hbound, IPv4Address.le_iff_toNat_le,
      IPv4Address.le_iff_toNat_le, hsteps]
    omega

/-- With one task registered, the full address space is not discovered: nothing
is visited at all. -/
theorem not_discoversRange_full_space :
    ¬ (⟨[()]⟩ : DeviceDiscoveryService Unit).DiscoversRange
      (IPv4Address.ofOctets 0 0 0 0) (IPv4Address.ofOctets 255 255 255 255) := by
  rintro ⟨fuel, calls, hcalls, hall⟩
  have hwrap : increment (IPv4Address.ofOctets 255 255 255 255) =
      IPv4Address.ofOctets 0 0 0 0 := by decide
  have hempty : (⟨[()]⟩ : DeviceDiscoveryService Unit).discoverRange
      (IPv4Address.ofOctets 0 0 0 0) (IPv4Address.ofOctets 255 255 255 255) fuel = some [] := by
    cases fuel <;> simp [discoverRange, rangeOfEnd, Bound.call, Sequence.elements,
      Sequence.loop, hwrap]
  obtain rfl := Option.some.inj (hempty.symm.trans hcalls)
  have hmem := (hall 0 (by decide)).2 (IPv4Address.ofOctets 0 0 0 0)
  exact List.not_mem_nil (hmem.mpr ⟨le_rfl, by decide⟩)

end DeviceDiscoveryService

end NetDiscovery.Services
