/-
# Results of a discovery task

A discovery task keeps the last result of each host under the host's printed
address. Every result is first handed to the callback for its kind, if there is
one, and then stored.
-/

import NetDiscovery.Net.IPv4Address
import NetDiscovery.Net.MacAddress
import NetDiscovery.Net.ReceivingSocket
import NetDiscovery.Util.Result

namespace NetDiscovery.Services

open NetDiscovery.Net NetDiscovery.Util

/-- `DeviceDiscoveryTask::TaskSuccess`. -/
structure TaskSuccess where
  srcIp : IPv4Address
  srcMac : Option MacAddress
  dstIp : IPv4Address
  dstMac : Option MacAddress
  ttl : UInt8
  responseTime : ℤ
  completedAt : TimePoint

/-- `DeviceDiscoveryTask::TaskError`. -/
structure TaskError where
  dstIp : IPv4Address
  completedAt : TimePoint

/-- `DeviceDiscoveryTask::ResultType`. -/
abbrev TaskResult := Result TaskError TaskSuccess

/-- The host a result is about: `dstIp` of either kind. -/
def TaskResult.dstIp : TaskResult → IPv4Address
  | .ok success => success.dstIp
  | .error error => error.dstIp

/-- `net::DeviceDiscoveryTask`: `m_results`, and what the callbacks were handed
so far. -/
structure DeviceDiscoveryTask where
  results : Std.ExtTreeMap String TaskResult compare
  /-- calls of `m_onDevicePinged`, oldest first -/
  devicePinged : List TaskSuccess
  /-- calls of `m_onPingFailed`, oldest first -/
  pingFailed : List TaskError

namespace DeviceDiscoveryTask

/-- A new task. -/
def empty : DeviceDiscoveryTask where
  results := ∅
  devicePinged := []
  pingFailed := []

variable (task : DeviceDiscoveryTask) (host : IPv4Address)

/-- `addSuccess`. -/
def addSuccess (result : TaskSuccess) : DeviceDiscoveryTask :=
  { task with
    devicePinged := task.devicePinged ++ [result]
    results := task.results.insert host.toString (.ok result) }

/-- `addError`. -/
def addError (error : TaskError) : DeviceDiscoveryTask :=
  { task with
    pingFailed := task.pingFailed ++ [error]
    results := task.results.insert host.toString (.error error) }

/-- The call `m_onDevicePinged(result)`. -/
def callDevicePinged (result : TaskSuccess) : DeviceDiscoveryTask :=
  { task with devicePinged := task.devicePinged ++ [result] }

/-- The call `m_onPingFailed(error)`. -/
def callPingFailed (error : TaskError) : DeviceDiscoveryTask :=
  { task with pingFailed := task.pingFailed ++ [error] }

/-- `m_results[host.toString()] = result`, with which `addSuccess` and `addError` end. -/
def store (result : TaskResult) : DeviceDiscoveryTask :=
  { task with results := task.results.insert host.toString result }

/-- `hasResult`. -/
def hasResult : Bool :=
  task.results.contains host.toString

/-- `getResult`. -/
def getResult : Option TaskResult :=
  if task.hasResult host then task.results[host.toString]? else none

/-- `clearResults`. -/
def clearResults : DeviceDiscoveryTask :=
  { task with results := ∅ }

/-- `clearResult`. -/
def clearResult : DeviceDiscoveryTask :=
  { task with results := task.results.erase host.toString }

/-- `consumeResult`. -/
def consumeResult : Option TaskResult × DeviceDiscoveryTask :=
  match task.getResult host with
  | some result => (some result, task.clearResult host)
  | none => (none, task)

variable {task host} {host' : IPv4Address} {success : TaskSuccess} {error : TaskError}
  {result : TaskResult}

theorem addSuccess_eq : task.addSuccess host success =
    (task.callDevicePinged success).store host (.ok success) := rfl

theorem addError_eq : task.addError host error =
    (task.callPingFailed error).store host (.error error) := rfl

theorem getResult_eq : task.getResult host = task.results[host.toString]? := by
  unfold getResult hasResult
  split_ifs with hcontains
  · rfl
  · exact (Std.ExtTreeMap.getElem?_eq_none (by simpa using hcontains)).symm

@[simp]
theorem getResult_empty : empty.getResult host = none := by
  simp [getResult_eq, empty]

@[simp]
theorem getResult_callDevicePinged :
    (task.callDevicePinged success).getResult host = task.getResult host := rfl

@[simp]
theorem getResult_callPingFailed :
    (task.callPingFailed error).getResult host = task.getResult host := rfl

theorem getResult_store : (task.store host result).getResult host' =
    if host = host' then some result else task.getResult host' := by
  simp [getResult_eq, store, Std.ExtTreeMap.getElem?_insert]

theorem getResult_addSuccess : (task.addSuccess host success).getResult host' =
    if host = host' then some (.ok success) else task.getResult host' := by
  rw [addSuccess_eq, getResult_store, getResult_callDevicePinged]

theorem getResult_addError : (task.addError host error).getResult host' =
    if host = host' then some (.error error) else task.getResult host' := by
  rw [addError_eq, getResult_store, getResult_callPingFailed]

@[simp]
theorem getResult_clearResults : task.clearResults.getResult host = none := by
  simp [getResult_eq, clearResults]

theorem getResult_clearResult : (task.clearResult host).getResult host' =
    if host = host' then none else task.getResult host' := by
  simp [getResult_eq, clearResult, Std.ExtTreeMap.getElem?_erase]

theorem consumeResult_fst (task : DeviceDiscoveryTask) (host : IPv4Address) :
    (task.consumeResult host).1 = task.getResult host := by
  unfold consumeResult
  cases task.getResult host <;> rfl

/-- Consuming a result returns it and clears it. -/
theorem getResult_consumeResult : ((task.consumeResult host).2).getResult host' =
    if host = host' then none else task.getResult host' := by
  unfold consumeResult
  split
  · exact getResult_clearResult
  · rename_i hnone
    split_ifs with heq
    · exact heq ▸ hnone
    · rfl

end DeviceDiscoveryTask

end NetDiscovery.Services
