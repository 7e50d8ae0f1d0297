import Mathlib.Data.List.Basic
import Mathlib.Algebra.Order.Ring.Unbundled.Rat

/-!
What a monitor sample says about the alert rules of an environment: one
observation for each rule of a host, of its disks and of its deployments.
-/

namespace ImApp.MonitorAlerts

open List

inductive TargetType where
  | host
  | deployment
deriving DecidableEq

inductive RuleType where
  | hostOffline
  | cpu
  | memory
  | diskUsage
  | temperature
  | diskAdded
  | diskMissing
  | deploymentStatus
deriving DecidableEq

/-- `disk` is `monitorDiskKey`: the trimmed device and path as a JSON array. -/
inductive RuleKey where
  | empty
  | diskBaseline
  | disk (device path : String)
deriving DecidableEq

/-- What the model takes from the runtime: SHA-256 without collisions on the rule
keys, and the trimming of text. -/
structure Runtime (H : Type*) where
  ruleKeyHash : RuleKey → H
  hash_injective : Function.Injective ruleKeyHash
  trim : String → String

/-- A number of a sample; `none` is not finite. -/
abbrev Reading := Option ℚ

structure Settings where
  enabled : Bool
  hostOfflineEnabled : Bool
  cpuEnabled : Bool
  cpuThreshold : ℚ
  memoryEnabled : Bool
  memoryThreshold : ℚ
  diskUsageEnabled : Bool
  diskUsageThreshold : ℚ
  temperatureEnabled : Bool
  temperatureThreshold : ℚ
  deploymentStatusEnabled : Bool
  diskMissingEnabled : Bool
  excludedDisks : List RuleKey

/-- The settings hold no other value. -/
def consecutiveSamples : Nat := 2

structure Disk where
  device : Option String
  path : String
  usedPercent : Reading

structure HostSnapshot where
  cpuUsedPercent : Reading
  memoryUsedPercent : Reading
  temperatures : List Reading
  disks : List Disk

structure Deployment where
  id : String
  provider : String
  externalId : String

structure Candidate where
  provider : String
  externalId : String
  status : String

structure Observation where
  targetType : TargetType
  targetId : String
  ruleType : RuleType
  ruleKey : RuleKey
  breached : Option Bool
  event : Bool
deriving DecidableEq

def monitorDiskKey (trim : String → String) (disk : Disk) : RuleKey :=
  .disk ((disk.device.map trim).getD "") (trim disk.path)

/-- `Number.isFinite(value) ? value >= threshold : null`. -/
def exceeds (value : Reading) (threshold : ℚ) : Option Bool :=
  value.map (fun value => threshold ≤ value)

def thresholdObservation (agentId : String) (ruleType : RuleType) (value : Reading)
    (threshold : ℚ) : Observation :=
  ⟨.host, agentId, ruleType, .empty, exceeds value threshold, false⟩

/-- `reduce` to the highest temperature. -/
def hottest (first : Reading) (rest : List Reading) : Reading :=
  rest.foldl (fun current item => match item, current with
    | some item, some current => some (if current < item then item else current)
    | _, _ => current) first

def diskObservation (agentId : String) (key : RuleKey) : Observation :=
  ⟨.host, agentId, .diskMissing, key, some false, false⟩

section Host

variable (trim : String → String) (settings : Settings) (agentId : String) (host : HostSnapshot)

def thresholdObservations : List Observation :=
  (if settings.cpuEnabled then
    [thresholdObservation agentId .cpu host.cpuUsedPercent settings.cpuThreshold] else []) ++
  (if settings.memoryEnabled then
    [thresholdObservation agentId .memory host.memoryUsedPercent settings.memoryThreshold]
    else []) ++
  match settings.temperatureEnabled, host.temperatures with
  | true, first :: rest =>
    [thresholdObservation agentId .temperature (hottest first rest) settings.temperatureThreshold]
  | _, _ => []

def observationsOfDisk (disk : Disk) : List Observation :=
  let key := monitorDiskKey trim disk
  if settings.excludedDisks.contains key then []
  else
    (if settings.diskUsageEnabled then
      [⟨.host, agentId, .diskUsage, key, exceeds disk.usedPercent settings.diskUsageThreshold,
        false⟩] else []) ++
    if settings.diskMissingEnabled then [diskObservation agentId key] else []

def hostObservations : List Observation :=
  thresholdObservations settings agentId host ++
  (if settings.diskMissingEnabled then [diskObservation agentId .diskBaseline] else []) ++
  host.disks.flatMap (observationsOfDisk trim settings agentId)

end Host

/-- The last candidate of a target counts. -/
def deploymentStatus (candidates : List Candidate) (deployment : Deployment) : String :=
  let target := fun provider externalId => provider ++ ":" ++ externalId
  match candidates.reverse.find? (fun candidate =>
    target candidate.provider candidate.externalId =
      target deployment.provider deployment.externalId) with
  | some candidate => candidate.status
  | none => "unknown"

def deploymentObservations (settings : Settings) (deployments : List Deployment)
    (candidates : List Candidate) : List Observation :=
  if settings.deploymentStatusEnabled then
    deployments.map (fun deployment =>
      let status := deploymentStatus candidates deployment
      ⟨.deployment, deployment.id, .deploymentStatus, .empty,
        if status = "stopped" ∨ status = "degraded" then some true
        else if status = "running" then some false else none, false⟩)
  else []

/-- The observation of an availability check. -/
def offlineObservation (agentId : String) (available : Bool) : Observation :=
  ⟨.host, agentId, .hostOffline, .empty, some (!available), false⟩

variable {trim : String → String} {settings : Settings} {agentId : String} {host : HostSnapshot}
  {deployments : List Deployment} {candidates : List Candidate} {obs : Observation}

theorem mem_observationsOfDisk {disk : Disk}
    (h : obs ∈ observationsOfDisk trim settings agentId disk) :
    monitorDiskKey trim disk ∉ settings.excludedDisks ∧
      (obs.ruleType = .diskUsage ∨ (settings.diskMissingEnabled = true ∧
        obs = diskObservation agentId (monitorDiskKey trim disk))) := by
  simp only [observationsOfDisk] at h
  split at h
  · cases h
  case isFalse hnot =>
    refine ⟨by simpa using hnot, ?_⟩
    rcases mem_append.mp h with husage | hmissing
    · split at husage
      · rw [mem_singleton.mp husage]
        exact .inl rfl
      cases husage
    split at hmissing
    case isTrue henabled => exact .inr ⟨henabled, mem_singleton.mp hmissing⟩
    · cases hmissing

theorem mem_thresholdObservations (h : obs ∈ thresholdObservations settings agentId host) :
    obs.ruleType = .cpu ∨ obs.ruleType = .memory ∨ obs.ruleType = .temperature := by
  simp only [thresholdObservations, append_assoc, mem_append] at h
  rcases h with h | h | h
  · split at h
    · rw [mem_singleton.mp h]
      exact .inl rfl
    cases h
  · split at h
    · rw [mem_singleton.mp h]
      exact .inr (.inl rfl)
    cases h
  split at h
  · rw [mem_singleton.mp h]
    exact .inr (.inr rfl)
  cases h

/-- Only `disk_missing` is observed of a disk besides its usage, for the disks of
the sample that are not excluded, and never breached. -/
theorem mem_sampleObservations (h : obs ∈ hostObservations trim settings agentId host ++
      deploymentObservations settings deployments candidates) :
    obs.ruleType ≠ .diskAdded ∧ (obs.ruleType = .diskMissing →
      settings.diskMissingEnabled = true ∧ ∃ key, obs = diskObservation agentId key ∧
        (key = .diskBaseline ∨
          (key ∈ host.disks.map (monitorDiskKey trim) ∧ key ∉ settings.excludedDisks))) := by
  rcases mem_append.mp h with hhost | hdeployment
  · rw [hostObservations, append_assoc] at hhost
    rcases mem_append.mp hhost with hthreshold | hrest
    · rcases mem_thresholdObservations hthreshold with hrule | hrule | hrule
      all_goals
        rw [hrule]
        exact ⟨RuleType.noConfusion, RuleType.noConfusion⟩
    rcases mem_append.mp hrest with hbaseline | hdisks
    · split at hbaseline
      case isTrue henabled =>
        rw [mem_singleton.mp hbaseline]
        exact ⟨RuleType.noConfusion, fun _ => ⟨henabled, _, rfl, .inl rfl⟩⟩
      · cases hbaseline
    obtain ⟨disk, hdisk, hobs⟩ := mem_flatMap.mp hdisks
    obtain ⟨hnot, hrule | ⟨henabled, rfl⟩⟩ := mem_observationsOfDisk hobs
    · rw [hrule]
      exact ⟨RuleType.noConfusion, RuleType.noConfusion⟩
    exact ⟨RuleType.noConfusion, fun _ => ⟨henabled, _, rfl, .inr ⟨mem_map_of_mem hdisk, hnot⟩⟩⟩
  rw [deploymentObservations] at hdeployment
  split at hdeployment
  · obtain ⟨deployment, _, rfl⟩ := mem_map.mp hdeployment
    exact ⟨RuleType.noConfusion, RuleType.noConfusion⟩
  cases hdeployment

/-- The disks of the sample that are not excluded are observed while the rule is
on. -/
theorem diskObservation_mem {key : RuleKey} (henabled : settings.diskMissingEnabled = true)
    (hkey : key ∈ host.disks.map (monitorDiskKey trim)) (hnot : key ∉ settings.excludedDisks) :
    diskObservation agentId key ∈ hostObservations trim settings agentId host := by
  obtain ⟨disk, hdisk, rfl⟩ := mem_map.mp hkey
  refine mem_append_right _ (mem_flatMap.mpr ⟨disk, hdisk, ?_⟩)
  simp only [observationsOfDisk]
  rw [if_neg (by simpa using hnot), if_pos henabled]
  exact mem_append_right _ mem_cons_self

end ImApp.MonitorAlerts
