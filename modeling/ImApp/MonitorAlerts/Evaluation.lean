import ImApp.Library.StepSystem
import ImApp.MonitorAlerts.Observations

/-!
The alert states of an environment and `applyObservations`. It adds observations
for disks that came and went to those of the sample, then takes them one after the
other in one transaction. `history` notes what it evaluated, latest first.
-/

namespace ImApp.MonitorAlerts

variable {H : Type*}

/-- Milliseconds, as `Date.parse` reads a timestamp. -/
abbrev Time := Int

structure StateKey (H : Type*) where
  targetType : TargetType
  targetId : String
  ruleType : RuleType
  hash : H
deriving DecidableEq

/-- A row of `monitor_alert_states`. The hash of the rule key is computed. -/
structure StateRow where
  id : Nat
  targetType : TargetType
  targetId : String
  ruleType : RuleType
  ruleKey : RuleKey
  breachCount : Nat
  recoveryCount : Nat
  activeAlertId : Option Nat
  lastEvaluatedAt : Time
deriving DecidableEq

inductive AlertStatus where
  | active
  | recovered
  | event
deriving DecidableEq

/-- A row of `monitor_alerts`. -/
structure Alert where
  id : Nat
  stateId : Option Nat
  targetType : TargetType
  targetId : String
  ruleType : RuleType
  ruleKey : RuleKey
  status : AlertStatus
  triggeredAt : Time
  recoveredAt : Option Time
deriving DecidableEq

inductive Entry (H : Type*) where
  | evaluated (key : StateKey H) (breached : Bool)
  | opened (key : StateKey H) (alert : Nat)
  | recovered (key : StateKey H) (alert : Nat)
  | reset
deriving DecidableEq

/-- The rows of one environment; `nextId` stands for the random ids. `steady` are
the disks of a target that were in the sample its baseline was taken from and in
every sample since. -/
structure Store (H : Type*) where
  states : List StateRow
  alerts : List Alert
  nextId : Nat
  history : List (Entry H)
  steady : String → List RuleKey

section Keys

variable (runtime : Runtime H)

def stateKey (targetType : TargetType) (targetId : String) (ruleType : RuleType)
    (ruleKey : RuleKey) : StateKey H :=
  ⟨targetType, targetId, ruleType, runtime.ruleKeyHash ruleKey⟩

def StateRow.key (row : StateRow) : StateKey H :=
  stateKey runtime row.targetType row.targetId row.ruleType row.ruleKey

def Observation.key (obs : Observation) : StateKey H :=
  stateKey runtime obs.targetType obs.targetId obs.ruleType obs.ruleKey

/-- The key of the `disk_missing` state of the same disk. -/
def missingKey (targetType : TargetType) (targetId : String) (ruleKey : RuleKey) : StateKey H :=
  stateKey runtime targetType targetId .diskMissing ruleKey

end Keys

section Apply

variable [DecidableEq H] (runtime : Runtime H)

def findState (states : List StateRow) (key : StateKey H) : Option StateRow :=
  states.find? (fun row => row.key runtime = key)

def hasState (states : List StateRow) (key : StateKey H) : Bool :=
  (findState runtime states key).isSome

def diskObservations (observations : List Observation) : List Observation :=
  observations.filter (fun obs => obs.ruleType = .diskMissing && obs.ruleKey ≠ .diskBaseline)

def currentDiskStateKeys (observations : List Observation) : List (StateKey H) :=
  (diskObservations observations).map (fun obs =>
    missingKey runtime obs.targetType obs.targetId obs.ruleKey)

def baselineTargets (states : List StateRow) : List String :=
  (states.filter (fun row =>
    row.ruleType = .diskMissing && row.ruleKey = .diskBaseline)).map StateRow.targetId

/-- A disk is new until an alert says so. -/
def suppressedNewDiskStates (states : List StateRow) (observations : List Observation) :
    List (StateKey H) :=
  ((diskObservations observations).filter (fun obs =>
    (baselineTargets states).contains obs.targetId &&
      !hasState runtime states (missingKey runtime obs.targetType obs.targetId obs.ruleKey) &&
      ((findState runtime states (stateKey runtime obs.targetType obs.targetId .diskAdded
        obs.ruleKey)).bind StateRow.activeAlertId).isNone)).map (fun obs =>
          missingKey runtime obs.targetType obs.targetId obs.ruleKey)

def addedObservations (states : List StateRow) (observations : List Observation) :
    List Observation :=
  ((diskObservations observations).filter (fun obs =>
    hasState runtime states (stateKey runtime obs.targetType obs.targetId .diskAdded obs.ruleKey) ||
      ((baselineTargets states).contains obs.targetId &&
        !hasState runtime states (missingKey runtime obs.targetType obs.targetId
          obs.ruleKey)))).map (fun obs =>
    { obs with ruleType := .diskAdded, breached := some true, event := true })

def missingObservation (row : StateRow) : Observation :=
  ⟨.host, row.targetId, .diskMissing, row.ruleKey, some true, false⟩

/-- A disk that was reported as added is gone before it was known. -/
def vanishedAdded (settings : Settings) (states : List StateRow)
    (observations : List Observation) (observed : List String) : List Observation :=
  (states.filter (fun row =>
    row.targetType = .host && row.ruleType = .diskAdded && row.activeAlertId.isSome &&
      observed.contains row.targetId &&
      !(currentDiskStateKeys runtime observations).contains
        (missingKey runtime row.targetType row.targetId row.ruleKey) &&
      !hasState runtime states (missingKey runtime row.targetType row.targetId row.ruleKey) &&
      !settings.excludedDisks.contains row.ruleKey)).map missingObservation

/-- A known disk is gone. -/
def vanishedKnown (settings : Settings) (states : List StateRow)
    (observations : List Observation) (observed : List String) : List Observation :=
  (states.filter (fun row =>
    row.ruleKey ≠ .diskBaseline && row.targetType = .host && observed.contains row.targetId &&
      row.ruleType = .diskMissing &&
      !(currentDiskStateKeys runtime observations).contains
        (missingKey runtime row.targetType row.targetId row.ruleKey) &&
      !settings.excludedDisks.contains row.ruleKey)).map missingObservation

def allObservations (settings : Settings) (states : List StateRow)
    (observations : List Observation) (observed : List String) : List Observation :=
  observations ++ addedObservations runtime states observations ++
    vanishedAdded runtime settings states observations observed ++
    vanishedKnown runtime settings states observations observed

/-- The disk of an addition that was not reported yet is not in the sample. -/
def unconfirmed (observations : List Observation) (observed : List String)
    (row : StateRow) : Bool :=
  row.targetType = .host && row.ruleType = .diskAdded && observed.contains row.targetId &&
    row.activeAlertId.isNone &&
    !(currentDiskStateKeys runtime observations).contains
      (missingKey runtime row.targetType row.targetId row.ruleKey) &&
    row.breachCount ≠ 0

/-- The first loop of the transaction. -/
def resetUnconfirmed (store : Store H) (observations : List Observation)
    (observed : List String) (evaluatedAt : Time) : Store H :=
  { store with
    states := store.states.map (fun row =>
      if unconfirmed runtime observations observed row then
        { row with breachCount := 0, recoveryCount := 0, lastEvaluatedAt := evaluatedAt }
      else row)
    history := (store.states.filter (unconfirmed runtime observations observed)).map
      (fun row => .evaluated (row.key runtime) false) ++ store.history }

/-- `UPDATE … WHERE id = ?`. -/
def Store.setState (store : Store H) (row : StateRow) : Store H :=
  { store with states := store.states.map (fun old => if old.id = row.id then row else old) }

/-- The loop over the observations. The row of a state whose value was unknown
keeps its old time in memory: `unknown` has its key. -/
structure Pass (H : Type*) where
  store : Store H
  unknown : List (StateKey H)

def Pass.note (pass : Pass H) (entries : List (Entry H)) : Pass H :=
  { pass with store := { pass.store with history := entries ++ pass.store.history } }

/-- The state was not there. -/
def insertState (pass : Pass H) (obs : Observation) (evaluatedAt : Time) : Pass H :=
  let row : StateRow := ⟨pass.store.nextId, obs.targetType, obs.targetId, obs.ruleType,
    obs.ruleKey, if obs.breached = some true then 1 else 0, 0, none, evaluatedAt⟩
  let inserted : Pass H := { pass with
    store := { pass.store with
      states := pass.store.states ++ [row]
      nextId := pass.store.nextId + 1 } }
  inserted.note (obs.breached.toList.map (.evaluated (row.key runtime)))

/-- The row is written back, in memory too. -/
def Pass.write (pass : Pass H) (row : StateRow) : Pass H :=
  ⟨pass.store.setState row, pass.unknown.filter (· ≠ row.key runtime)⟩

def openAlert (pass : Pass H) (row : StateRow) (obs : Observation) (evaluatedAt : Time) : Pass H :=
  let id := pass.store.nextId
  let opened : Pass H := { pass with
    store := { pass.store with
      alerts := pass.store.alerts ++ [⟨id, some row.id, obs.targetType, obs.targetId,
        obs.ruleType, obs.ruleKey, if obs.event then .event else .active, evaluatedAt, none⟩]
      nextId := id + 1 } }
  (opened.write runtime { row with activeAlertId := some id }).note
    [.opened (row.key runtime) id, .evaluated (row.key runtime) true]

def breach (pass : Pass H) (row : StateRow) (obs : Observation) (evaluatedAt : Time) : Pass H :=
  match row.activeAlertId with
  | some _ =>
    (pass.write runtime { row with recoveryCount := 0, lastEvaluatedAt := evaluatedAt }).note
      [.evaluated (row.key runtime) true]
  | none =>
    let row := { row with
      breachCount := row.breachCount + 1, recoveryCount := 0, lastEvaluatedAt := evaluatedAt }
    if consecutiveSamples ≤ row.breachCount then openAlert runtime pass row obs evaluatedAt
    else (pass.write runtime row).note [.evaluated (row.key runtime) true]

def recoverAlert (pass : Pass H) (row : StateRow) (id : Nat) (evaluatedAt : Time) : Pass H :=
  let recovered : Pass H := { pass with
    store := { pass.store with
      alerts := pass.store.alerts.map (fun alert =>
        if alert.id = id ∧ alert.status = .active then
          { alert with status := .recovered, recoveredAt := some evaluatedAt } else alert) } }
  (recovered.write runtime { row with activeAlertId := none, recoveryCount := 0 }).note
    [.recovered (row.key runtime) id, .evaluated (row.key runtime) false]

def clearBreach (pass : Pass H) (row : StateRow) (evaluatedAt : Time) : Pass H :=
  match row.activeAlertId with
  | none =>
    (pass.write runtime { row with
      breachCount := 0, recoveryCount := 0, lastEvaluatedAt := evaluatedAt }).note
        [.evaluated (row.key runtime) false]
  | some id =>
    let row := { row with
      breachCount := 0, recoveryCount := row.recoveryCount + 1, lastEvaluatedAt := evaluatedAt }
    if consecutiveSamples ≤ row.recoveryCount then recoverAlert runtime pass row id evaluatedAt
    else (pass.write runtime row).note [.evaluated (row.key runtime) false]

/-- One turn of the loop over the observations. -/
def observe (suppressed : List (StateKey H)) (evaluatedAt : Time) (pass : Pass H)
    (obs : Observation) : Pass H :=
  if obs.ruleType = .diskMissing ∧ obs.key runtime ∈ suppressed then pass
  else match findState runtime pass.store.states (obs.key runtime) with
    | none => insertState runtime pass obs evaluatedAt
    | some row =>
      if evaluatedAt ≤ row.lastEvaluatedAt ∧ row.key runtime ∉ pass.unknown then pass
      else match obs.breached with
        | none => ⟨pass.store.setState { row with lastEvaluatedAt := evaluatedAt },
            row.key runtime :: pass.unknown⟩
        | some true => breach runtime pass row obs evaluatedAt
        | some false => clearBreach runtime pass row evaluatedAt

def applyObservations (settings : Settings) (store : Store H) (observations : List Observation)
    (evaluatedAt : Time) (observed : List String) : Store H :=
  ((allObservations runtime settings store.states observations observed).foldl
    (observe runtime (suppressedNewDiskStates runtime store.states observations) evaluatedAt)
    ⟨resetUnconfirmed runtime store observations observed evaluatedAt, []⟩).store

/-- Which disks stayed, after a sample of the target. -/
def Store.watch (store : Store H) (states : List StateRow) (settings : Settings)
    (agentId : String) (disks : List RuleKey) : Store H :=
  { store with
    steady := fun target =>
      if target ≠ agentId then store.steady target
      else if (baselineTargets states).contains agentId then
        (store.steady agentId).filter (fun key => disks.contains key)
      else if settings.diskMissingEnabled then disks
      else [] }

/-- The end of an alert whose state is deleted. -/
def Alert.reset (now : Time) (alert : Alert) : Alert :=
  { alert with
    stateId := none
    status := if alert.status = .active then .recovered else alert.status
    recoveredAt := if alert.status = .active then some now else alert.recoveredAt }

inductive Action where
  | sample (settings : Settings) (agentId : String) (host : HostSnapshot)
      (deployments : List Deployment) (candidates : List Candidate) (collectedAt : Time)
  | availability (settings : Settings) (agentId : String) (available : Bool) (checkedAt : Time)
  | reset (now : Time)

def sampleObservations (settings : Settings) (agentId : String) (host : HostSnapshot)
    (deployments : List Deployment) (candidates : List Candidate) : List Observation :=
  hostObservations runtime.trim settings agentId host ++
    deploymentObservations settings deployments candidates

/-- `evaluateMonitorAlertSamples` for one sample and environment,
`evaluateMonitorHostAvailability` and `resetMonitorAlertEnvironment`. -/
def step (store : Store H) : Action → Option (Store H)
  | .sample settings agentId host deployments candidates collectedAt =>
    if settings.enabled then
      some ((applyObservations runtime settings store
        (sampleObservations runtime settings agentId host deployments candidates) collectedAt
        [agentId]).watch store.states settings agentId
          (host.disks.map (monitorDiskKey runtime.trim)))
    else some store
  | .availability settings agentId available checkedAt =>
    if settings.enabled && settings.hostOfflineEnabled then
      some (applyObservations runtime settings store [offlineObservation agentId available]
        checkedAt [])
    else some store
  | .reset now => some { store with
      states := []
      alerts := store.alerts.map (Alert.reset now)
      history := .reset :: store.history
      steady := fun _ => [] }

def machine : StepSystem.Machine (Store H) Action where
  initial := fun store => store.states = [] ∧ store.alerts = [] ∧ store.history = [] ∧
    ∀ target, store.steady target = []
  step := step runtime

end Apply

end ImApp.MonitorAlerts
