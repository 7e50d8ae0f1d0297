import ImApp.Library.KeyedTable

/-!
A forward task with its target rows, and the statements of the store on them.
Each operation returns nothing where the store refuses it. The transactions lock
the task's row from their first statement, so each is one operation;
`RemoveTargets` and `ClearTargets` are not in a transaction and are split.
-/

namespace ImApp.Forward

/-- Ids are only compared. -/
abbrev UserID := Nat

abbrev WorkerID := Nat

/-- Seconds of the store's clock. -/
abbrev Time := Nat

inductive TaskStatus where
  | draft
  | pending
  | processing
  | paused
  | completed
  | partiallyCompleted
  | failed
  | cancelled
  deriving DecidableEq

/-- The terminal statuses of a target. -/
inductive Outcome where
  | success
  | failed
  | skipped
  | cancelled
  deriving DecidableEq

/-- A target in processing carries the lock of the worker that claimed it. -/
inductive TargetStatus where
  | pending
  | processing (lockedBy : WorkerID) (lockedUntil : Time)
  | retrying
  | ended (outcome : Outcome)
  deriving DecidableEq

inductive Peer where
  | user (id : UserID)
  | group (id : Nat)
  deriving DecidableEq

structure ForwardTarget where
  peer : Peer
  status : TargetStatus
  attempts : Nat
  nextRetryAt : Time
  deriving DecidableEq

/-- `counts` are the columns `success_count`, `failed_count`, `skipped_count` and
`cancelled_count`. `hasSource` is the part of the submit condition that is about
the source message. -/
structure ForwardTask where
  status : TaskStatus
  hasSource : Bool
  targetCount : Nat
  doneCount : Nat
  counts : Outcome → Nat
  finishedAt : Option Time
  targets : KeyedTable ForwardTarget.peer

def TaskStatus.completedStatus : TaskStatus → Bool
  | .completed | .partiallyCompleted | .failed => true
  | _ => false

/-- The statuses of a task that has targets to deliver. -/
def TaskStatus.live : TaskStatus → Bool
  | .pending | .processing | .paused => true
  | _ => false

/-- The statuses in which targets are claimed. -/
def TaskStatus.runnable : TaskStatus → Bool
  | .pending | .processing => true
  | _ => false

def ForwardTarget.terminal (target : ForwardTarget) : Bool :=
  match target.status with
  | .ended _ => true
  | _ => false

def ForwardTarget.endedWith (outcome : Outcome) (target : ForwardTarget) : Bool :=
  target.status = .ended outcome

/-- The target waits for a claim. -/
def ForwardTarget.waiting (target : ForwardTarget) : Bool :=
  match target.status with
  | .pending | .retrying => true
  | _ => false

def ForwardTarget.fresh (now : Time) (peer : Peer) : ForwardTarget := ⟨peer, .pending, 0, now⟩

def setStatus (status : TargetStatus) : KeyedTable.Edit ForwardTarget.peer :=
  ⟨fun target => { target with status := status }, fun _ => rfl⟩

def createTask (hasSource : Bool) : ForwardTask :=
  ⟨.draft, hasSource, 0, 0, fun _ => 0, none, .empty⟩

variable (task : ForwardTask)

def refreshTargetCount : ForwardTask := { task with targetCount := task.targets.size }

/-- The insert of the three ways to add targets, with the refresh that follows. -/
def insertTargets (now : Time) (candidates : List Peer) : Option ForwardTask :=
  if task.status = .draft then
    some (refreshTargetCount
      { task with targets := task.targets.insertAll (candidates.map (.fresh now)) })
  else none

/-- `friends` are the active friends among the requested users. -/
def addTargets (now : Time) (userIDs friends : List UserID) : Option ForwardTask :=
  if userIDs = [] then some task else insertTargets task now (friends.map .user)

/-- `joined` are the active groups among the requested ones that the user is in. -/
def addGroupTargets (now : Time) (groupIDs joined : List Nat) : Option ForwardTask :=
  if groupIDs = [] then some task else insertTargets task now (joined.map .group)

/-- `selected` are the active friends that the selector admits. -/
def generateTargets (now : Time) (selected : List UserID) : Option ForwardTask :=
  insertTargets task now (selected.map .user)

/-- The rows that a delete is about. -/
inductive Selection where
  | remove (userIDs : List UserID)
  | clear

def Selection.matches (selection : Selection) (target : ForwardTarget) : Bool :=
  match selection with
  | .remove userIDs => match target.peer with
    | .user id => userIDs.contains id
    | .group _ => false
  | .clear => true

/-- The DELETE of `RemoveTargets` and `ClearTargets`, with the number of rows it
affects. -/
def deleteTargets (selection : Selection) : ForwardTask × Nat :=
  if task.status = .draft then
    ({ task with targets := task.targets.delete selection.matches },
      task.targets.count selection.matches)
  else (task, 0)

/-- The number that the UPDATE stores, as of its snapshot. -/
def countTargets (selection : Selection) : Nat :=
  match selection with
  | .remove _ => task.targets.size
  | .clear => 0

/-- The UPDATE writes when it has the task's row. -/
def storeTargetCount (number : Nat) : ForwardTask :=
  if task.status = .draft then { task with targetCount := number } else task

def submitTask : Option ForwardTask :=
  if task.status = .draft ∧ 0 < task.targetCount ∧ task.hasSource = true then
    some { task with status := .pending, finishedAt := none }
  else none

def pauseTask : Option ForwardTask :=
  if task.status.runnable then some { task with status := .paused } else none

def resumeTask : Option ForwardTask :=
  if task.status = .paused then some { task with status := .pending } else none

def recount (outcomes : List Outcome) : ForwardTask :=
  { task with
    counts := fun outcome =>
      if outcome ∈ outcomes then task.targets.count (ForwardTarget.endedWith outcome)
      else task.counts outcome
    doneCount := task.targets.count ForwardTarget.terminal }

/-- Every waiting target is cancelled, and the task is finished when no target is
left in processing. -/
def cancelledTask (now : Time) : ForwardTask :=
  let swept := { task with
    status := .cancelled
    targets := task.targets.update ForwardTarget.waiting (setStatus (.ended .cancelled)) }
  let counted := recount swept [.cancelled]
  { counted with
    finishedAt := if counted.targetCount ≤ counted.doneCount then some now else none }

def cancelTask (now : Time) : Option ForwardTask :=
  if task.status.completedStatus = true ∨ task.status = .cancelled then none
  else some (cancelledTask task now)

def retryOutcomes (onlyFailed : Bool) : List Outcome :=
  if onlyFailed then [.failed] else [.failed, .skipped]

/-- An empty list of users selects every target. -/
def retrySelects (onlyFailed : Bool) (userIDs : List UserID) (target : ForwardTarget) : Bool :=
  (retryOutcomes onlyFailed).any target.endedWith &&
    (userIDs.isEmpty || (Selection.remove userIDs).matches target)

def reopen (now : Time) : KeyedTable.Edit ForwardTarget.peer :=
  ⟨fun target => { target with status := .retrying, nextRetryAt := now }, fun _ => rfl⟩

def reopenedTask (now : Time) (onlyFailed : Bool) (userIDs : List UserID) : ForwardTask :=
  recount { task with
      status := .pending
      finishedAt := none
      targets := task.targets.update (retrySelects onlyFailed userIDs) (reopen now) }
    [.failed, .skipped]

def retryTask (now : Time) (onlyFailed : Bool) (userIDs : List UserID) : Option ForwardTask :=
  if task.status.completedStatus = true then
    if task.targets.count (retrySelects onlyFailed userIDs) = 0 then some task
    else some (reopenedTask task now onlyFailed userIDs)
  else none

/-- What a claim returns of a target. -/
structure Handle where
  peer : Peer
  lockedBy : WorkerID
  attempts : Nat
  deriving DecidableEq

/-- The predicate of the claims on one target. -/
def ForwardTarget.claimable (now : Time) (target : ForwardTarget) : Bool :=
  match target.status with
  | .pending | .retrying => target.nextRetryAt ≤ now
  | .processing _ lockedUntil => lockedUntil < now
  | .ended _ => false

def lock (worker : WorkerID) (now lockTTL : Time) : KeyedTable.Edit ForwardTarget.peer :=
  ⟨fun target => { target with
      status := .processing worker (now + lockTTL), attempts := target.attempts + 1 },
    fun _ => rfl⟩

/-- The rows that a claim takes. The order, the limits and the rows that another
transaction has locked leave some list of peers. -/
def picks (now : Time) (picked : List Peer) (target : ForwardTarget) : Bool :=
  task.status.runnable && target.claimable now && picked.contains target.peer

/-- The claiming statement of `ClaimTaskTargets` and `ClaimRunnableTargets`. -/
def claimTargets (worker : WorkerID) (now lockTTL : Time) (picked : List Peer) :
    ForwardTask × List Handle :=
  ({ task with targets := task.targets.update (picks task now picked) (lock worker now lockTTL) },
    (task.targets.rows.filter (picks task now picked)).map fun target =>
      ⟨target.peer, worker, target.attempts + 1⟩)

/-- The second statement of the claims. -/
def markProcessing : ForwardTask :=
  if task.status = .pending then { task with status := .processing } else task

/-- The row that an update under a lock finds. -/
def Handle.holds (handle : Handle) (target : ForwardTarget) : Bool :=
  target.peer = handle.peer && match target.status with
    | .processing lockedBy _ => lockedBy = handle.lockedBy
    | _ => false

def finalizeTask (now : Time) : ForwardTask :=
  { task with
    status :=
      if task.status = .cancelled then task.status
      else if task.doneCount < task.targetCount then task.status
      else if task.counts .failed = 0 ∧ task.counts .skipped = 0 then .completed
      else if task.counts .success = 0 then .failed
      else .partiallyCompleted
    finishedAt := if task.targetCount ≤ task.doneCount then some now else task.finishedAt }

/-- A terminal transition counts itself in its own transaction. -/
def finishedTask (now : Time) (handle : Handle) (outcome : Outcome) : ForwardTask :=
  finalizeTask { task with
      targets := task.targets.update handle.holds (setStatus (.ended outcome))
      doneCount := task.doneCount + 1
      counts := Function.update task.counts outcome (task.counts outcome + 1) } now

def finishTarget (now : Time) (handle : Handle) (outcome : Outcome) : Option ForwardTask :=
  if task.targets.count handle.holds = 0 then none
  else some (finishedTask task now handle outcome)

def markTargetSuccess (now : Time) (handle : Handle) : Option ForwardTask :=
  finishTarget task now handle .success

def markTargetSkipped (now : Time) (handle : Handle) : Option ForwardTask :=
  finishTarget task now handle .skipped

def markTargetFailed (now : Time) (handle : Handle) : Option ForwardTask :=
  finishTarget task now handle .failed

def markTargetCancelled (now : Time) (handle : Handle) : Option ForwardTask :=
  finishTarget task now handle .cancelled

def scheduleRetry (next : Time) : KeyedTable.Edit ForwardTarget.peer :=
  ⟨fun target => { target with status := .retrying, nextRetryAt := next }, fun _ => rfl⟩

def markTargetRetry (handle : Handle) (next : Time) : Option ForwardTask :=
  if task.targets.count handle.holds = 0 then none
  else some { task with targets := task.targets.update handle.holds (scheduleRetry next) }

end ImApp.Forward
