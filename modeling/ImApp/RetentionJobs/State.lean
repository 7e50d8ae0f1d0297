import ImApp.Library.LeaseRow
import ImApp.Library.StepSystem
import ImApp.Retention.Snapshot

/-!
The retention queues. Planner workers lease jobs and save plans, application
workers lease applications, ask the bridge to advance a conversation's minimum
and publish the acknowledged boundary. Every statement or transaction of the
store is one step, and a worker is the leases that were handed to it: it may use
one at any later time, more than once or never.
-/

namespace ImApp.RetentionJobs

open ImApp.Retention
open JsonText (Text)
open LeaseRow

def retentionMaxAttempts : Nat := 8

/-- Seconds. -/
def retentionLeaseTTL : Nat := 120

def retentionMaxPlanBytes : Nat := 2 * 1024 * 1024

inductive JobFailure where
  | snapshotUnavailable
  | snapshotInvalid
  | planTooLarge
  | attemptsExhausted
  deriving DecidableEq

inductive ApplyFailure where
  | adapterUnavailable
  | applyFailed
  | nonPrefix
  | attemptsExhausted
  deriving DecidableEq

structure SavedPlan where
  plan : RetentionPlan
  committedWatermark : Int
  candidateCount : Nat
  deriving DecidableEq

structure Job where
  groupID : GroupID
  runDay : Nat
  row : Row SavedPlan JobFailure

/-- A lease on a job, as a claim returns it. -/
structure RetentionJob where
  id : Nat
  groupID : GroupID
  leaseToken : Nat
  attempts : Nat
  deriving DecidableEq

/-- A lease on an application, with the plan that the claim read. -/
structure RetentionApplication where
  jobID : Nat
  groupID : GroupID
  leaseToken : Nat
  attempts : Nat
  plan : RetentionPlan
  deriving DecidableEq

structure Published where
  minVisibleSeq : Int
  revision : Nat
  deriving DecidableEq

/-- The bridge's answer that a conversation's minimum is durable. -/
structure Acknowledgement where
  application : RetentionApplication
  boundary : Int
  deriving DecidableEq

/-- `now` is the clock of the job store in seconds. Tokens and job ids are counters, which
never repeat. -/
structure RetentionState where
  now : Nat
  active : GroupID → Bool
  nextJob : Nat
  nextToken : Nat
  jobs : Nat → Option Job
  applications : Nat → Option (Row Unit ApplyFailure)
  jobClaims : List RetentionJob
  applicationClaims : List RetentionApplication
  receipts : List Receipt
  openimMinSeq : Text → Int
  acknowledgements : List Acknowledgement
  visibility : GroupID → Option Published

/-- `scope` is the configured group list, empty for all groups, and `planBytes`
the length of a plan's JSON text. -/
structure Config where
  scope : List GroupID
  planBytes : RetentionPlan → Nat

variable (config : Config)

def Config.inScope (groupID : GroupID) : Bool :=
  config.scope.isEmpty || config.scope.contains groupID

def eligible (s : RetentionState) (groupID : GroupID) : Bool :=
  s.active groupID && config.inScope groupID

def day (s : RetentionState) : Nat := s.now / 86400

def withJobRow (s : RetentionState) (id : Nat) (job : Job) (row : Row SavedPlan JobFailure) :
    RetentionState :=
  { s with jobs := Function.update s.jobs id (some { job with row := row }) }

def withApplication (s : RetentionState) (id : Nat) (row : Row Unit ApplyFailure) :
    RetentionState :=
  { s with applications := Function.update s.applications id (some row) }

/-- One row of the daily insert. -/
def enqueueToday (s : RetentionState) (groupID : GroupID) : RetentionState :=
  let queued := (List.range s.nextJob).any fun id =>
    (s.jobs id).any fun job => job.groupID = groupID && job.runDay = day s
  if eligible config s groupID && !queued then
    { s with
      nextJob := s.nextJob + 1
      jobs := Function.update s.jobs s.nextJob (some ⟨groupID, day s, .fresh s.now⟩) }
  else s

/-- The predicate of `Claim` on one job. -/
def jobClaimable (s : RetentionState) (job : Job) : Bool :=
  eligible config s job.groupID && job.row.claimable retentionMaxAttempts s.now

def jobExhausted (s : RetentionState) (job : Job) : Bool :=
  config.inScope job.groupID && job.row.exhausted retentionMaxAttempts s.now

/-- The first statement of `Claim`: a worker that dies on its last attempt must
not leave a permanent lease. -/
def exhaustJobs (s : RetentionState) : RetentionState :=
  { s with
    jobs := fun id => (s.jobs id).map fun job =>
      if jobExhausted config s job then { job with row := job.row.exhaust .attemptsExhausted }
      else job }

/-- The first claimable job that no other transaction has locked. The ids grow
with the days. -/
def pickJob (s : RetentionState) (locked : List Nat) : Option Nat :=
  (List.range s.nextJob).find? fun id =>
    !locked.contains id && (s.jobs id).any (jobClaimable config s)

/-- The second statement of `Claim`. -/
def claim (s : RetentionState) (locked : List Nat) : RetentionState :=
  match pickJob config s locked with
  | none => s
  | some id => match s.jobs id with
    | none => s
    | some job =>
      let row := job.row.claim s.now retentionLeaseTTL s.nextToken
      { withJobRow s id job row with
        nextToken := s.nextToken + 1
        jobClaims := ⟨id, job.groupID, s.nextToken, row.attempts⟩ :: s.jobClaims }

/-- The row an update under a lease finds. -/
def leasedJob (s : RetentionState) (lease : RetentionJob) : Option Job :=
  (s.jobs lease.id).filter fun job => job.row.holds s.now lease.leaseToken

def savePlan (s : RetentionState) (lease : RetentionJob) (snapshot : RetentionSnapshot)
    (policy : RetentionPolicy) : RetentionState :=
  if snapshot.conversationID ≠ conversationOf lease.groupID then s
  else match planGroupRetention snapshot policy with
    | none => s
    | some plan =>
      if retentionMaxPlanBytes < config.planBytes plan then s
      else match (leasedJob s lease).filter fun job => job.groupID = lease.groupID with
        | none => s
        | some job =>
          let saved : SavedPlan := ⟨plan, plan.watermark, plan.candidates.length⟩
          withJobRow s lease.id job (job.row.finish saved)

/-- Thirty seconds, doubled with each attempt up to six times. -/
def retryDelay (attempts : Nat) : Nat := 30 * 2 ^ min (attempts - 1) 6

def retry (s : RetentionState) (lease : RetentionJob) (code : JobFailure) : RetentionState :=
  if code = .attemptsExhausted then s
  else match leasedJob s lease with
    | none => s
    | some job =>
      withJobRow s lease.id job
        (job.row.release retentionMaxAttempts s.now (retryDelay lease.attempts) code false)

def planned (s : RetentionState) (id : Nat) : Option SavedPlan :=
  (s.jobs id).bind fun job => match job.row.stage with
    | .done saved => some saved
    | _ => none

/-- The jobs that the bounded backfill inserts. -/
def backfillable (s : RetentionState) : List Nat :=
  ((List.range s.nextJob).filter fun id => (planned s id).isSome &&
    (s.jobs id).any (fun job => eligible config s job.groupID) &&
    (s.applications id).isNone).take 200

/-- The first statement of `ClaimApplication`. -/
def backfillApplications (s : RetentionState) : RetentionState :=
  { s with
    applications := fun id =>
      if id ∈ backfillable config s then some (.fresh s.now) else s.applications id }

def applicationExhausted (s : RetentionState) (id : Nat) (row : Row Unit ApplyFailure) : Bool :=
  (s.jobs id).any (fun job => config.inScope job.groupID) &&
    row.exhausted retentionMaxAttempts s.now

/-- The second statement of `ClaimApplication`. -/
def exhaustApplications (s : RetentionState) : RetentionState :=
  { s with
    applications := fun id => (s.applications id).map fun row =>
      if applicationExhausted config s id row then row.exhaust .attemptsExhausted else row }

/-- An earlier application of the same group has not ended. -/
def waitsForEarlier (s : RetentionState) (groupID : GroupID) (id : Nat) : Bool :=
  (List.range id).any fun earlier =>
    (s.jobs earlier).any (fun job => job.groupID = groupID) &&
      (s.applications earlier).any fun row => !row.stage.terminal

/-- The predicate of `ClaimApplication` on one application. -/
def applicationClaimable (s : RetentionState) (id : Nat) : Bool :=
  (s.jobs id).any fun job =>
    eligible config s job.groupID && !waitsForEarlier s job.groupID id &&
      (s.applications id).any fun row => row.claimable retentionMaxAttempts s.now

def pickApplication (s : RetentionState) (locked : List Nat) : Option Nat :=
  (List.range s.nextJob).find? fun id => !locked.contains id && applicationClaimable config s id

/-- The third statement of `ClaimApplication`. -/
def claimApplication (s : RetentionState) (locked : List Nat) : RetentionState :=
  match pickApplication config s locked with
  | none => s
  | some id => match s.jobs id, s.applications id with
    | some job, some row =>
      let next := row.claim s.now retentionLeaseTTL s.nextToken
      let leased := { withApplication s id next with nextToken := s.nextToken + 1 }
      match planned s id with
      | none => leased
      | some saved =>
        { leased with
          applicationClaims := ⟨id, job.groupID, s.nextToken, next.attempts, saved.plan⟩ ::
            s.applicationClaims }
    | _, _ => s

def leasedApplication (s : RetentionState) (lease : RetentionApplication) :
    Option (Row Unit ApplyFailure) :=
  (s.applications lease.jobID).filter fun row => row.holds s.now lease.leaseToken

/-- Publishes a boundary above the published one. -/
def publish (s : RetentionState) (groupID : GroupID) (boundary : Int) : RetentionState :=
  match s.visibility groupID with
  | none => { s with visibility := Function.update s.visibility groupID (some ⟨boundary, 1⟩) }
  | some published =>
    if published.minVisibleSeq < boundary then
      { s with
        visibility := Function.update s.visibility groupID
          (some ⟨boundary, published.revision + 1⟩) }
    else s

/-- Reloads the plan, fences a stale lease and publishes the boundary with the
end of the application. -/
def completeApplication (s : RetentionState) (lease : RetentionApplication)
    (acknowledgedMinSeq : Int) : RetentionState :=
  match leasedApplication s lease, s.jobs lease.jobID, planned s lease.jobID with
  | some row, some job, some saved =>
    match retentionMinSeq saved.plan with
    | none => s
    | some boundary =>
      if acknowledgedMinSeq ≠ boundary ∨ job.groupID ≠ lease.groupID ∨
          saved.plan.conversationID ≠ conversationOf job.groupID then s
      else
        let published := if 0 < boundary then publish s job.groupID boundary else s
        withApplication published lease.jobID (row.finish ())
  | _, _, _ => s

def retryApplication (s : RetentionState) (lease : RetentionApplication) (code : ApplyFailure) :
    RetentionState :=
  if code = .attemptsExhausted then s
  else match leasedApplication s lease with
    | none => s
    | some row =>
      withApplication s lease.jobID
        (row.release retentionMaxAttempts s.now (retryDelay lease.attempts) code
          (code = .nonPrefix))

/-- A stored receipt admits the boundary at the bridge's time. -/
def admitted (s : RetentionState) (plan : RetentionPlan) (boundary : Int) (localTime : Time) :
    Bool :=
  s.receipts.any fun receipt =>
    receipt.id = plan.snapshotID && receipt.conversationID = plan.conversationID &&
      0 < receipt.boundary && receipt.boundary = boundary && localTime < receipt.expires

/-- `ApplyPrefix` with the bridge's `apply`. The minimum is advanced before the
answer, which may be lost. -/
def applyPrefix (s : RetentionState) (lease : RetentionApplication) (localTime : Time)
    (answered : Bool) : RetentionState :=
  match retentionMinSeq lease.plan with
  | none => s
  | some boundary =>
    if 0 < boundary ∧ lease.plan.snapshotID ≠ [] ∧
        lease.plan.conversationID = conversationOf lease.groupID ∧
        admitted s lease.plan boundary localTime then
      { s with
        openimMinSeq := Function.update s.openimMinSeq lease.plan.conversationID
          (max (s.openimMinSeq lease.plan.conversationID) boundary)
        acknowledgements :=
          if answered then ⟨lease, boundary⟩ :: s.acknowledgements else s.acknowledgements }
    else s

/-- A snapshot stores its receipt under a new id. -/
def takeSnapshot (s : RetentionState) (request : SnapshotRequest) : RetentionState :=
  match request.snapshot with
  | none => s
  | some (_, receipt) =>
    if s.receipts.any (fun stored => stored.id = receipt.id) then s
    else { s with receipts := receipt :: s.receipts }

inductive Action where
  | tick (seconds : Nat)
  | setActive (groupID : GroupID) (active : Bool)
  | enqueueToday (groupID : GroupID)
  | exhaustJobs
  | claim (locked : List Nat)
  | savePlan (lease : RetentionJob) (snapshot : RetentionSnapshot) (policy : RetentionPolicy)
  | retry (lease : RetentionJob) (code : JobFailure)
  | backfillApplications
  | exhaustApplications
  | claimApplication (locked : List Nat)
  | applyPrefix (lease : RetentionApplication) (localTime : Time) (answered : Bool)
  | completeApplication (lease : RetentionApplication)
  | retryApplication (lease : RetentionApplication) (code : ApplyFailure)
  | takeSnapshot (request : SnapshotRequest)
  | raiseMinSeq (conversationID : Text) (seq : Int)

/-- An application worker completes with the plan's own boundary, and a positive
one only after the bridge acknowledged it. -/
def mayComplete (s : RetentionState) (lease : RetentionApplication) (boundary : Int) : Bool :=
  boundary ≤ 0 || s.acknowledgements.contains ⟨lease, boundary⟩

def step (s : RetentionState) : Action → Option RetentionState
  | .tick seconds => some { s with now := s.now + seconds }
  | .setActive groupID active => some { s with active := Function.update s.active groupID active }
  | .enqueueToday groupID => some (enqueueToday config s groupID)
  | .exhaustJobs => some (exhaustJobs config s)
  | .claim locked => some (claim config s locked)
  | .savePlan lease snapshot policy =>
    if lease ∈ s.jobClaims then some (savePlan config s lease snapshot policy) else none
  | .retry lease code => if lease ∈ s.jobClaims then some (retry s lease code) else none
  | .backfillApplications => some (backfillApplications config s)
  | .exhaustApplications => some (exhaustApplications config s)
  | .claimApplication locked => some (claimApplication config s locked)
  | .applyPrefix lease localTime answered =>
    if lease ∈ s.applicationClaims then some (applyPrefix s lease localTime answered) else none
  | .completeApplication lease =>
    match retentionMinSeq lease.plan with
    | none => none
    | some boundary =>
      if lease ∈ s.applicationClaims ∧ mayComplete s lease boundary then
        some (completeApplication s lease boundary)
      else none
  | .retryApplication lease code =>
    if lease ∈ s.applicationClaims then some (retryApplication s lease code) else none
  | .takeSnapshot request => some (takeSnapshot s request)
  | .raiseMinSeq conversationID seq =>
    some { s with
      openimMinSeq := Function.update s.openimMinSeq conversationID
        (max (s.openimMinSeq conversationID) seq) }

/-- Empty tables, at any time and over any groups and conversations. -/
structure Initial (s : RetentionState) : Prop where
  jobs : ∀ id, s.jobs id = none
  applications : ∀ id, s.applications id = none
  jobClaims : s.jobClaims = []
  applicationClaims : s.applicationClaims = []
  receipts : s.receipts = []
  acknowledgements : s.acknowledgements = []
  visibility : ∀ groupID, s.visibility groupID = none

/-- A store without jobs, at a time. -/
def idleState (now : Nat) : RetentionState where
  now := now
  active _ := true
  nextJob := 0
  nextToken := 0
  jobs _ := none
  applications _ := none
  jobClaims := []
  applicationClaims := []
  receipts := []
  openimMinSeq _ := 0
  acknowledgements := []
  visibility _ := none

theorem idleState_initial (now : Nat) : Initial (idleState now) :=
  ⟨fun _ => rfl, fun _ => rfl, rfl, rfl, rfl, rfl, fun _ => rfl⟩

def machine : StepSystem.Machine RetentionState Action where
  initial := Initial
  step := step config

end ImApp.RetentionJobs
