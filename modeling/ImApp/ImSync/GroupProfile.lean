import ImApp.Library.PatchLog
import ImApp.Library.StepSystem
import ImApp.Library.UnicodeText

/-!
The rows of the sync outbox. A claim locks a ready row or one whose lock is five
minutes old, and only the worker that the lock names completes or fails it. A row
that has failed too often is dead until an operator replays it.
-/

namespace ImApp.ImSync

abbrev WorkerID := Nat

/-- Seconds of the store's clock. -/
abbrev Time := Nat

inductive OutboxStatus where
  | pending
  | processing (lockedBy : WorkerID) (lockedAt : Time)
  | retry
  | completed
  | dead
  deriving DecidableEq

structure OutboxRow where
  status : OutboxStatus
  attemptCount : Nat
  nextAttemptAt : Time

def lockTimeout : Time := 5 * 60

namespace OutboxRow

def fresh (now : Time) : OutboxRow := ⟨.pending, 0, now⟩

def claimable (now : Time) (row : OutboxRow) : Bool :=
  match row.status with
  | .pending | .retry => row.nextAttemptAt ≤ now
  | .processing _ lockedAt => lockedAt + lockTimeout < now
  | .completed | .dead => false

/-- A row of `ClaimBatch`. -/
def claim (worker : WorkerID) (now : Time) (row : OutboxRow) : OutboxRow :=
  { row with status := .processing worker now, attemptCount := row.attemptCount + 1 }

def lockedBy (worker : WorkerID) (row : OutboxRow) : Bool :=
  match row.status with
  | .processing holder _ => holder = worker
  | _ => false

def markCompleted (worker : WorkerID) (row : OutboxRow) : OutboxRow :=
  if row.lockedBy worker then { row with status := .completed } else row

/-- `attempt` is the attempt that the worker claimed. -/
def markFailed (worker : WorkerID) (attempt maxAttempts : Nat) (nextAttempt : Time)
    (row : OutboxRow) : OutboxRow :=
  if row.lockedBy worker then
    { row with
      status := if maxAttempts ≤ attempt then .dead else .retry
      nextAttemptAt := nextAttempt }
  else row

def replayDead (now : Time) (row : OutboxRow) : OutboxRow :=
  if row.status = .dead then ⟨.pending, 0, now⟩ else row

variable {row : OutboxRow} {worker : WorkerID} {now nextAttempt : Time} {attempt limit : Nat}

theorem claim_status : (row.claim worker now).status ≠ .completed := by
  simp [claim]

theorem markFailed_completed
    (h : (row.markFailed worker attempt limit nextAttempt).status = .completed) :
    row.status = .completed := by
  unfold markFailed at h
  split at h
  · simp only at h
    split at h <;> cases h
  exact h

theorem replayDead_completed (h : (row.replayDead now).status = .completed) :
    row.status = .completed := by
  unfold replayDead at h
  split at h
  · cases h
  exact h

end OutboxRow

end ImApp.ImSync

/-!
The profile of one active group in the business database and in OpenIM. A
committed update enqueues its patch, and workers bring the patches to OpenIM. A
worker is the leases that its claims returned; it may stop after any call, and a
request that it sent may take effect later, also when the worker has given up.
-/

namespace ImApp.ImSync

open JsonText (Text)
open StepSystem PatchLog Function

inductive Field where
  | name
  | avatar
  | announcement
  | allowMemberAddFriend
  deriving DecidableEq

def Field.all : List Field := [.name, .avatar, .announcement, .allowMemberAddFriend]

def Field.Value : Field → Type
  | .name | .avatar | .announcement => Text
  | .allowMemberAddFriend => Bool

instance : (field : Field) → DecidableEq field.Value
  | .name | .avatar | .announcement => inferInstanceAs (DecidableEq Text)
  | .allowMemberAddFriend => inferInstanceAs (DecidableEq Bool)

/-- The types of `groupName`, `faceURL`, `notification` and `applyMemberFriend`. -/
def Field.Remote : Field → Type
  | .name | .avatar | .announcement => Text
  | .allowMemberAddFriend => Nat

instance : (field : Field) → DecidableEq field.Remote
  | .name | .avatar | .announcement => inferInstanceAs (DecidableEq Text)
  | .allowMemberAddFriend => inferInstanceAs (DecidableEq Nat)

def applyMemberFriend : Bool → Nat
  | true => 0
  | false => 1

def Field.encode : (field : Field) → field.Value → field.Remote
  | .name, value | .avatar, value | .announcement, value => value
  | .allowMemberAddFriend, allow => applyMemberFriend allow

abbrev GroupProfile := (field : Field) → field.Value

abbrev RemoteProfile := (field : Field) → field.Remote

abbrev IMGroupUpdatePayload := (field : Field) → Option field.Value

def encodeProfile (profile : GroupProfile) : RemoteProfile := fun field =>
  field.encode (profile field)

def encodePayload (payload : IMGroupUpdatePayload) (field : Field) : Option field.Remote :=
  (payload field).map field.encode

def IMGroupUpdatePayload.isEmpty (payload : IMGroupUpdatePayload) : Bool :=
  Field.all.all fun field => (payload field).isNone

/-- `ensure` stands for the events that register a group that OpenIM does not
know and leave the profile of a known one alone. -/
inductive GroupEvent where
  | updated (payload : IMGroupUpdatePayload)
  | ensure

def GroupEvent.patch : GroupEvent → IMGroupUpdatePayload
  | .updated payload => payload
  | .ensure => fun _ => none

/-- What a worker has done for the event that it claimed. `version` is the number
of events that were enqueued when it read the group. -/
inductive Phase where
  | claimed
  | read (version : Nat) (snapshot : GroupProfile)
  | updating (payload : IMGroupUpdatePayload)
  | missing (version : Nat) (snapshot : GroupProfile)
  | creating (version : Nat) (snapshot : GroupProfile)
  | sent
  | succeeded
  | failed
  | ended

structure Lease where
  event : Nat
  worker : WorkerID
  attempt : Nat
  phase : Phase

inductive Request where
  | setGroupInfo (payload : IMGroupUpdatePayload)
  | createGroup (version : Nat) (snapshot : GroupProfile)

/-- `base`, `written` and `settled` only record the history: the profile before
the first event, the number of events that a field of the OpenIM group reflects,
and the events that a worker has brought to OpenIM. -/
structure GroupSyncState where
  base : GroupProfile
  profile : GroupProfile
  events : List GroupEvent
  rows : Nat → OutboxRow
  leases : Nat → Option Lease
  nextLease : Nat
  inFlight : Nat → Option Request
  openim : Option RemoteProfile
  written : Field → Nat
  settled : Nat → Bool

variable (s : GroupSyncState)

def GroupSyncState.version (number : Nat) : GroupProfile :=
  PatchLog.version GroupEvent.patch s.base s.events number

def GroupSyncState.sets (event : Nat) (field : Field) : Bool :=
  PatchLog.sets GroupEvent.patch s.events event field

def enqueue (now : Time) (event : GroupEvent) : GroupSyncState :=
  { s with
    events := s.events ++ [event]
    rows := Function.update s.rows s.events.length (.fresh now) }

/-- An update with an event for the fields that it sets. -/
def commitUpdate (now : Time) (payload : IMGroupUpdatePayload) : GroupSyncState :=
  if payload.isEmpty then s
  else { enqueue s now (.updated payload) with profile := overlay s.profile payload }

/-- The fields of a request that change something. An announcement also counts as
changed unless the same images come with it. -/
def changedFields (request : IMGroupUpdatePayload) (sameImages : Bool) : IMGroupUpdatePayload :=
  fun field => (request field).filter fun value =>
    !(value = s.profile field && (field ≠ .announcement || sameImages))

def updateSettings (now : Time) (request : IMGroupUpdatePayload) (sameImages : Bool) :
    GroupSyncState :=
  commitUpdate s now (changedFields s request sameImages)

def onlyField (field : Field) (value : Option field.Value) : IMGroupUpdatePayload :=
  Function.update (fun _ => none) field value

def updateSettingsByAdmin (now : Time) (allow : Option Bool) : GroupSyncState :=
  commitUpdate s now (onlyField .allowMemberAddFriend allow)

/-- The announcement follows the newest entry of its history. -/
def syncLatestAnnouncement (now : Time) (latestText : Field.announcement.Value) : GroupSyncState :=
  if s.profile .announcement = latestText then s
  else commitUpdate s now (onlyField .announcement (some latestText))

def setPhase (lease : Nat) (phase : Phase) : GroupSyncState :=
  { s with
    leases := Function.update s.leases lease
      ((s.leases lease).map fun l => { l with phase := phase }) }

def setRow (event : Nat) (row : OutboxRow) : GroupSyncState :=
  { s with rows := Function.update s.rows event row }

def openLease (l : Lease) : GroupSyncState :=
  { s with
    leases := Function.update s.leases s.nextLease (some l)
    nextLease := s.nextLease + 1 }

def setInFlight (lease : Nat) (request : Option Request) : GroupSyncState :=
  { s with inFlight := Function.update s.inFlight lease request }

section

variable {s} {lease other : Nat}

theorem setPhase_self {phase : Phase} : (setPhase s lease phase).leases lease =
    (s.leases lease).map fun l => { l with phase := phase } := update_self ..

theorem setPhase_of_ne {phase : Phase} (h : other ≠ lease) :
    (setPhase s lease phase).leases other = s.leases other := update_of_ne h ..

theorem openLease_self {l : Lease} : (openLease s l).leases s.nextLease = some l :=
  update_self ..

theorem openLease_of_ne {l : Lease} (h : other ≠ s.nextLease) :
    (openLease s l).leases other = s.leases other := update_of_ne h ..

theorem setInFlight_self {request : Option Request} :
    (setInFlight s lease request).inFlight lease = request := update_self ..

theorem setInFlight_of_ne {request : Option Request} (h : other ≠ lease) :
    (setInFlight s lease request).inFlight other = s.inFlight other := update_of_ne h ..

end

/-- One row of `ClaimBatch`. -/
def claim (worker : WorkerID) (now : Time) (event : Nat) : Option GroupSyncState :=
  if event < s.events.length ∧ (s.rows event).claimable now = true then
    let row := (s.rows event).claim worker now
    some (openLease (setRow s event row) ⟨event, worker, row.attemptCount, .claimed⟩)
  else none

def phaseOf (lease : Nat) : Option Phase := (s.leases lease).map Lease.phase

/-- `GetSyncState`. -/
def readState (lease : Nat) : Option GroupSyncState :=
  match phaseOf s lease with
  | some .claimed => some (setPhase s lease (.read s.events.length s.profile))
  | _ => none

/-- The event has been brought to OpenIM. -/
def settle (event : Nat) : GroupSyncState :=
  { s with settled := Function.update s.settled event true }

/-- The branch of `syncGroup` after the group was read. An update without fields
is done, another one looks the group up. -/
def lookUp (lease : Nat) : Option GroupSyncState :=
  match s.leases lease with
  | some ⟨event, _, _, .read version snapshot⟩ => match s.events[event]? with
    | some (.updated payload) =>
      if payload.isEmpty then some (setPhase (settle s event) lease .succeeded)
      else if s.openim.isSome then some (setPhase s lease (.updating payload))
      else some (setPhase s lease (.missing version snapshot))
    | some .ensure => some (setPhase s lease (.missing version snapshot))
    | none => none
  | _ => none

/-- The look-up of `EnsureGroup`, which leaves a registered group alone. -/
def ensureGroup (lease : Nat) : Option GroupSyncState :=
  match s.leases lease with
  | some ⟨event, _, _, .missing version snapshot⟩ =>
    if s.openim.isSome then some (setPhase (settle s event) lease .succeeded)
    else some (setPhase s lease (.creating version snapshot))
  | _ => none

/-- Sends the one request of `UpdateGroup` or `EnsureGroup`. -/
def send (lease : Nat) : Option GroupSyncState :=
  match phaseOf s lease with
  | some (.updating payload) =>
    some (setInFlight (setPhase s lease .sent) lease (some (.setGroupInfo payload)))
  | some (.creating version snapshot) =>
    some (setInFlight (setPhase s lease .sent) lease (some (.createGroup version snapshot)))
  | _ => none

/-- OpenIM handles a request. It creates a group once, and the client takes the
answer that the group exists for success. -/
def land (lease : Nat) : Option GroupSyncState :=
  match s.leases lease, s.inFlight lease with
  | some l, some request =>
    let handled := setInFlight s lease none
    match request, s.openim with
    | .setGroupInfo payload, some remote => some (settle { handled with
        openim := some (overlay remote (encodePayload payload))
        written := fun field => if (payload field).isSome then l.event + 1 else s.written field }
        l.event)
    | .setGroupInfo _, none => some (setPhase handled lease .failed)
    | .createGroup version snapshot, none => some (settle { handled with
        openim := some (encodeProfile snapshot)
        written := fun _ => version } l.event)
    | .createGroup _ _, some _ => some (settle handled l.event)
  | _, _ => none

/-- The worker sees the answer to a request that OpenIM has handled. -/
def answer (lease : Nat) : Option GroupSyncState :=
  match phaseOf s lease, s.inFlight lease with
  | some .sent, none => some (setPhase s lease .succeeded)
  | _, _ => none

/-- Any call may fail or time out, also one that follows the request. -/
def giveUp (lease : Nat) : Option GroupSyncState :=
  match phaseOf s lease with
  | none | some .ended => none
  | _ => some (setPhase s lease .failed)

def markCompleted (lease : Nat) : Option GroupSyncState :=
  match s.leases lease with
  | some ⟨event, worker, _, .succeeded⟩ =>
    some (setPhase (setRow s event ((s.rows event).markCompleted worker)) lease .ended)
  | _ => none

def markFailed (lease maxAttempts : Nat) (nextAttempt : Time) : Option GroupSyncState :=
  match s.leases lease with
  | some ⟨event, worker, attempt, .failed⟩ =>
    some (setPhase (setRow s event
      ((s.rows event).markFailed worker attempt maxAttempts nextAttempt)) lease .ended)
  | _ => none

def replayDead (now : Time) (event : Nat) : GroupSyncState :=
  setRow s event ((s.rows event).replayDead now)

inductive Action where
  | updateSettings (now : Time) (request : IMGroupUpdatePayload) (sameImages : Bool)
  | updateSettingsByAdmin (now : Time) (allow : Option Bool)
  | syncLatestAnnouncement (now : Time) (latestText : Field.announcement.Value)
  | enqueueEnsure (now : Time)
  | claim (worker : WorkerID) (now : Time) (event : Nat)
  | readState (lease : Nat)
  | lookUp (lease : Nat)
  | ensureGroup (lease : Nat)
  | send (lease : Nat)
  | land (lease : Nat)
  | answer (lease : Nat)
  | giveUp (lease : Nat)
  | markCompleted (lease : Nat)
  | markFailed (lease maxAttempts : Nat) (nextAttempt : Time)
  | replayDead (now : Time) (event : Nat)

def step : Action → Option GroupSyncState
  | .updateSettings now request sameImages => some (updateSettings s now request sameImages)
  | .updateSettingsByAdmin now allow => some (updateSettingsByAdmin s now allow)
  | .syncLatestAnnouncement now latestText => some (syncLatestAnnouncement s now latestText)
  | .enqueueEnsure now => some (enqueue s now .ensure)
  | .claim worker now event => claim s worker now event
  | .readState lease => readState s lease
  | .lookUp lease => lookUp s lease
  | .ensureGroup lease => ensureGroup s lease
  | .send lease => send s lease
  | .land lease => land s lease
  | .answer lease => answer s lease
  | .giveUp lease => giveUp s lease
  | .markCompleted lease => markCompleted s lease
  | .markFailed lease maxAttempts nextAttempt => markFailed s lease maxAttempts nextAttempt
  | .replayDead now event => some (replayDead s now event)

/-- No event yet, and OpenIM does not know the group or knows it as it is. -/
structure Initial : Prop where
  profile : s.profile = s.base
  events : s.events = []
  leases : ∀ lease, s.leases lease = none
  nextLease : s.nextLease = 0
  inFlight : ∀ lease, s.inFlight lease = none
  openim : s.openim = none ∨ s.openim = some (encodeProfile s.base)
  written : ∀ field, s.written field = 0
  settled : ∀ event, s.settled event = false

def machine : Machine GroupSyncState Action where
  initial := Initial
  step := step

end ImApp.ImSync
