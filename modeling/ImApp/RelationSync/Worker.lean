import ImApp.ImSync.GroupProfile

/-!
The friend and block relations of two users in the business database and in
OpenIM. Every commit of a relation enqueues an event. A worker that claims one
reads what the relation is now and makes OpenIM follow, with one or two calls. It
may stop after any of them, and a call may take effect after its worker has given
up.
-/

namespace ImApp.RelationSync

open ImApp.ImSync (OutboxRow WorkerID Time)
open StepSystem

/-- One of the two users. -/
inductive User where
  | first
  | second
  deriving DecidableEq

def User.other : User → User
  | .first => .second
  | .second => .first

/-- What the owner holds about the other user: a row of `friendships` or of
`user_blocks`, and the same in OpenIM. -/
inductive Relation where
  | friend (owner : User)
  | black (owner : User)
  deriving DecidableEq

inductive EventType where
  | friendAccepted
  | friendDeleted
  | blockAdded
  | blockRemoved
  deriving DecidableEq

structure IMSyncEvent where
  eventType : EventType
  owner : User

/-- The relation that the event's worker reads. -/
def IMSyncEvent.relation (event : IMSyncEvent) : Relation :=
  match event.eventType with
  | .friendAccepted | .friendDeleted => .friend event.owner
  | .blockAdded | .blockRemoved => .black event.owner

/-- Whether the event's worker brings the relation to OpenIM. Friendship is
brought in both directions. -/
def IMSyncEvent.concerns (event : IMSyncEvent) (relation : Relation) : Bool :=
  match event.eventType with
  | .friendAccepted | .friendDeleted =>
    relation = .friend event.owner || relation = .friend event.owner.other
  | .blockAdded | .blockRemoved => relation = .black event.owner

inductive Call where
  | importFriends (owner : User)
  | deleteFriend (owner : User)
  | addBlack (owner : User)
  | removeBlack (owner : User)

def Call.sets (call : Call) (relation : Relation) : Bool :=
  match call with
  | .importFriends owner => relation = .friend owner || relation = .friend owner.other
  | .deleteFriend owner => relation = .friend owner
  | .addBlack owner | .removeBlack owner => relation = .black owner

/-- What the call makes of the relations that it sets. -/
def Call.value : Call → Bool
  | .importFriends _ | .addBlack _ => true
  | .deleteFriend _ | .removeBlack _ => false

/-- `syncFriendshipState` and `syncBlockState` after the read. -/
def IMSyncEvent.calls (event : IMSyncEvent) (held : Bool) : List Call :=
  match event.eventType with
  | .friendAccepted | .friendDeleted =>
    if held then [.importFriends event.owner]
    else [.deleteFriend event.owner, .deleteFriend event.owner.other]
  | .blockAdded | .blockRemoved =>
    if held then [.addBlack event.owner] else [.removeBlack event.owner]

/-- `calling` are the calls that are left to make. -/
inductive Phase where
  | claimed
  | calling (rest : List Call)
  | waiting (rest : List Call)
  | failed
  | ended

structure Lease where
  event : Nat
  worker : WorkerID
  attempt : Nat
  phase : Phase

/-- How OpenIM handles a call. A call that OpenIM does not know its record for
changes nothing: the client takes that for success, of an added block too. -/
inductive Handling where
  | applied
  | notFound
  deriving DecidableEq

/-- `brought` records the relations that a lease's calls have been handled for. -/
structure RelationState where
  stored : Relation → Bool
  openim : Relation → Bool
  events : List IMSyncEvent
  rows : Nat → OutboxRow
  leases : Nat → Option Lease
  nextLease : Nat
  inFlight : Nat → Option Call
  brought : Nat → Relation → Bool

variable (s : RelationState)

def enqueue (now : Time) (event : IMSyncEvent) : RelationState :=
  { s with
    events := s.events ++ [event]
    rows := Function.update s.rows s.events.length (.fresh now) }

def setStored (concerned : Relation → Bool) (value : Bool) : RelationState :=
  { s with stored := fun relation => if concerned relation then value else s.stored relation }

/-- A transaction of the contact repository: the rows of the relation and an event
of the owner. -/
def commit (now : Time) (event : IMSyncEvent) (value : Bool) : RelationState :=
  enqueue (setStored s event.concerns value) now event

/-- Also `AddFriendDirect`. The owner of the event is the user who was asked. -/
def acceptFriendRequest (now : Time) (toUser : User) : RelationState :=
  commit s now ⟨.friendAccepted, toUser⟩ true

def deleteFriend (now : Time) (user : User) : RelationState :=
  commit s now ⟨.friendDeleted, user⟩ false

def blockUser (now : Time) (user : User) : RelationState :=
  commit s now ⟨.blockAdded, user⟩ true

def unblockUser (now : Time) (user : User) : RelationState :=
  commit s now ⟨.blockRemoved, user⟩ false

/-- An event of `EnqueueReconciliation` for a relation that is stored. -/
def reconcile (now : Time) (event : IMSyncEvent) : RelationState :=
  if (event.eventType = .friendAccepted ∨ event.eventType = .blockAdded) ∧
      s.stored event.relation = true then enqueue s now event
  else s

def setPhase (lease : Nat) (phase : Phase) : RelationState :=
  { s with
    leases := Function.update s.leases lease
      ((s.leases lease).map fun l => { l with phase := phase }) }

def setRow (event : Nat) (row : OutboxRow) : RelationState :=
  { s with rows := Function.update s.rows event row }

/-- One row of `ClaimBatch`. -/
def claim (worker : WorkerID) (now : Time) (event : Nat) : Option RelationState :=
  if event < s.events.length ∧ (s.rows event).claimable now = true then
    let row := (s.rows event).claim worker now
    some { setRow s event row with
      leases := Function.update s.leases s.nextLease
        (some ⟨event, worker, row.attemptCount, .claimed⟩)
      nextLease := s.nextLease + 1 }
  else none

/-- `RelationshipState`, and the branch on it. -/
def relationshipState (lease : Nat) : Option RelationState :=
  match s.leases lease with
  | some ⟨number, _, _, .claimed⟩ => (s.events[number]?).map fun event =>
    setPhase s lease (.calling (event.calls (s.stored event.relation)))
  | _ => none

def send (lease : Nat) : Option RelationState :=
  match s.leases lease with
  | some ⟨_, _, _, .calling (call :: rest)⟩ =>
    some { setPhase s lease (.waiting rest) with
      inFlight := Function.update s.inFlight lease (some call) }
  | _ => none

/-- What OpenIM holds after it has handled the call. -/
def Call.effect (call : Call) (handling : Handling) (before : Relation → Bool) :
    Relation → Bool := fun relation =>
  if call.sets relation && handling = .applied then call.value else before relation

/-- Whether the client takes the answer for success. Only `ImportFriends` reports
every error, and a relation that is there is found. -/
def Call.accepts (call : Call) (handling : Handling) (before : Relation → Bool) : Bool :=
  match handling, call with
  | .applied, _ => true
  | .notFound, .importFriends _ => false
  | .notFound, .deleteFriend owner => !before (.friend owner)
  | .notFound, .removeBlack owner => !before (.black owner)
  | .notFound, .addBlack _ => true

/-- OpenIM handles the call that the lease has sent. -/
def land (lease : Nat) (handling : Handling) : Option RelationState :=
  match s.inFlight lease with
  | some call =>
    if call.accepts handling s.openim then
      some { s with
        openim := call.effect handling s.openim
        inFlight := Function.update s.inFlight lease none
        brought := Function.update s.brought lease
          (fun relation => call.sets relation || s.brought lease relation) }
    else none
  | none => none

def answer (lease : Nat) : Option RelationState :=
  match s.leases lease, s.inFlight lease with
  | some ⟨_, _, _, .waiting rest⟩, none => some (setPhase s lease (.calling rest))
  | _, _ => none

/-- Any read or call may fail or time out, also one that takes effect later. -/
def giveUp (lease : Nat) : Option RelationState :=
  match s.leases lease with
  | some ⟨_, _, _, .ended⟩ | none => none
  | some _ => some (setPhase s lease .failed)

def markCompleted (lease : Nat) : Option RelationState :=
  match s.leases lease with
  | some ⟨event, worker, _, .calling []⟩ =>
    some (setPhase (setRow s event ((s.rows event).markCompleted worker)) lease .ended)
  | _ => none

def markFailed (lease maxAttempts : Nat) (nextAttempt : Time) : Option RelationState :=
  match s.leases lease with
  | some ⟨event, worker, attempt, .failed⟩ =>
    some (setPhase (setRow s event
      ((s.rows event).markFailed worker attempt maxAttempts nextAttempt)) lease .ended)
  | _ => none

def replayDead (now : Time) (event : Nat) : RelationState :=
  setRow s event ((s.rows event).replayDead now)

inductive Action where
  | acceptFriendRequest (now : Time) (toUser : User)
  | deleteFriend (now : Time) (user : User)
  | blockUser (now : Time) (user : User)
  | unblockUser (now : Time) (user : User)
  | reconcile (now : Time) (event : IMSyncEvent)
  | claim (worker : WorkerID) (now : Time) (event : Nat)
  | relationshipState (lease : Nat)
  | send (lease : Nat)
  | land (lease : Nat) (handling : Handling)
  | answer (lease : Nat)
  | giveUp (lease : Nat)
  | markCompleted (lease : Nat)
  | markFailed (lease maxAttempts : Nat) (nextAttempt : Time)
  | replayDead (now : Time) (event : Nat)

def step : Action → Option RelationState
  | .acceptFriendRequest now toUser => some (acceptFriendRequest s now toUser)
  | .deleteFriend now user => some (deleteFriend s now user)
  | .blockUser now user => some (blockUser s now user)
  | .unblockUser now user => some (unblockUser s now user)
  | .reconcile now event => some (reconcile s now event)
  | .claim worker now event => claim s worker now event
  | .relationshipState lease => relationshipState s lease
  | .send lease => send s lease
  | .land lease handling => land s lease handling
  | .answer lease => answer s lease
  | .giveUp lease => giveUp s lease
  | .markCompleted lease => markCompleted s lease
  | .markFailed lease maxAttempts nextAttempt => markFailed s lease maxAttempts nextAttempt
  | .replayDead now event => some (replayDead s now event)

/-- OpenIM agrees with the database, and no event has been enqueued. -/
structure Initial : Prop where
  agree : s.openim = s.stored
  events : s.events = []
  leases : ∀ lease, s.leases lease = none
  inFlight : ∀ lease, s.inFlight lease = none
  brought : ∀ lease relation, s.brought lease relation = false

def machine : Machine RelationState Action where
  initial := Initial
  step := step

end ImApp.RelationSync
