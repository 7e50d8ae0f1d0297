import ImApp.Library.InterleavedCalls
import ImApp.Library.JsonText
import Mathlib.Algebra.Order.Ring.Int

/-!
The table of active connections between its awaits. The reservations are numbered,
so that an entry object may still be held by a call after its identifier was
released, or was reserved again.
-/

namespace ImApp.ActiveConnections

open InterleavedCalls (Service)
open JsonText (Text)

def externalLeaseMs : Int := 60000

inductive ConnectionType where
  | web
  | ssh
  | logs
  | sftp
  | database
  | redis
  deriving DecidableEq

inductive Client where
  | web
  | desktop

inductive ExecutionMode where
  | server
  | onDevice

inductive WorkspaceType where
  | personal
  | organization

structure Workspace where
  type : WorkspaceType
  id : Text
  name : Text

structure User where
  id : Text
  username : Text
  isPlatformAdmin : Bool
  workspace : Workspace

structure Reservation where
  id : Option Text
  user : User
  type : ConnectionType
  resourceId : Text
  originEnvironmentId : Option Text
  executionScope : Option Text
  client : Option Client
  executionMode : Option ExecutionMode
  external : Bool

/-- What the database says about a resource. -/
structure ResourceMetadata where
  label : Text
  environmentIds : List Text
  environmentNames : List Text

/-- The fields of an entry that nothing changes after its reservation. -/
structure Creation where
  id : Text
  ownerId : Text
  ownerUsername : Text
  type : ConnectionType
  label : Text
  resourceId : Text
  originEnvironmentId : Option Text
  environmentIds : List Text
  environmentNames : List Text
  workspace : Workspace
  client : Client
  executionMode : ExecutionMode
  createdAt : Int
  executionScope : Option Text
  external : Bool

inductive Status where
  | active
  | closing

structure Entry where
  creation : Creation
  status : Status
  externalHeartbeatSeen : Bool
  leaseExpiresAt : Option Int
  lastActivityAtMs : Int
  closeRequestedReason : Text
  /-- A close callback was set. -/
  close : Bool

/-- A reservation went from the table. `asked` is the reservation that was closed or
had expired, where one was. -/
structure Removal where
  asked : Option Nat
  removed : Nat
  deriving DecidableEq

/-- A `reserve` answered with a reservation. `held` is the one that had the identifier
before the answer. -/
structure Grant where
  ownerId : Text
  reservation : Nat
  held : Option Nat
  deriving DecidableEq

/-- The entry objects by number, and the map of those in the table in its order. The
last four fields record what happened: the number of reservations, the limit in
force at each, the answers of `reserve` and the removals. -/
structure Manager where
  entries : List Nat
  objects : Nat → Entry
  reserved : Nat
  limits : Nat → Int
  grants : List Grant
  removals : List Removal

namespace Manager

variable (m : Manager)

def idOf (n : Nat) : Text := (m.objects n).creation.id

def ownerOf (n : Nat) : Text := (m.objects n).creation.ownerId

def get (id : Text) : Option Nat := m.entries.find? fun n => m.idOf n = id

def setObject (n : Nat) (entry : Entry) : Manager :=
  { m with objects := Function.update m.objects n entry }

/-- A new object takes the place of the one with its identifier, or the last place. -/
def insert (entry : Entry) (limit : Int) : Manager :=
  { m with
    entries := match m.get entry.creation.id with
      | some old => m.entries.replace old m.reserved
      | none => m.entries ++ [m.reserved]
    objects := Function.update m.objects m.reserved entry
    reserved := m.reserved + 1
    limits := Function.update m.limits m.reserved limit }

def delete (asked : Option Nat) (id : Text) : Manager :=
  { m with
    entries := m.entries.filter fun n => m.idOf n ≠ id
    removals := m.removals ++ (m.entries.filter fun n => m.idOf n = id).map fun n => ⟨asked, n⟩ }

def activeCount (ownerId : Text) : Nat := (m.entries.filter fun n => m.ownerOf n = ownerId).length

def activate (id : Text) : Manager :=
  match m.get id with
  | some n => m.setObject n { m.objects n with close := true }
  | none => m

def touch (id : Text) (activityAt now : Int) : Manager :=
  match m.get id with
  | some n =>
    if (m.objects n).closeRequestedReason ≠ [] then m
    else m.setObject n { m.objects n with
      lastActivityAtMs := min now (max (m.objects n).lastActivityAtMs activityAt) }
  | none => m

/-- `executionScope` is undefined where it is absent. -/
def touchResource (ownerId : Text) (type : ConnectionType) (resourceId : Text)
    (executionScope : Option (Option Text)) (now : Int) : Manager :=
  m.entries.foldl (fun m n =>
    let creation := (m.objects n).creation
    if creation.ownerId ≠ ownerId || creation.type ≠ type || creation.resourceId ≠ resourceId then m
    else if executionScope.any fun scope => creation.executionScope ≠ scope then m
    else m.touch creation.id now now) m

def release (id : Text) : Manager := m.delete none id

def releaseExternal (id ownerId executionScope : Text) : Manager × Bool :=
  match m.get id with
  | some n =>
    let creation := (m.objects n).creation
    if !creation.external || creation.ownerId ≠ ownerId ||
        creation.executionScope ≠ some executionScope then (m, false)
    else (m.release id, true)
  | none => (m, false)

structure Heartbeat where
  id : Text
  lastActivityAt : Int

/-- The entry belongs to the desktop that sends the heartbeats. -/
def isExternalOf (ownerId executionScope : Text) (n : Nat) : Bool :=
  (m.objects n).creation.external && (m.objects n).creation.ownerId = ownerId &&
    (m.objects n).creation.executionScope = some executionScope

def renew (n : Nat) (now : Int) : Manager :=
  m.setObject n { m.objects n with
    externalHeartbeatSeen := true
    leaseExpiresAt := some (now + externalLeaseMs) }

/-- What heartbeats for these identifiers do to an entry. -/
def syncLease (ownerId executionScope : Text) (activeIds : List Text) (now : Int) (n : Nat) :
    Manager :=
  if !m.isExternalOf ownerId executionScope n then m
  else if !activeIds.contains (m.idOf n) then
    if (m.objects n).externalHeartbeatSeen then m.delete (some n) (m.idOf n) else m
  else m.renew n now

def syncLeases (ownerId executionScope : Text) (activeIds : List Text) (now : Int) : Manager :=
  m.entries.foldl (fun m n => m.syncLease ownerId executionScope activeIds now n) m

def syncActivity (ownerId executionScope : Text) (heartbeats : List Heartbeat) (now : Int) :
    Manager :=
  heartbeats.foldl (fun m heartbeat =>
    match m.get heartbeat.id with
    | some n =>
      if m.isExternalOf ownerId executionScope n then
        m.touch heartbeat.id heartbeat.lastActivityAt now
      else m
    | none => m) m

/-- The table after the heartbeats of a desktop, and what the desktop has to close. -/
def syncExternal (ownerId executionScope : Text) (heartbeats : List Heartbeat) (now : Int) :
    Manager × List (Text × Text) :=
  let synced := (m.syncLeases ownerId executionScope (heartbeats.map Heartbeat.id) now).syncActivity
    ownerId executionScope heartbeats now
  (synced, (synced.entries.filter fun n => synced.isExternalOf ownerId executionScope n &&
      (synced.objects n).closeRequestedReason ≠ []).map fun n =>
    (synced.idOf n, (synced.objects n).closeRequestedReason))

def stop : Manager :=
  { m with
    entries := []
    removals := m.removals ++ m.entries.map fun n => ⟨none, n⟩ }

/-- The part of `requestClose` before its await, and whether it waits for a callback. -/
def requestClose (n : Nat) (reason : Text) : Manager × Bool :=
  if (m.get (m.idOf n)).isNone || (m.objects n).closeRequestedReason ≠ [] then (m, false)
  else
    let closing := m.setObject n { m.objects n with closeRequestedReason := reason, status := .closing }
    if (m.objects n).creation.external then (closing, false)
    else if (m.objects n).close then (closing, true)
    else (closing.delete (some n) (m.idOf n), false)

/-- The part after it. -/
def closed (n : Nat) : Manager := m.delete (some n) (m.idOf n)

/-- Several closes that begin together, and those that wait. -/
def requestCloses (reason : Text) : List Nat → Manager → Manager × List Nat
  | [], m => (m, [])
  | n :: rest, m => let (next, waits) := m.requestClose n reason
    let (last, pending) := requestCloses reason rest next
    (last, if waits then n :: pending else pending)

def creation (input : Reservation) (id : Text) (metadata : ResourceMetadata) (now : Int) :
    Creation where
  id := id
  ownerId := input.user.id
  ownerUsername := input.user.username
  type := input.type
  label := metadata.label
  resourceId := input.resourceId
  originEnvironmentId := match input.originEnvironmentId with
    | some origin => some origin
    | none =>
      if (input.type = .web || input.type = .logs) && metadata.environmentIds.length = 1 then
        metadata.environmentIds.head?
      else none
  environmentIds := metadata.environmentIds
  environmentNames := metadata.environmentNames
  workspace := input.user.workspace
  client := input.client.getD (if (input.executionScope.getD []) ≠ [] then .desktop else .web)
  executionMode := input.executionMode.getD .server
  createdAt := now
  executionScope := input.executionScope
  external := input.external

def newEntry (creation : Creation) : Entry where
  creation := creation
  status := .active
  externalHeartbeatSeen := false
  leaseExpiresAt := if creation.external then some (creation.createdAt + externalLeaseMs) else none
  lastActivityAtMs := creation.createdAt
  closeRequestedReason := []
  close := false

def grant (ownerId : Text) (reservation : Nat) (held : Option Nat) : Manager :=
  { m with grants := m.grants ++ [⟨ownerId, reservation, held⟩] }

/-- The part of `reserve` after it has read the metadata. -/
def reserveEntry (input : Reservation) (id : Text) (metadata : ResourceMetadata) (limit now : Int) :
    Except String Manager :=
  if limit ≤ m.activeCount input.user.id then
    .error s!"当前已达到单用户最大连接数 {limit}，请先关闭现有连接再继续"
  else .ok ((m.insert (newEntry (creation input id metadata now)) limit).grant input.user.id
    m.reserved (m.get id))

end Manager

/-- Where a call stands at its awaits. -/
inductive Call where
  /-- `reserve` before anything, with the identifier it was given or has made. -/
  | reserve (input : Reservation) (id : Text)
  | reading (input : Reservation) (id : Text)
  | closeForViewer (id : Text) (viewer : User) (reason : Text)
  | closeOwner (ownerId reason : Text)
  /-- Closes that wait for their callbacks. -/
  | closing (pending : List Nat)
  | cleanup
  /-- The loop of a cleanup in one of its closes, which may wait for a callback. -/
  | sweeping (now idleCutoff : Int) (rest : List Nat) (pending : Option Nat)

/-- What the next part of a call depends on beside the table. -/
inductive Choice where
  | run
  /-- The resource was read, or it could not be; the limit of now. -/
  | metadata (metadata : Option ResourceMetadata) (limit now : Int)
  /-- A callback ended, with or without an error. -/
  | closed (n : Nat) (threw : Bool)
  /-- The idle time in minutes, the clock, and the queries that are running. -/
  | sweep (idleMinutes : Nat) (clock : Int) (hasActive : Text → Text → Option Text → Bool)

def takenError : String := "活动连接标识已被占用"

def idleReason (minutes : Nat) : Text :=
  "空闲超过 ".toList ++ Nat.toDigits 10 minutes ++ " 分钟".toList

namespace Manager

variable (m : Manager)

/-- The lease of an entry is over. -/
def leaseIsOver (now : Int) (n : Nat) : Bool :=
  (m.objects n).creation.external && (m.objects n).leaseExpiresAt.any fun expiry => expiry < now

def isIdle (idleCutoff : Int) (n : Nat) : Bool :=
  (m.objects n).closeRequestedReason = [] && (m.objects n).lastActivityAtMs < idleCutoff

/-- The loop of `cleanup` up to its next await: the table, and what is left to do with
the close that is waited for, nothing where the loop has ended. -/
def sweep (now idleCutoff clock : Int) (reason : Text)
    (hasActive : Text → Text → Option Text → Bool) :
    List Nat → Manager → Manager × Option (List Nat × Option Nat)
  | [], m => (m, none)
  | n :: rest, m => let creation := (m.objects n).creation
    if m.leaseIsOver now n then
      sweep now idleCutoff clock reason hasActive rest (m.delete (some n) creation.id)
    else if creation.type = .database &&
        hasActive creation.ownerId creation.resourceId creation.executionScope then
      sweep now idleCutoff clock reason hasActive rest (m.touch creation.id clock clock)
    else if m.isIdle idleCutoff n then
      let (next, waits) := m.requestClose n reason
      (next, some (rest, if waits then some n else none))
    else sweep now idleCutoff clock reason hasActive rest m

end Manager

def waitFor (pending : List Nat) : Option Call :=
  if pending = [] then none else some (.closing pending)

def afterSweep (now idleCutoff : Int) :
    Manager × Option (List Nat × Option Nat) → Manager × Option Call
  | (m, none) => (m, none)
  | (m, some (rest, pending)) => (m, some (.sweeping now idleCutoff rest pending))

/-- A call goes on to its next await. -/
def advance (m : Manager) : Call → Choice → Option (Manager × Option Call)
  | .reserve input id, .run => match m.get id with
    | some n => if m.ownerOf n ≠ input.user.id then some (m, none)
      else some (m.grant input.user.id n (some n), none)
    | none => some (m, some (.reading input id))
  | .reading input id, .metadata metadata limit now => match metadata with
    | none => some (m, none)
    | some metadata => match m.reserveEntry input id metadata limit now with
      | .error _ => some (m, none)
      | .ok next => some (next, none)
  | .closeForViewer id viewer reason, .run => match m.get id with
    | none => some (m, none)
    | some n => if !viewer.isPlatformAdmin && m.ownerOf n ≠ viewer.id then some (m, none) else
        let (next, waits) := m.requestClose n reason
        some (next, waitFor (if waits then [n] else []))
  | .closeOwner ownerId reason, .run =>
    let (next, pending) := Manager.requestCloses reason
      (m.entries.filter fun n => m.ownerOf n = ownerId) m
    some (next, waitFor pending)
  | .closing pending, .closed n threw =>
    if n ∈ pending then
      some (if threw then m else m.closed n, waitFor (pending.erase n))
    else none
  | .cleanup, .sweep idleMinutes clock hasActive =>
    let idleCutoff := clock - idleMinutes * 60000
    some (afterSweep clock idleCutoff
      (Manager.sweep clock idleCutoff clock (idleReason idleMinutes) hasActive m.entries m))
  | .sweeping now idleCutoff rest (some n), .closed k threw =>
    if k = n then
      some (if threw then (m, none) else (m.closed n, some (.sweeping now idleCutoff rest none)))
    else none
  | .sweeping now idleCutoff rest none, .sweep idleMinutes clock hasActive =>
    some (afterSweep now idleCutoff
      (Manager.sweep now idleCutoff clock (idleReason idleMinutes) hasActive rest m))
  | _, _ => none

/-- The operations without an await. -/
inductive Event where
  | activate (id : Text)
  | touch (id : Text) (activityAt now : Int)
  | touchResource (ownerId : Text) (type : ConnectionType) (resourceId : Text)
      (executionScope : Option (Option Text)) (now : Int)
  | release (id : Text)
  | releaseExternal (id ownerId executionScope : Text)
  | syncExternal (ownerId executionScope : Text) (heartbeats : List Manager.Heartbeat) (now : Int)
  | stop

def world (m : Manager) : Event → Manager
  | .activate id => m.activate id
  | .touch id activityAt now => m.touch id activityAt now
  | .touchResource ownerId type resourceId executionScope now =>
    m.touchResource ownerId type resourceId executionScope now
  | .release id => m.release id
  | .releaseExternal id ownerId executionScope => (m.releaseExternal id ownerId executionScope).1
  | .syncExternal ownerId executionScope heartbeats now =>
    (m.syncExternal ownerId executionScope heartbeats now).1
  | .stop => m.stop

def Call.isStart : Call → Bool
  | .reserve input id => input.id.all fun given => given = id
  | .closeForViewer _ _ _ => true
  | .closeOwner _ _ => true
  | .cleanup => true
  | _ => false

/-- A manager that was just made. -/
structure Manager.IsNew (m : Manager) : Prop where
  entries : m.entries = []
  reserved : m.reserved = 0
  grants : m.grants = []
  removals : m.removals = []

def activeConnections : Service Manager Call Choice Event where
  initial m := m.IsNew
  opens := Call.isStart
  advance _ m call choice := advance m call choice
  world m event := some (world m event)

end ImApp.ActiveConnections
