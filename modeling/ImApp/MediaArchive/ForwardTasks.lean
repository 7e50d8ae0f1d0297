import ImApp.Library.ArchivedItem
import ImApp.Library.InterleavedCalls

/-!
The row of one forward task, the copies of media that the owner's messages share,
and the requests on them. A copy is made and saved in a transaction of its own;
the task is then updated by one statement outside of it. A statement that fails has
no effect.
-/

namespace ImApp.MediaArchive

open ArchivedItem InterleavedCalls

variable {Key Snapshot : Type} [DecidableEq Key] [DecidableEq Snapshot]

/-- The columns of `forward_tasks` that a second request is checked against. -/
structure TaskBase where
  sourceConversationID : List Char
  sourceClientMsgID : List Char
  deriving DecidableEq

/-- Snapshots are compared as JSON values. -/
abbrev ForwardTask (Snapshot : Type) := Item TaskBase Snapshot

/-- `valid` are the checks of a snapshot, `hasMedia` says that it contains a media
address, and `sourceHash` is the digest of its canonical text. -/
structure ForwardMediaService (Key Snapshot : Type) where
  guarded : Bool
  configured : Bool
  valid : Snapshot → Bool
  hasMedia : Snapshot → Bool
  sourceHash : Snapshot → Key

/-- `copies` are the rows of `forward_media_snapshots` and `pending` those of
transactions that are not committed. `ensured` are the results of `EnsureTask`, `reads`
the tasks that a request showed, `preserved` the copies that `Preserve` returned. -/
structure ForwardData (Key Snapshot : Type) where
  task : Option (ForwardTask Snapshot)
  draft : Bool
  copies : Key → Option Snapshot
  pending : Key → Option (Nat × Snapshot)
  ensured : List (Nat × ForwardTask Snapshot)
  reads : List (Nat × ForwardTask Snapshot)
  preserved : List (Key × Snapshot)

/-- For whom a snapshot is preserved. -/
inductive Origin (Snapshot : Type) where
  | direct
  | task (task : ForwardTask Snapshot)

inductive ForwardCall (Snapshot : Type) where
  | create (base : TaskBase) (snapshot : Snapshot)
  | loading (base : TaskBase)
  | get
  | preserve (source : Snapshot)
  | fetching (origin : Origin Snapshot) (source : Snapshot)
  | copying (origin : Origin Snapshot) (source : Snapshot)
  | saving (origin : Origin Snapshot) (source copy : Snapshot)
  | refetching (origin : Origin Snapshot) (source : Snapshot)
  | committing (origin : Origin Snapshot) (source result : Snapshot)
  | archiving (task : ForwardTask Snapshot) (snapshot : Snapshot)
  | rereading (task : ForwardTask Snapshot)
  | finishing

inductive ForwardChoice (Snapshot : Type) where
  | goes
  | fails
  | copied (content : Snapshot)

namespace ForwardData

variable (d : ForwardData Key Snapshot) (id : Nat)

def seesCopy (key : Key) : Option Snapshot :=
  match d.pending key with
  | some (owner, copy) => if owner = id then some copy else d.copies key
  | none => d.copies key

def waits (key : Key) : Bool :=
  match d.pending key with
  | some (owner, _) => owner ≠ id
  | none => false

/-- The transaction of the request is rolled back. -/
def reject : ForwardData Key Snapshot :=
  { d with pending := fun key => (d.pending key).filter fun owned => owned.1 ≠ id }

/-- The transaction of the request is committed. -/
def commit : ForwardData Key Snapshot :=
  { d.reject id with
    copies := fun key =>
      match d.pending key with
      | some (owner, copy) => if owner = id then some copy else d.copies key
      | none => d.copies key }

def ensure (task : ForwardTask Snapshot) : ForwardData Key Snapshot :=
  { d with ensured := (id, task) :: d.ensured }

def read (task : ForwardTask Snapshot) : ForwardData Key Snapshot :=
  { d with reads := (id, task) :: d.reads }

end ForwardData

namespace ForwardMediaService

variable (s : ForwardMediaService Key Snapshot)

/-- The statement that inserts a copy. -/
def write (d : ForwardData Key Snapshot) (id : Nat) (key : Key) (copy : Snapshot) :
    ForwardData Key Snapshot :=
  if s.guarded then { d with pending := Function.update d.pending key (some (id, copy)) }
  else { d with copies := Function.update d.copies key (some copy) }

/-- Where `EnsureTask` goes on with a task that is not archived: its snapshot is
preserved, which leaves one without media as it is. -/
def ensureTask (task : ForwardTask Snapshot) : Option (ForwardCall Snapshot) :=
  if !s.valid task.content then none
  else if !s.hasMedia task.content then some (.archiving task task.content)
  else if s.configured then some (.fetching (.task task) task.content)
  else none

/-- `Preserve` for a caller that has no task. -/
def preserveDirect (source : Snapshot) : Option (ForwardCall Snapshot) :=
  if s.valid source && s.hasMedia source && s.configured then some (.fetching .direct source)
  else none

/-- After the transaction of `Preserve`. -/
def preserved (d : ForwardData Key Snapshot) (source result : Snapshot) :
    Origin Snapshot → ForwardData Key Snapshot × Option (ForwardCall Snapshot)
  | .direct => ({ d with preserved := (s.sourceHash source, result) :: d.preserved }, none)
  | .task task => (d, some (.archiving task result))

end ForwardMediaService

/-- Goes on with the next statement, or ends with an error where there is none. -/
def ForwardData.next (d : ForwardData Key Snapshot) (id : Nat)
    (call : Option (ForwardCall Snapshot)) :
    ForwardData Key Snapshot × Option (ForwardCall Snapshot) :=
  match call with
  | some call => (d, some call)
  | none => (d.reject id, none)

def ForwardMediaService.advance (s : ForwardMediaService Key Snapshot) (id : Nat)
    (d : ForwardData Key Snapshot) : ForwardCall Snapshot → ForwardChoice Snapshot →
    Option (ForwardData Key Snapshot × Option (ForwardCall Snapshot))
  | .archiving task _, .fails => some (d, some (.rereading task))
  | .committing _ _ _, .fails => if s.guarded then some (d.reject id, none) else none
  | _, .fails => some (d.reject id, none)
  | .create base snapshot, .goes => match d.task with
    | some _ => some (d, some (.loading base))
    | none => some ({ d with task := some ⟨base, snapshot, false⟩, draft := true },
        some (.loading base))
  | .loading base, .goes =>
    match d.task.filter fun task => task.base = base with
    | none => some (d.reject id, none)
    | some task =>
      if !d.draft then some (d.read id task, none)
      else if task.archived then some (d.ensure id task, some .finishing)
      else some (d.next id (s.ensureTask task))
  | .get, .goes =>
    match d.task with
    | none => some (d.reject id, none)
    | some task => some (d.read id task, none)
  | .preserve source, .goes => some (d.next id (s.preserveDirect source))
  | .fetching origin source, .goes =>
    match d.seesCopy id (s.sourceHash source) with
    | some copy => some (d, some (.committing origin source copy))
    | none => some (d, some (.copying origin source))
  | .copying origin source, .copied content =>
    some (d.next id (if s.valid content then some (.saving origin source content) else none))
  | .saving origin source content, .goes =>
    if d.waits id (s.sourceHash source) then none
    else
      match d.seesCopy id (s.sourceHash source) with
      | some _ => some (d, some (.refetching origin source))
      | none => some (s.write d id (s.sourceHash source) content, some (.refetching origin source))
  | .refetching origin source, .goes =>
    match d.seesCopy id (s.sourceHash source) with
    | some copy => some (d, some (.committing origin source copy))
    | none => some (d.reject id, none)
  | .committing origin source result, .goes => some (s.preserved (d.commit id) source result origin)
  | .archiving task snapshot, .goes =>
    match d.task.bind fun row => row.archive task.content snapshot with
    | some row => some ({ d.ensure id (task.sealed snapshot) with task := some row }, some .finishing)
    | none => some (d, some (.rereading task))
  | .rereading _, .goes =>
    match d.task.filter fun current => current.archived with
    | some current => some (d.ensure id current, some .finishing)
    | none => some (d.reject id, none)
  | .finishing, .goes =>
    match d.task with
    | none => some (d.reject id, none)
    | some task => some (d.read id task, none)
  | _, _ => none

/-- A draft is submitted. -/
def submitTask (d : ForwardData Key Snapshot) (_ : Unit) : Option (ForwardData Key Snapshot) :=
  some { d with draft := false }

def forwardService (s : ForwardMediaService Key Snapshot) :
    Service (ForwardData Key Snapshot) (ForwardCall Snapshot) (ForwardChoice Snapshot) Unit where
  initial d := (∀ key, d.pending key = none) ∧ d.ensured = [] ∧ d.reads = [] ∧ d.preserved = []
  opens call :=
    match call with
    | .create _ _ | .get | .preserve _ => true
    | _ => false
  advance := s.advance
  world := submitTask

end ImApp.MediaArchive
