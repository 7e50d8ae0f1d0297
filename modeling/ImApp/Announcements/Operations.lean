import ImApp.Library.JsonText
import ImApp.Library.KeepNewest
import ImApp.Library.StepSystem

/-!
The announcements of one group. The group row holds a copy of the current one,
the history table the last ten. Three operations edit the history and then copy
its newest row to the group; the group settings write the copy first and add it
to the history unless the same announcement is there already. Each operation is a
transaction that locks the group row, and a failed one is rolled back.
-/

namespace ImApp.Announcements

open JsonText (Text)
open StepSystem

abbrev UserID := Nat

inductive Role where
  | owner
  | admin
  | member

def Role.edits : Role → Bool
  | .owner | .admin => true
  | .member => false

/-- What an announcement says. -/
structure Body where
  content : Text
  images : List Text
  deriving DecidableEq

structure AnnouncementRow where
  id : Nat
  body : Body
  publisher : UserID
  createdAt : Nat
  deriving DecidableEq

/-- `nextID` stands for the ids that the database has not drawn yet. -/
structure Group where
  name : Text
  avatar : Text
  announcement : Text
  announcementImages : List Text
  allowMemberAddFriend : Bool
  joinMode : Text
  allMuted : Bool
  history : List AnnouncementRow
  nextID : Nat

inductive Refusal where
  | forbidden
  | invalidGroupOperation
  | announcementLimit
  | groupNotFound

/-- The caller, with the role that the join with the active group finds, and the
time at which the transaction began, which is the creation time of its rows. -/
structure Request where
  caller : UserID
  role : Option Role
  now : Nat

def Request.mayEdit (r : Request) : Bool := r.role.any Role.edits

section History

/-- `ORDER BY created_at DESC` -/
abbrev newestFirst (history : List AnnouncementRow) : List AnnouncementRow :=
  KeepNewest.newestFirst AnnouncementRow.createdAt history

/-- `exceptID` is compared with the printed ids, so that it excludes a row only
in the spelling of the database. -/
def announcementDuplicateExists (history : List AnnouncementRow) (body : Body)
    (exceptID : Option Nat) : Bool :=
  history.any fun row => row.body = body && exceptID ≠ some row.id

def maxLiveAnnouncements : Nat := 10

def historyLimit : Nat := 10

/-- Deletes the rows that are not among the newest ten. -/
def prune (history : List AnnouncementRow) : List AnnouncementRow :=
  let live := ((newestFirst history).take historyLimit).map AnnouncementRow.id
  history.filter fun row => row.id ∈ live

variable (g : Group)

/-- The group row's copy. -/
def Group.current : Body := ⟨g.announcement, g.announcementImages⟩

def Group.setCurrent (body : Body) : Group :=
  { g with announcement := body.content, announcementImages := body.images }

def insertRow (r : Request) (body : Body) : Group :=
  { g with
    history := g.history ++ [⟨g.nextID, body, r.caller, r.now⟩]
    nextID := g.nextID + 1 }

/-- The newest row's body, and an empty one without rows. -/
def latest (history : List AnnouncementRow) : Body :=
  match (newestFirst history).head? with
  | some row => row.body
  | none => ⟨[], []⟩

def syncLatestAnnouncement : Group :=
  if latest g.history = g.current then g else g.setCurrent (latest g.history)

end History

variable (g : Group) (r : Request)

def createAnnouncement (body : Body) : Except Refusal Group :=
  if !r.mayEdit then .error .forbidden
  else if maxLiveAnnouncements ≤ g.history.length then .error .announcementLimit
  else if announcementDuplicateExists g.history body none then .error .invalidGroupOperation
  else .ok (syncLatestAnnouncement (insertRow g r body))

/-- An announcement id that parses. It need not be spelled as the database prints
it. -/
structure AnnouncementID where
  uuid : Nat
  printed : Bool

def AnnouncementID.text (id : AnnouncementID) : Option Nat :=
  if id.printed then some id.uuid else none

def rewriteRow (id : Nat) (body : Body) : Group :=
  { g with history := g.history.map fun row => if row.id = id then { row with body := body } else row }

def hasRow (id : Nat) : Bool := g.history.any fun row => row.id = id

def updateAnnouncement (id : Option AnnouncementID) (body : Body) : Except Refusal Group :=
  match id with
  | none => .error .invalidGroupOperation
  | some id =>
    if !r.mayEdit then .error .forbidden
    else if announcementDuplicateExists g.history body id.text then .error .invalidGroupOperation
    else if !hasRow g id.uuid then .error .groupNotFound
    else .ok (syncLatestAnnouncement (rewriteRow g id.uuid body))

def deleteRow (id : Nat) : Group :=
  { g with history := g.history.filter fun row => row.id ≠ id }

def deleteAnnouncement (id : Option AnnouncementID) : Except Refusal Group :=
  match id with
  | none => .error .invalidGroupOperation
  | some id =>
    if !r.mayEdit then .error .forbidden
    else if !hasRow g id.uuid then .error .groupNotFound
    else .ok (syncLatestAnnouncement (deleteRow g id.uuid))

/-- The fields of a settings update; an absent field keeps its value. -/
structure Settings where
  name : Option Text
  avatar : Option Text
  announcement : Option Text
  announcementImages : Option (List Text)
  allow : Option Bool
  joinMode : Option Text
  allMuted : Option Bool
  deriving DecidableEq

/-- The field unless it has the value already. -/
def unlessSame {α : Type*} [DecidableEq α] (current : α) (field : Option α) : Option α :=
  if field = some current then none else field

/-- The announcement is a change unless its text and its images are both given and
both the current ones. -/
def Settings.changes (u : Settings) : Settings :=
  let same : Bool :=
    u.announcement = some g.announcement ∧ u.announcementImages = some g.announcementImages
  { name := unlessSame g.name u.name
    avatar := unlessSame g.avatar u.avatar
    announcement := if same then none else u.announcement
    announcementImages := if same then none else u.announcementImages
    allow := unlessSame g.allowMemberAddFriend u.allow
    joinMode := unlessSame g.joinMode u.joinMode
    allMuted := unlessSame g.allMuted u.allMuted }

def Settings.isEmpty (u : Settings) : Bool :=
  u = ⟨none, none, none, none, none, none, none⟩

/-- The update of the group row. -/
def writeSettings (u : Settings) : Group :=
  { g with
    name := u.name.getD g.name
    avatar := u.avatar.getD g.avatar
    announcement := u.announcement.getD g.announcement
    announcementImages := u.announcementImages.getD g.announcementImages
    allowMemberAddFriend := u.allow.getD g.allowMemberAddFriend
    joinMode := u.joinMode.getD g.joinMode
    allMuted := u.allMuted.getD g.allMuted }

/-- The announcement that the changes publish, if they touch it. -/
def Settings.publication (u : Settings) : Option Body :=
  if u.announcement = none ∧ u.announcementImages = none then none
  else some ⟨u.announcement.getD g.announcement, u.announcementImages.getD g.announcementImages⟩

/-- An announcement that is in the history is not added again. -/
def recordAnnouncement (body : Body) : Group :=
  if g.history.any fun row => row.body = body then g
  else
    let inserted := insertRow g r body
    { inserted with history := prune inserted.history }

def updateSettings (settings : Settings) : Except Refusal Group :=
  if !r.mayEdit then .error .forbidden
  else
    let changes := settings.changes g
    if changes.isEmpty then .ok g
    else
      let written := writeSettings g changes
      match changes.publication g with
      | none => .ok written
      | some body => .ok (recordAnnouncement written r body)

inductive Operation where
  | create (body : Body)
  | update (id : Option AnnouncementID) (body : Body)
  | delete (id : Option AnnouncementID)
  | settings (fields : Settings)

def perform : Operation → Except Refusal Group
  | .create body => createAnnouncement g r body
  | .update id body => updateAnnouncement g r id body
  | .delete id => deleteAnnouncement g r id
  | .settings fields => updateSettings g r fields

/-- A refused operation is rolled back. -/
def afterwards (op : Operation) : Group :=
  match perform g r op with
  | .ok next => next
  | .error _ => g

/-- A group that has just been made. -/
def Group.new (g : Group) : Prop :=
  g.current = ⟨[], []⟩ ∧ g.history = []

def announcementMachine : Machine Group (Request × Operation) where
  initial := Group.new
  step g action := some (afterwards g action.1 action.2)

end ImApp.Announcements
