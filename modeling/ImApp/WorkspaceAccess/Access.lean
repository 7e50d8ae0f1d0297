import ImApp.Library.JsonText
import Mathlib.Data.Finset.Basic

/-!
What a member of an organization may reach: the rows that grant it, and the passes that
collect environments and connections from them.
-/

namespace ImApp.WorkspaceAccess

open JsonText (Text)

inductive WorkspaceType where
  | personal
  | organization
  deriving DecidableEq

structure Workspace where
  type : WorkspaceType
  id : Text
  deriving DecidableEq

inductive Role where
  | owner
  | admin
  | member
  deriving DecidableEq

structure AuthenticatedUser where
  id : Text
  workspace : Workspace
  role : Role

inductive ConnectionType where
  | ssh
  | database
  | redis
  deriving DecidableEq

inductive ResourceType where
  | environmentGroup
  | environment
  | connection (type : ConnectionType)
  deriving DecidableEq

inductive GranteeType where
  | user
  | project
  deriving DecidableEq

structure ResourceGrant where
  organizationId : Text
  granteeType : GranteeType
  granteeId : Text
  resourceType : ResourceType
  resourceId : Text

structure Project where
  id : Text
  organizationId : Text
  parentId : Option Text

structure ProjectMember where
  projectId : Text
  userId : Text
  deriving DecidableEq

structure Environment where
  id : Text
  workspace : Workspace
  groupId : Option Text

structure Connection where
  id : Text
  workspace : Workspace
  profileParentId : Option Text

/-- A connection in an environment. -/
structure Placement where
  connectionId : Text
  environmentId : Text

/-- The tables that access is read from. Members are unique, and so are the ids of
projects. -/
structure Database where
  grants : List ResourceGrant
  projects : List Project
  members : List ProjectMember
  environments : List Environment
  connections : ConnectionType → List Connection
  placements : ConnectionType → List Placement
  unique : (projects.map Project.id).Nodup

/-- A column that is neither null nor empty. -/
def given (column : Option Text) : Option Text := column.filter (· ≠ [])

structure Access where
  canManage : Bool
  environmentGroupIds : Finset Text
  environmentIds : Finset Text
  connectionIds : ConnectionType → Finset Text

def AuthenticatedUser.canManage (user : AuthenticatedUser) : Bool :=
  user.role = .owner || user.role = .admin

section

variable (db : Database) (user : AuthenticatedUser)

def organizationProjects : List Project :=
  db.projects.filter fun p => p.organizationId = user.workspace.id

def isMember (p : Project) : Bool := db.members.contains ⟨p.id, user.id⟩

/-- The parent, among the projects of the organization: the last one of a map. -/
def parentProject (p : Project) : Option Project :=
  (given p.parentId).bind fun parent =>
    (organizationProjects db user).reverse.find? fun q => q.id = parent

/-- The walk up from one project, to the first that is granted already. -/
def walkUp : ℕ → Finset Text → Option Project → Finset Text
  | 0, granted, _ => granted
  | _ + 1, granted, none => granted
  | fuel + 1, granted, some current => if current.id ∈ granted then granted
    else walkUp fuel (insert current.id granted) (parentProject db user current)

def grantedProjectIds (fuel : ℕ) : Finset Text :=
  (organizationProjects db user).foldl
    (fun granted p => if isMember db user p then walkUp db user fuel granted (some p) else granted) ∅

/-- `SELECT .. WHERE column IN (ids)`, which is not asked for no ids. -/
def rowsIn {α : Type} (ids : Finset Text) (column : α → Option Text) (rows : List α) : List α :=
  if ids = ∅ then [] else rows.filter fun row => (column row).any (· ∈ ids)

def directGrants : List ResourceGrant :=
  db.grants.filter fun g => g.organizationId = user.workspace.id ∧ g.granteeType = .user ∧
    g.granteeId = user.id

def projectGrants : List ResourceGrant :=
  rowsIn (grantedProjectIds db user (db.projects.length + 1)) (fun g => some g.granteeId)
    (db.grants.filter fun g => g.organizationId = user.workspace.id ∧ g.granteeType = .project)

/-- The resources of one type among the grants. -/
def granted (type : ResourceType) : Finset Text :=
  (((directGrants db user ++ projectGrants db user).filter fun g => g.resourceType = type).map
    ResourceGrant.resourceId).toFinset

def environmentIds : Finset Text :=
  granted db user .environment ∪ ((rowsIn (granted db user .environmentGroup) Environment.groupId
      (db.environments.filter fun e => e.workspace = ⟨.organization, user.workspace.id⟩)).map
        Environment.id).toFinset

/-- The connections before their profiles. -/
def rootIds (type : ConnectionType) : Finset Text :=
  granted db user (.connection type) ∪
    ((rowsIn (environmentIds db user) (fun p => some p.environmentId) (db.placements type)).map
      Placement.connectionId).toFinset

def getWorkspaceAccess : Access :=
  if user.canManage then ⟨true, ∅, ∅, fun _ => ∅⟩
  else
    { canManage := false
      environmentIds := environmentIds db user
      environmentGroupIds :=
        ((rowsIn (environmentIds db user) (fun e => some e.id) db.environments).filterMap
          fun e => given e.groupId).toFinset ∪ granted db user .environmentGroup
      connectionIds := fun type =>
        match type with
        | .database =>
          rootIds db user .database ∪
            ((rowsIn (rootIds db user .database) Connection.profileParentId
              (db.connections .database)).map Connection.id).toFinset
        | type => rootIds db user type }

def canAccessEnvironment (environmentId : Text) : Bool :=
  match db.environments.find? (·.id = environmentId) with
  | none => false
  | some row =>
    if row.workspace ≠ user.workspace then false
    else
      let access := getWorkspaceAccess db user
      access.canManage || environmentId ∈ access.environmentIds

def canAccessConnection (type : ConnectionType) (connectionId : Text) : Bool :=
  match (db.connections type).find? (·.id = connectionId) with
  | none => false
  | some row =>
    if row.workspace ≠ user.workspace then false
    else
      let access := getWorkspaceAccess db user
      let ids := access.connectionIds type
      access.canManage || connectionId ∈ ids ||
        (type = .database && (given row.profileParentId).any (· ∈ ids))

end

end ImApp.WorkspaceAccess
