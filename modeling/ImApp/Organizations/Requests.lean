import ImApp.Library.ParentForest
import ImApp.Library.StepSystem

/-!
The administration of one organization. A request checks that the caller is an
administrator, reads what its change depends on, and writes; each read and each
write is one statement or one transaction, and the steps of different requests
mix. An invitation is accepted in one transaction.
-/

namespace ImApp.Organizations

open ParentForest StepSystem

abbrev UserID := Nat

abbrev ProjectID := Nat

abbrev GrantID := Nat

abbrev ResourceID := Nat

abbrev InvitationID := Nat

inductive Role where
  | admin
  | member
  deriving DecidableEq

structure Member where
  user : UserID
  role : Role

abbrev Project := Node ProjectID

inductive Grantee where
  | user (id : UserID)
  | project (id : ProjectID)
  deriving DecidableEq

structure Grant where
  id : GrantID
  grantee : Grantee
  resource : ResourceID

structure InvitationPolicy where
  maxUses : Option Nat
  usedCount : Nat
  revoked : Bool
  project : Option ProjectID

/-- Old invitations have no policy and are for one use. -/
structure Invitation where
  id : InvitationID
  expiresAt : Nat
  accepted : Bool
  policy : Option InvitationPolicy

/-- All users are active. `nextID` stands for the ids not drawn yet. -/
structure Organization where
  members : List Member
  projects : List Project
  projectMembers : List (ProjectID × UserID)
  grants : List Grant
  invitations : List Invitation
  resources : List ResourceID
  nextID : Nat

variable (org : Organization)

/-- `membership` -/
def memberRole (user : UserID) : Option Role :=
  (org.members.find? fun m => m.user = user).map Member.role

def activeAdministratorCount : Nat := org.members.countP fun m => m.role = .admin

def projectBelongsToOrganization (project : ProjectID) : Bool := project ∈ ids org.projects

def projectSubtreeIds (projects : List Project) (root : ProjectID) : List ProjectID :=
  subtree projects root

inductive Request where
  | changeRole (user : UserID) (role : Role)
  | removeMember (user : UserID)
  | createProject (parent : Option ProjectID)
  | moveProject (project : ProjectID) (parent : Option ProjectID)
  | deleteProject (project : ProjectID)
  | addProjectMember (project : ProjectID) (user : UserID)
  | removeProjectMember (project : ProjectID) (user : UserID)
  | createGrants (grantee : Grantee) (resources : List ResourceID)
  | deleteGrant (grant : GrantID)
  | createInvitation (expiresAt : Nat) (maxUses : Option Nat) (project : Option ProjectID)
  | revokeInvitation (invitation : InvitationID)

/-- What a handler does next: look up the thing, count the administrators, read the
projects, look up the member, or write. `erasing` holds the projects that a
deletion has read. -/
inductive Stage where
  | find
  | count
  | rows
  | lookup
  | ready
  | erasing (projects : List ProjectID)

def firstStage : Request → Stage
  | .createProject none => .ready
  | .createGrants _ _ => .ready
  | .createInvitation _ _ none => .ready
  | _ => .find

def countStage : Option Stage := if activeAdministratorCount org ≤ 1 then none else some .ready

/-- One read of a handler, after which it goes on or refuses. -/
def nextStage : Request → Stage → Option Stage
  | .changeRole user role, .find => (memberRole org user).map fun current =>
    if current = .admin ∧ role = .member then .count else .ready
  | .changeRole _ _, .count => countStage org
  | .removeMember user, .find => (memberRole org user).map fun current =>
    if current = .admin then .count else .ready
  | .removeMember _, .count => countStage org
  | .createProject (some parent), .find =>
    if projectBelongsToOrganization org parent then some .ready else none
  | .moveProject project _, .find =>
    if projectBelongsToOrganization org project then some .rows else none
  | .moveProject _ none, .rows => some .ready
  | .moveProject project (some parent), .rows => if parent ∉ ids org.projects then none
    else if parent ∈ projectSubtreeIds org.projects project then none else some .ready
  | .deleteProject project, .find =>
    if projectBelongsToOrganization org project then some .rows else none
  | .deleteProject project, .rows => some (.erasing (projectSubtreeIds org.projects project))
  | .addProjectMember project _, .find =>
    if projectBelongsToOrganization org project then some .lookup else none
  | .addProjectMember _ user, .lookup => if (memberRole org user).isSome then some .ready else none
  | .removeProjectMember project _, .find =>
    if projectBelongsToOrganization org project then some .ready else none
  | .deleteGrant grant, .find => if org.grants.any (·.id = grant) then some .ready else none
  | .createInvitation _ _ (some project), .find =>
    if projectBelongsToOrganization org project then some .ready else none
  | .revokeInvitation invitation, .find =>
    if org.invitations.any (·.id = invitation) then some .ready else none
  | _, _ => none

def setRole (user : UserID) (role : Role) : Organization :=
  { org with members := org.members.map fun m => if m.user = user then { m with role := role } else m }

def removeMember (user : UserID) : Organization :=
  { org with
    projectMembers := org.projectMembers.filter fun pm => pm.2 ≠ user
    grants := org.grants.filter fun g => g.grantee ≠ .user user
    members := org.members.filter fun m => m.user ≠ user }

/-- The foreign key on the parent. -/
def parentExists (parent : Option ProjectID) : Bool := parent.all fun p => p ∈ ids org.projects

def insertProject (parent : Option ProjectID) : Organization :=
  if parentExists org parent then
    { org with projects := org.projects ++ [⟨org.nextID, parent⟩], nextID := org.nextID + 1 }
  else org

def moveProject (project : ProjectID) (parent : Option ProjectID) : Organization :=
  if parentExists org parent then { org with projects := setParent org.projects project parent }
  else org

/-- What goes with a deleted project: the foreign key removes its subtree. -/
def cascade (projects : List ProjectID) : List ProjectID :=
  projects.flatMap (projectSubtreeIds org.projects)

def forgetProjects (projects : List ProjectID) (invitation : Invitation) : Invitation :=
  { invitation with
    policy := invitation.policy.map fun policy =>
      { policy with project := policy.project.filter fun p => p ∉ projects } }

def eraseProjects (projects : List ProjectID) : Organization :=
  { org with
    invitations := org.invitations.map (forgetProjects projects)
    grants := org.grants.filter fun g => !projects.any fun p => g.grantee = .project p
    projectMembers := org.projectMembers.filter fun pm =>
      pm.1 ∉ projects && pm.1 ∉ cascade org projects
    projects := org.projects.filter fun p => p.id ∉ cascade org projects }

/-- `INSERT OR IGNORE` with the foreign key on the project. -/
def addProjectMember (project : ProjectID) (user : UserID) : Organization :=
  if project ∉ ids org.projects ∨ (project, user) ∈ org.projectMembers then org
  else { org with projectMembers := org.projectMembers ++ [(project, user)] }

def removeProjectMember (project : ProjectID) (user : UserID) : Organization :=
  { org with projectMembers := org.projectMembers.filter fun pm => pm ≠ (project, user) }

def validGrantee : Grantee → Bool
  | .user user => (memberRole org user).isSome
  | .project project => projectBelongsToOrganization org project

/-- The transaction of a grant request, which is refused as a whole. -/
def createGrants (grantee : Grantee) (resources : List ResourceID) : Organization :=
  if resources.all (· ∈ org.resources) && validGrantee org grantee && resources.Nodup &&
      !org.grants.any (fun g => g.grantee = grantee && g.resource ∈ resources) then
    { org with
      grants := org.grants ++ resources.zipIdx.map fun (resource, index) =>
        ⟨org.nextID + index, grantee, resource⟩
      nextID := org.nextID + resources.length }
  else org

def deleteGrant (grant : GrantID) : Organization :=
  { org with grants := org.grants.filter fun g => g.id ≠ grant }

def createInvitation (expiresAt : Nat) (maxUses : Option Nat) (project : Option ProjectID) :
    Organization :=
  { org with
    invitations := org.invitations ++ [⟨org.nextID, expiresAt, false, some ⟨maxUses, 0, false, project⟩⟩]
    nextID := org.nextID + 1 }

/-- An old invitation gets a policy when it is revoked. -/
def revokeInvitation (invitation : InvitationID) : Organization :=
  { org with
    invitations := org.invitations.map fun row =>
      if row.id = invitation then
        { row with
          policy := some (match row.policy with
            | some policy => { policy with revoked := true }
            | none => ⟨some 1, if row.accepted then 1 else 0, true, none⟩) }
      else row }

def write : Request → Stage → Organization
  | .changeRole user role, .ready => setRole org user role
  | .removeMember user, .ready => removeMember org user
  | .createProject parent, .ready => insertProject org parent
  | .moveProject project parent, .ready => moveProject org project parent
  | .deleteProject _, .erasing projects => eraseProjects org projects
  | .addProjectMember project user, .ready => addProjectMember org project user
  | .removeProjectMember project user, .ready => removeProjectMember org project user
  | .createGrants grantee resources, .ready => createGrants org grantee resources
  | .deleteGrant grant, .ready => deleteGrant org grant
  | .createInvitation expiresAt maxUses project, .ready =>
    createInvitation org expiresAt maxUses project
  | .revokeInvitation invitation, .ready => revokeInvitation org invitation
  | _, _ => org

def Invitation.project (invitation : Invitation) : Option ProjectID :=
  (invitation.policy.bind InvitationPolicy.project).filter fun p => p ∈ ids org.projects

def Invitation.active (invitation : Invitation) (now : Nat) : Bool :=
  match invitation.policy with
  | some policy => !policy.revoked && now < invitation.expiresAt &&
      policy.maxUses.all fun uses => policy.usedCount < uses
  | none => now < invitation.expiresAt && !invitation.accepted

def Invitation.reserve (invitation : Invitation) : Invitation :=
  match invitation.policy with
  | some policy => { invitation with policy := some { policy with usedCount := policy.usedCount + 1 } }
  | none => { invitation with accepted := true }

def joinOrganization (user : UserID) : Organization :=
  if (memberRole org user).isSome then org
  else { org with members := org.members ++ [⟨user, .member⟩] }

def joinProject (user : UserID) : Option ProjectID → Organization
  | some project => { org with projectMembers := org.projectMembers ++ [(project, user)] }
  | none => org

/-- The transaction of an acceptance. -/
def acceptInvitation (now : Nat) (user : UserID) (id : InvitationID) : Organization :=
  match org.invitations.find? fun invitation => invitation.id = id with
  | none => org
  | some invitation =>
    let project := invitation.project org
    let joined := project.any fun p => (p, user) ∈ org.projectMembers
    if (memberRole org user).isSome && project.isNone then org
    else if joined || !invitation.active now then org
    else
      let reserved := { org with
        invitations := org.invitations.map fun row =>
          if row.id = id then row.reserve else row }
      joinProject (joinOrganization reserved user) user project

structure Call where
  request : Request
  stage : Stage

structure State where
  org : Organization
  now : Nat
  calls : Nat → Option Call

inductive Action where
  | begin (id : Nat) (caller : UserID) (request : Request)
  | advance (id : Nat)
  | abandon (id : Nat)
  | accept (user : UserID) (invitation : InvitationID)
  | tick (duration : Nat)

def Stage.writes : Stage → Bool
  | .ready | .erasing _ => true
  | _ => false

variable (s : State)

def setCall (id : Nat) (call : Option Call) : State :=
  { s with calls := Function.update s.calls id call }

/-- `requireOrganizationAdmin` -/
def begin (id : Nat) (caller : UserID) (request : Request) : Option State :=
  if s.calls id = none then
    if memberRole s.org caller = some .admin then
      some (setCall s id (some ⟨request, firstStage request⟩))
    else some s
  else none

/-- The next statement of a handler. -/
def advance (id : Nat) : Option State :=
  (s.calls id).map fun call =>
    if call.stage.writes then
      { setCall s id none with org := write s.org call.request call.stage }
    else
      setCall s id ((nextStage s.org call.request call.stage).map fun stage => { call with stage := stage })

/-- A statement fails, or the server stops. -/
def abandon (id : Nat) : State := setCall s id none

def step : Action → Option State
  | .begin id caller request => begin s id caller request
  | .advance id => advance s id
  | .abandon id => some (abandon s id)
  | .accept user invitation => some { s with org := acceptInvitation s.org s.now user invitation }
  | .tick duration => some { s with now := s.now + duration }

/-- An organization that its first administrator has just created. -/
structure Initial : Prop where
  creator : ∃ user, s.org.members = [⟨user, .admin⟩]
  projects : s.org.projects = []
  projectMembers : s.org.projectMembers = []
  grants : s.org.grants = []
  invitations : s.org.invitations = []
  calls : ∀ id, s.calls id = none

def machine : Machine State Action where
  initial := Initial
  step := step

end ImApp.Organizations
