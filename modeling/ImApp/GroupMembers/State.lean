import ImApp.Library.InterleavedCalls
import ImApp.Library.KeyedTable
import Mathlib.Algebra.Order.Ring.Int

/-!
The tables of one group: its row, its members, its invitations and its join requests, with
the lock of its row; and what a transaction or a single statement writes to them.
-/

namespace ImApp.GroupMembers

/-- The settings of the server. -/
structure GroupRepo where
  GroupMemberHardLimit : ℤ
  GroupMemberMax : ℤ
  DefaultGroupMaxMembers : ℤ

structure PublishedGroupLimits where
  MaxGroupMembers : ℤ
  DefaultGroupMaxMembers : ℤ

def defaultGroupMemberCap : ℤ := 2000

def GroupRepo.hardGroupLimit (r : GroupRepo) : ℤ :=
  if r.GroupMemberHardLimit < 3 then 4000 else r.GroupMemberHardLimit

/-- From what the latest published configuration says, the cap where it says nothing. -/
def GroupRepo.publishedGroupLimits (r : GroupRepo) (published : PublishedGroupLimits) :
    PublishedGroupLimits :=
  let largest := if 0 < r.GroupMemberMax then r.GroupMemberMax else published.MaxGroupMembers
  let preset :=
    if 0 < r.DefaultGroupMaxMembers then r.DefaultGroupMaxMembers else published.DefaultGroupMaxMembers
  let largest := if largest < 3 ∨ r.hardGroupLimit < largest then r.hardGroupLimit else largest
  let preset :=
    if preset < 3 then if largest < defaultGroupMemberCap then largest else defaultGroupMemberCap
    else preset
  ⟨largest, if largest < preset then largest else preset⟩

def GroupRepo.effectiveGroupLimit (r : GroupRepo) (limits : PublishedGroupLimits) (configured : ℤ) : ℤ :=
  let effective := if configured < 3 then limits.DefaultGroupMaxMembers else configured
  let effective := if limits.MaxGroupMembers < effective then limits.MaxGroupMembers else effective
  if r.hardGroupLimit < effective then r.hardGroupLimit else effective

variable {r : GroupRepo} {configured : ℤ}

theorem hardGroupLimit_large : 3 ≤ r.hardGroupLimit := by
  unfold GroupRepo.hardGroupLimit
  split <;> omega

theorem publishedGroupLimits_ordered (r : GroupRepo) (published : PublishedGroupLimits) :
    3 ≤ (r.publishedGroupLimits published).DefaultGroupMaxMembers ∧
      (r.publishedGroupLimits published).DefaultGroupMaxMembers ≤
        (r.publishedGroupLimits published).MaxGroupMembers ∧
      (r.publishedGroupLimits published).MaxGroupMembers ≤ r.hardGroupLimit := by
  have hhard : 3 ≤ r.hardGroupLimit := hardGroupLimit_large
  unfold GroupRepo.publishedGroupLimits defaultGroupMemberCap
  dsimp only
  refine ⟨?_, ?_, ?_⟩
  · split_ifs <;> omega
  · split_ifs <;> omega
  split_ifs <;> omega

/-- The effective limit of a group is the least of its own, the published and the hard one. -/
theorem effectiveGroupLimit_least (r : GroupRepo) (limits : PublishedGroupLimits) (h : 3 ≤ configured) :
    r.effectiveGroupLimit limits configured ≤ configured ∧
      r.effectiveGroupLimit limits configured ≤ limits.MaxGroupMembers ∧
        r.effectiveGroupLimit limits configured ≤ r.hardGroupLimit := by
  unfold GroupRepo.effectiveGroupLimit
  dsimp only
  refine ⟨?_, ?_, ?_⟩
  · split_ifs <;> omega
  · split_ifs <;> omega
  split_ifs <;> omega

inductive Role where
  | owner
  | admin
  | member
  deriving DecidableEq

inductive JoinMode where
  | anyone
  | approval
  deriving DecidableEq

inductive GroupStatus where
  | active
  | dismissed
  deriving DecidableEq

/-- The row of `groups`. -/
structure Group where
  status : GroupStatus
  joinMode : JoinMode
  maxMembers : ℤ

/-- A row of `group_members`. -/
structure Member where
  user : String
  role : Role

abbrev Members := KeyedTable Member.user

/-- A row of `group_invitations`, with the role in which its inviter was let invite. -/
structure Invitation where
  token : ℕ
  invitee : String
  invitedBy : Role
  accepted : Bool

inductive RequestStatus where
  | pending
  | approved
  | rejected
  deriving DecidableEq

/-- A row of `group_join_requests`. -/
structure JoinRequest where
  id : ℕ
  user : String
  status : RequestStatus

/-- What a request to become a member rests on. -/
inductive Origin where
  | create
  | invite
  | join
  | qrCode
  | invitation (token : ℕ)
  | request (id : ℕ)
  deriving DecidableEq

/-- An admission as its transaction commits: the number of members it leaves and the
limits it has read, the mode of the group, the role of whoever invited, whether the
invitation it rests on is pending and whether its join request is rejected. -/
structure Admission where
  origin : Origin
  count : ℕ
  own : ℤ
  published : ℤ
  hard : ℤ
  joinMode : JoinMode
  invitedBy : Option Role
  pending : Bool
  rejected : Bool

/-- A removal as it commits: the role of the member, and for a kick the role of whoever
kicks, if he is a member at all. -/
structure Removal where
  role : Role
  kickedBy : Option (Option Role)
  deriving DecidableEq

/-- The tables, the request that holds the row of the group, and the history: admissions,
removals, and the invitations whose acceptance has run its course. -/
structure GroupData where
  published : PublishedGroupLimits
  group : Option Group
  members : Members
  invitations : List Invitation
  requests : List JoinRequest
  lock : Option ℕ
  admissions : List Admission
  removals : List Removal
  spent : List ℕ

def GroupData.roleOf (d : GroupData) (user : String) : Option Role :=
  (d.members.rows.find? fun m => m.user = user).map Member.role

def GroupData.isMember (d : GroupData) (user : String) : Bool :=
  d.members.rows.any fun m => m.user = user

/-- The ids that are not in `seen`, each once. -/
def unseen (seen : List String) : List String → List String
  | [] => []
  | id :: rest => if id ∈ seen then unseen seen rest else id :: unseen (id :: seen) rest

/-- What a request writes when a statement or its transaction takes effect. -/
inductive Write where
  | nothing
  | take
  | release
  | create (owner : String) (memberIds : List String) (limits : PublishedGroupLimits)
  | add (origin : Origin) (user : String) (configured : ℤ) (limits : PublishedGroupLimits)
  | present (origin : Origin)
  | invite (role : Role) (direct verify : List String) (configured : ℤ) (limits : PublishedGroupLimits)
  | spend (token : ℕ)
  | file (token : Option ℕ) (user : String)
  | accept (token : ℕ)
  | approve (id : ℕ)
  | reject (id : ℕ)
  | delete (target : String) (kickedBy : Option String)
  | setRole (target : String) (role : Role)
  | setJoinMode (mode : JoinMode)
  | setMaxMembers (limit : ℤ)
  | dismiss

/-- The invitation that a request used up. -/
def Origin.token? : Origin → Option ℕ
  | .invitation token => some token
  | _ => none

def setRole (role : Role) : KeyedTable.Edit Member.user where
  apply := fun m => { m with role := role }
  key_apply := fun _ => rfl

/-- `INSERT ... ON CONFLICT DO NOTHING` for each id, with the role of a member. -/
def GroupData.addMembers (d : GroupData) (users : List String) : Members :=
  d.members.insertAll (users.map fun user => ⟨user, .member⟩)

def founders (owner : String) (memberIds : List String) : Members :=
  (KeyedTable.empty.insert ⟨owner, .owner⟩).insertAll
    ((unseen [owner] memberIds).map fun user => ⟨user, .member⟩)

/-- Who invited, where the origin names somebody. -/
def GroupData.invitedBy (d : GroupData) : Origin → Option Role
  | .invitation token => (d.invitations.find? fun i => i.token = token).map Invitation.invitedBy
  | _ => none

/-- The admission record of a commit. -/
def GroupData.admission (r : GroupRepo) (d : GroupData) (origin : Origin) (invitedBy : Option Role)
    (members : Members) (configured : ℤ) (limits : PublishedGroupLimits) : Admission where
  origin := origin
  count := members.size
  own := configured
  published := limits.MaxGroupMembers
  hard := r.hardGroupLimit
  joinMode := (d.group.map Group.joinMode).getD .anyone
  invitedBy := invitedBy
  pending := d.invitations.any fun i => origin = .invitation i.token && !i.accepted
  rejected := d.requests.any fun q => origin = .request q.id && q.status = .rejected

def newInvitations (role : Role) (first : ℕ) : List String → List Invitation
  | [] => []
  | user :: rest => ⟨first, user, role, false⟩ :: newInvitations role (first + 1) rest

theorem mem_newInvitations {role : Role} {first : ℕ} {users : List String} {i : Invitation}
    (h : i ∈ newInvitations role first users) : i.invitedBy = role ∧ i.accepted = false := by
  induction users generalizing first with
  | nil => cases h
  | cons user rest ih =>
    rcases List.mem_cons.mp h with rfl | hrest
    · exact ⟨rfl, rfl⟩
    exact ih hrest

/-- A new join request, unless the user has a pending one. -/
def fileRequest (requests : List JoinRequest) (user : String) : List JoinRequest :=
  if requests.any fun q => q.user = user && q.status = .pending then requests
  else requests ++ [⟨requests.length, user, .pending⟩]

def setStatus (status : RequestStatus) (id : ℕ) (requests : List JoinRequest) : List JoinRequest :=
  requests.map fun q => if q.id = id ∧ q.status = .pending then { q with status := status } else q

def GroupData.setGroup (d : GroupData) (f : Group → Group) : GroupData := { d with group := d.group.map f }

/-- The effect of a write by the request `id`. -/
def GroupData.write (r : GroupRepo) (id : ℕ) (d : GroupData) : Write → GroupData
  | .nothing => d
  | .take => { d with lock := some id }
  | .release => { d with lock := none }
  | .create owner memberIds limits =>
    if d.group.isSome then d
    else
      let created : GroupData := { d with
        group := some ⟨.active, .anyone, limits.DefaultGroupMaxMembers⟩
        members := founders owner memberIds }
      { created with admissions :=
          created.admission r .create none created.members limits.DefaultGroupMaxMembers limits ::
            d.admissions }
  | .add origin user configured limits =>
    { d with
      members := d.addMembers [user]
      lock := none
      spent := origin.token?.toList ++ d.spent
      admissions := d.admission r origin (d.invitedBy origin) (d.addMembers [user]) configured limits ::
        d.admissions }
  | .present origin => { d with lock := none, spent := origin.token?.toList ++ d.spent }
  | .invite role direct verify configured limits =>
    { d with
      members := d.addMembers direct
      invitations := d.invitations ++ newInvitations role d.invitations.length verify
      lock := none
      admissions := if direct = [] then d.admissions
        else d.admission r .invite (some role) (d.addMembers direct) configured limits :: d.admissions }
  | .spend token => { d with spent := token :: d.spent }
  | .file token user =>
    { d with requests := fileRequest d.requests user, spent := token.toList ++ d.spent }
  | .accept token =>
    { d with invitations := d.invitations.map fun i =>
        if i.token = token then { i with accepted := true } else i }
  | .approve request => { d with requests := setStatus .approved request d.requests }
  | .reject request => { d with requests := setStatus .rejected request d.requests }
  | .delete target kickedBy =>
    { d with
      members := d.members.delete fun m => m.user = target
      removals := match d.roleOf target with
        | some role => ⟨role, kickedBy.map d.roleOf⟩ :: d.removals
        | none => d.removals }
  | .setRole target role => { d with members := d.members.update (fun m => m.user = target) (setRole role) }
  | .setJoinMode mode => d.setGroup fun g => { g with joinMode := mode }
  | .setMaxMembers limit => d.setGroup fun g => { g with maxMembers := limit }
  | .dismiss => d.setGroup fun g => { g with status := .dismissed }

end ImApp.GroupMembers
