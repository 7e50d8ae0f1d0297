import ImApp.GroupMembers.State

/-!
The requests of one group, statement by statement. A transaction that locks the row of the
group holds the lock from that statement to its commit; what it writes shows only then, so
its last statement carries the writes. Other transactions write without the lock.
-/

namespace ImApp.GroupMembers

open InterleavedCalls

/-- What `InviteMembers` has read: the role of the caller, the number of members, the limit
of the group and the users to be added at once and to be asked first. -/
structure Invite where
  role : Role
  memberCount : ℕ
  configured : ℤ
  directIDs : List String
  verifyIDs : List String

/-- A request by the statement it is about to run. -/
inductive GroupCall where
  | create (owner : String) (memberIds : List String)
  | creating (owner : String) (memberIds : List String) (limits : PublishedGroupLimits)
  | adding (origin : Origin) (user : String)
  | locked (origin : Origin) (user : String) (joinMode : JoinMode) (configured : ℤ)
  | counting (origin : Origin) (user : String) (configured : ℤ)
  | limiting (origin : Origin) (user : String) (configured : ℤ) (count : ℕ)
  | inserting (origin : Origin) (user : String) (configured : ℤ) (limits : PublishedGroupLimits)
  | joinByQRCode (user : String)
  | resolved (user : String) (joinMode : JoinMode)
  | createJoinRequest (token : Option ℕ) (user : String)
  | filing (token : Option ℕ) (user : String)
  | inviteMembers (actor : String) (ids : List String)
  | selectingGroup (actor : String) (role : Role) (ids : List String)
  | lockingGroup (actor : String) (role : Role) (ids : List String) (memberCount : ℕ)
  | inviting (invite : Invite) (seen ids : List String)
  | asking (invite : Invite) (limits : PublishedGroupLimits) (remaining asked : List String)
  | acceptInvitation (user : String) (token : ℕ)
  | accepting (user : String) (token : ℕ)
  | acceptingInto (user : String) (token : ℕ)
  | markAccepted (token : ℕ)
  | approveJoinRequest (manager : String) (id : ℕ)
  | approving (id : ℕ)
  | markApproved (id : ℕ)
  | rejectJoinRequest (manager : String) (id : ℕ)
  | rejecting (id : ℕ)
  | removeMember (actor target : String)
  | readTarget (actor : String) (role : Role) (target : String)
  | removeMembership (target : String) (kicker : Option (String × Role))
  | deleting (target : String) (kicker : Option (String × Role))
  | updateMemberRole (operator target : String) (role : Role)
  | updatingRole (target : String) (role : Role)
  | updateSettings (actor : String) (mode : JoinMode)
  | updatingSettings (mode : JoinMode)
  | updateMemberLimit (limit : ℤ)
  | dismiss (operator : Option String)

/-- The reply to a statement. A commit can take effect with its answer lost; for a user to
be invited the reply says whether he is an active friend and wants to be asked. -/
inductive Answer where
  | answered
  | failed
  | unanswered
  | invitee (eligible needVerify : Bool)
  deriving DecidableEq

abbrev Outcome := Write × Option GroupCall

/-- A request that ends without an effect. -/
def refused : Outcome := (.nothing, none)

/-- A transaction that ends without a write and gives the lock back. -/
def rolledBack : Outcome := (.release, none)

/-- `role != "owner" && role != "admin"` is forbidden. -/
def Role.manages : Role → Bool
  | .owner | .admin => true
  | .member => false

/-- What the caller of `addMember` does next. -/
def afterAdmission : Origin → Option GroupCall
  | .invitation token => some (.markAccepted token)
  | .request id => some (.markApproved id)
  | _ => none

section Handlers

variable (r : GroupRepo) (d : GroupData) (answer : Answer)

/-- The limit and the form of a new group. Ids that repeat are not all found as users. -/
def Create (owner : String) (memberIds : List String) : Outcome :=
  let limits := r.publishedGroupLimits d.published
  if answer = .failed ∨ ¬ memberIds.Nodup ∨
      limits.DefaultGroupMaxMembers < 1 + (unseen [owner] memberIds).length then refused
  else (.nothing, some (.creating owner memberIds limits))

/-- The row of the group, locked. -/
def addMember (origin : Origin) (user : String) : Option Outcome :=
  if answer = .failed then some refused
  else if d.lock ≠ none then none
  else
    match d.group with
    | none => some refused
    | some g =>
      if g.status = .active then some (.take, some (.locked origin user g.joinMode g.maxMembers))
      else some refused

def addMemberChecked (origin : Origin) (user : String) (joinMode : JoinMode) (configured : ℤ) : Outcome :=
  if answer = .failed then rolledBack
  else if d.isMember user then
    (.present origin, if answer = .unanswered then none else afterAdmission origin)
  else if origin = .join ∧ joinMode = .approval then rolledBack
  else (.nothing, some (.counting origin user configured))

def addMemberCounted (origin : Origin) (user : String) (configured : ℤ) : Outcome :=
  if answer = .failed then rolledBack
  else (.nothing, some (.limiting origin user configured d.members.size))

def addMemberLimited (origin : Origin) (user : String) (configured : ℤ) (count : ℕ) : Outcome :=
  let limits := r.publishedGroupLimits d.published
  if answer = .failed ∨ r.effectiveGroupLimit limits configured ≤ count then rolledBack
  else (.nothing, some (.inserting origin user configured limits))

def addMemberInserted (origin : Origin) (user : String) (configured : ℤ) (limits : PublishedGroupLimits) :
    Outcome :=
  if answer = .failed then rolledBack
  else
    (.add origin user configured limits,
      if answer = .unanswered then none else afterAdmission origin)

/-- `ResolveQRCode`, of a code that is valid. -/
def JoinByQRCode (user : String) : Outcome :=
  match d.group with
  | none => refused
  | some g =>
    if answer = .failed ∨ g.status ≠ .active then refused
    else (.nothing, some (.resolved user g.joinMode))

/-- A failed check for membership counts as no. -/
def JoinByQRCodeResolved (user : String) (joinMode : JoinMode) : Outcome :=
  if answer ≠ .failed ∧ d.isMember user = true then refused
  else if joinMode = .approval then (.nothing, some (.createJoinRequest none user))
  else (.nothing, some (.adding .qrCode user))

/-- For the acceptance of an invitation a user who is a member already counts as done. -/
def CreateJoinRequest (token : Option ℕ) (user : String) : Outcome :=
  match d.group with
  | none => refused
  | some g =>
    if answer = .failed ∨ g.status ≠ .active then refused
    else if d.isMember user then
      match token with
      | some token => (.spend token, some (.markAccepted token))
      | none => refused
    else if g.joinMode ≠ .approval then refused
    else (.nothing, some (.filing token user))

def CreateJoinRequestFiled (token : Option ℕ) (user : String) : Outcome :=
  if answer = .failed then refused
  else (.file token user, if answer = .unanswered then none else token.map .markAccepted)

/-- The role of a caller who has to manage the group. -/
def asManager (user : String) (next : Role → GroupCall) : Outcome :=
  match d.roleOf user with
  | none => refused
  | some role => if answer = .failed ∨ role.manages = false then refused else (.nothing, some (next role))

def InviteMembers (actor : String) (ids : List String) : Outcome :=
  asManager d answer actor fun role => .selectingGroup actor role ids

/-- The members are counted in the statement that asks for the lock, as it starts. -/
def InviteMembersSelected (actor : String) (role : Role) (ids : List String) : Outcome :=
  if answer = .failed ∨ d.group = none then refused
  else (.nothing, some (.lockingGroup actor role ids d.members.size))

def InviteMembersLocked (actor : String) (role : Role) (ids : List String) (memberCount : ℕ) :
    Option Outcome :=
  if answer = .failed then some refused
  else if d.lock ≠ none then none
  else
    match d.group with
    | none => some refused
    | some g =>
      if g.status = .active then
        some (.take, some (.inviting ⟨role, memberCount, g.maxMembers, [], []⟩ [actor] ids))
      else some refused

/-- The next user, or the limit once all have been looked at. -/
def InviteMembersChecked (invite : Invite) (seen : List String) : List String → Outcome
  | [] => let limits := r.publishedGroupLimits d.published
    if answer = .failed ∨
        r.effectiveGroupLimit limits invite.configured < invite.memberCount + invite.directIDs.length then
      rolledBack
    else (.nothing, some (.asking invite limits invite.verifyIDs []))
  | id :: rest =>
    if id = "" ∨ id ∈ seen then (.nothing, some (.inviting invite seen rest))
    else
      match answer with
      | .invitee eligible needVerify =>
        let looked :=
          if eligible = false ∨ d.isMember id = true then invite
          else if needVerify then { invite with verifyIDs := invite.verifyIDs ++ [id] }
          else { invite with directIDs := invite.directIDs ++ [id] }
        (.nothing, some (.inviting looked (id :: seen) rest))
      | _ => rolledBack

/-- The next user to be asked, who may have a pending invitation; then the commit. -/
def InviteMembersAsked (invite : Invite) (limits : PublishedGroupLimits) (asked : List String) :
    List String → Outcome
  | [] => if answer = .failed then rolledBack
    else (.invite invite.role invite.directIDs asked invite.configured limits, none)
  | id :: rest => if answer = .failed then rolledBack
    else if d.invitations.any fun i => i.invitee = id && !i.accepted then
      (.nothing, some (.asking invite limits rest asked))
    else (.nothing, some (.asking invite limits rest (asked ++ [id])))

/-- The invitation; its status is read and not looked at. -/
def AcceptInvitation (user : String) (token : ℕ) : Outcome :=
  if answer = .failed then refused
  else if d.invitations.any fun i => i.token = token && i.invitee = user then
    (.nothing, some (.accepting user token))
  else refused

def AcceptInvitationChecked (user : String) (token : ℕ) : Outcome :=
  if answer = .failed ∨ d.isMember user = true then refused
  else (.nothing, some (.acceptingInto user token))

def AcceptInvitationInto (user : String) (token : ℕ) : Outcome :=
  match d.group with
  | none => refused
  | some g =>
    if answer = .failed ∨ g.status ≠ .active then refused
    else if g.joinMode = .approval then (.nothing, some (.createJoinRequest (some token) user))
    else (.nothing, some (.adding (.invitation token) user))

def ApproveJoinRequest (id : ℕ) : Outcome :=
  match d.requests.find? fun q => q.id = id && q.status = .pending with
  | none => refused
  | some q => if answer = .failed then refused else (.nothing, some (.adding (.request id) q.user))

def RemoveMember (actor target : String) : Outcome :=
  match d.roleOf actor with
  | none => refused
  | some role => if answer = .failed then refused else (.nothing, some (.readTarget actor role target))

def RemoveMemberChecked (actor : String) (role : Role) (target : String) : Outcome :=
  match d.roleOf target with
  | none => refused
  | some targetRole =>
    if answer = .failed ∨ targetRole = .owner ∨ role.manages = false ∨
        (role = .admin ∧ targetRole = .admin) then refused
    else (.nothing, some (.removeMembership target (some (actor, role))))

def removeMembership (target : String) (kicker : Option (String × Role)) : Outcome :=
  match d.roleOf target with
  | none => refused
  | some role =>
    if answer = .failed ∨ role = .owner then refused else (.nothing, some (.deleting target kicker))

def UpdateMemberRole (operator target : String) (role : Role) : Outcome :=
  match d.group, d.roleOf operator, d.roleOf target with
  | some g, some operatorRole, some currentRole =>
    if answer = .failed ∨ role = .owner ∨ g.status ≠ .active ∨ operatorRole ≠ .owner ∨
        currentRole = .owner ∨ operator = target ∨ currentRole = role then refused
    else (.nothing, some (.updatingRole target role))
  | _, _, _ => refused

/-- A statement that runs once it has the lock, for a group that it accepts. -/
def withLock (accepts : Group → Bool) (write : Write) : Option Outcome :=
  if answer = .failed then some refused
  else if d.lock ≠ none then none
  else
    match d.group with
    | none => some refused
    | some g => if accepts g then some (write, none) else some refused

def UpdateMemberLimitByAdmin (limit : ℤ) : Option Outcome :=
  let limits := r.publishedGroupLimits d.published
  withLock d answer (fun _ => 3 ≤ limit && limit ≤ limits.MaxGroupMembers && limit ≤ r.hardGroupLimit)
    (.setMaxMembers limit)

/-- `Dismiss` by the owner, or by an administrator of the platform. -/
def Dismiss (operator : Option String) : Option Outcome :=
  withLock d answer (fun g => g.status = .active && (match operator with
      | some user => d.roleOf user = some .owner
      | none => true)) .dismiss

/-- A last write without the lock. -/
def finish (write : Write) : Outcome := if answer = .failed then refused else (write, none)

/-- The next statement of a request; nothing while it waits for the lock. -/
def advanceGroup : GroupCall → Option Outcome
  | .create owner memberIds => some (Create r d answer owner memberIds)
  | .creating owner memberIds limits => some (finish answer (.create owner memberIds limits))
  | .adding origin user => addMember d answer origin user
  | .locked origin user joinMode configured =>
    some (addMemberChecked d answer origin user joinMode configured)
  | .counting origin user configured => some (addMemberCounted d answer origin user configured)
  | .limiting origin user configured count =>
    some (addMemberLimited r d answer origin user configured count)
  | .inserting origin user configured limits =>
    some (addMemberInserted answer origin user configured limits)
  | .joinByQRCode user => some (JoinByQRCode d answer user)
  | .resolved user joinMode => some (JoinByQRCodeResolved d answer user joinMode)
  | .createJoinRequest token user => some (CreateJoinRequest d answer token user)
  | .filing token user => some (CreateJoinRequestFiled answer token user)
  | .inviteMembers actor ids => some (InviteMembers d answer actor ids)
  | .selectingGroup actor role ids => some (InviteMembersSelected d answer actor role ids)
  | .lockingGroup actor role ids memberCount => InviteMembersLocked d answer actor role ids memberCount
  | .inviting invite seen ids => some (InviteMembersChecked r d answer invite seen ids)
  | .asking invite limits remaining asked =>
    some (InviteMembersAsked d answer invite limits asked remaining)
  | .acceptInvitation user token => some (AcceptInvitation d answer user token)
  | .accepting user token => some (AcceptInvitationChecked d answer user token)
  | .acceptingInto user token => some (AcceptInvitationInto d answer user token)
  | .markAccepted token => some (finish answer (.accept token))
  | .approveJoinRequest manager id => some (asManager d answer manager fun _ => .approving id)
  | .approving id => some (ApproveJoinRequest d answer id)
  | .markApproved id => some (finish answer (.approve id))
  | .rejectJoinRequest manager id => some (asManager d answer manager fun _ => .rejecting id)
  | .rejecting id => some (finish answer (.reject id))
  | .removeMember actor target => some (RemoveMember d answer actor target)
  | .readTarget actor role target => some (RemoveMemberChecked d answer actor role target)
  | .removeMembership target kicker => some (removeMembership d answer target kicker)
  | .deleting target kicker => some (finish answer (.delete target (kicker.map Prod.fst)))
  | .updateMemberRole operator target role => some (UpdateMemberRole d answer operator target role)
  | .updatingRole target role => some (finish answer (.setRole target role))
  | .updateSettings actor mode => some (asManager d answer actor fun _ => .updatingSettings mode)
  | .updatingSettings mode => withLock d answer (fun g => g.status = .active) (.setJoinMode mode)
  | .updateMemberLimit limit => UpdateMemberLimitByAdmin r d answer limit
  | .dismiss operator => Dismiss d answer operator

end Handlers

def GroupCall.opens : GroupCall → Bool
  | .create _ _ | .adding .join _ | .joinByQRCode _ | .createJoinRequest none _ | .inviteMembers _ _
  | .acceptInvitation _ _ | .approveJoinRequest _ _ | .rejectJoinRequest _ _ | .removeMember _ _
  | .removeMembership _ none | .updateMemberRole _ _ _ | .updateSettings _ _ | .updateMemberLimit _
  | .dismiss _ => true
  | _ => false

/-- Requests to one group, which is created in the run, while configurations are published. -/
def groupService (r : GroupRepo) : Service GroupData GroupCall Answer PublishedGroupLimits where
  initial := fun d => d.group = none ∧ d.members = KeyedTable.empty ∧ d.invitations = [] ∧
    d.requests = [] ∧ d.lock = none ∧ d.admissions = [] ∧ d.removals = [] ∧ d.spent = []
  opens := GroupCall.opens
  advance := fun id d call answer =>
    (advanceGroup r d answer call).map fun outcome : Outcome => (d.write r id outcome.1, outcome.2)
  world := fun d published => some { d with published := published }

/-- A server with its defaults, and groups of three. -/
def groupsOfThree : GroupRepo := ⟨0, 0, 3⟩

/-- No group yet. -/
def noGroup : State GroupData GroupCall :=
  ⟨⟨⟨0, 0⟩, none, KeyedTable.empty, [], [], none, [], [], []⟩, fun _ => none⟩

theorem noGroup_initial : (groupService groupsOfThree).machine.initial noGroup :=
  ⟨⟨rfl, rfl, rfl, rfl, rfl, rfl, rfl, rfl⟩, fun _ => rfl⟩

/-- Alice creates a group with Bob. -/
def createActions : List (Action GroupCall Answer PublishedGroupLimits) :=
  [.start 1 (.create "alice" ["bob"]), .advance 1 .answered, .advance 1 .answered]

end ImApp.GroupMembers
