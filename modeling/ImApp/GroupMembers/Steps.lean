import ImApp.GroupMembers.Calls

/-!
What a request of the group can do in one step: stop, go on without a write, or write. All
invariants are read off these cases.
-/

namespace ImApp.GroupMembers

open InterleavedCalls List Option

/-- The statements that run under the lock of the group's row. -/
def GroupCall.locks : GroupCall → Bool
  | .locked _ _ _ _ | .counting _ _ _ | .limiting _ _ _ _ | .inserting _ _ _ _ | .inviting _ _ _
  | .asking _ _ _ _ => true
  | _ => false

/-- A statement that only reads, with what it has checked. -/
inductive Move (r : GroupRepo) (d : GroupData) : GroupCall → GroupCall → Prop
  | create (owner : String) (memberIds : List String)
      (hroom : 1 + ((unseen [owner] memberIds).length : ℤ) ≤
        (r.publishedGroupLimits d.published).DefaultGroupMaxMembers) :
      Move r d (.create owner memberIds) (.creating owner memberIds (r.publishedGroupLimits d.published))
  | absent (origin : Origin) (user : String) (joinMode : JoinMode) (configured : ℤ)
      (hmode : ¬ (origin = .join ∧ joinMode = .approval)) :
      Move r d (.locked origin user joinMode configured) (.counting origin user configured)
  | count (origin : Origin) (user : String) (configured : ℤ) :
      Move r d (.counting origin user configured) (.limiting origin user configured d.members.size)
  | limit (origin : Origin) (user : String) (configured : ℤ) (count : ℕ)
      (hroom : (count : ℤ) < r.effectiveGroupLimit (r.publishedGroupLimits d.published) configured) :
      Move r d (.limiting origin user configured count)
        (.inserting origin user configured (r.publishedGroupLimits d.published))
  | resolve (user : String) (g : Group) (hg : d.group = some g) :
      Move r d (.joinByQRCode user) (.resolved user g.joinMode)
  | apply (user : String) (joinMode : JoinMode) :
      Move r d (.resolved user joinMode) (.createJoinRequest none user)
  | join (user : String) (joinMode : JoinMode) : Move r d (.resolved user joinMode) (.adding .qrCode user)
  | file (token : Option ℕ) (user : String) :
      Move r d (.createJoinRequest token user) (.filing token user)
  | invite (actor : String) (role : Role) (ids : List String) (hrole : role.manages = true) :
      Move r d (.inviteMembers actor ids) (.selectingGroup actor role ids)
  | select (actor : String) (role : Role) (ids : List String) :
      Move r d (.selectingGroup actor role ids) (.lockingGroup actor role ids d.members.size)
  | look (invite looked : Invite) (seen seen' ids ids' : List String) (hrole : looked.role = invite.role)
      (hcount : looked.memberCount = invite.memberCount)
      (hconfigured : looked.configured = invite.configured) :
      Move r d (.inviting invite seen ids) (.inviting looked seen' ids')
  | room (invite : Invite) (seen : List String)
      (hroom : (invite.memberCount : ℤ) + invite.directIDs.length ≤
        r.effectiveGroupLimit (r.publishedGroupLimits d.published) invite.configured) :
      Move r d (.inviting invite seen [])
        (.asking invite (r.publishedGroupLimits d.published) invite.verifyIDs [])
  | ask (invite : Invite) (limits : PublishedGroupLimits) (remaining remaining' asked asked' : List String) :
      Move r d (.asking invite limits remaining asked) (.asking invite limits remaining' asked')
  | invited (user : String) (token : ℕ) (i : Invitation) (hi : i ∈ d.invitations) (htoken : i.token = token) :
      Move r d (.acceptInvitation user token) (.accepting user token)
  | accept (user : String) (token : ℕ) : Move r d (.accepting user token) (.acceptingInto user token)
  | acceptFile (user : String) (token : ℕ) :
      Move r d (.acceptingInto user token) (.createJoinRequest (some token) user)
  | acceptJoin (user : String) (token : ℕ) :
      Move r d (.acceptingInto user token) (.adding (.invitation token) user)
  | manageApproval (manager : String) (id : ℕ) : Move r d (.approveJoinRequest manager id) (.approving id)
  | approve (q : JoinRequest) (hq : q ∈ d.requests) (hpend : q.status = .pending) :
      Move r d (.approving q.id) (.adding (.request q.id) q.user)
  | manageRejection (manager : String) (id : ℕ) : Move r d (.rejectJoinRequest manager id) (.rejecting id)
  | readActor (actor target : String) (role : Role) (hrole : d.roleOf actor = some role) :
      Move r d (.removeMember actor target) (.readTarget actor role target)
  | kick (actor target : String) (role targetRole : Role) (htgt : d.roleOf target = some targetRole)
      (howner : targetRole ≠ .owner) (hrole : role.manages = true)
      (hadmin : ¬ (role = .admin ∧ targetRole = .admin)) :
      Move r d (.readTarget actor role target) (.removeMembership target (some (actor, role)))
  | remove (target : String) (kicker : Option (String × Role)) (role : Role)
      (hrole : d.roleOf target = some role) (howner : role ≠ .owner) :
      Move r d (.removeMembership target kicker) (.deleting target kicker)
  | changeRole (operator target : String) (role current : Role) (hrole : role ≠ .owner)
      (hcur : d.roleOf target = some current) (howner : current ≠ .owner) :
      Move r d (.updateMemberRole operator target role) (.updatingRole target role)
  | manageSettings (actor : String) (mode : JoinMode) :
      Move r d (.updateSettings actor mode) (.updatingSettings mode)

inductive Step (r : GroupRepo) (d : GroupData) : GroupCall → Write → Option GroupCall → Prop
  | stop (call : GroupCall) (hlocks : call.locks = false) : Step r d call .nothing none
  | rollBack (call : GroupCall) (hlocks : call.locks = true) : Step r d call .release none
  | move (call next : GroupCall) (h : Move r d call next) : Step r d call .nothing (some next)
  | create (owner : String) (memberIds : List String) (limits : PublishedGroupLimits) :
      Step r d (.creating owner memberIds limits) (.create owner memberIds limits) none
  | lock (origin : Origin) (user : String) (g : Group) (hfree : d.lock = none) (hg : d.group = some g) :
      Step r d (.adding origin user) .take (some (.locked origin user g.joinMode g.maxMembers))
  | present (origin : Origin) (user : String) (joinMode : JoinMode) (configured : ℤ)
      (next : Option GroupCall) (hnext : next = none ∨ next = afterAdmission origin) :
      Step r d (.locked origin user joinMode configured) (.present origin) next
  | add (origin : Origin) (user : String) (configured : ℤ) (limits : PublishedGroupLimits)
      (next : Option GroupCall) (hnext : next = none ∨ next = afterAdmission origin) :
      Step r d (.inserting origin user configured limits) (.add origin user configured limits) next
  | spend (token : ℕ) (user : String) :
      Step r d (.createJoinRequest (some token) user) (.spend token) (some (.markAccepted token))
  | file (token : Option ℕ) (user : String) (next : Option GroupCall)
      (hnext : next = none ∨ next = token.map .markAccepted) :
      Step r d (.filing token user) (.file token user) next
  | lockInvite (actor : String) (role : Role) (ids : List String) (memberCount : ℕ) (g : Group)
      (hfree : d.lock = none) (hg : d.group = some g) :
      Step r d (.lockingGroup actor role ids memberCount) .take
        (some (.inviting ⟨role, memberCount, g.maxMembers, [], []⟩ [actor] ids))
  | invite (invite : Invite) (limits : PublishedGroupLimits) (asked : List String) :
      Step r d (.asking invite limits [] asked)
        (.invite invite.role invite.directIDs asked invite.configured limits) none
  | accept (token : ℕ) : Step r d (.markAccepted token) (.accept token) none
  | approve (id : ℕ) : Step r d (.markApproved id) (.approve id) none
  | reject (id : ℕ) : Step r d (.rejecting id) (.reject id) none
  | delete (target : String) (kicker : Option (String × Role)) :
      Step r d (.deleting target kicker) (.delete target (kicker.map Prod.fst)) none
  | setRole (target : String) (role : Role) : Step r d (.updatingRole target role) (.setRole target role) none
  | setJoinMode (mode : JoinMode) (hfree : d.lock = none) :
      Step r d (.updatingSettings mode) (.setJoinMode mode) none
  | setMaxMembers (limit : ℤ) (hfree : d.lock = none) (hlimit : 3 ≤ limit) :
      Step r d (.updateMemberLimit limit) (.setMaxMembers limit) none
  | dismiss (operator : Option String) (hfree : d.lock = none) :
      Step r d (.dismiss operator) .dismiss none

variable {r : GroupRepo} {d : GroupData} {answer : Answer} {call : GroupCall} {write : Write}
  {next : Option GroupCall}

theorem asManager_step {user : String} {stage : Role → GroupCall} (hlocks : call.locks = false)
    (hmove : ∀ role, role.manages = true → Move r d call (stage role)) :
    Step r d call (asManager d answer user stage).1 (asManager d answer user stage).2 := by
  unfold asManager
  split
  · exact .stop call hlocks
  rename_i role _
  split
  · exact .stop call hlocks
  rename_i hmanages
  push Not at hmanages
  exact .move call _ (hmove role (by simpa using hmanages.2))

theorem finish_step (hlocks : call.locks = false) (h : Step r d call write none) :
    Step r d call (finish answer write).1 (finish answer write).2 := by
  unfold finish
  split
  · exact .stop call hlocks
  exact h

section Handlers

variable {origin : Origin} {user : String} {joinMode : JoinMode} {configured : ℤ} {count : ℕ}
  {limits : PublishedGroupLimits} {outcome : Outcome}

theorem addMember_step (h : addMember d answer origin user = some outcome) :
    Step r d (.adding origin user) outcome.1 outcome.2 := by
  unfold addMember at h
  split at h
  · cases h
    exact .stop _ rfl
  split at h
  · cases h
  rename_i hfree
  split at h
  · cases h
    exact .stop _ rfl
  rename_i g hg
  split at h
  · cases h
    exact .lock origin user g (not_not.mp hfree) hg
  cases h
  exact .stop _ rfl

theorem addMemberChecked_step : Step r d (.locked origin user joinMode configured)
    (addMemberChecked d answer origin user joinMode configured).1
      (addMemberChecked d answer origin user joinMode configured).2 := by
  unfold addMemberChecked
  split
  · exact .rollBack _ rfl
  split
  · apply Step.present
    dsimp only
    split
    · exact .inl rfl
    exact .inr rfl
  split
  · exact .rollBack _ rfl
  exact .move _ _ (.absent origin user joinMode configured ‹_›)

theorem addMemberCounted_step : Step r d (.counting origin user configured)
    (addMemberCounted d answer origin user configured).1
      (addMemberCounted d answer origin user configured).2 := by
  unfold addMemberCounted
  split
  · exact .rollBack _ rfl
  exact .move _ _ (.count origin user configured)

theorem addMemberLimited_step : Step r d (.limiting origin user configured count)
    (addMemberLimited r d answer origin user configured count).1
      (addMemberLimited r d answer origin user configured count).2 := by
  unfold addMemberLimited
  dsimp only
  split
  · exact .rollBack _ rfl
  rename_i hroom
  push Not at hroom
  exact .move _ _ (.limit origin user configured count hroom.2)

theorem addMemberInserted_step : Step r d (.inserting origin user configured limits)
    (addMemberInserted answer origin user configured limits).1
      (addMemberInserted answer origin user configured limits).2 := by
  unfold addMemberInserted
  split
  · exact .rollBack _ rfl
  apply Step.add
  dsimp only
  split
  · exact .inl rfl
  exact .inr rfl

theorem create_step {memberIds : List String} :
    Step r d (.create user memberIds) (Create r d answer user memberIds).1
      (Create r d answer user memberIds).2 := by
  unfold Create
  dsimp only
  split
  · exact .stop _ rfl
  rename_i hroom
  push Not at hroom
  exact .move _ _ (.create user memberIds hroom.2.2)

theorem joinByQRCode_step : Step r d (.joinByQRCode user) (JoinByQRCode d answer user).1
    (JoinByQRCode d answer user).2 := by
  unfold JoinByQRCode
  split
  · exact .stop _ rfl
  rename_i g hg
  split
  · exact .stop _ rfl
  exact .move _ _ (.resolve user g hg)

theorem joinByQRCodeResolved_step : Step r d (.resolved user joinMode)
    (JoinByQRCodeResolved d answer user joinMode).1 (JoinByQRCodeResolved d answer user joinMode).2 := by
  unfold JoinByQRCodeResolved
  split
  · exact .stop _ rfl
  split
  · exact .move _ _ (.apply user joinMode)
  exact .move _ _ (.join user joinMode)

theorem createJoinRequest_step {token : Option ℕ} : Step r d (.createJoinRequest token user)
    (CreateJoinRequest d answer token user).1 (CreateJoinRequest d answer token user).2 := by
  unfold CreateJoinRequest
  split
  · exact .stop _ rfl
  split
  · exact .stop _ rfl
  split
  · cases token with
    | none => exact .stop _ rfl
    | some token => exact .spend token user
  split
  · exact .stop _ rfl
  exact .move _ _ (.file token user)

theorem createJoinRequestFiled_step {token : Option ℕ} : Step r d (.filing token user)
    (CreateJoinRequestFiled answer token user).1 (CreateJoinRequestFiled answer token user).2 := by
  unfold CreateJoinRequestFiled
  split
  · exact .stop _ rfl
  apply Step.file
  dsimp only
  split
  · exact .inl rfl
  exact .inr rfl

variable {role : Role} {ids : List String}

theorem inviteMembersSelected_step :
    Step r d (.selectingGroup user role ids) (InviteMembersSelected d answer user role ids).1
      (InviteMembersSelected d answer user role ids).2 := by
  unfold InviteMembersSelected
  split
  · exact .stop _ rfl
  exact .move _ _ (.select user role ids)

theorem inviteMembersLocked_step
    (h : InviteMembersLocked d answer user role ids count = some outcome) :
    Step r d (.lockingGroup user role ids count) outcome.1 outcome.2 := by
  unfold InviteMembersLocked at h
  split at h
  · cases h
    exact .stop _ rfl
  split at h
  · cases h
  rename_i hfree
  split at h
  · cases h
    exact .stop _ rfl
  rename_i g hg
  split at h
  · cases h
    exact .lockInvite user role ids count g (not_not.mp hfree) hg
  cases h
  exact .stop _ rfl

theorem inviteMembersChecked_step {invite : Invite} {seen : List String} :
    Step r d (.inviting invite seen ids) (InviteMembersChecked r d answer invite seen ids).1
      (InviteMembersChecked r d answer invite seen ids).2 := by
  unfold InviteMembersChecked
  split
  · dsimp only
    split
    · exact .rollBack _ rfl
    rename_i hroom
    push Not at hroom
    exact .move _ _ (.room invite seen hroom.2)
  split
  · exact .move _ _ (.look invite invite _ _ _ _ rfl rfl rfl)
  split
  · apply Step.move
    split
    · exact .look invite invite _ _ _ _ rfl rfl rfl
    split <;> exact .look invite _ _ _ _ _ rfl rfl rfl
  exact .rollBack _ rfl

theorem inviteMembersAsked_step {invite : Invite} {asked remaining : List String} :
    Step r d (.asking invite limits remaining asked)
      (InviteMembersAsked d answer invite limits asked remaining).1
        (InviteMembersAsked d answer invite limits asked remaining).2 := by
  unfold InviteMembersAsked
  split
  · split
    · exact .rollBack _ rfl
    exact .invite invite limits asked
  split
  · exact .rollBack _ rfl
  split <;> exact .move _ _ (.ask invite limits _ _ _ _)

theorem acceptInvitation_step {token : ℕ} : Step r d (.acceptInvitation user token)
    (AcceptInvitation d answer user token).1 (AcceptInvitation d answer user token).2 := by
  unfold AcceptInvitation
  split
  · exact .stop _ rfl
  split
  · rename_i hfound
    obtain ⟨i, hi, hboth⟩ := List.any_eq_true.mp hfound
    rw [Bool.and_eq_true, decide_eq_true_eq] at hboth
    exact .move _ _ (.invited user token i hi hboth.1)
  exact .stop _ rfl

theorem acceptInvitationInto_step {token : ℕ} : Step r d (.acceptingInto user token)
    (AcceptInvitationInto d answer user token).1 (AcceptInvitationInto d answer user token).2 := by
  unfold AcceptInvitationInto
  split
  · exact .stop _ rfl
  split
  · exact .stop _ rfl
  split
  · exact .move _ _ (.acceptFile user token)
  exact .move _ _ (.acceptJoin user token)

theorem approveJoinRequest_step {id : ℕ} : Step r d (.approving id) (ApproveJoinRequest d answer id).1
    (ApproveJoinRequest d answer id).2 := by
  unfold ApproveJoinRequest
  split
  · exact .stop _ rfl
  rename_i q hfound
  have hfind := find?_some hfound
  rw [Bool.and_eq_true, decide_eq_true_eq, decide_eq_true_eq] at hfind
  obtain ⟨rfl, hpend⟩ := hfind
  split
  · exact .stop _ rfl
  exact .move _ _ (.approve q (mem_of_find?_eq_some hfound) hpend)

variable {target : String}

theorem removeMember_step : Step r d (.removeMember user target)
    (RemoveMember d answer user target).1 (RemoveMember d answer user target).2 := by
  unfold RemoveMember
  split
  · exact .stop _ rfl
  rename_i role hrole
  split
  · exact .stop _ rfl
  exact .move _ _ (.readActor user target role hrole)

theorem removeMemberChecked_step :
    Step r d (.readTarget user role target) (RemoveMemberChecked d answer user role target).1
      (RemoveMemberChecked d answer user role target).2 := by
  unfold RemoveMemberChecked
  split
  · exact .stop _ rfl
  rename_i targetRole htgt
  split
  · exact .stop _ rfl
  rename_i hchecks
  push Not at hchecks
  obtain ⟨-, howner, hrole, hadmin⟩ := hchecks
  exact .move _ _ (.kick user target role targetRole htgt howner (by simpa using hrole)
    fun hboth => hadmin hboth.1 hboth.2)

theorem removeMembership_step {kicker : Option (String × Role)} :
    Step r d (.removeMembership target kicker) (removeMembership d answer target kicker).1
      (removeMembership d answer target kicker).2 := by
  unfold removeMembership
  split
  · exact .stop _ rfl
  rename_i role hrole
  split
  · exact .stop _ rfl
  rename_i hchecks
  push Not at hchecks
  exact .move _ _ (.remove target kicker role hrole hchecks.2)

theorem updateMemberRole_step :
    Step r d (.updateMemberRole user target role) (UpdateMemberRole d answer user target role).1
      (UpdateMemberRole d answer user target role).2 := by
  unfold UpdateMemberRole
  split
  · rename_i g operatorRole currentRole _ _ hcur
    split
    · exact .stop _ rfl
    rename_i hchecks
    push Not at hchecks
    exact .move _ _ (.changeRole user target role currentRole hchecks.2.1 hcur hchecks.2.2.2.2.1)
  exact .stop _ rfl

theorem withLock_step {accepts : Group → Bool} (hlocks : call.locks = false)
    (h : withLock d answer accepts write = some outcome)
    (hstep : d.lock = none → (∃ g, accepts g = true) → Step r d call write none) :
    Step r d call outcome.1 outcome.2 := by
  unfold withLock at h
  split at h
  · cases h
    exact .stop _ hlocks
  split at h
  · cases h
  rename_i hfree
  split at h
  · cases h
    exact .stop _ hlocks
  rename_i g _
  split at h
  · rename_i haccepts
    cases h
    exact hstep (not_not.mp hfree) ⟨g, haccepts⟩
  cases h
  exact .stop _ hlocks

end Handlers

theorem asManager_failed {user : String} {stage : Role → GroupCall} :
    asManager d .failed user stage = refused := by
  unfold asManager
  split
  · rfl
  simp

theorem failed_writes_nothing {outcome : Outcome} (h : advanceGroup r d .failed call = some outcome) :
    outcome.1 = .nothing ∨ outcome.1 = .release := by
  cases call with
  | create =>
    simp only [advanceGroup, Create, true_or, if_true, some_inj] at h
    exact .inl (congrArg Prod.fst h.symm)
  | locked | counting | inserting =>
    cases h
    exact .inr rfl
  | limiting =>
    simp only [advanceGroup, addMemberLimited, true_or, if_true, some_inj] at h
    exact .inr (congrArg Prod.fst h.symm)
  | joinByQRCode =>
    cases h
    unfold JoinByQRCode
    split
    · exact .inl rfl
    simp [refused]
  | resolved =>
    cases h
    unfold JoinByQRCodeResolved
    split
    · exact .inl rfl
    split <;> exact .inl rfl
  | createJoinRequest =>
    cases h
    unfold CreateJoinRequest
    split
    · exact .inl rfl
    simp [refused]
  | inviting invite seen ids =>
    cases h
    unfold InviteMembersChecked
    split
    · simp [rolledBack]
    split
    · exact .inl rfl
    exact .inr rfl
  | asking invite limits remaining asked =>
    cases h
    cases remaining with
    | nil | cons => exact .inr rfl
  | selectingGroup =>
    cases h
    simp [InviteMembersSelected, refused]
  | accepting =>
    cases h
    simp [AcceptInvitationChecked, refused]
  | acceptingInto =>
    cases h
    unfold AcceptInvitationInto
    split
    · exact .inl rfl
    simp [refused]
  | inviteMembers =>
    cases h
    rw [InviteMembers, asManager_failed]
    exact .inl rfl
  | approveJoinRequest | rejectJoinRequest | updateSettings =>
    cases h
    rw [asManager_failed]
    exact .inl rfl
  | approving =>
    cases h
    unfold ApproveJoinRequest
    split
    · exact .inl rfl
    simp [refused]
  | removeMember =>
    cases h
    unfold RemoveMember
    split
    · exact .inl rfl
    simp [refused]
  | readTarget =>
    cases h
    unfold RemoveMemberChecked
    split
    · exact .inl rfl
    simp [refused]
  | removeMembership =>
    cases h
    unfold removeMembership
    split
    · exact .inl rfl
    simp [refused]
  | updateMemberRole =>
    cases h
    unfold UpdateMemberRole
    split
    · simp [refused]
    exact .inl rfl
  | _ =>
    cases h
    exact .inl rfl

theorem answered_of_write (h : advanceGroup r d answer call = some (write, next)) (hwrites : write ≠ .nothing)
    (hrelease : write ≠ .release) : answer ≠ .failed := by
  rintro rfl
  rcases failed_writes_nothing h with hnothing | hreleases
  · exact hwrites hnothing
  exact hrelease hreleases

theorem step_of_advance {outcome : Outcome} (h : advanceGroup r d answer call = some outcome) :
    Step r d call outcome.1 outcome.2 := by
  cases call with
  | create =>
    cases h
    exact create_step
  | creating owner memberIds limits =>
    cases h
    exact finish_step rfl (.create owner memberIds limits)
  | adding => exact addMember_step h
  | locked =>
    cases h
    exact addMemberChecked_step
  | counting =>
    cases h
    exact addMemberCounted_step
  | limiting =>
    cases h
    exact addMemberLimited_step
  | inserting =>
    cases h
    exact addMemberInserted_step
  | joinByQRCode =>
    cases h
    exact joinByQRCode_step
  | resolved =>
    cases h
    exact joinByQRCodeResolved_step
  | createJoinRequest =>
    cases h
    exact createJoinRequest_step
  | filing =>
    cases h
    exact createJoinRequestFiled_step
  | inviteMembers actor ids =>
    cases h
    exact asManager_step rfl fun role hrole => .invite actor role ids hrole
  | selectingGroup =>
    cases h
    exact inviteMembersSelected_step
  | lockingGroup => exact inviteMembersLocked_step h
  | inviting =>
    cases h
    exact inviteMembersChecked_step
  | asking =>
    cases h
    exact inviteMembersAsked_step
  | acceptInvitation =>
    cases h
    exact acceptInvitation_step
  | accepting user token =>
    cases h
    unfold AcceptInvitationChecked
    split
    · exact .stop _ rfl
    exact .move _ _ (.accept user token)
  | acceptingInto =>
    cases h
    exact acceptInvitationInto_step
  | markAccepted token =>
    cases h
    exact finish_step rfl (.accept token)
  | approveJoinRequest manager id =>
    cases h
    exact asManager_step rfl fun _ _ => .manageApproval manager id
  | approving =>
    cases h
    exact approveJoinRequest_step
  | markApproved id =>
    cases h
    exact finish_step rfl (.approve id)
  | rejectJoinRequest manager id =>
    cases h
    exact asManager_step rfl fun _ _ => .manageRejection manager id
  | rejecting id =>
    cases h
    exact finish_step rfl (.reject id)
  | removeMember =>
    cases h
    exact removeMember_step
  | readTarget =>
    cases h
    exact removeMemberChecked_step
  | removeMembership =>
    cases h
    exact removeMembership_step
  | deleting target kicker =>
    cases h
    exact finish_step rfl (.delete target kicker)
  | updateMemberRole =>
    cases h
    exact updateMemberRole_step
  | updatingRole target role =>
    cases h
    exact finish_step rfl (.setRole target role)
  | updateSettings actor mode =>
    cases h
    exact asManager_step rfl fun _ _ => .manageSettings actor mode
  | updatingSettings mode => exact withLock_step rfl h fun hfree _ => .setJoinMode mode hfree
  | updateMemberLimit limit =>
    apply withLock_step rfl h
    rintro hfree ⟨g, haccepts⟩
    rw [Bool.and_eq_true, Bool.and_eq_true, decide_eq_true_eq] at haccepts
    exact .setMaxMembers limit hfree haccepts.1.1
  | dismiss operator => exact withLock_step rfl h fun hfree _ => .dismiss operator hfree

/-- A statement under the lock belongs to the request that holds it. -/
def HoldsLock (d : GroupData) (id : ℕ) (call : GroupCall) : Prop :=
  call.locks = true → d.lock = some id ∧ d.group.isSome = true

variable {id other : ℕ}

/-- A request that holds the lock and knows the group keeps both while others write. -/
theorem write_lock (hstep : Step r d call write next) (hown : HoldsLock d id call) (hother : other ≠ id)
    (hlock : d.lock = some other) : (d.write r id write).lock = some other := by
  have hne : d.lock ≠ some id := by
    rw [hlock]
    intro hsame
    exact hother (some.inj hsame)
  cases hstep with
  | rollBack call hlocks => exact absurd (hown hlocks).1 hne
  | present | add | invite => exact absurd (hown rfl).1 hne
  | lock origin user g hfree | lockInvite actor role ids count g hfree =>
    rw [hlock] at hfree; cases hfree
  | create owner memberIds limits =>
    unfold GroupData.write
    dsimp only
    split <;> exact hlock
  | _ => exact hlock

theorem write_group (id : ℕ) (hstep : Step r d call write next) {g : Group} (hg : d.group = some g) :
    ∃ g', (d.write r id write).group = some g' ∧
      (d.lock ≠ none → g'.joinMode = g.joinMode ∧ g'.maxMembers = g.maxMembers) := by
  cases hstep with
  | create owner memberIds limits =>
    have hexists : d.group.isSome = true := by
      rw [hg]
      rfl
    unfold GroupData.write
    dsimp only
    rw [if_pos hexists]
    exact ⟨g, hg, fun _ => ⟨rfl, rfl⟩⟩
  | setJoinMode mode hfree =>
    refine ⟨{ g with joinMode := mode }, ?_, fun hlocked => absurd hfree hlocked⟩
    change d.group.map _ = _
    rw [hg]
    rfl
  | setMaxMembers limit hfree =>
    refine ⟨{ g with maxMembers := limit }, ?_, fun hlocked => absurd hfree hlocked⟩
    change d.group.map _ = _
    rw [hg]
    rfl
  | dismiss operator hfree =>
    refine ⟨{ g with status := .dismissed }, ?_, fun hlocked => absurd hfree hlocked⟩
    change d.group.map _ = _
    rw [hg]
    rfl
  | _ => exact ⟨g, hg, fun _ => ⟨rfl, rfl⟩⟩

variable {current : GroupCall}

theorem HoldsLock.kept (h : HoldsLock d other current) (hother : other ≠ id)
    (hstep : Step r d call write next) (hown : HoldsLock d id call) :
    HoldsLock (d.write r id write) other current := by
  intro hlocks
  obtain ⟨hlock, hgroup⟩ := h hlocks
  obtain ⟨g, hg⟩ := isSome_iff_exists.mp hgroup
  obtain ⟨g', hg', -⟩ := write_group id hstep hg
  refine ⟨write_lock hstep hown hother hlock, ?_⟩
  rw [hg']
  rfl

theorem afterAdmission_some {origin : Origin} (h : afterAdmission origin = some current) :
    (∃ token, origin = .invitation token ∧ current = .markAccepted token) ∨
      ∃ id, origin = .request id ∧ current = .markApproved id := by
  cases origin with
  | invitation token => exact .inl ⟨token, rfl, (some.inj h).symm⟩
  | request id => exact .inr ⟨id, rfl, (some.inj h).symm⟩
  | _ => cases h

theorem afterAdmission_locks {origin : Origin}
    (h : some current = none ∨ some current = afterAdmission origin) : current.locks = false := by
  rcases h with hnone | hafter
  · cases hnone
  rcases afterAdmission_some hafter.symm with ⟨token, -, rfl⟩ | ⟨id, -, rfl⟩ <;> rfl

theorem Step.goes_on (h : Step r d call write (some current)) :
    (write = .nothing ∧ Move r d call current) ∨
      (∃ origin user g, call = .adding origin user ∧ write = .take ∧ d.group = some g ∧
        current = .locked origin user g.joinMode g.maxMembers) ∨
      (∃ actor role ids memberCount g, call = .lockingGroup actor role ids memberCount ∧ write = .take ∧
        d.group = some g ∧ current = .inviting ⟨role, memberCount, g.maxMembers, [], []⟩ [actor] ids) ∨
      (∃ token, current = .markAccepted token) ∨ ∃ request, current = .markApproved request := by
  have hmark : ∀ origin : Origin, some current = none ∨ some current = afterAdmission origin →
      (∃ token, current = .markAccepted token) ∨ ∃ request, current = .markApproved request := by
    rintro origin (hnone | hafter)
    · cases hnone
    rcases afterAdmission_some hafter.symm with ⟨token, -, rfl⟩ | ⟨request, -, rfl⟩
    · exact .inl ⟨token, rfl⟩
    exact .inr ⟨request, rfl⟩
  cases h with
  | move call next hmove => exact .inl ⟨rfl, hmove⟩
  | lock origin user g hfree hg => exact .inr (.inl ⟨origin, user, g, rfl, rfl, hg, rfl⟩)
  | lockInvite actor role ids memberCount g hfree hg =>
    exact .inr (.inr (.inl ⟨actor, role, ids, memberCount, g, rfl, rfl, hg, rfl⟩))
  | present origin user joinMode configured next hnext
  | add origin user configured limits next hnext =>
    exact .inr (.inr (.inr (hmark origin hnext)))
  | spend token user => exact .inr (.inr (.inr (.inl ⟨token, rfl⟩)))
  | file token user next hnext =>
    rcases hnext with hnone | hmarks
    · cases hnone
    obtain ⟨marked, -, rfl⟩ := map_eq_some_iff.mp hmarks.symm
    exact .inr (.inr (.inr (.inl ⟨marked, rfl⟩)))

theorem Move.locks (h : Move r d call current) (hlocks : current.locks = true) :
    call.locks = true := by
  cases h with
  | absent | count | limit | look | room | ask => rfl
  | _ => cases hlocks

theorem HoldsLock.own (hown : HoldsLock d id call) (hstep : Step r d call write next) :
    ∀ current, next = some current → HoldsLock (d.write r id write) id current := by
  rintro current rfl hlocks
  cases hstep with
  | move call next hmove => exact hown (hmove.locks hlocks)
  | lock origin user g hfree hg | lockInvite actor role ids count g hfree hg =>
    refine ⟨rfl, ?_⟩
    change d.group.isSome = true
    rw [hg]
    rfl
  | present origin user joinMode configured next hnext
  | add origin user configured limits next hnext =>
    rw [afterAdmission_locks hnext] at hlocks
    cases hlocks
  | spend => cases hlocks
  | file token user next hnext =>
    rcases hnext with hnone | hmark
    · cases hnone
    obtain ⟨spent, -, rfl⟩ := map_eq_some_iff.mp hmark.symm
    cases hlocks

variable {s : State GroupData GroupCall}

/-- An invariant of the tables and claims of the requests, kept step by step, hold in every
run: a request keeps its own claim, and those of the others, who hold their locks. -/
theorem holds_of_steps {invariant : GroupData → Prop} {claim : GroupData → ℕ → GroupCall → Prop}
    {allowed : State GroupData GroupCall → Action GroupCall Answer PublishedGroupLimits → Prop}
    (hinitial : ∀ d, (groupService r).initial d → invariant d)
    (hstart : ∀ d id call, call.opens = true → claim d id call)
    (hstep : ∀ s id answer call write next, allowed s (.advance id answer) →
      s.calls id = some call → advanceGroup r s.data answer call = some (write, next) →
        HoldsLock s.data id call → invariant s.data → claim s.data id call →
          invariant (s.data.write r id write) ∧
            ∀ current, next = some current → claim (s.data.write r id write) id current)
    (hothers : ∀ s id answer call write next other current, allowed s (.advance id answer) →
      s.calls id = some call → s.calls other = some current → other ≠ id →
        advanceGroup r s.data answer call = some (write, next) → HoldsLock s.data id call →
          HoldsLock s.data other current → invariant s.data → claim s.data id call →
            claim s.data other current → claim (s.data.write r id write) other current)
    (hworld : ∀ d published, invariant d → invariant { d with published := published } ∧
      ∀ id call, claim d id call → claim { d with published := published } id call)
    (hs : (groupService r).machine.ReachableBy allowed s) :
    Service.Holds invariant (fun d id call => HoldsLock d id call ∧ claim d id call) s := by
  apply Service.holds_of_reachable _ _ _ _ hs
  · exact hinitial
  · intro s id call _ _ hopens
    refine ⟨?_, hstart s.data id call hopens⟩
    intro hlocks
    cases call with
    | locked | counting | limiting | inserting | inviting | asking => cases hopens
    | _ => cases hlocks
  · intro s id call answer d next hallow hholds hcall hadv
    obtain ⟨outcome, houtcome, hwrite⟩ := map_eq_some_iff.mp hadv
    cases hwrite
    have hcase := step_of_advance houtcome
    obtain ⟨hlock, hclaim⟩ := hholds.calls id call hcall
    obtain ⟨hinv, hown⟩ :=
      hstep s id answer call _ _ hallow hcall houtcome hlock hholds.data hclaim
    refine ⟨hinv, ?_, ?_⟩
    · intro current hcur
      exact ⟨hlock.own hcase current hcur, hown current hcur⟩
    intro other current hother hcur
    obtain ⟨hkept, hothersClaim⟩ := hholds.calls other current hcur
    exact ⟨hkept.kept hother hcase hlock, hothers s id answer call _ _ other current hallow hcall
      hcur hother houtcome hlock hkept hholds.data hclaim hothersClaim⟩
  intro s published d _ hholds hpublish
  cases hpublish
  obtain ⟨hinv, hclaims⟩ := hworld s.data published hholds.data
  refine ⟨hinv, ?_⟩
  intro id call hcall
  obtain ⟨hlock, hclaim⟩ := hholds.calls id call hcall
  exact ⟨hlock, hclaims id call hclaim⟩

end ImApp.GroupMembers
