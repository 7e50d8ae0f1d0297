import Mathlib.Data.List.Perm.Subperm
import ImApp.Organizations.Requests

/-!
What every organization keeps: an administrator, project members and grantees that
belong to it, and projects that form a forest. A write keeps all of it exactly when
what its request has read still holds. Grants and acceptances read in the
transaction that writes, so that they always do.
-/

namespace ImApp.Organizations

open ParentForest Relation StepSystem List

def IsMember (org : Organization) (user : UserID) : Prop := ∃ m ∈ org.members, m.user = user

def Grantee.projectID : Grantee → Option ProjectID
  | .user _ => none
  | .project id => some id

theorem Grantee.projectID_eq_some {grantee : Grantee} {project : ProjectID} :
    grantee.projectID = some project ↔ grantee = .project project := by
  cases grantee <;> simp [Grantee.projectID]

structure Sound (org : Organization) : Prop where
  administrator : ∃ m ∈ org.members, m.role = .admin
  projectMembers : ∀ pm ∈ org.projectMembers, IsMember org pm.2
  userGrants : ∀ g ∈ org.grants, ∀ user, g.grantee = .user user → IsMember org user
  projectGrants : ∀ g ∈ org.grants, ∀ project, g.grantee = .project project →
    project ∈ ids org.projects
  forest : IsForest org.projects

/-- What the keys of the tables keep besides. -/
structure Kept (org : Organization) : Prop where
  sound : Sound org
  users : (org.members.map Member.user).Nodup
  projects : ∀ project ∈ ids org.projects, project < org.nextID

/-- What a write needs of the organization it finds. -/
def Settles (org : Organization) : Request → Stage → Prop
  | .changeRole user role, .ready =>
    memberRole org user = some .admin → role = .member → 1 < activeAdministratorCount org
  | .removeMember user, .ready =>
    memberRole org user = some .admin → 1 < activeAdministratorCount org
  | .moveProject project parent, .ready => ∀ target ∈ parent,
      project ∈ ids org.projects → target ∈ ids org.projects →
        target ∉ projectSubtreeIds org.projects project
  | .deleteProject _, .erasing projects => ∀ g ∈ org.grants, ∀ project ∈ g.grantee.projectID,
      project ∈ cascade org projects → project ∈ projects
  | .addProjectMember project user, .ready =>
    project ∈ ids org.projects → (memberRole org user).isSome = true
  | _, _ => True

instance (org : Organization) (request : Request) (stage : Stage) :
    Decidable (Settles org request stage) := by
  unfold Settles
  split <;> infer_instance

section Members

variable {org : Organization} {user : UserID}

theorem isMember_iff : (memberRole org user).isSome = true ↔ IsMember org user := by
  simp [memberRole, IsMember]

theorem memberRole_eq_some (h : (org.members.map Member.user).Nodup) {role : Role} :
    memberRole org user = some role ↔ ⟨user, role⟩ ∈ org.members := by
  constructor
  · intro hrole
    obtain ⟨m, hm, rfl⟩ := Option.map_eq_some_iff.mp hrole
    have huser : m.user = user := by simpa using List.find?_some hm
    rw [← huser]
    exact mem_of_find?_eq_some hm
  intro hmem
  have hsome : (memberRole org user).isSome = true := isMember_iff.mpr ⟨_, hmem, rfl⟩
  obtain ⟨other, hother⟩ := Option.isSome_iff_exists.mp hsome
  obtain ⟨m, hm, rfl⟩ := Option.map_eq_some_iff.mp hother
  have huser : m.user = user := by simpa using List.find?_some hm
  have hsame := inj_on_of_nodup_map h (mem_of_find?_eq_some hm) hmem huser
  rw [hother, hsame]

/-- Besides an administrator there is another one exactly when there is more than
one. -/
theorem one_lt_count_iff (h : (org.members.map Member.user).Nodup)
    (hadmin : (⟨user, .admin⟩ : Member) ∈ org.members) :
    1 < activeAdministratorCount org ↔ ∃ m ∈ org.members, m.role = .admin ∧ m.user ≠ user := by
  unfold activeAdministratorCount
  rw [countP_eq_length_filter]
  have hnodup : (org.members.filter fun m => m.role = .admin).Nodup := (h.of_map _).filter _
  have hself : (⟨user, .admin⟩ : Member) ∈ org.members.filter fun m => m.role = .admin :=
    mem_filter.mpr ⟨hadmin, by simp⟩
  constructor
  · intro hcount
    by_contra hnone
    push Not at hnone
    have hsubset : (org.members.filter fun m => m.role = .admin) ⊆ [⟨user, .admin⟩] := by
      intro m hm
      obtain ⟨hmem, hrole⟩ := mem_filter.mp hm
      have huser := hnone m hmem (by simpa using hrole)
      have hsame := inj_on_of_nodup_map h hmem hadmin huser
      simp [hsame]
    have hle := (subperm_of_subset hnodup hsubset).length_le
    simp only [length_singleton] at hle
    omega
  rintro ⟨m, hm, hrole, huser⟩
  have hpair : ([m, ⟨user, .admin⟩] : List Member).Nodup := by
    have hne : m ≠ ⟨user, .admin⟩ := by
      rintro rfl
      exact huser rfl
    simpa using hne
  have hsubset : [m, ⟨user, .admin⟩] ⊆ org.members.filter fun m => m.role = .admin := by
    intro other hother
    rcases mem_cons.mp hother with rfl | hother
    · exact mem_filter.mpr ⟨hm, by simp [hrole]⟩
    rw [mem_singleton.mp hother]
    exact hself
  have hle := (subperm_of_subset hpair hsubset).length_le
  simp only [length_cons, length_nil] at hle
  omega

end Members

section MemberWrites

variable {org : Organization} {user : UserID} {role : Role}

theorem setRole_isMember {other : UserID} :
    IsMember (setRole org user role) other ↔ IsMember org other := by
  unfold IsMember setRole
  simp only [mem_map]
  constructor
  · rintro ⟨_, ⟨m, hm, rfl⟩, huser⟩
    refine ⟨m, hm, ?_⟩
    split at huser <;> exact huser
  rintro ⟨m, hm, huser⟩
  refine ⟨_, ⟨m, hm, rfl⟩, ?_⟩
  split <;> exact huser

/-- After a change of role there is an administrator: the user, or another one. -/
theorem setRole_administrator_iff (h : Kept org) :
    (∃ m ∈ (setRole org user role).members, m.role = .admin) ↔
      (memberRole org user = some .admin → role = .member → 1 < activeAdministratorCount org) := by
  constructor
  · rintro ⟨_, hm, hadmin⟩ hrole rfl
    obtain ⟨m, hmem, rfl⟩ := mem_map.mp hm
    apply (one_lt_count_iff h.users ((memberRole_eq_some h.users).mp hrole)).mpr
    by_cases huser : m.user = user
    · simp [huser] at hadmin
    simp only [huser, if_false] at hadmin
    exact ⟨m, hmem, hadmin, huser⟩
  intro hsettles
  obtain ⟨m, hm, hadmin⟩ := h.sound.administrator
  by_cases huser : m.user = user
  · have hself : memberRole org user = some .admin := by
      rw [memberRole_eq_some h.users, ← huser, ← hadmin]
      exact hm
    cases role with
    | admin =>
      refine ⟨_, mem_map.mpr ⟨m, hm, rfl⟩, ?_⟩
      simp [huser]
    | member =>
      obtain ⟨other, hother, hrole, hne⟩ :=
        (one_lt_count_iff h.users ((memberRole_eq_some h.users).mp hself)).mp (hsettles hself rfl)
      refine ⟨_, mem_map.mpr ⟨other, hother, rfl⟩, ?_⟩
      simp [hne, hrole]
  refine ⟨_, mem_map.mpr ⟨m, hm, rfl⟩, ?_⟩
  simp [huser, hadmin]

theorem setRole_kept (h : Kept org) :
    Kept (setRole org user role) ↔ Settles org (.changeRole user role) .ready := by
  have hadministrator := @setRole_administrator_iff org user role h
  constructor
  · intro hkept
    exact hadministrator.mp hkept.sound.administrator
  intro hsettles
  refine ⟨⟨hadministrator.mpr hsettles, ?_, ?_, h.sound.projectGrants, h.sound.forest⟩, ?_,
    h.projects⟩
  · exact fun pm hpm => setRole_isMember.mpr (h.sound.projectMembers pm hpm)
  · exact fun g hg other hgrantee =>
      setRole_isMember.mpr (h.sound.userGrants g hg other hgrantee)
  have hsame : (setRole org user role).members.map Member.user = org.members.map Member.user := by
    unfold setRole
    rw [List.map_map]
    apply map_congr_left
    intro m _
    simp only [Function.comp_apply]
    split <;> rfl
  rw [hsame]
  exact h.users

theorem removeMember_isMember {other : UserID} :
    IsMember (removeMember org user) other ↔ IsMember org other ∧ other ≠ user := by
  unfold IsMember removeMember
  simp only [mem_filter, decide_eq_true_eq]
  constructor
  · rintro ⟨m, ⟨hm, hne⟩, rfl⟩
    exact ⟨⟨m, hm, rfl⟩, hne⟩
  rintro ⟨⟨m, hm, rfl⟩, hne⟩
  exact ⟨m, ⟨hm, hne⟩, rfl⟩

theorem removeMember_administrator_iff (h : Kept org) :
    (∃ m ∈ (removeMember org user).members, m.role = .admin) ↔
      (memberRole org user = some .admin → 1 < activeAdministratorCount org) := by
  constructor
  · rintro ⟨m, hm, hadmin⟩ hrole
    obtain ⟨hmem, hne⟩ := mem_filter.mp hm
    apply (one_lt_count_iff h.users ((memberRole_eq_some h.users).mp hrole)).mpr
    exact ⟨m, hmem, hadmin, by simpa using hne⟩
  intro hsettles
  obtain ⟨m, hm, hadmin⟩ := h.sound.administrator
  by_cases huser : m.user = user
  · have hself : memberRole org user = some .admin := by
      rw [memberRole_eq_some h.users, ← huser, ← hadmin]
      exact hm
    obtain ⟨other, hother, hrole, hne⟩ :=
      (one_lt_count_iff h.users ((memberRole_eq_some h.users).mp hself)).mp (hsettles hself)
    exact ⟨other, mem_filter.mpr ⟨hother, by simpa using hne⟩, hrole⟩
  exact ⟨m, mem_filter.mpr ⟨hm, by simpa using huser⟩, hadmin⟩

theorem removeMember_kept (h : Kept org) :
    Kept (removeMember org user) ↔ Settles org (.removeMember user) .ready := by
  have hadministrator := @removeMember_administrator_iff org user h
  constructor
  · intro hkept
    exact hadministrator.mp hkept.sound.administrator
  intro hsettles
  refine ⟨⟨hadministrator.mpr hsettles, ?_, ?_, ?_, h.sound.forest⟩, ?_, h.projects⟩
  · intro pm hpm
    obtain ⟨hmem, hne⟩ := mem_filter.mp hpm
    exact removeMember_isMember.mpr ⟨h.sound.projectMembers pm hmem, by simpa using hne⟩
  · intro g hg other hgrantee
    obtain ⟨hmem, hne⟩ := mem_filter.mp hg
    refine removeMember_isMember.mpr ⟨h.sound.userGrants g hmem other hgrantee, ?_⟩
    rintro rfl
    simp [hgrantee] at hne
  · intro g hg
    exact h.sound.projectGrants g (mem_filter.mp hg).1
  exact h.users.sublist (filter_sublist.map _)

end MemberWrites

section ProjectWrites

variable {org : Organization} {project : ProjectID} {user : UserID}

theorem belongs_iff : projectBelongsToOrganization org project = true ↔ project ∈ ids org.projects := by
  simp [projectBelongsToOrganization]

theorem parentExists_iff {parent : Option ProjectID} :
    parentExists org parent = true ↔ ∀ p, parent = some p → p ∈ ids org.projects := by
  cases parent with
  | none | some p => simp [parentExists]

theorem insertProject_kept (h : Kept org) (parent : Option ProjectID) :
    Kept (insertProject org parent) := by
  unfold insertProject
  split
  case isFalse => exact h
  case isTrue hpar =>
    have hnew : org.nextID ∉ ids org.projects := by
      intro hmem
      exact absurd (h.projects _ hmem) (lt_irrefl _)
    have hids : ids (org.projects ++ [⟨org.nextID, parent⟩]) = ids org.projects ++ [org.nextID] := by
      simp [ids]
    refine ⟨⟨h.sound.administrator, h.sound.projectMembers, h.sound.userGrants, ?_, ?_⟩, h.users, ?_⟩
    · intro g hg p hp
      rw [hids]
      exact mem_append_left _ (h.sound.projectGrants g hg p hp)
    · exact h.sound.forest.insert hnew (parentExists_iff.mp hpar)
    intro p hp
    rw [hids] at hp
    rcases mem_append.mp hp with hold | hadded
    · exact (h.projects p hold).trans (Nat.lt_succ_self _)
    rw [mem_singleton.mp hadded]
    exact Nat.lt_succ_self _

theorem moveProject_kept (h : Kept org) {parent : Option ProjectID} :
    Kept (moveProject org project parent) ↔ Settles org (.moveProject project parent) .ready := by
  constructor
  · rintro hkept target rfl hproject htgt hinside
    have hexists : parentExists org (some target) = true := parentExists_iff.mpr (by simpa using htgt)
    rw [moveProject, if_pos hexists] at hkept
    exact hkept.sound.forest.acyclic project (not_acyclic_move hproject hinside)
  intro hsettles
  unfold moveProject
  split
  case isFalse => exact h
  case isTrue hpar =>
    have hforest : IsForest (setParent org.projects project parent) := by
      by_cases hproject : project ∈ ids org.projects
      · apply h.sound.forest.move
        intro target htgt
        have hmem := parentExists_iff.mp hpar target htgt
        exact ⟨hmem, hsettles target htgt hproject hmem⟩
      rw [setParent_of_notMem parent hproject]
      exact h.sound.forest
    refine ⟨⟨h.sound.administrator, h.sound.projectMembers, h.sound.userGrants, ?_, hforest⟩,
      h.users, ?_⟩
    · intro g hg p hp
      have hmem := h.sound.projectGrants g hg p hp
      rwa [← ids_setParent project parent] at hmem
    intro p hp
    have hids : ids (setParent org.projects project parent) = ids org.projects :=
      ids_setParent project parent
    rw [hids] at hp
    exact h.projects p hp

theorem addProjectMember_kept (h : Kept org) : Kept (addProjectMember org project user) ↔
      Settles org (.addProjectMember project user) .ready := by
  unfold addProjectMember
  split
  case isTrue hkeep =>
    refine iff_of_true h ?_
    intro hproject
    rcases hkeep with hmissing | hmember
    · exact absurd hproject hmissing
    exact isMember_iff.mpr (h.sound.projectMembers _ hmember)
  case isFalse hadd =>
    push Not at hadd
    constructor
    · intro hkept _
      have hmem : (project, user) ∈ org.projectMembers ++ [(project, user)] :=
        mem_append_right _ (mem_singleton_self _)
      exact isMember_iff.mpr (hkept.sound.projectMembers _ hmem)
    intro hsettles
    refine ⟨⟨h.sound.administrator, ?_, h.sound.userGrants, h.sound.projectGrants,
      h.sound.forest⟩, h.users, h.projects⟩
    intro pm hpm
    rcases mem_append.mp hpm with hold | hadded
    · exact h.sound.projectMembers pm hold
    rw [mem_singleton.mp hadded]
    exact isMember_iff.mp (hsettles hadd.1)

/-- A deletion is right when no grant names a project that goes with the deleted
ones without having been read. -/
theorem eraseProjects_kept (h : Kept org) {projects : List ProjectID} :
    Kept (eraseProjects org projects) ↔
      Settles org (.deleteProject project) (.erasing projects) := by
  have hgrants : ∀ g, g ∈ (eraseProjects org projects).grants ↔
      g ∈ org.grants ∧ ∀ p ∈ projects, g.grantee ≠ .project p := by
    intro g
    simp [eraseProjects]
  have hids : ∀ p, p ∈ ids (eraseProjects org projects).projects ↔
      p ∈ ids org.projects ∧ p ∉ cascade org projects := by
    intro p
    simp only [eraseProjects, ids, mem_map, mem_filter, decide_eq_true_eq]
    constructor
    · rintro ⟨n, ⟨hn, hkeep⟩, rfl⟩
      exact ⟨⟨n, hn, rfl⟩, hkeep⟩
    rintro ⟨⟨n, hn, rfl⟩, hkeep⟩
    exact ⟨n, ⟨hn, hkeep⟩, rfl⟩
  constructor
  · intro hkept g hg p hp hcascade
    have hgrantee : g.grantee = .project p := Grantee.projectID_eq_some.mp hp
    by_contra hunread
    have hleft : g ∈ (eraseProjects org projects).grants := by
      rw [hgrants]
      refine ⟨hg, ?_⟩
      rintro q hq hother
      rw [hgrantee] at hother
      cases hother
      exact hunread hq
    exact ((hids p).mp (hkept.sound.projectGrants g hleft p hgrantee)).2 hcascade
  intro hsettles
  refine ⟨⟨h.sound.administrator, ?_, ?_, ?_, ?_⟩, h.users, ?_⟩
  · intro pm hpm
    exact h.sound.projectMembers pm (mem_filter.mp hpm).1
  · intro g hg
    exact h.sound.userGrants g ((hgrants g).mp hg).1
  · intro g hg p hp
    obtain ⟨hmem, hother⟩ := (hgrants g).mp hg
    rw [hids]
    refine ⟨h.sound.projectGrants g hmem p hp, ?_⟩
    intro hcascade
    exact hother p (hsettles g hmem p (Grantee.projectID_eq_some.mpr hp) hcascade) hp
  · apply h.sound.forest.prune
    intro n hn hkeep p hp
    have hmem : p ∈ ids (eraseProjects org projects).projects := by
      rw [hids]
      refine ⟨h.sound.forest.rooted n hn p hp, ?_⟩
      intro hcascade
      obtain ⟨root, hroot, hbelow⟩ := mem_flatMap.mp hcascade
      have hchild : n.id ∈ cascade org projects := by
        apply mem_flatMap.mpr
        refine ⟨root, hroot, ?_⟩
        exact mem_subtree_iff.mpr (ReflTransGen.head ⟨n, hn, rfl, hp⟩ (mem_subtree_iff.mp hbelow))
      simp [hchild] at hkeep
    exact hmem
  intro p hp
  exact h.projects p ((hids p).mp hp).1

end ProjectWrites

section Others

variable {org : Organization} {user : UserID}

section

variable (h : Kept org)
include h

theorem kept_of_grants {grants : List Grant} {invitations : List Invitation}
    {next : Nat} (hnext : org.nextID ≤ next)
    (husers : ∀ g ∈ grants, ∀ user, g.grantee = .user user → IsMember org user)
    (hprojects : ∀ g ∈ grants, ∀ p, g.grantee = .project p → p ∈ ids org.projects) :
    Kept { org with grants := grants, invitations := invitations, nextID := next } where
  sound := ⟨h.sound.administrator, h.sound.projectMembers, husers, hprojects, h.sound.forest⟩
  users := h.users
  projects := fun p hp => (h.projects p hp).trans_le hnext

theorem createGrants_kept (grantee : Grantee) (resources : List ResourceID) :
    Kept (createGrants org grantee resources) := by
  unfold createGrants
  split
  case isFalse => exact h
  case isTrue hvalid =>
    simp only [Bool.and_eq_true] at hvalid
    obtain ⟨⟨⟨-, hgrantee⟩, -⟩, -⟩ := hvalid
    have hnew : ∀ g ∈ org.grants ++ resources.zipIdx.map (fun pair =>
        (⟨org.nextID + pair.2, grantee, pair.1⟩ : Grant)), g ∈ org.grants ∨ g.grantee = grantee := by
      intro g hg
      rcases mem_append.mp hg with hold | hadded
      · exact .inl hold
      obtain ⟨pair, -, rfl⟩ := mem_map.mp hadded
      exact .inr rfl
    apply kept_of_grants h (Nat.le_add_right _ _)
    · intro g hg other hother
      rcases hnew g hg with hold | hadded
      · exact h.sound.userGrants g hold other hother
      rw [hadded.symm.trans hother] at hgrantee
      exact isMember_iff.mp hgrantee
    intro g hg p hp
    rcases hnew g hg with hold | hadded
    · exact h.sound.projectGrants g hold p hp
    rw [hadded.symm.trans hp] at hgrantee
    exact belongs_iff.mp hgrantee

theorem deleteGrant_kept (grant : GrantID) : Kept (deleteGrant org grant) :=
  kept_of_grants h le_rfl (fun g hg => h.sound.userGrants g (mem_filter.mp hg).1)
    (fun g hg => h.sound.projectGrants g (mem_filter.mp hg).1)

theorem kept_of_invitations {invitations : List Invitation} {next : Nat}
    (hnext : org.nextID ≤ next) : Kept { org with invitations := invitations, nextID := next } :=
  kept_of_grants h hnext h.sound.userGrants h.sound.projectGrants

theorem removeProjectMember_kept (project : ProjectID) (user : UserID) :
    Kept (removeProjectMember org project user) where
  sound := ⟨h.sound.administrator, fun pm hpm => h.sound.projectMembers pm (mem_filter.mp hpm).1,
    h.sound.userGrants, h.sound.projectGrants, h.sound.forest⟩
  users := h.users
  projects := h.projects

theorem joinOrganization_kept (user : UserID) :
    Kept (joinOrganization org user) ∧ IsMember (joinOrganization org user) user ∧
      (joinOrganization org user).projects = org.projects := by
  unfold joinOrganization
  split
  case isTrue hmember => exact ⟨h, isMember_iff.mp hmember, rfl⟩
  case isFalse hmember =>
    rw [isMember_iff] at hmember
    have hgrow : ∀ other, IsMember org other →
        IsMember { org with members := org.members ++ [⟨user, .member⟩] } other := by
      rintro other ⟨m, hm, hother⟩
      exact ⟨m, mem_append_left _ hm, hother⟩
    have hself : IsMember { org with members := org.members ++ [⟨user, .member⟩] } user :=
      ⟨⟨user, .member⟩, mem_append_right _ (mem_singleton_self _), rfl⟩
    refine ⟨⟨⟨?_, ?_, ?_, h.sound.projectGrants, h.sound.forest⟩, ?_, h.projects⟩, hself, rfl⟩
    · obtain ⟨m, hm, hadmin⟩ := h.sound.administrator
      exact ⟨m, mem_append_left _ hm, hadmin⟩
    · exact fun pm hpm => hgrow _ (h.sound.projectMembers pm hpm)
    · exact fun g hg other hgrantee => hgrow _ (h.sound.userGrants g hg other hgrantee)
    rw [map_append, nodup_append]
    refine ⟨h.users, nodup_singleton _, ?_⟩
    rintro other hother new hnew rfl
    obtain ⟨m, hm, rfl⟩ := mem_map.mp hother
    exact hmember ⟨m, hm, mem_singleton.mp hnew⟩

theorem joinProject_kept (hmember : IsMember org user) (project : Option ProjectID) :
    Kept (joinProject org user project) := by
  cases project with
  | none => exact h
  | some project =>
    refine ⟨⟨h.sound.administrator, ?_, h.sound.userGrants, h.sound.projectGrants,
      h.sound.forest⟩, h.users, h.projects⟩
    intro pm hpm
    rcases mem_append.mp hpm with hold | hadded
    · exact h.sound.projectMembers pm hold
    rw [mem_singleton.mp hadded]
    exact hmember

theorem acceptInvitation_kept (now : Nat) (user : UserID) (id : InvitationID) :
    Kept (acceptInvitation org now user id) := by
  unfold acceptInvitation
  split
  · exact h
  dsimp only
  split
  · exact h
  split
  · exact h
  obtain ⟨hjoined, hmember, -⟩ :=
    joinOrganization_kept (kept_of_invitations h le_rfl) user
  exact joinProject_kept hjoined hmember _

end

end Others

theorem write_kept_iff {org : Organization} (h : Kept org) (request : Request) (stage : Stage) :
    Kept (write org request stage) ↔ Settles org request stage := by
  unfold write
  split
  · exact setRole_kept h
  · exact removeMember_kept h
  · exact iff_of_true (insertProject_kept h _) trivial
  · exact moveProject_kept h
  · exact eraseProjects_kept h
  · exact addProjectMember_kept h
  · exact iff_of_true (removeProjectMember_kept h _ _) trivial
  · exact iff_of_true (createGrants_kept h _ _) trivial
  · exact iff_of_true (deleteGrant_kept h _) trivial
  · exact iff_of_true (kept_of_invitations h (Nat.le_succ _)) trivial
  · exact iff_of_true (kept_of_invitations h le_rfl) trivial
  have hsettles : Settles org request stage := by
    cases request <;> cases stage <;> first | exact trivial | simp_all
  exact iff_of_true h hsettles

/-- A write finds what its request has read. -/
def Settled (s : State) : Action → Prop
  | .advance id => ∀ call ∈ s.calls id, Settles s.org call.request call.stage
  | _ => True

instance (s : State) (a : Action) : Decidable (Settled s a) := by
  unfold Settled
  split <;> infer_instance

theorem step_kept {s t : State} {a : Action} (hset : Settled s a) (h : Kept s.org)
    (hstep : step s a = some t) : Kept t.org := by
  cases a with
  | begin id caller request =>
    simp only [step, begin] at hstep
    split at hstep
    · split at hstep <;>
      · cases hstep
        exact h
    cases hstep
  | advance id =>
    obtain ⟨call, hcall, hnext⟩ := Option.map_eq_some_iff.mp hstep
    split at hnext
    · subst hnext
      exact (write_kept_iff h call.request call.stage).mpr (hset call hcall)
    subst hnext
    exact h
  | abandon id | tick duration =>
    cases hstep
    exact h
  | accept user invitation =>
    cases hstep
    exact acceptInvitation_kept h s.now user invitation

theorem initial_kept {s : State} (h : Initial s) : Kept s.org := by
  obtain ⟨⟨user, hmembers⟩, hprojects, hprojectMembers, hgrants, -, -⟩ := h
  refine ⟨⟨⟨⟨user, .admin⟩, by simp [hmembers], rfl⟩, ?_, ?_, ?_, ?_⟩, ?_, ?_⟩
  · simp [hprojectMembers]
  · simp [hgrants]
  · simp [hgrants]
  · rw [hprojects]
    exact isForest_nil
  · simp [hmembers]
  simp [hprojects, ids]

theorem kept_of_reachable {s : State} (h : machine.ReachableBy Settled s) : Kept s.org := by
  apply h.invariant fun s => Kept s.org
  · intro s hs
    exact initial_kept hs
  intro s a t hset hs hstep
  exact step_kept hset hs hstep

/-- User 1 has just created the organization. -/
def founded : State where
  org := ⟨[⟨1, .admin⟩], [], [], [], [], [7], 0⟩
  now := 0
  calls := fun _ => none

theorem founded_initial : machine.initial founded :=
  ⟨⟨1, rfl⟩, rfl, rfl, rfl, rfl, fun _ => rfl⟩

/-- User 1 invites user 2 and makes them an administrator. -/
def secondAdministrator : List Action :=
  [.begin 0 1 (.createInvitation 10 none none), .advance 0, .accept 2 0,
    .begin 0 1 (.changeRole 2 .admin), .advance 0, .advance 0]

/-- User 2 puts user 1 on a project and gives the project a resource. -/
def firstProject : List Action :=
  [.begin 0 2 (.createProject none), .advance 0,
    .begin 1 2 (.addProjectMember 1 1), .advance 1, .advance 1, .advance 1,
    .begin 2 2 (.createGrants (.project 1) [7]), .advance 2]

/-- Each request counts two administrators before the other one writes. -/
def mutualDemotion : List Action :=
  [.begin 0 1 (.changeRole 2 .member), .begin 1 2 (.changeRole 1 .member),
    .advance 0, .advance 0, .advance 1, .advance 1, .advance 0, .advance 1]

end ImApp.Organizations
