import ImApp.WorkspaceAccess.Access
import Mathlib.Data.Finset.Card
import Mathlib.Order.Bounds.Basic

/-!
The sets of a member's access are the least ones that are closed under the rules of
granting, whatever shape the parents of projects have and in whatever order rows come.
-/

namespace ImApp.WorkspaceAccess

open List Function
open JsonText (Text)

variable {db db' : Database} {user : AuthenticatedUser}

/-- The projects whose grants count for the user: his own and those above them. -/
inductive Granting (db : Database) (user : AuthenticatedUser) : Project → Prop
  | own {p : Project} (hp : p ∈ organizationProjects db user) (hmember : isMember db user p = true) :
    Granting db user p
  | above {p q : Project} (h : Granting db user p) (hq : q ∈ organizationProjects db user)
    (hpar : given p.parentId = some q.id) : Granting db user q

variable {p : Project}

theorem eq_of_id {q : Project} (hp : p ∈ organizationProjects db user)
    (hq : q ∈ organizationProjects db user) (h : p.id = q.id) : p = q :=
  inj_on_of_nodup_map (db.unique.sublist (filter_sublist.map _)) hp hq h

theorem parentProject_eq_some {q : Project} : parentProject db user p = some q ↔
    q ∈ organizationProjects db user ∧ given p.parentId = some q.id := by
  unfold parentProject
  rw [Option.bind_eq_some_iff]
  constructor
  · rintro ⟨parent, hpar, hfind⟩
    have hid : q.id = parent := by simpa using find?_some hfind
    exact ⟨mem_reverse.mp (mem_of_find?_eq_some hfind), hid ▸ hpar⟩
  rintro ⟨hq, hpar⟩
  refine ⟨q.id, hpar, ?_⟩
  cases hfind : (organizationProjects db user).reverse.find? fun r => r.id = q.id with
  | none => exact absurd (find?_eq_none.mp hfind q (mem_reverse.mpr hq)) (by simp)
  | some r =>
    have hid : r.id = q.id := by simpa using find?_some hfind
    rw [eq_of_id (mem_reverse.mp (mem_of_find?_eq_some hfind)) hq hid]

/-- With a project its parent is granted, unless it is the one that the walk is at. -/
def ClosedBut (db : Database) (user : AuthenticatedUser) (granted : Finset Text)
    (current : Option Project) : Prop :=
  ∀ p ∈ organizationProjects db user, p.id ∈ granted → ∀ q, parentProject db user p = some q →
    q.id ∈ granted ∨ current = some q

/-- The projects that are not granted yet. -/
def pending (db : Database) (user : AuthenticatedUser) (granted : Finset Text) : Finset Text :=
  ((organizationProjects db user).map Project.id).toFinset \ granted

variable {fuel : ℕ}

theorem walkUp_closed {granted : Finset Text} {current : Option Project}
    (hcur : ∀ p, current = some p → p ∈ organizationProjects db user)
    (hclosed : ClosedBut db user granted current) (hfuel : (pending db user granted).card < fuel) :
    granted ⊆ walkUp db user fuel granted current ∧
      (∀ p, current = some p → p.id ∈ walkUp db user fuel granted current) ∧
      ClosedBut db user (walkUp db user fuel granted current) none := by
  induction fuel generalizing granted current with
  | zero => omega
  | succ fuel ih =>
    cases current with
    | none => exact ⟨Finset.Subset.refl _, by simp, hclosed⟩
    | some current =>
      have hmem := hcur current rfl
      rw [walkUp]
      split
      case isTrue hin =>
        refine ⟨Finset.Subset.refl _, fun p hp => Option.some.inj hp ▸ hin, fun p hp hgrant q hq => ?_⟩
        rcases hclosed p hp hgrant q hq with hq' | hq'
        · exact .inl hq'
        exact .inl (Option.some.inj hq' ▸ hin)
      case isFalse hout =>
        have hless : (pending db user (insert current.id granted)).card < fuel := by
          have herase : pending db user (insert current.id granted) =
              (pending db user granted).erase current.id := Finset.sdiff_insert _ _ _
          have hpend : current.id ∈ pending db user granted :=
            Finset.mem_sdiff.mpr ⟨mem_toFinset.mpr (mem_map_of_mem hmem), hout⟩
          have hcard := Finset.card_erase_lt_of_mem hpend
          rw [herase]
          omega
        obtain ⟨hkeeps, -, hlast⟩ := @ih (insert current.id granted) (parentProject db user current)
          (fun p hp => (parentProject_eq_some.mp hp).1) (fun p hp hgrant q hq => by
            rcases Finset.mem_insert.mp hgrant with hid | hgrant
            · rw [eq_of_id hp hmem hid] at hq
              exact .inr hq
            rcases hclosed p hp hgrant q hq with hq' | hq'
            · exact .inl (Finset.mem_insert_of_mem hq')
            exact .inl (Option.some.inj hq' ▸ Finset.mem_insert_self _ _)) hless
        refine ⟨(Finset.subset_insert _ _).trans hkeeps, fun p hp => ?_, hlast⟩
        rw [← Option.some.inj hp]
        exact hkeeps (Finset.mem_insert_self _ _)

theorem walkUp_sound {granted : Finset Text} {current : Option Project}
    (hgrant : ∀ id ∈ granted, ∃ p, Granting db user p ∧ p.id = id)
    (hcur : ∀ p, current = some p → Granting db user p) :
    ∀ id ∈ walkUp db user fuel granted current, ∃ p, Granting db user p ∧ p.id = id := by
  induction fuel generalizing granted current with
  | zero => exact hgrant
  | succ fuel ih =>
    cases current with
    | none => exact hgrant
    | some current =>
      rw [walkUp]
      split
      · exact hgrant
      apply ih
      · intro id hid
        rcases Finset.mem_insert.mp hid with rfl | hid
        · exact ⟨current, hcur current rfl, rfl⟩
        exact hgrant id hid
      intro p hp
      obtain ⟨hmem, hpar⟩ := parentProject_eq_some.mp hp
      exact .above (hcur current rfl) hmem hpar

theorem Granting.mem (h : Granting db user p) : p ∈ organizationProjects db user := by
  cases h with
  | own hp | above _ hp => exact hp

variable {id : Text}

theorem mem_grantedProjectIds (hfuel : db.projects.length < fuel) :
    id ∈ grantedProjectIds db user fuel ↔ ∃ p, Granting db user p ∧ p.id = id := by
  have hcard : ∀ granted, (pending db user granted).card < fuel := by
    intro granted
    have hsub := Finset.card_le_card (Finset.sdiff_subset (s :=
      ((organizationProjects db user).map Project.id).toFinset) (t := granted))
    have hlist := toFinset_card_le ((organizationProjects db user).map Project.id)
    have hfilter := length_filter_le
      (fun p : Project => decide (p.organizationId = user.workspace.id)) db.projects
    rw [length_map] at hlist
    unfold pending
    unfold organizationProjects at *
    omega
  have hfold : ∀ (rows : List Project) (granted : Finset Text),
      (∀ p ∈ rows, p ∈ organizationProjects db user) → ClosedBut db user granted none →
      (∀ id ∈ granted, ∃ p, Granting db user p ∧ p.id = id) →
      let after := rows.foldl (fun granted p =>
        if isMember db user p then walkUp db user fuel granted (some p) else granted) granted
      granted ⊆ after ∧ (∀ p ∈ rows, isMember db user p = true → p.id ∈ after) ∧
        ClosedBut db user after none ∧ ∀ id ∈ after, ∃ p, Granting db user p ∧ p.id = id := by
    intro rows
    induction rows with
    | nil => exact fun granted _ hclosed hsound =>
        ⟨Finset.Subset.refl _, fun p hp => absurd hp (by simp), hclosed, hsound⟩
    | cons row rows ih =>
      intro granted hrows hclosed hsound
      have hmem := hrows row mem_cons_self
      have hmore : ∀ p ∈ rows, p ∈ organizationProjects db user :=
        fun p hp => hrows p (mem_cons_of_mem _ hp)
      rw [foldl_cons]
      split
      case isTrue hmember =>
        obtain ⟨hkeeps, hself, hclosed'⟩ := @walkUp_closed db user fuel granted (some row)
          (fun p hp => Option.some.inj hp ▸ hmem)
          (fun p hp hgrant q hq => .inl ((hclosed p hp hgrant q hq).resolve_right (by simp)))
          (hcard granted)
        have hsound' := @walkUp_sound db user fuel granted (some row) hsound fun p hp =>
          Option.some.inj hp ▸ .own hmem hmember
        obtain ⟨hkeeps', hrest, hlast⟩ := ih _ hmore hclosed' hsound'
        refine ⟨hkeeps.trans hkeeps', fun p hp hm => ?_, hlast⟩
        rcases mem_cons.mp hp with rfl | hp
        · exact hkeeps' (hself p rfl)
        exact hrest p hp hm
      case isFalse hmember =>
        obtain ⟨hkeeps', hrest, hlast⟩ := ih granted hmore hclosed hsound
        refine ⟨hkeeps', fun p hp hm => ?_, hlast⟩
        rcases mem_cons.mp hp with rfl | hp
        · exact absurd hm hmember
        exact hrest p hp hm
  obtain ⟨-, hown, hclosed, hsound⟩ := hfold (organizationProjects db user) ∅ (fun p hp => hp)
    (fun p _ hp => absurd hp (by simp)) (by simp)
  refine ⟨hsound id, ?_⟩
  rintro ⟨p, hp, rfl⟩
  induction hp with
  | own hp hmember => exact hown _ hp hmember
  | @above p q h hq hpar ih =>
    exact (hclosed p h.mem ih q (parentProject_eq_some.mpr ⟨hq, hpar⟩)).resolve_right (by simp)

/-- Sets that hold what is granted to the user and to the projects that count for him, the
environments of a group in them and the connections of an environment in them. -/
structure Closed (db : Database) (user : AuthenticatedUser) (sets : ResourceType → Set Text) :
    Prop where
  direct : ∀ g ∈ directGrants db user, g.resourceId ∈ sets g.resourceType
  project : ∀ g ∈ db.grants, g.organizationId = user.workspace.id → g.granteeType = .project →
    ∀ p, Granting db user p → g.granteeId = p.id → g.resourceId ∈ sets g.resourceType
  group : ∀ e ∈ db.environments, e.workspace = ⟨.organization, user.workspace.id⟩ →
    ∀ id ∈ sets .environmentGroup, e.groupId = some id → e.id ∈ sets .environment
  placement : ∀ type, ∀ p ∈ db.placements type, p.environmentId ∈ sets .environment →
    p.connectionId ∈ sets (.connection type)

/-- The connection is a profile of one of these. -/
def ProfileOf (db : Database) (ids : Set Text) (id : Text) : Prop :=
  ∃ c ∈ db.connections .database, c.id = id ∧ ∃ root ∈ ids, c.profileParentId = some root

structure ClosedProfiles (db : Database) (user : AuthenticatedUser)
    (sets : ResourceType → Set Text) : Prop extends Closed db user sets where
  profile : ∀ id, ProfileOf db (sets (.connection .database)) id → id ∈ sets (.connection .database)

theorem mem_rowsIn {α : Type} {ids : Finset Text} {column : α → Option Text} {rows : List α}
    {row : α} : row ∈ rowsIn ids column rows ↔ row ∈ rows ∧ ∃ id ∈ ids, column row = some id := by
  unfold rowsIn
  split
  case isTrue hempty => simp [hempty]
  case isFalse => simp [mem_filter, Option.any_eq_true, and_comm]

theorem mem_granted {type : ResourceType} : id ∈ granted db user type ↔
    (∃ g ∈ directGrants db user, g.resourceType = type ∧ g.resourceId = id) ∨
      ∃ g ∈ db.grants, (g.organizationId = user.workspace.id ∧ g.granteeType = .project) ∧
        (∃ p, Granting db user p ∧ g.granteeId = p.id) ∧ g.resourceType = type ∧ g.resourceId = id := by
  have hproject : ∀ g, g ∈ projectGrants db user ↔
      (g ∈ db.grants ∧ g.organizationId = user.workspace.id ∧ g.granteeType = .project) ∧
        ∃ p, Granting db user p ∧ g.granteeId = p.id := by
    intro g
    unfold projectGrants
    rw [mem_rowsIn, mem_filter, decide_eq_true_eq]
    apply and_congr_right
    intro _
    constructor
    · rintro ⟨id, hid, hg⟩
      obtain ⟨p, hp, rfl⟩ := (mem_grantedProjectIds (Nat.lt_succ_self _)).mp hid
      exact ⟨p, hp, Option.some.inj hg⟩
    rintro ⟨p, hp, hg⟩
    exact ⟨p.id, (mem_grantedProjectIds (Nat.lt_succ_self _)).mpr ⟨p, hp, rfl⟩, congrArg some hg⟩
  unfold granted
  rw [mem_toFinset, mem_map]
  simp only [mem_filter, mem_append, decide_eq_true_eq, hproject]
  constructor
  · rintro ⟨g, ⟨hg | ⟨⟨hg, hproject⟩, hp⟩, htype⟩, hid⟩
    · exact .inl ⟨g, hg, htype, hid⟩
    exact .inr ⟨g, hg, hproject, hp, htype, hid⟩
  rintro (⟨g, hg, htype, hid⟩ | ⟨g, hg, hproject, hp, htype, hid⟩)
  · exact ⟨g, ⟨.inl hg, htype⟩, hid⟩
  exact ⟨g, ⟨.inr ⟨⟨hg, hproject⟩, hp⟩, htype⟩, hid⟩

theorem mem_environmentIds : id ∈ environmentIds db user ↔ id ∈ granted db user .environment ∨
      ∃ e ∈ db.environments, e.workspace = ⟨.organization, user.workspace.id⟩ ∧ e.id = id ∧
        ∃ group ∈ granted db user .environmentGroup, e.groupId = some group := by
  unfold environmentIds
  rw [Finset.mem_union, mem_toFinset, mem_map]
  simp only [mem_rowsIn, mem_filter, decide_eq_true_eq]
  apply or_congr_right
  constructor
  · rintro ⟨e, ⟨⟨he, hws⟩, hgroup⟩, hid⟩
    exact ⟨e, he, hws, hid, hgroup⟩
  rintro ⟨e, he, hws, hid, hgroup⟩
  exact ⟨e, ⟨⟨he, hws⟩, hgroup⟩, hid⟩

theorem mem_rootIds {type : ConnectionType} : id ∈ rootIds db user type ↔
    id ∈ granted db user (.connection type) ∨
      ∃ p ∈ db.placements type, p.connectionId = id ∧ p.environmentId ∈ environmentIds db user := by
  unfold rootIds
  rw [Finset.mem_union, mem_toFinset, mem_map]
  simp only [mem_rowsIn, Option.some.injEq]
  apply or_congr_right
  constructor
  · rintro ⟨p, ⟨hp, _, henv, rfl⟩, hid⟩
    exact ⟨p, hp, hid, henv⟩
  rintro ⟨p, hp, hid, henv⟩
  exact ⟨p, ⟨hp, _, henv, rfl⟩, hid⟩

/-- What the passes collect before the profiles. -/
def collected (db : Database) (user : AuthenticatedUser) : ResourceType → Set Text
  | .environmentGroup => {id | id ∈ granted db user .environmentGroup}
  | .environment => {id | id ∈ environmentIds db user}
  | .connection type => {id | id ∈ rootIds db user type}

theorem collected_of_granted {type : ResourceType} (h : id ∈ granted db user type) :
    id ∈ collected db user type := by
  cases type with
  | environmentGroup => exact h
  | environment => exact mem_environmentIds.mpr (.inl h)
  | connection type => exact mem_rootIds.mpr (.inl h)

theorem collected_closed : Closed db user (collected db user) where
  direct g hg := collected_of_granted (mem_granted.mpr (.inl ⟨g, hg, rfl, rfl⟩))
  project g hg horganization htype p hp hid :=
    collected_of_granted (mem_granted.mpr (.inr ⟨g, hg, ⟨horganization, htype⟩, ⟨p, hp, hid⟩, rfl, rfl⟩))
  group e he hws group hgroup hid :=
    mem_environmentIds.mpr (.inr ⟨e, he, hws, rfl, group, hgroup, hid⟩)
  placement _ p hp henv := mem_rootIds.mpr (.inr ⟨p, hp, rfl, henv⟩)

theorem collected_le {sets : ResourceType → Set Text} (h : Closed db user sets) :
    collected db user ≤ sets := by
  have hgrant : ∀ type id, id ∈ granted db user type → id ∈ sets type := by
    intro type id hid
    rcases mem_granted.mp hid with ⟨g, hg, rfl, rfl⟩ | ⟨g, hg, ⟨horg, htype⟩, ⟨p, hp, hpid⟩, rfl, rfl⟩
    · exact h.direct g hg
    exact h.project g hg horg htype p hp hpid
  have henv : ∀ id, id ∈ environmentIds db user → id ∈ sets .environment := by
    intro id hid
    rcases mem_environmentIds.mp hid with hid | ⟨e, he, hws, rfl, group, hgroup, hsome⟩
    · exact hgrant _ _ hid
    exact h.group e he hws group (hgrant _ _ hgroup) hsome
  intro type id hid
  cases type with
  | environmentGroup => exact hgrant _ _ hid
  | environment => exact henv id hid
  | connection type =>
    rcases mem_rootIds.mp hid with hid | ⟨p, hp, rfl, hplaced⟩
    · exact hgrant _ _ hid
    exact h.placement type p hp (henv _ hplaced)

/-- No profile belongs to a profile. -/
def Flat (db : Database) : Prop :=
  ∀ c ∈ db.connections .database, ∀ root, c.profileParentId = some root →
    ∀ r ∈ db.connections .database, r.id = root → r.profileParentId = none

/-- The least closed sets, the profiles of the connections in them, and the groups of the
environments in them, which give no access. -/
structure LeastAccess (db : Database) (user : AuthenticatedUser) (access : Access)
    (sets : ResourceType → Set Text) : Prop where
  least : IsLeast {sets | Closed db user sets} sets
  environment : ∀ id, id ∈ access.environmentIds ↔ id ∈ sets .environment
  environmentGroup : ∀ id, id ∈ access.environmentGroupIds ↔ id ∈ sets .environmentGroup ∨
    ∃ e ∈ db.environments, e.id ∈ sets .environment ∧ given e.groupId = some id
  connection : ∀ type id, id ∈ access.connectionIds type ↔ id ∈ sets (.connection type) ∨
    type = .database ∧ ProfileOf db (sets (.connection .database)) id
  flat : Flat db → IsLeast {sets | ClosedProfiles db user sets}
    (Function.update sets (.connection .database) {id | id ∈ access.connectionIds .database})

theorem leastAccess (h : user.canManage = false) :
    LeastAccess db user (getWorkspaceAccess db user) (collected db user) := by
  have hprofiles : ∀ id, id ∈ ((rowsIn (rootIds db user .database) Connection.profileParentId
      (db.connections .database)).map Connection.id).toFinset ↔
        ProfileOf db (collected db user (.connection .database)) id := by
    intro id
    rw [mem_toFinset, mem_map]
    simp only [mem_rowsIn, ProfileOf]
    constructor
    · rintro ⟨c, ⟨hc, hroot⟩, hid⟩
      exact ⟨c, hc, hid, hroot⟩
    rintro ⟨c, hc, hid, hroot⟩
    exact ⟨c, ⟨hc, hroot⟩, hid⟩
  have hconn : ∀ type id, id ∈ (getWorkspaceAccess db user).connectionIds type ↔
      id ∈ collected db user (.connection type) ∨
        type = .database ∧ ProfileOf db (collected db user (.connection .database)) id := by
    intro type id
    unfold getWorkspaceAccess
    rw [h, if_neg Bool.false_ne_true]
    cases type with
    | database =>
      change id ∈ _ ∪ _ ↔ _
      rw [Finset.mem_union, hprofiles id]
      simp [collected]
    | ssh | redis => simp [collected]
  refine ⟨⟨collected_closed, fun sets hsets => collected_le hsets⟩, ?_, ?_, hconn, fun hflat => ⟨?_, ?_⟩⟩
  · intro id
    unfold getWorkspaceAccess
    rw [h, if_neg Bool.false_ne_true]
    exact Iff.rfl
  · intro id
    unfold getWorkspaceAccess
    rw [h, if_neg Bool.false_ne_true]
    change id ∈ _ ∪ _ ↔ _
    rw [Finset.mem_union, mem_toFinset, mem_filterMap, or_comm]
    apply or_congr_right
    simp only [mem_rowsIn, Option.some.injEq, exists_eq_right']
    constructor
    · rintro ⟨e, ⟨he, henv⟩, hgroup⟩
      exact ⟨e, he, henv, hgroup⟩
    rintro ⟨e, he, henv, hgroup⟩
    exact ⟨e, ⟨he, henv⟩, hgroup⟩
  · have hother : ∀ type, type ≠ .connection .database →
        Function.update (collected db user) (.connection .database)
          {id | id ∈ (getWorkspaceAccess db user).connectionIds .database} type = collected db user type :=
      fun type htype => update_of_ne htype _ _
    have hsub : ∀ type, collected db user type ⊆ Function.update (collected db user)
        (.connection .database) {id | id ∈ (getWorkspaceAccess db user).connectionIds .database} type := by
      intro type id hid
      by_cases htype : type = .connection .database
      · subst htype
        rw [update_self]
        exact (hconn .database id).mpr (.inl hid)
      rwa [hother type htype]
    refine ⟨⟨?_, ?_, ?_, ?_⟩, ?_⟩
    · exact fun g hg => hsub _ (collected_closed.direct g hg)
    · exact fun g hg horg htype p hp hid => hsub _ (collected_closed.project g hg horg htype p hp hid)
    · intro e he hws group hgroup hid
      rw [hother _ (by simp)] at hgroup ⊢
      exact collected_closed.group e he hws group hgroup hid
    · intro type p hp henv
      rw [hother _ (by simp)] at henv
      exact hsub _ (collected_closed.placement type p hp henv)
    rintro id ⟨c, hc, rfl, root, hroot, hpar⟩
    rw [update_self] at hroot ⊢
    rcases (hconn .database root).mp hroot with hroot | ⟨-, r, hr, hrid, _, -, hr'⟩
    · exact (hconn .database c.id).mpr (.inr ⟨rfl, c, hc, rfl, root, hroot, hpar⟩)
    rw [hflat c hc root hpar r hr hrid] at hr'
    cases hr'
  intro sets hsets type id hid
  have hbelow := collected_le hsets.toClosed
  by_cases htype : type = .connection .database
  · subst htype
    rw [update_self] at hid
    rcases (hconn .database id).mp hid with hid | ⟨-, c, hc, hcid, root, hroot, hpar⟩
    · exact hbelow _ hid
    exact hsets.profile id ⟨c, hc, hcid, root, hbelow _ hroot, hpar⟩
  rw [update_of_ne htype] at hid
  exact hbelow type hid

/-- All rows of one database are rows of another one. -/
structure Within (db db' : Database) : Prop where
  grants : db.grants ⊆ db'.grants
  projects : db.projects ⊆ db'.projects
  members : db.members ⊆ db'.members
  environments : db.environments ⊆ db'.environments
  connections : ∀ type, db.connections type ⊆ db'.connections type
  placements : ∀ type, db.placements type ⊆ db'.placements type

theorem Within.granting (h : Within db db') (hp : Granting db user p) : Granting db' user p := by
  have hmem : ∀ q ∈ organizationProjects db user, q ∈ organizationProjects db' user := by
    intro q hq
    obtain ⟨hq, hid⟩ := mem_filter.mp hq
    exact mem_filter.mpr ⟨h.projects hq, hid⟩
  induction hp with
  | own hp hmember =>
    exact .own (hmem _ hp) (contains_iff_mem.mpr (h.members (contains_iff_mem.mp hmember)))
  | above _ hq hpar ih => exact .above ih (hmem _ hq) hpar

theorem collected_within (h : Within db db') : collected db user ≤ collected db' user := by
  apply collected_le
  refine ⟨?_, ?_, ?_, ?_⟩
  · intro g hg
    obtain ⟨hg, hdirect⟩ := mem_filter.mp hg
    exact collected_closed.direct g (mem_filter.mpr ⟨h.grants hg, hdirect⟩)
  · exact fun g hg horg htype p hp => collected_closed.project g (h.grants hg) horg htype p (h.granting hp)
  · exact fun e he => collected_closed.group e (h.environments he)
  exact fun type p hp => collected_closed.placement type p (h.placements type hp)

def Access.ids (access : Access) : ResourceType → Finset Text
  | .environmentGroup => access.environmentGroupIds
  | .environment => access.environmentIds
  | .connection type => access.connectionIds type

theorem Within.access (h : Within db db') (type : ResourceType) :
    (getWorkspaceAccess db user).ids type ⊆ (getWorkspaceAccess db' user).ids type := by
  cases hmanage : user.canManage with
  | true =>
    unfold getWorkspaceAccess
    rw [hmanage, if_pos rfl, if_pos rfl]
  | false =>
    have hpre : LeastAccess db user _ _ := leastAccess hmanage
    have hafter : LeastAccess db' user _ _ := leastAccess hmanage
    have hle : collected db user ≤ collected db' user := collected_within h
    intro id hid
    cases type with
    | environmentGroup =>
      apply (hafter.environmentGroup id).mpr
      rcases (hpre.environmentGroup id).mp hid with hid | ⟨e, he, hin, hgroup⟩
      · exact .inl (hle _ hid)
      exact .inr ⟨e, h.environments he, hle _ hin, hgroup⟩
    | environment => exact (hafter.environment id).mpr (hle _ ((hpre.environment id).mp hid))
    | connection type =>
      apply (hafter.connection type id).mpr
      rcases (hpre.connection type id).mp hid with hid | ⟨htype, c, hc, hcid, root, hroot, hpar⟩
      · exact .inl (hle _ hid)
      exact .inr ⟨htype, c, h.connections _ hc, hcid, root, hle _ hroot, hpar⟩

theorem canManage_eq (db db' : Database) (user : AuthenticatedUser) :
    (getWorkspaceAccess db user).canManage = (getWorkspaceAccess db' user).canManage := by
  unfold getWorkspaceAccess
  split <;> rfl

/-- The access of a member: the least closed sets, from walks that end by themselves; only
for the own workspace; not less with more grants and members; and the same for the rows in
every order. -/
theorem workspace_access (db : Database) (user : AuthenticatedUser) :
    (user.canManage = false → ∃ sets, LeastAccess db user (getWorkspaceAccess db user) sets) ∧
    (∀ more, grantedProjectIds db user (db.projects.length + 1 + more) =
      grantedProjectIds db user (db.projects.length + 1)) ∧
    (∀ id, canAccessEnvironment db user id = true →
      ∃ row ∈ db.environments, row.id = id ∧ row.workspace = user.workspace) ∧
    (∀ type id, canAccessConnection db user type id = true →
      ∃ row ∈ db.connections type, row.id = id ∧ row.workspace = user.workspace) ∧
    (∀ grants members, db.grants ⊆ grants → db.members ⊆ members →
      let db' : Database := { db with grants, members }
      (∀ type, (getWorkspaceAccess db user).ids type ⊆ (getWorkspaceAccess db' user).ids type) ∧
      (∀ id, canAccessEnvironment db user id = true → canAccessEnvironment db' user id = true) ∧
      ∀ type id, canAccessConnection db user type id = true →
        canAccessConnection db' user type id = true) ∧
    ∀ db', Within db db' → Within db' db → getWorkspaceAccess db' user = getWorkspaceAccess db user := by
  refine ⟨fun h => ⟨_, leastAccess h⟩, fun more => ?_, fun id h => ?_, fun type id h => ?_,
    fun grants members hgrants hmembers => ?_, fun db' h h' => ?_⟩
  · ext id
    rw [mem_grantedProjectIds (by omega), mem_grantedProjectIds (Nat.lt_succ_self _)]
  · unfold canAccessEnvironment at h
    split at h
    · cases h
    rename_i row hrow
    split at h
    · cases h
    rename_i hws
    exact ⟨row, mem_of_find?_eq_some hrow, by simpa using find?_some hrow, not_not.mp hws⟩
  · unfold canAccessConnection at h
    split at h
    · cases h
    rename_i row hrow
    split at h
    · cases h
    rename_i hws
    exact ⟨row, mem_of_find?_eq_some hrow, by simpa using find?_some hrow, not_not.mp hws⟩
  · intro db'
    have hwithin : Within db db' := ⟨hgrants, fun _ h => h, hmembers, fun _ h => h, fun _ _ h => h,
      fun _ _ h => h⟩
    have hids : ∀ type id, id ∈ (getWorkspaceAccess db user).ids type →
        id ∈ (getWorkspaceAccess db' user).ids type := fun type _ hid => hwithin.access type hid
    refine ⟨fun type => hwithin.access type, fun id h => ?_, fun type id h => ?_⟩
    · unfold canAccessEnvironment at h ⊢
      revert h
      cases db.environments.find? (·.id = id) with
      | none => exact fun h => h
      | some row =>
        intro h
        dsimp only at h ⊢
        split at h
        · cases h
        rename_i hws
        rw [Bool.or_eq_true, decide_eq_true_eq] at h
        simp only [if_neg hws, canManage_eq db' db, Bool.or_eq_true, decide_eq_true_eq]
        exact h.imp_right (hids .environment id)
    unfold canAccessConnection at h ⊢
    revert h
    cases (db.connections type).find? (·.id = id) with
    | none => exact fun h => h
    | some row =>
      intro h
      dsimp only at h ⊢
      split at h
      · cases h
      rename_i hws
      simp only [Bool.or_eq_true, Bool.and_eq_true, decide_eq_true_eq, Option.any_eq_true] at h
      simp only [if_neg hws, canManage_eq db' db, Bool.or_eq_true, Bool.and_eq_true,
        decide_eq_true_eq, Option.any_eq_true]
      rcases h with (hmanage | hid) | ⟨htype, root, hroot, hid⟩
      · exact .inl (.inl hmanage)
      · exact .inl (.inr (hids (.connection type) id hid))
      exact .inr ⟨htype, root, hroot, hids (.connection type) root hid⟩
  have hids : ∀ type, (getWorkspaceAccess db' user).ids type = (getWorkspaceAccess db user).ids type :=
    fun type => Finset.Subset.antisymm (h'.access type) (h.access type)
  have hmanage : (getWorkspaceAccess db' user).canManage = (getWorkspaceAccess db user).canManage :=
    canManage_eq db' db user
  have hconnections : (getWorkspaceAccess db' user).connectionIds =
      (getWorkspaceAccess db user).connectionIds := funext fun type => hids (.connection type)
  have hgroups := hids .environmentGroup
  have henvironments := hids .environment
  cases hpre : getWorkspaceAccess db user
  cases hafter : getWorkspaceAccess db' user
  simp_all [Access.ids]

def member : AuthenticatedUser := ⟨"u".toList, ⟨.organization, "o".toList⟩, .member⟩

/-- An environment of a group is granted, and a connection with a profile that has itself a
profile. -/
def nested : Database where
  grants :=
    [⟨"o".toList, .user, "u".toList, .environment, "e".toList⟩,
      ⟨"o".toList, .user, "u".toList, .connection .database, "r".toList⟩]
  projects := []
  members := []
  environments := [⟨"e".toList, ⟨.organization, "o".toList⟩, some "g".toList⟩]
  connections _ :=
    [⟨"r".toList, ⟨.organization, "o".toList⟩, none⟩,
      ⟨"p".toList, ⟨.organization, "o".toList⟩, some "r".toList⟩,
      ⟨"q".toList, ⟨.organization, "o".toList⟩, some "p".toList⟩]
  placements _ := []
  unique := by decide

/-- The group of the environment is in the sets although nothing grants it, and the profile
of the profile is not. -/
theorem groups_and_nested_profiles :
    (∃ sets, ClosedProfiles nested member sets ∧ "g".toList ∉ sets .environmentGroup) ∧
      "g".toList ∈ (getWorkspaceAccess nested member).environmentGroupIds ∧
      "p".toList ∈ (getWorkspaceAccess nested member).connectionIds .database ∧
      ProfileOf nested {"p".toList} "q".toList ∧
      "q".toList ∉ (getWorkspaceAccess nested member).connectionIds .database := by
  refine ⟨⟨fun type => {_id | type ≠ .environmentGroup}, ⟨⟨?_, ?_, ?_, ?_⟩, ?_⟩, by simp⟩,
    by decide +kernel, by decide +kernel, ?_, by decide +kernel⟩
  · intro g hg
    have htypes : (directGrants nested member).all (fun g => g.resourceType ≠ .environmentGroup) = true := by
      decide
    exact of_decide_eq_true (all_eq_true.mp htypes g hg)
  · intro g hg _ htype
    have husers : nested.grants.all (fun g => g.granteeType ≠ .project) = true := by decide
    exact absurd htype (of_decide_eq_true (all_eq_true.mp husers g hg))
  · exact fun _ _ _ _ h => absurd rfl h
  · exact fun _ p hp => absurd hp (by simp [nested])
  · exact fun _ _ => by simp
  exact ⟨⟨"q".toList, ⟨.organization, "o".toList⟩, some "p".toList⟩, by simp [nested], rfl,
    "p".toList, rfl, rfl⟩

end ImApp.WorkspaceAccess
