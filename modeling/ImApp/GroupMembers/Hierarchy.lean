import ImApp.GroupMembers.Steps

/-!
The roles of a group. `RemoveMember` compares the roles of both before the transaction that
deletes the membership; that transaction looks at the target again only for the owner.
-/

namespace ImApp.GroupMembers

open InterleavedCalls StepSystem List Option KeyedTable

/-- No owner is removed, and whoever is not the owner removes members only. -/
structure Permitted (x : Removal) : Prop where
  owner : x.role ≠ .owner
  kicked : ∀ role, x.kickedBy = some role → role ≠ some .owner → x.role = .member

/-- The request removes this member on behalf of somebody it has seen as an admin. -/
def GroupCall.removes (target : String) : GroupCall → Prop
  | .removeMembership user (some (_, role)) | .deleting user (some (_, role)) => user = target ∧ role = .admin
  | _ => False

/-- Nobody becomes an admin whom an admin is about to remove. -/
def Promotes (s : State GroupData GroupCall) : Action GroupCall Answer PublishedGroupLimits → Prop
  | .advance id answer => answer ≠ .failed → ∀ target,
      s.calls id = some (.updatingRole target .admin) → ¬ s.InProgress (GroupCall.removes target)
  | _ => True

def IsOwner (d : GroupData) (user : String) : Prop :=
  d.group.isSome = true ∧ ⟨user, .owner⟩ ∈ d.members.rows

def NotOwner (d : GroupData) (user : String) : Prop :=
  d.group.isSome = true ∧ ∀ m ∈ d.members.rows, m.user = user → m.role ≠ .owner

def OnlyMember (d : GroupData) (user : String) : Prop :=
  d.group.isSome = true ∧ ∀ m ∈ d.members.rows, m.user = user → m.role = .member

/-- By the roles that were read, and still as far as it matters. -/
def Outranks (d : GroupData) (actor : String) (role : Role) (target : String) : Prop :=
  (role = .owner ∧ IsOwner d actor) ∨ (role = .admin ∧ OnlyMember d target)

structure Ranked (d : GroupData) : Prop where
  removals : ∀ x ∈ d.removals, Permitted x
  founded : d.group = none → d.members.rows = []

def Ranks (d : GroupData) : GroupCall → Prop
  | .readTarget actor role _ => role = .owner → IsOwner d actor
  | .removeMembership target kicker =>
    ∀ actor role, kicker = some (actor, role) → Outranks d actor role target
  | .deleting target kicker => NotOwner d target ∧
      ∀ actor role, kicker = some (actor, role) → Outranks d actor role target
  | .updatingRole target role => role ≠ .owner ∧ NotOwner d target
  | _ => True

/-- What a request that is about to write has seen of its target. -/
def Spares (d : GroupData) : GroupCall → Prop
  | .deleting target _ => NotOwner d target
  | .updatingRole target role => role ≠ .owner ∧ NotOwner d target
  | _ => True

variable {r : GroupRepo} {d : GroupData} {id : ℕ} {user : String} {role : Role} {call : GroupCall}
  {write : Write} {next : Option GroupCall}

theorem mem_of_roleOf (h : d.roleOf user = some role) : ⟨user, role⟩ ∈ d.members.rows := by
  obtain ⟨m, hfound, rfl⟩ := map_eq_some_iff.mp h
  have huser := find?_some hfound
  rw [decide_eq_true_eq] at huser
  rw [← huser]
  exact mem_of_find?_eq_some hfound

theorem roleOf_of_mem (h : ⟨user, role⟩ ∈ d.members.rows) : d.roleOf user = some role := by
  have hexists : (d.members.rows.find? fun m => m.user = user).isSome = true :=
    find?_isSome.mpr ⟨_, h, decide_eq_true rfl⟩
  obtain ⟨m, hfound⟩ := isSome_iff_exists.mp hexists
  have huser := find?_some hfound
  rw [decide_eq_true_eq] at huser
  have hsame : m = ⟨user, role⟩ :=
    eq_of_key (mem_of_find?_eq_some hfound) h huser
  rw [GroupData.roleOf, hfound, hsame]
  rfl

/-- The rows that a write leaves: old ones, new members, or the row whose role it sets. -/
theorem mem_write {m : Member} (hgroup : d.group.isSome = true) (h : m ∈ (d.write r id write).members.rows) :
    m ∈ d.members.rows ∨ m.role = .member ∨ write = .setRole m.user m.role := by
  have hadded : ∀ users, m ∈ (d.addMembers users).rows → m ∈ d.members.rows ∨ m.role = .member := by
    intro users hm
    rcases mem_insertAll hm with hpre | hnew
    · exact .inl hpre
    obtain ⟨added, -, rfl⟩ := List.mem_map.mp hnew
    exact .inr rfl
  cases write with
  | create =>
    simp only [GroupData.write, if_pos hgroup] at h
    exact .inl h
  | add origin user => exact (hadded [user] h).imp_right .inl
  | invite role direct => exact (hadded direct h).imp_right .inl
  | delete => exact .inl (mem_of_mem_filter h)
  | setRole target role =>
    rcases mem_update h with ⟨before, -, htgt, rfl⟩ | ⟨hpre, -⟩
    · refine .inr (.inr ?_)
      rw [decide_eq_true_eq] at htgt
      rw [← htgt]
      rfl
    exact .inl hpre
  | _ => exact .inl h

theorem group_stays (hstep : Step r d call write next) (h : d.group.isSome = true) :
    (d.write r id write).group.isSome = true := by
  obtain ⟨g, hg⟩ := isSome_iff_exists.mp h
  obtain ⟨g', hg', -⟩ := write_group id hstep hg
  rw [hg']
  rfl

theorem Ranks.spares (h : Ranks d call) : Spares d call := by
  cases call with
  | deleting target kicker => exact h.1
  | updatingRole target role => exact h
  | _ => trivial

theorem IsOwner.stays (h : IsOwner d user) (hstep : Step r d call write next) (hspares : Spares d call) :
    IsOwner (d.write r id write) user := by
  refine ⟨group_stays hstep h.1, ?_⟩
  cases hstep with
  | create =>
    simp only [GroupData.write, if_pos h.1]
    exact h.2
  | add | invite => exact mem_insertAll_of_mem h.2
  | delete target kicker =>
    have hother : user ≠ target := fun hsame => hspares.2 _ h.2 hsame rfl
    exact mem_filter.mpr ⟨h.2, by simpa using hother⟩
  | setRole target role =>
    have hother : user ≠ target := fun hsame => hspares.2.2 _ h.2 hsame rfl
    exact mem_update_of_kept h.2 (by simpa using hother)
  | _ => exact h.2

theorem Spares.setRole (h : Spares d call) (hstep : Step r d call (.setRole user role) next) :
    role ≠ .owner := by
  cases hstep with
  | setRole => exact h.1

theorem NotOwner.stays (h : NotOwner d user) (hstep : Step r d call write next) (hspares : Spares d call) :
    NotOwner (d.write r id write) user := by
  refine ⟨group_stays hstep h.1, ?_⟩
  intro m hm huser
  rcases mem_write h.1 hm with hpre | hmember | rfl
  · exact h.2 m hpre huser
  · rw [hmember]
    simp
  exact hspares.setRole hstep

theorem OnlyMember.stays (h : OnlyMember d user) (hstep : Step r d call write next) (hranks : Ranks d call)
    (hpromote : write ≠ .setRole user .admin) : OnlyMember (d.write r id write) user := by
  refine ⟨group_stays hstep h.1, ?_⟩
  rintro m hm rfl
  rcases mem_write h.1 hm with hpre | hmember | rfl
  · exact h.2 m hpre rfl
  · exact hmember
  have howner : m.role ≠ .owner := hranks.spares.setRole hstep
  cases hrole : m.role with
  | owner => exact absurd hrole howner
  | admin =>
    rw [hrole] at hpromote
    exact absurd rfl hpromote
  | member => rfl

theorem Outranks.stays {actor target : String} (h : Outranks d actor role target)
    (hstep : Step r d call write next) (hranks : Ranks d call)
    (hpromote : role = .admin → write ≠ .setRole target .admin) :
    Outranks (d.write r id write) actor role target := by
  rcases h with ⟨howner, hactor⟩ | ⟨hadmin, htgt⟩
  · exact .inl ⟨howner, hactor.stays hstep hranks.spares⟩
  exact .inr ⟨hadmin, htgt.stays hstep hranks (hpromote hadmin)⟩

/-- What a request relies on is kept by the others, unless they promote whom it removes. -/
theorem Ranks.stays {current : GroupCall} (h : Ranks d current) (hstep : Step r d call write next)
    (hranks : Ranks d call) (hpromote : ∀ target, current.removes target → write ≠ .setRole target .admin) :
    Ranks (d.write r id write) current := by
  cases current with
  | readTarget actor role target => exact fun howner => (h howner).stays hstep hranks.spares
  | removeMembership target kicker =>
    rintro actor role rfl
    exact (h actor role rfl).stays hstep hranks fun hadmin => hpromote target ⟨rfl, hadmin⟩
  | deleting target kicker =>
    refine ⟨h.1.stays hstep hranks.spares, ?_⟩
    rintro actor role rfl
    exact (h.2 actor role rfl).stays hstep hranks fun hadmin => hpromote target ⟨rfl, hadmin⟩
  | updatingRole target role => exact ⟨h.1, h.2.stays hstep hranks.spares⟩
  | _ => trivial

theorem group_of_roleOf (hfounded : d.group = none → d.members.rows = [])
    (hrole : d.roleOf user = some role) : d.group.isSome = true := by
  cases hgroup : d.group with
  | none =>
    have hmem := mem_of_roleOf hrole
    rw [hfounded hgroup] at hmem
    cases hmem
  | some g => rfl

theorem rows_of_roleOf (hrole : d.roleOf user = some role) :
    ∀ m ∈ d.members.rows, m.user = user → m.role = role := by
  intro m hm huser
  rw [eq_of_key hm (mem_of_roleOf hrole) huser]

theorem notOwner_of_roleOf (hfounded : d.group = none → d.members.rows = [])
    (hrole : d.roleOf user = some role) (howner : role ≠ .owner) : NotOwner d user := by
  refine ⟨group_of_roleOf hfounded hrole, ?_⟩
  intro m hm huser
  rw [rows_of_roleOf hrole m hm huser]
  exact howner

theorem Spares.move {current : GroupCall} (hfounded : d.group = none → d.members.rows = [])
    (hmove : Move r d call current) : Spares d current := by
  cases hmove with
  | remove target kicker role hrole howner => exact notOwner_of_roleOf hfounded hrole howner
  | changeRole operator target role current hrole hcur howner =>
    exact ⟨hrole, notOwner_of_roleOf hfounded hcur howner⟩
  | _ => trivial

theorem Ranks.move {current : GroupCall} (h : Ranks d call) (hranked : Ranked d)
    (hmove : Move r d call current) : Ranks d current := by
  have hspares := Spares.move hranked.founded hmove
  cases hmove with
  | readActor actor target role hrole =>
    rintro rfl
    exact ⟨group_of_roleOf hranked.founded hrole, mem_of_roleOf hrole⟩
  | kick actor target role targetRole htgt howner hmanages hadmin =>
    intro actor' role' hkicker
    cases hkicker
    cases role with
    | owner => exact .inl ⟨rfl, h rfl⟩
    | admin =>
      refine .inr ⟨rfl, group_of_roleOf hranked.founded htgt, ?_⟩
      intro m hm huser
      rw [rows_of_roleOf htgt m hm huser]
      cases targetRole with
      | owner => exact absurd rfl howner
      | admin => exact absurd ⟨rfl, rfl⟩ hadmin
      | member => rfl
    | member => cases hmanages
  | remove target kicker role hrole howner => exact ⟨hspares, h⟩
  | changeRole operator target role current hrole hcur howner => exact hspares
  | _ => trivial

theorem Ranks.own {current : GroupCall} (h : Ranks d call) (hranked : Ranked d)
    (hstep : Step r d call write (some current)) : Ranks (d.write r id write) current := by
  rcases hstep.goes_on with ⟨rfl, hmove⟩ | ⟨origin, user, g, -, -, -, rfl⟩ |
    ⟨actor, role, ids, memberCount, g, -, -, -, rfl⟩ | ⟨token, rfl⟩ | ⟨request, rfl⟩
  · exact h.move hranked hmove
  · trivial
  · trivial
  · trivial
  trivial

theorem Ranks.permitted {target : String} {kicker : Option (String × Role)}
    (h : Ranks d (.deleting target kicker)) (hrole : d.roleOf target = some role) :
    Permitted ⟨role, (kicker.map Prod.fst).map d.roleOf⟩ := by
  constructor
  · exact h.1.2 _ (mem_of_roleOf hrole) rfl
  intro kickedBy hkicked hnot
  cases kicker with
  | none => cases hkicked
  | some kicker =>
    cases hkicked
    rcases h.2 kicker.1 kicker.2 rfl with ⟨-, hactor⟩ | ⟨-, htgt⟩
    · exact absurd (roleOf_of_mem hactor.2) hnot
    exact htgt.2 _ (mem_of_roleOf hrole) rfl

theorem Ranked.written (h : Ranked d) (hranks : Ranks d call) (hstep : Step r d call write next)
    (hlock : HoldsLock d id call) : Ranked (d.write r id write) := by
  have hexists : call.locks = true → d.group ≠ none := by
    intro hlocks hnone
    have hgroup := (hlock hlocks).2
    rw [hnone] at hgroup
    cases hgroup
  have hmap : ∀ f : Group → Group, d.group.map f = none → d.members.rows = [] := by
    intro f hnone
    exact h.founded (map_eq_none_iff.mp hnone)
  cases hstep with
  | create =>
    unfold GroupData.write
    dsimp only
    split
    · exact h
    refine ⟨h.removals, ?_⟩
    intro hnone
    cases hnone
  | add | invite => exact ⟨h.removals, fun hnone => absurd hnone (hexists rfl)⟩
  | delete target kicker =>
    refine ⟨?_, ?_⟩
    · intro x hx
      simp only [GroupData.write] at hx
      split at hx
      · rename_i role hrole
        rcases mem_cons.mp hx with rfl | hpre
        · exact hranks.permitted hrole
        exact h.removals x hpre
      exact h.removals x hx
    intro hnone
    change List.filter _ d.members.rows = []
    rw [h.founded hnone, filter_nil]
  | setRole target role =>
    refine ⟨h.removals, ?_⟩
    intro hnone
    change List.map _ d.members.rows = []
    rw [h.founded hnone, map_nil]
  | setJoinMode | setMaxMembers | dismiss => exact ⟨h.removals, hmap _⟩
  | _ => exact ⟨h.removals, h.founded⟩

variable {s : State GroupData GroupCall}

theorem removals_ranked (hs : (groupService r).machine.ReachableBy Promotes s) :
    Service.Holds Ranked (fun d id call => HoldsLock d id call ∧ Ranks d call) s := by
  apply holds_of_steps _ _ _ _ _ hs
  · rintro d ⟨-, hmembers, -, -, -, -, hremov, -⟩
    refine ⟨?_, ?_⟩
    · intro x hx
      rw [hremov] at hx
      cases hx
    intro _
    rw [hmembers]
    rfl
  · intro d id call hopens
    cases call with
    | readTarget | deleting | updatingRole => cases hopens
    | removeMembership target kicker =>
      rintro actor role rfl
      cases hopens
    | _ => trivial
  · intro s id answer call write next _ _ hadv hlock hranked hranks
    refine ⟨hranked.written hranks (step_of_advance hadv) hlock, ?_⟩
    rintro current rfl
    exact hranks.own hranked (step_of_advance hadv)
  · intro s id answer call write next other current hallow hcall hcur _ hadv _ _ _ hranks hothers
    apply hothers.stays (step_of_advance hadv) hranks
    rintro target hremoves rfl
    cases step_of_advance hadv with
    | setRole =>
      apply hallow (answered_of_write hadv (by simp) (by simp)) target hcall
      exact ⟨other, current, hcur, hremoves⟩
  intro d published hranked
  refine ⟨⟨hranked.removals, hranked.founded⟩, ?_⟩
  intro id call hranks
  cases call <;> exact hranks

/-- In every run in which nobody becomes an admin whom an admin is about to remove, removals
keep to the hierarchy. -/
theorem removals_keep_hierarchy (hs : (groupService r).machine.ReachableBy Promotes s) :
    ∀ x ∈ s.data.removals, Permitted x :=
  (removals_ranked hs).data.removals

/-- The next statement makes somebody an admin. -/
def GroupCall.promotes : GroupCall → Bool
  | .updatingRole _ .admin => true
  | _ => false

/-- Nobody becomes an admin at all. -/
def KeepsRoles (s : State GroupData GroupCall) : Action GroupCall Answer PublishedGroupLimits → Prop
  | .advance id _ => (s.calls id).any GroupCall.promotes = false
  | _ => True

instance (s : State GroupData GroupCall) (action : Action GroupCall Answer PublishedGroupLimits) :
    Decidable (KeepsRoles s action) :=
  match action with
  | .start _ _ => inferInstanceAs (Decidable True)
  | .advance id _ => inferInstanceAs (Decidable ((s.calls id).any GroupCall.promotes = false))
  | .world _ => inferInstanceAs (Decidable True)

theorem KeepsRoles.promotes {action : Action GroupCall Answer PublishedGroupLimits}
    (h : KeepsRoles s action) : Promotes s action := by
  cases action with
  | start | world => trivial
  | advance id answer =>
    intro _ target hcall
    change (s.calls id).any GroupCall.promotes = false at h
    rw [hcall] at h
    cases h

/-- Alice creates a group with Bob and Carol. -/
def createThreeActions : List (Action GroupCall Answer PublishedGroupLimits) :=
  .start 1 (.create "alice" ["bob", "carol"]) :: List.replicate 2 (.advance 1 .answered)

/-- Bob is to be removed by Alice, and Carol leaves. -/
def departActions : List (Action GroupCall Answer PublishedGroupLimits) :=
  .start 2 (.removeMember "alice" "bob") :: List.replicate 4 (.advance 2 .answered) ++
    .start 3 (.removeMembership "carol" none) :: List.replicate 2 (.advance 3 .answered)

theorem removals_keep_hierarchy_depart : ∃ s : State GroupData GroupCall,
      s.data.removals = [⟨.member, none⟩, ⟨.member, some (some .owner)⟩] ∧
        ∀ x ∈ s.data.removals, Permitted x := by
  have hrun : ((groupService groupsOfThree).machine.executeBy KeepsRoles noGroup
      (createThreeActions ++ departActions)).map (fun s => s.data.removals) =
        some [⟨.member, none⟩, ⟨.member, some (some .owner)⟩] := by decide
  obtain ⟨s, hs, hremov⟩ := map_eq_some_iff.mp hrun
  have hpath := (Machine.path_of_executeBy hs).weaken fun _ _ h => h.promotes
  exact ⟨s, hremov, removals_keep_hierarchy ⟨noGroup, noGroup_initial, hpath⟩⟩

/-- Alice makes Bob an admin, and Bob finds Carol to be a member. -/
def checkActions : List (Action GroupCall Answer PublishedGroupLimits) :=
  .start 2 (.updateMemberRole "alice" "bob" .admin) :: List.replicate 2 (.advance 2 .answered) ++
    .start 3 (.removeMember "bob" "carol") :: List.replicate 3 (.advance 3 .answered)

/-- Carol becomes an admin before Bob's removal is over. -/
def promoteActions : List (Action GroupCall Answer PublishedGroupLimits) :=
  .start 4 (.updateMemberRole "alice" "carol" .admin) :: List.replicate 2 (.advance 4 .answered) ++
    [.advance 3 .answered]

/-- One admin has removed the other. -/
theorem promoted_admin_removed : ∃ s, (groupService groupsOfThree).machine.Reachable s ∧
      s.data.removals = [⟨.admin, some (some .admin)⟩] ∧ ∃ x ∈ s.data.removals, ¬ Permitted x := by
  have hrun : ((groupService groupsOfThree).machine.execute noGroup
      (createThreeActions ++ checkActions ++ promoteActions)).map (fun s => s.data.removals) =
        some [⟨.admin, some (some .admin)⟩] := by decide
  obtain ⟨s, hs, hremov⟩ := map_eq_some_iff.mp hrun
  refine ⟨s, Machine.reachable_of_execute noGroup_initial hs, hremov, ⟨.admin, some (some .admin)⟩, ?_, ?_⟩
  · rw [hremov]
    exact mem_cons_self
  intro hpermitted
  have hmember : Role.admin = .member := hpermitted.kicked (some .admin) rfl (by decide)
  cases hmember

end ImApp.GroupMembers
