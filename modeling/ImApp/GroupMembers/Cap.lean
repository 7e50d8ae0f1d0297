import ImApp.GroupMembers.Steps

/-!
The limit of a group. `addMember` counts the members after it has the lock of the group;
`InviteMembers` counts them in the statement that asks for it, before the wait.
-/

namespace ImApp.GroupMembers

open InterleavedCalls StepSystem List Option

/-- An admission leaves no more members than each of the limits it has read. -/
structure WithinLimits (a : Admission) : Prop where
  own : (a.count : ℤ) ≤ a.own
  published : (a.count : ℤ) ≤ a.published
  hard : (a.count : ℤ) ≤ a.hard

/-- The number of members that a request takes along to the lock. -/
def GroupCall.memberCount? : GroupCall → Option ℕ
  | .lockingGroup _ _ _ memberCount => some memberCount
  | _ => none

/-- Where `InviteMembers` gets the lock, its count is not behind: since its statement
started there was no admission that makes the members more. -/
def CountsMembers (s : State GroupData GroupCall) : Action GroupCall Answer PublishedGroupLimits → Prop
  | .advance id answer => answer ≠ .failed →
      ∀ memberCount ∈ (s.calls id).bind GroupCall.memberCount?, s.data.members.size ≤ memberCount
  | _ => True

instance (s : State GroupData GroupCall) (action : Action GroupCall Answer PublishedGroupLimits) :
    Decidable (CountsMembers s action) :=
  match action with
  | .start _ _ => inferInstanceAs (Decidable True)
  | .advance id answer => inferInstanceAs (Decidable (answer ≠ .failed →
      ∀ memberCount ∈ (s.calls id).bind GroupCall.memberCount?, s.data.members.size ≤ memberCount))
  | .world _ => inferInstanceAs (Decidable True)

structure Capped (d : GroupData) : Prop where
  admissions : ∀ a ∈ d.admissions, WithinLimits a
  own : ∀ g, d.group = some g → 3 ≤ g.maxMembers

/-- The room that a request has found, as long as it holds the lock. -/
def Room (r : GroupRepo) (d : GroupData) : GroupCall → Prop
  | .creating owner memberIds limits => (∃ published, limits = r.publishedGroupLimits published) ∧
      1 + ((unseen [owner] memberIds).length : ℤ) ≤ limits.DefaultGroupMaxMembers
  | .locked _ _ _ configured | .counting _ _ configured => 3 ≤ configured
  | .limiting _ _ configured count => 3 ≤ configured ∧ d.members.size ≤ count
  | .inserting _ _ configured limits =>
    3 ≤ configured ∧ (d.members.size : ℤ) < r.effectiveGroupLimit limits configured
  | .inviting invite _ _ => 3 ≤ invite.configured ∧ d.members.size ≤ invite.memberCount
  | .asking invite limits _ _ => 3 ≤ invite.configured ∧
      (d.members.size : ℤ) + invite.directIDs.length ≤ r.effectiveGroupLimit limits invite.configured
  | _ => True

variable {r : GroupRepo} {d : GroupData} {id other : ℕ} {call : GroupCall} {write : Write}
  {next : Option GroupCall}

theorem write_size (hstep : Step r d call write next) (hown : HoldsLock d id call) (hother : other ≠ id)
    (hlock : d.lock = some other) (hgroup : d.group.isSome = true) :
    (d.write r id write).members.size ≤ d.members.size := by
  have hne : d.lock ≠ some id := by
    rw [hlock]
    intro hsame
    exact hother (some.inj hsame)
  cases hstep with
  | add | invite => exact absurd (hown rfl).1 hne
  | create =>
    unfold GroupData.write
    dsimp only
    rw [if_pos hgroup]
  | delete => exact KeyedTable.size_delete_le
  | setRole => exact Nat.le_of_eq KeyedTable.size_update
  | _ => exact Nat.le_refl _

theorem Room.shrinks {d' : GroupData} (h : Room r d call) (hsize : d'.members.size ≤ d.members.size) :
    Room r d' call := by
  cases call with
  | limiting | inviting => exact ⟨h.1, hsize.trans h.2⟩
  | inserting | asking =>
    obtain ⟨hconfigured, hroom⟩ := h
    exact ⟨hconfigured, by omega⟩
  | _ => exact h

theorem Room.unlocked {d' : GroupData} (h : Room r d call) (hlocks : call.locks = false) :
    Room r d' call := by
  cases call with
  | limiting | inserting | inviting | asking => cases hlocks
  | _ => exact h

theorem admission_within {origin : Origin} {invitedBy : Option Role} {members : Members} {configured : ℤ}
    {limits : PublishedGroupLimits} (hconfigured : 3 ≤ configured)
    (hroom : (members.size : ℤ) ≤ r.effectiveGroupLimit limits configured) :
    WithinLimits (d.admission r origin invitedBy members configured limits) := by
  obtain ⟨hown, hpublished, hhard⟩ := effectiveGroupLimit_least r limits hconfigured
  exact ⟨hroom.trans hown, hroom.trans hpublished, hroom.trans hhard⟩

theorem size_addMembers {users : List String} :
    (d.addMembers users).size ≤ d.members.size + users.length := by
  have hle : (d.addMembers users).size ≤ _ := KeyedTable.size_insertAll_le
  rwa [length_map] at hle

theorem size_founders {owner : String} {memberIds : List String} :
    (founders owner memberIds).size ≤ 1 + (unseen [owner] memberIds).length := by
  have hle : (founders owner memberIds).size ≤ _ := KeyedTable.size_insertAll_le
  rwa [length_map] at hle

theorem Capped.written (h : Capped d) (hstep : Step r d call write next) (hroom : Room r d call) :
    Capped (d.write r id write) := by
  cases hstep with
  | create owner memberIds limits =>
    obtain ⟨⟨published, rfl⟩, hfits⟩ := hroom
    obtain ⟨hlarge, hmost, hhard⟩ := publishedGroupLimits_ordered r published
    have hsize : (founders owner memberIds).size ≤ 1 + (unseen [owner] memberIds).length := size_founders
    unfold GroupData.write
    dsimp only
    split
    · exact h
    constructor
    · intro a ha
      rcases mem_cons.mp ha with rfl | hpre
      · have hcount : ((founders owner memberIds).size : ℤ) ≤
            (r.publishedGroupLimits published).DefaultGroupMaxMembers := by omega
        exact ⟨hcount, hcount.trans hmost, (hcount.trans hmost).trans hhard⟩
      exact h.admissions a hpre
    intro g hg
    cases hg
    exact hlarge
  | add origin user configured limits =>
    obtain ⟨hconfigured, hfits⟩ := hroom
    have hsize : (d.addMembers [user]).size ≤ d.members.size + 1 := size_addMembers
    refine ⟨?_, h.own⟩
    intro a ha
    rcases mem_cons.mp ha with rfl | hpre
    · exact admission_within hconfigured (by omega)
    exact h.admissions a hpre
  | invite invite limits asked =>
    obtain ⟨hconfigured, hfits⟩ := hroom
    have hsize : (d.addMembers invite.directIDs).size ≤ d.members.size + invite.directIDs.length :=
      size_addMembers
    refine ⟨?_, h.own⟩
    intro a ha
    simp only [GroupData.write] at ha
    split at ha
    · exact h.admissions a ha
    rcases mem_cons.mp ha with rfl | hpre
    · exact admission_within hconfigured (by omega)
    exact h.admissions a hpre
  | setJoinMode mode | dismiss operator =>
    refine ⟨h.admissions, ?_⟩
    intro g hg
    obtain ⟨before, hpre, rfl⟩ := map_eq_some_iff.mp hg
    exact h.own before hpre
  | setMaxMembers limit hfree hlimit =>
    refine ⟨h.admissions, ?_⟩
    intro g hg
    obtain ⟨before, hpre, rfl⟩ := map_eq_some_iff.mp hg
    exact hlimit
  | _ => exact ⟨h.admissions, h.own⟩

theorem Room.move {current : GroupCall} (hroom : Room r d call) (hmove : Move r d call current) :
    Room r d current := by
  cases hmove with
  | create owner memberIds hfits => exact ⟨⟨_, rfl⟩, hfits⟩
  | absent | ask => exact hroom
  | count => exact ⟨hroom, Nat.le_refl _⟩
  | limit origin user configured count hfits =>
    obtain ⟨hconfigured, hcount⟩ := hroom
    exact ⟨hconfigured, by omega⟩
  | look invite looked seen seen' ids ids' hrole hcount hconfigured =>
    obtain ⟨hlarge, hsize⟩ := hroom
    exact ⟨hconfigured ▸ hlarge, hcount ▸ hsize⟩
  | room invite seen hfits =>
    obtain ⟨hlarge, hsize⟩ := hroom
    exact ⟨hlarge, by omega⟩
  | _ => trivial

theorem Room.own {current : GroupCall} (h : Capped d) (hroom : Room r d call)
    (hstep : Step r d call write (some current))
    (hcounts : ∀ actor role ids memberCount, call = .lockingGroup actor role ids memberCount →
      write = .take → d.members.size ≤ memberCount) : Room r (d.write r id write) current := by
  rcases hstep.goes_on with ⟨rfl, hmove⟩ | ⟨origin, user, g, -, rfl, hg, rfl⟩ |
    ⟨actor, role, ids, memberCount, g, rfl, rfl, hg, rfl⟩ | ⟨token, rfl⟩ | ⟨request, rfl⟩
  · exact hroom.move hmove
  · exact h.own g hg
  · exact ⟨h.own g hg, hcounts actor role ids memberCount rfl rfl⟩
  · trivial
  trivial

variable {s : State GroupData GroupCall}

theorem members_capped (hs : (groupService r).machine.ReachableBy CountsMembers s) :
    Service.Holds Capped (fun d id call => HoldsLock d id call ∧ Room r d call) s := by
  apply holds_of_steps _ _ _ _ _ hs
  · rintro d ⟨hgroup, -, -, -, -, hadmissions, -, -⟩
    constructor
    · intro a ha
      rw [hadmissions] at ha
      cases ha
    intro g hg
    rw [hgroup] at hg
    cases hg
  · intro d id call hopens
    cases call with
    | creating | locked | counting | limiting | inserting | inviting | asking => cases hopens
    | _ => trivial
  · intro s id answer call write next hallow hcall hadv _ hcapped hroom
    refine ⟨hcapped.written (step_of_advance hadv) hroom, ?_⟩
    rintro current rfl
    apply hroom.own hcapped (step_of_advance hadv)
    rintro actor role ids memberCount rfl rfl
    apply hallow (answered_of_write hadv (by simp) (by simp))
    rw [hcall]
    rfl
  · intro s id answer call write next other current _ _ _ hother hadv hown hlock _ _ hroom
    cases hlocks : current.locks with
    | true =>
      obtain ⟨hheld, hgroup⟩ := hlock hlocks
      exact hroom.shrinks (write_size (step_of_advance hadv) hown hother hheld hgroup)
    | false => exact hroom.unlocked hlocks
  intro d published hcapped
  exact ⟨⟨hcapped.admissions, hcapped.own⟩, fun id call hroom => hroom.shrinks (Nat.le_refl _)⟩

/-- In every run in which the count of `InviteMembers` is not behind when it gets the lock,
no admission exceeds a limit. -/
theorem admissions_within_limits (hs : (groupService r).machine.ReachableBy CountsMembers s) :
    ∀ a ∈ s.data.admissions, WithinLimits a :=
  (members_capped hs).data.admissions

/-- Alice invites Dave, up to the lock. -/
def inviteActions : List (Action GroupCall Answer PublishedGroupLimits) :=
  [.start 2 (.inviteMembers "alice" ["dave"]), .advance 2 .answered, .advance 2 .answered]

/-- The rest of it, from the lock. -/
def invitedActions : List (Action GroupCall Answer PublishedGroupLimits) :=
  [.advance 2 .answered, .advance 2 (.invitee true false), .advance 2 .answered, .advance 2 .answered]

/-- Carol joins. -/
def joinActions : List (Action GroupCall Answer PublishedGroupLimits) :=
  [.start 3 (.adding .join "carol"), .advance 3 .answered, .advance 3 .answered, .advance 3 .answered,
    .advance 3 .answered, .advance 3 .answered]

/-- Dave is the last for whom there is room. -/
theorem admissions_within_limits_invite :
    ∃ s : State GroupData GroupCall, s.data.admissions.map Admission.count = [3, 2] ∧
      ∀ a ∈ s.data.admissions, WithinLimits a := by
  have hrun : ((groupService groupsOfThree).machine.executeBy CountsMembers noGroup
      (createActions ++ inviteActions ++ invitedActions ++ joinActions.take 5)).map
        (fun s => s.data.admissions.map Admission.count) = some [3, 2] := by decide
  obtain ⟨s, hs, hcounts⟩ := map_eq_some_iff.mp hrun
  exact ⟨s, hcounts, admissions_within_limits ⟨noGroup, noGroup_initial, Machine.path_of_executeBy hs⟩⟩

/-- Carol joins after the members were counted for Dave and before Alice has the lock. -/
theorem late_count_exceeds_limit :
    ∃ s, (groupService groupsOfThree).machine.Reachable s ∧ ∃ a ∈ s.data.admissions, ¬ WithinLimits a := by
  have hrun : ((groupService groupsOfThree).machine.execute noGroup
      (createActions ++ inviteActions ++ joinActions ++ invitedActions)).map
        (fun s => s.data.admissions.any fun a => a.own < a.count) = some true := by decide
  obtain ⟨s, hs, hlarge⟩ := map_eq_some_iff.mp hrun
  obtain ⟨a, ha, hexceeds⟩ := List.any_eq_true.mp hlarge
  rw [decide_eq_true_eq] at hexceeds
  refine ⟨s, Machine.reachable_of_execute noGroup_initial hs, a, ha, ?_⟩
  intro hwithin
  have hle : (a.count : ℤ) ≤ a.own := hwithin.own
  omega

end ImApp.GroupMembers
