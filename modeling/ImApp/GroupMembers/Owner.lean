import ImApp.GroupMembers.Hierarchy

/-!
The owner of a group. No statement makes one after `Create`, and none removes or demotes one.
-/

namespace ImApp.GroupMembers

open InterleavedCalls StepSystem List Option KeyedTable

variable {r : GroupRepo} {d : GroupData} {id : ℕ} {user : String} {call : GroupCall}
  {write : Write} {next : Option GroupCall} {s : State GroupData GroupCall}

/-- The group exists, and this user alone is its owner. -/
structure Owned (d : GroupData) (user : String) : Prop where
  owner : IsOwner d user
  only : ∀ m ∈ d.members.rows, m.role = .owner → m.user = user

def HasOwner (d : GroupData) : Prop :=
  (d.group = none ∧ d.members.rows = []) ∨ ∃ user, Owned d user

theorem HasOwner.founded (h : HasOwner d) (hgroup : d.group = none) : d.members.rows = [] := by
  rcases h with ⟨-, hrows⟩ | ⟨user, howned⟩
  · exact hrows
  have hsome := howned.owner.1
  simp [hgroup] at hsome

theorem Owned.stays (h : Owned d user) (hstep : Step r d call write next) (hspares : Spares d call) :
    Owned (d.write r id write) user := by
  refine ⟨h.owner.stays hstep hspares, ?_⟩
  intro m hm howner
  rcases mem_write h.owner.1 hm with hpre | hmember | rfl
  · exact h.only m hpre howner
  · rw [hmember] at howner
    cases howner
  exact absurd howner (hspares.setRole hstep)

theorem Spares.stays {current : GroupCall} (h : Spares d current) (hstep : Step r d call write next)
    (hspares : Spares d call) : Spares (d.write r id write) current := by
  cases current with
  | deleting target kicker => exact NotOwner.stays h hstep hspares
  | updatingRole target role => exact ⟨h.1, h.2.stays hstep hspares⟩
  | _ => trivial

theorem founders_owned {owner : String} {memberIds : List String} (hgroup : d.group.isSome = true)
    (hrows : d.members = founders owner memberIds) : Owned d owner := by
  have hself : (⟨owner, .owner⟩ : Member) ∈ (founders owner memberIds).rows :=
    mem_insertAll_of_mem (mem_insert_self (not_mem_nil (a := owner)))
  refine ⟨⟨hgroup, hrows ▸ hself⟩, ?_⟩
  intro m hm howner
  rw [hrows] at hm
  rcases mem_insertAll hm with hfirst | hmember
  · rcases mem_insert hfirst with hnone | rfl
    · cases hnone
    · rfl
  obtain ⟨_, -, rfl⟩ := List.mem_map.mp hmember
  cases howner

theorem HasOwner.written (h : HasOwner d) (hstep : Step r d call write next) (hspares : Spares d call)
    (hlock : HoldsLock d id call) : HasOwner (d.write r id write) := by
  rcases h with ⟨hgroup, hrows⟩ | ⟨user, howned⟩
  · have hnot : ¬ d.group.isSome = true := by simp [hgroup]
    cases hstep with
    | create owner memberIds limits =>
      simp only [GroupData.write, if_neg hnot]
      exact .inr ⟨owner, founders_owned rfl rfl⟩
    | add | invite => exact absurd (hlock rfl).2 hnot
    | delete target kicker => exact absurd hspares.1 hnot
    | setRole target role => exact absurd hspares.2.1 hnot
    | setJoinMode | setMaxMembers | dismiss =>
      exact .inl ⟨by simp [GroupData.write, GroupData.setGroup, hgroup], hrows⟩
    | _ => exact .inl ⟨hgroup, hrows⟩
  exact .inr ⟨user, howned.stays hstep hspares⟩

theorem owner_holds (hs : (groupService r).machine.Reachable s) :
    Service.Holds HasOwner (fun d id call => HoldsLock d id call ∧ Spares d call) s := by
  apply holds_of_steps _ _ _ _ _ hs
  · rintro d ⟨hgroup, hmembers, -⟩
    exact .inl ⟨hgroup, hmembers ▸ rfl⟩
  · intro d id call hopens
    cases call with
    | deleting | updatingRole => cases hopens
    | _ => trivial
  · intro s id answer call write next _ _ hadv hlock howner hspares
    have hstep := step_of_advance hadv
    refine ⟨howner.written hstep hspares hlock, ?_⟩
    rintro current rfl
    rcases hstep.goes_on with ⟨rfl, hmove⟩ | ⟨origin, user, g, -, -, -, rfl⟩ |
      ⟨actor, role, ids, memberCount, g, -, -, -, rfl⟩ | ⟨token, rfl⟩ | ⟨request, rfl⟩
    · exact Spares.move howner.founded hmove
    all_goals trivial
  · intro s id answer call write next other current _ _ _ _ hadv _ _ _ hspares hothers
    exact hothers.stays (step_of_advance hadv) hspares
  intro d published howner
  refine ⟨?_, fun id call hspares => by cases call <;> exact hspares⟩
  exact howner.imp id fun ⟨user, howned⟩ => ⟨user, howned.owner, howned.only⟩

/-- From its creation on a group has one owner, the same in every run and whatever the order of
the requests. -/
theorem owner_for_good (r : GroupRepo) :
    (∀ s, (groupService r).machine.Reachable s → HasOwner s.data) ∧
      ∀ s t user, (groupService r).machine.Reachable s →
        (groupService r).machine.Path Machine.unrestricted s t → Owned s.data user →
        Owned t.data user := by
  constructor
  · exact fun s hs => (owner_holds hs).data
  intro s t user hs path
  apply Service.relates_of_path (fun d d' => Owned d user → Owned d' user) (fun _ h => h)
    (fun _ _ _ hab hbc h => hbc (hab h)) (fun s => owner_holds) _ _ hs path
  · intro s id call answer d next _ hholds hcall hadv howned
    obtain ⟨outcome, houtcome, hwrite⟩ := map_eq_some_iff.mp hadv
    cases hwrite
    exact howned.stays (step_of_advance houtcome) (hholds.calls id call hcall).2
  rintro s published _ - - ⟨⟩ howned
  exact ⟨howned.owner, howned.only⟩

end ImApp.GroupMembers
