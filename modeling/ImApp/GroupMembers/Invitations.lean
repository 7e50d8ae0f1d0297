import ImApp.GroupMembers.Steps

/-!
Invitations. `AcceptInvitation` reads the status of an invitation without looking at it,
and marks the invitation in a statement of its own after the admission has committed.
-/

namespace ImApp.GroupMembers

open InterleavedCalls StepSystem List Option

/-- An invitation admits once, and only while it is pending. -/
structure SingleUse (admissions : List Admission) : Prop where
  pending : ∀ a ∈ admissions, ∀ token, a.origin = .invitation token → a.pending = true
  once : (admissions.filterMap fun a => a.origin.token?).Nodup

/-- The invitation on which a request is about to admit. -/
def GroupCall.admits? : GroupCall → Option ℕ
  | .inserting origin _ _ _ => origin.token?
  | _ => none

/-- Where an invitation admits, no acceptance of it has run its course before. -/
def FirstUse (s : State GroupData GroupCall) : Action GroupCall Answer PublishedGroupLimits → Prop
  | .advance id answer => answer ≠ .failed →
      ∀ token ∈ (s.calls id).bind GroupCall.admits?, token ∉ s.data.spent
  | _ => True

instance (s : State GroupData GroupCall) (action : Action GroupCall Answer PublishedGroupLimits) :
    Decidable (FirstUse s action) :=
  match action with
  | .start _ _ => inferInstanceAs (Decidable True)
  | .advance id answer => inferInstanceAs (Decidable (answer ≠ .failed →
      ∀ token ∈ (s.calls id).bind GroupCall.admits?, token ∉ s.data.spent))
  | .world _ => inferInstanceAs (Decidable True)

def Known (d : GroupData) (token : ℕ) : Prop := ∃ i ∈ d.invitations, i.token = token

structure Accepts (d : GroupData) : Prop where
  accepted : ∀ i ∈ d.invitations, i.accepted = true → i.token ∈ d.spent
  admitted : ∀ a ∈ d.admissions, ∀ token, a.origin = .invitation token → token ∈ d.spent
  singleUse : SingleUse d.admissions

/-- An acceptance goes on with an invitation that it has found, to the mark. -/
def Presents (d : GroupData) : GroupCall → Prop
  | .accepting _ token | .acceptingInto _ token => Known d token
  | .adding origin _ | .locked origin _ _ _ | .counting origin _ _ | .limiting origin _ _ _
  | .inserting origin _ _ _ => ∀ token, origin = .invitation token → Known d token
  | .markAccepted token => token ∈ d.spent
  | _ => True

variable {r : GroupRepo} {d : GroupData} {id token : ℕ} {call : GroupCall} {write : Write}
  {next : Option GroupCall}

variable {origin : Origin}

theorem token?_some : origin.token? = some token ↔ origin = .invitation token := by
  cases origin with
  | invitation other =>
    change some other = some token ↔ _
    rw [some_inj, Origin.invitation.injEq]
  | _ => simp [Origin.token?]

theorem Known.stays (h : Known d token) : Known (d.write r id write) token := by
  obtain ⟨i, hi, htoken⟩ := h
  cases write with
  | create =>
    unfold GroupData.write
    dsimp only
    split <;> exact ⟨i, hi, htoken⟩
  | invite => exact ⟨i, mem_append_left _ hi, htoken⟩
  | accept token =>
    refine ⟨_, List.mem_map_of_mem hi, ?_⟩
    split <;> exact htoken
  | _ => exact ⟨i, hi, htoken⟩

theorem spent_stays (h : token ∈ d.spent) : token ∈ (d.write r id write).spent := by
  cases write with
  | create =>
    unfold GroupData.write
    dsimp only
    split <;> exact h
  | add | present | file => exact mem_append_right _ h
  | spend => exact mem_cons_of_mem _ h
  | _ => exact h

theorem Presents.stays (h : Presents d call) : Presents (d.write r id write) call := by
  cases call with
  | accepting | acceptingInto => exact Known.stays h
  | adding | locked | counting | limiting | inserting =>
    exact fun token horigin => (h token horigin).stays
  | markAccepted => exact spent_stays h
  | _ => trivial

variable {current : GroupCall}

/-- A request that goes on without a write has found the invitation, or keeps it. -/
theorem Presents.move (h : Presents d call) (hmove : Move r d call current) :
    Presents d current := by
  cases hmove with
  | absent | count | limit | accept => exact h
  | join | approve => exact fun token horigin => by cases horigin
  | invited user token i hi htoken => exact ⟨i, hi, htoken⟩
  | acceptJoin user token =>
    intro other horigin
    cases horigin
    exact h
  | _ => trivial

theorem presents_afterAdmission (h : some current = none ∨ some current = afterAdmission origin)
    (hspent : ∀ token, origin = .invitation token → token ∈ d.spent) : Presents d current := by
  rcases h with hnone | hafter
  · cases hnone
  rcases afterAdmission_some hafter.symm with ⟨token, horigin, rfl⟩ | ⟨request, -, rfl⟩
  · exact hspent token horigin
  trivial

theorem mem_spent_append {spent : List ℕ} (h : origin = .invitation token) :
    token ∈ origin.token?.toList ++ spent := by
  rw [token?_some.mpr h]
  exact mem_append_left _ mem_cons_self

theorem Presents.own (h : Presents d call)
    (hstep : Step r d call write (some current)) : Presents (d.write r id write) current := by
  cases hstep with
  | move call next hmove => exact h.move hmove
  | lock => exact h
  | present origin user joinMode configured next hnext
  | add origin user configured limits next hnext =>
    exact presents_afterAdmission hnext fun token horigin => mem_spent_append horigin
  | spend token user => exact mem_cons_self
  | file token user next hnext =>
    rcases hnext with hnone | hmark
    · cases hnone
    obtain ⟨marked, rfl, rfl⟩ := map_eq_some_iff.mp hmark.symm
    exact mem_cons_self
  | lockInvite => trivial

theorem SingleUse.admitted {admissions : List Admission} {a : Admission} (h : SingleUse admissions)
    (horigin : a.origin.token? = none) : SingleUse (a :: admissions) := by
  constructor
  · intro b hb token hb'
    rcases mem_cons.mp hb with rfl | hpre
    · rw [token?_some.mpr hb'] at horigin
      cases horigin
    exact h.pending b hpre token hb'
  rw [filterMap_cons_none (f := fun a : Admission => a.origin.token?) horigin]
  exact h.once

theorem SingleUse.accepted {admissions : List Admission} {a : Admission} (h : SingleUse admissions)
    (horigin : a.origin = .invitation token) (hpend : a.pending = true)
    (hfirst : ∀ b ∈ admissions, b.origin ≠ .invitation token) : SingleUse (a :: admissions) := by
  constructor
  · intro b hb other hother
    rcases mem_cons.mp hb with rfl | hpre
    · exact hpend
    exact h.pending b hpre other hother
  rw [filterMap_cons_some (f := fun a : Admission => a.origin.token?) (token?_some.mpr horigin)]
  apply nodup_cons.mpr
  refine ⟨?_, h.once⟩
  intro hused
  obtain ⟨b, hb, hsame⟩ := mem_filterMap.mp hused
  exact hfirst b hb (token?_some.mp hsame)

theorem Accepts.spends {d' : GroupData} (h : Accepts d) (hspent : ∀ token ∈ d.spent, token ∈ d'.spent)
    (hinvitations : d'.invitations = d.invitations) (hadmissions : d'.admissions = d.admissions) :
    Accepts d' := by
  refine ⟨?_, ?_, ?_⟩
  · intro i hi hacc
    rw [hinvitations] at hi
    exact hspent _ (h.accepted i hi hacc)
  · intro a ha token horigin
    rw [hadmissions] at ha
    exact hspent _ (h.admitted a ha token horigin)
  rw [hadmissions]
  exact h.singleUse

/-- A write keeps what acceptances rely on, if the invitation that admits is used first. -/
theorem Accepts.written (h : Accepts d) (hpresents : Presents d call) (hstep : Step r d call write next)
    (hfirst : ∀ origin user configured limits, write = .add origin user configured limits →
      ∀ token, origin = .invitation token → token ∉ d.spent) : Accepts (d.write r id write) := by
  cases hstep with
  | create owner memberIds limits =>
    unfold GroupData.write
    dsimp only
    split
    · exact h
    refine ⟨h.accepted, ?_, h.singleUse.admitted rfl⟩
    intro a ha token horigin
    rcases mem_cons.mp ha with rfl | hpre
    · cases horigin
    exact h.admitted a hpre token horigin
  | present | file => exact h.spends (fun _ ht => mem_append_right _ ht) rfl rfl
  | add origin user configured limits =>
    refine ⟨?_, ?_, ?_⟩
    · intro i hi hacc
      exact mem_append_right _ (h.accepted i hi hacc)
    · intro a ha token horigin
      rcases mem_cons.mp ha with rfl | hpre
      · exact mem_spent_append horigin
      exact mem_append_right _ (h.admitted a hpre token horigin)
    cases htoken : origin.token? with
    | none => exact h.singleUse.admitted htoken
    | some token =>
      have horigin : origin = .invitation token := token?_some.mp htoken
      have hunspent : token ∉ d.spent := hfirst origin user configured limits rfl token horigin
      apply h.singleUse.accepted horigin
      · obtain ⟨i, hi, rfl⟩ := hpresents token horigin
        have hopen : i.accepted = false := by
          cases hacc : i.accepted with
          | false => rfl
          | true => exact absurd (h.accepted i hi hacc) hunspent
        apply List.any_eq_true.mpr
        refine ⟨i, hi, ?_⟩
        rw [horigin, hopen]
        simp
      intro b hb hsame
      exact hunspent (h.admitted b hb token hsame)
  | spend => exact h.spends (fun _ ht => mem_cons_of_mem _ ht) rfl rfl
  | invite invite limits asked =>
    refine ⟨?_, ?_, ?_⟩
    · intro i hi hacc
      rcases mem_append.mp hi with hpre | hnew
      · exact h.accepted i hpre hacc
      rw [(mem_newInvitations hnew).2] at hacc
      cases hacc
    · intro a ha token horigin
      simp only [GroupData.write] at ha
      split at ha
      · exact h.admitted a ha token horigin
      rcases mem_cons.mp ha with rfl | hpre
      · cases horigin
      exact h.admitted a hpre token horigin
    simp only [GroupData.write]
    split
    · exact h.singleUse
    exact h.singleUse.admitted rfl
  | accept token =>
    refine ⟨?_, h.admitted, h.singleUse⟩
    intro i hi hacc
    obtain ⟨before, hpre, rfl⟩ := List.mem_map.mp hi
    split
    · rename_i htoken
      rw [htoken]
      exact hpresents
    rename_i hother
    rw [if_neg hother] at hacc
    exact h.accepted before hpre hacc
  | _ => exact ⟨h.accepted, h.admitted, h.singleUse⟩

variable {s : State GroupData GroupCall}

theorem invitations_hold (hs : (groupService r).machine.ReachableBy FirstUse s) :
    Service.Holds Accepts (fun d id call => HoldsLock d id call ∧ Presents d call) s := by
  apply holds_of_steps _ _ _ _ _ hs
  · rintro d ⟨-, -, hinvitations, -, -, hadmissions, -, -⟩
    refine ⟨?_, ?_, ?_⟩
    · intro i hi
      rw [hinvitations] at hi
      cases hi
    · intro a ha
      rw [hadmissions] at ha
      cases ha
    rw [hadmissions]
    refine ⟨?_, nodup_nil⟩
    intro a ha
    cases ha
  · intro d id call hopens
    cases call with
    | adding origin user =>
      intro token horigin
      rw [horigin] at hopens
      cases hopens
    | locked | counting | limiting | inserting | accepting | acceptingInto | markAccepted =>
      cases hopens
    | _ => trivial
  · intro s id answer call write next hallow hcall hadv _ haccepts hpresents
    refine ⟨?_, ?_⟩
    · apply haccepts.written hpresents (step_of_advance hadv)
      rintro origin user configured limits rfl token horigin
      cases step_of_advance hadv with
      | add =>
        apply hallow (answered_of_write hadv (by simp) (by simp))
        rw [hcall]
        exact token?_some.mpr horigin
    rintro current rfl
    exact hpresents.own (step_of_advance hadv)
  · intro s id answer call write next other current _ _ _ _ _ _ _ _ _ hkept
    exact hkept.stays
  intro d published haccepts
  refine ⟨⟨haccepts.accepted, haccepts.admitted, haccepts.singleUse⟩, ?_⟩
  intro id call hpresents
  cases call <;> exact hpresents

/-- Alice invites Dave, who wants to be asked. -/
def askActions : List (Action GroupCall Answer PublishedGroupLimits) :=
  [.start 2 (.inviteMembers "alice" ["dave"]), .advance 2 .answered, .advance 2 .answered,
    .advance 2 .answered, .advance 2 (.invitee true true), .advance 2 .answered, .advance 2 .answered,
    .advance 2 .answered]

/-- Dave accepts, up to the mark. -/
def acceptActions (id : ℕ) : List (Action GroupCall Answer PublishedGroupLimits) :=
  .start id (.acceptInvitation "dave" 0) :: List.replicate 9 (.advance id .answered)

/-- Alice removes him. -/
def kickActions : List (Action GroupCall Answer PublishedGroupLimits) :=
  .start 4 (.removeMember "alice" "dave") :: List.replicate 4 (.advance 4 .answered)

end ImApp.GroupMembers
