import ImApp.Library.InterleavedCalls

/-!
The uses of one organization invitation. An old invitation has no policy and is for one use;
its revocation or deletion gives it one, with the `accepted_at` that was read before the
transaction. An acceptance is one transaction, which a conflict rolls back.
-/

namespace ImApp.InvitationQuota

open InterleavedCalls StepSystem Option

structure InvitationPolicy where
  maxUses : Option ℕ
  usedCount : ℕ
  revokedAt : Option ℕ
  deletedAt : Option ℕ
  project : Option ℕ

structure Invitation where
  expiresAt : ℕ
  acceptedAt : Option ℕ
  policy : Option InvitationPolicy

structure Acceptance where
  user : ℕ
  joinedOrganization : Bool
  joinedProject : Bool

/-- The members of the organization and of each of its projects, and every acceptance that
succeeded, also those of a user who was removed in between. -/
structure Data where
  invitation : Invitation
  members : List ℕ
  projects : ℕ → Option (List ℕ)
  acceptances : List Acceptance
  now : ℕ

inductive InvitationStatus where
  | active
  | expired
  | exhausted
  | revoked
  deriving DecidableEq

inductive AcceptError where
  | memberExists
  | unavailable (status : InvitationStatus)

def invitationMaxUses (invitation : Invitation) : Option ℕ :=
  match invitation.policy with
  | none => some 1
  | some policy => policy.maxUses

def invitationUsedCount (invitation : Invitation) : ℕ :=
  match invitation.policy with
  | none => if invitation.acceptedAt.isSome then 1 else 0
  | some policy => policy.usedCount

def Invitation.revoked (invitation : Invitation) : Bool :=
  invitation.policy.any fun policy => policy.revokedAt.isSome || policy.deletedAt.isSome

def invitationStatus (invitation : Invitation) (now : ℕ) : InvitationStatus :=
  if invitation.revoked then .revoked
  else if invitation.expiresAt ≤ now then .expired
  else if (invitationMaxUses invitation).any (· ≤ invitationUsedCount invitation) then .exhausted
  else .active

/-- The conditional update of an acceptance that was sent at `now`. -/
def Invitation.reserve (invitation : Invitation) (now : ℕ) : Option Invitation :=
  match invitation.policy with
  | some policy => if policy.revokedAt.isNone && policy.maxUses.all (policy.usedCount < ·) then
      some { invitation with policy := some { policy with usedCount := policy.usedCount + 1 } }
    else none
  | none => if invitation.acceptedAt.isNone && now < invitation.expiresAt then
      some { invitation with acceptedAt := some now }
    else none

/-- The project of the policy while it exists, and its members. -/
def Data.project (d : Data) : Option (ℕ × List ℕ) := do
  let policy ← d.invitation.policy
  let id ← policy.project
  let members ← d.projects id
  return (id, members)

/-- What an acceptance inserts once its use is reserved. -/
def Data.join (d : Data) (invitation : Invitation) (user : ℕ) : Data :=
  { d with
    invitation := invitation
    members := if user ∈ d.members then d.members else user :: d.members
    projects := d.project.elim d.projects fun (id, members) =>
      Function.update d.projects id (some (user :: members))
    acceptances := ⟨user, user ∉ d.members, d.project.isSome⟩ :: d.acceptances }

/-- The body of the transaction. An outer error is thrown, an inner one returned. -/
def acceptBody (d : Data) (user now : ℕ) : Except AcceptError (Data × Except AcceptError Unit) :=
  let assigned := d.project.any fun (_, members) => user ∈ members
  if user ∈ d.members && (d.project.isNone || assigned) then .ok (d, .error .memberExists)
  else if invitationStatus d.invitation d.now ≠ .active then
    .ok (d, .error (.unavailable (invitationStatus d.invitation d.now)))
  else
    match d.invitation.reserve now with
    | none => .ok (d, .error (.unavailable .exhausted))
    | some invitation =>
      if assigned then .error .memberExists else .ok (d.join invitation user, .ok ())

def accept (d : Data) (user now : ℕ) : Data × Except AcceptError Unit :=
  match acceptBody d user now with
  | .ok result => result
  | .error error => (d, .error error)

/-- `INSERT OR IGNORE`, and the update of the policy that is there then. -/
def revokeInvitation (d : Data) (accepted : Bool) (now : ℕ) : Data :=
  let policy := d.invitation.policy.getD ⟨some 1, if accepted then 1 else 0, some now, none, none⟩
  { d with invitation.policy := some { policy with revokedAt := policy.revokedAt <|> some now } }

def deleteRecord (d : Data) (accepted : Bool) (now : ℕ) : Data :=
  let policy := d.invitation.policy.getD ⟨some 1, if accepted then 1 else 0, some now, some now, none⟩
  { d with
    invitation.policy := some { policy with
      revokedAt := policy.revokedAt <|> some now
      deletedAt := some now } }

/-- A revocation and a deletion carry the `accepted_at` that they have read. -/
inductive Request where
  | accept (user : ℕ)
  | accepting (user now : ℕ)
  | revoke
  | revoking (accepted : Bool) (now : ℕ)
  | delete
  | deleting (accepted : Bool) (now : ℕ)

def run (d : Data) : Request → Data × Option Request
  | .accept user => (d, some (.accepting user d.now))
  | .accepting user now => ((accept d user now).1, none)
  | .revoke => (d, if d.invitation.revoked then none
      else some (.revoking d.invitation.acceptedAt.isSome d.now))
  | .revoking accepted now => (revokeInvitation d accepted now, none)
  | .delete => (d, if d.invitation.policy.any fun policy => policy.deletedAt.isSome then none
      else some (.deleting d.invitation.acceptedAt.isSome d.now))
  | .deleting accepted now => (deleteRecord d accepted now, none)

/-- Time passes, members are removed or added, and projects are deleted. -/
structure Change where
  elapsed : ℕ
  members : List ℕ
  projects : ℕ → Option (List ℕ)

def invitationService : Service Data Request Unit Change where
  initial d := d.acceptances = [] ∧ d.invitation.acceptedAt = none ∧
    ∀ policy, d.invitation.policy = some policy → policy.usedCount = 0
  opens
    | .accept _ | .revoke | .delete => true
    | _ => false
  advance _ d request _ := some (run d request)
  world d change := some { d with
    now := d.now + change.elapsed, members := change.members, projects := change.projects }

/-- A request that gives the invitation a policy has read the `accepted_at` that it still has. -/
def Orderly (s : State Data Request) : Action Request Unit Change → Prop
  | .advance id _ => ∀ accepted now,
    s.calls id = some (.revoking accepted now) ∨ s.calls id = some (.deleting accepted now) →
      s.data.invitation.policy = none → accepted = s.data.invitation.acceptedAt.isSome
  | _ => True

variable {d : Data} {i after : Invitation} {user now : ℕ}

theorem reserve_some (h : i.reserve now = some after) :
    invitationUsedCount after = invitationUsedCount i + 1 ∧
      invitationMaxUses after = invitationMaxUses i ∧
        ∀ m, invitationMaxUses i = some m → invitationUsedCount i < m := by
  unfold Invitation.reserve at h
  split at h
  case h_1 policy hpolicy =>
    split at h
    case isFalse => cases h
    case isTrue hfree =>
      cases h
      refine ⟨by simp [invitationUsedCount, hpolicy], by simp [invitationMaxUses, hpolicy], ?_⟩
      intro m hm
      rw [invitationMaxUses, hpolicy] at hm
      simp_all [invitationUsedCount]
  case h_2 hpolicy =>
    split at h
    case isFalse => cases h
    case isTrue hfree =>
      cases h
      simp_all [invitationUsedCount, invitationMaxUses]

theorem accept_cases (d : Data) (user now : ℕ) : (∃ error, accept d user now = (d, .error error)) ∨
    ∃ after, d.invitation.reserve now = some after ∧ invitationStatus d.invitation d.now = .active ∧
      (user ∉ d.members ∨ ∃ p, d.project = some p ∧ user ∉ p.2) ∧
        accept d user now = (d.join after user, .ok ()) := by
  unfold accept
  fun_cases acceptBody d user now with
  | case1 | case2 | case3 | case4 => exact .inl ⟨_, rfl⟩
  | case5 assigned hexists hactive after hreserve hassigned =>
    refine .inr ⟨after, hreserve, not_not.mp hactive, ?_, rfl⟩
    by_cases hmember : user ∈ d.members
    · right
      cases hproject : d.project with
      | none => simp [hmember, hproject] at hexists
      | some p => exact ⟨p, rfl, by simpa [assigned, hproject] using hassigned⟩
    · exact .inl hmember

/-- Revoked, deleted or expired. -/
def Closed (d : Data) : Prop :=
  d.invitation.revoked = true ∨ d.invitation.expiresAt ≤ d.now

theorem not_closed_of_active (h : invitationStatus d.invitation d.now = .active) : ¬ Closed d := by
  unfold invitationStatus at h
  split_ifs at h with hrevoked hexpired
  exact fun hclosed => hclosed.elim hrevoked hexpired

/-- The uses stay below the maximum, and until a revocation they are counted. -/
structure Sound (d : Data) : Prop where
  within : ∀ m, invitationMaxUses d.invitation = some m → d.acceptances.length ≤ m
  counted : d.invitation.revoked = false → invitationUsedCount d.invitation = d.acceptances.length

/-- What a statement does: a success counts its use, and a revocation keeps the maximum and, when
it has read what the invitation still has, the count. -/
inductive Effect (d : Data) (request : Request) : Data → Prop
  | same : Effect d request d
  | joined (user now : ℕ) (after : Invitation) (hreserve : d.invitation.reserve now = some after)
      (hopen : ¬ Closed d) : Effect d request (d.join after user)
  | revoked (policy : InvitationPolicy) (hrevoked : policy.revokedAt.isSome)
      (hmax : policy.maxUses = invitationMaxUses d.invitation)
      (hcount : (∀ accepted now, request = .revoking accepted now ∨ request = .deleting accepted now →
        d.invitation.policy = none → accepted = d.invitation.acceptedAt.isSome) →
          policy.usedCount = invitationUsedCount d.invitation) :
      Effect d request { d with invitation.policy := some policy }

theorem run_effect (d : Data) (request : Request) : Effect d request (run d request).1 := by
  cases request with
  | accepting user now =>
    rcases accept_cases d user now with ⟨_, herror⟩ | ⟨after, hreserve, hactive, -, hok⟩
    · simp only [run, herror]
      exact .same
    · simp only [run, hok]
      exact .joined user now after hreserve (not_closed_of_active hactive)
  | revoking accepted now | deleting accepted now =>
    cases hpolicy : d.invitation.policy with
    | none =>
      simp only [run, revokeInvitation, deleteRecord, hpolicy, getD_none]
      refine .revoked _ rfl (by simp [invitationMaxUses, hpolicy]) fun hread => ?_
      simp [invitationUsedCount, hpolicy, hread accepted now (by simp) hpolicy]
    | some policy =>
      simp only [run, revokeInvitation, deleteRecord, hpolicy, getD_some]
      refine .revoked _ ?_ ?_ fun _ => ?_
      · cases policy.revokedAt <;> rfl
      · simp [invitationMaxUses, hpolicy]
      · simp [invitationUsedCount, hpolicy]
  | _ => exact .same

theorem Effect.closed {request : Request} {d' : Data} (h : Effect d request d') (hclosed : Closed d) :
    Closed d' ∧ d'.acceptances = d.acceptances := by
  cases h with
  | same => exact ⟨hclosed, rfl⟩
  | joined user now after hreserve hopen => exact (hopen hclosed).elim
  | revoked policy hrevoked => exact ⟨.inl (by simp [Invitation.revoked, hrevoked]), rfl⟩

theorem Sound.joined (h : Sound d) (hreserve : d.invitation.reserve now = some after)
    (hopen : ¬ Closed d) : invitationUsedCount after = (d.join after user).acceptances.length ∧
      Sound (d.join after user) := by
  obtain ⟨hused, hmax, hfree⟩ := reserve_some hreserve
  have hcounted := h.counted (Bool.eq_false_iff.mpr fun hrevoked => hopen (.inl hrevoked))
  have hlength : (d.join after user).acceptances.length = d.acceptances.length + 1 := rfl
  refine ⟨by omega, fun m hm => ?_, fun _ => by simp only [Data.join] at *; omega⟩
  have hless := hfree m (hmax ▸ hm)
  omega

theorem holds_data {allowed : State Data Request → Action Request Unit Change → Prop}
    {s : State Data Request} (p : Data → Prop) (hinitial : ∀ d, invitationService.initial d → p d)
    (hworld : ∀ d members projects now, p d →
      p { d with now := now, members := members, projects := projects })
    (hadv : ∀ s id request d, allowed s (.advance id ()) → p s.data → s.calls id = some request →
      Effect s.data request d → p d)
    (hs : invitationService.machine.ReachableBy allowed s) : p s.data := by
  suffices h : Service.Holds p (fun _ _ _ => True) s from h.data
  apply Service.holds_of_reachable hinitial (fun _ _ _ _ _ _ => trivial) _ _ hs
  · intro s id request _ d next hallow h hcall hnext
    obtain rfl : (run s.data request).1 = d := congrArg Prod.fst (some.inj hnext)
    exact ⟨hadv s id request _ hallow h.data hcall (run_effect s.data request),
      fun _ _ => trivial, fun _ _ _ _ => trivial⟩
  · intro s change d _ h hnext
    cases hnext
    exact ⟨hworld _ _ _ _ h.data, fun _ _ _ => trivial⟩

theorem initial_counted (h : invitationService.initial d) :
    invitationUsedCount d.invitation = d.acceptances.length := by
  obtain ⟨hnone, haccepted, hfresh⟩ := h
  unfold invitationUsedCount
  split
  case h_1 => simp [hnone, haccepted]
  case h_2 policy hpolicy => rw [hfresh policy hpolicy, hnone]; rfl

theorem sound_of_reachable {s : State Data Request} (hs : invitationService.machine.Reachable s) :
    Sound s.data := by
  refine holds_data Sound ?_ (fun _ _ _ _ h => ⟨h.within, h.counted⟩) ?_ hs
  · exact fun d h => ⟨fun m _ => by simp [h.1], fun _ => initial_counted h⟩
  intro s id request d _ h _ heffect
  cases heffect with
  | same => exact h
  | joined user now after hreserve hopen => exact (h.joined hreserve hopen).2
  | revoked policy hrevoked hmax _ =>
    refine ⟨fun m hm => h.within m (hmax ▸ hm), fun hnot => ?_⟩
    simp [Invitation.revoked, hrevoked] at hnot

/-- The uses of an invitation. In every run there are at most as many acceptances as it may have
uses, an error changes nothing, a success adds a membership, and none follows a revocation, a
deletion or the expiry. The count is right in the runs that are orderly. -/
theorem invitation_uses (s : State Data Request) :
    (invitationService.machine.Reachable s →
      (∀ m, invitationMaxUses s.data.invitation = some m → s.data.acceptances.length ≤ m) ∧
      (∀ user now, (∃ error, accept s.data user now = (s.data, .error error)) ∨
        ∃ after, accept s.data user now = (s.data.join after user, .ok ()) ∧ ¬ Closed s.data ∧
          (user ∉ s.data.members ∨ ∃ p, s.data.project = some p ∧ user ∉ p.2)) ∧
      ∀ t, invitationService.machine.Path Machine.unrestricted s t → Closed s.data →
        Closed t.data ∧ t.data.acceptances = s.data.acceptances) ∧
    (invitationService.machine.ReachableBy Orderly s →
      invitationUsedCount s.data.invitation = s.data.acceptances.length) := by
  refine ⟨fun hs => ⟨(sound_of_reachable hs).within, fun user now => ?_, fun t path => ?_⟩, ?_⟩
  · rcases accept_cases s.data user now with herror | ⟨after, -, hactive, hadded, hok⟩
    · exact .inl herror
    · exact .inr ⟨after, hok, not_closed_of_active hactive, hadded⟩
  · intro hclosed
    refine path.preserves (fun b => Closed b.data ∧ b.data.acceptances = s.data.acceptances) ?_
      ⟨hclosed, rfl⟩
    rintro a action b - ⟨hclosed, hsame⟩ hstep
    cases action with
    | start id call =>
      obtain ⟨-, -, rfl⟩ := Service.start_some hstep
      exact ⟨hclosed, hsame⟩
    | advance id choice =>
      obtain ⟨request, d, _, -, hrun, rfl⟩ := Service.advance_some hstep
      obtain rfl : (run a.data request).1 = d := congrArg Prod.fst (some.inj hrun)
      obtain ⟨hstays, hadded⟩ := (run_effect a.data request).closed hclosed
      exact ⟨hstays, hadded.trans hsame⟩
    | world change =>
      obtain ⟨d, hworld, rfl⟩ := Service.world_some hstep
      cases hworld
      exact ⟨hclosed.imp_right fun hexpired => hexpired.trans (Nat.le_add_right ..), hsame⟩
  intro hs
  refine holds_data (fun d => invitationUsedCount d.invitation = d.acceptances.length)
    (fun _ => initial_counted) (fun _ _ _ _ h => h) ?_ hs
  intro s id request d horderly h hcall heffect
  cases heffect with
  | same => exact h
  | joined user now after hreserve _ =>
    rw [show (s.data.join after user).invitation = after from rfl, (reserve_some hreserve).1, h]
    rfl
  | revoked policy _ _ hcount =>
    refine (hcount fun accepted now hrequest => ?_).trans h
    exact horderly accepted now (by simpa [hcall] using hrequest)

/-- An old invitation is accepted while its revocation is under way: no use is counted. -/
theorem uncounted_use : ∃ s, invitationService.machine.Reachable s ∧
    invitationUsedCount s.data.invitation = 0 ∧ s.data.acceptances.length = 1 := by
  let first : State Data Request := ⟨⟨⟨10, none, none⟩, [], fun _ => none, [], 0⟩, fun _ => none⟩
  have hrun : (invitationService.machine.execute first [.start 0 (.accept 7), .start 1 .revoke,
      .advance 0 (), .advance 1 (), .advance 0 (), .advance 1 ()]).any (fun s =>
        invitationUsedCount s.data.invitation = 0 && s.data.acceptances.length = 1) = true := by
    decide +kernel
  obtain ⟨s, hs, hchecked⟩ := (any_eq_true _ _).mp hrun
  simp only [Bool.and_eq_true, decide_eq_true_eq] at hchecked
  exact ⟨s, Machine.reachable_of_execute ⟨⟨rfl, rfl, by rintro _ ⟨⟩⟩, fun _ => rfl⟩ hs, hchecked⟩

/-- `null` is no limit. -/
def remainingInvitationUses (invitation : Invitation) : Option ℕ :=
  (invitationMaxUses invitation).map (· - invitationUsedCount invitation)

structure InvitationResponse where
  expiresAt : ℕ
  maxUses : Option ℕ
  usedCount : ℕ
  remainingUses : Option ℕ
  alreadyMember : Bool
  alreadyProjectMember : Bool

def invitationResponse (invitation : Invitation) (alreadyMember alreadyProjectMember : Bool) :
    InvitationResponse where
  expiresAt := invitation.expiresAt
  maxUses := invitationMaxUses invitation
  usedCount := invitationUsedCount invitation
  remainingUses := remainingInvitationUses invitation
  alreadyMember
  alreadyProjectMember

/-- What the page of an invitation shows to a user, or why it cannot be accepted. -/
def previewInvitation (d : Data) (user : ℕ) : Except InvitationStatus InvitationResponse :=
  let assigned := d.project.any fun (_, members) => user ∈ members
  if user ∈ d.members && (d.project.isNone || assigned) then
    .ok (invitationResponse d.invitation true assigned)
  else if invitationStatus d.invitation d.now ≠ .active then
    .error (invitationStatus d.invitation d.now)
  else .ok (invitationResponse d.invitation (user ∈ d.members) assigned)

theorem reserve_of_active {t : ℕ} (h : invitationStatus i t = .active) (hnow : now ≤ t) :
    ∃ after, i.reserve now = some after := by
  unfold invitationStatus at h
  split_ifs at h with hrevoked hexpired hused
  unfold Invitation.reserve
  cases hpolicy : i.policy with
  | none =>
    have hopen : now < i.expiresAt := by omega
    simp_all [invitationMaxUses, invitationUsedCount]
  | some policy =>
    simp only [Invitation.revoked, hpolicy, any_some, Bool.or_eq_true, not_or] at hrevoked
    cases hmax : policy.maxUses <;> simp_all [invitationMaxUses, invitationUsedCount]

/-- In every run, the page agrees with an acceptance at that moment by a user who is new to the
project, or without one to the organization: it has the same reason against it, or uses left. -/
theorem preview_agrees (s : {s // invitationService.machine.Reachable s}) (user now : ℕ)
    (hnow : now ≤ s.1.data.now) (hproject : ∀ p, s.1.data.project = some p → user ∉ p.2)
    (hmember : s.1.data.project = none → user ∉ s.1.data.members) :
    match previewInvitation s.1.data user, (accept s.1.data user now).2 with
    | .error status, .error (.unavailable reason) => reason = status
    | .ok shown, .ok () => shown.usedCount = s.1.data.acceptances.length ∧
        ∀ left, shown.remainingUses = some left → 0 < left ∧ shown.maxUses = some (shown.usedCount + left)
    | _, _ => False := by
  obtain ⟨⟨d, calls⟩, hs⟩ := s
  have hassigned : (d.project.any fun (_, members) => user ∈ members) = false := by
    cases hp : d.project with
    | none => rfl
    | some p => simpa using hproject p hp
  have hnew : ¬ (user ∈ d.members ∧ d.project = none) := fun h => hmember h.2 h.1
  by_cases hactive : invitationStatus d.invitation d.now = .active
  · obtain ⟨after, hafter⟩ := reserve_of_active hactive hnow
    have hcount := (sound_of_reachable hs).counted
      (Bool.eq_false_iff.mpr fun hrevoked => not_closed_of_active hactive (.inl hrevoked))
    simp only [previewInvitation, accept, acceptBody, hassigned, hactive, hafter, Bool.or_false,
      Bool.and_eq_true, decide_eq_true_eq, isNone_iff_eq_none, hnew, if_false]
    refine ⟨hcount, fun left hleft => ?_⟩
    obtain ⟨m, hm, rfl⟩ := map_eq_some_iff.mp hleft
    have hless := (reserve_some hafter).2.2 m hm
    simp only [invitationResponse, hm]
    refine ⟨Nat.sub_pos_of_lt hless, congrArg some ?_⟩
    omega
  simp [previewInvitation, accept, acceptBody, hassigned, hnew, hactive]

theorem preview_agrees_unused :
    let unused : Data := ⟨⟨10, none, none⟩, [], fun _ => none, [], 0⟩
    ∃ shown, previewInvitation unused 7 = .ok shown ∧ shown.usedCount = 0 ∧
      ∀ left, shown.remainingUses = some left → 0 < left ∧ shown.maxUses = some (0 + left) := by
  intro unused
  have hs : invitationService.machine.Reachable ⟨unused, fun _ => none⟩ :=
    Machine.reachableBy_initial ⟨⟨rfl, rfl, by rintro _ ⟨⟩⟩, fun _ => rfl⟩
  exact ⟨_, rfl, preview_agrees ⟨_, hs⟩ 7 0 le_rfl (by rintro _ ⟨⟩) fun _ => List.not_mem_nil⟩

end ImApp.InvitationQuota
