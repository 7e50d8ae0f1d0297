import ImApp.GroupMembers.Invitations
import Mathlib.Data.List.Range

/-!
Approval. The mode of a group is read when a code is resolved, and not again by the
admission: only `JoinGroup` looks at it under the lock of the group.
-/

namespace ImApp.GroupMembers

open InterleavedCalls StepSystem List Bool

/-- Into a group with approval come those whom a manager has invited, and those whose join
request he has approved. -/
def Approved (a : Admission) : Prop :=
  a.joinMode = .approval → (∃ role, a.invitedBy = some role ∧ role.manages = true) ∨
      ((∃ request, a.origin = .request request) ∧ a.rejected = false)

/-- The request is about to admit by this join request. -/
def GroupCall.approves (request : ℕ) : GroupCall → Prop
  | .adding origin _ | .locked origin _ _ _ | .counting origin _ _ | .limiting origin _ _ _
  | .inserting origin _ _ _ => origin = .request request
  | _ => False

/-- Where a join by a code gets the lock, the group is open; and a join request is not
rejected while somebody admits by it. -/
def Approves (s : State GroupData GroupCall) : Action GroupCall Answer PublishedGroupLimits → Prop
  | .advance id answer => answer ≠ .failed →
      (∀ user g, s.calls id = some (.adding .qrCode user) → s.data.group = some g → g.joinMode ≠ .approval) ∧
        ∀ request, s.calls id = some (.rejecting request) → ¬ s.InProgress (GroupCall.approves request)
  | _ => True

def NotRejected (d : GroupData) (request : ℕ) : Prop :=
  ∀ q ∈ d.requests, q.id = request → q.status ≠ .rejected

/-- What stands behind an admission that is not a direct invitation. -/
def Grounds (d : GroupData) : Origin → Prop
  | .create | .invite => False
  | .join | .qrCode => True
  | .invitation token => Known d token
  | .request request => NotRejected d request

/-- The group takes in everybody, if nothing else stands behind the admission. -/
def Admits (d : GroupData) (origin : Origin) : Prop :=
  ∃ g, d.group = some g ∧ (origin = .join ∨ origin = .qrCode → g.joinMode ≠ .approval)

structure Reviewed (d : GroupData) : Prop where
  admissions : ∀ a ∈ d.admissions, Approved a
  inviters : ∀ i ∈ d.invitations, i.invitedBy.manages = true
  ids : d.requests.map JoinRequest.id = List.range d.requests.length

def Vouched (d : GroupData) : GroupCall → Prop
  | .adding origin _ => Grounds d origin
  | .locked origin _ joinMode _ => Grounds d origin ∧ (origin = .qrCode → joinMode ≠ .approval) ∧
      ∃ g, d.group = some g ∧ g.joinMode = joinMode
  | .counting origin _ _ | .limiting origin _ _ _ | .inserting origin _ _ _ =>
    Grounds d origin ∧ Admits d origin
  | .selectingGroup _ role _ | .lockingGroup _ role _ _ => role.manages = true
  | .inviting invite _ _ | .asking invite _ _ _ => invite.role.manages = true
  | .accepting _ token | .acceptingInto _ token => Known d token
  | _ => True

variable {r : GroupRepo} {d : GroupData} {id other request : ℕ} {origin : Origin} {call : GroupCall}
  {write : Write} {next : Option GroupCall}

variable {status : RequestStatus} {requests : List JoinRequest} {q : JoinRequest}

theorem mem_setStatus (h : q ∈ setStatus status request requests) :
    ∃ before ∈ requests, q.id = before.id ∧
      (q.status = before.status ∨ q.id = request ∧ q.status = status) := by
  obtain ⟨before, hpre, rfl⟩ := mem_map.mp h
  refine ⟨before, hpre, ?_⟩
  split
  · rename_i hchosen
    exact ⟨rfl, .inr ⟨hchosen.1, rfl⟩⟩
  exact ⟨rfl, .inl rfl⟩

theorem mem_fileRequest {user : String}
    (h : q ∈ fileRequest requests user) : q ∈ requests ∨ q.status = .pending := by
  unfold fileRequest at h
  split at h
  · exact .inl h
  rcases mem_append.mp h with hpre | hnew
  · exact .inl hpre
  rw [mem_singleton.mp hnew]
  exact .inr rfl

theorem ids_setStatus :
    (setStatus status request requests).map JoinRequest.id = requests.map JoinRequest.id := by
  rw [setStatus, map_map]
  apply map_congr_left
  intro q _
  dsimp only [Function.comp_apply]
  split <;> rfl

theorem ids_fileRequest {user : String}
    (h : requests.map JoinRequest.id = List.range requests.length) :
    (fileRequest requests user).map JoinRequest.id = List.range (fileRequest requests user).length := by
  unfold fileRequest
  split
  · exact h
  rw [map_append, h, length_append, map_singleton, length_singleton, range_succ]

theorem Reviewed.ids_kept (h : Reviewed d) :
    (setStatus status request d.requests).map JoinRequest.id =
      List.range (setStatus status request d.requests).length := by
  rw [ids_setStatus, h.ids, setStatus, length_map]

/-- A request that is pending is not rejected, as its id stands for it alone. -/
theorem Reviewed.pending (h : Reviewed d) (hq : q ∈ d.requests)
    (hpend : q.status = .pending) : NotRejected d q.id := by
  intro same hsame hid
  have hdist : (d.requests.map JoinRequest.id).Nodup := by
    rw [h.ids]
    exact nodup_range
  rw [inj_on_of_nodup_map hdist hsame hq hid, hpend]
  intro hrej
  cases hrej

theorem NotRejected.stays (h : NotRejected d request) (hreject : write ≠ .reject request) :
    NotRejected (d.write r id write) request := by
  intro q hq hid
  cases write with
  | create =>
    apply h q _ hid
    simp only [GroupData.write] at hq
    split at hq <;> exact hq
  | file =>
    rcases mem_fileRequest hq with hpre | hpend
    · exact h q hpre hid
    rw [hpend]
    intro hrej
    cases hrej
  | approve =>
    obtain ⟨before, hpre, hsame, hstat | ⟨-, hstat⟩⟩ := mem_setStatus hq
    · rw [hstat]
      exact h before hpre (hsame.symm.trans hid)
    rw [hstat]
    intro hrej
    cases hrej
  | reject rejected =>
    obtain ⟨before, hpre, hsame, hstat | ⟨hchosen, -⟩⟩ := mem_setStatus hq
    · rw [hstat]
      exact h before hpre (hsame.symm.trans hid)
    exact absurd (by rw [← hchosen, hid]) hreject
  | _ => exact h q hq hid

theorem Grounds.stays (h : Grounds d origin)
    (hreject : ∀ request, origin = .request request → write ≠ .reject request) :
    Grounds (d.write r id write) origin := by
  cases origin with
  | create | invite => exact h
  | join | qrCode => trivial
  | invitation token => exact Known.stays h
  | request request => exact NotRejected.stays h (hreject request rfl)

theorem Admits.stays (h : Admits d origin) (hstep : Step r d call write next) (hlocked : d.lock ≠ none) :
    Admits (d.write r id write) origin := by
  obtain ⟨g, hg, hopen⟩ := h
  obtain ⟨g', hg', hkept⟩ := write_group id hstep hg
  refine ⟨g', hg', ?_⟩
  intro horigin
  rw [(hkept hlocked).1]
  exact hopen horigin

/-- What a request relies on is kept by the others, unless they reject what it admits by. -/
theorem Vouched.stays (h : Vouched d call) {acting : GroupCall} (hstep : Step r d acting write next)
    (hlock : HoldsLock d other call) (hreject : ∀ request, call.approves request → write ≠ .reject request) :
    Vouched (d.write r id write) call := by
  have hlocked : call.locks = true → d.lock ≠ none := by
    intro hlocks hfree
    rw [(hlock hlocks).1] at hfree
    cases hfree
  cases call with
  | adding => exact Grounds.stays h hreject
  | locked origin user joinMode configured =>
    obtain ⟨hgrounds, hmode, g, hg, hsame⟩ := h
    obtain ⟨g', hg', hkept⟩ := write_group id hstep hg
    exact ⟨hgrounds.stays hreject, hmode, g', hg', (hkept (hlocked rfl)).1.trans hsame⟩
  | counting | limiting | inserting => exact ⟨h.1.stays hreject, h.2.stays hstep (hlocked rfl)⟩
  | accepting | acceptingInto => exact Known.stays h
  | _ => exact h

theorem Vouched.move {current : GroupCall} (h : Vouched d call) (hreviewed : Reviewed d)
    (hmove : Move r d call current) : Vouched d current := by
  cases hmove with
  | absent origin user joinMode configured hmode =>
    obtain ⟨hgrounds, hqr, g, hg, rfl⟩ := h
    refine ⟨hgrounds, g, hg, ?_⟩
    rintro (horigin | horigin) happroval
    · exact hmode ⟨horigin, happroval⟩
    exact hqr horigin happroval
  | count | limit | select | room | ask | accept | acceptJoin => exact h
  | invite actor role ids hrole => exact hrole
  | look invite looked seen seen' ids ids' hrole =>
    change looked.role.manages = true
    rw [hrole]
    exact h
  | invited user token i hi htoken => exact ⟨i, hi, htoken⟩
  | approve q hq hpend => exact hreviewed.pending hq hpend
  | _ => trivial

theorem Vouched.own {current : GroupCall} (h : Vouched d call) (hreviewed : Reviewed d)
    (hstep : Step r d call write (some current))
    (hopen : ∀ user g, call = .adding .qrCode user → write = .take → d.group = some g →
      g.joinMode ≠ .approval) : Vouched (d.write r id write) current := by
  rcases hstep.goes_on with ⟨rfl, hmove⟩ | ⟨origin, user, g, rfl, rfl, hg, rfl⟩ |
    ⟨actor, role, ids, memberCount, g, rfl, rfl, hg, rfl⟩ | ⟨token, rfl⟩ | ⟨request, rfl⟩
  · exact h.move hreviewed hmove
  · refine ⟨h, ?_, g, hg, rfl⟩
    rintro rfl
    exact hopen user g rfl rfl hg
  · exact h
  · trivial
  trivial

theorem Grounds.approved {members : Members} {configured : ℤ} {limits : PublishedGroupLimits}
    (h : Grounds d origin) (hadmits : Admits d origin)
    (hinviters : ∀ i ∈ d.invitations, i.invitedBy.manages = true) :
    Approved (d.admission r origin (d.invitedBy origin) members configured limits) := by
  intro happroval
  obtain ⟨g, hg, hopen⟩ := hadmits
  have hmode : g.joinMode = .approval := by
    change (d.group.map Group.joinMode).getD .anyone = .approval at happroval
    rwa [hg] at happroval
  cases origin with
  | create | invite => exact absurd h id
  | join => exact absurd hmode (hopen (.inl rfl))
  | qrCode => exact absurd hmode (hopen (.inr rfl))
  | invitation token =>
    obtain ⟨i, hi, htoken⟩ := h
    have hexists : (d.invitations.find? fun i => i.token = token).isSome = true :=
      find?_isSome.mpr ⟨i, hi, decide_eq_true htoken⟩
    obtain ⟨found, hfound⟩ := Option.isSome_iff_exists.mp hexists
    refine .inl ⟨found.invitedBy, ?_, hinviters found (mem_of_find?_eq_some hfound)⟩
    change (d.invitations.find? fun i => i.token = token).map Invitation.invitedBy = _
    rw [hfound]
    rfl
  | request request =>
    refine .inr ⟨⟨request, rfl⟩, ?_⟩
    apply any_eq_false.mpr
    intro q hq hboth
    rw [and_eq_true, decide_eq_true_eq, decide_eq_true_eq, Origin.request.injEq] at hboth
    exact h q hq hboth.1.symm hboth.2

theorem Reviewed.written (h : Reviewed d) (hvouched : Vouched d call) (hstep : Step r d call write next) :
    Reviewed (d.write r id write) := by
  cases hstep with
  | create owner memberIds limits =>
    unfold GroupData.write
    dsimp only
    split
    · exact h
    refine ⟨?_, h.inviters, h.ids⟩
    intro a ha
    rcases mem_cons.mp ha with rfl | hpre
    · intro happroval
      cases happroval
    exact h.admissions a hpre
  | add origin user configured limits =>
    refine ⟨?_, h.inviters, h.ids⟩
    intro a ha
    rcases mem_cons.mp ha with rfl | hpre
    · exact hvouched.1.approved hvouched.2 h.inviters
    exact h.admissions a hpre
  | file token user => exact ⟨h.admissions, h.inviters, ids_fileRequest h.ids⟩
  | invite invite limits asked =>
    refine ⟨?_, ?_, h.ids⟩
    · intro a ha
      simp only [GroupData.write] at ha
      split at ha
      · exact h.admissions a ha
      rcases mem_cons.mp ha with rfl | hpre
      · exact fun _ => .inl ⟨invite.role, rfl, hvouched⟩
      exact h.admissions a hpre
    intro i hi
    rcases mem_append.mp hi with hpre | hnew
    · exact h.inviters i hpre
    rw [(mem_newInvitations hnew).1]
    exact hvouched
  | accept token =>
    refine ⟨h.admissions, ?_, h.ids⟩
    intro i hi
    obtain ⟨before, hpre, rfl⟩ := mem_map.mp hi
    split <;> exact h.inviters before hpre
  | approve request | reject request => exact ⟨h.admissions, h.inviters, h.ids_kept⟩
  | _ => exact ⟨h.admissions, h.inviters, h.ids⟩

variable {s : State GroupData GroupCall}

theorem admissions_reviewed (hs : (groupService r).machine.ReachableBy Approves s) :
    Service.Holds Reviewed (fun d id call => HoldsLock d id call ∧ Vouched d call) s := by
  apply holds_of_steps _ _ _ _ _ hs
  · rintro d ⟨-, -, hinvitations, hrequests, -, hadmissions, -, -⟩
    refine ⟨?_, ?_, ?_⟩
    · intro a ha
      rw [hadmissions] at ha
      cases ha
    · intro i hi
      rw [hinvitations] at hi
      cases hi
    rw [hrequests]
    rfl
  · intro d id call hopens
    cases call with
    | adding origin user =>
      cases origin with
      | join => trivial
      | _ => cases hopens
    | locked | counting | limiting | inserting | selectingGroup | lockingGroup | inviting
    | asking | accepting | acceptingInto => cases hopens
    | _ => trivial
  · intro s id answer call write next hallow hcall hadv _ hreviewed hvouched
    refine ⟨hreviewed.written hvouched (step_of_advance hadv), ?_⟩
    rintro current rfl
    apply hvouched.own hreviewed (step_of_advance hadv)
    rintro user g rfl rfl hg
    exact (hallow (answered_of_write hadv (by simp) (by simp))).1 user g hcall hg
  · intro s id answer call write next other current hallow hcall hcur _ hadv _ hlock _ _ hvouched
    apply hvouched.stays (step_of_advance hadv) hlock
    rintro request happroves rfl
    cases step_of_advance hadv with
    | reject =>
      apply (hallow (answered_of_write hadv (by simp) (by simp))).2 request hcall
      exact ⟨other, current, hcur, happroves⟩
  intro d published hreviewed
  refine ⟨⟨hreviewed.admissions, hreviewed.inviters, hreviewed.ids⟩, ?_⟩
  intro id call hvouched
  cases call <;> exact hvouched

/-- No rejection, and no code for a group with approval. -/
def GroupCall.reviewed (d : GroupData) : GroupCall → Bool
  | .adding .qrCode _ => d.group.all fun g => g.joinMode ≠ .approval
  | .rejecting _ => false
  | _ => true

def Reviews (s : State GroupData GroupCall) : Action GroupCall Answer PublishedGroupLimits → Prop
  | .advance id _ => (s.calls id).all (GroupCall.reviewed s.data) = true
  | _ => True

instance (s : State GroupData GroupCall) (action : Action GroupCall Answer PublishedGroupLimits) :
    Decidable (Reviews s action) :=
  match action with
  | .start _ _ => inferInstanceAs (Decidable True)
  | .advance id _ => inferInstanceAs (Decidable ((s.calls id).all (GroupCall.reviewed s.data) = true))
  | .world _ => inferInstanceAs (Decidable True)

theorem Reviews.approves {action : Action GroupCall Answer PublishedGroupLimits} (h : Reviews s action) :
    Approves s action := by
  cases action with
  | start | world => trivial
  | advance id answer =>
    intro _
    change (s.calls id).all (GroupCall.reviewed s.data) = true at h
    constructor
    · intro user g hcall hg
      rw [hcall] at h
      change (s.data.group.all fun g => g.joinMode ≠ .approval) = true at h
      rw [hg] at h
      exact of_decide_eq_true h
    intro request hcall
    rw [hcall] at h
    cases h

/-- Alice asks for approval from now on. -/
def approvalActions : List (Action GroupCall Answer PublishedGroupLimits) :=
  [.start 2 (.updateSettings "alice" .approval), .advance 2 .answered, .advance 2 .answered]

/-- Carol asks to join, and Alice approves. -/
def approveActions : List (Action GroupCall Answer PublishedGroupLimits) :=
  [.start 3 (.createJoinRequest none "carol"), .advance 3 .answered, .advance 3 .answered,
    .start 4 (.approveJoinRequest "alice" 0)] ++ List.replicate 8 (.advance 4 .answered)

/-- Carol resolves a code while the group is open. -/
def scanActions : List (Action GroupCall Answer PublishedGroupLimits) :=
  .start 5 (.joinByQRCode "carol") :: List.replicate 2 (.advance 5 .answered)

end ImApp.GroupMembers
