import ImApp.Library.JsonText
import ImApp.Library.StepSystem

/-!
The join requests of one group. An approval checks the request, inserts the
member and writes the request's status in three transactions, while a rejection
is one update. The status and the membership agree as long as neither decider
comes between the steps of the other and an approval that has inserted its member
gets to its status.
-/

namespace ImApp.GroupJoin

open JsonText (Text)
open StepSystem

abbrev UserID := Nat

inductive Role where
  | owner
  | admin
  | member
  deriving DecidableEq

def Role.manages : Role → Bool
  | .owner | .admin => true
  | .member => false

inductive RequestStatus where
  | pending
  | approved (handler : UserID)
  | rejected (handler : UserID)
  deriving DecidableEq

structure JoinRequest where
  user : UserID
  remark : Text
  status : RequestStatus

/-- How far a call has come. A `submission` has seen that the user may ask, an
approval that the caller manages the group, that the request is pending, and that
the applicant is a member. -/
inductive Call where
  | submission (user : UserID) (remark : Text)
  | approval (manager : UserID) (request : Nat)
  | admission (manager : UserID) (request : Nat) (applicant : UserID)
  | decision (manager : UserID) (request : Nat)
  | rejection (manager : UserID) (request : Nat)

/-- The request that the call is about to approve. -/
def Call.approves : Call → Option Nat
  | .approval _ request | .admission _ request _ | .decision _ request => some request
  | .submission _ _ | .rejection _ _ => none

def Call.request : Call → Option Nat
  | .rejection _ request => some request
  | call => call.approves

/-- `admitted` records the requests whose approval inserted the member. -/
structure GroupState where
  active : Bool
  approvalMode : Bool
  members : UserID → Option Role
  requests : Nat → Option JoinRequest
  nextRequest : Nat
  calls : Nat → Option Call
  admitted : Nat → Bool

variable (s : GroupState)

def setCall (id : Nat) (call : Option Call) : GroupState :=
  { s with calls := Function.update s.calls id call }

def setRequest (request : Nat) (value : JoinRequest) : GroupState :=
  { s with requests := Function.update s.requests request (some value) }

def setMember (user : UserID) (role : Option Role) : GroupState :=
  { s with members := Function.update s.members user role }

def pending (request : Nat) : Option JoinRequest :=
  (s.requests request).filter fun value => value.status = .pending

/-- The user's pending request, of which the index admits one. -/
def pendingOf (user : UserID) : Option Nat :=
  (List.range s.nextRequest).find? fun request =>
    (pending s request).any fun value => value.user = user

def manages (user : UserID) : Bool := (s.members user).any Role.manages

/-- The first read of `CreateJoinRequest`. -/
def startSubmission (id : Nat) (user : UserID) (remark : Text) : Option GroupState :=
  if s.calls id = none ∧ s.active = true ∧ s.approvalMode = true ∧ s.members user = none then
    some (setCall s id (some (.submission user remark)))
  else none

/-- A pending request gets the new remark. -/
def submit (id : Nat) : Option GroupState :=
  match s.calls id with
  | some (.submission user remark) =>
    let done := setCall s id none
    match pendingOf s user with
    | some request => (s.requests request).map fun value =>
      setRequest done request { value with remark := remark }
    | none =>
      some { setRequest done s.nextRequest ⟨user, remark, .pending⟩ with
        nextRequest := s.nextRequest + 1 }
  | _ => none

def startApproval (id : Nat) (manager : UserID) (request : Nat) : Option GroupState :=
  if s.calls id = none ∧ manages s manager = true then
    some (setCall s id (some (.approval manager request)))
  else none

def readRequest (id : Nat) : Option GroupState :=
  match s.calls id with
  | some (.approval manager request) => (pending s request).map fun value =>
    setCall s id (some (.admission manager request value.user))
  | _ => none

/-- The transaction of `addMember`, which leaves a member alone. A full group fails
the call. -/
def addMember (id : Nat) : Option GroupState :=
  match s.calls id with
  | some (.admission manager request applicant) =>
    if s.active then
      let next := setCall s id (some (.decision manager request))
      if (s.members applicant).isSome then some next
      else some { setMember next applicant (some .member) with
        admitted := Function.update s.admitted request true }
    else none
  | _ => none

/-- The update that decides a pending request. -/
def settle (request : Nat) (status : RequestStatus) : GroupState :=
  match pending s request with
  | some value => setRequest s request { value with status := status }
  | none => s

def markApproved (id : Nat) : Option GroupState :=
  match s.calls id with
  | some (.decision manager request) =>
    some (settle (setCall s id none) request (.approved manager))
  | _ => none

def startRejection (id : Nat) (manager : UserID) (request : Nat) : Option GroupState :=
  if s.calls id = none ∧ manages s manager = true then
    some (setCall s id (some (.rejection manager request)))
  else none

def markRejected (id : Nat) : Option GroupState :=
  match s.calls id with
  | some (.rejection manager request) =>
    some (settle (setCall s id none) request (.rejected manager))
  | _ => none

/-- A call ends early: a check fails, the database fails or the server stops. -/
def fail (id : Nat) : Option GroupState :=
  match s.calls id with
  | some _ => some (setCall s id none)
  | none => none

inductive Action where
  | configure (active approvalMode : Bool)
  | setMember (user : UserID) (role : Option Role)
  | startSubmission (id : Nat) (user : UserID) (remark : Text)
  | submit (id : Nat)
  | startApproval (id : Nat) (manager : UserID) (request : Nat)
  | readRequest (id : Nat)
  | addMember (id : Nat)
  | markApproved (id : Nat)
  | startRejection (id : Nat) (manager : UserID) (request : Nat)
  | markRejected (id : Nat)
  | fail (id : Nat)

def step : Action → Option GroupState
  | .configure active approvalMode => some { s with active := active, approvalMode := approvalMode }
  | .setMember user role => some (setMember s user role)
  | .startSubmission id user remark => startSubmission s id user remark
  | .submit id => submit s id
  | .startApproval id manager request => startApproval s id manager request
  | .readRequest id => readRequest s id
  | .addMember id => addMember s id
  | .markApproved id => markApproved s id
  | .startRejection id manager request => startRejection s id manager request
  | .markRejected id => markRejected s id
  | .fail id => fail s id

/-- No request yet and no call under way. -/
structure Initial : Prop where
  requests : ∀ request, s.requests request = none
  calls : ∀ id, s.calls id = none
  admitted : ∀ request, s.admitted request = false

def machine : Machine GroupState Action where
  initial := Initial
  step := step

end ImApp.GroupJoin

/-!
Whether the status of a join request agrees with the membership it led to. The
check of an approval, the insert of the member and the status are written in
separate transactions, so a rejection between them, or an approval that stops
after the insert, leaves a member whose request is not approved.
-/

namespace ImApp.GroupJoin

open StepSystem Option Function

variable {s t : GroupState} {request : Nat}

/-- No decider comes between the steps of another one: a member is inserted only
while the request is not rejected, a request is rejected only before a member was
inserted for it, and the last call that would write the status of an admitted
request does write it. -/
def Undisturbed (s : GroupState) : Action → Prop
  | .addMember id => ∀ manager request applicant value handler,
      s.calls id = some (.admission manager request applicant) → s.members applicant = none →
        s.requests request = some value → value.status ≠ .rejected handler
  | .markRejected id => ∀ manager request, s.calls id = some (.rejection manager request) →
      (pending s request).isSome = true → s.admitted request = false
  | .fail id => ∀ call request, s.calls id = some call → call.approves = some request →
      s.admitted request = true → (pending s request).isSome = true →
        ∃ other call', other ≠ id ∧ s.calls other = some call' ∧ call'.approves = some request
  | _ => True

/-- Some call is going to write the request's status. -/
def Approving (s : GroupState) (request : Nat) : Prop :=
  ∃ id call, s.calls id = some call ∧ call.approves = some request

/-- The request is approved or about to be. -/
def Supported (s : GroupState) (request : Nat) : Prop :=
  ∃ value, s.requests request = some value ∧ ((∃ handler, value.status = .approved handler) ∨
      (value.status = .pending ∧ Approving s request))

structure JoinInvariant (s : GroupState) : Prop where
  fresh : ∀ request, s.nextRequest ≤ request → s.requests request = none
  known : ∀ id manager request applicant, s.calls id = some (.admission manager request applicant) →
      (s.requests request).isSome = true
  supported : ∀ request, s.admitted request = true → Supported s request

variable {value : JoinRequest}

theorem pending_eq_some : pending s request = some value ↔
      s.requests request = some value ∧ value.status = .pending := by
  simp [pending, filter_eq_some_iff]

theorem Supported.mono (h : Supported s request)
    (hrequests : ∀ value, s.requests request = some value →
      ∃ value', t.requests request = some value' ∧ value'.status = value.status)
    (hcalls : Approving s request → Approving t request) : Supported t request := by
  obtain ⟨value, hvalue, hstat⟩ := h
  obtain ⟨value', hvalue', hsame⟩ := hrequests value hvalue
  refine ⟨value', hvalue', ?_⟩
  rcases hstat with ⟨handler, happroved⟩ | ⟨hpend, happroving⟩
  · exact .inl ⟨handler, hsame.trans happroved⟩
  exact .inr ⟨hsame.trans hpend, hcalls happroving⟩

variable {id other : Nat} {call : Option Call}

theorem setCall_self : (setCall s id call).calls id = call :=
  update_self ..

theorem setCall_of_ne (h : other ≠ id) :
    (setCall s id call).calls other = s.calls other := update_of_ne h ..

theorem setCall_some {current : Call} (h : (setCall s id call).calls other = some current) :
    (other = id ∧ call = some current) ∨ (other ≠ id ∧ s.calls other = some current) := by
  rcases eq_or_ne other id with rfl | hne
  · exact .inl ⟨rfl, setCall_self.symm.trans h⟩
  exact .inr ⟨hne, (setCall_of_ne hne).symm.trans h⟩

theorem approving_setCall {next : Call} {before : Option Call} (hpre : s.calls id = before)
    (hnext : ∀ call, before = some call → call.approves = some request →
      next.approves = some request)
    (h : Approving s request) : Approving (setCall s id (some next)) request := by
  obtain ⟨other, call, hcall, happroves⟩ := h
  rcases eq_or_ne other id with rfl | hne
  · exact ⟨other, next, setCall_self, hnext call (hpre.symm.trans hcall) happroves⟩
  exact ⟨other, call, (setCall_of_ne hne).trans hcall, happroves⟩

theorem JoinInvariant.setCall (h : JoinInvariant s) {next : Call}
    {before : Option Call} (hpre : s.calls id = before)
    (hknown : ∀ manager request applicant, next = .admission manager request applicant →
      (s.requests request).isSome = true)
    (hnext : ∀ call request, before = some call → call.approves = some request →
      next.approves = some request) : JoinInvariant (setCall s id (some next)) where
  fresh := h.fresh
  known := by
    intro other manager request applicant hcall
    rcases setCall_some hcall with ⟨_, hsame⟩ | ⟨_, hkept⟩
    · exact hknown manager request applicant (some.inj hsame)
    exact h.known other manager request applicant hkept
  supported := by
    intro request hadmitted
    apply (h.supported request hadmitted).mono
    · exact fun value hvalue => ⟨value, hvalue, rfl⟩
    exact approving_setCall hpre (fun call => hnext call request)

theorem JoinInvariant.endCall (h : JoinInvariant s) {call : Call} (hcall : s.calls id = some call)
    (hleft : ∀ request, call.approves = some request → s.admitted request = true →
      (pending s request).isSome = true → ∃ other call', other ≠ id ∧
        s.calls other = some call' ∧ call'.approves = some request) :
    JoinInvariant (GroupJoin.setCall s id none) where
  fresh := h.fresh
  known := by
    intro other manager request applicant hother
    rcases setCall_some hother with ⟨_, hnone⟩ | ⟨_, hkept⟩
    · cases hnone
    exact h.known other manager request applicant hkept
  supported := by
    intro request hadmitted
    obtain ⟨value, hvalue, hstat⟩ := h.supported request hadmitted
    refine ⟨value, hvalue, ?_⟩
    rcases hstat with happroved | ⟨hpend, other, current, hcur, happroves⟩
    · exact .inl happroved
    refine .inr ⟨hpend, ?_⟩
    rcases eq_or_ne other id with rfl | hne
    · cases hcall.symm.trans hcur
      have hisSome : (pending s request).isSome = true := by
        rw [pending_eq_some.mpr ⟨hvalue, hpend⟩]
        rfl
      obtain ⟨another, call', hne, hcall', happroves'⟩ :=
        hleft request happroves hadmitted hisSome
      exact ⟨another, call', (setCall_of_ne hne).trans hcall', happroves'⟩
    exact ⟨other, current, (setCall_of_ne hne).trans hcur, happroves⟩

theorem setRequest_self :
    (setRequest s request value).requests request = some value := update_self ..

theorem setRequest_of_ne (h : other ≠ request) :
    (setRequest s request value).requests other = s.requests other := update_of_ne h ..

theorem isSome_setRequest (h : (s.requests other).isSome = true) :
    ((setRequest s request value).requests other).isSome = true := by
  rcases eq_or_ne other request with rfl | hne
  · rw [setRequest_self]
    rfl
  rw [setRequest_of_ne hne]
  exact h

theorem JoinInvariant.setRequest (h : JoinInvariant s) {before : JoinRequest}
    (hpre : s.requests request = some before)
    (hvalue : value.status = before.status ∨ (∃ handler, value.status = .approved handler) ∨
      s.admitted request = false) : JoinInvariant (setRequest s request value) where
  fresh := by
    intro other hother
    have hne : other ≠ request := by
      rintro rfl
      cases hpre.symm.trans (h.fresh other hother)
    exact (setRequest_of_ne hne).trans (h.fresh other hother)
  known := by
    intro id manager other applicant hcall
    exact isSome_setRequest (h.known id manager other applicant hcall)
  supported := by
    intro other hadmitted
    have hsupported := h.supported other hadmitted
    rcases eq_or_ne other request with rfl | hne
    · rcases hvalue with hsame | happroved | hnot
      · refine hsupported.mono ?_ (fun happroving => happroving)
        intro current hcur
        cases hpre.symm.trans hcur
        exact ⟨value, setRequest_self, hsame⟩
      · exact ⟨value, setRequest_self, .inl happroved⟩
      cases hnot.symm.trans hadmitted
    refine hsupported.mono ?_ (fun happroving => happroving)
    exact fun current hcur => ⟨current, (setRequest_of_ne hne).trans hcur, rfl⟩

theorem JoinInvariant.insert (h : JoinInvariant s) (value : JoinRequest) :
    JoinInvariant { GroupJoin.setRequest s s.nextRequest value with
      nextRequest := s.nextRequest + 1 } where
  fresh := by
    intro other hother
    have hne : other ≠ s.nextRequest := (Nat.lt_of_succ_le hother).ne'
    exact (setRequest_of_ne hne).trans (h.fresh other (Nat.le_of_succ_le hother))
  known := by
    intro id manager other applicant hcall
    exact isSome_setRequest (h.known id manager other applicant hcall)
  supported := by
    intro other hadmitted
    refine (h.supported other hadmitted).mono ?_ (fun happroving => happroving)
    intro current hcur
    have hne : other ≠ s.nextRequest := by
      rintro rfl
      cases (h.fresh _ le_rfl).symm.trans hcur
    exact ⟨current, (setRequest_of_ne hne).trans hcur, rfl⟩

theorem JoinInvariant.submit (h : JoinInvariant s) (hstep : submit s id = some t) :
    JoinInvariant t := by
  unfold GroupJoin.submit at hstep
  split at hstep
  · rename_i user remark hcall
    have hdone := h.endCall hcall (fun request happroves => by cases happroves)
    simp only at hstep
    split at hstep
    · rename_i request _
      obtain ⟨value, hvalue, rfl⟩ := map_eq_some_iff.mp hstep
      exact hdone.setRequest hvalue (.inl rfl)
    cases hstep
    exact hdone.insert _
  cases hstep

theorem JoinInvariant.readRequest (h : JoinInvariant s)
    (hstep : readRequest s id = some t) : JoinInvariant t := by
  unfold GroupJoin.readRequest at hstep
  split at hstep
  · rename_i manager request hcall
    obtain ⟨value, hvalue, rfl⟩ := map_eq_some_iff.mp hstep
    apply h.setCall hcall
    · intro _ _ _ hsame
      cases hsame
      rw [(pending_eq_some.mp hvalue).1]
      rfl
    intro call other hpre happroves
    cases hpre
    exact happroves
  cases hstep

theorem JoinInvariant.addMember (h : JoinInvariant s)
    (hundisturbed : Undisturbed s (.addMember id)) (hstep : addMember s id = some t) :
    JoinInvariant t := by
  unfold GroupJoin.addMember at hstep
  split at hstep
  · rename_i manager request applicant hcall
    split at hstep
    · have hnext : JoinInvariant (GroupJoin.setCall s id (some (.decision manager request))) := by
        apply h.setCall hcall
        · intro _ _ _ hsame
          cases hsame
        intro call other hpre happroves
        cases hpre
        exact happroves
      simp only at hstep
      split at hstep
      · cases hstep
        exact hnext
      rename_i hoffline
      cases hstep
      have hnot : s.members applicant = none := by
        rw [Bool.not_eq_true, isSome_eq_false_iff] at hoffline
        exact isNone_iff_eq_none.mp hoffline
      refine ⟨hnext.fresh, hnext.known, ?_⟩
      intro other hadmitted
      rcases eq_or_ne other request with rfl | hne
      · obtain ⟨value, hvalue⟩ :=
          isSome_iff_exists.mp (h.known id manager other applicant hcall)
        refine ⟨value, hvalue, ?_⟩
        have hrej := hundisturbed manager other applicant value
        cases hstat : value.status with
        | pending =>
          exact .inr ⟨rfl, id, .decision manager other, setCall_self, rfl⟩
        | approved handler => exact .inl ⟨handler, rfl⟩
        | rejected handler => exact absurd hstat (hrej handler hcall hnot hvalue)
      exact hnext.supported other ((update_of_ne hne ..).symm.trans hadmitted)
    cases hstep
  cases hstep

theorem JoinInvariant.settle (h : JoinInvariant s) {call : Call}
    {status : RequestStatus} (hcall : s.calls id = some call)
    (hcall_request : call.approves = none ∨ call.approves = some request ∧
      ∃ handler, status = .approved handler) (hstat : (∃ handler, status = .approved handler) ∨
      ((pending s request).isSome = true → s.admitted request = false)) :
    JoinInvariant (settle (GroupJoin.setCall s id none) request status) := by
  have hpendings : pending (GroupJoin.setCall s id none) request = pending s request := rfl
  unfold GroupJoin.settle
  rw [hpendings]
  cases hpend : pending s request with
  | none =>
    apply h.endCall hcall
    intro other happroves _ hother
    rcases hcall_request with hnone | ⟨hsame, _⟩
    · cases hnone.symm.trans happroves
    cases hsame.symm.trans happroves
    rw [hpend] at hother
    cases hother
  | some value =>
    obtain ⟨hvalue, _⟩ := pending_eq_some.mp hpend
    have hchanged : JoinInvariant (GroupJoin.setRequest s request { value with status := status }) := by
      apply h.setRequest hvalue
      rcases hstat with happroved | hnot
      · exact .inr (.inl happroved)
      exact .inr (.inr (hnot (by rw [hpend]; rfl)))
    apply hchanged.endCall hcall
    intro other happroves _ hother
    rcases hcall_request with hnone | ⟨hsame, handler, hhandler⟩
    · cases hnone.symm.trans happroves
    cases hsame.symm.trans happroves
    obtain ⟨current, hcur⟩ := isSome_iff_exists.mp hother
    obtain ⟨hcur, hstill⟩ := pending_eq_some.mp hcur
    rw [setRequest_self] at hcur
    cases hcur
    cases hhandler.symm.trans hstill

theorem joinInvariant_step {a : Action} (ha : Undisturbed s a) (h : JoinInvariant s)
    (hstep : step s a = some t) : JoinInvariant t := by
  have hstart : ∀ id next, s.calls id = none →
      (∀ manager request applicant, next ≠ .admission manager request applicant) →
        JoinInvariant (setCall s id (some next)) := by
    intro id next hfree hnext
    apply h.setCall hfree
    · intro manager request applicant hsame
      exact absurd hsame (hnext manager request applicant)
    intro call request hpre
    cases hpre
  cases a with
  | configure active approvalMode | setMember user role =>
    cases hstep
    exact ⟨h.fresh, h.known, h.supported⟩
  | startSubmission id _ _ | startApproval id _ _ | startRejection id _ _ =>
    simp only [step, startSubmission, startApproval, startRejection] at hstep
    split at hstep
    · rename_i hfree
      cases hstep
      exact hstart id _ hfree.1 (fun _ _ _ hsame => by cases hsame)
    cases hstep
  | submit id => exact h.submit hstep
  | readRequest id => exact h.readRequest hstep
  | addMember id => exact h.addMember ha hstep
  | markApproved id =>
    simp only [step, markApproved] at hstep
    split at hstep
    · rename_i manager request hcall
      cases hstep
      exact h.settle hcall (.inr ⟨rfl, manager, rfl⟩) (.inl ⟨manager, rfl⟩)
    cases hstep
  | markRejected id =>
    simp only [step, markRejected] at hstep
    split at hstep
    · rename_i manager request hcall
      cases hstep
      exact h.settle hcall (.inl rfl) (.inr (ha manager request hcall))
    cases hstep
  | fail id =>
    simp only [step, fail] at hstep
    split at hstep
    · rename_i call hcall
      cases hstep
      exact h.endCall hcall (fun request => ha call request hcall)
    cases hstep

theorem joinInvariant_initial (hs : Initial s) : JoinInvariant s where
  fresh := fun request _ => hs.requests request
  known := by
    intro id manager request applicant hcall
    cases (hs.calls id).symm.trans hcall
  supported := by
    intro request hadmitted
    cases (hs.admitted request).symm.trans hadmitted

/-- A request that let somebody in is approved once its calls are over, and one that
is rejected let nobody in. -/
structure Agreed (s : GroupState) (request : Nat) : Prop where
  approved : s.admitted request = true →
    (∀ id call, s.calls id = some call → call.request ≠ some request) →
      ∃ value handler, s.requests request = some value ∧ value.status = .approved handler
  rejected : ∀ value handler, s.requests request = some value → value.status = .rejected handler →
    s.admitted request = false

theorem Call.request_of_approves {call : Call} (h : call.approves = some request) :
    call.request = some request := by
  cases call with
  | rejection => cases h
  | _ => exact h

theorem JoinInvariant.agreed (h : JoinInvariant s) (request : Nat) : Agreed s request where
  approved := by
    intro hadmitted hover
    obtain ⟨value, hvalue, ⟨handler, happroved⟩ | ⟨_, id, call, hcall, happroves⟩⟩ :=
      h.supported request hadmitted
    · exact ⟨value, handler, hvalue, happroved⟩
    exact absurd (Call.request_of_approves happroves) (hover id call hcall)
  rejected := by
    intro value handler hvalue hrej
    rw [Bool.eq_false_iff]
    intro hadmitted
    obtain ⟨current, hcur, hstat⟩ := h.supported request hadmitted
    cases hvalue.symm.trans hcur
    rcases hstat with ⟨other, happroved⟩ | ⟨hpend, _⟩
    · cases hrej.symm.trans happroved
    cases hrej.symm.trans hpend

/-- A group in approval mode whose managers are the users 0 and 1. -/
def managedGroup : GroupState where
  active := true
  approvalMode := true
  members user := if user = 0 then some .owner else if user = 1 then some .admin else none
  requests _ := none
  nextRequest := 0
  calls _ := none
  admitted _ := false

theorem managedGroup_initial : Initial managedGroup := ⟨fun _ => rfl, fun _ => rfl, fun _ => rfl⟩

/-- One manager rejects the request after another has checked it. -/
def crossedDecisions : List Action :=
  [.startSubmission 0 7 [], .submit 0, .startApproval 1 0 0, .readRequest 1, .startRejection 2 1 0,
    .markRejected 2, .addMember 1, .markApproved 1]

/-- One manager approves the request before the other rejects it. -/
def orderedDecisions : List Action :=
  [.startSubmission 0 7 [], .submit 0, .startApproval 1 0 0, .readRequest 1, .startRejection 2 1 0,
    .addMember 1, .markApproved 1, .markRejected 2]

def checkedRequest : GroupState :=
  (machine.execute managedGroup (orderedDecisions.take 5)).getD managedGroup

def insertedMember : GroupState := (addMember checkedRequest 1).getD managedGroup

def approvedRequest : GroupState := (markApproved insertedMember 1).getD managedGroup

end ImApp.GroupJoin
