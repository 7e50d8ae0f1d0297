import Mathlib.Data.List.Nodup
import ImApp.McpOperations.Handlers

/-!
The protocol of approval. A record is executed by one call at most, which starts it
while it is pending and ends it, and every other step leaves a running record
running. So a request is sent once, with an approval where one is needed, and what
has ended stays as it is.
-/

namespace ImApp.McpOperations

open JsonText StepSystem List Option Function Bool

/-- Cancelled or expired, also when nobody has looked at the record since. -/
def Withdrawn (now : Nat) (r : Record) : Prop :=
  r.status = .cancelled ∨ r.status = .expired ∨ r.status.live = true ∧ r.expiresAt ≤ now

/-- The owner submits an operation that is pending and has not expired, with its
purpose where one was asked for. -/
structure Approved (c : Created) (a : Approval) : Prop where
  user : a.caller.user = c.creation.caller.user
  workspace : a.caller.workspace = c.creation.caller.workspace
  session : a.caller.apiKey = none
  pending : a.found.status = .pending
  time : a.time < c.time + operationTtl
  purpose : c.creation.awaitingPurpose = true → a.found.purpose.isSome = true

def Permitted (s : State) (c : Created) (id : OperationID) : Prop :=
  c.creation.requiresApproval = false ∨ ∃ a ∈ s.approvals, a.operation = id ∧ Approved c a

/-- The request of the creation, for a credential operation with the secrets. -/
def Faithful (c : Creation) (e : Sent) : Prop :=
  match c.spec, e.submission with
  | .credential _, some submission =>
    ExtendsBody c.request submission e.request ∨ ExtendsForm c.request submission e.request
  | _, _ => e.request = c.request

structure Lawful (s : State) (e : Sent) : Prop where
  sends : ∃ c, s.created e.operation = some c ∧ Permitted s c e.operation ∧ Faithful c.creation e ∧
    c.creation.executionTarget = .server

structure Safe (s : State) : Prop where
  once : (s.sent.map Sent.operation).Nodup
  lawful : ∀ e ∈ s.sent, Lawful s e

def Executes (s : State) (n : Nat) (id : OperationID) : Prop :=
  ∃ call, s.calls n = some call ∧ call.operation = id ∧ call.stage.executing = true

/-- Whatever is running is being executed. -/
def Attended (s : State) : Prop :=
  ∀ id r, s.records id = some r → r.status = .running → ∃ n, Executes s n id

/-- What a later state keeps of the operations of an earlier one. -/
structure Later (s t : State) : Prop where
  now : s.now ≤ t.now
  sent : ∀ e ∈ s.sent, e ∈ t.sent
  records : ∀ id r, s.records id = some r → ∃ r', t.records id = some r' ∧
    (r.status.terminal = true → r'.status = r.status) ∧
    (Withdrawn s.now r → Withdrawn t.now r' ∧ ∀ e ∈ t.sent, e.operation = id → e ∈ s.sent)

/-- What stays of a record. -/
def SameOperation (r t : Record) : Prop :=
  t = { r with
    status := t.status
    purpose := t.purpose
    desktopLeaseHash := t.desktopLeaseHash
    completedAt := t.completedAt
    result := t.result }

/-- After the purpose was asked for, it is there. -/
def Purposed (r : Record) : Prop :=
  r.status = .pending ∨ r.status = .approved ∨ r.status = .running → r.purpose.isSome = true

/-- A change that neither starts nor ends an execution. -/
structure Calm (now : Nat) (r t : Record) : Prop where
  same : SameOperation r t
  running : t.status = .running ↔ r.status = .running
  terminal : r.status.terminal = true → t.status = r.status
  withdrawn : Withdrawn now r → Withdrawn now t
  live : t.status.live = true → r.status.live = true
  purposed : Purposed r → Purposed t

section Changes

variable {now : Nat} {r t u : Record}

theorem Calm.refl (now : Nat) (r : Record) : Calm now r r :=
  ⟨rfl, Iff.rfl, fun _ => rfl, id, id, id⟩

theorem SameOperation.trans (h : SameOperation r t) (h' : SameOperation t u) : SameOperation r u := by
  unfold SameOperation at h h' ⊢
  rw [h', h]

theorem Calm.trans (h : Calm now r t) (h' : Calm now t u) : Calm now r u where
  same := h.same.trans h'.same
  running := h'.running.trans h.running
  terminal := fun hr => by
    have ht := h.terminal hr
    have hu := h'.terminal (by rw [ht]; exact hr)
    rw [hu, ht]
  withdrawn := h'.withdrawn ∘ h.withdrawn
  live := h.live ∘ h'.live
  purposed := h'.purposed ∘ h.purposed

theorem close_calm (hlive : r.status.live = true) {status : Status} (hend : status.terminal = true)
    (hwithdrawn : r.expiresAt ≤ now → status = .cancelled ∨ status = .expired)
    (result : Option McpApiResponse) : Calm now r { close now r status with result := result } where
  same := rfl
  running := by
    constructor
    · rintro rfl
      cases hend
    intro hrunning
    rw [hrunning] at hlive
    cases hlive
  terminal := by
    intro hterm
    cases hstat : r.status <;> simp_all [Status.live, Status.terminal]
  withdrawn := by
    rintro (hcancel | hexp | ⟨-, hpast⟩)
    · rw [hcancel] at hlive
      cases hlive
    · rw [hexp] at hlive
      cases hlive
    rcases hwithdrawn hpast with rfl | rfl
    · exact Or.inl rfl
    exact Or.inr (Or.inl rfl)
  live := fun _ => hlive
  purposed := by
    rintro - (rfl | rfl | rfl) <;> cases hend

theorem expire_calm (now : Nat) (r : Record) : Calm now r (expire now r) := by
  unfold expire
  split
  case isTrue h => exact close_calm h.1 rfl (fun _ => Or.inr rfl) r.result
  case isFalse => exact Calm.refl now r

theorem expire_live (h : (expire now r).status.live = true) :
    expire now r = r ∧ now < r.expiresAt := by
  unfold expire at h ⊢
  split at h
  case isTrue => cases h
  case isFalse hnot =>
    rw [if_neg hnot]
    push Not at hnot
    exact ⟨rfl, hnot h⟩

theorem live_calm (hlive : r.status.live = true) (hnow : now < r.expiresAt) {status : Status}
    {purpose : Option Text} (hstat : status.live = true)
    (hpurposed : Purposed r → Purposed { r with status := status, purpose := purpose }) :
    Calm now r { r with status := status, purpose := purpose } where
  same := rfl
  running := by
    constructor
    · rintro rfl
      cases hstat
    intro hrunning
    rw [hrunning] at hlive
    cases hlive
  terminal := by
    intro hterm
    cases hold : r.status <;> simp_all [Status.live, Status.terminal]
  withdrawn := by
    rintro (hcancel | hexp | ⟨-, hpast⟩)
    · rw [hcancel] at hlive
      cases hlive
    · rw [hexp] at hlive
      cases hlive
    omega
  live := fun _ => hlive
  purposed := hpurposed

theorem providePurpose_calm {purpose : Text} (h : providePurpose now r purpose = some t) :
    Calm now r t := by
  simp only [providePurpose, ite_none_right_eq_some, some.injEq] at h
  obtain ⟨⟨-, hstat⟩, rfl⟩ := h
  have hlive : (expire now r).status.live = true := by rw [hstat]; rfl
  obtain ⟨hsame, hnow⟩ := expire_live hlive
  rw [hsame] at hlive ⊢
  exact live_calm hlive hnow rfl (fun _ _ => rfl)

theorem approveDesktop_calm (h : approveDesktop now r = some t) : Calm now r t := by
  simp only [approveDesktop, ite_none_right_eq_some, some.injEq] at h
  obtain ⟨hstat, rfl⟩ := h
  have hlive : (expire now r).status.live = true := by rw [hstat]; rfl
  obtain ⟨hsame, hnow⟩ := expire_live hlive
  rw [hsame] at hlive hstat ⊢
  exact live_calm hlive hnow rfl (fun hpurposed _ => hpurposed (Or.inl hstat))

theorem cancel_calm (h : cancel now r = some t) : Calm now r t := by
  simp only [cancel, ite_none_right_eq_some, some.injEq] at h
  obtain ⟨hlive, rfl⟩ := h
  obtain ⟨hsame, -⟩ := expire_live hlive
  rw [hsame] at hlive ⊢
  exact close_calm hlive rfl (fun _ => Or.inl rfl) r.result

theorem cancelled_calm (now : Nat) (r : Record) : Calm now r (cancelled now r) := by
  unfold cancelled
  cases h : cancel now r with
  | none => exact expire_calm now r
  | some t => exact cancel_calm h

variable {response : McpApiResponse}

theorem desktopResult_calm {tokenHash : Lease → LeaseHash} {lease : Lease}
    (hstart : startDesktop now r tokenHash lease = some t) (hcompl : complete now t response = some u) :
    Calm now r u := by
  simp only [startDesktop, ite_none_right_eq_some, some.injEq] at hstart
  obtain ⟨⟨hstat, -⟩, rfl⟩ := hstart
  have hlive : (expire now r).status.live = true := by rw [hstat]; rfl
  obtain ⟨hsame, hnow⟩ := expire_live hlive
  rw [hsame] at hlive hcompl
  simp only [complete, if_true, some.injEq] at hcompl
  subst hcompl
  apply close_calm hlive
  · split <;> rfl
  intro hpast
  omega

theorem startServer_spec (h : startServer now r = some t) :
    r.status = .pending ∧ now < r.expiresAt ∧ t = { r with status := .running } := by
  simp only [startServer, ite_none_right_eq_some, some.injEq] at h
  obtain ⟨hstat, rfl⟩ := h
  have hlive : (expire now r).status.live = true := by rw [hstat]; rfl
  obtain ⟨hsame, hnow⟩ := expire_live hlive
  rw [hsame] at hstat ⊢
  exact ⟨hstat, hnow, rfl⟩

/-- The end of an execution. -/
structure Ends (r t : Record) : Prop where
  same : SameOperation r t
  running : r.status = .running
  terminal : t.status.terminal = true

theorem complete_ends (h : complete now r response = some t) : Ends r t := by
  simp only [complete, ite_none_right_eq_some, some.injEq] at h
  obtain ⟨hrunning, rfl⟩ := h
  refine ⟨rfl, hrunning, ?_⟩
  dsimp only [close]
  split <;> rfl

theorem fail_ends (hrunning : r.status = .running)
    (h : fail now r response = some t) : Ends r t := by
  simp only [fail, ite_none_right_eq_some, some.injEq] at h
  obtain ⟨-, rfl⟩ := h
  exact ⟨rfl, hrunning, rfl⟩

end Changes

/-- A record that no handler runs any more, or that only a desktop runs. -/
def Ended (r : Record) : Prop :=
  r.status.terminal = true ∨ r.kind = .confirmation ∧ r.executionTarget = .desktop

/-- A call that has nothing more to do than its last audit. -/
def Finishing (s : State) (call : Call) : Prop :=
  call.stage = .finish ∧ ∃ r, s.records call.operation = some r ∧ Ended r

def Idle (call : Option Call) : Prop := ∀ c ∈ call, c.stage.executing = false

/-- A step that neither starts nor ends an execution. -/
structure Quiet (s t : State) : Prop where
  now : s.now ≤ t.now
  nextID : t.nextID = s.nextID
  created : t.created = s.created
  sent : t.sent = s.sent
  approvals : ∀ a ∈ s.approvals, a ∈ t.approvals
  records : ∀ id, Option.Rel (Calm s.now) (s.records id) (t.records id)
  calls : ∀ n, t.calls n = s.calls n ∨ Idle (s.calls n) ∧ ∀ call ∈ t.calls n, Finishing t call

section Quiet

variable {s t u : State} {id : OperationID} {n : Nat} {r r' : Record}

theorem rel_refl (now : Nat) : ∀ r, Option.Rel (Calm now) r r
  | none => .none
  | some r => .some (Calm.refl now r)

theorem Quiet.refl (s : State) : Quiet s s :=
  ⟨le_rfl, rfl, rfl, rfl, fun _ h => h, fun _ => rel_refl _ _, fun _ => Or.inl rfl⟩

theorem quiet_setRecord (h : s.records id = some r) (hcalm : Calm s.now r r') :
    Quiet s (setRecord s id r') where
  now := le_rfl
  nextID := rfl
  created := rfl
  sent := rfl
  approvals := fun _ h => h
  records := by
    intro other
    unfold setRecord
    by_cases hother : other = id
    · subst hother
      simp only [update_self, h]
      exact .some hcalm
    simp only [update_of_ne hother]
    exact rel_refl _ _
  calls := fun _ => Or.inl rfl

theorem quiet_look (s : State) (id : OperationID) : Quiet s (look s id) := by
  cases h : s.records id with
  | none =>
    have hsame : look s id = s := by
      unfold look
      rw [h, map_none, ← h, update_eq_self]
    rw [hsame]
    exact Quiet.refl s
  | some r =>
    have hset : look s id = setRecord s id (expire s.now r) := by
      unfold look setRecord
      rw [h, map_some]
    rw [hset]
    exact quiet_setRecord h (expire_calm s.now r)

theorem quiet_get (s : State) (id : OperationID) : Quiet s (get s id) := by
  unfold get
  split
  · exact quiet_look s id
  exact Quiet.refl s

theorem get_now (s : State) (id : OperationID) : (get s id).now = s.now := by
  unfold get look
  split <;> rfl

theorem get_calls (s : State) (id : OperationID) : (get s id).calls = s.calls := by
  unfold get look
  split <;> rfl

theorem get_approvals (s : State) (id : OperationID) : (get s id).approvals = s.approvals := by
  unfold get look
  split <;> rfl

theorem Quiet.then_setRecord (h : Quiet s t) (hcalls : t.calls = s.calls)
    (hr : t.records id = some r) (hcalm : Calm s.now r r') : Quiet s (setRecord t id r') := { h with
    records := by
      intro other
      have hpre := h.records other
      unfold setRecord
      by_cases hother : other = id
      · subst hother
        simp only [update_self]
        rw [hr] at hpre
        generalize s.records other = old at hpre
        cases hpre with
        | some hfirst => exact .some (hfirst.trans hcalm)
      simp only [update_of_ne hother]
      exact hpre
    calls := fun m => Or.inl (congrFun hcalls m) }

theorem Quiet.then_approve (h : Quiet s t) {approvals : List Approval}
    (happrovals : ∀ a ∈ t.approvals, a ∈ approvals) :
    Quiet s { t with approvals := approvals } := { h with
    approvals := fun a ha => happrovals a (h.approvals a ha) }

theorem Quiet.then_setCall (h : Quiet s t) (hcalls : t.calls = s.calls) {call : Option Call}
    (hidle : Idle (s.calls n)) (hfinishing : ∀ c ∈ call, Finishing t c) :
    Quiet s (setCall t n call) := { h with
    calls := by
      intro m
      unfold setCall
      by_cases hm : m = n
      · subst hm
        simp only [update_self]
        exact Or.inr ⟨hidle, hfinishing⟩
      simp only [update_of_ne hm]
      exact Or.inl (congrFun hcalls m) }

theorem operationForRequest_eq_some {caller : Caller}
    (h : operationForRequest s caller id = some r) :
    (get s id).records id = some r ∧ sameOwner r caller = true := by
  unfold operationForRequest at h
  split at h
  · exact filter_eq_some_iff.mp h
  cases h

theorem quiet_answer {caller : Caller} {change : Record → Option Record}
    (hchange : ∀ r r', change r = some r' → Calm s.now r r') :
    Quiet s (answer s caller id change) := by
  unfold answer
  cases h : (operationForRequest s caller id).bind change with
  | none => exact quiet_get s id
  | some r' =>
    obtain ⟨r, hr, hnew⟩ := bind_eq_some_iff.mp h
    have hfound := (operationForRequest_eq_some hr).1
    exact (quiet_get s id).then_setRecord (get_calls s id) hfound (hchange r r' hnew)

theorem quiet_records {records : OperationID → Option Record} {stored : OperationID → Bool}
    (h : ∀ id, Option.Rel (Calm s.now) (s.records id) (records id)) :
    Quiet s { s with records := records, stored := stored } :=
  ⟨le_rfl, rfl, rfl, rfl, fun _ h => h, h, fun _ => Or.inl rfl⟩

theorem rel_map {now : Nat} {change : Record → Record} (h : ∀ r, Calm now r (change r)) :
    ∀ r, Option.Rel (Calm now) r (r.map change)
  | none => .none
  | some r => .some (h r)

theorem quiet_cancelScope (s : State) (user : UserID) (scope : ScopeID) :
    Quiet s (cancelScope s user scope) := by
  apply quiet_records
  intro id
  split
  · apply rel_map
    intro r
    split
    · exact cancelled_calm s.now r
    exact Calm.refl s.now r
  exact rel_refl _ _

theorem quiet_cleanup (s : State) : Quiet s (cleanup s) := by
  apply quiet_records
  intro id
  split
  · exact rel_map (expire_calm s.now) _
  exact rel_refl _ _

end Quiet

/-- A call starts to execute an operation that is pending. -/
structure Starts (s t : State) (n : Nat) (call : Call) (r : Record) : Prop where
  record : s.records call.operation = some r
  pending : r.status = .pending
  now : s.now < r.expiresAt
  server : ¬(r.kind = .confirmation ∧ r.executionTarget = .desktop)
  idle : Idle (s.calls n)
  prepare : ∃ submission, call.stage = .prepare submission
  result : ∃ approvals, (∀ a ∈ s.approvals, a ∈ approvals) ∧
    t = setCall (setRecord { s with approvals := approvals } call.operation
      { r with status := .running }) n (some call)
  permitted : call.automatic = true ∧
      (∃ c, s.created call.operation = some c ∧ c.creation.requiresApproval = false) ∨
    call.automatic = false ∧ ∃ a ∈ t.approvals, a.operation = call.operation ∧ a.time = s.now ∧
      a.found = r ∧ a.caller.authorization = false ∧ sameOwner r a.caller = true

/-- A call sends its request. -/
structure Sends (s t : State) (n : Nat) (call : Call) (r : Record) : Prop where
  held : s.calls n = some call
  record : s.records call.operation = some r
  result : ∃ submission request, call.stage = .prepare submission ∧
    requestToSend call r submission = some request ∧ t = send s n call r submission request

/-- A call ends the execution of its operation. -/
structure Finishes (s t : State) (n : Nat) (call : Call) (r r' : Record) : Prop where
  held : s.calls n = some call
  executing : call.stage.executing = true
  record : s.records call.operation = some r
  ends : Ends r r'
  result : ∃ next : Option Call, (∀ c ∈ next, c.stage = .finish ∧ c.operation = call.operation) ∧
    t = setCall (setRecord s call.operation r') n next

/-- A call gives up and leaves its operation running. -/
structure Loses (s t : State) (n : Nat) (call : Call) : Prop where
  held : s.calls n = some call
  executing : call.stage.executing = true
  automatic : call.automatic = true
  result : t = setCall s n none

/-- Everything a step can do. Only where `lost` does it leave an operation running. -/
inductive Change (tokenHash : Lease → LeaseHash) (s t : State) (lost : Prop) : Prop where
  | quiet (h : Quiet s t)
  | create (n : Nat) (c : Creation) (lease : Lease) (hfree : s.calls n = none)
      (h : t = create s tokenHash n c lease)
  | start (n : Nat) (call : Call) (r : Record) (h : Starts s t n call r)
  | send (n : Nat) (call : Call) (r : Record) (h : Sends s t n call r)
  | finish (n : Nat) (call : Call) (r r' : Record) (h : Finishes s t n call r r')
  | lose (n : Nat) (call : Call) (h : Loses s t n call) (hlost : lost)

/-- No automatic execution throws. -/
def Answered (s : State) : Action → Prop
  | .throw n _ => ∀ call ∈ s.calls n, call.automatic = true → call.stage.executing = false
  | _ => True

instance (s : State) (a : Action) : Decidable (Answered s a) := by
  unfold Answered
  split <;> infer_instance

/-- The record of an operation as its creation has fixed it. -/
structure Fixed (c : Created) (r : Record) : Prop where
  owner : r.owner = c.creation.caller.user
  workspace : r.workspace = c.creation.caller.workspace
  kind : r.kind = c.creation.kind
  target : r.executionTarget = c.creation.executionTarget
  request : r.request = c.creation.request
  credential : r.credential = c.creation.credential
  expiresAt : r.expiresAt = c.time + operationTtl

structure Kept (s : State) : Prop where
  fresh : ∀ id, s.nextID ≤ id → s.records id = none
  created : ∀ id r, s.records id = some r → ∃ c, s.created id = some c ∧ Fixed c r ∧
    (c.creation.awaitingPurpose = true → Purposed r)
  server : ∀ id r, s.records id = some r → r.status = .running →
    ¬(r.kind = .confirmation ∧ r.executionTarget = .desktop)
  calls : ∀ n call, s.calls n = some call → ∃ r, s.records call.operation = some r ∧
    (call.stage = .audit → call.automatic = true) ∧ (call.stage = .finish → Ended r) ∧
    (call.stage.executing = true → r.status = .running)
  permitted : ∀ n call, s.calls n = some call → call.stage.executing = true →
    ∃ c, s.created call.operation = some c ∧ Permitted s c call.operation ∧
      (call.automatic = true → c.creation.requiresApproval = false)
  sole : ∀ n m id, Executes s n id → Executes s m id → n = m
  unsent : ∀ e ∈ s.sent, ∃ r, s.records e.operation = some r ∧ r.status.live = false
  prepared : ∀ n call submission, s.calls n = some call → call.stage = .prepare submission →
    ∀ e ∈ s.sent, e.operation ≠ call.operation
  safe : Safe s

section Steps

variable {tokenHash : Lease → LeaseHash} {s t : State} {n : Nat} {call : Call} {r : Record}
  {lost : Prop}

theorem held_eq_some (h : held s n = some (call, r)) :
    s.calls n = some call ∧ s.records call.operation = some r := by
  obtain ⟨c, hcall, hrest⟩ := bind_eq_some_iff.mp h
  obtain ⟨other, hrec, hpair⟩ := map_eq_some_iff.mp hrest
  cases hpair
  exact ⟨hcall, hrec⟩

theorem setRecord_get (s : State) (id : OperationID) (r : Record) :
    setRecord (get s id) id r = setRecord s id r := by
  unfold get
  split
  · simp only [setRecord, look, update_idem]
  rfl

theorem get_approve (s : State) (id : OperationID) (approvals : List Approval) :
    { get s id with approvals := approvals } = get { s with approvals := approvals } id := by
  unfold get look
  split <;> rfl

theorem operationForRequest_live {caller : Caller} {id : OperationID}
    (h : operationForRequest s caller id = some r) (hlive : r.status.live = true) :
    s.records id = some r ∧ sameOwner r caller = true := by
  obtain ⟨hfound, howner⟩ := operationForRequest_eq_some h
  refine ⟨?_, howner⟩
  unfold get at hfound
  split at hfound
  case isFalse => exact hfound
  case isTrue =>
    simp only [look, update_self] at hfound
    obtain ⟨r₀, hr₀, rfl⟩ := map_eq_some_iff.mp hfound
    rw [(expire_live hlive).1]
    exact hr₀

theorem idle_of_stage (hcall : s.calls n = some call) (hstage : call.stage.executing = false) :
    Idle (s.calls n) := by
  rw [hcall]
  rintro _ ⟨⟩
  exact hstage

theorem approveDesktop_same {now : Nat} {r' : Record} (h : approveDesktop now r = some r') :
    SameOperation r r' := (approveDesktop_calm h).same

theorem SameOperation.ended {r' : Record} (h : SameOperation r r')
    (hdesktop : r.kind = .confirmation ∧ r.executionTarget = .desktop) : Ended r' := by
  unfold SameOperation at h
  rw [h]
  exact Or.inr hdesktop

theorem desktop_spec {c : Creation} (h : c.desktop = true) :
    c.kind = .confirmation ∧ c.executionTarget = .desktop := by
  have htgt : c.executionTarget = .desktop := by rw [Creation.executionTarget, if_pos h]
  simp only [Creation.desktop, and_eq_true, decide_eq_true_eq] at h
  exact ⟨h.1.1.1, htgt⟩

theorem not_desktop_spec {c : Creation} (h : c.desktop = false) : c.executionTarget = .server := by
  rw [Creation.executionTarget, h]
  rfl

theorem afterAudit_change (hkept : Kept s) (hcall : s.calls n = some call)
    (hrec : s.records call.operation = some r) (haudit : call.stage = .audit) {c : Created}
    (hcreated : s.created call.operation = some c) :
    Change tokenHash s (afterAudit s n call c.creation r) lost := by
  have hidle : Idle (s.calls n) := idle_of_stage hcall (by rw [haudit]; rfl)
  obtain ⟨_, -, hauto, -⟩ := hkept.calls n call hcall
  obtain ⟨other, hother, hfixed, -⟩ := hkept.created _ _ hrec
  rw [hcreated] at hother
  cases hother
  have hquiet : Change tokenHash s (setCall (look s call.operation) n none) lost :=
    .quiet ((quiet_look s _).then_setCall rfl hidle (by simp))
  unfold afterAudit
  dsimp only
  split
  · exact hquiet
  rename_i happroval
  split
  case isTrue hdesktop =>
    obtain ⟨hkind, htgt⟩ := desktop_spec hdesktop
    split
    · rename_i r' happrove
      apply Change.quiet
      apply (quiet_setRecord hrec (approveDesktop_calm happrove)).then_setCall rfl hidle
      rintro _ ⟨⟩
      have hended := (approveDesktop_same happrove).ended
        ⟨hfixed.kind.trans hkind, hfixed.target.trans htgt⟩
      exact ⟨rfl, r', by simp [setRecord], hended⟩
    exact hquiet
  case isFalse hserver =>
    have htgt := not_desktop_spec (Bool.eq_false_iff.mpr hserver)
    split
    · rename_i r' hstart
      obtain ⟨hpend, hnow, rfl⟩ := startServer_spec hstart
      apply Change.start n { call with stage := .prepare noSubmission } r
      refine ⟨hrec, hpend, hnow, ?_, hidle, ⟨_, rfl⟩, ⟨s.approvals, fun _ h => h, rfl⟩, ?_⟩
      · rintro ⟨-, hdesktop⟩
        rw [hfixed.target, htgt] at hdesktop
        cases hdesktop
      exact Or.inl ⟨hauto haudit, c, hcreated, by simpa using happroval⟩
    exact hquiet

theorem submit_change {caller : Caller} {id : OperationID} {submission : Submission}
    (hfree : s.calls n = none) (hauthorization : caller.authorization = false) :
    Change tokenHash s (submit s n caller id submission) lost := by
  have hidle : Idle (s.calls n) := by
    rw [hfree]
    simp [Idle]
  have hquiet : Change tokenHash s (get s id) lost := .quiet (quiet_get s id)
  unfold submit
  split
  · exact hquiet
  rename_i found hfound
  obtain ⟨hfound, hpend⟩ := filter_eq_some_iff.mp hfound
  have hstat : found.status = .pending := by simpa using hpend
  have hlive : found.status.live = true := by rw [hstat]; rfl
  obtain ⟨hrec, howner⟩ := operationForRequest_live hfound hlive
  have hfound' := (operationForRequest_eq_some hfound).1
  dsimp only
  split
  · rename_i hdesktop
    split
    · rename_i r' happrove
      apply Change.quiet
      have hgrown : Quiet s { get s id with
          approvals := s.approvals ++ [⟨id, caller, s.now, found⟩] } := by
        apply (quiet_get s id).then_approve
        rw [get_approvals]
        exact fun a ha => mem_append_left _ ha
      have hset := hgrown.then_setRecord (get_calls s id) hfound' (approveDesktop_calm happrove)
      apply hset.then_setCall (get_calls s id) hidle
      rintro _ ⟨⟩
      exact ⟨rfl, r', by simp [setRecord], (approveDesktop_same happrove).ended hdesktop⟩
    exact hquiet
  rename_i hserver
  split
  · rename_i r' hstart
    obtain ⟨-, hnow, rfl⟩ := startServer_spec hstart
    apply Change.start n ⟨id, false, caller, .prepare submission⟩ found
    rw [get_approve, setRecord_get]
    refine ⟨hrec, hstat, hnow, hserver, hidle, ⟨_, rfl⟩,
      ⟨_, fun a ha => mem_append_left _ ha, rfl⟩, ?_⟩
    apply Or.inr
    refine ⟨rfl, ⟨id, caller, s.now, found⟩, ?_, rfl, rfl, rfl, hauthorization, howner⟩
    exact mem_append_right _ (mem_singleton_self _)
  exact hquiet

theorem caught_change (hkept : Kept s) (hcall : s.calls n = some call)
    (hrec : s.records call.operation = some r) (message : McpApiResponse)
    (hlost : call.automatic = true → call.stage.executing = true → lost) :
    Change tokenHash s (caught s n call r message) lost := by
  obtain ⟨_, hrecord', haudit, hfinish, hrunning⟩ := hkept.calls n call hcall
  rw [hrec] at hrecord'
  cases hrecord'
  unfold caught
  split
  case isTrue hauto =>
    cases hexec : call.stage.executing with
    | true => exact .lose n call ⟨hcall, hexec, hauto, rfl⟩ (hlost hauto hexec)
    | false =>
      apply Change.quiet
      exact (Quiet.refl s).then_setCall rfl (idle_of_stage hcall hexec) (by simp)
  case isFalse hsubmitted =>
    dsimp only
    cases hexec : call.stage.executing with
    | true =>
      have hstat := hrunning hexec
      have hfail : fail s.now r message = some { close s.now r .failed with
          result := some (safeResult message) } := if_pos (Or.inr hstat)
      rw [if_pos hstat, get_now, hfail]
      dsimp only
      rw [setRecord_get]
      exact .finish n call r _ ⟨hcall, hexec, hrec, fail_ends hstat hfail, none, by simp, rfl⟩
    | false =>
      have hfinished : call.stage = .finish := by
        cases hstage : call.stage with
        | audit => exact absurd (haudit hstage) hsubmitted
        | finish => rfl
        | prepare submission | response => rw [hstage] at hexec; cases hexec
      have hnot : r.status ≠ .running := by
        intro hstat
        rcases hfinish hfinished with hterm | hdesktop
        · rw [hstat] at hterm
          cases hterm
        exact hkept.server _ _ hrec hstat hdesktop
      rw [if_neg hnot]
      apply Change.quiet
      exact (quiet_get s call.operation).then_setCall (get_calls s _)
        (idle_of_stage hcall hexec) (by simp)

theorem respond_change (hkept : Kept s) (hcall : s.calls n = some call)
    (hrec : s.records call.operation = some r) (hresponse : call.stage = .response)
    (response message : McpApiResponse) :
    Change tokenHash s (respond s n call r response message) lost := by
  have hexec : call.stage.executing = true := by
    rw [hresponse]
    rfl
  obtain ⟨_, hrecord', -, -, hrunning⟩ := hkept.calls n call hcall
  rw [hrec] at hrecord'
  cases hrecord'
  unfold respond
  split
  · rename_i r' hcompl
    exact .finish n call r r' ⟨hcall, hexec, hrec, complete_ends hcompl,
      some { call with stage := .finish }, by simp, rfl⟩
  rename_i hnot
  rw [complete, if_pos (hrunning hexec)] at hnot
  cases hnot

theorem advance_change (hkept : Kept s) {message : McpApiResponse}
    (h : advance s n message = some t) : Change tokenHash s t lost := by
  obtain ⟨pair, hheld, h⟩ := bind_eq_some_iff.mp h
  obtain ⟨call, r⟩ := pair
  obtain ⟨hcall, hrec⟩ := held_eq_some hheld
  dsimp only at h
  split at h
  · rename_i haudit
    obtain ⟨c, hcreated, rfl⟩ := map_eq_some_iff.mp h
    exact afterAudit_change hkept hcall hrec haudit hcreated
  · rename_i submission hprepare
    split at h
    · rename_i request hreq
      cases h
      exact .send n call r ⟨hcall, hrec, submission, request, hprepare, hreq, rfl⟩
    rename_i hnot
    cases h
    apply caught_change hkept hcall hrec message
    -- an automatic execution always has its request
    intro hauto _
    rw [requestToSend, if_pos hauto] at hnot
    cases hnot
  · cases h
  rename_i hfinish
  cases h
  apply Change.quiet
  exact (quiet_look s call.operation).then_setCall rfl
    (idle_of_stage hcall (by rw [hfinish]; rfl)) (by simp)

theorem step_change (hkept : Kept s) {a : Action} (h : step s tokenHash a = some t) :
    Change tokenHash s t (¬Answered s a) := by
  cases a with
  | create n c lease =>
    obtain ⟨hfree, h⟩ := ite_none_right_eq_some.mp h
    cases h
    exact .create n c lease hfree rfl
  | submit n caller id submission =>
    obtain ⟨⟨hfree, hauthorization⟩, h⟩ := ite_none_right_eq_some.mp h
    cases h
    exact submit_change hfree hauthorization
  | advance n message => exact advance_change hkept h
  | respond n response message =>
    obtain ⟨pair, hheld, h⟩ := bind_eq_some_iff.mp h
    obtain ⟨call, r⟩ := pair
    obtain ⟨hcall, hrec⟩ := held_eq_some hheld
    dsimp only at h
    split at h
    · rename_i hresponse
      cases h
      exact respond_change hkept hcall hrec hresponse response message
    cases h
  | throw n message =>
    obtain ⟨pair, hheld, rfl⟩ := map_eq_some_iff.mp h
    obtain ⟨call, r⟩ := pair
    obtain ⟨hcall, hrec⟩ := held_eq_some hheld
    apply caught_change hkept hcall hrec message
    intro hauto hexec hans
    rw [hans call hcall hauto] at hexec
    cases hexec
  | purpose caller id text =>
    cases h
    apply Change.quiet
    apply quiet_answer
    intro r r' hr
    obtain ⟨-, hr⟩ := ite_none_right_eq_some.mp hr
    exact providePurpose_calm hr
  | cancel caller id =>
    cases h
    exact .quiet (quiet_answer fun r r' hr => cancel_calm hr)
  | desktopResult caller id lease response =>
    cases h
    apply Change.quiet
    apply quiet_answer
    intro r r' hr
    obtain ⟨-, hr⟩ := ite_none_right_eq_some.mp hr
    obtain ⟨started, hstart, hcompl⟩ := bind_eq_some_iff.mp hr
    exact desktopResult_calm hstart hcompl
  | cancelScope user scope =>
    cases h
    exact .quiet (quiet_cancelScope s user scope)
  | read id =>
    cases h
    exact .quiet (quiet_look s id)
  | cleanup =>
    cases h
    exact .quiet (quiet_cleanup s)
  | tick duration =>
    cases h
    exact .quiet ⟨Nat.le_add_right _ _, rfl, rfl, rfl, fun _ h => h, fun _ => rel_refl _ _,
      fun _ => Or.inl rfl⟩

end Steps

section Keeps

variable {tokenHash : Lease → LeaseHash} {s t : State}

theorem Fixed.same {c : Created} {r r' : Record} (h : Fixed c r) (hsame : SameOperation r r') :
    Fixed c r' := by
  unfold SameOperation at hsame
  rw [hsame]
  exact ⟨h.owner, h.workspace, h.kind, h.target, h.request, h.credential, h.expiresAt⟩

theorem Ended.calm {now : Nat} {r r' : Record} (h : Ended r) (hcalm : Calm now r r') : Ended r' := by
  rcases h with hterm | hdesktop
  · apply Or.inl
    rw [hcalm.terminal hterm]
    exact hterm
  exact hcalm.same.ended hdesktop

theorem Permitted.mono {c : Created} {id : OperationID} (h : Permitted s c id)
    (happrovals : ∀ a ∈ s.approvals, a ∈ t.approvals) : Permitted t c id := by
  rcases h with hfree | ⟨a, ha, hrest⟩
  · exact Or.inl hfree
  exact Or.inr ⟨a, happrovals a ha, hrest⟩

theorem Lawful.mono {e : Sent} (h : Lawful s e)
    (hcreated : ∀ c, s.created e.operation = some c → t.created e.operation = some c)
    (happrovals : ∀ a ∈ s.approvals, a ∈ t.approvals) : Lawful t e := by
  obtain ⟨c, hc, hpermitted, hrest⟩ := h.sends
  exact ⟨c, hcreated c hc, hpermitted.mono happrovals, hrest⟩

theorem Quiet.before {id : OperationID} {r' : Record} (h : Quiet s t) (hr' : t.records id = some r') :
    ∃ r, s.records id = some r ∧ Calm s.now r r' := by
  have hrel := h.records id
  rw [hr'] at hrel
  generalize hold : s.records id = old at hrel
  cases hrel with
  | some hcalm => exact ⟨_, rfl, hcalm⟩

theorem Quiet.after {id : OperationID} {r : Record} (h : Quiet s t) (hr : s.records id = some r) :
    ∃ r', t.records id = some r' ∧ Calm s.now r r' := by
  have hrel := h.records id
  rw [hr] at hrel
  generalize hnew : t.records id = new at hrel
  cases hrel with
  | some hcalm => exact ⟨_, rfl, hcalm⟩

theorem Quiet.old_call {n : Nat} {call : Call} (h : Quiet s t) (hcall : t.calls n = some call)
    (hstage : call.stage ≠ .finish) : s.calls n = some call := by
  rcases h.calls n with hsame | ⟨-, hfinishing⟩
  · rw [← hsame]
    exact hcall
  exact absurd (hfinishing call hcall).1 hstage

theorem Quiet.executes {n : Nat} {id : OperationID} (h : Quiet s t) :
    Executes t n id ↔ Executes s n id := by
  constructor
  · rintro ⟨call, hcall, hop, hexec⟩
    refine ⟨call, h.old_call hcall ?_, hop, hexec⟩
    intro hfinish
    rw [hfinish] at hexec
    cases hexec
  rintro ⟨call, hcall, hop, hexec⟩
  rcases h.calls n with hsame | ⟨hidle, -⟩
  · exact ⟨call, hsame.trans hcall, hop, hexec⟩
  rw [hidle call hcall] at hexec
  cases hexec

theorem Quiet.kept (h : Quiet s t) (hkept : Kept s) : Kept t where
  fresh := by
    intro id hid
    rw [h.nextID] at hid
    have hrel := h.records id
    rw [hkept.fresh id hid] at hrel
    generalize t.records id = new at hrel ⊢
    cases hrel
    rfl
  created := by
    intro id r' hr'
    obtain ⟨r, hr, hcalm⟩ := h.before hr'
    obtain ⟨c, hc, hfixed, hpurposed⟩ := hkept.created id r hr
    exact ⟨c, by rw [h.created]; exact hc, hfixed.same hcalm.same,
      fun hasked => hcalm.purposed (hpurposed hasked)⟩
  server := by
    intro id r' hr' hrunning hdesktop
    obtain ⟨r, hr, hcalm⟩ := h.before hr'
    have hsame := hcalm.same
    unfold SameOperation at hsame
    rw [hsame] at hdesktop
    exact hkept.server id r hr (hcalm.running.mp hrunning) hdesktop
  calls := by
    intro n call hcall
    by_cases hfinish : call.stage = .finish
    · rcases h.calls n with hsame | ⟨-, hfinishing⟩
      · obtain ⟨r, hr, -, hended, -⟩ := hkept.calls n call (hsame.symm.trans hcall)
        obtain ⟨r', hr', hcalm⟩ := h.after hr
        refine ⟨r', hr', ?_, fun _ => (hended hfinish).calm hcalm, ?_⟩ <;> simp [hfinish, Stage.executing]
      obtain ⟨-, r', hr', hended⟩ := hfinishing call hcall
      refine ⟨r', hr', ?_, fun _ => hended, ?_⟩ <;> simp [hfinish, Stage.executing]
    obtain ⟨r, hr, haudit, -, hrunning⟩ := hkept.calls n call (h.old_call hcall hfinish)
    obtain ⟨r', hr', hcalm⟩ := h.after hr
    exact ⟨r', hr', haudit, fun hstage => absurd hstage hfinish,
      fun hexec => hcalm.running.mpr (hrunning hexec)⟩
  permitted := by
    intro n call hcall hexec
    have hold : s.calls n = some call := by
      apply h.old_call hcall
      intro hfinish
      rw [hfinish] at hexec
      cases hexec
    obtain ⟨c, hc, hpermitted, hauto⟩ := hkept.permitted n call hold hexec
    exact ⟨c, by rw [h.created]; exact hc, hpermitted.mono h.approvals, hauto⟩
  sole := fun n m id hn hm => hkept.sole n m id (h.executes.mp hn) (h.executes.mp hm)
  unsent := by
    intro e he
    rw [h.sent] at he
    obtain ⟨r, hr, hlive⟩ := hkept.unsent e he
    obtain ⟨r', hr', hcalm⟩ := h.after hr
    refine ⟨r', hr', ?_⟩
    by_contra hnot
    rw [hcalm.live (by simpa using hnot)] at hlive
    cases hlive
  prepared := by
    intro n call submission hcall hstage e he
    rw [h.sent] at he
    exact hkept.prepared n call submission (h.old_call hcall (by simp [hstage])) hstage e he
  safe := by
    constructor
    · rw [h.sent]
      exact hkept.safe.once
    intro e he
    rw [h.sent] at he
    exact (hkept.safe.lawful e he).mono (by rw [h.created]; exact fun _ h => h) h.approvals

theorem update_eq_some {α : Type} {f : Nat → Option α} {n m : Nat} {x : Option α} {y : α}
    (h : Function.update f n x m = some y) : m = n ∧ x = some y ∨ m ≠ n ∧ f m = some y := by
  by_cases hm : m = n
  · subst hm
    rw [update_self] at h
    exact Or.inl ⟨rfl, h⟩
  rw [update_of_ne hm] at h
  exact Or.inr ⟨hm, h⟩

theorem record_fixed (c : Creation) (tokenHash : Lease → LeaseHash) (now : Nat) (lease : Lease) :
    Fixed ⟨c, now⟩ (c.record tokenHash now lease) :=
  ⟨rfl, rfl, rfl, rfl, rfl, rfl, rfl⟩

theorem record_status (c : Creation) (tokenHash : Lease → LeaseHash) (now : Nat) (lease : Lease) :
    (c.record tokenHash now lease).status.live = true := by
  unfold Creation.record
  dsimp only
  split <;> rfl

theorem create_kept (hkept : Kept s) (n : Nat) (c : Creation) (lease : Lease) :
    Kept (create s tokenHash n c lease) := by
  have hnew : ∀ {id : OperationID} {r : Record}, s.records id = some r → id ≠ s.nextID := by
    rintro id r hr rfl
    rw [hkept.fresh _ le_rfl] at hr
    cases hr
  have hcalls : ∀ {m : Nat} {call : Call}, (create s tokenHash n c lease).calls m = some call →
      call = ⟨s.nextID, true, c.caller, .audit⟩ ∨ s.calls m = some call := by
    intro m call hcall
    rcases update_eq_some hcall with ⟨-, hnew⟩ | ⟨-, hold⟩
    · cases hnew
      exact Or.inl rfl
    exact Or.inr hold
  have hrecords : ∀ {id : OperationID}, id ≠ s.nextID →
      (create s tokenHash n c lease).records id = s.records id := fun hid => update_of_ne hid _ _
  have hcreated : ∀ {id : OperationID}, id ≠ s.nextID →
      (create s tokenHash n c lease).created id = s.created id := fun hid => update_of_ne hid _ _
  refine ⟨?_, ?_, ?_, ?_, ?_, ?_, ?_, ?_, hkept.safe.once, ?_⟩
  · intro id hid
    have hlater : s.nextID < id := hid
    rw [hrecords (ne_of_gt hlater)]
    exact hkept.fresh id (le_of_lt hlater)
  · intro id r hr
    by_cases hid : id = s.nextID
    · subst hid
      simp only [create, update_self, some.injEq] at hr
      subst hr
      refine ⟨⟨c, s.now⟩, update_self .., record_fixed c tokenHash s.now lease, ?_⟩
      intro hasked hstat
      simp [Creation.record, hasked] at hstat
    rw [hrecords hid] at hr
    rw [hcreated hid]
    exact hkept.created id r hr
  · intro id r hr hrunning
    by_cases hid : id = s.nextID
    · subst hid
      simp only [create, update_self, some.injEq] at hr
      subst hr
      have hlive := record_status c tokenHash s.now lease
      rw [hrunning] at hlive
      cases hlive
    rw [hrecords hid] at hr
    exact hkept.server id r hr hrunning
  · intro m call hcall
    rcases hcalls hcall with rfl | hold
    · refine ⟨_, update_self .., fun _ => rfl, ?_, ?_⟩ <;> simp [Stage.executing]
    obtain ⟨r, hr, hrest⟩ := hkept.calls m call hold
    exact ⟨r, (hrecords (hnew hr)).trans hr, hrest⟩
  · intro m call hcall hexec
    rcases hcalls hcall with rfl | hold
    · cases hexec
    obtain ⟨r, hr, -⟩ := hkept.calls m call hold
    obtain ⟨c', hc', hpermitted, hauto⟩ := hkept.permitted m call hold hexec
    exact ⟨c', (hcreated (hnew hr)).trans hc', hpermitted.mono fun _ h => h, hauto⟩
  · have hold : ∀ {m : Nat} {id : OperationID}, Executes (create s tokenHash n c lease) m id →
        Executes s m id := by
      rintro m id ⟨call, hcall, hop, hexec⟩
      rcases hcalls hcall with rfl | hold
      · cases hexec
      exact ⟨call, hold, hop, hexec⟩
    exact fun m k id hm hk => hkept.sole m k id (hold hm) (hold hk)
  · intro e he
    obtain ⟨r, hr, hlive⟩ := hkept.unsent e he
    exact ⟨r, (hrecords (hnew hr)).trans hr, hlive⟩
  · intro m call submission hcall hstage e he
    rcases hcalls hcall with rfl | hold
    · cases hstage
    exact hkept.prepared m call submission hold hstage e he
  intro e he
  obtain ⟨r, hr, -⟩ := hkept.unsent e he
  apply (hkept.safe.lawful e he).mono
  · intro c' hc'
    exact (hcreated (hnew hr)).trans hc'
  exact fun _ h => h

theorem sameOwner_spec {r : Record} {caller : Caller} (h : sameOwner r caller = true) :
    r.owner = caller.user ∧ r.workspace = caller.workspace := by
  simp only [sameOwner, and_eq_true, decide_eq_true_eq] at h
  exact h.1

theorem Caller.session {caller : Caller} (h : caller.authorization = false) :
    caller.apiKey = none := by
  by_contra hkey
  have hauthorization := caller.keyed (isSome_iff_ne_none.mpr hkey)
  rw [h] at hauthorization
  cases hauthorization

theorem Starts.permitted_of {n : Nat} {call : Call} {r : Record} (h : Starts s t n call r)
    (hkept : Kept s) : ∃ c, s.created call.operation = some c ∧ Permitted t c call.operation ∧
      (call.automatic = true → c.creation.requiresApproval = false) := by
  obtain ⟨c, hc, hfixed, hpurposed⟩ := hkept.created _ r h.record
  refine ⟨c, hc, ?_⟩
  rcases h.permitted with ⟨-, other, hother, hfree⟩ | ⟨hsubmitted, a, ha, hop, htime, hfound,
      hauthorization, howner⟩
  · rw [hc] at hother
    cases hother
    exact ⟨Or.inl hfree, fun _ => hfree⟩
  obtain ⟨huser, hws⟩ := sameOwner_spec howner
  have happroved : Approved c a := by
    refine ⟨huser.symm.trans hfixed.owner, hws.symm.trans hfixed.workspace,
      a.caller.session hauthorization, ?_, ?_, ?_⟩
    · rw [hfound]
      exact h.pending
    · rw [htime, ← hfixed.expiresAt]
      exact h.now
    intro hasked
    rw [hfound]
    exact hpurposed hasked (Or.inl h.pending)
  refine ⟨Or.inr ⟨a, ha, hop, happroved⟩, ?_⟩
  intro hauto
  rw [hsubmitted] at hauto
  cases hauto

theorem Starts.kept {n : Nat} {call : Call} {r : Record} (h : Starts s t n call r)
    (hkept : Kept s) : Kept t := by
  obtain ⟨c, hc, hpermitted, hfree⟩ := h.permitted_of hkept
  obtain ⟨approvals, happrovals, rfl⟩ := h.result
  obtain ⟨submission, hprepare⟩ := h.prepare
  let t := setCall (setRecord { s with approvals := approvals } call.operation
    { r with status := .running }) n (some call)
  have hself : t.records call.operation = some { r with status := .running } :=
    update_self ..
  have hothers : ∀ {id : OperationID}, id ≠ call.operation → t.records id = s.records id :=
    fun hid => update_of_ne hid _ _
  have hcalls : ∀ {m : Nat} {other : Call}, t.calls m = some other →
      m = n ∧ other = call ∨ s.calls m = some other := by
    intro m other hother
    rcases update_eq_some hother with ⟨hm, hcall⟩ | ⟨-, hold⟩
    · cases hcall
      exact Or.inl ⟨hm, rfl⟩
    exact Or.inr hold
  have hnone : ∀ {m : Nat} {other : Call}, s.calls m = some other →
      other.operation = call.operation → other.stage = .audit := by
    intro m other hother hsame
    obtain ⟨r', hr', -, hfinish, hrunning⟩ := hkept.calls m other hother
    rw [hsame, h.record] at hr'
    cases hr'
    cases hstage : other.stage with
    | audit => rfl
    | finish =>
      rcases hfinish hstage with hterm | hdesktop
      · rw [h.pending] at hterm
        cases hterm
      exact absurd hdesktop h.server
    | prepare submission | response =>
      rw [hstage, h.pending] at hrunning
      cases hrunning rfl
  have hunsent : ∀ e ∈ s.sent, e.operation ≠ call.operation := by
    intro e he hsame
    obtain ⟨r', hr', hlive⟩ := hkept.unsent e he
    rw [hsame, h.record] at hr'
    cases hr'
    rw [h.pending] at hlive
    cases hlive
  refine ⟨?_, ?_, ?_, ?_, ?_, ?_, ?_, ?_, hkept.safe.once, ?_⟩
  · intro id hid
    have hne : id ≠ call.operation := by
      rintro rfl
      have hfresh := hkept.fresh _ hid
      rw [h.record] at hfresh
      cases hfresh
    exact (hothers hne).trans (hkept.fresh id hid)
  · intro id r' hr'
    by_cases hid : id = call.operation
    · subst hid
      have hr'' := hself.symm.trans hr'
      cases hr''
      obtain ⟨c', hc', hfixed, hpurposed⟩ := hkept.created _ r h.record
      exact ⟨c', hc', hfixed.same rfl, fun hasked _ => hpurposed hasked (Or.inl h.pending)⟩
    exact hkept.created id r' ((hothers hid).symm.trans hr')
  · intro id r' hr' hrunning
    by_cases hid : id = call.operation
    · subst hid
      have hr'' := hself.symm.trans hr'
      cases hr''
      exact h.server
    exact hkept.server id r' ((hothers hid).symm.trans hr') hrunning
  · intro m other hother
    rcases hcalls hother with ⟨-, rfl⟩ | hold
    · refine ⟨_, hself, ?_, ?_, fun _ => rfl⟩ <;> simp [hprepare]
    obtain ⟨r', hr', haudit, hfinish, hrunning⟩ := hkept.calls m other hold
    by_cases hid : other.operation = call.operation
    · have hstage := hnone hold hid
      refine ⟨_, by rw [hid]; exact hself, haudit, ?_, ?_⟩ <;> simp [hstage, Stage.executing]
    exact ⟨r', (hothers hid).trans hr', haudit, hfinish, hrunning⟩
  · intro m other hother hexec
    rcases hcalls hother with ⟨-, rfl⟩ | hold
    · exact ⟨c, hc, hpermitted, hfree⟩
    obtain ⟨c', hc', hpermitted', hfree'⟩ := hkept.permitted m other hold hexec
    exact ⟨c', hc', hpermitted'.mono happrovals, hfree'⟩
  · have hcases : ∀ {m : Nat} {id : OperationID}, Executes t m id →
        m = n ∧ id = call.operation ∨ id ≠ call.operation ∧ Executes s m id := by
      rintro m id ⟨other, hother, hop, hexec⟩
      rcases hcalls hother with ⟨hm, rfl⟩ | hold
      · exact Or.inl ⟨hm, hop.symm⟩
      refine Or.inr ⟨?_, other, hold, hop, hexec⟩
      rintro rfl
      rw [hnone hold hop] at hexec
      cases hexec
    intro m k id hm hk
    rcases hcases hm with ⟨rfl, rfl⟩ | ⟨hid, hm⟩
    · rcases hcases hk with ⟨rfl, -⟩ | ⟨hid, -⟩
      · rfl
      exact absurd rfl hid
    rcases hcases hk with ⟨-, rfl⟩ | ⟨-, hk⟩
    · exact absurd rfl hid
    exact hkept.sole m k id hm hk
  · intro e he
    obtain ⟨r', hr', hlive⟩ := hkept.unsent e he
    exact ⟨r', (hothers (hunsent e he)).trans hr', hlive⟩
  · intro m other submission' hother hstage e he
    rcases hcalls hother with ⟨-, rfl⟩ | hold
    · exact hunsent e he
    exact hkept.prepared m other submission' hold hstage e he
  intro e he
  exact (hkept.safe.lawful e he).mono (fun _ h => h) happrovals

/-- What is sent for an operation is its request, with the secrets of the form. -/
theorem requestToSend_faithful {c : Created} {call : Call} {r : Record} {submission : Submission}
    {request : McpApiRequest} (hfixed : Fixed c r)
    (h : requestToSend call r submission = some request) :
    Faithful c.creation ⟨call.operation, call.caller, r.executionScope, request,
      if call.automatic then none else some submission⟩ := by
  unfold requestToSend at h
  unfold Faithful
  split at h
  · rename_i hauto
    rw [if_pos hauto]
    cases h
    split
    · rename_i hnone
      cases hnone
    exact hfixed.request
  rename_i hsubmitted
  rw [if_neg hsubmitted]
  rw [hfixed.kind, hfixed.credential, hfixed.request] at h
  cases hspec : c.creation.spec with
  | credential action =>
    simp only [Creation.kind, Creation.credential, Creation.request, hspec] at h ⊢
    exact submittedRequest_extends h
  | confirmation request' riskLevel =>
    simp only [Creation.kind, Creation.credential, Creation.request, hspec] at h ⊢
    cases h
    rfl

theorem Sends.kept {n : Nat} {call : Call} {r : Record} (h : Sends s t n call r)
    (hkept : Kept s) : Kept t := by
  obtain ⟨submission, request, hprepare, hreq, rfl⟩ := h.result
  have hexec : call.stage.executing = true := by
    rw [hprepare]
    rfl
  obtain ⟨r', hr', -, -, hrunning⟩ := hkept.calls n call h.held
  rw [h.record] at hr'
  cases hr'
  have hself : Executes s n call.operation := ⟨call, h.held, rfl, hexec⟩
  let t := send s n call r submission request
  have hcalls : ∀ {m : Nat} {other : Call}, t.calls m = some other →
      m = n ∧ other = { call with stage := .response } ∨ m ≠ n ∧ s.calls m = some other := by
    intro m other hother
    rcases update_eq_some hother with ⟨hm, hcall⟩ | hold
    · cases hcall
      exact Or.inl ⟨hm, rfl⟩
    exact Or.inr hold
  have hexecutes : ∀ {m : Nat} {id : OperationID}, Executes t m id → Executes s m id := by
    rintro m id ⟨other, hother, hop, hstage⟩
    rcases hcalls hother with ⟨rfl, rfl⟩ | ⟨-, hold⟩
    · exact ⟨call, h.held, hop, hexec⟩
    exact ⟨other, hold, hop, hstage⟩
  have hsent : ∀ e ∈ t.sent, e ∈ s.sent ∨ e.operation = call.operation ∧
      e = ⟨call.operation, call.caller, r.executionScope, request,
        if call.automatic then none else some submission⟩ := by
    intro e he
    rcases mem_append.mp he with hold | hnew
    · exact Or.inl hold
    rw [mem_singleton.mp hnew]
    exact Or.inr ⟨rfl, rfl⟩
  obtain ⟨c, hc, hpermitted, hfree⟩ := hkept.permitted n call h.held hexec
  obtain ⟨other, hother, hfixed, -⟩ := hkept.created _ r h.record
  rw [hc] at hother
  cases hother
  refine ⟨hkept.fresh, hkept.created, hkept.server, ?_, ?_, ?_, ?_, ?_, ?_, ?_⟩
  · intro m other hother
    rcases hcalls hother with ⟨-, rfl⟩ | ⟨-, hold⟩
    · refine ⟨r, h.record, ?_, ?_, fun _ => hrunning hexec⟩ <;> simp
    exact hkept.calls m other hold
  · intro m other hother hstage
    rcases hcalls hother with ⟨-, rfl⟩ | ⟨-, hold⟩
    · exact ⟨c, hc, hpermitted, hfree⟩
    exact hkept.permitted m other hold hstage
  · exact fun m k id hm hk => hkept.sole m k id (hexecutes hm) (hexecutes hk)
  · intro e he
    rcases hsent e he with hold | ⟨hsame, -⟩
    · exact hkept.unsent e hold
    refine ⟨r, by rw [hsame]; exact h.record, ?_⟩
    rw [hrunning hexec]
    rfl
  · intro m other submission' hother hstage e he
    rcases hcalls hother with ⟨-, rfl⟩ | ⟨hm, hold⟩
    · cases hstage
    rcases hsent e he with hsentBefore | ⟨hsame, -⟩
    · exact hkept.prepared m other submission' hold hstage e hsentBefore
    intro hop
    have hexecutes' : Executes s m call.operation :=
      ⟨other, hold, hop.symm.trans hsame, by rw [hstage]; rfl⟩
    exact hm (hkept.sole m n _ hexecutes' hself)
  · show ((s.sent ++ _).map Sent.operation).Nodup
    rw [map_append, nodup_append]
    refine ⟨hkept.safe.once, nodup_singleton _, ?_⟩
    rintro id hid new hnew rfl
    obtain ⟨e, he, rfl⟩ := List.mem_map.mp hid
    exact hkept.prepared n call submission h.held hprepare e he (mem_singleton.mp hnew)
  intro e he
  rcases hsent e he with hold | ⟨-, rfl⟩
  · exact (hkept.safe.lawful e hold).mono (fun _ h => h) (fun _ h => h)
  refine ⟨c, hc, hpermitted.mono fun _ h => h, requestToSend_faithful hfixed hreq, ?_⟩
  apply not_desktop_spec
  by_contra hdesktop
  obtain ⟨hkind, htgt⟩ := desktop_spec (by simpa using hdesktop)
  exact hkept.server _ r h.record (hrunning hexec)
    ⟨hfixed.kind.trans hkind, hfixed.target.trans htgt⟩

theorem Finishes.kept {n : Nat} {call : Call} {r r' : Record} (h : Finishes s t n call r r')
    (hkept : Kept s) : Kept t := by
  obtain ⟨next, hnext, rfl⟩ := h.result
  have hself : Executes s n call.operation := ⟨call, h.held, rfl, h.executing⟩
  let t := setCall (setRecord s call.operation r') n next
  have hnew : t.records call.operation = some r' := update_self ..
  have hothers : ∀ {id : OperationID}, id ≠ call.operation → t.records id = s.records id :=
    fun hid => update_of_ne hid _ _
  have hcalls : ∀ {m : Nat} {other : Call}, t.calls m = some other →
      other.stage = .finish ∧ other.operation = call.operation ∨ m ≠ n ∧ s.calls m = some other := by
    intro m other hother
    rcases update_eq_some hother with ⟨-, hcall⟩ | hold
    · exact Or.inl (hnext other hcall)
    exact Or.inr hold
  have hexecutes : ∀ {m : Nat} {id : OperationID}, Executes t m id → m ≠ n ∧ Executes s m id := by
    rintro m id ⟨other, hother, hop, hstage⟩
    rcases hcalls hother with ⟨hfinish, -⟩ | ⟨hm, hold⟩
    · rw [hfinish] at hstage
      cases hstage
    exact ⟨hm, other, hold, hop, hstage⟩
  refine ⟨?_, ?_, ?_, ?_, ?_, ?_, ?_, ?_, hkept.safe.once, ?_⟩
  · intro id hid
    have hne : id ≠ call.operation := by
      rintro rfl
      have hfresh := hkept.fresh _ hid
      rw [h.record] at hfresh
      cases hfresh
    exact (hothers hne).trans (hkept.fresh id hid)
  · intro id other hother
    by_cases hid : id = call.operation
    · subst hid
      have hsame := hnew.symm.trans hother
      cases hsame
      obtain ⟨c, hc, hfixed, -⟩ := hkept.created _ r h.record
      refine ⟨c, hc, hfixed.same h.ends.same, fun _ => ?_⟩
      have hterm := h.ends.terminal
      rintro (hstat | hstat | hstat) <;> rw [hstat] at hterm <;> cases hterm
    exact hkept.created id other ((hothers hid).symm.trans hother)
  · intro id other hother hrunning
    by_cases hid : id = call.operation
    · subst hid
      have hsame := hnew.symm.trans hother
      cases hsame
      have hterm := h.ends.terminal
      rw [hrunning] at hterm
      cases hterm
    exact hkept.server id other ((hothers hid).symm.trans hother) hrunning
  · intro m other hother
    rcases hcalls hother with ⟨hfinish, hop⟩ | ⟨hm, hold⟩
    · refine ⟨r', by rw [hop]; exact hnew, ?_, fun _ => Or.inl h.ends.terminal, ?_⟩ <;>
        simp [hfinish, Stage.executing]
    obtain ⟨r₀, hr₀, haudit, hfinish, hrunning⟩ := hkept.calls m other hold
    by_cases hid : other.operation = call.operation
    · refine ⟨r', by rw [hid]; exact hnew, haudit, fun _ => Or.inl h.ends.terminal, ?_⟩
      intro hexec
      exact absurd (hkept.sole m n _ ⟨other, hold, hid, hexec⟩ hself) hm
    exact ⟨r₀, (hothers hid).trans hr₀, haudit, hfinish, hrunning⟩
  · intro m other hother hexec
    rcases hcalls hother with ⟨hfinish, -⟩ | ⟨-, hold⟩
    · rw [hfinish] at hexec
      cases hexec
    exact hkept.permitted m other hold hexec
  · exact fun m k id hm hk => hkept.sole m k id (hexecutes hm).2 (hexecutes hk).2
  · intro e he
    by_cases hid : e.operation = call.operation
    · refine ⟨r', by rw [hid]; exact hnew, ?_⟩
      have hterm := h.ends.terminal
      cases hstat : r'.status <;> simp_all [Status.live, Status.terminal]
    obtain ⟨r₀, hr₀, hlive⟩ := hkept.unsent e he
    exact ⟨r₀, (hothers hid).trans hr₀, hlive⟩
  · intro m other submission hother hstage e he
    rcases hcalls hother with ⟨hfinish, -⟩ | ⟨-, hold⟩
    · rw [hfinish] at hstage
      cases hstage
    exact hkept.prepared m other submission hold hstage e he
  intro e he
  exact (hkept.safe.lawful e he).mono (fun _ h => h) (fun _ h => h)

theorem Loses.kept {n : Nat} {call : Call} (h : Loses s t n call) (hkept : Kept s) : Kept t := by
  obtain rfl := h.result
  have hcalls : ∀ {m : Nat} {other : Call}, (setCall s n none).calls m = some other →
      s.calls m = some other := by
    intro m other hother
    rcases update_eq_some hother with ⟨-, hcall⟩ | ⟨-, hold⟩
    · cases hcall
    exact hold
  have hexecutes : ∀ {m : Nat} {id : OperationID}, Executes (setCall s n none) m id →
      Executes s m id := by
    rintro m id ⟨other, hother, hrest⟩
    exact ⟨other, hcalls hother, hrest⟩
  refine ⟨hkept.fresh, hkept.created, hkept.server, ?_, ?_, ?_, hkept.unsent, ?_, hkept.safe.once, ?_⟩
  · exact fun m other hother => hkept.calls m other (hcalls hother)
  · exact fun m other hother hexec => hkept.permitted m other (hcalls hother) hexec
  · exact fun m k id hm hk => hkept.sole m k id (hexecutes hm) (hexecutes hk)
  · exact fun m other submission hother hstage =>
      hkept.prepared m other submission (hcalls hother) hstage
  intro e he
  exact (hkept.safe.lawful e he).mono (fun _ h => h) (fun _ h => h)

theorem Change.kept {lost : Prop} (h : Change tokenHash s t lost) (hkept : Kept s) : Kept t := by
  cases h with
  | quiet h | start n call r h | send n call r h | finish n call r r' h | lose n call h =>
    exact h.kept hkept
  | create n c lease _ h =>
    subst h
    exact create_kept hkept n c lease

end Keeps

section Stays

variable {tokenHash : Lease → LeaseHash} {s t u : State}

theorem Withdrawn.later {now now' : Nat} {r : Record} (h : Withdrawn now r) (hle : now ≤ now') :
    Withdrawn now' r := by
  rcases h with hcancel | hexp | ⟨hlive, hpast⟩
  · exact Or.inl hcancel
  · exact Or.inr (Or.inl hexp)
  exact Or.inr (Or.inr ⟨hlive, hpast.trans hle⟩)

theorem Later.refl (s : State) : Later s s where
  now := le_rfl
  sent := fun _ h => h
  records := fun _ r hr => ⟨r, hr, fun _ => rfl, fun h => ⟨h, fun _ he _ => he⟩⟩

theorem Later.trans (h : Later s t) (h' : Later t u) : Later s u where
  now := h.now.trans h'.now
  sent := fun e he => h'.sent e (h.sent e he)
  records := by
    intro id r hr
    obtain ⟨r', hr', hterm, hwithdrawn⟩ := h.records id r hr
    obtain ⟨r'', hr'', hterminal', hwithdrawn'⟩ := h'.records id r' hr'
    refine ⟨r'', hr'', ?_, ?_⟩
    · intro hend
      have hsame := hterm hend
      rw [hterminal' (by rw [hsame]; exact hend), hsame]
    intro hw
    obtain ⟨hw', hsent⟩ := hwithdrawn hw
    obtain ⟨hw'', hsent'⟩ := hwithdrawn' hw'
    exact ⟨hw'', fun e he hid => hsent e (hsent' e he hid) hid⟩

theorem later_of_open {id : OperationID} {r : Record} (hr : s.records id = some r)
    (hterm : r.status.terminal = false) (hopen : ¬Withdrawn s.now r) (hnow : s.now = t.now)
    (hsent : ∀ e ∈ s.sent, e ∈ t.sent) (hnew : ∀ e ∈ t.sent, e ∈ s.sent ∨ e.operation = id)
    (hself : ∃ r', t.records id = some r')
    (hothers : ∀ other, other ≠ id → t.records other = s.records other) : Later s t where
  now := hnow.le
  sent := hsent
  records := by
    intro other r' hr'
    by_cases hother : other = id
    · subst hother
      rw [hr] at hr'
      cases hr'
      obtain ⟨r'', hr''⟩ := hself
      refine ⟨r'', hr'', ?_, fun hw => absurd hw hopen⟩
      intro hend
      rw [hterm] at hend
      cases hend
    refine ⟨r', (hothers other hother).trans hr', fun _ => rfl, ?_⟩
    intro hw
    refine ⟨by rw [← hnow]; exact hw, ?_⟩
    intro e he hid
    rcases hnew e he with hold | hsame
    · exact hold
    exact absurd (hid.symm.trans hsame) hother

theorem running_open {now : Nat} {r : Record} (h : r.status = .running) :
    r.status.terminal = false ∧ ¬Withdrawn now r := by
  refine ⟨by rw [h]; rfl, ?_⟩
  rintro (hcancel | hexp | ⟨hlive, -⟩)
  · rw [h] at hcancel
    cases hcancel
  · rw [h] at hexp
    cases hexp
  rw [h] at hlive
  cases hlive

theorem pending_open {now : Nat} {r : Record} (h : r.status = .pending) (hnow : now < r.expiresAt) :
    r.status.terminal = false ∧ ¬Withdrawn now r := by
  refine ⟨by rw [h]; rfl, ?_⟩
  rintro (hcancel | hexp | ⟨-, hpast⟩)
  · rw [h] at hcancel
    cases hcancel
  · rw [h] at hexp
    cases hexp
  omega

theorem Quiet.later (h : Quiet s t) : Later s t where
  now := h.now
  sent := by
    rw [h.sent]
    exact fun _ he => he
  records := by
    intro id r hr
    obtain ⟨r', hr', hcalm⟩ := h.after hr
    refine ⟨r', hr', hcalm.terminal, ?_⟩
    intro hw
    refine ⟨(hcalm.withdrawn hw).later h.now, ?_⟩
    rw [h.sent]
    exact fun _ he _ => he

theorem create_later (hkept : Kept s) (n : Nat) (c : Creation) (lease : Lease) :
    Later s (create s tokenHash n c lease) where
  now := le_rfl
  sent := fun _ h => h
  records := by
    intro id r hr
    have hid : id ≠ s.nextID := by
      rintro rfl
      rw [hkept.fresh _ le_rfl] at hr
      cases hr
    refine ⟨r, (update_of_ne hid _ _).trans hr, fun _ => rfl, ?_⟩
    exact fun hw => ⟨hw, fun _ he _ => he⟩

theorem Change.later {lost : Prop} (h : Change tokenHash s t lost) (hkept : Kept s) : Later s t := by
  cases h with
  | quiet h => exact h.later
  | create n c lease _ h =>
    subst h
    exact create_later hkept n c lease
  | start n call r h =>
    obtain ⟨approvals, -, rfl⟩ := h.result
    obtain ⟨hterm, hopen⟩ := pending_open h.pending h.now
    exact later_of_open h.record hterm hopen rfl (fun _ h => h) (fun _ h => Or.inl h)
      ⟨_, update_self ..⟩ (fun other hother => update_of_ne hother _ _)
  | send n call r h =>
    obtain ⟨submission, request, hprepare, -, rfl⟩ := h.result
    obtain ⟨r', hr', -, -, hrunning⟩ := hkept.calls n call h.held
    rw [h.record] at hr'
    cases hr'
    have hstat : r.status = .running := hrunning (by rw [hprepare]; rfl)
    obtain ⟨hterm, hopen⟩ := @running_open s.now r hstat
    refine later_of_open h.record hterm hopen rfl ?_ ?_ ⟨r, h.record⟩ (fun _ _ => rfl)
    · exact fun e he => mem_append_left _ he
    intro e he
    rcases mem_append.mp he with hold | hnew
    · exact Or.inl hold
    rw [mem_singleton.mp hnew]
    exact Or.inr rfl
  | finish n call r r' h =>
    obtain ⟨next, -, rfl⟩ := h.result
    obtain ⟨hterm, hopen⟩ := @running_open s.now r h.ends.running
    exact later_of_open h.record hterm hopen rfl (fun _ h => h) (fun _ h => Or.inl h)
      ⟨_, update_self ..⟩ (fun other hother => update_of_ne hother _ _)
  | lose n call h =>
    obtain rfl := h.result
    exact ⟨le_rfl, fun _ h => h, (Later.refl s).records⟩

theorem executes_update {n m : Nat} {id : OperationID} {next : Option Call}
    {calls : Nat → Option Call} (h : Executes s m id) (hm : m ≠ n)
    (ht : t.calls = Function.update calls n next) (hcalls : calls m = s.calls m) :
    Executes t m id := by
  obtain ⟨call, hcall, hrest⟩ := h
  refine ⟨call, ?_, hrest⟩
  rw [ht, update_of_ne hm, hcalls]
  exact hcall

theorem Change.attended {lost : Prop} (h : Change tokenHash s t lost) (hlost : ¬lost)
    (hattended : Attended s) : Attended t := by
  intro id r' hr' hrunning
  cases h with
  | quiet h =>
    obtain ⟨r, hr, hcalm⟩ := h.before hr'
    obtain ⟨n, hn⟩ := hattended id r hr (hcalm.running.mp hrunning)
    exact ⟨n, h.executes.mpr hn⟩
  | create n c lease hfree h =>
    subst h
    rcases update_eq_some hr' with ⟨-, hnew⟩ | ⟨-, hold⟩
    · cases hnew
      have hlive := record_status c tokenHash s.now lease
      rw [hrunning] at hlive
      cases hlive
    obtain ⟨m, hm⟩ := hattended id r' hold hrunning
    refine ⟨m, executes_update hm ?_ rfl rfl⟩
    rintro rfl
    obtain ⟨call, hcall, -⟩ := hm
    rw [hfree] at hcall
    cases hcall
  | start n call r h =>
    obtain ⟨approvals, -, rfl⟩ := h.result
    obtain ⟨submission, hprepare⟩ := h.prepare
    rcases update_eq_some hr' with ⟨rfl, -⟩ | ⟨-, hold⟩
    · exact ⟨n, call, update_self .., rfl, by rw [hprepare]; rfl⟩
    obtain ⟨m, hm⟩ := hattended id r' hold hrunning
    refine ⟨m, executes_update hm ?_ rfl rfl⟩
    rintro rfl
    obtain ⟨other, hother, -, hexec⟩ := hm
    rw [h.idle other hother] at hexec
    cases hexec
  | send n call r h =>
    obtain ⟨submission, request, hprepare, -, rfl⟩ := h.result
    obtain ⟨m, other, hother, hop, hexec⟩ := hattended id r' hr' hrunning
    by_cases hm : m = n
    · subst hm
      rw [h.held] at hother
      cases hother
      exact ⟨m, { call with stage := .response }, update_self .., hop, rfl⟩
    exact ⟨m, executes_update ⟨other, hother, hop, hexec⟩ hm rfl rfl⟩
  | finish n call r other h =>
    obtain ⟨next, -, rfl⟩ := h.result
    rcases update_eq_some hr' with ⟨-, hnew⟩ | ⟨hid, hold⟩
    · cases hnew
      have hterm := h.ends.terminal
      rw [hrunning] at hterm
      cases hterm
    obtain ⟨m, hm⟩ := hattended id r' hold hrunning
    refine ⟨m, executes_update hm ?_ rfl rfl⟩
    rintro rfl
    obtain ⟨call', hcall', hop, -⟩ := hm
    rw [h.held] at hcall'
    cases hcall'
    exact hid hop.symm
  | lose n call h hlose => exact absurd hlose hlost

end Stays

section Runs

variable {tokenHash : Lease → LeaseHash} {s t : State}

theorem initial_kept (h : Initial s) : Kept s where
  fresh := fun id _ => h.records id
  created := by simp [h.records]
  server := by simp [h.records]
  calls := by simp [h.calls]
  permitted := by simp [h.calls]
  sole := by
    rintro n m id ⟨call, hcall, -⟩
    rw [h.calls] at hcall
    cases hcall
  unsent := by simp [h.sent]
  prepared := by simp [h.calls]
  safe := ⟨by simp [h.sent], by simp [h.sent]⟩

theorem step_kept {a : Action} (hkept : Kept s) (h : step s tokenHash a = some t) : Kept t :=
  (step_change hkept h).kept hkept

theorem later_of_path (hkept : Kept s)
    (path : (machine tokenHash).Path Machine.unrestricted s t) : Later s t := by
  apply path.relates Kept Later Later.refl (fun _ _ _ => Later.trans)
  · exact fun _ _ _ _ hs hstep => step_kept hs hstep
  · exact fun _ _ _ _ hs hstep => (step_change hs hstep).later hs
  exact hkept

theorem kept_of_reachable (h : (machine tokenHash).ReachableBy Answered s) :
    Kept s ∧ Attended s := by
  apply h.invariant fun s => Kept s ∧ Attended s
  · intro s hs
    refine ⟨initial_kept hs, ?_⟩
    intro id r hr
    rw [hs.records] at hr
    cases hr
  rintro s a t hans ⟨hkept, hattended⟩ hstep
  have hchange := step_change hkept hstep
  exact ⟨hchange.kept hkept, hchange.attended (fun hlost => hlost hans) hattended⟩

/-- Every run in which no automatic execution throws. -/
theorem operations_protocol (h : (machine tokenHash).ReachableBy Answered s) : Safe s ∧ Attended s ∧
      ∀ t, (machine tokenHash).Path Machine.unrestricted s t → Later s t := by
  obtain ⟨hkept, hattended⟩ := kept_of_reachable h
  exact ⟨hkept.safe, hattended, fun t path => later_of_path hkept path⟩

def owner : Caller := ⟨1, .personal 1, none, false, by simp, none, none, false⟩

def command : McpApiRequest :=
  request .post "/api/v1/mcp/ssh-connections/1a/command".toList [("command".toList, .string ['w'])]

def started : State :=
  ⟨0, 0, fun _ => none, fun _ => false, fun _ => none, fun _ => none, [], []⟩

theorem started_initial (tokenHash : Lease → LeaseHash) : (machine tokenHash).initial started :=
  ⟨fun _ => rfl, fun _ => rfl, fun _ => rfl, fun _ => rfl, rfl, rfl⟩

def done : McpApiResponse := ⟨200, [], .null⟩

def broken : McpApiResponse := ⟨500, [], .null⟩

/-- A command of high risk, with its purpose, that its owner confirms. -/
def confirmed : List Action :=
  [.create 0 ⟨owner, .confirmation command .high⟩ 0, .advance 0 broken,
    .purpose owner 0 "restart it".toList, .submit 1 owner 0 noSubmission, .advance 1 broken,
    .respond 1 done broken]

theorem operations_protocol_confirmed :
    ∃ s, (machine id).ReachableBy Answered s ∧ s.sent.map Sent.operation = [0] ∧
      (s.records 0).map Record.status = some .completed ∧
      (Safe s ∧ Attended s ∧ ∀ t, (machine id).Path Machine.unrestricted s t → Later s t) := by
  have hrun : ∃ s, (machine id).executeBy Answered started confirmed = some s ∧
      s.sent.map Sent.operation = [0] ∧ (s.records 0).map Record.status = some .completed :=
    ⟨_, rfl, rfl, rfl⟩
  obtain ⟨s, hexecute, hsent, hstat⟩ := hrun
  have hreach : (machine id).ReachableBy Answered s :=
    ⟨started, started_initial id, Machine.path_of_executeBy hexecute⟩
  exact ⟨s, hreach, hsent, hstat, operations_protocol hreach⟩

theorem lost_unattended (hkept : Kept s) {a : Action} (hlost : ¬Answered s a)
    (h : step s tokenHash a = some t) : ¬Attended t := by
  cases a with
  | throw n message =>
    simp only [Answered, mem_def, not_forall, not_eq_false] at hlost
    obtain ⟨call, hcall, hauto, hexec⟩ := hlost
    obtain ⟨r, hr, -, -, hrunning⟩ := hkept.calls n call hcall
    have ht : t = setCall s n none := by
      simp only [step, held, hcall, hr, bind_some, map_some, caught, hauto,
        if_true, some.injEq] at h
      exact h.symm
    subst ht
    intro hattended
    obtain ⟨m, other, hother, hop, hstage⟩ :=
      hattended call.operation r hr (hrunning hexec)
    rcases update_eq_some hother with ⟨-, hnone⟩ | ⟨hm, hold⟩
    · cases hnone
    exact hm (hkept.sole m n _ ⟨other, hold, hop, hstage⟩ ⟨call, hcall, rfl, hexec⟩)
  | _ => exact absurd trivial hlost

/-- A command that needs no approval, up to its response. -/
def unconfirmed : List Action :=
  [.create 0 ⟨owner, .confirmation command .low⟩ 0, .advance 0 broken, .advance 0 broken]

theorem operations_protocol_lost : ¬ ∀ s, (machine id).Reachable s →
      Safe s ∧ Attended s ∧ ∀ t, (machine id).Path Machine.unrestricted s t → Later s t := by
  intro h
  have hrun : ∃ s t, (machine id).executeBy Answered started unconfirmed = some s ∧
      (machine id).step s (.throw 0 broken) = some t ∧ ¬Answered s (.throw 0 broken) := by
    refine ⟨_, _, rfl, rfl, ?_⟩
    intro hans
    cases hans _ rfl rfl
  obtain ⟨s, t, hexecute, hthrow, hlost⟩ := hrun
  have hreach : (machine id).ReachableBy Answered s :=
    ⟨started, started_initial id, Machine.path_of_executeBy hexecute⟩
  have hkept := (kept_of_reachable hreach).1
  have hnext : (machine id).Reachable t := hreach.reachable.extend (.single trivial hthrow)
  have hstep : step s id (.throw 0 broken) = some t := hthrow
  exact lost_unattended hkept hlost hstep (h t hnext).2.1

/-- Every run, whatever throws: the requests are safe, and an operation is executed by one call
at most and is running then. -/
theorem executions_exclusive (s : {s // (machine tokenHash).Reachable s}) :
    Safe s.1 ∧ (∀ n m id, Executes s.1 n id → Executes s.1 m id → n = m) ∧
      ∀ n id, Executes s.1 n id → (s.1.records id).map Record.status = some .running := by
  have hkept := s.2.invariant Kept (fun _ => initial_kept) (fun _ _ _ _ => step_kept)
  refine ⟨hkept.safe, hkept.sole, ?_⟩
  rintro n id ⟨call, hcall, rfl, hexec⟩
  obtain ⟨r, hr, -, -, hrunning⟩ := hkept.calls n call hcall
  rw [hr, map_some, hrunning hexec]

end Runs

end ImApp.McpOperations
