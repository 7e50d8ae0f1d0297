import ImApp.Library.StepSystem
import ImApp.McpOperations.Store

/-!
The handlers of the operation routes. What a handler does between two awaits is one
step at one time; a handler that waits is a call, and every awaited step may throw.
The state also remembers how each operation was created, which submissions found an
operation to approve and what was sent.
-/

namespace ImApp.McpOperations

open JsonText StepSystem

/-- Where a handler waits: for the audit of the creation, for the request to send, for
the response, or for its last audit. -/
inductive Stage where
  | audit
  | prepare (submission : Submission)
  | response
  | finish

def Stage.executing : Stage → Bool
  | .prepare _ | .response => true
  | _ => false

/-- `automatic` tells the execution within a creation from a submitted one. -/
structure Call where
  operation : OperationID
  automatic : Bool
  caller : Caller
  stage : Stage

structure Created where
  creation : Creation
  time : Nat

structure Approval where
  operation : OperationID
  caller : Caller
  time : Nat
  found : Record

/-- A request that goes to the API with the identity of the caller. -/
structure Sent where
  operation : OperationID
  caller : Caller
  executionScope : Option ScopeID
  request : McpApiRequest
  submission : Option Submission

/-- `stored` is the map of the store; a handler may hold a record that is no longer in
it. `nextID` stands for the ids not drawn yet. -/
structure State where
  now : Nat
  nextID : OperationID
  records : OperationID → Option Record
  stored : OperationID → Bool
  calls : Nat → Option Call
  created : OperationID → Option Created
  approvals : List Approval
  sent : List Sent

variable (s : State)

def setRecord (id : OperationID) (r : Record) : State :=
  { s with records := Function.update s.records id (some r) }

def setCall (n : Nat) (call : Option Call) : State :=
  { s with calls := Function.update s.calls n call }

/-- Whoever looks at a record expires it. -/
def look (id : OperationID) : State :=
  { s with records := Function.update s.records id ((s.records id).map (expire s.now)) }

/-- The store's `get`. -/
def get (id : OperationID) : State := if s.stored id then look s id else s

/-- `operationForRequest` after the store's `get`. -/
def operationForRequest (caller : Caller) (id : OperationID) : Option Record :=
  if s.stored id then
    ((get s id).records id).filter fun r => sameOwner r caller
  else none

/-- A handler that changes the record of its operation, or refuses. -/
def answer (caller : Caller) (id : OperationID) (change : Record → Option Record) : State :=
  match (operationForRequest s caller id).bind change with
  | some r => setRecord (get s id) id r
  | none => get s id

/-- The creation of an operation, up to its audit. -/
def create (tokenHash : Lease → LeaseHash) (n : Nat) (c : Creation) (lease : Lease) : State :=
  { s with
    nextID := s.nextID + 1
    records := Function.update s.records s.nextID (some (c.record tokenHash s.now lease))
    stored := Function.update s.stored s.nextID true
    calls := Function.update s.calls n (some ⟨s.nextID, true, c.caller, .audit⟩)
    created := Function.update s.created s.nextID (some ⟨c, s.now⟩) }

def noSubmission : Submission := ⟨[], none⟩

/-- What follows the audit of the creation. -/
def afterAudit (n : Nat) (call : Call) (c : Creation) (r : Record) : State :=
  let id := call.operation
  if c.requiresApproval then setCall (look s id) n none
  else if c.desktop then
    match approveDesktop s.now r with
    | some r => setCall (setRecord s id r) n (some { call with stage := .finish })
    | none => setCall (look s id) n none
  else
    match startServer s.now r with
    | some r => setCall (setRecord s id r) n (some { call with stage := .prepare noSubmission })
    | none => setCall (look s id) n none

/-- The `catch` of a handler: only that of a submission marks a running operation
failed. -/
def caught (n : Nat) (call : Call) (r : Record) (message : McpApiResponse) : State :=
  if call.automatic then setCall s n none
  else
    let s := get s call.operation
    match if r.status = .running then fail s.now r message else none with
    | some r => setCall (setRecord s call.operation r) n none
    | none => setCall s n none

/-- What a call sends. -/
def requestToSend (call : Call) (r : Record) (submission : Submission) : Option McpApiRequest :=
  if call.automatic then some r.request
  else match r.kind, r.credential with
    | .credential, some operation => submittedRequest operation r.request submission
    | .credential, none => none
    | .confirmation, _ => some r.request

/-- `executeOperationRequest`, up to the response. -/
def send (n : Nat) (call : Call) (r : Record) (submission : Submission) (request : McpApiRequest) :
    State :=
  { setCall s n (some { call with stage := .response }) with
    sent := s.sent ++ [⟨call.operation, call.caller, r.executionScope, request,
      if call.automatic then none else some submission⟩] }

def respond (n : Nat) (call : Call) (r : Record) (response message : McpApiResponse) : State :=
  match complete s.now r response with
  | some r => setCall (setRecord s call.operation r) n (some { call with stage := .finish })
  | none => caught s n call r message

/-- The first part of a submission, after `browserOnly`. -/
def submit (n : Nat) (caller : Caller) (id : OperationID) (submission : Submission) : State :=
  match (operationForRequest s caller id).filter fun r => r.status = .pending with
  | none => get s id
  | some found =>
    let approved := { get s id with approvals := s.approvals ++ [⟨id, caller, s.now, found⟩] }
    if found.kind = .confirmation ∧ found.executionTarget = .desktop then
      match approveDesktop s.now found with
      | some r => setCall (setRecord approved id r) n (some ⟨id, false, caller, .finish⟩)
      | none => get s id
    else
      match startServer s.now found with
      | some r => setCall (setRecord approved id r) n
          (some ⟨id, false, caller, .prepare submission⟩)
      | none => get s id

/-- `operationPurposeSchema` on the trimmed text. -/
def validPurpose (purpose : Text) : Bool :=
  8 ≤ units purpose && units purpose ≤ 80 && purpose.all fun c => c ≠ '\r' && c ≠ '\n'

def isBlank (c : Char) : Bool :=
  c ∈ ['\t', '\n', '\x0b', '\x0c', '\r', ' ', '\u00a0', '\u1680', '\u2028', '\u2029', '\u202f',
    '\u205f', '\u3000', '\ufeff'] || ('\u2000' ≤ c && c ≤ '\u200a')

def trim (text : Text) : Text := ((text.dropWhile isBlank).reverse.dropWhile isBlank).reverse

def purpose (caller : Caller) (id : OperationID) (text : Text) : State :=
  answer s caller id fun r =>
    if validPurpose (trim text) then providePurpose s.now r (trim text) else none

def cancelOperation (caller : Caller) (id : OperationID) : State := answer s caller id (cancel s.now)

def desktopResult (tokenHash : Lease → LeaseHash) (caller : Caller) (id : OperationID) (lease : Lease)
    (response : McpApiResponse) : State :=
  answer s caller id fun r =>
    if r.executionTarget = .desktop then
      (startDesktop s.now r tokenHash lease).bind fun r => complete s.now r response
    else none

def cancelScope (user : UserID) (scope : ScopeID) : State :=
  { s with records := fun id =>
      if s.stored id then (s.records id).map fun r =>
        if r.owner = user ∧ r.executionScope = some scope then cancelled s.now r else r
      else s.records id }

def cleanup : State :=
  { s with
    records := fun id =>
      if s.stored id then (s.records id).map (expire s.now) else s.records id
    stored := fun id => s.stored id && !(s.records id).any (outdated s.now) }

inductive Action where
  | create (n : Nat) (c : Creation) (lease : Lease)
  | submit (n : Nat) (caller : Caller) (id : OperationID) (submission : Submission)
  /-- The awaited step of a handler is done, the response excepted. -/
  | advance (n : Nat) (message : McpApiResponse)
  | respond (n : Nat) (response message : McpApiResponse)
  /-- An awaited step throws. -/
  | throw (n : Nat) (message : McpApiResponse)
  | purpose (caller : Caller) (id : OperationID) (text : Text)
  | cancel (caller : Caller) (id : OperationID)
  | desktopResult (caller : Caller) (id : OperationID) (lease : Lease) (response : McpApiResponse)
  | cancelScope (user : UserID) (scope : ScopeID)
  /-- A handler answers with the operation. -/
  | read (id : OperationID)
  | cleanup
  | tick (duration : Nat)

/-- The call with the record that its handler holds. -/
def held (n : Nat) : Option (Call × Record) :=
  (s.calls n).bind fun call => (s.records call.operation).map fun r => (call, r)

def advance (n : Nat) (message : McpApiResponse) : Option State :=
  (held s n).bind fun (call, r) =>
    match call.stage with
    | .audit => (s.created call.operation).map fun c => afterAudit s n call c.creation r
    | .prepare submission =>
      match requestToSend call r submission with
      | some request => some (send s n call r submission request)
      | none => some (caught s n call r message)
    | .response => none
    | .finish => some (setCall (look s call.operation) n none)

def step (tokenHash : Lease → LeaseHash) : Action → Option State
  | .create n c lease => if s.calls n = none then some (create s tokenHash n c lease) else none
  | .submit n caller id submission =>
    if s.calls n = none ∧ caller.authorization = false then some (submit s n caller id submission)
    else none
  | .advance n message => advance s n message
  | .respond n response message => (held s n).bind fun (call, r) => match call.stage with
      | .response => some (respond s n call r response message)
      | _ => none
  | .throw n message => (held s n).map fun (call, r) => caught s n call r message
  | .purpose caller id text => some (purpose s caller id text)
  | .cancel caller id => some (cancelOperation s caller id)
  | .desktopResult caller id lease response =>
    some (desktopResult s tokenHash caller id lease response)
  | .cancelScope user scope => some (cancelScope s user scope)
  | .read id => some (look s id)
  | .cleanup => some (cleanup s)
  | .tick duration => some { s with now := s.now + duration }

/-- A server that has just started. -/
structure Initial : Prop where
  records : ∀ id, s.records id = none
  stored : ∀ id, s.stored id = false
  calls : ∀ n, s.calls n = none
  created : ∀ id, s.created id = none
  approvals : s.approvals = []
  sent : s.sent = []

def machine (tokenHash : Lease → LeaseHash) : Machine State Action where
  initial := Initial
  step := fun s a => step s tokenHash a

end ImApp.McpOperations
