import ImApp.McpOperations.Requests

/-!
The records of the operations and what the store does to one of them. Expiry is
lazy: whoever looks at a record expires it first. A method that throws leaves the
record as its expiry has left it.
-/

namespace ImApp.McpOperations

open JsonText

abbrev UserID := Nat

abbrev KeyID := Nat

abbrev ScopeID := Nat

abbrev OperationID := Nat

abbrev Lease := Nat

abbrev LeaseHash := Nat

inductive Workspace where
  | personal (user : UserID)
  | organization (id : Nat)
  deriving DecidableEq

inductive Kind where
  | credential
  | confirmation
  deriving DecidableEq

inductive Target where
  | server
  | desktop
  deriving DecidableEq

inductive Status where
  | awaitingPurpose
  | pending
  | approved
  | running
  | completed
  | failed
  | cancelled
  | expired
  deriving DecidableEq

def Status.live : Status → Bool
  | .awaitingPurpose | .pending | .approved => true
  | _ => false

def Status.terminal : Status → Bool
  | .completed | .failed | .cancelled | .expired => true
  | _ => false

structure McpApiResponse where
  status : Nat
  headers : List (Text × Text)
  data : Json

structure Record where
  owner : UserID
  apiKeyId : Option KeyID
  workspace : Workspace
  kind : Kind
  status : Status
  purpose : Option Text
  executionTarget : Target
  executionScope : Option ScopeID
  request : McpApiRequest
  credential : Option McpCredentialOperation
  desktopLeaseHash : Option LeaseHash
  expiresAt : Nat
  completedAt : Option Nat
  result : Option McpApiResponse

def operationTtl : Nat := 10 * 60000

def terminalRetention : Nat := 60 * 60000

def safeResult (response : McpApiResponse) : McpApiResponse :=
  { response with headers := response.headers.filter fun h =>
      h.1 = "content-type".toList && h.2 ≠ [] }

variable (now : Nat) (r : Record)

/-- What every end of an operation sets. -/
def close (status : Status) : Record :=
  { r with status := status, completedAt := some now, desktopLeaseHash := none }

def expire : Record :=
  if r.status.live ∧ r.expiresAt ≤ now then close now r .expired else r

def providePurpose (purpose : Text) : Option Record :=
  let r := expire now r
  if r.kind = .confirmation ∧ r.status = .awaitingPurpose then
    some { r with purpose := some purpose, status := .pending }
  else none

def approveDesktop : Option Record :=
  let r := expire now r
  if r.status = .pending then some { r with status := .approved } else none

def startServer : Option Record :=
  let r := expire now r
  if r.status = .pending then some { r with status := .running } else none

def startDesktop (tokenHash : Lease → LeaseHash) (lease : Lease) : Option Record :=
  let r := expire now r
  if r.status = .approved ∧ r.desktopLeaseHash = some (tokenHash lease) then
    some { r with status := .running }
  else none

def complete (response : McpApiResponse) : Option Record :=
  if r.status = .running then
    some { close now r (if 400 ≤ response.status then .failed else .completed) with
      result := some (safeResult response) }
  else none

def fail (response : McpApiResponse) : Option Record :=
  if r.status.live ∨ r.status = .running then
    some { close now r .failed with result := some (safeResult response) }
  else none

def cancel : Option Record :=
  let r := expire now r
  if r.status.live then some (close now r .cancelled) else none

/-- The record after `cancel`, whether it could be cancelled or not. -/
def cancelled : Record := (cancel now r).getD (expire now r)

/-- The cleanup deletes a record that ended long ago. -/
def outdated : Bool :=
  match (expire now r).completedAt with
  | some ended => ended ≠ 0 && ended + terminalRetention < now
  | none => false

inductive RiskLevel where
  | low
  | medium
  | high
  deriving DecidableEq

inductive McpApprovalMode where
  | always
  | highRisk
  | never

def mcpApprovalMode (value : Text) : McpApprovalMode :=
  if value = "high-risk".toList then .highRisk
  else if value = "never".toList then .never
  else .always

def mcpApprovalRequired (mode : McpApprovalMode) (riskLevel : RiskLevel) : Bool :=
  if riskLevel = .low then false
  else match mode with
    | .never => false
    | .highRisk => riskLevel = .high
    | .always => true

structure ApiKey where
  id : KeyID
  mcpApprovalMode : McpApprovalMode

/-- Who sends a request, and its headers: a key comes in the authorization header, and
a caller without a key has a session. -/
structure Caller where
  user : UserID
  workspace : Workspace
  apiKey : Option ApiKey
  authorization : Bool
  keyed : apiKey.isSome = true → authorization = true
  executionScope : Option ScopeID
  approvalMode : Option Text
  localExecution : Bool

def approvalModeForRequest (caller : Caller) : McpApprovalMode :=
  match caller.apiKey, caller.executionScope, caller.approvalMode with
  | none, some _, some value => mcpApprovalMode value
  | some key, _, _ => key.mcpApprovalMode
  | none, _, _ => .always

def sameOwner (caller : Caller) : Bool :=
  r.owner = caller.user && r.workspace = caller.workspace &&
    caller.apiKey.all fun key => r.apiKeyId = some key.id

/-- A part of a path: one of some words, or an id. -/
inductive Part where
  | words (words : List String)
  | id

def lower (c : Char) : Char := if 'A' ≤ c ∧ c ≤ 'Z' then Char.ofNat (c.toNat + 32) else c

def isIdChar (c : Char) : Bool := c.isDigit || ('a' ≤ lower c && lower c ≤ 'f') || c = '-'

def Part.accepts (segment : Text) : Part → Bool
  | .words ws => ws.any fun w => w.toList = segment.map lower
  | .id => !segment.isEmpty && segment.all isIdChar

def matchesPath (segments : List Text) (pattern : List Part) : Bool :=
  segments.length = pattern.length && (segments.zip pattern).all fun (s, p) => p.accepts s

def pathname (path : Text) : Text := path.takeWhile fun c => c ≠ '?' && c ≠ '#'

def segments (path : Text) : List Text := (pathname path).splitOn '/'

def word (text : String) : Part := .words [text]

def api : List Part := [word "", word "api", word "v1"]

/-- The paths of requests have no dot segments and no escapes. -/
def supportsDesktopExecution (request : McpApiRequest) : Bool :=
  let path := segments request.path
  matchesPath path (api ++ [word "mcp", word "ssh-connections", .id, word "command"]) ||
  matchesPath path (api ++ [word "database-connections", .id, .words ["queries", "table-import",
    "backup", "restore", "transfer", "sync"]]) ||
  matchesPath path (api ++ [word "database-connections", .id, word "table-data", word "changes"]) ||
  matchesPath path (api ++ [word "redis-connections", .id, word "command"]) ||
  matchesPath path (api ++ [word "ssh-connections", .id, word "sftp"]) ||
  matchesPath path (api ++ [word "ssh-connections", .id, word "sftp",
    .words ["mkdir", "rename", "chmod", "upload"]]) ||
  pathname request.path = "/api/v1/sftp-transfers".toList ||
  matchesPath path (api ++ [word "sftp-transfers", .id, word "retry"]) ||
  matchesPath path (api ++ [word "mcp", word "web-credentials", .id, .words ["action", "control"]]) ||
  matchesPath path (api ++ [word "web-credentials", .id, word "view", word "upload"])

inductive Spec where
  | credential (action : SecureAction)
  | confirmation (request : McpApiRequest) (riskLevel : RiskLevel)

/-- A request that creates an operation, with what its action and arguments stand for. -/
structure Creation where
  caller : Caller
  spec : Spec

namespace Creation

variable (c : Creation)

def kind : Kind :=
  match c.spec with
  | .credential _ => .credential
  | .confirmation _ _ => .confirmation

def request : McpApiRequest :=
  match c.spec with
  | .credential action => (credentialSpec action).2
  | .confirmation request _ => request

def credential : Option McpCredentialOperation :=
  match c.spec with
  | .credential action => some (credentialSpec action).1
  | .confirmation _ _ => none

def riskLevel : RiskLevel :=
  match c.spec with
  | .credential _ => .medium
  | .confirmation _ riskLevel => riskLevel

def desktop : Bool :=
  c.kind = .confirmation && c.caller.apiKey.isNone && c.caller.localExecution &&
    supportsDesktopExecution c.request

def requiresApproval : Bool :=
  c.kind = .credential || mcpApprovalRequired (approvalModeForRequest c.caller) c.riskLevel

def awaitingPurpose : Bool := c.kind = .confirmation && c.requiresApproval

def executionTarget : Target := if c.desktop then .desktop else .server

/-- The new record. `lease` is the random token of an operation on a desktop. -/
def record (tokenHash : Lease → LeaseHash) (now : Nat) (lease : Lease) : Record where
  owner := c.caller.user
  apiKeyId := c.caller.apiKey.map ApiKey.id
  workspace := c.caller.workspace
  kind := c.kind
  status := if c.awaitingPurpose then .awaitingPurpose else .pending
  purpose := none
  executionTarget := c.executionTarget
  executionScope := c.caller.executionScope
  request := c.request
  credential := c.credential
  desktopLeaseHash :=
    if c.kind = .confirmation ∧ c.executionTarget = .desktop then some (tokenHash lease) else none
  expiresAt := now + operationTtl
  completedAt := none
  result := none

end Creation

end ImApp.McpOperations
