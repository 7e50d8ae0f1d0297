import ImApp.Library.JsObject

/-!
The routes that give a registered device the credential of a web account or of a
connection, in an envelope that only the device opens. The envelope repeats in its
claims what the payload says about the resource, its target, its mode, its tunnel and
its jump host. JSON columns are held as their values.
-/

namespace ImApp.DesktopEnvelopes

open JsonText JsObject

structure Url where
  protocol : Text
  origin : Text
  username : Text
  password : Text
  pathname : Text
  search : Text
  hash : Text

/-- What both sides take from their runtime: JSON, RSA-OAEP, AES-GCM, URLs, dates and
the server's box of secrets. `Bytes` are the texts and ciphertexts. -/
structure Platform (Bytes : Type) where
  stringify : Json → Bytes
  parse : Bytes → Option Json
  parse_stringify : ∀ v, parse (stringify v) = some v
  publicKeyOf : Text → Text
  keyFingerprint : Text → Text
  publicEncrypt : Text → Nat → Bytes
  privateDecrypt : Text → Bytes → Option Nat
  privateDecrypt_publicEncrypt : ∀ privateKey key,
    privateDecrypt privateKey (publicEncrypt (publicKeyOf privateKey) key) = some key
  encipher : (key iv : Nat) → (aad plaintext : Bytes) → Bytes × Bytes
  decipher : (key iv : Nat) → (aad ciphertext tag : Bytes) → Option Bytes
  decipher_encipher : ∀ key iv aad plaintext, decipher key iv aad
    (encipher key iv aad plaintext).1 (encipher key iv aad plaintext).2 = some plaintext
  /-- `new URL` -/
  newURL : Value → Option Url
  newURL_falsy : ∀ v, truthy v = false → newURL v = none
  toISOString : Int → Option Text
  /-- `Date.parse`, where no result stands for NaN. -/
  dateParse : Value → Option Int
  dateParse_toISOString : ∀ t shown, toISOString t = some shown → dateParse (some (text shown)) = some t
  decryptSecret : Text → Option Text
  parseText : Text → Option Json

structure Workspace where
  type : Text
  id : Text
  deriving DecidableEq

inductive Resource where
  | web
  | ssh
  | database
  | redis
  deriving DecidableEq

/-- The caller, with what the access control decides about it. -/
structure Admin where
  id : Text
  workspace : Workspace
  canAccess : Resource → Text → Bool

structure StoredDevice where
  deviceId : Text
  userId : Text
  publicKeyPem : Text
  keyId : Text
  active : Bool

structure WebCredentialRow where
  id : Text
  webEntryId : Text
  entryUrl : Text
  username : Text
  passwordCiphertext : Text
  customFields : Json
  updatedAt : Text

structure SshEnvelopeRow where
  id : Text
  workspace : Workspace
  name : Text
  host : Text
  port : Nat
  username : Text
  authType : Text
  sshKeyId : Option Text
  credentialCiphertext : Text
  jumpConnectionId : Option Text
  options : Fields
  sourceDeleted : Bool
  updatedAt : Text

inductive ConnectionMode where
  | tcp
  | sshTunnel
  | httpTunnel
  deriving DecidableEq

structure DatabaseEnvelopeRow where
  id : Text
  workspace : Workspace
  name : Text
  engine : Text
  host : Text
  port : Nat
  username : Text
  credentialCiphertext : Text
  defaultDatabase : Text
  connectionMode : ConnectionMode
  options : Fields
  sourceDeleted : Bool
  updatedAt : Text

/-- A connection over an SSH tunnel, or a direct one. -/
structure RedisEnvelopeRow where
  id : Text
  workspace : Workspace
  name : Text
  host : Text
  port : Nat
  username : Text
  credentialCiphertext : Text
  defaultDatabase : Nat
  sshTunnel : Bool
  options : Fields
  sourceDeleted : Bool
  updatedAt : Text

structure SshKeyRow where
  id : Text
  workspace : Workspace
  privateKeyCiphertext : Text

structure UsedRequest where
  resource : Resource
  requestId : Text
  expiresAt : Int

structure Database where
  devices : List StoredDevice
  webCredentials : List WebCredentialRow
  sshConnections : List SshEnvelopeRow
  databaseConnections : List DatabaseEnvelopeRow
  redisConnections : List RedisEnvelopeRow
  sshKeys : List SshKeyRow
  requests : List UsedRequest

structure EnvelopeRequest where
  deviceId : Text
  requestId : Text
  endpoint : Text

structure CredentialEnvelope (Bytes : Type) where
  protectedClaims : Bytes
  encryptedKey : Bytes
  iv : Nat
  ciphertext : Bytes
  tag : Bytes

structure Refusal where
  status : Nat
  error : String

def require (c : Bool) (status : Nat) (error : String) : Except Refusal Unit :=
  if c then .ok () else .error ⟨status, error⟩

def found {α : Type} (row : Option α) (status : Nat) (error : String) : Except Refusal α :=
  match row with
  | some row => .ok row
  | none => .error ⟨status, error⟩

theorem bind_ok {ε α β : Type} {x : Except ε α} {f : α → Except ε β} {b : β}
    (h : (x >>= f) = .ok b) : ∃ a, x = .ok a ∧ f a = .ok b := by
  cases x with
  | error e => cases h
  | ok a => exact ⟨a, rfl, h⟩

theorem found_ok {α : Type} {row : Option α} {status : Nat} {error : String} {a : α}
    (h : found row status error = .ok a) : row = some a := by
  cases row with
  | none => cases h
  | some row =>
    cases h
    rfl

section Payloads

variable {Bytes : Type} (p : Platform Bytes) (db : Database)

def nullable : Option Text → Json
  | some t => text t
  | none => .null

/-- A reference that is neither null nor empty. -/
def referenced (id : Option Text) : Option Text := id.filter fun id => !id.isEmpty

def natural (n : Nat) : Json := .number (Nat.toDigits 10 n)

/-- `JSON.parse` of a secret, or `{}`. -/
def parseSecret (ciphertext : Text) : Json :=
  ((p.decryptSecret ciphertext).bind p.parseText).getD (.object [])

def emptyText : Json := text []

def credentialPayload (row : WebCredentialRow) : Except Refusal Json := do
  let password ← found (p.decryptSecret row.passwordCiphertext) 500 "INTERNAL"
  return object [ ("credentialId", text row.id), ("entryId", text row.webEntryId),
    ("entryUrl", text row.entryUrl),
    ("username", text row.username),
    ("password", text password),
    ("customFields", row.customFields),
    ("credentialUpdatedAt", text row.updatedAt)]

def resolveSshCredential (row : SshEnvelopeRow) : Except Refusal Json :=
  let inline := parseSecret p row.credentialCiphertext
  match referenced row.sshKeyId with
  | none => .ok inline
  | some id => do
      let key ← found (db.sshKeys.find? fun k => k.id = id && k.workspace = row.workspace)
        500 "INTERNAL"
      let credential := parseSecret p key.privateKeyCiphertext
      require (truthy (member credential "privateKey")) 500 "INTERNAL"
      return .object (assign (objectOf (some inline)) [
        ("privateKey".toList, nullish (member credential "privateKey") .null),
        ("passphrase".toList, nullish (member credential "passphrase") emptyText)])

def sshConnectionPayload (row : SshEnvelopeRow) : Except Refusal Json := do
  let credential ← resolveSshCredential p db row
  return object [ ("connectionId", text row.id), ("name", text row.name), ("host", text row.host),
    ("port", natural row.port),
    ("username", text row.username),
    ("authType", text row.authType),
    ("credential", credential),
    ("jumpConnectionId", nullable row.jumpConnectionId),
    ("options", .object row.options),
    ("connectionUpdatedAt", text row.updatedAt)]

def optionalSshConnectionPayload : Option SshEnvelopeRow → Except Refusal Json
  | some row => sshConnectionPayload p db row
  | none => .ok .null

/-- An SSH connection with its jump host. -/
structure Tunnel where
  ssh : SshEnvelopeRow
  jump : Option SshEnvelopeRow

def sshCredentialPayload (tunnel : Tunnel) : Except Refusal Json := do
  let connection ← sshConnectionPayload p db tunnel.ssh
  let jumpConnection ← optionalSshConnectionPayload p db tunnel.jump
  return object [("connection", connection), ("jumpConnection", jumpConnection)]

def optionalSshCredentialPayload : Option Tunnel → Except Refusal Json
  | some tunnel => sshCredentialPayload p db tunnel
  | none => .ok .null

/-- The certificates of a connection. -/
def certificates (credential : Fields) : Fields :=
  [("ca".toList, nullish (field credential "tlsCa") emptyText),
    ("certificate".toList, nullish (field credential "tlsCertificate") emptyText),
    ("privateKey".toList, nullish (field credential "tlsPrivateKey") emptyText),
    ("passphrase".toList, nullish (field credential "tlsPassphrase") emptyText)]

def hydrateDatabaseOptions (options credential : Fields) : Fields :=
  assign options [("ssl".toList,
    .object (assign (objectOf (field options "ssl")) (certificates credential)))]

def modeText : ConnectionMode → Text
  | .tcp => "tcp".toList
  | .sshTunnel => "sshTunnel".toList
  | .httpTunnel => "httpTunnel".toList

def databaseConnectionPayload (row : DatabaseEnvelopeRow) : Json :=
  let credential := objectOf (some (parseSecret p row.credentialCiphertext))
  object [ ("connectionId", text row.id), ("name", text row.name), ("engine", text row.engine),
    ("host", text row.host),
    ("port", natural row.port),
    ("username", text row.username),
    ("password", nullish (field credential "password") emptyText),
    ("httpTunnelUsername", nullish (field credential "httpTunnelUsername") emptyText),
    ("httpTunnelPassword", nullish (field credential "httpTunnelPassword") emptyText),
    ("defaultDatabase", text row.defaultDatabase),
    ("connectionMode", text (modeText row.connectionMode)),
    ("options", .object (hydrateDatabaseOptions row.options credential)),
    ("connectionUpdatedAt", text row.updatedAt)]

def redisMode (row : RedisEnvelopeRow) : Text :=
  if row.sshTunnel then "sshTunnel".toList else "tcp".toList

def redisConnectionPayload (row : RedisEnvelopeRow) : Except Refusal Json := do
  let secret ← found (p.decryptSecret row.credentialCiphertext) 500 "INTERNAL"
  let credential ← found (present (some ((p.parseText secret).getD (.object [])))) 500 "INTERNAL"
  let options := assign row.options [("tls".toList,
    .object (assign (objectOf (field row.options "tls")) (certificates (objectOf (some credential)))))]
  return object [ ("connectionId", text row.id), ("name", text row.name), ("host", text row.host),
    ("port", natural row.port),
    ("username", text row.username),
    ("password", nullish (member credential "password") emptyText),
    ("defaultDatabase", natural row.defaultDatabase),
    ("connectionMode", text (redisMode row)),
    ("options", .object options),
    ("connectionUpdatedAt", text row.updatedAt)]

end Payloads

section Claims

def algorithm : Json := text "RSA-OAEP-256+A256GCM".toList

def Resource.key : Resource → String
  | .web => "credentialId"
  | _ => "connectionId"

/-- The claims of every kind, around those of the resource. -/
def protectedPayload (device : StoredDevice) (requestId : Text) (admin : Admin) (resource : Resource)
    (id endpoint issuedAt expiresAt : Text) (claims : List (String × Json)) : Json :=
  object ([ ("version", .number ['1']), ("algorithm", algorithm), ("keyId", text device.keyId),
    ("deviceId", text device.deviceId),
    ("requestId", text requestId),
    ("userId", text admin.id),
    ("workspaceType", text admin.workspace.type),
    ("workspaceId", text admin.workspace.id),
    (resource.key, text id),
    ("endpoint", text endpoint)] ++ claims ++ [
    ("issuedAt", text issuedAt),
    ("expiresAt", text expiresAt)])

def webClaims (row : WebCredentialRow) (targetOrigin : Text) : List (String × Json) :=
  [("targetOrigin", text targetOrigin), ("credentialUpdatedAt", text row.updatedAt)]

def jumpClaims (jump : Option SshEnvelopeRow) : List (String × Json) :=
  [("jumpConnectionId", nullable (jump.map SshEnvelopeRow.id)),
    ("jumpConnectionUpdatedAt", nullable (jump.map SshEnvelopeRow.updatedAt))]

def targetClaims (host : Text) (port : Nat) (updatedAt : Text) : List (String × Json) :=
  [("targetHost", text host), ("targetPort", natural port), ("connectionUpdatedAt", text updatedAt)]

def tunnelClaims (tunnel : Option Tunnel) : List (String × Json) :=
  [("sshConnectionId", nullable (tunnel.map fun t => t.ssh.id)),
    ("sshConnectionUpdatedAt", nullable (tunnel.map fun t => t.ssh.updatedAt))] ++
  jumpClaims (tunnel.bind Tunnel.jump)

def sshClaims (tunnel : Tunnel) : List (String × Json) :=
  targetClaims tunnel.ssh.host tunnel.ssh.port tunnel.ssh.updatedAt ++ jumpClaims tunnel.jump

def databaseClaims (row : DatabaseEnvelopeRow) (tunnel : Option Tunnel) (origin : Option Text) :
    List (String × Json) :=
  targetClaims row.host row.port row.updatedAt ++
  [("connectionMode", text (modeText row.connectionMode)), ("httpTunnelOrigin", nullable origin)] ++
  tunnelClaims tunnel

def redisClaims (row : RedisEnvelopeRow) (tunnel : Option Tunnel) : List (String × Json) :=
  targetClaims row.host row.port row.updatedAt ++ [("connectionMode", text (redisMode row))] ++
  tunnelClaims tunnel

def encryptEnvelope {Bytes : Type} (p : Platform Bytes) (device : StoredDevice) (claims payload : Json)
    (contentKey iv : Nat) : CredentialEnvelope Bytes :=
  let cipher := p.encipher contentKey iv (p.stringify claims) (p.stringify payload)
  ⟨p.stringify claims, p.publicEncrypt device.publicKeyPem contentKey, iv, cipher.1, cipher.2⟩

end Claims

section Routes

variable {Bytes : Type} (p : Platform Bytes) (db : Database) (admin : Admin)

/-- The endpoint of a request is an origin. -/
def requestEndpoint (endpoint : Text) : Except Refusal Text := do
  let url ← found (p.newURL (some (text endpoint))) 400 "VALIDATION_ERROR"
  require (["http:".toList, "https:".toList].contains url.protocol && url.username = [] &&
    url.password = [] && url.pathname = ['/'] && url.search = [] && url.hash = [])
    400 "VALIDATION_ERROR"
  return url.origin

def findDevice (deviceId : Text) : Option StoredDevice :=
  db.devices.find? fun d => d.deviceId = deviceId && d.userId = admin.id

def activeDevice (deviceId : Text) : Except Refusal StoredDevice := do
  let device ← found (findDevice db admin deviceId) 404 "DEVICE_NOT_FOUND"
  require device.active 403 "DEVICE_REVOKED"
  return device

/-- Takes a request id, after the expired ones are deleted. -/
def takeRequest (resource : Resource) (requestId : Text) (now : Int) : Except Refusal Database := do
  let kept := db.requests.filter fun r => r.resource ≠ resource || now ≤ r.expiresAt
  require (!kept.any fun r => r.resource = resource && r.requestId = requestId) 409 "REQUEST_REPLAYED"
  return { db with requests := kept ++ [⟨resource, requestId, now + 60 * 1000⟩] }

def findSsh (id : Text) : Option SshEnvelopeRow := db.sshConnections.find? fun row => row.id = id

def jumpOf (row : SshEnvelopeRow) (workspace : Workspace) : Except Refusal (Option SshEnvelopeRow) :=
  match referenced row.jumpConnectionId with
  | none => .ok none
  | some id => do
      let jump ← found (findSsh db id) 409 "JUMP_CONNECTION_UNAVAILABLE"
      require (!jump.sourceDeleted) 409 "JUMP_CONNECTION_UNAVAILABLE"
      require (jump.workspace = workspace) 409 "JUMP_CONNECTION_INVALID"
      require (referenced jump.jumpConnectionId).isNone 409 "JUMP_CONNECTION_INVALID"
      return some jump

def sshConnectionId (options : Fields) : Option Text :=
  match field options "sshConnectionId" with
  | some (.string id) => if id = [] then none else some id
  | _ => none

/-- The tunnel of a connection that goes over SSH. -/
def tunnelOf (options : Fields) (workspace : Workspace) : Except Refusal Tunnel := do
  let id ← found (sshConnectionId options) 409 "SSH_TUNNEL_UNAVAILABLE"
  require (admin.canAccess .ssh id) 404 "NOT_FOUND"
  let ssh ← found (findSsh db id) 409 "SSH_TUNNEL_UNAVAILABLE"
  require (!ssh.sourceDeleted) 409 "SSH_TUNNEL_UNAVAILABLE"
  require (ssh.workspace = workspace) 409 "SSH_TUNNEL_INVALID"
  let jump ← jumpOf db ssh workspace
  return ⟨ssh, jump⟩

def optionalTunnelOf (tunnelled : Bool) (options : Fields) (workspace : Workspace) :
    Except Refusal (Option Tunnel) :=
  if tunnelled then (tunnelOf db admin options workspace).map some else .ok none

/-- What a route puts into an envelope: the id and the claims of the resource, and its
payload. -/
structure Content where
  id : Text
  claims : List (String × Json)
  payload : Except Refusal Json

def webContent (id : Text) : Except Refusal Content := do
  require (admin.canAccess .web id) 404 "NOT_FOUND"
  let row ← found (db.webCredentials.find? fun row => row.id = id) 404 "NOT_FOUND"
  let target ← found (p.newURL (some (text row.entryUrl))) 400 "UNSUPPORTED_WEB_URL"
  require (["http:".toList, "https:".toList].contains target.protocol) 400 "UNSUPPORTED_WEB_URL"
  return ⟨row.id, webClaims row target.origin, credentialPayload p row⟩

def sshContent (id : Text) : Except Refusal Content := do
  require (admin.canAccess .ssh id) 404 "NOT_FOUND"
  let row ← found (findSsh db id) 404 "NOT_FOUND"
  require (!row.sourceDeleted) 404 "NOT_FOUND"
  let jump ← jumpOf db row row.workspace
  return ⟨row.id, sshClaims ⟨row, jump⟩, sshCredentialPayload p db ⟨row, jump⟩⟩

/-- The origin of the HTTP tunnel. -/
def httpTunnelOriginOf (row : DatabaseEnvelopeRow) : Except Refusal (Option Text) :=
  if row.connectionMode = .httpTunnel then do
    let url ← found (p.newURL (some (nullish (field row.options "httpTunnelUrl") emptyText)))
      409 "HTTP_TUNNEL_INVALID"
    require (["http:".toList, "https:".toList].contains url.protocol && url.username = [] &&
      url.password = []) 409 "HTTP_TUNNEL_INVALID"
    return some url.origin
  else .ok none

def databasePayload (row : DatabaseEnvelopeRow) (tunnel : Option Tunnel) : Except Refusal Json := do
  let sshCredential ← optionalSshCredentialPayload p db tunnel
  return object [("connection", databaseConnectionPayload p row), ("sshCredential", sshCredential)]

def findDatabase (id : Text) : Option DatabaseEnvelopeRow :=
  db.databaseConnections.find? fun row => row.id = id

def databaseContent (id : Text) : Except Refusal Content := do
  require (admin.canAccess .database id) 404 "NOT_FOUND"
  let row ← found (findDatabase db id) 404 "NOT_FOUND"
  require (!row.sourceDeleted) 404 "NOT_FOUND"
  let tunnel ← optionalTunnelOf db admin (row.connectionMode = .sshTunnel) row.options row.workspace
  let origin ← httpTunnelOriginOf p row
  return ⟨row.id, databaseClaims row tunnel origin, databasePayload p db row tunnel⟩

def redisPayload (row : RedisEnvelopeRow) (tunnel : Option Tunnel) : Except Refusal Json := do
  let connection ← redisConnectionPayload p row
  let sshCredential ← optionalSshCredentialPayload p db tunnel
  return object [("connection", connection), ("sshCredential", sshCredential)]

def redisContent (id : Text) : Except Refusal Content := do
  require (admin.canAccess .redis id) 404 "NOT_FOUND"
  let row ← found (db.redisConnections.find? fun row => row.id = id) 404 "NOT_FOUND"
  require (!row.sourceDeleted) 404 "NOT_FOUND"
  let tunnel ← optionalTunnelOf db admin row.sshTunnel row.options row.workspace
  return ⟨row.id, redisClaims row tunnel, redisPayload p db row tunnel⟩

def content (resource : Resource) (id : Text) : Except Refusal Content :=
  match resource with
  | .web => webContent p db admin id
  | .ssh => sshContent p db admin id
  | .database => databaseContent p db admin id
  | .redis => redisContent p db admin id

/-- An envelope route at the time `now`, with the random key and vector. -/
def issue (resource : Resource) (id : Text) (request : EnvelopeRequest) (now : Int)
    (contentKey iv : Nat) : Except Refusal (Database × CredentialEnvelope Bytes) := do
  let endpoint ← requestEndpoint p request.endpoint
  let device ← activeDevice db admin request.deviceId
  let content ← content p db admin resource id
  let issuedAt ← found (p.toISOString now) 500 "INTERNAL"
  let expiresAt ← found (p.toISOString (now + 60 * 1000)) 500 "INTERNAL"
  let db ← takeRequest db resource request.requestId now
  let payload ← content.payload
  let claims := protectedPayload device request.requestId admin resource content.id endpoint
    issuedAt expiresAt content.claims
  return (db, encryptEnvelope p device claims payload contentKey iv)

end Routes

end ImApp.DesktopEnvelopes
