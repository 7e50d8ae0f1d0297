import ImApp.DesktopEnvelopes.Issue

/-!
The device's side: it reads the claims of an envelope, compares them with the request
it made, opens the payload with its private key and compares the payload with the
claims. A property of a missing object throws.
-/

namespace ImApp.DesktopEnvelopes

open JsonText JsObject

structure DeviceIdentity where
  deviceId : Text
  keyId : Text
  publicKey : Text
  privateKey : Text

structure ExpectedEnvelope where
  requestId : Text
  userId : Text
  workspaceType : Text
  workspaceId : Text
  id : Text
  endpoint : Text

inductive OpenError where
  | claim (message : String)
  | thrown

def assertClaim (c : Bool) (message : String) : Except OpenError Unit :=
  if c then .ok () else .error (.claim message)

def orThrow {α : Type} (result : Option α) : Except OpenError α :=
  match result with
  | some a => .ok a
  | none => .error .thrown

/-- `v.key` -/
def get (v : Value) (key : String) : Except OpenError Value := orThrow (read v key)

/-- `v.key`, whose own properties are read next. -/
def getObject (v : Value) (key : String) : Except OpenError Json := do
  let inner ← get v key
  orThrow (present inner)

section Opening

variable {Bytes : Type} (p : Platform Bytes)

def validateDeviceIdentity (identity : DeviceIdentity) : Bool :=
  identity.keyId = p.keyFingerprint identity.publicKey &&
    p.publicKeyOf identity.privateKey = identity.publicKey

/-- The row that the registration of a device writes. -/
def registeredDevice (identity : DeviceIdentity) (userId : Text) : StoredDevice :=
  ⟨identity.deviceId, userId, identity.publicKey, p.keyFingerprint identity.publicKey, true⟩

def readEnvelopeClaims (envelope : CredentialEnvelope Bytes) : Except OpenError Json :=
  orThrow (p.parse envelope.protectedClaims)

def decryptEnvelopeCredential (identity : DeviceIdentity) (envelope : CredentialEnvelope Bytes) :
    Except OpenError Json := do
  let contentKey ← orThrow (p.privateDecrypt identity.privateKey envelope.encryptedKey)
  let plaintext ← orThrow (p.decipher contentKey envelope.iv envelope.protectedClaims
    envelope.ciphertext envelope.tag)
  orThrow (p.parse plaintext)

/-- The checks every kind of envelope begins with. -/
def checkClaims (identity : DeviceIdentity) (resource : Resource) (expected : ExpectedEnvelope)
    (now : Int) (claims : Json) : Except OpenError Unit := do
  let version ← get (some claims) "version"
  assertClaim (strictEq version (some (.number ['1'])) &&
    strictEq (member claims "algorithm") (some algorithm)) "凭据信封协议不受支持"
  assertClaim (strictEq (member claims "keyId") (some (text identity.keyId)) &&
    strictEq (member claims "deviceId") (some (text identity.deviceId))) "凭据信封不属于当前设备"
  assertClaim (strictEq (member claims "requestId") (some (text expected.requestId))) "凭据信封请求不匹配"
  assertClaim (strictEq (member claims "userId") (some (text expected.userId))) "凭据信封用户不匹配"
  assertClaim (strictEq (member claims "workspaceType") (some (text expected.workspaceType)) &&
    strictEq (member claims "workspaceId") (some (text expected.workspaceId)))
    "凭据信封工作空间不匹配"
  assertClaim (strictEq (member claims resource.key) (some (text expected.id))) "凭据信封资源不匹配"
  assertClaim (strictEq (member claims "endpoint") (some (text expected.endpoint)))
    "凭据信封 Endpoint 不匹配"
  match p.dateParse (member claims "issuedAt"), p.dateParse (member claims "expiresAt") with
  | some issuedAt, some expiresAt =>
    assertClaim (issuedAt ≤ now + 30000 && now < expiresAt) "凭据信封已过期或尚未生效"
    assertClaim (expiresAt - issuedAt ≤ 60000) "凭据信封有效期过长"
  | _, _ => .error (.claim "凭据信封时间无效")

/-- The checks of a connection against its claims. -/
def checkConnection (claims connection : Json) : Except OpenError Unit := do
  assertClaim (strictEq (member connection "connectionId") (member claims "connectionId"))
    "凭据信封内容资源不匹配"
  assertClaim (strictEq (member connection "connectionUpdatedAt") (member claims "connectionUpdatedAt"))
    "凭据信封内容版本不匹配"
  assertClaim (strictEq (member connection "host") (member claims "targetHost") &&
    strictEq (member connection "port") (member claims "targetPort")) "凭据信封目标地址不匹配"

def checkJump (claims : Json) (jumpConnection : Value) : Except OpenError Unit := do
  assertClaim (strictEq (some (nullish (readOptional jumpConnection "connectionId") .null))
    (member claims "jumpConnectionId")) "凭据信封跳板机不匹配"
  assertClaim (strictEq (some (nullish (readOptional jumpConnection "connectionUpdatedAt") .null))
    (member claims "jumpConnectionUpdatedAt")) "凭据信封跳板机版本不匹配"

/-- `sshCredential?.connection.key ?? null` -/
def tunnelField (sshCredential : Value) (key : String) : Except OpenError Json :=
  match present sshCredential with
  | none => .ok .null
  | some ssh => do
      let v ← get (member ssh "connection") key
      return nullish v .null

/-- The checks of a tunnel, with the messages of the kind of connection. -/
def checkTunnel (missing undeclared : String) (claims connection : Json) (sshCredential : Value) :
    Except OpenError Unit := do
  let id ← tunnelField sshCredential "connectionId"
  assertClaim (strictEq (some id) (member claims "sshConnectionId")) "凭据信封 SSH Tunnel 不匹配"
  let updatedAt ← tunnelField sshCredential "connectionUpdatedAt"
  assertClaim (strictEq (some updatedAt) (member claims "sshConnectionUpdatedAt"))
    "凭据信封 SSH Tunnel 版本不匹配"
  checkJump claims (readOptional sshCredential "jumpConnection")
  if strictEq (member connection "connectionMode") (some (text "sshTunnel".toList)) then
    assertClaim (truthy sshCredential) missing
  else
    assertClaim (strictEq sshCredential (some .null)) undeclared

/-- The origin of the HTTP tunnel in the options of a connection, or null. -/
def tunnelOrigin (url : Value) : Except OpenError Json :=
  if truthy url then do
    let url ← orThrow (p.newURL url)
    return text url.origin
  else return .null

def openCredentialEnvelope (identity : DeviceIdentity) (envelope : CredentialEnvelope Bytes)
    (expected : ExpectedEnvelope) (now : Int) : Except OpenError (Json × Json) := do
  let claims ← readEnvelopeClaims p envelope
  checkClaims p identity .web expected now claims
  let credential ← decryptEnvelopeCredential p identity envelope
  let credentialId ← get (some credential) "credentialId"
  assertClaim (strictEq credentialId (member claims "credentialId")) "凭据信封内容资源不匹配"
  assertClaim (strictEq (member credential "credentialUpdatedAt") (member claims "credentialUpdatedAt"))
    "凭据信封内容版本不匹配"
  let target ← orThrow (p.newURL (member credential "entryUrl"))
  assertClaim (strictEq (some (text target.origin)) (member claims "targetOrigin")) "凭据信封目标地址不匹配"
  return (claims, credential)

def openSshCredentialEnvelope (identity : DeviceIdentity) (envelope : CredentialEnvelope Bytes)
    (expected : ExpectedEnvelope) (now : Int) : Except OpenError (Json × Json) := do
  let claims ← readEnvelopeClaims p envelope
  checkClaims p identity .ssh expected now claims
  let credential ← decryptEnvelopeCredential p identity envelope
  let connection ← getObject (some credential) "connection"
  checkConnection claims connection
  checkJump claims (member credential "jumpConnection")
  return (claims, credential)

def openDatabaseCredentialEnvelope (identity : DeviceIdentity) (envelope : CredentialEnvelope Bytes)
    (expected : ExpectedEnvelope) (now : Int) : Except OpenError (Json × Json) := do
  let claims ← readEnvelopeClaims p envelope
  checkClaims p identity .database expected now claims
  let credential ← decryptEnvelopeCredential p identity envelope
  let connection ← getObject (some credential) "connection"
  checkConnection claims connection
  assertClaim (strictEq (member connection "connectionMode") (member claims "connectionMode"))
    "凭据信封连接模式不匹配"
  let httpTunnelUrl ← get (member connection "options") "httpTunnelUrl"
  let origin ← tunnelOrigin p httpTunnelUrl
  assertClaim (strictEq (some origin) (member claims "httpTunnelOrigin")) "凭据信封 HTTP Tunnel 不匹配"
  checkTunnel "数据库 SSH Tunnel 凭据缺失" "数据库连接包含未声明的 SSH Tunnel 凭据" claims connection
    (member credential "sshCredential")
  if strictEq (member connection "connectionMode") (some (text "httpTunnel".toList)) then
    assertClaim (truthy httpTunnelUrl) "数据库 HTTP Tunnel 地址缺失"
  return (claims, credential)

def openRedisCredentialEnvelope (identity : DeviceIdentity) (envelope : CredentialEnvelope Bytes)
    (expected : ExpectedEnvelope) (now : Int) : Except OpenError (Json × Json) := do
  let claims ← readEnvelopeClaims p envelope
  checkClaims p identity .redis expected now claims
  let credential ← decryptEnvelopeCredential p identity envelope
  let connection ← getObject (some credential) "connection"
  checkConnection claims connection
  assertClaim (strictEq (member connection "connectionMode") (member claims "connectionMode"))
    "凭据信封连接模式不匹配"
  checkTunnel "Redis SSH Tunnel 凭据缺失" "Redis 连接包含未声明的 SSH Tunnel 凭据" claims connection
    (member credential "sshCredential")
  return (claims, credential)

/-- The open function of a kind of resource. -/
def openEnvelope (resource : Resource) : DeviceIdentity → CredentialEnvelope Bytes →
    ExpectedEnvelope → Int → Except OpenError (Json × Json) :=
  match resource with
  | .web => openCredentialEnvelope p
  | .ssh => openSshCredentialEnvelope p
  | .database => openDatabaseCredentialEnvelope p
  | .redis => openRedisCredentialEnvelope p

end Opening

end ImApp.DesktopEnvelopes
