import ImApp.DesktopEnvelopes.Open

/-!
What an accepted envelope guarantees, and which envelopes of the server the device
accepts. Whatever the device opens names the request it made, and its payload says what
its claims say. Every envelope of the server is opened in its period, except that of a
database connection that keeps the address of an HTTP tunnel it does not use.
-/

namespace ImApp.DesktopEnvelopes

open JsonText JsObject List Option

section Saying

variable {Bytes : Type} (p : Platform Bytes)

/-- Claims for this device and this request, in their period. -/
structure ClaimsMatch (identity : DeviceIdentity) (resource : Resource) (expected : ExpectedEnvelope)
    (now : Int) (claims : Json) : Prop where
  version : member claims "version" = some (.number ['1'])
  algorithm : member claims "algorithm" = some algorithm
  keyId : member claims "keyId" = some (text identity.keyId)
  deviceId : member claims "deviceId" = some (text identity.deviceId)
  requestId : member claims "requestId" = some (text expected.requestId)
  userId : member claims "userId" = some (text expected.userId)
  workspaceType : member claims "workspaceType" = some (text expected.workspaceType)
  workspaceId : member claims "workspaceId" = some (text expected.workspaceId)
  id : member claims resource.key = some (text expected.id)
  endpoint : member claims "endpoint" = some (text expected.endpoint)
  period : ∃ issuedAt expiresAt, p.dateParse (member claims "issuedAt") = some issuedAt ∧
    p.dateParse (member claims "expiresAt") = some expiresAt ∧ issuedAt ≤ now + 30000 ∧
    now < expiresAt ∧ expiresAt - issuedAt ≤ 60000

structure ConnectionMatch (claims connection : Json) : Prop where
  id : member connection "connectionId" = member claims "connectionId"
  version : member connection "connectionUpdatedAt" = member claims "connectionUpdatedAt"
  host : member connection "host" = member claims "targetHost"
  port : member connection "port" = member claims "targetPort"

/-- The jump host of the claims, or none. -/
structure JumpMatch (claims : Json) (jumpConnection : Value) : Prop where
  id : member claims "jumpConnectionId" =
    some (nullish (readOptional jumpConnection "connectionId") .null)
  version : member claims "jumpConnectionUpdatedAt" =
    some (nullish (readOptional jumpConnection "connectionUpdatedAt") .null)

/-- The tunnel of the claims in the mode over SSH, and none in another mode. -/
structure TunnelMatch (claims connection : Json) (sshCredential : Value) : Prop where
  mode : member connection "connectionMode" = member claims "connectionMode"
  id : ∃ id, tunnelField sshCredential "connectionId" = .ok id ∧
    member claims "sshConnectionId" = some id
  version : ∃ updatedAt, tunnelField sshCredential "connectionUpdatedAt" = .ok updatedAt ∧
    member claims "sshConnectionUpdatedAt" = some updatedAt
  jump : JumpMatch claims (readOptional sshCredential "jumpConnection")
  needed : member connection "connectionMode" = some (text "sshTunnel".toList) →
    truthy sshCredential = true
  undeclared : member connection "connectionMode" ≠ some (text "sshTunnel".toList) →
    sshCredential = some .null

/-- The origin of the HTTP tunnel of the claims. -/
structure HttpTunnelMatch (claims connection : Json) : Prop where
  origin : ∃ url origin, get (member connection "options") "httpTunnelUrl" = .ok url ∧
    tunnelOrigin p url = .ok origin ∧ member claims "httpTunnelOrigin" = some origin
  needed : member connection "connectionMode" = some (text "httpTunnel".toList) →
    truthy (readOptional (member connection "options") "httpTunnelUrl") = true

/-- The payload says about its resource what the claims say. -/
def PayloadMatch (resource : Resource) (claims credential : Json) : Prop :=
  match resource with
  | .web => member credential "credentialId" = member claims "credentialId" ∧
      member credential "credentialUpdatedAt" = member claims "credentialUpdatedAt" ∧
      ∃ target, p.newURL (member credential "entryUrl") = some target ∧
        member claims "targetOrigin" = some (text target.origin)
  | .ssh => ∃ connection, member credential "connection" = some connection ∧
      ConnectionMatch claims connection ∧ JumpMatch claims (member credential "jumpConnection")
  | .database => ∃ connection, member credential "connection" = some connection ∧
      ConnectionMatch claims connection ∧ HttpTunnelMatch p claims connection ∧
      TunnelMatch claims connection (member credential "sshCredential")
  | .redis => ∃ connection, member credential "connection" = some connection ∧
      ConnectionMatch claims connection ∧
      TunnelMatch claims connection (member credential "sshCredential")

end Saying

theorem assertClaim_bind {α : Type} {c : Bool} {message : String} {f : Unit → Except OpenError α}
    {a : α} : (assertClaim c message >>= f) = .ok a ↔ c = true ∧ f () = .ok a := by
  cases c with
  | true => exact ⟨fun h => ⟨rfl, h⟩, fun h => h.2⟩
  | false =>
    constructor
    · intro h
      cases h
    rintro ⟨h, -⟩
    cases h

theorem assertClaim_ok {c : Bool} {message : String} : assertClaim c message = .ok () ↔ c = true := by
  cases c <;> simp [assertClaim]

theorem orThrow_ok {α : Type} {result : Option α} {a : α} : orThrow result = .ok a ↔ result = some a := by
  cases result <;> simp [orThrow]

theorem get_ok {v found : Value} {key : String} (h : get v key = .ok found) :
    readOptional v key = found := by
  have hread : read v key = some found := orThrow_ok.mp h
  unfold JsObject.read at hread
  unfold readOptional
  cases hpresent : present v with
  | none =>
    rw [hpresent] at hread
    cases hread
  | some value =>
    rw [hpresent] at hread
    exact some.inj hread

theorem get_some {v : Json} {found : Value} {key : String} (h : get (some v) key = .ok found) :
    member v key = found := by
  have hread : read (some v) key = some found := orThrow_ok.mp h
  cases v <;> simp_all [JsObject.read, present, member]

theorem present_some {v : Value} {value : Json} (h : present v = some value) : v = some value := by
  unfold present at h
  split at h
  · cases h
  · cases h
  exact h

theorem getObject_some {v connection : Json} {key : String}
    (h : getObject (some v) key = .ok connection) : member v key = some connection := by
  obtain ⟨inner, hget, hpresent⟩ := bind_ok h
  rw [get_some hget]
  exact present_some (orThrow_ok.mp hpresent)

section Checks

variable {Bytes : Type} {p : Platform Bytes}

theorem checkClaims_ok {identity : DeviceIdentity} {resource : Resource} {expected : ExpectedEnvelope}
    {now : Int} {claims : Json} (h : checkClaims p identity resource expected now claims = .ok ()) :
    ClaimsMatch p identity resource expected now claims := by
  unfold checkClaims at h
  obtain ⟨version, hver, h⟩ := bind_ok h
  have hread := get_some hver
  simp only [assertClaim_bind, Bool.and_eq_true, strictEq_text_iff] at h
  obtain ⟨⟨hone, halgorithm⟩, ⟨hkey, hdevice⟩, hreq, huser, ⟨htype, hws⟩, hid, hendpoint, h⟩ := h
  split at h
  · rename_i issuedAt expiresAt hissued hexpires
    simp only [assertClaim_bind, assertClaim_ok, Bool.and_eq_true, decide_eq_true_eq] at h
    obtain ⟨⟨hstarted, hopen⟩, hshort⟩ := h
    have hnamed : member claims "algorithm" = some algorithm := strictEq_text_iff.mp halgorithm
    have hfirst : member claims "version" = some (.number ['1']) := hread.trans (eq_of_strictEq hone)
    exact ⟨hfirst, hnamed, hkey, hdevice, hreq, huser, htype, hws, hid, hendpoint,
      issuedAt, expiresAt, hissued, hexpires, hstarted, hopen, hshort⟩
  cases h

theorem checkConnection_ok {claims connection : Json} (h : checkConnection claims connection = .ok ()) :
    ConnectionMatch claims connection := by
  unfold checkConnection at h
  simp only [assertClaim_bind, assertClaim_ok, Bool.and_eq_true] at h
  obtain ⟨hid, hver, hhost, hport⟩ := h
  exact ⟨eq_of_strictEq hid, eq_of_strictEq hver, eq_of_strictEq hhost, eq_of_strictEq hport⟩

theorem checkJump_ok {claims : Json} {jumpConnection : Value}
    (h : checkJump claims jumpConnection = .ok ()) : JumpMatch claims jumpConnection := by
  unfold checkJump at h
  simp only [assertClaim_bind, assertClaim_ok] at h
  exact ⟨(eq_of_strictEq h.1).symm, (eq_of_strictEq h.2).symm⟩

theorem checkTunnel_ok {missing undeclared : String} {claims connection : Json} {sshCredential : Value}
    (hmode : member connection "connectionMode" = member claims "connectionMode")
    (h : checkTunnel missing undeclared claims connection sshCredential = .ok ()) :
    TunnelMatch claims connection sshCredential := by
  unfold checkTunnel at h
  obtain ⟨id, hid, h⟩ := bind_ok h
  obtain ⟨hnamed, h⟩ := assertClaim_bind.mp h
  obtain ⟨updatedAt, hupdated, h⟩ := bind_ok h
  obtain ⟨hver, h⟩ := assertClaim_bind.mp h
  obtain ⟨_, hjump, h⟩ := bind_ok h
  refine ⟨hmode, ⟨id, hid, (eq_of_strictEq hnamed).symm⟩,
    ⟨updatedAt, hupdated, (eq_of_strictEq hver).symm⟩, checkJump_ok hjump, ?_, ?_⟩
  · intro htunnel
    rw [if_pos (strictEq_text_iff.mpr htunnel)] at h
    exact assertClaim_ok.mp h
  intro hdirect
  rw [if_neg (mt strictEq_text_iff.mp hdirect)] at h
  exact eq_of_strictEq (assertClaim_ok.mp h)

/-- Whatever the device opens names the request it made, and its payload says what its
claims say. -/
theorem openEnvelope_ok {resource : Resource} {identity : DeviceIdentity}
    {envelope : CredentialEnvelope Bytes} {expected : ExpectedEnvelope} {now : Int}
    {claims credential : Json}
    (h : openEnvelope p resource identity envelope expected now = .ok (claims, credential)) :
    ClaimsMatch p identity resource expected now claims ∧ PayloadMatch p resource claims credential := by
  cases resource with
  | web =>
    obtain ⟨read, -, h⟩ := bind_ok h
    obtain ⟨_, hclaims, h⟩ := bind_ok h
    obtain ⟨opened, -, h⟩ := bind_ok h
    obtain ⟨id, hid, h⟩ := bind_ok h
    obtain ⟨hsame, h⟩ := assertClaim_bind.mp h
    obtain ⟨hver, h⟩ := assertClaim_bind.mp h
    obtain ⟨target, htgt, h⟩ := bind_ok h
    obtain ⟨horigin, h⟩ := assertClaim_bind.mp h
    cases h
    refine ⟨checkClaims_ok hclaims, ?_, eq_of_strictEq hver, target, orThrow_ok.mp htgt, ?_⟩
    · rw [get_some hid]
      exact eq_of_strictEq hsame
    exact (eq_of_strictEq horigin).symm
  | ssh =>
    obtain ⟨read, -, h⟩ := bind_ok h
    obtain ⟨_, hclaims, h⟩ := bind_ok h
    obtain ⟨opened, -, h⟩ := bind_ok h
    obtain ⟨connection, hconn, h⟩ := bind_ok h
    obtain ⟨_, hsame, h⟩ := bind_ok h
    obtain ⟨_, hjump, h⟩ := bind_ok h
    cases h
    exact ⟨checkClaims_ok hclaims, connection, getObject_some hconn, checkConnection_ok hsame,
      checkJump_ok hjump⟩
  | database =>
    obtain ⟨read, -, h⟩ := bind_ok h
    obtain ⟨_, hclaims, h⟩ := bind_ok h
    obtain ⟨opened, -, h⟩ := bind_ok h
    obtain ⟨connection, hconn, h⟩ := bind_ok h
    obtain ⟨_, hsame, h⟩ := bind_ok h
    obtain ⟨hmode, h⟩ := assertClaim_bind.mp h
    obtain ⟨url, hurl, h⟩ := bind_ok h
    obtain ⟨origin, horigin, h⟩ := bind_ok h
    obtain ⟨htunnel, h⟩ := assertClaim_bind.mp h
    obtain ⟨_, htunnelled, h⟩ := bind_ok h
    have hneeded : member connection "connectionMode" = some (text "httpTunnel".toList) →
        truthy url = true ∧ (read, opened) = (claims, credential) := by
      intro hhttp
      rw [if_pos (strictEq_text_iff.mpr hhttp)] at h
      obtain ⟨hset, h⟩ := assertClaim_bind.mp h
      exact ⟨hset, Except.ok.inj h⟩
    have hres : (read, opened) = (claims, credential) := by
      by_cases hhttp : member connection "connectionMode" = some (text "httpTunnel".toList)
      · exact (hneeded hhttp).2
      rw [if_neg (mt strictEq_text_iff.mp hhttp)] at h
      exact Except.ok.inj h
    cases hres
    refine ⟨checkClaims_ok hclaims, connection, getObject_some hconn, checkConnection_ok hsame,
      ⟨⟨url, origin, hurl, horigin, (eq_of_strictEq htunnel).symm⟩, ?_⟩,
      checkTunnel_ok (eq_of_strictEq hmode) htunnelled⟩
    intro hhttp
    rw [get_ok hurl]
    exact (hneeded hhttp).1
  | redis =>
    obtain ⟨read, -, h⟩ := bind_ok h
    obtain ⟨_, hclaims, h⟩ := bind_ok h
    obtain ⟨opened, -, h⟩ := bind_ok h
    obtain ⟨connection, hconn, h⟩ := bind_ok h
    obtain ⟨_, hsame, h⟩ := bind_ok h
    obtain ⟨hmode, h⟩ := assertClaim_bind.mp h
    obtain ⟨_, htunnelled, h⟩ := bind_ok h
    cases h
    exact ⟨checkClaims_ok hclaims, connection, getObject_some hconn, checkConnection_ok hsame,
      checkTunnel_ok (eq_of_strictEq hmode) htunnelled⟩

end Checks

@[simp] theorem ok_bind {ε α β : Type} (a : α) (f : α → Except ε β) : (Except.ok a >>= f) = f a := rfl

theorem get_of_member {v value : Json} {key : String} (h : member v key = some value) :
    get (some v) key = .ok (some value) := by
  cases v <;> simp_all [get, orThrow, JsObject.read, present, member]

theorem strictEq_nullable (t : Option Text) :
    strictEq (some (nullable t)) (some (nullable t)) = true := by
  cases t <;> simp [nullable]

section Claims

variable {Bytes : Type} {p : Platform Bytes}

theorem checkClaims_of {identity : DeviceIdentity} {resource : Resource} {expected : ExpectedEnvelope}
    {now : Int} {claims : Json} (h : ClaimsMatch p identity resource expected now claims) :
    checkClaims p identity resource expected now claims = .ok () := by
  obtain ⟨issuedAt, expiresAt, hissued, hexpires, hstarted, hopen, hshort⟩ := h.period
  have hver : get (some claims) "version" = .ok (some (.number ['1'])) := get_of_member h.version
  unfold checkClaims
  rw [hver, h.algorithm, h.keyId, h.deviceId, h.requestId, h.userId, h.workspaceType,
    h.workspaceId, h.id, h.endpoint, hissued, hexpires]
  simp [algorithm, assertClaim, hstarted, hopen, hshort]

/-- The claims that `protectedPayload` adds to those of the resource. -/
def commonClaims : List String :=
  ["version", "algorithm", "keyId", "deviceId", "requestId", "userId", "workspaceType", "workspaceId",
    "credentialId", "connectionId", "endpoint"]

theorem protectedPayload_claim {device : StoredDevice} {requestId : Text} {admin : Admin}
    {resource : Resource} {id endpoint issuedAt expiresAt : Text} {claims : List (String × Json)}
    {key : String} {v : Json} (hkey : key ∉ commonClaims) (h : member (object claims) key = some v) :
    member (protectedPayload device requestId admin resource id endpoint issuedAt expiresAt claims) key =
      some v := by
  have hresource : key ≠ resource.key := by
    rintro rfl
    cases resource <;> simp [commonClaims, Resource.key] at hkey
  simp only [commonClaims, mem_cons, not_mem_nil, or_false, not_or] at hkey
  unfold protectedPayload
  rw [member_object_append, member_object_append, h]
  simp [member_object_cons, member_object_nil, hkey, hresource]

theorem protectedPayload_match {device : StoredDevice} {identity : DeviceIdentity} {requestId : Text}
    {admin : Admin} {resource : Resource} {id endpoint issuedAt expiresAt : Text}
    {claims : List (String × Json)} {issued t : Int}
    (hdevice : device.deviceId = identity.deviceId) (hkey : device.keyId = identity.keyId)
    (hissuedFresh : member (object claims) "issuedAt" = none)
    (hexpiresFresh : member (object claims) "expiresAt" = none)
    (hissued : p.toISOString issued = some issuedAt)
    (hexpires : p.toISOString (issued + 60 * 1000) = some expiresAt)
    (hstarted : issued ≤ t + 30000) (hopen : t < issued + 60000) : ClaimsMatch p identity resource
      ⟨requestId, admin.id, admin.workspace.type, admin.workspace.id, id, endpoint⟩ t
      (protectedPayload device requestId admin resource id endpoint issuedAt expiresAt claims) := by
  have hdates : p.dateParse (some (text issuedAt)) = some issued ∧
      p.dateParse (some (text expiresAt)) = some (issued + 60 * 1000) :=
    ⟨p.dateParse_toISOString _ _ hissued, p.dateParse_toISOString _ _ hexpires⟩
  unfold protectedPayload
  rw [hdevice, hkey]
  cases resource
  all_goals
    constructor
    case period =>
      refine ⟨issued, issued + 60 * 1000, ?_, ?_, hstarted, by omega, by omega⟩
      all_goals
        simp [member_object_append, member_object_cons, Resource.key, hissuedFresh, hexpiresFresh, hdates]
    all_goals
      simp [member_object_cons, Resource.key]

end Claims

section Payloads

variable {Bytes : Type} {p : Platform Bytes} {db : Database}

/-- A connection in a payload, with its id, version and target. -/
structure Shows (connection : Json) (id updatedAt host : Text) (port : Nat) : Prop where
  present : present (some connection) = some connection
  id : member connection "connectionId" = some (text id)
  version : member connection "connectionUpdatedAt" = some (text updatedAt)
  host : member connection "host" = some (text host)
  port : member connection "port" = some (natural port)

theorem sshConnectionPayload_shows {row : SshEnvelopeRow} {connection : Json}
    (h : sshConnectionPayload p db row = .ok connection) :
    Shows connection row.id row.updatedAt row.host row.port := by
  obtain ⟨credential, -, h⟩ := bind_ok h
  cases h
  constructor
  all_goals simp [member_object_cons]

theorem databaseConnectionPayload_shows (row : DatabaseEnvelopeRow) :
    Shows (databaseConnectionPayload p row) row.id row.updatedAt row.host row.port := by
  unfold databaseConnectionPayload
  constructor
  all_goals simp [member_object_cons]

theorem databaseConnectionPayload_mode (row : DatabaseEnvelopeRow) :
    member (databaseConnectionPayload p row) "connectionMode" =
      some (text (modeText row.connectionMode)) := by
  simp [databaseConnectionPayload, member_object_cons]

theorem databaseConnectionPayload_url (row : DatabaseEnvelopeRow) :
    get (member (databaseConnectionPayload p row) "options") "httpTunnelUrl" =
      .ok (field row.options "httpTunnelUrl") := by
  have hoptions : member (databaseConnectionPayload p row) "options" = some (.object
      (hydrateDatabaseOptions row.options (objectOf (some (parseSecret p row.credentialCiphertext))))) := by
    simp [databaseConnectionPayload, member_object_cons]
  rw [hoptions]
  change Except.ok (field (hydrateDatabaseOptions row.options _) "httpTunnelUrl") = _
  unfold hydrateDatabaseOptions
  rw [field_assign (by simp [JsObject.keys])]

theorem redisConnectionPayload_shows {row : RedisEnvelopeRow} {connection : Json}
    (h : redisConnectionPayload p row = .ok connection) :
    Shows connection row.id row.updatedAt row.host row.port ∧
      member connection "connectionMode" = some (text (redisMode row)) := by
  obtain ⟨secret, -, h⟩ := bind_ok h
  obtain ⟨credential, -, h⟩ := bind_ok h
  cases h
  constructor
  · constructor
    all_goals simp [member_object_cons]
  simp [member_object_cons]

theorem optionalSshConnectionPayload_shows {jump : Option SshEnvelopeRow} {connection : Json}
    (h : optionalSshConnectionPayload p db jump = .ok connection) :
    nullish (readOptional (some connection) "connectionId") .null =
        nullable (jump.map SshEnvelopeRow.id) ∧
      nullish (readOptional (some connection) "connectionUpdatedAt") .null =
        nullable (jump.map SshEnvelopeRow.updatedAt) := by
  cases jump with
  | none =>
    cases h
    exact ⟨rfl, rfl⟩
  | some row =>
    have hshows := sshConnectionPayload_shows h
    unfold readOptional
    rw [hshows.present]
    simp [hshows.id, hshows.version, nullable]

theorem optionalSshCredentialPayload_shows {tunnel : Option Tunnel} {ssh : Json}
    (h : optionalSshCredentialPayload p db tunnel = .ok ssh) :
    tunnelField (some ssh) "connectionId" = .ok (nullable (tunnel.map fun t => t.ssh.id)) ∧
      tunnelField (some ssh) "connectionUpdatedAt" =
        .ok (nullable (tunnel.map fun t => t.ssh.updatedAt)) ∧
      nullish (readOptional (readOptional (some ssh) "jumpConnection") "connectionId") .null =
        nullable ((tunnel.bind Tunnel.jump).map SshEnvelopeRow.id) ∧
      nullish (readOptional (readOptional (some ssh) "jumpConnection") "connectionUpdatedAt") .null =
        nullable ((tunnel.bind Tunnel.jump).map SshEnvelopeRow.updatedAt) ∧
      truthy (some ssh) = tunnel.isSome ∧ strictEq (some ssh) (some .null) = tunnel.isNone := by
  cases tunnel with
  | none =>
    cases h
    exact ⟨rfl, rfl, rfl, rfl, rfl, rfl⟩
  | some tunnel =>
    obtain ⟨connection, hconn, h⟩ := bind_ok h
    obtain ⟨jumpConnection, hjump, h⟩ := bind_ok h
    cases h
    have hshows := sshConnectionPayload_shows hconn
    have hjumps := optionalSshConnectionPayload_shows hjump
    have hid : get (some connection) "connectionId" = .ok (some (text tunnel.ssh.id)) :=
      get_of_member hshows.id
    have hver : get (some connection) "connectionUpdatedAt" =
        .ok (some (text tunnel.ssh.updatedAt)) := get_of_member hshows.version
    simp [tunnelField, member_object_cons, hid, hver, hjumps, nullable]

end Payloads

section Received

variable {Bytes : Type} {p : Platform Bytes} {db : Database}

theorem checkConnection_of {claims connection : Json} {id updatedAt host : Text} {port : Nat}
    (h : Shows connection id updatedAt host port)
    (hid : member claims "connectionId" = some (text id))
    (hver : member claims "connectionUpdatedAt" = some (text updatedAt))
    (hhost : member claims "targetHost" = some (text host))
    (hport : member claims "targetPort" = some (natural port)) :
    checkConnection claims connection = .ok () := by
  unfold checkConnection
  rw [h.id, h.version, h.host, h.port, hid, hver, hhost, hport]
  simp [assertClaim, natural]

theorem checkJump_of {claims : Json} {jumpConnection : Value} {id updatedAt : Option Text}
    (hshownId : nullish (readOptional jumpConnection "connectionId") .null = nullable id)
    (hshownVersion : nullish (readOptional jumpConnection "connectionUpdatedAt") .null =
      nullable updatedAt) (hid : member claims "jumpConnectionId" = some (nullable id))
    (hver : member claims "jumpConnectionUpdatedAt" = some (nullable updatedAt)) :
    checkJump claims jumpConnection = .ok () := by
  unfold checkJump
  rw [hshownId, hshownVersion, hid, hver]
  simp [assertClaim, strictEq_nullable]

/-- The claims about a tunnel. -/
structure ClaimsTunnel (claims : Json) (tunnel : Option Tunnel) : Prop where
  id : member claims "sshConnectionId" = some (nullable (tunnel.map fun t => t.ssh.id))
  version : member claims "sshConnectionUpdatedAt" =
    some (nullable (tunnel.map fun t => t.ssh.updatedAt))
  jumpId : member claims "jumpConnectionId" =
    some (nullable ((tunnel.bind Tunnel.jump).map SshEnvelopeRow.id))
  jumpVersion : member claims "jumpConnectionUpdatedAt" =
    some (nullable ((tunnel.bind Tunnel.jump).map SshEnvelopeRow.updatedAt))

theorem checkTunnel_of {missing undeclared : String} {claims connection ssh : Json}
    {tunnel : Option Tunnel} {mode : Text}
    (hssh : optionalSshCredentialPayload p db tunnel = .ok ssh) (h : ClaimsTunnel claims tunnel)
    (hmode : member connection "connectionMode" = some (text mode))
    (htunnelled : tunnel.isSome = true ↔ mode = "sshTunnel".toList) :
    checkTunnel missing undeclared claims connection (some ssh) = .ok () := by
  obtain ⟨hid, hver, hjumpId, hjumpVersion, hset, hnull⟩ := optionalSshCredentialPayload_shows hssh
  have hjump := checkJump_of hjumpId hjumpVersion h.jumpId h.jumpVersion
  unfold checkTunnel
  rw [hid, hver, h.id, h.version, hmode, hset, hnull]
  simp only [ok_bind, strictEq_nullable, strictEq_text, decide_eq_true_eq, assertClaim, if_true, hjump]
  by_cases hover : mode = "sshTunnel".toList
  · rw [if_pos hover, if_pos (htunnelled.mpr hover)]
  rw [if_neg hover, if_pos]
  cases tunnel with
  | none => rfl
  | some t => exact absurd (htunnelled.mp rfl) hover

/-- An envelope of the server as the device reads it. -/
structure Received (p : Platform Bytes) (resource : Resource) (identity : DeviceIdentity)
    (envelope : CredentialEnvelope Bytes) (expected : ExpectedEnvelope) (now : Int) (content : Content)
    (claims payload : Json) : Prop where
  read : readEnvelopeClaims p envelope = .ok claims
  check : checkClaims p identity resource expected now claims = .ok ()
  decrypt : decryptEnvelopeCredential p identity envelope = .ok payload
  id : member claims resource.key = some (text content.id)
  claim : ∀ key v, key ∉ commonClaims → member (object content.claims) key = some v →
    member claims key = some v
  payload : content.payload = .ok payload

variable {identity : DeviceIdentity} {envelope : CredentialEnvelope Bytes} {expected : ExpectedEnvelope}
  {now : Int} {c : Content} {claims payload : Json} {admin : Admin} {id : Text}

theorem web_opens (h : Received p .web identity envelope expected now c claims payload)
    (hc : webContent p db admin id = .ok c) :
    openCredentialEnvelope p identity envelope expected now = .ok (claims, payload) := by
  obtain ⟨_, -, hc⟩ := bind_ok hc
  obtain ⟨row, -, hc⟩ := bind_ok hc
  obtain ⟨target, htgt, hc⟩ := bind_ok hc
  obtain ⟨_, -, hc⟩ := bind_ok hc
  cases hc
  obtain ⟨password, -, hpayload⟩ := bind_ok h.payload
  cases hpayload
  have hid : member claims "credentialId" = some (text row.id) := h.id
  have horigin : member claims "targetOrigin" = some (text target.origin) :=
    h.claim _ _ (by simp [commonClaims]) (by simp [webClaims, member_object_cons])
  have hver : member claims "credentialUpdatedAt" = some (text row.updatedAt) :=
    h.claim _ _ (by simp [commonClaims]) (by simp [webClaims, member_object_cons])
  unfold openCredentialEnvelope
  rw [h.read, ok_bind, h.check, ok_bind, h.decrypt, ok_bind, hid, horigin, hver]
  simp [get, orThrow, assertClaim, member_object_cons, found_ok htgt]

theorem ssh_opens (h : Received p .ssh identity envelope expected now c claims payload)
    (hc : sshContent p db admin id = .ok c) :
    openSshCredentialEnvelope p identity envelope expected now = .ok (claims, payload) := by
  obtain ⟨_, -, hc⟩ := bind_ok hc
  obtain ⟨row, -, hc⟩ := bind_ok hc
  obtain ⟨_, -, hc⟩ := bind_ok hc
  obtain ⟨jump, -, hc⟩ := bind_ok hc
  cases hc
  obtain ⟨connection, hconn, hpayload⟩ := bind_ok h.payload
  obtain ⟨jumpConnection, hjumpConnection, hpayload⟩ := bind_ok hpayload
  cases hpayload
  have hshows := sshConnectionPayload_shows hconn
  have hjumps := optionalSshConnectionPayload_shows hjumpConnection
  have hclaim : ∀ key v, key ∉ commonClaims → member (object (sshClaims ⟨row, jump⟩)) key = some v →
      member claims key = some v := h.claim
  simp only [sshClaims, targetClaims, jumpClaims] at hclaim
  have hsame : checkConnection claims connection = .ok () := by
    apply checkConnection_of hshows h.id
    all_goals exact hclaim _ _ (by simp [commonClaims]) (by simp [member_object_cons])
  have hjump : checkJump claims (some jumpConnection) = .ok () := by
    apply checkJump_of hjumps.1 hjumps.2
    all_goals exact hclaim _ _ (by simp [commonClaims]) (by simp [member_object_cons])
  unfold openSshCredentialEnvelope
  rw [h.read, ok_bind, h.check, ok_bind, h.decrypt, ok_bind]
  simp [getObject, get, orThrow, member_object_cons, hshows.present, hsame, hjump]

theorem optionalTunnelOf_isSome {tunnelled : Bool} {options : Fields} {workspace : Workspace}
    {tunnel : Option Tunnel} (h : optionalTunnelOf db admin tunnelled options workspace = .ok tunnel) :
    tunnel.isSome = tunnelled := by
  unfold optionalTunnelOf at h
  cases tunnelled with
  | false =>
    cases h
    rfl
  | true =>
    cases hof : tunnelOf db admin options workspace with
    | error e =>
      rw [if_pos rfl, hof] at h
      cases h
    | ok t =>
      rw [if_pos rfl, hof] at h
      cases h
      rfl

theorem redis_opens (h : Received p .redis identity envelope expected now c claims payload)
    (hc : redisContent p db admin id = .ok c) :
    openRedisCredentialEnvelope p identity envelope expected now = .ok (claims, payload) := by
  obtain ⟨_, -, hc⟩ := bind_ok hc
  obtain ⟨row, -, hc⟩ := bind_ok hc
  obtain ⟨_, -, hc⟩ := bind_ok hc
  obtain ⟨tunnel, htunnel, hc⟩ := bind_ok hc
  cases hc
  obtain ⟨connection, hconn, hpayload⟩ := bind_ok h.payload
  obtain ⟨ssh, hssh, hpayload⟩ := bind_ok hpayload
  cases hpayload
  obtain ⟨hshows, hmode⟩ := redisConnectionPayload_shows hconn
  have hclaim : ∀ key v, key ∉ commonClaims → member (object (redisClaims row tunnel)) key = some v →
      member claims key = some v := h.claim
  simp only [redisClaims, targetClaims, tunnelClaims, jumpClaims, cons_append, nil_append] at hclaim
  have hsame : checkConnection claims connection = .ok () := by
    apply checkConnection_of hshows h.id
    all_goals exact hclaim _ _ (by simp [commonClaims]) (by simp [member_object_cons])
  have hclaimed : member claims "connectionMode" = some (text (redisMode row)) :=
    hclaim _ _ (by simp [commonClaims]) (by simp [member_object_cons])
  have hclaims : ClaimsTunnel claims tunnel := by
    constructor
    all_goals exact hclaim _ _ (by simp [commonClaims]) (by simp [member_object_cons])
  have htunnelled : tunnel.isSome = true ↔ redisMode row = "sshTunnel".toList := by
    rw [optionalTunnelOf_isSome htunnel]
    cases hssh : row.sshTunnel <;> simp [redisMode, hssh]
  have hchecked : ∀ missing undeclared,
      checkTunnel missing undeclared claims connection (some ssh) = .ok () :=
    fun _ _ => checkTunnel_of hssh hclaims hmode htunnelled
  unfold openRedisCredentialEnvelope
  rw [h.read, ok_bind, h.check, ok_bind, h.decrypt, ok_bind]
  simp [getObject, get, orThrow, member_object_cons, hshows.present, hsame, hmode, hclaimed, assertClaim,
    hchecked]

/-- A connection keeps the address of an HTTP tunnel only in the mode that uses it. -/
def KeepsUsedTunnel (row : DatabaseEnvelopeRow) : Prop :=
  row.connectionMode = .httpTunnel ∨ truthy (field row.options "httpTunnelUrl") = false

theorem httpTunnelOriginOf_tunnelOrigin {row : DatabaseEnvelopeRow} {origin : Option Text}
    (h : httpTunnelOriginOf p row = .ok origin) (hmode : row.connectionMode = .httpTunnel) :
    truthy (field row.options "httpTunnelUrl") = true ∧
      tunnelOrigin p (field row.options "httpTunnelUrl") = .ok (nullable origin) := by
  unfold httpTunnelOriginOf at h
  rw [if_pos hmode] at h
  obtain ⟨url, hurl, h⟩ := bind_ok h
  obtain ⟨_, -, h⟩ := bind_ok h
  cases h
  have hparsed := found_ok hurl
  have hset : truthy (some (nullish (field row.options "httpTunnelUrl") emptyText)) = true := by
    by_contra hfalsy
    rw [p.newURL_falsy _ (by simpa using hfalsy)] at hparsed
    cases hparsed
  have hsame : some (nullish (field row.options "httpTunnelUrl") emptyText) =
      field row.options "httpTunnelUrl" := by
    cases hpresent : present (field row.options "httpTunnelUrl") with
    | none =>
      rw [nullish, hpresent] at hset
      cases hset
    | some v =>
      rw [nullish, hpresent]
      exact (present_some hpresent).symm
  rw [hsame] at hset hparsed
  refine ⟨hset, ?_⟩
  unfold tunnelOrigin
  rw [if_pos hset, hparsed]
  rfl

theorem httpTunnelOriginOf_none {row : DatabaseEnvelopeRow} {origin : Option Text}
    (h : httpTunnelOriginOf p row = .ok origin) (hmode : row.connectionMode ≠ .httpTunnel) :
    origin = none := by
  unfold httpTunnelOriginOf at h
  rw [if_neg hmode] at h
  exact (Except.ok.inj h).symm

theorem tunnelOrigin_null {url : Value} (h : tunnelOrigin p url = .ok .null) : truthy url = false := by
  unfold tunnelOrigin at h
  split at h
  · obtain ⟨target, -, h⟩ := bind_ok h
    cases h
  simp_all

theorem modeText_inj {a b : ConnectionMode} : modeText a = modeText b ↔ a = b := by
  cases a <;> cases b <;> decide

theorem database_opens (h : Received p .database identity envelope expected now c claims payload)
    (hc : databaseContent p db admin id = .ok c) : ∃ row, findDatabase db id = some row ∧
      (openDatabaseCredentialEnvelope p identity envelope expected now = .ok (claims, payload) ↔
        KeepsUsedTunnel row) := by
  obtain ⟨_, -, hc⟩ := bind_ok hc
  obtain ⟨row, hrow, hc⟩ := bind_ok hc
  obtain ⟨_, -, hc⟩ := bind_ok hc
  obtain ⟨tunnel, htunnel, hc⟩ := bind_ok hc
  obtain ⟨origin, horigin, hc⟩ := bind_ok hc
  cases hc
  obtain ⟨ssh, hssh, hpayload⟩ := bind_ok h.payload
  cases hpayload
  have hshows := databaseConnectionPayload_shows (p := p) row
  have hmode := databaseConnectionPayload_mode (p := p) row
  have hurl := databaseConnectionPayload_url (p := p) row
  have hclaim : ∀ key v, key ∉ commonClaims →
      member (object (databaseClaims row tunnel origin)) key = some v →
      member claims key = some v := h.claim
  simp only [databaseClaims, targetClaims, tunnelClaims, jumpClaims, cons_append, nil_append]
    at hclaim
  have hclaimedOrigin : member claims "httpTunnelOrigin" = some (nullable origin) :=
    hclaim _ _ (by simp [commonClaims]) (by simp [member_object_cons])
  refine ⟨row, found_ok hrow, ?_, ?_⟩
  · intro hopened
    have hpayload : PayloadMatch p .database claims _ :=
      (@openEnvelope_ok Bytes p .database _ _ _ _ _ _ hopened).2
    obtain ⟨connection, hconn, -, hhttp, -⟩ := hpayload
    have hthis : connection = databaseConnectionPayload p row := by
      simpa [member_object_cons] using hconn.symm
    subst hthis
    obtain ⟨url, shown, hget, hshown, hnamed⟩ := hhttp.origin
    by_cases hover : row.connectionMode = .httpTunnel
    · exact Or.inl hover
    apply Or.inr
    rw [httpTunnelOriginOf_none horigin hover] at hclaimedOrigin
    have hnull : shown = .null := some.inj (hnamed.symm.trans hclaimedOrigin)
    have hfield : field row.options "httpTunnelUrl" = url := Except.ok.inj (hurl.symm.trans hget)
    rw [hfield]
    exact tunnelOrigin_null (hnull ▸ hshown)
  intro hkeeps
  have hsame : checkConnection claims (databaseConnectionPayload p row) = .ok () := by
    apply checkConnection_of hshows h.id
    all_goals exact hclaim _ _ (by simp [commonClaims]) (by simp [member_object_cons])
  have hclaimed : member claims "connectionMode" = some (text (modeText row.connectionMode)) :=
    hclaim _ _ (by simp [commonClaims]) (by simp [member_object_cons])
  have hclaims : ClaimsTunnel claims tunnel := by
    constructor
    all_goals exact hclaim _ _ (by simp [commonClaims]) (by simp [member_object_cons])
  have htunnelled : tunnel.isSome = true ↔ modeText row.connectionMode = "sshTunnel".toList := by
    rw [optionalTunnelOf_isSome htunnel, decide_eq_true_iff]
    exact modeText_inj.symm
  have hchecked : ∀ missing undeclared, checkTunnel missing undeclared claims
      (databaseConnectionPayload p row) (some ssh) = .ok () :=
    fun _ _ => checkTunnel_of hssh hclaims hmode htunnelled
  have hshown : tunnelOrigin p (field row.options "httpTunnelUrl") = .ok (nullable origin) ∧
      (modeText row.connectionMode = "httpTunnel".toList →
        truthy (field row.options "httpTunnelUrl") = true) := by
    by_cases hover : row.connectionMode = .httpTunnel
    · have hboth := httpTunnelOriginOf_tunnelOrigin horigin hover
      exact ⟨hboth.2, fun _ => hboth.1⟩
    have hunset : truthy (field row.options "httpTunnelUrl") = false := hkeeps.resolve_left hover
    rw [httpTunnelOriginOf_none horigin hover]
    refine ⟨?_, fun htext => absurd (modeText_inj.mp htext) hover⟩
    unfold tunnelOrigin
    rw [hunset]
    rfl
  unfold openDatabaseCredentialEnvelope
  rw [h.read, ok_bind, h.check, ok_bind, h.decrypt, ok_bind]
  have hobject : getObject (some (object [("connection", databaseConnectionPayload p row),
      ("sshCredential", ssh)])) "connection" = .ok (databaseConnectionPayload p row) := by
    simp [getObject, get, orThrow, member_object_cons, hshows.present]
  have hthere : member (object [("connection", databaseConnectionPayload p row),
      ("sshCredential", ssh)]) "sshCredential" = some ssh := by
    simp [member_object_cons]
  rw [hobject, ok_bind, hsame, ok_bind, hmode, hclaimed, hurl, ok_bind, hshown.1, ok_bind,
    hclaimedOrigin, hthere, hchecked]
  simp only [strictEq_text, decide_true, strictEq_nullable, assertClaim, if_true, ok_bind,
    decide_eq_true_eq]
  by_cases hhttp : modeText row.connectionMode = "httpTunnel".toList
  · rw [if_pos hhttp, if_pos (hshown.2 hhttp)]
    rfl
  rw [if_neg hhttp]
  rfl

end Received

section Agreement

variable {Bytes : Type} {p : Platform Bytes} {db : Database} {admin : Admin}

/-- The claims of a resource leave the dates of the envelope to the envelope. -/
theorem content_ok {resource : Resource} {id : Text} {c : Content}
    (h : content p db admin resource id = .ok c) :
    c.id = id ∧ member (object c.claims) "issuedAt" = none ∧
      member (object c.claims) "expiresAt" = none := by
  cases resource with
  | web =>
    obtain ⟨_, -, h⟩ := bind_ok h
    obtain ⟨row, hrow, h⟩ := bind_ok h
    obtain ⟨target, -, h⟩ := bind_ok h
    obtain ⟨_, -, h⟩ := bind_ok h
    cases h
    refine ⟨by simpa using find?_some (found_ok hrow), ?_, ?_⟩
    all_goals simp [webClaims, member_object_cons, member_object_nil]
  | ssh =>
    obtain ⟨_, -, h⟩ := bind_ok h
    obtain ⟨row, hrow, h⟩ := bind_ok h
    obtain ⟨_, -, h⟩ := bind_ok h
    obtain ⟨jump, -, h⟩ := bind_ok h
    cases h
    refine ⟨by simpa using find?_some (found_ok hrow), ?_, ?_⟩
    all_goals simp [sshClaims, targetClaims, jumpClaims, member_object_cons, member_object_nil]
  | database =>
    obtain ⟨_, -, h⟩ := bind_ok h
    obtain ⟨row, hrow, h⟩ := bind_ok h
    obtain ⟨_, -, h⟩ := bind_ok h
    obtain ⟨tunnel, -, h⟩ := bind_ok h
    obtain ⟨origin, -, h⟩ := bind_ok h
    cases h
    refine ⟨by simpa using find?_some (found_ok hrow), ?_, ?_⟩
    all_goals simp [databaseClaims, targetClaims, tunnelClaims, jumpClaims, member_object_cons,
      member_object_nil]
  | redis =>
    obtain ⟨_, -, h⟩ := bind_ok h
    obtain ⟨row, hrow, h⟩ := bind_ok h
    obtain ⟨_, -, h⟩ := bind_ok h
    obtain ⟨tunnel, -, h⟩ := bind_ok h
    cases h
    refine ⟨by simpa using find?_some (found_ok hrow), ?_, ?_⟩
    all_goals simp [redisClaims, targetClaims, tunnelClaims, jumpClaims, member_object_cons,
      member_object_nil]

/-- What the device asked for, as it compares it with the claims. -/
def expectedEnvelope (admin : Admin) (request : EnvelopeRequest) (id endpoint : Text) :
    ExpectedEnvelope :=
  ⟨request.requestId, admin.id, admin.workspace.type, admin.workspace.id, id, endpoint⟩

/-- In its period, and with the key of the device, an envelope of the server reads as
what the server put into it. -/
theorem issue_received {identity : DeviceIdentity} {resource : Resource} {id : Text}
    {request : EnvelopeRequest} {issued t : Int} {contentKey iv : Nat} {db' : Database}
    {envelope : CredentialEnvelope Bytes} (hidentity : validateDeviceIdentity p identity = true)
    (hdevice : findDevice db admin request.deviceId = some (registeredDevice p identity admin.id))
    (h : issue p db admin resource id request issued contentKey iv = .ok (db', envelope))
    (hstarted : issued ≤ t + 30000) (hopen : t < issued + 60000) :
    ∃ url c claims payload, p.newURL (some (text request.endpoint)) = some url ∧
      content p db admin resource id = .ok c ∧
      Received p resource identity envelope (expectedEnvelope admin request id url.origin) t c claims
        payload := by
  obtain ⟨endpoint, hendpoint, h⟩ := bind_ok h
  obtain ⟨device, hactive, h⟩ := bind_ok h
  obtain ⟨c, hcontent, h⟩ := bind_ok h
  obtain ⟨issuedAt, hissued, h⟩ := bind_ok h
  obtain ⟨expiresAt, hexpires, h⟩ := bind_ok h
  obtain ⟨_, -, h⟩ := bind_ok h
  obtain ⟨payload, hpayload, h⟩ := bind_ok h
  cases h
  obtain ⟨url, hurl, hendpoint⟩ := bind_ok hendpoint
  obtain ⟨_, -, hendpoint⟩ := bind_ok hendpoint
  cases hendpoint
  obtain ⟨row, hrow, hactive⟩ := bind_ok hactive
  obtain ⟨_, -, hactive⟩ := bind_ok hactive
  cases hactive
  have hreg : device = registeredDevice p identity admin.id :=
    some.inj ((found_ok hrow).symm.trans hdevice)
  subst hreg
  obtain ⟨hkeyId, hpublic⟩ : identity.keyId = p.keyFingerprint identity.publicKey ∧
      p.publicKeyOf identity.privateKey = identity.publicKey := by
    simpa [validateDeviceIdentity] using hidentity
  obtain ⟨hid, hissuedFresh, hexpiresFresh⟩ := content_ok hcontent
  have hmatch : ClaimsMatch p identity resource (expectedEnvelope admin request c.id url.origin) t
      (protectedPayload (registeredDevice p identity admin.id) request.requestId admin resource c.id
        url.origin issuedAt expiresAt c.claims) :=
    protectedPayload_match rfl hkeyId.symm hissuedFresh hexpiresFresh (found_ok hissued)
      (found_ok hexpires) hstarted hopen
  refine ⟨url, c, _, payload, found_ok hurl, hcontent, ?_, checkClaims_of (hid ▸ hmatch), ?_,
    hmatch.id, ?_, hpayload⟩
  · simp [readEnvelopeClaims, encryptEnvelope, p.parse_stringify, orThrow]
  · simp [decryptEnvelopeCredential, encryptEnvelope, registeredDevice, ← hpublic,
      p.privateDecrypt_publicEncrypt, p.decipher_encipher, p.parse_stringify, orThrow]
  intro key v hkey hclaim
  exact protectedPayload_claim hkey hclaim

/-- Whatever the device opens is for its request and says what its claims say, and an
envelope of the server is opened, with the record it was made from, unless the record
is a database connection that keeps the address of an HTTP tunnel without using it. -/
theorem envelopes_agree (p : Platform Bytes) :
    (∀ resource identity envelope expected now claims credential,
      openEnvelope p resource identity envelope expected now = .ok (claims, credential) →
        ClaimsMatch p identity resource expected now claims ∧
          PayloadMatch p resource claims credential) ∧
    ∀ db admin identity resource id request issued contentKey iv db' envelope t,
      validateDeviceIdentity p identity = true →
      findDevice db admin request.deviceId = some (registeredDevice p identity admin.id) →
      issue p db admin resource id request issued contentKey iv = .ok (db', envelope) →
      issued ≤ t + 30000 → t < issued + 60000 →
      ∃ url c claims payload, p.newURL (some (text request.endpoint)) = some url ∧
        content p db admin resource id = .ok c ∧ c.payload = .ok payload ∧
        readEnvelopeClaims p envelope = .ok claims ∧
        (openEnvelope p resource identity envelope (expectedEnvelope admin request id url.origin) t =
            .ok (claims, payload) ↔
          ∀ row, resource = .database → findDatabase db id = some row → KeepsUsedTunnel row) := by
  constructor
  · intro resource identity envelope expected now claims credential h
    exact openEnvelope_ok h
  intro db admin identity resource id request issued contentKey iv db' envelope t hidentity hdevice
    hissue hstarted hopen
  obtain ⟨url, c, claims, payload, hurl, hcontent, hreceived⟩ :=
    issue_received hidentity hdevice hissue hstarted hopen
  refine ⟨url, c, claims, payload, hurl, hcontent, hreceived.payload, hreceived.read, ?_⟩
  cases resource with
  | web =>
    apply iff_of_true (web_opens hreceived hcontent)
    intro row hother
    cases hother
  | ssh =>
    apply iff_of_true (ssh_opens hreceived hcontent)
    intro row hother
    cases hother
  | redis =>
    apply iff_of_true (redis_opens hreceived hcontent)
    intro row hother
    cases hother
  | database =>
    obtain ⟨row, hrow, hopens⟩ := database_opens hreceived hcontent
    apply hopens.trans
    constructor
    · intro hkeeps found _ hfound
      cases hrow.symm.trans hfound
      exact hkeeps
    intro h
    exact h row rfl hrow

end Agreement

/-- The texts and ciphertexts of a run, as terms. -/
inductive Term where
  | json (v : Json)
  | wrapped (publicKey : Text) (key : Nat)
  | sealed (key iv : Nat) (aad plaintext : Term)
  | tag (key iv : Nat) (aad plaintext : Term)

def Term.spelling : Term → Text
  | .json v => encode v
  | .wrapped publicKey key => publicKey ++ Nat.toDigits 10 key
  | .sealed _ _ aad plaintext => aad.spelling ++ plaintext.spelling
  | .tag _ _ aad plaintext => aad.spelling ++ plaintext.spelling

def Term.parse : Term → Option Json
  | .json v => some v
  | _ => none

def Term.privateDecrypt (privateKey : Text) : Term → Option Nat
  | .wrapped publicKey key => if publicKey = 'p' :: privateKey then some key else none
  | _ => none

def Term.decipher (key iv : Nat) (aad ciphertext tag : Term) : Option Term :=
  match ciphertext, tag with
  | .sealed k i _ plaintext, .tag k' i' aad' plaintext' =>
    if k = key ∧ i = iv ∧ k' = key ∧ i' = iv ∧ aad'.spelling = aad.spelling ∧
        plaintext'.spelling = plaintext.spelling then some plaintext else none
  | _, _ => none

def sites : List (Text × Url) :=
  [("https://ops.example".toList,
      ⟨"https:".toList, "https://ops.example".toList, [], [], "/".toList, [], []⟩),
    ("http://tunnel.example/ntunnel_mysql.php".toList,
      ⟨"http:".toList, "http://tunnel.example".toList, [], [], "/ntunnel_mysql.php".toList, [], []⟩)]

def siteOf : Value → Option Url
  | some (.string t) => sites.lookup t
  | _ => none

def clock : List (Int × Text) :=
  [(0, "1970-01-01T00:00:00.000Z".toList), (60000, "1970-01-01T00:01:00.000Z".toList)]

def dateOf : Value → Option Int
  | some (.string t) => (clock.find? fun entry => entry.2 = t).map Prod.fst
  | _ => none

def termPlatform : Platform Term where
  stringify := .json
  parse := Term.parse
  parse_stringify _ := rfl
  publicKeyOf privateKey := 'p' :: privateKey
  keyFingerprint publicKey := 'f' :: publicKey
  publicEncrypt := .wrapped
  privateDecrypt := Term.privateDecrypt
  privateDecrypt_publicEncrypt privateKey key := by simp [Term.privateDecrypt]
  encipher key iv aad plaintext := (.sealed key iv aad plaintext, .tag key iv aad plaintext)
  decipher := Term.decipher
  decipher_encipher key iv aad plaintext := by simp [Term.decipher]
  newURL := siteOf
  newURL_falsy v h := by
    unfold siteOf
    split
    · rename_i t
      have hempty : t = [] := by simpa [truthy] using h
      subst hempty
      decide
    rfl
  toISOString t := clock.lookup t
  dateParse := dateOf
  dateParse_toISOString t shown h := by
    simp only [clock, lookup_cons, lookup_nil] at h
    split at h
    · rename_i hzero
      cases h
      rw [eq_of_beq hzero]
      decide
    split at h
    · rename_i hminute
      cases h
      rw [eq_of_beq hminute]
      decide
    cases h
  decryptSecret _ := some "\x7b\x7d".toList
  parseText _ := some (.object [])

def phone : DeviceIdentity :=
  ⟨"d1".toList, 'f' :: 'p' :: "k1".toList, 'p' :: "k1".toList, "k1".toList⟩

def owner : Admin := ⟨"u1".toList, ⟨"personal".toList, "u1".toList⟩, fun _ _ => true⟩

/-- A connection in a mode, with the address of an HTTP tunnel in its options. -/
def ordersConnection (mode : ConnectionMode) : DatabaseEnvelopeRow :=
  ⟨"c1".toList, owner.workspace, "orders".toList, "mysql".toList, "10.0.0.5".toList, 3306,
    "app".toList, [], [], mode,
    [("httpTunnelUrl".toList, text "http://tunnel.example/ntunnel_mysql.php".toList)], false,
    "1970-01-01T00:00:00.000Z".toList⟩

def ordersDatabase (mode : ConnectionMode) : Database :=
  ⟨[registeredDevice termPlatform phone owner.id], [], [], [ordersConnection mode], [], [], []⟩

def ordersRequest : EnvelopeRequest := ⟨"d1".toList, "r1".toList, "https://ops.example".toList⟩

/-- In the mode that uses the tunnel the envelope of the same connection is opened. -/
theorem envelopes_agree_orders : ∃ db' envelope url claims payload,
    issue termPlatform (ordersDatabase .httpTunnel) owner .database "c1".toList ordersRequest 0 7 9 =
        .ok (db', envelope) ∧ openEnvelope termPlatform .database phone envelope
        (expectedEnvelope owner ordersRequest "c1".toList url) 1000 = .ok (claims, payload) ∧
      PayloadMatch termPlatform .database claims payload := by
  have hissue : ∃ result, issue termPlatform (ordersDatabase .httpTunnel) owner .database "c1".toList
      ordersRequest 0 7 9 = .ok result := ⟨_, rfl⟩
  obtain ⟨⟨db', envelope⟩, hissue⟩ := hissue
  obtain ⟨url, c, claims, payload, -, -, -, -, hopens⟩ :=
    (envelopes_agree termPlatform).2 (ordersDatabase .httpTunnel) owner phone .database "c1".toList
      ordersRequest 0 7 9 db' envelope 1000 (by decide) rfl hissue (by omega) (by omega)
  have hopened := hopens.mpr (by
    intro row _ hrow
    cases hrow
    exact Or.inl rfl)
  exact ⟨db', envelope, url.origin, claims, payload, hissue, hopened,
    ((envelopes_agree termPlatform).1 _ _ _ _ _ _ _ hopened).2⟩

/-- The message of a refused claim. -/
def claimMessage : Except OpenError (Json × Json) → Option String
  | .error (.claim message) => some message
  | _ => none

/-- The device refuses the envelope of a direct connection whose options still name an
HTTP tunnel. -/
theorem leftover_tunnel_refused : validateDeviceIdentity termPlatform phone = true ∧
    findDevice (ordersDatabase .tcp) owner ordersRequest.deviceId =
      some (registeredDevice termPlatform phone owner.id) ∧
    ∃ db' envelope, issue termPlatform (ordersDatabase .tcp) owner .database "c1".toList ordersRequest 0 7 9 =
        .ok (db', envelope) ∧ claimMessage (openEnvelope termPlatform .database phone envelope
        (expectedEnvelope owner ordersRequest "c1".toList "https://ops.example".toList) 1000) =
          some "凭据信封 HTTP Tunnel 不匹配" :=
  ⟨by decide, rfl, _, _, rfl, by decide +kernel⟩

end ImApp.DesktopEnvelopes
