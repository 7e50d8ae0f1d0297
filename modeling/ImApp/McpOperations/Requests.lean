import ImApp.Library.JsObject

/-!
The API requests of the operations. A credential operation fixes at its creation a
request without secrets, and the secrets of the form are put into its body when the
form is submitted. An import moves the type of the file from the body to the form
that carries the file.
-/

namespace ImApp.McpOperations

open JsonText JsObject List Option

inductive Method where
  | get
  | post
  | put
  | patch
  | delete

structure FormFile where
  fieldName : Text
  filename : Text
  contentType : Text
  contentBase64 : Text

structure Form where
  fields : List (Text × Text)
  files : List FormFile

structure McpApiRequest where
  method : Method
  path : Text
  query : Fields
  body : Option Json
  form : Option Form

inductive McpCredentialKind where
  | ssh
  | database
  | databaseProfile
  | redis
  | web
  | sshKeyImport
  | sshKeyGenerate
  | connectionSource
  | connectionImport
  deriving DecidableEq

inductive Mode where
  | create
  | update
  deriving DecidableEq

structure McpCredentialOperation where
  kind : McpCredentialKind
  mode : Mode

/-- An object that a schema has read: it strips the keys that it does not know. -/
structure Config (known : List String) where
  fields : Fields
  keys_known : ∀ key ∈ keys fields, key ∈ known.map String.toList

def sshConnectionConfig : List String :=
  ["environmentId", "environmentIds", "connectionGroupId", "name", "host", "port", "username",
    "authType", "sshKeyId", "jumpConnectionId", "tags", "options"]

def databaseConnectionConfig : List String :=
  ["environmentId", "environmentIds", "connectionGroupId", "name", "engine", "host", "port",
    "username", "defaultDatabase", "connectionMode", "options"]

def databaseConnectionProfileConfig : List String :=
  ["profileName", "engine", "host", "port", "username", "defaultDatabase", "connectionMode",
    "options"]

def redisConnectionConfig : List String :=
  ["environmentId", "environmentIds", "connectionGroupId", "name", "host", "port", "username",
    "defaultDatabase", "connectionMode", "options"]

def connectionSourceConfig : List String :=
  ["name", "host", "port", "username", "authType", "remotePaths", "scheduleEnabled",
    "scheduleExpression"]

/-- The actions `viron_…_secure_…` with their arguments as the schemas return them.
Where there is a thing to update, its id is given. -/
inductive SecureAction where
  | sshConnection (connectionId : Option Text) (config : Config sshConnectionConfig)
  | databaseConnection (connectionId : Option Text) (config : Config databaseConnectionConfig)
  | databaseConnectionProfile (connectionId : Text) (profileId : Option Text)
      (config : Config databaseConnectionProfileConfig)
  | redisConnection (connectionId : Option Text) (config : Config redisConnectionConfig)
  | webCredentialCreate (webEntryId : Text) (username note customFields : Json)
  | webCredentialUpdate (credentialId : Text) (username note customFields : Json)
  | sshKeyImport (name : Json)
  | sshKeyGenerate (name algorithm : Json)
  | connectionSource (sourceId : Option Text) (config : Config connectionSourceConfig)
  | connectionImport (type : Text)

def request (method : Method) (path : Text) (body : Fields) : McpApiRequest :=
  ⟨method, path, [], some (.object body), none⟩

/-- A request that creates a thing under `path`, or updates the one with the id. -/
def upsert (path : String) (id : Option Text) (body : Fields) : McpApiRequest :=
  match id with
  | none => request .post path.toList body
  | some id => request .put (path.toList ++ '/' :: id) body

def mode (id : Option Text) : Mode := if id.isSome then .update else .create

def emptyField (key : String) : Text × Json := (key.toList, .string [])

/-- The options without the texts of the certificates. -/
def clearCertificates (config : Fields) : Text × Json :=
  let options := objectOf (field config "options")
  let ssl := objectOf (field options "ssl")
  ("options".toList, .object (assign options [("ssl".toList, .object (assign ssl
    [emptyField "ca", emptyField "certificate", emptyField "privateKey", emptyField "passphrase"]))]))

/-- `credentialSpec` -/
def credentialSpec : SecureAction → McpCredentialOperation × McpApiRequest
  | .sshConnection id config => (⟨.ssh, mode id⟩, upsert "/api/v1/ssh-connections" id config.fields)
  | .databaseConnection id config => (⟨.database, mode id⟩, upsert "/api/v1/database-connections" id
      (assign config.fields [clearCertificates config.fields]))
  | .databaseConnectionProfile connection id config =>
    let path := "/api/v1/database-connections/".toList ++ connection ++ "/profiles".toList
    let name := (field config.fields "profileName").getD .null
    let body := assign config.fields [("name".toList, name), clearCertificates config.fields]
    (⟨.databaseProfile, mode id⟩, match id with
      | none => request .post path body
      | some id => request .put (path ++ '/' :: id) body)
  | .redisConnection id config =>
    (⟨.redis, mode id⟩, upsert "/api/v1/redis-connections" id config.fields)
  | .webCredentialCreate entry username note customFields =>
    (⟨.web, .create⟩,
      request .post ("/api/v1/web-entries/".toList ++ entry ++ "/credentials".toList)
        [("username".toList, username), ("note".toList, note), ("customFields".toList, customFields)])
  | .webCredentialUpdate id username note customFields =>
    (⟨.web, .update⟩, request .put ("/api/v1/web-credentials/".toList ++ id)
      [("username".toList, username), ("note".toList, note), ("customFields".toList, customFields)])
  | .sshKeyImport name =>
    (⟨.sshKeyImport, .create⟩,
      request .post "/api/v1/ssh-keys/import".toList [("name".toList, name)])
  | .sshKeyGenerate name algorithm =>
    (⟨.sshKeyGenerate, .create⟩, request .post "/api/v1/ssh-keys/generate".toList
      [("name".toList, name), ("algorithm".toList, algorithm)])
  | .connectionSource id config =>
    (⟨.connectionSource, mode id⟩, match id with
      | none => request .post "/api/v1/connection-sources/securecrt".toList config.fields
      | some id => request .put ("/api/v1/connection-sources/".toList ++ id) config.fields)
  | .connectionImport type =>
    (⟨.connectionImport, .create⟩, request .post "/api/v1/connection-imports/preview".toList
      [("type".toList, .string type)])

structure Secrets where
  password : Text
  privateKey : Text
  passphrase : Text
  httpTunnelUsername : Text
  httpTunnelPassword : Text
  tlsCa : Text
  tlsCertificate : Text
  tlsPrivateKey : Text
  tlsPassphrase : Text
  configPassphrase : Text

def Secrets.values (secrets : Secrets) : List Text :=
  [secrets.password, secrets.privateKey, secrets.passphrase, secrets.httpTunnelUsername,
    secrets.httpTunnelPassword, secrets.tlsCa, secrets.tlsCertificate, secrets.tlsPrivateKey,
    secrets.tlsPassphrase, secrets.configPassphrase]

/-- The length in UTF-16 units. -/
def units (text : Text) : Nat := text.length + text.countP fun c => 0x10000 ≤ c.toNat

def secretField (body : List (Text × Text)) (name : String) (limit : Nat) : Option Text :=
  match body.lookup name.toList with
  | none => some []
  | some text => if units text ≤ limit then some text else none

/-- `secretSchema` -/
def secretSchema (body : List (Text × Text)) : Option Secrets := do
  let password ← secretField body "password" 4096
  let privateKey ← secretField body "privateKey" (128 * 1024)
  let passphrase ← secretField body "passphrase" 4096
  let httpTunnelUsername ← secretField body "httpTunnelUsername" 4096
  let httpTunnelPassword ← secretField body "httpTunnelPassword" 4096
  let tlsCa ← secretField body "tlsCa" (128 * 1024)
  let tlsCertificate ← secretField body "tlsCertificate" (128 * 1024)
  let tlsPrivateKey ← secretField body "tlsPrivateKey" (128 * 1024)
  let tlsPassphrase ← secretField body "tlsPassphrase" 4096
  let configPassphrase ← secretField body "configPassphrase" 4096
  return ⟨password, privateKey, passphrase, httpTunnelUsername, httpTunnelPassword, tlsCa,
    tlsCertificate, tlsPrivateKey, tlsPassphrase, configPassphrase⟩

/-- The file of an import, with the passphrase as it is cut off. -/
structure Upload where
  filename : Text
  contentType : Text
  content : Text
  passphrase : Text

/-- What a submitted form holds: its fields, or the parts of a multipart form. -/
structure Submission where
  fields : List (Text × Text)
  upload : Option Upload

def given (key : String) (value : Text) : Fields :=
  if value = [] then [] else [(key.toList, .string value)]

/-- A credential object, when it has a field. -/
def credential (fields : Fields) : Fields :=
  if fields = [] then [] else [("credential".toList, .object fields)]

def sshCredential (secrets : Secrets) : Fields :=
  given "password" secrets.password ++ given "privateKey" secrets.privateKey ++
    given "passphrase" secrets.passphrase

def tlsCredential (secrets : Secrets) : Fields :=
  given "tlsCa" secrets.tlsCa ++ given "tlsCertificate" secrets.tlsCertificate ++
    given "tlsPrivateKey" secrets.tlsPrivateKey ++ given "tlsPassphrase" secrets.tlsPassphrase

def databaseCredential (secrets : Secrets) : Fields :=
  given "password" secrets.password ++ given "httpTunnelUsername" secrets.httpTunnelUsername ++
    given "httpTunnelPassword" secrets.httpTunnelPassword ++ tlsCredential secrets

def redisCredential (secrets : Secrets) : Fields :=
  given "password" secrets.password ++ tlsCredential secrets

/-- `String(base[key] ?? "password")`, where the schema has made it a string. -/
def authType (base : Fields) : Text :=
  match field base "authType" with
  | some (.string text) => text
  | _ => "password".toList

def hasSshKey (base : Fields) : Bool :=
  match field base "sshKeyId" with
  | some (.string text) => text ≠ []
  | _ => false

/-- What the secrets add to the body, or none when a needed one is missing. -/
def secretFields (operation : McpCredentialOperation) (base : Fields) (secrets : Secrets) :
    Option Fields :=
  let creating := operation.mode = .create
  match operation.kind with
  | .ssh =>
    if creating ∧ (authType base = "password".toList ∨ authType base = "keyboardInteractive".toList) ∧
        secrets.password = [] then none
    else if creating ∧ authType base = "privateKey".toList ∧ hasSshKey base = false ∧
        secrets.privateKey = [] then none
    else some (credential (sshCredential secrets))
  | .database | .databaseProfile => some (credential (databaseCredential secrets))
  | .redis => some (credential (redisCredential secrets))
  | .web =>
    if creating ∧ secrets.password = [] then none
    else some (given "password" secrets.password)
  | .sshKeyImport =>
    if secrets.privateKey = [] then none
    else some [("privateKey".toList, .string secrets.privateKey),
      ("passphrase".toList, .string secrets.passphrase)]
  | .sshKeyGenerate => some [("passphrase".toList, .string secrets.passphrase)]
  | .connectionSource =>
    if creating ∧ authType base = "password".toList ∧ secrets.password = [] then none
    else if creating ∧ authType base = "privateKey".toList ∧ secrets.privateKey = [] then none
    else some (given "password" secrets.password ++ given "privateKey" secrets.privateKey ++
      given "passphrase" secrets.passphrase ++ given "configPassphrase" secrets.configPassphrase)
  | .connectionImport => none

def credentialRequest (operation : McpCredentialOperation) (created : McpApiRequest)
    (body : List (Text × Text)) : Option McpApiRequest := do
  let secrets ← secretSchema body
  let extra ← secretFields operation (objectOf created.body) secrets
  return { created with body := some (.object (assign (objectOf created.body) extra)) }

/-- `connectionImportRequest`. The form needs a name and a content of the file. -/
def connectionImportRequest (created : McpApiRequest) (upload : Option Upload) :
    Option McpApiRequest :=
  match upload with
  | none => none
  | some file =>
    if file.content = [] ∨ file.filename = [] then none
    else
      let type := match field (objectOf created.body) "type" with
        | some (.string text) => text
        | _ => []
      some ⟨.post, created.path, [], none, some
        ⟨[("type".toList, type), ("passphrase".toList, file.passphrase)],
          [⟨"file".toList, file.filename, file.contentType, file.content⟩]⟩⟩

/-- What a submitted credential operation sends. -/
def submittedRequest (operation : McpCredentialOperation) (created : McpApiRequest)
    (submission : Submission) : Option McpApiRequest :=
  if operation.kind = .connectionImport then connectionImportRequest created submission.upload
  else credentialRequest operation created submission.fields

def FromSecrets (secrets : Secrets) : Json → Prop
  | .string text => text ∈ secrets.values
  | .object fields => ∀ f ∈ fields, ∃ text ∈ secrets.values, f.2 = .string text
  | _ => False

/-- The second request is the first one with new fields in its body, all of them
secrets of the form. -/
def ExtendsBody (created : McpApiRequest) (submission : Submission) (sent : McpApiRequest) : Prop :=
  ∃ secrets base extra, secretSchema submission.fields = some secrets ∧
    created.body = some (.object base) ∧
    sent = { created with body := some (.object (base ++ extra)) } ∧
    ∀ f ∈ extra, f.1 ∉ keys base ∧ FromSecrets secrets f.2

/-- The second request sends the type of the first one along with the file. -/
def ExtendsForm (created : McpApiRequest) (submission : Submission) (sent : McpApiRequest) : Prop :=
  ∃ type file, submission.upload = some file ∧
    created.body = some (.object [("type".toList, .string type)]) ∧
    sent = { created with
      body := none
      form := some ⟨[("type".toList, type), ("passphrase".toList, file.passphrase)],
        [⟨"file".toList, file.filename, file.contentType, file.content⟩]⟩ }

section Extensions

variable {secrets : Secrets}

variable {key : String} {value : Text} {f : Text × Json}

theorem given_secret (h : value ∈ secrets.values)
    (hf : f ∈ given key value) : ∃ text ∈ secrets.values, f.2 = .string text := by
  unfold given at hf
  split at hf
  · cases hf
  rw [mem_singleton.mp hf]
  exact ⟨value, h, rfl⟩

theorem keys_given : keys (given key value) ⊆ [key.toList] := by
  unfold given JsObject.keys
  split
  · exact nil_subset _
  exact List.Subset.refl _

theorem fromSecrets_given (h : value ∈ secrets.values) (hf : f ∈ given key value) : FromSecrets secrets f.2 := by
  obtain ⟨text, htext, hvalue⟩ := given_secret h hf
  rw [hvalue]
  exact htext

theorem keys_credential {fields : Fields} : keys (credential fields) ⊆ ["credential".toList] := by
  unfold credential JsObject.keys
  split
  · exact nil_subset _
  exact List.Subset.refl _

theorem fromSecrets_credential {fields : Fields}
    (h : ∀ f ∈ fields, ∃ text ∈ secrets.values, f.2 = .string text)
    (hf : f ∈ credential fields) : FromSecrets secrets f.2 := by
  unfold credential at hf
  split at hf
  · cases hf
  rw [mem_singleton.mp hf]
  exact h

theorem givens_spec {parts : List (String × Text)} (h : ∀ part ∈ parts, part.2 ∈ secrets.values) (hf : f ∈ parts.flatMap fun part => given part.1 part.2) :
    f.1 ∈ parts.map (fun part => part.1.toList) ∧ ∃ text ∈ secrets.values, f.2 = .string text := by
  obtain ⟨part, hpart, hgiven⟩ := mem_flatMap.mp hf
  constructor
  · have hkey : f.1 ∈ keys (given part.1 part.2) := List.mem_map.mpr ⟨f, hgiven, rfl⟩
    rw [mem_singleton.mp (keys_given hkey)]
    exact List.mem_map.mpr ⟨part, hpart, rfl⟩
  exact given_secret (h part hpart) hgiven

def secretKeys : McpCredentialKind → List Text
  | .ssh | .database | .databaseProfile | .redis => ["credential".toList]
  | .web => ["password".toList]
  | .sshKeyImport => ["privateKey".toList, "passphrase".toList]
  | .sshKeyGenerate => ["passphrase".toList]
  | .connectionSource =>
    ["password".toList, "privateKey".toList, "passphrase".toList, "configPassphrase".toList]
  | .connectionImport => []

/-- Fields under the keys of the kind, with secrets as their values. -/
def SecretsOnly (kind : McpCredentialKind) (secrets : Secrets) (extra : Fields) : Prop :=
  ∀ f ∈ extra, f.1 ∈ secretKeys kind ∧ FromSecrets secrets f.2

theorem credential_secretsOnly {kind : McpCredentialKind}
    (hkind : secretKeys kind = ["credential".toList]) {parts : List (String × Text)}
    (hparts : ∀ part ∈ parts, part.2 ∈ secrets.values) :
    SecretsOnly kind secrets (credential (parts.flatMap fun part => given part.1 part.2)) := by
  intro f hf
  constructor
  · rw [hkind]
    exact keys_credential (List.mem_map.mpr ⟨f, hf, rfl⟩)
  exact fromSecrets_credential (fun other hother => (givens_spec hparts hother).2) hf

theorem sshCredential_eq : sshCredential secrets =
    [("password", secrets.password), ("privateKey", secrets.privateKey),
      ("passphrase", secrets.passphrase)].flatMap (fun part => given part.1 part.2) := by
  simp [sshCredential]

theorem databaseCredential_eq : databaseCredential secrets =
    [("password", secrets.password), ("httpTunnelUsername", secrets.httpTunnelUsername),
      ("httpTunnelPassword", secrets.httpTunnelPassword), ("tlsCa", secrets.tlsCa),
      ("tlsCertificate", secrets.tlsCertificate), ("tlsPrivateKey", secrets.tlsPrivateKey),
      ("tlsPassphrase", secrets.tlsPassphrase)].flatMap (fun part => given part.1 part.2) := by
  simp [databaseCredential, tlsCredential]

theorem redisCredential_eq : redisCredential secrets =
    [("password", secrets.password), ("tlsCa", secrets.tlsCa),
      ("tlsCertificate", secrets.tlsCertificate), ("tlsPrivateKey", secrets.tlsPrivateKey),
      ("tlsPassphrase", secrets.tlsPassphrase)].flatMap (fun part => given part.1 part.2) := by
  simp [redisCredential, tlsCredential]

theorem secretFields_secretsOnly {operation : McpCredentialOperation} {base extra : Fields}
    (h : secretFields operation base secrets = some extra) :
    SecretsOnly operation.kind secrets extra := by
  obtain ⟨kind, mode⟩ := operation
  cases kind with
  | ssh =>
    simp only [secretFields, ite_none_left_eq_some, some.injEq] at h
    obtain ⟨-, -, rfl⟩ := h
    rw [sshCredential_eq]
    exact credential_secretsOnly rfl (by simp [Secrets.values])
  | database | databaseProfile =>
    cases h
    rw [databaseCredential_eq]
    exact credential_secretsOnly rfl (by simp [Secrets.values])
  | redis =>
    cases h
    rw [redisCredential_eq]
    exact credential_secretsOnly rfl (by simp [Secrets.values])
  | web =>
    simp only [secretFields, ite_none_left_eq_some, some.injEq] at h
    obtain ⟨-, rfl⟩ := h
    intro f hf
    exact ⟨keys_given (List.mem_map.mpr ⟨f, hf, rfl⟩), fromSecrets_given (by simp [Secrets.values]) hf⟩
  | sshKeyImport =>
    simp only [secretFields, ite_none_left_eq_some, some.injEq] at h
    obtain ⟨-, rfl⟩ := h
    intro f hf
    rcases mem_cons.mp hf with rfl | hf
    · exact ⟨mem_cons_self, by simp [FromSecrets, Secrets.values]⟩
    rw [mem_singleton.mp hf]
    exact ⟨mem_cons_of_mem _ (mem_singleton_self _), by simp [FromSecrets, Secrets.values]⟩
  | sshKeyGenerate =>
    cases h
    intro f hf
    rw [mem_singleton.mp hf]
    exact ⟨mem_singleton_self _, by simp [FromSecrets, Secrets.values]⟩
  | connectionSource =>
    simp only [secretFields, ite_none_left_eq_some, some.injEq] at h
    obtain ⟨-, -, rfl⟩ := h
    have hparts : ∀ f ∈ [("password", secrets.password), ("privateKey", secrets.privateKey),
        ("passphrase", secrets.passphrase), ("configPassphrase", secrets.configPassphrase)].flatMap
          (fun part => given part.1 part.2),
        f.1 ∈ secretKeys .connectionSource ∧ ∃ text ∈ secrets.values, f.2 = .string text :=
      fun f hf => givens_spec (by simp [Secrets.values]) hf
    intro f hf
    obtain ⟨hkey, text, htext, hvalue⟩ := hparts f (by simpa using hf)
    rw [hvalue]
    exact ⟨hkey, htext⟩
  | connectionImport => cases h

def bodyKeys : McpCredentialKind → List String
  | .ssh => sshConnectionConfig
  | .database => databaseConnectionConfig
  | .databaseProfile => "name" :: databaseConnectionProfileConfig
  | .redis => redisConnectionConfig
  | .web => ["username", "note", "customFields"]
  | .sshKeyImport => ["name"]
  | .sshKeyGenerate => ["name", "algorithm"]
  | .connectionSource => connectionSourceConfig
  | .connectionImport => ["type"]

theorem secretKeys_disjoint (kind : McpCredentialKind) :
    ∀ key ∈ secretKeys kind, key ∉ (bodyKeys kind).map String.toList := by
  cases kind <;> decide

theorem keys_config {known : List String} (config : Config known) (added : Fields)
    (hadded : ∀ key ∈ keys added, key ∈ known.map String.toList) :
    ∀ key ∈ keys (assign config.fields added), key ∈ known.map String.toList := by
  intro key hkey
  rcases keys_assign.mp hkey with hconfig | hnew
  · exact config.keys_known key hconfig
  exact hadded key hnew

theorem credentialSpec_body (action : SecureAction) :
    ∃ base, (credentialSpec action).2.body = some (.object base) ∧
      ∀ key ∈ keys base, key ∈ (bodyKeys (credentialSpec action).1.kind).map String.toList := by
  cases action with
  | sshConnection id config | redisConnection id config | connectionSource id config =>
    cases id <;> exact ⟨_, rfl, config.keys_known⟩
  | databaseConnection id config =>
    have hoptions : ∀ key ∈ keys [clearCertificates config.fields],
        key ∈ databaseConnectionConfig.map String.toList := by
      intro key hkey
      rw [mem_singleton.mp hkey]
      show "options".toList ∈ databaseConnectionConfig.map String.toList
      decide
    have hkeys := keys_config config _ hoptions
    cases id <;> exact ⟨_, rfl, hkeys⟩
  | databaseConnectionProfile connection id config =>
    have hkeys : ∀ key ∈ keys (assign config.fields [("name".toList,
        (field config.fields "profileName").getD .null), clearCertificates config.fields]),
        key ∈ ("name" :: databaseConnectionProfileConfig).map String.toList := by
      intro key hkey
      rcases keys_assign.mp hkey with hconfig | hnew
      · exact mem_cons_of_mem _ (config.keys_known key hconfig)
      change key ∈ ["name".toList, "options".toList] at hnew
      rcases mem_cons.mp hnew with rfl | hnew
      · decide
      rw [mem_singleton.mp hnew]
      decide
    cases id <;> exact ⟨_, rfl, hkeys⟩
  | webCredentialCreate entry username note customFields
  | webCredentialUpdate id username note customFields =>
    exact ⟨_, rfl, by simp [credentialSpec, bodyKeys, JsObject.keys]⟩
  | sshKeyImport name | sshKeyGenerate name algorithm | connectionImport type =>
    exact ⟨_, rfl, by simp [credentialSpec, bodyKeys, JsObject.keys]⟩

theorem credentialRequest_extends {action : SecureAction} {body : List (Text × Text)}
    {upload : Option Upload} {sent : McpApiRequest}
    (h : credentialRequest (credentialSpec action).1 (credentialSpec action).2 body = some sent) :
    ExtendsBody (credentialSpec action).2 ⟨body, upload⟩ sent := by
  obtain ⟨base, hbody, hkeys⟩ := credentialSpec_body action
  obtain ⟨secrets, hsecrets, h⟩ := bind_eq_some_iff.mp h
  obtain ⟨extra, hextra, h⟩ := bind_eq_some_iff.mp h
  cases h
  have honly := secretFields_secretsOnly hextra
  have hfresh : ∀ f ∈ extra, f.1 ∉ keys base :=
    fun f hf hold => secretKeys_disjoint _ f.1 (honly f hf).1 (hkeys f.1 hold)
  have hmerged : assign base extra = base ++ extra := by
    apply assign_disjoint
    intro key hkey
    obtain ⟨f, hf, rfl⟩ := List.mem_map.mp hkey
    exact hfresh f hf
  refine ⟨secrets, base, extra, hsecrets, hbody, ?_, fun f hf => ⟨hfresh f hf, (honly f hf).2⟩⟩
  rw [hbody, objectOf, hmerged]

/-- What is sent for a credential operation is the stored request with the secrets of
the form. -/
theorem submittedRequest_extends {action : SecureAction} {submission : Submission}
    {sent : McpApiRequest}
    (h : submittedRequest (credentialSpec action).1 (credentialSpec action).2 submission = some sent) :
    ExtendsBody (credentialSpec action).2 submission sent ∨
      ExtendsForm (credentialSpec action).2 submission sent := by
  unfold submittedRequest at h
  split at h
  case isTrue himport =>
    cases action with
    | connectionImport type =>
      unfold connectionImportRequest at h
      split at h
      · cases h
      rename_i file hfile
      simp only [ite_none_left_eq_some, some.injEq] at h
      obtain ⟨-, rfl⟩ := h
      exact .inr ⟨type, file, hfile, rfl, rfl⟩
    | _ => cases himport
  case isFalse => exact .inl (credentialRequest_extends h)

end Extensions

end ImApp.McpOperations
