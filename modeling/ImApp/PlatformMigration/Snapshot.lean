import Mathlib.Data.List.Lex
import Mathlib.Data.Rat.Floor
import ImApp.Library.JsonText
import ImApp.Library.OffsetPaging

/-!
The portable snapshot of the platform's database: the export from SQLite or MySQL, the
normalisation into a fresh SQLite file and the change of the master key. Both engines
have the same tables and columns; they differ in what a column holds, in the collation
of their keys and in what their drivers make of a value.
-/

namespace ImApp.PlatformMigration

open JsonText OffsetPaging

/-- A stored value. The platform's numbers are those of JavaScript. -/
inductive Value where
  | null
  | number (x : ℚ)
  | text (t : Text)
  deriving DecidableEq

/-- The values of a row by column. -/
abbrev Row := String → Value

/-- The rows of a database by table. -/
abbrev Content := String → List Row

/-- The type of a column in MySQL; SQLite only knows texts and numbers. -/
inductive Kind where
  | varchar (width : Nat)
  | text
  | longtext
  | int
  | bigint
  | double
  deriving DecidableEq

structure Column where
  name : String
  kind : Kind

inductive Collation where
  | binary
  | nocase
  | unicode

abbrev Key := List (String × Collation)

/-- A table with its unique keys in each engine, beside the primary key, its references
and the checks of SQLite. -/
structure Table where
  name : String
  columns : List Column
  primaryKey : List String
  sqliteKeys : List Key
  mysqlKeys : List Key
  references : List (String × String × String)
  check : Row → Bool

inductive Dialect where
  | sqlite
  | mysql
  deriving DecidableEq

def Table.column (t : Table) (name : String) : Option Column := t.columns.find? fun c => c.name = name

def Table.keys (t : Table) : Dialect → List Key
  | .sqlite => t.primaryKey.map (fun c => (c, .binary)) :: t.sqliteKeys
  | .mysql => t.primaryKey.map (fun c => (c, .unicode)) :: t.mysqlKeys

def ENCRYPTED_COLUMNS : List (String × String) :=
  [("organization_invitation_policies", "token_ciphertext"),
    ("web_credentials", "password_ciphertext"),
    ("connection_sources", "config_ciphertext"),
    ("ssh_keys", "private_key_ciphertext"),
    ("ssh_connections", "credential_ciphertext"),
    ("database_connections", "credential_ciphertext"),
    ("redis_connections", "credential_ciphertext"),
    ("connection_import_items", "payload_ciphertext")]

def Kind.holdsText : Kind → Text → Bool
  | .varchar width, t => t.length ≤ width
  | .text, t => (t.map Char.utf8Size).sum ≤ 65535
  | .longtext, _ => true
  | _, _ => false

def integerWithin (bound : ℚ) (x : ℚ) : Bool := x.den = 1 && -bound ≤ x && x < bound

def Kind.holdsNumber : Kind → ℚ → Bool
  | .int, x => integerWithin (2 ^ 31) x
  | .bigint, x => integerWithin (2 ^ 63) x
  | .double, _ => true
  | _, _ => false

def Kind.textual : Kind → Bool
  | .varchar _ | .text | .longtext => true
  | _ => false

def showInteger (n : Int) : Text :=
  if n < 0 then '-' :: Nat.toDigits 10 n.natAbs else Nat.toDigits 10 n.natAbs

def digitsValue (t : Text) : Option Nat :=
  if !t.isEmpty && t.all Char.isDigit then some (Nat.ofDigitChars 10 t 0) else none

def parseInteger : Text → Option Int
  | '-' :: t => (digitsValue t).map fun n : Nat => -Int.ofNat n
  | t => (digitsValue t).map Int.ofNat

/-- What a driver gives for a stored value. MySQL's gives the texts of integers that a
JavaScript number does not hold exactly. -/
def read : Dialect → Kind → Value → Value
  | .mysql, .bigint, .number x =>
    if x.num.natAbs < 2 ^ 53 then .number x else .text (showInteger x.num)
  | _, _, v => v

/-- What a column keeps of a value, if it takes it. No value of the platform is of
another kind than its column, but for the texts of integers. -/
def keep : Dialect → Kind → Value → Option Value
  | _, _, .null => some .null
  | .sqlite, kind, .number x => if kind.textual then none else some (.number x)
  | .sqlite, kind, .text t =>
    if kind.textual then some (.text t) else (parseInteger t).map fun n : Int => .number (n : ℚ)
  | .mysql, kind, .number x => if kind.holdsNumber x then some (.number x) else none
  | .mysql, kind, .text t => if kind.holdsText t then some (.text t) else none

/-- The parameters of an `INSERT`, `row[column] ?? null` for every column. -/
def bindRow (dialect : Dialect) (t : Table) (row : Row) : Row := fun name =>
  match t.column name with
  | some c => read dialect c.kind (row name)
  | none => .null

def storedRow (dialect : Dialect) (t : Table) (bound : Row) : Option Row :=
  if t.columns.all fun c => (keep dialect c.kind (bound c.name)).isSome then
    some fun name =>
      match t.column name with
      | some c => (keep dialect c.kind (bound name)).getD .null
      | none => .null
  else none

/-- The secret box and the weights by which `utf8mb4_unicode_ci` compares texts. -/
structure Runtime (MasterKey Nonce : Type) where
  encrypt : MasterKey → Nonce → Text → Text
  decrypt : MasterKey → Text → Option Text
  decrypt_encrypt : ∀ key nonce plain, decrypt key (encrypt key nonce plain) = some plain
  weights : Text → List ℤ

section Keys

variable {MasterKey Nonce : Type} (r : Runtime MasterKey Nonce)

/-- What a key compares of a value; a null never clashes. -/
def image : Collation → Value → Option (List ℤ)
  | _, .null => none
  | _, .number x => some [0, x.num, x.den]
  | .binary, .text t => some (1 :: t.map fun c => (c.toNat : ℤ))
  | .nocase, .text t => some (1 :: t.map fun c => (c.toLower.toNat : ℤ))
  | .unicode, .text t => some (1 :: r.weights t)

def keyImage (key : Key) (row : Row) : Option (List (List ℤ)) :=
  key.mapM fun c => image r c.2 (row c.1)

/-- Two rows that a unique key does not let stand together. -/
def clash (key : Key) (a b : Row) : Bool :=
  (keyImage r key a).isSome && keyImage r key a = keyImage r key b

def insertRow (dialect : Dialect) (t : Table) (rows : List Row) (bound : Row) : Option (List Row) :=
  match storedRow dialect t bound with
  | none => none
  | some row =>
    if (dialect = .mysql || t.check row) &&
        (t.keys dialect).all fun key => !rows.any fun other => clash r key other row
    then some (rows ++ [row]) else none

/-- The order of `ORDER BY` the primary key in MySQL. -/
def primaryOrder (t : Table) (a b : Row) : Prop :=
  (t.primaryKey.map fun c => (image r .unicode (a c)).getD []) ≤
    t.primaryKey.map fun c => (image r .unicode (b c)).getD []

end Keys

section Snapshot

variable {MasterKey Nonce : Type} (r : Runtime MasterKey Nonce) (tables : List Table)

/-- Fills tables one after the other; the first that fails ends it. -/
def fillTables (rowsOf : Table → Option (List Row)) : List Table → Content → Option Content
  | [], content => some content
  | t :: rest, content => match rowsOf t with
    | none => none
    | some rows => fillTables rowsOf rest (Function.update content t.name rows)

/-- The source database with the answers its server gives to the export's queries. -/
structure Source where
  dialect : Dialect
  content : Content
  select : Table → ℕ → List Row

def SNAPSHOT_PAGE_SIZE : Nat := 1000

/-- The pages of a table, inserted as they come. -/
def exportTable (source : Source) (t : Table) : Option (List Row) :=
  (readAll (source.select t) SNAPSHOT_PAGE_SIZE
    (fun rows row => insertRow r .sqlite t rows (bindRow .mysql t row))
    ((source.content t.name).length + 1) 0 []).bind id

def exportPortableSnapshot (source : Source) : Option Content :=
  match source.dialect with
  | .sqlite => some source.content
  | .mysql => fillTables (exportTable r source) tables fun _ => []

/-- Every row of a table, read from the snapshot and inserted again. -/
def copyTable (dialect : Dialect) (snapshot : Content) (t : Table) : Option (List Row) :=
  (snapshot t.name).foldlM (fun rows row => insertRow r dialect t rows (bindRow .sqlite t row)) []

/-- `foreign_key_check` -/
def foreignKeysHold (content : Content) : Bool :=
  tables.all fun t => t.references.all fun ref => (content t.name).all fun row =>
    row ref.1 = .null || (content ref.2.1).any fun parent => parent ref.2.2 = row ref.1

def normalizePortableSnapshot (snapshot : Content) : Option Content :=
  match fillTables (copyTable r .sqlite snapshot) tables fun _ => [] with
  | none => none
  | some normalized => if foreignKeysHold tables normalized then some normalized else none

def rekeyRow (sourceKey targetKey : MasterKey) (nonce : Row → Nonce) (column : String) (row : Row) :
    Option Row :=
  match row column with
  | .null => some row
  | .number _ => none
  | .text cipher =>
    (r.decrypt sourceKey cipher).map fun plain =>
      Function.update row column (.text (r.encrypt targetKey (nonce row) plain))

/-- The random bytes of an encryption, which the rows of a table draw one by one. -/
abbrev Nonces (Nonce : Type) := String × String → Row → Nonce

def rekeyColumns (sourceKey targetKey : MasterKey) (nonces : Nonces Nonce) :
    List (String × String) → Content → Option Content
  | [], content => some content
  | place :: rest, content =>
    match (content place.1).mapM (rekeyRow r sourceKey targetKey (nonces place) place.2) with
    | none => none
    | some rows => rekeyColumns sourceKey targetKey nonces rest (Function.update content place.1 rows)

def rekeyPortableSnapshot (sourceKey targetKey : MasterKey) (nonces : Nonces Nonce)
    (snapshot : Content) : Option Content :=
  match normalizePortableSnapshot r tables snapshot with
  | none => none
  | some normalized =>
    match rekeyColumns r sourceKey targetKey nonces ENCRYPTED_COLUMNS normalized with
    | none => none
    | some rekeyed => if foreignKeysHold tables rekeyed then some rekeyed else none

end Snapshot

/-- The calls of the secret box, by the function that makes them. -/
inductive EncryptSite where
  | migrateDatabaseTlsCredentials
  | previewSecureCrtItem
  | applySecureCrtConnection
  | scriptSshKey
  | scriptWebCredential
  | scriptSshConnection
  | scriptDatabaseConnection
  | scriptDatabaseProfile
  | scriptRedisConnection
  | createInvitation
  | copySshKey
  | copySshConnection
  | copyDatabaseConnection
  | copyWebCredential
  | saveSshConnection
  | saveDatabaseConnection
  | saveDatabaseProfile
  | saveRedisConnection
  | saveWebCredential
  | importSshConnection
  | importDatabaseConnection
  | importUploadSource
  | importUploadItem
  | saveConnectionSource
  | saveSshKey

/-- The table and the column that the ciphertext is written to. -/
def EncryptSite.column : EncryptSite → String × String
  | .createInvitation => ("organization_invitation_policies", "token_ciphertext")
  | .scriptWebCredential | .copyWebCredential | .saveWebCredential =>
    ("web_credentials", "password_ciphertext")
  | .importUploadSource | .saveConnectionSource => ("connection_sources", "config_ciphertext")
  | .scriptSshKey | .copySshKey | .saveSshKey => ("ssh_keys", "private_key_ciphertext")
  | .applySecureCrtConnection | .scriptSshConnection | .copySshConnection | .saveSshConnection
  | .importSshConnection => ("ssh_connections", "credential_ciphertext")
  | .migrateDatabaseTlsCredentials | .scriptDatabaseConnection | .scriptDatabaseProfile
  | .copyDatabaseConnection | .saveDatabaseConnection | .saveDatabaseProfile
  | .importDatabaseConnection => ("database_connections", "credential_ciphertext")
  | .scriptRedisConnection | .saveRedisConnection => ("redis_connections", "credential_ciphertext")
  | .previewSecureCrtItem | .importUploadItem => ("connection_import_items", "payload_ciphertext")

end ImApp.PlatformMigration
