import Mathlib.Algebra.Order.Ring.Unbundled.Rat
import ImApp.Library.KeysetPaging

/-!
Tables as the database driver shows them. A row gives each column a JavaScript value.
Buffers, dates and objects are kept as the texts that `toString("base64")`,
`toISOString` and `JSON.stringify` give of them. The server compares columns by their
collations: two key values can be equal for it without being the same value.
-/

namespace ImApp.DatabaseSync

abbrev Column := String

inductive JsValue where
  | undefined
  | null
  | boolean (value : Bool)
  | number (value : ℚ)
  | bigint (value : ℤ)
  | text (value : String)
  | buffer (base64 : String)
  | date (iso : String)
  | object (json : String)
  deriving DecidableEq

/-- What the driver binds as NULL. -/
def JsValue.isNull : JsValue → Bool
  | .undefined | .null => true
  | _ => false

abbrev Row := Column → JsValue

/-- The values a row has in some columns. -/
def restrict (columns : List Column) (row : Row) : List JsValue := columns.map row

/-- The row a SELECT of these columns returns. -/
def select (columns : List Column) (row : Row) : Row :=
  fun column => if column ∈ columns then row column else .undefined

/-- The order of each column's collation. -/
structure Collation where
  le : Column → JsValue → JsValue → Bool
  total : ∀ column x y, le column x y = true ∨ le column y x = true
  trans : ∀ column x y z, le column x y = true → le column y z = true → le column x z = true

namespace Collation

variable (collation : Collation)

def equal (column : Column) (x y : JsValue) : Bool :=
  collation.le column x y && collation.le column y x

def less (column : Column) (x y : JsValue) : Bool :=
  collation.le column x y && !collation.le column y x

/-- `(columns) > (bounds)`. A NULL bound leaves the comparison unknown. -/
def tupleGreater : List Column → Row → List JsValue → Bool
  | column :: columns, row, bound :: bounds =>
    !bound.isNull && (collation.less column bound (row column) ||
      collation.equal column bound (row column) && tupleGreater columns row bounds)
  | _, _, _ => false

/-- `(columns) = (bounds)`. -/
def tupleEqual : List Column → Row → List JsValue → Bool
  | column :: columns, row, bound :: bounds =>
    !bound.isNull && collation.equal column bound (row column) && tupleEqual columns row bounds
  | _, _, _ => true

/-- `ORDER BY columns`. -/
def rowLe : List Column → Row → Row → Bool
  | [], _, _ => true
  | column :: columns, a, b => collation.less column (a column) (b column) ||
      collation.equal column (a column) (b column) && rowLe columns a b

/-- The server takes the rows' keys to be equal. -/
def sameKey (primaryKey : List Column) (a b : Row) : Prop :=
  ∀ column ∈ primaryKey, collation.equal column (a column) (b column) = true

instance (primaryKey : List Column) (a b : Row) : Decidable (collation.sameKey primaryKey a b) :=
  inferInstanceAs (Decidable (∀ column ∈ primaryKey, _))

end Collation

/-- The values a column's type admits. -/
inductive Kind where
  | scalar
  | bigint
  | binary
  | date
  | json
  deriving DecidableEq

def Kind.admits : Kind → JsValue → Bool
  | _, .null => true
  | .scalar, .boolean _ | .scalar, .number _ | .scalar, .text _ => true
  | .bigint, .bigint _ => true
  | .binary, .buffer _ => true
  | .date, .date _ => true
  | .json, .boolean _ | .json, .number _ | .json, .text _ | .json, .object _ => true
  | _, _ => false

/-- A primary key and the types of the columns, the same on both sides. -/
structure Schema where
  primaryKey : List Column
  kind : Column → Kind
  nonempty : primaryKey ≠ []
  /-- A JSON column cannot be part of a primary key. -/
  keyKind : ∀ column ∈ primaryKey, kind column ≠ .json

variable {collation : Collation} {schema : Schema} {columns : List Column}

/-- What the server keeps of a table: the primary key is unique by its collations and not
null, and the synced columns hold values of their types. -/
structure Sound (collation : Collation) (schema : Schema) (columns : List Column)
    (rows : List Row) : Prop where
  unique : rows.Pairwise (fun a b => ¬ collation.sameKey schema.primaryKey a b)
  present : ∀ row ∈ rows, ∀ column ∈ schema.primaryKey, (row column).isNull = false
  typed : ∀ row ∈ rows, ∀ column ∈ columns, (schema.kind column).admits (row column) = true

/-- A stored table. -/
structure Table (collation : Collation) (schema : Schema) (columns : List Column) where
  rows : List Row
  sound : Sound collation schema columns rows

end ImApp.DatabaseSync

/-!
Synchronising the rows of one table. The source is read page by page in key order; the
rows of a page are looked up in the target by the server's comparison and told apart by
the text of their normalized keys. Missing rows are inserted, changed ones updated, and
after that the target is paged through for rows the source does not have. Everything
happens in one transaction of the target.
-/

namespace ImApp.DatabaseSync

structure DataSyncOptions where
  insert : Bool
  update : Bool
  delete : Bool

/-- What happens around the sync: which query fails, and when the task is cancelled,
both counted by the queries made so far. -/
structure Environment where
  fails : ℕ → Bool
  cancelled : ℕ → Bool

inductive Failure where
  | query
  | duplicate
  | cancelled
  /-- The paging loop did not end. -/
  | endless
  deriving DecidableEq

structure Counts where
  inserted : ℕ
  updated : ℕ
  deleted : ℕ
  deriving DecidableEq

/-- The target inside the transaction. -/
structure Session where
  target : List Row
  queries : ℕ
  counts : Counts

abbrev Sync (α : Type) := Except Failure α

def normalizedValue : JsValue → JsValue
  | .buffer base64 => .text ("buffer:" ++ base64)
  | .date iso => .text ("date:" ++ iso)
  | .bigint value => .text ("bigint:" ++ toString value)
  | .object json => .text json
  | value => value

/-- `JSON.stringify` of the normalized key, kept as its entries: it writes `undefined` as
`null` and different entries differently. -/
def rowKey (primaryKey : List Column) (row : Row) : List JsValue :=
  primaryKey.map fun column =>
    match normalizedValue (row column) with
    | .undefined => .null
    | value => value

def rowsEqual (left right : Row) (columns : List Column) : Bool :=
  columns.all fun column => normalizedValue (left column) = normalizedValue (right column)

/-- The server of one table: its collations and what it puts into columns an INSERT does
not name. -/
structure Server where
  collation : Collation
  fill : Row → Row

section

variable (server : Server) (environment : Environment)

def Session.query (s : Session) : Sync Session :=
  if environment.fails s.queries then .error .query else .ok { s with queries := s.queries + 1 }

def dataChunkSize : ℕ := 400

def insertBatchSize : ℕ := 200

def checkCancelled (s : Session) : Sync Unit :=
  if environment.cancelled s.queries then .error .cancelled else .ok ()

def lookupRows (s : Session) (table : List Row) (columns primaryKey : List Column)
    (rows : List Row) : Sync (List Row × Session) :=
  if rows.isEmpty then .ok ([], s) else do
    let s ← s.query environment
    let keys := rows.map fun row => primaryKey.map row
    let found := table.filter fun row =>
      keys.any fun key => server.collation.tupleEqual primaryKey row key
    return (found.map (select columns), s)

/-- The row an INSERT stores. -/
def storedRow (columns : List Column) (row : Row) : Row :=
  fun column => if column ∈ columns then row column else server.fill row column

/-- The rows an INSERT of `rows` leaves: each new key has to differ from the stored ones. -/
def storeRows (columns primaryKey : List Column) : List Row → List Row → Sync (List Row)
  | table, [] => .ok table
  | table, row :: rows =>
    if table.any fun other =>
        server.collation.sameKey primaryKey other (storedRow server columns row) then
      .error .duplicate
    else storeRows columns primaryKey (table ++ [storedRow server columns row]) rows

def insertBatches (columns primaryKey : List Column) : List (List Row) → Session → Sync Session
  | [], s => .ok s
  | chunk :: chunks, s => do
      let s ← s.query environment
      let table ← storeRows server columns primaryKey s.target chunk
      insertBatches columns primaryKey chunks { s with target := table }

def batches (rows : List Row) : List (List Row) :=
  (List.range ((rows.length + insertBatchSize - 1) / insertBatchSize)).map fun index =>
    (rows.drop (index * insertBatchSize)).take insertBatchSize

def insertRows (s : Session) (columns primaryKey : List Column) (rows : List Row) : Sync Session :=
  insertBatches server environment columns primaryKey (batches rows) s

def updatedColumns (columns primaryKey : List Column) : List Column :=
  columns.filter (· ∉ primaryKey)

def overwrittenRow (updateColumns : List Column) (row other : Row) : Row :=
  fun column => if column ∈ updateColumns then row column else other column

/-- One UPDATE statement. -/
def updateRow (updateColumns primaryKey : List Column) (row : Row) (table : List Row) : List Row :=
  table.map fun other =>
    if server.collation.tupleEqual primaryKey other (primaryKey.map row) then
      overwrittenRow updateColumns row other
    else other

def updateEach (updateColumns primaryKey : List Column) : List Row → Session → Sync Session
  | [], s => .ok s
  | row :: rows, s => do
      let s ← s.query environment
      updateEach updateColumns primaryKey rows
        { s with target := updateRow server updateColumns primaryKey row s.target }

def updateRows (s : Session) (columns primaryKey : List Column) (rows : List Row) : Sync Session :=
  let updateColumns := updatedColumns columns primaryKey
  if updateColumns.isEmpty then .ok s
  else updateEach server environment updateColumns primaryKey rows s

def deleteRows (s : Session) (primaryKey : List Column) (rows : List Row) : Sync Session :=
  if rows.isEmpty then .ok s else do
    let s ← s.query environment
    let keys := rows.map fun row => primaryKey.map row
    let remaining := s.target.filter fun row =>
      !keys.any fun key => server.collation.tupleEqual primaryKey row key
    return { s with target := remaining }

def readChunk (s : Session) (table : List Row) (columns primaryKey : List Column)
    (lastKey : Option (List JsValue)) : Sync (List Row × Session) := do
  let s ← s.query environment
  let rows := table.filter fun row =>
    lastKey.all fun key => server.collation.tupleGreater primaryKey row key
  let ordered := rows.insertionSort fun a b => server.collation.rowLe primaryKey a b = true
  return ((ordered.take dataChunkSize).map (select columns), s)

/-- `new Map` of the rows by key, and its `get`: a later row of a key replaces an earlier. -/
def findByKey (primaryKey : List Column) (rows : List Row) (key : List JsValue) : Option Row :=
  rows.reverse.find? fun row => rowKey primaryKey row = key

/-- `if (options.insert && missing.length) …`. -/
def insertMissing (columns primaryKey : List Column) (options : DataSyncOptions)
    (missing : List Row) (s : Session) : Sync Session :=
  if options.insert && !missing.isEmpty then do
    let s ← insertRows server environment s columns primaryKey missing
    return { s with counts := { s.counts with inserted := s.counts.inserted + missing.length } }
  else return s

/-- `if (options.update && changed.length) …`. -/
def updateChanged (columns primaryKey : List Column) (options : DataSyncOptions)
    (changed : List Row) (s : Session) : Sync Session :=
  if options.update && !changed.isEmpty then do
    let s ← updateRows server environment s columns primaryKey changed
    return { s with counts := { s.counts with updated := s.counts.updated + changed.length } }
  else return s

def sourceStep (columns primaryKey : List Column) (options : DataSyncOptions)
    (sourceRows targetRows : List Row) (s : Session) : Sync Session := do
  let missing := sourceRows.filter fun row =>
    (findByKey primaryKey targetRows (rowKey primaryKey row)).isNone
  let changed := sourceRows.filter fun row =>
    match findByKey primaryKey targetRows (rowKey primaryKey row) with
    | some targetRow => !rowsEqual row targetRow columns
    | none => false
  let s ← insertMissing server environment columns primaryKey options missing s
  updateChanged server environment columns primaryKey options changed s

/-- The first loop of the transaction, over the pages of the source. -/
def sourceLoop (source : List Row) (columns primaryKey : List Column)
    (options : DataSyncOptions) : ℕ → Option (List JsValue) → Session → Sync Session
  | 0, _, _ => .error .endless
  | fuel + 1, lastSourceKey, s => do
      checkCancelled environment s
      let (sourceRows, s) ← readChunk server environment s source columns primaryKey lastSourceKey
      match sourceRows.getLast? with
      | none => return s
      | some last =>
        let (targetRows, s) ← lookupRows server environment s s.target columns primaryKey sourceRows
        let s ← sourceStep server environment columns primaryKey options sourceRows targetRows s
        if sourceRows.length < dataChunkSize then return s
        else sourceLoop source columns primaryKey options fuel (primaryKey.map last) s

def targetStep (primaryKey : List Column) (targetRows sourceRows : List Row) (s : Session) :
    Sync Session :=
  let sourceKeys := sourceRows.map (rowKey primaryKey)
  let extra := targetRows.filter fun row => rowKey primaryKey row ∉ sourceKeys
  if extra.isEmpty then return s
  else do
    let s ← deleteRows server environment s primaryKey extra
    return { s with counts := { s.counts with deleted := s.counts.deleted + extra.length } }

/-- The second loop, over the pages of the target. -/
def targetLoop (source : List Row) (primaryKey : List Column) :
    ℕ → Option (List JsValue) → Session → Sync Session
  | 0, _, _ => .error .endless
  | fuel + 1, lastTargetKey, s => do
      checkCancelled environment s
      let (targetRows, s) ←
        readChunk server environment s s.target primaryKey primaryKey lastTargetKey
      match targetRows.getLast? with
      | none => return s
      | some last =>
        let (sourceRows, s) ←
          lookupRows server environment s source primaryKey primaryKey targetRows
        let s ← targetStep server environment primaryKey targetRows sourceRows s
        if targetRows.length < dataChunkSize then return s
        else targetLoop source primaryKey fuel (primaryKey.map last) s

def deleteExtra (source : List Row) (primaryKey : List Column) (options : DataSyncOptions)
    (s : Session) : Sync Session :=
  if options.delete then
    targetLoop server environment source primaryKey (s.target.length + 1) none s
  else return s

/-- The transaction, from its begin to its commit. -/
def transaction (source : List Row) (columns primaryKey : List Column)
    (options : DataSyncOptions) (s : Session) : Sync Session := do
  let s ← s.query environment
  let s ← sourceLoop server environment source columns primaryKey options (source.length + 1) none s
  let s ← deleteExtra server environment source primaryKey options s
  s.query environment

/-- The target after the sync and what the sync returned: an error rolls back. -/
def syncTableData (source target : List Row) (columns primaryKey : List Column)
    (options : DataSyncOptions) : List Row × Sync Counts :=
  match transaction server environment source columns primaryKey options
      ⟨target, 0, ⟨0, 0, 0⟩⟩ with
  | .ok s => (s.target, .ok s.counts)
  | .error failure => (target, .error failure)

end

end ImApp.DatabaseSync
