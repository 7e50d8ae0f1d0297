import ImApp.Library.KeyedTable
import ImApp.WorkspaceAccess.Access

/-!
The operations that store the jump host of an SSH connection, each with the checks it
makes, and what a connection needs to connect.
-/

namespace ImApp.SshJumps

open JsonText (Text)
open WorkspaceAccess (Workspace)

structure Endpoint where
  host : Text
  port : ℕ
  username : Text
  deriving DecidableEq

structure SshConnection where
  id : Text
  workspace : Workspace
  name : Text
  endpoint : Endpoint
  jumpConnectionId : Option Text
  deriving DecidableEq

/-- The rows of `ssh_connections`, in the order of their creation. -/
abbrev Table := KeyedTable SshConnection.id

def Table.find (t : Table) (workspace : Workspace) (id : Text) : Option SshConnection :=
  t.rows.find? fun row => row.id = id ∧ row.workspace = workspace

def setJump (jumpId : Option Text) : KeyedTable.Edit SshConnection.id where
  apply row := { row with jumpConnectionId := jumpId }
  key_apply _ := rfl

def rename (name : Text) (endpoint : Endpoint) : KeyedTable.Edit SshConnection.id where
  apply row := { row with name, endpoint }
  key_apply _ := rfl

/-- An insert with the constraints of the table: a new id, and a jump host that exists. -/
def Table.add (t : Table) (row : SshConnection) : Option Table :=
  if row.id ∈ t.rows.map SshConnection.id then none
  else if row.jumpConnectionId.all (· ∈ t.rows.map SshConnection.id) then some (t.insert row)
  else none

def assertJumpConnection (t : Table) (jumpConnectionId : Option Text) (workspace : Workspace)
    (ownId : Option Text) : Option String :=
  match jumpConnectionId with
  | none => none
  | some jumpId =>
    if some jumpId = ownId then some "SSH 连接不能把自己设为跳板机"
    else match t.find workspace jumpId with
      | none => some "所选跳板机不存在"
      | some jump =>
        if ownId.isSome ∧ jump.jumpConnectionId = ownId then some "跳板机配置不能形成循环"
        else none

def createConnection (t : Table) (row : SshConnection) : Option Table :=
  if (assertJumpConnection t row.jumpConnectionId row.workspace none).isSome then none
  else t.add row

def updateConnection (t : Table) (workspace : Workspace) (id name : Text) (endpoint : Endpoint)
    (jumpId : Option Text) : Option Table :=
  if (t.find workspace id).isNone ∨ (assertJumpConnection t jumpId workspace (some id)).isSome then none
  else some ((t.update (·.id = id) (setJump jumpId)).update (·.id = id) (rename name endpoint))

/-- A deletion, with `ON DELETE SET NULL`. -/
def deleteConnection (t : Table) (workspace : Workspace) (id : Text) : Option Table :=
  if (t.find workspace id).isNone then none
  else some ((t.delete (·.id = id)).update (·.jumpConnectionId = some id) (setJump none))

inductive ConflictStrategy where
  | overwrite
  | ignore
  deriving DecidableEq

/-- A connection of the payload, with the id that it gets if it is created. -/
structure ScriptRow where
  newId : Text
  name : Text
  endpoint : Endpoint
  jumpConnection : Option Text

/-- How names are compared: `LOWER` of the database and `normalized` of the payload. -/
structure Naming where
  lower : Text → Text
  normalized : Text → Text

structure ApplyContext where
  workspace : Workspace
  strategy : ConflictStrategy
  table : Table
  matchedIds : List (Text × List Text)
  ignoredExisting : List Text
  sshIds : List (Text × Text)

section

variable (naming : Naming)

def sshIdsForName (c : ApplyContext) (name : Text) : List Text :=
  (c.table.rows.filter fun row =>
    row.workspace = c.workspace ∧ naming.lower row.name = naming.lower name).map SshConnection.id

/-- The id of a name, which an empty name does not have, and the cache after it. -/
def sshIdForName (c : ApplyContext) (name : Option Text) : Option (Option Text × ApplyContext) :=
  match name.filter (· ≠ []) with
  | none => some (none, c)
  | some name =>
    let key := naming.normalized name
    match c.sshIds.lookup key with
    | some id => some (some id, c)
    | none => (sshIdsForName naming c name).head?.map fun id =>
      (some id, { c with sshIds := (key, id) :: c.sshIds })

def syncConnection (c : ApplyContext) (row : ScriptRow) : Option ApplyContext :=
  let key := naming.normalized row.name
  let found := sshIdsForName naming c row.name
  match found with
  | [] => (c.table.add ⟨row.newId, c.workspace, row.name, row.endpoint, none⟩).map fun table =>
    { c with
      table
      matchedIds := (key, [row.newId]) :: c.matchedIds
      sshIds := (key, row.newId) :: c.sshIds }
  | id :: _ =>
    some { c with
        table :=
          if c.strategy = .ignore then c.table
          else c.table.update (·.id ∈ found) (rename row.name row.endpoint)
        ignoredExisting := if c.strategy = .ignore then key :: c.ignoredExisting else c.ignoredExisting
        matchedIds := (key, found) :: c.matchedIds
        sshIds := (key, id) :: c.sshIds }

def matched (c : ApplyContext) (row : ScriptRow) : List Text :=
  (c.matchedIds.lookup (naming.normalized row.name)).getD []

/-- The second pass: the jump hosts, once all connections of the payload exist. -/
def syncJump (c : ApplyContext) (row : ScriptRow) : Option ApplyContext :=
  if naming.normalized row.name ∈ c.ignoredExisting then some c
  else (sshIdForName naming c row.jumpConnection).bind fun (jumpId, c) =>
    if jumpId.any (· ∈ matched naming c row) then none
    else some { c with table := c.table.update (·.id ∈ matched naming c row) (setJump jumpId) }

def syncSshConnections (t : Table) (workspace : Workspace) (strategy : ConflictStrategy)
    (payload : List ScriptRow) : Option Table :=
  (payload.foldlM (syncConnection naming) ⟨workspace, strategy, t, [], [], []⟩).bind fun c =>
    (payload.foldlM (syncJump naming) c).map ApplyContext.table

end

/-- What is copied of a user's own workspace, already with the jump hosts, and where. -/
structure CopyPlan where
  personal : Workspace
  organization : Workspace
  sshConnectionIds : List Text
  reuse : List (Text × Text)
  /-- The ids and the names of the copies. -/
  newId : Text → Text
  copyName : Text → Text

structure CopyState where
  table : Table
  sshMap : List (Text × Text)

/-- What is reused is a connection of the organization with the same endpoint. -/
def CopyPlan.permitted (p : CopyPlan) (t : Table) : Bool :=
  p.reuse.all fun (sourceId, targetId) => (t.find p.personal sourceId).any fun row =>
    (t.find p.organization targetId).any fun target => target.endpoint = row.endpoint

/-- The copy of one connection, after the copy of its jump host. -/
def ensureSsh (p : CopyPlan) (source : Table) : ℕ → CopyState → Text → Option (CopyState × Text)
  | 0, _, _ => none
  | fuel + 1, s, sourceId => match s.sshMap.lookup sourceId with
    | some targetId => some (s, targetId)
    | none => (source.find p.personal sourceId).bind fun row => match p.reuse.lookup sourceId with
        | some targetId => some ({ s with sshMap := (sourceId, targetId) :: s.sshMap }, targetId)
        | none =>
          let targetId := p.newId sourceId
          let s := { s with sshMap := (sourceId, targetId) :: s.sshMap }
          let jump : Option (CopyState × Option Text) :=
            match row.jumpConnectionId with
            | none => some (s, none)
            | some jumpId => (ensureSsh p source fuel s jumpId).map fun (s, id) => (s, some id)
          jump.bind fun (s, jumpId) =>
            (s.table.add ⟨targetId, p.organization, p.copyName sourceId, row.endpoint, jumpId⟩).map
              fun table => ({ s with table }, targetId)

def executeCopy (t : Table) (p : CopyPlan) : Option Table :=
  if p.permitted t then
    (p.sshConnectionIds.foldlM (fun s id => (ensureSsh p t (t.rows.length + 1) s id).map Prod.fst)
      ⟨t, []⟩).map CopyState.table
  else none

/-- Why `connectSsh` refuses before it connects to a host. -/
def refusal (t : Table) (connection : SshConnection) : Option String :=
  match connection.jumpConnectionId with
  | none => none
  | some jumpId =>
    match t.rows.find? fun row => row.id = jumpId with
    | none => some "SSH 连接不存在"
    | some jump =>
      if jump.workspace ≠ connection.workspace then some "跳板机不属于同一工作空间"
      else if jump.jumpConnectionId.isSome then some "首版只支持单级跳板机"
      else none

end ImApp.SshJumps
