import ImApp.Library.FileTree
import Mathlib

/-!
Copying files from one host to another. Selected paths are walked with the target beside
them: directories are made or merged, files copied, and what stands in the way is removed
or skipped as the user decided. Any request can fail and a transfer can be aborted between
requests; what was done until then stays.

The files of a host as its SFTP server keeps them. A path is the list of its names from
the root, without symbolic links among the parents: where the server finds a path that
has some is left open.
-/

namespace ImApp.Sftp

abbrev Path := FileTree.Path String

inductive Node where
  | file (content : List UInt8) (mode : ℕ)
  | directory (mode : ℕ)
  | link
  deriving DecidableEq

abbrev FileSystem := FileTree.Tree String Node

def Node.isDirectory : Node → Bool
  | .directory _ => true
  | _ => false

def Node.isSymbolicLink : Node → Bool
  | .link => true
  | _ => false

/-- `mode & 0o777`. -/
def permissions (mode : ℕ) : ℕ := mode % 512

/-- What a server gives a directory that is made without a mode. -/
def defaultMode : ℕ := 493

namespace FileSystem

def lookup (fs : FileSystem) (path : Path) : Option Node := FileTree.lookup fs path

/-- The path could be made here: its parent is a directory. -/
def hasParent (fs : FileSystem) (path : Path) : Bool :=
  path ≠ [] && ((fs.lookup path.dropLast).map Node.isDirectory).getD false

def mkdir (fs : FileSystem) (path : Path) : Option FileSystem :=
  if (fs.lookup path).isNone && fs.hasParent path then
    some (FileTree.put fs path (.directory defaultMode))
  else none

def rmdir (fs : FileSystem) (path : Path) : Option FileSystem :=
  match fs.lookup path with
  | some (.directory _) =>
    if path ≠ [] ∧ FileTree.names fs path = [] then some (FileTree.remove fs path) else none
  | _ => none

def unlink (fs : FileSystem) (path : Path) : Option FileSystem :=
  match fs.lookup path with
  | some (.file _ _) | some .link => some (FileTree.remove fs path)
  | _ => none

def chmod (fs : FileSystem) (path : Path) (mode : ℕ) : Option FileSystem :=
  match fs.lookup path with
  | some (.file content _) => some (FileTree.put fs path (.file content mode))
  | some (.directory _) => some (FileTree.put fs path (.directory mode))
  | _ => none

/-- Opening for writing empties a file and makes one that is missing. -/
def openWrite (fs : FileSystem) (path : Path) (mode : ℕ) : Option FileSystem :=
  match fs.lookup path with
  | some (.file _ old) => some (FileTree.put fs path (.file [] old))
  | none => if fs.hasParent path then some (FileTree.put fs path (.file [] mode)) else none
  | _ => none

/-- The bytes written so far. -/
def write (fs : FileSystem) (path : Path) (content : List UInt8) : Option FileSystem :=
  match fs.lookup path with
  | some (.file _ mode) => some (FileTree.put fs path (.file content mode))
  | _ => none

def read (fs : FileSystem) (path : Path) : Option (List UInt8) :=
  match fs.lookup path with
  | some (.file content _) => some content
  | _ => none

/-- A listing has the entries for the directory itself and its parent, too. -/
def readdir (fs : FileSystem) (path : Path) : Option (List String) :=
  match fs.lookup path with
  | some (.directory _) => some ("." :: ".." :: FileTree.names fs path)
  | _ => none

end FileSystem

end ImApp.Sftp

namespace ImApp.Sftp

abbrev Connection := String

inductive Conflict where
  | overwrite
  | skip
  deriving DecidableEq

structure TransferOptions where
  sourceConnection : Connection
  targetConnection : Connection
  sourcePath : Option String
  sourcePaths : List String
  targetDirectory : String
  conflict : Conflict
  conflictDecisions : Path → Option Conflict

/-- The characters `String.prototype.trim` removes. -/
def isTrimmed (c : Char) : Bool :=
  (9 ≤ c.toNat && c.toNat ≤ 13) || (0x2000 ≤ c.toNat && c.toNat ≤ 0x200a) ||
    [0x20, 0xa0, 0x1680, 0x2028, 0x2029, 0x202f, 0x205f, 0x3000, 0xfeff].contains c.toNat

def trim (chars : List Char) : List Char :=
  ((chars.dropWhile isTrimmed).reverse.dropWhile isTrimmed).reverse

/-- `posix.resolve` from the root. -/
def resolve (names : List String) : Path :=
  names.foldl (fun path name =>
    if name = "" ∨ name = "." then path
    else if name = ".." then path.dropLast
    else path ++ [name]) []

def normalizePath (value : String) : Path :=
  resolve (((trim value.toList).splitOn '/').map String.ofList)

def normalizedSourcePaths (options : TransferOptions) : List Path :=
  let raw := if options.sourcePaths.isEmpty then options.sourcePath.toList else options.sourcePaths
  (raw.map normalizePath).eraseDups

/-- `posix.join(directory, posix.basename(path))`. -/
def targetPath (directory path : Path) : Path := directory ++ path.getLast?.toList

structure State where
  world : Connection → FileSystem
  requests : ℕ
  transferredBytes : ℕ
  completedFiles : ℕ
  skippedFiles : ℕ

/-- What happens around a transfer, by the number of requests made so far. -/
structure Environment where
  fails : ℕ → Bool
  aborted : ℕ → Bool
  /-- The bytes a failing write still writes. -/
  written : ℕ → ℕ
  /-- The task is cancelled when its run ends. -/
  cancelled : Bool

inductive Stop where
  | failed
  /-- The walk went deeper than it was followed. -/
  | endless

abbrev Transfer (α : Type) := ExceptT Stop (StateM State) α

def stop {α : Type} (reason : Stop) : Transfer α := fun s => (.error reason, s)

def forEach {α : Type} (run : α → Transfer Unit) : List α → Transfer Unit
  | [] => pure ()
  | a :: rest => do
      run a
      forEach run rest

section

variable (place : Connection → Path → Path) (environment : Environment)

/-- One request to a server, at the place where it finds the path. -/
def request {α : Type} (connection : Connection) (path : Path)
    (operation : FileSystem → Path → Option (α × FileSystem)) : Transfer α := fun s =>
  let next := { s with requests := s.requests + 1 }
  if environment.fails s.requests then (.error .failed, next)
  else match operation (s.world connection) (place connection path) with
    | none => (.error .failed, next)
    | some (result, fs) =>
      (.ok result, { next with world := Function.update s.world connection fs })

/-- A request that only reads. -/
def ask {α : Type} (connection : Connection) (path : Path)
    (answer : FileSystem → Path → Option α) : Transfer α :=
  request place environment connection path fun fs found => (answer fs found).map fun a => (a, fs)

/-- A request that changes the files. -/
def action (connection : Connection) (path : Path)
    (change : FileSystem → Path → Option FileSystem) : Transfer Unit :=
  request place environment connection path fun fs found => (change fs found).map fun fs => ((), fs)

def checkAborted : Transfer Unit := fun s =>
  if environment.aborted s.requests then (.error .failed, s) else (.ok (), s)

def lstat (connection : Connection) (path : Path) : Transfer Node :=
  ask place environment connection path FileSystem.lookup

def existingStats (connection : Connection) (path : Path) : Transfer (Option Node) :=
  ask place environment connection path fun fs found => some (fs.lookup found)

/-- The names a loop over a listing does not skip. -/
def readdir (connection : Connection) (path : Path) : Transfer (List String) := do
  let names ← ask place environment connection path FileSystem.readdir
  return names.filter fun name => ¬ (name = "." ∨ name = "..")

structure TransferPlan where
  directory : Bool
  totalBytes : ℕ
  totalFiles : ℕ

/-- The sum of the children's plans. -/
def sumPlans (plan : String → Transfer TransferPlan) : List String → Transfer (ℕ × ℕ)
  | [] => pure (0, 0)
  | name :: names => do
      let child ← plan name
      let rest ← sumPlans plan names
      return (child.totalBytes + rest.1, child.totalFiles + rest.2)

def buildPlan (connection : Connection) : ℕ → Path → Transfer TransferPlan
  | 0, _ => stop .endless
  | depth + 1, path => do
      checkAborted environment
      match ← lstat place environment connection path with
      | .link => stop .failed
      | .file content _ => return ⟨false, content.length, 1⟩
      | .directory _ =>
        let names ← readdir place environment connection path
        let total ← sumPlans (fun name => buildPlan connection depth (path ++ [name])) names
        return ⟨true, total.1, total.2⟩

def removeEntry (connection : Connection) : ℕ → Path → Node → Transfer Unit
  | 0, _, _ => stop .endless
  | depth + 1, path, attributes =>
    if !attributes.isDirectory then
      action place environment connection path FileSystem.unlink
    else do
      let names ← readdir place environment connection path
      forEach (fun name => do
        let child ← lstat place environment connection (path ++ [name])
        removeEntry connection depth (path ++ [name]) child) names
      action place environment connection path FileSystem.rmdir

def conflictDecision (options : TransferOptions) (path : Path) : Conflict :=
  (options.conflictDecisions path).getD options.conflict

def ensureDirectory (options : TransferOptions) (depth : ℕ) (path : Path) : Transfer Bool := do
  let connection := options.targetConnection
  match ← existingStats place environment connection path with
  | none =>
    action place environment connection path FileSystem.mkdir
    return true
  | some existing =>
    if existing.isDirectory then return true
    else if conflictDecision options path = .skip then return false
    else do
      removeEntry place environment connection depth path existing
      action place environment connection path FileSystem.mkdir
      return true

/-- The bytes flow into the target. A failure leaves those written so far. -/
def flow (options : TransferOptions) (targetPath : Path) (content : List UInt8) :
    Transfer Unit := fun s =>
  let connection := options.targetConnection
  let failed := environment.fails s.requests
  let count := if failed then min (environment.written s.requests) content.length
    else content.length
  let next := { s with
    requests := s.requests + 1
    transferredBytes := s.transferredBytes + count }
  match (s.world connection).write (place connection targetPath) (content.take count) with
  | none => (.error .failed, next)
  | some fs =>
    (if failed then .error .failed else .ok (),
      { next with world := Function.update s.world connection fs })

/-- The pipeline of a copy: the target is opened for writing, then the source is read. -/
def pipeline (options : TransferOptions) (sourcePath targetPath : Path) (mode : ℕ) :
    Transfer Unit := do
  action place environment options.targetConnection targetPath fun fs found =>
    fs.openWrite found mode
  let content ← ask place environment options.sourceConnection sourcePath FileSystem.read
  flow place environment options targetPath content

def noteSkipped (count : ℕ) : Transfer Unit := fun s =>
  (.ok (), { s with skippedFiles := s.skippedFiles + count })

def noteCompleted : Transfer Unit := fun s =>
  (.ok (), { s with completedFiles := s.completedFiles + 1 })

/-- A directory or a link is removed before a file takes its place. -/
def clearTarget (options : TransferOptions) (depth : ℕ) (targetPath : Path)
    (existing : Option Node) : Transfer Unit :=
  match existing with
  | some node =>
    if node.isDirectory || node.isSymbolicLink then
      removeEntry place environment options.targetConnection depth targetPath node
    else pure ()
  | none => pure ()

def copyFile (options : TransferOptions) (depth : ℕ) (sourcePath targetPath : Path) (mode : ℕ) :
    Transfer Unit := do
  let connection := options.targetConnection
  let existing ← existingStats place environment connection targetPath
  if existing.isSome && conflictDecision options targetPath = .skip then noteSkipped 1
  else do
    clearTarget place environment options depth targetPath existing
    pipeline place environment options sourcePath targetPath (permissions mode)
    action place environment connection targetPath fun fs found => fs.chmod found (permissions mode)
    noteCompleted

def copyEntry (options : TransferOptions) : ℕ → Path → Path → Transfer Unit
  | 0, _, _ => stop .endless
  | depth + 1, sourcePath, targetPath => do
      checkAborted environment
      match ← lstat place environment options.sourceConnection sourcePath with
      | .link => stop .failed
      | .file _ mode => copyFile place environment options depth sourcePath targetPath mode
      | .directory mode =>
        let merged ← ensureDirectory place environment options depth targetPath
        if merged then do
          let names ← readdir place environment options.sourceConnection sourcePath
          forEach (fun name =>
            copyEntry options depth (sourcePath ++ [name]) (targetPath ++ [name])) names
          action place environment options.targetConnection targetPath fun fs found =>
            fs.chmod found (permissions mode)
        else do
          let skipped ← buildPlan place environment options.sourceConnection depth sourcePath
          noteSkipped skipped.totalFiles

/-- The paths are compared as texts, the type of the source is known only to the run. -/
def assertSafeDestination (options : TransferOptions) (sourcePath targetPath : Path)
    (directory : Bool) : Transfer Unit :=
  if options.sourceConnection ≠ options.targetConnection then pure ()
  else if sourcePath = targetPath then stop .failed
  else if directory && decide (sourcePath <+: targetPath) then stop .failed
  else pure ()

/-- All plans, before anything is written. -/
def buildPlans (options : TransferOptions) (depth : ℕ) : List Path → Transfer (List TransferPlan)
  | [] => pure []
  | path :: paths => do
      let plan ← buildPlan place environment options.sourceConnection depth path
      let plans ← buildPlans options depth paths
      return plan :: plans

/-- `create` and `run`: the planned number of files, when everything was copied. -/
def run (options : TransferOptions) (depth : ℕ) : Transfer ℕ := do
  let sourcePaths := normalizedSourcePaths options
  let directory := normalizePath options.targetDirectory
  if sourcePaths.isEmpty || sourcePaths.contains [] then stop .failed
  else do
    forEach (fun path => assertSafeDestination options path (targetPath directory path) false)
      sourcePaths
    let plans ← buildPlans place environment options depth sourcePaths
    forEach (fun entry => assertSafeDestination options entry.1 (targetPath directory entry.1)
      entry.2.directory) (sourcePaths.zip plans)
    forEach (fun path =>
      copyEntry place environment options depth path (targetPath directory path)) sourcePaths
    return (plans.map TransferPlan.totalFiles).sum

inductive Status where
  | success
  | error
  | cancelled
  deriving DecidableEq

/-- The task after its run. -/
structure Task where
  status : Status
  totalFiles : ℕ
  final : State

def transfer (options : TransferOptions) (depth : ℕ) (world : Connection → FileSystem) : Task :=
  match run place environment options depth ⟨world, 0, 0, 0, 0⟩ with
  | (.ok totalFiles, s) =>
    ⟨if environment.cancelled then .cancelled else .success, totalFiles, s⟩
  | (.error _, s) => ⟨if environment.cancelled then .cancelled else .error, 0, s⟩

end

end ImApp.Sftp
