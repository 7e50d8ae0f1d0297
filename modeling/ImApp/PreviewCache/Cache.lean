import ImApp.Library.StepSystem
import ImApp.PreviewCache.Identity

/-!
The preview cache between its awaits. Reads, validations and downloads complete
at any time. Mutations of the storage run one after another in the order in
which they were asked for, and a get waits for those asked for before it. The
runs of `get` are numbered from 1; 0 stands for what earlier sessions left.
-/

namespace ImApp.PreviewCache

open JsonText (Text)
open StepSystem (Machine)

def previewCacheBytes : Nat := 200 * 1024 * 1024

def previewFileBytes : Nat := 20 * 1024 * 1024

/-- A row in memory. Its object (an object URL or a file) belongs to the run
`holder`; its content was brought in by the run `producer`. -/
structure Asset where
  holder : Nat
  producer : Nat
  bytes : Nat
  blob : Bool
  remote : Bool
  deriving DecidableEq

/-- A stored row. -/
structure Row where
  producer : Nat
  bytes : Nat
  blob : Bool

/-- Where a run of `load` stands: the await it is at, or its outcome. `task` is
the mutation that it waits for, `legacy` tells that it is at its older key. -/
inductive Stage where
  | queued (ahead : Nat)
  | reading (legacy : Bool)
  | checking (legacy : Bool) (row : Asset)
  | checked (legacy : Bool) (row : Option Asset) (fresh : Bool)
  | discarding (legacy : Bool) (task : Nat)
  | upgrading (row : Asset) (task : Nat)
  | unlinking (row : Asset) (task : Nat)
  | touching (row : Asset) (task : Nat)
  | downloading
  | writing (row : Asset) (task : Nat)
  | returned (row : Asset)
  | threw
  deriving DecidableEq

structure Run where
  key : Key
  legacyKey : Key
  valid : Bool
  stage : Stage

/-- A mutation of the storage that was asked for. -/
inductive Task where
  | write (run : Nat) (row : Asset)
  | touch (run : Nat)
  | remove (run : Nat) (key : Key)
  | forget (key legacyKey : Key)
  | clear

/-- What the mutation that is running still does. -/
inductive Op where
  | writing (run : Nat) (row : Asset)
  | removing (run : Option Nat) (keys : List Key)
  | clearing
  | nothing

/-- A call of `forget`, or of `clear` when it names no keys. `before` is the last
run started before it, `stale` are the runs it met unfinished. -/
structure Call where
  keys : Option (Key × Key)
  before : Nat
  task : Nat
  stale : List Nat
  deriving DecidableEq

/-- The last four fields record what happened and decide nothing: the calls,
the mutations in which a removal failed, what each run released or removed (the
run whose asset it was), and the downloads. -/
structure State where
  started : Nat
  runs : Nat → Run
  pending : Key → Option Nat
  memory : List (Key × Asset)
  tasks : List Task
  done : Nat
  current : Option Op
  disk : Key → Option Row
  calls : List Call
  voided : List Nat
  dropped : List (Nat × Nat)
  downloads : List Nat

namespace Stage

def isOver : Stage → Bool
  | returned _ | threw => true
  | _ => false

def queuedAt : Stage → Option Nat
  | queued ahead => some ahead
  | _ => none

def awaits : Stage → Option Nat
  | discarding _ task | upgrading _ task | unlinking _ task | touching _ task | writing _ task =>
    some task
  | _ => none

/-- The row that a run in progress holds. -/
def held : Stage → Option Asset
  | checking _ row | upgrading row _ | unlinking row _ | touching row _ | writing row _ => some row
  | checked _ row _ => row
  | _ => none

/-- The run has asked for its download or has ended. -/
def isFetched : Stage → Bool
  | downloading | writing _ _ | returned _ | threw => true
  | _ => false

end Stage

/-- The gets that a call invalidates. -/
def covers (keys : Option (Key × Key)) (key : Key) : Bool :=
  match keys with
  | none => true
  | some (own, _) => own = key

/-- The stored rows that a call removes. -/
def clears (keys : Option (Key × Key)) (key : Key) : Bool :=
  match keys with
  | none => true
  | some (own, legacy) => own = key || legacy = key

def mutation (keys : Option (Key × Key)) : Task :=
  match keys with
  | none => .clear
  | some (own, legacy) => .forget own legacy

/-- Nothing is left of the mutation. -/
def Op.isIdle : Op → Bool
  | .nothing | .removing _ [] => true
  | _ => false

namespace State

variable (s : State)

/-- Only what a run in progress changes. -/
def moved (r : Nat) (stage : Stage) (asked : List Task) (memory : List (Key × Asset))
    (gone : List Nat) : State :=
  { s with
    runs := Function.update s.runs r { s.runs r with stage := stage }
    tasks := s.tasks ++ asked
    memory := memory
    dropped := s.dropped ++ gone.map fun owner => (r, owner)
    downloads := if stage = .downloading then s.downloads ++ [r] else s.downloads }

/-- The run goes on and nothing else changes. -/
def go (r : Nat) (stage : Stage) : State := s.moved r stage [] s.memory []

/-- The run waits for a mutation that it asks for. -/
def ask (r : Nat) (stage : Nat → Stage) (task : Task) : State :=
  s.moved r (stage s.tasks.length) [task] s.memory []

/-- The run releases the row that it holds and ends. -/
def stop (r : Nat) (row : Asset) : State := s.moved r .threw [] s.memory [row.holder]

end State

def totalBytes (memory : List (Key × Asset)) : Nat := (memory.map fun entry => entry.2.bytes).sum

/-- The loop of `remember` over the rows from the oldest on: the rows that are
kept and those that are released. -/
def evict (key : Key) : Nat → Nat → List (Key × Asset) → List (Key × Asset) × List Asset
  | _, _, [] => ([], [])
  | size, bytes, (oldKey, old) :: rest =>
    if size ≤ 64 ∧ bytes ≤ previewCacheBytes then ((oldKey, old) :: rest, [])
    else if oldKey = key then let (kept, released) := evict key size bytes rest
      ((oldKey, old) :: kept, released)
    else
      let (kept, released) := evict key (size - 1) (bytes - old.bytes) rest
      (kept, old :: released)

def without (key : Key) (memory : List (Key × Asset)) : List (Key × Asset) :=
  memory.filter fun entry => entry.1 ≠ key

def remember (key : Key) (row : Asset) (memory : List (Key × Asset)) :
    List (Key × Asset) × List Asset :=
  let next := without key memory ++ [(key, row)]
  evict key next.length (totalBytes next) next

namespace State

variable (s : State)

/-- The last check of a run that has a row to return. -/
def complete (r : Nat) (row : Asset) (keep : Bool) : State :=
  if !(s.runs r).valid then s.stop r row
  else if keep then
    let (memory, released) := remember (s.runs r).key row s.memory
    s.moved r (.returned row) [] memory (released.map Asset.holder)
  else s.go r (.returned row)

def discard (r : Nat) (legacy : Bool) (row : Asset) : State :=
  let key := if legacy then (s.runs r).legacyKey else (s.runs r).key
  s.moved r (.discarding legacy s.tasks.length) [.remove r key] (without key s.memory)
    (((s.memory.lookup key).toList ++ [row]).map Asset.holder)

def miss (r : Nat) : State :=
  if !(s.runs r).valid then s.go r .threw else s.go r .downloading

/-- No row at one key: the older key is tried next, then the network. -/
def fallBack (r : Nat) (legacy : Bool) : State :=
  if !legacy && (s.runs r).legacyKey ≠ (s.runs r).key then s.go r (.reading true) else s.miss r

def hit (r : Nat) (legacy : Bool) (row : Asset) : State :=
  if !(s.runs r).valid then s.stop r row
  else if (legacy || (s.runs r).legacyKey = (s.runs r).key) && row.blob then
    s.ask r (.upgrading row) (.write r row)
  else s.ask r (.touching row) (.touch r)

def afterCheck (r : Nat) (legacy : Bool) (row : Option Asset) (fresh : Bool) : State :=
  match row with
  | none => s.fallBack r legacy
  | some row =>
    if fresh then s.hit r legacy row
    else if (s.runs r).valid then s.discard r legacy row
    else s.fallBack r legacy

/-- The run continues after an await on the mutations or on its own helper. -/
def resume (r : Nat) : Option State :=
  match (s.runs r).stage with
  | .queued ahead =>
    if ahead ≤ s.done then
      some (match s.memory.lookup (s.runs r).key with
        | some row => s.go r (.checking false row)
        | none => s.go r (.reading false))
    else none
  | .checked legacy row fresh => some (s.afterCheck r legacy row fresh)
  | .discarding legacy task => if task < s.done then some (s.fallBack r legacy) else none
  | .upgrading row task =>
    if task < s.done then some (s.ask r (.unlinking row) (.remove r (s.runs r).legacyKey))
    else none
  | .unlinking row task =>
    if task < s.done then some (s.ask r (.touching row) (.touch r)) else none
  | .touching row task => if task < s.done then some (s.complete r row true) else none
  | .writing row task => if task < s.done then some (s.complete r row (!row.remote)) else none
  | _ => none

/-- `storage.read`, which may fail. A row under the older key was put there by no
run; the run that finds it brings it in. -/
def read (r : Nat) (ok : Bool) : Option State :=
  match (s.runs r).stage with
  | .reading legacy =>
    let key := if legacy then (s.runs r).legacyKey else (s.runs r).key
    some (match if ok then s.disk key else none with
      | none => s.go r (.checked legacy none false)
      | some row => s.go r (.checking legacy {
          holder := r
          producer := if legacy then r else row.producer
          bytes := row.bytes
          blob := row.blob
          remote := false }))
  | _ => none

/-- `fresh` is the outcome of the age check and of `storage.valid`. -/
def validated (r : Nat) (fresh : Bool) : Option State :=
  match (s.runs r).stage with
  | .checking legacy row =>
    some (if !(s.runs r).valid then s.stop r row else s.go r (.checked legacy (some row) fresh))
  | _ => none

/-- What `storage.download` answers with: the size, and whether a blob and only
the remote address came back. -/
structure Download where
  bytes : Nat
  blob : Bool
  remote : Bool

def downloaded (r : Nat) (result : Option Download) : Option State :=
  match (s.runs r).stage with
  | .downloading =>
    some (match result with
      | none => s.go r .threw
      | some { bytes, blob, remote } =>
        let row : Asset := { holder := r, producer := r, bytes, blob, remote }
        if !(s.runs r).valid then s.stop r row
        else if 0 < bytes && bytes ≤ previewFileBytes && !remote then
          s.ask r (.writing row) (.write r row)
        else s.complete r row (!remote))
  | _ => none

/-- The entry of a finished run leaves `pending`. -/
def settled (r : Nat) : Option State :=
  if (s.runs r).stage.isOver then
    some (if s.pending (s.runs r).key = some r then
        { s with pending := Function.update s.pending (s.runs r).key none }
      else s)
  else none

def runIds : List Nat := List.range' 1 s.started

/-- The call of `load`, up to its first await. -/
def launch (key legacyKey : Key) : State :=
  { s with
    started := s.started + 1
    runs := Function.update s.runs (s.started + 1) {
      key := key
      legacyKey := legacyKey
      valid := true
      stage := .queued s.tasks.length }
    pending := Function.update s.pending key (some (s.started + 1)) }

/-- An address that is not remote is answered at once. -/
def get (platform : Platform) (url owner : Text) : State :=
  let remote := platform.cacheableChatMediaUrl url
  if !isHttp remote then s
  else
    let key := previewMediaCacheKey platform owner remote
    match s.pending key with
    | some _ => s
    | none => s.launch key (mediaCacheLegacyKey owner remote)

/-- The part of `forget` and of `clear` up to their await. A run is pending under
its own key only. -/
def invalidate (keys : Option (Key × Key)) : State :=
  { s with
    runs := fun r =>
      if covers keys (s.runs r).key ∧ s.pending (s.runs r).key = some r then
        { s.runs r with valid := false }
      else s.runs r
    pending := fun key => if covers keys key then none else s.pending key
    memory := s.memory.filter fun entry => !covers keys entry.1
    tasks := s.tasks ++ [mutation keys]
    calls := s.calls ++ [{
      keys := keys
      before := s.started
      task := s.tasks.length
      stale := s.runIds.filter fun r =>
        covers keys (s.runs r).key && !(s.runs r).stage.isOver }] }

def forget (platform : Platform) (url owner : Text) : State :=
  let remote := platform.cacheableChatMediaUrl url
  if !isHttp remote then s
  else s.invalidate
    (some (previewMediaCacheKey platform owner remote, mediaCacheLegacyKey owner remote))

def clear : State := s.invalidate none

/-- The operation that a mutation starts with. A write and a touch ask for `valid`
here; a touch only changes the age of a row. -/
def opOf : Task → Op
  | .write r row => if (s.runs r).valid then .writing r row else .nothing
  | .touch _ => .nothing
  | .remove r key => .removing (some r) [key]
  | .forget key legacy => .removing none (if legacy ≠ key then [key, legacy] else [key])
  | .clear => .clearing

/-- A mutation starts. Runs that waited for those before it have continued. -/
def start : Option State :=
  match s.current, s.tasks[s.done]? with
  | none, some task =>
    if s.runIds.all fun r => (s.runs r).stage.queuedAt.all (s.done < ·) then
      some { s with current := some (s.opOf task) }
    else none
  | _, _ => none

/-- `storage.write` ends. It stores the row or fails to, and makes room by
removing rows of other keys. -/
def written (stored : Bool) (evicted : List Key) : Option State :=
  match s.current with
  | some (.writing r row) =>
    let key := (s.runs r).key
    let victims := evicted.filter (· ≠ key) ++ if stored then [key] else []
    some { s with
      current := some .nothing
      disk := fun k =>
        if k = key then
          if stored then some { producer := row.producer, bytes := row.bytes, blob := row.blob }
          else s.disk k
        else if evicted.contains k then none
        else s.disk k
      dropped := s.dropped ++
        victims.filterMap fun k => (s.disk k).map fun old => (r, old.producer) }
  | _ => none

/-- `storage.remove` ends. -/
def removed (ok : Bool) : Option State :=
  match s.current with
  | some (.removing who (key :: rest)) =>
    some { s with
      current := some (.removing who rest)
      disk := if ok then Function.update s.disk key none else s.disk
      voided := if ok then s.voided else s.voided ++ [s.done]
      dropped := s.dropped ++ if ok then
          who.toList.flatMap fun r => (s.disk key).toList.map fun old => (r, old.producer)
        else [] }
  | _ => none

/-- `storage.clear` ends. -/
def cleared (ok : Bool) : Option State :=
  match s.current with
  | some .clearing =>
    some { s with
      current := some .nothing
      disk := if ok then fun _ => none else s.disk
      voided := if ok then s.voided else s.voided ++ [s.done] }
  | _ => none

/-- A mutation resolves. Runs that waited for an earlier one have continued. -/
def finish : Option State :=
  if s.current.any Op.isIdle ∧
      s.runIds.all (fun r => (s.runs r).stage.awaits.all (s.done ≤ ·)) = true then
    some { s with current := none, done := s.done + 1 }
  else none

end State

inductive Action where
  | get (url owner : Text)
  | forget (url owner : Text)
  | clear
  | settled (run : Nat)
  | resume (run : Nat)
  | read (run : Nat) (ok : Bool)
  | validated (run : Nat) (fresh : Bool)
  | downloaded (run : Nat) (result : Option State.Download)
  | start
  | written (stored : Bool) (evicted : List Key)
  | removed (ok : Bool)
  | cleared (ok : Bool)
  | finish

def step (platform : Platform) (s : State) : Action → Option State
  | .get url owner => some (s.get platform url owner)
  | .forget url owner => some (s.forget platform url owner)
  | .clear => some s.clear
  | .settled r => s.settled r
  | .resume r => s.resume r
  | .read r ok => s.read r ok
  | .validated r fresh => s.validated r fresh
  | .downloaded r result => s.downloaded r result
  | .start => s.start
  | .written stored evicted => s.written stored evicted
  | .removed ok => s.removed ok
  | .cleared ok => s.cleared ok
  | .finish => s.finish

def noRun : Run := { key := ([], []), legacyKey := ([], []), valid := false, stage := .threw }

/-- The cache as it is built, over what earlier sessions stored. -/
def opened (disk : Key → Option Row) : State where
  started := 0
  runs := fun _ => noRun
  pending := fun _ => none
  memory := []
  tasks := []
  done := 0
  current := none
  disk := disk
  calls := []
  voided := []
  dropped := []
  downloads := []

def previewImageCache (platform : Platform) : Machine State Action where
  initial s := ∃ disk, (∀ key row, disk key = some row → row.producer = 0) ∧ s = opened disk
  step := step platform

end ImApp.PreviewCache
