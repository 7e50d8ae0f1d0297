import ImApp.Library.JsonText
import ImApp.Library.StepSystem
import Mathlib.Data.Rat.Defs
import Mathlib.Data.List.Lex

/-!
Visibility tombstones of the chat client. For each signed-in owner the client
keeps the smallest visible sequence number of each managed group, in memory and
in storage, and brings it up to date from the server in batches. A response is
taken as a whole or not at all, and only while the owner it was requested for is
still the one it was requested for.
-/

namespace ImApp.ChatClient

open JsonText (Text)
open StepSystem

/-- A member of an untyped row. Numbers that are not finite and values of other
types are of no use anywhere. -/
inductive RawValue where
  | text (text : Text)
  | number (value : ℚ)
  | other
  deriving DecidableEq

def maxSafeInteger : Nat := 9007199254740991

def digitsValue (digits : Text) : Nat :=
  digits.foldl (fun value digit => value * 10 + (digit.toNat - '0'.toNat)) 0

def safePositive (value : Nat) : Nat :=
  if value ≤ maxSafeInteger then value else 0

def positiveSafeInteger : RawValue → Nat
  | .number value => if value.den = 1 ∧ 0 < value.num then safePositive value.num.toNat else 0
  | .text digits =>
    if digits ≠ [] ∧ digits.all Char.isDigit = true then safePositive (digitsValue digits) else 0
  | .other => 0

/-- The value is the count that is read from it, as zero is. -/
def isCount (raw : RawValue) : Bool := raw = .number (positiveSafeInteger raw)

def isHexDigit (c : Char) : Bool := c.isDigit || ('a' ≤ c && c ≤ 'f')

def isRetentionGroup (id : Text) : Bool :=
  id.take 3 = "sg_".toList && id.length = 35 && (id.drop 3).all isHexDigit

def isOwner (owner : Text) : Bool :=
  0 < owner.length && owner.length ≤ 96 && owner.all (fun c => c.isAlphanum || c = '_' || c = '-')

structure RawRow where
  conversationId : RawValue
  minVisibleSeq : RawValue
  revision : RawValue
  updatedAt : RawValue
  deriving DecidableEq

def RawValue.asText : RawValue → Option Text
  | .text value => some value
  | _ => none

/-- `dateParses` tells which texts are dates. -/
def isState (dateParses : Text → Bool) (row : RawRow) : Bool :=
  row.conversationId.asText.any isRetentionGroup && isCount row.minVisibleSeq &&
    isCount row.revision && row.updatedAt.asText.any dateParses

/-- A row that was checked. -/
def Tombstone (dateParses : Text → Bool) : Type :=
  { row : RawRow // isState dateParses row = true }

variable {dateParses : Text → Bool}

instance : DecidableEq (Tombstone dateParses) := inferInstanceAs (DecidableEq { _row // _ })

def Tombstone.conversationId (tombstone : Tombstone dateParses) : Text :=
  tombstone.1.conversationId.asText.getD []

def Tombstone.minVisibleSeq (tombstone : Tombstone dateParses) : Nat :=
  positiveSafeInteger tombstone.1.minVisibleSeq

def Tombstone.revision (tombstone : Tombstone dateParses) : Nat :=
  positiveSafeInteger tombstone.1.revision

/-- Anything that is no object is no row. -/
def validState (row : Option RawRow) : Option (Tombstone dateParses) :=
  row.bind fun row => if h : isState dateParses row = true then some ⟨row, h⟩ else none

theorem validState_val (tombstone : Tombstone dateParses) :
    validState (some tombstone.1) = some tombstone := by
  rw [validState, Option.bind_some, dif_pos tombstone.2]
  rfl

/-- The tombstones in the order of their first rows, one for each group. -/
abbrev States (dateParses : Text → Bool) := List (Tombstone dateParses)

namespace States

def get (states : States dateParses) (id : Text) : Option (Tombstone dateParses) :=
  states.find? (fun row => row.conversationId = id)

def set (states : States dateParses) (row : Tombstone dateParses) : States dateParses :=
  if states.any (fun prev => prev.conversationId = row.conversationId) then
    states.map (fun prev => if prev.conversationId = row.conversationId then row else prev)
  else states ++ [row]

def minSeq (states : States dateParses) (id : Text) : Nat :=
  ((states.get id).map Tombstone.minVisibleSeq).getD 0

end States

def outdated (prev row : Tombstone dateParses) : Bool :=
  row.revision ≤ prev.revision || row.minVisibleSeq < prev.minVisibleSeq

/-- A row replaces an older one that does not show more. -/
def merge (states : States dateParses) (row : Tombstone dateParses) : States dateParses :=
  if (states.get row.conversationId).any (fun prev => outdated prev row) then states
  else states.set row

/-- The row was stored and hides more than before. -/
def advances (states : States dateParses) (row : Tombstone dateParses) : Bool :=
  match states.get row.conversationId with
  | none => true
  | some prev => !outdated prev row && prev.minVisibleSeq < row.minVisibleSeq

/-- What storage holds under the key of an owner, when it is an array. -/
abbrev Stored := Option (List (Option RawRow))

/-- A row of storage that is no tombstone is passed over. -/
def mergeStored (states : States dateParses) (row : Option RawRow) : States dateParses :=
  match validState row with
  | some tombstone => merge states tombstone
  | none => states

def load (stored : Stored) : States dateParses := (stored.getD []).foldl mergeStored []

def store (states : States dateParses) : Stored := some (states.map (fun row => some row.1))

structure Sync (dateParses : Text → Bool) where
  owner : Text
  generation : Nat
  states : States dateParses
  fetchedAt : Text → Option Nat

def Sync.fresh : Sync dateParses :=
  { owner := [], generation := 0, states := [], fetchedAt := fun _ => none }

def Sync.minSeq (sync : Sync dateParses) (id : Text) : Nat := sync.states.minSeq id

def setOwner (disk : Text → Stored) (owner : Text) (sync : Sync dateParses) : Sync dateParses :=
  if owner = sync.owner then sync
  else
    let owner := if isOwner owner then owner else []
    { owner
      generation := sync.generation + 1
      states := if owner = [] then [] else load (disk owner)
      fetchedAt := fun _ => none }

def syncInterval : Nat := 15000

def batchSize : Nat := 50

/-- The groups to ask for, sorted, each of them once. -/
def wanted (sync : Sync dateParses) (ids : List Text) (force : Bool) (now : Nat) : List Text :=
  (((ids.filter isRetentionGroup).eraseDups).filter
    (fun id => force || (match sync.fetchedAt id with
      | none => true
      | some at_ => syncInterval ≤ now - at_))).mergeSort (fun left right => left ≤ right)

def slices : Nat → List Text → List (List Text)
  | 0, _ => []
  | fuel + 1, ids => if ids = [] then [] else ids.take batchSize :: slices fuel (ids.drop batchSize)

/-- The rows of a response, when each of them is valid and asked for, and no two
are of one group. -/
def checkRows (ids : List Text) : List Text → List (Option RawRow) →
    Option (List (Tombstone dateParses))
  | _, [] => some []
  | seen, row :: rows => match validState row with
    | none => none
    | some tombstone =>
      if !ids.contains tombstone.conversationId || seen.contains tombstone.conversationId then none
      else (checkRows ids (tombstone.conversationId :: seen) rows).map
        (fun tombstones => tombstone :: tombstones)

/-- A failed request, or the items of its answer, when they are an array. -/
inductive Reply where
  | failed
  | items (rows : Stored)

def accepted (ids : List Text) : Reply → Option (List (Tombstone dateParses))
  | .failed => none
  | .items none => none
  | .items (some rows) => if rows.length > ids.length then none else checkRows ids [] rows

/-- A request under way. `owner` is the owner it was made for. -/
structure Task where
  ids : List Text
  generation : Nat
  owner : Text

/-- A call of `sync` and the batches it has yet to ask for. -/
structure Call where
  generation : Nat
  batches : List (List Text)

structure World (dateParses : Text → Bool) where
  sync : Sync dateParses
  disk : Text → Stored
  tasks : List Task
  calls : List Call

/-- The groups whose boundary a response moves on, for the listeners. -/
def changedGroups (states : States dateParses) : List (Tombstone dateParses) → List Text
  | [] => []
  | row :: rows => (if advances states row then [row.conversationId] else []) ++
      changedGroups (merge states row) rows

/-- Takes over a checked response. Memory is written back when a row was
stored, which then differs in its revision. -/
def commit (world : World dateParses) (ids : List Text) (rows : List (Tombstone dateParses))
    (now : Nat) : World dateParses :=
  let states := rows.foldl merge world.sync.states
  { world with
    sync := { world.sync with
      states
      fetchedAt := fun id => if ids.contains id then some now else world.sync.fetchedAt id }
    disk := if states = world.sync.states then world.disk
      else Function.update world.disk world.sync.owner (store states) }

/-- The answer to a request arrives. -/
def answer (world : World dateParses) (task : Task) (reply : Reply) (now : Nat) :
    World dateParses :=
  if task.generation ≠ world.sync.generation then world
  else match accepted task.ids reply with
    | none => world
    | some rows => commit world task.ids rows now

/-- Asks for the next batch of a call. A batch that is being asked for is not
asked for again. -/
def nextBatch (world : World dateParses) (call : Call) : World dateParses :=
  match call.batches with
  | [] => world
  | ids :: _ =>
    if call.generation ≠ world.sync.generation then world
    else if world.tasks.any (fun task => task.ids = ids && task.generation = call.generation) then
      world
    else { world with
      tasks := world.tasks ++ [⟨ids, world.sync.generation, world.sync.owner⟩] }

inductive Action where
  | setOwner (owner : Text)
  | sync (ids : List Text) (force : Bool) (now : Nat)
  | nextBatch (call : Nat)
  | answer (task : Nat) (reply : Reply) (now : Nat)
  | restart

def step (world : World dateParses) : Action → Option (World dateParses)
  | .setOwner owner => some { world with sync := setOwner world.disk owner world.sync }
  | .sync ids force now =>
    if world.sync.owner = [] then some world
    else
      let ids := wanted world.sync ids force now
      some { world with calls := world.calls ++ [⟨world.sync.generation, slices ids.length ids⟩] }
  | .nextBatch index =>
    world.calls[index]?.map fun call =>
      { nextBatch world call with
        calls := world.calls.set index { call with batches := call.batches.drop 1 } }
  | .answer index reply now =>
    world.tasks[index]?.map fun task =>
      { answer world task reply now with tasks := world.tasks.eraseIdx index }
  | .restart => some { world with sync := .fresh, tasks := [], calls := [] }

/-- A fresh process; storage may hold anything. -/
def machine (dateParses : Text → Bool) : Machine (World dateParses) Action where
  initial world := world.sync = .fresh ∧ world.tasks = [] ∧ world.calls = []
  step := step

end ImApp.ChatClient
