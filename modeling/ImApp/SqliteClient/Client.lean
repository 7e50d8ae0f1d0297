import Mathlib.Data.List.Basic
import Mathlib.Logic.Relation
import ImApp.Library.StepSystem

/-!
The SQLite client. Every call goes through a mutex that is a chain of promises,
unless the task that issues it carries the asynchronous context of a
transaction: then a statement is executed at once. A task hands its context to
every task it starts. What a task does between two calls is left open, so a run
is any interleaving of any tasks.
-/

namespace ImApp.SqliteClient

variable {D Sql : Type*}

/-- What is stored, and what was stored at BEGIN while a transaction is open. -/
structure Connection (D : Type*) where
  data : D
  atBegin : Option D
deriving DecidableEq

/-- The database behind the driver. Only a control statement opens or ends a
transaction. -/
structure Driver (D Sql : Type*) where
  execute : Sql → Connection D → Connection D
  control : Sql → Bool
  plain : ∀ sql c, control sql = false → (execute sql c).atBegin = c.atBegin

namespace Connection

variable (c : Connection D)

/-- Throws within a transaction. -/
def begin_ : Option (Connection D) :=
  match c.atBegin with
  | none => some { c with atBegin := some c.data }
  | some _ => none

/-- Throws without a transaction, and where the database does not accept it. -/
def commit (accepted : Bool) : Option (Connection D) :=
  match accepted, c.atBegin with
  | true, some _ => some { c with atBegin := none }
  | _, _ => none

def rollback : Connection D := ⟨c.atBegin.getD c.data, none⟩

end Connection

inductive Request (Sql : Type*) where
  | statement (sql : Sql)
  | backup
  | transaction
deriving DecidableEq

/-- What the mutex did for a call. `previous` is the tail it found. -/
inductive Stage where
  | queued (previous : Option Nat)
  | calling (callback : Nat)
  | releasing
  | finished
deriving DecidableEq

structure Call (Sql : Type*) where
  request : Request Sql
  context : Option Nat
  stage : Stage
deriving DecidableEq

inductive Awaited where
  | call (id : Nat)
  | task (id : Nat)
deriving DecidableEq

inductive Phase where
  | active
  | awaiting (node : Awaited)
  | settled (threw : Bool)
deriving DecidableEq

/-- `context` is the transaction in whose callback the task was started, of which
the client sees only whether there is one. -/
structure Task where
  context : Option Nat
  callbackOf : Option Nat
  phase : Phase
deriving DecidableEq

/-- What reached the connection, and the ends of the callbacks. -/
inductive Event (D : Type*) where
  | began (call : Nat) (data : D)
  | executed (call : Nat) (context : Option Nat)
  | settled (call : Nat) (threw : Bool)
  | committed (call : Nat)
  | rolledBack (call : Nat) (data : D)
deriving DecidableEq

structure State (D Sql : Type*) where
  connection : Connection D
  calls : List (Call Sql)
  tail : Option Nat
  tasks : List Task
  journal : List (Event D)
deriving DecidableEq

namespace State

variable (s : State D Sql)

/-- The promise a call left in the chain is resolved. -/
def finished (id : Nat) : Bool :=
  (s.calls[id]?).all (fun call => call.stage = .finished)

def resolved : Awaited → Bool
  | .call id => s.finished id
  | .task id => match s.tasks[id]? with
    | some ⟨_, _, .settled _⟩ => true
    | _ => false

def exists_ : Awaited → Bool
  | .call id => id < s.calls.length
  | .task id => id < s.tasks.length

def setStage (id : Nat) (stage : Stage) : State D Sql :=
  { s with calls := s.calls.modify id (fun call => { call with stage := stage }) }

def setPhase (id : Nat) (phase : Phase) : State D Sql :=
  { s with tasks := s.tasks.modify id (fun task => { task with phase := phase }) }

def log (event : Event D) : State D Sql := { s with journal := s.journal ++ [event] }

def newTask (context callbackOf : Option Nat) : State D Sql :=
  { s with tasks := s.tasks ++ [⟨context, callbackOf, .active⟩] }

/-- `AsyncMutex.run` up to its first await. -/
def run (request : Request Sql) (context : Option Nat) : State D Sql :=
  { s with
    calls := s.calls ++ [⟨request, context, .queued s.tail⟩]
    tail := some s.calls.length }

/-- A statement of a task that carries a context. -/
def executeNow (driver : Driver D Sql) (sql : Sql) (context : Option Nat) : State D Sql :=
  { s with
    connection := driver.execute sql s.connection
    calls := s.calls ++ [⟨.statement sql, context, .finished⟩]
    journal := s.journal ++ [.executed s.calls.length context] }

/-- `SqliteDatabaseClient.execute`, `backup` and what `transaction` returns. -/
def issue (driver : Driver D Sql) (context : Option Nat) : Request Sql → State D Sql
  | .statement sql =>
    if context.isSome then s.executeNow driver sql context else s.run (.statement sql) context
  | request => s.run request context

/-- What a call does when the promise before it is resolved. -/
def enter (driver : Driver D Sql) (id : Nat) (call : Call Sql) : State D Sql :=
  match call.request with
  | .statement sql =>
    (({ s with connection := driver.execute sql s.connection } : State D Sql).log
      (.executed id call.context)).setStage id .releasing
  | .backup => s.setStage id .releasing
  | .transaction => match s.connection.begin_ with
    | none => s.setStage id .releasing
    | some connection =>
      ((({ s with connection := connection } : State D Sql).log
        (.began id s.connection.data)).newTask (some id) (some id)).setStage id
          (.calling s.tasks.length)

/-- COMMIT after a callback that returned, ROLLBACK after one that threw and after
a COMMIT that failed. -/
def close (id : Nat) (threw accepted : Bool) : State D Sql :=
  match (if threw then none else s.connection.commit accepted) with
  | some connection =>
    (({ s with connection := connection } : State D Sql).log (.committed id)).setStage id .releasing
  | none =>
    (({ s with connection := s.connection.rollback } : State D Sql).log
      (.rolledBack id s.connection.rollback.data)).setStage id .releasing

/-- The task ends; the end of a callback is noted. -/
def settle (id : Nat) (task : Task) (threw : Bool) : State D Sql :=
  match task.callbackOf with
  | some call => (s.log (.settled call threw)).setPhase id (.settled threw)
  | none => s.setPhase id (.settled threw)

end State

/-- `arrive` starts a task from outside of every callback. -/
inductive Action (Sql : Type*) where
  | arrive
  | spawn (task : Nat)
  | issue (task : Nat) (request : Request Sql)
  | await (task : Nat) (node : Awaited)
  | wake (task : Nat)
  | settle (task : Nat) (threw : Bool)
  | enter (call : Nat)
  | close (call : Nat) (accepted : Bool)
  | release (call : Nat)
deriving DecidableEq

def step (driver : Driver D Sql) (s : State D Sql) : Action Sql → Option (State D Sql)
  | .arrive => some (s.newTask none none)
  | .spawn task => match s.tasks[task]? with
    | some ⟨context, _, .active⟩ => some (s.newTask context none)
    | _ => none
  | .issue task request => match s.tasks[task]? with
    | some ⟨context, _, .active⟩ => some (s.issue driver context request)
    | _ => none
  | .await task node => match s.tasks[task]? with
    | some ⟨_, _, .active⟩ =>
      if s.exists_ node then some (s.setPhase task (.awaiting node)) else none
    | _ => none
  | .wake task => match s.tasks[task]? with
    | some ⟨_, _, .awaiting node⟩ =>
      if s.resolved node then some (s.setPhase task .active) else none
    | _ => none
  | .settle task threw => match s.tasks[task]? with
    | some ⟨context, callbackOf, .active⟩ =>
      some (s.settle task ⟨context, callbackOf, .active⟩ threw)
    | _ => none
  | .enter id => match s.calls[id]? with
    | some ⟨request, context, .queued previous⟩ => if previous.all s.finished then
        some (s.enter driver id ⟨request, context, .queued previous⟩) else none
    | _ => none
  | .close id accepted => match s.calls[id]? with
    | some ⟨_, _, .calling callback⟩ => match s.tasks[callback]? with
      | some ⟨_, _, .settled threw⟩ => some (s.close id threw accepted)
      | _ => none
    | _ => none
  | .release id => match s.calls[id]? with
    | some ⟨_, _, .releasing⟩ => some (s.setStage id .finished)
    | _ => none

/-- A client over an open database, before its first call. -/
def machine (driver : Driver D Sql) : StepSystem.Machine (State D Sql) (Action Sql) where
  initial := fun s => s.connection.atBegin = none ∧ s.calls = [] ∧ s.tail = none ∧
    s.tasks = [] ∧ s.journal = []
  step := step driver

end ImApp.SqliteClient
