import ImApp.Library.InterleavedCalls
import ImApp.Library.KeepNewest
import Mathlib.Algebra.Order.Ring.Int

/-!
The pool of idle connections between its awaits. A resource is named by the
acquire whose `create` made it, and so is the entry that holds it. What the
options answer about a resource (whether it is usable, whether an invalidation
matches it) may be different at each call.
-/

namespace ImApp.ConnectionPool

open InterleavedCalls (Service)

variable {κ : Type} [DecidableEq κ]

structure Options where
  idleMs : Option Int
  maxIdlePerKey : Option Nat

def connectionReuseIdleMs : Int := 60000

def Options.idle (options : Options) : Int :=
  max 1000 (options.idleMs.getD connectionReuseIdleMs)

def Options.maxIdle (options : Options) : Nat := max 1 (options.maxIdlePerKey.getD 2)

structure Entry (κ : Type) where
  key : κ
  busy : Bool
  invalid : Bool
  idleSince : Int

/-- A resource was given to a caller when so many invalidations had come. -/
structure Handout where
  resource : Nat
  generation : Nat

/-- What an invalidation met and what it selected. -/
structure Invalidation where
  matched : Bool
  pooled : List Nat
  selected : List Nat

/-- The entry objects exist beside the set of those that are pooled: a lease
keeps its own. The last six fields record what happened and decide nothing: the
resources made and those disposed of, the generation in which each creation
began, the unreleased lease of each resource, the hand-outs and the
invalidations. -/
structure Pool (κ : Type) where
  entries : List Nat
  objects : Nat → Entry κ
  generation : Nat
  timer : Bool
  disposing : List Nat
  disposed : List Nat
  created : List Nat
  began : Nat → Nat
  holder : Nat → Option Nat
  handed : List Handout
  invalidations : List Invalidation

namespace Pool

variable (pool : Pool κ)

def setEntry (n : Nat) (entry : Entry κ) : Pool κ :=
  { pool with objects := Function.update pool.objects n entry }

def remove (n : Nat) : Pool κ :=
  if n ∈ pool.entries then
    { pool with
      entries := pool.entries.erase n
      disposing := pool.disposing ++ [n]
      disposed := pool.disposed ++ [n] }
  else pool

def removeAll (ns : List Nat) : Pool κ := ns.foldl remove pool

def expired (options : Options) (now : Int) (usable : Nat → Bool) : List Nat :=
  pool.entries.filter fun n =>
    !(pool.objects n).busy && ((pool.objects n).invalid ||
      decide ((pool.objects n).idleSince ≤ now - options.idle) || !usable n)

def cleanup (options : Options) (now : Int) (usable : Nat → Bool) : Pool κ :=
  pool.removeAll (pool.expired options now usable)

def isIdle (key : κ) (n : Nat) : Bool := decide ((pool.objects n).key = key) && !(pool.objects n).busy

/-- The entries of a key that may be handed out, the one released last first. -/
def idleForKey (key : κ) : List Nat :=
  KeepNewest.newestFirst (fun n => (pool.objects n).idleSince)
    (pool.entries.filter fun n => pool.isIdle key n && !(pool.objects n).invalid)

def existing (key : κ) (usable : Nat → Bool) : Option Nat :=
  (KeepNewest.newestFirst (fun n => (pool.objects n).idleSince) (pool.entries.filter fun n =>
      pool.isIdle key n && !(pool.objects n).invalid && usable n)).head?

def create (n : Nat) (key : κ) (now : Int) : Pool κ :=
  { pool.setEntry n ⟨key, false, false, now⟩ with entries := pool.entries ++ [n] }

/-- The entry is busy, and the call has its lease. -/
def lease (n call : Nat) : Pool κ :=
  { pool.setEntry n { pool.objects n with busy := true } with
    holder := Function.update pool.holder n (some call)
    handed := pool.handed ++ [⟨n, pool.generation⟩] }

/-- The part of `release` before it looks at the entry again. -/
def giveBack (n : Nat) (invalid : Bool) (now : Int) : Pool κ :=
  { pool.setEntry n { pool.objects n with busy := false, invalid := invalid, idleSince := now } with
    holder := Function.update pool.holder n none }

def release (options : Options) (key : κ) (n : Nat) (discard : Bool) (now : Int)
    (usable : Nat → Bool) : Pool κ :=
  let invalid := (pool.objects n).invalid || discard || !usable n
  let returned := pool.giveBack n invalid now
  if invalid then returned.remove n
  else returned.removeAll ((returned.idleForKey key).drop options.maxIdle)

/-- The entries that `match` is true of, or all of them where it is absent. -/
def selected (choose : Option (κ → Nat → Bool)) : List Nat :=
  pool.entries.filter fun n =>
    match choose with
    | none => true
    | some test => test (pool.objects n).key n

/-- The entries selected are invalid, and creations in progress are of the past. -/
def mark (choose : Option (κ → Nat → Bool)) : Pool κ :=
  let selected := pool.selected choose
  let record : Invalidation := ⟨choose.isSome, pool.entries, selected⟩
  { pool with
    generation := pool.generation + 1
    objects := fun n =>
      if n ∈ selected then { pool.objects n with invalid := true } else pool.objects n
    invalidations := pool.invalidations ++ [record] }

def invalidate (choose : Option (κ → Nat → Bool)) : Pool κ :=
  (pool.mark choose).removeAll (pool.selected choose)

def close : Pool κ := ({ pool with timer := false } : Pool κ).invalidate none

/-- The resource of a creation that an invalidation came in between of. -/
def disposeLate (n : Nat) : Pool κ :=
  { pool with
    disposing := pool.disposing ++ [n]
    disposed := pool.disposed ++ [n] }

end Pool

/-- Where an acquire stands, and then its lease. -/
inductive Stage where
  | asked
  | cleaning (waits : List Nat)
  | creating (generation : Nat)
  | disposing
  | failed (error : String)
  | leased (entry : Nat) (reused : Bool)
  | released

structure Call (κ : Type) where
  key : κ
  stage : Stage

/-- The unreleased lease of a call. -/
def Stage.lease : Stage → Option Nat
  | leased entry _ => some entry
  | _ => none

/-- The call has not got an answer from `create`. -/
def Stage.isEarly : Stage → Bool
  | asked | cleaning _ | creating _ => true
  | _ => false

def invalidatedError : String := "连接在建立期间已失效，请重试"

/-- What the next part of a call depends on beside the pool. -/
inductive Choice where
  | cleanup (now : Int) (usable : Nat → Bool)
  | pick (usable : Nat → Bool)
  | created (now : Int)
  | threw (error : String)
  | disposed
  | release (discard : Bool) (now : Int) (usable : Nat → Bool)

inductive Event (κ : Type) where
  | invalidate (choose : Option (κ → Nat → Bool))
  | close
  | cleanup (now : Int) (usable : Nat → Bool)
  | settle (n : Nat)

def advance (options : Options) (id : Nat) (pool : Pool κ) (call : Call κ) :
    Choice → Option (Pool κ × Option (Call κ))
  | .cleanup now usable => match call.stage with
    | .asked => let waits := pool.expired options now usable
      some (pool.cleanup options now usable, some { call with stage := .cleaning waits })
    | _ => none
  | .pick usable =>
    match call.stage with
    | .cleaning waits =>
      if waits.any pool.disposing.contains then none
      else match pool.existing call.key usable with
        | some n => some (pool.lease n id, some { call with stage := .leased n true })
        | none =>
          some ({ pool with began := Function.update pool.began id pool.generation },
            some { call with stage := .creating pool.generation })
    | _ => none
  | .created now =>
    match call.stage with
    | .creating generation =>
      let made : Pool κ := { pool with created := pool.created ++ [id] }
      if generation ≠ pool.generation then
        some (made.disposeLate id, some { call with stage := .disposing })
      else some ((made.create id call.key now).lease id id,
        some { call with stage := .leased id false })
    | _ => none
  | .threw error =>
    match call.stage with
    | .creating _ => some (pool, some { call with stage := .failed error })
    | _ => none
  | .disposed =>
    match call.stage with
    | .disposing =>
      if pool.disposing.contains id then none
      else some (pool, some { call with stage := .failed invalidatedError })
    | _ => none
  | .release discard now usable =>
    match call.stage with
    | .leased n _ =>
      some (pool.release options call.key n discard now usable,
        some { call with stage := .released })
    | .released => some (pool, some call)
    | _ => none

def world (options : Options) (pool : Pool κ) : Event κ → Option (Pool κ)
  | .invalidate choose => some (pool.invalidate choose)
  | .close => some pool.close
  | .cleanup now usable => if pool.timer then some (pool.cleanup options now usable) else none
  | .settle n =>
    if n ∈ pool.disposing then some { pool with disposing := pool.disposing.erase n } else none

/-- A pool that was just made. -/
structure Pool.IsNew (pool : Pool κ) : Prop where
  entries : pool.entries = []
  generation : pool.generation = 0
  timer : pool.timer = true
  disposing : pool.disposing = []
  disposed : pool.disposed = []
  created : pool.created = []
  holder : ∀ n, pool.holder n = none
  handed : pool.handed = []
  invalidations : pool.invalidations = []

def idleResourcePool (options : Options) : Service (Pool κ) (Call κ) Choice (Event κ) where
  initial pool := pool.IsNew
  opens call := match call.stage with
    | .asked => true
    | _ => false
  advance := advance options
  world := world options

end ImApp.ConnectionPool
