import ImApp.Library.StepSystem
import ImApp.MediaCache.Rows
import ImApp.PreviewCache.Identity
import Mathlib.Data.Finset.Card

/-!
The cache of chat media and its download queue. The requests in the foreground
are served before those in the background, and the newest of each first; the two
arrays of the code are kept here with their last element first. A callback is
named by the number of its request.
-/

namespace ImApp.MediaCache

open JsonText (Text)
open PreviewCache (Platform isHttp)
open StepSystem (Machine)

def backgroundSlots : Nat := 1

/-- What the cache is told about where it runs. -/
structure Device where
  platform : Platform
  mediaCacheEnabled : Bool
  isApp : Bool
  isIOS : Bool
  playableLocal : Text → Text

def Device.limit (device : Device) : Nat := if device.isIOS then 4 else 6

/-- What a request does once the index is read. -/
structure Continuation where
  key : Text
  background : Bool
  deriving DecidableEq

/-- A call of `storeRemote` under its deadline. -/
structure Download where
  key : Text
  remote : Text
  legacyKey : Text
  background : Bool
  deriving DecidableEq

inductive Ready where
  | unasked
  | loading
  | loaded
  deriving DecidableEq

/-- The variables of the module and the promises that are not settled. `removals`
are the names that the cache has asked its storage to remove. The last two fields
record what happened: the requests that returned true and the calls of their
callbacks. -/
structure Cache where
  rows : Rows
  remoteUrls : Text → Option Text
  skipped : Text → Bool
  listeners : Text → Option (List Nat)
  queued : Finset Text
  order : List Text
  waiting : Finset Text
  backlog : List Text
  inflight : Finset Text
  backgroundInflight : Finset Text
  ready : Ready
  continuations : List Continuation
  downloads : List Download
  removals : List Text
  accepted : Nat
  answers : List (Nat × Text)

/-- How a download ends. Its deadline is a failure that may be tried again. -/
inductive StoreResult where
  | stored (path rel : Text) (bytes : Nat)
  | failed (skip : Bool)

namespace Cache

def deliver (c : Cache) (key path : Text) : Cache :=
  { c with
    listeners := Function.update c.listeners key none
    queued := c.queued.erase key
    answers := c.answers ++ ((c.listeners key).getD []).map fun callback => (callback, path) }

def fail (c : Cache) (key : Text) : Cache := c.deliver key []

/-- What `pump` does with a key that it took from a queue. -/
def start (c : Cache) (key : Text) (background : Bool) : Cache :=
  if (c.listeners key).isNone then c
  else
    let remote := (c.remoteUrls key).getD []
    if remote = [] then c.fail key
    else { c with
      inflight := insert key c.inflight
      backgroundInflight :=
        if background then insert key c.backgroundInflight else c.backgroundInflight
      downloads := c.downloads ++ [⟨key, remote, c.rows.rel key, background⟩] }

/-- One turn of the loop of `pump`, nothing where it ends. -/
def pumpStep (limit : Nat) (c : Cache) : Option Cache :=
  if limit ≤ c.inflight.card then none
  else match c.order with
    | key :: rest =>
      some (({ c with order := rest, queued := c.queued.erase key } : Cache).start key false)
    | [] =>
      if backgroundSlots ≤ c.backgroundInflight.card then none
      else match c.backlog with
        | [] => none
        | key :: rest =>
          some (({ c with backlog := rest, waiting := c.waiting.erase key } : Cache).start key true)

def pumpLoop (limit : Nat) : Nat → Cache → Cache
  | 0, c => c
  | fuel + 1, c => match c.pumpStep limit with
    | none => c
    | some next => pumpLoop limit fuel next

/-- Each turn takes a key from a queue. -/
def pump (limit : Nat) (c : Cache) : Cache :=
  c.pumpLoop limit (c.order.length + c.backlog.length + 1)

def enqueue (limit : Nat) (c : Cache) (key : Text) (background : Bool) : Cache :=
  if key ∈ c.inflight ∨ c.rows.path key ≠ [] then c
  else if background then
    if key ∈ c.queued ∨ key ∈ c.waiting then c
    else ({ c with
      waiting := insert key c.waiting
      backlog := key :: c.backlog } : Cache).pump limit
  else
    let backlog := if key ∈ c.waiting then c.backlog.erase key else c.backlog
    let order := if key ∈ c.queued then c.order.erase key else c.order
    ({ c with
      waiting := c.waiting.erase key
      backlog := backlog
      queued := insert key c.queued
      order := key :: order } : Cache).pump limit

/-- The row of a key goes, and its file is to be removed. -/
def discard (c : Cache) (key : Text) : Cache :=
  { c with
    rows := c.rows.delete key
    remoteUrls := Function.update c.remoteUrls key none
    removals := c.removals ++ [c.rows.rel key].filter (· ≠ []) }

def remember (c : Cache) (key path rel : Text) (bytes : Nat) (now : Int) : Cache :=
  let evicted := (pickCacheEvictions c.rows bytes).foldl discard c
  { evicted with
    remoteUrls := Function.update evicted.remoteUrls key none
    rows := evicted.rows.set key ⟨path, rel, bytes, now⟩ }

def finishStore (limit : Nat) (c : Cache) (key : Text) (result : StoreResult) (now : Int) : Cache :=
  let landed : Cache := { c with
    inflight := c.inflight.erase key
    backgroundInflight := c.backgroundInflight.erase key }
  match result with
  | .failed skip =>
    (({ landed with
      skipped := if skip then Function.update c.skipped key true else c.skipped
      remoteUrls := Function.update c.remoteUrls key none } : Cache).fail key).pump limit
  | .stored path rel bytes =>
    ((landed.remember key path rel bytes now).deliver key path).pump limit

def ensureReady (c : Cache) : Cache :=
  { c with ready := if c.ready = .unasked then .loading else c.ready }

def resetMediaCacheQueue (c : Cache) : Cache :=
  let dropped := c.order.reverse ++ c.backlog.reverse
  let cleared : Cache := { c with order := [], backlog := [], queued := ∅, waiting := ∅ }
  dropped.foldl (fun c key =>
    let forgotten : Cache := { c with remoteUrls := Function.update c.remoteUrls key none }
    if key ∈ c.inflight then forgotten else forgotten.fail key) cleared

variable (device : Device)

def keyOf (url : Text) : Text :=
  let remote := device.platform.cacheableChatMediaUrl url
  device.platform.mediaCacheIdentity (if remote = [] then url else remote)

def forgetMediaCache (c : Cache) (url : Text) : Cache :=
  let key := keyOf device url
  let forgotten : Cache := { c with
    remoteUrls := Function.update c.remoteUrls key none
    skipped := Function.update c.skipped key false }
  if (c.rows.lookup key).isNone then forgotten else forgotten.discard key

/-- The callback of a request waits, and the request goes on once the index is read. -/
def listen (c : Cache) (key : Text) (background : Bool) : Cache :=
  { c.ensureReady with
    listeners := Function.update c.listeners key (some ((c.listeners key).getD [] ++ [c.accepted]))
    continuations := c.continuations ++ [⟨key, background⟩]
    accepted := c.accepted + 1 }

/-- The callback of a request is called at once. -/
def answerNow (c : Cache) (key : Text) (hit : Row) (now : Int) : Cache :=
  { c with
    rows := c.rows.set key { hit with usedAt := now }
    answers := c.answers ++ [(c.accepted, hit.path)]
    accepted := c.accepted + 1 }

/-- The cache after a request, and whether its callback will be called. -/
def requestMediaCache (c : Cache) (url : Text) (background : Bool) (now : Int) : Cache × Bool :=
  if !device.mediaCacheEnabled then (c, false)
  else
    let remote := device.platform.cacheableChatMediaUrl url
    let key := device.platform.mediaCacheIdentity remote
    if key = [] || !isHttp remote || c.skipped key then (c, false)
    else
      let known : Cache := { c with remoteUrls := Function.update c.remoteUrls key (some remote) }
      match c.rows.lookup key with
      | some hit =>
        if hit.path ≠ [] then (known.answerNow key hit now, true)
        else (known.listen key background, true)
      | none => (known.listen key background, true)

/-- An item of the stored index. -/
structure Item where
  url : Text
  rel : Text
  bytes : Nat
  usedAt : Int

/-- The rows of an index. In the app a row needs a path that can be played; on the
web its path is set when its blob is read. -/
def applyIndex (rows : Rows) (items : List Item) : Rows :=
  items.foldl (fun rows item =>
    let key := device.platform.mediaCacheIdentity item.url
    let path := if device.isApp then device.playableLocal item.rel else []
    if key = [] || (device.isApp && (item.rel = [] || path = [])) ||
        !mediaCacheAcceptsSize item.bytes then rows
    else rows.set key ⟨path, item.rel, item.bytes, item.usedAt⟩) rows

/-- The index was read, or it could not be. -/
def loadIndex (c : Cache) (items : Option (List Item)) : Cache :=
  { c with
    ready := .loaded
    rows := match items with
      | some items => applyIndex device c.rows items
      | none => [] }

/-- A request goes on. -/
def proceed (c : Cache) (continuation : Continuation) : Cache :=
  if c.rows.path continuation.key ≠ [] then
    c.deliver continuation.key (c.rows.path continuation.key)
  else c.enqueue device.limit continuation.key continuation.background

end Cache

inductive Action where
  | request (url : Text) (background : Bool) (now : Int)
  | warm
  | forget (url : Text)
  | reset
  | loaded (items : Option (List Cache.Item))
  | proceed (continuation : Continuation)
  | finish (download : Download) (result : StoreResult) (now : Int)
  | removed (rel : Text)

def step (device : Device) (c : Cache) : Action → Option Cache
  | .request url background now => some (c.requestMediaCache device url background now).1
  | .warm => some (if device.mediaCacheEnabled then c.ensureReady else c)
  | .forget url => some (c.forgetMediaCache device url)
  | .reset => some c.resetMediaCacheQueue
  | .loaded items => if c.ready = .loading then some (c.loadIndex device items) else none
  | .proceed continuation => if c.ready = .loaded ∧ continuation ∈ c.continuations then
      some (({ c with continuations := c.continuations.erase continuation } : Cache).proceed
        device continuation)
    else none
  | .finish download result now =>
    if download ∈ c.downloads then
      some (({ c with downloads := c.downloads.erase download } : Cache).finishStore
        device.limit download.key result now)
    else none
  | .removed rel =>
    if rel ∈ c.removals then some { c with removals := c.removals.erase rel } else none

def started : Cache where
  rows := []
  remoteUrls _ := none
  skipped _ := false
  listeners _ := none
  queued := ∅
  order := []
  waiting := ∅
  backlog := []
  inflight := ∅
  backgroundInflight := ∅
  ready := .unasked
  continuations := []
  downloads := []
  removals := []
  accepted := 0
  answers := []

def mediaCache (device : Device) : Machine Cache Action where
  initial c := c = started
  step := step device

end ImApp.MediaCache
