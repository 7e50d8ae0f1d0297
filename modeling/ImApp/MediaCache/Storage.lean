import ImApp.MediaCache.Answers

/-!
The files and blobs behind the rows. What a download does to the storage and what
it answers belong together; a removal that was asked for takes effect later, and a
download that has passed its deadline goes on by itself.
-/

namespace ImApp.MediaCache

open JsonText (Text)
open StepSystem (Machine)

/-- The stored names and the sizes of what they hold. -/
abbrev Files := Text → Option Nat

/-- The UTF-16 units of a text. -/
def units (text : Text) : List UInt32 :=
  text.flatMap fun c =>
    if c.toNat < 0x10000 then [c.val]
    else [0xd800 + (c.val - 0x10000) / 0x400, 0xdc00 + (c.val - 0x10000) % 0x400]

def hex8 (n : UInt32) : Text :=
  let digits := Nat.toDigits 16 n.toNat
  List.replicate (8 - digits.length) '0' ++ digits

def mediaCacheKey (url : Text) : Text :=
  let (hi, lo) := (units url).foldl
    (fun hash code => ((hash.1 ^^^ code) * 16777619, (hash.2 ^^^ code) * 2246822519))
    ((2166136261, 2166136261 ^^^ (units url).length.toUInt32) : UInt32 × UInt32)
  hex8 hi ++ hex8 lo

def dirRel : Text := "_doc/media_cache".toList

def imageExtensions : List Text :=
  ["jpg", "jpeg", "png", "gif", "webp", "heic"].map String.toList

/-- The extension of the path, or that of a photo. -/
def cacheFileExt (url : Text) : Text :=
  let path := url.takeWhile fun c => c ≠ '?' && c ≠ '#'
  let ext := (path.reverse.takeWhile fun c => c ≠ '.').reverse
  if path.contains '.' && imageExtensions.contains (ext.map Char.toLower) then ext.map Char.toLower
  else "jpg".toList

def appRel (key url : Text) : Text :=
  dirRel ++ ['/'] ++ mediaCacheKey key ++ ['.'] ++ cacheFileExt url

/-- What the network and the platform answer to a download. -/
structure Outcome where
  /-- A rejected promise: no storage, or a write that failed. -/
  threw : Bool
  /-- The bytes that arrived, nothing when the server refused. -/
  fetched : Option Nat
  /-- The request itself failed. -/
  unreachable : Bool
  /-- In the app the temporary file was copied. -/
  copied : Bool
  /-- The object address of a blob. -/
  blobPath : Text

namespace Files

def put (files : Files) (name : Text) (bytes : Nat) : Files :=
  Function.update files name (some bytes)

def remove (files : Files) (name : Text) : Files := Function.update files name none

end Files

def fetchBlob (files : Files) (identity : Text) (outcome : Outcome) : Files × StoreResult :=
  if outcome.unreachable then (files, .failed true)
  else match outcome.fetched with
    | none => (files, .failed false)
    | some bytes =>
      if !mediaCacheAcceptsSize bytes then (files, .failed true)
      else (files.put identity bytes, .stored outcome.blobPath identity bytes)

def storeH5 (files : Files) (identity legacyKey : Text) (outcome : Outcome) : Files × StoreResult :=
  match files identity with
  | some bytes =>
    if mediaCacheAcceptsSize bytes then (files, .stored outcome.blobPath identity bytes)
    else (files.remove identity, .failed true)
  | none =>
    if legacyKey = [] || legacyKey = identity then fetchBlob files identity outcome
    else match files legacyKey with
      | some bytes =>
        if !mediaCacheAcceptsSize bytes then (files.remove legacyKey, .failed true)
        else ((files.put identity bytes).remove legacyKey, .stored outcome.blobPath identity bytes)
      | none => fetchBlob files identity outcome

def storeApp (device : Device) (files : Files) (key url : Text) (outcome : Outcome) :
    Files × StoreResult :=
  match outcome.fetched with
  | none => (files, .failed false)
  | some bytes =>
    if !mediaCacheAcceptsSize bytes then (files, .failed true)
    else if !outcome.copied then (files, .failed false)
    else
      let stored := files.put (appRel key url) bytes
      let path := device.playableLocal (appRel key url)
      if path = [] then (stored, .failed false)
      else (stored, .stored path (appRel key url) bytes)

def storeRemote (device : Device) (files : Files) (download : Download) (outcome : Outcome) :
    Files × StoreResult :=
  if outcome.threw then (files, .failed true)
  else if device.isApp then storeApp device files download.key download.remote outcome
  else storeH5 files download.key download.legacyKey outcome

/-- The cache with its storage. `late` are the downloads that passed their deadline. -/
structure Stored where
  cache : Cache
  files : Files
  late : List Download

inductive Change where
  | cache (action : Action)
  | finish (download : Download) (outcome : Outcome) (now : Int)
  | deadline (download : Download) (now : Int)
  | late (download : Download) (outcome : Outcome)

/-- The actions of the cache that have no part in the storage, or a part that the
storage decides. -/
def isStorage : Action → Bool
  | .finish _ _ _ => true
  | _ => false

/-- What an action of the cache does to the files: a removal takes effect. -/
def filesAfter (files : Files) : Action → Files
  | .removed rel => files.remove rel
  | _ => files

def change (device : Device) (s : Stored) : Change → Option Stored
  | .cache action => if isStorage action then none
    else (step device s.cache action).map fun cache =>
      { s with cache := cache, files := filesAfter s.files action }
  | .finish download outcome now =>
    (step device s.cache (.finish download
      (storeRemote device s.files download outcome).2 now)).map fun cache =>
        { s with cache := cache, files := (storeRemote device s.files download outcome).1 }
  | .deadline download now =>
    (step device s.cache (.finish download (.failed false) now)).map fun cache =>
      { s with cache := cache, late := s.late ++ [download] }
  | .late download outcome =>
    if download ∈ s.late then
      some { s with
        files := (storeRemote device s.files download outcome).1
        late := s.late.erase download }
    else none

/-- The cache of a new page over whatever storage there is. -/
def mediaStore (device : Device) : Machine Stored Change where
  initial s := s.cache = started ∧ s.late = []
  step := change device

end ImApp.MediaCache
