import ImApp.Media.RewriteEffects
import Mathlib.Algebra.Order.Ring.Int

/-!
The copies that an archive makes of the media of one snapshot: the source of each
is rewritten to the content network, fetched along its redirects, read into a
temporary file and stored under the hash of its bytes. The servers may answer
anything, and whatever else a copy waits for may fail.

The locations that media is archived from. A location is a scheme, a host and a
path that is exact or, with a slash at its end, a directory. Paths are compared
after their percent escapes are decoded.
-/

namespace ImApp.ArchiveDownload

open List Bool
open JsonText (Text)
open UrlText (Url)

def forbidden : List Char := ['%', '\\', '\x00', '\r', '\n']

def validURLPath (value : Text) : Bool :=
  (value.splitOn '/').all fun part =>
    part ≠ ".".toList && part ≠ "..".toList && part.all (fun c => !forbidden.contains c)

/-- What the bytes of a parsed URL say; `fold` gives the characters that differ in
case only one representative. -/
structure Location where
  url : Url
  path : Text
  rawQuery : Text
  rootless : Text

def parse (raw : Text) : Option Location :=
  match UrlText.parse raw, UrlText.path raw with
  | some url, some path =>
    some { url, path, rawQuery := UrlText.rawQuery raw, rootless := UrlText.rootless raw }
  | _, _ => none

def isWeb (scheme : Text) : Bool := scheme = "https".toList || scheme = "http".toList

/-- The checks of a URL before it is compared with the prefixes. -/
def Location.fetchable (u : Location) : Bool :=
  !u.url.user && u.url.fragment = [] && u.rootless = [] && isWeb u.url.scheme && validURLPath u.path

def sameHost (fold : Char → Char) (left right : Url) : Bool :=
  left.hostName.map fold = right.hostName.map fold

/-- The checks of a configured prefix `p` against a URL `u`. -/
def Location.comparable (fold : Char → Char) (p u : Location) : Bool :=
  p.url.scheme = u.url.scheme && sameHost fold p.url u.url && !p.url.user && p.rawQuery = [] &&
    p.url.fragment = [] && p.path ≠ [] && p.path ≠ "/".toList && validURLPath p.path

def Location.covers (p u : Location) : Bool :=
  (p.path.getLast? = some '/' && p.path.isPrefixOf u.path) || u.path = p.path

def allowedBy (fold : Char → Char) (u : Location) (scope : Text) : Bool :=
  match parse scope with
  | none => false
  | some p => p.comparable fold u && p.covers u

def allowed (fold : Char → Char) (prefixes : List Text) (raw : Text) : Bool :=
  match parse raw with
  | none => false
  | some u => u.fetchable && prefixes.any (allowedBy fold u)

/-- No segment goes up or stays, and no escape or line end is left in the path. -/
structure Plain (path : Text) : Prop where
  segments : ∀ part ∈ path.splitOn '/', part ≠ ".".toList ∧ part ≠ "..".toList
  characters : ∀ c ∈ path, c ∉ forbidden

/-- The URL `raw` lies at the location `scope` or, where that is a directory, in it. -/
def Under (fold : Char → Char) (scope raw : Text) : Prop :=
  ∃ p u, parse scope = some p ∧ parse raw = some u ∧
    isWeb u.url.scheme = true ∧ u.url.user = false ∧ u.url.fragment = [] ∧ u.rootless = [] ∧
    p.url.scheme = u.url.scheme ∧ p.url.hostName.map fold = u.url.hostName.map fold ∧
    p.path ≠ [] ∧ p.path ≠ "/".toList ∧ Plain p.path ∧ Plain u.path ∧
    (u.path = p.path ∨ p.path.getLast? = some '/' ∧ p.path <+: u.path)

theorem mem_intercalate {mark c : Char} {parts : List Text} (h : c ∈ [mark].intercalate parts) :
    c = mark ∨ ∃ part ∈ parts, c ∈ part := by
  induction parts with
  | nil => simp at h
  | cons part parts ih =>
    cases parts with
    | nil =>
      right
      exact ⟨part, mem_cons_self, by simpa using h⟩
    | cons next parts =>
      rw [intercalate_cons_cons] at h
      simp only [mem_append, mem_singleton] at h
      rcases h with (hpart | hmark) | hrest
      · exact .inr ⟨part, mem_cons_self, hpart⟩
      · exact .inl hmark
      rcases ih hrest with hmark | ⟨other, hother, hc⟩
      · exact .inl hmark
      exact .inr ⟨other, mem_cons_of_mem _ hother, hc⟩

theorem plain_of_validURLPath {value : Text} (h : validURLPath value = true) : Plain value := by
  simp only [validURLPath, all_eq_true, and_eq_true, decide_eq_true_eq] at h
  constructor
  · intro part hpart
    exact (h part hpart).1
  intro c hc
  rw [← @intercalate_splitOn Char value _ _ '/'] at hc
  rcases mem_intercalate hc with rfl | ⟨part, hpart, hmem⟩
  · decide
  have hnot := (h part hpart).2 c hmem
  simpa using hnot

theorem under_of_allowedBy {fold : Char → Char} {raw scope : Text} {u : Location}
    (hparse : parse raw = some u) (hu : u.fetchable = true)
    (h : allowedBy fold u scope = true) : Under fold scope raw := by
  rw [allowedBy] at h
  split at h
  · cases h
  case h_2 p hp =>
    simp only [Location.comparable, Location.covers, and_eq_true, or_eq_true,
      decide_eq_true_eq, sameHost, isPrefixOf_iff_prefix] at h
    simp only [Location.fetchable, and_eq_true, not_eq_true', decide_eq_true_eq] at hu
    obtain ⟨⟨⟨⟨⟨⟨⟨⟨hscheme, hhost⟩, -⟩, -⟩, -⟩, hne⟩, hroot⟩, hvalid⟩, hcovers⟩ := h
    obtain ⟨⟨⟨⟨huser, hfragment⟩, hrootless⟩, hweb⟩, hpath⟩ := hu
    exact ⟨p, u, hp, hparse, hweb, huser, hfragment, hrootless, hscheme, hhost, hne, hroot,
      plain_of_validURLPath hvalid, plain_of_validURLPath hpath, hcovers.symm⟩

theorem under_of_allowed {fold : Char → Char} {prefixes : List Text} {raw : Text}
    (h : allowed fold prefixes raw = true) : ∃ scope ∈ prefixes, Under fold scope raw := by
  rw [allowed] at h
  split at h
  · cases h
  case h_2 u hu =>
    rw [and_eq_true, any_eq_true] at h
    obtain ⟨hfetchable, scope, hscope, hby⟩ := h
    exact ⟨scope, hscope, under_of_allowedBy hu hfetchable hby⟩

end ImApp.ArchiveDownload

namespace ImApp.ArchiveDownload

open JsonText (Text)

def maxArchiveBytes : Int := 512 * 2 ^ 20

/-- A body that yields `available` bytes and ends there, in an error if it is
`broken`. Of the bytes only their number and their hash matter. -/
structure Body where
  available : Nat
  broken : Bool
  digest : Text

/-- A status, a length that is negative where it is unknown, and a body. -/
structure Response where
  status : Nat
  contentLength : Int
  body : Body

/-- What comes back for one request. The target of a redirect is the URL that its
location resolves to, none where it resolves to no URL. -/
inductive Reply where
  | failed
  | redirect (target : Option Text)
  | response (response : Response)

inductive Stat where
  | found (size : Int)
  | missing
  | failed

/-- The answers that one copy gets, each used where the copy comes to it. -/
structure Answers where
  beforeCopy : Bool
  replies : List Reply
  createTemp : Bool
  seek : Bool
  stat : Stat
  put : Bool
  statAfterPut : Stat

/-- The storage gives keys and URLs; `messageHash` is the hash of an identifier. -/
structure Archive where
  prefixes : List Text
  cdnRewrites : List Text
  fold : Char → Char
  messageHash : Text → Text
  newKey : Text → Option Text
  fileURL : Text → Text

def Archive.allowed (a : Archive) (raw : Text) : Bool :=
  ArchiveDownload.allowed a.fold a.prefixes raw

/-- The text before the first `->` and the text after it. -/
def cutArrow : Text → Option (Text × Text)
  | [] => none
  | '-' :: '>' :: rest => some ([], rest)
  | c :: rest => (cutArrow rest).map (fun (front, back) => (c :: front, back))

/-- A source that the rule matches, without the signature of its origin. A rule
that matches the whole source leaves it as it is. -/
def applyRule (raw rule : Text) : Option Text :=
  match cutArrow rule with
  | none => none
  | some (origin, network) =>
    if origin = [] ∨ network = [] ∨ ¬origin.isPrefixOf raw then none
    else
      let rest := (UrlText.cut '?' (raw.drop origin.length)).1
      some (if rest = [] then raw else network ++ rest)

def Archive.cdnSource (a : Archive) (raw : Text) : Text :=
  (a.cdnRewrites.findSome? (applyRule raw)).getD raw

def maxRequests : Nat := 4

/-- The requests that are sent from `url` on, after `via` others, and the response
that ends them. -/
def Archive.follow (a : Archive) (via : Nat) (url : Text) : List Reply → List Text × Option Response
  | .response response :: _ => ([url], some response)
  | .redirect (some target) :: replies =>
    if via + 1 ≥ maxRequests || !a.allowed target then ([url], none) else
      let (fetched, response) := a.follow (via + 1) target replies
      (url :: fetched, response)
  | _ => ([url], none)

/-- Reads up to one byte more than the limit. -/
def Body.read (body : Body) (limit : Int) : Int × Bool :=
  let size : Int := min body.available (limit + 1)
  (size, body.broken && (body.available : Int) ≤ limit)

def forbiddenInKey : List Char := ['\\', '%', '\x00', '\r', '\n', '?', '#']

def validStorageKey (key : Text) : Bool :=
  key ≠ [] && key.head? ≠ some '/' && key.all (fun c => !forbiddenInKey.contains c) &&
    (key.splitOn '/').all fun part => part ≠ [] && part ≠ ".".toList && part ≠ "..".toList

/-- Where the copies of a message are kept. -/
structure Target where
  nameSpace : Text
  userID : Text
  messageID : Text

/-- What a copy fetched and wrote to its temporary file, and the stable URL of what
it stored with its size. -/
structure Copied where
  fetched : List Text
  written : Int
  saved : Option (Text × Int)

/-- The parts are free of slashes and dots, so joining them cleans nothing. -/
def Archive.logicalKey (a : Archive) (target : Target) (digest : Text) : Text :=
  target.nameSpace ++ '/' :: target.userID ++ '/' :: (a.messageHash target.messageID).take 32 ++
    '/' :: digest

/-- Storing an object that may be there already, or that a retry puts meanwhile. -/
def Answers.stored (answers : Answers) (size : Int) : Bool :=
  match answers.stat with
  | .found present => present = size
  | .failed => false
  | .missing =>
    answers.put || (match answers.statAfterPut with
        | .found present => present = size
        | _ => false)

def Archive.store (a : Archive) (target : Target) (digest : Text) (size : Int)
    (answers : Answers) : Option (Text × Int) :=
  match a.newKey (a.logicalKey target digest) with
  | none => none
  | some key =>
    if a.fileURL key = [] then none
    else if answers.stored size then some (a.fileURL key, size) else none

/-- The body is taken if its bytes are as many as announced and fit the limit. -/
def Archive.take (a : Archive) (target : Target) (limit : Int) (answers : Answers)
    (response : Response) : Int × Option (Text × Int) :=
  if response.status ≠ 200 ∨ response.contentLength > limit then (0, none)
  else if !answers.createTemp then (0, none)
  else
    let (size, failed) := response.body.read limit
    if failed ∨ size ≤ 0 ∨ size > limit ∨
        (response.contentLength ≥ 0 ∧ size ≠ response.contentLength) then (size, none)
    else if !answers.seek then (size, none)
    else (size, a.store target response.body.digest size answers)

def Archive.copy (a : Archive) (target : Target) (source : Text) (limit : Int)
    (answers : Answers) : Copied :=
  if !validStorageKey target.userID || target.userID.contains '/' || limit ≤ 0 ||
      !a.allowed source then { fetched := [], written := 0, saved := none }
  else if !a.allowed (a.cdnSource source) || !answers.beforeCopy then
    { fetched := [], written := 0, saved := none }
  else match a.follow 0 (a.cdnSource source) answers.replies with
    | (fetched, none) => { fetched, written := 0, saved := none }
    | (fetched, some response) =>
      let (written, saved) := a.take target limit answers response
      { fetched, written, saved }

/-- What is left of the budget, the copies by their sources, and what was fetched,
written and copied so far by how many copies. -/
structure Download where
  remaining : Int
  cache : List (Text × Text)
  fetched : List Text
  written : Int
  copied : Int
  copies : Nat

def Download.start : Download where
  remaining := maxArchiveBytes
  cache := []
  fetched := []
  written := 0
  copied := 0
  copies := 0

/-- The replacement of one source; the copy of number `n` gets `answers n`. -/
def Archive.replace (a : Archive) (target : Target) (answers : Nat → Answers) (d : Download)
    (source : Text) : Download × Option Text :=
  match d.cache.lookup source with
  | some saved => (d, some saved)
  | none =>
    let result := a.copy target source d.remaining (answers d.copies)
    let d := { d with
      fetched := d.fetched ++ result.fetched
      written := d.written + result.written
      copies := d.copies + 1 }
    match result.saved with
    | none => (d, none)
    | some (saved, size) =>
      ({ d with
          remaining := d.remaining - size
          cache := (source, saved) :: d.cache
          copied := d.copied + size },
        some saved)

def Archive.preserve (a : Archive) (available : Bool) (target : Target) (answers : Nat → Answers)
    (mode : Media.Mode) (requireURL : Bool) (content : Text) : Download × Option Text :=
  if !available then (Download.start, none)
  else match Media.rewriteWith mode (a.replace target answers) content Download.start with
    | (d, none) => (d, none)
    | (d, some (rewritten, count)) =>
      (d, if requireURL && count = 0 then none else some rewritten)

def isMedia (kind : Text) : Bool :=
  ["image".toList, "voice".toList, "video".toList, "file".toList].contains kind

/-- `Preserve`, for favorites. -/
def Archive.preserveFavorite (a : Archive) (available : Bool) (userID messageID kind : Text)
    (answers : Nat → Answers) (content : Text) : Download × Option Text :=
  if !isMedia kind then (Download.start, some content)
  else a.preserve available { nameSpace := "favorites".toList, userID, messageID } answers
    Media.rewriteMode true content

/-- `PreserveForward`, which may have nothing to copy. -/
def Archive.preserveForward (a : Archive) (available : Bool) (userID messageID : Text)
    (answers : Nat → Answers) (isText : List (Text × JsonText.Json) → Bool) (content : Text) :
    Download × Option Text :=
  a.preserve available { nameSpace := "forwards".toList, userID, messageID } answers
    (Media.forwardMode isText) false content

end ImApp.ArchiveDownload
