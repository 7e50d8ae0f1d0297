import ImApp.Library.JsonRoundTrip
import ImApp.Library.UrlText

/-!
Media URLs in message content. `walk` goes through quote and merge snapshots and
through JSON that is spelled inside a string, and replaces the remote URLs in
the members that hold one. It keeps the names of members and the shape of what
it does not replace.
-/

namespace ImApp.Media

open JsonText (Text Json decode encode)
open UnicodeText (trimSpace toLower equalFold utf8Length)

def maxContentBytes : Nat := 64 * 1024

def urlFields : List Text :=
  ["url".toList, "sourceurl".toList, "snapshoturl".toList, "videourl".toList,
    "fileurl".toList, "soundurl".toList, "audiourl".toList, "downloadurl".toList,
    "path".toList, "videopath".toList, "snapshotpath".toList, "soundpath".toList,
    "audiopath".toList, "filepath".toList]

def remoteURL (text : Text) : Bool :=
  match UrlText.parse text with
  | none => false
  | some url =>
    (url.scheme = "https".toList || url.scheme = "http".toList) && url.host ≠ [] &&
      !url.user && url.fragment = []

/-- The two ways the content is gone through. `isText` tells of an object with a
`contentType` whether it is a text message; of several such members the one that
comes last in the order of a hash table decides, and that order is open. -/
structure Mode where
  rawContentURL : Bool
  isText : List (Text × Json) → Bool

def isContent (key : Text) : Bool := equalFold key "content".toList

def Mode.isURL (mode : Mode) (key : Text) : Bool :=
  urlFields.contains (toLower key) || (isContent key && mode.rawContentURL)

def Mode.isJSON (mode : Mode) (key : Text) : Bool :=
  mode.isURL key || isContent key || equalFold key "multiMessage".toList ||
    equalFold key "quoteMessage".toList

/-- The member is text whatever it holds. -/
def Mode.skips (mode : Mode) (fields : List (Text × Json)) (key : Text) : Bool :=
  !mode.rawContentURL && (equalFold key "textElem".toList || (mode.isText fields && isContent key))

def opensJSON : Text → Bool
  | [] => false
  | c :: _ => c = '{' || c = '[' || c = '"'

def maxCount : Nat := 64

/-- Goes through a list and passes on what was visited. -/
def walkAll {α β : Type} (step : α → List Text → Option (β × List Text)) :
    List α → List Text → Option (List β × List Text)
  | [], visited => some ([], visited)
  | item :: items, visited => (step item visited).bind fun (out, visited) =>
      (walkAll step items visited).map (fun (outs, visited) => (out :: outs, visited))

/-- The walk through `value` with `levels` levels left. `visited` lists the URLs
that were replaced so far, their number is the count of the walk. -/
def walk (mode : Mode) (replace : Text → Option Text) :
    Nat → Bool → Bool → Json → List Text → Option (Json × List Text)
  | 0, _, _, _, _ => none
  | levels + 1, isURL, parseJSON, value, visited => if visited.length > maxCount then none
    else match value with
      | .string text => if isURL && remoteURL (trimSpace text) then
          if visited.length + 1 > maxCount then none else (replace (trimSpace text)).map
            (fun out => (.string out, visited ++ [trimSpace text]))
        else if parseJSON && opensJSON (trimSpace text) then match decode (trimSpace text) with
          | some nested => (walk mode replace levels isURL parseJSON nested visited).map
              (fun (out, visited) => (.string (encode out), visited))
          | none => if mode.rawContentURL then none else some (.string text, visited)
        else some (.string text, visited)
      | .object fields => (walkAll (fun (field : Text × Json) visited =>
            if mode.skips fields field.1 then some (field, visited)
            else (walk mode replace levels (mode.isURL field.1) (mode.isJSON field.1)
                field.2 visited).map (fun (out, visited) => ((field.1, out), visited)))
          fields visited).map (fun (fields, visited) => (.object fields, visited))
      | .array items => (walkAll (walk mode replace levels isURL parseJSON) items visited).map
          (fun (items, visited) => (.array items, visited))
      | other => some (other, visited)

def maxLevels : Nat := 17

def textOf : Json → Option Text
  | .string text => some text
  | _ => none

/-- The rewritten content and the URLs in it, in the order of the walk. -/
def rewriteVisited (mode : Mode) (replace : Text → Option Text) (content : Text) :
    Option (Text × List Text) := do
  if utf8Length content > maxContentBytes then none
  let (out, visited) ← walk mode replace maxLevels mode.rawContentURL true (.string content) []
  let rewritten ← textOf out
  if utf8Length rewritten > maxContentBytes then none
  return (rewritten, visited)

/-- Every media URL counts, also one that stands as the bare content. -/
def rewriteMode : Mode := { rawContentURL := true, isText := fun _ => false }

def rewrite (content : Text) (replace : Text → Option Text) : Option (Text × Nat) :=
  (rewriteVisited rewriteMode replace content).map
    (fun (rewritten, visited) => (rewritten, visited.length))

/-- Quoted text stays text. -/
def forwardMode (isText : List (Text × Json) → Bool) : Mode := { rawContentURL := false, isText }

def rewriteForward (isText : List (Text × Json) → Bool) (content : Text)
    (replace : Text → Option Text) : Option (Text × Nat) :=
  (rewriteVisited (forwardMode isText) replace content).map
    (fun (rewritten, visited) => (rewritten, visited.length))

/-- The URLs of the content, each at its first place. -/
def URLs (content : Text) : Option (List Text) :=
  (rewriteVisited rewriteMode some content).map (fun (_, visited) => visited.eraseDups)

end ImApp.Media
