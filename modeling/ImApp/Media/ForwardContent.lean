import ImApp.Media.Content

/-!
Validation of forwarded content. A message of a media or reference kind must
name a remote file for every media message in it, also below quotes and merges.
The validator here also returns the URLs it relied on, and a `Tracker` follows
the way to them.
-/

namespace ImApp.Media

open JsonText (Text Json decode)
open UnicodeText (trimSpace equalFold utf8Length)

/-- Follows a walk into the JSON of a string and into the member of an object. -/
structure Tracker (σ : Type) where
  decoded : σ → Text → σ
  member : σ → List (Text × Json) → Text → σ

def plain : Tracker Unit := { decoded := fun _ _ => (), member := fun _ _ _ => () }

/-- The results of all items in one list, when each has one. -/
def collect {α β : Type} (read : α → Option (List β)) : List α → Option (List β)
  | [] => some []
  | item :: items =>
    (read item).bind fun found => (collect read items).map (fun more => found ++ more)

section

variable {σ : Type} (t : Tracker σ)

def forwardElement (kind : Nat) : Option Text :=
  if kind = 102 then some "pictureElem".toList
  else if kind = 103 then some "soundElem".toList
  else if kind = 104 then some "videoElem".toList
  else if kind = 105 then some "fileElem".toList
  else if kind = 106 then some "atTextElem".toList
  else if kind = 107 then some "mergeElem".toList
  else if kind = 114 then some "quoteElem".toList
  else none

/-- A string that is JSON is read, at most `rounds` times. -/
def forwardDecoded : Nat → σ → Json → σ × Json
  | rounds + 1, place, .string raw => match decode raw with
    | some value => forwardDecoded rounds (t.decoded place raw) value
    | none => (place, .string raw)
  | _, place, value => (place, value)

def forwardFields (place : σ) (fields : List (Text × Json)) (name : Text) : List (σ × Json) :=
  (fields.filter (fun field => equalFold field.1 name)).map
    (fun field => (t.member place fields field.1, field.2))

def remoteItem : σ × Json → Option (σ × Text)
  | (place, .string raw) => if remoteURL (trimSpace raw) then some (place, raw) else none
  | _ => none

/-- The remote URLs under the first name that has one. -/
def forwardRemote (place : σ) (fields : List (Text × Json)) : List Text → Option (List (σ × Text))
  | [] => none
  | name :: names => match (forwardFields t place fields name).filterMap remoteItem with
    | [] => forwardRemote place fields names
    | found => some found

/-- The URL of one picture. -/
def forwardPicture (picture : σ × Json) : Option (List (σ × Text)) :=
  match forwardDecoded t 4 picture.1 picture.2 with
  | (place, .object fields) => forwardRemote t place fields ["url".toList]
  | _ => none

/-- Smaller pictures must have a URL, which is not the primary one. -/
def forwardThumbnails (place : σ) (fields : List (Text × Json)) (name : Text) :
    Option (List (σ × Text)) :=
  (collect (forwardPicture t) (forwardFields t place fields name)).map (fun _ => [])

def joined (left right : Option (List (σ × Text))) : Option (List (σ × Text)) :=
  left.bind fun found => right.map (fun more => found ++ more)

def validatePicture (place : σ) (fields : List (Text × Json)) : Option (List (σ × Text)) :=
  joined (match forwardFields t place fields "sourcePicture".toList with
      | [] => forwardRemote t place fields ["url".toList, "sourceUrl".toList]
      | pictures => collect (forwardPicture t) pictures)
    (joined (forwardThumbnails t place fields "bigPicture".toList)
      (forwardThumbnails t place fields "snapshotPicture".toList))

def validateSound (place : σ) (fields : List (Text × Json)) : Option (List (σ × Text)) :=
  forwardRemote t place fields
    ["sourceUrl".toList, "soundUrl".toList, "audioUrl".toList, "soundPath".toList,
      "audioPath".toList, "url".toList, "path".toList]

def validateVideo (place : σ) (fields : List (Text × Json)) : Option (List (σ × Text)) :=
  joined (forwardRemote t place fields ["videoUrl".toList, "videoPath".toList, "url".toList])
    (forwardRemote t place fields ["snapshotUrl".toList, "snapshotPath".toList])

def validateFile (place : σ) (fields : List (Text × Json)) : Option (List (σ × Text)) :=
  forwardRemote t place fields
    ["sourceUrl".toList, "fileUrl".toList, "downloadUrl".toList, "filePath".toList,
      "url".toList, "path".toList]

def digitsValue (digits : Text) : Nat :=
  digits.foldl (fun value digit => value * 10 + (digit.toNat - '0'.toNat)) 0

/-- The kind a `contentType` names. -/
def kindOf : Json → Option Nat
  | .number literal =>
    if literal.all Char.isDigit && 0 < digitsValue literal && digitsValue literal < 1000 then
      some (digitsValue literal) else none
  | _ => none

/-- All `contentType` members name one kind. -/
def messageKind : List (σ × Json) → Option Nat
  | [] => none
  | field :: fields => (kindOf field.2).bind fun kind =>
      if fields.all (fun field => kindOf field.2 = some kind) then some kind else none

def validateForwardMessage (validate : Nat → σ → Json → Option (List (σ × Text)))
    (message : σ × Json) : Option (List (σ × Text)) :=
  match forwardDecoded t 4 message.1 message.2 with
  | (place, .object fields) =>
    (messageKind (forwardFields t place fields "contentType".toList)).bind
      (fun kind => validate kind place (.object fields))
  | _ => none

def isNull : Json → Bool
  | .null => true
  | _ => false

/-- A mention may stand without a quote. -/
def validateQuotes (validate : Nat → σ → Json → Option (List (σ × Text))) (kind : Nat) (place : σ)
    (fields : List (Text × Json)) : Option (List (σ × Text)) :=
  match forwardFields t place fields "quoteMessage".toList with
  | [] => if kind = 114 then none else some []
  | quotes =>
    collect (fun quote =>
      if isNull quote.2 && kind = 106 then some []
      else validateForwardMessage t validate quote) quotes

def validateMerge (validate : Nat → σ → Json → Option (List (σ × Text))) (place : σ)
    (fields : List (Text × Json)) : Option (List (σ × Text)) :=
  match forwardFields t place fields "multiMessage".toList with
  | [] => none
  | lists =>
    collect (fun list =>
      match forwardDecoded t 4 list.1 list.2 with
      | (place, .array messages) =>
        if messages.isEmpty then none
        else collect (fun message => validateForwardMessage t validate (place, message)) messages
      | _ => none) lists

def validateElement (validate : Nat → σ → Json → Option (List (σ × Text))) (kind : Nat) (place : σ)
    (fields : List (Text × Json)) : Option (List (σ × Text)) :=
  if kind = 102 then validatePicture t place fields
  else if kind = 103 then validateSound t place fields
  else if kind = 104 then validateVideo t place fields
  else if kind = 105 then validateFile t place fields
  else if kind = 107 then validateMerge t validate place fields
  else validateQuotes t validate kind place fields

/-- The primary URLs of a message of `kind`, when it is valid. Payloads inside
the message are checked in its place. -/
def validateForwardValue : Nat → Nat → σ → Json → Option (List (σ × Text))
  | 0, _, _, _ => none
  | levels + 1, kind, place, value => match forwardElement kind with
    | none => some []
    | some name => match forwardDecoded t 4 place value with
      | (place, .object fields) => match forwardFields t place fields name ++
            forwardFields t place fields "content".toList with
        | [] => validateElement t (validateForwardValue levels) kind place fields
        | payloads => collect (fun payload => validateForwardValue levels kind payload.1 payload.2)
            payloads
      | _ => none

def forwardSources (start : σ) (kind : Nat) (content : Text) : Option (List (σ × Text)) :=
  if utf8Length content > maxContentBytes then none
  else validateForwardValue t maxLevels kind start (.string content)

end

/-- Whether the content is accepted. -/
def validateForwardContent (kind : Nat) (content : Text) : Bool :=
  (forwardSources plain () kind content).isSome

/-- The URLs the validation relied on. -/
def primaryURLs (kind : Nat) (content : Text) : List Text :=
  ((forwardSources plain () kind content).getD []).map Prod.snd

end ImApp.Media
