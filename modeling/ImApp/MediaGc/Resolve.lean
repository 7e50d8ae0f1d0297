import ImApp.Retention.Snapshot
import Mathlib.Data.Rat.Defs
import ImApp.Library.UrlText

/-!
The object keys that the garbage collector owns: everything below one namespace,
in the spelling that the upload service gives out.
-/

namespace ImApp.MediaGc

open ImApp.Retention (lowerHex)
open JsonText (Text)

def managedNamespace : Text := "managed-v1/openim/".toList

def keyChar (c : Char) : Bool := c.isAlphanum || c = '_' || c = '.' || c = '/' || c = '-'

def hashName (name : Text) : Bool := name.length = 32 && name.all lowerHex

def plainName (name : Text) : Bool := name ≠ [] && name.all keyChar

/-- The regular expression of the source. Its three alternatives start
differently. -/
def safeKey (key : Text) : Bool :=
  match key.dropPrefix? managedNamespace with
  | none => false
  | some rest =>
    (rest.dropPrefix? "data/hash/".toList).any hashName ||
      (rest.dropPrefix? "direct/".toList).any plainName ||
      (rest.dropPrefix? "temp/".toList).any plainName

def unsafeChars : Text := ['%', '\\', '?', '#', ':', '\x00', '\r', '\n']

def Managed (key : Text) : Bool :=
  safeKey key && !key.any unsafeChars.contains && (key.splitOn '/').all fun segment =>
      segment ≠ [] && segment ≠ ['.'] && segment ≠ ['.', '.']

end ImApp.MediaGc

/-!
The managed media that a message names. Every text of the content is scanned for
references: the content itself, the strings and keys of the JSON value it holds,
and the same again in each of these. A reference is a word that starts like a URL,
a path or a key, and the path of the reference decides which key it is.
-/

namespace ImApp.MediaGc

open JsonText (Text Json)

mutual

/-- The strings of a value, keys included. -/
def valueStrings : Json → List Text
  | .null => []
  | .bool _ => []
  | .number _ => []
  | .string text => [text]
  | .array items => itemStrings items
  | .object fields => fieldStrings fields

def itemStrings : List Json → List Text
  | [] => []
  | item :: items => valueStrings item ++ itemStrings items

def fieldStrings : List (Text × Json) → List Text
  | [] => []
  | field :: fields => memberStrings field ++ fieldStrings fields

def memberStrings : Text × Json → List Text
  | (key, value) => key :: valueStrings value

end

mutual

def valueNumbers : Json → List Text
  | .null => []
  | .bool _ => []
  | .number literal => [literal]
  | .string _ => []
  | .array items => itemNumbers items
  | .object fields => fieldNumbers fields

def itemNumbers : List Json → List Text
  | [] => []
  | item :: items => valueNumbers item ++ itemNumbers items

def fieldNumbers : List (Text × Json) → List Text
  | [] => []
  | field :: fields => memberNumbers field ++ fieldNumbers fields

def memberNumbers : Text × Json → List Text
  | (_, value) => valueNumbers value

end

def digitsValue (digits : Text) : Nat :=
  digits.foldl (fun n c => n * 10 + (c.toNat - '0'.toNat)) 0

/-- The size of a number literal. -/
def literalSize (literal : Text) : Rat :=
  let isExponent := fun c => c = 'e' || c = 'E'
  let body := literal.takeWhile fun c => !isExponent c
  let exponent := (literal.dropWhile fun c => !isExponent c).drop 1
  let places := ((body.dropWhile fun c => c ≠ '.').drop 1).length
  let size : Rat := digitsValue (body.filter Char.isDigit) / 10 ^ places
  let power := digitsValue (exponent.filter Char.isDigit)
  if exponent.head? = some '-' then size / 10 ^ power else size * 10 ^ power

/-- The least number that rounds to infinity. -/
def overflowBound : Nat := (2 ^ 54 - 1) * 2 ^ 970

/-- A number that is no finite float is an error of the decoder. -/
def isFloat (literal : Text) : Bool := literalSize literal < overflowBound

def unmarshal (text : Text) : Option Json :=
  (JsonText.decode text).filter fun value => (valueNumbers value).all isFloat

def innerTexts (text : Text) : List Text :=
  match unmarshal text with
  | some value => valueStrings value
  | none => []

/-- White space, angle brackets, quotes and the backslash end a reference. -/
def isStop (c : Char) : Bool :=
  c = ' ' || c = '\t' || c = '\n' || c = '\x0c' || c = '\r' || c = '<' || c = '>' || c = '"' ||
    c = '\'' || c = '\\'

def physicalPrefix : Text := "im-app-production/chat/".toList

def objectPath : Text := "/object/".toList

/-- The text goes on after `head`. -/
def follows (head text : Text) : Bool := head.isPrefixOf text && head.length < text.length

/-- The alternatives of the source's regular expression, of which the first does
not depend on the case. -/
def startsReference (text : Text) : Bool :=
  follows "http://".toList (text.map UnicodeText.foldChar) ||
    follows "https://".toList (text.map UnicodeText.foldChar) ||
    follows objectPath text || follows ('/' :: physicalPrefix) text ||
    follows physicalPrefix text || follows managedNamespace text

/-- The leftmost match in a word. A match goes on to the end of its word. -/
def wordReference (word : Text) : Option Text := word.tails.find? startsReference

def urlTokens (text : Text) : List Text := (text.splitOnP isStop).filterMap wordReference

/-- What the object table answers for a name. -/
inductive Lookup where
  | absent
  | failed
  | found (key : Text)

/-- The object table, if there is a database. -/
abbrev ObjectTable := Option (Text → Lookup)

def trimSlash : Text → Text
  | '/' :: rest => rest
  | text => text

/-- The text after the first `mark`. -/
def textAfter (mark : Text) : Text → Option Text
  | [] => if mark = [] then some [] else none
  | c :: rest =>
    if mark.isPrefixOf (c :: rest) then some ((c :: rest).drop mark.length) else textAfter mark rest

def managedOnly (key : Text) : List Text := if Managed key then [key] else []

/-- The key of an object link. -/
def objectKeys (objects : ObjectTable) (path : Text) : Option (List Text) :=
  match textAfter objectPath path with
  | none => some []
  | some rest =>
    match objects with
    | none => none
    | some lookup =>
      match lookup (trimSlash rest) with
      | .absent => some []
      | .failed => none
      | .found key => some (managedOnly key)

def bucketKeys (path : Text) : List Text :=
  match textAfter physicalPrefix path with
  | some key => managedOnly key
  | none => []

/-- The keys that one reference names; `none` protects everything. -/
def tokenKeys (objects : ObjectTable) (token : Text) : Option (List Text) :=
  match UrlText.path token with
  | none => none
  | some path =>
    (objectKeys objects path).map fun mapped =>
      managedOnly (trimSlash path) ++ bucketKeys path ++ mapped

def maxContent : Nat := 8 * 2 ^ 20

def maxDepth : Nat := 24

def maxKeys : Nat := 128

/-- The texts are nested at most `levels - 1` deep. -/
def walk (objects : ObjectTable) : Nat → Text → Option (List Text)
  | 0, _ => none
  | levels + 1, text => ((innerTexts text).mapM (walk objects levels)).bind fun inner =>
      ((urlTokens text).mapM (tokenKeys objects)).map fun own => inner.flatten ++ own.flatten

def Resolve (objects : ObjectTable) (raw : Text) : Option (List Text) :=
  if maxContent < UnicodeText.utf8Length raw then none
  else (walk objects (maxDepth + 1) raw).bind fun seen =>
    if maxKeys < seen.dedup.length then none else some seen.dedup

end ImApp.MediaGc
