import Mathlib.Data.List.Basic
import Mathlib.Data.Char

/-!
JSON values and their text. `decode` reads one value in the RFC 8259 grammar
and keeps the spelling of a number. The members of an object are kept in key
order, the last of two members with one key wins, and nesting is bounded, all as
an untyped decoder with a map for each object does. `encode` writes the compact
text with HTML-safe escapes.
-/

namespace JsonText

abbrev Text := List Char

instance : LawfulBEq Text := inferInstance

inductive Json where
  | null
  | bool (value : Bool)
  | number (literal : Text)
  | string (text : Text)
  | array (items : List Json)
  | object (fields : List (Text × Json))

/-- Induction over values, with one hypothesis for the items of an array and
one for the values of an object. -/
@[induction_eliminator]
theorem Json.induct {motive : Json → Prop} (null : motive .null)
    (bool : ∀ value, motive (.bool value))
    (number : ∀ literal, motive (.number literal))
    (string : ∀ text, motive (.string text))
    (array : ∀ items, (∀ item ∈ items, motive item) → motive (.array items))
    (object : ∀ fields, (∀ field ∈ fields, motive field.2) → motive (.object fields))
    (value : Json) : motive value :=
  @Json.rec motive (fun items => ∀ item ∈ items, motive item)
    (fun fields => ∀ field ∈ fields, motive field.2) (fun field => motive field.2)
    null bool number string array object
    (by simp) (by
      intro head tail hhead htail item hitem
      rcases List.mem_cons.mp hitem with rfl | hitem
      · exact hhead
      exact htail item hitem)
    (by simp) (by
      intro head tail hhead htail field hfield
      rcases List.mem_cons.mp hfield with rfl | hfield
      · exact hhead
      exact htail field hfield)
    (by
      intro key value hvalue
      exact hvalue) value

def isSpace (c : Char) : Bool := c = ' ' || c = '\t' || c = '\n' || c = '\r'

def skipSpace (cs : Text) : Text := cs.dropWhile isSpace

def scanInteger : Text → Option (Text × Text)
  | [] => none
  | c :: rest =>
    if c = '0' then some (['0'], rest)
    else if c.isDigit then
      some (c :: rest.takeWhile Char.isDigit, rest.dropWhile Char.isDigit)
    else none

/-- At least one digit. -/
def scanDigits (cs : Text) : Option (Text × Text) :=
  if cs.takeWhile Char.isDigit = [] then none
  else some (cs.takeWhile Char.isDigit, cs.dropWhile Char.isDigit)

def scanFraction : Text → Option (Text × Text)
  | [] => some ([], [])
  | c :: rest =>
    if c = '.' then (scanDigits rest).map (fun (digits, rest) => ('.' :: digits, rest))
    else some ([], c :: rest)

def scanSign : Text → Text × Text
  | [] => ([], [])
  | c :: rest => if c = '+' || c = '-' then ([c], rest) else ([], c :: rest)

def scanExponent : Text → Option (Text × Text)
  | [] => some ([], [])
  | c :: rest =>
    if c = 'e' || c = 'E' then
      (scanDigits (scanSign rest).2).map
        (fun (digits, after) => (c :: (scanSign rest).1 ++ digits, after))
    else some ([], c :: rest)

def scanMinus : Text → Text × Text
  | [] => ([], [])
  | c :: rest => if c = '-' then ([c], rest) else ([], c :: rest)

def scanNumber (cs : Text) : Option (Text × Text) := do
  let (integer, afterInteger) ← scanInteger (scanMinus cs).2
  let (fraction, afterFraction) ← scanFraction afterInteger
  let (exponent, rest) ← scanExponent afterFraction
  return ((scanMinus cs).1 ++ integer ++ fraction ++ exponent, rest)

def hexValue (c : Char) : Option Nat :=
  if c.isDigit then some (c.toNat - '0'.toNat)
  else if 'a' ≤ c ∧ c ≤ 'f' then some (c.toNat - 'a'.toNat + 10)
  else if 'A' ≤ c ∧ c ≤ 'F' then some (c.toNat - 'A'.toNat + 10)
  else none

def simpleEscape (c : Char) : Option Char :=
  if c = '"' || c = '\\' || c = '/' then some c
  else if c = 'b' then some '\x08'
  else if c = 'f' then some '\x0c'
  else if c = 'n' then some '\n'
  else if c = 'r' then some '\r'
  else if c = 't' then some '\t'
  else none

/-- A character of a string literal, or one 16-bit `\u` code unit. -/
inductive StringUnit where
  | char (c : Char)
  | code (n : Nat)

/-- The units of a string literal after its opening quote. -/
def scanUnits : Text → Option (List StringUnit × Text)
  | [] => none
  | '"' :: rest => some ([], rest)
  | ['\\'] => none
  | '\\' :: 'u' :: a :: b :: c :: d :: rest => do
      let a ← hexValue a
      let b ← hexValue b
      let c ← hexValue c
      let d ← hexValue d
      let (units, rest) ← scanUnits rest
      return (.code (((a * 16 + b) * 16 + c) * 16 + d) :: units, rest)
  | '\\' :: c :: rest => do
      let c ← simpleEscape c
      let (units, rest) ← scanUnits rest
      return (.char c :: units, rest)
  | c :: rest => do
      if c.toNat < 0x20 then none
      let (units, rest) ← scanUnits rest
      return (.char c :: units, rest)

def isHighSurrogate (n : Nat) : Bool := 0xd800 ≤ n && n < 0xdc00

def isLowSurrogate (n : Nat) : Bool := 0xdc00 ≤ n && n < 0xe000

/-- A surrogate without its partner reads as the replacement character. -/
def codeChar (n : Nat) : Char :=
  if isHighSurrogate n || isLowSurrogate n then '\ufffd' else Char.ofNat n

def decodeUnits : List StringUnit → Text
  | [] => []
  | .char c :: units => c :: decodeUnits units
  | .code high :: .code low :: units =>
    if isHighSurrogate high && isLowSurrogate low then
      Char.ofNat (0x10000 + (high - 0xd800) * 0x400 + (low - 0xdc00)) :: decodeUnits units
    else codeChar high :: decodeUnits (.code low :: units)
  | .code n :: units => codeChar n :: decodeUnits units

def scanString (cs : Text) : Option (Text × Text) :=
  (scanUnits cs).map (fun (units, rest) => (decodeUnits units, rest))

/-- Sets the member `key`; the keys stay in order. -/
def insertField (key : Text) (value : Json) : List (Text × Json) → List (Text × Json)
  | [] => [(key, value)]
  | (k, v) :: rest =>
    if key = k then (key, value) :: rest
    else if key < k then (key, value) :: (k, v) :: rest
    else (k, v) :: insertField key value rest

def buildObject (members : List (Text × Json)) : List (Text × Json) :=
  members.foldl (fun fields member => insertField member.1 member.2 fields) []

def maxNestingDepth : Nat := 10000

/-- The rest of the text after the mark `c`. -/
def expect (c : Char) (cs : Text) : Option Text :=
  match skipSpace cs with
  | [] => none
  | d :: rest => if d = c then some rest else none

def keyword (word : Text) (value : Json) (cs : Text) : Option (Json × Text) :=
  if word.isPrefixOf cs then some (value, cs.drop word.length) else none

def parseScalar (cs : Text) : Option (Json × Text) :=
  keyword ['n', 'u', 'l', 'l'] .null cs <|> keyword ['t', 'r', 'u', 'e'] (.bool true) cs <|>
    keyword ['f', 'a', 'l', 's', 'e'] (.bool false) cs <|>
    (scanNumber cs).map (fun (literal, rest) => (.number literal, rest))

mutual

/-- `fuel` bounds the calls, `depth` the containers that may still be opened. -/
def parseValue : Nat → Nat → Text → Option (Json × Text)
  | 0, _, _ => none
  | fuel + 1, depth, cs =>
    match skipSpace cs with
    | [] => none
    | c :: rest =>
      if c = '"' then (scanString rest).map (fun (text, rest) => (.string text, rest))
      else if c = '[' then parseArray fuel depth rest
      else if c = '{' then parseObject fuel depth rest
      else parseScalar (c :: rest)

def parseArray : Nat → Nat → Text → Option (Json × Text)
  | 0, _, _ => none
  | fuel + 1, depth, cs =>
    if depth = 0 then none
    else match expect ']' cs with
      | some rest => some (.array [], rest)
      | none => (parseItems fuel (depth - 1) cs).map
          (fun (items, rest) => (.array items, rest))

def parseObject : Nat → Nat → Text → Option (Json × Text)
  | 0, _, _ => none
  | fuel + 1, depth, cs =>
    if depth = 0 then none
    else match expect '}' cs with
      | some rest => some (.object [], rest)
      | none => (parseMembers fuel (depth - 1) cs).map
          (fun (members, rest) => (.object (buildObject members), rest))

/-- One or more items up to the closing bracket. -/
def parseItems : Nat → Nat → Text → Option (List Json × Text)
  | 0, _, _ => none
  | fuel + 1, depth, cs =>
    (parseValue fuel depth cs).bind fun (item, rest) =>
      match expect ',' rest with
      | some more => (parseItems fuel depth more).map
          (fun (items, rest) => (item :: items, rest))
      | none => (expect ']' rest).map (fun rest => ([item], rest))

/-- One or more members up to the closing brace. -/
def parseMembers : Nat → Nat → Text → Option (List (Text × Json) × Text)
  | 0, _, _ => none
  | fuel + 1, depth, cs =>
    ((expect '"' cs).bind scanString).bind fun (key, afterKey) =>
      ((expect ':' afterKey).bind (parseValue fuel depth)).bind fun (value, rest) =>
        match expect ',' rest with
        | some more => (parseMembers fuel depth more).map
            (fun (members, rest) => ((key, value) :: members, rest))
        | none => (expect '}' rest).map (fun rest => ([(key, value)], rest))

end

/-- The whole text is one value. -/
def decode (cs : Text) : Option Json :=
  match parseValue (3 * cs.length + 1) maxNestingDepth cs with
  | some (value, rest) => if (skipSpace rest).isEmpty then some value else none
  | none => none

def hexDigit (n : Nat) : Char :=
  if n < 10 then Char.ofNat (n + '0'.toNat) else Char.ofNat (n - 10 + 'a'.toNat)

def escapeChar (c : Char) : Text :=
  if c = '"' then ['\\', '"']
  else if c = '\\' then ['\\', '\\']
  else if c = '\x08' then ['\\', 'b']
  else if c = '\x0c' then ['\\', 'f']
  else if c = '\n' then ['\\', 'n']
  else if c = '\r' then ['\\', 'r']
  else if c = '\t' then ['\\', 't']
  else if c.toNat < 0x20 || c = '<' || c = '>' || c = '&' then
    ['\\', 'u', '0', '0', hexDigit (c.toNat / 16), hexDigit (c.toNat % 16)]
  else if c.toNat = 0x2028 then ['\\', 'u', '2', '0', '2', '8']
  else if c.toNat = 0x2029 then ['\\', 'u', '2', '0', '2', '9']
  else [c]

def encodeString (text : Text) : Text := '"' :: text.flatMap escapeChar ++ ['"']

mutual

def encode : Json → Text
  | .null => ['n', 'u', 'l', 'l']
  | .bool true => ['t', 'r', 'u', 'e']
  | .bool false => ['f', 'a', 'l', 's', 'e']
  | .number literal => literal
  | .string text => encodeString text
  | .array items => '[' :: encodeItems items ++ [']']
  | .object fields => '{' :: encodeFields fields ++ ['}']

def encodeItems : List Json → Text
  | [] => []
  | [item] => encode item
  | item :: items => encode item ++ ',' :: encodeItems items

def encodeFields : List (Text × Json) → Text
  | [] => []
  | [field] => encodeField field
  | field :: fields => encodeField field ++ ',' :: encodeFields fields

def encodeField : Text × Json → Text
  | (key, value) => encodeString key ++ ':' :: encode value

end

def stringWith (escape : Char → Text) (text : Text) : Text :=
  '"' :: text.flatMap escape ++ ['"']

mutual

/-- The compact text with the given escapes of characters. -/
def encodeWith (escape : Char → Text) : Json → Text
  | .null => ['n', 'u', 'l', 'l']
  | .bool true => ['t', 'r', 'u', 'e']
  | .bool false => ['f', 'a', 'l', 's', 'e']
  | .number literal => literal
  | .string text => stringWith escape text
  | .array items => '[' :: itemsWith escape items ++ [']']
  | .object fields => '{' :: fieldsWith escape fields ++ ['}']

def itemsWith (escape : Char → Text) : List Json → Text
  | [] => []
  | [item] => encodeWith escape item
  | item :: items => encodeWith escape item ++ ',' :: itemsWith escape items

def fieldsWith (escape : Char → Text) : List (Text × Json) → Text
  | [] => []
  | [field] => fieldWith escape field
  | field :: fields => fieldWith escape field ++ ',' :: fieldsWith escape fields

def fieldWith (escape : Char → Text) : Text × Json → Text
  | (key, value) => stringWith escape key ++ ':' :: encodeWith escape value

end

theorem itemsWith_escapeChar {items : List Json}
    (h : ∀ item ∈ items, encodeWith escapeChar item = encode item) :
    itemsWith escapeChar items = encodeItems items := by
  induction items with
  | nil => rw [itemsWith, encodeItems]
  | cons item items ih =>
    have hitem := h item List.mem_cons_self
    have hitems := ih (fun other hother => h other (List.mem_cons_of_mem _ hother))
    cases items with
    | nil => rw [itemsWith, encodeItems, hitem]
    | cons next items =>
      rw [itemsWith, encodeItems, hitem, hitems]
      · simp
      simp

theorem fieldsWith_escapeChar {fields : List (Text × Json)}
    (h : ∀ field ∈ fields, encodeWith escapeChar field.2 = encode field.2) :
    fieldsWith escapeChar fields = encodeFields fields := by
  induction fields with
  | nil => rw [fieldsWith, encodeFields]
  | cons field fields ih =>
    have hfield : fieldWith escapeChar field = encodeField field := by
      rw [fieldWith, encodeField, h field List.mem_cons_self]
      rfl
    have hfields := ih (fun other hother => h other (List.mem_cons_of_mem _ hother))
    cases fields with
    | nil => rw [fieldsWith, encodeFields, hfield]
    | cons next fields =>
      rw [fieldsWith, encodeFields, hfield, hfields]
      · simp
      simp

theorem encodeWith_escapeChar (value : Json) : encodeWith escapeChar value = encode value := by
  induction value with
  | null | number literal => rw [encodeWith, encode]
  | bool value =>
    cases value with
    | true | false => rw [encodeWith, encode]
  | string text =>
    rw [encodeWith, encode]
    rfl
  | array items ih => rw [encodeWith, encode, itemsWith_escapeChar ih]
  | object fields ih => rw [encodeWith, encode, fieldsWith_escapeChar ih]

end JsonText
