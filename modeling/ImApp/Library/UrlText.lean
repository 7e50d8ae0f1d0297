import ImApp.Library.UnicodeText

/-!
References to resources: a scheme, an authority, a path, a query and a fragment.
`parse` splits a text at its delimiters and checks the characters of the host
and the percent escapes, which it leaves as they are written. The address inside
the brackets of a host is checked for its characters only.
-/

namespace UrlText

open JsonText (Text hexValue)

structure Url where
  scheme : Text
  host : Text
  /-- Whether the authority has a part in front of an at sign. -/
  user : Bool
  fragment : Text

/-- The text before the first `mark` and the text after it. -/
def cut (mark : Char) (text : Text) : Text × Text :=
  (text.takeWhile (· ≠ mark), (text.dropWhile (· ≠ mark)).drop 1)

/-- The text before the last `mark` and the text after it. -/
def cutLast (mark : Char) (text : Text) : Option (Text × Text) :=
  if text.contains mark then
    some ((cut mark text.reverse).2.reverse, (cut mark text.reverse).1.reverse)
  else none

def isLetter (c : Char) : Bool := ('a' ≤ c && c ≤ 'z') || ('A' ≤ c && c ≤ 'Z')

def isSchemeChar (c : Char) : Bool :=
  isLetter c || c.isDigit || c = '+' || c = '-' || c = '.'

/-- The scheme in front of a colon, empty when there is none. -/
def getScheme (text : Text) : Option (Text × Text) :=
  match text.takeWhile isSchemeChar, text.dropWhile isSchemeChar with
  | [], ':' :: _ => none
  | c :: scheme, ':' :: rest =>
    if isLetter c then some (c :: scheme, rest) else some ([], text)
  | _, _ => some ([], text)

def isControl (c : Char) : Bool := c.toNat < 0x20 || c.toNat = 0x7f

def isHostChar (c : Char) : Bool :=
  0x80 ≤ c.toNat || isLetter c || c.isDigit ||
    ['!', '$', '&', '\'', '(', ')', '*', '+', ',', ';', '=', ':', '[', ']', '<', '>', '"',
      '-', '_', '.', '~'].contains c

/-- Every plain character is `plain`, every percent escape is two hexadecimal
digits whose value is `escaped`. -/
def checkEscapes (plain : Char → Bool) (escaped : Nat → Bool) : Text → Bool
  | [] => true
  | '%' :: a :: b :: rest => match hexValue a, hexValue b with
    | some high, some low => escaped (high * 16 + low) && checkEscapes plain escaped rest
    | _, _ => false
  | c :: rest => c ≠ '%' && plain c && checkEscapes plain escaped rest

/-- Escapes in a host stand for bytes that are not ASCII, or for a percent sign. -/
def checkHost (text : Text) : Bool :=
  checkEscapes isHostChar (fun byte => 0x80 ≤ byte || byte = 0x25) text

/-- Escapes in a zone stand for what a host may hold, or for a blank. -/
def checkZone (text : Text) : Bool :=
  checkEscapes isHostChar
    (fun byte => byte < 0x80 && (byte = 0x25 || byte = 0x20 || isHostChar (Char.ofNat byte))) text

def checkPath (text : Text) : Bool := checkEscapes (fun _ => true) (fun _ => true) text

def validOptionalPort : Text → Bool
  | [] => true
  | c :: digits => c = ':' && digits.all Char.isDigit

/-- The text before `%25` and the text from it on. -/
def splitZone : Text → Option (Text × Text)
  | [] => none
  | '%' :: '2' :: '5' :: rest => some ([], '%' :: '2' :: '5' :: rest)
  | c :: rest => (splitZone rest).map (fun (before, zone) => (c :: before, zone))

def checkLiteral (text : Text) : Bool :=
  match splitZone text with
  | some (address, zone) => checkHost address && checkZone zone
  | none => checkHost text

def parseHost (host : Text) : Bool :=
  if host.head? = some '[' then
    match cutLast ']' host with
    | some (literal, port) => validOptionalPort port && checkLiteral literal
    | none => false
  else
    (match cutLast ':' host with
      | some (_, port) => validOptionalPort (':' :: port)
      | none => true) && checkHost host

def isUserChar (c : Char) : Bool :=
  isLetter c || c.isDigit ||
    ['-', '.', '_', ':', '~', '!', '$', '&', '\'', '(', ')', '*', '+', ',', ';', '=', '%',
      '@'].contains c

/-- The host and whether a user stands in front of it. -/
def parseAuthority (authority : Text) : Option (Text × Bool) :=
  match cutLast '@' authority with
  | none => if parseHost authority then some (authority, false) else none
  | some (user, host) =>
    if parseHost host && user.all isUserChar && checkPath user then some (host, true) else none

/-- The host, the user mark and the path behind the scheme. A scheme in front of
anything but a slash makes the rest opaque, and without a scheme the first
segment of a path has no colon. -/
def parseHierarchy (scheme rest : Text) : Option (Text × Bool) :=
  match rest with
  | '/' :: '/' :: hierarchy =>
    if checkPath (hierarchy.dropWhile (· ≠ '/')) then
      parseAuthority (hierarchy.takeWhile (· ≠ '/'))
    else none
  | '/' :: path => if checkPath path then some ([], false) else none
  | path =>
    if scheme ≠ [] then some ([], false)
    else if (path.takeWhile (· ≠ '/')).contains ':' then none
    else if checkPath path then some ([], false) else none

def parse (text : Text) : Option Url := do
  let (body, fragment) := cut '#' text
  if body.any isControl || !checkPath fragment then none
  let (scheme, rest) ← getScheme body
  let (host, user) ← parseHierarchy scheme (cut '?' rest).1
  return { scheme := UnicodeText.toLower scheme, host, user, fragment }

/-- The path behind the authority, if there is one. -/
def hierarchyPath (scheme : Text) : Text → Text
  | '/' :: '/' :: hierarchy =>
    if scheme = [] ∧ hierarchy.head? = some '/' then '/' :: '/' :: hierarchy
    else hierarchy.dropWhile (· ≠ '/')
  | '/' :: path => '/' :: path
  | path => if scheme = [] then path else []

/-- The path as it is written, `none` for a text that is no reference. -/
def writtenPath (text : Text) : Option Text :=
  if (parse text).isNone then none
  else (getScheme (cut '#' text).1).map fun (scheme, rest) =>
    hierarchyPath scheme (cut '?' rest).1

/-- The bytes of a character, each as the character with its number. -/
def bytesOf (c : Char) : Text :=
  if c.toNat < 0x80 then [c]
  else (String.utf8EncodeChar c).map fun byte => Char.ofNat byte.toNat

/-- The bytes that a written path stands for. -/
def decodeEscapes : Text → Text
  | [] => []
  | '%' :: a :: b :: rest => match hexValue a, hexValue b with
    | some high, some low => Char.ofNat (high * 16 + low) :: decodeEscapes rest
    | _, _ => '%' :: decodeEscapes (a :: b :: rest)
  | c :: rest => bytesOf c ++ decodeEscapes rest

def path (text : Text) : Option Text := (writtenPath text).map decodeEscapes

/-- The query as it is written. -/
def rawQuery (text : Text) : Text :=
  match getScheme (cut '#' text).1 with
  | none => []
  | some (_, rest) => (cut '?' rest).2

/-- The part behind a scheme where no slash follows it. -/
def rootless (text : Text) : Text :=
  match getScheme (cut '#' text).1 with
  | none => []
  | some (scheme, rest) =>
    let hierarchy := (cut '?' rest).1
    if scheme = [] ∨ hierarchy.head? = some '/' then [] else hierarchy

/-- The character that the first bytes spell and the number of these bytes. A byte
that starts no character stands for a replacement character. -/
def firstRune (bytes : Text) : Char × Nat :=
  match ((bytes.take 4).map fun c => UInt8.ofNat c.toNat).toByteArray.utf8DecodeChar? 0 with
  | some c => (c, c.utf8Size)
  | none => ('\ufffd', 1)

/-- The characters that bytes spell, behind the first `skip` of them. -/
def runes : Nat → Text → Text
  | _, [] => []
  | skip + 1, _ :: bytes => runes skip bytes
  | 0, byte :: bytes => let (c, size) := firstRune (byte :: bytes)
    c :: runes (size - 1) bytes

/-- The host with its escapes decoded. -/
def Url.hostName (url : Url) : Text := runes 0 (decodeEscapes url.host)

theorem takeWhile_head {p : Char → Bool} {text tail : Text} {c : Char}
    (h : text.takeWhile p = c :: tail) : ∃ rest, text = c :: rest := by
  cases text with
  | nil => cases h
  | cons d text =>
    cases hd : p d with
    | true =>
      rw [List.takeWhile_cons_of_pos hd] at h
      exact ⟨text, by rw [(List.cons.inj h).1]⟩
    | false => simp [hd] at h

theorem getScheme_head {text scheme rest : Text} (h : getScheme text = some (scheme, rest))
    (hscheme : scheme ≠ []) :
    ∃ c tail more, text = c :: tail ∧ scheme = c :: more ∧ isLetter c = true := by
  rw [getScheme] at h
  split at h
  · cases h
  case h_2 c scheme' rest' htake hdrop =>
    obtain ⟨tail, htext⟩ := takeWhile_head htake
    split at h
    case isTrue hletter =>
      cases h
      exact ⟨c, tail, scheme', htext, rfl, hletter⟩
    · cases h
      exact absurd rfl hscheme
  · cases h
    exact absurd rfl hscheme

theorem parse_head {text : Text} {url : Url} (h : parse text = some url)
    (hscheme : url.scheme ≠ []) :
    ∃ c tail more, text = c :: tail ∧ url.scheme = UnicodeText.lowerChar c :: more ∧
      isLetter c = true := by
  simp only [parse, Option.bind_eq_bind] at h
  split at h
  · cases h
  obtain ⟨⟨scheme, rest⟩, hget, h⟩ := Option.bind_eq_some_iff.mp h
  obtain ⟨⟨host, user⟩, -, h⟩ := Option.bind_eq_some_iff.mp h
  cases h
  have hsome : scheme ≠ [] := by
    rintro rfl
    exact hscheme rfl
  obtain ⟨c, tail, more, hbody, rfl, hletter⟩ := getScheme_head hget hsome
  obtain ⟨rest', htext⟩ := takeWhile_head hbody
  exact ⟨c, rest', more.map UnicodeText.lowerChar, htext, rfl, hletter⟩

end UrlText
