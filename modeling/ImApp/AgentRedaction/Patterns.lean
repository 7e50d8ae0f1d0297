import ImApp.Library.Regex

/-!
The patterns of secrets in texts and in the names of entries, and the replacements that
run one after the other over a text.
-/

namespace ImApp.AgentRedaction

open JsonText (Text)
open Regex

def dash (c : Char) : Bool := c = '_' || c = '-'

/-- `[_-]?key` after a word. -/
def keyed (word : String) : Regex := seqs [anyCase word, .optional (.one dash), anyCase "key"]

def secretKey : Regex :=
  alts [anyCase "password", anyCase "passwd", anyCase "pwd", anyCase "secret", anyCase "token",
    keyed "api", keyed "access", anyCase "authorization", anyCase "cookie", keyed "private"]

/-- `[^-\r\n]` -/
def label (c : Char) : Bool := c ≠ '-' && c ≠ '\r' && c ≠ '\n'

/-- `[^\s,;]` -/
def valueChar (c : Char) : Bool := !isBlank c && c ≠ ',' && c ≠ ';'

/-- `[A-Za-z0-9_-]` -/
def tokenChar (c : Char) : Bool := isLetter c || JsNumber.isDigit c || dash c

/-- `[A-Za-z0-9._~+/=-]` -/
def bearerChar (c : Char) : Bool :=
  isLetter c || JsNumber.isDigit c || c = '.' || c = '_' || c = '~' || c = '+' || c = '/' ||
    c = '=' || c = '-'

/-- `[A-Z0-9]` -/
def accessChar (c : Char) : Bool := ('A' ≤ c && c ≤ 'Z') || JsNumber.isDigit c

def privateKeyBlock : Regex :=
  seqs [literal "-----BEGIN ", .many 1 label, literal "-----", .few 0 fun _ => true,
    literal "-----END ", .many 1 label, literal "-----"]

def authorization : Regex :=
  seqs [.group (seqs [.boundary, anyCase "Authorization", .boundary, blanks 0, .one (· = ':'),
      blanks 0]),
    .optional (seqs [anyCase "Bearer", blanks 1]), .many 1 valueChar]

def bearer : Regex := seqs [.boundary, anyCase "Bearer", blanks 1, .many 8 bearerChar]

def jsonWebToken : Regex :=
  seqs [.boundary, literal "eyJ", .many 8 tokenChar, .one (· = '.'), .many 8 tokenChar,
    .one (· = '.'), .many 8 tokenChar, .boundary]

def accessKey : Regex :=
  seqs ([.boundary, alts [literal "AKIA", literal "ASIA"]] ++
    List.replicate 16 (.one accessChar) ++ [.boundary])

def apiToken : Regex :=
  seqs [.boundary, alts [anyCase "sk", anyCase "ghp",
      seqs [anyCase "xox", alts (['b', 'a', 'p', 'r', 's'].map fun c => .one (sameLetter c))]],
    .one dash, .many 12 tokenChar, .boundary]

def assignment : Regex :=
  seqs [.group (seqs [.boundary,
      alts [anyCase "password", anyCase "passwd", anyCase "pwd", anyCase "secret",
        anyCase "token", keyed "api", keyed "access"],
      .boundary, blanks 0, .one (fun c => c = ':' || c = '='), blanks 0]),
    .group (.many 1 valueChar)]

def urlCredentials : Regex :=
  seqs [.group (seqs [literal "://", .many 1 fun c => !isBlank c && c ≠ '/' && c ≠ ':' && c ≠ '@',
      .one (· = ':')]),
    .group (.many 1 fun c => !isBlank c && c ≠ '/' && c ≠ '@'), .group (.one (· = '@'))]

/-- A pattern and what stands for a match with these groups. -/
structure SecretPattern where
  pattern : Regex
  replacement : List Text → Text

def SecretPattern.replace (p : SecretPattern) (value : Text) : Text :=
  p.pattern.replaceAll p.replacement value

def marker : Text := "[REDACTED]".toList

/-- The first group and the marker. -/
def afterPrefix (groups : List Text) : Text := groups.head?.getD [] ++ marker

def privateKeyPattern : SecretPattern :=
  ⟨privateKeyBlock, fun _ => "[REDACTED_PRIVATE_KEY]".toList⟩

def authorizationPattern : SecretPattern := ⟨authorization, afterPrefix⟩

def bearerPattern : SecretPattern := ⟨bearer, fun _ => "Bearer [REDACTED]".toList⟩

def webTokenPattern : SecretPattern := ⟨jsonWebToken, fun _ => "[REDACTED_JWT]".toList⟩

def accessKeyPattern : SecretPattern := ⟨accessKey, fun _ => "[REDACTED_ACCESS_KEY]".toList⟩

def apiTokenPattern : SecretPattern := ⟨apiToken, fun _ => "[REDACTED_TOKEN]".toList⟩

def assignmentPattern : SecretPattern := ⟨assignment, afterPrefix⟩

def urlCredentialsPattern : SecretPattern :=
  ⟨urlCredentials, fun groups => afterPrefix groups ++ groups[2]?.getD []⟩

def secretPatterns : List SecretPattern :=
  [privateKeyPattern, authorizationPattern, bearerPattern, webTokenPattern, accessKeyPattern,
    apiTokenPattern, assignmentPattern, urlCredentialsPattern]

def redactAgentSensitiveText (value : Text) : Text :=
  secretPatterns.foldl (fun result p => p.replace result) value

end ImApp.AgentRedaction
