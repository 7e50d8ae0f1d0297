import ImApp.Library.InterleavedCalls
import ImApp.Library.KeyedTable

/-!
Login sessions. A login stores a session under its refresh token and, from a phone,
revokes the other phone sessions of the account. A refresh looks its token up and later
exchanges it; a logout revokes. Every request runs its statements one by one.
-/

namespace ImApp.Auth

open InterleavedCalls

/-- A refresh token is random and never drawn twice, so it is named by the request that
drew it and a running number. The stored hash of a token stands for the token. -/
structure Token where
  request : ℕ
  number : ℕ
  deriving DecidableEq

inductive Platform where
  | ios
  | android
  | web
  deriving DecidableEq

def IsMobilePlatform (platform : Platform) : Bool := platform = .ios || platform = .android

/-- A row of `auth_sessions`. -/
structure Session where
  id : ℕ
  user : String
  platform : Platform
  refreshToken : Token
  expiresAt : ℕ
  revoked : Bool

/-- `refresh_token_hash` is unique. -/
abbrev Sessions := KeyedTable Session.refreshToken

/-- A refresh whose update has run: the token it presented, the one it hands out, the
session it had looked up, and what the update left: whether the new token is in a live
session, and whether the session had been revoked. -/
structure Exchange where
  old : Token
  new : Token
  session : ℕ
  stored : Bool
  revoked : Bool
  deriving DecidableEq

/-- A login that has revoked the other phone sessions, and whether its own was still
active then. -/
structure Revocation where
  user : String
  refreshToken : Token
  active : Bool

/-- A login that was answered with its tokens. -/
structure Login where
  user : String
  platform : Platform
  refreshToken : Token

/-- The table and the clock, the number of tokens drawn, and the history: the tokens that
were ever stored and those that clients were given, the updates of refreshes that were
answered and the refreshes that were, the revocations and the logins, the latest first. -/
structure SessionData where
  sessions : Sessions
  now : ℕ
  drawn : ℕ
  issued : List Token
  given : List Token
  rotations : List Exchange
  exchanges : List Exchange
  revocations : List Revocation
  logins : List Login

/-- A request by what it is about to do. -/
inductive SessionCall where
  | login (user : String) (platform : Platform)
  | inserting (user : String) (platform : Platform) (refresh : Token) (again : Bool)
  | revoking (user : String) (platform : Platform) (refresh : Token)
  | loggedIn (user : String) (platform : Platform) (refresh : Token)
  | refresh (token : Token)
  | findingUser (token : Token) (session : ℕ)
  | rotating (token : Token) (session : ℕ) (newRefresh : Token)
  | refreshed (exchange : Exchange)
  | logout (token : Token)
  | logoutAll (user : String)

/-- What becomes of a statement: an answer, no effect, or an effect whose answer is lost. -/
inductive Reply where
  | answered
  | failed
  | unanswered
  deriving DecidableEq

/-- Thirty days, in seconds. -/
def refreshTokenTTL : ℕ := 30 * 24 * 3600

/-- `revoked_at IS NULL AND expires_at > NOW()` -/
def Session.active (now : ℕ) (s : Session) : Bool := !s.revoked && now < s.expiresAt

def revoke : KeyedTable.Edit Session.refreshToken where
  apply := fun s => { s with revoked := true }
  key_apply := fun _ => rfl

def randomRefreshToken (id : ℕ) (d : SessionData) : Token := ⟨id, d.drawn⟩

def SessionData.draw (d : SessionData) : SessionData := { d with drawn := d.drawn + 1 }

def newSession (d : SessionData) (user : String) (platform : Platform) (refresh : Token) : Session :=
  ⟨d.sessions.rows.length, user, platform, refresh, d.now + refreshTokenTTL, false⟩

def SessionData.addSession (d : SessionData) (user : String) (platform : Platform) (refresh : Token) :
    SessionData :=
  { d with
    sessions := d.sessions.insert (newSession d user platform refresh)
    issued := refresh :: d.issued }

/-- Where `respondAuth` goes on after an insert that failed. -/
def retry (user : String) (platform : Platform) (refresh : Token) (again : Bool) : Option SessionCall :=
  if again then none else some (.inserting user platform refresh true)

/-- `insertSession`; a token that is stored already is refused. -/
def insertSession (d : SessionData) (user : String) (platform : Platform) (refresh : Token)
    (again : Bool) (reply : Reply) : SessionData × Option SessionCall :=
  if reply = .failed ∨ refresh ∈ d.sessions.rows.map Session.refreshToken then
    (d, retry user platform refresh again)
  else if reply = .unanswered then
    (d.addSession user platform refresh, retry user platform refresh again)
  else if IsMobilePlatform platform then
    (d.addSession user platform refresh, some (.revoking user platform refresh))
  else (d.addSession user platform refresh, some (.loggedIn user platform refresh))

/-- The other phone sessions of an account that are active. -/
def Session.otherMobile (now : ℕ) (user : String) (refresh : Token) (s : Session) : Bool :=
  s.user = user && IsMobilePlatform s.platform && s.refreshToken ≠ refresh && s.active now

def revokeOthers (d : SessionData) (user : String) (refresh : Token) : SessionData :=
  { d with
    sessions := d.sessions.update (Session.otherMobile d.now user refresh) revoke
    revocations := ⟨user, refresh, d.sessions.rows.any fun s =>
      s.refreshToken = refresh && s.active d.now⟩ :: d.revocations }

/-- The row of the token; a session that is revoked or expired is refused. -/
def findSession (d : SessionData) (token : Token) : Option Session :=
  d.sessions.rows.find? fun s => s.refreshToken = token

def lookUp (d : SessionData) (token : Token) : Option SessionCall :=
  match findSession d token with
  | none => none
  | some s => if s.revoked ∨ s.expiresAt < d.now then none else some (.findingUser token s.id)

/-- `WHERE refresh_token_hash=$3 AND revoked_at IS NULL` -/
def Session.rotate (now : ℕ) (old new : Token) (s : Session) : Session :=
  if s.refreshToken = old ∧ s.revoked = false then
    { s with refreshToken := new, expiresAt := now + refreshTokenTTL }
  else s

/-- The update of a refresh, as the history keeps it. -/
def exchangeOf (sessions : Sessions) (now : ℕ) (old : Token) (session : ℕ) (new : Token) : Exchange :=
  ⟨old, new, session, sessions.rows.any fun s => s.refreshToken = new && s.active now,
    sessions.rows.any fun s => s.id = session && s.revoked⟩

/-- Whether the update changed a row is not asked. -/
def rotateToken (d : SessionData) (old : Token) (session : ℕ) (new : Token) (reply : Reply) :
    SessionData × Option SessionCall :=
  match d.sessions.change (Session.rotate d.now old new) with
  | none => (d, none)
  | some sessions =>
    let exchange := exchangeOf sessions d.now old session new
    if reply = .answered then
      ({ d with sessions := sessions, issued := new :: d.issued, rotations := exchange :: d.rotations },
        some (.refreshed exchange))
    else ({ d with sessions := sessions, issued := new :: d.issued }, none)

def Logout (d : SessionData) (token : Token) : SessionData :=
  { d with sessions := d.sessions.update (fun s => s.refreshToken = token && !s.revoked) revoke }

def LogoutAll (d : SessionData) (user : String) : SessionData :=
  { d with sessions := d.sessions.update (fun s => s.user = user && !s.revoked) revoke }

/-- The next step of a request. A failed revocation does not fail the login. -/
def advanceSession (id : ℕ) (d : SessionData) (call : SessionCall) (reply : Reply) :
    SessionData × Option SessionCall :=
  match call with
  | .login user platform =>
    if reply = .failed then (d, none)
    else (d.draw, some (.inserting user platform (randomRefreshToken id d) false))
  | .inserting user platform refresh again => insertSession d user platform refresh again reply
  | .revoking user platform refresh =>
    if reply = .failed then (d, some (.loggedIn user platform refresh))
    else (revokeOthers d user refresh, some (.loggedIn user platform refresh))
  | .loggedIn user platform refresh =>
    ({ d with given := refresh :: d.given, logins := ⟨user, platform, refresh⟩ :: d.logins }, none)
  | .refresh token => if reply = .answered then (d, lookUp d token) else (d, none)
  | .findingUser token session =>
    if reply = .answered then (d.draw, some (.rotating token session (randomRefreshToken id d)))
    else (d, none)
  | .rotating token session newRefresh =>
    if reply = .failed then (d, none) else rotateToken d token session newRefresh reply
  | .refreshed exchange =>
    if reply = .answered then
      ({ d with given := exchange.new :: d.given, exchanges := exchange :: d.exchanges }, none)
    else (d, none)
  | .logout token => if reply = .failed then (d, none) else (Logout d token, none)
  | .logoutAll user => if reply = .failed then (d, none) else (LogoutAll d user, none)

def SessionCall.opens : SessionCall → Bool
  | .login _ _ | .refresh _ | .logout _ | .logoutAll _ => true
  | _ => false

/-- The requests on any table of sessions, with time going on. -/
def sessionService : Service SessionData SessionCall Reply ℕ where
  initial := fun d => d.sessions.rows.map Session.id = List.range d.sessions.rows.length ∧
    (∀ s ∈ d.sessions.rows, s.refreshToken ∈ d.issued) ∧ (∀ t ∈ d.issued, t ∈ d.given) ∧
      (∀ t ∈ d.given, t.number < d.drawn) ∧
      d.rotations = [] ∧ d.exchanges = [] ∧ d.revocations = [] ∧ d.logins = []
  opens := SessionCall.opens
  advance := fun id d call reply => some (advanceSession id d call reply)
  world := fun d later => some { d with now := d.now + later }

end ImApp.Auth
