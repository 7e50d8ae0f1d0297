import ImApp.AuthSession.Slots
import ImApp.Library.StepSystem

/-!
Requests of the client and the refreshing of its tokens. A request that is
answered with 401 waits for new tokens and is sent once more. The requests of a
page share one refresh. What runs when an answer arrives, up to the next request,
is one step.
-/

namespace ImApp.AuthSession

open JsonText (Text)
open StepSystem

/-- The success of an answer is a status of 2xx together with the code 0. -/
inductive Answer where
  | ok
  | unauthorized
  | failed
  deriving DecidableEq

structure Request where
  url : Text
  auth : Bool
  retried : Bool
  /-- Sent once more, with the refreshed token. -/
  again : Bool
  token : Text

def isRefreshEndpoint (url : Text) : Bool := "/auth/token/refresh".toList.isSuffixOf url

structure TokenPair where
  accessToken : Text
  refreshToken : Text

/-- A refresh under way. `session` is the session that the token was read in. -/
structure Refresh where
  id : Nat
  token : Text
  session : Nat

inductive TokenKey where
  | access
  | refresh

/-- An asynchronous write of a token. `asked` is the session of the refresh that
brought the token, if it was a refresh. -/
structure WriteBack where
  key : TokenKey
  token : Text
  asked : Option Nat
  landed : Bool

/-- A write of refreshed tokens: the session they were asked for in, and the one
that holds the slot. -/
structure Write where
  asked : Nat
  holder : Nat
  deriving DecidableEq

/-- `waiting` holds the requests that await a refresh. `sent`, `session` and
`writes` are what an observer notes: the refresh tokens sent, the number of times
the session was cleared or replaced, and the writes of refreshed tokens. -/
structure State where
  storage : Storage
  requests : List Request
  refreshes : List Refresh
  refreshingTokenPromise : Option Nat
  nextRefresh : Nat
  waiting : List (Nat × Request)
  writeBacks : List WriteBack
  sent : List Text
  session : Nat
  writes : List Write

variable (platform : Platform)

/-- Storage once `persistTokenAsync` and `persistRefreshTokenAsync` were called.
In a browser they are through at once. -/
def persist (now : Nat) (pair : TokenPair) (storage : Storage) : Storage :=
  let tab := platform.currentTabId
  let storage :=
    setRefreshToken tab now pair.refreshToken (setToken tab now pair.accessToken storage)
  match platform with
  | .web _ => confirmRefreshToken tab now pair.refreshToken
      (confirmToken tab now pair.accessToken storage)
  | .app => storage

def writeBacksOf (pair : TokenPair) (asked : Option Nat) : List WriteBack :=
  match platform with
  | .web _ => []
  | .app => [⟨.access, pair.accessToken, asked, false⟩, ⟨.refresh, pair.refreshToken, asked, false⟩]

def storeTokens (now : Nat) (pair : TokenPair) (asked : Option Nat) (s : State) : State :=
  let tab := platform.currentTabId
  let storage :=
    setRefreshToken tab now pair.refreshToken (setToken tab now pair.accessToken s.storage)
  { s with
    storage := persist platform now pair storage
    writeBacks := s.writeBacks ++ writeBacksOf platform pair asked }

def logout (now : Nat) (s : State) : State :=
  { s with storage := clearToken platform.currentTabId now s.storage, session := s.session + 1 }

/-- The redirection to the sign-in page is left out. -/
def handleAuthExpired (now : Nat) (s : State) : State := logout platform now s

def login (now : Nat) (pair : TokenPair) (s : State) : State :=
  storeTokens platform now pair none { s with session := s.session + 1 }

def send (url : Text) (auth retried : Bool) (token : Option Text) (now : Nat) (s : State) : State :=
  let read := getToken platform.currentTabId now s.storage
  match token with
  | some token => { s with requests := s.requests ++ [⟨url, auth, retried, false, token⟩] }
  | none => { s with
      storage := read.2
      requests := s.requests ++ [⟨url, auth, retried, false, read.1⟩] }

/-- Sends the refresh token, unless a refresh is under way. The request waits. -/
def refreshAccessToken (request : Request) (now : Nat) (s : State) : State :=
  let read := getRefreshToken platform.currentTabId now s.storage
  let s := { s with storage := read.2 }
  if read.1 = [] then handleAuthExpired platform now s
  else match s.refreshingTokenPromise with
    | some id => { s with waiting := s.waiting ++ [(id, request)] }
    | none => { s with
        refreshes := s.refreshes ++ [⟨s.nextRefresh, read.1, s.session⟩]
        refreshingTokenPromise := some s.nextRefresh
        nextRefresh := s.nextRefresh + 1
        waiting := s.waiting ++ [(s.nextRefresh, request)]
        sent := s.sent ++ [read.1] }

/-- Where a first answer was 401. -/
def unauthorized (request : Request) (now : Nat) (s : State) : State :=
  let tab := platform.currentTabId
  let refreshToken := getRefreshToken tab now s.storage
  let s := { s with storage := refreshToken.2 }
  if request.auth && !request.retried && !isRefreshEndpoint request.url && refreshToken.1 ≠ [] then
    refreshAccessToken platform request now s
  else if !request.auth then s
  else
    let token := getToken tab now s.storage
    let s := { s with storage := token.2 }
    if token.1 = [] then s else handleAuthExpired platform now s

/-- The answer to a request. A request that was sent once more ends the session
unless it succeeds; on 401 it does so twice. -/
def respond (request : Request) (answer : Answer) (now : Nat) (s : State) : State :=
  match request.again, answer with
  | false, .unauthorized => unauthorized platform request now s
  | false, _ => s
  | true, .ok => s
  | true, .unauthorized => handleAuthExpired platform now (handleAuthExpired platform now s)
  | true, .failed => handleAuthExpired platform now s

/-- The answer to a refresh: a pair, or nothing of use. -/
def refreshed (refresh : Refresh) (pair : Option TokenPair) (now : Nat) (s : State) : State :=
  let waiters := (s.waiting.filter (fun entry => entry.1 = refresh.id)).map Prod.snd
  let s := { s with
    refreshingTokenPromise := none
    waiting := s.waiting.filter (fun entry => entry.1 ≠ refresh.id) }
  let pair := pair.filter (fun pair => pair.accessToken ≠ [])
  match pair with
  | some pair =>
    let s := storeTokens platform now pair (some refresh.session) s
    { s with
      writes := s.writes ++ [⟨refresh.session, s.session⟩]
      requests := s.requests ++
        waiters.map (fun request => { request with again := true, token := pair.accessToken }) }
  | none => waiters.foldl (fun s _ => handleAuthExpired platform now s) s

def noteWrite (asked : Option Nat) (s : State) : State :=
  { s with writes := s.writes ++ asked.toList.map (fun asked => ⟨asked, s.session⟩) }

/-- `setStorage` writes, or fails, at a time of its own. -/
def land (index : Nat) (writeBack : WriteBack) (ok : Bool) (s : State) : State :=
  let s := { s with writeBacks := s.writeBacks.set index { writeBack with landed := true } }
  if ok then
    noteWrite writeBack.asked { s with
      storage := match writeBack.key with
        | .access => { s.storage with token := writeBack.token }
        | .refresh => { s.storage with refreshToken := writeBack.token } }
  else s

/-- The check once `setStorage` is through. -/
def confirm (writeBack : WriteBack) (now : Nat) (s : State) : State :=
  let tab := platform.currentTabId
  match writeBack.key with
  | .access =>
    let confirmed := { s with storage := confirmToken tab now writeBack.token s.storage }
    if (getToken tab now s.storage).1 = writeBack.token then confirmed
    else noteWrite writeBack.asked confirmed
  | .refresh =>
    let confirmed := { s with storage := confirmRefreshToken tab now writeBack.token s.storage }
    if (getRefreshToken tab now s.storage).1 = writeBack.token then confirmed
    else noteWrite writeBack.asked confirmed

inductive Action where
  | send (url : Text) (auth retried : Bool) (token : Option Text) (now : Nat)
  | respond (request : Nat) (answer : Answer) (now : Nat)
  | refreshed (refresh : Nat) (pair : Option TokenPair) (now : Nat)
  | land (writeBack : Nat) (ok : Bool)
  | confirm (writeBack : Nat) (now : Nat)
  | logout (now : Nat)
  | login (pair : TokenPair) (now : Nat)

def step (s : State) : Action → Option State
  | .send url auth retried token now => some (send platform url auth retried token now s)
  | .respond index answer now => s.requests[index]?.map fun request =>
      respond platform request answer now { s with requests := s.requests.eraseIdx index }
  | .refreshed index pair now =>
    s.refreshes[index]?.map fun refresh =>
      refreshed platform refresh pair now { s with refreshes := s.refreshes.eraseIdx index }
  | .land index ok =>
    (s.writeBacks[index]?.filter (fun writeBack => !writeBack.landed)).map fun writeBack =>
      land index writeBack ok s
  | .confirm index now =>
    (s.writeBacks[index]?.filter (fun writeBack => writeBack.landed)).map fun writeBack =>
      confirm platform writeBack now { s with writeBacks := s.writeBacks.eraseIdx index }
  | .logout now => some (logout platform now s)
  | .login pair now => some (login platform now pair s)

structure Idle (s : State) : Prop where
  requests : s.requests = []
  refreshes : s.refreshes = []
  promise : s.refreshingTokenPromise = none
  waiting : s.waiting = []
  writeBacks : s.writeBacks = []
  sent : s.sent = []
  writes : s.writes = []

/-- A page that was just loaded; storage may hold any tokens. -/
def machine : Machine State Action where
  initial := Idle
  step := step platform

end ImApp.AuthSession
