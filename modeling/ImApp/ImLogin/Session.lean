import ImApp.Library.JsonText
import ImApp.Library.StepSystem

/-!
The session of the messaging client. Logins and logouts are tasks that are queued
one behind the other; a call that comes while a task runs is taken for a part of
it. A step runs one call from one `await` to the next, with any answer of the
messaging library or of the server.
-/

namespace ImApp.ImLogin

open JsonText (Text)
open StepSystem

inductive LoginStatus where
  | logout
  | logging
  | logged
  deriving DecidableEq

structure IMToken where
  userId : Text
  expireSec : Nat
  deriving DecidableEq

inductive SdkError where
  /-- 10102, login repeat -/
  | repeated
  /-- 10004 or 10005 -/
  | unloaded
  /-- The local database cannot be written. -/
  | localDatabase
  | other
  deriving DecidableEq

inductive Answer where
  | done
  | status (status : LoginStatus)
  | userId (id : Text)
  | token (token : IMToken)
  | error (error : SdkError)
  deriving DecidableEq

/-- `getSdkLoginStatus`. An error counts as logged out. -/
def Answer.loginStatus : Answer → Option LoginStatus
  | .status read => some read
  | .error _ => some .logout
  | _ => none

/-- `getSdkLoginUserId`. -/
def Answer.loginUserId : Answer → Option Text
  | .userId id => some id
  | .error _ => some []
  | _ => none

/-- The answer to a call whose errors are dropped. -/
def Answer.settled : Answer → Bool
  | .done => true
  | .error _ => true
  | _ => false

/-- What `reuseLiveSession` awaits. -/
inductive Reuse where
  | userId
  | status

/-- What `forceSdkLogout` awaits. -/
inductive Force where
  | status
  | logout

/-- Where `forceSdkLogout` is called. -/
inductive ForcedBy where
  | relogin
  | logout

inductive LoginResult where
  | user (id : Text)
  | failed (localDatabase : Bool)
  deriving DecidableEq

/-- What a call awaits. `check` is the part of `ensureIMLogin` in front of the
task, `recheck` the same part within a task, and `reuse` the first part of
`reloginSession`. `orphan` is a `forceSdkLogout` whose caller timed out. -/
inductive Pc where
  | absent
  | check (stage : Reuse)
  | queued
  | reopenWait (epoch : Nat)
  | reopenReady (epoch : Nat)
  | reuse (stage : Reuse)
  | recheck (stage : Reuse)
  | force (stage : Force) (by_ : ForcedBy)
  | awaitLogin (epoch : Nat)
  | loginDone (epoch : Nat) (result : LoginResult)
  | orphan (stage : Force)
  | done

/-- The call is a session task that runs, or what is left of one. -/
def Pc.inTask : Pc → Bool
  | .absent | .check _ | .queued | .done => false
  | _ => true

def Pc.isCheck : Pc → Bool
  | .check _ => true
  | _ => false

/-- What `initAppSdk` awaits. -/
inductive Init where
  | dataDir
  | initSdk

/-- A call of Login: the first, the one after the directory was restored, and the
one after which a repeated login is no error. -/
inductive Attempt where
  | first
  | recovered
  | again

/-- What `doLogin` awaits. -/
inductive LoginPc where
  | fetch
  | init (stage : Init) (recovering : Bool) (token : IMToken)
  | status (token : IMToken)
  | userId (token : IMToken)
  | logout (token : IMToken)
  | login (attempt : Attempt) (token : IMToken)
  | recover (stage : Force) (epoch : Nat) (token : IMToken)
  | backoff (token : IMToken)
  | repeatUserId (token : IMToken)
  | repeatLogout (token : IMToken)
  | synced (token : IMToken)
  | undo

/-- `doLogin` under way, for the call that started it. -/
structure LoginRun where
  call : Nat
  epoch : Nat
  force : Bool
  pc : LoginPc

inductive Task where
  | relogin
  | logout
  | reopen (epoch : Nat)

/-- The user the library is logged in as, and the call that logged it in. -/
structure SdkSession where
  userId : Text
  by_ : Option Nat

/-- Calls of the application are numbered; `calls` is the next number. `sdk`,
`userBy` and `lastLogout` are what an observer notes: the session of the library,
the call that set `imUserId`, and the last call of `logoutOpenIM`. -/
structure State where
  imUserId : Text
  tokenExpireAt : Nat
  connected : Bool
  boundAccessToken : Text
  loginEpoch : Nat
  loginPromise : Option LoginRun
  sessionChain : List (Nat × Task)
  sessionDepth : Nat
  forceNextLogin : Bool
  appSdkReadyUserId : Text
  closedDbRecovery : Option Nat
  accessToken : Text
  pc : Nat → Pc
  chained : Nat → Bool
  calls : Nat
  sdk : Option SdkSession
  userBy : Option Nat
  lastLogout : Option Nat

def resetLoginCache (s : State) : State :=
  { s with imUserId := [], tokenExpireAt := 0, connected := false, boundAccessToken := [] }

def invalidatePendingLogin (s : State) : State :=
  resetLoginCache { s with loginEpoch := s.loginEpoch + 1 }

def rememberLogin (call now : Nat) (token : IMToken) (s : State) : State :=
  { s with
    imUserId := token.userId
    userBy := some call
    tokenExpireAt := now + (token.expireSec - 300) * 1000
    connected := true
    boundAccessToken := s.accessToken }

def setPc (call : Nat) (pc : Pc) (s : State) : State :=
  { s with pc := Function.update s.pc call pc }

/-- The end of a call. A task of the queue lets the next one start. -/
def finish (call : Nat) (s : State) : State :=
  setPc call .done { s with
    sessionDepth := if s.chained call then s.sessionDepth - 1 else s.sessionDepth
    closedDbRecovery := if s.closedDbRecovery = some call then none else s.closedDbRecovery }

def setLogin (run : LoginRun) (pc : LoginPc) (s : State) : State :=
  { s with loginPromise := some { run with pc } }

/-- The promise is settled, and the calls that await it go on. -/
def finishLogin (result : LoginResult) (s : State) : State :=
  { s with
    loginPromise := none
    pc := fun call => match s.pc call with
      | .awaitLogin epoch => .loginDone epoch result
      | .reopenWait epoch => .reopenReady epoch
      | pc => pc }

def failLogin (s : State) : State := finishLogin (.failed false) s

def throwLogin (error : SdkError) (s : State) : State :=
  finishLogin (.failed (error = .localDatabase)) s

def startLogin (call : Nat) (s : State) : State :=
  { s with
    loginPromise := some ⟨call, s.loginEpoch, s.forceNextLogin, .fetch⟩
    forceNextLogin := false }

def afterInit (run : LoginRun) (recovering : Bool) (token : IMToken) (s : State) : State :=
  setLogin run (if recovering then .login .recovered token else .status token) s

def initAppSdk (isApp : Bool) (run : LoginRun) (recovering : Bool) (token : IMToken) (s : State) :
    State :=
  if isApp then setLogin run (.init .dataDir recovering token) s
  else afterInit run recovering token s

/-- The end of `doLogin`, once the library is logged in. -/
def completeLogin (run : LoginRun) (token : IMToken) (now : Nat) (s : State) : State :=
  finishLogin (.user token.userId) (rememberLogin run.call now token s)

def sdkLogin (run : LoginRun) (token : IMToken) (s : State) : State :=
  { s with sdk := some ⟨token.userId, some run.call⟩ }

/-- The answer to a call of Login. -/
def loginAnswered (isApp : Bool) (run : LoginRun) (attempt : Attempt) (token : IMToken)
    (s : State) : Answer → Option State
  | .done => some (setLogin run (.synced token) (sdkLogin run token s))
  | .error error => match attempt with
    | .first => if error = .repeated then some (setLogin run (.repeatUserId token) s)
      else if isApp = true ∧ error = .localDatabase then
        some (setLogin run (.recover .status s.loginEpoch token) s)
      else if error = .unloaded then some (setLogin run (.backoff token) s)
      else some (throwLogin error s)
    | .recovered => some (throwLogin error s)
    | .again => if error = .repeated then some (setLogin run (.synced token) s)
      else some (throwLogin error s)
  | _ => none

/-- After the `forceSdkLogout` in `loginSdk`. -/
def recovered (isApp : Bool) (run : LoginRun) (epoch : Nat) (token : IMToken) (s : State) : State :=
  if epoch ≠ s.loginEpoch then failLogin s
  else initAppSdk isApp run true token { resetLoginCache s with appSdkReadyUserId := [] }

def initAnswered (run : LoginRun) (stage : Init) (recovering : Bool) (token : IMToken) (s : State) :
    Answer → Option State
  | .done => match stage with
    | .dataDir => if s.appSdkReadyUserId = token.userId then some (afterInit run recovering token s)
      else some (setLogin run (.init .initSdk recovering token) s)
    | .initSdk => some (afterInit run recovering token { s with appSdkReadyUserId := token.userId })
  | .error error => some (throwLogin error s)
  | _ => none

/-- The library's answer to a Logout. -/
def sdkLogout (answer : Answer) (s : State) : State :=
  if answer = .done then { s with sdk := none } else s

/-- `doLogin` from one `await` to the next. -/
def stepLogin (isApp : Bool) (run : LoginRun) (answer : Answer) (now : Nat) (s : State) :
    Option State :=
  match run.pc with
  | .fetch =>
    match answer with
    | .token token =>
      if run.epoch ≠ s.loginEpoch then some (failLogin s)
      else some (initAppSdk isApp run false token s)
    | .error error => some (throwLogin error s)
    | _ => none
  | .init stage recovering token => initAnswered run stage recovering token s answer
  | .status token =>
    answer.loginStatus.map fun status =>
      setLogin run (if status = .logged then .userId token else .login .first token) s
  | .userId token =>
    answer.loginUserId.map fun id =>
      if run.force = false ∧ id = token.userId then
        if run.epoch ≠ s.loginEpoch then failLogin s else completeLogin run token now s
      else setLogin run (.logout token) s
  | .logout token =>
    if answer.settled then some (setLogin run (.login .first token) (sdkLogout answer s))
    else none
  | .login attempt token => loginAnswered isApp run attempt token s answer
  | .recover .status epoch token =>
    answer.loginStatus.map fun status =>
      if status = .logout then recovered isApp run epoch token s
      else setLogin run (.recover .logout epoch token) s
  | .recover .logout epoch token =>
    if answer.settled then some (recovered isApp run epoch token (sdkLogout answer s)) else none
  | .backoff token => if answer = .done then some (setLogin run (.login .again token) s) else none
  | .repeatUserId token =>
    answer.loginUserId.map fun id =>
      setLogin run (if id ≠ [] ∧ id ≠ token.userId then .repeatLogout token else .synced token) s
  | .repeatLogout token =>
    if answer.settled then some (setLogin run (.login .again token) (sdkLogout answer s))
    else none
  | .synced token =>
    if answer ≠ .done then none
    else if run.epoch ≠ s.loginEpoch then some (setLogin run .undo s)
    else some (completeLogin run token now s)
  | .undo => if answer.settled then some (failLogin (sdkLogout answer s)) else none

/-- Whether `reuseLiveSession` asks the library at all. -/
def reusable (now : Nat) (s : State) : Bool :=
  s.imUserId ≠ [] && s.accessToken ≠ [] && s.accessToken = s.boundAccessToken &&
    now < s.tokenExpireAt

/-- What an answer means to `reuseLiveSession`: it asks on, or it has a result. -/
inductive ReuseStep where
  | ask
  | result (user : Text)

def reuseLiveSession (stage : Reuse) (s : State) (answer : Answer) : Option ReuseStep :=
  match stage with
  | .userId =>
    answer.loginUserId.map fun logged =>
      if logged ≠ [] ∧ logged ≠ s.imUserId then .result []
      else if s.connected then .result s.imUserId
      else .ask
  | .status =>
    match answer with
    | .status status => some (.result (if status ≠ .logout then s.imUserId else []))
    | .error _ => some (.result s.imUserId)
    | _ => none

/-- `reloginSession` from the login on. -/
def joinLogin (call : Nat) (s : State) : State :=
  setPc call (.awaitLogin s.loginEpoch) (if s.loginPromise = none then startLogin call s else s)

/-- `reloginSession` where no session was reused. -/
def renewSession (call : Nat) (s : State) : State :=
  if s.imUserId ≠ [] ∨ s.connected = true ∨ s.boundAccessToken ≠ [] then
    let switchingAccount := s.accessToken = [] ∨
      (s.boundAccessToken ≠ [] ∧ s.accessToken ≠ s.boundAccessToken)
    let s := if switchingAccount then { invalidatePendingLogin s with appSdkReadyUserId := [] }
      else resetLoginCache s
    setPc call (.force .status .relogin) s
  else joinLogin call s

def reloginSession (call now : Nat) (s : State) : State :=
  if s.forceNextLogin = false ∧ reusable now s = true then setPc call (.reuse .userId) s
  else renewSession call s

def logoutTask (call : Nat) (s : State) : State :=
  setPc call (.force .status .logout) { invalidatePendingLogin s with appSdkReadyUserId := [] }

/-- The rest of the task of `reopenClosedSdkDatabase`, after the login under way. -/
def reopenTask (call epoch now : Nat) (s : State) : State :=
  if epoch ≠ s.loginEpoch then finish call s
  else reloginSession call now { s with forceNextLogin := true }

def runTask (call now : Nat) (task : Task) (s : State) : State :=
  match task with
  | .relogin => reloginSession call now s
  | .logout => logoutTask call s
  | .reopen epoch =>
    if epoch ≠ s.loginEpoch then finish call s
    else if s.loginPromise ≠ none then setPc call (.reopenWait epoch) s
    else reopenTask call epoch now s

/-- Runs the task at once if some task runs. -/
def enqueueSession (call now : Nat) (task : Task) (s : State) : State :=
  if 0 < s.sessionDepth then runTask call now task s
  else setPc call .queued { s with sessionChain := s.sessionChain ++ [(call, task)] }

/-- After the `forceSdkLogout` of a task. -/
def forced (call : Nat) (s : State) : ForcedBy → State
  | .relogin => joinLogin call s
  | .logout => finish call (resetLoginCache s)

/-- `ensureIMLogin`, whose first part is awaited at `pc`. -/
def ensureIMLogin (call now : Nat) (pc : Pc) (s : State) : State :=
  if s.forceNextLogin = false ∧ reusable now s = true then setPc call pc s
  else enqueueSession call now .relogin s

/-- `reloginSession` after the login. -/
def loginSettled (isApp : Bool) (call epoch : Nat) (result : LoginResult) (now : Nat) (s : State) :
    State :=
  if epoch ≠ s.loginEpoch then ensureIMLogin call now (.recheck .userId) s
  else if isApp = true ∧ result = .failed true then
    finish call (resetLoginCache { s with appSdkReadyUserId := [] })
  else finish call s

/-- A call from one `await` to the next. -/
def stepCall (isApp : Bool) (call : Nat) (answer : Answer) (now : Nat) (s : State) : Option State :=
  match s.pc call with
  | .check stage =>
    (reuseLiveSession stage s answer).map fun
      | .ask => setPc call (.check .status) s
      | .result user => if user ≠ [] then setPc call .done s else enqueueSession call now .relogin s
  | .recheck stage =>
    (reuseLiveSession stage s answer).map fun
      | .ask => setPc call (.recheck .status) s
      | .result user => if user ≠ [] then finish call s else enqueueSession call now .relogin s
  | .reuse stage =>
    (reuseLiveSession stage s answer).map fun
      | .ask => setPc call (.reuse .status) s
      | .result user => if user ≠ [] then finish call s else renewSession call s
  | .force .status by_ =>
    answer.loginStatus.map fun status =>
      if status = .logout then forced call s by_ else setPc call (.force .logout by_) s
  | .force .logout by_ =>
    if answer.settled then some (forced call (sdkLogout answer s) by_) else none
  | .orphan .status =>
    answer.loginStatus.map fun status =>
      setPc call (if status = .logout then .done else .orphan .logout) s
  | .orphan .logout =>
    if answer.settled then some (setPc call .done (sdkLogout answer s)) else none
  | .loginDone epoch result => some (loginSettled isApp call epoch result now s)
  | .reopenReady epoch => some (reopenTask call epoch now s)
  | _ => none

def newCall (s : State) : State := { s with calls := s.calls + 1 }

inductive Action where
  | ensureIMLogin (now : Nat)
  | logoutOpenIM (now : Nat)
  | reopenClosedSdkDatabase (now : Nat)
  | start (now : Nat)
  | resume (call : Nat) (answer : Answer) (now : Nat)
  | login (answer : Answer) (now : Nat)
  /-- The time limit of a logout. -/
  | timeout (call : Nat)
  /-- The user was kicked offline or the token has expired. -/
  | invalidated (loggedOut : Bool)
  | connection (up : Bool)
  | invalidateIMLoginCache
  | setToken (token : Text)

def step (isApp : Bool) (s : State) : Action → Option State
  | .ensureIMLogin now => some (ensureIMLogin s.calls now (.check .userId) (newCall s))
  | .logoutOpenIM now =>
    some (enqueueSession s.calls now .logout { newCall s with lastLogout := some s.calls })
  | .reopenClosedSdkDatabase now =>
    if s.closedDbRecovery ≠ none then some s
    else some (enqueueSession s.calls now (.reopen s.loginEpoch)
      { newCall s with closedDbRecovery := some s.calls })
  | .start now =>
    match s.sessionChain with
    | [] => none
    | (call, task) :: rest =>
      if 0 < s.sessionDepth then none
      else some (runTask call now task { s with
        sessionChain := rest
        sessionDepth := s.sessionDepth + 1
        chained := Function.update s.chained call true })
  | .resume call answer now => stepCall isApp call answer now s
  | .login answer now => s.loginPromise.bind fun run => stepLogin isApp run answer now s
  | .timeout call =>
    match s.pc call with
    | .force stage .logout =>
      some (setPc s.calls (.orphan stage) (newCall (finish call (resetLoginCache s))))
    | _ => none
  | .invalidated loggedOut =>
    some (invalidatePendingLogin { s with sdk := if loggedOut then none else s.sdk })
  | .connection up => some { s with connected := up }
  | .invalidateIMLoginCache => some (resetLoginCache s)
  | .setToken token => some { s with accessToken := token }

/-- A page that was just loaded. The library may still be logged in. -/
structure Loaded (s : State) : Prop where
  imUserId : s.imUserId = []
  loginPromise : s.loginPromise = none
  sessionChain : s.sessionChain = []
  sessionDepth : s.sessionDepth = 0
  closedDbRecovery : s.closedDbRecovery = none
  pc : s.pc = fun _ => .absent
  calls : s.calls = 0
  sdk : ∀ session, s.sdk = some session → session.by_ = none
  lastLogout : s.lastLogout = none

/-- `isApp` tells the app from the browser. -/
def machine (isApp : Bool) : Machine State Action where
  initial := Loaded
  step := step isApp

end ImApp.ImLogin
