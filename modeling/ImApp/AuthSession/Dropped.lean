import ImApp.AuthSession.SingleFlight
import Mathlib.Data.List.Infix

/-!
What `request` reports to its caller, with the texts of its errors, and the
redirection to the sign-in page when the session is dropped. The sending of a
request once more stands in the block that also waits for the refresh, and one
handler takes the errors of both.
-/

namespace ImApp.AuthSession

open JsonText (Text)
open StepSystem

/-- A parsed body. One that does not parse has the code -1. -/
structure Body where
  code : Int
  message : Text

/-- What `uni.request` ends with. -/
inductive Reply where
  | fail (errMsg : Text)
  | success (statusCode : Nat) (body : Body)

def Reply.answer : Reply → Answer
  | .fail _ => .failed
  | .success statusCode body => if 200 ≤ statusCode ∧ statusCode < 300 ∧ body.code = 0 then .ok
    else if statusCode = 401 then .unauthorized else .failed

def Reply.isFail : Reply → Bool
  | .fail _ => true
  | .success _ _ => false

def orText (message otherwise : Text) : Text := if message = [] then otherwise else message

def withStatus (front : Text) (statusCode : Nat) : Text :=
  front ++ '(' :: (Nat.toDigits 10 statusCode ++ [')'])

/-- The error that a reply without success amounts to; `front` is the text for a
body that has none. -/
def Reply.error (front : Text) : Reply → Text
  | .fail errMsg => orText errMsg "网络异常".toList
  | .success statusCode body => orText body.message (withStatus front statusCode)

def requestFailed : Text := "请求失败".toList

def refreshFailed : Text := "刷新登录失败".toList

def notSignedIn : Text := "未登录或登录已过期".toList

def authFailureTexts : List Text :=
  ["未登录".toList, "登录已过期".toList, "刷新登录失败".toList, "请求失败(401)".toList]

def isAuthFailureError (message : Text) : Bool :=
  authFailureTexts.any (fun text => decide (text <:+: message))

/-- What the handler throws on, after the session was dropped. -/
def caught (message : Text) : Text := if isAuthFailureError message then message else notSignedIn

inductive Outcome where
  | returned
  | threw (message : Text)
  | waits
  deriving DecidableEq

variable (platform : Platform)

def canRefresh (s : State) (request : Request) : Bool :=
  request.auth && !request.retried && !isRefreshEndpoint request.url && (s.tokens platform).2 ≠ []

/-- What becomes of a request by a reply. -/
def outcome (s : State) (request : Request) (reply : Reply) : Outcome :=
  match request.again, reply.answer with
  | _, .ok => .returned
  | true, .unauthorized => .threw (caught notSignedIn)
  | true, .failed => .threw (caught (reply.error requestFailed))
  | false, .unauthorized =>
    if canRefresh platform s request then .waits
    else if !request.auth then .threw (reply.error requestFailed)
    else .threw notSignedIn
  | false, .failed => .threw (reply.error requestFailed)

/-- The pair that a refresh brought. -/
def granted (reply : Reply) (data : Option TokenPair) : Option TokenPair :=
  if reply.answer = .ok then data.filter (fun pair => pair.accessToken ≠ []) else none

/-- What becomes of a request that waited for a refresh without success. -/
def refreshOutcome (reply : Reply) : Outcome := .threw (caught (reply.error refreshFailed))

def signInRoute : Text := "pages/auth/sign-in".toList

structure Client where
  base : State
  route : Text
  authRedirectScheduled : Bool
  redirects : Nat

/-- The second half of `handleAuthExpired`. Another call finds the redirection
scheduled. -/
def Client.redirect (c : Client) : Client :=
  if c.route = signInRoute ∨ c.authRedirectScheduled then c
  else { c with authRedirectScheduled := true, redirects := c.redirects + 1 }

inductive Event where
  | send (url : Text) (auth retried : Bool) (token : Option Text) (now : Nat)
  | replied (request : Nat) (reply : Reply) (now : Nat)
  | refreshReplied (refresh : Nat) (reply : Reply) (data : Option TokenPair) (now : Nat)
  | land (writeBack : Nat) (ok : Bool)
  | confirm (writeBack : Nat) (now : Nat)
  | logout (now : Nat)
  | login (pair : TokenPair) (now : Nat)
  | navigated (route : Text)
  | redirectOver

/-- What the tokens see of an event. -/
def Event.action : Event → Option Action
  | .send url auth retried token now => some (.send url auth retried token now)
  | .replied request reply now => some (.respond request reply.answer now)
  | .refreshReplied refresh reply data now => some (.refreshed refresh (granted reply data) now)
  | .land writeBack ok => some (.land writeBack ok)
  | .confirm writeBack now => some (.confirm writeBack now)
  | .logout now => some (.logout now)
  | .login pair now => some (.login pair now)
  | .navigated _ => none
  | .redirectOver => none

/-- The events in which code of `request` runs. -/
def Event.isReply : Event → Bool
  | .replied _ _ _ => true
  | .refreshReplied _ _ _ _ => true
  | _ => false

/-- `handleAuthExpired` was called if the step of `request` ended the session. -/
def Client.after (c : Client) (isReply : Bool) (base : State) : Client :=
  if isReply ∧ base.session ≠ c.base.session then { c with base }.redirect else { c with base }

def Client.step (c : Client) (event : Event) : Option Client :=
  match event with
  | .navigated route => some { c with route }
  | .redirectOver => some { c with authRedirectScheduled := false }
  | event => event.action.bind fun action =>
    (AuthSession.step platform c.base action).map (c.after event.isReply)

def clientMachine : Machine Client Event where
  initial c := Idle c.base ∧ c.authRedirectScheduled = false ∧ c.redirects = 0
  step := Client.step platform

end ImApp.AuthSession

/-!
When a reply ends the session. It should take a failed authentication: a refresh
that is rejected, or a request with a token that is answered 401 where no refresh
is possible or one was made. Three other kinds of replies end it as well: an error
of another kind to a request that is sent once more, a refresh that gets no answer,
and a 401 to a request that carried no token while one is stored by now.
-/

namespace ImApp.AuthSession

open JsonText (Text)
open StepSystem List Option

variable {platform : Platform}

/-- The request was sent with a token. -/
def Request.carries (request : Request) : Bool := request.auth && request.token ≠ []

variable (platform) in
/-- The authentication failed. -/
def AuthFailure (s : State) : Event → Prop
  | .replied index reply _ => ∃ request, s.requests[index]? = some request ∧
      reply.answer = .unauthorized ∧ request.carries = true ∧
      (request.again = true ∨ canRefresh platform s request = false)
  | .refreshReplied _ reply data _ => reply.isFail = false ∧ granted reply data = none
  | _ => False

/-- The session was cleared or the user was sent to the sign-in page. -/
def Client.dropped (c next : Client) : Prop :=
  next.base.session ≠ c.base.session ∨ next.redirects ≠ c.redirects

variable (platform) in
/-- A step of `request` drops the session only where the authentication failed, and
another error of a request sent once more goes to its caller and leaves the tokens. -/
structure DropsOnlyForAuth (c : Client) (event : Event) (next : Client) : Prop where
  dropped : event.isReply = true → c.dropped next → AuthFailure platform c.base event
  reported : ∀ index reply now request, event = .replied index reply now →
    c.base.requests[index]? = some request → request.again = true → reply.answer = .failed →
    outcome platform c.base request reply = .threw (reply.error requestFailed) ∧
      next.base.session = c.base.session ∧
      next.base.tokens platform = c.base.tokens platform

variable (platform) in
/-- A reply that is none of the three kinds. -/
def Unmistaken (s : State) : Event → Prop
  | .replied index reply _ => ∀ request, s.requests[index]? = some request →
      ¬(request.again = true ∧ reply.answer = .failed) ∧
      ¬(request.again = false ∧ reply.answer = .unauthorized ∧ request.auth = true ∧
        request.carries = false ∧ canRefresh platform s request = false ∧
        (s.tokens platform).1 ≠ [])
  | .refreshReplied index reply _ _ => ∀ refresh, s.refreshes[index]? = some refresh →
      reply.isFail = true → ∀ entry ∈ s.waiting, entry.1 ≠ refresh.id
  | _ => True

/-- A request that is sent once more carries a token, and one that waits will. -/
structure Carrying (s : State) : Prop where
  again : ∀ request ∈ s.requests, request.again = true → request.carries = true
  waiting : ∀ entry ∈ s.waiting, entry.2.auth = true

variable {s base : State}

theorem Carrying.of_eq {next : State} (h : Carrying s) (hrequests : next.requests = s.requests)
    (hwait : next.waiting = s.waiting) : Carrying next where
  again := by
    rw [hrequests]
    exact h.again
  waiting := by
    rw [hwait]
    exact h.waiting

theorem Carrying.read (h : Carrying s) (storage : Storage) : Carrying { s with storage } :=
  h.of_eq rfl rfl

theorem Carrying.erase (h : Carrying s) (index : Nat) :
    Carrying { s with requests := s.requests.eraseIdx index } where
  again request hreq := h.again request (mem_of_mem_eraseIdx hreq)
  waiting := h.waiting

variable {request : Request}

section

variable (h : Carrying s)
include h

theorem Carrying.sent {storage : Storage} (hfirst : request.again = false) :
    Carrying { s with storage, requests := s.requests ++ [request] } where
  again other hother hagain := by
    rcases mem_append.mp hother with hpre | hnew
    · exact h.again other hpre hagain
    rw [mem_singleton.mp hnew, hfirst] at hagain
    cases hagain
  waiting := h.waiting

theorem Carrying.send (url : Text) (auth retried : Bool) (token : Option Text) (now : Nat) :
    Carrying (AuthSession.send platform url auth retried token now s) := by
  cases token with
  | none | some token => exact h.sent rfl

theorem Carrying.wait (hauth : request.auth = true)
    (id : Nat) : Carrying { s with waiting := s.waiting ++ [(id, request)] } where
  again := h.again
  waiting entry hentry := by
    rcases mem_append.mp hentry with hpre | hnew
    · exact h.waiting entry hpre
    rw [mem_singleton.mp hnew]
    exact hauth

theorem Carrying.refreshAccessToken (hauth : request.auth = true) (now : Nat) :
    Carrying (AuthSession.refreshAccessToken platform request now s) := by
  rw [AuthSession.refreshAccessToken]
  dsimp only
  split
  · exact h.of_eq rfl rfl
  split
  case h_1 id _ => exact (h.wait hauth id).of_eq rfl rfl
  case h_2 => exact (h.wait hauth s.nextRefresh).of_eq rfl rfl

theorem Carrying.unauthorized (request : Request) (now : Nat) :
    Carrying (AuthSession.unauthorized platform request now s) := by
  rw [AuthSession.unauthorized]
  dsimp only
  split
  case isTrue hcan =>
    simp only [Bool.and_eq_true] at hcan
    exact (h.read _).refreshAccessToken hcan.1.1.1 now
  case isFalse =>
    split
    · exact h.of_eq rfl rfl
    split <;> exact h.of_eq rfl rfl

theorem Carrying.respond (request : Request) (answer : Answer)
    (now : Nat) : Carrying (AuthSession.respond platform request answer now s) := by
  rw [AuthSession.respond.eq_def]
  split
  · exact h.unauthorized request now
  · exact h
  · exact h
  · exact h.of_eq rfl rfl
  exact h.of_eq rfl rfl

theorem Carrying.expired (now : Nat) (waiters : List Request) :
    Carrying (waiters.foldl (fun s _ => handleAuthExpired platform now s) s) := by
  induction waiters generalizing s with
  | nil => exact h
  | cons waiter waiters ih =>
    have hnext : Carrying (handleAuthExpired platform now s) := h.of_eq rfl rfl
    exact ih hnext

theorem Carrying.refreshed (refresh : Refresh) (pair : Option TokenPair) (now : Nat) :
    Carrying (AuthSession.refreshed platform refresh pair now s) := by
  have hrest : Carrying { s with
      refreshingTokenPromise := none
      waiting := s.waiting.filter (fun entry => entry.1 ≠ refresh.id) } :=
    ⟨h.again, fun entry hentry => h.waiting entry (mem_of_mem_filter hentry)⟩
  rw [AuthSession.refreshed]
  dsimp only
  split
  case h_1 pair hpair =>
    have htoken : pair.accessToken ≠ [] := by simpa using (mem_filter_iff.mp hpair).2
    refine ⟨?_, hrest.waiting⟩
    intro request hreq hagain
    rcases mem_append.mp hreq with hpre | hnew
    · exact h.again request hpre hagain
    obtain ⟨waiter, hwaiter, rfl⟩ := List.mem_map.mp hnew
    obtain ⟨entry, hentry, rfl⟩ := List.mem_map.mp hwaiter
    have hauth := h.waiting entry (mem_of_mem_filter hentry)
    simp [Request.carries, hauth, htoken]
  case h_2 => exact hrest.expired now _

theorem carrying_step {next : State} {action : Action}
    (hstep : step platform s action = some next) : Carrying next := by
  cases action with
  | send url auth retried token now =>
    cases hstep
    exact h.send url auth retried token now
  | respond index answer now =>
    obtain ⟨request, -, rfl⟩ := map_eq_some_iff.mp hstep
    exact (h.erase index).respond request answer now
  | refreshed index pair now =>
    obtain ⟨refresh, -, rfl⟩ := map_eq_some_iff.mp hstep
    have herased : Carrying { s with refreshes := s.refreshes.eraseIdx index } := h.of_eq rfl rfl
    exact herased.refreshed refresh pair now
  | land index ok =>
    obtain ⟨writeBack, -, rfl⟩ := map_eq_some_iff.mp hstep
    cases ok with
    | false | true => exact h.of_eq rfl rfl
  | confirm index now =>
    obtain ⟨writeBack, -, rfl⟩ := map_eq_some_iff.mp hstep
    rw [confirm]
    cases writeBack.key with
    | access | refresh =>
      dsimp only
      split <;> exact h.of_eq rfl rfl
  | logout now | login pair now =>
    cases hstep
    exact h.of_eq rfl rfl

end

@[simp] theorem redirect_base (c : Client) : c.redirect.base = c.base := by
  rw [Client.redirect]
  split <;> rfl

@[simp] theorem after_base (c : Client) (isReply : Bool) (base : State) :
    (c.after isReply base).base = base := by
  rw [Client.after]
  split
  · exact redirect_base _
  rfl

variable {c : Client}

theorem after_redirects {isReply : Bool}
    (h : base.session = c.base.session) : (c.after isReply base).redirects = c.redirects := by
  rw [Client.after, if_neg (fun hboth => hboth.2 h)]

theorem step_cases {next : Client} {event : Event} (h : c.step platform event = some next) :
    (event.isReply = false ∧ next.base = c.base) ∨
      ∃ action base, event.action = some action ∧ step platform c.base action = some base ∧
        next = c.after event.isReply base := by
  have hthrough : ∀ event : Event, (event.action.bind fun action =>
        (step platform c.base action).map (c.after event.isReply)) = some next →
      ∃ action base, event.action = some action ∧ step platform c.base action = some base ∧
        next = c.after event.isReply base := by
    intro event hnext
    obtain ⟨action, haction, hmap⟩ := bind_eq_some_iff.mp hnext
    obtain ⟨base, hbase, hafter⟩ := map_eq_some_iff.mp hmap
    exact ⟨action, base, haction, hbase, hafter.symm⟩
  cases event with
  | navigated route | redirectOver =>
    cases h
    exact .inl ⟨rfl, rfl⟩
  | _ => exact .inr (hthrough _ h)

theorem carrying_client {next : Client} {event : Event} (h : Carrying c.base)
    (hstep : c.step platform event = some next) : Carrying next.base := by
  rcases step_cases hstep with ⟨-, hsame⟩ | ⟨action, base, -, hbase, rfl⟩
  · rw [hsame]
    exact h
  rw [after_base]
  exact carrying_step h hbase

theorem carrying_reachable (h : (clientMachine platform).Reachable c) : Carrying c.base := by
  refine h.invariant (fun c => Carrying c.base) ?_ ?_
  · intro c hinitial
    exact ⟨by simp [hinitial.1.requests], by simp [hinitial.1.waiting]⟩
  intro c event next _ hcarrying hstep
  exact carrying_client hcarrying hstep

theorem session_refreshAccessToken (now : Nat) (htoken : (s.tokens platform).2 ≠ []) :
    (refreshAccessToken platform request now s).session = s.session := by
  rw [refreshAccessToken]
  simp only [getRefreshToken_fst]
  rw [if_neg htoken]
  split <;> rfl

variable (platform) in
/-- A 401 to a first request ends the session. -/
def ends (s : State) (request : Request) : Bool :=
  !canRefresh platform s request && request.auth && (s.tokens platform).1 ≠ []

theorem session_unauthorized (request : Request) (now : Nat) :
    (unauthorized platform request now s).session =
      if ends platform s request then s.session + 1 else s.session := by
  have hread : (State.tokens platform
      { s with storage := (getRefreshToken platform.currentTabId now s.storage).2 }) =
        s.tokens platform := by
    rw [State.tokens, getRefreshToken_snd]
    exact tokens_slotOfThisTab
  rw [unauthorized, ends]
  simp only [getRefreshToken_fst, getToken_fst]
  split
  case isTrue hcan =>
    have hcanRefresh : canRefresh platform s request = true := hcan
    have htoken : (s.tokens platform).2 ≠ [] := by
      simp only [Bool.and_eq_true, decide_eq_true_eq] at hcan
      exact hcan.2
    rw [session_refreshAccessToken now (by rwa [hread]), hcanRefresh]
    rfl
  case isFalse hcan =>
    have hcannot : canRefresh platform s request = false := Bool.eq_false_iff.mpr hcan
    rw [hcannot]
    cases request.auth with
    | false => rfl
    | true =>
      have htokens : tokens platform.currentTabId
          (getRefreshToken platform.currentTabId now s.storage).2 = s.tokens platform := hread
      rw [htokens]
      by_cases htoken : (s.tokens platform).1 = []
      · simp [htoken]
      simp [htoken, handleAuthExpired, logout]

variable (platform) in
/-- How often a reply ends the session. -/
def ended (s : State) (request : Request) : Answer → Nat
  | .ok => 0
  | .failed => if request.again then 1 else 0
  | .unauthorized => if request.again then 2 else if ends platform s request then 1 else 0

theorem session_respond (request : Request) (answer : Answer) (now : Nat) :
    (respond platform request answer now s).session =
      s.session + ended platform s request answer := by
  rw [respond.eq_def]
  cases hagain : request.again with
  | false =>
    cases answer with
    | ok => rfl
    | failed => simp [ended, hagain]
    | unauthorized =>
      dsimp only
      rw [session_unauthorized]
      simp only [ended, hagain]
      split <;> rfl
  | true =>
    cases answer with
    | ok => rfl
    | failed | unauthorized => simp [ended, hagain, handleAuthExpired, logout]

theorem session_expired (now : Nat) (waiters : List Request) :
    (waiters.foldl (fun s _ => handleAuthExpired platform now s) s).session =
      s.session + waiters.length := by
  induction waiters generalizing s with
  | nil => rfl
  | cons waiter waiters ih =>
    rw [foldl_cons, ih]
    simp only [handleAuthExpired, logout, length_cons]
    omega

/-- The requests that wait for a refresh. -/
def State.waiters (s : State) (refresh : Refresh) : List Request :=
  (s.waiting.filter (fun entry => entry.1 = refresh.id)).map Prod.snd

theorem session_refreshed (refresh : Refresh) (pair : Option TokenPair) (now : Nat)
    (hpair : ∀ p, pair = some p → p.accessToken ≠ []) :
    (refreshed platform refresh pair now s).session =
      if pair.isSome then s.session else s.session + (s.waiters refresh).length := by
  rw [refreshed]
  cases pair with
  | none => exact session_expired now _
  | some p =>
    have hkept : (some p).filter (fun pair => decide (pair.accessToken ≠ [])) = some p := by
      simp [Option.filter, hpair p rfl]
    dsimp only
    rw [hkept]
    rfl

variable {reply : Reply}

theorem granted_token {data : Option TokenPair} {pair : TokenPair}
    (h : granted reply data = some pair) : pair.accessToken ≠ [] := by
  rw [granted] at h
  split at h
  · simpa using (mem_filter_iff.mp h).2
  cases h

theorem granted_fail (data : Option TokenPair) (h : reply.isFail = true) :
    granted reply data = none := by
  cases reply with
  | fail errMsg => rfl
  | success statusCode body => cases h

theorem dropped_after {isReply : Bool} :
    c.dropped (c.after isReply base) ↔ base.session ≠ c.base.session := by
  constructor
  · rintro (hsess | hredirects)
    · rwa [after_base] at hsess
    intro hsame
    exact hredirects (after_redirects hsame)
  intro hsess
  left
  rwa [after_base]

theorem replied_iff (hcarrying : Carrying c.base) {index : Nat}
    {now : Nat} (hreq : c.base.requests[index]? = some request) (hsess : base.session =
      c.base.session + ended platform c.base request reply.answer) :
    DropsOnlyForAuth platform c (.replied index reply now) (c.after true base) ↔
      Unmistaken platform c.base (.replied index reply now) := by
  have hagain := hcarrying.again request (mem_of_getElem? hreq)
  constructor
  · rintro ⟨hdropped, hreported⟩ other hother
    obtain rfl : other = request := some.inj (hother.symm.trans hreq)
    constructor
    · rintro ⟨hrepeat, hfailed⟩
      obtain ⟨-, hkept, -⟩ := hreported index reply now other rfl hreq hrepeat hfailed
      rw [after_base, hsess, hfailed, ended, if_pos hrepeat] at hkept
      omega
    rintro ⟨hfirst, hunauthorized, hauth, hbare, hcannot, htoken⟩
    have hends : ends platform c.base other = true := by simp [ends, hcannot, hauth, htoken]
    have hchanged : base.session ≠ c.base.session := by
      rw [hsess, hunauthorized, ended, if_neg (by simp [hfirst]), if_pos hends]
      omega
    obtain ⟨found, hfound, -, hcarries, -⟩ := hdropped rfl (dropped_after.mpr hchanged)
    obtain rfl : found = other := some.inj (hfound.symm.trans hreq)
    rw [hbare] at hcarries
    cases hcarries
  intro hunmistaken
  obtain ⟨hnotFailed, hnotBare⟩ := hunmistaken request hreq
  constructor
  · intro _ hdropped
    have hchanged := dropped_after.mp hdropped
    rw [hsess] at hchanged
    refine ⟨request, hreq, ?_⟩
    cases hanswer : reply.answer with
    | ok => simp [hanswer, ended] at hchanged
    | failed =>
      rw [hanswer, ended] at hchanged
      split at hchanged
      case isTrue hrepeat => exact absurd ⟨hrepeat, hanswer⟩ hnotFailed
      case isFalse => exact absurd rfl hchanged
    | unauthorized =>
      rw [hanswer, ended] at hchanged
      split at hchanged
      case isTrue hrepeat => exact ⟨rfl, hagain hrepeat, .inl hrepeat⟩
      case isFalse hfirst =>
        split at hchanged
        case isTrue hends =>
          simp only [ends, Bool.and_eq_true, Bool.not_eq_true', decide_eq_true_eq] at hends
          obtain ⟨⟨hcannot, hauth⟩, htoken⟩ := hends
          refine ⟨rfl, ?_, .inr hcannot⟩
          by_contra hbare
          exact hnotBare ⟨Bool.eq_false_iff.mpr hfirst, hanswer, hauth,
            Bool.eq_false_iff.mpr hbare, hcannot, htoken⟩
        case isFalse => exact absurd rfl hchanged
  rintro _ _ _ other ⟨rfl, rfl, rfl⟩ hother hrepeat hfailed
  obtain rfl : other = request := some.inj (hother.symm.trans hreq)
  exact absurd ⟨hrepeat, hfailed⟩ hnotFailed

theorem refreshReplied_iff {index : Nat} {data : Option TokenPair}
    {now : Nat} {refresh : Refresh} (hrefresh : c.base.refreshes[index]? = some refresh) (hsess : base.session = if (granted reply data).isSome then c.base.session
      else c.base.session + (c.base.waiters refresh).length) :
    DropsOnlyForAuth platform c (.refreshReplied index reply data now) (c.after true base) ↔
      Unmistaken platform c.base (.refreshReplied index reply data now) := by
  constructor
  · rintro ⟨hdropped, -⟩ other hother hfail entry hentry hid
    obtain rfl : other = refresh := some.inj (hother.symm.trans hrefresh)
    have hwaiter : entry.2 ∈ c.base.waiters other :=
      List.mem_map_of_mem (mem_filter.mpr ⟨hentry, decide_eq_true hid⟩)
    have hpositive := length_pos_of_mem hwaiter
    have hchanged : base.session ≠ c.base.session := by
      rw [hsess, granted_fail data hfail, isSome_none, if_neg (by decide)]
      omega
    obtain ⟨hans, -⟩ := hdropped rfl (dropped_after.mpr hchanged)
    rw [hfail] at hans
    cases hans
  intro hunmistaken
  constructor
  · intro _ hdropped
    have hchanged := dropped_after.mp hdropped
    rw [hsess] at hchanged
    cases hgrant : granted reply data with
    | some pair => exact absurd (by simp [hgrant]) hchanged
    | none =>
      refine ⟨?_, hgrant⟩
      by_contra hfail
      have hnone : c.base.waiters refresh = [] := by
        rw [State.waiters, map_eq_nil_iff, filter_eq_nil_iff]
        intro entry hentry
        simpa using hunmistaken refresh hrefresh (by simpa using hfail) entry hentry
      exact absurd (by simp [hgrant, hnone]) hchanged
  rintro _ _ _ _ ⟨⟩

/-- In every step of every run the session is dropped for a failed authentication
only, and other errors are reported, exactly if the step is not one of the mistaken
replies. -/
theorem session_dropped_for_auth_iff {c next : Client} {event : Event}
    (hreach : (clientMachine platform).Reachable c) (hstep : c.step platform event = some next) :
    DropsOnlyForAuth platform c event next ↔ Unmistaken platform c.base event := by
  have hcarrying := carrying_reachable hreach
  have hother : event.isReply = false → (∀ index reply now, event ≠ .replied index reply now) →
      DropsOnlyForAuth platform c event next := by
    intro hreply hne
    constructor
    · intro hyes
      rw [hreply] at hyes
      cases hyes
    intro index reply now _ heq
    exact absurd heq (hne index reply now)
  cases event with
  | replied index reply now =>
    rcases step_cases hstep with ⟨hreply, -⟩ | ⟨action, base, haction, hbase, rfl⟩
    · cases hreply
    cases haction
    obtain ⟨request, hreq, rfl⟩ := map_eq_some_iff.mp hbase
    exact replied_iff hcarrying hreq (session_respond request reply.answer now)
  | refreshReplied index reply data now =>
    rcases step_cases hstep with ⟨hreply, -⟩ | ⟨action, base, haction, hbase, rfl⟩
    · cases hreply
    cases haction
    obtain ⟨refresh, hrefresh, rfl⟩ := map_eq_some_iff.mp hbase
    exact refreshReplied_iff hrefresh
      (session_refreshed refresh (granted reply data) now (fun p hp => granted_token hp))
  | _ =>
    refine ⟨fun _ => trivial, fun _ => hother rfl ?_⟩
    rintro _ _ _ ⟨⟩

def signedInClient : Client where
  base := signedIn
  route := "pages/chat/list".toList
  authRedirectScheduled := false
  redirects := 0

/-- A request that is answered 401, so that its tokens are refreshed. -/
def expiredRequest : List Event :=
  [.send ['x'] true false none 2, .replied 0 (.success 401 ⟨401, []⟩) 3]

/-- The refresh is rejected. -/
def rejectedRefresh : Event := .refreshReplied 0 (.success 401 ⟨401, []⟩) none 4

theorem signedInClient_initial : (clientMachine (.web ['t'])).initial signedInClient :=
  ⟨signedIn_idle, rfl, rfl⟩

theorem session_dropped_for_auth_iff_rejected : ∃ c next : Client,
    c.dropped next ∧ DropsOnlyForAuth (.web ['t']) c rejectedRefresh next := by
  have hrun : ((clientMachine (.web ['t'])).execute signedInClient expiredRequest).any (fun c =>
      c.redirects = 0 && (c.step (.web ['t']) rejectedRefresh).any (fun next =>
        next.redirects = 1)) = true := by
    decide +kernel
  obtain ⟨c, hc, hchecked⟩ := (any_eq_true _ _).mp hrun
  rw [Bool.and_eq_true] at hchecked
  obtain ⟨next, hnext, hredirects⟩ := (any_eq_true _ _).mp hchecked.2
  have hpre : c.redirects = 0 := of_decide_eq_true hchecked.1
  have hafter : next.redirects = 1 := of_decide_eq_true hredirects
  refine ⟨c, next, .inr (by omega), ?_⟩
  apply (session_dropped_for_auth_iff (Machine.reachable_of_execute signedInClient_initial hc)
    hnext).mpr
  rintro refresh - hfail
  cases hfail

/-- The refresh succeeds, and the request that is sent once more is turned down. -/
def refreshedRequest : List Event :=
  expiredRequest ++ [.refreshReplied 0 (.success 200 ⟨0, []⟩) (some (samplePair '2')) 4]

def turnedDown : Reply := .success 409 ⟨1, "余额不足".toList⟩

theorem turned_down_drops_session : ∃ c next : Client, (clientMachine (.web ['t'])).Reachable c ∧
      c.step (.web ['t']) (.replied 0 turnedDown 5) = some next ∧
      c.base.tokens (.web ['t']) = (['a', '2'], ['r', '2']) ∧
      next.base.tokens (.web ['t']) = ([], []) ∧ next.redirects = 1 ∧
      c.base.requests.all (fun request =>
        outcome (.web ['t']) c.base request turnedDown = .threw notSignedIn) = true ∧
      ¬DropsOnlyForAuth (.web ['t']) c (.replied 0 turnedDown 5) next := by
  have hrun : ((clientMachine (.web ['t'])).execute signedInClient refreshedRequest).any (fun c =>
      c.redirects = 0 && c.base.tokens (.web ['t']) = (['a', '2'], ['r', '2']) &&
      c.base.requests.all (fun request =>
        outcome (.web ['t']) c.base request turnedDown = .threw notSignedIn) &&
      (c.step (.web ['t']) (.replied 0 turnedDown 5)).any (fun next =>
        next.base.tokens (.web ['t']) = ([], []) && next.redirects = 1)) = true := by
    decide +kernel
  obtain ⟨c, hc, hchecked⟩ := (any_eq_true _ _).mp hrun
  simp only [Bool.and_eq_true, decide_eq_true_eq] at hchecked
  obtain ⟨⟨⟨hpre, htokens⟩, houtcome⟩, hstep⟩ := hchecked
  obtain ⟨next, hnext, hafter⟩ := (any_eq_true _ _).mp hstep
  simp only [Bool.and_eq_true, decide_eq_true_eq] at hafter
  refine ⟨c, next, Machine.reachable_of_execute signedInClient_initial hc, hnext, htokens, hafter.1,
    hafter.2, houtcome, ?_⟩
  rintro ⟨hdropped, -⟩
  obtain ⟨request, -, hunauthorized, -⟩ := hdropped rfl (.inr (by omega))
  exact absurd hunauthorized (by decide)

end ImApp.AuthSession
