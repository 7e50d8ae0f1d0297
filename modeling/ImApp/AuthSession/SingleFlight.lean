import ImApp.AuthSession.Refresh
import Mathlib.Data.List.Nodup

/-!
What holds of refreshing while sessions are ended only when no refresh and no
write of its tokens is under way: there is one refresh at a time, each refresh
token is sent once, and refreshed tokens are written for the session they were
asked for. A refresh that is overtaken by a logout writes all the same.
-/

namespace ImApp.AuthSession

open JsonText (Text)
open StepSystem List Option Bool

/-- One refresh at a time, no refresh token sent twice, no tokens written into
the slot of another session. -/
structure TokensSafe (s : State) : Prop where
  single : s.refreshes.length ≤ 1
  once : s.sent.Nodup
  own : ∀ write ∈ s.writes, write.asked = write.holder

variable {platform : Platform}

/-- The tokens of the page. -/
abbrev State.tokens (platform : Platform) (s : State) : Text × Text :=
  AuthSession.tokens platform.currentTabId s.storage

variable (platform) in
/-- An answer to a request that signs the user out. -/
def expires (s : State) (request : Request) : Answer → Bool
  | .ok => false
  | .failed => request.again
  | .unauthorized => request.again ||
      (request.auth && (request.retried || isRefreshEndpoint request.url ||
        (s.tokens platform).2 = []) && (s.tokens platform).1 ≠ [])

variable (platform) in
def endsSession (s : State) : Action → Bool
  | .logout _ => true
  | .login _ _ => true
  | .respond index answer _ =>
    s.requests[index]?.any (fun request => expires platform s request answer)
  | _ => false

/-- The refresh token that the server issues. -/
def issued : Action → Option Text
  | .login pair _ => some pair.refreshToken
  | .refreshed _ pair _ => pair.map TokenPair.refreshToken
  | _ => none

def isAnswer : Action → Bool
  | .refreshed _ _ _ => true
  | _ => false

variable (platform) in
/-- A session ends while no refresh is under way, and neither a session ends nor
a refresh is answered while tokens are being written. The server issues new
refresh tokens. -/
def Undisturbed (s : State) (action : Action) : Prop :=
  (endsSession platform s action = true → s.refreshes = [] ∧ s.writeBacks = []) ∧
    (isAnswer action = true → s.writeBacks = []) ∧
      (issued action).all (fun token => !s.sent.contains token) = true

instance (s : State) (action : Action) : Decidable (Undisturbed platform s action) :=
  inferInstanceAs (Decidable (_ ∧ _ ∧ _))

/-- The refresh under way, if any, is that of the promise, and it was asked for
in the present session; requests wait for it. -/
inductive InFlight (s : State) : Prop where
  | none (refreshes : s.refreshes = []) (promise : s.refreshingTokenPromise = none)
      (waiting : s.waiting = [])
  | one (refresh : Refresh) (refreshes : s.refreshes = [refresh])
      (promise : s.refreshingTokenPromise = some refresh.id) (waiting : s.waiting ≠ [])
      (awaits : ∀ entry ∈ s.waiting, entry.1 = refresh.id) (session : refresh.session = s.session)

/-- A write under way writes what is there. -/
def Harmless (platform : Platform) (s : State) (writeBack : WriteBack) : Prop :=
  platform = .app ∧ (∀ asked, writeBack.asked = some asked → asked = s.session) ∧
    match writeBack.key with
    | .access => (s.tokens platform).1 = writeBack.token
    | .refresh => (s.tokens platform).2 = writeBack.token

structure Invariant (platform : Platform) (s : State) : Prop where
  flight : InFlight s
  once : s.sent.Nodup
  nonempty : [] ∉ s.sent
  unsent : s.refreshes = [] → (s.tokens platform).2 ∉ s.sent
  writeBacks : ∀ writeBack ∈ s.writeBacks, Harmless platform s writeBack
  own : ∀ write ∈ s.writes, write.asked = write.holder

variable {s : State}

theorem Invariant.safe (h : Invariant platform s) : TokensSafe s := by
  refine ⟨?_, h.once, h.own⟩
  cases h.flight with
  | none refreshes | one refresh refreshes => simp [refreshes]

theorem InFlight.of_eq {s' : State} (h : InFlight s) (hrefreshes : s'.refreshes = s.refreshes)
    (hpromise : s'.refreshingTokenPromise = s.refreshingTokenPromise)
    (hwait : s'.waiting = s.waiting) (hsess : s'.session = s.session) : InFlight s' := by
  cases h with
  | none refreshes promise waiting =>
    exact .none (hrefreshes.trans refreshes) (hpromise.trans promise) (hwait.trans waiting)
  | one refresh refreshes promise waiting awaits session =>
    exact .one refresh (hrefreshes.trans refreshes) (hpromise.trans promise) (hwait ▸ waiting)
      (hwait ▸ awaits) (session.trans hsess.symm)

theorem Invariant.read (h : Invariant platform s) {storage : Storage}
    (htokens : tokens platform.currentTabId storage = s.tokens platform)
    (requests : List Request) : Invariant platform { s with storage, requests } := by
  refine ⟨h.flight.of_eq rfl rfl rfl rfl, h.once, h.nonempty, ?_, ?_, h.own⟩
  · intro hnone
    rw [State.tokens, htokens]
    exact h.unsent hnone
  intro writeBack hmem
  rw [Harmless, State.tokens, htokens]
  exact h.writeBacks writeBack hmem

/-- What is needed of a state whose tokens are about to be replaced. -/
structure Quiet (s : State) : Prop where
  flight : s.refreshes = [] ∧ s.refreshingTokenPromise = none ∧ s.waiting = []
  once : s.sent.Nodup
  nonempty : [] ∉ s.sent
  writeBacks : s.writeBacks = []
  own : ∀ write ∈ s.writes, write.asked = write.holder

theorem Invariant.quiet (h : Invariant platform s) (hrefreshes : s.refreshes = [])
    (hwriteBacks : s.writeBacks = []) : Quiet s := by
  refine ⟨?_, h.once, h.nonempty, hwriteBacks, h.own⟩
  cases h.flight with
  | none refreshes promise waiting => exact ⟨refreshes, promise, waiting⟩
  | one refresh refreshes =>
    rw [refreshes] at hrefreshes
    cases hrefreshes

theorem Quiet.read (h : Quiet s) (storage : Storage) : Quiet { s with storage } :=
  ⟨h.flight, h.once, h.nonempty, h.writeBacks, h.own⟩

theorem Quiet.invariant (h : Quiet s) (hunsent : (s.tokens platform).2 ∉ s.sent) :
    Invariant platform s := by
  obtain ⟨refreshes, promise, waiting⟩ := h.flight
  refine ⟨.none refreshes promise waiting, h.once, h.nonempty, fun _ => hunsent, ?_, h.own⟩
  simp [h.writeBacks]

theorem Quiet.logout (h : Quiet s) (now : Nat) :
    Quiet (logout platform now s) ∧ Invariant platform (logout platform now s) := by
  have hquiet : Quiet (AuthSession.logout platform now s) :=
    ⟨h.flight, h.once, h.nonempty, h.writeBacks, h.own⟩
  refine ⟨hquiet, hquiet.invariant ?_⟩
  rw [State.tokens, AuthSession.logout, tokens_clearToken]
  exact h.nonempty

theorem persist_tokens (now : Nat) (pair : TokenPair) (storage : Storage) :
    tokens platform.currentTabId (persist platform now pair storage) =
      (pair.accessToken, pair.refreshToken) := by
  cases platform with
  | web tab =>
    let stored :=
      setRefreshToken tab now pair.refreshToken (setToken tab now pair.accessToken storage)
    have hset : tokens tab stored = (pair.accessToken, pair.refreshToken) :=
      tokens_set pair.accessToken pair.refreshToken
    have haccess : tokens tab (confirmToken tab now pair.accessToken stored) = tokens tab stored :=
      tokens_confirmToken (congrArg Prod.fst hset)
    have hboth := haccess.trans hset
    exact (tokens_confirmRefreshToken (congrArg Prod.snd hboth)).trans hboth
  | app => exact tokens_set pair.accessToken pair.refreshToken

theorem Quiet.storeTokens (h : Quiet s) (now : Nat) {pair : TokenPair}
    (asked : Option Nat) (hasked : ∀ session, asked = some session → session = s.session)
    (hfresh : pair.refreshToken ∉ s.sent) :
    Invariant platform (storeTokens platform now pair asked s) := by
  have htokens : (AuthSession.storeTokens platform now pair asked s).tokens platform =
      (pair.accessToken, pair.refreshToken) := persist_tokens now pair _
  obtain ⟨refreshes, promise, waiting⟩ := h.flight
  refine ⟨.none refreshes promise waiting, h.once, h.nonempty, ?_, ?_, h.own⟩
  · intro _
    rw [htokens]
    exact hfresh
  intro writeBack hmem
  rw [AuthSession.storeTokens, h.writeBacks, nil_append] at hmem
  rw [Harmless, htokens]
  cases platform with
  | web tab => cases hmem
  | app =>
    refine ⟨rfl, ?_⟩
    rcases mem_cons.mp hmem with rfl | hmem
    · exact ⟨hasked, rfl⟩
    obtain rfl := mem_singleton.mp hmem
    exact ⟨hasked, rfl⟩

theorem tokens_getToken (platform : Platform) (now : Nat) (s : State) :
    tokens platform.currentTabId (getToken platform.currentTabId now s.storage).2 =
      s.tokens platform := by
  rw [getToken_snd, tokens_slotOfThisTab]

theorem tokens_getRefreshToken (platform : Platform) (now : Nat) (s : State) :
    tokens platform.currentTabId (getRefreshToken platform.currentTabId now s.storage).2 =
      s.tokens platform := by
  rw [getRefreshToken_snd, tokens_slotOfThisTab]

section

variable (h : Invariant platform s)
include h

theorem Invariant.send (url : Text) (auth retried : Bool) (token : Option Text) (now : Nat) :
    Invariant platform (send platform url auth retried token now s) := by
  cases token with
  | some token => exact h.read rfl _
  | none => exact h.read (tokens_getToken platform now s) _

theorem Invariant.refreshAccessToken (request : Request)
    (now : Nat) (htoken : (s.tokens platform).2 ≠ []) :
    Invariant platform (refreshAccessToken platform request now s) := by
  have hread := h.read (tokens_getRefreshToken platform now s) s.requests
  rw [AuthSession.refreshAccessToken]
  simp only [getRefreshToken_fst, htoken, if_false]
  cases h.flight with
  | one refresh refreshes promise waiting awaits session =>
    simp only [promise]
    refine ⟨.one refresh refreshes rfl ?_ ?_ session, hread.once, hread.nonempty, ?_,
      hread.writeBacks, hread.own⟩
    · simp
    · intro entry hentry
      rcases mem_append.mp hentry with hentry | hentry
      · exact awaits entry hentry
      rw [mem_singleton.mp hentry]
    intro hnone
    rw [refreshes] at hnone
    cases hnone
  | none refreshes promise waiting =>
    simp only [promise]
    have hunsent := h.unsent refreshes
    refine ⟨.one ⟨s.nextRefresh, (s.tokens platform).2, s.session⟩ ?_ rfl ?_ ?_ rfl, ?_, ?_, ?_,
      hread.writeBacks, hread.own⟩
    · rw [refreshes, nil_append]
    · simp
    · intro entry hentry
      rw [waiting] at hentry
      rw [mem_singleton.mp hentry]
    · refine nodup_append.mpr ⟨h.once, nodup_singleton _, ?_⟩
      rintro token htoken _ hsingle rfl
      rw [mem_singleton.mp hsingle] at htoken
      exact hunsent htoken
    · intro hempty
      rcases mem_append.mp hempty with hempty | hempty
      · exact h.nonempty hempty
      exact htoken (mem_singleton.mp hempty).symm
    intro hnone
    rw [refreshes] at hnone
    cases hnone

theorem Invariant.unauthorized (request : Request) (now : Nat) (hagain : request.again = false)
    (hends : expires platform s request .unauthorized = true → Quiet s) :
    Invariant platform (unauthorized platform request now s) := by
  have htokens := tokens_getRefreshToken platform now s
  have hread := h.read htokens s.requests
  rw [AuthSession.unauthorized]
  simp only [getRefreshToken_fst, and_eq_true, decide_eq_true_eq]
  split
  case isTrue hcan =>
    apply hread.refreshAccessToken
    rw [State.tokens, htokens]
    exact hcan.2
  case isFalse hcan =>
    split
    · exact hread
    case isFalse hauth =>
      have hreread := hread.read (tokens_getToken platform now _) s.requests
      split
      · exact hreread
      case isFalse htoken =>
        have hquiet : Quiet s := by
          apply hends
          rw [getToken_fst, htokens] at htoken
          simp only [expires, hagain, State.tokens]
          grind
        exact ((hquiet.read _).logout now).2

theorem Invariant.respond (request : Request)
    (answer : Answer) (now : Nat) (hends : expires platform s request answer = true → Quiet s) :
    Invariant platform (respond platform request answer now s) := by
  cases hagain : request.again with
  | false =>
    cases answer with
    | unauthorized =>
      simp only [AuthSession.respond, hagain]
      exact h.unauthorized request now hagain hends
    | ok | failed => simpa only [AuthSession.respond, hagain] using h
  | true =>
    cases answer with
    | ok => simpa only [AuthSession.respond, hagain] using h
    | unauthorized =>
      have hquiet := hends (by simp [expires, hagain])
      simp only [AuthSession.respond, hagain]
      exact ((hquiet.logout now).1.logout now).2
    | failed =>
      have hquiet := hends (by simp [expires, hagain])
      simp only [AuthSession.respond, hagain]
      exact (hquiet.logout now).2

end

theorem Quiet.expire (h : Quiet s) (now : Nat) {waiters : List Request} (hwaiters : waiters ≠ []) :
    Invariant platform (waiters.foldl (fun s _ => handleAuthExpired platform now s) s) := by
  induction waiters generalizing s with
  | nil => exact absurd rfl hwaiters
  | cons request waiters ih =>
    rw [foldl_cons]
    cases waiters with
    | nil => exact (h.logout now).2
    | cons next waiters => exact ih (h.logout now).1 (cons_ne_nil _ _)

section

variable (h : Invariant platform s)
include h

theorem Invariant.noteWrite (asked : Option Nat)
    (hasked : ∀ session, asked = some session → session = s.session) :
    Invariant platform (noteWrite asked s) := by
  refine ⟨h.flight.of_eq rfl rfl rfl rfl, h.once, h.nonempty, h.unsent, h.writeBacks, ?_⟩
  intro write hwrite
  rcases mem_append.mp hwrite with hwrite | hwrite
  · exact h.own write hwrite
  obtain ⟨session, hsess, rfl⟩ := List.mem_map.mp hwrite
  exact hasked session (mem_toList.mp hsess)

theorem Invariant.refreshed {index : Nat}
    {refresh : Refresh} (hrefresh : s.refreshes[index]? = some refresh) (pair : Option TokenPair)
    (now : Nat) (hwriteBacks : s.writeBacks = [])
    (hfresh : ∀ issued, pair = some issued → issued.refreshToken ∉ s.sent) : Invariant platform
      (refreshed platform refresh pair now { s with refreshes := s.refreshes.eraseIdx index }) := by
  cases h.flight with
  | none refreshes =>
    rw [refreshes] at hrefresh
    cases hrefresh
  | one only refreshes promise waiting awaits session =>
    obtain ⟨rfl, rfl⟩ : index = 0 ∧ only = refresh := by
      rw [refreshes] at hrefresh
      cases index with
      | zero => exact ⟨rfl, some.inj hrefresh⟩
      | succ index => cases hrefresh
    have hall : s.waiting.filter (fun entry => entry.1 = only.id) = s.waiting :=
      filter_eq_self.mpr (fun entry hentry => decide_eq_true (awaits entry hentry))
    have hnone : s.waiting.filter (fun entry => entry.1 ≠ only.id) = [] := by
      rw [filter_eq_nil_iff]
      intro entry hentry
      simpa using awaits entry hentry
    have hquiet : Quiet { s with
        refreshes := s.refreshes.eraseIdx 0
        refreshingTokenPromise := none
        waiting := s.waiting.filter (fun entry => entry.1 ≠ only.id) } := by
      refine ⟨⟨?_, rfl, hnone⟩, h.once, h.nonempty, hwriteBacks, h.own⟩
      rw [refreshes]
      rfl
    rw [AuthSession.refreshed]
    simp only [hall]
    cases hpair : pair.filter (fun pair => pair.accessToken ≠ []) with
    | none =>
      apply hquiet.expire
      simpa using waiting
    | some issued =>
      have hasked : ∀ asked, some only.session = some asked → asked = s.session := by
        rintro _ ⟨rfl⟩
        exact session
      have hstored : Invariant platform _ := hquiet.storeTokens now (some only.session) hasked
        (hfresh issued (mem_filter_iff.mp hpair).1)
      exact (hstored.noteWrite (some only.session) hasked).read rfl _

theorem Invariant.land {index : Nat}
    {writeBack : WriteBack} (hmem : writeBack ∈ s.writeBacks) (ok : Bool) :
    Invariant platform (land index writeBack ok s) := by
  obtain ⟨rfl, hasked, htoken⟩ := h.writeBacks writeBack hmem
  have hset : Invariant .app { s with
      writeBacks := s.writeBacks.set index { writeBack with landed := true } } := by
    refine ⟨h.flight.of_eq rfl rfl rfl rfl, h.once, h.nonempty, h.unsent, ?_, h.own⟩
    intro other hother
    rcases mem_or_eq_of_mem_set hother with hother | rfl
    · exact h.writeBacks other hother
    exact ⟨rfl, hasked, htoken⟩
  cases ok with
  | false => exact hset
  | true =>
    -- what is written is there already
    obtain ⟨key, token, asked, landed⟩ := writeBack
    cases key with
    | access =>
      have hsame : { s.storage with token } = s.storage := by
        obtain rfl : s.storage.token = token := htoken
        rfl
      simp only [AuthSession.land, if_true, hsame]
      exact hset.noteWrite asked hasked
    | refresh =>
      have hsame : { s.storage with refreshToken := token } = s.storage := by
        obtain rfl : s.storage.refreshToken = token := htoken
        rfl
      simp only [AuthSession.land, if_true, hsame]
      exact hset.noteWrite asked hasked

theorem Invariant.confirm {writeBack : WriteBack}
    (hharmless : Harmless platform s writeBack) (now : Nat) :
    Invariant platform (confirm platform writeBack now s) := by
  obtain ⟨-, hasked, htoken⟩ := hharmless
  rw [AuthSession.confirm]
  cases hkey : writeBack.key with
  | access =>
    rw [hkey] at htoken
    simp only [getToken_fst]
    rw [if_pos htoken]
    exact h.read (tokens_confirmToken htoken) s.requests
  | refresh =>
    rw [hkey] at htoken
    simp only [getRefreshToken_fst]
    rw [if_pos htoken]
    exact h.read (tokens_confirmRefreshToken htoken) s.requests

theorem Invariant.drop (index : Nat) :
    Invariant platform { s with writeBacks := s.writeBacks.eraseIdx index } :=
  ⟨h.flight.of_eq rfl rfl rfl rfl, h.once, h.nonempty, h.unsent,
    fun other hother => h.writeBacks other (mem_of_mem_eraseIdx hother), h.own⟩

theorem invariant_step {next : State} {action : Action}
    (hundisturbed : Undisturbed platform s action) (hstep : step platform s action = some next) :
    Invariant platform next := by
  obtain ⟨hends, hanswer, hissued⟩ := hundisturbed
  cases action with
  | send url auth retried token now =>
    cases hstep
    exact h.send url auth retried token now
  | respond index answer now =>
    obtain ⟨request, hreq, rfl⟩ := map_eq_some_iff.mp hstep
    have hread := h.read rfl (s.requests.eraseIdx index)
    apply hread.respond
    intro hexpires
    have hnone := hends (by rwa [endsSession, hreq, any_some])
    exact hread.quiet hnone.1 hnone.2
  | refreshed index pair now =>
    obtain ⟨refresh, hrefresh, rfl⟩ := map_eq_some_iff.mp hstep
    apply h.refreshed hrefresh pair now (hanswer rfl)
    rintro issued rfl
    simpa [AuthSession.issued] using hissued
  | land index ok =>
    obtain ⟨writeBack, hwriteBack, rfl⟩ := map_eq_some_iff.mp hstep
    exact h.land (mem_of_getElem? (mem_filter_iff.mp hwriteBack).1) ok
  | confirm index now =>
    obtain ⟨writeBack, hwriteBack, rfl⟩ := map_eq_some_iff.mp hstep
    have hmem := mem_of_getElem? (mem_filter_iff.mp hwriteBack).1
    exact (h.drop index).confirm (h.writeBacks writeBack hmem) now
  | logout now =>
    cases hstep
    have hnone := hends rfl
    exact ((h.quiet hnone.1 hnone.2).logout now).2
  | login pair now =>
    cases hstep
    have hnone := hends rfl
    have hquiet := h.quiet hnone.1 hnone.2
    have hnext : Quiet { s with session := s.session + 1 } :=
      ⟨hquiet.flight, hquiet.once, hquiet.nonempty, hquiet.writeBacks, hquiet.own⟩
    apply hnext.storeTokens now none
    · rintro _ ⟨⟩
    simpa [AuthSession.issued] using hissued

end

theorem invariant_initial (h : Idle s) : Invariant platform s := by
  refine ⟨.none h.refreshes h.promise h.waiting, ?_, ?_, ?_, ?_, ?_⟩
  · simp [h.sent]
  · simp [h.sent]
  · simp [h.sent]
  · simp [h.writeBacks]
  simp [h.writes]

/-- Refreshing is safe in every run in which sessions end only while no refresh
and no write of tokens is under way. -/
theorem refreshed_tokens_safe {s : State}
    (h : (machine platform).ReachableBy (Undisturbed platform) s) : TokensSafe s := by
  have hinv := h.invariant (Invariant platform) (fun _ => invariant_initial)
    (fun _ _ _ hundisturbed hinv hstep => invariant_step hinv hundisturbed hstep)
  exact hinv.safe

def samplePair (name : Char) : TokenPair := ⟨['a', name], ['r', name]⟩

/-- A tab that holds the first pair. -/
def signedIn : State where
  storage := ⟨[(['t'], ⟨['a', '1'], ['r', '1'], 1⟩)], [], [], ['t']⟩
  requests := []
  refreshes := []
  refreshingTokenPromise := none
  nextRefresh := 0
  waiting := []
  writeBacks := []
  sent := []
  session := 0
  writes := []

theorem signedIn_idle : Idle signedIn := ⟨rfl, rfl, rfl, rfl, rfl, rfl, rfl⟩

/-- Two requests share a refresh, then the user signs out and in again. -/
def sharedRefresh : List Action :=
  [.send ['x'] true false none 2, .send ['y'] true false none 3, .respond 0 .unauthorized 4,
    .respond 0 .unauthorized 5, .refreshed 0 (some (samplePair '2')) 6, .respond 0 .ok 7,
    .logout 8, .login (samplePair '3') 9]

theorem refreshed_tokens_safe_shared : ∃ s : State,
    s.sent = [['r', '1']] ∧ s.writes.length = 1 ∧ TokensSafe s := by
  have hrun : ((machine (.web ['t'])).executeBy (Undisturbed (.web ['t'])) signedIn
      sharedRefresh).any (fun s => s.sent = [['r', '1']] && s.writes.length = 1) = true := by
    decide +kernel
  obtain ⟨s, hs, hchecked⟩ := (any_eq_true _ _).mp hrun
  simp only [and_eq_true, decide_eq_true_eq] at hchecked
  exact ⟨s, hchecked.1, hchecked.2,
    refreshed_tokens_safe ⟨signedIn, signedIn_idle, Machine.path_of_executeBy hs⟩⟩

/-- The user signs out during a refresh. Its answer signs the tab in again. -/
def overtakenRefresh : List Action :=
  [.send ['x'] true false none 2, .respond 0 .unauthorized 3, .logout 4,
    .refreshed 0 (some (samplePair '2')) 5]

theorem overtaken_refresh_writes : ∃ s : State, (machine (.web ['t'])).Reachable s ∧
    s.tokens (.web ['t']) = (['a', '2'], ['r', '2']) ∧ ¬ TokensSafe s := by
  have hrun : ((machine (.web ['t'])).execute signedIn overtakenRefresh).any (fun s =>
      s.tokens (.web ['t']) = (['a', '2'], ['r', '2']) && s.writes = [⟨0, 1⟩]) = true := by
    decide +kernel
  obtain ⟨s, hs, hchecked⟩ := (any_eq_true _ _).mp hrun
  simp only [and_eq_true, decide_eq_true_eq] at hchecked
  refine ⟨s, Machine.reachable_of_execute signedIn_idle hs, hchecked.1, ?_⟩
  intro hsafe
  have hown := hsafe.own ⟨0, 1⟩ (by simp [hchecked.2])
  cases hown

end ImApp.AuthSession
