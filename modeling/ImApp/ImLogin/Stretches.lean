import ImApp.ImLogin.Session

/-!
What a call does to the session from one `await` to the next, when it is the one
that has the session: it stays in its task or leaves it, and what it sets is
its own.
-/

namespace ImApp.ImLogin

open JsonText (Text)
open StepSystem Option Function

/-- The call has the session. -/
def Pc.holds : Pc → Bool
  | .orphan _ => false
  | pc => pc.inTask

theorem Pc.inTask_of_holds {pc : Pc} (h : pc.holds = true) : pc.inTask = true := by
  cases pc with
  | orphan stage => cases h
  | _ => exact h

/-- Changes of a call to what is shared, apart from where calls stand. -/
structure Touched (call : Nat) (s t : State) : Prop where
  pc : t.pc = s.pc
  chained : t.chained = s.chained
  chain : t.sessionChain = s.sessionChain
  depth : t.sessionDepth = s.sessionDepth
  calls : t.calls = s.calls
  lastLogout : t.lastLogout = s.lastLogout
  login : t.loginPromise = s.loginPromise
  sdk : ∀ session, t.sdk = some session → s.sdk = some session ∨ session.by_ = some call
  user : t.imUserId = [] ∨ (t.imUserId = s.imUserId ∧ t.userBy = s.userBy) ∨ t.userBy = some call

/-- A stretch of the call that has the session: it stays in its task or leaves
it. -/
structure Moved (call : Nat) (s t : State) : Prop where
  others : ∀ other, other ≠ call → t.pc other = s.pc other
  chained : t.chained = s.chained
  chain : t.sessionChain = s.sessionChain
  calls : t.calls = s.calls
  lastLogout : t.lastLogout = s.lastLogout
  stays : ((t.pc call).holds = true ∧ t.sessionDepth = s.sessionDepth) ∨
    (t.pc call = .done ∧ t.sessionDepth = s.sessionDepth - 1)
  login : t.loginPromise = none ∨ ∃ run epoch, t.loginPromise = some run ∧ run.call = call ∧
    t.pc call = .awaitLogin epoch
  sdk : ∀ session, t.sdk = some session → s.sdk = some session ∨ session.by_ = some call
  user : t.imUserId = [] ∨ (t.imUserId = s.imUserId ∧ t.userBy = s.userBy) ∨ t.userBy = some call

section

variable {call now epoch : Nat} {s t u : State} {run : LoginRun} {token : IMToken}

theorem user_trans (first : t.imUserId = [] ∨ (t.imUserId = s.imUserId ∧ t.userBy = s.userBy) ∨
      t.userBy = some call)
    (second : u.imUserId = [] ∨ (u.imUserId = t.imUserId ∧ u.userBy = t.userBy) ∨
      u.userBy = some call) :
    u.imUserId = [] ∨ (u.imUserId = s.imUserId ∧ u.userBy = s.userBy) ∨ u.userBy = some call := by
  rcases second with hempty | ⟨hsame, hby⟩ | hown
  · exact .inl hempty
  · rw [hsame, hby]
    exact first
  exact .inr (.inr hown)

theorem Touched.moved (first : Touched call s t) (second : Moved call t u) : Moved call s u := by
  refine ⟨?_, second.chained.trans first.chained, second.chain.trans first.chain,
    second.calls.trans first.calls, second.lastLogout.trans first.lastLogout, ?_, second.login,
    ?_, user_trans first.user second.user⟩
  · intro other hother
    rw [second.others other hother, first.pc]
  · rw [← first.depth]
    exact second.stays
  intro session hsess
  rcases second.sdk session hsess with hpre | hown
  · exact first.sdk session hpre
  exact .inr hown

theorem Touched.trans (first : Touched call s t) (second : Touched call t u) : Touched call s u := by
  refine ⟨second.pc.trans first.pc, second.chained.trans first.chained,
    second.chain.trans first.chain, second.depth.trans first.depth, second.calls.trans first.calls,
    second.lastLogout.trans first.lastLogout, second.login.trans first.login, ?_,
    user_trans first.user second.user⟩
  intro session hsess
  rcases second.sdk session hsess with hpre | hown
  · exact first.sdk session hpre
  exact .inr hown

theorem touched_resetLoginCache : Touched call s (resetLoginCache s) :=
  ⟨rfl, rfl, rfl, rfl, rfl, rfl, rfl, fun _ h => .inl h, .inl rfl⟩

theorem touched_invalidatePendingLogin : Touched call s (invalidatePendingLogin s) :=
  ⟨rfl, rfl, rfl, rfl, rfl, rfl, rfl, fun _ h => .inl h, .inl rfl⟩

theorem touched_flags (force : Bool) (ready : Text) :
    Touched call s { s with forceNextLogin := force, appSdkReadyUserId := ready } :=
  ⟨rfl, rfl, rfl, rfl, rfl, rfl, rfl, fun _ h => .inl h, .inr (.inl ⟨rfl, rfl⟩)⟩

theorem touched_rememberLogin : Touched call s (rememberLogin call now token s) :=
  ⟨rfl, rfl, rfl, rfl, rfl, rfl, rfl, fun _ h => .inl h, .inr (.inr rfl)⟩

theorem touched_sdkLogout (answer : Answer) : Touched call s (sdkLogout answer s) := by
  rw [sdkLogout]
  split
  · exact ⟨rfl, rfl, rfl, rfl, rfl, rfl, rfl, nofun, .inr (.inl ⟨rfl, rfl⟩)⟩
  exact ⟨rfl, rfl, rfl, rfl, rfl, rfl, rfl, fun _ h => .inl h, .inr (.inl ⟨rfl, rfl⟩)⟩

theorem touched_sdkLogin : Touched run.call s (sdkLogin run token s) := by
  refine ⟨rfl, rfl, rfl, rfl, rfl, rfl, rfl, ?_, .inr (.inl ⟨rfl, rfl⟩)⟩
  rintro _ ⟨rfl⟩
  exact .inr rfl

theorem setPc_self (pc : Pc) : (setPc call pc s).pc call = pc := update_self _ _ _

theorem moved_setPc {pc : Pc} (hlogin : s.loginPromise = none) (hpc : pc.holds = true) :
    Moved call s (setPc call pc s) := by
  refine ⟨fun other hother => update_of_ne hother _ _, rfl, rfl, rfl, rfl,
    .inl ⟨?_, rfl⟩, .inl hlogin, fun _ h => .inl h, .inr (.inl ⟨rfl, rfl⟩)⟩
  rw [setPc_self]
  exact hpc

theorem moved_finish (hlogin : s.loginPromise = none) (hchained : s.chained call = true) :
    Moved call s (finish call s) := by
  refine ⟨fun other hother => update_of_ne hother _ _, rfl, rfl, rfl, rfl, .inr ⟨?_, ?_⟩,
    .inl hlogin, fun _ h => .inl h, .inr (.inl ⟨rfl, rfl⟩)⟩
  · exact update_self _ _ _
  simp only [finish, setPc, hchained, if_true]

theorem moved_joinLogin (hlogin : s.loginPromise = none) : Moved call s (joinLogin call s) := by
  have hpc : (joinLogin call s).pc = Function.update s.pc call (.awaitLogin s.loginEpoch) := by
    rw [joinLogin, if_pos hlogin]
    rfl
  have hself : (joinLogin call s).pc call = .awaitLogin s.loginEpoch := by
    rw [hpc, update_self]
  rw [joinLogin, if_pos hlogin] at hself ⊢
  refine ⟨fun other hother => update_of_ne hother _ _, rfl, rfl, rfl, rfl, .inl ⟨?_, rfl⟩,
    .inr ⟨_, _, rfl, rfl, hself⟩, fun _ h => .inl h, .inr (.inl ⟨rfl, rfl⟩)⟩
  rw [hself]
  rfl

theorem moved_renewSession (hlogin : s.loginPromise = none) :
    Moved call s (renewSession call s) := by
  rw [renewSession]
  split
  · simp only
    split
    · exact (touched_invalidatePendingLogin.trans (touched_flags _ [])).moved
        (moved_setPc hlogin rfl)
    exact touched_resetLoginCache.moved (moved_setPc hlogin rfl)
  exact moved_joinLogin hlogin

theorem moved_reloginSession (hlogin : s.loginPromise = none) :
    Moved call s (reloginSession call now s) := by
  rw [reloginSession]
  split
  · exact moved_setPc hlogin rfl
  exact moved_renewSession hlogin

theorem moved_reopenTask (hlogin : s.loginPromise = none) (hchained : s.chained call = true) :
    Moved call s (reopenTask call epoch now s) := by
  rw [reopenTask]
  split
  · exact moved_finish hlogin hchained
  exact (touched_flags true s.appSdkReadyUserId).moved (moved_reloginSession hlogin)

theorem moved_runTask (hlogin : s.loginPromise = none) (hchained : s.chained call = true)
    (task : Task) : Moved call s (runTask call now task s) := by
  cases task with
  | relogin => exact moved_reloginSession hlogin
  | logout =>
    exact (touched_invalidatePendingLogin.trans (touched_flags _ [])).moved
      (moved_setPc hlogin rfl)
  | reopen epoch =>
    rw [runTask]
    split
    · exact moved_finish hlogin hchained
    rw [if_neg (not_not.mpr hlogin)]
    exact moved_reopenTask hlogin hchained

theorem moved_forced (hlogin : s.loginPromise = none) (hchained : s.chained call = true)
    (by_ : ForcedBy) : Moved call s (forced call s by_) := by
  cases by_ with
  | relogin => exact moved_joinLogin hlogin
  | logout => exact touched_resetLoginCache.moved (moved_finish hlogin hchained)

theorem moved_enqueueSession (hlogin : s.loginPromise = none) (hchained : s.chained call = true)
    (hdepth : 0 < s.sessionDepth) (task : Task) :
    Moved call s (enqueueSession call now task s) := by
  rw [enqueueSession, if_pos hdepth]
  exact moved_runTask hlogin hchained task

theorem moved_loginSettled (isApp : Bool) (hlogin : s.loginPromise = none)
    (hchained : s.chained call = true) (hdepth : 0 < s.sessionDepth) (result : LoginResult) :
    Moved call s (loginSettled isApp call epoch result now s) := by
  rw [loginSettled]
  split
  · rw [ensureIMLogin]
    split
    · exact moved_setPc hlogin rfl
    exact moved_enqueueSession hlogin hchained hdepth .relogin
  split
  · exact ((touched_flags s.forceNextLogin []).trans touched_resetLoginCache).moved
      (moved_finish hlogin hchained)
  exact moved_finish hlogin hchained

/-- Where only `call` is in a task, and it awaits the login. -/
structure Awaits (call epoch : Nat) (s : State) : Prop where
  self : s.pc call = .awaitLogin epoch
  alone : ∀ other, other ≠ call → (s.pc other).inTask = false

theorem Awaits.touched (h : Awaits call epoch s) (touched : Touched call s t) :
    Awaits call epoch t :=
  ⟨by rw [touched.pc, h.self], by rw [touched.pc]; exact h.alone⟩

theorem moved_setLogin (h : Awaits run.call epoch s) (pc : LoginPc) :
    Moved run.call s (setLogin run pc s) := by
  refine ⟨fun _ _ => rfl, rfl, rfl, rfl, rfl, .inl ⟨?_, rfl⟩, .inr ⟨_, _, rfl, rfl, h.self⟩,
    fun _ h => .inl h, .inr (.inl ⟨rfl, rfl⟩)⟩
  show (s.pc run.call).holds = true
  rw [h.self]
  rfl

theorem moved_finishLogin (h : Awaits call epoch s) (result : LoginResult) :
    Moved call s (finishLogin result s) := by
  refine ⟨?_, rfl, rfl, rfl, rfl, .inl ⟨?_, rfl⟩, .inl rfl, fun _ h => .inl h,
    .inr (.inl ⟨rfl, rfl⟩)⟩
  · intro other hother
    have hout := h.alone other hother
    simp only [finishLogin]
    cases hpc : s.pc other <;> simp_all [Pc.inTask]
  simp only [finishLogin, h.self]
  rfl

theorem moved_completeLogin (h : Awaits run.call epoch s) :
    Moved run.call s (completeLogin run token now s) :=
  touched_rememberLogin.moved (moved_finishLogin (h.touched touched_rememberLogin) _)

theorem moved_initAppSdk (isApp recovering : Bool) (h : Awaits run.call epoch s) :
    Moved run.call s (initAppSdk isApp run recovering token s) := by
  rw [initAppSdk]
  split <;> exact moved_setLogin h _

theorem moved_recovered (isApp : Bool) (h : Awaits run.call epoch s) (since : Nat) :
    Moved run.call s (recovered isApp run since token s) := by
  rw [recovered]
  split
  · exact moved_finishLogin h _
  have htouched : Touched run.call s { resetLoginCache s with appSdkReadyUserId := [] } :=
    touched_resetLoginCache.trans (touched_flags _ [])
  exact htouched.moved (moved_initAppSdk isApp true (h.touched htouched))

variable {answer : Answer}

theorem moved_loginAnswered {isApp : Bool} {attempt : Attempt}
    (h : Awaits run.call epoch s) (ht : loginAnswered isApp run attempt token s answer = some t) :
    Moved run.call s t := by
  cases answer with
  | done =>
    cases ht
    exact touched_sdkLogin.moved (moved_setLogin (h.touched touched_sdkLogin) _)
  | error error =>
    cases attempt with
    | first =>
      simp only [loginAnswered] at ht
      split_ifs at ht <;> cases ht
      · exact moved_setLogin h _
      · exact moved_setLogin h _
      · exact moved_setLogin h _
      exact moved_finishLogin h _
    | recovered =>
      cases ht
      exact moved_finishLogin h _
    | again =>
      simp only [loginAnswered] at ht
      split_ifs at ht <;> cases ht
      · exact moved_setLogin h _
      exact moved_finishLogin h _
  | status | userId | token => cases ht

theorem moved_initAnswered {stage : Init} {recovering : Bool}
    (h : Awaits run.call epoch s) (ht : initAnswered run stage recovering token s answer = some t) :
    Moved run.call s t := by
  cases answer with
  | done =>
    cases stage with
    | dataDir =>
      simp only [initAnswered] at ht
      split_ifs at ht <;> obtain rfl := some.inj ht <;> exact moved_setLogin h _
    | initSdk =>
      cases ht
      have htouched : Touched run.call s { s with appSdkReadyUserId := token.userId } :=
        touched_flags s.forceNextLogin token.userId
      exact htouched.moved (moved_setLogin (h.touched htouched) _)
  | error error =>
    cases ht
    exact moved_finishLogin h _
  | status | userId | token => cases ht

theorem moved_settled {next : State → State} (h : Awaits run.call epoch s)
    (hnext : ∀ s, Awaits run.call epoch s → Moved run.call s (next s))
    (ht : (if answer.settled then some (next (sdkLogout answer s)) else none) = some t) :
    Moved run.call s t := by
  split at ht
  · cases ht
    exact (touched_sdkLogout answer).moved (hnext _ (h.touched (touched_sdkLogout answer)))
  cases ht

theorem moved_stepLogin {isApp : Bool} (h : Awaits run.call epoch s)
    (ht : stepLogin isApp run answer now s = some t) : Moved run.call s t := by
  cases hpc : run.pc with
  | fetch =>
    cases answer with
    | token token =>
      simp only [stepLogin, hpc] at ht
      split_ifs at ht <;> cases ht
      · exact moved_finishLogin h _
      exact moved_initAppSdk isApp false h
    | error error =>
      simp only [stepLogin, hpc] at ht
      cases ht
      exact moved_finishLogin h _
    | done | status | userId =>
      simp only [stepLogin, hpc] at ht
      cases ht
  | init stage recovering token =>
    simp only [stepLogin, hpc] at ht
    exact moved_initAnswered h ht
  | status token =>
    simp only [stepLogin, hpc] at ht
    obtain ⟨status, -, rfl⟩ := map_eq_some_iff.mp ht
    exact moved_setLogin h _
  | userId token =>
    simp only [stepLogin, hpc] at ht
    obtain ⟨id, -, rfl⟩ := map_eq_some_iff.mp ht
    split_ifs
    · exact moved_finishLogin h _
    · exact moved_completeLogin h
    exact moved_setLogin h _
  | logout token | repeatLogout token =>
    simp only [stepLogin, hpc] at ht
    exact moved_settled h (fun _ h => moved_setLogin h _) ht
  | login attempt token =>
    simp only [stepLogin, hpc] at ht
    exact moved_loginAnswered h ht
  | recover stage since token =>
    cases stage with
    | status =>
      simp only [stepLogin, hpc] at ht
      obtain ⟨status, -, rfl⟩ := map_eq_some_iff.mp ht
      split_ifs
      · exact moved_recovered isApp h since
      exact moved_setLogin h _
    | logout =>
      simp only [stepLogin, hpc] at ht
      exact moved_settled h (fun _ h => moved_recovered isApp h since) ht
  | backoff token =>
    simp only [stepLogin, hpc] at ht
    split at ht
    · cases ht
      exact moved_setLogin h _
    cases ht
  | repeatUserId token =>
    simp only [stepLogin, hpc] at ht
    obtain ⟨id, -, rfl⟩ := map_eq_some_iff.mp ht
    exact moved_setLogin h _
  | synced token =>
    simp only [stepLogin, hpc] at ht
    split_ifs at ht <;> cases ht
    · exact moved_setLogin h _
    exact moved_completeLogin h
  | undo =>
    simp only [stepLogin, hpc] at ht
    exact moved_settled h (fun _ h => moved_finishLogin h _) ht

end

end ImApp.ImLogin
