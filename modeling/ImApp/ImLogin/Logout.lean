import ImApp.ImLogin.Stretches

/-!
One session task at a time. It holds while tasks are asked for only when none
runs; then a logout is final for every login that was asked for before it. A
logout that comes during a login runs beside it, and the login then starts over.
-/

namespace ImApp.ImLogin

open JsonText (Text)
open StepSystem List Option Function

/-- No task runs and none is queued. -/
def Quiet (s : State) : Prop :=
  s.sessionChain = [] ∧ ∀ call < s.calls, (s.pc call).inTask = false

/-- What is there was not left by the last logout or by an earlier call. -/
structure After (limit : Nat) (s : State) : Prop where
  sdk : ∀ session call, s.sdk = some session → session.by_ = some call → limit < call
  user : ∀ call, s.imUserId ≠ [] → s.userBy = some call → limit < call

/-- No two session tasks run at once. Once no task is left, nothing of a login
that was asked for before the last logout is left. -/
structure SessionSafe (s : State) : Prop where
  serial : ∀ first second, (s.pc first).inTask = true → (s.pc second).inTask = true → first = second
  final : Quiet s → ∀ logout, s.lastLogout = some logout → After logout s

/-- The action asks for a task from outside of all tasks. -/
def entersOutside (s : State) : Action → Bool
  | .ensureIMLogin now => s.forceNextLogin || !reusable now s
  | .logoutOpenIM _ => true
  | .reopenClosedSdkDatabase _ => s.closedDbRecovery = none
  | .resume call answer _ =>
    match s.pc call with
    | .check stage =>
      match reuseLiveSession stage s answer with
      | some (.result user) => user = []
      | _ => false
    | _ => false
  | _ => false

/-- The library tells its status as it is. -/
def tellsStatus (s : State) : Answer → Bool
  | .status status => status ≠ .logout || s.sdk.isNone
  | _ => false

/-- The library does as a logout asks, in time. -/
def heeded (s : State) : Action → Bool
  | .timeout _ => false
  | .resume call answer _ =>
    match s.pc call with
    | .force .status .logout => tellsStatus s answer
    | .force .logout .logout => answer = .done
    | _ => true
  | _ => true

def asksLogout : Action → Bool
  | .logoutOpenIM _ => true
  | _ => false

/-- Tasks are asked for while none runs, and a logout while no login is about to
be. -/
def Orderly (s : State) (action : Action) : Prop :=
  (entersOutside s action = true → s.sessionDepth = 0) ∧ heeded s action = true ∧
    (asksLogout action = true → ∀ call < s.calls, (s.pc call).isCheck = false)

instance (s : State) (action : Action) : Decidable (Orderly s action) :=
  inferInstanceAs (Decidable (_ ∧ _ ∧ _))

/-- Calls that are queued were all made after the last logout. -/
def Behind (logout : Nat) (s : State) : Prop := ∀ entry ∈ s.sessionChain, logout < entry.1

/-- How far the last logout is. -/
inductive LogoutPhase (logout : Nat) (s : State) : Prop where
  | queued (before after : List (Nat × Task))
      (chain : s.sessionChain = before ++ (logout, .logout) :: after)
      (behind : ∀ entry ∈ after, logout < entry.1)
  | running (stage : Force) (pc : s.pc logout = .force stage .logout) (user : s.imUserId = [])
      (behind : Behind logout s)
  | settled (behind : Behind logout s) (tasks : ∀ call, (s.pc call).inTask = true → logout < call)
      (left : After logout s)

/-- At most one call has the session, and only it awaits a login. -/
structure Serial (s : State) : Prop where
  one : ∀ first second, (s.pc first).inTask = true → (s.pc second).inTask = true → first = second
  holds : ∀ call, (s.pc call).inTask = true →
    (s.pc call).holds = true ∧ s.sessionDepth = 1 ∧ s.chained call = true
  idle : (∀ call, (s.pc call).inTask = false) → s.sessionDepth = 0
  login : ∀ run, s.loginPromise = some run → ∃ epoch, s.pc run.call = .awaitLogin epoch

/-- Calls are numbered as they come. A call that is about to ask for a login came
after the last logout. -/
structure Numbered (s : State) : Prop where
  fresh : ∀ call, s.calls ≤ call → s.pc call = .absent
  chain : ∀ entry ∈ s.sessionChain, entry.1 < s.calls
  logout : ∀ logout, s.lastLogout = some logout → logout < s.calls
  checks : ∀ logout, s.lastLogout = some logout → ∀ call, (s.pc call).isCheck = true → logout < call

structure Invariant (s : State) : Prop where
  serial : Serial s
  numbered : Numbered s
  phase : ∀ logout, s.lastLogout = some logout → LogoutPhase logout s

theorem Invariant.safe {s : State} (h : Invariant s) : SessionSafe s := by
  refine ⟨h.serial.one, ?_⟩
  intro hquiet logout hlogout
  cases h.phase logout hlogout with
  | queued before after chain =>
    rw [hquiet.1] at chain
    simp at chain
  | running stage pc =>
    have hout := hquiet.2 logout (h.numbered.logout logout hlogout)
    rw [pc] at hout
    cases hout
  | settled _ _ left => exact left

section

variable {call now : Nat} {s t : State}

theorem Serial.noLogin (h : Serial s) (hpc : ∀ epoch, s.pc call ≠ .awaitLogin epoch)
    (htask : ∀ other, other ≠ call → (s.pc other).inTask = false) : s.loginPromise = none := by
  rw [eq_none_iff_forall_not_mem]
  intro run hrun
  obtain ⟨epoch, hawaits⟩ := h.login run hrun
  rcases eq_or_ne run.call call with hcall | hcall
  · exact hpc epoch (hcall ▸ hawaits)
  have hout := htask run.call hcall
  rw [hawaits] at hout
  cases hout

theorem Serial.alone (h : Serial s) (hcall : (s.pc call).inTask = true) (other : Nat)
    (hother : other ≠ call) : (s.pc other).inTask = false := by
  rw [Bool.eq_false_iff]
  intro htask
  exact hother (h.one other call htask hcall)

theorem Serial.idle_of_depth (h : Serial s) (hdepth : s.sessionDepth = 0) (other : Nat) :
    (s.pc other).inTask = false := by
  rw [Bool.eq_false_iff]
  intro htask
  have hone := (h.holds other htask).2.1
  omega

theorem Serial.idle_login (h : Serial s) (hdepth : s.sessionDepth = 0) : s.loginPromise = none := by
  rw [eq_none_iff_forall_not_mem]
  intro run hrun
  obtain ⟨epoch, hawaits⟩ := h.login run hrun
  have hout := h.idle_of_depth hdepth run.call
  rw [hawaits] at hout
  cases hout

theorem Moved.only (h : Moved call s t) (halone : ∀ other, other ≠ call → (s.pc other).inTask = false)
    {other : Nat} (hother : (t.pc other).inTask = true) : other = call := by
  by_contra hne
  rw [h.others other hne, halone other hne] at hother
  cases hother

theorem Moved.serial (h : Moved call s t)
    (halone : ∀ other, other ≠ call → (s.pc other).inTask = false) (hdepth : s.sessionDepth = 1)
    (hchained : s.chained call = true) : Serial t := by
  refine ⟨?_, ?_, ?_, ?_⟩
  · intro first second hfirst hsecond
    rw [h.only halone hfirst, h.only halone hsecond]
  · intro other hother
    obtain rfl := h.only halone hother
    rcases h.stays with ⟨hholds, hsame⟩ | ⟨hdone, -⟩
    · exact ⟨hholds, hsame.trans hdepth, h.chained ▸ hchained⟩
    rw [hdone] at hother
    cases hother
  · intro hnone
    rcases h.stays with ⟨hholds, -⟩ | ⟨-, hless⟩
    · have htask := Pc.inTask_of_holds hholds
      rw [hnone call] at htask
      cases htask
    rw [hless, hdepth]
  intro run hrun
  rcases h.login with hnone | ⟨own, epoch, hown, hcall, hpc⟩
  · rw [hnone] at hrun
    cases hrun
  cases hown.symm.trans hrun
  exact ⟨epoch, hcall ▸ hpc⟩

theorem Moved.numbered (h : Moved call s t) (hnumbered : Numbered s) (hcall : call < s.calls) :
    Numbered t := by
  refine ⟨?_, ?_, ?_, ?_⟩
  · intro other hother
    rw [h.calls] at hother
    rw [h.others other (by omega)]
    exact hnumbered.fresh other hother
  · rw [h.chain, h.calls]
    exact hnumbered.chain
  · rw [h.lastLogout, h.calls]
    exact hnumbered.logout
  intro logout hlogout other hcheck
  rcases eq_or_ne other call with rfl | hother
  · rcases h.stays with ⟨hholds, -⟩ | ⟨hdone, -⟩
    · cases hpc : t.pc other <;> rw [hpc] at hholds hcheck <;> cases hholds <;> cases hcheck
    rw [hdone] at hcheck
    cases hcheck
  rw [h.others other hother] at hcheck
  exact hnumbered.checks logout (h.lastLogout ▸ hlogout) other hcheck

theorem Moved.settled (h : Moved call s t)
    (halone : ∀ other, other ≠ call → (s.pc other).inTask = false) {logout : Nat}
    (hbehind : Behind logout s) (hlater : logout < call) (hleft : After logout s) :
    LogoutPhase logout t := by
  refine .settled ?_ ?_ ⟨?_, ?_⟩
  · rw [Behind, h.chain]
    exact hbehind
  · intro other hother
    rw [h.only halone hother]
    exact hlater
  · intro session caller hsess hby
    rcases h.sdk session hsess with hpre | hown
    · exact hleft.sdk session caller hpre hby
    rw [hown] at hby
    exact some.inj hby ▸ hlater
  intro caller huser hby
  rcases h.user with hempty | ⟨hsame, hsameBy⟩ | hown
  · exact absurd hempty huser
  · exact hleft.user caller (hsame ▸ huser) (hsameBy ▸ hby)
  rw [hown] at hby
  exact some.inj hby ▸ hlater

/-- A stretch of the call that has the session. Only of a logout more has to be
known. -/
theorem Invariant.moved (h : Invariant s) (hcall : (s.pc call).inTask = true)
    (hmoved : Moved call s t)
    (hlogout : ∀ stage, s.pc call = .force stage .logout → s.imUserId = [] → Behind call s →
      LogoutPhase call t) : Invariant t := by
  obtain ⟨-, hdepth, hchained⟩ := h.serial.holds call hcall
  have halone := h.serial.alone hcall
  have hknown : call < s.calls := by
    by_contra hnew
    rw [h.numbered.fresh call (not_lt.mp hnew)] at hcall
    cases hcall
  refine ⟨hmoved.serial halone hdepth hchained, hmoved.numbered h.numbered hknown, ?_⟩
  intro logout hlast
  rw [hmoved.lastLogout] at hlast
  cases h.phase logout hlast with
  | queued before after chain behind =>
    exact .queued before after (hmoved.chain.trans chain) behind
  | running stage pc user behind =>
    have htask : (s.pc logout).inTask = true := by
      rw [pc]
      rfl
    obtain rfl := h.serial.one logout call htask hcall
    exact hlogout stage pc user behind
  | settled behind tasks left => exact hmoved.settled halone behind (tasks call hcall) left

theorem settled_of_logout {logout : Nat} (hsdk : s.sdk = none) (hbehind : Behind logout s)
    (halone : ∀ other, other ≠ logout → (s.pc other).inTask = false) :
    LogoutPhase logout (forced logout s .logout) := by
  have hpc : (forced logout s .logout).pc = Function.update s.pc logout .done := rfl
  refine .settled hbehind ?_ ⟨?_, ?_⟩
  · intro other hother
    rw [hpc] at hother
    rcases eq_or_ne other logout with rfl | hne
    · rw [update_self] at hother
      cases hother
    rw [update_of_ne hne, halone other hne] at hother
    cases hother
  · intro session caller hsess
    rw [forced, finish, resetLoginCache, setPc, hsdk] at hsess
    cases hsess
  intro caller huser
  exact absurd rfl huser

theorem Invariant.force {stage : Force} {by_ : ForcedBy} (isApp : Bool) (h : Invariant s)
    (hpc : s.pc call = .force stage by_) {answer : Answer}
    (hheeded : heeded s (.resume call answer now) = true)
    (ht : stepCall isApp call answer now s = some t) : Invariant t := by
  have htask : (s.pc call).inTask = true := by
    rw [hpc]
    rfl
  have halone := h.serial.alone htask
  have hchained := (h.serial.holds call htask).2.2
  have hlogin : s.loginPromise = none := h.serial.noLogin (by simp [hpc]) halone
  cases stage with
  | status =>
    simp only [stepCall, hpc] at ht
    obtain ⟨status, hstat, rfl⟩ := map_eq_some_iff.mp ht
    split
    case isTrue hout =>
      refine h.moved htask (moved_forced hlogin hchained by_) ?_
      intro stage hlogout _ hbehind
      obtain ⟨rfl, rfl⟩ := Pc.force.inj (hpc.symm.trans hlogout)
      -- the library tells that it is logged out
      have hsdk : s.sdk = none := by
        simp only [heeded, hpc] at hheeded
        cases answer with
        | status told =>
          cases hstat
          simpa [tellsStatus, hout] using hheeded
        | _ => cases hheeded
      exact settled_of_logout hsdk hbehind halone
    case isFalse hin =>
      refine h.moved htask (moved_setPc hlogin rfl) ?_
      intro stage hlogout huser hbehind
      obtain ⟨rfl, rfl⟩ := Pc.force.inj (hpc.symm.trans hlogout)
      exact .running .logout (setPc_self _) huser hbehind
  | logout =>
    simp only [stepCall, hpc] at ht
    split at ht
    · cases ht
      have htouched : Touched call s (sdkLogout answer s) := touched_sdkLogout answer
      have hmoved := moved_forced (htouched.login.trans hlogin)
        (by rw [htouched.chained]; exact hchained) by_
      refine h.moved htask (htouched.moved hmoved) ?_
      intro stage hlogout _ hbehind
      obtain ⟨rfl, rfl⟩ := Pc.force.inj (hpc.symm.trans hlogout)
      simp only [heeded, hpc, decide_eq_true_eq] at hheeded
      obtain rfl := hheeded
      exact settled_of_logout rfl hbehind halone
    cases ht

theorem Invariant.stepTask (isApp : Bool) (h : Invariant s) (htask : (s.pc call).inTask = true)
    {answer : Answer} (hheeded : heeded s (.resume call answer now) = true)
    (ht : stepCall isApp call answer now s = some t) : Invariant t := by
  have halone := h.serial.alone htask
  obtain ⟨hholds, hdepth, hchained⟩ := h.serial.holds call htask
  have hpositive : 0 < s.sessionDepth := hdepth ▸ Nat.one_pos
  cases hpc : s.pc call with
  | absent | check | queued | done =>
    rw [hpc] at htask
    cases htask
  | orphan =>
    rw [hpc] at hholds
    cases hholds
  | awaitLogin | reopenWait =>
    simp only [stepCall, hpc] at ht
    cases ht
  | force stage by_ => exact h.force isApp hpc hheeded ht
  | reopenReady epoch =>
    have hlogin : s.loginPromise = none := h.serial.noLogin (by simp [hpc]) halone
    simp only [stepCall, hpc] at ht
    cases ht
    exact h.moved htask (moved_reopenTask hlogin hchained) (by simp [hpc])
  | loginDone epoch result =>
    have hlogin : s.loginPromise = none := h.serial.noLogin (by simp [hpc]) halone
    simp only [stepCall, hpc] at ht
    cases ht
    exact h.moved htask (moved_loginSettled isApp hlogin hchained hpositive result) (by simp [hpc])
  | reuse stage =>
    have hlogin : s.loginPromise = none := h.serial.noLogin (by simp [hpc]) halone
    simp only [stepCall, hpc] at ht
    obtain ⟨reuse, -, rfl⟩ := map_eq_some_iff.mp ht
    cases reuse with
    | ask => exact h.moved htask (moved_setPc hlogin rfl) (by simp [hpc])
    | result user =>
      simp only
      split
      · exact h.moved htask (moved_finish hlogin hchained) (by simp [hpc])
      exact h.moved htask (moved_renewSession hlogin) (by simp [hpc])
  | recheck stage =>
    have hlogin : s.loginPromise = none := h.serial.noLogin (by simp [hpc]) halone
    simp only [stepCall, hpc] at ht
    obtain ⟨reuse, -, rfl⟩ := map_eq_some_iff.mp ht
    cases reuse with
    | ask => exact h.moved htask (moved_setPc hlogin rfl) (by simp [hpc])
    | result user =>
      simp only
      split
      · exact h.moved htask (moved_finish hlogin hchained) (by simp [hpc])
      exact h.moved htask (moved_enqueueSession hlogin hchained hpositive .relogin) (by simp [hpc])

theorem Invariant.stepLogin {isApp : Bool} {run : LoginRun} (h : Invariant s)
    (hrun : s.loginPromise = some run) {answer : Answer}
    (ht : stepLogin isApp run answer now s = some t) : Invariant t := by
  obtain ⟨epoch, hpc⟩ := h.serial.login run hrun
  have htask : (s.pc run.call).inTask = true := by
    rw [hpc]
    rfl
  exact h.moved htask (moved_stepLogin ⟨hpc, h.serial.alone htask⟩ ht) (by simp [hpc])

theorem Invariant.outside (h : Invariant s) (hpc : t.pc = s.pc) (hchained : t.chained = s.chained)
    (hchain : t.sessionChain = s.sessionChain) (hdepth : t.sessionDepth = s.sessionDepth)
    (hcalls : t.calls = s.calls) (hlast : t.lastLogout = s.lastLogout)
    (hlogin : t.loginPromise = s.loginPromise) (hsdk : t.sdk = none ∨ t.sdk = s.sdk)
    (huser : t.imUserId = [] ∨ (t.imUserId = s.imUserId ∧ t.userBy = s.userBy)) : Invariant t := by
  have hleft : ∀ logout, After logout s → After logout t := by
    intro logout hafter
    refine ⟨?_, ?_⟩
    · intro session caller hsess hby
      rcases hsdk with hnone | hsame
      · rw [hnone] at hsess
        cases hsess
      exact hafter.sdk session caller (hsame ▸ hsess) hby
    intro caller hne hby
    rcases huser with hempty | ⟨hsame, hsameBy⟩
    · exact absurd hempty hne
    exact hafter.user caller (hsame ▸ hne) (hsameBy ▸ hby)
  refine ⟨⟨?_, ?_, ?_, ?_⟩, ⟨?_, ?_, ?_, ?_⟩, ?_⟩
  · rw [hpc]
    exact h.serial.one
  · rw [hpc, hdepth, hchained]
    exact h.serial.holds
  · rw [hpc, hdepth]
    exact h.serial.idle
  · rw [hpc, hlogin]
    exact h.serial.login
  · rw [hpc, hcalls]
    exact h.numbered.fresh
  · rw [hchain, hcalls]
    exact h.numbered.chain
  · rw [hlast, hcalls]
    exact h.numbered.logout
  · rw [hlast, hpc]
    exact h.numbered.checks
  intro logout hlogout
  cases h.phase logout (hlast ▸ hlogout) with
  | queued before after chain behind => exact .queued before after (hchain.trans chain) behind
  | running stage pc user behind =>
    refine .running stage (hpc ▸ pc) ?_ (by rw [Behind, hchain]; exact behind)
    rcases huser with hempty | ⟨hsame, -⟩
    · exact hempty
    exact hsame.trans user
  | settled behind tasks left =>
    exact .settled (by rw [Behind, hchain]; exact behind) (hpc ▸ tasks) (hleft logout left)

theorem Invariant.newCall (h : Invariant s) : Invariant (newCall s) := by
  refine ⟨⟨h.serial.one, h.serial.holds, h.serial.idle, h.serial.login⟩, ⟨?_, ?_, ?_, ?_⟩, ?_⟩
  · intro call hcall
    exact h.numbered.fresh call (Nat.le_of_succ_le hcall)
  · intro entry hentry
    exact Nat.lt_succ_of_lt (h.numbered.chain entry hentry)
  · intro logout hlogout
    exact Nat.lt_succ_of_lt (h.numbered.logout logout hlogout)
  · exact h.numbered.checks
  intro logout hlogout
  cases h.phase logout hlogout with
  | queued before after chain behind => exact .queued before after chain behind
  | running stage pc user behind => exact .running stage pc user behind
  | settled behind tasks left => exact .settled behind tasks ⟨left.sdk, left.user⟩

theorem Serial.place (h : Serial s) {pc : Pc} (hout : (s.pc call).inTask = false)
    (hpc : pc.inTask = false) (entries : List (Nat × Task)) (last : Option Nat) :
    Serial (setPc call pc
      { s with sessionChain := s.sessionChain ++ entries, lastLogout := last }) := by
  have hsame : ∀ other, (Function.update s.pc call pc other).inTask = true →
      other ≠ call ∧ Function.update s.pc call pc other = s.pc other := by
    intro other hother
    rcases eq_or_ne other call with rfl | hne
    · rw [update_self, hpc] at hother
      cases hother
    exact ⟨hne, update_of_ne hne _ _⟩
  refine ⟨?_, ?_, ?_, ?_⟩
  · intro first second hfirst hsecond
    exact h.one first second ((hsame first hfirst).2 ▸ hfirst) ((hsame second hsecond).2 ▸ hsecond)
  · intro other hother
    have hother' := (hsame other hother).2
    simp only [setPc]
    rw [hother']
    exact h.holds other (hother' ▸ hother)
  · intro hnone
    apply h.idle
    intro other
    rcases eq_or_ne other call with rfl | hne
    · exact hout
    have hother := hnone other
    simp only [setPc, update_of_ne hne] at hother
    exact hother
  intro run hrun
  obtain ⟨epoch, hawaits⟩ := h.login run hrun
  refine ⟨epoch, ?_⟩
  have hne : run.call ≠ call := by
    rintro hsame
    rw [← hsame, hawaits] at hout
    cases hout
  simp only [setPc, update_of_ne hne]
  exact hawaits

theorem Invariant.place (h : Invariant s) {pc : Pc} (hcall : call < s.calls)
    (hout : (s.pc call).inTask = false) (hpc : pc.inTask = false)
    (hlater : ∀ logout, s.lastLogout = some logout → logout < call) (entries : List (Nat × Task))
    (hentries : ∀ entry ∈ entries, entry.1 = call) :
    Invariant (setPc call pc { s with sessionChain := s.sessionChain ++ entries }) := by
  refine ⟨h.serial.place hout hpc entries s.lastLogout, ⟨?_, ?_, h.numbered.logout, ?_⟩, ?_⟩
  · intro other hother
    simp only [setPc] at hother ⊢
    rw [update_of_ne (by omega)]
    exact h.numbered.fresh other hother
  · intro entry hentry
    rcases mem_append.mp hentry with hold | hnew
    · exact h.numbered.chain entry hold
    rw [hentries entry hnew]
    exact hcall
  · intro logout hlogout other hcheck
    rcases eq_or_ne other call with rfl | hne
    · exact hlater logout hlogout
    simp only [setPc, update_of_ne hne] at hcheck
    exact h.numbered.checks logout hlogout other hcheck
  intro logout hlogout
  have hbehind : ∀ before : List (Nat × Task), (∀ entry ∈ before, logout < entry.1) →
      ∀ entry ∈ before ++ entries, logout < entry.1 := by
    intro before hpre entry hentry
    rcases mem_append.mp hentry with hold | hnew
    · exact hpre entry hold
    rw [hentries entry hnew]
    exact hlater logout hlogout
  cases h.phase logout hlogout with
  | queued before after chain behind =>
    refine .queued before (after ++ entries) ?_ (hbehind after behind)
    simp only [setPc, chain, append_assoc, cons_append]
  | running stage pc user behind =>
    refine .running stage ?_ user (hbehind _ behind)
    have hne : logout ≠ call := by
      rintro rfl
      rw [pc] at hout
      cases hout
    simp only [setPc, update_of_ne hne]
    exact pc
  | settled behind tasks left =>
    refine .settled (hbehind _ behind) ?_ ⟨left.sdk, left.user⟩
    intro other hother
    rcases eq_or_ne other call with rfl | hne
    · exact hlater logout hlogout
    simp only [setPc, update_of_ne hne] at hother
    exact tasks other hother

theorem Invariant.enqueue (h : Invariant s) (hcall : call < s.calls)
    (hout : (s.pc call).inTask = false)
    (hlater : ∀ logout, s.lastLogout = some logout → logout < call) (hdepth : s.sessionDepth = 0)
    (task : Task) : Invariant (enqueueSession call now task s) := by
  rw [enqueueSession, if_neg (by omega)]
  exact h.place hcall hout rfl hlater [(call, task)] (by simp)

theorem Invariant.stand (h : Invariant s) {pc : Pc} (hcall : call < s.calls)
    (hout : (s.pc call).inTask = false) (hpc : pc.inTask = false)
    (hlater : ∀ logout, s.lastLogout = some logout → logout < call) :
    Invariant (setPc call pc s) := by
  have hplaced := h.place hcall hout hpc hlater [] (by simp)
  rw [append_nil] at hplaced
  exact hplaced

theorem Invariant.stepCheck (isApp : Bool) (h : Invariant s) {stage : Reuse}
    (hpc : s.pc call = .check stage) {answer : Answer}
    (henters : entersOutside s (.resume call answer now) = true → s.sessionDepth = 0)
    (ht : stepCall isApp call answer now s = some t) : Invariant t := by
  have hout : (s.pc call).inTask = false := by
    rw [hpc]
    rfl
  have hcall : call < s.calls := by
    by_contra hnew
    have habsent := h.numbered.fresh call (not_lt.mp hnew)
    rw [hpc] at habsent
    cases habsent
  have hlater : ∀ logout, s.lastLogout = some logout → logout < call := by
    intro logout hlogout
    apply h.numbered.checks logout hlogout
    rw [hpc]
    rfl
  simp only [stepCall, hpc] at ht
  obtain ⟨reuse, hreuse, rfl⟩ := map_eq_some_iff.mp ht
  cases reuse with
  | ask => exact h.stand hcall hout rfl hlater
  | result user =>
    simp only
    split
    · exact h.stand hcall hout rfl hlater
    case isFalse huser =>
      apply h.enqueue hcall hout hlater
      apply henters
      simpa only [entersOutside, hpc, hreuse, decide_eq_true_eq, ne_eq, not_not] using huser

theorem Invariant.start (h : Invariant s) {task : Task} {rest : List (Nat × Task)}
    (hchain : s.sessionChain = (call, task) :: rest) (hdepth : s.sessionDepth = 0) :
    Invariant (runTask call now task { s with
      sessionChain := rest
      sessionDepth := s.sessionDepth + 1
      chained := Function.update s.chained call true }) := by
  have halone := fun other (_ : other ≠ call) => h.serial.idle_of_depth hdepth other
  have hcall := h.numbered.chain (call, task) (by simp [hchain])
  have hbehind : ∀ logout, Behind logout s → logout < call ∧ ∀ entry ∈ rest, logout < entry.1 := by
    intro logout behind
    rw [Behind, hchain] at behind
    exact forall_mem_cons.mp behind
  have hchained := update_self call true s.chained
  have hmoved := @moved_runTask call now { s with
    sessionChain := rest
    sessionDepth := s.sessionDepth + 1
    chained := Function.update s.chained call true } (h.serial.idle_login hdepth) hchained task
  refine ⟨hmoved.serial halone (by simp [hdepth]) hchained, hmoved.numbered ?_ hcall, ?_⟩
  · refine ⟨h.numbered.fresh, ?_, h.numbered.logout, h.numbered.checks⟩
    intro entry hentry
    apply h.numbered.chain
    rw [hchain]
    exact mem_cons_of_mem _ hentry
  intro logout hlogout
  cases h.phase logout (hmoved.lastLogout ▸ hlogout) with
  | queued before after chain behind =>
    rw [hchain] at chain
    cases before with
    | nil =>
      obtain ⟨hentry, rfl⟩ := List.cons.inj chain
      cases hentry
      exact .running .status (setPc_self _) rfl behind
    | cons first before =>
      obtain ⟨-, rfl⟩ := List.cons.inj chain
      exact .queued before after hmoved.chain behind
  | running stage pc =>
    have hout := h.serial.idle_of_depth hdepth logout
    rw [pc] at hout
    cases hout
  | settled behind tasks left =>
    obtain ⟨hlater, hrest⟩ := hbehind logout behind
    exact hmoved.settled halone hrest hlater ⟨left.sdk, left.user⟩

theorem Invariant.logout (h : Invariant s) (hdepth : s.sessionDepth = 0)
    (hchecks : ∀ call < s.calls, (s.pc call).isCheck = false) :
    Invariant (enqueueSession s.calls now .logout
      { ImLogin.newCall s with lastLogout := some s.calls }) := by
  have hout := h.serial.idle_of_depth hdepth s.calls
  rw [enqueueSession, if_neg (by simp [ImLogin.newCall, hdepth])]
  have hserial := @Serial.place s.calls _ h.newCall.serial .queued hout rfl
    [(s.calls, .logout)] (some s.calls)
  refine ⟨hserial, ⟨?_, ?_, ?_, ?_⟩, ?_⟩
  · intro other hother
    simp only [setPc, ImLogin.newCall] at hother ⊢
    rw [update_of_ne (by omega)]
    exact h.numbered.fresh other (by omega)
  · intro entry hentry
    rcases mem_append.mp hentry with hold | hnew
    · exact Nat.lt_succ_of_lt (h.numbered.chain entry hold)
    rw [mem_singleton.mp hnew]
    exact Nat.lt_succ_self _
  · rintro _ ⟨rfl⟩
    exact Nat.lt_succ_self _
  · rintro _ ⟨rfl⟩ other hcheck
    rcases lt_trichotomy other s.calls with hless | rfl | hmore
    · simp only [setPc, ImLogin.newCall, update_of_ne (Nat.ne_of_lt hless)] at hcheck
      rw [hchecks other hless] at hcheck
      cases hcheck
    · rw [setPc_self] at hcheck
      cases hcheck
    exact hmore
  rintro _ ⟨rfl⟩
  exact .queued s.sessionChain [] rfl (by simp)

theorem invariant_step {isApp : Bool} {action : Action} (h : Invariant s)
    (horderly : Orderly s action) (ht : step isApp s action = some t) : Invariant t := by
  have hnew := h.newCall
  have hfresh := h.numbered.fresh s.calls (Nat.le_refl _)
  have hout : ((ImLogin.newCall s).pc s.calls).inTask = false := by
    rw [ImLogin.newCall, hfresh]
    rfl
  have hknown : s.calls < (ImLogin.newCall s).calls := Nat.lt_succ_self _
  cases action with
  | ensureIMLogin now =>
    cases ht
    rw [ImLogin.ensureIMLogin]
    split
    · exact hnew.stand hknown hout rfl h.numbered.logout
    case isFalse hunusable =>
      apply hnew.enqueue hknown hout h.numbered.logout
      apply horderly.1
      simp only [entersOutside, Bool.or_eq_true, Bool.not_eq_true']
      by_contra hnone
      rw [not_or, Bool.not_eq_true, Bool.not_eq_false] at hnone
      exact hunusable hnone
  | logoutOpenIM now =>
    cases ht
    exact h.logout (horderly.1 rfl) (horderly.2.2 rfl)
  | reopenClosedSdkDatabase now =>
    simp only [step] at ht
    split at ht
    · cases ht
      exact h
    case isFalse hnone =>
      cases ht
      have hmarked : Invariant { ImLogin.newCall s with closedDbRecovery := some s.calls } :=
        hnew.outside rfl rfl rfl rfl rfl rfl rfl (.inr rfl) (.inr ⟨rfl, rfl⟩)
      apply hmarked.enqueue hknown hout h.numbered.logout
      exact horderly.1 (by simpa [entersOutside] using hnone)
  | start now =>
    simp only [step] at ht
    cases hchain : s.sessionChain with
    | nil =>
      rw [hchain] at ht
      cases ht
    | cons entry rest =>
      simp only [hchain] at ht
      split at ht
      · cases ht
      case isFalse hdepth =>
        cases ht
        exact h.start hchain (by omega)
  | resume call answer now =>
    cases hpc : s.pc call with
    | absent | queued | done =>
      simp only [step, stepCall, hpc] at ht
      cases ht
    | check stage => exact h.stepCheck isApp hpc horderly.1 ht
    | _ => exact h.stepTask isApp (by rw [hpc]; rfl) horderly.2.1 ht
  | login answer now =>
    obtain ⟨run, hrun, ht⟩ := bind_eq_some_iff.mp ht
    exact h.stepLogin hrun ht
  | timeout call => cases horderly.2.1
  | invalidated loggedOut =>
    cases ht
    refine h.outside rfl rfl rfl rfl rfl rfl rfl ?_ (.inl rfl)
    cases loggedOut with
    | true => exact .inl rfl
    | false => exact .inr rfl
  | connection up | setToken token =>
    cases ht
    exact h.outside rfl rfl rfl rfl rfl rfl rfl (.inr rfl) (.inr ⟨rfl, rfl⟩)
  | invalidateIMLoginCache =>
    cases ht
    exact h.outside rfl rfl rfl rfl rfl rfl rfl (.inr rfl) (.inl rfl)

theorem invariant_initial (h : Loaded s) : Invariant s := by
  refine ⟨⟨?_, ?_, fun _ => h.sessionDepth, ?_⟩, ⟨?_, ?_, ?_, ?_⟩, ?_⟩
  · intro first second hfirst
    rw [h.pc] at hfirst
    cases hfirst
  · intro call hcall
    rw [h.pc] at hcall
    cases hcall
  · rw [h.loginPromise]
    exact nofun
  · intro call _
    rw [h.pc]
  · simp [h.sessionChain]
  · rw [h.lastLogout]
    exact nofun
  · rw [h.lastLogout]
    exact nofun
  rw [h.lastLogout]
  exact nofun

end

/-- Sessions are serial, and a logout is final, in every run in which tasks are
asked for in order. -/
theorem session_safe {isApp : Bool} {s : State} (h : (machine isApp).ReachableBy Orderly s) :
    SessionSafe s := by
  have hinv := h.invariant Invariant (fun _ => invariant_initial)
    (fun _ _ _ horderly hinv hstep => invariant_step hinv horderly hstep)
  exact hinv.safe

def sampleUser : IMToken := ⟨['u'], 3600⟩

/-- A page that was just loaded, of a user who is signed in. -/
def loadedPage : State where
  imUserId := []
  tokenExpireAt := 0
  connected := false
  boundAccessToken := []
  loginEpoch := 0
  loginPromise := none
  sessionChain := []
  sessionDepth := 0
  forceNextLogin := false
  appSdkReadyUserId := []
  closedDbRecovery := none
  accessToken := ['b']
  pc := fun _ => .absent
  chained := fun _ => false
  calls := 0
  sdk := none
  userBy := none
  lastLogout := none

theorem loadedPage_loaded : Loaded loadedPage :=
  ⟨rfl, rfl, rfl, rfl, rfl, rfl, rfl, nofun, rfl⟩

/-- A login, and a logout that is asked for before the login has started. -/
def orderedLogout : List Action :=
  [.ensureIMLogin 0, .logoutOpenIM 0, .start 1, .login (.token sampleUser) 2,
    .login (.status .logout) 3, .login .done 4, .login .done 5, .resume 0 .done 6, .start 7,
    .resume 1 (.status .logged) 8, .resume 1 .done 9]

theorem session_safe_logout : ∃ s : State, s.lastLogout = some 1 ∧ Quiet s ∧ SessionSafe s := by
  have hrun : ((machine false).executeBy Orderly loadedPage orderedLogout).any (fun s =>
      s.lastLogout = some 1 && s.sessionChain = [] &&
        decide (∀ call < s.calls, (s.pc call).inTask = false)) = true := by decide +kernel
  obtain ⟨s, hs, hchecked⟩ := (any_eq_true _ _).mp hrun
  simp only [Bool.and_eq_true, decide_eq_true_eq] at hchecked
  exact ⟨s, hchecked.1.1, ⟨hchecked.1.2, hchecked.2⟩,
    session_safe ⟨loadedPage, loadedPage_loaded, Machine.path_of_executeBy hs⟩⟩

/-- A logout comes while a login awaits its token. -/
def overtakingLogout : List Action := [.ensureIMLogin 0, .start 1, .logoutOpenIM 2]

/-- The logout ends, and the login starts over. -/
def restartedLogin : List Action :=
  [.resume 1 (.status .logout) 3, .login (.token sampleUser) 4, .resume 0 .done 5,
    .login (.token sampleUser) 6, .login (.status .logout) 7, .login .done 8, .login .done 9,
    .resume 0 .done 10]

/-- The logout runs beside the login, and the login is there after it. -/
theorem overtaken_login_returns : ∃ s t : State, (machine false).Reachable s ∧ ¬ SessionSafe s ∧
    (machine false).execute s restartedLogin = some t ∧ Quiet t ∧ t.imUserId = ['u'] ∧
      ¬ SessionSafe t := by
  have hrun : ((machine false).execute loadedPage overtakingLogout).any (fun s =>
      (s.pc 0).inTask && (s.pc 1).inTask && ((machine false).execute s restartedLogin).any (fun t =>
          t.sessionChain = [] && decide (∀ call < t.calls, (t.pc call).inTask = false) &&
            t.imUserId = ['u'] && t.userBy = some 0 && t.lastLogout = some 1)) = true := by
    decide +kernel
  obtain ⟨s, hs, hchecked⟩ := (any_eq_true _ _).mp hrun
  simp only [Bool.and_eq_true] at hchecked
  obtain ⟨⟨hfirst, hsecond⟩, hlater⟩ := hchecked
  obtain ⟨t, ht, hleft⟩ := (any_eq_true _ _).mp hlater
  simp only [Bool.and_eq_true, decide_eq_true_eq] at hleft
  obtain ⟨⟨⟨⟨hchain, htasks⟩, huser⟩, hby⟩, hlogout⟩ := hleft
  refine ⟨s, t, Machine.reachable_of_execute loadedPage_loaded hs, ?_, ht, ⟨hchain, htasks⟩, huser,
    ?_⟩
  · intro hsafe
    cases hsafe.serial 0 1 hfirst hsecond
  intro hsafe
  have hafter := (hsafe.final ⟨hchain, htasks⟩ 1 hlogout).user 0 (by simp [huser]) hby
  omega

end ImApp.ImLogin
