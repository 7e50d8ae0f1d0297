import ImApp.Auth.Sessions

/-!
One phone session for each account. A login from a phone stores its session and then
revokes the other phone sessions of the account, in two statements. Two logins can so
revoke each other.
-/

namespace ImApp.Auth

open InterleavedCalls StepSystem List KeyedTable Option

/-- An active phone session of an account. -/
def Session.mobileOf (now : ℕ) (user : String) (s : Session) : Bool :=
  s.user = user && IsMobilePlatform s.platform && s.active now

def LoggedIn (d : SessionData) (user : String) (refresh : Token) : Prop :=
  ∃ login ∈ d.logins, login.user = user ∧ IsMobilePlatform login.platform = true ∧
    login.refreshToken = refresh

/-- Exactly one phone session of the account is active, and it belongs to a login that
was answered. -/
def OneMobileSession (d : SessionData) (user : String) : Prop :=
  ∃ row ∈ d.sessions.rows, row.mobileOf d.now user = true ∧ LoggedIn d user row.refreshToken ∧
    ∀ other ∈ d.sessions.rows, other.mobileOf d.now user = true → other = row

/-- The login that ran its revocation last. -/
def LastRevocation (d : SessionData) (user : String) : Option Revocation :=
  d.revocations.find? fun r => r.user = user

def SessionCall.loginOf (user : String) : SessionCall → Bool
  | .login u platform | .inserting u platform _ _ | .revoking u platform _ | .loggedIn u platform _ =>
    u = user && IsMobilePlatform platform
  | _ => false

/-- All logins of the account from phones have finished. -/
def Finished (s : State SessionData SessionCall) (user : String) : Prop :=
  ∀ id call, s.calls id = some call → call.loginOf user = false

def SessionCall.isLogin : SessionCall → Bool
  | .login _ _ | .inserting _ _ _ _ | .revoking _ _ _ | .loggedIn _ _ _ => true
  | _ => false

/-- Logins and nothing else, with no revocation that fails and no insert whose answer is
lost, while no active session runs out. -/
def Logins (s : State SessionData SessionCall) : Action SessionCall Reply ℕ → Prop
  | .start _ call => call.isLogin = true
  | .advance id reply =>
    (∀ user platform refresh again, s.calls id = some (.inserting user platform refresh again) →
      reply ≠ .unanswered) ∧
    ∀ user platform refresh, s.calls id = some (.revoking user platform refresh) → reply ≠ .failed
  | .world later => ∀ row ∈ s.data.sessions.rows, row.active s.data.now = true →
      row.active (s.data.now + later) = true

/-- A login that has stored its session and not yet revoked the others. -/
def Revokes (s : State SessionData SessionCall) (user : String) (refresh : Token) : Prop :=
  s.InProgress fun call => ∃ platform, call = .revoking user platform refresh

def Answers (s : State SessionData SessionCall) (user : String) (refresh : Token) : Prop :=
  s.InProgress fun call => ∃ platform, IsMobilePlatform platform = true ∧
    call = .loggedIn user platform refresh

structure Exclusive (user : String) (s : State SessionData SessionCall) : Prop where
  active : ∀ row ∈ s.data.sessions.rows, row.mobileOf s.data.now user = true →
    LastRevocation s.data user = none ∨ Revokes s user row.refreshToken ∨
      ∃ r, LastRevocation s.data user = some r ∧ r.refreshToken = row.refreshToken ∧ r.active = true
  last : ∀ r, LastRevocation s.data user = some r → r.active = true →
    ∃ row ∈ s.data.sessions.rows, row.mobileOf s.data.now user = true ∧
      row.refreshToken = r.refreshToken
  answered : ∀ r, LastRevocation s.data user = some r →
    LoggedIn s.data user r.refreshToken ∨ Answers s user r.refreshToken
  revoked : ∀ refresh, LoggedIn s.data user refresh ∨ Answers s user refresh →
    LastRevocation s.data user ≠ none
  own : ∀ id platform refresh, s.calls id = some (.revoking user platform refresh) →
    IsMobilePlatform platform = true ∧
      ∃ row ∈ s.data.sessions.rows, row.refreshToken = refresh ∧ row.user = user ∧
        IsMobilePlatform row.platform = true
  logins : ∀ id call, s.calls id = some call → call.isLogin = true

variable {s : State SessionData SessionCall} {d : SessionData} {id : ℕ} {user : String} {call : SessionCall}
  {next : Option SessionCall} {refresh : Token}

variable {row : Session}

theorem mobileOf_iff {now : ℕ} : row.mobileOf now user = true ↔
    row.user = user ∧ IsMobilePlatform row.platform = true ∧ row.active now = true := by
  simp [Session.mobileOf, and_assoc]

theorem Exclusive.finished (h : Exclusive user s) (hfinished : Finished s user) :
    OneMobileSession s.data user ↔ ∃ r, LastRevocation s.data user = some r ∧ r.active = true := by
  have hrevokes : ∀ refresh, ¬ Revokes s user refresh := by
    rintro refresh ⟨id, call, hcall, platform, rfl⟩
    have hdone := hfinished id _ hcall
    simp [SessionCall.loginOf, (h.own id platform refresh hcall).1] at hdone
  have hanswers : ∀ refresh, ¬ Answers s user refresh := by
    rintro refresh ⟨id, call, hcall, platform, hmobile, rfl⟩
    have hdone := hfinished id _ hcall
    simp [SessionCall.loginOf, hmobile] at hdone
  constructor
  · rintro ⟨row, hrow, hactive, hlogin, -⟩
    rcases h.active row hrow hactive with hnone | hrevoking | ⟨r, hlast, -, hlive⟩
    · exact absurd hnone (h.revoked _ (.inl hlogin))
    · exact absurd hrevoking (hrevokes _)
    exact ⟨r, hlast, hlive⟩
  rintro ⟨r, hlast, hlive⟩
  obtain ⟨row, hrow, hactive, htoken⟩ := h.last r hlast hlive
  refine ⟨row, hrow, hactive, ?_, ?_⟩
  · rw [htoken]
    exact (h.answered r hlast).resolve_right (hanswers _)
  intro other hother hsame
  rcases h.active other hother hsame with hnone | hrevoking | ⟨r', hlast', htoken', -⟩
  · rw [hlast] at hnone
    cases hnone
  · exact absurd hrevoking (hrevokes _)
  cases hlast.symm.trans hlast'
  exact eq_of_key hother hrow (htoken'.symm.trans htoken.symm)

theorem Revokes.kept (h : Revokes s user refresh) (hcall : s.calls id = some call)
    (hnot : ∀ platform, call ≠ .revoking user platform refresh) :
    Revokes ⟨d, setCall s.calls id next⟩ user refresh := by
  apply State.InProgress.kept h
  rintro current hcur ⟨platform, rfl⟩
  exact hnot platform (some.inj (hcall.symm.trans hcur))

/-- A step that neither revokes nor answers: the table stays or gets a session of a login
that goes on to revoke. -/
theorem Exclusive.grow (h : Exclusive user s) (hquiet : ∀ call, s.calls id = some call →
      (∀ platform t, call ≠ .revoking user platform t) ∧ ∀ platform t, call ≠ .loggedIn user platform t)
    (hnow : d.now = s.data.now) (hlast : LastRevocation d user = LastRevocation s.data user)
    (hlogins : d.logins = s.data.logins)
    (hrows : ∀ row ∈ s.data.sessions.rows, row.user = user → row ∈ d.sessions.rows)
    (hnew : ∀ row ∈ d.sessions.rows, row.mobileOf d.now user = true → row ∈ s.data.sessions.rows ∨
      ∃ platform, next = some (.revoking user platform row.refreshToken))
    (hnext : ∀ current, next = some current → current.isLogin = true ∧
      (∀ platform t, current = .revoking user platform t → IsMobilePlatform platform = true ∧
        ∃ row ∈ d.sessions.rows, row.refreshToken = t ∧ row.user = user ∧
          IsMobilePlatform row.platform = true) ∧
      ∀ platform t, current = .loggedIn user platform t → IsMobilePlatform platform = false) :
    Exclusive user ⟨d, setCall s.calls id next⟩ := by
  have hrevokes : ∀ t, Revokes s user t → Revokes ⟨d, setCall s.calls id next⟩ user t := by
    intro t hpre
    apply State.InProgress.kept hpre
    rintro current hcur ⟨platform, hsame⟩
    exact (hquiet current hcur).1 platform t hsame
  have hkept : ∀ t, Answers s user t → Answers ⟨d, setCall s.calls id next⟩ user t := by
    intro t hpre
    apply State.InProgress.kept hpre
    rintro current hcur ⟨platform, -, hsame⟩
    exact (hquiet current hcur).2 platform t hsame
  have hanswers : ∀ t, Answers ⟨d, setCall s.calls id next⟩ user t → Answers s user t := by
    intro t hafter
    rcases inProgress_of_setCall hafter with ⟨current, hcur, platform, hmobile, hsame⟩ | hpre
    · have hweb := (hnext current hcur).2.2 platform t hsame
      rw [hmobile] at hweb
      cases hweb
    exact hpre
  have hlogged : ∀ t, LoggedIn d user t ↔ LoggedIn s.data user t := by
    intro t
    unfold LoggedIn
    rw [hlogins]
  constructor
  · intro row hrow hactive
    change LastRevocation d user = none ∨ Revokes ⟨d, setCall s.calls id next⟩ user row.refreshToken ∨
      ∃ r, LastRevocation d user = some r ∧ r.refreshToken = row.refreshToken ∧ r.active = true
    rw [hlast]
    rcases hnew row hrow hactive with hpre | ⟨platform, hself⟩
    · change row.mobileOf d.now user = true at hactive
      rw [hnow] at hactive
      exact (h.active row hpre hactive).imp_right (Or.imp_left (hrevokes _))
    exact .inr (.inl ⟨id, _, (setCall_self ..).trans hself, platform, rfl⟩)
  · intro r hr hlive
    change LastRevocation d user = some r at hr
    rw [hlast] at hr
    obtain ⟨row, hrow, hactive, htoken⟩ := h.last r hr hlive
    refine ⟨row, hrows row hrow (mobileOf_iff.mp hactive).1, ?_, htoken⟩
    change row.mobileOf d.now user = true
    rwa [hnow]
  · intro r hr
    change LastRevocation d user = some r at hr
    rw [hlast] at hr
    exact (h.answered r hr).imp (hlogged _).mpr (hkept _)
  · intro t hans
    change LastRevocation d user ≠ none
    rw [hlast]
    exact h.revoked t (hans.imp (hlogged t).mp (hanswers t))
  · intro other platform t hother
    rcases setCall_some hother with ⟨-, hself⟩ | ⟨-, hpre⟩
    · exact (hnext _ hself).2.1 platform t rfl
    obtain ⟨hmobile, row, hrow, hown⟩ := h.own other platform t hpre
    exact ⟨hmobile, row, hrows row hrow hown.2.1, hown⟩
  intro other current hother
  rcases setCall_some hother with ⟨-, hself⟩ | ⟨-, hpre⟩
  · exact (hnext current hself).1
  exact h.logins other current hpre

/-- A step that leaves the table and goes on neither to a revocation nor to an answer. -/
theorem Exclusive.quiet (h : Exclusive user s) (hquiet : ∀ call, s.calls id = some call →
      (∀ platform t, call ≠ .revoking user platform t) ∧ ∀ platform t, call ≠ .loggedIn user platform t)
    (hnow : d.now = s.data.now) (hlast : LastRevocation d user = LastRevocation s.data user)
    (hlogins : d.logins = s.data.logins) (hsessions : d.sessions = s.data.sessions)
    (hnext : ∀ current, next = some current → current.isLogin = true ∧
      (∀ platform t, current ≠ .revoking user platform t) ∧
        ∀ platform t, current ≠ .loggedIn user platform t) :
    Exclusive user ⟨d, setCall s.calls id next⟩ := by
  apply h.grow hquiet hnow hlast hlogins
  · intro row hrow _
    rwa [hsessions]
  · intro row hrow _
    rw [hsessions] at hrow
    exact .inl hrow
  intro current hcur
  obtain ⟨hlogin, hrevoking, hanswer⟩ := hnext current hcur
  exact ⟨hlogin, fun platform t hsame => absurd hsame (hrevoking platform t),
    fun platform t hsame => absurd hsame (hanswer platform t)⟩

variable {u : String} {platform : Platform}

theorem Exclusive.insert (h : Exclusive user s) {again : Bool}
    {reply : Reply} (hcall : s.calls id = some (.inserting u platform refresh again)) (hreply : reply ≠ .unanswered) :
    Exclusive user ⟨(insertSession s.data u platform refresh again reply).1,
      setCall s.calls id (insertSession s.data u platform refresh again reply).2⟩ := by
  have hquiet : ∀ call, s.calls id = some call →
      (∀ platform t, call ≠ .revoking user platform t) ∧ ∀ platform t, call ≠ .loggedIn user platform t := by
    intro call hcur
    cases hcall.symm.trans hcur
    refine ⟨?_, ?_⟩
    · intro _ _ hsame
      cases hsame
    intro _ _ hsame
    cases hsame
  unfold insertSession
  split
  · apply h.quiet hquiet rfl rfl rfl rfl
    intro current hcur
    unfold retry at hcur
    split at hcur
    · cases hcur
    cases hcur
    exact ⟨rfl, fun _ _ hsame => (by cases hsame), fun _ _ hsame => (by cases hsame)⟩
  rename_i hinserts
  push Not at hinserts
  have hself : newSession s.data u platform refresh ∈
      (s.data.addSession u platform refresh).sessions.rows :=
    mem_insert_self hinserts.2
  have hrows : ∀ row ∈ s.data.sessions.rows, row.user = user →
      row ∈ (s.data.addSession u platform refresh).sessions.rows :=
    fun row hrow _ => mem_insert_of_mem hrow
  split
  · rename_i hmobile
    apply h.grow (d := s.data.addSession u platform refresh) hquiet rfl rfl rfl hrows
    · intro row hrow hactive
      rcases mem_insert hrow with hpre | rfl
      · exact .inl hpre
      obtain ⟨hu, -⟩ := mobileOf_iff.mp hactive
      change u = user at hu
      subst hu
      exact .inr ⟨platform, rfl⟩
    intro current hcur
    cases hcur
    refine ⟨rfl, ?_, ?_⟩
    · intro _ _ hsame
      cases hsame
      exact ⟨hmobile, _, hself, rfl, rfl, hmobile⟩
    intro _ _ hsame
    cases hsame
  rename_i hweb
  apply h.grow (d := s.data.addSession u platform refresh) hquiet rfl rfl rfl hrows
  · intro row hrow hactive
    rcases mem_insert hrow with hpre | rfl
    · exact .inl hpre
    obtain ⟨-, hmobile, -⟩ := mobileOf_iff.mp hactive
    exact absurd hmobile hweb
  intro current hcur
  cases hcur
  refine ⟨rfl, ?_, ?_⟩
  · intro _ _ hsame
    cases hsame
  intro _ _ hsame
  cases hsame
  exact Bool.eq_false_iff.mpr hweb

theorem mem_revokeOthers
    (hrow : row ∈ (revokeOthers d u refresh).sessions.rows) (hactive : row.mobileOf d.now user = true) :
    row ∈ d.sessions.rows ∧ Session.otherMobile d.now u refresh row = false := by
  rcases mem_update hrow with ⟨before, -, -, rfl⟩ | hkept
  · simp [Session.mobileOf, revoke, Session.active] at hactive
  exact hkept

theorem mem_revokeOthers_of_kept (hrow : row ∈ d.sessions.rows)
    (hkept : Session.otherMobile d.now u refresh row = false) :
    row ∈ (revokeOthers d u refresh).sessions.rows :=
  mem_update_of_kept hrow hkept

theorem revokeOthers_keeps {t : Token}
    (h : ∃ row ∈ d.sessions.rows, row.refreshToken = t ∧ row.user = user ∧
      IsMobilePlatform row.platform = true) :
    ∃ row ∈ (revokeOthers d u refresh).sessions.rows, row.refreshToken = t ∧ row.user = user ∧
      IsMobilePlatform row.platform = true := by
  obtain ⟨row, hrow, hown⟩ := h
  cases hother : Session.otherMobile d.now u refresh row with
  | true => exact ⟨_, mem_update_of_selected hrow hother, hown⟩
  | false => exact ⟨row, mem_revokeOthers_of_kept hrow hother, hown⟩

theorem Exclusive.revokeOther (h : Exclusive user s) (hu : u ≠ user)
    (hcall : s.calls id = some (.revoking u platform refresh)) :
    Exclusive user ⟨revokeOthers s.data u refresh,
      setCall s.calls id (some (.loggedIn u platform refresh))⟩ := by
  apply h.grow
  · intro call hcur
    cases hcall.symm.trans hcur
    refine ⟨?_, ?_⟩
    · intro _ _ hsame
      cases hsame
      exact hu rfl
    intro _ _ hsame
    cases hsame
  · rfl
  · exact find?_cons_of_neg (by simpa using hu)
  · rfl
  · intro row hrow huser
    apply mem_revokeOthers_of_kept hrow
    have hother : row.user ≠ u := fun hsame => hu (hsame.symm.trans huser)
    simp [Session.otherMobile, hother]
  · intro row hrow hactive
    exact .inl (mem_revokeOthers hrow hactive).1
  intro current hcur
  cases hcur
  refine ⟨rfl, ?_, ?_⟩
  · intro _ _ hsame
    cases hsame
  intro _ _ hsame
  cases hsame
  exact absurd rfl hu

/-- The account's own revocation leaves one session, if that is still active. -/
theorem Exclusive.revokeOwn (h : Exclusive user s)
    (hcall : s.calls id = some (.revoking user platform refresh)) :
    Exclusive user ⟨revokeOthers s.data user refresh,
      setCall s.calls id (some (.loggedIn user platform refresh))⟩ := by
  obtain ⟨hmobile, own, hown, htoken, huser, hphone⟩ := h.own id platform refresh hcall
  have hlast : LastRevocation (revokeOthers s.data user refresh) user = some ⟨user, refresh,
      s.data.sessions.rows.any fun s' => s'.refreshToken = refresh && s'.active s.data.now⟩ :=
    find?_cons_of_pos (decide_eq_true rfl)
  constructor
  · intro row hrow hactive
    obtain ⟨hpre, hkept⟩ := mem_revokeOthers hrow hactive
    obtain ⟨hrowUser, hrowPhone, hrowActive⟩ := mobileOf_iff.mp hactive
    have hrowToken : row.refreshToken = refresh := by
      by_contra hother
      change row.active s.data.now = true at hrowActive
      simp [Session.otherMobile, hrowUser, hrowPhone, hother, hrowActive] at hkept
    refine .inr (.inr ⟨_, hlast, hrowToken.symm, ?_⟩)
    apply any_eq_true.mpr
    refine ⟨row, hpre, ?_⟩
    rw [Bool.and_eq_true, decide_eq_true_eq]
    exact ⟨hrowToken, hrowActive⟩
  · intro r hr hlive
    cases hlast.symm.trans hr
    obtain ⟨row, hrow, hboth⟩ := any_eq_true.mp hlive
    rw [Bool.and_eq_true, decide_eq_true_eq] at hboth
    obtain rfl := eq_of_key hrow hown (hboth.1.trans htoken.symm)
    refine ⟨row, ?_, mobileOf_iff.mpr ⟨huser, hphone, hboth.2⟩, htoken⟩
    apply mem_revokeOthers_of_kept hrow
    simp [Session.otherMobile, htoken]
  · intro r hr
    cases hlast.symm.trans hr
    exact .inr ⟨id, _, setCall_self .., platform, hmobile, rfl⟩
  · intro t _ hnone
    rw [hlast] at hnone
    cases hnone
  · intro other platform' t hother
    rcases setCall_some hother with ⟨-, hself⟩ | ⟨-, hpre⟩
    · cases hself
    obtain ⟨hphone', hstored⟩ := h.own other platform' t hpre
    exact ⟨hphone', revokeOthers_keeps hstored⟩
  intro other current hother
  rcases setCall_some hother with ⟨-, hself⟩ | ⟨-, hpre⟩
  · cases hself
    rfl
  exact h.logins other current hpre

theorem Exclusive.answer (h : Exclusive user s)
    (hcall : s.calls id = some (.loggedIn u platform refresh)) {given : List Token} :
    Exclusive user ⟨{ s.data with given := given, logins := ⟨u, platform, refresh⟩ :: s.data.logins },
      setCall s.calls id none⟩ := by
  constructor
  · intro row hrow hactive
    refine (h.active row hrow hactive).imp_right (Or.imp_left ?_)
    intro hrevokes
    apply hrevokes.kept hcall
    intro _ hsame
    cases hsame
  · exact h.last
  · intro r hr
    rcases h.answered r hr with ⟨login, hlogin, hown⟩ | ⟨other, current, hother, phone, hmobile, rfl⟩
    · exact .inl ⟨login, mem_cons_of_mem _ hlogin, hown⟩
    by_cases hid : other = id
    · subst hid
      cases hcall.symm.trans hother
      exact .inl ⟨_, mem_cons_self, rfl, hmobile, rfl⟩
    exact .inr ⟨other, _, (setCall_of_ne none hid).trans hother, phone, hmobile, rfl⟩
  · rintro t (⟨login, hlogin, hu, hmobile, htoken⟩ | hanswers)
    · rcases mem_cons.mp hlogin with rfl | hpre
      · change u = user at hu
        subst hu
        exact h.revoked refresh (.inr ⟨id, _, hcall, platform, hmobile, rfl⟩)
      exact h.revoked t (.inl ⟨login, hpre, hu, hmobile, htoken⟩)
    rcases inProgress_of_setCall hanswers with ⟨current, hcur, -⟩ | hpre
    · cases hcur
    exact h.revoked t (.inr hpre)
  · intro other platform' t hother
    rcases setCall_some hother with ⟨-, hself⟩ | ⟨-, hpre⟩
    · cases hself
    exact h.own other platform' t hpre
  intro other current hother
  rcases setCall_some hother with ⟨-, hself⟩ | ⟨-, hpre⟩
  · cases hself
  exact h.logins other current hpre

theorem Session.active_earlier {now later : ℕ} (h : row.active (now + later) = true) :
    row.active now = true := by
  unfold Session.active at *
  rw [Bool.and_eq_true, decide_eq_true_eq] at *
  exact ⟨h.1, by omega⟩

theorem Exclusive.later (h : Exclusive user s) {later : ℕ}
    (hlasts : ∀ row ∈ s.data.sessions.rows, row.active s.data.now = true →
      row.active (s.data.now + later) = true) :
    Exclusive user ⟨{ s.data with now := s.data.now + later }, s.calls⟩ := by
  refine ⟨?_, ?_, h.answered, h.revoked, h.own, h.logins⟩
  · intro row hrow hactive
    obtain ⟨huser, hphone, hlater⟩ := mobileOf_iff.mp hactive
    exact h.active row hrow (mobileOf_iff.mpr ⟨huser, hphone, Session.active_earlier hlater⟩)
  intro r hr hlive
  obtain ⟨row, hrow, hactive, htoken⟩ := h.last r hr hlive
  obtain ⟨huser, hphone, hnow⟩ := mobileOf_iff.mp hactive
  exact ⟨row, hrow, mobileOf_iff.mpr ⟨huser, hphone, hlasts row hrow hnow⟩, htoken⟩

theorem logins_exclusive (hs : sessionService.machine.ReachableBy Logins s) : Exclusive user s := by
  apply hs.invariant (Exclusive user)
  · rintro start ⟨⟨-, -, -, -, -, -, hrevocations, hlogins⟩, hnone⟩
    have hlast : LastRevocation start.data user = none := by
      unfold LastRevocation
      rw [hrevocations]
      rfl
    have hidle : ∀ id call, start.calls id ≠ some call := by
      intro id call hcall
      rw [hnone id] at hcall
      cases hcall
    refine ⟨fun _ _ _ => .inl hlast, ?_, ?_, ?_, ?_, ?_⟩
    · intro r hr
      rw [hlast] at hr
      cases hr
    · intro r hr
      rw [hlast] at hr
      cases hr
    · rintro t (⟨login, hlogin, -⟩ | ⟨id, call, hcall, -⟩)
      · rw [hlogins] at hlogin
        cases hlogin
      exact absurd hcall (hidle id call)
    · intro id platform t hcall
      exact absurd hcall (hidle id _)
    intro id call hcall
    exact absurd hcall (hidle id call)
  intro before action after hallow hpre hstep
  cases action with
  | start id call =>
    obtain ⟨hfree, hopens, rfl⟩ := Service.start_some hstep
    apply hpre.quiet _ rfl rfl rfl rfl
    · intro current hcur
      cases hcur
      refine ⟨hallow, ?_, ?_⟩
      · rintro platform t rfl
        cases hopens
      rintro platform t rfl
      cases hopens
    intro current hcur
    rw [hfree] at hcur
    cases hcur
  | advance id reply =>
    obtain ⟨call, data, next, hcall, hadv, rfl⟩ := Service.advance_some hstep
    have hlogin := hpre.logins id call hcall
    have hres : advanceSession id before.data call reply = (data, next) := some.inj hadv
    have hkept : Exclusive user ⟨(advanceSession id before.data call reply).1,
        setCall before.calls id (advanceSession id before.data call reply).2⟩ := by
      cases call with
      | login u platform =>
        have hquiet : ∀ call, before.calls id = some call →
            (∀ platform t, call ≠ .revoking user platform t) ∧
              ∀ platform t, call ≠ .loggedIn user platform t := by
          intro call hcur
          cases hcall.symm.trans hcur
          exact ⟨fun _ _ hsame => (by cases hsame), fun _ _ hsame => (by cases hsame)⟩
        simp only [advanceSession]
        split
        · apply hpre.quiet hquiet rfl rfl rfl rfl
          intro current hcur
          cases hcur
        apply hpre.quiet (d := before.data.draw) hquiet rfl rfl rfl rfl
        intro current hcur
        cases hcur
        exact ⟨rfl, fun _ _ hsame => (by cases hsame), fun _ _ hsame => (by cases hsame)⟩
      | inserting u platform t again =>
        exact hpre.insert hcall (hallow.1 u platform t again hcall)
      | revoking u platform t =>
        simp only [advanceSession, if_neg (hallow.2 u platform t hcall)]
        by_cases hu : u = user
        · subst hu
          exact hpre.revokeOwn hcall
        exact hpre.revokeOther hu hcall
      | loggedIn u platform t => exact hpre.answer hcall
      | _ => cases hlogin
    rwa [hres] at hkept
  | world later =>
    obtain ⟨data, hworld, rfl⟩ := Service.world_some hstep
    cases hworld
    exact hpre.later hallow

/-- Once the phone logins of an account have finished, exactly one phone session is active
if and only if the login that revoked last found its own session still active. -/
theorem mobile_session_single (hs : sessionService.machine.ReachableBy Logins s)
    (hfinished : Finished s user) :
    OneMobileSession s.data user ↔ ∃ r, LastRevocation s.data user = some r ∧ r.active = true :=
  (logins_exclusive hs).finished hfinished

def noSessions : State SessionData SessionCall :=
  ⟨⟨KeyedTable.empty, 0, 0, [], [], [], [], [], []⟩, fun _ => none⟩

theorem noSessions_initial : sessionService.machine.initial noSessions := by
  refine ⟨⟨rfl, ?_, ?_, ?_, rfl, rfl, rfl, rfl⟩, fun _ => rfl⟩
  · intro row hrow
    cases hrow
  · intro t ht
    cases ht
  intro t ht
  cases ht

theorem logins_answered : Logins s (.advance id .answered) := by
  constructor
  · intro _ _ _ _ _ hlost
    cases hlost
  intro _ _ _ _ hfailed
  cases hfailed

/-- One login from a phone. -/
theorem mobile_session_single_login : ∃ s, Finished s "alice" ∧ OneMobileSession s.data "alice" := by
  have hstart : sessionService.machine.Path Logins noSessions
      ⟨noSessions.data, setCall noSessions.calls 0 (some (.login "alice" .ios))⟩ :=
    Machine.Path.single (a := .start 0 (.login "alice" .ios)) rfl rfl
  have hdraw := hstart.tail (a := .advance 0 .answered) logins_answered rfl
  have hinsert := hdraw.tail (a := .advance 0 .answered) logins_answered rfl
  have hrevoke := hinsert.tail (a := .advance 0 .answered) logins_answered rfl
  have hanswer := hrevoke.tail (a := .advance 0 .answered) logins_answered rfl
  refine ⟨_, ?_, (mobile_session_single ⟨noSessions, noSessions_initial, hanswer⟩ ?_).mpr ⟨_, rfl, rfl⟩⟩
  · rintro (_ | other) call hcall
    · cases hcall
    cases hcall
  rintro (_ | other) call hcall
  · cases hcall
  cases hcall

/-- Two logins store their sessions before either revokes. -/
def twoLogins : List (Action SessionCall Reply ℕ) :=
  [.start 0 (.login "alice" .ios), .start 1 (.login "alice" .android), .advance 0 .answered,
    .advance 1 .answered, .advance 0 .answered, .advance 1 .answered, .advance 0 .answered,
    .advance 1 .answered, .advance 0 .answered, .advance 1 .answered]

/-- Both are answered, and no session is left. -/
theorem two_logins_leave_none :
    ∃ s, sessionService.machine.Reachable s ∧ Finished s "alice" ∧ s.data.logins.length = 2 ∧
      ¬ OneMobileSession s.data "alice" := by
  have hrun : sessionService.machine.execute noSessions twoLogins = some ⟨⟨⟨[
      ⟨0, "alice", .ios, ⟨0, 0⟩, refreshTokenTTL, true⟩,
      ⟨1, "alice", .android, ⟨1, 1⟩, refreshTokenTTL, true⟩],
      _⟩, 0, 2, _, _, [], [], _, _⟩, _⟩ := rfl
  refine ⟨_, Machine.reachable_of_execute noSessions_initial hrun, ?_, rfl, ?_⟩
  · rintro (_ | _ | other) call hcall
    · cases hcall
    · cases hcall
    cases hcall
  rintro ⟨row, hrow, hactive, -⟩
  rcases mem_cons.mp hrow with rfl | hrow
  · cases hactive
  obtain rfl := mem_singleton.mp hrow
  cases hactive

end ImApp.Auth
