import ImApp.Auth.Sessions

/-!
Refresh tokens are rotated. Between the lookup of a refresh and its update another
refresh of the same token or a logout may run; the update then changes no row, but the
refresh does not look at that and hands out a token that is stored nowhere.
-/

namespace ImApp.Auth

open InterleavedCalls StepSystem List KeyedTable

/-- No token is exchanged twice, each token handed out was stored in a live session, and
none was handed out for a session that had been revoked. -/
structure RotatesOnce (d : SessionData) : Prop where
  once : (d.exchanges.map Exchange.old).Nodup
  stored : ∀ e ∈ d.exchanges, e.stored = true
  live : ∀ e ∈ d.exchanges, e.revoked = false

/-- The update of a refresh that will be answered finds the token in a session that is
not revoked; and clients know no tokens but those they were given. -/
def Rotates (s : State SessionData SessionCall) : Action SessionCall Reply ℕ → Prop
  | .advance id reply =>
    (∀ old session new, s.calls id = some (.rotating old session new) → reply = .answered →
      ∃ row ∈ s.data.sessions.rows, row.refreshToken = old ∧ row.revoked = false) ∧
    ∀ token, s.calls id = some (.refresh token) → token ∈ s.data.issued → token ∈ s.data.given
  | _ => True

/-- The history agrees with the table. -/
structure Recorded (d : SessionData) : Prop where
  ids : d.sessions.rows.map Session.id = List.range d.sessions.rows.length
  stored : ∀ row ∈ d.sessions.rows, row.refreshToken ∈ d.issued
  drawn : ∀ t ∈ d.issued, t.number < d.drawn
  given : ∀ t ∈ d.given, t.number < d.drawn
  once : (d.rotations.map Exchange.old).Nodup
  rotated : ∀ e ∈ d.rotations, e.stored = true ∧ e.revoked = false ∧ e.new ∈ d.issued ∧
    e.old ∈ d.issued ∧ ∀ row ∈ d.sessions.rows, row.refreshToken ≠ e.old
  answered : ∀ e ∈ d.exchanges, e ∈ d.rotations
  distinct : (d.exchanges.map Exchange.new).Nodup

/-- A token that its request has drawn and not yet handed out. -/
structure Held (d : SessionData) (id : ℕ) (t : Token) : Prop where
  own : t.request = id
  drawn : t.number < d.drawn
  secret : t ∉ d.given
  stored : t ∈ d.issued → ∃ row ∈ d.sessions.rows, row.refreshToken = t

/-- A token that was looked up is in no other session. -/
structure LookedUp (d : SessionData) (old : Token) (session : ℕ) : Prop where
  issued : old ∈ d.issued
  given : old ∈ d.given
  row : ∀ row ∈ d.sessions.rows, row.refreshToken = old → row.id = session

def Relies (d : SessionData) (id : ℕ) : SessionCall → Prop
  | .inserting _ _ refresh _ => Held d id refresh
  | .revoking _ _ refresh | .loggedIn _ _ refresh => refresh.request = id ∧ refresh.number < d.drawn
  | .findingUser old session => LookedUp d old session
  | .rotating old session new => LookedUp d old session ∧ Held d id new ∧ new ∉ d.issued
  | .refreshed e => e ∈ d.rotations ∧ e.new.request = id ∧ ∀ other ∈ d.exchanges, other.new ≠ e.new
  | _ => True

/-- What a step of a request does to what the others rely on. -/
structure Stores (id : ℕ) (d d' : SessionData) : Prop where
  drawn : d.drawn ≤ d'.drawn
  issued : ∀ t ∈ d'.issued, t ∈ d.issued ∨ (t.request = id ∧ t ∉ d.issued)
  issuedKept : ∀ t ∈ d.issued, t ∈ d'.issued
  given : ∀ t ∈ d'.given, t ∈ d.given ∨ t.request = id
  givenKept : ∀ t ∈ d.given, t ∈ d'.given
  rows : ∀ row ∈ d'.sessions.rows, row.refreshToken ∈ d.issued →
    ∃ before ∈ d.sessions.rows, before.refreshToken = row.refreshToken ∧ before.id = row.id
  rowsKept : ∀ row ∈ d.sessions.rows, row.refreshToken ∉ d.given →
    ∃ after ∈ d'.sessions.rows, after.refreshToken = row.refreshToken
  rotations : ∀ e ∈ d.rotations, e ∈ d'.rotations
  exchanges : ∀ e ∈ d'.exchanges, e ∈ d.exchanges ∨ e.new.request = id

variable {d d' : SessionData} {id other : ℕ} {call : SessionCall} {reply : Reply}

theorem Held.kept {t : Token} (h : Held d other t) (hother : other ≠ id) (hstep : Stores id d d') :
    Held d' other t := by
  constructor
  · exact h.own
  · exact Nat.lt_of_lt_of_le h.drawn hstep.drawn
  · intro hgiven
    rcases hstep.given t hgiven with hpre | hid
    · exact h.secret hpre
    exact hother (h.own.symm.trans hid)
  intro hissued
  rcases hstep.issued t hissued with hpre | ⟨hid, -⟩
  · obtain ⟨row, hrow, rfl⟩ := h.stored hpre
    exact hstep.rowsKept row hrow h.secret
  exact absurd (h.own.symm.trans hid) hother

theorem LookedUp.kept {old : Token} {session : ℕ} (h : LookedUp d old session) (hstep : Stores id d d') :
    LookedUp d' old session := by
  refine ⟨hstep.issuedKept old h.issued, hstep.givenKept old h.given, ?_⟩
  intro row hrow hold
  obtain ⟨before, hpre, htoken, hid⟩ := hstep.rows row hrow (hold ▸ h.issued)
  rw [← hid]
  exact h.row before hpre (htoken.trans hold)

theorem Relies.kept (h : Relies d other call) (hother : other ≠ id) (hstep : Stores id d d') :
    Relies d' other call := by
  cases call with
  | inserting => exact Held.kept h hother hstep
  | findingUser => exact LookedUp.kept h hstep
  | rotating old session new =>
    obtain ⟨hlooked, hheld, hfresh⟩ := h
    refine ⟨hlooked.kept hstep, hheld.kept hother hstep, ?_⟩
    intro hissued
    rcases hstep.issued new hissued with hpre | ⟨hid, -⟩
    · exact hfresh hpre
    exact hother (hheld.own.symm.trans hid)
  | refreshed e =>
    obtain ⟨hrotated, hown, hdist⟩ := h
    refine ⟨hstep.rotations e hrotated, hown, ?_⟩
    intro exchange hexchange hsame
    rcases hstep.exchanges exchange hexchange with hpre | hid
    · exact hdist exchange hpre hsame
    rw [hsame, hown] at hid
    exact hother hid
  | revoking | loggedIn => exact ⟨h.1, Nat.lt_of_lt_of_le h.2 hstep.drawn⟩
  | _ => exact h

/-- What a step keeps and what its request then relies on. -/
structure Advances (id : ℕ) (d d' : SessionData) (next : Option SessionCall) : Prop where
  stores : Stores id d d'
  recorded : Recorded d'
  relies : ∀ current, next = some current → Relies d' id current

theorem Stores.of_rows (hrows : d'.sessions = d.sessions) (hissued : d'.issued = d.issued)
    (hdrawn : d.drawn ≤ d'.drawn) (hgiven : ∀ t ∈ d'.given, t ∈ d.given ∨ t.request = id)
    (hkept : ∀ t ∈ d.given, t ∈ d'.given) (hrotations : d'.rotations = d.rotations)
    (hexchanges : ∀ e ∈ d'.exchanges, e ∈ d.exchanges ∨ e.new.request = id) : Stores id d d' := by
  constructor
  · exact hdrawn
  · intro t ht
    rw [hissued] at ht
    exact .inl ht
  · intro t ht
    rwa [hissued]
  · exact hgiven
  · exact hkept
  · intro row hrow _
    rw [hrows] at hrow
    exact ⟨row, hrow, rfl, rfl⟩
  · intro row hrow _
    rw [hrows]
    exact ⟨row, hrow, rfl⟩
  · intro e he
    rwa [hrotations]
  exact hexchanges

theorem Stores.same : Stores id d d :=
  Stores.of_rows rfl rfl (Nat.le_refl _) (fun _ h => .inl h) (fun _ h => h) rfl fun _ h => .inl h

theorem Stores.draw : Stores id d d.draw :=
  Stores.of_rows rfl rfl (Nat.le_succ _) (fun _ h => .inl h) (fun _ h => h) rfl fun _ h => .inl h

theorem Recorded.draw (h : Recorded d) : Recorded d.draw := by
  refine ⟨h.ids, h.stored, ?_, ?_, h.once, h.rotated, h.answered, h.distinct⟩
  · intro t ht
    exact Nat.lt_succ_of_lt (h.drawn t ht)
  intro t ht
  exact Nat.lt_succ_of_lt (h.given t ht)

theorem Advances.stay (h : Recorded d) : Advances id d d none := by
  refine ⟨Stores.same, h, ?_⟩
  intro current hcur
  cases hcur

theorem Recorded.held (h : Recorded d) :
    Held d.draw id (randomRefreshToken id d) ∧ randomRefreshToken id d ∉ d.draw.issued := by
  have hfresh : randomRefreshToken id d ∉ d.issued := by
    intro hissued
    exact Nat.lt_irrefl _ (h.drawn _ hissued)
  refine ⟨⟨rfl, Nat.lt_succ_self _, ?_, ?_⟩, hfresh⟩
  · intro hgiven
    exact Nat.lt_irrefl _ (h.given _ hgiven)
  intro hissued
  exact absurd hissued hfresh

variable {user : String} {platform : Platform} {again : Bool}

theorem login_advances (h : Recorded d) :
    Advances id d d.draw (some (.inserting user platform (randomRefreshToken id d) again)) := by
  refine ⟨Stores.draw, h.draw, ?_⟩
  intro current hcur
  cases hcur
  exact h.held.1

theorem findingUser_advances (h : Recorded d) {old : Token} {session : ℕ}
    (hlooked : LookedUp d old session) :
    Advances id d d.draw (some (.rotating old session (randomRefreshToken id d))) := by
  refine ⟨Stores.draw, h.draw, ?_⟩
  intro current hcur
  cases hcur
  have hdraw : Stores id d d.draw := Stores.draw
  exact ⟨hlooked.kept hdraw, h.held⟩

theorem lookUp_advances (h : Recorded d) {token : Token} (hgiven : token ∈ d.issued → token ∈ d.given) :
    Advances id d d (lookUp d token) := by
  refine ⟨Stores.same, h, ?_⟩
  intro current hcur
  unfold lookUp at hcur
  split at hcur
  · cases hcur
  rename_i s hfound
  have hmem := mem_of_find?_eq_some hfound
  have htoken : s.refreshToken = token := by simpa using find?_some hfound
  split at hcur
  · cases hcur
  cases hcur
  have hissued : token ∈ d.issued := by
    rw [← htoken]
    exact h.stored s hmem
  refine ⟨hissued, hgiven hissued, ?_⟩
  intro row hrow hsame
  rw [eq_of_key hrow hmem (hsame.trans htoken.symm)]

variable {refresh : Token}

theorem addSession_stores (hown : refresh.request = id) (hfresh : refresh ∉ d.issued) :
    Stores id d (d.addSession user platform refresh) := by
  constructor
  · exact Nat.le_refl _
  · intro t ht
    rcases mem_cons.mp ht with rfl | hpre
    · exact .inr ⟨hown, hfresh⟩
    exact .inl hpre
  · intro t ht
    exact mem_cons_of_mem _ ht
  · intro t ht
    exact .inl ht
  · intro t ht
    exact ht
  · intro row hrow hissued
    rcases mem_insert hrow with hpre | rfl
    · exact ⟨row, hpre, rfl, rfl⟩
    exact absurd hissued hfresh
  · intro row hrow _
    exact ⟨row, mem_insert_of_mem hrow, rfl⟩
  · intro e he
    exact he
  intro e he
  exact .inl he

theorem addSession_recorded (h : Recorded d)
    (hdrawn : refresh.number < d.drawn) (hfresh : refresh ∉ d.issued) :
    Recorded (d.addSession user platform refresh) := by
  have hnew : refresh ∉ d.sessions.rows.map Session.refreshToken := by
    intro hmem
    obtain ⟨row, hrow, rfl⟩ := mem_map.mp hmem
    exact hfresh (h.stored row hrow)
  constructor
  · have hrows : (d.addSession user platform refresh).sessions.rows =
        d.sessions.rows ++ [newSession d user platform refresh] := if_neg hnew
    rw [hrows, map_append, length_append, h.ids]
    exact range_succ.symm
  · intro row hrow
    rcases mem_insert hrow with hpre | rfl
    · exact mem_cons_of_mem _ (h.stored row hpre)
    exact mem_cons_self
  · intro t ht
    rcases mem_cons.mp ht with rfl | hpre
    · exact hdrawn
    exact h.drawn t hpre
  · exact h.given
  · exact h.once
  · intro e he
    obtain ⟨hstored, hlive, hissued, hold, hgone⟩ := h.rotated e he
    refine ⟨hstored, hlive, mem_cons_of_mem _ hissued, mem_cons_of_mem _ hold, ?_⟩
    intro row hrow
    rcases mem_insert hrow with hpre | rfl
    · exact hgone row hpre
    intro hsame
    apply hfresh
    change refresh = e.old at hsame
    rw [hsame]
    exact hold
  · exact h.answered
  exact h.distinct

theorem retry_relies (hheld : Held d id refresh) :
    ∀ current, retry user platform refresh again = some current → Relies d id current := by
  intro current hcur
  unfold retry at hcur
  split at hcur
  · cases hcur
  cases hcur
  exact hheld

theorem insertSession_advances (h : Recorded d) (hheld : Held d id refresh) :
    Advances id d (insertSession d user platform refresh again reply).1
      (insertSession d user platform refresh again reply).2 := by
  unfold insertSession
  split
  · exact ⟨Stores.same, h, retry_relies hheld⟩
  rename_i hinserts
  push Not at hinserts
  have hfresh : refresh ∉ d.issued := by
    intro hissued
    obtain ⟨row, hrow, hsame⟩ := hheld.stored hissued
    apply hinserts.2
    rw [← hsame]
    exact mem_map_of_mem hrow
  have hstores : Stores id d (d.addSession user platform refresh) := addSession_stores hheld.own hfresh
  have hrecd : Recorded (d.addSession user platform refresh) :=
    addSession_recorded h hheld.drawn hfresh
  split
  · refine ⟨hstores, hrecd, retry_relies ⟨hheld.own, hheld.drawn, hheld.secret, ?_⟩⟩
    intro _
    exact ⟨_, mem_insert_self (r := newSession d user platform refresh) hinserts.2, rfl⟩
  split <;>
  · refine ⟨hstores, hrecd, ?_⟩
    intro current hcur
    cases hcur
    exact ⟨hheld.own, hheld.drawn⟩

theorem mem_revoked {sessions : Sessions} {p : Session → Bool} {row : Session}
    (h : row ∈ (sessions.update p revoke).rows) :
    ∃ before ∈ sessions.rows, before.refreshToken = row.refreshToken ∧ before.id = row.id := by
  rcases mem_update h with ⟨before, hpre, -, rfl⟩ | ⟨hpre, -⟩
  · exact ⟨before, hpre, rfl, rfl⟩
  exact ⟨row, hpre, rfl, rfl⟩

theorem revoked_advances (h : Recorded d) (p : Session → Bool) (revocations : List Revocation)
    {next : Option SessionCall}
    (hnext : ∀ current d', next = some current → d'.drawn = d.drawn → Relies d' id current) :
    Advances id d { d with sessions := d.sessions.update p revoke, revocations := revocations } next := by
  refine ⟨⟨Nat.le_refl _, fun _ ht => .inl ht, fun _ ht => ht, fun _ ht => .inl ht, fun _ ht => ht,
    ?_, ?_, fun _ he => he, fun _ he => .inl he⟩, ⟨?_, ?_, h.drawn, h.given, h.once, ?_, h.answered,
    h.distinct⟩, fun current hcur => hnext current _ hcur rfl⟩
  · intro row hrow _
    exact mem_revoked hrow
  · intro row hrow _
    cases hp : p row with
    | true => exact ⟨_, mem_update_of_selected hrow hp, rfl⟩
    | false => exact ⟨row, mem_update_of_kept hrow hp, rfl⟩
  · have hlen : (d.sessions.update p revoke).rows.length = d.sessions.rows.length :=
      size_update
    rw [map_update (f := Session.id) fun _ => rfl, hlen]
    exact h.ids
  · intro row hrow
    obtain ⟨before, hpre, htoken, -⟩ := mem_revoked hrow
    rw [← htoken]
    exact h.stored before hpre
  intro e he
  obtain ⟨hstored, hlive, hissued, hold, hgone⟩ := h.rotated e he
  refine ⟨hstored, hlive, hissued, hold, ?_⟩
  intro row hrow
  obtain ⟨before, hpre, htoken, -⟩ := mem_revoked hrow
  rw [← htoken]
  exact hgone before hpre

section Rotate

variable {sessions : Sessions} {old new : Token} {session : ℕ}

theorem rotate_id (s : Session) : (s.rotate d.now old new).id = s.id := by
  unfold Session.rotate
  split <;> rfl

theorem rotate_other {s : Session} (h : s.refreshToken ≠ old) : s.rotate d.now old new = s :=
  if_neg fun hboth => h hboth.1

section

variable (hchange : d.sessions.change (Session.rotate d.now old new) = some sessions)
include hchange

theorem mem_rotated {row : Session} (hrow : row ∈ sessions.rows) :
    ∃ before ∈ d.sessions.rows, before.id = row.id ∧ row = before.rotate d.now old new ∧
      (row.refreshToken = before.refreshToken ∨ row.refreshToken = new) := by
  rw [change_some hchange] at hrow
  obtain ⟨before, hpre, rfl⟩ := mem_map.mp hrow
  refine ⟨before, hpre, (rotate_id before).symm, rfl, ?_⟩
  unfold Session.rotate
  split
  · exact .inr rfl
  exact .inl rfl

theorem rotated_stores
    (hlooked : LookedUp d old session) (hheld : Held d id new) (hfresh : new ∉ d.issued)
    {rotations : List Exchange} (hrotations : ∀ e ∈ d.rotations, e ∈ rotations) :
    Stores id d { d with sessions := sessions, issued := new :: d.issued, rotations := rotations } := by
  constructor
  · exact Nat.le_refl _
  · intro t ht
    rcases mem_cons.mp ht with rfl | hpre
    · exact .inr ⟨hheld.own, hfresh⟩
    exact .inl hpre
  · intro t ht
    exact mem_cons_of_mem _ ht
  · intro t ht
    exact .inl ht
  · intro t ht
    exact ht
  · intro row hrow hissued
    obtain ⟨before, hpre, hid, -, htoken | htoken⟩ := mem_rotated hchange hrow
    · exact ⟨before, hpre, htoken.symm, hid⟩
    rw [htoken] at hissued
    exact absurd hissued hfresh
  · intro row hrow hsecret
    have hother : row.refreshToken ≠ old := by
      intro hsame
      rw [hsame] at hsecret
      exact hsecret hlooked.given
    refine ⟨row, ?_, rfl⟩
    rw [change_some hchange]
    exact mem_map.mpr ⟨row, hrow, rotate_other hother⟩
  · exact hrotations
  intro e he
  exact .inl he

end

theorem rotated_recorded (h : Recorded d)
    (hchange : d.sessions.change (Session.rotate d.now old new) = some sessions)
    (hheld : Held d id new) (hfresh : new ∉ d.issued) :
    Recorded { d with sessions := sessions, issued := new :: d.issued } := by
  constructor
  · have hrows := change_some hchange
    change sessions.rows.map Session.id = List.range sessions.rows.length
    rw [hrows, length_map, map_map, ← h.ids]
    apply map_congr_left
    intro row _
    exact rotate_id row
  · intro row hrow
    obtain ⟨before, hpre, -, -, htoken | htoken⟩ := mem_rotated hchange hrow
    · rw [htoken]
      exact mem_cons_of_mem _ (h.stored before hpre)
    rw [htoken]
    exact mem_cons_self
  · intro t ht
    rcases mem_cons.mp ht with rfl | hpre
    · exact hheld.drawn
    exact h.drawn t hpre
  · exact h.given
  · exact h.once
  · intro e he
    obtain ⟨hstored, hlive, hissued, hold, hgone⟩ := h.rotated e he
    refine ⟨hstored, hlive, mem_cons_of_mem _ hissued, mem_cons_of_mem _ hold, ?_⟩
    intro row hrow
    obtain ⟨before, hpre, -, -, htoken | htoken⟩ := mem_rotated hchange hrow
    · rw [htoken]
      exact hgone before hpre
    rw [htoken]
    intro hsame
    rw [hsame] at hfresh
    exact hfresh hold
  · exact h.answered
  exact h.distinct

/-- An update that finds its session stores the new token there, and the old one is gone. -/
theorem exchangeOf_found (h : Recorded d)
    (hchange : d.sessions.change (Session.rotate d.now old new) = some sessions)
    (hlooked : LookedUp d old session) (hfresh : new ∉ d.issued) {row : Session}
    (hrow : row ∈ d.sessions.rows) (htoken : row.refreshToken = old) (hlive : row.revoked = false) :
    (exchangeOf sessions d.now old session new).stored = true ∧
      (exchangeOf sessions d.now old session new).revoked = false ∧
        ∀ after ∈ sessions.rows, after.refreshToken ≠ old := by
  have hrotated : row.rotate d.now old new =
      { row with refreshToken := new, expiresAt := d.now + refreshTokenTTL } := if_pos ⟨htoken, hlive⟩
  have honly : ∀ before ∈ d.sessions.rows, before.refreshToken = old → before = row := by
    intro before hpre hsame
    exact eq_of_key hpre hrow (hsame.trans htoken.symm)
  refine ⟨?_, ?_, ?_⟩
  · apply any_eq_true.mpr
    refine ⟨row.rotate d.now old new, ?_, ?_⟩
    · rw [change_some hchange]
      exact mem_map_of_mem hrow
    rw [hrotated]
    simp [Session.active, hlive, refreshTokenTTL]
  · apply any_eq_false.mpr
    intro after hafter
    obtain ⟨before, hpre, hid, hsame, -⟩ := mem_rotated hchange hafter
    rw [Bool.and_eq_true, decide_eq_true_eq]
    rintro ⟨hsess, hrevoked⟩
    have hnodup : (d.sessions.rows.map Session.id).Nodup := by
      rw [h.ids]
      exact nodup_range
    have hids : before.id = row.id := by
      rw [hid, hsess, hlooked.row row hrow htoken]
    obtain rfl := inj_on_of_nodup_map hnodup hpre hrow hids
    rw [hsame, hrotated] at hrevoked
    exact absurd hrevoked (by rw [hlive]; exact Bool.false_ne_true)
  intro after hafter hsame
  rw [change_some hchange] at hafter
  obtain ⟨before, hpre, rfl⟩ := mem_map.mp hafter
  by_cases hold : before.refreshToken = old
  · rw [honly before hpre hold, hrotated] at hsame
    change new = old at hsame
    rw [hsame] at hfresh
    exact hfresh hlooked.issued
  rw [rotate_other hold] at hsame
  exact hold hsame

theorem rotateToken_advances (h : Recorded d) (hlooked : LookedUp d old session) (hheld : Held d id new)
    (hfresh : new ∉ d.issued)
    (hfinds : reply = .answered → ∃ row ∈ d.sessions.rows, row.refreshToken = old ∧ row.revoked = false) :
    Advances id d (rotateToken d old session new reply).1 (rotateToken d old session new reply).2 := by
  unfold rotateToken
  split
  · exact Advances.stay h
  rename_i sessions hchange
  have hrecd := rotated_recorded h hchange hheld hfresh
  dsimp only
  split
  · rename_i hans
    obtain ⟨row, hrow, htoken, hlive⟩ := hfinds hans
    obtain ⟨hstored, hnot, hgone⟩ := exchangeOf_found h hchange hlooked hfresh hrow htoken hlive
    refine ⟨?_, ?_, ?_⟩
    · apply rotated_stores hchange hlooked hheld hfresh
      intro e he
      exact mem_cons_of_mem _ he
    · refine ⟨hrecd.ids, hrecd.stored, hrecd.drawn, hrecd.given, ?_, ?_, ?_,
        hrecd.distinct⟩
      · apply nodup_cons.mpr
        refine ⟨?_, h.once⟩
        intro hmem
        obtain ⟨e, he, hsame⟩ := mem_map.mp hmem
        obtain ⟨-, -, -, -, hspent⟩ := h.rotated e he
        exact hspent row hrow (htoken.trans hsame.symm)
      · intro e he
        rcases mem_cons.mp he with rfl | hpre
        · exact ⟨hstored, hnot, mem_cons_self, mem_cons_of_mem _ hlooked.issued, hgone⟩
        exact hrecd.rotated e hpre
      intro e he
      exact mem_cons_of_mem _ (h.answered e he)
    intro current hcur
    cases hcur
    refine ⟨mem_cons_self, hheld.own, ?_⟩
    intro other hother hsame
    obtain ⟨-, -, hissued, -⟩ := h.rotated other (h.answered other hother)
    rw [hsame] at hissued
    exact hfresh hissued
  refine ⟨?_, hrecd, ?_⟩
  · exact rotated_stores hchange hlooked hheld hfresh fun _ he => he
  intro current hcur
  cases hcur

end Rotate

theorem loggedIn_advances (h : Recorded d)
    (hown : refresh.request = id) (hdrawn : refresh.number < d.drawn) : Advances id d { d with
      given := refresh :: d.given
      logins := ⟨user, platform, refresh⟩ :: d.logins } none := by
  refine ⟨?_, ?_, ?_⟩
  · refine Stores.of_rows rfl rfl (Nat.le_refl _) ?_ ?_ rfl ?_
    · intro t ht
      rcases mem_cons.mp ht with rfl | hpre
      · exact .inr hown
      exact .inl hpre
    · intro t ht
      exact mem_cons_of_mem _ ht
    intro e he
    exact .inl he
  · refine ⟨h.ids, h.stored, h.drawn, ?_, h.once, h.rotated, h.answered, h.distinct⟩
    intro t ht
    rcases mem_cons.mp ht with rfl | hpre
    · exact hdrawn
    exact h.given t hpre
  intro current hcur
  cases hcur

theorem refreshed_advances (h : Recorded d) {e : Exchange} (hrotated : e ∈ d.rotations)
    (hown : e.new.request = id) (hdist : ∀ other ∈ d.exchanges, other.new ≠ e.new) :
    Advances id d { d with given := e.new :: d.given, exchanges := e :: d.exchanges } none := by
  obtain ⟨-, -, hissued, -⟩ := h.rotated e hrotated
  refine ⟨?_, ?_, ?_⟩
  · refine Stores.of_rows rfl rfl (Nat.le_refl _) ?_ ?_ rfl ?_
    · intro t ht
      rcases mem_cons.mp ht with rfl | hpre
      · exact .inr hown
      exact .inl hpre
    · intro t ht
      exact mem_cons_of_mem _ ht
    intro other hother
    rcases mem_cons.mp hother with rfl | hpre
    · exact .inr hown
    exact .inl hpre
  · refine ⟨h.ids, h.stored, h.drawn, ?_, h.once, h.rotated, ?_, ?_⟩
    · intro t ht
      rcases mem_cons.mp ht with rfl | hpre
      · exact h.drawn _ hissued
      exact h.given t hpre
    · intro other hother
      rcases mem_cons.mp hother with rfl | hpre
      · exact hrotated
      exact h.answered other hpre
    apply nodup_cons.mpr
    refine ⟨?_, h.distinct⟩
    intro hmem
    obtain ⟨other, hother, hsame⟩ := mem_map.mp hmem
    exact hdist other hother hsame
  intro current hcur
  cases hcur

theorem advanceSession_advances (h : Recorded d) (hrelies : Relies d id call)
    (hfinds : ∀ old session new, call = .rotating old session new → reply = .answered →
      ∃ row ∈ d.sessions.rows, row.refreshToken = old ∧ row.revoked = false)
    (hknows : ∀ token, call = .refresh token → token ∈ d.issued → token ∈ d.given) :
    Advances id d (advanceSession id d call reply).1 (advanceSession id d call reply).2 := by
  cases call with
  | login user platform =>
    simp only [advanceSession]
    split
    · exact Advances.stay h
    exact login_advances h
  | inserting user platform refresh again => exact insertSession_advances h hrelies
  | revoking user platform refresh =>
    have hnext : ∀ current d', some (SessionCall.loggedIn user platform refresh) = some current →
        d'.drawn = d.drawn → Relies d' id current := by
      intro current d' hcur hdrawn
      cases hcur
      exact ⟨hrelies.1, hdrawn ▸ hrelies.2⟩
    simp only [advanceSession]
    split
    · exact ⟨Stores.same, h, fun current hcur => hnext current d hcur rfl⟩
    exact revoked_advances h _ _ hnext
  | loggedIn user platform refresh => exact loggedIn_advances h hrelies.1 hrelies.2
  | refresh token =>
    simp only [advanceSession]
    split
    · exact lookUp_advances h (hknows token rfl)
    exact Advances.stay h
  | findingUser token session =>
    simp only [advanceSession]
    split
    · exact findingUser_advances h hrelies
    exact Advances.stay h
  | rotating token session newRefresh =>
    obtain ⟨hlooked, hheld, hfresh⟩ := hrelies
    simp only [advanceSession]
    split
    · exact Advances.stay h
    exact rotateToken_advances h hlooked hheld hfresh (hfinds token session newRefresh rfl)
  | refreshed exchange =>
    obtain ⟨hrotated, hown, hdist⟩ := hrelies
    simp only [advanceSession]
    split
    · exact refreshed_advances h hrotated hown hdist
    exact Advances.stay h
  | logout token | logoutAll user =>
    simp only [advanceSession]
    split
    · exact Advances.stay h
    exact revoked_advances h _ _ fun _ _ hcur => by cases hcur

variable {s : State SessionData SessionCall}

theorem sessions_hold (hs : sessionService.machine.ReachableBy Rotates s) :
    Service.Holds Recorded Relies s := by
  apply Service.holds_of_reachable _ _ _ _ hs
  · rintro d ⟨hids, hstored, hissued, hgiven, hrotations, hexchanges, -, -⟩
    refine ⟨hids, hstored, fun t ht => hgiven t (hissued t ht), hgiven, ?_, ?_, ?_, ?_⟩
    · rw [hrotations]
      exact nodup_nil
    · intro e he
      rw [hrotations] at he
      cases he
    · intro e he
      rw [hexchanges] at he
      cases he
    rw [hexchanges]
    exact nodup_nil
  · intro s id call _ _ hopens
    cases call with
    | login | refresh | logout | logoutAll => trivial
    | _ => cases hopens
  · intro s id call reply d next hallow hholds hcall hadv
    have hstep : Advances id s.data (advanceSession id s.data call reply).1
        (advanceSession id s.data call reply).2 := by
      apply advanceSession_advances hholds.data (hholds.calls id call hcall)
      · rintro old session new rfl hans
        exact hallow.1 old session new hcall hans
      rintro token rfl hissued
      exact hallow.2 token hcall hissued
    rw [Option.some.inj hadv] at hstep
    refine ⟨hstep.recorded, hstep.relies, ?_⟩
    intro other current hother hcur
    exact (hholds.calls other current hcur).kept hother hstep.stores
  intro s later d _ hholds hworld
  cases hworld
  refine ⟨?_, ?_⟩
  · exact ⟨hholds.data.ids, hholds.data.stored, hholds.data.drawn, hholds.data.given, hholds.data.once,
      hholds.data.rotated, hholds.data.answered, hholds.data.distinct⟩
  intro id call hcall
  apply (hholds.calls id call hcall).kept (Nat.ne_of_lt (Nat.lt_succ_self id))
  exact Stores.of_rows rfl rfl (Nat.le_refl _) (fun _ ht => .inl ht) (fun _ ht => ht) rfl
    fun _ he => .inl he

/-- One session, with the token its client holds. -/
def oneSession : State SessionData SessionCall :=
  ⟨⟨⟨[⟨0, "alice", .web, ⟨0, 0⟩, refreshTokenTTL, false⟩], nodup_singleton _⟩, 0, 1,
    [⟨0, 0⟩], [⟨0, 0⟩], [], [], [], []⟩, fun _ => none⟩

theorem oneSession_initial : sessionService.machine.initial oneSession := by
  refine ⟨⟨rfl, ?_, ?_, ?_, rfl, rfl, rfl, rfl⟩, fun _ => rfl⟩
  · intro row hrow
    obtain rfl := mem_singleton.mp hrow
    exact mem_cons_self
  · intro t ht
    exact ht
  intro t ht
  obtain rfl := mem_singleton.mp ht
  exact Nat.zero_lt_one

theorem rotates_of {c : SessionCall} {r : Reply} (hcall : s.calls id = some c)
    (hfinds : ∀ old session new, c = .rotating old session new →
      ∃ row ∈ s.data.sessions.rows, row.refreshToken = old ∧ row.revoked = false)
    (hknows : ∀ token, c = .refresh token → token ∈ s.data.given) : Rotates s (.advance id r) := by
  constructor
  · intro old session new hrotating _
    exact hfinds old session new (Option.some.inj (hcall.symm.trans hrotating))
  intro token hrefresh _
  exact hknows token (Option.some.inj (hcall.symm.trans hrefresh))

/-- Two refreshes of one token look it up before either of them updates the session. -/
def twoRefreshes : List (Action SessionCall Reply ℕ) :=
  [.start 1 (.refresh ⟨0, 0⟩), .start 2 (.refresh ⟨0, 0⟩), .advance 1 .answered, .advance 2 .answered,
    .advance 1 .answered, .advance 2 .answered, .advance 1 .answered, .advance 2 .answered,
    .advance 1 .answered, .advance 2 .answered]

end ImApp.Auth
