import ImApp.Library.InterleavedCalls
import ImApp.Library.KeyedTable
import ImApp.Library.RankedSet
import Mathlib.Algebra.Ring.Nat

/-!
How far the members of a group have read. A report writes the member's cursor to the
database, where it only grows, and then to a sorted set in Redis, where the last write
counts. A query takes the best cursor of another member from the set and asks the database
only if the set names nobody else.
-/

namespace ImApp.ReadCursors

open InterleavedCalls StepSystem List KeyedTable RankedSet

/-- A score of Redis: a natural number as a double, ties to even. -/
def float64 (n : ℕ) : ℕ :=
  let unit := 2 ^ (n.log2 + 1 - 53)
  let quotient := n / unit
  let rest := n % unit
  if unit < 2 * rest ∨ (unit = 2 * rest ∧ quotient % 2 = 1) then (quotient + 1) * unit
  else quotient * unit

theorem float64_exact {n : ℕ} (h : n < 2 ^ 53) : float64 n = n := by
  have hunit : n.log2 + 1 - 53 = 0 := by
    by_cases hzero : n = 0
    · subst hzero
      rfl
    have hlog : n.log2 < 53 := (Nat.log2_lt hzero).mpr h
    omega
  unfold float64
  rw [hunit]
  simp [Nat.mod_one]

section Cursors

variable {User : Type} [LinearOrder User]

/-- The rows of `im_group_read_cursors` of one conversation. -/
abbrev Rows (User : Type) := KeyedTable (Prod.fst : User × ℕ → User)

/-- `GREATEST(has_read_seq, EXCLUDED.has_read_seq)` -/
def raise (seq : ℕ) : KeyedTable.Edit (Prod.fst : User × ℕ → User) where
  apply := fun row => (row.1, max row.2 seq)
  key_apply := fun _ => rfl

def Upsert (rows : Rows User) (user : User) (seq : ℕ) : Rows User :=
  (rows.insert (user, seq)).update (fun row => row.1 = user) (raise seq)

def MaxOther (rows : Rows User) (user : User) : ℕ :=
  ((rows.rows.filter fun row => row.1 ≠ user).map Prod.snd).foldr max 0

/-- An answer of `GroupReadState`, with what the database says at that moment. -/
structure ReadState (User : Type) where
  user : User
  maxOtherReadSeq : ℕ
  database : ℕ
  deriving DecidableEq

/-- Both stores, and the answers given, the latest first. -/
structure CursorData (User : Type) [LinearOrder User] where
  rows : Rows User
  cache : RankedSet User
  answers : List (ReadState User)

/-- A report or a query by the request it is about to make. -/
inductive CursorCall (User : Type) where
  | report (user : User)
  | storing (user : User) (seq : ℕ)
  | caching (user : User) (seq : ℕ)
  | query (user : User)
  | reading (user : User)

/-- An answer, of the message server with the member's cursor; or a request that had no
effect, or one whose answer was lost. -/
inductive CursorReply where
  | answered (seq : ℕ)
  | failed
  | unanswered

def CursorData.answer (d : CursorData User) (user : User) (seq : ℕ) : CursorData User :=
  { d with answers := ⟨user, seq, MaxOther d.rows user⟩ :: d.answers }

/-- `ReportGroupReadCursor` and `GroupReadState`. An error of Redis is ignored. -/
def advanceCursor (d : CursorData User) : CursorCall User → CursorReply →
    CursorData User × Option (CursorCall User)
  | .report user, .answered seq => (d, some (.storing user seq))
  | .report _, _ => (d, none)
  | .storing user seq, .answered _ =>
    ({ d with rows := Upsert d.rows user seq }, some (.caching user seq))
  | .storing user seq, .unanswered => ({ d with rows := Upsert d.rows user seq }, none)
  | .storing _ _, .failed => (d, none)
  | .caching _ _, .failed => (d, none)
  | .caching user seq, _ => ({ d with cache := d.cache.put user (float64 seq) }, none)
  | .query user, .answered _ =>
    match d.cache.firstOther user with
    | some entry => (d.answer user entry.2, none)
    | none => (d, some (.reading user))
  | .query user, _ => (d, some (.reading user))
  | .reading user, .answered _ => (d.answer user (MaxOther d.rows user), none)
  | .reading _, _ => (d, none)

def CursorCall.opens : CursorCall User → Bool
  | .report _ | .query _ => true
  | _ => false

/-- Members who report and ask; the world may drop the set. -/
def cursorService : Service (CursorData User) (CursorCall User) CursorReply Unit where
  initial := fun d => d.rows = KeyedTable.empty ∧ d.cache = RankedSet.empty ∧ d.answers = []
  opens := CursorCall.opens
  advance := fun _ d call reply => some (advanceCursor d call reply)
  world := fun d _ => some { d with cache := RankedSet.empty }

variable {rows : Rows User} {user other : User} {seq cursor : ℕ}

theorem mem_upsert_other (hother : other ≠ user) :
    (other, cursor) ∈ (Upsert rows user seq).rows ↔ (other, cursor) ∈ rows.rows := by
  constructor
  · intro h
    rcases mem_update h with ⟨before, -, hkey, hsame⟩ | ⟨hmem, -⟩
    · have hfirst : other = before.1 := congrArg Prod.fst hsame
      exact absurd (hfirst.trans (of_decide_eq_true hkey)) hother
    rcases mem_insert hmem with hold | hnew
    · exact hold
    exact absurd (congrArg Prod.fst hnew) hother
  intro h
  exact mem_update_of_kept (mem_insert_of_mem h) (decide_eq_false hother)

theorem mem_raised {table : Rows User} (h : (user, cursor) ∈ table.rows) :
    (user, max cursor seq) ∈ (table.update (fun row => row.1 = user) (raise seq)).rows := by
  have hraised : (raise seq).apply (user, cursor) ∈
      (table.update (fun row => row.1 = user) (raise seq)).rows :=
    mem_update_of_selected h (decide_eq_true rfl)
  exact hraised

theorem mem_upsert_raised (h : (user, cursor) ∈ rows.rows) :
    (user, max cursor seq) ∈ (Upsert rows user seq).rows :=
  mem_raised (mem_insert_of_mem h)

theorem upsert_stored : ∃ stored, (user, stored) ∈ (Upsert rows user seq).rows := by
  by_cases hknown : user ∈ rows.rows.map Prod.fst
  · obtain ⟨⟨key, stored⟩, hmem, hkey⟩ := mem_map.mp hknown
    cases hkey
    exact ⟨_, mem_upsert_raised hmem⟩
  have hnew : (user, seq) ∈ (rows.insert (user, seq)).rows := mem_insert_self hknown
  exact ⟨_, mem_raised hnew⟩

omit [LinearOrder User] in
theorem row_unique {a b : ℕ} (ha : (user, a) ∈ rows.rows) (hb : (user, b) ∈ rows.rows) : a = b :=
  congrArg Prod.snd (eq_of_key ha hb rfl)

theorem upsert_grows (user : User) (seq : ℕ) (h : (other, cursor) ∈ rows.rows) :
    ∃ later, cursor ≤ later ∧ (other, later) ∈ (Upsert rows user seq).rows := by
  by_cases hother : other = user
  · subst hother
    exact ⟨max cursor seq, Nat.le_max_left _ _, mem_upsert_raised h⟩
  exact ⟨cursor, Nat.le_refl _, (mem_upsert_other hother).mpr h⟩

theorem le_foldr_max {values : List ℕ} {n : ℕ} (h : n ∈ values) : n ≤ values.foldr max 0 := by
  induction values with
  | nil => cases h
  | cons first rest ih =>
    rw [foldr_cons]
    rcases mem_cons.mp h with rfl | h
    · exact Nat.le_max_left _ _
    exact (ih h).trans (Nat.le_max_right _ _)

theorem foldr_max_le {values : List ℕ} {bound : ℕ} (h : ∀ n ∈ values, n ≤ bound) :
    values.foldr max 0 ≤ bound := by
  induction values with
  | nil => exact Nat.zero_le _
  | cons first rest ih =>
    rw [foldr_cons]
    exact Nat.max_le.mpr ⟨h first mem_cons_self, ih fun n hn => h n (mem_cons_of_mem _ hn)⟩

theorem le_maxOther (hother : other ≠ user) (h : (other, cursor) ∈ rows.rows) :
    cursor ≤ MaxOther rows user := by
  apply le_foldr_max
  apply mem_map.mpr
  refine ⟨(other, cursor), ?_, rfl⟩
  exact mem_filter.mpr ⟨h, decide_eq_true hother⟩

theorem maxOther_le {bound : ℕ}
    (h : ∀ other cursor, other ≠ user → (other, cursor) ∈ rows.rows → cursor ≤ bound) :
    MaxOther rows user ≤ bound := by
  apply foldr_max_le
  intro n hn
  obtain ⟨row, hrow, rfl⟩ := mem_map.mp hn
  obtain ⟨hmem, hother⟩ := mem_filter.mp hrow
  exact h row.1 row.2 (of_decide_eq_true hother) hmem

theorem maxOther_grows {after : Rows User}
    (h : ∀ other cursor, (other, cursor) ∈ rows.rows → ∃ later, cursor ≤ later ∧ (other, later) ∈ after.rows) :
    MaxOther rows user ≤ MaxOther after user := by
  apply maxOther_le
  intro other cursor hother hrow
  obtain ⟨later, hle, hlater⟩ := h other cursor hrow
  exact hle.trans (le_maxOther hother hlater)

/-- A report of the member stands between the database and the set. -/
def Behind (s : State (CursorData User) (CursorCall User)) (user : User) : Prop :=
  s.InProgress fun call => ∃ seq, call = .caching user seq

/-- The set has the member's cursor as the database has it. -/
def Cached (d : CursorData User) (user : User) : Prop :=
  ∃ cursor, (user, cursor) ∈ d.rows.rows ∧ (user, cursor) ∈ d.cache.entries

/-- Every answer was what the database said, and no member's answers decrease. -/
structure Durable (answers : List (ReadState User)) : Prop where
  durable : ∀ answer ∈ answers, answer.maxOtherReadSeq = answer.database
  monotone : answers.Pairwise fun later earlier =>
    later.user = earlier.user → earlier.maxOtherReadSeq ≤ later.maxOtherReadSeq

/-- What a request asks of the state in which it makes its next step. A write to the set
carries the member's cursor and starts no set that lacks another member; no cursor of the
database is kept from the set that is in use; and the set answers only if it is not behind
with another member. -/
def InStep (s : State (CursorData User) (CursorCall User)) : CursorCall User → CursorReply → Prop
  | .storing user seq, .unanswered =>
    s.data.cache.entries = [] ∨ ∃ cursor, seq ≤ cursor ∧ (user, cursor) ∈ s.data.rows.rows
  | .caching user _, .failed => s.data.cache.entries = [] ∨ Cached s.data user
  | .caching user seq, _ => (user, float64 seq) ∈ s.data.rows.rows ∧
      ∀ row ∈ s.data.rows.rows, row.1 ≠ user → Behind s row.1 ∨ row ∈ s.data.cache.entries
  | .query user, .answered _ =>
    s.data.cache.entries = [] ∨ ∀ other, other ≠ user → Behind s other → Cached s.data other
  | _, _ => True

def Ordered (s : State (CursorData User) (CursorCall User)) :
    Action (CursorCall User) CursorReply Unit → Prop
  | .advance id reply => ∀ call, s.calls id = some call → InStep s call reply
  | _ => True

/-- A set in use holds the cursors of all members, but for the reports on their way. -/
structure Agrees (s : State (CursorData User) (CursorCall User)) : Prop where
  rows : ∀ row ∈ s.data.rows.rows,
    Behind s row.1 ∨ s.data.cache.entries = [] ∨ row ∈ s.data.cache.entries
  cached : ∀ entry ∈ s.data.cache.entries, ∃ cursor, (entry.1, cursor) ∈ s.data.rows.rows
  stored : ∀ user, Behind s user → ∃ cursor, (user, cursor) ∈ s.data.rows.rows

/-- The answers so far. -/
structure Answered (d : CursorData User) : Prop where
  durable : Durable d.answers
  past : ∀ answer ∈ d.answers, answer.database ≤ MaxOther d.rows answer.user

variable {s : State (CursorData User) (CursorCall User)} {d : CursorData User} {id : ℕ}
  {call : CursorCall User} {next : Option (CursorCall User)}

theorem Behind.kept (h : Behind s other) (hcall : s.calls id = some call)
    (hfinishes : ∀ seq, call ≠ .caching other seq) : Behind ⟨d, setCall s.calls id next⟩ other := by
  apply State.InProgress.kept h
  rintro current hcur ⟨seq, rfl⟩
  exact hfinishes seq (Option.some.inj (hcall.symm.trans hcur))

theorem behind_of_setCall (h : Behind ⟨d, setCall s.calls id next⟩ other) :
    (∃ seq, next = some (.caching other seq)) ∨ Behind s other := by
  rcases inProgress_of_setCall h with ⟨current, hnext, seq, rfl⟩ | hkept
  · exact .inl ⟨seq, hnext⟩
  exact .inr hkept

section

variable (h : Agrees s)
include h

theorem Agrees.quiet (hcall : s.calls id = some call)
    (hcaching : ∀ user seq, call ≠ .caching user seq)
    (hnext : ∀ user seq, next ≠ some (.caching user seq)) (hrows : d.rows = s.data.rows)
    (hcache : d.cache = s.data.cache) : Agrees ⟨d, setCall s.calls id next⟩ := by
  constructor
  · intro row hrow
    rw [hrows] at hrow
    rcases h.rows row hrow with hbehind | hcached
    · exact .inl (hbehind.kept hcall (hcaching row.1))
    right
    rwa [hcache]
  · intro entry hentry
    rw [hcache] at hentry
    rw [hrows]
    exact h.cached entry hentry
  intro user hbehind
  rw [hrows]
  rcases behind_of_setCall hbehind with ⟨seq, hnew⟩ | hpre
  · exact absurd hnew (hnext user seq)
  exact h.stored user hpre

theorem Agrees.store (hcall : s.calls id = some (.storing user seq)) :
    Agrees ⟨{ s.data with rows := Upsert s.data.rows user seq },
      setCall s.calls id (some (.caching user seq))⟩ := by
  have hgrows : ∀ name, (∃ cursor, (name, cursor) ∈ s.data.rows.rows) →
      ∃ cursor, (name, cursor) ∈ (Upsert s.data.rows user seq).rows := by
    rintro name ⟨cursor, hrow⟩
    obtain ⟨later, -, hlater⟩ := upsert_grows user seq hrow
    exact ⟨later, hlater⟩
  constructor
  · rintro ⟨name, cursor⟩ hrow
    by_cases hname : name = user
    · left
      subst hname
      exact ⟨id, _, setCall_self .., seq, rfl⟩
    rcases h.rows _ ((mem_upsert_other hname).mp hrow) with hbehind | hcached
    · left
      apply hbehind.kept hcall
      intro _ hsame
      cases hsame
    exact .inr hcached
  · intro entry hentry
    exact hgrows entry.1 (h.cached entry hentry)
  intro name hbehind
  rcases behind_of_setCall hbehind with ⟨written, hnew⟩ | hpre
  · cases hnew
    exact upsert_stored
  exact hgrows name (h.stored name hpre)

theorem Agrees.storeUnanswered (hcall : s.calls id = some (.storing user seq))
    (hstep : InStep s (.storing user seq) .unanswered) :
    Agrees ⟨{ s.data with rows := Upsert s.data.rows user seq }, setCall s.calls id none⟩ := by
  have hnot : ∀ name written, CursorCall.storing user seq ≠ .caching name written := by
    intro _ _ hsame
    cases hsame
  constructor
  · rintro ⟨name, cursor⟩ hrow
    rcases hstep with hempty | ⟨stored, hle, hstored⟩
    · exact .inr (.inl hempty)
    have hold : (name, cursor) ∈ s.data.rows.rows := by
      by_cases hname : name = user
      · subst hname
        have hraised : (name, max stored seq) ∈ (Upsert s.data.rows name seq).rows :=
          mem_upsert_raised hstored
        rw [Nat.max_eq_left hle] at hraised
        rw [row_unique hrow hraised]
        exact hstored
      exact (mem_upsert_other hname).mp hrow
    rcases h.rows _ hold with hbehind | hcached
    · exact .inl (hbehind.kept hcall (hnot name))
    exact .inr hcached
  · intro entry hentry
    obtain ⟨cursor, hrow⟩ := h.cached entry hentry
    obtain ⟨later, -, hlater⟩ := upsert_grows user seq hrow
    exact ⟨later, hlater⟩
  intro name hbehind
  rcases behind_of_setCall hbehind with ⟨written, hnew⟩ | hpre
  · cases hnew
  obtain ⟨cursor, hrow⟩ := h.stored name hpre
  obtain ⟨later, -, hlater⟩ := upsert_grows user seq hrow
  exact ⟨later, hlater⟩

theorem Agrees.cacheFailed (hcall : s.calls id = some (.caching user seq))
    (hstep : InStep s (.caching user seq) .failed) : Agrees ⟨s.data, setCall s.calls id none⟩ := by
  constructor
  · rintro ⟨name, cursor⟩ hrow
    rcases hstep with hempty | ⟨stored, hstored, hcached⟩
    · exact .inr (.inl hempty)
    by_cases hname : name = user
    · subst hname
      rw [row_unique hrow hstored]
      exact .inr (.inr hcached)
    rcases h.rows _ hrow with hbehind | hin
    · left
      apply hbehind.kept hcall
      rintro _ hsame
      cases hsame
      exact hname rfl
    exact .inr hin
  · exact h.cached
  intro name hbehind
  rcases behind_of_setCall hbehind with ⟨written, hnew⟩ | hpre
  · cases hnew
  exact h.stored name hpre

theorem Agrees.cache (hcall : s.calls id = some (.caching user seq))
    (hcursor : (user, float64 seq) ∈ s.data.rows.rows)
    (hothers : ∀ row ∈ s.data.rows.rows, row.1 ≠ user → Behind s row.1 ∨ row ∈ s.data.cache.entries) :
    Agrees ⟨{ s.data with cache := s.data.cache.put user (float64 seq) }, setCall s.calls id none⟩ := by
  constructor
  · rintro ⟨name, cursor⟩ hrow
    by_cases hname : name = user
    · subst hname
      rw [row_unique hrow hcursor]
      exact .inr (.inr (mem_put.mpr (.inl rfl)))
    rcases hothers _ hrow hname with hbehind | hcached
    · left
      apply hbehind.kept hcall
      rintro _ hsame
      cases hsame
      exact hname rfl
    exact .inr (.inr (mem_put.mpr (.inr ⟨hcached, hname⟩)))
  · intro entry hentry
    rcases mem_put.mp hentry with rfl | ⟨hold, -⟩
    · exact ⟨_, hcursor⟩
    exact h.cached entry hold
  intro name hbehind
  rcases behind_of_setCall hbehind with ⟨written, hnew⟩ | hpre
  · cases hnew
  exact h.stored name hpre

/-- A set that is behind with nobody else names the cursor that the database would. -/
theorem Agrees.firstOther {entry : User × ℕ} (hentry : s.data.cache.firstOther user = some entry)
    (hstep : s.data.cache.entries = [] ∨ ∀ other, other ≠ user → Behind s other → Cached s.data other) :
    entry.2 = MaxOther s.data.rows user := by
  obtain ⟨hmem, hother, hbest⟩ := firstOther_some hentry
  have hused : s.data.cache.entries ≠ [] := ne_nil_of_mem hmem
  have hcached : ∀ name cursor, name ≠ user → (name, cursor) ∈ s.data.rows.rows →
      (name, cursor) ∈ s.data.cache.entries := by
    intro name cursor hname hrow
    rcases h.rows _ hrow with hbehind | hempty | hin
    · obtain ⟨stored, hstored, hkept⟩ := hstep.resolve_left hused name hname hbehind
      rw [row_unique hrow hstored]
      exact hkept
    · exact absurd hempty hused
    exact hin
  apply Nat.le_antisymm
  · obtain ⟨cursor, hrow⟩ := h.cached entry hmem
    have hsame : entry.2 = cursor := score_unique hmem (hcached entry.1 cursor hother hrow)
    rw [hsame]
    exact le_maxOther hother hrow
  apply maxOther_le
  intro name cursor hname hrow
  exact hbest (name, cursor) (hcached name cursor hname hrow) hname

end

theorem Answered.answer (h : Answered d) (hseq : seq = MaxOther d.rows user) :
    Answered (d.answer user seq) := by
  constructor
  · constructor
    · intro answer hanswer
      rcases mem_cons.mp hanswer with rfl | hpre
      · exact hseq
      exact h.durable.durable answer hpre
    apply pairwise_cons.mpr
    refine ⟨?_, h.durable.monotone⟩
    intro earlier hearlier hsame
    have hpast := h.past earlier hearlier
    rw [← hsame] at hpast
    rw [h.durable.durable earlier hearlier]
    exact hpast.trans (Nat.le_of_eq hseq.symm)
  intro answer hanswer
  rcases mem_cons.mp hanswer with rfl | hpre
  · exact Nat.le_refl _
  exact h.past answer hpre

theorem Answered.upsert (h : Answered d) : Answered { d with rows := Upsert d.rows user seq } := by
  refine ⟨h.durable, ?_⟩
  intro answer hanswer
  apply (h.past answer hanswer).trans
  apply maxOther_grows
  intro other cursor hrow
  exact upsert_grows _ _ hrow

theorem advance_kept (h : Agrees s ∧ Answered s.data) (hcall : s.calls id = some call)
    {reply : CursorReply} (hstep : InStep s call reply) :
    Agrees ⟨(advanceCursor s.data call reply).1, setCall s.calls id (advanceCursor s.data call reply).2⟩ ∧
      Answered (advanceCursor s.data call reply).1 := by
  obtain ⟨hagrees, hans⟩ := h
  cases call with
  | report user =>
    cases reply <;> exact ⟨hagrees.quiet hcall (by simp) (by simp [advanceCursor]) rfl rfl, hans⟩
  | storing user seq =>
    cases reply with
    | answered _ => exact ⟨hagrees.store hcall, hans.upsert⟩
    | failed => exact ⟨hagrees.quiet hcall (by simp) (by simp [advanceCursor]) rfl rfl, hans⟩
    | unanswered => exact ⟨hagrees.storeUnanswered hcall hstep, hans.upsert⟩
  | caching user seq =>
    cases reply with
    | answered _ | unanswered =>
      exact ⟨hagrees.cache hcall hstep.1 hstep.2, hans.durable, hans.past⟩
    | failed => exact ⟨hagrees.cacheFailed hcall hstep, hans⟩
  | query user =>
    cases reply with
    | answered _ =>
      simp only [advanceCursor]
      split
      · rename_i entry hentry
        exact ⟨hagrees.quiet hcall (by simp) (by simp) rfl rfl,
          hans.answer (hagrees.firstOther hentry hstep)⟩
      exact ⟨hagrees.quiet hcall (by simp) (by simp) rfl rfl, hans⟩
    | failed | unanswered =>
      exact ⟨hagrees.quiet hcall (by simp) (by simp [advanceCursor]) rfl rfl, hans⟩
  | reading user =>
    cases reply with
    | answered _ =>
      exact ⟨hagrees.quiet hcall (by simp) (by simp [advanceCursor]) rfl rfl, hans.answer rfl⟩
    | failed | unanswered =>
      exact ⟨hagrees.quiet hcall (by simp) (by simp [advanceCursor]) rfl rfl, hans⟩

theorem cursors_agree (hs : cursorService.machine.ReachableBy Ordered s) : Agrees s ∧ Answered s.data := by
  apply hs.invariant (fun s => Agrees s ∧ Answered s.data)
  · rintro start ⟨⟨hrows, hcache, hanswers⟩, hnone⟩
    have hbehind : ∀ user, ¬ Behind start user := by
      rintro user ⟨id, call, hcall, -⟩
      rw [hnone id] at hcall
      cases hcall
    refine ⟨⟨?_, ?_, ?_⟩, ⟨⟨?_, ?_⟩, ?_⟩⟩
    · intro row hrow
      rw [hrows] at hrow
      cases hrow
    · intro entry hentry
      rw [hcache] at hentry
      cases hentry
    · intro user huser
      exact absurd huser (hbehind user)
    · intro answer hanswer
      rw [hanswers] at hanswer
      cases hanswer
    · rw [hanswers]
      exact List.Pairwise.nil
    intro answer hanswer
    rw [hanswers] at hanswer
    cases hanswer
  intro before action after hallow hpre hstep
  cases action with
  | start id call =>
    obtain ⟨hfree, hopens, rfl⟩ := Service.start_some hstep
    have hnew : ∀ user seq, some call ≠ some (.caching user seq) := by
      intro user seq hsame
      cases hsame
      cases hopens
    refine ⟨⟨?_, hpre.1.cached, ?_⟩, hpre.2⟩
    · intro row hrow
      apply (hpre.1.rows row hrow).imp_left
      intro hbehind
      apply State.InProgress.kept hbehind
      intro current hcur
      rw [hfree] at hcur
      cases hcur
    intro user huser
    rcases behind_of_setCall huser with ⟨seq, hsame⟩ | hold
    · exact absurd hsame (hnew user seq)
    exact hpre.1.stored user hold
  | advance id reply =>
    obtain ⟨call, data, next, hcall, hadv, rfl⟩ := Service.advance_some hstep
    have hkept := advance_kept hpre hcall (hallow call hcall)
    have hres : advanceCursor before.data call reply = (data, next) := Option.some.inj hadv
    rwa [hres] at hkept
  | world event =>
    obtain ⟨data, hworld, rfl⟩ := Service.world_some hstep
    cases hworld
    refine ⟨⟨?_, ?_, hpre.1.stored⟩, hpre.2.durable, hpre.2.past⟩
    · intro row _
      exact .inr (.inl rfl)
    intro entry hentry
    cases hentry

/-- In every run in which the set is kept in step with the database, a query answers what
the database says, and never less than before. -/
theorem group_read_state_durable (hs : cursorService.machine.ReachableBy Ordered s) :
    Durable s.data.answers :=
  (cursors_agree hs).2.durable

end Cursors

def noCursors : State (CursorData ℕ) (CursorCall ℕ) :=
  ⟨⟨KeyedTable.empty, RankedSet.empty, []⟩, fun _ => none⟩

theorem noCursors_initial : cursorService.machine.initial noCursors := ⟨⟨rfl, rfl, rfl⟩, fun _ => rfl⟩

theorem ordered_of {s : State (CursorData ℕ) (CursorCall ℕ)} {id : ℕ} {c : CursorCall ℕ}
    {r : CursorReply} (hcall : s.calls id = some c) (hstep : InStep s c r) : Ordered s (.advance id r) := by
  intro current hcur
  cases hcall.symm.trans hcur
  exact hstep

/-- A report reaches both stores, and another member is told of it. -/
theorem group_read_state_durable_report :
    ∃ s : State (CursorData ℕ) (CursorCall ℕ), s.data.answers = [⟨1, 5, 5⟩] ∧ Durable s.data.answers := by
  have hstart : ∀ (s : State (CursorData ℕ) (CursorCall ℕ)) id call, Ordered s (.start id call) :=
    fun _ _ _ => trivial
  have hreport : cursorService.machine.Path Ordered noCursors
      ⟨noCursors.data, setCall noCursors.calls 0 (some (.report 2))⟩ :=
    Machine.Path.single (hstart _ 0 (.report 2)) rfl
  have hstoring := hreport.tail (a := .advance 0 (.answered 5))
    (ordered_of (c := .report 2) rfl trivial) rfl
  have hcaching := hstoring.tail (a := .advance 0 (.answered 0))
    (ordered_of (c := .storing 2 5) (r := .answered 0) rfl trivial) rfl
  have hrow : (2, float64 5) ∈ (Upsert (KeyedTable.empty : Rows ℕ) 2 5).rows := by
    rw [float64_exact (by omega)]
    exact mem_cons_self
  have halone : ∀ row ∈ (Upsert (KeyedTable.empty : Rows ℕ) 2 5).rows, row.1 = 2 := by
    intro row hmem
    obtain rfl := mem_singleton.mp hmem
    rfl
  have hcached := hcaching.tail (a := .advance 0 (.answered 0))
    (ordered_of (c := .caching 2 5) (r := .answered 0) rfl
      ⟨hrow, fun row hmem hother => absurd (halone row hmem) hother⟩) rfl
  have hquery := hcached.tail (hstart _ 1 (.query 1)) rfl
  have hanswer := hquery.tail (a := .advance 1 (.answered 0))
    (ordered_of (c := .query 1) (r := .answered 0) rfl (.inr (by
      rintro other - ⟨writer, call, hwriter, seq, rfl⟩
      rcases writer with _ | _ | _
      · cases hwriter
      · cases hwriter
      cases hwriter))) rfl
  exact ⟨_, rfl, group_read_state_durable ⟨noCursors, noCursors_initial, hanswer⟩⟩

/-- Member 2 has read up to 5 and then up to 9, but the first report reaches the set last. -/
def lateReport : List (Action (CursorCall ℕ) CursorReply Unit) :=
  [.start 0 (.report 2), .advance 0 (.answered 5), .advance 0 (.answered 0),
    .start 1 (.report 2), .advance 1 (.answered 9), .advance 1 (.answered 0), .advance 1 (.answered 0),
    .start 2 (.query 1), .advance 2 (.answered 0),
    .advance 0 (.answered 0), .start 3 (.query 1), .advance 3 (.answered 0)]

/-- The answer falls from 9 to 5, while the database says 9. -/
theorem late_report_lowers_answer :
    ∃ s : State (CursorData ℕ) (CursorCall ℕ), cursorService.machine.Reachable s ∧
      s.data.answers = [⟨1, 5, 9⟩, ⟨1, 9, 9⟩] ∧ ¬ Durable s.data.answers := by
  have hrun : (cursorService.machine.execute noCursors lateReport).map (fun s => s.data.answers) =
      some [⟨1, 5, 9⟩, ⟨1, 9, 9⟩] := by decide
  obtain ⟨s, hs, hanswers⟩ := Option.map_eq_some_iff.mp hrun
  refine ⟨s, Machine.reachable_of_execute noCursors_initial hs, hanswers, ?_⟩
  intro hdurable
  have hfalse := hdurable.durable ⟨1, 5, 9⟩ (by rw [hanswers]; exact mem_cons_self)
  cases hfalse

end ImApp.ReadCursors
