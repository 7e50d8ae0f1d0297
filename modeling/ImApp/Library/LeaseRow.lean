import Mathlib.Data.Nat.Basic
import Mathlib.Order.Basic

/-!
Rows of a lease queue. A row waits, is leased under a token until a time, waits
for a retry, or has ended. A claim leases a waiting row or one whose lease has
expired, and counts an attempt; at the attempt limit an expired lease is blocked
instead. Only the holder of the current unexpired token ends or releases a row.
-/

namespace LeaseRow

variable {δ ε : Type*}

/-- A leased row carries its lease and a finished row its result, so neither can
be missing. -/
inductive Stage (δ : Type*) where
  | queued
  | leased (token expires : ℕ)
  | retry
  | blocked
  | done (result : δ)
  deriving DecidableEq

structure Row (δ ε : Type*) where
  stage : Stage δ
  attempts : ℕ
  nextAttempt : ℕ
  failure : Option ε
  deriving DecidableEq

/-- A row that no operation changes any more. -/
def Stage.terminal : Stage δ → Bool
  | .blocked | .done _ => true
  | _ => false

namespace Row

def fresh (now : ℕ) : Row δ ε := ⟨.queued, 0, now, none⟩

/-- The predicate of a claim. -/
def claimable (limit now : ℕ) (row : Row δ ε) : Bool :=
  match row.stage with
  | .queued | .retry => row.attempts < limit && row.nextAttempt ≤ now
  | .leased _ expires => row.attempts < limit && expires ≤ now
  | _ => false

/-- The predicate of the sweep that runs before a claim. -/
def exhausted (limit now : ℕ) (row : Row δ ε) : Bool :=
  match row.stage with
  | .leased _ expires => expires ≤ now && limit ≤ row.attempts
  | _ => false

def claim (now ttl token : ℕ) (row : Row δ ε) : Row δ ε :=
  { row with stage := .leased token (now + ttl), attempts := row.attempts + 1 }

def exhaust (code : ε) (row : Row δ ε) : Row δ ε :=
  { row with stage := .blocked, failure := some code }

/-- `token` is the row's current unexpired token. -/
def holds (now token : ℕ) (row : Row δ ε) : Bool :=
  match row.stage with
  | .leased current expires => current = token && now < expires
  | _ => false

def finish (result : δ) (row : Row δ ε) : Row δ ε :=
  { row with stage := .done result, failure := none }

/-- Gives the lease back. At the limit, or when the code `bars` a retry, the row
is blocked. -/
def release (limit now delay : ℕ) (code : ε) (bars : Bool) (row : Row δ ε) : Row δ ε :=
  { row with
    stage := if limit ≤ row.attempts || bars then .blocked else .retry
    nextAttempt := now + delay
    failure := some code }

/-- Who works on a row: a claim, a worker under its lease, or nobody. -/
inductive Caller where
  | claim
  | lease (token : ℕ)
  | other

/-- One operation on a row. -/
inductive Change (limit now : ℕ) : Caller → Row δ ε → Row δ ε → Prop
  | same (caller : Caller) (row : Row δ ε) : Change limit now caller row row
  | exhaust {row : Row δ ε} (code : ε) (hexh : row.exhausted limit now = true) :
      Change limit now .claim row (row.exhaust code)
  | claim {row : Row δ ε} (ttl token : ℕ) (hable : row.claimable limit now = true) :
      Change limit now .claim row (row.claim now ttl token)
  | finish {row : Row δ ε} {token : ℕ} (result : δ) (hholds : row.holds now token = true) :
      Change limit now (.lease token) row (row.finish result)
  | release {row : Row δ ε} {token : ℕ} (delay : ℕ) (code : ε) (bars : Bool)
      (hholds : row.holds now token = true) :
      Change limit now (.lease token) row (row.release limit now delay code bars)

variable {limit now : ℕ} {caller : Caller} {row next : Row δ ε}

theorem holds_iff {token : ℕ} :
    row.holds now token = true ↔ ∃ expires, row.stage = .leased token expires ∧ now < expires := by
  unfold holds
  cases row.stage with
  | leased current expires =>
    simp only [Bool.and_eq_true, decide_eq_true_eq, Stage.leased.injEq]
    constructor
    · rintro ⟨rfl, hlive⟩
      exact ⟨expires, ⟨rfl, rfl⟩, hlive⟩
    rintro ⟨_, ⟨rfl, rfl⟩, hlive⟩
    exact ⟨rfl, hlive⟩
  | _ => simp

theorem exhausted_iff : row.exhausted limit now = true ↔
      ∃ token expires, row.stage = .leased token expires ∧ expires ≤ now ∧
        limit ≤ row.attempts := by
  unfold exhausted
  cases row.stage with
  | leased current expires =>
    simp only [Bool.and_eq_true, decide_eq_true_eq, Stage.leased.injEq]
    constructor
    · intro h
      exact ⟨current, expires, ⟨rfl, rfl⟩, h⟩
    rintro ⟨_, _, ⟨rfl, rfl⟩, h⟩
    exact h
  | _ => simp

theorem claimable_iff : row.claimable limit now = true ↔ row.attempts < limit ∧
      ((row.stage = .queued ∨ row.stage = .retry) ∧ row.nextAttempt ≤ now ∨
        ∃ token expires, row.stage = .leased token expires ∧ expires ≤ now) := by
  unfold claimable
  cases row.stage with
  | leased current expires =>
    simp only [Bool.and_eq_true, decide_eq_true_eq, Stage.leased.injEq, reduceCtorEq, or_self,
      false_and, false_or]
    refine and_congr_right fun _ => ⟨?_, ?_⟩
    · intro h
      exact ⟨current, expires, ⟨rfl, rfl⟩, h⟩
    rintro ⟨_, _, ⟨rfl, rfl⟩, h⟩
    exact h
  | _ => simp

/-- The attempts stay within the limit, with one to spare while the row waits. -/
structure Bounded (limit : ℕ) (row : Row δ ε) : Prop where
  attempts_le : row.attempts ≤ limit
  waiting_lt : row.stage = .queued ∨ row.stage = .retry → row.attempts < limit

theorem bounded_fresh (hlimit : 0 < limit) : (fresh now : Row δ ε).Bounded limit :=
  ⟨Nat.zero_le _, fun _ => hlimit⟩

section

variable (h : Change limit now caller row next)
include h

theorem Change.bounded (hrow : row.Bounded limit) : next.Bounded limit := by
  cases h with
  | same => exact hrow
  | exhaust code hexh => exact ⟨hrow.attempts_le, by simp [Row.exhaust]⟩
  | claim ttl token hable =>
    refine ⟨(claimable_iff.mp hable).1, ?_⟩
    simp [Row.claim]
  | finish result hholds => exact ⟨hrow.attempts_le, by simp [Row.finish]⟩
  | release delay code bars hholds =>
    refine ⟨hrow.attempts_le, ?_⟩
    simp only [Row.release]
    split
    · simp
    rename_i hstays
    simp only [Bool.or_eq_true, decide_eq_true_eq, not_or, not_le] at hstays
    exact fun _ => hstays.1

theorem Change.terminal (hrow : row.stage.terminal = true) : next = row := by
  cases h with
  | same => rfl
  | exhaust code hexh =>
    obtain ⟨_, _, hstage, _⟩ := exhausted_iff.mp hexh
    simp [hstage, Stage.terminal] at hrow
  | claim ttl token hable =>
    obtain ⟨_, ⟨hstage | hstage, _⟩ | ⟨_, _, hstage, _⟩⟩ := claimable_iff.mp hable <;>
      simp [hstage, Stage.terminal] at hrow
  | finish result hholds | release delay code bars hholds =>
    obtain ⟨_, hstage, _⟩ := holds_iff.mp hholds
    simp [hstage, Stage.terminal] at hrow

theorem Change.leased {token expires : ℕ}
    (hrow : row.stage = .leased token expires) (hne : next ≠ row) :
    (caller = .lease token ∧ now < expires) ∨ (caller = .claim ∧ expires ≤ now) := by
  cases h with
  | same => exact absurd rfl hne
  | exhaust code hexh =>
    obtain ⟨_, _, hstage, hexp, _⟩ := exhausted_iff.mp hexh
    cases hrow.symm.trans hstage
    exact .inr ⟨rfl, hexp⟩
  | claim ttl token' hable =>
    obtain ⟨_, ⟨hstage | hstage, _⟩ | ⟨_, _, hstage, hexp⟩⟩ := claimable_iff.mp hable
    · cases hrow.symm.trans hstage
    · cases hrow.symm.trans hstage
    cases hrow.symm.trans hstage
    exact .inr ⟨rfl, hexp⟩
  | finish result hholds | release delay code bars hholds =>
    obtain ⟨_, hstage, hlive⟩ := holds_iff.mp hholds
    cases hrow.symm.trans hstage
    exact .inl ⟨rfl, hlive⟩

theorem Change.waiting
    (hrow : row.stage = .queued ∨ row.stage = .retry) (hne : next ≠ row) : caller = .claim := by
  cases h with
  | same => exact absurd rfl hne
  | exhaust code hexh | claim ttl token hable => rfl
  | finish result hholds | release delay code bars hholds =>
    obtain ⟨_, hstage, _⟩ := holds_iff.mp hholds
    rcases hrow with hrow | hrow <;> cases hrow.symm.trans hstage

end

theorem waiting_or_leased (hrow : row.stage.terminal = false) :
    (row.stage = .queued ∨ row.stage = .retry) ∨
      ∃ token expires, row.stage = .leased token expires := by
  cases hstage : row.stage with
  | queued => exact .inl (.inl rfl)
  | retry => exact .inl (.inr rfl)
  | leased token expires => exact .inr ⟨token, expires, rfl⟩
  | blocked | done result => simp [hstage, Stage.terminal] at hrow

/-- What is left to do on a row. Three units for each attempt leave room for the
lease and its return. -/
def work (limit : ℕ) (row : Row δ ε) : ℕ :=
  3 * (limit - row.attempts) + match row.stage with
    | .queued | .retry => 1
    | .leased _ _ => 2
    | .blocked | .done _ => 0

theorem Change.work_lt (h : Change limit now caller row next) (hne : next ≠ row) :
    next.work limit < row.work limit := by
  cases h with
  | same => exact absurd rfl hne
  | exhaust code hexh =>
    obtain ⟨_, _, hstage, _⟩ := exhausted_iff.mp hexh
    simp [work, Row.exhaust, hstage]
  | claim ttl token hable =>
    obtain ⟨hlt, _⟩ := claimable_iff.mp hable
    have hunits : 3 * (limit - (row.attempts + 1)) + 2 < 3 * (limit - row.attempts) := by omega
    simp only [work, Row.claim]
    omega
  | finish result hholds =>
    obtain ⟨_, hstage, _⟩ := holds_iff.mp hholds
    simp [work, Row.finish, hstage]
  | release delay code bars hholds =>
    obtain ⟨_, hstage, _⟩ := holds_iff.mp hholds
    simp only [work, Row.release, hstage]
    cases limit ≤ row.attempts || bars <;> simp

theorem Change.work_le (h : Change limit now caller row next) :
    next.work limit ≤ row.work limit := by
  by_cases hne : next = row
  · rw [hne]
  exact (h.work_lt hne).le

/-- The time from which a row that stays as it is can be claimed or swept. -/
def due (row : Row δ ε) : ℕ :=
  match row.stage with
  | .leased _ expires => expires
  | _ => row.nextAttempt

theorem claimable_or_exhausted (hbounded : row.Bounded limit)
    (hrow : row.stage.terminal = false) (hdue : row.due ≤ now) :
    row.claimable limit now = true ∨ row.exhausted limit now = true := by
  unfold due at hdue
  cases hstage : row.stage with
  | queued =>
    rw [hstage] at hdue
    exact .inl (claimable_iff.mpr ⟨hbounded.waiting_lt (.inl hstage), .inl ⟨.inl hstage, hdue⟩⟩)
  | retry =>
    rw [hstage] at hdue
    exact .inl (claimable_iff.mpr ⟨hbounded.waiting_lt (.inr hstage), .inl ⟨.inr hstage, hdue⟩⟩)
  | leased token expires =>
    rw [hstage] at hdue
    by_cases hspare : row.attempts < limit
    · exact .inl (claimable_iff.mpr ⟨hspare, .inr ⟨token, expires, hstage, hdue⟩⟩)
    exact .inr (exhausted_iff.mpr ⟨token, expires, hstage, hdue, not_lt.mp hspare⟩)
  | blocked | done result => simp [hstage, Stage.terminal] at hrow

end Row

end LeaseRow
