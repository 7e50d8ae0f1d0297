import ImApp.Library.JsonText
import ImApp.Library.KeepNewest

/-!
The data of a group retention plan: the policy with its clamps, the classified
snapshot that a planner reads and the plan it writes. A row is kept while it is
inside the time window or among the newest `maxMessages` visible rows.
-/

namespace ImApp.Retention

open JsonText (Text)

/-- Nanoseconds since the zero time, 1 January of year 1. -/
abbrev Time := Int

def zeroTime : Time := 0

def unixMilli (ms : Int) : Time := (ms + 62135596800000) * 1000000

theorem unixMilli_pos {ms : Int} (h : 0 < ms) : zeroTime < unixMilli ms := by
  change (0 : Int) < (ms + 62135596800000) * 1000000
  omega

def hour : Int := 3600000000000

/-- The first value that is no message sequence. -/
def seqLimit : Int := 9007199254740992

def groupRetentionWindow : Int := 3 * 24 * hour

def groupRetentionCount : Int := 3000

def groupRetentionCountMin : Int := 1

def groupRetentionCountMax : Int := 20000

def groupRetentionHoursMin : Int := 1

def groupRetentionHoursMax : Int := 90 * 24

structure RetentionPolicy where
  maxMessages : Int
  window : Int
  deriving DecidableEq, Repr

def normalizeMaxMessages (maxMessages : Int) : Int :=
  let filled := if maxMessages ≤ 0 then groupRetentionCount else maxMessages
  min (max filled groupRetentionCountMin) groupRetentionCountMax

def normalizeWindow (window : Int) : Int :=
  let filled := if window ≤ 0 then groupRetentionWindow else window
  min (max filled (groupRetentionHoursMin * hour)) (groupRetentionHoursMax * hour)

/-- Fills zeros and clamps to the safe bounds. -/
def normalizeRetentionPolicy (policy : RetentionPolicy) : RetentionPolicy where
  maxMessages := normalizeMaxMessages policy.maxMessages
  window := normalizeWindow policy.window

/-- A policy inside the bounds. -/
structure RetentionPolicy.Normal (policy : RetentionPolicy) : Prop where
  countMin : groupRetentionCountMin ≤ policy.maxMessages
  countMax : policy.maxMessages ≤ groupRetentionCountMax
  windowMin : groupRetentionHoursMin * hour ≤ policy.window
  windowMax : policy.window ≤ groupRetentionHoursMax * hour

theorem normalizeRetentionPolicy_normal (policy : RetentionPolicy) :
    (normalizeRetentionPolicy policy).Normal where
  countMin := le_min (le_max_right _ _) (by decide)
  countMax := min_le_right _ _
  windowMin := le_min (le_max_right _ _) (by decide)
  windowMax := min_le_right _ _

theorem normalizeMaxMessages_of_normal {count : Int} (hmin : groupRetentionCountMin ≤ count)
    (hmax : count ≤ groupRetentionCountMax) : normalizeMaxMessages count = count := by
  have hpos : ¬ count ≤ 0 := by
    unfold groupRetentionCountMin at hmin
    omega
  simp only [normalizeMaxMessages, if_neg hpos]
  rw [max_eq_left hmin, min_eq_left hmax]

theorem normalizeRetentionPolicy_of_normal {policy : RetentionPolicy} (h : policy.Normal) :
    normalizeRetentionPolicy policy = policy := by
  have hcount := normalizeMaxMessages_of_normal h.countMin h.countMax
  have hwindow : normalizeWindow policy.window = policy.window := by
    have hmin := h.windowMin
    have hpos : ¬ policy.window ≤ 0 := by
      unfold groupRetentionHoursMin hour at hmin
      omega
    simp only [normalizeWindow, if_neg hpos]
    rw [max_eq_left hmin, min_eq_left h.windowMax]
  simp only [normalizeRetentionPolicy, hcount, hwindow]

theorem normalizeRetentionPolicy_idempotent (policy : RetentionPolicy) :
    normalizeRetentionPolicy (normalizeRetentionPolicy policy) = normalizeRetentionPolicy policy :=
  normalizeRetentionPolicy_of_normal (normalizeRetentionPolicy_normal policy)

theorem normalizeRetentionPolicy_count_pos (policy : RetentionPolicy) :
    0 < (normalizeRetentionPolicy policy).maxMessages := by
  have := (normalizeRetentionPolicy_normal policy).countMin
  unfold groupRetentionCountMin at this
  omega

/-- Any text but the two known ones fails closed. -/
inductive Visibility where
  | visible
  | hidden
  | other (text : Text)
  deriving DecidableEq

structure RetentionMessage where
  seq : Int
  sendTime : Time
  visibility : Visibility
  deriving DecidableEq

structure RetentionSnapshot where
  snapshotID : Text
  conversationID : Text
  sessionType : Text
  serverTime : Time
  watermark : Int
  overCountThrough : Int
  complete : Bool
  messages : List RetentionMessage
  deriving DecidableEq

structure RetentionCandidate where
  seq : Int
  overAge : Bool
  overCount : Bool
  deriving DecidableEq

structure RetentionPlan where
  snapshotID : Text
  mode : Text
  conversationID : Text
  serverTime : Time
  cutoff : Time
  watermark : Int
  maxMessages : Int
  overCountThrough : Int
  kept : List Int
  candidates : List RetentionCandidate
  hiddenCount : Nat
  afterWatermarkCount : Nat
  deriving DecidableEq

/-- The rule a policy sets at a server time. -/
def RetentionPolicy.rule (policy : RetentionPolicy) (serverTime : Time) : KeepNewest.Rule Time where
  quota := policy.maxMessages.toNat
  cutoff := serverTime - policy.window

end ImApp.Retention
