import ImApp.Library.Double

/-!
The scheduling settings of the forward worker: one row, written by the admin
handler alone. What the handler checks and what the columns accept are two
checks; a saved row passes both.
-/

namespace ImApp.Forward

open MachineInt Bool

/-- The numbers are Go's `int`, 64 bits wide. -/
structure ForwardDeliverySettings where
  globalQPS : Int
  workerConcurrency : Int
  claimBatchSize : Int
  perUserConcurrency : Int
  retryBaseSeconds : Int
  retryMaxSeconds : Int
  processingLockSeconds : Int
  queuePaused : Bool
  retentionDays : Int
  queueAlertDepth : Int

structure ForwardSettingsRequest extends ForwardDeliverySettings where
  adminID : String
  reason : String

/-- The checks of `UpdateForwardSettings` on the bound body. -/
def ForwardSettingsRequest.valid (req : ForwardSettingsRequest) : Bool :=
  !(req.reason = "" || req.globalQPS ≤ 0 || req.workerConcurrency ≤ 0 ||
    req.claimBatchSize ≤ 0 || req.perUserConcurrency ≤ 0 || req.retryBaseSeconds ≤ 0 ||
    req.retryMaxSeconds < req.retryBaseSeconds || req.processingLockSeconds ≤ 0 ||
    req.retentionDays ≤ 0 || req.queueAlertDepth ≤ 0)

/-- A column of type `INT` with the check that it is positive. -/
def intColumn (value : Int) : Bool :=
  Fits 31 value && 0 < value

/-- The column `queue_alert_depth` is a `BIGINT`. -/
def bigintColumn (value : Int) : Bool :=
  Fits 63 value && 0 < value

/-- What the columns of `forward_delivery_settings` accept. -/
def ForwardDeliverySettings.stores (s : ForwardDeliverySettings) : Bool :=
  intColumn s.globalQPS && intColumn s.workerConcurrency && intColumn s.claimBatchSize &&
    intColumn s.perUserConcurrency && intColumn s.retryBaseSeconds &&
    intColumn s.retryMaxSeconds && intColumn s.processingLockSeconds &&
    intColumn s.retentionDays && bigintColumn s.queueAlertDepth

/-- The row of the table with the bounds that every writer keeps. -/
structure SettingsRow extends ForwardDeliverySettings where
  version : Int
  stored : toForwardDeliverySettings.stores = true
  ordered : retryBaseSeconds ≤ retryMaxSeconds

/-- The row that the migration inserts. -/
def SettingsRow.initial : SettingsRow where
  globalQPS := 20
  workerConcurrency := 4
  claimBatchSize := 50
  perUserConcurrency := 2
  retryBaseSeconds := 2
  retryMaxSeconds := 300
  processingLockSeconds := 300
  queuePaused := false
  retentionDays := 30
  queueAlertDepth := 100000
  version := 1
  stored := by decide
  ordered := by decide

inductive SettingsFailure where
  | invalid
  | notSaved

theorem ForwardSettingsRequest.ordered {req : ForwardSettingsRequest} (h : req.valid = true) :
    req.retryBaseSeconds ≤ req.retryMaxSeconds := by
  simp only [valid, not_eq_true', or_eq_false_iff, decide_eq_false_iff_not] at h
  omega

/-- The handler with its statement. `isUUID` is the cast of the admin's id, which
the statement skips where the id is empty. -/
def updateForwardSettings (isUUID : String → Bool) (row : SettingsRow)
    (req : ForwardSettingsRequest) : Except SettingsFailure SettingsRow :=
  if hvalid : req.valid = true then
    if hstores : req.stores = true then
      if req.adminID = "" || isUUID req.adminID then
        .ok { req with version := row.version + 1, stored := hstores, ordered := req.ordered hvalid }
      else .error .notSaved
    else .error .notSaved
  else .error .invalid

theorem intColumn_bounds {value : Int} (h : intColumn value = true) :
    0 < value ∧ value < 2 ^ 31 := by
  obtain ⟨hfits, hpos⟩ := (and_eq_true _ _).mp h
  have hbounds : Fits 31 value := of_decide_eq_true hfits
  exact ⟨of_decide_eq_true hpos, hbounds.2⟩

variable (row : SettingsRow)

theorem SettingsRow.globalQPS_bounds : 0 < row.globalQPS ∧ row.globalQPS < 2 ^ 31 := by
  have h := row.stored
  simp only [ForwardDeliverySettings.stores, and_eq_true] at h
  apply intColumn_bounds
  tauto

theorem SettingsRow.retryBase_bounds :
    0 < row.retryBaseSeconds ∧ row.retryBaseSeconds < 2 ^ 31 := by
  have h := row.stored
  simp only [ForwardDeliverySettings.stores, and_eq_true] at h
  apply intColumn_bounds
  tauto

theorem SettingsRow.retryMax_bounds : 0 < row.retryMaxSeconds ∧ row.retryMaxSeconds < 2 ^ 31 := by
  have h := row.stored
  simp only [ForwardDeliverySettings.stores, and_eq_true] at h
  apply intColumn_bounds
  tauto

end ImApp.Forward

/-!
The arithmetic of the forward worker on its settings: the delay before the next
attempt and the interval of the rate ticker. Ints are `int64` nanoseconds.
The delay multiplies before it caps, and the rate that a batch runs at is the
stored one, not the one that `normalize` limits.
-/

namespace ImApp.Forward

open MachineInt

def second : Int := 1000000000

def minute : Int := 60 * second

/-- The product of two values of type `int64`. -/
def mulInt64 (x y : Int) : Int :=
  wrap 63 (x * y)

/-- The value of `1 << (attempt - 1)`. -/
def attemptShift (attempt : Int) : Int :=
  wrap 63 (2 ^ (attempt - 1).toNat)

def forwardRetryDelay (attempt : Int) (base maximum : Int) : Int :=
  let attempt := if attempt < 1 then 1 else attempt
  let base := if base ≤ 0 then 2 * second else base
  let maximum := if maximum < base then 5 * minute else maximum
  if 31 ≤ attempt then maximum
  else min (mulInt64 base (attemptShift attempt)) maximum

/-- The part of the worker that its settings reach. -/
structure ForwardWorker where
  batchSize : Int
  maxAttempts : Int
  concurrency : Int
  qps : Int
  pollInterval : Int
  lockTTL : Int
  retryBase : Int
  retryMax : Int
  perUserConcurrency : Int

/-- The default where the value is not positive. -/
def orDefault (value default : Int) : Int :=
  if value ≤ 0 then default else value

def ForwardWorker.normalize (w : ForwardWorker) : ForwardWorker where
  batchSize := min (orDefault w.batchSize 50) 10000
  maxAttempts := orDefault w.maxAttempts 8
  concurrency := min (orDefault w.concurrency 4) 256
  qps := min (orDefault w.qps 20) 10000
  pollInterval := orDefault w.pollInterval (2 * second)
  lockTTL := orDefault w.lockTTL (5 * minute)
  retryBase := orDefault w.retryBase (2 * second)
  retryMax := orDefault w.retryMax (5 * minute)
  perUserConcurrency := orDefault w.perUserConcurrency 2

/-- The assignments of `RunTaskOnce`. -/
def ForwardWorker.loadTask (w : ForwardWorker) (settings : ForwardDeliverySettings) :
    ForwardWorker :=
  { w with
    batchSize := settings.claimBatchSize
    concurrency := settings.workerConcurrency
    qps := settings.globalQPS
    lockTTL := mulInt64 settings.processingLockSeconds second
    retryBase := mulInt64 settings.retryBaseSeconds second
    retryMax := mulInt64 settings.retryMaxSeconds second }

/-- The assignments of `RunPolling`. -/
def ForwardWorker.loadPolling (w : ForwardWorker) (settings : ForwardDeliverySettings) :
    ForwardWorker :=
  { w.loadTask settings with perUserConcurrency := settings.perUserConcurrency }

/-- The worker in front of a batch. `polling` says which of the two loops runs
it; both normalise the worker before they read the settings. -/
def ForwardWorker.prepare (w : ForwardWorker) (polling : Bool)
    (settings : ForwardDeliverySettings) : ForwardWorker :=
  if polling then w.normalize.loadPolling settings else w.normalize.loadTask settings

/-- The interval that `processBatch` passes to `time.NewTicker`, which panics
unless it is positive. -/
def ForwardWorker.interval (w : ForwardWorker) : Int :=
  second.tdiv w.qps

/-- The delay that `retryOrFail` adds to the present time. -/
def ForwardWorker.retryDelay (w : ForwardWorker) (attempt : Int) : Int :=
  forwardRetryDelay attempt w.retryBase w.retryMax

/-- The exact values of the operations that lead to the delay of one attempt. -/
def delayOperations (settings : ForwardDeliverySettings) (attempt : Int) : List Int :=
  let base := settings.retryBaseSeconds * second
  let maximum := settings.retryMaxSeconds * second
  let scaled := if 31 ≤ attempt then []
    else [attempt - 1, 2 ^ (attempt - 1).toNat, base * 2 ^ (attempt - 1).toNat]
  base :: maximum :: scaled

/-- What the delay of an attempt and the ticker owe to the settings. -/
structure DelaySound (w : ForwardWorker) (settings : ForwardDeliverySettings)
    (attempt : Int) : Prop where
  lower : settings.retryBaseSeconds * second ≤ w.retryDelay attempt
  upper : w.retryDelay attempt ≤ settings.retryMaxSeconds * second
  monotone : ∀ earlier, 1 ≤ earlier → earlier ≤ attempt →
    w.retryDelay earlier ≤ w.retryDelay attempt
  exact_values : ∀ value ∈ delayOperations settings attempt, Fits 63 value
  ticks : 0 < w.interval

/-- The delay of this attempt is computed without a wrap. -/
def scaledFits (settings : ForwardDeliverySettings) (attempt : Int) : Prop :=
  31 ≤ attempt ∨ settings.retryBaseSeconds * second * 2 ^ (attempt - 1).toNat < 2 ^ 63

variable {row : SettingsRow} {w : ForwardWorker} {polling : Bool} {attempt : Int}

theorem prepare_qps (settings : ForwardDeliverySettings) :
    (w.prepare polling settings).qps = settings.globalQPS := by
  cases polling with
  | false | true => rfl

theorem prepare_retryBase (row : SettingsRow) :
    (w.prepare polling row.toForwardDeliverySettings).retryBase = row.retryBaseSeconds * second := by
  have hbounds := row.retryBase_bounds
  have hfits : Fits 63 (row.retryBaseSeconds * second) := by
    unfold Fits second
    omega
  cases polling with
  | false | true => exact wrap_of_fits hfits

theorem prepare_retryMax (row : SettingsRow) :
    (w.prepare polling row.toForwardDeliverySettings).retryMax = row.retryMaxSeconds * second := by
  have hbounds := row.retryMax_bounds
  have hfits : Fits 63 (row.retryMaxSeconds * second) := by
    unfold Fits second
    omega
  cases polling with
  | false | true => exact wrap_of_fits hfits

theorem retryDelay_prepare (w : ForwardWorker) (polling : Bool) (row : SettingsRow)
    (hattempt : 1 ≤ attempt) :
    (w.prepare polling row.toForwardDeliverySettings).retryDelay attempt =
      if 31 ≤ attempt then row.retryMaxSeconds * second
      else min (mulInt64 (row.retryBaseSeconds * second) (attemptShift attempt))
        (row.retryMaxSeconds * second) := by
  have hbase := row.retryBase_bounds
  have hordered := row.ordered
  have hattempt' : ¬ attempt < 1 := by omega
  have hpos : ¬ row.retryBaseSeconds * second ≤ 0 := by
    unfold second
    omega
  have hmax : ¬ row.retryMaxSeconds * second < row.retryBaseSeconds * second := by
    unfold second
    omega
  unfold ForwardWorker.retryDelay forwardRetryDelay
  rw [prepare_retryBase, prepare_retryMax]
  simp only [hattempt', hpos, hmax, if_false]

theorem shift_bounds (hattempt : attempt < 31) :
    (1 : Int) ≤ 2 ^ (attempt - 1).toNat ∧ (2 : Int) ^ (attempt - 1).toNat ≤ 2 ^ 29 := by
  have hexponent : (attempt - 1).toNat ≤ 29 := by omega
  constructor
  · exact one_le_pow₀ (by omega)
  exact pow_le_pow_right₀ (by omega) hexponent

theorem attemptShift_eq (hattempt : attempt < 31) :
    attemptShift attempt = 2 ^ (attempt - 1).toNat := by
  have hbounds := shift_bounds hattempt
  apply wrap_of_fits
  constructor <;> omega

/-- Where nothing wraps, the delay doubles with each attempt up to the maximum. -/
theorem retryDelay_exact (w : ForwardWorker) (polling : Bool) (row : SettingsRow)
    (hattempt : 1 ≤ attempt) (hlast : attempt < 31)
    (hfits : scaledFits row.toForwardDeliverySettings attempt) :
    (w.prepare polling row.toForwardDeliverySettings).retryDelay attempt =
      min (row.retryBaseSeconds * second * 2 ^ (attempt - 1).toNat)
        (row.retryMaxSeconds * second) := by
  have hbase := row.retryBase_bounds
  have hshift := shift_bounds hlast
  have hscaled : row.retryBaseSeconds * second * 2 ^ (attempt - 1).toNat < 2 ^ 63 := by
    rcases hfits with hlate | hscaled
    · omega
    exact hscaled
  have hpos : 0 ≤ row.retryBaseSeconds * second * 2 ^ (attempt - 1).toNat := by
    apply mul_nonneg
    · unfold second
      omega
    omega
  rw [retryDelay_prepare w polling row hattempt, if_neg (by omega), attemptShift_eq hlast]
  congr 1
  apply wrap_of_fits
  constructor
  · omega
  exact hscaled

theorem retryDelay_le (row : SettingsRow) (hattempt : 1 ≤ attempt) :
    (w.prepare polling row.toForwardDeliverySettings).retryDelay attempt ≤
      row.retryMaxSeconds * second := by
  rw [retryDelay_prepare w polling row hattempt]
  split
  · exact le_rfl
  exact min_le_right _ _

theorem scaled_mono (row : SettingsRow) {earlier : Int} (hle : earlier ≤ attempt) :
    row.retryBaseSeconds * second * 2 ^ (earlier - 1).toNat ≤
      row.retryBaseSeconds * second * 2 ^ (attempt - 1).toNat := by
  have hbase := row.retryBase_bounds
  apply mul_le_mul_of_nonneg_left
  · exact pow_le_pow_right₀ (by omega) (by omega)
  unfold second
  omega

theorem retryDelay_mono (row : SettingsRow) {earlier : Int} (hearlier : 1 ≤ earlier)
    (hle : earlier ≤ attempt) (hfits : scaledFits row.toForwardDeliverySettings attempt) :
    (w.prepare polling row.toForwardDeliverySettings).retryDelay earlier ≤
      (w.prepare polling row.toForwardDeliverySettings).retryDelay attempt := by
  rcases Int.lt_or_le attempt 31 with hlast | hlate
  · have hmono := scaled_mono row hle
    have hscaled : scaledFits row.toForwardDeliverySettings earlier := by
      rcases hfits with hlate | hscaled
      · omega
      exact Or.inr (lt_of_le_of_lt hmono hscaled)
    rw [retryDelay_exact w polling row hearlier (by omega) hscaled,
      retryDelay_exact w polling row (by omega) hlast hfits]
    exact min_le_min_right _ hmono
  have hend := retryDelay_prepare w polling row (show 1 ≤ attempt by omega)
  rw [hend, if_pos hlate]
  exact retryDelay_le row hearlier

theorem le_retryDelay (row : SettingsRow) (hattempt : 1 ≤ attempt)
    (hfits : scaledFits row.toForwardDeliverySettings attempt) : row.retryBaseSeconds * second ≤
      (w.prepare polling row.toForwardDeliverySettings).retryDelay attempt := by
  have hfirst : (w.prepare polling row.toForwardDeliverySettings).retryDelay 1 =
      row.retryBaseSeconds * second := by
    have hbase := row.retryBase_bounds
    have hordered := row.ordered
    have hexact := retryDelay_exact w polling row (Int.le_refl 1) (by omega)
    simp only [sub_self, Int.toNat_zero, pow_zero, mul_one] at hexact
    rw [hexact]
    · apply min_eq_left
      unfold second
      omega
    apply Or.inr
    simp only [sub_self, Int.toNat_zero, pow_zero, mul_one]
    unfold second
    omega
  rw [← hfirst]
  exact retryDelay_mono row (by omega) hattempt hfits

theorem operations_fit (row : SettingsRow) (hattempt : 1 ≤ attempt) :
    (∀ value ∈ delayOperations row.toForwardDeliverySettings attempt, Fits 63 value) ↔
      scaledFits row.toForwardDeliverySettings attempt := by
  have hbase := row.retryBase_bounds
  have hmax := row.retryMax_bounds
  have hbaseFits : Fits 63 (row.retryBaseSeconds * second) := by
    unfold Fits second
    omega
  have hmaxFits : Fits 63 (row.retryMaxSeconds * second) := by
    unfold Fits second
    omega
  unfold delayOperations scaledFits
  rcases Int.lt_or_le attempt 31 with hlast | hlate
  · have hshift := shift_bounds hlast
    have hexponentFits : Fits 63 (attempt - 1) := by
      unfold Fits
      omega
    have hshiftFits : Fits 63 (2 ^ (attempt - 1).toNat) := by
      unfold Fits
      omega
    have hpos : 0 ≤ row.retryBaseSeconds * second * 2 ^ (attempt - 1).toNat := by
      apply mul_nonneg
      · unfold second
        omega
      omega
    have hlast' : ¬ 31 ≤ attempt := by omega
    simp only [hlast', if_false, List.forall_mem_cons, hbaseFits, hmaxFits, hexponentFits,
      hshiftFits, List.not_mem_nil, false_imp_iff, implies_true, true_and, and_true, false_or]
    unfold Fits
    omega
  simp [hlate, hbaseFits, hmaxFits]

theorem interval_pos (row : SettingsRow) :
    0 < (w.prepare polling row.toForwardDeliverySettings).interval ↔ row.globalQPS ≤ second := by
  have hqps := row.globalQPS_bounds
  unfold ForwardWorker.interval
  rw [prepare_qps, Int.tdiv_eq_ediv_of_nonneg (by decide)]
  constructor
  · intro hpos
    by_contra hlarge
    have hlarge' : second < row.globalQPS := by
      rw [not_le] at hlarge
      exact hlarge
    rw [Int.ediv_eq_zero_of_lt (by decide) hlarge'] at hpos
    exact lt_irrefl 0 hpos
  intro hle
  have hone : 1 ≤ second / row.globalQPS := by
    apply Int.le_ediv_of_mul_le hqps.1
    omega
  omega

theorem delay_sound_iff (row : SettingsRow) (hattempt : 1 ≤ attempt) :
    DelaySound (w.prepare polling row.toForwardDeliverySettings) row.toForwardDeliverySettings
        attempt ↔ row.globalQPS ≤ second ∧ scaledFits row.toForwardDeliverySettings attempt := by
  constructor
  · intro hsound
    constructor
    · exact (interval_pos row).mp hsound.ticks
    exact (operations_fit row hattempt).mp hsound.exact_values
  rintro ⟨hqps, hfits⟩
  exact {
    lower := le_retryDelay row hattempt hfits
    upper := retryDelay_le row hattempt
    monotone := fun _ hearlier hle => retryDelay_mono row hearlier hle hfits
    exact_values := (operations_fit row hattempt).mpr hfits
    ticks := (interval_pos row).mpr hqps }

/-- The last attempt that is scaled is the thirtieth: the base is multiplied by
`2 ^ 29`, which leaves room for 17 seconds. -/
theorem scaledFits_always (row : SettingsRow) :
    (∀ attempt, 1 ≤ attempt → scaledFits row.toForwardDeliverySettings attempt) ↔
      row.retryBaseSeconds ≤ 17 := by
  constructor
  · intro h
    rcases h 30 (by omega) with hlate | hscaled
    · omega
    have hpower : (2 : Int) ^ ((30 : Int) - 1).toNat = 536870912 := by decide
    rw [hpower] at hscaled
    unfold second at hscaled
    omega
  intro hbase attempt _
  rcases Int.lt_or_le attempt 31 with hlast | hlate
  · have hmono := scaled_mono row (show attempt ≤ 30 by omega)
    have hpower : (2 : Int) ^ ((30 : Int) - 1).toNat = 536870912 := by decide
    rw [hpower] at hmono
    apply Or.inr
    unfold second at hmono ⊢
    omega
  exact Or.inl hlate

/-- The delay of an attempt and the ticker are what the settings ask for exactly
when the rate is at most one target a nanosecond and the multiple of the base
that the attempt takes fits in 64 bits; over all attempts, when the base is at
most 17 seconds. -/
theorem forward_delay_arithmetic (row : SettingsRow) (w : ForwardWorker) (polling : Bool) :
    (∀ attempt, 1 ≤ attempt → (DelaySound (w.prepare polling row.toForwardDeliverySettings)
          row.toForwardDeliverySettings attempt ↔ row.globalQPS ≤ 1000000000 ∧ (31 ≤ attempt ∨
          row.retryBaseSeconds * 1000000000 * 2 ^ (attempt - 1).toNat < 2 ^ 63))) ∧
    ((∀ attempt, 1 ≤ attempt → DelaySound (w.prepare polling row.toForwardDeliverySettings)
        row.toForwardDeliverySettings attempt) ↔
      row.globalQPS ≤ 1000000000 ∧ row.retryBaseSeconds ≤ 17) := by
  constructor
  · intro attempt hattempt
    exact delay_sound_iff row hattempt
  constructor
  · intro hsound
    have hfits : ∀ attempt, 1 ≤ attempt → scaledFits row.toForwardDeliverySettings attempt := by
      intro attempt hattempt
      exact ((delay_sound_iff row hattempt).mp (hsound attempt hattempt)).2
    constructor
    · exact ((delay_sound_iff row (Int.le_refl 1)).mp (hsound 1 (Int.le_refl 1))).1
    exact (scaledFits_always row).mp hfits
  rintro ⟨hqps, hbase⟩ attempt hattempt
  apply (delay_sound_iff row hattempt).mpr
  constructor
  · exact hqps
  exact (scaledFits_always row).mpr hbase attempt hattempt

/-- A worker without configuration. -/
def ForwardWorker.fresh : ForwardWorker where
  batchSize := 0
  maxAttempts := 0
  concurrency := 0
  qps := 0
  pollInterval := 0
  lockTTL := 0
  retryBase := 0
  retryMax := 0
  perUserConcurrency := 0

theorem forward_delay_arithmetic_initial :
    DelaySound (ForwardWorker.fresh.prepare true SettingsRow.initial.toForwardDeliverySettings)
      SettingsRow.initial.toForwardDeliverySettings 1000 := by
  apply (forward_delay_arithmetic SettingsRow.initial ForwardWorker.fresh true).2.mpr
  · decide
  omega

/-- An administrator's request for a base of 18 seconds and a rate of two
targets a nanosecond. -/
def fastRequest : ForwardSettingsRequest :=
  { SettingsRow.initial.toForwardDeliverySettings with
    globalQPS := 2000000000
    retryBaseSeconds := 18
    adminID := ""
    reason := "r" }

/-- It is saved; the thirtieth attempt is scheduled before the present time and
the ticker gets no positive interval. -/
theorem fast_settings_wrap :
    ∃ row, updateForwardSettings (fun _ => false) SettingsRow.initial fastRequest = .ok row ∧
      ∀ polling,
        (ForwardWorker.fresh.prepare polling row.toForwardDeliverySettings).retryDelay 30 < 0 ∧
        (ForwardWorker.fresh.prepare polling row.toForwardDeliverySettings).interval = 0 := by
  refine ⟨{ fastRequest with version := 2, stored := by decide, ordered := by decide }, ?_, ?_⟩
  · rfl
  intro polling
  cases polling with
  | false | true => decide

end ImApp.Forward
