import Mathlib
import ImApp.MonitorAlerts.Safety

/-!
What holds in every run of samples, availability checks and resets whose samples
are in order.
-/

namespace ImApp.MonitorAlerts

open List Option Bool
open StepSystem (Machine)

variable {H : Type*} [DecidableEq H] {runtime : Runtime H} {s t : Store H} {row : StateRow}
  {settings : Settings} {agentId : String} {host : HostSnapshot} {deployments : List Deployment}
  {candidates : List Candidate} {evaluatedAt : Time} {obs : Observation}

section Sample

variable (runtime s settings agentId host deployments candidates)

/-- The disks of the sample. -/
abbrev sampleDisks : List RuleKey := host.disks.map (monitorDiskKey runtime.trim)

abbrev observedBy : List Observation :=
  sampleObservations runtime settings agentId host deployments candidates

abbrev observedWith : List Observation :=
  allObservations runtime settings s.states
    (observedBy runtime settings agentId host deployments candidates) [agentId]

end Sample

omit [DecidableEq H] in
theorem mem_diskObservations
    (h : obs ∈ diskObservations (observedBy runtime settings agentId host deployments candidates)) :
    settings.diskMissingEnabled = true ∧ ∃ key ∈ sampleDisks runtime host,
      key ∉ settings.excludedDisks ∧ obs = diskObservation agentId key := by
  obtain ⟨hobs, hfilter⟩ := mem_filter.mp h
  simp only [and_eq_true, decide_eq_true_eq] at hfilter
  obtain ⟨henabled, key, rfl, hkey⟩ := (mem_sampleObservations hobs).2 hfilter.1
  rcases hkey with rfl | ⟨hdisk, hnot⟩
  · exact absurd rfl hfilter.2
  exact ⟨henabled, key, hdisk, hnot, rfl⟩

omit [DecidableEq H] in
theorem current_of_mem {key : RuleKey} (henabled : settings.diskMissingEnabled = true)
    (hkey : key ∈ sampleDisks runtime host) (hnot : key ∉ settings.excludedDisks) :
    missingKey runtime .host agentId key ∈ currentDiskStateKeys runtime
      (observedBy runtime settings agentId host deployments candidates) := by
  have hdisk : key ≠ .diskBaseline := by
    obtain ⟨disk, _, rfl⟩ := mem_map.mp hkey
    exact RuleKey.noConfusion
  refine mem_map.mpr ⟨diskObservation agentId key, mem_filter.mpr ⟨?_, ?_⟩, rfl⟩
  · exact mem_append_left _ (diskObservation_mem henabled hkey hnot)
  simp [diskObservation, hdisk]

section

variable (hobs : obs ∈ observedWith runtime s settings agentId host deployments candidates)
include hobs

/-- An addition is observed of a disk of the sample that is not excluded, and that
was noted as added before or has no state. -/
theorem mem_added (hrule : obs.ruleType = .diskAdded) :
    settings.diskMissingEnabled = true ∧ obs.targetId = agentId ∧
      obs.ruleKey ∈ sampleDisks runtime host ∧ obs.ruleKey ∉ settings.excludedDisks ∧
      (hasState runtime s.states (stateKey runtime .host agentId .diskAdded obs.ruleKey) = true ∨
        (agentId ∈ baselineTargets s.states ∧
          hasState runtime s.states (missingKey runtime .host agentId obs.ruleKey) = false)) := by
  simp only [allObservations, append_assoc, mem_append] at hobs
  rcases hobs with hobs | hobs | hobs | hobs
  · exact absurd hrule (mem_sampleObservations hobs).1
  · obtain ⟨source, hsrc, rfl⟩ := mem_map.mp hobs
    obtain ⟨hdisk, hnoted⟩ := mem_filter.mp hsrc
    obtain ⟨henabled, key, hkey, hnot, rfl⟩ := mem_diskObservations hdisk
    refine ⟨henabled, rfl, hkey, hnot, ?_⟩
    simpa [diskObservation] using hnoted
  · obtain ⟨source, _, rfl⟩ := mem_map.mp hobs
    cases hrule
  obtain ⟨source, _, rfl⟩ := mem_map.mp hobs
  cases hrule

/-- A disk is missed that has a state, is not in the sample and is not excluded. -/
theorem mem_missing (hrule : obs.ruleType = .diskMissing) (hbreached : obs.breached = some true) :
    ∃ row ∈ s.states, row.targetType = .host ∧ row.targetId = agentId ∧
      obs.targetId = agentId ∧ row.ruleKey = obs.ruleKey ∧ obs.ruleKey ∉ settings.excludedDisks ∧
      missingKey runtime .host agentId obs.ruleKey ∉ currentDiskStateKeys runtime
        (observedBy runtime settings agentId host deployments candidates) ∧
      (row.ruleType = .diskAdded ∨ row.ruleType = .diskMissing) := by
  simp only [allObservations, append_assoc, mem_append] at hobs
  rcases hobs with hobs | hobs | hobs | hobs
  · obtain ⟨_, key, rfl, _⟩ := (mem_sampleObservations hobs).2 hrule
    cases hbreached
  · obtain ⟨source, _, rfl⟩ := mem_map.mp hobs
    cases hrule
  · obtain ⟨row, hrow, rfl⟩ := mem_map.mp hobs
    obtain ⟨hrow, hfilter⟩ := mem_filter.mp hrow
    simp only [and_eq_true, not_eq_true', decide_eq_true_eq, contains_eq_mem,
      decide_eq_false_iff_not, mem_singleton] at hfilter
    obtain ⟨⟨⟨⟨⟨⟨htype, hrow'⟩, _⟩, htgt⟩, hcur⟩, _⟩, hnot⟩ := hfilter
    rw [htype, htgt] at hcur
    exact ⟨row, hrow, htype, htgt, htgt, rfl, hnot, hcur, .inl hrow'⟩
  obtain ⟨row, hrow, rfl⟩ := mem_map.mp hobs
  obtain ⟨hrow, hfilter⟩ := mem_filter.mp hrow
  simp only [and_eq_true, not_eq_true', decide_eq_true_eq, contains_eq_mem,
    decide_eq_false_iff_not, mem_singleton] at hfilter
  obtain ⟨⟨⟨⟨⟨_, htype⟩, htgt⟩, hrow'⟩, hcur⟩, hnot⟩ := hfilter
  rw [htype, htgt] at hcur
  exact ⟨row, hrow, htype, htgt, htgt, rfl, hnot, hcur, .inr hrow'⟩

end

omit [DecidableEq H] in
theorem mem_watch {target : String} {key : RuleKey} {disks : List RuleKey}
    (h : key ∈ (t.watch s.states settings agentId disks).steady target) :
    (target ≠ agentId → key ∈ t.steady target) ∧ (target = agentId →
      key ∈ disks ∧ (agentId ∈ baselineTargets s.states → key ∈ t.steady agentId)) := by
  simp only [Store.watch] at h
  split at h
  case isTrue hne => exact ⟨fun _ => h, fun heq => absurd heq hne⟩
  case isFalse heq =>
    refine ⟨fun hne => absurd hne heq, fun _ => ?_⟩
    split at h
    case isTrue =>
      obtain ⟨hkey, hdisk⟩ := mem_filter.mp h
      exact ⟨by simpa using hdisk, fun _ => hkey⟩
    case isFalse hnone =>
      split at h
      · exact ⟨h, fun hbaseline => absurd (by simpa using hbaseline) hnone⟩
      cases h

theorem Watched.no_addition (h : Watched s) {target : String} {key : RuleKey}
    (hsteady : target ∈ baselineTargets s.states → key ∈ s.steady target) :
    hasState runtime s.states (stateKey runtime .host target .diskAdded key) = false := by
  by_contra hsome
  obtain ⟨row, hrow, hkey⟩ := hasState_iff.mp (eq_true_of_not_eq_false hsome)
  obtain ⟨_, htgt, hrule, hhash⟩ := StateKey.mk.inj hkey
  have hrulekey := runtime.hash_injective hhash
  refine h.steady row hrow hrule ?_
  rw [htgt, hrulekey]
  exact hsteady (htgt ▸ h.baseline row hrow hrule)

theorem steady_not_added (hwatched : Watched s)
    (horder : InOrder runtime s settings agentId (sampleDisks runtime host)
      (observedBy runtime settings agentId host deployments candidates) evaluatedAt)
    (hobs : obs ∈ observedWith runtime s settings agentId host deployments candidates)
    (hrule : obs.ruleType = .diskAdded)
    (hsteady : agentId ∈ baselineTargets s.states → obs.ruleKey ∈ s.steady agentId) : False := by
  obtain ⟨henabled, _, hdisk, hnot, hnoted | ⟨hbaseline, hmissing⟩⟩ := mem_added hobs hrule
  · rw [hwatched.no_addition hsteady] at hnoted
    cases hnoted
  have hknown := horder.known henabled hbaseline obs.ruleKey hdisk hnot (hsteady hbaseline)
  rw [hmissing] at hknown
  cases hknown

theorem steady_not_missed (hwatched : Watched s)
    (horder : InOrder runtime s settings agentId (sampleDisks runtime host)
      (observedBy runtime settings agentId host deployments candidates) evaluatedAt)
    (hobs : obs ∈ observedWith runtime s settings agentId host deployments candidates)
    (hrule : obs.ruleType = .diskMissing) (hbreached : obs.breached = some true)
    (hdisk : obs.ruleKey ∈ sampleDisks runtime host)
    (hsteady : agentId ∈ baselineTargets s.states → obs.ruleKey ∈ s.steady agentId) : False := by
  obtain ⟨row, hrow, htype, htgt, _, hkey, hnot, hcur, hrow'⟩ :=
    mem_missing hobs hrule hbreached
  rcases hrow' with hadded | hmissing
  · refine hwatched.steady row hrow hadded ?_
    rw [htgt, hkey]
    exact hsteady (htgt ▸ hwatched.baseline row hrow hadded)
  have henabled := horder.enabled row hrow htype htgt hmissing (hkey ▸ hdisk) (hkey ▸ hnot)
  exact hcur (current_of_mem henabled hdisk hnot)

/-- The settings and the time of an evaluation. -/
def Action.evaluation : Action → Option (Settings × Time)
  | .sample settings _ _ _ _ collectedAt => some (settings, collectedAt)
  | .availability settings _ _ checkedAt => some (settings, checkedAt)
  | .reset _ => none

/-- An observation that is not newer than its state changes nothing, and no alert of
the disk rules is opened for a disk that is excluded or stayed. -/
structure SafeStep (s : Store H) (action : Action) (t : Store H) : Prop where
  late : ∀ settings time, action.evaluation = some (settings, time) → ∀ row ∈ s.states,
    time ≤ row.lastEvaluatedAt → Untouched s t row
  disks : ∀ settings time, action.evaluation = some (settings, time) → ∀ alert ∈ t.alerts,
    s.nextId ≤ alert.id → alert.ruleType = .diskMissing ∨ alert.ruleType = .diskAdded →
      alert.ruleKey ∉ settings.excludedDisks ∧ alert.ruleKey ∉ t.steady alert.targetId

/-- Each state has at most one active alert and names it, and alerts are opened and
recovered in time. -/
structure Safe (runtime : Runtime H) (s : Store H) : Prop where
  oneState : ∀ row ∈ s.states, ∀ other ∈ s.states, row.key runtime = other.key runtime → row = other
  named : ∀ alert ∈ s.alerts, alert.status = .active →
    ∃ row ∈ s.states, alert.stateId = some row.id ∧ row.activeAlertId = some alert.id
  oneAlert : ∀ alert ∈ s.alerts, ∀ other ∈ s.alerts, alert.status = .active →
    other.status = .active → alert.stateId = other.stateId → alert = other
  timely : Timely s.history

structure Invariant (runtime : Runtime H) (s : Store H) : Prop where
  consistent : Consistent runtime s
  watched : Watched s

theorem Consistent.safe (h : Consistent runtime s) : Safe runtime s := by
  refine ⟨fun row hrow other hother hkey => h.unique row hrow other hother (.inr hkey), h.named,
    ?_, h.timely⟩
  intro alert halert other hother hactive hactive' hsame
  obtain ⟨row, hrow, hstate, hnames⟩ := h.named alert halert hactive
  obtain ⟨row', hrow', hstate', hnames'⟩ := h.named other hother hactive'
  have hid : row.id = row'.id := some.inj (hstate.symm.trans (hsame.trans hstate'))
  obtain rfl := h.unique row hrow row' hrow' (.inl hid)
  exact h.alertUnique alert halert other hother (some.inj (hnames.symm.trans hnames'))

theorem Consistent.of_same (h : Consistent runtime s) (hstates : t.states = s.states)
    (halerts : t.alerts = s.alerts) (hnext : t.nextId = s.nextId)
    (hhistory : t.history = s.history) : Consistent runtime t := by
  obtain ⟨states, alerts, next, history, _⟩ := t
  obtain rfl : states = s.states := hstates
  obtain rfl : alerts = s.alerts := halerts
  obtain rfl : next = s.nextId := hnext
  obtain rfl : history = s.history := hhistory
  exact ⟨h.unique, h.fresh, h.alertFresh, h.alertUnique, h.named, h.owned, h.counts, h.absent,
    h.timely⟩

omit [DecidableEq H] in
/-- Additions after an evaluation of which every addition was observed of a target
with a baseline and of a disk that did not stay. -/
theorem Watched.derived {list : List Observation} {u : Store H} (h : Watched s)
    (hderived : Derived list s t) (hstates : u.states = t.states)
    (hsteady : ∀ row ∈ s.states, row.ruleType = .diskAdded → row.ruleKey ∉ u.steady row.targetId)
    (hobs : ∀ obs ∈ list, obs.ruleType = .diskAdded →
      obs.targetId ∈ baselineTargets s.states ∧ obs.ruleKey ∉ u.steady obs.targetId) :
    Watched u := by
  have hbaseline : ∀ {target}, target ∈ baselineTargets s.states →
      target ∈ baselineTargets u.states := by
    intro target htgt
    obtain ⟨row, hrow, hrule, hkey, hof⟩ := mem_baselineTargets.mp htgt
    obtain ⟨after, hafter, _, hsameTarget, hsameRule, hsameKey⟩ := hderived.kept row hrow
    exact mem_baselineTargets.mpr ⟨after, hstates ▸ hafter, hsameRule.trans hrule,
      hsameKey.trans hkey, hsameTarget.trans hof⟩
  refine ⟨?_, ?_⟩
  · intro row hrow hrule
    rcases hderived.states row (hstates ▸ hrow) with
      ⟨old, hold, _, htgt, hsame, hkey⟩ | ⟨obs, hmem, _, htgt, hsame, hkey⟩
    · rw [htgt, hkey]
      exact hsteady old hold (hsame.symm.trans hrule)
    rw [← htgt, ← hkey]
    exact (hobs obs hmem (hsame.trans hrule)).2
  intro row hrow hrule
  rcases hderived.states row (hstates ▸ hrow) with
    ⟨old, hold, _, htgt, hsame, hkey⟩ | ⟨obs, hmem, _, htgt, hsame, hkey⟩
  · rw [htgt]
    exact hbaseline (h.baseline old hold (hsame.symm.trans hrule))
  rw [← htgt]
  exact hbaseline (hobs obs hmem (hsame.trans hrule)).1

theorem steady_applyObservations {observations : List Observation} {observed : List String} :
    (applyObservations runtime settings s observations evaluatedAt observed).steady = s.steady := by
  refine foldl_observe (fun pass => pass.store.steady = s.steady) ?_ rfl
  intro pass obs next _ hpass hnext
  cases hnext <;> exact hpass

/-- A sample of which every fact is known but how its observations were taken. -/
theorem sample_watch {u : Store H} (h : Invariant runtime s)
    (horder : InOrder runtime s settings agentId (sampleDisks runtime host)
      (observedBy runtime settings agentId host deployments candidates) evaluatedAt)
    (hconsistent : Consistent runtime u)
    (hderived : Derived (observedWith runtime s settings agentId host deployments candidates) s u)
    (hsteady : u.steady = s.steady)
    (hlate : ∀ row ∈ s.states, evaluatedAt ≤ row.lastEvaluatedAt → Untouched s u row) :
    Invariant runtime (u.watch s.states settings agentId (sampleDisks runtime host)) ∧
      SafeStep s (.sample settings agentId host deployments candidates evaluatedAt)
        (u.watch s.states settings agentId (sampleDisks runtime host)) := by
  have hstay : ∀ target key,
      key ∈ (u.watch s.states settings agentId (sampleDisks runtime host)).steady target →
      (target ≠ agentId → key ∈ s.steady target) ∧ (target = agentId →
        key ∈ sampleDisks runtime host ∧
          (agentId ∈ baselineTargets s.states → key ∈ s.steady agentId)) := by
    intro target key hkey
    have hwatch := mem_watch hkey
    rwa [hsteady] at hwatch
  refine ⟨⟨hconsistent.of_same rfl rfl rfl rfl, ?_⟩, ?_, ?_⟩
  · refine h.watched.derived hderived rfl ?_ ?_
    · intro row hrow hrule hin
      refine h.watched.steady row hrow hrule ?_
      obtain ⟨hother, hself⟩ := hstay _ _ hin
      by_cases htgt : row.targetId = agentId
      · rw [htgt]
        exact (hself htgt).2 (htgt ▸ h.watched.baseline row hrow hrule)
      exact hother htgt
    intro obs hobs hrule
    obtain ⟨_, htgt, _, _, hnoted⟩ := mem_added hobs hrule
    refine ⟨?_, fun hin => ?_⟩
    · rcases hnoted with hnoted | ⟨hbaseline, _⟩
      · obtain ⟨row, hrow, hkey⟩ := hasState_iff.mp hnoted
        obtain ⟨_, hof, hadded, _⟩ := StateKey.mk.inj hkey
        rw [htgt, ← hof]
        exact h.watched.baseline row hrow hadded
      rw [htgt]
      exact hbaseline
    exact steady_not_added h.watched horder hobs hrule ((hstay _ _ hin).2 htgt).2
  · rintro _ _ ⟨⟩ row hrow hnow
    obtain ⟨hstate, halerts⟩ := hlate row hrow hnow
    exact ⟨hstate, halerts⟩
  rintro _ _ ⟨⟩ alert halert hnew hrule
  obtain ⟨obs, hobs, hbreached, _, htgt, hof, hkey⟩ := hderived.opened alert halert hnew
  rw [← htgt, ← hkey]
  rcases hrule with hmissing | hadded
  · have hrule := hof.trans hmissing
    obtain ⟨row, _, _, _, hagent, _, hnot, _⟩ := mem_missing hobs hrule hbreached
    refine ⟨hnot, fun hin => ?_⟩
    obtain ⟨hdisk, hpre⟩ := (hstay _ _ hin).2 hagent
    exact steady_not_missed h.watched horder hobs hrule hbreached hdisk hpre
  have hrule := hof.trans hadded
  obtain ⟨_, hagent, _, hnot, _⟩ := mem_added hobs hrule
  refine ⟨hnot, fun hin => ?_⟩
  exact steady_not_added h.watched horder hobs hrule ((hstay _ _ hin).2 hagent).2

theorem sample_step (h : Invariant runtime s)
    (horder : InOrder runtime s settings agentId (sampleDisks runtime host)
      (observedBy runtime settings agentId host deployments candidates) evaluatedAt) :
    Invariant runtime ((applyObservations runtime settings s
        (observedBy runtime settings agentId host deployments candidates) evaluatedAt
          [agentId]).watch s.states settings agentId (sampleDisks runtime host)) ∧
      SafeStep s (.sample settings agentId host deployments candidates evaluatedAt)
        ((applyObservations runtime settings s
          (observedBy runtime settings agentId host deployments candidates) evaluatedAt
            [agentId]).watch s.states settings agentId (sampleDisks runtime host)) := by
  refine sample_watch h horder h.consistent.applyObservations
    (derived_applyObservations h.consistent) steady_applyObservations ?_
  intro row hrow hlate
  refine untouched_applyObservations h.consistent hrow hlate ?_
  by_contra hreset
  have hearlier := horder.additions row hrow (eq_true_of_not_eq_false hreset)
  exact absurd hlate (not_le.mpr hearlier)

theorem mem_availability {available : Bool}
    (h : obs ∈ allObservations runtime settings s.states [offlineObservation agentId available] []) :
    obs.ruleType = .hostOffline := by
  simp only [allObservations, append_assoc, mem_append] at h
  rcases h with h | h | h | h
  · rw [mem_singleton.mp h]
    rfl
  · simp [addedObservations, diskObservations, offlineObservation] at h
  · simp [vanishedAdded] at h
  simp [vanishedKnown] at h

section

variable (h : Invariant runtime s)
include h

theorem availability_step {available : Bool}
    (ht : t = applyObservations runtime settings s [offlineObservation agentId available]
      evaluatedAt []) :
    Invariant runtime t ∧ SafeStep s (.availability settings agentId available evaluatedAt) t := by
  subst ht
  have hderived : Derived _ s (applyObservations runtime settings s
      [offlineObservation agentId available] evaluatedAt []) := derived_applyObservations h.consistent
  refine ⟨⟨h.consistent.applyObservations, ?_⟩, ?_, ?_⟩
  · refine h.watched.derived hderived rfl ?_ ?_
    · rw [steady_applyObservations]
      exact h.watched.steady
    intro obs hobs hrule
    rw [mem_availability hobs] at hrule
    cases hrule
  · rintro _ _ ⟨⟩ row hrow hlate
    exact untouched_applyObservations h.consistent hrow hlate (by simp [unconfirmed])
  rintro _ _ ⟨⟩ alert halert hnew hrule
  obtain ⟨obs, hobs, _, _, _, hof, _⟩ := hderived.opened alert halert hnew
  rw [mem_availability hobs] at hof
  rcases hrule with hrule | hrule <;> cases hof.trans hrule

theorem reset_step {now : Time} (hstep : step runtime s (.reset now) = some t) :
    Invariant runtime t ∧ SafeStep s (.reset now) t := by
  cases hstep
  have hnone : ∀ {alert : Alert}, alert ∈ s.alerts.map (Alert.reset now) →
      ∃ old ∈ s.alerts, alert.id = old.id ∧ alert.status ≠ .active := by
    intro alert halert
    obtain ⟨old, hold, rfl⟩ := mem_map.mp halert
    refine ⟨old, hold, rfl, ?_⟩
    simp only [Alert.reset]
    split
    · exact AlertStatus.noConfusion
    case isFalse hactive => exact hactive
  refine ⟨⟨⟨?_, ?_, ?_, ?_, ?_, ?_, ?_, ?_, h.consistent.timely.reset⟩, ?_, ?_⟩, ?_, ?_⟩
  · exact fun _ hrow => nomatch hrow
  · exact fun _ hrow => nomatch hrow
  · intro alert halert
    obtain ⟨old, hold, hid, _⟩ := hnone halert
    exact hid ▸ h.consistent.alertFresh old hold
  · intro alert halert other hother hsame
    obtain ⟨old, hold, rfl⟩ := mem_map.mp halert
    obtain ⟨old', hold', rfl⟩ := mem_map.mp hother
    rw [h.consistent.alertUnique old hold old' hold' hsame]
  · intro alert halert hactive
    obtain ⟨_, _, _, hnot⟩ := hnone halert
    exact absurd hactive hnot
  · exact fun _ hrow => nomatch hrow
  · exact fun _ hrow => nomatch hrow
  · exact fun _ _ => rfl
  · exact fun _ hrow => nomatch hrow
  · exact fun _ hrow => nomatch hrow
  · exact fun _ _ heval => nomatch heval
  exact fun _ _ heval => nomatch heval

theorem stutter_step (action : Action) : Invariant runtime s ∧ SafeStep s action s := by
  refine ⟨h, fun _ _ _ row hrow _ => ⟨hrow, fun _ _ => Iff.rfl⟩, ?_⟩
  intro _ _ _ alert halert hnew
  exact absurd (h.consistent.alertFresh alert halert) (Nat.not_lt.mpr hnew)

theorem safe_step {action : Action}
    (horderly : Orderly runtime s action) (hstep : step runtime s action = some t) :
    Invariant runtime t ∧ SafeStep s action t := by
  cases action with
  | sample settings agentId host deployments candidates collectedAt =>
    simp only [step] at hstep
    split at hstep
    case isTrue henabled =>
      cases hstep
      exact sample_step h (horderly henabled)
    case isFalse =>
      cases hstep
      exact stutter_step h _
  | availability settings agentId available checkedAt =>
    simp only [step] at hstep
    split at hstep
    case isTrue =>
      cases hstep
      exact availability_step h rfl
    case isFalse =>
      cases hstep
      exact stutter_step h _
  | reset now => exact reset_step h hstep

end

theorem invariant_initial (h : (machine runtime).initial s) : Invariant runtime s := by
  obtain ⟨hstates, halerts, hhistory, _⟩ := h
  refine ⟨⟨?_, ?_, ?_, ?_, ?_, ?_, ?_, ?_, ?_⟩, ?_, ?_⟩
  all_goals simp [hstates, halerts, hhistory, timely_nil]

/-- In every run whose samples are in order each state has at most one active alert
and names it, alerts open and recover with the second evaluation in a row, late
observations change nothing, and the disk rules raise no alert for excluded disks
nor for disks that stayed since the baseline. -/
theorem alerts_safe (hs : (machine runtime).ReachableBy (Orderly runtime) s) :
    Safe runtime s ∧ ∀ action t, Orderly runtime s action → step runtime s action = some t →
      SafeStep s action t := by
  have h : Invariant runtime s := hs.invariant (Invariant runtime) (fun _ => invariant_initial)
    (fun _ _ _ horderly h hstep => (safe_step h horderly hstep).1)
  exact ⟨h.consistent.safe, fun action t horderly hstep => (safe_step h horderly hstep).2⟩

section Decide

variable (runtime) (s)

instance (settings : Settings) (agentId : String) (disks : List RuleKey)
    (observations : List Observation) (collectedAt : Time) :
    Decidable (InOrder runtime s settings agentId disks observations collectedAt) :=
  if hadditions : ∀ row ∈ s.states, unconfirmed runtime observations [agentId] row = true →
      row.lastEvaluatedAt < collectedAt then
    if henabled : ∀ row ∈ s.states, row.targetType = .host → row.targetId = agentId →
        row.ruleType = .diskMissing → row.ruleKey ∈ disks →
          row.ruleKey ∉ settings.excludedDisks → settings.diskMissingEnabled = true then
      if hknown : settings.diskMissingEnabled = true → agentId ∈ baselineTargets s.states →
          ∀ key ∈ disks, key ∉ settings.excludedDisks → key ∈ s.steady agentId →
            hasState runtime s.states (missingKey runtime .host agentId key) = true then
        .isTrue ⟨hadditions, henabled, hknown⟩
      else .isFalse (fun h => hknown h.known)
    else .isFalse (fun h => henabled h.enabled)
  else .isFalse (fun h => hadditions h.additions)

instance : DecidablePred (Orderly runtime s)
  | .sample settings _ _ _ _ _ => inferInstanceAs (Decidable (settings.enabled = true → _))
  | .availability _ _ _ _ => inferInstanceAs (Decidable True)
  | .reset _ => inferInstanceAs (Decidable True)

end Decide

def plainRuntime : Runtime RuleKey := ⟨id, fun _ _ heq => heq, id⟩

/-- Only the disk rule is on. -/
def diskRule (on : Bool) : Settings :=
  ⟨true, false, false, 0, false, 0, false, 0, false, 0, false, on, []⟩

def emptyStore : Store RuleKey := ⟨[], [], 0, [], fun _ => []⟩

theorem emptyStore_initial : (machine plainRuntime).initial emptyStore :=
  ⟨rfl, rfl, rfl, fun _ => rfl⟩

def diskAt (path : String) : Disk := ⟨none, path, none⟩

/-- A sample of a host with disks at the paths. -/
def sampleAt (on : Bool) (paths : List String) (collectedAt : Time) : Action :=
  .sample (diskRule on) "" ⟨none, none, [], paths.map diskAt⟩ [] [] collectedAt

/-- A disk is in the first sample and in none after it. -/
def lostDisk : List Action := [sampleAt true ["a"] 1, sampleAt true [] 2, sampleAt true [] 3]

/-- The disk raises an alert, and the next sample without it is in order. -/
theorem alerts_safe_lost_disk : ∃ s t : Store RuleKey,
    s.alerts.map (fun alert => (alert.ruleType, alert.status)) = [(.diskMissing, .active)] ∧
      Safe plainRuntime s ∧ step plainRuntime s (sampleAt true [] 4) = some t ∧
        SafeStep s (sampleAt true [] 4) t := by
  have hrun : ((machine plainRuntime).executeBy (Orderly plainRuntime) emptyStore lostDisk).any
      (fun s => s.alerts.map (fun alert => (alert.ruleType, alert.status)) =
        [(.diskMissing, .active)] && decide (Orderly plainRuntime s (sampleAt true [] 4)) &&
          (step plainRuntime s (sampleAt true [] 4)).isSome) = true := by
    decide +kernel
  obtain ⟨s, hs, hends⟩ := (any_eq_true _ _).mp hrun
  simp only [and_eq_true, decide_eq_true_eq] at hends
  obtain ⟨⟨halerts, horderly⟩, hsome⟩ := hends
  obtain ⟨t, ht⟩ := isSome_iff_exists.mp hsome
  obtain ⟨hsafe, hsteps⟩ :=
    alerts_safe ⟨emptyStore, emptyStore_initial, Machine.path_of_executeBy hs⟩
  exact ⟨s, t, halerts, hsafe, ht, hsteps _ t horderly ht⟩

/-- A disk is new in the second sample. -/
def newDisk : List Action := [sampleAt true ["a"] 1, sampleAt true ["a", "b"] 2]

/-- The rule is turned off while a disk is known. -/
def ruleOff : List Action := [sampleAt true ["a"] 1, sampleAt false ["a"] 2]

/-- The first sample delivered once more takes the new disk's count back, and
without the rule a disk that stayed raises an alert. -/
theorem late_sample_resets : (∃ s t : Store RuleKey, (machine plainRuntime).Reachable s ∧
      step plainRuntime s (sampleAt true ["a"] 1) = some t ∧
        ¬ SafeStep s (sampleAt true ["a"] 1) t) ∧
    ∃ s t : Store RuleKey, (machine plainRuntime).Reachable s ∧
      step plainRuntime s (sampleAt false ["a"] 3) = some t ∧
        ¬ SafeStep s (sampleAt false ["a"] 3) t := by
  refine ⟨?_, ?_⟩
  · have hrun : ((machine plainRuntime).execute emptyStore newDisk).any (fun s =>
        (step plainRuntime s (sampleAt true ["a"] 1)).any (fun t =>
          s.states.any (fun row => 1 ≤ row.lastEvaluatedAt && !t.states.contains row))) = true := by
      decide +kernel
    obtain ⟨s, hs, hnext⟩ := (any_eq_true _ _).mp hrun
    obtain ⟨t, ht, hchanged⟩ := (any_eq_true _ _).mp hnext
    refine ⟨s, t, Machine.reachable_of_execute emptyStore_initial hs, ht, fun hsafe => ?_⟩
    obtain ⟨row, hrow, hrow'⟩ := any_eq_true.mp hchanged
    simp only [and_eq_true, decide_eq_true_eq, not_eq_true', contains_eq_mem,
      decide_eq_false_iff_not] at hrow'
    exact hrow'.2 (hsafe.late _ _ rfl row hrow hrow'.1).state
  have hrun : ((machine plainRuntime).execute emptyStore ruleOff).any (fun s =>
      (step plainRuntime s (sampleAt false ["a"] 3)).any (fun t =>
        t.alerts.any (fun alert => s.nextId ≤ alert.id && alert.ruleType = .diskMissing &&
          (t.steady alert.targetId).contains alert.ruleKey))) = true := by
    decide +kernel
  obtain ⟨s, hs, hnext⟩ := (any_eq_true _ _).mp hrun
  obtain ⟨t, ht, hraised⟩ := (any_eq_true _ _).mp hnext
  refine ⟨s, t, Machine.reachable_of_execute emptyStore_initial hs, ht, fun hsafe => ?_⟩
  obtain ⟨alert, halert, hchecks⟩ := any_eq_true.mp hraised
  simp only [and_eq_true, decide_eq_true_eq, contains_eq_mem] at hchecks
  exact (hsafe.disks _ _ rfl alert halert hchecks.1.1 (.inl hchecks.1.2)).2 hchecks.2

end ImApp.MonitorAlerts
