import ImApp.MonitorAlerts.Consistency

/-!
Runs of samples, availability checks and resets. A sample is in order when it does
not reset an addition that was evaluated later, and when the disk rule and the
exclusions are those the known disks were taken under.
-/

namespace ImApp.MonitorAlerts

open List

variable {H : Type*} [DecidableEq H] {runtime : Runtime H} {s t : Store H} {row : StateRow}
  {settings : Settings} {observations : List Observation} {observed : List String}
  {evaluatedAt : Time}

variable {rows : List StateRow} {history : List (Entry H)}

theorem streak_cleared {key : StateKey H} (h : ∃ row ∈ rows, row.key runtime = key) :
    streak key true (rows.map (fun row => .evaluated (row.key runtime) false) ++ history) = 0 := by
  induction rows with
  | nil =>
    obtain ⟨_, hmem, _⟩ := h
    cases hmem
  | cons first rest ih =>
    by_cases hfirst : first.key runtime = key
    · rw [map_cons, cons_append, hfirst]
      exact streak_broken (by decide)
    rw [map_cons, cons_append, streak_of_ne (Ne.symm hfirst)]
    obtain ⟨row, hrow, hkey⟩ := h
    rcases mem_cons.mp hrow with rfl | hrow
    · exact absurd hkey hfirst
    exact ih ⟨row, hrow, hkey⟩

theorem streak_uncleared {key : StateKey H}
    (h : ∀ row ∈ rows, row.key runtime ≠ key) (breached : Bool) :
    streak key breached (rows.map (fun row => .evaluated (row.key runtime) false) ++ history) =
      streak key breached history := by
  induction rows with
  | nil => rfl
  | cons first rest ih =>
    rw [map_cons, cons_append, streak_of_ne (Ne.symm (h first mem_cons_self))]
    exact ih (fun row hrow => h row (mem_cons_of_mem _ hrow))

theorem timely_cleared (h : Timely history) :
    Timely (rows.map (fun row => .evaluated (row.key runtime) false) ++ history) := by
  induction rows with
  | nil => exact h
  | cons first rest ih => exact ih.evaluated

/-- A row after the first loop: an old one, or the reset of an unconfirmed one. -/
theorem mem_resetUnconfirmed :
    row ∈ (resetUnconfirmed runtime s observations observed evaluatedAt).states ↔
      (row ∈ s.states ∧ unconfirmed runtime observations observed row = false) ∨
        ∃ old ∈ s.states, unconfirmed runtime observations observed old = true ∧ row = { old with
            breachCount := 0, recoveryCount := 0, lastEvaluatedAt := evaluatedAt } := by
  simp only [resetUnconfirmed, mem_map]
  constructor
  · rintro ⟨old, hold, rfl⟩
    split
    case isTrue hreset => exact .inr ⟨old, hold, hreset, rfl⟩
    case isFalse hkeep => exact .inl ⟨hold, Bool.eq_false_iff.mpr hkeep⟩
  rintro (⟨hrow, hkeep⟩ | ⟨old, hold, hreset, rfl⟩)
  · exact ⟨row, hrow, by simp [hkeep]⟩
  exact ⟨old, hold, if_pos hreset⟩

theorem unconfirmed_quiet (h : unconfirmed runtime observations observed row = true) :
    row.activeAlertId = none := by
  simp only [unconfirmed, Bool.and_eq_true, Option.isNone_iff_eq_none] at h
  exact h.1.1.2

theorem Consistent.resetUnconfirmed (h : Consistent runtime s) :
    Consistent runtime (resetUnconfirmed runtime s observations observed evaluatedAt) := by
  have hback : ∀ {r : StateRow},
      r ∈ (MonitorAlerts.resetUnconfirmed runtime s observations observed evaluatedAt).states →
      ∃ old ∈ s.states, r.id = old.id ∧ r.key runtime = old.key runtime ∧
        r.activeAlertId = old.activeAlertId ∧ (r = old ∨ r = { old with
          breachCount := 0, recoveryCount := 0, lastEvaluatedAt := evaluatedAt }) := by
    intro r hr
    rcases mem_resetUnconfirmed.mp hr with ⟨hold, _⟩ | ⟨old, hold, _, rfl⟩
    · exact ⟨r, hold, rfl, rfl, rfl, .inl rfl⟩
    exact ⟨old, hold, rfl, rfl, rfl, .inr rfl⟩
  have hkept : ∀ old ∈ s.states, ∃ r ∈ (MonitorAlerts.resetUnconfirmed runtime s observations
      observed evaluatedAt).states, r.id = old.id ∧ r.key runtime = old.key runtime ∧
        r.activeAlertId = old.activeAlertId := by
    intro old hold
    cases hreset : unconfirmed runtime observations observed old with
    | false => exact ⟨old, mem_resetUnconfirmed.mpr (.inl ⟨hold, hreset⟩), rfl, rfl, rfl⟩
    | true => exact ⟨_, mem_resetUnconfirmed.mpr (.inr ⟨old, hold, hreset, rfl⟩), rfl, rfl, rfl⟩
  refine ⟨?_, ?_, h.alertFresh, h.alertUnique, ?_, ?_, ?_, ?_, timely_cleared h.timely⟩
  · intro first hfirst second hsecond hsame
    obtain ⟨old, hold, hid, hkey, _⟩ := hback hfirst
    obtain ⟨other, hother, hid', hkey', _⟩ := hback hsecond
    rw [hid, hid', hkey, hkey'] at hsame
    obtain rfl := h.unique old hold other hother hsame
    rcases mem_resetUnconfirmed.mp hfirst with ⟨hin, hno⟩ | ⟨found, hfound, hreset, heq⟩ <;>
      rcases mem_resetUnconfirmed.mp hsecond with ⟨hin', hno'⟩ | ⟨found', hfound', hreset', heq'⟩
    · exact h.unique first hin second hin' (.inl (hid.trans hid'.symm))
    · obtain rfl := h.unique first hin found' hfound' (.inl (hid.trans (hid'.symm.trans (by rw [heq']))))
      rw [hreset'] at hno
      cases hno
    · obtain rfl := h.unique second hin' found hfound (.inl (hid'.trans (hid.symm.trans (by rw [heq]))))
      rw [hreset] at hno'
      cases hno'
    have hsame : found.id = found'.id := by
      have hfirst : found.id = first.id := by rw [heq]
      have hsecond : found'.id = second.id := by rw [heq']
      rw [hfirst, hsecond, hid, hid']
    rw [heq, heq', h.unique found hfound found' hfound' (.inl hsame)]
  · intro r hr
    obtain ⟨old, hold, hid, _, hactive, _⟩ := hback hr
    rw [hid, hactive]
    exact h.fresh old hold
  · intro alert halert hstat
    obtain ⟨old, hold, hstate, hnames⟩ := h.named alert halert hstat
    obtain ⟨r, hr, hid, _, hactive⟩ := hkept old hold
    exact ⟨r, hr, hid ▸ hstate, hactive.trans hnames⟩
  · intro r hr alert halert hnames
    obtain ⟨old, hold, hid, _, hactive, _⟩ := hback hr
    rw [hid]
    exact h.owned old hold alert halert (hactive.symm.trans hnames)
  · intro r hr
    rcases mem_resetUnconfirmed.mp hr with ⟨hold, hno⟩ | ⟨old, hold, hreset, rfl⟩
    · have hpre := h.counts r hold
      have hother : ∀ row ∈ s.states.filter (unconfirmed runtime observations observed),
          row.key runtime ≠ r.key runtime := by
        intro row hrow heq
        obtain ⟨hin, hreset⟩ := mem_filter.mp hrow
        obtain rfl := h.unique row hin r hold (.inr heq)
        rw [hreset] at hno
        cases hno
      rw [Counts] at hpre ⊢
      simp only [MonitorAlerts.resetUnconfirmed]
      rw [streak_uncleared hother, streak_uncleared hother]
      exact hpre
    have hquiet := unconfirmed_quiet hreset
    simp only [Counts, hquiet]
    refine ⟨?_, by decide⟩
    exact (streak_cleared ⟨old, mem_filter.mpr ⟨hold, hreset⟩, rfl⟩).symm
  intro key hnone
  have hother : ∀ row ∈ s.states, row.key runtime ≠ key := by
    intro row hrow heq
    obtain ⟨r, hr, _, hkey, _⟩ := hkept row hrow
    exact hnone r hr (hkey.trans heq)
  simp only [MonitorAlerts.resetUnconfirmed]
  rw [streak_uncleared (fun row hrow => hother row (mem_filter.mp hrow).1)]
  exact h.absent key hother

variable {list : List Observation} {pass : Pass H}

theorem foldl_observe (motive : Pass H → Prop) {suppressed : List (StateKey H)} (hstep : ∀ pass obs next, obs ∈ list → motive pass →
      Observed runtime pass obs evaluatedAt next → motive next) (hstart : motive pass) :
    motive (list.foldl (observe runtime suppressed evaluatedAt) pass) := by
  induction list generalizing pass with
  | nil => exact hstart
  | cons obs rest ih =>
    refine ih (fun pass obs next hobs => hstep pass obs next (mem_cons_of_mem _ hobs)) ?_
    exact hstep pass obs _ mem_cons_self hstart observe_cases

theorem Consistent.applyObservations (h : Consistent runtime s) :
    Consistent runtime (applyObservations runtime settings s observations evaluatedAt observed) :=
  foldl_observe (fun pass => Consistent runtime pass.store)
    (fun _ _ _ _ hpass hnext => hpass.observed hnext) h.resetUnconfirmed

/-- The row is as it was, and so are the alerts of its state. -/
structure Untouched (s t : Store H) (row : StateRow) : Prop where
  state : row ∈ t.states
  alerts : ∀ alert, alert.stateId = some row.id → (alert ∈ t.alerts ↔ alert ∈ s.alerts)

theorem Untouched.turn {next : Pass H} {obs : Observation}
    (hconsistent : Consistent runtime pass.store) (h : Untouched s pass.store row)
    (hknown : row.key runtime ∉ pass.unknown) (hlate : evaluatedAt ≤ row.lastEvaluatedAt)
    (hnext : Observed runtime pass obs evaluatedAt next) :
    Untouched s next.store row ∧ row.key runtime ∉ next.unknown := by
  have hother : ∀ touched ∈ pass.store.states,
      (evaluatedAt ≤ touched.lastEvaluatedAt → touched.key runtime ∈ pass.unknown) →
        row.id ≠ touched.id ∧ row.key runtime ≠ touched.key runtime := by
    intro touched htouched hfresh
    have hne : ¬ (row.id = touched.id ∨ row.key runtime = touched.key runtime) := by
      intro hsame
      obtain rfl := hconsistent.unique row h.state touched htouched hsame
      exact hknown (hfresh hlate)
    exact ⟨fun heq => hne (.inl heq), fun heq => hne (.inr heq)⟩
  have hfilter : ∀ key, row.key runtime ∉ pass.unknown.filter (· ≠ key) :=
    fun key hmem => hknown (mem_filter.mp hmem).1
  cases hnext with
  | skipped => exact ⟨h, hknown⟩
  | inserted hnone => exact ⟨⟨mem_append_left _ h.state, h.alerts⟩, hknown⟩
  | unknown touched htouched hkey hfresh =>
    obtain ⟨hid, hne⟩ := hother touched htouched hfresh
    exact ⟨⟨mem_setState.mpr (.inr ⟨h.state, hid⟩), h.alerts⟩,
      fun hmem => (mem_cons.mp hmem).elim hne hknown⟩
  | counted touched after breached htouched hkey hfresh hid =>
    obtain ⟨hne, _⟩ := hother touched htouched hfresh
    exact ⟨⟨mem_setState.mpr (.inr ⟨h.state, hid ▸ hne⟩), h.alerts⟩, hfilter _⟩
  | opened touched htouched hkey hfresh =>
    obtain ⟨hne, _⟩ := hother touched htouched hfresh
    refine ⟨⟨mem_setState.mpr (.inr ⟨h.state, hne⟩), fun alert hstate => ?_⟩, hfilter _⟩
    refine Iff.trans ?_ (h.alerts alert hstate)
    refine ⟨fun hmem => ?_, fun hmem => mem_append_left _ hmem⟩
    rcases mem_append.mp hmem with hmem | hmem
    · exact hmem
    rw [mem_singleton.mp hmem] at hstate
    exact absurd (Option.some.inj hstate).symm hne
  | recovered touched id htouched hkey hfresh hactive =>
    obtain ⟨hne, _⟩ := hother touched htouched hfresh
    refine ⟨⟨mem_setState.mpr (.inr ⟨h.state, hne⟩), fun alert hstate => ?_⟩, hfilter _⟩
    refine Iff.trans ?_ (h.alerts alert hstate)
    have hkeep : ∀ old ∈ pass.store.alerts, old.stateId = some row.id →
        ¬ (old.id = id ∧ old.status = .active) := by
      rintro old hold hof ⟨rfl, _⟩
      have howner := hconsistent.owned touched htouched old hold hactive
      exact hne (Option.some.inj (hof.symm.trans howner))
    constructor
    · intro hmem
      obtain ⟨old, hold, heq⟩ := mem_map.mp hmem
      have hof : old.stateId = some row.id := by
        rw [← hstate, ← heq]
        split <;> rfl
      rw [if_neg (hkeep old hold hof)] at heq
      exact heq ▸ hold
    intro hmem
    exact mem_map.mpr ⟨alert, hmem, if_neg (hkeep alert hmem hstate)⟩

theorem untouched_applyObservations (h : Consistent runtime s) (hrow : row ∈ s.states)
    (hlate : evaluatedAt ≤ row.lastEvaluatedAt)
    (hconfirmed : unconfirmed runtime observations observed row = false) :
    Untouched s (applyObservations runtime settings s observations evaluatedAt observed) row := by
  have hstart : Untouched s (resetUnconfirmed runtime s observations observed evaluatedAt) row :=
    ⟨mem_resetUnconfirmed.mpr (.inl ⟨hrow, hconfirmed⟩), fun _ _ => Iff.rfl⟩
  refine (foldl_observe (fun pass => Consistent runtime pass.store ∧
    Untouched s pass.store row ∧ row.key runtime ∉ pass.unknown) ?_ ?_).2.1
  · intro pass obs next _ hpass hnext
    exact ⟨hpass.1.observed hnext, hpass.2.1.turn hpass.1 hpass.2.2 hlate hnext⟩
  exact ⟨h.resetUnconfirmed, hstart, not_mem_nil⟩

/-- The observation is of the rule, target and key. -/
def Observation.Of (obs : Observation) (targetType : TargetType) (targetId : String)
    (ruleType : RuleType) (ruleKey : RuleKey) : Prop :=
  obs.targetType = targetType ∧ obs.targetId = targetId ∧ obs.ruleType = ruleType ∧
    obs.ruleKey = ruleKey

/-- `row` is a state of `states`, whatever its counters. -/
def StateRow.SameAs (row old : StateRow) : Prop :=
  row.targetType = old.targetType ∧ row.targetId = old.targetId ∧ row.ruleType = old.ruleType ∧
    row.ruleKey = old.ruleKey

/-- What the loop made of the rows and alerts it started with. -/
structure Derived (list : List Observation) (s t : Store H) : Prop where
  next : s.nextId ≤ t.nextId
  opened : ∀ alert ∈ t.alerts, s.nextId ≤ alert.id → ∃ obs ∈ list, obs.breached = some true ∧
    obs.Of alert.targetType alert.targetId alert.ruleType alert.ruleKey
  states : ∀ row ∈ t.states, (∃ old ∈ s.states, row.SameAs old) ∨
    ∃ obs ∈ list, obs.Of row.targetType row.targetId row.ruleType row.ruleKey
  kept : ∀ old ∈ s.states, ∃ row ∈ t.states, row.SameAs old

omit [DecidableEq H] in
theorem sameAs_of_key {other : StateRow} (h : row.key runtime = other.key runtime) :
    row.SameAs other := by
  obtain ⟨htype, htgt, hrule, hhash⟩ := StateKey.mk.inj h
  exact ⟨htype, htgt, hrule, runtime.hash_injective hhash⟩

theorem StateRow.SameAs.trans {first second third : StateRow} (h : first.SameAs second)
    (h' : second.SameAs third) : first.SameAs third :=
  ⟨h.1.trans h'.1, h.2.1.trans h'.2.1, h.2.2.1.trans h'.2.2.1, h.2.2.2.trans h'.2.2.2⟩

theorem Derived.write {u : Store H} {after : StateRow}
    (h : Derived list s t) (hconsistent : Consistent runtime t) (hrow : row ∈ t.states)
    (hstates : u.states = (t.setState after).states) (hid : after.id = row.id)
    (hkey : after.key runtime = row.key runtime) (hnext : t.nextId ≤ u.nextId)
    (hopened : ∀ alert ∈ u.alerts, s.nextId ≤ alert.id → ∃ obs ∈ list, obs.breached = some true ∧
        obs.Of alert.targetType alert.targetId alert.ruleType alert.ruleKey) :
    Derived list s u := by
  have hsame : after.SameAs row := sameAs_of_key hkey
  refine ⟨h.next.trans hnext, hopened, ?_, ?_⟩
  · intro r hr
    rw [hstates, mem_setState] at hr
    rcases hr with ⟨rfl, _⟩ | ⟨hr, _⟩
    · rcases h.states row hrow with ⟨old, hold, hold'⟩ | ⟨obs, hobs, hof⟩
      · exact .inl ⟨old, hold, hsame.trans hold'⟩
      refine .inr ⟨obs, hobs, ?_⟩
      obtain ⟨htype, htgt, hrule, hrulekey⟩ := hsame
      rw [htype, htgt, hrule, hrulekey]
      exact hof
    exact h.states r hr
  intro old hold
  obtain ⟨r, hr, hrsame⟩ := h.kept old hold
  by_cases hrid : r.id = after.id
  · obtain rfl := hconsistent.unique r hr row hrow (.inl (hrid.trans hid))
    refine ⟨after, ?_, hsame.trans hrsame⟩
    rw [hstates, mem_setState]
    exact .inl ⟨rfl, r, hr, hid.symm⟩
  refine ⟨r, ?_, hrsame⟩
  rw [hstates, mem_setState]
  exact .inr ⟨hr, hrid⟩

theorem Derived.turn {next : Pass H} {obs : Observation}
    (h : Derived list s pass.store) (hconsistent : Consistent runtime pass.store)
    (hobs : obs ∈ list) (hnext : Observed runtime pass obs evaluatedAt next) :
    Derived list s next.store := by
  cases hnext with
  | skipped => exact h
  | inserted hnone =>
    refine ⟨h.next.trans (Nat.le_succ _), h.opened, ?_, ?_⟩
    · intro r hr
      rcases mem_append.mp hr with hr | hr
      · exact h.states r hr
      rw [mem_singleton.mp hr]
      exact .inr ⟨obs, hobs, rfl, rfl, rfl, rfl⟩
    intro old hold
    obtain ⟨r, hr, hsame⟩ := h.kept old hold
    exact ⟨r, mem_append_left _ hr, hsame⟩
  | unknown row hrow => exact h.write hconsistent hrow rfl rfl rfl (Nat.le_refl _) h.opened
  | counted row after breached hrow hkey hfresh hid hsame =>
    exact h.write hconsistent hrow rfl hid hsame (Nat.le_refl _) h.opened
  | opened row hrow hkey hfresh hbreached =>
    refine h.write hconsistent hrow rfl rfl rfl (Nat.le_succ _) ?_
    intro alert halert hnew
    rcases mem_append.mp halert with halert | halert
    · exact h.opened alert halert hnew
    rw [mem_singleton.mp halert]
    exact ⟨obs, hobs, hbreached, rfl, rfl, rfl, rfl⟩
  | recovered row id hrow hkey hfresh hactive =>
    refine h.write hconsistent hrow rfl rfl rfl (Nat.le_refl _) ?_
    intro alert halert hnew
    obtain ⟨old, hold, rfl⟩ := mem_map.mp halert
    have hpre := h.opened old hold
    split at hnew
    case isTrue hends =>
      rw [if_pos hends]
      exact hpre hnew
    case isFalse hends =>
      rw [if_neg hends]
      exact hpre hnew

theorem derived_applyObservations (h : Consistent runtime s) :
    Derived (allObservations runtime settings s.states observations observed) s
      (applyObservations runtime settings s observations evaluatedAt observed) := by
  refine (foldl_observe (fun pass => Consistent runtime pass.store ∧
    Derived (allObservations runtime settings s.states observations observed) s pass.store) ?_ ?_).2
  · intro pass obs next hobs hpass hnext
    exact ⟨hpass.1.observed hnext, hpass.2.turn hpass.1 hobs hnext⟩
  refine ⟨h.resetUnconfirmed, Nat.le_refl _, ?_, ?_, ?_⟩
  · intro alert halert hnew
    exact absurd (h.alertFresh alert halert) (Nat.not_lt.mpr hnew)
  · intro r hr
    rcases mem_resetUnconfirmed.mp hr with ⟨hold, _⟩ | ⟨old, hold, _, rfl⟩
    · exact .inl ⟨r, hold, rfl, rfl, rfl, rfl⟩
    exact .inl ⟨old, hold, rfl, rfl, rfl, rfl⟩
  intro old hold
  cases hreset : unconfirmed runtime observations observed old with
  | false =>
    exact ⟨old, mem_resetUnconfirmed.mpr (.inl ⟨hold, hreset⟩), rfl, rfl, rfl, rfl⟩
  | true =>
    exact ⟨_, mem_resetUnconfirmed.mpr (.inr ⟨old, hold, hreset, rfl⟩), rfl, rfl, rfl, rfl⟩

/-- The known states of the disks of the sample, and the additions it resets. -/
structure InOrder (runtime : Runtime H) (s : Store H) (settings : Settings) (agentId : String)
    (disks : List RuleKey) (observations : List Observation) (collectedAt : Time) : Prop where
  additions : ∀ row ∈ s.states, unconfirmed runtime observations [agentId] row = true →
    row.lastEvaluatedAt < collectedAt
  enabled : ∀ row ∈ s.states, row.targetType = .host → row.targetId = agentId →
    row.ruleType = .diskMissing → row.ruleKey ∈ disks → row.ruleKey ∉ settings.excludedDisks →
      settings.diskMissingEnabled = true
  known : settings.diskMissingEnabled = true → agentId ∈ baselineTargets s.states →
    ∀ key ∈ disks, key ∉ settings.excludedDisks → key ∈ s.steady agentId →
      hasState runtime s.states (missingKey runtime .host agentId key) = true

def Orderly (runtime : Runtime H) (s : Store H) : Action → Prop
  | .sample settings agentId host deployments candidates collectedAt =>
    settings.enabled = true → InOrder runtime s settings agentId
      (host.disks.map (monitorDiskKey runtime.trim))
      (sampleObservations runtime settings agentId host deployments candidates) collectedAt
  | _ => True

/-- No addition is noted of a disk that stayed, nor before there is a baseline. -/
structure Watched (s : Store H) : Prop where
  steady : ∀ row ∈ s.states, row.ruleType = .diskAdded → row.ruleKey ∉ s.steady row.targetId
  baseline : ∀ row ∈ s.states, row.ruleType = .diskAdded → row.targetId ∈ baselineTargets s.states

omit [DecidableEq H] in
theorem mem_baselineTargets {states : List StateRow} {target : String} :
    target ∈ baselineTargets states ↔ ∃ row ∈ states, row.ruleType = .diskMissing ∧
      row.ruleKey = .diskBaseline ∧ row.targetId = target := by
  simp only [baselineTargets, mem_map, mem_filter, Bool.and_eq_true, decide_eq_true_eq]
  constructor
  · rintro ⟨row, ⟨hrow, hrule, hkey⟩, htgt⟩
    exact ⟨row, hrow, hrule, hkey, htgt⟩
  rintro ⟨row, hrow, hrule, hkey, htgt⟩
  exact ⟨row, ⟨hrow, hrule, hkey⟩, htgt⟩

end ImApp.MonitorAlerts
