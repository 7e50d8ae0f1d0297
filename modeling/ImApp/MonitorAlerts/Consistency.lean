import ImApp.MonitorAlerts.Evaluation

/-!
What every evaluation keeps: the alert that is active is the one its state names,
and the counters of a state are the runs of equal evaluations in the history.
-/

namespace ImApp.MonitorAlerts

open List

variable {H : Type*} [DecidableEq H] {runtime : Runtime H} {s t : Store H} {row after : StateRow}

/-- How many evaluations of the state came out so since one that did not. -/
def streak (key : StateKey H) (breached : Bool) : List (Entry H) → Nat
  | [] => 0
  | .evaluated other result :: rest =>
    if other = key then (if result = breached then streak key breached rest + 1 else 0)
    else streak key breached rest
  | .opened _ _ :: rest => streak key breached rest
  | .recovered _ _ :: rest => streak key breached rest
  | .reset :: _ => 0

/-- An alert is opened by the second breached evaluation in a row and recovered by
the second one that is not. -/
structure Timely (history : List (Entry H)) : Prop where
  opened : ∀ later earlier key alert, history = later ++ .opened key alert :: earlier →
    streak key true earlier = consecutiveSamples
  recovered : ∀ later earlier key alert, history = later ++ .recovered key alert :: earlier →
    streak key false earlier = consecutiveSamples

/-- The counter of a state that is in use follows the history. -/
def Counts (runtime : Runtime H) (history : List (Entry H)) (row : StateRow) : Prop :=
  match row.activeAlertId with
  | none => row.breachCount = streak (row.key runtime) true history ∧
      row.breachCount < consecutiveSamples
  | some _ => row.recoveryCount = streak (row.key runtime) false history ∧
      row.recoveryCount < consecutiveSamples

structure Consistent (runtime : Runtime H) (s : Store H) : Prop where
  unique : ∀ row ∈ s.states, ∀ other ∈ s.states,
    row.id = other.id ∨ row.key runtime = other.key runtime → row = other
  fresh : ∀ row ∈ s.states, row.id < s.nextId ∧ ∀ id, row.activeAlertId = some id → id < s.nextId
  alertFresh : ∀ alert ∈ s.alerts, alert.id < s.nextId
  alertUnique : ∀ alert ∈ s.alerts, ∀ other ∈ s.alerts, alert.id = other.id → alert = other
  named : ∀ alert ∈ s.alerts, alert.status = .active →
    ∃ row ∈ s.states, alert.stateId = some row.id ∧ row.activeAlertId = some alert.id
  owned : ∀ row ∈ s.states, ∀ alert ∈ s.alerts, row.activeAlertId = some alert.id →
    alert.stateId = some row.id
  counts : ∀ row ∈ s.states, Counts runtime s.history row
  absent : ∀ key, (∀ row ∈ s.states, row.key runtime ≠ key) → streak key true s.history = 0
  timely : Timely s.history

section History

variable {key other : StateKey H} {breached result : Bool} {history : List (Entry H)} {id : Nat}

@[simp] theorem streak_nil : streak key breached [] = 0 := rfl

@[simp] theorem streak_opened :
    streak key breached (.opened other id :: history) = streak key breached history := rfl

@[simp] theorem streak_recovered :
    streak key breached (.recovered other id :: history) = streak key breached history := rfl

@[simp] theorem streak_reset : streak key breached (.reset :: history) = 0 := rfl

@[simp] theorem streak_same :
    streak key breached (.evaluated key breached :: history) = streak key breached history + 1 := by
  simp [streak]

theorem streak_broken (hne : result ≠ breached) :
    streak key breached (.evaluated key result :: history) = 0 := by
  simp [streak, hne]

theorem streak_of_ne (hne : key ≠ other) :
    streak key breached (.evaluated other result :: history) = streak key breached history := by
  simp [streak, hne.symm]

theorem timely_nil : Timely ([] : List (Entry H)) := by
  refine ⟨?_, ?_⟩
  · intro later earlier key alert heq
    cases later <;> cases heq
  intro later earlier key alert heq
  cases later <;> cases heq

theorem Timely.cons (h : Timely history) {entry : Entry H}
    (hopened : ∀ key alert, entry = .opened key alert →
      streak key true history = consecutiveSamples)
    (hrecovered : ∀ key alert, entry = .recovered key alert →
      streak key false history = consecutiveSamples) : Timely (entry :: history) := by
  refine ⟨?_, ?_⟩
  · intro later earlier key alert heq
    cases later with
    | nil =>
      cases heq
      exact hopened key alert rfl
    | cons first rest => exact h.opened rest earlier key alert (List.cons.inj heq).2
  intro later earlier key alert heq
  cases later with
  | nil =>
    cases heq
    exact hrecovered key alert rfl
  | cons first rest => exact h.recovered rest earlier key alert (List.cons.inj heq).2

theorem Timely.evaluated (h : Timely history) : Timely (.evaluated key result :: history) :=
  h.cons (fun _ _ heq => nomatch heq) (fun _ _ heq => nomatch heq)

theorem Timely.reset (h : Timely history) : Timely (.reset :: history) :=
  h.cons (fun _ _ heq => nomatch heq) (fun _ _ heq => nomatch heq)

end History

omit [DecidableEq H] in
theorem mem_setState {row' : StateRow} : row ∈ (s.setState row').states ↔
    (row = row' ∧ ∃ old ∈ s.states, old.id = row'.id) ∨ (row ∈ s.states ∧ row.id ≠ row'.id) := by
  simp only [Store.setState, mem_map]
  constructor
  · rintro ⟨old, hold, heq⟩
    split at heq
    case isTrue hid => exact .inl ⟨heq.symm, old, hold, hid⟩
    case isFalse hid =>
      subst heq
      exact .inr ⟨hold, hid⟩
  rintro (⟨rfl, old, hold, hid⟩ | ⟨hrow, hid⟩)
  · exact ⟨old, hold, if_pos hid⟩
  exact ⟨row, hrow, if_neg hid⟩

/-- What a write of one row has to keep of the alerts. -/
structure AlertsKept (s t : Store H) (row after : StateRow) : Prop where
  next : s.nextId ≤ t.nextId
  fresh : ∀ alert ∈ t.alerts, alert.id < t.nextId
  unique : ∀ alert ∈ t.alerts, ∀ other ∈ t.alerts, alert.id = other.id → alert = other
  named : ∀ alert ∈ t.alerts, alert.status = .active →
    (alert ∈ s.alerts ∧ alert.stateId ≠ some row.id) ∨
      (alert.stateId = some row.id ∧ after.activeAlertId = some alert.id)
  owned : ∀ other ∈ s.states, ∀ alert ∈ t.alerts, other.activeAlertId = some alert.id →
    alert.stateId = some other.id
  owner : ∀ alert ∈ t.alerts, after.activeAlertId = some alert.id → alert.stateId = some row.id
  active : ∀ id, after.activeAlertId = some id → id < t.nextId

theorem AlertsKept.same (h : Consistent runtime s) (hrow : row ∈ s.states)
    (halerts : t.alerts = s.alerts) (hnext : t.nextId = s.nextId)
    (hactive : after.activeAlertId = row.activeAlertId) : AlertsKept s t row after := by
  refine ⟨hnext.ge, ?_, ?_, ?_, ?_, ?_, ?_⟩
  · rw [halerts, hnext]
    exact h.alertFresh
  · rw [halerts]
    exact h.alertUnique
  · intro alert halert hstat
    rw [halerts] at halert
    by_cases hid : alert.stateId = some row.id
    · obtain ⟨other, hother, hstate, hnames⟩ := h.named alert halert hstat
      have hsame : other.id = row.id := Option.some.inj (hstate.symm.trans hid)
      obtain rfl := h.unique other hother row hrow (.inl hsame)
      exact .inr ⟨hid, hactive.trans hnames⟩
    exact .inl ⟨halert, hid⟩
  · rw [halerts]
    exact h.owned
  · rw [halerts, hactive]
    exact h.owned row hrow
  rw [hactive, hnext]
  exact (h.fresh row hrow).2

theorem Consistent.write (h : Consistent runtime s) (hrow : row ∈ s.states)
    (halerts : AlertsKept s t row after) (hid : after.id = row.id)
    (hkey : after.key runtime = row.key runtime) (hstates : t.states = (s.setState after).states)
    (hothers : ∀ key ≠ row.key runtime, ∀ breached,
      streak key breached t.history = streak key breached s.history)
    (hcounts : Counts runtime t.history after) (htimely : Timely t.history) :
    Consistent runtime t := by
  have hmem : ∀ {r : StateRow}, r ∈ t.states → r = after ∨ (r ∈ s.states ∧ r.id ≠ row.id) := by
    intro r hr
    rw [hstates, mem_setState] at hr
    rw [← hid]
    exact hr.imp_left And.left
  have hafter : after ∈ t.states := by
    rw [hstates, mem_setState]
    exact .inl ⟨rfl, row, hrow, hid.symm⟩
  have hold : ∀ {r : StateRow}, r ∈ s.states → r.id ≠ row.id → r ∈ t.states := by
    intro r hr hne
    rw [hstates, mem_setState]
    exact .inr ⟨hr, hid ▸ hne⟩
  refine ⟨?_, ?_, halerts.fresh, halerts.unique, ?_, ?_, ?_, ?_, htimely⟩
  · intro first hfirst second hsecond hsame
    rcases hmem hfirst with rfl | ⟨hfirst, hne⟩ <;> rcases hmem hsecond with rfl | ⟨hsecond, hne'⟩
    · rfl
    · rw [hid, hkey] at hsame
      exact absurd (congrArg StateRow.id (h.unique row hrow second hsecond hsame)).symm hne'
    · rw [hid, hkey] at hsame
      exact absurd (congrArg StateRow.id (h.unique first hfirst row hrow hsame)) hne
    exact h.unique first hfirst second hsecond hsame
  · intro r hr
    rcases hmem hr with rfl | ⟨hr, _⟩
    · exact ⟨hid ▸ (h.fresh row hrow).1.trans_le halerts.next, halerts.active⟩
    obtain ⟨hlt, hactive⟩ := h.fresh r hr
    exact ⟨hlt.trans_le halerts.next, fun id heq => (hactive id heq).trans_le halerts.next⟩
  · intro alert halert hstat
    rcases halerts.named alert halert hstat with ⟨hpre, hne⟩ | ⟨hstate, hnames⟩
    · obtain ⟨other, hother, hstate, hnames⟩ := h.named alert hpre hstat
      refine ⟨other, hold hother ?_, hstate, hnames⟩
      intro heq
      exact hne (heq ▸ hstate)
    exact ⟨after, hafter, hid ▸ hstate, hnames⟩
  · intro r hr alert halert hnames
    rcases hmem hr with rfl | ⟨hr, _⟩
    · rw [hid]
      exact halerts.owner alert halert hnames
    exact halerts.owned r hr alert halert hnames
  · intro r hr
    rcases hmem hr with rfl | ⟨hr, hne⟩
    · exact hcounts
    have hother : r.key runtime ≠ row.key runtime := by
      intro heq
      exact hne (congrArg StateRow.id (h.unique r hr row hrow (.inr heq)))
    have hpre := h.counts r hr
    rw [Counts] at hpre ⊢
    rw [hothers _ hother, hothers _ hother]
    exact hpre
  intro key hnone
  have hne : key ≠ row.key runtime := fun heq => hnone after hafter (hkey.trans heq.symm)
  rw [hothers key hne]
  refine h.absent key ?_
  intro r hr heq
  by_cases hsame : r.id = row.id
  · obtain rfl := h.unique r hr row hrow (.inl hsame)
    exact hne heq.symm
  exact hnone r (hold hr hsame) heq

variable {pass next : Pass H} {obs : Observation} {evaluatedAt : Time}
  {suppressed : List (StateKey H)}

theorem findState_some {states : List StateRow} {key : StateKey H}
    (h : findState runtime states key = some row) : row ∈ states ∧ row.key runtime = key := by
  rw [findState] at h
  exact ⟨mem_of_find?_eq_some h, by simpa using find?_some h⟩

theorem findState_none {states : List StateRow} {key : StateKey H} :
    findState runtime states key = none ↔ ∀ row ∈ states, row.key runtime ≠ key := by
  simp [findState]

theorem hasState_iff {states : List StateRow} {key : StateKey H} :
    hasState runtime states key = true ↔ ∃ row ∈ states, row.key runtime = key := by
  rw [hasState, Option.isSome_iff_ne_none, Ne, findState_none]
  push Not
  rfl

/-- What one turn of the loop does. `hfresh` is the guard on the timestamp. -/
inductive Observed (runtime : Runtime H) (pass : Pass H) (obs : Observation)
    (evaluatedAt : Time) : Pass H → Prop
  | skipped : Observed runtime pass obs evaluatedAt pass
  | inserted (hnone : ∀ row ∈ pass.store.states, row.key runtime ≠ obs.key runtime) :
      Observed runtime pass obs evaluatedAt (insertState runtime pass obs evaluatedAt)
  | unknown (row : StateRow) (hrow : row ∈ pass.store.states)
      (hkey : row.key runtime = obs.key runtime)
      (hfresh : evaluatedAt ≤ row.lastEvaluatedAt → row.key runtime ∈ pass.unknown) :
      Observed runtime pass obs evaluatedAt
        ⟨pass.store.setState { row with lastEvaluatedAt := evaluatedAt },
          row.key runtime :: pass.unknown⟩
  | counted (row after : StateRow) (breached : Bool) (hrow : row ∈ pass.store.states)
      (hkey : row.key runtime = obs.key runtime)
      (hfresh : evaluatedAt ≤ row.lastEvaluatedAt → row.key runtime ∈ pass.unknown)
      (hid : after.id = row.id) (hsame : after.key runtime = row.key runtime)
      (hrule : after.ruleType = row.ruleType ∧ after.targetId = row.targetId ∧
        after.ruleKey = row.ruleKey)
      (hactive : after.activeAlertId = row.activeAlertId)
      (hcounts : ∀ history, Counts runtime history row →
        Counts runtime (.evaluated (row.key runtime) breached :: history) after) :
      Observed runtime pass obs evaluatedAt
        ((pass.write runtime after).note [.evaluated (row.key runtime) breached])
  | opened (row : StateRow) (hrow : row ∈ pass.store.states)
      (hkey : row.key runtime = obs.key runtime)
      (hfresh : evaluatedAt ≤ row.lastEvaluatedAt → row.key runtime ∈ pass.unknown)
      (hbreached : obs.breached = some true) (hquiet : row.activeAlertId = none)
      (hcount : consecutiveSamples ≤ row.breachCount + 1) :
      Observed runtime pass obs evaluatedAt (openAlert runtime pass { row with
        breachCount := row.breachCount + 1, recoveryCount := 0,
        lastEvaluatedAt := evaluatedAt } obs evaluatedAt)
  | recovered (row : StateRow) (id : Nat) (hrow : row ∈ pass.store.states)
      (hkey : row.key runtime = obs.key runtime)
      (hfresh : evaluatedAt ≤ row.lastEvaluatedAt → row.key runtime ∈ pass.unknown)
      (hactive : row.activeAlertId = some id)
      (hcount : consecutiveSamples ≤ row.recoveryCount + 1) :
      Observed runtime pass obs evaluatedAt (recoverAlert runtime pass { row with
        breachCount := 0, recoveryCount := row.recoveryCount + 1,
        lastEvaluatedAt := evaluatedAt } id evaluatedAt)

theorem breach_cases (hrow : row ∈ pass.store.states) (hkey : row.key runtime = obs.key runtime)
    (hfresh : evaluatedAt ≤ row.lastEvaluatedAt → row.key runtime ∈ pass.unknown)
    (hbreached : obs.breached = some true) :
    Observed runtime pass obs evaluatedAt (breach runtime pass row obs evaluatedAt) := by
  cases hactive : row.activeAlertId with
  | some id =>
    simp only [breach, hactive]
    refine .counted row _ true hrow hkey hfresh rfl rfl ⟨rfl, rfl, rfl⟩ hactive.symm ?_
    intro history _
    simp only [Counts]
    exact ⟨(streak_broken (by decide)).symm, by decide⟩
  | none =>
    simp only [breach, hactive]
    split
    case isTrue hcount => exact .opened row hrow hkey hfresh hbreached hactive hcount
    case isFalse hcount =>
      refine .counted row _ true hrow hkey hfresh rfl rfl ⟨rfl, rfl, rfl⟩ hactive.symm ?_
      intro history hpre
      simp only [Counts, hactive] at hpre ⊢
      refine ⟨?_, Nat.lt_of_not_le hcount⟩
      rw [hpre.1]
      exact streak_same.symm

theorem clearBreach_cases (hrow : row ∈ pass.store.states)
    (hkey : row.key runtime = obs.key runtime)
    (hfresh : evaluatedAt ≤ row.lastEvaluatedAt → row.key runtime ∈ pass.unknown) :
    Observed runtime pass obs evaluatedAt (clearBreach runtime pass row evaluatedAt) := by
  cases hactive : row.activeAlertId with
  | none =>
    simp only [clearBreach, hactive]
    refine .counted row _ false hrow hkey hfresh rfl rfl ⟨rfl, rfl, rfl⟩ hactive.symm ?_
    intro history _
    simp only [Counts]
    exact ⟨(streak_broken (by decide)).symm, by decide⟩
  | some id =>
    simp only [clearBreach, hactive]
    split
    case isTrue hcount => exact .recovered row id hrow hkey hfresh hactive hcount
    case isFalse hcount =>
      refine .counted row _ false hrow hkey hfresh rfl rfl ⟨rfl, rfl, rfl⟩ hactive.symm ?_
      intro history hpre
      simp only [Counts, hactive] at hpre ⊢
      refine ⟨?_, Nat.lt_of_not_le hcount⟩
      rw [hpre.1]
      exact streak_same.symm

theorem observe_cases : Observed runtime pass obs evaluatedAt
    (observe runtime suppressed evaluatedAt pass obs) := by
  rw [observe]
  split
  · exact .skipped
  cases hfind : findState runtime pass.store.states (obs.key runtime) with
  | none => exact .inserted (findState_none.mp hfind)
  | some row =>
    obtain ⟨hrow, hkey⟩ := findState_some hfind
    simp only
    split
    · exact .skipped
    case isFalse hguard =>
      have hfresh : evaluatedAt ≤ row.lastEvaluatedAt → row.key runtime ∈ pass.unknown := by
        intro hle
        by_contra hnot
        exact hguard ⟨hle, hnot⟩
      cases hbreached : obs.breached with
      | none => exact .unknown row hrow hkey hfresh
      | some breached =>
        cases breached with
        | true => exact breach_cases hrow hkey hfresh hbreached
        | false => exact clearBreach_cases hrow hkey hfresh

section

variable (h : Consistent runtime pass.store)
include h

theorem Consistent.unknown (hrow : row ∈ pass.store.states) :
    Consistent runtime (pass.store.setState { row with lastEvaluatedAt := evaluatedAt }) := by
  have halerts : AlertsKept pass.store
      (pass.store.setState { row with lastEvaluatedAt := evaluatedAt }) row
      { row with lastEvaluatedAt := evaluatedAt } := .same h hrow rfl rfl rfl
  exact h.write hrow halerts rfl rfl rfl (fun _ _ _ => rfl) (h.counts row hrow) h.timely

section

variable (hnone : ∀ row ∈ pass.store.states, row.key runtime ≠ obs.key runtime)
include hnone

theorem counts_inserted :
    Counts runtime (obs.breached.toList.map (.evaluated (obs.key runtime)) ++ pass.store.history)
      ⟨pass.store.nextId, obs.targetType, obs.targetId, obs.ruleType, obs.ruleKey,
        if obs.breached = some true then 1 else 0, 0, none, evaluatedAt⟩ := by
  have habsent := h.absent _ hnone
  cases hbreached : obs.breached with
  | none => exact ⟨habsent.symm, Nat.two_pos⟩
  | some breached =>
    cases breached with
    | true =>
      refine ⟨?_, Nat.one_lt_two⟩
      have hstreak : streak (obs.key runtime) true
          (.evaluated (obs.key runtime) true :: pass.store.history) = 0 + 1 :=
        habsent ▸ streak_same
      exact hstreak.symm
    | false => exact ⟨(streak_broken (by decide)).symm, Nat.two_pos⟩

theorem Consistent.inserted :
    Consistent runtime (insertState runtime pass obs evaluatedAt).store := by
  have hmem : ∀ {r : StateRow}, r ∈ (insertState runtime pass obs evaluatedAt).store.states →
      r ∈ pass.store.states ∨ (r.id = pass.store.nextId ∧ r.key runtime = obs.key runtime ∧
        r.activeAlertId = none ∧ Counts runtime
          (insertState runtime pass obs evaluatedAt).store.history r) := by
    intro r hr
    rcases mem_append.mp hr with hr | hr
    · exact .inl hr
    obtain rfl := mem_singleton.mp hr
    exact .inr ⟨rfl, rfl, rfl, counts_inserted h hnone⟩
  have hothers : ∀ key ≠ obs.key runtime, ∀ breached, streak key breached
      (insertState runtime pass obs evaluatedAt).store.history =
        streak key breached pass.store.history := by
    intro key hne breached
    change streak key breached
      (obs.breached.toList.map (.evaluated (obs.key runtime)) ++ pass.store.history) = _
    cases obs.breached with
    | none => rfl
    | some result => exact streak_of_ne hne
  refine ⟨?_, ?_, ?_, h.alertUnique, ?_, ?_, ?_, ?_, ?_⟩
  · intro first hfirst second hsecond hsame
    rcases hmem hfirst with hfirst | ⟨hid, hkey, _⟩ <;>
      rcases hmem hsecond with hsecond | ⟨hid', hkey', _⟩
    · exact h.unique first hfirst second hsecond hsame
    · rw [hid', hkey'] at hsame
      rcases hsame with hsame | hsame
      · exact absurd hsame (h.fresh first hfirst).1.ne
      exact absurd hsame (hnone first hfirst)
    · rw [hid, hkey] at hsame
      rcases hsame with hsame | hsame
      · exact absurd hsame.symm (h.fresh second hsecond).1.ne
      exact absurd hsame.symm (hnone second hsecond)
    rcases mem_append.mp hfirst with hold | hnew
    · exact absurd hid (h.fresh first hold).1.ne
    rcases mem_append.mp hsecond with hold | hnew'
    · exact absurd hid' (h.fresh second hold).1.ne
    rw [mem_singleton.mp hnew, mem_singleton.mp hnew']
  · intro r hr
    rcases hmem hr with hr | ⟨hid, _, hactive, _⟩
    · obtain ⟨hlt, hids⟩ := h.fresh r hr
      exact ⟨hlt.trans (Nat.lt_succ_self _), fun id heq => (hids id heq).trans (Nat.lt_succ_self _)⟩
    refine ⟨hid ▸ Nat.lt_succ_self _, fun id heq => ?_⟩
    cases hactive.symm.trans heq
  · exact fun alert halert => (h.alertFresh alert halert).trans (Nat.lt_succ_self _)
  · intro alert halert hstat
    obtain ⟨r, hr, hnames⟩ := h.named alert halert hstat
    exact ⟨r, mem_append_left _ hr, hnames⟩
  · intro r hr alert halert hnames
    rcases hmem hr with hr | ⟨_, _, hactive, _⟩
    · exact h.owned r hr alert halert hnames
    cases hactive.symm.trans hnames
  · intro r hr
    rcases hmem hr with hr | ⟨_, _, _, hcounts⟩
    · have hpre := h.counts r hr
      rw [Counts] at hpre ⊢
      rw [hothers _ (hnone r hr), hothers _ (hnone r hr)]
      exact hpre
    exact hcounts
  · intro key habsent
    have hne : key ≠ obs.key runtime := fun heq =>
      habsent _ (mem_append_right _ mem_cons_self) heq.symm
    rw [hothers key hne]
    exact h.absent key (fun r hr => habsent r (mem_append_left _ hr))
  change Timely (obs.breached.toList.map (.evaluated (obs.key runtime)) ++ pass.store.history)
  cases obs.breached with
  | none => exact h.timely
  | some result => exact h.timely.evaluated

end

/-- The second breached evaluation in a row opens an alert that the state names. -/
theorem Consistent.opened (hrow : row ∈ pass.store.states)
    (hid : after.id = row.id) (hkey : after.key runtime = row.key runtime)
    (hquiet : row.activeAlertId = none) (hrecovery : after.recoveryCount = 0)
    (hcount : consecutiveSamples ≤ row.breachCount + 1) :
    Consistent runtime (openAlert runtime pass after obs evaluatedAt).store := by
  have hpre := h.counts row hrow
  rw [Counts, hquiet] at hpre
  have hstreak : streak (row.key runtime) true
      (.evaluated (row.key runtime) true :: pass.store.history) = consecutiveSamples := by
    rw [streak_same, ← hpre.1]
    exact Nat.le_antisymm hpre.2 hcount
  have hold : ∀ alert ∈ pass.store.alerts, alert.id ≠ pass.store.nextId :=
    fun alert halert => (h.alertFresh alert halert).ne
  have hmem : ∀ {alert : Alert}, alert ∈ (openAlert runtime pass after obs evaluatedAt).store.alerts →
      alert ∈ pass.store.alerts ∨ (alert.id = pass.store.nextId ∧ alert.stateId = some row.id) := by
    intro alert halert
    rcases mem_append.mp halert with halert | halert
    · exact .inl halert
    obtain rfl := mem_singleton.mp halert
    exact .inr ⟨rfl, congrArg some hid⟩
  have halerts : AlertsKept pass.store (openAlert runtime pass after obs evaluatedAt).store row
      { after with activeAlertId := some pass.store.nextId } := by
    refine ⟨Nat.le_succ _, ?_, ?_, ?_, ?_, ?_, ?_⟩
    · intro alert halert
      rcases hmem halert with halert | ⟨heq, _⟩
      · exact (h.alertFresh alert halert).trans (Nat.lt_succ_self _)
      exact heq ▸ Nat.lt_succ_self _
    · intro first hfirst second hsecond hsame
      rcases mem_append.mp hfirst with hfirst | hfirst <;>
        rcases mem_append.mp hsecond with hsecond | hsecond
      · exact h.alertUnique first hfirst second hsecond hsame
      · rw [mem_singleton.mp hsecond] at hsame
        exact absurd hsame (hold first hfirst)
      · rw [mem_singleton.mp hfirst] at hsame
        exact absurd hsame.symm (hold second hsecond)
      rw [mem_singleton.mp hfirst, mem_singleton.mp hsecond]
    · intro alert halert hstat
      rcases hmem halert with halert | ⟨heq, hstate⟩
      · refine .inl ⟨halert, fun hstate => ?_⟩
        obtain ⟨other, hother, hof, hnames⟩ := h.named alert halert hstat
        obtain rfl := h.unique other hother row hrow
          (.inl (Option.some.inj (hof.symm.trans hstate)))
        cases hquiet.symm.trans hnames
      exact .inr ⟨hstate, congrArg some heq.symm⟩
    · intro other hother alert halert hnames
      rcases hmem halert with halert | ⟨heq, _⟩
      · exact h.owned other hother alert halert hnames
      exact absurd heq ((h.fresh other hother).2 _ hnames).ne
    · intro alert halert hnames
      rcases hmem halert with halert | ⟨_, hstate⟩
      · exact absurd (Option.some.inj hnames).symm (hold alert halert)
      exact hstate
    rintro _ ⟨⟩
    exact Nat.lt_succ_self _
  refine h.write hrow halerts hid hkey rfl ?_ ?_ ?_
  · intro key hne breached
    change streak key breached (.evaluated (after.key runtime) true :: _) = _
    rw [hkey]
    exact streak_of_ne hne
  · change after.recoveryCount = streak (after.key runtime) false
      (.evaluated (after.key runtime) true :: _) ∧ after.recoveryCount < consecutiveSamples
    rw [hrecovery]
    exact ⟨(streak_broken (by decide)).symm, by decide⟩
  refine h.timely.evaluated.cons ?_ (fun _ _ heq => nomatch heq)
  rintro _ _ ⟨⟩
  rw [hkey]
  exact hstreak

theorem Consistent.recovered (hrow : row ∈ pass.store.states)
    (hid : after.id = row.id) (hkey : after.key runtime = row.key runtime) {id : Nat}
    (hactive : row.activeAlertId = some id) (hbreaches : after.breachCount = 0)
    (hcount : consecutiveSamples ≤ row.recoveryCount + 1) :
    Consistent runtime (recoverAlert runtime pass after id evaluatedAt).store := by
  have hpre := h.counts row hrow
  rw [Counts, hactive] at hpre
  have hstreak : streak (row.key runtime) false
      (.evaluated (row.key runtime) false :: pass.store.history) = consecutiveSamples := by
    rw [streak_same, ← hpre.1]
    exact Nat.le_antisymm hpre.2 hcount
  have hmem : ∀ {alert : Alert}, alert ∈ (recoverAlert runtime pass after id evaluatedAt).store.alerts →
      ∃ old ∈ pass.store.alerts, alert.id = old.id ∧ alert.stateId = old.stateId ∧
        (alert.status = .active → alert = old ∧ old.id ≠ id) := by
    intro alert halert
    obtain ⟨old, hold, rfl⟩ := mem_map.mp halert
    refine ⟨old, hold, ?_⟩
    split
    · exact ⟨rfl, rfl, fun hstat => nomatch hstat⟩
    case isFalse hnot =>
      refine ⟨rfl, rfl, fun hstat => ⟨rfl, fun hsame => hnot ⟨hsame, hstat⟩⟩⟩
  have halerts : AlertsKept pass.store (recoverAlert runtime pass after id evaluatedAt).store row
      { after with activeAlertId := none, recoveryCount := 0 } := by
    refine ⟨Nat.le_refl _, ?_, ?_, ?_, ?_, ?_, ?_⟩
    · intro alert halert
      obtain ⟨old, hold, hsame, _⟩ := hmem halert
      exact hsame ▸ h.alertFresh old hold
    · intro first hfirst second hsecond hsame
      obtain ⟨old, hold, rfl⟩ := mem_map.mp hfirst
      obtain ⟨other, hother, rfl⟩ := mem_map.mp hsecond
      have hids : old.id = other.id := by
        have hkeep : ∀ alert : Alert, (if alert.id = id ∧ alert.status = .active then
            { alert with status := .recovered, recoveredAt := some evaluatedAt }
            else alert).id = alert.id := by
          intro alert
          split <;> rfl
        rw [hkeep, hkeep] at hsame
        exact hsame
      rw [h.alertUnique old hold other hother hids]
    · intro alert halert hstat
      obtain ⟨old, hold, _, _, hsame⟩ := hmem halert
      obtain ⟨rfl, hne⟩ := hsame hstat
      refine .inl ⟨hold, fun hstate => ?_⟩
      obtain ⟨other, hother, hof, hnames⟩ := h.named alert hold hstat
      obtain rfl := h.unique other hother row hrow (.inl (Option.some.inj (hof.symm.trans hstate)))
      exact hne (Option.some.inj (hnames.symm.trans hactive))
    · intro other hother alert halert hnames
      obtain ⟨old, hold, hsame, hstate, _⟩ := hmem halert
      rw [hstate]
      exact h.owned other hother old hold (hsame ▸ hnames)
    · exact fun _ _ hnames => nomatch hnames
    exact fun _ hnames => nomatch hnames
  refine h.write hrow halerts hid hkey rfl ?_ ?_ ?_
  · intro key hne breached
    change streak key breached (.evaluated (after.key runtime) false :: _) = _
    rw [hkey]
    exact streak_of_ne hne
  · change after.breachCount = streak (after.key runtime) true
      (.evaluated (after.key runtime) false :: _) ∧ after.breachCount < consecutiveSamples
    rw [hbreaches]
    exact ⟨(streak_broken (by decide)).symm, by decide⟩
  refine h.timely.evaluated.cons (fun _ _ heq => nomatch heq) ?_
  rintro _ _ ⟨⟩
  rw [hkey]
  exact hstreak

theorem Consistent.observed
    (hnext : Observed runtime pass obs evaluatedAt next) : Consistent runtime next.store := by
  cases hnext with
  | skipped => exact h
  | inserted hnone => exact h.inserted hnone
  | unknown row hrow => exact h.unknown hrow
  | counted row after breached hrow hkey hfresh hid hsame hrule hactive hcounts =>
    exact h.write hrow (.same h hrow rfl rfl hactive) hid hsame rfl
      (fun _ hne _ => streak_of_ne hne) (hcounts _ (h.counts row hrow)) h.timely.evaluated
  | opened row hrow hkey hfresh hbreached hquiet hcount =>
    exact h.opened hrow rfl rfl hquiet rfl hcount
  | recovered row id hrow hkey hfresh hactive hcount =>
    refine h.recovered hrow ?_ ?_ hactive ?_ hcount
    · rfl
    · rfl
    rfl

end

end ImApp.MonitorAlerts
