import ImApp.Forward.Delivery

/-!
The counters of a forward task. They follow the target rows in every run in which
no draft edit leaves a stale target count behind: an edit deletes its rows and
stores the new number in two statements, and the task must not leave the draft
between them.
-/

namespace ImApp.Forward

open StepSystem KeyedTable List Function

/-- The counters of a task against its target rows. -/
structure Tallied (task : ForwardTask) : Prop where
  counts : ∀ outcome, task.counts outcome = task.targets.count (ForwardTarget.endedWith outcome)
  done : task.doneCount = task.targets.count ForwardTarget.terminal
  draft : task.status = .draft → ∀ target ∈ task.targets.rows, target.status = .pending
  size : task.status ≠ .draft → task.targetCount = task.targets.size
  live : task.status.live = true → task.doneCount < task.targetCount
  completed : task.status.completedStatus = true → task.targetCount ≤ task.doneCount
  finished : task.status ≠ .draft →
    (task.finishedAt.isSome = true ↔ task.targetCount ≤ task.doneCount)

variable {task : ForwardTask} {s t : ForwardState}

theorem tallied_create (hasSource : Bool) : Tallied (createTask hasSource) where
  counts _ := rfl
  done := rfl
  draft _ := fun _ hmem => absurd hmem not_mem_nil
  size hdraft := absurd rfl hdraft
  live hlive := absurd hlive Bool.false_ne_true
  completed hcomp := absurd hcomp Bool.false_ne_true
  finished hdraft := absurd rfl hdraft

variable {target : ForwardTarget}

theorem endedWith_terminal {outcome : Outcome}
    (h : target.endedWith outcome = true) : target.terminal = true := by
  have hstat : target.status = .ended outcome := of_decide_eq_true h
  simp [ForwardTarget.terminal, hstat]

theorem endedWith_of_not_terminal (h : target.terminal = false)
    (outcome : Outcome) : target.endedWith outcome = false := by
  cases hended : target.endedWith outcome with
  | false => rfl
  | true => rw [endedWith_terminal hended] at h; exact h

theorem waiting_not_terminal (h : target.waiting = true) : target.terminal = false := by
  unfold ForwardTarget.waiting at h
  unfold ForwardTarget.terminal
  cases hstat : target.status <;> simp_all

variable {now : Time}

theorem picks_not_terminal {picked : List Peer}
    (h : picks task now picked target = true) : target.terminal = false := by
  unfold picks ForwardTarget.claimable at h
  unfold ForwardTarget.terminal
  cases hstat : target.status <;> simp_all

theorem retrySelects_ended {onlyFailed : Bool} {userIDs : List UserID}
    (h : retrySelects onlyFailed userIDs target = true) :
    target.status = .ended .failed ∨ target.status = .ended .skipped := by
  simp only [retrySelects, Bool.and_eq_true, any_eq_true] at h
  obtain ⟨⟨outcome, houtcome, hended⟩, _⟩ := h
  have hstat : target.status = .ended outcome := of_decide_eq_true hended
  rw [hstat]
  cases onlyFailed with
  | true =>
    obtain rfl := mem_singleton.mp houtcome
    exact .inl rfl
  | false =>
    simp only [retryOutcomes, Bool.false_eq_true, if_false, mem_cons, not_mem_nil,
      or_false] at houtcome
    rcases houtcome with rfl | rfl
    · exact .inl rfl
    exact .inr rfl

theorem draft_uncounted (hpend : ∀ target ∈ task.targets.rows, target.status = .pending) :
    (∀ outcome, task.targets.count (ForwardTarget.endedWith outcome) = 0) ∧
      task.targets.count ForwardTarget.terminal = 0 := by
  have hterm : ∀ target ∈ task.targets.rows, target.terminal = false := by
    intro target hmem
    simp [ForwardTarget.terminal, hpend target hmem]
  constructor
  · intro outcome
    exact count_zero fun target hmem => endedWith_of_not_terminal (hterm target hmem) outcome
  exact count_zero hterm

theorem count_terminal_le (task : ForwardTask) :
    task.targets.count ForwardTarget.terminal ≤ task.targets.size := countP_le_length

section

variable (h : Tallied task)
include h

theorem Tallied.draftEdit (hdraft : task.status = .draft) {targets : KeyedTable ForwardTarget.peer}
    (hpend : ∀ target ∈ targets.rows, target.status = .pending) (number : Nat) :
    Tallied { task with targets := targets, targetCount := number } := by
  have hpre := draft_uncounted (h.draft hdraft)
  have hafter := @draft_uncounted { task with targets := targets } hpend
  exact {
    counts := fun outcome => by
      rw [h.counts outcome, hpre.1 outcome]
      exact (hafter.1 outcome).symm
    done := by
      rw [h.done, hpre.2]
      exact hafter.2.symm
    draft := fun _ => hpend
    size := fun hnot => absurd hdraft hnot
    live := fun hlive => by simp [hdraft, TaskStatus.live] at hlive
    completed := fun hcomp => by simp [hdraft, TaskStatus.completedStatus] at hcomp
    finished := fun hnot => absurd hdraft hnot }

theorem Tallied.submit (hdraft : task.status = .draft)
    (hpositive : 0 < task.targetCount) (hsize : task.targetCount = task.targets.size) :
    Tallied { task with status := .pending, finishedAt := none } := by
  have hdone : task.doneCount = 0 := by
    rw [h.done]
    exact (draft_uncounted (h.draft hdraft)).2
  exact { h with
    draft := fun hnot => by cases hnot
    size := fun _ => hsize
    live := fun _ => by
      change task.doneCount < task.targetCount
      omega
    completed := fun hnot => by cases hnot
    finished := fun _ => by
      change false = true ↔ task.targetCount ≤ task.doneCount
      simp only [Bool.false_eq_true, false_iff, not_le]
      omega }

theorem Tallied.reschedule {status : TaskStatus}
    (hpre : task.status.live = true) (hafter : status.live = true) :
    Tallied { task with status := status } := by
  have hnot : task.status ≠ .draft := by
    intro hdraft
    simp [hdraft, TaskStatus.live] at hpre
  exact { h with
    draft := fun hdraft => by
      change status = .draft at hdraft
      simp [hdraft, TaskStatus.live] at hafter
    size := fun _ => h.size hnot
    live := fun _ => h.live hpre
    completed := fun hcomp => by
      change status.completedStatus = true at hcomp
      cases status <;> simp [TaskStatus.live, TaskStatus.completedStatus] at hafter hcomp
    finished := fun _ => h.finished hnot }

theorem Tallied.cancel (hsize : task.targetCount = task.targets.size)
    (now : Time) : Tallied (cancelledTask task now) := by
  exact {
    counts := fun outcome => by
      by_cases hcancel : outcome = .cancelled
      · simp [cancelledTask, recount, hcancel]
      simp only [cancelledTask, recount, mem_singleton, hcancel, if_false]
      rw [h.counts outcome]
      symm
      apply count_update_unaffected
      intro target hwait
      rw [endedWith_of_not_terminal (waiting_not_terminal hwait)]
      simp [ForwardTarget.endedWith, setStatus, Ne.symm hcancel]
    done := rfl
    draft := fun hnot => by cases hnot
    size := fun _ => by
      change task.targetCount = _
      rw [hsize]
      exact size_update.symm
    live := fun hnot => by cases hnot
    completed := fun hnot => by cases hnot
    finished := fun _ => by
      change (if _ then some now else none).isSome = true ↔ _
      split
      · rename_i hdone
        exact iff_of_true rfl hdone
      rename_i hopen
      exact iff_of_false Bool.false_ne_true hopen }

theorem Tallied.retry (hcomp : task.status.completedStatus = true) {onlyFailed : Bool} {userIDs : List UserID}
    (hselected : task.targets.count (retrySelects onlyFailed userIDs) ≠ 0) :
    Tallied (reopenedTask task now onlyFailed userIDs) := by
  have hnot : task.status ≠ .draft := by
    intro hdraft
    simp [hdraft, TaskStatus.completedStatus] at hcomp
  have hlost : (reopenedTask task now onlyFailed userIDs).doneCount <
      (reopenedTask task now onlyFailed userIDs).targetCount := by
    change (task.targets.update _ _).count _ < task.targetCount
    have hexchange := task.targets.count_update (retrySelects onlyFailed userIDs)
      ForwardTarget.terminal (reopen now)
    have hpre : task.targets.count (fun target => retrySelects onlyFailed userIDs target &&
        target.terminal) = task.targets.count (retrySelects onlyFailed userIDs) := by
      apply count_congr
      intro target _
      cases hp : retrySelects onlyFailed userIDs target with
      | false => rfl
      | true =>
        rcases retrySelects_ended hp with hended | hended <;>
          simp [ForwardTarget.terminal, hended]
    have hafter : task.targets.count (fun target => retrySelects onlyFailed userIDs target &&
        ((reopen now).apply target).terminal) = 0 := by
      apply count_zero
      intro target _
      simp [reopen, ForwardTarget.terminal]
    have hle := count_terminal_le task
    have hsize := h.size hnot
    omega
  exact {
    counts := fun outcome => by
      by_cases hrecounted : outcome ∈ [Outcome.failed, .skipped]
      · simp only [reopenedTask, recount, if_pos hrecounted]
      simp only [reopenedTask, recount, if_neg hrecounted]
      rw [h.counts outcome]
      symm
      apply count_update_unaffected
      intro target hp
      have hreopened : ((reopen now).apply target).endedWith outcome = false := by
        simp [reopen, ForwardTarget.endedWith]
      rw [hreopened]
      simp only [mem_cons, not_mem_nil, or_false, not_or] at hrecounted
      rcases retrySelects_ended hp with hended | hended
      · simp [ForwardTarget.endedWith, hended, Ne.symm hrecounted.1]
      simp [ForwardTarget.endedWith, hended, Ne.symm hrecounted.2]
    done := rfl
    draft := fun hdraft => by cases hdraft
    size := fun _ => (h.size hnot).trans size_update.symm
    live := fun _ => hlost
    completed := fun hpend => by cases hpend
    finished := fun _ => iff_of_false Bool.false_ne_true (Nat.not_le.mpr hlost) }

theorem Tallied.move {p : ForwardTarget → Bool}
    {edit : Edit ForwardTarget.peer} (hpre : ∀ target, p target = true → target.terminal = false)
    (hafter : ∀ target, (edit.apply target).terminal = false)
    (hdraft : task.status = .draft → ∀ target ∈ task.targets.rows, p target = false) :
    Tallied { task with targets := task.targets.update p edit } := by
  have hsize : (task.targets.update p edit).size = task.targets.size := size_update
  exact { h with
    counts := fun outcome => by
      change task.counts outcome = _
      rw [h.counts outcome]
      symm
      apply count_update_unaffected
      intro target hp
      rw [endedWith_of_not_terminal (hpre target hp), endedWith_of_not_terminal (hafter target)]
    done := by
      change task.doneCount = _
      rw [h.done]
      symm
      apply count_update_unaffected
      intro target hp
      rw [hpre target hp, hafter target]
    draft := fun hstat target hmem => by
      rcases mem_update hmem with ⟨before, hpre, hp, _⟩ | ⟨hkept, _⟩
      · rw [hdraft hstat before hpre] at hp
        cases hp
      exact h.draft hstat target hkept
    size := fun hnot => (h.size hnot).trans hsize.symm }

end

variable {handle : Handle}

theorem held_once (hheld : task.targets.count handle.holds ≠ 0) :
    task.targets.count handle.holds = 1 := by
  have hone : task.targets.count handle.holds ≤ 1 := by
    apply count_le_one (k := handle.peer)
    intro target hholds
    simp only [Handle.holds, Bool.and_eq_true, decide_eq_true_eq] at hholds
    exact hholds.1
  omega

theorem draft_not_held (h : Tallied task) (hdraft : task.status = .draft) (handle : Handle) :
    ∀ target ∈ task.targets.rows, handle.holds target = false := by
  intro target hmem
  simp [Handle.holds, h.draft hdraft target hmem]

theorem Tallied.not_draft_of_held (h : Tallied task)
    (hheld : task.targets.count handle.holds ≠ 0) : task.status ≠ .draft := by
  intro hdraft
  exact hheld (count_zero (draft_not_held h hdraft handle))

theorem count_finish {outcome : Outcome} {q : ForwardTarget → Bool}
    (hheld : task.targets.count handle.holds ≠ 0)
    (hpre : ∀ target, handle.holds target = true → q target = false)
    (hafter : ∀ target, q ((setStatus (.ended outcome)).apply target) = true) :
    (task.targets.update handle.holds (setStatus (.ended outcome))).count q =
      task.targets.count q + 1 := by
  have hexchange := task.targets.count_update handle.holds q (setStatus (.ended outcome))
  have hnone : task.targets.count (fun target => handle.holds target && q target) = 0 := by
    apply count_zero
    intro target _
    cases hp : handle.holds target with
    | true => rw [hpre target hp]; rfl
    | false => rfl
  have hall : task.targets.count (fun target => handle.holds target &&
      q ((setStatus (.ended outcome)).apply target)) = task.targets.count handle.holds := by
    apply count_congr
    intro target _
    rw [hafter target, Bool.and_true]
  have hone := held_once hheld
  omega

theorem Tallied.finish (h : Tallied task) (outcome : Outcome)
    (hheld : task.targets.count handle.holds ≠ 0) :
    Tallied (finishedTask task now handle outcome) := by
  have hnot := h.not_draft_of_held hheld
  have hdone : (task.targets.update handle.holds (setStatus (.ended outcome))).count
      ForwardTarget.terminal = task.targets.count ForwardTarget.terminal + 1 :=
    count_finish hheld (fun _ hp => holds_not_terminal hp) (fun _ => rfl)
  have hlive : ¬ (task.targetCount ≤ task.doneCount) := by
    intro hall
    have hle := count_terminal_le
      { task with targets := task.targets.update handle.holds (setStatus (.ended outcome)) }
    have hsame : (task.targets.update handle.holds (setStatus (.ended outcome))).size =
        task.targets.size := size_update
    have hsize := h.size hnot
    have hpre := h.done
    simp only at hle
    omega
  have hstays : task.status = .cancelled ∨ task.status.live = true := by
    have hopen : task.status.completedStatus ≠ true := fun hcomp =>
      hlive (h.completed hcomp)
    revert hnot hopen
    cases task.status <;> simp [TaskStatus.live, TaskStatus.completedStatus]
  have hstat := finalizeTask_status { task with
      targets := task.targets.update handle.holds (setStatus (.ended outcome))
      doneCount := task.doneCount + 1
      counts := Function.update task.counts outcome (task.counts outcome + 1) } now
  exact {
    counts := fun column => by
      change Function.update task.counts outcome (task.counts outcome + 1) column = _
      by_cases hcol : column = outcome
      · subst hcol
        rw [update_self, h.counts column]
        symm
        apply count_finish hheld
        · intro target hp
          exact endedWith_of_not_terminal (holds_not_terminal hp) column
        intro target
        simp [setStatus, ForwardTarget.endedWith]
      rw [update_of_ne hcol, h.counts column]
      symm
      apply count_update_unaffected
      intro target hp
      rw [endedWith_of_not_terminal (holds_not_terminal hp)]
      simp [setStatus, ForwardTarget.endedWith, Ne.symm hcol]
    done := by
      change task.doneCount + 1 = _
      rw [h.done]
      exact hdone.symm
    draft := fun hdraft => by
      rcases hstat with ⟨hsame, _⟩ | ⟨hcomp, _⟩
      · exact absurd (hsame.symm.trans hdraft) hnot
      change (finishedTask task now handle outcome).status.completedStatus = true at hcomp
      simp [hdraft, TaskStatus.completedStatus] at hcomp
    size := fun _ => (h.size hnot).trans size_update.symm
    live := fun hafter => by
      rcases hstat with ⟨hsame, hcancel | hopen⟩ | ⟨hcomp, _⟩
      · change (finishedTask task now handle outcome).status = task.status at hsame
        change task.status = .cancelled at hcancel
        simp [hsame, hcancel, TaskStatus.live] at hafter
      · exact hopen
      change (finishedTask task now handle outcome).status.completedStatus = true at hcomp
      revert hafter hcomp
      cases (finishedTask task now handle outcome).status <;>
        simp [TaskStatus.live, TaskStatus.completedStatus]
    completed := fun hcomp => by
      rcases hstat with ⟨hsame, _⟩ | ⟨_, hall⟩
      · change (finishedTask task now handle outcome).status = task.status at hsame
        rw [hsame] at hcomp
        rcases hstays with hcancel | hlive
        · simp [hcancel, TaskStatus.completedStatus] at hcomp
        revert hlive hcomp
        cases task.status <;> simp [TaskStatus.live, TaskStatus.completedStatus]
      exact hall
    finished := fun _ => by
      change (if task.targetCount ≤ task.doneCount + 1 then some now else task.finishedAt).isSome =
        true ↔ task.targetCount ≤ task.doneCount + 1
      split
      · rename_i hall
        exact iff_of_true rfl hall
      rename_i hopen
      rw [h.finished hnot]
      exact iff_of_false hlive hopen }

/-- The edit has deleted rows and its number is not stored yet. -/
def DraftEdit.isOpen (edit : DraftEdit) : Bool :=
  match edit.phase with
  | .admitted => false
  | .deleted affected | .counted affected _ => 0 < affected

def EditOpen (s : ForwardState) (except : Option Nat) : Prop :=
  ∃ edit draftEdit, some edit ≠ except ∧ s.edits edit = some draftEdit ∧ draftEdit.isOpen = true

/-- Draft edits do not leave a stale target count: the task leaves the draft with
no open edit, and a number that is stored is the current number of rows or will be
replaced by another open edit. -/
def EditsSettled (s : ForwardState) : Action → Prop
  | .submit | .cancel _ => s.task.status = .draft → ¬ EditOpen s none
  | .storeCount edit => s.task.status = .draft →
      ∀ selection affected number, s.edits edit = some ⟨selection, .counted affected number⟩ →
        number = s.task.targets.size ∨ EditOpen s (some edit)
  | _ => True

structure CountInvariant (s : ForwardState) : Prop where
  tallied : Tallied s.task
  draft : s.task.status = .draft → s.task.targetCount = s.task.targets.size ∨ EditOpen s none

theorem CountInvariant.size_of_settled (h : CountInvariant s)
    (hset : s.task.status = .draft → ¬ EditOpen s none) :
    s.task.targetCount = s.task.targets.size := by
  by_cases hdraft : s.task.status = .draft
  · rcases h.draft hdraft with hsize | hopen
    · exact hsize
    exact absurd hopen (hset hdraft)
  exact h.tallied.size hdraft

variable {a : Action}

theorem TaskStep.tallied {next : ForwardTask} (hstep : TaskStep s a next)
    (h : CountInvariant s) (hset : EditsSettled s a) : Tallied next := by
  cases hstep with
  | same => exact h.tallied
  | insert now candidates hdraft =>
    apply h.tallied.draftEdit hdraft
    intro target hmem
    rcases mem_insertAll hmem with hold | hnew
    · exact h.tallied.draft hdraft target hold
    obtain ⟨peer, _, rfl⟩ := mem_map.mp hnew
    rfl
  | delete selection hdraft hedit =>
    apply h.tallied.draftEdit hdraft
    intro target hmem
    exact h.tallied.draft hdraft target (mem_of_mem_filter hmem)
  | store selection affected number hdraft hedit =>
    exact h.tallied.draftEdit hdraft (h.tallied.draft hdraft) number
  | submit hdraft hpositive =>
    exact h.tallied.submit hdraft hpositive (h.size_of_settled hset)
  | reschedule status hpre hafter => exact h.tallied.reschedule hpre hafter
  | cancel now hopen hcancel => exact h.tallied.cancel (h.size_of_settled hset) now
  | retry now onlyFailed userIDs hcomp hselected =>
    exact h.tallied.retry hcomp hselected
  | claim worker now lockTTL picked =>
    apply h.tallied.move (fun _ hp => picks_not_terminal hp) (fun _ => rfl)
    intro hdraft target _
    simp [picks, hdraft, TaskStatus.runnable]
  | finish outcome hheld => exact h.tallied.finish outcome hheld
  | putBack next hheld =>
    apply h.tallied.move (fun _ hp => holds_not_terminal hp) (fun _ => rfl)
    intro hdraft
    exact draft_not_held h.tallied hdraft _

variable {edit : Nat}

theorem EditOpen.of_update {value : Option DraftEdit} {t : ForwardState}
    (h : EditOpen s (some edit)) (hedits : t.edits = Function.update s.edits edit value) :
    EditOpen t none := by
  obtain ⟨other, draftEdit, hne, hother, hopen⟩ := h
  refine ⟨other, draftEdit, by simp, ?_, hopen⟩
  rw [hedits, update_of_ne (fun heq => hne (by rw [heq]))]
  exact hother

theorem EditOpen.other_or_self (h : EditOpen s none) (edit : Nat) : EditOpen s (some edit) ∨
      ∃ draftEdit, s.edits edit = some draftEdit ∧ draftEdit.isOpen = true := by
  obtain ⟨other, draftEdit, _, hother, hopen⟩ := h
  by_cases heq : other = edit
  · subst heq
    exact .inr ⟨draftEdit, hother, hopen⟩
  exact .inl ⟨other, draftEdit, by simpa using heq, hother, hopen⟩

theorem draft_startEdit {selection : Selection} (h : CountInvariant s)
    (hstep : startEdit s edit selection = some t) (hdraft : t.task.status = .draft) :
    t.task.targetCount = t.task.targets.size ∨ EditOpen t none := by
  obtain ⟨hfree, rfl⟩ := startEdit_cases hstep
  rcases h.draft hdraft with hsize | hopen
  · exact .inl hsize
  rcases hopen.other_or_self edit with hother | ⟨_, hself, _⟩
  · exact .inr (hother.of_update rfl)
  rw [hfree] at hself
  cases hself

theorem draft_deleteRows (h : CountInvariant s)
    (hstep : deleteRows s edit = some t) (hdraft : t.task.status = .draft) :
    t.task.targetCount = t.task.targets.size ∨ EditOpen t none := by
  obtain ⟨selection, hedit, rfl⟩ := deleteRows_cases hstep
  have hpre : s.task.status = .draft := by
    by_contra hnot
    simp only [setEdit, setTask, deleteTargets, if_neg hnot] at hdraft
    exact hnot hdraft
  simp only [deleteTargets, if_pos hpre]
  by_cases hnone : s.task.targets.count selection.matches = 0
  · simp only [delete_of_count_zero hnone]
    rcases h.draft hpre with hsize | hopen
    · exact .inl hsize
    rcases hopen.other_or_self edit with hother | ⟨_, hself, hopenSelf⟩
    · exact .inr (hother.of_update rfl)
    rw [hedit] at hself
    cases hself
    cases hopenSelf
  refine .inr ⟨edit, _, by simp, update_self .., ?_⟩
  simp only [DraftEdit.isOpen, decide_eq_true_eq]
  omega

theorem draft_countRows (h : CountInvariant s)
    (hstep : countRows s edit = some t) (hdraft : t.task.status = .draft) :
    t.task.targetCount = t.task.targets.size ∨ EditOpen t none := by
  obtain ⟨selection, affected, hedit, rfl⟩ := countRows_cases hstep
  rcases h.draft hdraft with hsize | hopen
  · exact .inl hsize
  rcases hopen.other_or_self edit with hother | ⟨_, hself, hopenSelf⟩
  · exact .inr (hother.of_update rfl)
  rw [hedit] at hself
  cases hself
  exact .inr ⟨edit, _, by simp, update_self .., hopenSelf⟩

theorem draft_storeCount (hset : EditsSettled s (.storeCount edit))
    (hstep : storeCount s edit = some t) (hdraft : t.task.status = .draft) :
    t.task.targetCount = t.task.targets.size ∨ EditOpen t none := by
  obtain ⟨selection, affected, number, hedit, rfl⟩ := storeCount_cases hstep
  have hpre : s.task.status = .draft := by
    by_contra hnot
    simp only [setEdit, setTask, storeTargetCount, if_neg hnot] at hdraft
    exact hnot hdraft
  simp only [storeTargetCount, if_pos hpre]
  rcases hset hpre selection affected number hedit with hcur | hother
  · exact .inl hcur
  exact .inr (hother.of_update rfl)

theorem draft_other (h : CountInvariant s) (hstep : step s a = some t)
    (hother : a.isEdit = false) (hdraft : t.task.status = .draft) :
    t.task.targetCount = t.task.targets.size ∨ EditOpen t none := by
  have hedits := edits_of_step hstep hother
  have hkept : s.task.status = .draft → t.task.targetCount = s.task.targetCount →
      t.task.targets.size = s.task.targets.size →
      t.task.targetCount = t.task.targets.size ∨ EditOpen t none := by
    intro hpre hcount hsize
    rcases h.draft hpre with heq | hopen
    · exact .inl (by omega)
    exact .inr (by unfold EditOpen at hopen ⊢; rwa [hedits])
  have htask := taskStep_of_step hstep
  generalize t.task = next at htask hdraft hkept ⊢
  cases htask with
  | same => exact hkept hdraft rfl rfl
  | insert now candidates _ => exact .inl rfl
  | delete | store => cases hother
  | submit | cancel | retry => cases hdraft
  | reschedule status _ hafter =>
    change status = .draft at hdraft
    simp [hdraft, TaskStatus.live] at hafter
  | claim | putBack => exact hkept hdraft rfl size_update
  | finish outcome hheld =>
    rcases finalizeTask_status { s.task with
        targets := s.task.targets.update _ (setStatus (.ended outcome))
        doneCount := s.task.doneCount + 1
        counts := Function.update s.task.counts outcome (s.task.counts outcome + 1) } _ with
      ⟨hsame, _⟩ | ⟨hcomp, _⟩
    · exact hkept (hsame.symm.trans hdraft) rfl size_update
    unfold finishedTask at hdraft
    simp [hdraft, TaskStatus.completedStatus] at hcomp

theorem countInvariant_step (hset : EditsSettled s a) (h : CountInvariant s)
    (hstep : step s a = some t) : CountInvariant t where
  tallied := (taskStep_of_step hstep).tallied h hset
  draft hdraft := by
    cases a with
    | startEdit edit selection => exact draft_startEdit h hstep hdraft
    | deleteRows edit => exact draft_deleteRows h hstep hdraft
    | countRows edit => exact draft_countRows h hstep hdraft
    | storeCount edit => exact draft_storeCount hset hstep hdraft
    | _ => exact draft_other h hstep rfl hdraft

theorem countInvariant_initial (hs : Initial s) : CountInvariant s := by
  obtain ⟨hasSource, htask⟩ := hs.task
  constructor
  · rw [htask]
    exact tallied_create hasSource
  intro _
  rw [htask]
  exact .inl rfl

/-- What the counters of a task that has left the draft promise. A cancelled task
keeps its status and is completed when its finish time is set. -/
structure CountersAgree (task : ForwardTask) : Prop where
  targets : task.targetCount = task.targets.size
  done : task.doneCount = task.targets.count ForwardTarget.terminal
  counts : ∀ outcome, task.counts outcome = task.targets.count (ForwardTarget.endedWith outcome)
  completed : task.status ≠ .cancelled → (task.status.completedStatus = true ↔
    ∀ target ∈ task.targets.rows, target.terminal = true)
  finished : task.finishedAt.isSome = true ↔ ∀ target ∈ task.targets.rows, target.terminal = true

/-- The targets that a step takes to an outcome. -/
def newlyEnded (s t : ForwardState) (outcome : Outcome) : Nat :=
  t.task.targets.count fun target =>
    target.endedWith outcome && !s.task.targets.had ForwardTarget.terminal target.peer

/-- Each terminal transition is counted once, and a target that has ended stays as
it is. -/
structure CountedOnce (s t : ForwardState) : Prop where
  kept : ∀ target ∈ s.task.targets.rows, target.terminal = true → target ∈ t.task.targets.rows
  counted : ∀ outcome, t.task.counts outcome = s.task.counts outcome + newlyEnded s t outcome

theorem all_terminal_iff (h : Tallied task) (hnot : task.status ≠ .draft) :
    task.targetCount ≤ task.doneCount ↔ ∀ target ∈ task.targets.rows, target.terminal = true := by
  have hle := count_terminal_le task
  have hall : task.targets.count ForwardTarget.terminal = task.targets.size ↔
      ∀ target ∈ task.targets.rows, target.terminal = true := countP_eq_length
  rw [h.size hnot, h.done, ← hall]
  omega

theorem Tallied.agree (h : Tallied task) (hnot : task.status ≠ .draft) : CountersAgree task where
  targets := h.size hnot
  done := h.done
  counts := h.counts
  completed := by
    intro hcancel
    rw [← all_terminal_iff h hnot]
    constructor
    · exact h.completed
    intro hall
    have hlive : ¬ task.status.live = true := fun hlive => by
      have hlt := h.live hlive
      omega
    revert hcancel hnot hlive
    cases task.status <;> simp [TaskStatus.live, TaskStatus.completedStatus]
  finished := (h.finished hnot).trans (all_terminal_iff h hnot)

theorem countedOnce_of_draft {next : ForwardTask} (h : Tallied s.task) (htask : t.task = next)
    (hnext : Tallied next) (hpre : ∀ target ∈ s.task.targets.rows, target.status = .pending)
    (hafter : ∀ target ∈ next.targets.rows, target.status = .pending) : CountedOnce s t where
  kept target hmem hterm := by
    simp [ForwardTarget.terminal, hpre target hmem] at hterm
  counted outcome := by
    rw [htask, hnext.counts, h.counts, (draft_uncounted hpre).1, (draft_uncounted hafter).1,
      Nat.zero_add]
    symm
    apply count_zero
    intro target hmem
    rw [htask] at hmem
    simp [ForwardTarget.endedWith, hafter target hmem]

theorem countedOnce_of_update {p : ForwardTarget → Bool} {edit : Edit ForwardTarget.peer}
    (h : Tallied s.task) (hnext : Tallied t.task)
    (htargets : t.task.targets = s.task.targets.update p edit)
    (hopen : ∀ target ∈ s.task.targets.rows, p target = true → target.terminal = false) :
    CountedOnce s t where
  kept target hmem hterm := by
    rw [htargets]
    apply mem_update_of_kept hmem
    cases hp : p target with
    | false => rfl
    | true =>
      rw [hopen target hmem hp] at hterm
      cases hterm
  counted outcome := by
    rw [hnext.counts, h.counts, newlyEnded, htargets]
    exact count_update_settled hopen fun _ hended => endedWith_terminal hended

theorem countedOnce_of_same (htargets : t.task.targets = s.task.targets)
    (hcounts : t.task.counts = s.task.counts) : CountedOnce s t where
  kept target hmem _ := htargets ▸ hmem
  counted outcome := by
    have hnone : newlyEnded s t outcome = 0 := by
      rw [newlyEnded, htargets]
      apply count_zero
      intro target hmem
      rw [had_key hmem]
      cases hended : target.endedWith outcome with
      | false => rfl
      | true => rw [endedWith_terminal hended]; rfl
    rw [hcounts, hnone, Nat.add_zero]

theorem countedOnce_step (h : CountInvariant s) (hset : EditsSettled s a)
    (hstep : step s a = some t) (hretry : ∀ now onlyFailed userIDs, a ≠ .retry now onlyFailed userIDs) :
    CountedOnce s t := by
  have htask := taskStep_of_step hstep
  have hnext := htask.tallied h hset
  generalize hvalue : t.task = next at htask hnext
  cases htask with
  | same | store | submit | reschedule =>
    exact countedOnce_of_same (by rw [hvalue]) (by rw [hvalue])
  | insert now candidates hdraft | delete selection hdraft =>
    exact countedOnce_of_draft h.tallied hvalue hnext (h.tallied.draft hdraft) (hnext.draft hdraft)
  | cancel now =>
    apply countedOnce_of_update (p := ForwardTarget.waiting) h.tallied (hvalue ▸ hnext)
      (by rw [hvalue]; rfl)
    intro target _ hwait
    exact waiting_not_terminal hwait
  | retry now onlyFailed userIDs => exact absurd rfl (hretry now onlyFailed userIDs)
  | claim worker now lockTTL picked =>
    apply countedOnce_of_update (p := picks s.task now picked) h.tallied (hvalue ▸ hnext)
      (by rw [hvalue]; rfl)
    intro target _ hpicked
    exact picks_not_terminal hpicked
  | @finish now handle seen resolution outcome hheld =>
    apply countedOnce_of_update (p := handle.holds) h.tallied (hvalue ▸ hnext) (by rw [hvalue]; rfl)
    intro target _ hholds
    exact holds_not_terminal hholds
  | @putBack now handle seen next hheld =>
    apply countedOnce_of_update (p := handle.holds) h.tallied (hvalue ▸ hnext) (by rw [hvalue])
    intro target _ hholds
    exact holds_not_terminal hholds

/-- A removed target, and a submit before the new number is stored. -/
def staleCount : List Action :=
  [.addTargets 0 [1, 2] [1, 2], .startEdit 0 (.remove [1]), .deleteRows 0, .submit,
    .countRows 0, .storeCount 0]

/-- Two targets, one sent and one failed. -/
def mixedDelivery : List Action :=
  [.addTargets 0 [1, 2] [1, 2], .submit, .claim 7 0 60 [.user 1, .user 2], .markProcessing,
    .readTask ⟨.user 1, 7, 1⟩, .readTask ⟨.user 2, 7, 1⟩,
    .resolve 1 ⟨.user 1, 7, 1⟩ (some .processing) .success,
    .resolve 2 ⟨.user 2, 7, 1⟩ (some .processing) .failed]

end ImApp.Forward
