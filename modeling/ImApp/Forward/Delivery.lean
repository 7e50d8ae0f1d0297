import ImApp.Forward.Task
import ImApp.Library.StepSystem

/-!
One forward task under any number of requests and delivery workers. A request or
a worker that stops takes no further step. A worker acts on the targets that
claims handed out: it reads the task and then resolves the target, which may be
late, and every handle may be used again.
-/

namespace ImApp.Forward

open StepSystem Option

/-- The statements of a `RemoveTargets` or `ClearTargets` request that have run. -/
inductive EditPhase where
  | admitted
  | deleted (affected : Nat)
  | counted (affected number : Nat)

structure DraftEdit where
  selection : Selection
  phase : EditPhase

structure ForwardState where
  task : ForwardTask
  edits : Nat → Option DraftEdit
  handles : List Handle
  reads : List (Handle × TaskStatus)

/-- How a worker ends its work on a target. -/
inductive Resolution where
  | success
  | skipped
  | failed
  | cancelled
  | retry (next : Time)

/-- What `processTarget` may do after it read the task, or failed to. -/
def resolves (seen : Option TaskStatus) : Resolution → Bool
  | .cancelled => seen = some .cancelled
  | .retry _ => match seen with
    | none | some .paused | some .pending | some .processing => true
    | _ => false
  | .success => match seen with
    | some .pending | some .processing => true
    | _ => false
  | .failed => match seen with
    | none | some .pending | some .processing => true
    | _ => false
  | .skipped => match seen with
    | some .pending | some .processing | some .paused | some .cancelled | none => false
    | _ => true

def resolve (task : ForwardTask) (now : Time) (handle : Handle) : Resolution → Option ForwardTask
  | .success => markTargetSuccess task now handle
  | .skipped => markTargetSkipped task now handle
  | .failed => markTargetFailed task now handle
  | .cancelled => markTargetCancelled task now handle
  | .retry next => markTargetRetry task handle next

inductive Action where
  | addTargets (now : Time) (userIDs friends : List UserID)
  | addGroupTargets (now : Time) (groupIDs joined : List Nat)
  | generateTargets (now : Time) (selected : List UserID)
  | startEdit (edit : Nat) (selection : Selection)
  | deleteRows (edit : Nat)
  | countRows (edit : Nat)
  | storeCount (edit : Nat)
  | submit
  | pause
  | resume
  | cancel (now : Time)
  | retry (now : Time) (onlyFailed : Bool) (userIDs : List UserID)
  | claim (worker : WorkerID) (now lockTTL : Time) (picked : List Peer)
  | markProcessing
  | readTask (handle : Handle)
  | resolve (now : Time) (handle : Handle) (seen : Option TaskStatus) (resolution : Resolution)

def setTask (s : ForwardState) (task : ForwardTask) : ForwardState := { s with task := task }

def setEdit (s : ForwardState) (edit : Nat) (value : Option DraftEdit) : ForwardState :=
  { s with edits := Function.update s.edits edit value }

/-- The read of the task that lets an edit start. -/
def startEdit (s : ForwardState) (edit : Nat) (selection : Selection) : Option ForwardState :=
  if s.edits edit = none ∧ s.task.status = .draft then
    some (setEdit s edit (some ⟨selection, .admitted⟩))
  else none

def deleteRows (s : ForwardState) (edit : Nat) : Option ForwardState :=
  match s.edits edit with
  | some ⟨selection, .admitted⟩ =>
    let (task, affected) := deleteTargets s.task selection
    some (setEdit (setTask s task) edit (some ⟨selection, .deleted affected⟩))
  | _ => none

def countRows (s : ForwardState) (edit : Nat) : Option ForwardState :=
  match s.edits edit with
  | some ⟨selection, .deleted affected⟩ =>
    some (setEdit s edit (some ⟨selection, .counted affected (countTargets s.task selection)⟩))
  | _ => none

def storeCount (s : ForwardState) (edit : Nat) : Option ForwardState :=
  match s.edits edit with
  | some ⟨_, .counted _ number⟩ =>
    some (setEdit (setTask s (storeTargetCount s.task number)) edit none)
  | _ => none

def claim (s : ForwardState) (worker : WorkerID) (now lockTTL : Time) (picked : List Peer) :
    ForwardState :=
  let (task, handed) := claimTargets s.task worker now lockTTL picked
  { s with task := task, handles := handed ++ s.handles }

/-- A worker acts on what it read of the task. -/
def mayResolve (s : ForwardState) (handle : Handle) (seen : Option TaskStatus)
    (resolution : Resolution) : Bool :=
  s.handles.contains handle && resolves seen resolution && match seen with
    | none => true
    | some status => s.reads.contains (handle, status)

def step (s : ForwardState) : Action → Option ForwardState
  | .addTargets now userIDs friends => (addTargets s.task now userIDs friends).map (setTask s)
  | .addGroupTargets now groupIDs joined =>
    (addGroupTargets s.task now groupIDs joined).map (setTask s)
  | .generateTargets now selected => (generateTargets s.task now selected).map (setTask s)
  | .startEdit edit selection => startEdit s edit selection
  | .deleteRows edit => deleteRows s edit
  | .countRows edit => countRows s edit
  | .storeCount edit => storeCount s edit
  | .submit => (submitTask s.task).map (setTask s)
  | .pause => (pauseTask s.task).map (setTask s)
  | .resume => (resumeTask s.task).map (setTask s)
  | .cancel now => (cancelTask s.task now).map (setTask s)
  | .retry now onlyFailed userIDs => (retryTask s.task now onlyFailed userIDs).map (setTask s)
  | .claim worker now lockTTL picked => some (claim s worker now lockTTL picked)
  | .markProcessing => some (setTask s (markProcessing s.task))
  | .readTask handle =>
    if handle ∈ s.handles then some { s with reads := (handle, s.task.status) :: s.reads }
    else none
  | .resolve now handle seen resolution =>
    if mayResolve s handle seen resolution then
      (resolve s.task now handle resolution).map (setTask s)
    else none

structure Initial (s : ForwardState) : Prop where
  task : ∃ hasSource, s.task = createTask hasSource
  edits : ∀ edit, s.edits edit = none
  handles : s.handles = []
  reads : s.reads = []

def machine : Machine ForwardState Action where
  initial := Initial
  step := step

def newTask : ForwardState := ⟨createTask true, fun _ => none, [], []⟩

theorem newTask_initial : Initial newTask := ⟨⟨true, rfl⟩, fun _ => rfl, rfl, rfl⟩

/-- What a step can do to the task, with the conditions that its callers check. -/
inductive TaskStep (s : ForwardState) : Action → ForwardTask → Prop
  | same (a : Action) : TaskStep s a s.task
  | insert {a : Action} (now : Time) (candidates : List Peer)
      (hdraft : s.task.status = .draft) :
      TaskStep s a (refreshTargetCount
        { s.task with targets := s.task.targets.insertAll (candidates.map (.fresh now)) })
  | delete {edit : Nat} (selection : Selection) (hdraft : s.task.status = .draft)
      (hedit : s.edits edit = some ⟨selection, .admitted⟩) :
      TaskStep s (.deleteRows edit)
        { s.task with targets := s.task.targets.delete selection.matches }
  | store {edit : Nat} (selection : Selection) (affected number : Nat)
      (hdraft : s.task.status = .draft)
      (hedit : s.edits edit = some ⟨selection, .counted affected number⟩) :
      TaskStep s (.storeCount edit) { s.task with targetCount := number }
  | submit (hdraft : s.task.status = .draft) (hpositive : 0 < s.task.targetCount) :
      TaskStep s .submit { s.task with status := .pending, finishedAt := none }
  | reschedule {a : Action} (status : TaskStatus) (hpre : s.task.status.live = true)
      (hafter : status.live = true) : TaskStep s a { s.task with status := status }
  | cancel (now : Time) (hopen : s.task.status.completedStatus = false)
      (hcancel : s.task.status ≠ .cancelled) :
      TaskStep s (.cancel now) (cancelledTask s.task now)
  | retry (now : Time) (onlyFailed : Bool) (userIDs : List UserID)
      (hcomp : s.task.status.completedStatus = true)
      (hselected : s.task.targets.count (retrySelects onlyFailed userIDs) ≠ 0) :
      TaskStep s (.retry now onlyFailed userIDs) (reopenedTask s.task now onlyFailed userIDs)
  | claim (worker : WorkerID) (now lockTTL : Time) (picked : List Peer) :
      TaskStep s (.claim worker now lockTTL picked)
        (claimTargets s.task worker now lockTTL picked).1
  | finish {now : Time} {handle : Handle} {seen : Option TaskStatus} {resolution : Resolution}
      (outcome : Outcome) (hheld : s.task.targets.count handle.holds ≠ 0) :
      TaskStep s (.resolve now handle seen resolution) (finishedTask s.task now handle outcome)
  | putBack {now : Time} {handle : Handle} {seen : Option TaskStatus} (next : Time)
      (hheld : s.task.targets.count handle.holds ≠ 0) :
      TaskStep s (.resolve now handle seen (.retry next))
        { s.task with targets := s.task.targets.update handle.holds (scheduleRetry next) }

variable {task next : ForwardTask} {now : Time}

theorem insertTargets_cases {candidates : List Peer}
    (h : insertTargets task now candidates = some next) :
    task.status = .draft ∧ next = refreshTargetCount
      { task with targets := task.targets.insertAll (candidates.map (.fresh now)) } := by
  unfold insertTargets at h
  split at h
  · exact ⟨by assumption, (some.inj h).symm⟩
  cases h

variable {handle : Handle}

theorem finishTarget_cases
    {outcome : Outcome} (h : finishTarget task now handle outcome = some next) :
    task.targets.count handle.holds ≠ 0 ∧ next = finishedTask task now handle outcome := by
  unfold finishTarget at h
  split at h
  · cases h
  exact ⟨by assumption, (some.inj h).symm⟩

theorem resolve_cases
    {resolution : Resolution} (h : resolve task now handle resolution = some next) :
    task.targets.count handle.holds ≠ 0 ∧
      ((∃ outcome, next = finishedTask task now handle outcome) ∨ ∃ time, resolution = .retry time ∧
          next = { task with targets := task.targets.update handle.holds (scheduleRetry time) }) := by
  have hfinish : ∀ outcome, finishTarget task now handle outcome = some next →
      task.targets.count handle.holds ≠ 0 ∧
        ((∃ outcome, next = finishedTask task now handle outcome) ∨
          ∃ time, resolution = .retry time ∧ next =
            { task with targets := task.targets.update handle.holds (scheduleRetry time) }) := by
    intro outcome hfinished
    obtain ⟨hheld, hnext⟩ := finishTarget_cases hfinished
    exact ⟨hheld, .inl ⟨outcome, hnext⟩⟩
  cases resolution with
  | success => exact hfinish .success h
  | skipped => exact hfinish .skipped h
  | failed => exact hfinish .failed h
  | cancelled => exact hfinish .cancelled h
  | retry time =>
    simp only [resolve, markTargetRetry] at h
    split at h
    · cases h
    exact ⟨by assumption, .inr ⟨time, rfl, (some.inj h).symm⟩⟩

variable {s t : ForwardState} {edit : Nat}

theorem deleteRows_cases (h : deleteRows s edit = some t) :
    ∃ selection, s.edits edit = some ⟨selection, .admitted⟩ ∧
      t = setEdit (setTask s (deleteTargets s.task selection).1) edit
        (some ⟨selection, .deleted (deleteTargets s.task selection).2⟩) := by
  unfold deleteRows at h
  split at h
  · rename_i selection hedit
    exact ⟨selection, hedit, (some.inj h).symm⟩
  cases h

theorem countRows_cases (h : countRows s edit = some t) :
    ∃ selection affected, s.edits edit = some ⟨selection, .deleted affected⟩ ∧ t = setEdit s edit
        (some ⟨selection, .counted affected (countTargets s.task selection)⟩) := by
  unfold countRows at h
  split at h
  · rename_i selection affected hedit
    exact ⟨selection, affected, hedit, (some.inj h).symm⟩
  cases h

theorem storeCount_cases (h : storeCount s edit = some t) :
    ∃ selection affected number, s.edits edit = some ⟨selection, .counted affected number⟩ ∧
      t = setEdit (setTask s (storeTargetCount s.task number)) edit none := by
  unfold storeCount at h
  split at h
  · rename_i selection affected number hedit
    exact ⟨selection, affected, number, hedit, (some.inj h).symm⟩
  cases h

theorem startEdit_cases {selection : Selection} (h : startEdit s edit selection = some t) :
    s.edits edit = none ∧ t = setEdit s edit (some ⟨selection, .admitted⟩) := by
  unfold startEdit at h
  split at h
  · rename_i hstart
    exact ⟨hstart.1, (some.inj h).symm⟩
  cases h

theorem taskStep_of_step {a : Action} (h : step s a = some t) : TaskStep s a t.task := by
  cases a with
  | addTargets now _ _ | addGroupTargets now _ _ =>
    obtain ⟨task, htask, rfl⟩ := map_eq_some_iff.mp h
    simp only [addTargets, addGroupTargets] at htask
    split at htask
    · cases htask
      exact .same _
    obtain ⟨hdraft, rfl⟩ := insertTargets_cases htask
    exact .insert now _ hdraft
  | generateTargets now selected =>
    obtain ⟨task, htask, rfl⟩ := map_eq_some_iff.mp h
    obtain ⟨hdraft, rfl⟩ := insertTargets_cases htask
    exact .insert now _ hdraft
  | startEdit edit selection =>
    obtain ⟨_, rfl⟩ := startEdit_cases h
    exact .same _
  | deleteRows edit =>
    obtain ⟨selection, hedit, rfl⟩ := deleteRows_cases h
    simp only [setEdit, setTask, deleteTargets]
    split
    · rename_i hdraft
      exact .delete selection hdraft hedit
    exact .same _
  | countRows edit =>
    obtain ⟨_, _, _, rfl⟩ := countRows_cases h
    exact .same _
  | storeCount edit =>
    obtain ⟨selection, affected, number, hedit, rfl⟩ := storeCount_cases h
    simp only [setEdit, setTask, storeTargetCount]
    split
    · rename_i hdraft
      exact .store selection affected number hdraft hedit
    exact .same _
  | submit =>
    obtain ⟨task, htask, rfl⟩ := map_eq_some_iff.mp h
    unfold submitTask at htask
    split at htask
    · rename_i hsubmit
      cases htask
      exact .submit hsubmit.1 hsubmit.2.1
    cases htask
  | pause =>
    obtain ⟨task, htask, rfl⟩ := map_eq_some_iff.mp h
    unfold pauseTask at htask
    split at htask
    · rename_i hrunnable
      cases htask
      apply TaskStep.reschedule TaskStatus.paused _ rfl
      revert hrunnable
      cases s.task.status <;> simp [TaskStatus.runnable, TaskStatus.live]
    cases htask
  | resume =>
    obtain ⟨task, htask, rfl⟩ := map_eq_some_iff.mp h
    unfold resumeTask at htask
    split at htask
    · rename_i hpaused
      cases htask
      exact .reschedule .pending (by rw [hpaused]; rfl) rfl
    cases htask
  | cancel now =>
    obtain ⟨task, htask, rfl⟩ := map_eq_some_iff.mp h
    unfold cancelTask at htask
    split at htask
    · cases htask
    rename_i hopen
    cases htask
    rw [not_or, Bool.not_eq_true] at hopen
    exact .cancel now hopen.1 hopen.2
  | retry now onlyFailed userIDs =>
    obtain ⟨task, htask, rfl⟩ := map_eq_some_iff.mp h
    unfold retryTask at htask
    split at htask
    · rename_i hcomp
      split at htask
      · cases htask
        exact .same _
      rename_i hselected
      cases htask
      exact .retry now onlyFailed userIDs hcomp hselected
    cases htask
  | claim worker now lockTTL picked =>
    cases h
    exact .claim worker now lockTTL picked
  | markProcessing =>
    cases h
    simp only [setTask, markProcessing]
    split
    · rename_i hpend
      exact .reschedule .processing (by rw [hpend]; rfl) rfl
    exact .same _
  | readTask handle =>
    simp only [step] at h
    split at h
    · cases h
      exact .same _
    cases h
  | resolve now handle seen resolution =>
    simp only [step] at h
    split at h
    · obtain ⟨task, htask, rfl⟩ := map_eq_some_iff.mp h
      obtain ⟨hheld, ⟨outcome, rfl⟩ | ⟨time, rfl, rfl⟩⟩ := resolve_cases htask
      · exact .finish outcome hheld
      exact .putBack time hheld
    cases h

theorem holds_not_terminal {target : ForwardTarget}
    (h : handle.holds target = true) : target.terminal = false := by
  unfold Handle.holds at h
  unfold ForwardTarget.terminal
  cases hstat : target.status <;> simp_all

theorem finalizeTask_status (task : ForwardTask) (now : Time) :
    ((finalizeTask task now).status = task.status ∧
        (task.status = .cancelled ∨ task.doneCount < task.targetCount)) ∨
      ((finalizeTask task now).status.completedStatus = true ∧
        task.targetCount ≤ task.doneCount) := by
  simp only [finalizeTask]
  split
  · rename_i hcancel
    exact .inl ⟨rfl, .inl hcancel⟩
  split
  · rename_i hopen
    exact .inl ⟨rfl, .inr hopen⟩
  rename_i hall
  refine .inr ⟨?_, Nat.not_lt.mp hall⟩
  split
  · rfl
  split <;> rfl

/-- The statements of a draft edit. -/
def Action.isEdit : Action → Bool
  | .startEdit _ _ | .deleteRows _ | .countRows _ | .storeCount _ => true
  | _ => false

theorem edits_of_step {a : Action} (h : step s a = some t)
    (hother : a.isEdit = false) : t.edits = s.edits := by
  have htask : ∀ next : Option ForwardTask, next.map (setTask s) = some t → t.edits = s.edits := by
    intro next hnext
    obtain ⟨task, _, rfl⟩ := map_eq_some_iff.mp hnext
    rfl
  cases a with
  | startEdit | deleteRows | countRows | storeCount => cases hother
  | claim worker now lockTTL picked | markProcessing =>
    cases h
    rfl
  | readTask handle =>
    simp only [step] at h
    split at h
    · cases h
      rfl
    cases h
  | resolve now handle seen resolution =>
    simp only [step] at h
    split at h
    · exact htask _ h
    cases h
  | _ => exact htask _ h

end ImApp.Forward
