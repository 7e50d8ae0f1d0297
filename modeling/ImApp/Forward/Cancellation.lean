import ImApp.Forward.Delivery

/-!
What a cancelled forward task keeps. Nothing is claimed after the cancel, so only
the targets that were in processing then can still change, and the workers that
hold them end them. The exception is a worker that gives its target back for a
retry: the store puts it back although its task is cancelled, and nothing takes
it from there.
-/

namespace ImApp.Forward

open StepSystem KeyedTable List

variable {s t u : ForwardState} {a : Action}

/-- No worker gives a target that it holds back to a cancelled task. -/
def NoLateRetry (s : ForwardState) : Action → Prop
  | .resolve _ handle _ (.retry _) => s.task.status = .cancelled →
      s.task.targets.count handle.holds = 0
  | _ => True

theorem handles_of_step (h : step s a = some t) :
    t.handles = s.handles ∨ ∃ worker now lockTTL picked, a = .claim worker now lockTTL picked ∧
      t.handles = (claimTargets s.task worker now lockTTL picked).2 ++ s.handles := by
  have htask : ∀ next : Option ForwardTask, next.map (setTask s) = some t →
      t.handles = s.handles := by
    intro next hnext
    obtain ⟨task, _, rfl⟩ := Option.map_eq_some_iff.mp hnext
    rfl
  cases a with
  | startEdit edit selection =>
    obtain ⟨_, rfl⟩ := startEdit_cases h
    exact .inl rfl
  | deleteRows edit =>
    obtain ⟨_, _, rfl⟩ := deleteRows_cases h
    exact .inl rfl
  | countRows edit =>
    obtain ⟨_, _, _, rfl⟩ := countRows_cases h
    exact .inl rfl
  | storeCount edit =>
    obtain ⟨_, _, _, _, rfl⟩ := storeCount_cases h
    exact .inl rfl
  | claim worker now lockTTL picked =>
    cases h
    exact .inr ⟨worker, now, lockTTL, picked, rfl, rfl⟩
  | markProcessing =>
    cases h
    exact .inl rfl
  | readTask handle =>
    simp only [step] at h
    split at h
    · cases h
      exact .inl rfl
    cases h
  | resolve now handle seen resolution =>
    simp only [step] at h
    split at h
    · exact .inl (htask _ h)
    cases h
  | _ => exact .inl (htask _ h)

/-- The worker that a target's lock names was handed the target at its current
attempt. -/
def LocksHanded (s : ForwardState) : Prop :=
  ∀ target ∈ s.task.targets.rows, ∀ worker lockedUntil,
    target.status = .processing worker lockedUntil →
      ⟨target.peer, worker, target.attempts⟩ ∈ s.handles

theorem locksHanded_initial (hs : Initial s) : LocksHanded s := by
  obtain ⟨hasSource, htask⟩ := hs.task
  intro target hmem
  rw [htask] at hmem
  exact absurd hmem not_mem_nil

variable {handle : Handle}

theorem handles_mono (h : step s a = some t) (hmem : handle ∈ s.handles) : handle ∈ t.handles := by
  rcases handles_of_step h with hsame | ⟨_, _, _, _, _, hclaimed⟩
  · rw [hsame]
    exact hmem
  rw [hclaimed]
  exact mem_append_right _ hmem

/-- Rows that are processing after an update that locks no row were so before. -/
theorem LocksHanded.of_update (h : LocksHanded s) (hstep : step s a = some t)
    (p : ForwardTarget → Bool) (edit : Edit ForwardTarget.peer)
    (hedit : ∀ target worker lockedUntil,
      (edit.apply target).status ≠ .processing worker lockedUntil)
    (htargets : t.task.targets = s.task.targets.update p edit) : LocksHanded t := by
  intro target hmem worker lockedUntil hlocked
  rw [htargets] at hmem
  rcases mem_update hmem with ⟨before, _, _, rfl⟩ | ⟨hkept, _⟩
  · exact absurd hlocked (hedit before worker lockedUntil)
  exact handles_mono hstep (h target hkept worker lockedUntil hlocked)

theorem locksHanded_step (h : LocksHanded s) (hstep : step s a = some t) : LocksHanded t := by
  have hkept : ∀ target ∈ s.task.targets.rows, ∀ worker lockedUntil,
      target.status = .processing worker lockedUntil →
        ⟨target.peer, worker, target.attempts⟩ ∈ t.handles := by
    intro target hmem worker lockedUntil hlocked
    exact handles_mono hstep (h target hmem worker lockedUntil hlocked)
  have htask := taskStep_of_step hstep
  generalize hvalue : t.task = next at htask
  cases htask with
  | same => intro target hmem; exact hkept target (hvalue ▸ hmem)
  | insert now candidates =>
    intro target hmem worker lockedUntil hlocked
    rw [hvalue] at hmem
    rcases mem_insertAll hmem with hold | hnew
    · exact hkept target hold worker lockedUntil hlocked
    obtain ⟨peer, _, rfl⟩ := mem_map.mp hnew
    cases hlocked
  | delete selection =>
    intro target hmem
    rw [hvalue] at hmem
    exact hkept target (mem_of_mem_filter hmem)
  | store | submit | reschedule => intro target hmem; rw [hvalue] at hmem; exact hkept target hmem
  | cancel now =>
    exact h.of_update hstep ForwardTarget.waiting (setStatus (.ended .cancelled))
      (fun _ _ _ hlocked => by cases hlocked) (by rw [hvalue]; rfl)
  | retry now onlyFailed userIDs =>
    exact h.of_update hstep (retrySelects onlyFailed userIDs) (reopen now)
      (fun _ _ _ hlocked => by cases hlocked) (by rw [hvalue]; rfl)
  | claim worker now lockTTL picked =>
    intro target hmem holder lockedUntil hlocked
    rw [hvalue] at hmem
    rcases mem_update hmem with ⟨before, hpre, hpicked, rfl⟩ | ⟨hold, _⟩
    · cases hlocked
      cases hstep
      apply mem_append_left
      exact mem_map.mpr ⟨before, mem_filter.mpr ⟨hpre, hpicked⟩, rfl⟩
    exact hkept target hold holder lockedUntil hlocked
  | @finish now handle seen resolution outcome hheld =>
    exact h.of_update hstep handle.holds (setStatus (.ended outcome))
      (fun _ _ _ hlocked => by cases hlocked) (by rw [hvalue]; rfl)
  | @putBack now handle seen next hheld =>
    exact h.of_update hstep handle.holds (scheduleRetry next)
      (fun _ _ _ hlocked => by cases hlocked) (by rw [hvalue])

theorem finishedTask_cancelled {task : ForwardTask} {now : Time} {outcome : Outcome} :
    (finishedTask task now handle outcome).status = .cancelled ↔ task.status = .cancelled := by
  have hstat := finalizeTask_status { task with
      targets := task.targets.update handle.holds (setStatus (.ended outcome))
      doneCount := task.doneCount + 1
      counts := Function.update task.counts outcome (task.counts outcome + 1) } now
  constructor
  · intro hafter
    rcases hstat with ⟨hsame, _⟩ | ⟨hcomp, _⟩
    · exact hsame.symm.trans hafter
    unfold finishedTask at hafter
    simp [hafter, TaskStatus.completedStatus] at hcomp
  intro hpre
  simp only [finishedTask, finalizeTask, hpre, if_true]

theorem cancelled_step (hcancelled : s.task.status = .cancelled) (hallow : NoLateRetry s a)
    (hstep : step s a = some t) : t.task.status = .cancelled ∧ t.handles = s.handles ∧
      (t.task.targets = s.task.targets ∨ ∃ handle outcome,
        t.task.targets = s.task.targets.update (Handle.holds handle)
          (setStatus (.ended outcome))) := by
  have hhandles : t.handles = s.handles := by
    rcases handles_of_step hstep with hsame | ⟨worker, now, lockTTL, picked, rfl, hclaimed⟩
    · exact hsame
    rw [hclaimed]
    have hnone : s.task.targets.rows.filter (picks s.task now picked) = [] := by
      apply filter_eq_nil_iff.mpr
      intro target _
      simp [picks, hcancelled, TaskStatus.runnable]
    simp [claimTargets, hnone]
  have htask := taskStep_of_step hstep
  generalize hvalue : t.task = next at htask ⊢
  cases htask with
  | same => exact ⟨hcancelled, hhandles, .inl rfl⟩
  | insert _ _ hdraft | delete _ hdraft | store _ _ _ hdraft | submit hdraft =>
    cases hdraft.symm.trans hcancelled
  | reschedule _ hlive => simp [hcancelled, TaskStatus.live] at hlive
  | cancel _ _ hnot => exact absurd hcancelled hnot
  | retry _ _ _ hcomp => simp [hcancelled, TaskStatus.completedStatus] at hcomp
  | claim worker now lockTTL picked =>
    refine ⟨hcancelled, hhandles, .inl ?_⟩
    apply update_of_none
    intro target _
    simp [picks, hcancelled, TaskStatus.runnable]
  | @finish now handle seen resolution outcome hheld =>
    exact ⟨finishedTask_cancelled.mpr hcancelled, hhandles, .inr ⟨handle, outcome, rfl⟩⟩
  | putBack _ hheld => exact absurd (hallow hcancelled) hheld

/-- No target of a cancelled task waits for a claim. -/
def CancelSwept (s : ForwardState) : Prop :=
  s.task.status = .cancelled → ∀ target ∈ s.task.targets.rows, target.waiting = false

theorem cancelSwept_step (h : CancelSwept s) (hallow : NoLateRetry s a)
    (hstep : step s a = some t) : CancelSwept t := by
  intro hafter target hmem
  by_cases hpre : s.task.status = .cancelled
  · obtain ⟨_, _, hsame | ⟨handle, outcome, hended⟩⟩ := cancelled_step hpre hallow hstep
    · exact h hpre target (hsame ▸ hmem)
    rw [hended] at hmem
    rcases mem_update hmem with ⟨before, _, _, rfl⟩ | ⟨hkept, _⟩
    · rfl
    exact h hpre target hkept
  have htask := taskStep_of_step hstep
  generalize t.task = next at htask hafter hmem
  cases htask with
  | same | insert | delete | store | claim | putBack => exact absurd hafter hpre
  | submit | retry => cases hafter
  | reschedule status _ hlive =>
    change status = .cancelled at hafter
    simp [hafter, TaskStatus.live] at hlive
  | cancel now =>
    rcases mem_update hmem with ⟨before, _, _, rfl⟩ | ⟨_, hkept⟩
    · rfl
    exact hkept
  | finish => exact absurd (finishedTask_cancelled.mp hafter) hpre

/-- The later life of a cancelled task. A target changes once, from processing to
its end, under a handle that was handed out before. -/
structure CancelledEvolves (s t : ForwardState) : Prop where
  status : t.task.status = .cancelled
  handles : t.handles = s.handles
  kept : ∀ target ∈ s.task.targets.rows, target.terminal = true → target ∈ t.task.targets.rows
  changed : ∀ target ∈ t.task.targets.rows, target ∈ s.task.targets.rows ∨
    target.terminal = true ∧ ∃ before ∈ s.task.targets.rows, before.peer = target.peer ∧
      ∃ handle ∈ s.handles, handle.holds before = true

theorem CancelledEvolves.refl (hcancelled : s.task.status = .cancelled) : CancelledEvolves s s :=
  ⟨hcancelled, rfl, fun _ hmem _ => hmem, fun _ hmem => .inl hmem⟩

theorem CancelledEvolves.trans (first : CancelledEvolves s t) (second : CancelledEvolves t u) :
    CancelledEvolves s u where
  status := second.status
  handles := second.handles.trans first.handles
  kept target hmem hterm := second.kept target (first.kept target hmem hterm) hterm
  changed target hmem := by
    rcases second.changed target hmem with hmiddle | ⟨hterm, before, hpre, hpeer, hheld⟩
    · exact first.changed target hmiddle
    obtain ⟨handle, hhandle, hholds⟩ := hheld
    rcases first.changed before hpre with hstart | ⟨hended, _⟩
    · exact .inr ⟨hterm, before, hstart, hpeer, handle, first.handles ▸ hhandle, hholds⟩
    rw [holds_not_terminal hholds] at hended
    cases hended

section

variable (hcancelled : s.task.status = .cancelled)
include hcancelled

theorem cancelledEvolves_step (hlocks : LocksHanded s)
    (hallow : NoLateRetry s a) (hstep : step s a = some t) : CancelledEvolves s t := by
  obtain ⟨hstat, hhandles, hsame | ⟨handle, outcome, hended⟩⟩ :=
    cancelled_step hcancelled hallow hstep
  · exact ⟨hstat, hhandles, fun _ hmem _ => hsame ▸ hmem, fun _ hmem => .inl (hsame ▸ hmem)⟩
  refine ⟨hstat, hhandles, ?_, ?_⟩
  · intro target hmem hterm
    rw [hended]
    apply mem_update_of_kept hmem
    cases hholds : handle.holds target with
    | false => rfl
    | true =>
      rw [holds_not_terminal hholds] at hterm
      cases hterm
  intro target hmem
  rw [hended] at hmem
  rcases mem_update hmem with ⟨before, hpre, hholds, rfl⟩ | ⟨hkept, _⟩
  · refine .inr ⟨rfl, before, hpre, rfl, ?_⟩
    simp only [Handle.holds, Bool.and_eq_true, decide_eq_true_eq] at hholds
    obtain ⟨hpeer, hlock⟩ := hholds
    split at hlock
    · rename_i lockedBy lockedUntil hprocessing
      obtain rfl := of_decide_eq_true hlock
      refine ⟨_, hlocks before hpre _ _ hprocessing, ?_⟩
      simp [Handle.holds, hprocessing]
    cases hlock
  exact .inl hkept

theorem resolve_ends {now : Time} {seen : Option TaskStatus}
    {resolution : Resolution} {target : ForwardTarget} (hmem : target ∈ s.task.targets.rows)
    (hholds : handle.holds target = true)
    (hallow : NoLateRetry s (.resolve now handle seen resolution))
    (hstep : step s (.resolve now handle seen resolution) = some t) :
    ∃ outcome, { target with status := .ended outcome } ∈ t.task.targets.rows := by
  simp only [step] at hstep
  split at hstep
  · obtain ⟨task, htask, rfl⟩ := Option.map_eq_some_iff.mp hstep
    obtain ⟨hheld, ⟨outcome, rfl⟩ | ⟨time, rfl, rfl⟩⟩ := resolve_cases htask
    · exact ⟨outcome, mem_update_of_selected hmem hholds⟩
    exact absurd (hallow hcancelled) hheld
  cases hstep

/-- The worker that holds a target of a cancelled task can read the task and cancel
the target. -/
theorem holder_cancels {target : ForwardTarget} (hmem : target ∈ s.task.targets.rows)
    (hhandle : handle ∈ s.handles) (hholds : handle.holds target = true) :
    ∃ t, machine.Path NoLateRetry s t ∧
      { target with status := .ended .cancelled } ∈ t.task.targets.rows := by
  have hread : step s (.readTask handle) =
      some { s with reads := (handle, s.task.status) :: s.reads } := if_pos hhandle
  have hcount : s.task.targets.count handle.holds ≠ 0 := by
    intro hzero
    exact countP_eq_zero.mp hzero target hmem hholds
  have hmay : mayResolve { s with reads := (handle, s.task.status) :: s.reads } handle
      (some .cancelled) .cancelled = true := by
    simp [mayResolve, resolves, hhandle, hcancelled]
  have hcancel : step { s with reads := (handle, s.task.status) :: s.reads }
      (.resolve 0 handle (some .cancelled) .cancelled) =
        some (setTask { s with reads := (handle, s.task.status) :: s.reads }
          (finishedTask s.task 0 handle .cancelled)) := by
    simp only [step, hmay, if_true, resolve, markTargetCancelled, finishTarget, if_neg hcount,
      Option.map_some]
  have hfirst : machine.Path NoLateRetry s _ := .single (a := .readTask handle) trivial hread
  have hsecond : machine.Path NoLateRetry _ _ :=
    .single (a := .resolve 0 handle (some .cancelled) .cancelled) trivial hcancel
  refine ⟨_, hfirst.trans hsecond, ?_⟩
  exact mem_update_of_selected hmem hholds

end

/-- A worker that read the task before the cancel and then retries. -/
def lateRetry : List Action :=
  [.addTargets 0 [1] [1], .submit, .claim 7 0 60 [.user 1], .readTask ⟨.user 1, 7, 1⟩,
    .cancel 1, .resolve 2 ⟨.user 1, 7, 1⟩ (some .pending) (.retry 4)]

/-- The target of the cancelled task is waiting for a retry. -/
theorem lateRetry_waits : ¬ ∀ s, machine.Reachable s → s.task.status = .cancelled →
      ∀ target ∈ s.task.targets.rows, target.waiting = false := by
  intro hswept
  have hrun : (machine.execute newTask lateRetry).any (fun s =>
      s.task.status = .cancelled && s.task.targets.rows.any ForwardTarget.waiting) = true := by
    decide
  obtain ⟨s, hs, hlate⟩ := (Option.any_eq_true _ _).mp hrun
  rw [Bool.and_eq_true, decide_eq_true_eq, any_eq_true] at hlate
  obtain ⟨hcancelled, target, hmem, hwait⟩ := hlate
  rw [hswept s (Machine.reachable_of_execute newTask_initial hs) hcancelled target hmem] at hwait
  cases hwait

/-- In every run without a late retry a cancelled task has no waiting target, hands
out no further one, and each target in processing has a holder and ends when it
is resolved. -/
theorem cancelled_task_finishes :
    ∀ s, machine.ReachableBy NoLateRetry s → s.task.status = .cancelled →
      (∀ target ∈ s.task.targets.rows, target.waiting = false) ∧
      (∀ t, machine.Path NoLateRetry s t → CancelledEvolves s t) ∧
      ∀ target ∈ s.task.targets.rows, ∀ worker lockedUntil,
        target.status = .processing worker lockedUntil → (∃ t, machine.Path NoLateRetry s t ∧
          { target with status := .ended .cancelled } ∈ t.task.targets.rows) ∧
        ∀ now handle seen resolution t, handle.holds target = true →
          NoLateRetry s (.resolve now handle seen resolution) →
          step s (.resolve now handle seen resolution) = some t →
          ∃ outcome, { target with status := .ended outcome } ∈ t.task.targets.rows := by
  intro s hs hcancelled
  have hswept : CancelSwept s := hs.invariant CancelSwept (fun s hinitial hstat => by
      obtain ⟨hasSource, htask⟩ := hinitial.task
      rw [htask] at hstat
      cases hstat)
    (fun _ _ _ hallow h hstep => cancelSwept_step h hallow hstep)
  have hlocks : LocksHanded s := hs.invariant LocksHanded
    (fun _ hinitial => locksHanded_initial hinitial)
    (fun _ _ _ _ h hstep => locksHanded_step h hstep)
  refine ⟨hswept hcancelled, ?_, ?_⟩
  · intro t path
    have hrelation := path.relates LocksHanded
      (fun s t => s.task.status = .cancelled → CancelledEvolves s t)
      (fun s hstat => CancelledEvolves.refl hstat)
      (fun s t u hst htu hstat => (hst hstat).trans (htu (hst hstat).status))
      (fun _ _ _ _ h hstep => locksHanded_step h hstep)
      (fun _ _ _ hallow h hstep hstat => cancelledEvolves_step hstat h hallow hstep)
      hlocks
    exact hrelation hcancelled
  intro target hmem worker lockedUntil hprocessing
  constructor
  · apply holder_cancels hcancelled hmem (hlocks target hmem worker lockedUntil hprocessing)
    simp [Handle.holds, hprocessing]
  intro now handle seen resolution t hholds hallow hstep
  exact resolve_ends hcancelled hmem hholds hallow hstep

/-- A cancel while a worker holds the target. -/
def heldCancel : List Action :=
  [.addTargets 0 [1] [1], .submit, .claim 7 0 60 [.user 1], .cancel 1]

theorem heldCancel_finishes :
    ∃ s t, machine.ReachableBy NoLateRetry s ∧ machine.Path NoLateRetry s t ∧
      s.task.targets.rows = [⟨.user 1, .processing 7 60, 1, 0⟩] ∧
      ⟨.user 1, .ended .cancelled, 1, 0⟩ ∈ t.task.targets.rows := by
  have hrun : (machine.execute newTask heldCancel).any (fun s => s.task.status = .cancelled &&
      s.task.targets.rows = [⟨.user 1, .processing 7 60, 1, 0⟩]) = true := by
    decide
  obtain ⟨s, hs, hheld⟩ := (Option.any_eq_true _ _).mp hrun
  rw [Bool.and_eq_true, decide_eq_true_eq, decide_eq_true_eq] at hheld
  obtain ⟨hcancelled, hrows⟩ := hheld
  have hreach : machine.ReachableBy NoLateRetry s := by
    refine ⟨newTask, newTask_initial, ?_⟩
    apply Machine.path_of_execute_by (fun _ => True) _ _ trivial hs
    · exact fun _ _ _ _ _ _ => trivial
    intro s a ha _
    simp only [heldCancel, mem_cons, not_mem_nil, or_false] at ha
    rcases ha with rfl | rfl | rfl | rfl <;> trivial
  obtain ⟨_, _, hends⟩ := cancelled_task_finishes s hreach hcancelled
  obtain ⟨⟨t, path, hended⟩, _⟩ := hends ⟨.user 1, .processing 7 60, 1, 0⟩
    (by rw [hrows]; exact mem_cons_self) 7 60 rfl
  exact ⟨s, t, hreach, path, hrows, hended⟩

end ImApp.Forward
