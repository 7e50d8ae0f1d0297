import ImApp.Library.StepSystem
import Mathlib.Data.List.Basic

/-!
Asynchronous operations on a shared state. An operation runs in one go up to its
next wait; what it waits with is a task, which goes on when its answer arrives.
Sessions follow one another, and a task belongs to the session that its operation
was started in. When the tasks of earlier sessions leave the shared state alone,
the operations of a session see a run that has no other session.
-/

namespace AsyncTasks

open StepSystem List Option

variable {σ κ ε ρ : Type*}

/-- What starts an operation, what an answer does to a wait, and what a new session
does to the shared state. Both give the waits that follow. -/
structure Program (σ κ ε ρ : Type*) where
  start : ε → σ → Option (σ × List κ)
  resume : κ → ρ → σ → Option (σ × List κ)
  endSession : σ → σ

structure Task (κ : Type*) where
  session : ℕ
  wait : κ
  deriving DecidableEq

structure State (σ κ : Type*) where
  shared : σ
  session : ℕ
  tasks : List (Task κ)

inductive Action (κ ε ρ : Type*) where
  | start (event : ε)
  | resume (task : Task κ) (answer : ρ)
  | endSession

namespace State

/-- The state without the tasks of earlier sessions. -/
def own (s : State σ κ) : State σ κ :=
  { s with tasks := s.tasks.filter (fun task => task.session = s.session) }

/-- A piece of an operation of a session has run. -/
def after (s : State σ κ) (session : ℕ) (result : σ × List κ) : State σ κ :=
  { s with
    shared := result.1
    tasks := s.tasks ++ result.2.map (fun wait => ⟨session, wait⟩) }

end State

section Machine

variable [DecidableEq κ] (program : Program σ κ ε ρ)

def step (s : State σ κ) : Action κ ε ρ → Option (State σ κ)
  | .start event => (program.start event s.shared).map (s.after s.session)
  | .resume task answer => if task ∈ s.tasks then (program.resume task.wait answer s.shared).map
        (({ s with tasks := s.tasks.erase task } : State σ κ).after task.session)
    else none
  | .endSession =>
    some { s with shared := program.endSession s.shared, session := s.session + 1 }

def machine (initial : σ → Prop) : Machine (State σ κ) (Action κ ε ρ) where
  initial s := initial s.shared ∧ s.tasks = []
  step := step program

/-- A task of an earlier session that goes on changes nothing and waits no more. -/
def Quiet (s : State σ κ) : Action κ ε ρ → Prop
  | .resume task answer => task.session = s.session ∨
      program.resume task.wait answer s.shared = some (s.shared, [])
  | _ => True

end Machine

/-- The action is one of the operations of a session. -/
def ofSession (session : ℕ) : Action κ ε ρ → Bool
  | .start _ => true
  | .resume task _ => task.session = session
  | .endSession => false

/-- The session goes on. -/
def isEnd : Action κ ε ρ → Bool
  | .endSession => true
  | _ => false

variable {program : Program σ κ ε ρ} {s t : State σ κ}

/-- No task is of a session to come. -/
def Started (s : State σ κ) : Prop := ∀ task ∈ s.tasks, task.session ≤ s.session

theorem started_after {session : ℕ} (hs : Started s) (hsess : session ≤ s.session)
    (result : σ × List κ) : Started (s.after session result) := by
  intro task htask
  rcases mem_append.mp htask with htask | htask
  · exact hs task htask
  obtain ⟨wait, _, rfl⟩ := List.mem_map.mp htask
  exact hsess

theorem own_after (result : σ × List κ) : (s.after s.session result).own =
    s.own.after s.session result := by
  have hnew : (result.2.map fun wait => (⟨s.session, wait⟩ : Task κ)).filter
      (fun task => task.session = s.session) = result.2.map fun wait => ⟨s.session, wait⟩ := by
    apply filter_eq_self.mpr
    intro task htask
    obtain ⟨wait, _, rfl⟩ := List.mem_map.mp htask
    exact decide_eq_true rfl
  rw [State.own, State.after, filter_append]
  simp only [hnew]
  rfl

variable [DecidableEq κ]

variable {action : Action κ ε ρ}

theorem resume_some {task : Task κ} {answer : ρ}
    (hstep : step program s (.resume task answer) = some t) :
    task ∈ s.tasks ∧ ∃ result, program.resume task.wait answer s.shared = some result ∧
      ({ s with tasks := s.tasks.erase task } : State σ κ).after task.session result = t := by
  simp only [step] at hstep
  split at hstep
  case isTrue hmem => exact ⟨hmem, map_eq_some_iff.mp hstep⟩
  cases hstep

theorem started_step (hs : Started s) (hstep : step program s action = some t) : Started t := by
  cases action with
  | start event =>
    obtain ⟨result, _, rfl⟩ := map_eq_some_iff.mp hstep
    exact started_after hs le_rfl result
  | resume task answer =>
    obtain ⟨hmem, result, _, rfl⟩ := resume_some hstep
    have hrest : Started ({ s with tasks := s.tasks.erase task } : State σ κ) :=
      fun other hother => hs other (mem_of_mem_erase hother)
    exact started_after hrest (hs task hmem) result
  | endSession =>
    cases hstep
    exact fun task htask => (hs task htask).trans (Nat.le_succ _)

theorem step_session (hsame : isEnd action = false)
    (hstep : step program s action = some t) : t.session = s.session := by
  cases action with
  | start event =>
    obtain ⟨result, _, rfl⟩ := map_eq_some_iff.mp hstep
    rfl
  | resume task answer =>
    obtain ⟨-, result, -, rfl⟩ := resume_some hstep
    rfl
  | endSession => cases hsame

/-- An action of the session does to its own tasks what it does among all tasks. -/
theorem own_step (hown : ofSession s.session action = true)
    (hstep : step program s action = some t) : step program s.own action = some t.own := by
  cases action with
  | start event =>
    obtain ⟨result, hres, rfl⟩ := map_eq_some_iff.mp hstep
    rw [own_after]
    exact map_eq_some_iff.mpr ⟨result, hres, rfl⟩
  | resume task answer =>
    obtain ⟨hmem, result, hres, rfl⟩ := resume_some hstep
    have hsess : task.session = s.session := of_decide_eq_true hown
    have hthere : task ∈ s.own.tasks := mem_filter.mpr ⟨hmem, hown⟩
    have herase : ({ s with tasks := s.tasks.erase task } : State σ κ).own =
        { s.own with tasks := s.own.tasks.erase task } := by
      rw [State.own, ← erase_filter]
      rfl
    simp only [step, if_pos hthere]
    rw [hsess]
    refine map_eq_some_iff.mpr ⟨result, hres, ?_⟩
    rw [own_after (s := { s with tasks := s.tasks.erase task }), herase]
  | endSession => cases hown

theorem other_step (hother : ofSession s.session action = false)
    (hsame : isEnd action = false) (hquiet : Quiet program s action)
    (hstep : step program s action = some t) : t.own = s.own := by
  cases action with
  | start event => cases hother
  | resume task answer =>
    obtain ⟨hmem, result, hres, rfl⟩ := resume_some hstep
    have hsess : task.session ≠ s.session := of_decide_eq_false hother
    obtain rfl : result = (s.shared, []) :=
      some.inj (hres.symm.trans (hquiet.resolve_left hsess))
    have hnone : task ∉ s.tasks.filter (fun task => task.session = s.session) := by
      intro hown
      exact hsess (of_decide_eq_true (mem_filter.mp hown).2)
    simp only [State.own, State.after, map_nil, append_nil]
    rw [← erase_filter, erase_of_not_mem hnone]
  | endSession => cases hsame

/-- Where the tasks of earlier sessions are quiet, the operations of a session lead
by themselves to where they lead among those of the others. -/
theorem replay_own {initial : σ → Prop} {actions : List (Action κ ε ρ)}
    (hsame : ∀ action ∈ actions, isEnd action = false)
    (hrun : (machine program initial).Follows (Quiet program) s actions t) :
    (machine program initial).execute s.own (actions.filter (ofSession s.session)) =
      some t.own := by
  induction actions generalizing s with
  | nil =>
    obtain rfl : s = t := hrun
    rfl
  | cons action rest ih =>
    obtain ⟨hquiet, next, hnext, hrest⟩ := hrun
    have hend := hsame action mem_cons_self
    have hsess := step_session hend hnext
    have hlater := ih (fun other hother => hsame other (mem_cons_of_mem _ hother)) hrest
    rw [hsess] at hlater
    cases hown : ofSession s.session action with
    | true =>
      rw [filter_cons_of_pos hown, Machine.execute]
      exact bind_eq_some_iff.mpr ⟨next.own, own_step hown hnext, hlater⟩
    | false =>
      rw [filter_cons_of_neg (by simp [hown]), ← other_step hown hend hquiet hnext]
      exact hlater

theorem own_endSession (hs : Started s)
    (hstep : step program s (.endSession : Action κ ε ρ) = some t) :
    t.own = ⟨program.endSession s.shared, t.session, []⟩ := by
  cases hstep
  have hnone : s.tasks.filter (fun task => task.session = s.session + 1) = [] := by
    apply filter_eq_nil_iff.mpr
    intro task htask hnow
    have hle := hs task htask
    simp only [decide_eq_true_eq] at hnow
    omega
  rw [State.own, hnone]

end AsyncTasks
