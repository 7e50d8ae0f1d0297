import Mathlib.Data.Nat.Basic
import Mathlib.Order.Basic
import Mathlib.Tactic.Push

/-!
Labelled step systems. An action either is disabled in a state or takes the
state to one successor, so a nondeterministic component puts its choices into
the action. A run may be restricted by a condition on each step, which is
evaluated in the state the step starts from. Every safety theorem is one
induction over such runs.
-/

namespace StepSystem

open List Option

variable {σ α β : Type*}

structure Machine (σ α : Type*) where
  initial : σ → Prop
  step : σ → α → Option σ

namespace Machine

variable (m : Machine σ α)

/-- Finitely many steps, each of which meets `allowed` where it starts. -/
inductive Path (allowed : σ → α → Prop) : σ → σ → Prop
  | refl (s : σ) : Path allowed s s
  | tail {s t u : σ} {a : α} : Path allowed s t → allowed t a →
      m.step t a = some u → Path allowed s u

/-- The states of the runs all of whose steps meet `allowed`. -/
def ReachableBy (allowed : σ → α → Prop) (s : σ) : Prop :=
  ∃ start, m.initial start ∧ m.Path allowed start s

/-- The condition that admits every step. -/
def unrestricted : σ → α → Prop := fun _ _ => True

/-- The states of all runs. -/
def Reachable (s : σ) : Prop := m.ReachableBy unrestricted s

variable {m} {allowed : σ → α → Prop}

variable {s t : σ}

theorem Path.trans {u : σ} (first : m.Path allowed s t)
    (second : m.Path allowed t u) : m.Path allowed s u := by
  induction second with
  | refl => exact first
  | tail _ hallow hstep ih => exact .tail ih hallow hstep

theorem Path.single {a : α} (hallow : allowed s a)
    (hstep : m.step s a = some t) : m.Path allowed s t :=
  .tail (.refl s) hallow hstep

variable {wider : σ → α → Prop}

theorem Path.weaken (hwider : ∀ s a, allowed s a → wider s a) (path : m.Path allowed s t) :
    m.Path wider s t := by
  induction path with
  | refl => exact .refl _
  | tail _ hallow hstep ih => exact .tail ih (hwider _ _ hallow) hstep

theorem ReachableBy.extend (hs : m.ReachableBy allowed s)
    (path : m.Path allowed s t) : m.ReachableBy allowed t := by
  obtain ⟨start, hstart, before⟩ := hs
  exact ⟨start, hstart, before.trans path⟩

theorem ReachableBy.weaken
    (hwider : ∀ s a, allowed s a → wider s a) (hs : m.ReachableBy allowed s) :
    m.ReachableBy wider s := by
  obtain ⟨start, hstart, path⟩ := hs
  exact ⟨start, hstart, path.weaken hwider⟩

theorem ReachableBy.reachable (hs : m.ReachableBy allowed s) : m.Reachable s :=
  hs.weaken (fun _ _ _ => trivial)

theorem reachableBy_initial (hs : m.initial s) : m.ReachableBy allowed s :=
  ⟨s, hs, .refl s⟩

theorem Path.preserves (invariant : σ → Prop)
    (hstep : ∀ s a t, allowed s a → invariant s → m.step s a = some t → invariant t) (path : m.Path allowed s t) (hs : invariant s) : invariant t := by
  induction path with
  | refl => exact hs
  | tail _ hallow hnext ih => exact hstep _ _ _ hallow ih hnext

theorem ReachableBy.invariant (invariant : σ → Prop) (hinitial : ∀ s, m.initial s → invariant s)
    (hstep : ∀ s a t, allowed s a → invariant s → m.step s a = some t → invariant t) (hs : m.ReachableBy allowed s) : invariant s := by
  obtain ⟨start, hstart, path⟩ := hs
  exact path.preserves invariant hstep (hinitial start hstart)

/-- A reflexive and transitive relation between the two ends of each step
relates the two ends of a path. `invariant` is known on the whole path. -/
theorem Path.relates (invariant : σ → Prop) (relation : σ → σ → Prop) (hrefl : ∀ s, relation s s)
    (htrans : ∀ s t u, relation s t → relation t u → relation s u)
    (hkeep : ∀ s a t, allowed s a → invariant s → m.step s a = some t → invariant t)
    (hstep : ∀ s a t, allowed s a → invariant s → m.step s a = some t → relation s t) (path : m.Path allowed s t) (hs : invariant s) : relation s t := by
  induction path with
  | refl => exact hrefl _
  | tail before hallow hnext ih =>
    have hmiddle := before.preserves invariant hkeep hs
    exact htrans _ _ _ ih (hstep _ _ _ hallow hmiddle hnext)

variable (m) in
/-- Executes a list of actions, for checking a run by evaluation. -/
def execute (s : σ) : List α → Option σ
  | [] => some s
  | a :: rest => (m.step s a).bind (fun t => execute t rest)

variable {actions : List α}

/-- A run that is checked by evaluation meets a condition that follows from an
invariant of its actions. -/
theorem path_of_execute_by (invariant : σ → Prop)
    (hkeep : ∀ s a t, a ∈ actions → invariant s → m.step s a = some t → invariant t)
    (hallow : ∀ s a, a ∈ actions → invariant s → allowed s a) (hs : invariant s) (hrun : m.execute s actions = some t) :
    m.Path allowed s t := by
  induction actions generalizing s with
  | nil =>
    simp only [execute, some.injEq] at hrun
    subst hrun
    exact .refl _
  | cons a rest ih =>
    simp only [execute, bind_eq_some_iff] at hrun
    obtain ⟨next, hnext, hrest⟩ := hrun
    have hfirst : a ∈ a :: rest := mem_cons_self
    have hpath := ih (fun s b t hb => hkeep s b t (mem_cons_of_mem _ hb))
      (fun s b hb => hallow s b (mem_cons_of_mem _ hb)) (hkeep s a next hfirst hs hnext)
      hrest
    exact (Path.single (hallow s a hfirst hs) hnext).trans hpath

variable (m) in
/-- Executes a list of actions as long as each of them is allowed. -/
def executeBy (allowed : σ → α → Prop) [∀ s a, Decidable (allowed s a)] (s : σ) : List α → Option σ
  | [] => some s
  | a :: rest => if allowed s a then (m.step s a).bind (fun t => executeBy allowed t rest) else none

variable (m) in
/-- The actions lead from one state to the other, and each of them is allowed. -/
def Follows (allowed : σ → α → Prop) (s : σ) : List α → σ → Prop
  | [], t => s = t
  | a :: rest, t => allowed s a ∧ ∃ next, m.step s a = some next ∧ Follows allowed next rest t

theorem follows_append {front back : List α} : m.Follows allowed s (front ++ back) t ↔
      ∃ middle, m.Follows allowed s front middle ∧ m.Follows allowed middle back t := by
  induction front generalizing s with
  | nil => simp [Follows]
  | cons a rest ih =>
    simp only [cons_append, Follows, ih]
    constructor
    · rintro ⟨hallow, next, hnext, middle, hfront, hback⟩
      exact ⟨middle, ⟨hallow, next, hnext, hfront⟩, hback⟩
    rintro ⟨middle, ⟨hallow, next, hnext, hfront⟩, hback⟩
    exact ⟨hallow, next, hnext, middle, hfront, hback⟩

theorem follows_of_executeBy [∀ s a, Decidable (allowed s a)]
    (hrun : m.executeBy allowed s actions = some t) : m.Follows allowed s actions t := by
  induction actions generalizing s with
  | nil => exact some.inj hrun
  | cons a rest ih =>
    rw [executeBy] at hrun
    split at hrun
    case isTrue hallow =>
      obtain ⟨next, hnext, hrest⟩ := bind_eq_some_iff.mp hrun
      exact ⟨hallow, next, hnext, ih hrest⟩
    · cases hrun

theorem follows_of_execute (hrun : m.execute s actions = some t) :
    m.Follows unrestricted s actions t := by
  induction actions generalizing s with
  | nil => exact some.inj hrun
  | cons a rest ih =>
    obtain ⟨next, hnext, hrest⟩ := bind_eq_some_iff.mp hrun
    exact ⟨trivial, next, hnext, ih hrest⟩

theorem Follows.path (hrun : m.Follows allowed s actions t) : m.Path allowed s t := by
  induction actions generalizing s with
  | nil => exact hrun ▸ .refl s
  | cons a rest ih =>
    obtain ⟨hallow, next, hnext, hrest⟩ := hrun
    exact (Path.single hallow hnext).trans (ih hrest)

theorem path_of_execute (hrun : m.execute s actions = some t) : m.Path unrestricted s t :=
  (follows_of_execute hrun).path

theorem path_of_executeBy [∀ s a, Decidable (allowed s a)]
    (hrun : m.executeBy allowed s actions = some t) : m.Path allowed s t :=
  (follows_of_executeBy hrun).path

theorem reachable_of_execute (hs : m.initial s)
    (hrun : m.execute s actions = some t) : m.Reachable t :=
  ⟨s, hs, path_of_execute hrun⟩

theorem Follows.preserves (invariant : σ → Prop)
    (hstep : ∀ s a t, allowed s a → invariant s → m.step s a = some t → invariant t) (hrun : m.Follows allowed s actions t) (hs : invariant s) :
    invariant t := by
  induction actions generalizing s with
  | nil => exact hrun ▸ hs
  | cons a rest ih =>
    obtain ⟨hallow, next, hnext, hrest⟩ := hrun
    exact ih hrest (hstep _ _ _ hallow hs hnext)

theorem Follows.weaken (invariant : σ → Prop)
    (hstep : ∀ s a t, allowed s a → invariant s → m.step s a = some t → invariant t)
    (hwider : ∀ s a t, allowed s a → invariant s → m.step s a = some t → wider s a) (hrun : m.Follows allowed s actions t) (hs : invariant s) :
    m.Follows wider s actions t := by
  induction actions generalizing s with
  | nil => exact hrun
  | cons a rest ih =>
    obtain ⟨hallow, next, hnext, hrest⟩ := hrun
    exact ⟨hwider _ _ _ hallow hs hnext, next, hnext, ih hrest (hstep _ _ _ hallow hs hnext)⟩

variable (m) in
structure Run where
  state : ℕ → σ
  action : ℕ → α
  start : m.initial (state 0)
  next : ∀ n, m.step (state n) (action n) = some (state (n + 1))

theorem Run.path (run : m.Run) (n k : ℕ) :
    m.Path unrestricted (run.state n) (run.state (n + k)) := by
  induction k with
  | zero => exact .refl _
  | succ k ih => exact .tail ih trivial (run.next (n + k))

theorem Run.reachable (run : m.Run) (n : ℕ) : m.Reachable (run.state n) := by
  have hpath := run.path 0 n
  rw [Nat.zero_add] at hpath
  exact ⟨_, run.start, hpath⟩

/-- A weakly fair run takes an action that stays enabled. -/
def Run.FairTo (run : m.Run) (a : α) : Prop :=
  ∀ n, (∀ k, n ≤ k → (m.step (run.state k) a).isSome) → ∃ k, n ≤ k ∧ run.action k = a

theorem Run.FairTo.taken {run : m.Run} {a : α} (hfair : run.FairTo a) {n : ℕ}
    (hstart : (m.step (run.state n) a).isSome)
    (hkeep : ∀ k, n ≤ k → (m.step (run.state k) a).isSome → run.action k ≠ a →
      (m.step (run.state (k + 1)) a).isSome) : ∃ k, n ≤ k ∧ run.action k = a := by
  by_contra hnever
  push Not at hnever
  obtain ⟨k, hk, htaken⟩ := hfair n (fun k hk => by
    induction k, hk using Nat.le_induction with
    | base => exact hstart
    | succ k hk ih => exact hkeep k hk ih (hnever k hk))
  exact hnever k hk htaken

theorem eventually_constant {f : ℕ → ℕ} (start : ℕ) (hstep : ∀ n, start ≤ n → f (n + 1) ≤ f n) :
    ∃ N, start ≤ N ∧ ∀ n, N ≤ n → f n = f N := by
  induction hvalue : f start using Nat.strong_induction_on generalizing start with
  | _ value ih =>
    by_cases hconstant : ∀ n, start ≤ n → f n = f start
    · exact ⟨start, le_rfl, hconstant⟩
    push Not at hconstant
    obtain ⟨n, hn, hne⟩ := hconstant
    have hle : ∀ k, start ≤ k → f k ≤ f start := by
      intro k hk
      induction k, hk using Nat.le_induction with
      | base => exact le_rfl
      | succ k hk hprev => exact (hstep k hk).trans hprev
    have hlt : f n < value := hvalue ▸ lt_of_le_of_ne (hle n hn) hne
    obtain ⟨N, hN, hafter⟩ := ih (f n) hlt n (fun k hk => hstep k (hn.trans hk)) rfl
    exact ⟨N, hn.trans hN, hafter⟩

/-- What every change of costs a unit of some measure is constant from some time
on. -/
theorem Run.eventually_still (run : m.Run) (view : σ → β) (measure : σ → ℕ) (start : ℕ)
    (hstep : ∀ n, start ≤ n → view (run.state (n + 1)) = view (run.state n) ∧
        measure (run.state (n + 1)) ≤ measure (run.state n) ∨
      measure (run.state (n + 1)) < measure (run.state n)) :
    ∃ N, start ≤ N ∧ ∀ n, N ≤ n → view (run.state n) = view (run.state N) := by
  have hle : ∀ n, start ≤ n → measure (run.state (n + 1)) ≤ measure (run.state n) := by
    intro n hn
    rcases hstep n hn with ⟨_, hle⟩ | hlt
    · exact hle
    exact hlt.le
  obtain ⟨N, hN, hconstant⟩ := eventually_constant (f := fun n => measure (run.state n)) start hle
  refine ⟨N, hN, fun n hn => ?_⟩
  induction n, hn using Nat.le_induction with
  | base => rfl
  | succ n hn ih =>
    rcases hstep n (hN.trans hn) with ⟨hview, _⟩ | hlt
    · exact hview.trans ih
    have hnow := hconstant n hn
    have hnext := hconstant (n + 1) (hn.trans n.le_succ)
    omega

end Machine

end StepSystem
