import ImApp.SqliteClient.Serial

/-!
Who waits for whom. A call that is queued waits for the call before it, a
transaction for its callback, a task for what it awaits. No call waits for itself
as long as no callback awaits, directly or through other tasks, a call that has
not finished; and a call whose predecessor finishes is executed in every fair run.
-/

namespace ImApp.SqliteClient

open State

open Relation (ReflTransGen TransGen)

variable {D Sql : Type*} {s t : State D Sql} {driver : Driver D Sql} {id : Nat} {call : Call Sql}

namespace State

variable (s : State D Sql)

def Awaits (waiting node : Awaited) : Prop :=
  ∃ id context callbackOf, waiting = .task id ∧
    s.tasks[id]? = some ⟨context, callbackOf, .awaiting node⟩

inductive WaitsFor : Awaited → Awaited → Prop
  | queued {id previous : Nat} {request : Request Sql} {context : Option Nat}
      (hcall : s.calls[id]? = some ⟨request, context, .queued (some previous)⟩)
      (hopen : s.finished previous = false) : WaitsFor (.call id) (.call previous)
  | callback {id task : Nat} (hcb : s.callback id = some task) :
      WaitsFor (.call id) (.task task)
  | awaits {waiting node : Awaited} (h : s.Awaits waiting node) : WaitsFor waiting node

def WaitsForItself (id : Nat) : Prop := TransGen s.WaitsFor (.call id) (.call id)

/-- The task is a callback of a transaction that is open, or such a callback waits
for it. -/
def HeldUp (task : Nat) : Prop :=
  ∃ id callback, s.callback id = some callback ∧ ReflTransGen s.Awaits (.task callback) (.task task)

end State

/-- No callback comes to wait for a call that has not finished. -/
def OrderlyAwait (s : State D Sql) : Action Sql → Prop
  | .await task node =>
    s.HeldUp task → ∀ id, ReflTransGen s.Awaits node (.call id) → s.finished id = true
  | _ => True

/-- The condition under which the client keeps its transactions apart. -/
def Orderly (driver : Driver D Sql) (s : State D Sql) (action : Action Sql) : Prop :=
  OrderlyIssue driver s action ∧ OrderlyAwait s action

/-- What a callback waits for has finished. -/
def CallbacksFree (s : State D Sql) : Prop :=
  ∀ id callback node, s.callback id = some callback →
    ReflTransGen s.Awaits (.task callback) (.call node) → s.finished node = true

variable {node : Awaited}

theorem awaits_call : ¬ s.Awaits (.call id) node := by
  rintro ⟨_, _, _, heq, _⟩
  cases heq

theorem not_waits_of_finished (hdone : s.finished id = true) : ¬ s.WaitsFor (.call id) node := by
  intro h
  cases h with
  | queued hcall => cases finished_iff.mp hdone _ hcall
  | callback hcb =>
    obtain ⟨_, _, hcall⟩ := callback_eq_some.mp hcb
    cases finished_iff.mp hdone _ hcall
  | awaits h => exact awaits_call h

/-- What a call waits for: an earlier call, a task that holds up a transaction, or
a call that has finished. -/
theorem waits_cases (hchain : Chain s) (hfree : CallbacksFree s)
    (h : TransGen s.WaitsFor (.call id) node) :
    (∃ earlier < id, node = .call earlier) ∨ (∃ task, node = .task task ∧ s.HeldUp task) ∨
      ∃ other, node = .call other ∧ s.finished other = true := by
  have hstep : ∀ earlier ≤ id, ∀ node, s.WaitsFor (.call earlier) node →
      (∃ earlier < id, node = .call earlier) ∨ (∃ task, node = .task task ∧ s.HeldUp task) := by
    intro earlier hle node hwaits
    cases hwaits with
    | queued hcall =>
      have hlt := (hchain.queued earlier _ _ hcall rfl).earlier _ rfl
      exact .inl ⟨_, hlt.trans_le hle, rfl⟩
    | callback hcb => exact .inr ⟨_, rfl, _, _, hcb, .refl⟩
    | awaits h => exact absurd h awaits_call
  induction h with
  | single hfirst => exact (hstep id le_rfl _ hfirst).imp_right .inl
  | @tail _ node _ hlast ih =>
    rcases ih with ⟨earlier, hlt, rfl⟩ | ⟨task, rfl, holder, callback, hcb, hpath⟩ |
      ⟨other, rfl, hdone⟩
    · exact (hstep earlier hlt.le _ hlast).imp_right .inl
    · cases hlast with
      | awaits h =>
        have hpath := hpath.tail h
        cases node with
        | task next => exact .inr (.inl ⟨next, rfl, holder, callback, hcb, hpath⟩)
        | call other => exact .inr (.inr ⟨other, rfl, hfree holder callback other hcb hpath⟩)
    exact absurd hlast (not_waits_of_finished hdone)

theorem not_waits_for_itself (hchain : Chain s) (hfree : CallbacksFree s) :
    ¬ s.WaitsForItself id := by
  intro hcycle
  rcases waits_cases hchain hfree hcycle with ⟨_, hlt, ⟨⟩⟩ | ⟨_, heq, _⟩ | ⟨_, ⟨⟩, hdone⟩
  · exact absurd hlt (Nat.lt_irrefl _)
  · cases heq
  obtain ⟨_, hfirst, _⟩ := TransGen.head'_iff.mp hcycle
  exact not_waits_of_finished hdone hfirst

theorem path_over_edge {α : Type*} {old new : α → α → Prop} {source target x y : α}
    (hnew : ∀ a b, new a b → old a b ∨ (a = source ∧ b = target)) (h : ReflTransGen new x y) :
    ReflTransGen old x y ∨ (ReflTransGen old x source ∧ ReflTransGen old target y) := by
  induction h with
  | refl => exact .inl .refl
  | tail _ hstep ih =>
    rcases hnew _ _ hstep with hold | ⟨rfl, rfl⟩
    · exact ih.imp (·.tail hold) (fun ⟨hfirst, hlast⟩ => ⟨hfirst, hlast.tail hold⟩)
    exact .inr ⟨ih.elim id And.left, .refl⟩

structure Free (s : State D Sql) : Prop where
  chain : Chain s
  callbacks : CallbacksFree s
  known : ∀ waiting id, s.Awaits waiting (.call id) → id < s.calls.length

/-- A step that starts no wait, and in which a new callback waits for nothing. -/
theorem Free.of_frame (h : Free s) (hchain : Chain t)
    (hawaits : ∀ waiting node, t.Awaits waiting node → s.Awaits waiting node)
    (hcb : ∀ id task, t.callback id = some task →
      s.callback id = some task ∨ ∀ node, ¬ t.Awaits (.task task) node)
    (hfinished : ∀ id < s.calls.length, s.finished id = true → t.finished id = true)
    (hlen : s.calls.length ≤ t.calls.length) : Free t := by
  refine ⟨hchain, ?_, fun waiting id hwaits =>
    (h.known waiting id (hawaits _ _ hwaits)).trans_le hlen⟩
  intro id callback node hcall hpath
  rcases hcb id callback hcall with hold | hnone
  · have hpath := ReflTransGen.mono hawaits _ _ hpath
    have hdone := h.callbacks id callback node hold hpath
    rcases hpath.cases_tail with heq | ⟨waiting, _, hlast⟩
    · cases heq
    exact hfinished node (h.known waiting node hlast) hdone
  rcases hpath.cases_head with heq | ⟨_, hfirst, _⟩
  · cases heq
  exact absurd hfirst (hnone _)

theorem awaits_of_tasks (htasks : t.tasks = s.tasks) (waiting node : Awaited)
    (h : t.Awaits waiting node) : s.Awaits waiting node := by
  rw [State.Awaits, htasks] at h
  exact h

variable {context : Option Nat}

theorem awaits_newTask {callbackOf : Option Nat} {waiting : Awaited}
    (h : (s.newTask context callbackOf).Awaits waiting node) : s.Awaits waiting node := by
  obtain ⟨id, found, of, rfl, htask⟩ := h
  rcases append_cases htask with hold | ⟨_, heq⟩
  · exact ⟨id, found, of, rfl, hold⟩
  cases heq

theorem awaits_setPhase {phase : Phase} {waiting : Awaited}
    (h : (s.setPhase id phase).Awaits waiting node) :
    s.Awaits waiting node ∨ (waiting = .task id ∧ phase = .awaiting node) := by
  obtain ⟨other, context, of, rfl, htask⟩ := h
  rw [getElem_setPhase, Option.map_eq_some_iff] at htask
  obtain ⟨old, hold, heq⟩ := htask
  split at heq
  case isTrue hsame => exact .inr ⟨congrArg Awaited.task hsame.symm, congrArg Task.phase heq⟩
  case isFalse => exact .inl ⟨other, context, of, rfl, heq ▸ hold⟩

theorem Free.setPhase (h : Free s) {phase : Phase} (hphase : ∀ node, phase ≠ .awaiting node)
    (hcalls : t.calls = s.calls) (htail : t.tail = s.tail)
    (htasks : t.tasks = (s.setPhase id phase).tasks) : Free t := by
  refine h.of_frame (h.chain.of_same hcalls htail) ?_ ?_ ?_ (hcalls ▸ le_rfl)
  · intro waiting node hwaits
    rcases awaits_setPhase (awaits_of_tasks htasks _ _ hwaits) with hold | ⟨_, heq⟩
    · exact hold
    exact absurd heq (hphase node)
  · intro id task hcall
    exact .inl (callback_of_calls hcalls ▸ hcall)
  intro id _ hdone
  exact (finished_of_calls hcalls).trans hdone

/-- A callback waits for what has finished; another task may wait for anything. -/
theorem Free.await (h : Free s) {task : Nat} (hnode : s.exists_ node = true)
    (horderly : OrderlyAwait s (.await task node : Action Sql)) :
    Free (s.setPhase task (.awaiting node)) := by
  have hnew : ∀ waiting other, (s.setPhase task (.awaiting node)).Awaits waiting other →
      s.Awaits waiting other ∨ (waiting = .task task ∧ other = node) := by
    intro waiting other hwaits
    refine (awaits_setPhase hwaits).imp_right (And.imp_right fun heq => ?_)
    cases heq
    rfl
  refine ⟨h.chain.of_same rfl rfl, ?_, ?_⟩
  · intro id callback other hcall hpath
    rcases path_over_edge hnew hpath with hold | ⟨hfirst, hlast⟩
    · exact h.callbacks id callback other hcall hold
    exact horderly ⟨id, callback, hcall, hfirst⟩ other hlast
  intro waiting id hwaits
  rcases hnew waiting _ hwaits with hold | ⟨_, rfl⟩
  · exact h.known waiting id hold
  exact of_decide_eq_true hnode

theorem Free.append (h : Free s) (hchain : Chain t) (hstage : ∀ task, call.stage ≠ .calling task)
    (hcalls : t.calls = s.calls ++ [call]) (htasks : t.tasks = s.tasks) : Free t := by
  refine h.of_frame hchain (awaits_of_tasks htasks) ?_ ?_ ?_
  · intro id task hcall
    exact .inl (callback_append hstage hcalls ▸ hcall)
  · intro id hlt hdone
    rw [State.finished] at hdone ⊢
    rwa [hcalls, List.getElem?_append_left hlt]
  rw [hcalls, List.length_append]
  exact Nat.le_add_right _ _

theorem Free.setStage (h : Free s) {stage : Stage} (hchain : Chain t)
    (hcall : s.calls[id]? = some call) (hopen : call.stage ≠ .finished)
    (hcalls : t.calls = (s.setStage id stage).calls)
    (hawaits : ∀ waiting node, t.Awaits waiting node → s.Awaits waiting node)
    (hstage : ∀ task, stage = .calling task → s.tasks.length ≤ task) : Free t := by
  refine h.of_frame hchain hawaits ?_ ?_ ?_
  · intro other task hother
    obtain ⟨request, context, hfound⟩ := callback_eq_some.mp hother
    rw [hcalls] at hfound
    rcases setStage_cases hcall hfound with ⟨_, heq⟩ | ⟨_, hold⟩
    · refine .inr fun node hwaits => ?_
      obtain ⟨found, _, _, heq', htask⟩ := hawaits _ _ hwaits
      cases heq'
      have hlt := (List.getElem?_eq_some_iff.mp htask).1
      exact absurd hlt (Nat.not_lt.mpr (hstage task (congrArg Call.stage heq).symm))
    exact .inl (callback_eq_some.mpr ⟨request, context, hold⟩)
  · intro other _ hdone
    have hne : other ≠ id := by
      rintro rfl
      exact hopen (finished_iff.mp hdone call hcall)
    rw [finished_of_calls hcalls, finished_setStage_of_ne hne]
    exact hdone
  rw [hcalls, State.setStage, List.length_modify]

theorem free_step {action : Action Sql} (horderly : OrderlyAwait s action) (h : Free s)
    (hstep : step driver s action = some t) : Free t := by
  have hchain := chain_step h.chain hstep
  cases effect_of_step hstep with
  | arrived | spawned =>
    exact h.of_frame hchain (fun _ _ hwaits => awaits_newTask hwaits) (fun _ _ hcall => .inl hcall)
      (fun _ _ hdone => hdone) le_rfl
  | queued | executed => exact h.append hchain (fun _ => Stage.noConfusion) rfl rfl
  | awaited htask hnode => exact h.await hnode horderly
  | woken | ended | settled => exact h.setPhase (fun _ => Phase.noConfusion) rfl rfl rfl
  | began hcall =>
    refine h.setStage hchain hcall Stage.noConfusion rfl
      (fun _ _ hwaits => awaits_newTask hwaits) ?_
    rintro _ ⟨⟩
    exact le_rfl
  | stated hcall | passed hcall | committed hcall | rolledBack hcall | released hcall =>
    exact h.setStage hchain hcall Stage.noConfusion rfl (fun _ _ hwaits => hwaits)
      (fun _ => Stage.noConfusion)

theorem free_initial (hinitial : (machine driver).initial s) : Free s := by
  have hchain := (invariant_initial hinitial).chain
  obtain ⟨_, hcalls, _, htasks, _⟩ := hinitial
  refine ⟨hchain, ?_, ?_⟩
  · intro id callback node hcall
    simp [State.callback, hcalls] at hcall
  rintro _ id ⟨_, _, _, _, htask⟩
  simp [htasks] at htask

end ImApp.SqliteClient
