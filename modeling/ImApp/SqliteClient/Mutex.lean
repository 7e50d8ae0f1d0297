import ImApp.SqliteClient.Client

/-!
The mutex. Each call waits for the promise of the call before it, so a call holds
the mutex only when all earlier calls have finished.
-/

namespace ImApp.SqliteClient

open List State Option

variable {D Sql : Type*} {s t : State D Sql} {driver : Driver D Sql} {id b : Nat}
  {call : Call Sql} {stage : Stage}

theorem append_cases {α : Type*} {list : List α} {last value : α} {index : Nat}
    (h : (list ++ [last])[index]? = some value) :
    list[index]? = some value ∨ (index = list.length ∧ value = last) := by
  rw [getElem?_append] at h
  split at h
  · exact .inl h
  case isFalse hlarge =>
    rw [getElem?_singleton] at h
    split at h
    · exact .inr ⟨by omega, (some.inj h).symm⟩
    cases h

namespace State

theorem finished_iff : s.finished id = true ↔
    ∀ call, s.calls[id]? = some call → call.stage = .finished := by
  simp [finished, Option.all_eq_true]

theorem finished_of_calls (hcalls : t.calls = s.calls) : t.finished b = s.finished b := by
  rw [finished, finished, hcalls]

theorem getElem_setStage (j : Nat) : (s.setStage id stage).calls[j]? =
    (s.calls[j]?).map (fun call => if id = j then { call with stage := stage } else call) := by
  rw [setStage, getElem?_modify]
  rfl

theorem setStage_self (hcall : s.calls[id]? = some call) :
    (s.setStage id stage).calls[id]? = some { call with stage := stage } := by
  rw [getElem_setStage, hcall]
  simp

theorem setStage_of_ne (hne : b ≠ id) : (s.setStage id stage).calls[b]? = s.calls[b]? := by
  rw [getElem_setStage]
  simp [hne.symm]

/-- A call of the list after a stage was set is the one whose stage was set or an
old one. -/
theorem setStage_cases {after : Call Sql} (hcall : s.calls[id]? = some call)
    (hafter : (s.setStage id stage).calls[b]? = some after) :
    (b = id ∧ after = { call with stage := stage }) ∨ (b ≠ id ∧ s.calls[b]? = some after) := by
  by_cases hb : b = id
  · rw [hb, setStage_self hcall, some.injEq] at hafter
    exact .inl ⟨hb, hafter.symm⟩
  rw [setStage_of_ne hb] at hafter
  exact .inr ⟨hb, hafter⟩

theorem finished_setStage_of_ne (hne : b ≠ id) :
    (s.setStage id stage).finished b = s.finished b := by
  rw [finished, finished, setStage_of_ne hne]

end State

/-- `previous` is the last call before `id` that went through the mutex. -/
structure Link (s : State D Sql) (previous : Option Nat) (id : Nat) : Prop where
  earlier : ∀ p, previous = some p → p < id
  between : ∀ b < id, (∀ p, previous = some p → p < b) → s.finished b = true
  below : ∀ p, previous = some p → s.finished p = true → ∀ b < p, s.finished b = true

/-- When the promise of the call before is resolved, all earlier calls have
finished. -/
theorem Link.enters {previous : Option Nat} (h : Link s previous id)
    (hprev : previous.all s.finished = true) : ∀ b < id, s.finished b = true := by
  intro b hb
  cases previous with
  | none => exact h.between b hb (fun p hp => nomatch hp)
  | some p =>
    have hfinished : s.finished p = true := hprev
    rcases Nat.lt_trichotomy b p with hlt | heq | hgt
    · exact h.below p rfl hfinished b hlt
    · exact heq ▸ hfinished
    refine h.between b hb ?_
    rintro _ ⟨⟩
    exact hgt

theorem Link.mono {previous : Option Nat} (h : Link s previous id)
    (hkeep : ∀ b < id, s.finished b = true → t.finished b = true)
    (hbelow : ∀ p < id, t.finished p = true → s.finished p = false →
      ∀ b < p, s.finished b = true) : Link t previous id := by
  refine ⟨h.earlier, fun b hb hpast => hkeep b hb (h.between b hb hpast), ?_⟩
  intro p hp hnow b hb
  have hearlier := h.earlier p hp
  refine hkeep b (hb.trans hearlier) ?_
  cases hold : s.finished p with
  | true => exact h.below p hp hold b hb
  | false => exact hbelow p hearlier hnow hold b hb

structure Chain (s : State D Sql) : Prop where
  tail : Link s s.tail s.calls.length
  queued : ∀ id call previous, s.calls[id]? = some call → call.stage = .queued previous →
    Link s previous id
  holding : ∀ id call, s.calls[id]? = some call → call.stage ≠ .finished →
    (∀ previous, call.stage ≠ .queued previous) → ∀ b < id, s.finished b = true

namespace Chain

section

variable (h : Chain s)
include h

theorem of_same (hcalls : t.calls = s.calls) (htail : t.tail = s.tail) : Chain t := by
  have hfinished : ∀ b, t.finished b = s.finished b := fun b => finished_of_calls hcalls
  have hlink : ∀ {previous : Option Nat} {id : Nat}, Link s previous id → Link t previous id := by
    intro previous id hlink
    refine hlink.mono (fun b _ hb => (hfinished b).trans hb) ?_
    intro p _ hnow hold
    rw [hfinished, hold] at hnow
    cases hnow
  refine ⟨?_, ?_, ?_⟩
  · rw [hcalls, htail]
    exact hlink h.tail
  · intro id call previous hcall hstage
    rw [hcalls] at hcall
    exact hlink (h.queued id call previous hcall hstage)
  intro id call hcall hopen hentered b hb
  rw [hcalls] at hcall
  rw [hfinished]
  exact h.holding id call hcall hopen hentered b hb

theorem none_holds {other : Nat} {another : Call Sql} {previous : Option Nat}
    (hcall : s.calls[id]? = some call) (hqueued : call.stage = .queued previous)
    (hprev : previous.all s.finished = true)
    (hother : s.calls[other]? = some another) (hopen : another.stage ≠ .finished) :
    ∃ previous, another.stage = .queued previous := by
  by_contra hentered
  push Not at hentered
  rcases Nat.lt_trichotomy other id with hlt | rfl | hgt
  · have hdone := (h.queued id call previous hcall hqueued).enters hprev other hlt
    exact hopen (finished_iff.mp hdone another hother)
  · cases hcall.symm.trans hother
    exact hentered previous hqueued
  have hdone := h.holding other another hother hopen hentered id hgt
  rw [finished_iff.mp hdone call hcall] at hqueued
  cases hqueued

theorem run (request : Request Sql) (context : Option Nat) : Chain (s.run request context) := by
  have hold : ∀ b < s.calls.length, (s.run request context).finished b = s.finished b := by
    intro b hb
    rw [State.finished, State.finished, State.run, getElem?_append_left hb]
  have hlink : ∀ {previous : Option Nat} {id : Nat}, id ≤ s.calls.length → Link s previous id →
      Link (s.run request context) previous id := by
    intro previous id hid hlink
    refine hlink.mono (fun b hb hdone => (hold b (hb.trans_le hid)).trans hdone) ?_
    intro p hp hnow hopen
    rw [hold p (hp.trans_le hid), hopen] at hnow
    cases hnow
  have hcases : ∀ id call, (s.run request context).calls[id]? = some call →
      s.calls[id]? = some call ∨
        (id = s.calls.length ∧ call = ⟨request, context, .queued s.tail⟩) :=
    fun _ _ => append_cases
  have hnew : ¬ (s.run request context).finished s.calls.length = true := by
    intro hdone
    have hstage := finished_iff.mp hdone ⟨request, context, .queued s.tail⟩ (by
      rw [State.run, getElem?_concat_length])
    cases hstage
  refine ⟨?_, ?_, ?_⟩
  · refine ⟨?_, ?_, ?_⟩
    · rintro _ ⟨⟩
      simp [State.run]
    · intro b hb hpast
      have hpast := hpast _ rfl
      simp only [State.run, length_append, length_singleton] at hb
      omega
    rintro _ ⟨⟩ hdone
    exact absurd hdone hnew
  · intro id call previous hcall hstage
    rcases hcases id call hcall with hcall | ⟨rfl, rfl⟩
    · have hlt := (List.getElem?_eq_some_iff.mp hcall).1
      exact hlink hlt.le (h.queued id call previous hcall hstage)
    cases hstage
    exact hlink le_rfl h.tail
  intro id call hcall hopen hentered b hb
  rcases hcases id call hcall with hcall | ⟨rfl, rfl⟩
  · have hlt := (List.getElem?_eq_some_iff.mp hcall).1
    rw [hold b (hb.trans hlt)]
    exact h.holding id call hcall hopen hentered b hb
  exact absurd rfl (hentered s.tail)

theorem executeNow (sql : Sql) (context : Option Nat) :
    Chain (s.executeNow driver sql context) := by
  have hcases : ∀ id call, (s.executeNow driver sql context).calls[id]? = some call →
      s.calls[id]? = some call ∨
        (id = s.calls.length ∧ call = ⟨.statement sql, context, .finished⟩) :=
    fun _ _ => append_cases
  have hkeep : ∀ b, s.finished b = true → (s.executeNow driver sql context).finished b = true := by
    intro b hdone
    refine finished_iff.mpr ?_
    intro call hcall
    rcases hcases b call hcall with hcall | ⟨_, rfl⟩
    · exact finished_iff.mp hdone call hcall
    rfl
  have hback : ∀ b < s.calls.length, (s.executeNow driver sql context).finished b = s.finished b := by
    intro b hb
    rw [State.finished, State.finished, State.executeNow, getElem?_append_left hb]
  have hlink : ∀ {previous : Option Nat} {id : Nat}, id ≤ s.calls.length → Link s previous id →
      Link (s.executeNow driver sql context) previous id := by
    intro previous id hid hlink
    refine hlink.mono (fun b _ => hkeep b) ?_
    intro p hp hnow hopen
    rw [hback p (hp.trans_le hid), hopen] at hnow
    cases hnow
  refine ⟨?_, ?_, ?_⟩
  · have htail := hlink le_rfl h.tail
    refine ⟨fun p hp => ?_, fun b hb hpast => ?_, htail.below⟩
    · have hlt := htail.earlier p hp
      simp only [State.executeNow, length_append, length_singleton]
      omega
    simp only [State.executeNow, length_append, length_singleton] at hb
    rcases Nat.lt_succ_iff_lt_or_eq.mp hb with hlt | rfl
    · exact htail.between b hlt hpast
    refine hkeep _ (finished_iff.mpr ?_)
    intro call hcall
    rw [getElem?_eq_none le_rfl] at hcall
    cases hcall
  · intro id call previous hcall hstage
    rcases hcases id call hcall with hcall | ⟨_, rfl⟩
    · have hlt := (List.getElem?_eq_some_iff.mp hcall).1
      exact hlink hlt.le (h.queued id call previous hcall hstage)
    cases hstage
  intro id call hcall hopen hentered b hb
  rcases hcases id call hcall with hcall | ⟨_, rfl⟩
  · exact hkeep b (h.holding id call hcall hopen hentered b hb)
  exact absurd rfl hopen

/-- A call behind which no earlier one is open moves on, but never back into the
queue. -/
theorem setStage (hcall : s.calls[id]? = some call)
    (hopen : call.stage ≠ .finished) (hbehind : ∀ b < id, s.finished b = true)
    (hstage : ∀ previous, stage ≠ .queued previous) : Chain (s.setStage id stage) := by
  have hkeep : ∀ b, s.finished b = true → (s.setStage id stage).finished b = true := by
    intro b hdone
    by_cases hb : b = id
    · subst hb
      exact absurd (finished_iff.mp hdone call hcall) hopen
    rwa [finished_setStage_of_ne hb]
  have hlink : ∀ {previous : Option Nat} {b : Nat}, Link s previous b →
      Link (s.setStage id stage) previous b := by
    intro previous b hlink
    refine hlink.mono (fun b _ => hkeep b) ?_
    intro p _ hnow hold
    by_cases hp : p = id
    · subst hp
      exact hbehind
    rw [finished_setStage_of_ne hp, hold] at hnow
    cases hnow
  refine ⟨?_, ?_, ?_⟩
  · rw [State.setStage, length_modify]
    exact hlink h.tail
  · intro b after previous hafter hqueued
    rcases setStage_cases hcall hafter with ⟨_, rfl⟩ | ⟨_, hafter⟩
    · exact absurd hqueued (hstage previous)
    exact hlink (h.queued b after previous hafter hqueued)
  intro b after hafter hnot hentered c hc
  refine hkeep c ?_
  rcases setStage_cases hcall hafter with ⟨rfl, _⟩ | ⟨_, hafter⟩
  · exact hbehind c hc
  exact h.holding b after hafter hnot hentered c hc

/-- `setStage` where the step changed something else besides. -/
theorem move (hcalls : t.calls = s.calls) (htail : t.tail = s.tail)
    (hcall : s.calls[id]? = some call) (hopen : call.stage ≠ .finished)
    (hbehind : ∀ b < id, s.finished b = true) (hstage : ∀ previous, stage ≠ .queued previous) :
    Chain (t.setStage id stage) := by
  refine (h.of_same hcalls htail).setStage (hcalls ▸ hcall) hopen ?_ hstage
  intro b hb
  rw [finished_of_calls hcalls]
  exact hbehind b hb

end

end Chain

/-- Everything that a step can do. -/
inductive Effect (driver : Driver D Sql) (s : State D Sql) : Action Sql → State D Sql → Prop
  | arrived : Effect driver s .arrive (s.newTask none none)
  | spawned {task : Nat} {context of : Option Nat}
      (htask : s.tasks[task]? = some ⟨context, of, .active⟩) :
      Effect driver s (.spawn task) (s.newTask context none)
  | queued {task : Nat} {context of : Option Nat} {request : Request Sql}
      (htask : s.tasks[task]? = some ⟨context, of, .active⟩)
      (hreq : ∀ sql, request = .statement sql → context = none) :
      Effect driver s (.issue task request) (s.run request context)
  | executed {task context : Nat} {of : Option Nat} {sql : Sql}
      (htask : s.tasks[task]? = some ⟨some context, of, .active⟩) :
      Effect driver s (.issue task (.statement sql)) (s.executeNow driver sql (some context))
  | awaited {task : Nat} {context of : Option Nat} {node : Awaited}
      (htask : s.tasks[task]? = some ⟨context, of, .active⟩) (hnode : s.exists_ node = true) :
      Effect driver s (.await task node) (s.setPhase task (.awaiting node))
  | woken {task : Nat} {context of : Option Nat} {node : Awaited}
      (htask : s.tasks[task]? = some ⟨context, of, .awaiting node⟩) :
      Effect driver s (.wake task) (s.setPhase task .active)
  | ended {task : Nat} {context : Option Nat} {threw : Bool}
      (htask : s.tasks[task]? = some ⟨context, none, .active⟩) :
      Effect driver s (.settle task threw) (s.setPhase task (.settled threw))
  | settled {task of : Nat} {context : Option Nat} {threw : Bool}
      (htask : s.tasks[task]? = some ⟨context, some of, .active⟩) :
      Effect driver s (.settle task threw)
        ((s.log (.settled of threw)).setPhase task (.settled threw))
  | stated {id : Nat} {sql : Sql} {context previous : Option Nat}
      (hcall : s.calls[id]? = some ⟨.statement sql, context, .queued previous⟩)
      (hprev : previous.all s.finished = true) :
      Effect driver s (.enter id)
        ((({ s with connection := driver.execute sql s.connection } : State D Sql).log
          (.executed id context)).setStage id .releasing)
  | passed {id : Nat} {request : Request Sql} {context previous : Option Nat}
      (hcall : s.calls[id]? = some ⟨request, context, .queued previous⟩)
      (hprev : previous.all s.finished = true)
      (hreq : request = .backup ∨ request = .transaction ∧ s.connection.begin_ = none) :
      Effect driver s (.enter id) (s.setStage id .releasing)
  | began {id : Nat} {context previous : Option Nat} {connection : Connection D}
      (hcall : s.calls[id]? = some ⟨.transaction, context, .queued previous⟩)
      (hprev : previous.all s.finished = true)
      (hbegin : s.connection.begin_ = some connection) :
      Effect driver s (.enter id) (((({ s with connection := connection } : State D Sql).log
          (.began id s.connection.data)).newTask (some id) (some id)).setStage id
            (.calling s.tasks.length))
  | committed {id callback : Nat} {request : Request Sql} {context ofContext of : Option Nat}
      {accepted : Bool} {connection : Connection D}
      (hcall : s.calls[id]? = some ⟨request, context, .calling callback⟩)
      (htask : s.tasks[callback]? = some ⟨ofContext, of, .settled false⟩)
      (hcommit : s.connection.commit accepted = some connection) :
      Effect driver s (.close id accepted)
        ((({ s with connection := connection } : State D Sql).log (.committed id)).setStage id
          .releasing)
  | rolledBack {id callback : Nat} {request : Request Sql} {context ofContext of : Option Nat}
      {threw accepted : Bool} (hcall : s.calls[id]? = some ⟨request, context, .calling callback⟩)
      (htask : s.tasks[callback]? = some ⟨ofContext, of, .settled threw⟩) :
      Effect driver s (.close id accepted)
        ((({ s with connection := s.connection.rollback } : State D Sql).log
          (.rolledBack id s.connection.rollback.data)).setStage id .releasing)
  | released {id : Nat} {request : Request Sql} {context : Option Nat}
      (hcall : s.calls[id]? = some ⟨request, context, .releasing⟩) :
      Effect driver s (.release id) (s.setStage id .finished)

theorem effect_of_step {action : Action Sql} (hstep : step driver s action = some t) :
    Effect driver s action t := by
  cases action with
  | arrive =>
    cases hstep
    exact .arrived
  | spawn task =>
    simp only [step] at hstep
    split at hstep <;> cases hstep
    case h_1 htask => exact .spawned htask
  | issue task request =>
    simp only [step] at hstep
    split at hstep <;> cases hstep
    case h_1 context of htask =>
      cases request with
      | statement sql =>
        cases context with
        | none => exact .queued htask (fun _ _ => rfl)
        | some context => exact .executed htask
      | backup | transaction => exact .queued htask (fun _ heq => nomatch heq)
  | await task node =>
    simp only [step] at hstep
    split at hstep
    case h_1 htask =>
      split at hstep <;> cases hstep
      case isTrue hnode => exact .awaited htask hnode
    · cases hstep
  | wake task =>
    simp only [step] at hstep
    split at hstep
    case h_1 htask =>
      split at hstep <;> cases hstep
      exact .woken htask
    · cases hstep
  | settle task threw =>
    simp only [step] at hstep
    split at hstep <;> cases hstep
    case h_1 context of htask =>
      cases of with
      | none => exact .ended htask
      | some of => exact .settled htask
  | enter id =>
    simp only [step] at hstep
    split at hstep
    case h_1 request context previous hcall =>
      split at hstep <;> cases hstep
      case isTrue hprev =>
        cases request with
        | statement sql => exact .stated hcall hprev
        | backup => exact .passed hcall hprev (.inl rfl)
        | transaction =>
          simp only [State.enter]
          split
          case h_1 hbegin => exact .passed hcall hprev (.inr ⟨rfl, hbegin⟩)
          case h_2 hbegin => exact .began hcall hprev hbegin
    · cases hstep
  | close id accepted =>
    simp only [step] at hstep
    split at hstep
    case h_1 hcall =>
      split at hstep <;> cases hstep
      case h_1 threw htask =>
        cases threw with
        | true => exact .rolledBack hcall htask
        | false =>
          simp only [State.close]
          split
          case h_1 hcommit => exact .committed hcall htask hcommit
          case h_2 => exact .rolledBack hcall htask
    · cases hstep
  | release id =>
    simp only [step] at hstep
    split at hstep <;> cases hstep
    case h_1 hcall => exact .released hcall

theorem chain_step {action : Action Sql} (h : Chain s) (hstep : step driver s action = some t) :
    Chain t := by
  cases effect_of_step hstep with
  | arrived | spawned | awaited | woken | ended | settled => exact h.of_same rfl rfl
  | queued => exact h.run _ _
  | executed => exact h.executeNow _ _
  | stated hcall hprev | passed hcall hprev | began hcall hprev =>
    exact h.move rfl rfl hcall Stage.noConfusion ((h.queued _ _ _ hcall rfl).enters hprev)
      (fun _ => Stage.noConfusion)
  | committed hcall | rolledBack hcall | released hcall =>
    exact h.move rfl rfl hcall Stage.noConfusion
      (h.holding _ _ hcall Stage.noConfusion (fun _ => Stage.noConfusion))
      (fun _ => Stage.noConfusion)

end ImApp.SqliteClient
