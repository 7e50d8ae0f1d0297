import ImApp.SqliteClient.Mutex
import ImApp.SqliteClient.Journal

/-!
The statements of a transaction are alone between its BEGIN and its COMMIT as
long as no task issues a statement in the context of a transaction whose callback
has settled while another transaction is open, and no statement opens or ends a
transaction itself.
-/

namespace ImApp.SqliteClient

open List Option State

variable {D Sql : Type*} {s t : State D Sql} {driver : Driver D Sql} {scan : Scan D}
  {id : Nat} {call : Call Sql} {stage : Stage}

/-- How a task settled. -/
def Phase.ended : Phase → Option Bool
  | .settled threw => some threw
  | _ => none

namespace State

variable (s : State D Sql)

/-- The callback of a transaction from BEGIN to COMMIT or ROLLBACK. -/
def callback (id : Nat) : Option Nat :=
  match s.calls[id]? with
  | some ⟨_, _, .calling task⟩ => some task
  | _ => none

/-- The transaction whose callback a task is, and how it settled. -/
def role (id : Nat) : Option (Nat × Option Bool) :=
  match s.tasks[id]? with
  | some ⟨_, some call, phase⟩ => some (call, phase.ended)
  | _ => none

/-- The callback of the transaction has not settled. -/
def running (id : Nat) : Bool :=
  (s.callback id).any (fun task => s.role task = some (id, none))

def entered (id : Nat) : Prop :=
  ∃ call, s.calls[id]? = some call ∧ ∀ previous, call.stage ≠ .queued previous

end State

/-- A statement that is issued neither controls a transaction nor, where it is
executed at once, meets one other than that of its context. -/
def OrderlyStatement (driver : Driver D Sql) (s : State D Sql) (context : Option Nat)
    (sql : Sql) : Prop :=
  driver.control sql = false ∧ ∀ call ∈ context, s.connection.atBegin = none ∨ s.running call = true

/-- `OrderlyStatement` for the statements of the tasks; the other actions are free. -/
def OrderlyIssue (driver : Driver D Sql) (s : State D Sql) : Action Sql → Prop
  | .issue task (.statement sql) =>
    ∀ found ∈ s.tasks[task]?, OrderlyStatement driver s found.context sql
  | _ => True

/-- The transaction that is open: its callback is the only one that may still run. -/
structure Opened (s : State D Sql) (block : Block D) (task : Nat) : Prop where
  atBegin : s.connection.atBegin = some block.data
  callback : s.callback block.call = some task
  alone : ∀ id other, s.callback id = some other → id = block.call
  role : s.role task = some (block.call, block.settled)
  others : ∀ id call, s.role id = some (call, none) → id = task

structure Closed (s : State D Sql) : Prop where
  atBegin : s.connection.atBegin = none
  callback : ∀ id, s.callback id = none
  role : ∀ id call, s.role id ≠ some (call, none)

/-- The reader of the journal and the client agree. -/
structure Agrees (s : State D Sql) (scan : Scan D) : Prop where
  began : ∀ id ∈ scan.began, s.entered id
  contexts : ∀ task ∈ s.tasks, ∀ id, task.context = some id → id ∈ scan.began
  closed : scan.block = none → Closed s
  opened : ∀ block, scan.block = some block → block.call ∈ scan.began ∧ ∃ task, Opened s block task

structure Invariant (driver : Driver D Sql) (s : State D Sql) : Prop where
  chain : Chain s
  waiting : ∀ (id : Nat) (context : Option Nat) (sql : Sql) (previous : Option Nat),
    s.calls[id]? = some ⟨.statement sql, context, .queued previous⟩ →
      driver.control sql = false ∧ context = none
  journal : ∃ scan, Scan.Reads ⟨[], none⟩ s.journal scan ∧ Agrees s scan

variable {task other : Nat}

theorem callback_eq_some : s.callback id = some task ↔
    ∃ request context, s.calls[id]? = some ⟨request, context, .calling task⟩ := by
  rw [State.callback]
  constructor
  · intro h
    split at h
    case h_1 request context _ hcall =>
      cases h
      exact ⟨request, context, hcall⟩
    · cases h
  rintro ⟨request, context, hcall⟩
  rw [hcall]

theorem role_eq_some {of : Nat} {ended : Option Bool} : s.role id = some (of, ended) ↔
    ∃ context phase, s.tasks[id]? = some ⟨context, some of, phase⟩ ∧ phase.ended = ended := by
  rw [State.role]
  constructor
  · intro h
    split at h
    case h_1 context call phase htask =>
      cases h
      exact ⟨context, phase, htask, rfl⟩
    · cases h
  rintro ⟨context, phase, htask, rfl⟩
  rw [htask]

theorem callback_of_calls (hcalls : t.calls = s.calls) : t.callback = s.callback := by
  funext id
  rw [State.callback, State.callback, hcalls]

theorem role_of_tasks (htasks : t.tasks = s.tasks) : t.role = s.role := by
  funext id
  rw [State.role, State.role, htasks]

theorem callback_setStage (hcall : s.calls[id]? = some call)
    (hpre : ∀ task, call.stage ≠ .calling task) (hafter : ∀ task, stage ≠ .calling task) :
    (s.setStage id stage).callback = s.callback := by
  funext other
  refine Option.ext fun task => ?_
  rw [callback_eq_some, callback_eq_some]
  by_cases hother : other = id
  · subst hother
    rw [setStage_self hcall, hcall]
    constructor
    · rintro ⟨_, _, heq⟩
      cases heq
      exact absurd rfl (hafter task)
    rintro ⟨_, _, heq⟩
    cases heq
    exact absurd rfl (hpre task)
  rw [setStage_of_ne hother]

theorem callback_append (hstage : ∀ task, call.stage ≠ .calling task)
    (hcalls : t.calls = s.calls ++ [call]) : t.callback = s.callback := by
  funext other
  refine Option.ext fun task => ?_
  rw [callback_eq_some, callback_eq_some, hcalls]
  constructor
  · rintro ⟨request, context, hother⟩
    rcases append_cases hother with hother | ⟨_, rfl⟩
    · exact ⟨request, context, hother⟩
    exact absurd rfl (hstage task)
  rintro ⟨request, context, hother⟩
  have hlt := (List.getElem?_eq_some_iff.mp hother).1
  exact ⟨request, context, by rw [getElem?_append_left hlt, hother]⟩

theorem entered_append (hcalls : t.calls = s.calls ++ [call])
    (h : s.entered other) : t.entered other := by
  obtain ⟨found, hfound, hentered⟩ := h
  have hlt := (List.getElem?_eq_some_iff.mp hfound).1
  exact ⟨found, by rw [hcalls, getElem?_append_left hlt, hfound], hentered⟩

theorem entered_setStage (hcall : s.calls[id]? = some call)
    (hstage : ∀ previous, stage ≠ .queued previous) (h : s.entered other) :
    (s.setStage id stage).entered other := by
  by_cases hother : other = id
  · subst hother
    exact ⟨_, setStage_self hcall, hstage⟩
  obtain ⟨found, hfound, hentered⟩ := h
  exact ⟨found, by rw [setStage_of_ne hother, hfound], hentered⟩

variable {phase : Phase}

theorem getElem_setPhase (j : Nat) : (s.setPhase id phase).tasks[j]? =
    (s.tasks[j]?).map (fun task => if id = j then { task with phase := phase } else task) := by
  rw [State.setPhase, getElem?_modify]
  rfl

theorem role_newTask (context : Option Nat) : (s.newTask context none).role = s.role := by
  funext other
  refine Option.ext fun ⟨of, ended⟩ => ?_
  rw [role_eq_some, role_eq_some]
  constructor
  · rintro ⟨old, phase, htask, hended⟩
    rcases append_cases htask with htask | ⟨_, heq⟩
    · exact ⟨old, phase, htask, hended⟩
    cases heq
  rintro ⟨old, phase, htask, hended⟩
  have hlt := (List.getElem?_eq_some_iff.mp htask).1
  exact ⟨old, phase, by rw [State.newTask, getElem?_append_left hlt, htask], hended⟩

theorem role_setPhase {task : Task} (htask : s.tasks[id]? = some task)
    (hended : phase.ended = task.phase.ended) : (s.setPhase id phase).role = s.role := by
  funext other
  rw [State.role, State.role, getElem_setPhase]
  by_cases hother : id = other
  · subst hother
    rw [htask]
    obtain ⟨context, of, old⟩ := task
    cases of with
    | none => simp
    | some call => simp [hended]
  simp [hother]

namespace Agrees

section

variable (h : Agrees s scan)
include h

theorem of_frame (hbegin : t.connection.atBegin = s.connection.atBegin)
    (hcb : t.callback = s.callback) (hrole : t.role = s.role)
    (hentered : ∀ id, s.entered id → t.entered id)
    (hcontexts : ∀ task ∈ t.tasks, ∀ id, task.context = some id → id ∈ scan.began) :
    Agrees t scan := by
  refine ⟨fun id hid => hentered id (h.began id hid), hcontexts, ?_, ?_⟩
  · intro hnone
    have hclosed := h.closed hnone
    exact ⟨hbegin ▸ hclosed.atBegin, hcb ▸ hclosed.callback, hrole ▸ hclosed.role⟩
  intro block hblock
  obtain ⟨hbegan, task, hopened⟩ := h.opened block hblock
  exact ⟨hbegan, task, hbegin ▸ hopened.atBegin, hcb ▸ hopened.callback,
    hcb ▸ hopened.alone, hrole ▸ hopened.role, hrole ▸ hopened.others⟩

theorem newTask {context : Option Nat}
    (hcontext : ∀ id, context = some id → id ∈ scan.began) : Agrees (s.newTask context none) scan := by
  refine h.of_frame rfl rfl (role_newTask context) (fun _ hentered => hentered) ?_
  intro task htask
  rcases mem_append.mp htask with hold | hnew
  · exact h.contexts task hold
  obtain rfl := mem_singleton.mp hnew
  exact hcontext

theorem contexts_setPhase (phase : Phase) :
    ∀ task ∈ (s.setPhase id phase).tasks, ∀ call, task.context = some call → call ∈ scan.began := by
  intro after hafter
  obtain ⟨index, hindex⟩ := mem_iff_getElem?.mp hafter
  rw [getElem_setPhase, map_eq_some_iff] at hindex
  obtain ⟨old, hold, rfl⟩ := hindex
  split <;> exact h.contexts old (mem_of_getElem? hold)

theorem setPhase {task : Task} {phase : Phase}
    (htask : s.tasks[id]? = some task) (hended : phase.ended = task.phase.ended) :
    Agrees (s.setPhase id phase) scan :=
  h.of_frame rfl rfl (role_setPhase htask hended) (fun _ hentered => hentered)
    (h.contexts_setPhase phase)

theorem append (hstage : ∀ task, call.stage ≠ .calling task) (hcalls : t.calls = s.calls ++ [call])
    (hbegin : t.connection.atBegin = s.connection.atBegin) (htasks : t.tasks = s.tasks) :
    Agrees t scan :=
  h.of_frame hbegin (callback_append hstage hcalls) (role_of_tasks htasks)
    (fun _ => entered_append hcalls) (htasks ▸ h.contexts)

theorem setStage (hcall : s.calls[id]? = some call)
    (hpre : ∀ task, call.stage ≠ .calling task) (hafter : ∀ task, stage ≠ .calling task)
    (hstage : ∀ previous, stage ≠ .queued previous) : Agrees (s.setStage id stage) scan :=
  h.of_frame rfl (callback_setStage hcall hpre hafter) rfl
    (fun _ => entered_setStage hcall hstage) h.contexts

end

end Agrees

theorem Opened.running {block : Block D} (h : Opened s block task)
    (hrun : s.running other = true) : other = block.call ∧ block.settled = none := by
  obtain ⟨found, hcb, hrole⟩ := (any_eq_true _ _).mp hrun
  have hrole := of_decide_eq_true hrole
  obtain rfl := h.alone other found hcb
  cases hcb.symm.trans h.callback
  have heq := some.inj (hrole.symm.trans h.role)
  exact ⟨rfl, (congrArg Prod.snd heq).symm⟩

/-- A statement that is executed at once is of the open transaction, or none is
open. -/
theorem Agrees.executed (h : Agrees s scan) {context call : Nat} (hcontext : context ∈ scan.began)
    (horderly : s.connection.atBegin = none ∨ s.running context = true) :
    Scan.Next scan (.executed call (some context)) scan := by
  obtain ⟨began, block⟩ := scan
  cases block with
  | none =>
    refine .alone ?_
    rintro _ ⟨⟩
    exact hcontext
  | some block =>
    obtain ⟨hbegan, task, hopened⟩ := h.opened block rfl
    rcases horderly with hnone | hrun
    · cases hnone.symm.trans hopened.atBegin
    obtain ⟨rfl, hset⟩ := hopened.running hrun
    obtain ⟨call, data, settled⟩ := block
    obtain rfl : settled = none := hset
    exact .within

variable {connection : Connection D} {previous : Option Nat}

theorem Agrees.closed_of_enters (h : Agrees s scan) (hchain : Chain s)
    (hcall : s.calls[id]? = some call) (hqueued : call.stage = .queued previous)
    (hprev : previous.all s.finished = true) : scan.block = none := by
  cases hblock : scan.block with
  | none => rfl
  | some block =>
    obtain ⟨_, task, hopened⟩ := h.opened block hblock
    obtain ⟨request, context, hopen⟩ := callback_eq_some.mp hopened.callback
    obtain ⟨_, hagain⟩ := hchain.none_holds hcall hqueued hprev hopen Stage.noConfusion
    cases hagain

theorem Agrees.begin_ (h : Agrees s scan) (hblock : scan.block = none)
    (hcall : s.calls[id]? = some call)
    (hbegin : s.connection.begin_ = some connection) :
    Agrees (((({ s with connection := connection } : State D Sql).log
        (.began id s.connection.data)).newTask (some id) (some id)).setStage id
          (.calling s.tasks.length))
      ⟨id :: scan.began, some ⟨id, s.connection.data, none⟩⟩ := by
  have hclosed := h.closed hblock
  have hconn : connection = { s.connection with atBegin := some s.connection.data } := by
    rw [Connection.begin_, hclosed.atBegin] at hbegin
    exact (some.inj hbegin).symm
  subst hconn
  refine ⟨?_, ?_, (fun hnone => nomatch hnone), ?_⟩
  · intro other hother
    have hstage : ∀ previous, Stage.calling s.tasks.length ≠ .queued previous :=
      fun _ => Stage.noConfusion
    rcases mem_cons.mp hother with rfl | hother
    · exact ⟨_, setStage_self hcall, hstage⟩
    exact entered_setStage hcall hstage (h.began other hother)
  · intro task htask other hother
    rcases mem_append.mp htask with hold | hnew
    · exact mem_cons_of_mem _ (h.contexts task hold other hother)
    obtain rfl := mem_singleton.mp hnew
    exact some.inj hother ▸ mem_cons_self
  rintro _ ⟨⟩
  refine ⟨mem_cons_self, s.tasks.length, rfl, ?_, ?_, ?_, ?_⟩
  · exact callback_eq_some.mpr ⟨_, _, setStage_self hcall⟩
  · intro other task hother
    by_contra hne
    obtain ⟨request, context, hfound⟩ := callback_eq_some.mp hother
    rw [setStage_of_ne hne] at hfound
    have hsome : s.callback other = some task := callback_eq_some.mpr ⟨request, context, hfound⟩
    cases (hclosed.callback other).symm.trans hsome
  · exact role_eq_some.mpr ⟨some id, .active, getElem?_concat_length, rfl⟩
  intro other task hother
  obtain ⟨context, phase, hfound, hended⟩ := role_eq_some.mp hother
  rcases append_cases hfound with hfound | ⟨hlast, _⟩
  · exact absurd (role_eq_some.mpr ⟨context, phase, hfound, hended⟩) (hclosed.role other task)
  exact hlast

theorem Agrees.settled (h : Agrees s scan) {context : Option Nat} {of : Nat}
    (htask : s.tasks[id]? = some ⟨context, some of, phase⟩) (hphase : phase.ended = none)
    (threw : Bool) : ∃ data, scan.block = some ⟨of, data, none⟩ ∧
      Agrees ((s.log (.settled of threw)).setPhase id (.settled threw))
        ⟨scan.began, some ⟨of, data, some threw⟩⟩ := by
  have hrole : s.role id = some (of, none) := role_eq_some.mpr ⟨context, phase, htask, hphase⟩
  obtain ⟨began, block⟩ := scan
  cases block with
  | none => exact absurd hrole ((h.closed rfl).role id of)
  | some block =>
    obtain ⟨hbegan, task, hopened⟩ := h.opened block rfl
    obtain rfl := hopened.others id of hrole
    have hsame := some.inj (hrole.symm.trans hopened.role)
    obtain ⟨call, data, settled⟩ := block
    obtain ⟨rfl, rfl⟩ : of = call ∧ none = settled := Prod.mk.inj hsame
    refine ⟨data, rfl, h.began, h.contexts_setPhase _, (fun hnone => nomatch hnone), ?_⟩
    rintro _ ⟨⟩
    refine ⟨hbegan, id, hopened.atBegin, hopened.callback, hopened.alone, ?_, ?_⟩
    · refine role_eq_some.mpr ⟨context, .settled threw, ?_, rfl⟩
      rw [getElem_setPhase]
      simp [State.log, htask]
    intro other call hother
    obtain ⟨context, phase, hfound, hended⟩ := role_eq_some.mp hother
    rw [getElem_setPhase, map_eq_some_iff] at hfound
    obtain ⟨old, hold, hfound⟩ := hfound
    split at hfound
    case isTrue hsame => exact hsame.symm
    case isFalse hne =>
      exact hopened.others other call (role_eq_some.mpr ⟨context, phase, hfound ▸ hold, hended⟩)

theorem Agrees.close (h : Agrees s scan) {request : Request Sql} {context ofContext of : Option Nat} {threw : Bool} (hcall : s.calls[id]? = some ⟨request, context, .calling task⟩)
    (htask : s.tasks[task]? = some ⟨ofContext, of, .settled threw⟩) :
    ∃ data, scan.block = some ⟨id, data, some threw⟩ ∧ s.connection.atBegin = some data ∧
      ∀ connection event, connection.atBegin = none →
        Agrees ((({ s with connection := connection } : State D Sql).log event).setStage id
          .releasing) ⟨scan.began, none⟩ := by
  have hcb : s.callback id = some task := callback_eq_some.mpr ⟨request, context, hcall⟩
  obtain ⟨began, block⟩ := scan
  cases block with
  | none =>
    have hnone := (h.closed rfl).callback id
    rw [hcb] at hnone
    cases hnone
  | some block =>
    obtain ⟨hbegan, other, hopened⟩ := h.opened block rfl
    obtain rfl := hopened.alone id task hcb
    cases hcb.symm.trans hopened.callback
    obtain ⟨call, data, settled⟩ := block
    obtain ⟨found, phase, hfound, hended⟩ := role_eq_some.mp hopened.role
    obtain ⟨rfl, rfl, rfl⟩ := Task.mk.inj (some.inj (htask.symm.trans hfound))
    obtain rfl : some threw = settled := hended
    refine ⟨data, rfl, hopened.atBegin, fun connection event hnone => ⟨?_, h.contexts, ?_,
      fun _ hsome => nomatch hsome⟩⟩
    · exact fun other hother => entered_setStage hcall (fun _ => Stage.noConfusion)
        (h.began other hother)
    intro _
    refine ⟨hnone, ?_, ?_⟩
    · intro other
      by_contra hsome
      obtain ⟨found, hsome⟩ := ne_none_iff_exists'.mp hsome
      obtain ⟨request, context, hfound⟩ := callback_eq_some.mp hsome
      rcases setStage_cases hcall hfound with ⟨_, heq⟩ | ⟨hne, hold⟩
      · cases heq
      exact hne (hopened.alone other found (callback_eq_some.mpr ⟨request, context, hold⟩))
    intro other of hrole
    obtain rfl := hopened.others other of hrole
    cases hrole.symm.trans hopened.role

namespace Invariant

theorem of_frame (h : Invariant driver s) (hchain : Chain t) (hcalls : t.calls = s.calls)
    (hjournal : t.journal = s.journal)
    (hagrees : ∀ scan, Agrees s scan → Agrees t scan) : Invariant driver t := by
  obtain ⟨scan, hreads, hscan⟩ := h.journal
  exact ⟨hchain, hcalls ▸ h.waiting, scan, hjournal ▸ hreads, hagrees scan hscan⟩

variable {request : Request Sql} {context : Option Nat}

section

variable (h : Invariant driver s)
include h

theorem run (hreq : ∀ sql, request = .statement sql → driver.control sql = false ∧ context = none) :
    Invariant driver (s.run request context) := by
  obtain ⟨scan, hreads, hscan⟩ := h.journal
  refine ⟨h.chain.run request context, ?_, scan, hreads,
    hscan.append (fun _ => Stage.noConfusion) rfl rfl rfl⟩
  intro id found sql previous hcall
  rcases append_cases hcall with hcall | ⟨_, heq⟩
  · exact h.waiting id found sql previous hcall
  cases heq
  exact hreq sql rfl

theorem executeNow {sql : Sql} {context : Nat}
    (hcontext : ∃ task ∈ s.tasks, task.context = some context)
    (horderly : OrderlyStatement driver s (some context) sql) :
    Invariant driver (s.executeNow driver sql (some context)) := by
  obtain ⟨scan, hreads, hscan⟩ := h.journal
  obtain ⟨task, htask, hof⟩ := hcontext
  have hnext : scan.Next (.executed s.calls.length (some context)) scan :=
    hscan.executed (hscan.contexts task htask context hof) (horderly.2 context rfl)
  refine ⟨h.chain.executeNow sql _, ?_, scan, hreads.snoc hnext,
    hscan.append (fun _ => Stage.noConfusion) rfl (driver.plain sql _ horderly.1) rfl⟩
  intro id found sql previous hcall
  rcases append_cases hcall with hcall | ⟨_, heq⟩
  · exact h.waiting id found sql previous hcall
  cases heq

theorem setStage_waiting (hcall : s.calls[id]? = some call)
    (hstage : ∀ previous, stage ≠ .queued previous) (hcalls : t.calls = (s.setStage id stage).calls)
    (other : Nat) (context : Option Nat) (sql : Sql) (previous : Option Nat)
    (hother : t.calls[other]? = some ⟨.statement sql, context, .queued previous⟩) :
    driver.control sql = false ∧ context = none := by
  rw [hcalls] at hother
  rcases setStage_cases hcall hother with ⟨_, heq⟩ | ⟨_, hold⟩
  · exact absurd (congrArg Call.stage heq).symm (hstage previous)
  exact h.waiting other context sql previous hold

theorem stated {sql : Sql} (hcall : s.calls[id]? = some ⟨.statement sql, context, .queued previous⟩)
    (hprev : previous.all s.finished = true)
    (hchain : Chain ((({ s with connection := driver.execute sql s.connection } :
      State D Sql).log (.executed id context)).setStage id .releasing)) :
    Invariant driver ((({ s with connection := driver.execute sql s.connection } :
      State D Sql).log (.executed id context)).setStage id .releasing) := by
  obtain ⟨scan, hreads, hscan⟩ := h.journal
  obtain ⟨hplain, rfl⟩ := h.waiting id context sql previous hcall
  have hblock := hscan.closed_of_enters h.chain hcall rfl hprev
  have hmove : Agrees (s.setStage id .releasing) scan :=
    hscan.setStage hcall (fun _ => Stage.noConfusion) (fun _ => Stage.noConfusion)
      (fun _ => Stage.noConfusion)
  refine ⟨hchain, h.setStage_waiting hcall (fun _ => Stage.noConfusion) rfl, scan,
    hreads.snoc ?_, ?_⟩
  · obtain ⟨began, block⟩ := scan
    obtain rfl : block = none := hblock
    exact .alone (fun _ heq => nomatch heq)
  exact hmove.of_frame (driver.plain sql _ hplain) rfl rfl (fun _ hentered => hentered)
    hmove.contexts

theorem began (hcall : s.calls[id]? = some ⟨.transaction, context, .queued previous⟩)
    (hprev : previous.all s.finished = true) (hbegin : s.connection.begin_ = some connection)
    (hchain : Chain (((({ s with connection := connection } : State D Sql).log
      (.began id s.connection.data)).newTask (some id) (some id)).setStage id
        (.calling s.tasks.length))) :
    Invariant driver (((({ s with connection := connection } : State D Sql).log
      (.began id s.connection.data)).newTask (some id) (some id)).setStage id
        (.calling s.tasks.length)) := by
  obtain ⟨scan, hreads, hscan⟩ := h.journal
  have hblock := hscan.closed_of_enters h.chain hcall rfl hprev
  refine ⟨hchain, h.setStage_waiting hcall (fun _ => Stage.noConfusion) rfl, _,
    hreads.snoc ?_, hscan.begin_ hblock hcall hbegin⟩
  have hnew : id ∉ scan.began := by
    intro hmem
    obtain ⟨found, hfound, hentered⟩ := hscan.began id hmem
    cases hcall.symm.trans hfound
    exact hentered previous rfl
  obtain ⟨began, block⟩ := scan
  obtain rfl : block = none := hblock
  exact .began hnew

/-- The callback of the open transaction has settled, and COMMIT or ROLLBACK ends it. -/
theorem closed {ofContext of : Option Nat} {task : Nat} {threw : Bool}
    (hcall : s.calls[id]? = some ⟨request, context, .calling task⟩)
    (htask : s.tasks[task]? = some ⟨ofContext, of, .settled threw⟩)
    {event : Event D} (hnone : connection.atBegin = none)
    (hnext : ∀ began data, s.connection.atBegin = some data →
      Scan.Next ⟨began, some ⟨id, data, some threw⟩⟩ event ⟨began, none⟩)
    (hchain : Chain ((({ s with connection := connection } : State D Sql).log event).setStage id
      .releasing)) :
    Invariant driver ((({ s with connection := connection } : State D Sql).log event).setStage id
      .releasing) := by
  obtain ⟨scan, hreads, hscan⟩ := h.journal
  obtain ⟨data, hblock, hdata, hafter⟩ := hscan.close hcall htask
  obtain ⟨began, block⟩ := scan
  obtain rfl : block = some ⟨id, data, some threw⟩ := hblock
  exact ⟨hchain, h.setStage_waiting hcall (fun _ => Stage.noConfusion) rfl, _,
    hreads.snoc (hnext began data hdata), hafter connection event hnone⟩

end

end Invariant

theorem role_ended {context : Option Nat} (htask : s.tasks[id]? = some ⟨context, none, .active⟩) :
    (s.setPhase id phase).role = s.role := by
  funext other
  rw [State.role, State.role, getElem_setPhase]
  by_cases hother : id = other
  · subst hother
    simp [htask]
  simp [hother]

theorem invariant_step {action : Action Sql} (horderly : OrderlyIssue driver s action)
    (h : Invariant driver s) (hstep : step driver s action = some t) : Invariant driver t := by
  have hchain := chain_step h.chain hstep
  cases effect_of_step hstep with
  | arrived =>
    exact h.of_frame hchain rfl rfl (fun scan hscan => hscan.newTask (fun _ heq => nomatch heq))
  | spawned htask =>
    exact h.of_frame hchain rfl rfl (fun scan hscan =>
      hscan.newTask (hscan.contexts _ (mem_of_getElem? htask)))
  | queued htask hreq =>
    refine h.run ?_
    rintro sql rfl
    exact ⟨(horderly _ htask).1, hreq sql rfl⟩
  | executed htask => exact h.executeNow ⟨_, mem_of_getElem? htask, rfl⟩ (horderly _ htask)
  | awaited htask | woken htask =>
    exact h.of_frame hchain rfl rfl (fun scan hscan => hscan.setPhase htask rfl)
  | ended htask =>
    exact h.of_frame hchain rfl rfl (fun scan hscan => hscan.of_frame rfl rfl (role_ended htask)
      (fun _ hentered => hentered) (hscan.contexts_setPhase _))
  | @settled task of context threw htask =>
    obtain ⟨scan, hreads, hscan⟩ := h.journal
    obtain ⟨data, hblock, hafter⟩ := hscan.settled htask rfl threw
    obtain ⟨began, block⟩ := scan
    obtain rfl : block = some ⟨of, data, none⟩ := hblock
    exact ⟨hchain, h.waiting, _, hreads.snoc .settled, hafter⟩
  | stated hcall hprev => exact h.stated hcall hprev hchain
  | passed hcall | released hcall =>
    obtain ⟨scan, hreads, hscan⟩ := h.journal
    exact ⟨hchain, h.setStage_waiting hcall (fun _ => Stage.noConfusion) rfl, scan, hreads,
      hscan.setStage hcall (fun _ => Stage.noConfusion) (fun _ => Stage.noConfusion)
        (fun _ => Stage.noConfusion)⟩
  | began hcall hprev hbegin => exact h.began hcall hprev hbegin hchain
  | committed hcall htask hcommit =>
    refine h.closed hcall htask ?_ (fun _ _ _ => .committed) hchain
    simp only [Connection.commit] at hcommit
    split at hcommit
    · cases hcommit
      rfl
    cases hcommit
  | rolledBack hcall htask =>
    refine h.closed hcall htask rfl ?_ hchain
    intro began data hdata
    have hback : s.connection.rollback.data = data := by
      rw [Connection.rollback, hdata, getD_some]
    rw [hback]
    exact .rolledBack

theorem invariant_initial (h : (machine driver).initial s) : Invariant driver s := by
  obtain ⟨hbegin, hcalls, htail, htasks, hjournal⟩ := h
  refine ⟨⟨⟨?_, ?_, ?_⟩, ?_, ?_⟩, ?_, ⟨[], none⟩, ?_, ?_⟩
  · simp [htail]
  · simp [hcalls]
  · simp [htail]
  · simp [hcalls]
  · simp [hcalls]
  · simp [hcalls]
  · rw [hjournal]
    rfl
  refine ⟨fun _ hmem => (nomatch hmem), by simp [htasks], fun _ => ⟨hbegin, ?_, ?_⟩,
    fun _ hsome => nomatch hsome⟩
  · intro id
    simp [State.callback, hcalls]
  intro id of
  simp [State.role, htasks]

end ImApp.SqliteClient
