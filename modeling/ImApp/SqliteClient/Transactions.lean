import ImApp.SqliteClient.Waiting

/-!
Transactions of the client. Between the BEGIN and the COMMIT of each there are its
own statements only, no call waits for itself, and what is issued is executed.
-/

namespace ImApp.SqliteClient

open List State Option
open StepSystem (Machine)

variable {D Sql : Type*} {s t : State D Sql} {driver : Driver D Sql} {id : Nat} {call : Call Sql}

/-- The journal has what the request does to the connection. -/
def State.Logged (s : State D Sql) (id : Nat) : Request Sql → Prop
  | .statement _ => ∃ context, .executed id context ∈ s.journal
  | .transaction => ∃ data, .began id data ∈ s.journal
  | .backup => True

def State.Executed (s : State D Sql) (id : Nat) : Prop :=
  ∃ call, s.calls[id]? = some call ∧ (∀ previous, call.stage ≠ .queued previous) ∧
    s.Logged id call.request

/-- A step leaves the calls, adds one or moves one on. -/
inductive CallsStep (s t : State D Sql) (action : Action Sql) : Prop
  | same (hcalls : t.calls = s.calls)
  | queued (request : Request Sql) (context : Option Nat)
      (hcalls : t.calls = s.calls ++ [⟨request, context, .queued s.tail⟩])
  | immediate (sql : Sql) (context : Option Nat)
      (hcalls : t.calls = s.calls ++ [⟨.statement sql, context, .finished⟩])
      (hlogged : .executed s.calls.length context ∈ t.journal)
  | moved (id : Nat) (call : Call Sql) (stage : Stage) (hcall : s.calls[id]? = some call)
      (hcalls : t.calls = (s.setStage id stage).calls) (hopen : call.stage ≠ .finished)
      (hstage : ∀ previous, stage ≠ .queued previous)
      (hentered : (∀ previous, call.stage ≠ .queued previous) ∨
        (action = .enter id ∧ (s.connection.atBegin = none → t.Logged id call.request)))

variable {action : Action Sql} {request : Request Sql} {previous : Option Nat}

section

variable (hstep : step driver s action = some t)
include hstep

theorem calls_step : CallsStep s t action := by
  cases effect_of_step hstep with
  | arrived | spawned | awaited | woken | ended | settled => exact .same rfl
  | queued => exact .queued _ _ rfl
  | executed => exact .immediate _ _ rfl (mem_append_right _ mem_cons_self)
  | stated hcall | began hcall =>
    exact .moved _ _ _ hcall rfl Stage.noConfusion (fun _ => Stage.noConfusion)
      (.inr ⟨rfl, fun _ => ⟨_, mem_append_right _ mem_cons_self⟩⟩)
  | passed hcall hprev hreq =>
    refine .moved _ _ _ hcall rfl Stage.noConfusion (fun _ => Stage.noConfusion)
      (.inr ⟨rfl, fun hnone => ?_⟩)
    rcases hreq with rfl | ⟨rfl, hbegin⟩
    · trivial
    simp [Connection.begin_, hnone] at hbegin
  | committed hcall | rolledBack hcall | released hcall =>
    exact .moved _ _ _ hcall rfl Stage.noConfusion (fun _ => Stage.noConfusion)
      (.inl fun _ => Stage.noConfusion)

theorem finished_step (hlt : id < s.calls.length) (hdone : s.finished id = true) :
    id < t.calls.length ∧ t.finished id = true := by
  have happend : ∀ call : Call Sql, t.calls = s.calls ++ [call] →
      id < t.calls.length ∧ t.finished id = true := by
    intro call hcalls
    refine ⟨by rw [hcalls, length_append]; omega, ?_⟩
    rw [State.finished] at hdone ⊢
    rwa [hcalls, getElem?_append_left hlt]
  cases calls_step hstep with
  | same hcalls => exact ⟨hcalls ▸ hlt, (finished_of_calls hcalls).trans hdone⟩
  | queued request context hcalls | immediate sql context hcalls => exact happend _ hcalls
  | moved other call stage hcall hcalls hopen =>
    have hne : id ≠ other := by
      rintro rfl
      exact hopen (finished_iff.mp hdone call hcall)
    refine ⟨by rw [hcalls, State.setStage, length_modify]; exact hlt, ?_⟩
    rw [finished_of_calls hcalls, finished_setStage_of_ne hne]
    exact hdone

theorem queued_step (hcall : s.calls[id]? = some call)
    (hqueued : call.stage = .queued previous) (haction : action ≠ .enter id) :
    t.calls[id]? = some call := by
  have hlt := (List.getElem?_eq_some_iff.mp hcall).1
  cases calls_step hstep with
  | same hcalls => rw [hcalls, hcall]
  | queued request context hcalls | immediate sql context hcalls =>
    rw [hcalls, getElem?_append_left hlt, hcall]
  | moved other found stage hfound hcalls hopen hstage hentered =>
    have hne : id ≠ other := by
      rintro rfl
      cases hcall.symm.trans hfound
      rcases hentered with hentered | ⟨htaken, _⟩
      · exact hentered previous hqueued
      exact haction htaken
    rw [hcalls, setStage_of_ne hne, hcall]

end

theorem entered_step (hstep : step driver s (.enter id) = some t) : t.entered id := by
  cases effect_of_step hstep with
  | stated hcall | passed hcall | began hcall =>
    exact ⟨_, setStage_self hcall, fun _ => Stage.noConfusion⟩

theorem journal_step (hstep : step driver s action = some t) :
    ∃ events, t.journal = s.journal ++ events := by
  cases effect_of_step hstep with
  | executed | settled | stated | began | committed | rolledBack => exact ⟨_, rfl⟩
  | _ => exact ⟨[], (append_nil _).symm⟩

theorem logged_step
    (hstep : step driver s action = some t) (h : s.Logged id request) : t.Logged id request := by
  obtain ⟨events, hjournal⟩ := journal_step hstep
  cases request with
  | statement sql =>
    obtain ⟨context, hmem⟩ := h
    exact ⟨context, hjournal ▸ mem_append_left _ hmem⟩
  | backup => trivial
  | transaction =>
    obtain ⟨data, hmem⟩ := h
    exact ⟨data, hjournal ▸ mem_append_left _ hmem⟩

/-- Every call that is no longer queued did what it was issued for. -/
def Served (s : State D Sql) : Prop :=
  ∀ id call, s.calls[id]? = some call → (∀ previous, call.stage ≠ .queued previous) →
    s.Logged id call.request

theorem Invariant.idle_of_enter (h : Invariant driver s)
    (hstep : step driver s (.enter id) = some t) : s.connection.atBegin = none := by
  obtain ⟨scan, _, hscan⟩ := h.journal
  cases effect_of_step hstep with
  | stated hcall hprev | passed hcall hprev | began hcall hprev =>
    exact (hscan.closed (hscan.closed_of_enters h.chain hcall rfl hprev)).atBegin

theorem served_step (h : Invariant driver s) (hserved : Served s)
    (hstep : step driver s action = some t) : Served t := by
  intro id call hcall hentered
  cases calls_step hstep with
  | same hcalls =>
    rw [hcalls] at hcall
    exact logged_step hstep (hserved id call hcall hentered)
  | queued request context hcalls =>
    rw [hcalls] at hcall
    rcases append_cases hcall with hold | ⟨_, rfl⟩
    · exact logged_step hstep (hserved id call hold hentered)
    exact absurd rfl (hentered s.tail)
  | immediate sql context hcalls hlogged =>
    rw [hcalls] at hcall
    rcases append_cases hcall with hold | ⟨rfl, rfl⟩
    · exact logged_step hstep (hserved id call hold hentered)
    exact ⟨context, hlogged⟩
  | moved other found stage hfound hcalls hopen hstage hpre =>
    rw [hcalls] at hcall
    rcases setStage_cases hfound hcall with ⟨rfl, rfl⟩ | ⟨_, hold⟩
    · rcases hpre with hpre | ⟨rfl, hlogged⟩
      · exact logged_step hstep (hserved id found hfound hpre)
      exact hlogged (h.idle_of_enter hstep)
    exact logged_step hstep (hserved id call hold hentered)

/-- What holds in every state of an orderly run. -/
structure Kept (driver : Driver D Sql) (s : State D Sql) : Prop where
  invariant : Invariant driver s
  free : Free s
  served : Served s

theorem kept_step (horderly : Orderly driver s action) (h : Kept driver s)
    (hstep : step driver s action = some t) : Kept driver t :=
  ⟨invariant_step horderly.1 h.invariant hstep, free_step horderly.2 h.free hstep,
    served_step h.invariant h.served hstep⟩

theorem kept_initial (h : (machine driver).initial s) : Kept driver s := by
  refine ⟨invariant_initial h, free_initial h, ?_⟩
  intro id call hcall
  simp [h.2.1] at hcall

theorem kept (h : (machine driver).ReachableBy (Orderly driver) s) : Kept driver s :=
  h.invariant (Kept driver) (fun _ => kept_initial) (fun _ _ _ => kept_step)

theorem enabled_enter {context : Option Nat}
    (hcall : s.calls[id]? = some ⟨request, context, .queued previous⟩) :
    (step driver s (.enter id)).isSome ↔ previous.all s.finished = true := by
  simp only [step, hcall]
  split
  case isTrue hprev => simp [hprev]
  case isFalse hprev => simp [hprev]

section Run

variable {run : (machine driver).Run}

theorem kept_run (horderly : ∀ n, Orderly driver (run.state n) (run.action n)) (n : Nat) :
    Kept driver (run.state n) := by
  induction n with
  | zero => exact kept_initial run.start
  | succ n ih => exact kept_step (horderly n) ih (run.next n)

theorem queued_run {n k : Nat} {previous : Option Nat} (hnk : n ≤ k)
    (hcall : (run.state n).calls[id]? = some call) (hqueued : call.stage = .queued previous)
    (hnever : ∀ j, n ≤ j → j < k → run.action j ≠ .enter id) :
    (run.state k).calls[id]? = some call := by
  induction k, hnk using Nat.le_induction with
  | base => exact hcall
  | succ k hnk ih =>
    exact queued_step (run.next k) (ih (fun j hj hjk => hnever j hj (hjk.trans k.lt_succ_self)))
      hqueued (hnever k hnk k.lt_succ_self)

theorem enters (hchain : ∀ n, Chain (run.state n)) (hfair : run.FairTo (.enter id)) {n : Nat}
    {request : Request Sql} {context previous : Option Nat}
    (hcall : (run.state n).calls[id]? = some ⟨request, context, .queued previous⟩)
    (hprev : ∀ p, previous = some p → ∃ k, n ≤ k ∧ (run.state k).finished p = true) :
    ∃ k, run.action k = .enter id := by
  have hopen : ∃ k, n ≤ k ∧ previous.all (run.state k).finished = true := by
    cases previous with
    | none => exact ⟨n, le_rfl, rfl⟩
    | some p => exact hprev p rfl
  obtain ⟨k, hnk, hk⟩ := hopen
  by_contra hnever
  push Not at hnever
  have hstill : ∀ j, n ≤ j → (run.state j).calls[id]? = some ⟨request, context, .queued previous⟩ :=
    fun j hj => queued_run hj hcall rfl (fun i _ _ => hnever i)
  obtain ⟨j, _, htaken⟩ := hfair.taken ((enabled_enter (hstill k hnk)).mpr hk) (by
    intro j hj henabled _
    have hthere := hstill j (hnk.trans hj)
    refine (enabled_enter (hstill (j + 1) (Nat.le_succ_of_le (hnk.trans hj)))).mpr ?_
    have hnow := (enabled_enter hthere).mp henabled
    cases previous with
    | none => rfl
    | some p =>
      have hearlier := ((hchain j).queued id _ _ hthere rfl).earlier p rfl
      have hlt := (List.getElem?_eq_some_iff.mp hthere).1
      exact (finished_step (run.next j) (hearlier.trans hlt) hnow).2)
  exact hnever j htaken

end Run

/-- In every run in which no statement controls a transaction or is issued in the
context of a settled one while another is open, and no callback waits for a call
that has not finished, transactions are serial and no call waits for itself; and
if the run is fair, a call whose predecessor finishes is executed. -/
theorem transactions_serial (driver : Driver D Sql) :
    (∀ s, (machine driver).ReachableBy (Orderly driver) s →
      Serial s.journal ∧ ∀ id, ¬ s.WaitsForItself id) ∧
    ∀ run : (machine driver).Run, (∀ n, Orderly driver (run.state n) (run.action n)) →
      (∀ id, run.FairTo (.enter id)) → ∀ n id call, (run.state n).calls[id]? = some call →
        (∀ previous, call.stage = .queued (some previous) →
          ∃ k, n ≤ k ∧ (run.state k).finished previous = true) →
        ∃ k, (run.state k).Executed id := by
  refine ⟨fun s hs => ?_, fun run horderly hfair n id call hcall hprev => ?_⟩
  · have h := kept hs
    obtain ⟨scan, hreads, _⟩ := h.invariant.journal
    exact ⟨serial_of_reads hreads, fun id => not_waits_for_itself h.free.chain h.free.callbacks⟩
  have hkept := kept_run horderly
  have hexecuted : ∀ k, (run.state k).entered id → (run.state k).Executed id := by
    rintro k ⟨found, hfound, hentered⟩
    exact ⟨found, hfound, hentered, (hkept k).served id found hfound hentered⟩
  obtain ⟨request, context, stage⟩ := call
  cases stage with
  | queued previous =>
    obtain ⟨k, hk⟩ := enters (fun n => (hkept n).free.chain) (hfair id) hcall
      (by rintro p rfl; exact hprev p rfl)
    have hnext := run.next k
    rw [hk] at hnext
    exact ⟨k + 1, hexecuted _ (entered_step hnext)⟩
  | calling task | releasing | finished =>
    exact ⟨n, hexecuted n ⟨_, hcall, fun _ => Stage.noConfusion⟩⟩

/-- A database that keeps what was inserted. -/
def rows : Driver (List Nat) Nat where
  execute := fun row c => { c with data := c.data ++ [row] }
  control := fun _ => false
  plain := fun _ _ _ => rfl

def empty : State (List Nat) Nat := ⟨⟨[], none⟩, [], none, [], []⟩

theorem empty_initial : (machine rows).initial empty := ⟨rfl, rfl, rfl, rfl, rfl⟩

/-- A transaction that inserts a row. -/
def insertInTransaction : List (Action Nat) :=
  [.arrive, .issue 0 .transaction, .enter 0, .issue 1 (.statement 5), .settle 1 false,
    .close 0 true, .release 0]

def isAwait : Action Nat → Bool
  | .await _ _ => true
  | _ => false

/-- A condition that can be evaluated on the runs of the examples. -/
def OrderlyInsert (s : State (List Nat) Nat) (action : Action Nat) : Prop :=
  OrderlyIssue rows s action ∧ isAwait action = false

instance (s : State (List Nat) Nat) : DecidablePred (OrderlyInsert s)
  | .issue task (.statement sql) => by
      unfold OrderlyInsert OrderlyIssue OrderlyStatement
      infer_instance
  | .issue _ .backup | .issue _ .transaction => inferInstanceAs (Decidable (True ∧ _))
  | .arrive | .spawn _ | .await _ _ | .wake _ | .settle _ _ | .enter _ | .close _ _ | .release _ =>
    inferInstanceAs (Decidable (True ∧ _))

theorem orderly_of_insert {s : State (List Nat) Nat} {action : Action Nat}
    (h : OrderlyInsert s action) : Orderly rows s action := by
  refine ⟨h.1, ?_⟩
  cases action with
  | await task node => cases h.2
  | _ => trivial

/-- A row is inserted outside of a transaction; afterwards tasks arrive. -/
def insertRow : Nat → Action Nat
  | 1 => .issue 0 (.statement 5)
  | 2 => .enter 0
  | 3 => .release 0
  | _ => .arrive

def insertRowState : Nat → State (List Nat) Nat
  | 0 => empty
  | n + 1 => (step rows (insertRowState n) (insertRow n)).getD (insertRowState n)

theorem insertRow_settled (n : Nat) :
    (insertRowState (n + 4)).calls = [⟨.statement 5, none, .finished⟩] := by
  induction n with
  | zero => decide +kernel
  | succ n ih => exact ih

def insertRowRun : (machine rows).Run where
  state := insertRowState
  action := insertRow
  start := empty_initial
  next
    | 0 => by decide +kernel
    | 1 => by decide +kernel
    | 2 => by decide +kernel
    | 3 => by decide +kernel
    | _ + 4 => rfl

theorem insertRow_orderly (n : Nat) : Orderly rows (insertRowRun.state n) (insertRowRun.action n) := by
  refine orderly_of_insert ?_
  match n with
  | 0 => decide +kernel
  | 1 => decide +kernel
  | 2 => decide +kernel
  | 3 => decide +kernel
  | n + 4 => exact ⟨trivial, rfl⟩

theorem insertRow_fair (id : Nat) : insertRowRun.FairTo (.enter id) := by
  intro n henabled
  have hlater := henabled (n + 4) (Nat.le_add_right n 4)
  have hcalls : (insertRowRun.state (n + 4)).calls = [⟨.statement 5, none, .finished⟩] :=
    insertRow_settled n
  simp only [machine, step, hcalls] at hlater
  cases id with
  | zero | succ id => cases hlater

theorem transactions_serial_insert :
    (∃ s : State (List Nat) Nat, s.connection.data = [5] ∧ Serial s.journal ∧
      ∀ id, ¬ s.WaitsForItself id) ∧ ∃ k, (insertRowRun.state k).Executed 0 := by
  have hrun : ((machine rows).executeBy OrderlyInsert empty insertInTransaction).any
      (fun s => s.connection.data = [5]) = true := by decide +kernel
  obtain ⟨s, hs, hdata⟩ := (any_eq_true _ _).mp hrun
  have hreached : (machine rows).ReachableBy (Orderly rows) s :=
    ⟨empty, empty_initial, (Machine.path_of_executeBy hs).weaken (fun _ _ => orderly_of_insert)⟩
  refine ⟨⟨s, of_decide_eq_true hdata, (transactions_serial rows).1 s hreached⟩, ?_⟩
  exact (transactions_serial rows).2 insertRowRun insertRow_orderly insertRow_fair 4 0 _
    (congrArg (fun calls => calls[0]?) (insertRow_settled 0)) (fun _ heq => nomatch heq)

/-- A task that a callback left behind inserts a row while the next transaction is
open. -/
def leftoverInsert : List (Action Nat) :=
  [.arrive, .issue 0 .transaction, .enter 0, .spawn 1, .settle 1 false, .close 0 true, .release 0,
    .issue 0 .transaction, .enter 1, .issue 2 (.statement 7), .settle 3 false, .close 1 true]

/-- A callback awaits a transaction that it starts. -/
def nestedTransaction : List (Action Nat) :=
  [.arrive, .issue 0 .transaction, .enter 0, .issue 1 .transaction, .await 1 (.call 1)]

/-- The second transaction commits a row of the first, and the transaction whose
callback awaits another one waits for itself. -/
theorem leftover_task_interferes :
    (∃ s : State (List Nat) Nat, (machine rows).Reachable s ∧ s.connection = ⟨[7], none⟩ ∧
      ¬ Serial s.journal) ∧
    ∃ s : State (List Nat) Nat, (machine rows).Reachable s ∧ s.WaitsForItself 0 := by
  refine ⟨?_, ?_⟩
  · have hrun : ((machine rows).execute empty leftoverInsert).any (fun s =>
        s.connection = ⟨[7], none⟩ && s.journal = [.began 0 [], .settled 0 false, .committed 0,
          .began 1 [], .executed 2 (some 0), .settled 1 false, .committed 1]) = true := by
      decide +kernel
    obtain ⟨s, hs, hends⟩ := (any_eq_true _ _).mp hrun
    simp only [Bool.and_eq_true, decide_eq_true_eq] at hends
    refine ⟨s, Machine.reachable_of_execute empty_initial hs, hends.1, fun hserial => ?_⟩
    obtain ⟨own, hown⟩ := hserial.inside [.began 0 [], .settled 0 false, .committed 0]
      [.executed 2 (some 0), .settled 1 false] [] 1 [] hends.2
    cases own with
    | nil | cons id rest => cases hown
  have hrun : ((machine rows).execute empty nestedTransaction).any (fun s =>
      s.calls = [⟨.transaction, none, .calling 1⟩, ⟨.transaction, some 0, .queued (some 0)⟩] &&
        s.tasks[1]? = some ⟨some 0, some 0, .awaiting (.call 1)⟩) = true := by
    decide +kernel
  obtain ⟨s, hs, hends⟩ := (any_eq_true _ _).mp hrun
  simp only [Bool.and_eq_true, decide_eq_true_eq] at hends
  obtain ⟨hcalls, htask⟩ := hends
  refine ⟨s, Machine.reachable_of_execute empty_initial hs, ?_⟩
  have hcb : s.WaitsFor (.call 0) (.task 1) :=
    .callback (callback_eq_some.mpr ⟨_, _, by rw [hcalls]; rfl⟩)
  have hawaits : s.WaitsFor (.task 1) (.call 1) := .awaits ⟨1, _, _, rfl, htask⟩
  have hqueued : s.WaitsFor (.call 1) (.call 0) := by
    refine .queued (by rw [hcalls]; rfl) ?_
    rw [State.finished, hcalls]
    rfl
  exact (Relation.TransGen.single hcb).tail hawaits |>.tail hqueued

end ImApp.SqliteClient
