import ImApp.Library.InterleavedCalls

/-!
The recall of one message. A row for the message says who may ask the message server to
revoke it; the row is reserved, and reserved again once it has failed or has waited for a
minute. Holders carry no token: whoever reserved the row may complete or fail it, however
late.
-/

namespace ImApp.ImReservations

open InterleavedCalls StepSystem Option Service

/-- `INTERVAL '1 minute'` in microseconds. -/
def staleAfter : ℕ := 60000000

inductive RecallStatus where
  | pending
  | recalled
  | failed
  deriving DecidableEq

/-- The row of `im_message_recalls`. -/
structure MessageRecall where
  status : RecallStatus
  recalledAt : Option ℕ
  updatedAt : ℕ

/-- The row with the database's clock, and whether the message server has confirmed a
revocation. -/
structure RecallData where
  row : Option MessageRecall
  now : ℕ
  confirmed : Bool

/-- A recall by the statement it is about to run. -/
inductive RecallCall where
  | reserve
  | reading
  | reclaiming
  | revoking
  | failing
  | completing
  deriving DecidableEq

/-- What becomes of a request to the database or to the message server. It may be lost
before it has an effect, or its answer may be. -/
inductive Reply where
  | answered
  | lost
  | unanswered
  deriving DecidableEq

/-- The predicate of `ReserveMessageRecall`. -/
def MessageRecall.reservable (now : ℕ) (row : MessageRecall) : Bool :=
  row.status = .failed || (row.status = .pending && row.updatedAt + staleAfter < now)

/-- A request whose answer is lost ends its call. -/
def afterwards (reply : Reply) (next : Option RecallCall) : Option RecallCall :=
  if reply = .answered then next else none

/-- `INSERT ... ON CONFLICT DO NOTHING` -/
def insertRecall (d : RecallData) (reply : Reply) : RecallData × Option RecallCall :=
  match d.row with
  | none => ({ d with row := some ⟨.pending, none, d.now⟩ }, afterwards reply (some .revoking))
  | some _ => (d, afterwards reply (some .reading))

def readRecall (d : RecallData) (reply : Reply) : RecallData × Option RecallCall :=
  match d.row with
  | none => (d, none)
  | some row => (d, if row.status = .recalled then none else afterwards reply (some .reclaiming))

def reclaimRecall (d : RecallData) (reply : Reply) : RecallData × Option RecallCall :=
  match d.row with
  | none => (d, none)
  | some row =>
    if row.reservable d.now then
      ({ d with row := some { row with status := .pending, updatedAt := d.now } },
        afterwards reply (some .revoking))
    else (d, none)

/-- `RevokeMessage` -/
def revokeMessage (d : RecallData) (reply : Reply) : RecallData × Option RecallCall :=
  if reply = .answered then ({ d with confirmed := true }, some .completing) else (d, some .failing)

def CompleteMessageRecall (d : RecallData) : RecallData :=
  { d with row := d.row.map fun row =>
      { row with status := .recalled, recalledAt := some (row.recalledAt.getD d.now), updatedAt := d.now } }

def FailMessageRecall (d : RecallData) : RecallData :=
  { d with row := d.row.map fun row =>
      if row.status = .pending then { row with status := .failed, updatedAt := d.now } else row }

/-- The next statement of a recall. A lost request changes nothing. -/
def advanceRecall (d : RecallData) (call : RecallCall) (reply : Reply) :
    RecallData × Option RecallCall :=
  match call with
  | .revoking => revokeMessage d reply
  | .reserve => if reply = .lost then (d, none) else insertRecall d reply
  | .reading => if reply = .lost then (d, none) else readRecall d reply
  | .reclaiming => if reply = .lost then (d, none) else reclaimRecall d reply
  | .failing => if reply = .lost then (d, none) else (FailMessageRecall d, none)
  | .completing => if reply = .lost then (d, none) else (CompleteMessageRecall d, none)

/-- Recalls of one message, with time going on. -/
def recallService : Service RecallData RecallCall Reply ℕ where
  initial := fun d => d.row = none ∧ d.confirmed = false
  opens := fun call => call = .reserve
  advance := fun _ d call reply => some (advanceRecall d call reply)
  world := fun d later => some { d with now := d.now + later }

/-- A recalled row was confirmed and has its time. -/
def Settled (d : RecallData) : Prop :=
  ∀ row, d.row = some row → row.status = .recalled → d.confirmed = true ∧ row.recalledAt.isSome = true

/-- A recalled row stays what it is. -/
def Stays (d d' : RecallData) : Prop :=
  ∀ row, d.row = some row → row.status = .recalled →
    ∃ row', d'.row = some row' ∧ row'.status = .recalled ∧ row'.recalledAt = row.recalledAt

/-- What a statement leaves of the data. -/
structure Step (d d' : RecallData) : Prop where
  settled : Settled d'
  stays : Stays d d'
  confirmed : d.confirmed = true → d'.confirmed = true

variable {d : RecallData} {reply : Reply}

theorem stays_of_row {d' : RecallData} (h : d'.row = d.row) : Stays d d' := by
  intro row hrow hrecall
  exact ⟨row, h.trans hrow, hrecall, rfl⟩

section

variable (h : Settled d)
include h

theorem Step.same : Step d d where
  settled := h
  stays := stays_of_row rfl
  confirmed := fun hconfirmed => hconfirmed

theorem insertRecall_step : Step d (insertRecall d reply).1 := by
  unfold insertRecall
  split
  · rename_i hnone
    refine ⟨?_, ?_, fun hconfirmed => hconfirmed⟩
    · intro row hrow hrecall
      cases hrow
      cases hrecall
    intro row hrow
    rw [hnone] at hrow
    cases hrow
  exact Step.same h

theorem readRecall_step : Step d (readRecall d reply).1 := by
  unfold readRecall
  split <;> exact Step.same h

theorem reclaimRecall_step : Step d (reclaimRecall d reply).1 := by
  unfold reclaimRecall
  split
  · exact Step.same h
  rename_i row hrow
  split
  · rename_i hreservable
    refine ⟨?_, ?_, fun hconfirmed => hconfirmed⟩
    · intro after hafter hrecall
      cases hafter
      cases hrecall
    intro before hpre hrecall
    cases hrow.symm.trans hpre
    simp [MessageRecall.reservable, hrecall] at hreservable
  exact Step.same h

theorem revokeMessage_step : Step d (revokeMessage d reply).1 := by
  unfold revokeMessage
  split
  · refine ⟨?_, stays_of_row rfl, fun _ => rfl⟩
    intro row hrow hrecall
    exact ⟨rfl, (h row hrow hrecall).2⟩
  exact Step.same h

theorem CompleteMessageRecall_step (hconfirmed : d.confirmed = true) :
    Step d (CompleteMessageRecall d) := by
  refine ⟨?_, ?_, fun _ => hconfirmed⟩
  · intro row hrow _
    obtain ⟨before, -, rfl⟩ := map_eq_some_iff.mp hrow
    exact ⟨hconfirmed, rfl⟩
  intro row hrow hrecall
  obtain ⟨time, htime⟩ := isSome_iff_exists.mp (h row hrow hrecall).2
  refine ⟨_, map_eq_some_iff.mpr ⟨row, hrow, rfl⟩, rfl, ?_⟩
  rw [htime]
  rfl

theorem FailMessageRecall_step : Step d (FailMessageRecall d) := by
  refine ⟨?_, ?_, fun hconfirmed => hconfirmed⟩
  · intro row hrow hrecall
    obtain ⟨before, hpre, rfl⟩ := map_eq_some_iff.mp hrow
    split at hrecall
    · cases hrecall
    rename_i hstat
    rw [if_neg hstat]
    exact h before hpre hrecall
  intro row hrow hrecall
  refine ⟨_, map_eq_some_iff.mpr ⟨row, hrow, rfl⟩, ?_⟩
  have hstat : row.status ≠ .pending := by
    rw [hrecall]
    decide
  rw [if_neg hstat]
  exact ⟨hrecall, rfl⟩

end

theorem advanceRecall_completing {call : RecallCall}
    (h : (advanceRecall d call reply).2 = some .completing) :
    (advanceRecall d call reply).1.confirmed = true := by
  cases call with
  | reserve =>
    simp only [advanceRecall, insertRecall, afterwards] at h
    split at h
    · cases h
    split at h <;> split at h <;> cases h
  | reading =>
    simp only [advanceRecall, readRecall, afterwards] at h
    split at h
    · cases h
    split at h
    · cases h
    dsimp only at h
    split at h
    · cases h
    split at h <;> cases h
  | reclaiming =>
    simp only [advanceRecall, reclaimRecall, afterwards] at h
    split at h
    · cases h
    split at h
    · cases h
    split at h
    · dsimp only at h
      split at h <;> cases h
    cases h
  | revoking =>
    simp only [advanceRecall, revokeMessage] at h ⊢
    split at h
    · rename_i hans
      rw [if_pos hans]
    cases h
  | failing | completing =>
    simp only [advanceRecall] at h
    split at h <;> cases h

theorem advanceRecall_step {call : RecallCall} (h : Settled d)
    (hcompleting : call = .completing → d.confirmed = true) : Step d (advanceRecall d call reply).1 := by
  cases call with
  | revoking => exact revokeMessage_step h
  | reserve =>
    simp only [advanceRecall]
    split
    · exact Step.same h
    exact insertRecall_step h
  | reading =>
    simp only [advanceRecall]
    split
    · exact Step.same h
    exact readRecall_step h
  | reclaiming =>
    simp only [advanceRecall]
    split
    · exact Step.same h
    exact reclaimRecall_step h
  | failing =>
    simp only [advanceRecall]
    split
    · exact Step.same h
    exact FailMessageRecall_step h
  | completing =>
    simp only [advanceRecall]
    split
    · exact Step.same h
    exact CompleteMessageRecall_step h (hcompleting rfl)

/-- A recall that is about to complete had its revocation confirmed. -/
def Confirmed (d : RecallData) (_ : ℕ) (call : RecallCall) : Prop :=
  call = .completing → d.confirmed = true

variable {s t : State RecallData RecallCall}

theorem recalls_hold (hs : recallService.machine.Reachable s) : Service.Holds Settled Confirmed s := by
  apply holds_of_reachable _ _ _ _ hs
  · rintro d ⟨hnone, -⟩ row hrow
    rw [hnone] at hrow
    cases hrow
  · intro s id call _ _ hopens hcompleting
    rw [hcompleting] at hopens
    cases hopens
  · intro s id call reply d next _ hholds hcall hadv
    have hres := some.inj hadv
    have hstep : Step s.data (advanceRecall s.data call reply).1 :=
      advanceRecall_step hholds.data (hholds.calls id call hcall)
    have hcompleting : (advanceRecall s.data call reply).2 = some .completing →
        (advanceRecall s.data call reply).1.confirmed = true := advanceRecall_completing
    rw [hres] at hstep hcompleting
    refine ⟨hstep.settled, ?_, ?_⟩
    · rintro current rfl rfl
      exact hcompleting rfl
    intro other current _ hcur hsame
    exact hstep.confirmed (hholds.calls other current hcur hsame)
  intro s later d _ hholds hworld
  cases hworld
  exact ⟨hholds.data, hholds.calls⟩

theorem Stays.trans {a b c : RecallData} (hab : Stays a b) (hbc : Stays b c) : Stays a c := by
  intro row hrow hrecall
  obtain ⟨row', hrow', hrecalled', htime⟩ := hab row hrow hrecall
  obtain ⟨row'', hrow'', hrecalled'', htime'⟩ := hbc row' hrow' hrecalled'
  exact ⟨row'', hrow'', hrecalled'', htime'.trans htime⟩

theorem stays_path (hs : recallService.machine.Reachable s)
    (path : recallService.machine.Path Machine.unrestricted s t) : Stays s.data t.data := by
  apply relates_of_path Stays (fun _ => stays_of_row rfl) (fun _ _ _ => Stays.trans)
    (fun _ => recalls_hold) _ _ hs path
  · intro s id call reply d next _ hholds hcall hadv
    have hstep : Step s.data (advanceRecall s.data call reply).1 :=
      advanceRecall_step hholds.data (hholds.calls id call hcall)
    rw [some.inj hadv] at hstep
    exact hstep.stays
  intro s later d _ _ hworld
  cases hworld
  exact stays_of_row rfl

/-- A recall that is answered up to its revocation. -/
def reserveRun (id : ℕ) : List (Action RecallCall Reply ℕ) :=
  [.start id .reserve, .advance id .answered, .advance id .answered, .advance id .answered]

theorem reserveRun_reserves {row : MessageRecall} {id : ℕ} (hrow : s.data.row = some row)
    (hreservable : row.reservable s.data.now = true) (hfree : s.calls id = none) :
    ∃ t, recallService.machine.execute s (reserveRun id) = some t ∧ t.calls id = some .revoking ∧
      t.data = { s.data with row := some { row with status := .pending, updatedAt := s.data.now } } := by
  have hstat : row.status ≠ .recalled := by
    intro hrecall
    simp [MessageRecall.reservable, hrecall] at hreservable
  have hinsert : insertRecall s.data .answered = (s.data, some .reading) := by
    simp [insertRecall, hrow, afterwards]
  have hread : readRecall s.data .answered = (s.data, some .reclaiming) := by
    simp [readRecall, hrow, hstat, afterwards]
  have hreclaim : reclaimRecall s.data .answered =
      ({ s.data with row := some { row with status := .pending, updatedAt := s.data.now } },
        some .revoking) := by
    simp [reclaimRecall, hrow, hreservable, afterwards]
  let reserving := setCall s.calls id (some .reserve)
  let reading := setCall reserving id (some .reading)
  let reclaiming := setCall reading id (some .reclaiming)
  refine ⟨⟨_, setCall reclaiming id (some .revoking)⟩, ?_, setCall_self _ _ _, rfl⟩
  have hstart : recallService.machine.step s (.start id .reserve) = some ⟨s.data, reserving⟩ :=
    start_of hfree rfl
  have hfirst : recallService.machine.step ⟨s.data, reserving⟩ (.advance id .answered) =
      some ⟨s.data, reading⟩ := advance_of (setCall_self _ _ _) (congrArg some hinsert)
  have hsecond : recallService.machine.step ⟨s.data, reading⟩ (.advance id .answered) =
      some ⟨s.data, reclaiming⟩ := advance_of (setCall_self _ _ _) (congrArg some hread)
  have hthird : recallService.machine.step ⟨s.data, reclaiming⟩ (.advance id .answered) =
      some ⟨_, setCall reclaiming id (some .revoking)⟩ :=
    advance_of (setCall_self _ _ _) (congrArg some hreclaim)
  simp only [reserveRun, Machine.execute, hstart, hfirst, hsecond, hthird, bind_some]

/-- A row becomes recalled only once the message server has confirmed a revocation; it
then stays recalled with its time; and a failed or stale row can be reserved again. -/
theorem recall_reservations (hs : recallService.machine.Reachable s) :
    (∀ row, s.data.row = some row → row.status = .recalled → s.data.confirmed = true) ∧
      (∀ t row, recallService.machine.Path Machine.unrestricted s t → s.data.row = some row →
        row.status = .recalled → row.recalledAt.isSome = true ∧
          ∃ row', t.data.row = some row' ∧ row'.status = .recalled ∧ row'.recalledAt = row.recalledAt) ∧
      ∀ row id, s.data.row = some row → row.reservable s.data.now = true → s.calls id = none →
        ∃ t, recallService.machine.execute s (reserveRun id) = some t ∧ t.calls id = some .revoking ∧
          t.data = { s.data with row := some { row with status := .pending, updatedAt := s.data.now } } := by
  have hholds := recalls_hold hs
  refine ⟨?_, ?_, ?_⟩
  · intro row hrow hrecall
    exact (hholds.data row hrow hrecall).1
  · intro t row path hrow hrecall
    exact ⟨(hholds.data row hrow hrecall).2, stays_path hs path row hrow hrecall⟩
  intro row id hrow hreservable hfree
  exact reserveRun_reserves hrow hreservable hfree

/-- Two recalls: the first is interrupted, the second takes the row over and completes. -/
def takeoverRun : List (Action RecallCall Reply ℕ) :=
  [.start 0 .reserve, .advance 0 .answered, .world 60000001, .start 1 .reserve, .advance 1 .answered,
    .advance 1 .answered, .advance 1 .answered, .advance 1 .answered, .advance 1 .answered,
    .advance 0 .lost]

theorem recall_reservations_takeover :
    ∃ s : State RecallData RecallCall, s.data = ⟨some ⟨.recalled, some 60000001, 60000001⟩, 60000001, true⟩ ∧
      s.calls 0 = some .failing ∧
      ((∀ row, s.data.row = some row → row.status = .recalled → s.data.confirmed = true) ∧
      (∀ t row, recallService.machine.Path Machine.unrestricted s t → s.data.row = some row →
        row.status = .recalled → row.recalledAt.isSome = true ∧
          ∃ row', t.data.row = some row' ∧ row'.status = .recalled ∧ row'.recalledAt = row.recalledAt) ∧
      ∀ row id, s.data.row = some row → row.reservable s.data.now = true → s.calls id = none →
        ∃ t, recallService.machine.execute s (reserveRun id) = some t ∧ t.calls id = some .revoking ∧
          t.data = { s.data with row := some { row with status := .pending, updatedAt := s.data.now } }) := by
  have hinitial : recallService.machine.initial ⟨⟨none, 0, false⟩, fun _ => none⟩ :=
    ⟨⟨rfl, rfl⟩, fun _ => rfl⟩
  have hrun : recallService.machine.execute ⟨⟨none, 0, false⟩, fun _ => none⟩ takeoverRun =
      some ⟨⟨some ⟨.recalled, some 60000001, 60000001⟩, 60000001, true⟩, _⟩ := rfl
  exact ⟨_, rfl, rfl, recall_reservations (Machine.reachable_of_execute hinitial hrun)⟩

end ImApp.ImReservations
