import ImApp.ImReservations.Recalls

/-!
System messages under one idempotency key. A caller reserves the row of the key, sends
the message outside the database and completes or fails the row, which asks for a pending
row and not for the caller's own reservation. A caller that was taken over can so end the
reservation of the next one.
-/

namespace ImApp.ImReservations

open InterleavedCalls StepSystem Option

inductive SystemMessageStatus where
  | pending
  | sent
  | failed
  deriving DecidableEq

/-- What a request is compared by when its key is used again. -/
structure SystemMessageRequest where
  receiverType : String
  receiverBusinessId : String
  messageType : String
  requestHash : String
  deriving DecidableEq

/-- The row of `im_system_message_requests`. -/
structure SystemMessage where
  request : SystemMessageRequest
  status : SystemMessageStatus
  updatedAt : ℕ

/-- The row with the database's clock, the caller that reserved it last and whether some
`CompleteSystemMessage` has returned success. -/
structure MessageData where
  row : Option SystemMessage
  now : ℕ
  holder : Option ℕ
  completed : Bool

/-- A caller by what it is about to do. A reservation keeps the time it was made. -/
inductive MessageCall where
  | reserve (request : SystemMessageRequest)
  | reading (request : SystemMessageRequest)
  | reclaiming (status : SystemMessageStatus)
  | returned (status : SystemMessageStatus)
  | sending (reservedAt : ℕ)
  | failing (reservedAt : ℕ)
  | completing (reservedAt : ℕ)

/-- The reply to a statement or to the send, and whether the application's clock sees the
row as older than a minute. -/
structure Answer where
  reply : Reply
  late : Bool

def SystemMessage.reservable (now : ℕ) (row : SystemMessage) : Bool :=
  row.status = .failed || (row.status = .pending && row.updatedAt + staleAfter < now)

def hear (reply : Reply) (next : MessageCall) : Option MessageCall :=
  if reply = .answered then some next else none

/-- `INSERT ... ON CONFLICT DO NOTHING` -/
def insertMessage (id : ℕ) (d : MessageData) (request : SystemMessageRequest) (reply : Reply) :
    MessageData × Option MessageCall :=
  match d.row with
  | none =>
    ({ d with row := some ⟨request, .pending, d.now⟩, holder := some id }, hear reply (.sending d.now))
  | some _ => (d, hear reply (.reading request))

/-- The row of the key, compared with the request; another request is refused. -/
def readMessage (d : MessageData) (request : SystemMessageRequest) (answer : Answer) :
    MessageData × Option MessageCall :=
  match d.row with
  | none => (d, none)
  | some row =>
    if row.request ≠ request then (d, none)
    else if row.status = .failed ∨ (row.status = .pending ∧ answer.late = true) then
      (d, hear answer.reply (.reclaiming row.status))
    else (d, hear answer.reply (.returned row.status))

def reclaimMessage (id : ℕ) (d : MessageData) (status : SystemMessageStatus) (reply : Reply) :
    MessageData × Option MessageCall :=
  match d.row with
  | none => (d, hear reply (.returned status))
  | some row =>
    if row.reservable d.now then
      ({ d with row := some { row with status := .pending, updatedAt := d.now }, holder := some id },
        hear reply (.sending d.now))
    else (d, hear reply (.returned status))

/-- The statement of `CompleteSystemMessage` and `FailSystemMessage`. -/
def settleMessage (status : SystemMessageStatus) (d : MessageData) : MessageData :=
  { d with row := d.row.map fun row =>
      if row.status = .pending then { row with status := status, updatedAt := d.now } else row }

def CompleteSystemMessage (d : MessageData) (reply : Reply) : MessageData :=
  { settleMessage .sent d with completed := d.completed || reply = .answered }

def FailSystemMessage (d : MessageData) : MessageData := settleMessage .failed d

/-- The next statement of a caller. A lost request changes nothing. -/
def advanceMessage (id : ℕ) (d : MessageData) (call : MessageCall) (answer : Answer) :
    MessageData × Option MessageCall :=
  match call with
  | .returned _ => (d, none)
  | .sending reservedAt =>
    (d, some (if answer.reply = .answered then .completing reservedAt else .failing reservedAt))
  | .reserve request => if answer.reply = .lost then (d, none) else insertMessage id d request answer.reply
  | .reading request => if answer.reply = .lost then (d, none) else readMessage d request answer
  | .reclaiming status => if answer.reply = .lost then (d, none) else reclaimMessage id d status answer.reply
  | .failing _ => if answer.reply = .lost then (d, none) else (FailSystemMessage d, none)
  | .completing _ =>
    if answer.reply = .lost then (d, none) else (CompleteSystemMessage d answer.reply, none)

def MessageCall.isReserve : MessageCall → Bool
  | .reserve _ => true
  | _ => false

/-- Callers of one key, with time going on. -/
def messageService : Service MessageData MessageCall Answer ℕ where
  initial := fun d => d.row = none ∧ d.holder = none ∧ d.completed = false
  opens := MessageCall.isReserve
  advance := fun id d call answer => some (advanceMessage id d call answer)
  world := fun d later => some { d with now := d.now + later }

/-- The reservation that a caller works under, from the send to its last statement. -/
def MessageCall.reservedAt? : MessageCall → Option ℕ
  | .sending at_ | .failing at_ | .completing at_ => some at_
  | _ => none

/-- A caller under a reservation that is not stale. -/
def Fresh (s : State MessageData MessageCall) (id : ℕ) : Prop :=
  ∃ call reserved, s.calls id = some call ∧ call.reservedAt? = some reserved ∧
    s.data.now ≤ reserved + staleAfter

/-- A message counted as sent stays sent: a caller that reads the row is told so and none
gets a reservation. Fresh reservations exclude each other. -/
structure Idempotent (s : State MessageData MessageCall) : Prop where
  sent : s.data.completed = true → ∃ row, s.data.row = some row ∧ row.status = .sent ∧
    ∀ answer, answer.reply = .answered →
      (advanceMessage 0 s.data (.reading row.request) answer).2 = some (.returned .sent)
  silent : s.data.completed = true → ∀ id call answer next, s.calls id = some call →
    (advanceMessage id s.data call answer).2 = some next → next.reservedAt?.isSome = true →
      call.reservedAt?.isSome = true
  exclusive : ∀ id other, Fresh s id → Fresh s other → id = other

/-- No caller fails a reservation that another one has made since, and none completes a
row that has failed. -/
def Timely (s : State MessageData MessageCall) : Action MessageCall Answer ℕ → Prop
  | .advance id _ => ∀ call row, s.calls id = some call → s.data.row = some row →
      (∀ reserved, call = .failing reserved → row.status = .pending → s.data.holder = some id) ∧
        ∀ reserved, call = .completing reserved → row.status ≠ .failed
  | _ => True

variable {d d' : MessageData} {id : ℕ} {call : MessageCall} {answer : Answer} {next : Option MessageCall}

/-- What a statement does: nothing to the row, a reservation, or the end of one. -/
inductive Effect (id : ℕ) (d : MessageData) (call : MessageCall) : MessageData → Option MessageCall → Prop
  | same (next : Option MessageCall)
      (hnext : ∀ c, next = some c → c.reservedAt?.isSome = true → c.reservedAt? = call.reservedAt?) :
      Effect id d call d next
  | reserve (row : SystemMessage) (next : Option MessageCall)
      (hfree : ∀ old, d.row = some old → old.reservable d.now = true)
      (hstat : row.status = .pending) (htime : row.updatedAt = d.now)
      (hnext : ∀ c, next = some c → c.reservedAt? = some d.now) :
      Effect id d call { d with row := some row, holder := some id } next
  | fail (reserved : ℕ) (hcall : call = .failing reserved) : Effect id d call (FailSystemMessage d) none
  | complete (reserved : ℕ) (reply : Reply) (hcall : call = .completing reserved) :
      Effect id d call (CompleteSystemMessage d reply) none

theorem hear_some {reply : Reply} {next current : MessageCall} (h : hear reply next = some current) :
    current = next := by
  unfold hear at h
  split at h
  · exact (some.inj h).symm
  cases h

theorem insertMessage_effect (request : SystemMessageRequest) (reply : Reply) :
    Effect id d call (insertMessage id d request reply).1 (insertMessage id d request reply).2 := by
  unfold insertMessage
  split
  · rename_i hnone
    apply Effect.reserve _ _ _ rfl rfl
    · intro c hc
      rw [hear_some hc]
      rfl
    intro old hold
    rw [hnone] at hold
    cases hold
  apply Effect.same
  intro c hc hsome
  rw [hear_some hc] at hsome
  cases hsome

theorem readMessage_effect (request : SystemMessageRequest) :
    Effect id d call (readMessage d request answer).1 (readMessage d request answer).2 := by
  unfold readMessage
  split
  · apply Effect.same
    intro c hc
    cases hc
  split
  · apply Effect.same
    intro c hc
    cases hc
  split <;>
  · apply Effect.same
    intro c hc hsome
    rw [hear_some hc] at hsome
    cases hsome

theorem reclaimMessage_effect (status : SystemMessageStatus) (reply : Reply) :
    Effect id d call (reclaimMessage id d status reply).1 (reclaimMessage id d status reply).2 := by
  unfold reclaimMessage
  split
  · apply Effect.same
    intro c hc hsome
    rw [hear_some hc] at hsome
    cases hsome
  rename_i row hrow
  split
  · rename_i hreservable
    apply Effect.reserve _ _ _ rfl rfl
    · intro c hc
      rw [hear_some hc]
      rfl
    intro old hold
    cases hrow.symm.trans hold
    exact hreservable
  apply Effect.same
  intro c hc hsome
  rw [hear_some hc] at hsome
  cases hsome

theorem same_none : Effect id d call d none := by
  apply Effect.same
  intro c hc
  cases hc

theorem effect_of_advance (h : advanceMessage id d call answer = (d', next)) :
    Effect id d call d' next := by
  have heffect : Effect id d call (advanceMessage id d call answer).1
      (advanceMessage id d call answer).2 := by
    cases call with
    | returned status => exact same_none
    | sending reserved =>
      apply Effect.same
      intro c hc _
      cases hc
      by_cases hans : answer.reply = .answered
      · rw [if_pos hans]
        rfl
      rw [if_neg hans]
      rfl
    | reserve request =>
      simp only [advanceMessage]
      split
      · exact same_none
      exact insertMessage_effect request answer.reply
    | reading request =>
      simp only [advanceMessage]
      split
      · exact same_none
      exact readMessage_effect request
    | reclaiming status =>
      simp only [advanceMessage]
      split
      · exact same_none
      exact reclaimMessage_effect status answer.reply
    | failing reserved =>
      simp only [advanceMessage]
      split
      · exact same_none
      exact Effect.fail reserved rfl
    | completing reserved =>
      simp only [advanceMessage]
      split
      · exact same_none
      exact Effect.complete reserved answer.reply rfl
  rwa [h] at heffect

theorem settleMessage_row {status : SystemMessageStatus} {row : SystemMessage} (hrow : d.row = some row) :
    (settleMessage status d).row =
      some (if row.status = .pending then { row with status := status, updatedAt := d.now } else row) := by
  unfold settleMessage
  rw [hrow]
  rfl

/-- A message that counts as sent is sent. -/
def Sent (d : MessageData) : Prop :=
  d.completed = true → ∃ row, d.row = some row ∧ row.status = .sent

/-- The row of a reservation made at `reserved` is the caller's own, or a minute has
passed since. -/
def Reserved (d : MessageData) (id reserved : ℕ) : Prop :=
  ∃ row, d.row = some row ∧
    ((d.holder = some id ∧ row.status ≠ .failed ∧ (row.status = .pending → row.updatedAt = reserved)) ∨
      reserved + staleAfter < d.now)

def Claim (d : MessageData) (id : ℕ) (call : MessageCall) : Prop :=
  ∀ reserved, call.reservedAt? = some reserved → Reserved d id reserved

theorem Reserved.other {other reserved : ℕ} (h : Reserved d other reserved) (hother : other ≠ id)
    (heffect : Effect id d call d' next)
    (htimely : ∀ row, d.row = some row → ∀ reserved, call = .failing reserved → row.status = .pending →
      d.holder = some id) : Reserved d' other reserved := by
  obtain ⟨row, hrow, hmine⟩ := h
  cases heffect with
  | same => exact ⟨row, hrow, hmine⟩
  | reserve new next hfree hstat htime hnext =>
    refine ⟨new, rfl, .inr ?_⟩
    rcases hmine with ⟨-, hfailed, hpend⟩ | hstale
    · have hreservable := hfree row hrow
      simp only [SystemMessage.reservable, Bool.or_eq_true, Bool.and_eq_true, decide_eq_true_eq]
        at hreservable
      rcases hreservable with hbad | ⟨hwaits, hold⟩
      · exact absurd hbad hfailed
      rw [hpend hwaits] at hold
      exact hold
    exact hstale
  | fail failed hcall =>
    refine ⟨_, settleMessage_row hrow, ?_⟩
    rcases hmine with ⟨hholder, hfailed, hpend⟩ | hstale
    · have hset : row.status ≠ .pending := by
        intro hwaits
        have hself := htimely row hrow failed hcall hwaits
        rw [hholder] at hself
        exact hother (some.inj hself)
      rw [if_neg hset]
      exact .inl ⟨hholder, hfailed, hpend⟩
    exact .inr hstale
  | complete completing reply hcall =>
    refine ⟨_, settleMessage_row hrow, ?_⟩
    rcases hmine with ⟨hholder, hfailed, hpend⟩ | hstale
    · by_cases hwaits : row.status = .pending
      · rw [if_pos hwaits]
        refine .inl ⟨hholder, ?_, ?_⟩
        · intro hbad
          cases hbad
        intro hbad
        cases hbad
      rw [if_neg hwaits]
      exact .inl ⟨hholder, hfailed, hpend⟩
    exact .inr hstale

theorem Sent.kept (h : Sent d) (hclaim : Claim d id call) (heffect : Effect id d call d' next)
    (htimely : ∀ row, d.row = some row → ∀ reserved, call = .completing reserved → row.status ≠ .failed) :
    Sent d' := by
  cases heffect with
  | same => exact h
  | reserve new next hfree hstat htime hnext =>
    intro hcomp
    obtain ⟨row, hrow, hsent⟩ := h hcomp
    have hreservable := hfree row hrow
    simp [SystemMessage.reservable, hsent] at hreservable
  | fail failed hcall =>
    intro hcomp
    obtain ⟨row, hrow, hsent⟩ := h hcomp
    refine ⟨_, settleMessage_row hrow, ?_⟩
    have hset : row.status ≠ .pending := by
      rw [hsent]
      decide
    rw [if_neg hset]
    exact hsent
  | complete completing reply hcall =>
    intro _
    subst hcall
    obtain ⟨row, hrow, -⟩ := hclaim completing rfl
    refine ⟨_, settleMessage_row hrow, ?_⟩
    by_cases hwaits : row.status = .pending
    · rw [if_pos hwaits]
    rw [if_neg hwaits]
    have hfailed := htimely row hrow completing rfl
    cases hstat : row.status with
    | pending => exact absurd hstat hwaits
    | sent => rfl
    | failed => exact absurd hstat hfailed

theorem Claim.own (h : Claim d id call) (heffect : Effect id d call d' next) :
    ∀ current, next = some current → Claim d' id current := by
  rintro current rfl reserved hreserved
  cases heffect with
  | same _ hnext =>
    apply h reserved
    rw [← hnext current rfl (by rw [hreserved]; rfl)]
    exact hreserved
  | reserve row _ _ hstat htime hnext =>
    rw [hnext current rfl] at hreserved
    cases hreserved
    refine ⟨row, rfl, .inl ⟨rfl, ?_, fun _ => htime⟩⟩
    rw [hstat]
    decide

variable {s : State MessageData MessageCall}

theorem messages_hold (hs : messageService.machine.ReachableBy Timely s) : Service.Holds Sent Claim s := by
  apply Service.holds_of_reachable _ _ _ _ hs
  · rintro d ⟨-, -, hfresh⟩ hcomp
    rw [hfresh] at hcomp
    cases hcomp
  · intro s id call _ _ hopens reserved hreserved
    cases call with
    | reserve => cases hreserved
    | _ => cases hopens
  · intro s id call answer d next hallow hholds hcall hadv
    have heffect : Effect id s.data call d next := effect_of_advance (some.inj hadv)
    have hclaim := hholds.calls id call hcall
    have htimely := fun row hrow => hallow call row hcall hrow
    refine ⟨hholds.data.kept hclaim heffect fun row hrow => (htimely row hrow).2, hclaim.own heffect, ?_⟩
    intro other current hother hcur reserved hreserved
    exact (hholds.calls other current hcur reserved hreserved).other hother heffect
      fun row hrow => (htimely row hrow).1
  intro s later d _ hholds hworld
  cases hworld
  refine ⟨hholds.data, ?_⟩
  intro id call hcall reserved hreserved
  obtain ⟨row, hrow, hmine⟩ := hholds.calls id call hcall reserved hreserved
  refine ⟨row, hrow, hmine.imp_right ?_⟩
  intro hstale
  exact Nat.lt_of_lt_of_le hstale (Nat.le_add_right _ _)

theorem Fresh.holder (hholds : Service.Holds Sent Claim s) (h : Fresh s id) : s.data.holder = some id := by
  obtain ⟨call, reserved, hcall, hreserved, hfresh⟩ := h
  obtain ⟨row, -, ⟨hholder, -⟩ | hstale⟩ := hholds.calls id call hcall reserved hreserved
  · exact hholder
  omega

/-- In every run in which nobody ends the reservation of another caller or completes a
failed one, the key keeps its promise. -/
theorem system_messages_idempotent (hs : messageService.machine.ReachableBy Timely s) : Idempotent s := by
  have hholds := messages_hold hs
  constructor
  · intro hcomp
    obtain ⟨row, hrow, hsent⟩ := hholds.data hcomp
    refine ⟨row, hrow, hsent, ?_⟩
    intro answer hans
    simp [advanceMessage, readMessage, hans, hrow, hsent, hear]
  · intro hcomp id call answer next hcall hnext hholding
    obtain ⟨row, hrow, hsent⟩ := hholds.data hcomp
    have heffect : Effect id s.data call (advanceMessage id s.data call answer).1
        (advanceMessage id s.data call answer).2 := effect_of_advance rfl
    rw [hnext] at heffect
    generalize (advanceMessage id s.data call answer).1 = after at heffect
    cases heffect with
    | same _ hkept => rwa [← hkept next rfl hholding]
    | reserve new _ hfree _ _ _ =>
      have hreservable := hfree row hrow
      simp [SystemMessage.reservable, hsent] at hreservable
  intro id other hid hother
  have hfirst := hid.holder hholds
  have hsecond := hother.holder hholds
  exact some.inj (hfirst.symm.trans hsecond)

def noMessage : State MessageData MessageCall := ⟨⟨none, 0, none, false⟩, fun _ => none⟩

theorem noMessage_initial : messageService.machine.initial noMessage := ⟨⟨rfl, rfl, rfl⟩, fun _ => rfl⟩

def textMessage : SystemMessageRequest := ⟨"user", "u1", "text", "h1"⟩

def heard : Answer := ⟨.answered, true⟩

theorem timely_sending {s : State MessageData MessageCall} {id : ℕ} {call : MessageCall} {answer : Answer}
    (hcall : s.calls id = some call) (hfailing : ∀ reserved, call ≠ .failing reserved)
    (hstat : ∀ row, s.data.row = some row → row.status ≠ .failed) : Timely s (.advance id answer) := by
  intro current row hcur hrow
  cases hcall.symm.trans hcur
  exact ⟨fun reserved hsame => absurd hsame (hfailing reserved), fun _ _ => hstat row hrow⟩

/-- A caller reserves, sends and completes. -/
theorem system_messages_idempotent_sent :
    ∃ s : State MessageData MessageCall, s.data.completed = true ∧ Idempotent s := by
  have hreserve : messageService.machine.Path Timely noMessage
      ⟨noMessage.data, setCall noMessage.calls 0 (some (.reserve textMessage))⟩ :=
    Machine.Path.single (a := .start 0 (.reserve textMessage)) trivial rfl
  have hinsert := hreserve.tail (a := .advance 0 heard)
    (timely_sending rfl (fun _ h => by cases h) (fun _ h => by cases h)) rfl
  have hsend := hinsert.tail (a := .advance 0 heard)
    (timely_sending rfl (fun _ h => by cases h) (fun _ h => by cases h; decide)) rfl
  have hcompl := hsend.tail (a := .advance 0 heard)
    (timely_sending rfl (fun _ h => by cases h) (fun _ h => by cases h; decide)) rfl
  exact ⟨_, rfl, system_messages_idempotent ⟨noMessage, noMessage_initial, hcompl⟩⟩

/-- The first caller is slow, the second takes over, the first one's failure ends the
second one's reservation, and a third caller sends as well. -/
def lateFailure : List (Action MessageCall Answer ℕ) :=
  [.start 0 (.reserve textMessage), .advance 0 heard, .world 60000001,
    .start 1 (.reserve textMessage), .advance 1 heard, .advance 1 heard, .advance 1 heard,
    .advance 0 ⟨.lost, true⟩, .advance 0 heard,
    .start 2 (.reserve textMessage), .advance 2 heard, .advance 2 heard, .advance 2 heard]

/-- Two callers send under fresh reservations; and once the second has completed, the
row still says that the message failed. -/
theorem late_failure_sends_twice : ∃ s, messageService.machine.Reachable s ∧ ¬ Idempotent s := by
  have hrun : messageService.machine.execute noMessage lateFailure =
      some ⟨⟨some ⟨textMessage, .pending, 60000001⟩, 60000001, some 2, false⟩, _⟩ := rfl
  refine ⟨_, Machine.reachable_of_execute noMessage_initial hrun, ?_⟩
  intro hidempotent
  have hsame := hidempotent.exclusive 1 2 ⟨.sending 60000001, 60000001, rfl, rfl, by decide⟩
    ⟨.sending 60000001, 60000001, rfl, rfl, by decide⟩
  cases hsame

end ImApp.ImReservations
