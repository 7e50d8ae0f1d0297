import ImApp.SendMessage.Attempts

/-!
What holds of every run of a send: how many attempts it makes and with which id,
what stands behind a success, and that it ends. An answer that is taken for a
duplicate counts as a success although the attempt it refers to may be under way.
-/

namespace ImApp.SendMessage

open JsonText (Text)
open StepSystem List Option

variable {call : Call}

/-- The calls of the SDK carry the one id and the login of the start. -/
structure Noted (call : Call) (s : State) : Prop where
  issued : ∀ issue ∈ s.issued, issue.clientMsgID = call.message.clientMsgID ∧ issue.epoch = s.epoch
  accepted : ∀ attempt ∈ s.accepted, attempt < s.issued.length

/-- The call is at an attempt, of which it took `taken` steps. Four make an attempt. -/
structure At (call : Call) (s : State) (attempt taken : Nat) : Prop where
  noted : Noted call s
  active : attempt < call.attempts
  count : s.issued.length ≤ attempt + 1
  budget : s.moves ≤ 4 * attempt + taken

structure Ended (call : Call) (s : State) : Prop where
  noted : Noted call s
  count : s.issued.length ≤ call.attempts
  budget : s.moves ≤ 4 * call.attempts

/-- What stands behind a success. -/
def Backed (s : State) : Prop :=
  s.accepted ≠ [] ∨ ∃ err ∈ s.duplicates, isDuplicateSendError err = true

/-- What holds of a state in each phase. -/
def Stands (call : Call) (s : State) : Phase → Prop
  | .sending attempt => At call s attempt 0
  | .settled attempt (.ok _) => At call s attempt 1 ∧ s.accepted ≠ []
  | .settled attempt (.error _) => At call s attempt 1
  | .reopening attempt => At call s attempt 2
  | .reopened attempt _ => At call s attempt 3
  | .pausing attempt _ => At call s attempt 2
  | .paused attempt _ => At call s attempt 3
  | .resolved _ => Ended call s ∧ Backed s
  | .rejected _ _ => Ended call s

def Sound (call : Call) (s : State) : Prop := Stands call s s.phase

theorem Noted.of_eq {s next : State} (h : Noted call s) (hissued : next.issued = s.issued)
    (hacc : next.accepted = s.accepted) (hepoch : next.epoch = s.epoch) : Noted call next where
  issued := by
    rw [hissued, hepoch]
    exact h.issued
  accepted := by
    rw [hacc, hissued]
    exact h.accepted

theorem Noted.accept {s : State} (h : Noted call s) {attempt : Nat}
    (hattempt : attempt < s.issued.length) :
    Noted call { s with accepted := s.accepted ++ [attempt] } where
  issued := h.issued
  accepted other hother := by
    rcases mem_append.mp hother with hpre | hnew
    · exact h.accepted other hpre
    rw [mem_singleton.mp hnew]
    exact hattempt

/-- A change that adds no call of the SDK and no step of the send. -/
structure Beside (s next : State) : Prop where
  issued : next.issued = s.issued
  moves : next.moves = s.moves
  accepted : s.accepted ≠ [] → next.accepted ≠ []
  duplicates : s.duplicates ⊆ next.duplicates

theorem Backed.beside {s next : State} (h : Backed s) (hbeside : Beside s next) : Backed next := by
  rcases h with hacc | ⟨err, herr, hduplicate⟩
  · exact Or.inl (hbeside.accepted hacc)
  exact Or.inr ⟨err, hbeside.duplicates herr, hduplicate⟩

theorem At.beside {s next : State} {attempt taken : Nat} (h : At call s attempt taken)
    (hnoted : Noted call next) (hbeside : Beside s next) : At call next attempt taken where
  noted := hnoted
  active := h.active
  count := by
    rw [hbeside.issued]
    exact h.count
  budget := by
    rw [hbeside.moves]
    exact h.budget

theorem Ended.beside {s next : State} (h : Ended call s) (hnoted : Noted call next)
    (hbeside : Beside s next) : Ended call next where
  noted := hnoted
  count := by
    rw [hbeside.issued]
    exact h.count
  budget := by
    rw [hbeside.moves]
    exact h.budget

theorem Stands.beside {s next : State} {phase : Phase} (h : Stands call s phase)
    (hnoted : Noted call next) (hbeside : Beside s next) : Stands call next phase := by
  cases phase with
  | sending attempt | reopening attempt | reopened attempt result | pausing attempt wakes
  | paused attempt keepGoing => exact At.beside h hnoted hbeside
  | settled attempt outcome =>
    cases outcome with
    | ok m => exact ⟨h.1.beside hnoted hbeside, hbeside.accepted h.2⟩
    | error err => exact At.beside h hnoted hbeside
  | resolved m => exact ⟨h.1.beside hnoted hbeside, h.2.beside hbeside⟩
  | rejected failure reported => exact Ended.beside h hnoted hbeside

theorem Stands.noted {s : State} {phase : Phase} (h : Stands call s phase) : Noted call s := by
  cases phase with
  | sending attempt | reopening attempt | reopened attempt result | pausing attempt wakes
  | paused attempt keepGoing => exact At.noted h
  | settled attempt outcome =>
    cases outcome with
    | ok m => exact h.1.noted
    | error err => exact At.noted h
  | resolved m => exact h.1.noted
  | rejected failure reported => exact Ended.noted h

theorem At.step {s t : State} {attempt taken : Nat} (h : At call s attempt taken)
    (hissued : t.issued = s.issued) (hacc : t.accepted = s.accepted)
    (hepoch : t.epoch = s.epoch) (hmoves : t.moves = s.moves + 1) :
    At call t attempt (taken + 1) where
  noted := h.noted.of_eq hissued hacc hepoch
  active := h.active
  count := by
    rw [hissued]
    exact h.count
  budget := by
    have hbudget := h.budget
    omega

theorem At.ended {s : State} {attempt taken : Nat} (h : At call s attempt taken)
    (htaken : taken ≤ 4) : Ended call s where
  noted := h.noted
  count := by
    have hactive := h.active
    have hcount := h.count
    omega
  budget := by
    have hactive := h.active
    have hbudget := h.budget
    omega

theorem Stands.bounds {s : State} {phase : Phase} (h : Stands call s phase) :
    s.issued.length ≤ call.attempts ∧ s.moves ≤ 4 * call.attempts := by
  have hended : Ended call s := by
    cases phase with
    | sending attempt | reopening attempt | reopened attempt result | pausing attempt wakes
    | paused attempt keepGoing => exact At.ended h (by omega)
    | settled attempt outcome =>
      cases outcome with
      | ok m => exact h.1.ended (by omega)
      | error err => exact At.ended h (by omega)
    | resolved m => exact h.1
    | rejected failure reported => exact h
  exact ⟨hended.count, hended.budget⟩

theorem Ended.fail {s : State} (h : Ended call s) : Sound call (fail s) :=
  h.beside (h.noted.of_eq rfl rfl rfl) ⟨rfl, rfl, id, fun _ => id⟩

theorem beginAttempt_sound {s : State} {attempt : Nat} (h : Noted call s)
    (hcount : s.issued.length ≤ attempt) (hattempt : attempt ≤ call.attempts)
    (hmoves : s.moves ≤ 4 * attempt) : Sound call (beginAttempt call attempt s) := by
  rw [beginAttempt]
  split
  case isTrue hgoes =>
    obtain ⟨hactive, hepoch⟩ := hgoes
    split
    · have hat : At call s attempt 1 := ⟨h, hactive, by omega, by omega⟩
      exact hat.beside (h.of_eq rfl rfl rfl) ⟨rfl, rfl, id, fun _ => id⟩
    constructor
    · constructor
      · intro issue hissue
        rcases mem_append.mp hissue with hpre | hnew
        · exact h.issued issue hpre
        rw [mem_singleton.mp hnew]
        exact ⟨rfl, hepoch.symm⟩
      intro accepted hacc
      rw [length_append]
      exact Nat.lt_add_right _ (h.accepted accepted hacc)
    · exact hactive
    · rw [length_append]
      exact Nat.add_le_add_right hcount 1
    exact hmoves
  case isFalse =>
    have hended : Ended call s := ⟨h, by omega, by omega⟩
    exact hended.fail

theorem At.next {s : State} {attempt : Nat} (h : At call s attempt 4) :
    Sound call (beginAttempt call (attempt + 1) s) :=
  beginAttempt_sound h.noted h.count h.active h.budget

theorem At.catchError {s : State} {attempt : Nat} (h : At call s attempt 2) (err : SendError) :
    Sound call (catchError call attempt err s) := by
  have hended : Ended call s := h.ended (by omega)
  have hfail : ∀ next : State, Beside s next → Noted call next → Sound call (fail next) := by
    intro next hbeside hnoted
    exact (hended.beside hnoted hbeside).fail
  rw [SendMessage.catchError]
  dsimp only
  split
  case isTrue hduplicate =>
    constructor
    · exact hended.beside (h.noted.of_eq rfl rfl rfl) ⟨rfl, rfl, id, by simp⟩
    exact Or.inr ⟨err, by simp, hduplicate⟩
  case isFalse =>
    split
    · exact hfail _ ⟨rfl, rfl, id, fun _ => id⟩ (h.noted.of_eq rfl rfl rfl)
    split
    · exact h.beside (h.noted.of_eq rfl rfl rfl) ⟨rfl, rfl, id, fun _ => id⟩
    split
    · exact h.beside (h.noted.of_eq rfl rfl rfl) ⟨rfl, rfl, id, fun _ => id⟩
    exact hfail _ ⟨rfl, rfl, id, fun _ => id⟩ (h.noted.of_eq rfl rfl rfl)

theorem resume_sound {s next : State} (h : Sound call s)
    (hresume : resume call { s with moves := s.moves + 1 } = some next) : Sound call next := by
  rw [resume] at hresume
  rw [Sound] at h
  dsimp only at hresume
  split at hresume
  case h_1 attempt m hphase =>
    cases hresume
    rw [hphase] at h
    have hnext := (h.1.step (t := { s with moves := s.moves + 1 }) rfl rfl rfl rfl).ended (by omega)
    exact ⟨hnext.beside (hnext.noted.of_eq rfl rfl rfl) ⟨rfl, rfl, id, fun _ => id⟩, Or.inl h.2⟩
  case h_2 attempt err hphase =>
    cases hresume
    rw [hphase] at h
    exact (At.step (t := { s with moves := s.moves + 1 }) h rfl rfl rfl rfl).catchError err
  case h_3 attempt recoverErr hphase =>
    cases hresume
    rw [hphase] at h
    exact ((At.step (t := { s with moves := s.moves + 1, lastErr := recoverErr.or s.lastErr })
      h rfl rfl rfl rfl).ended (by omega)).fail
  case h_4 attempt _ hphase | h_5 attempt _ hphase =>
    cases hresume
    rw [hphase] at h
    have hnext := At.step (t := { s with moves := s.moves + 1 }) h rfl rfl rfl rfl
    split
    · exact (hnext.ended (by omega)).fail
    exact hnext.next
  case h_6 => cases hresume

theorem settle_sound {s : State} (h : Sound call s) {outcome : Except SendError Message}
    (hbacked : ∀ m, outcome = .ok m → s.accepted ≠ []) : Sound call (settle outcome s) := by
  rw [settle]
  split
  case h_1 attempt hphase =>
    rw [Sound, hphase] at h
    have hnext : At call { s with phase := .settled attempt outcome, moves := s.moves + 1 }
        attempt 1 := At.step h rfl rfl rfl rfl
    cases outcome with
    | ok m => exact ⟨hnext, hbacked m rfl⟩
    | error err => exact hnext
  case h_2 => exact h

theorem wake_sound {s : State} (h : Sound call s) : Sound call (wake s) := by
  rw [wake]
  split
  case h_1 attempt hphase =>
    rw [Sound, hphase] at h
    exact At.step h rfl rfl rfl rfl
  case h_2 => exact h

/-- What a step can do. -/
inductive Change (call : Call) (s : State) : State → Prop where
  | none : Change call s s
  | accept (attempt : Nat) (issued : attempt < s.issued.length) :
      Change call s { s with accepted := s.accepted ++ [attempt] }
  | settle (outcome : Except SendError Message) (backed : ∀ m, outcome = .ok m → s.accepted ≠ []) :
      Change call s (settle outcome s)
  | reopened (attempt : Nat) (result : Except (Option SendError) Unit)
      (phase : s.phase = .reopening attempt) :
      Change call s { s with phase := .reopened attempt result, moves := s.moves + 1 }
  | paused (attempt : Nat) (wakes : Bool) (phase : s.phase = .pausing attempt wakes) :
      Change call s { s with
        phase := .paused attempt (s.epoch = s.loginEpoch), moves := s.moves + 1 }
  | resume (next : State) (resumes : resume call { s with moves := s.moves + 1 } = some next) :
      Change call s next
  | connection (loginEpoch : Nat) (connected : Bool) : Change call s { s with loginEpoch, connected }
  | wake (loginEpoch : Nat) (connected : Bool) :
      Change call s (wake { s with loginEpoch, connected })

theorem change_of_error {s next : State} {err : SendError}
    (h : some (settle (.error err) s) = some next) : Change call s next := by
  cases h
  apply Change.settle
  rintro _ ⟨⟩

theorem change_of_reports {s next : State} {outcome : Except SendError Message}
    (h : reports outcome s = some next) : Change call s next := by
  cases outcome with
  | error err => exact change_of_error h
  | ok m =>
    rw [reports] at h
    split at h
    · cases h
    case isFalse hacc =>
      cases h
      exact .settle _ (fun _ _ => hacc)

theorem change_of_step {s next : State} {action : Action} (hstep : step call s action = some next) :
    Change call s next := by
  cases action with
  | accept attempt =>
    rw [step] at hstep
    split at hstep
    case isTrue hissued =>
      cases hstep
      exact .accept attempt hissued
    case isFalse => cases hstep
  | callback reply | sendMessageSuccess m =>
    rw [step] at hstep
    split at hstep
    · cases hstep
    split at hstep
    · cases hstep
      exact .none
    exact change_of_reports hstep
  | threw err | timeout =>
    rw [step] at hstep
    split at hstep
    · cases hstep
    exact change_of_error hstep
  | sendMessageFailed clientMsgID err =>
    rw [step] at hstep
    split at hstep
    · cases hstep
    split at hstep
    · cases hstep
      exact .none
    exact change_of_error hstep
  | answered outcome =>
    rw [step] at hstep
    split at hstep
    · cases hstep
    exact change_of_reports hstep
  | reopenEnded result =>
    rw [step] at hstep
    split at hstep
    case h_1 attempt hphase =>
      cases hstep
      exact .reopened attempt result hphase
    case h_2 => cases hstep
  | pauseOver =>
    rw [step] at hstep
    split at hstep
    case h_1 attempt wakes hphase =>
      cases hstep
      exact .paused attempt wakes hphase
    case h_2 => cases hstep
  | resume => exact .resume next hstep
  | connectSuccess =>
    cases hstep
    exact .wake s.loginEpoch true
  | connectFailed =>
    cases hstep
    exact .connection s.loginEpoch false
  | loginChanged =>
    cases hstep
    exact .wake (s.loginEpoch + 1) false

theorem Change.sound {s next : State} (h : Sound call s) (hchange : Change call s next) :
    Sound call next := by
  have hnoted := Stands.noted h
  cases hchange with
  | none => exact h
  | accept attempt hissued => exact h.beside (hnoted.accept hissued) ⟨rfl, rfl, by simp, fun _ => id⟩
  | settle outcome hbacked => exact settle_sound h hbacked
  | reopened attempt result hphase | paused attempt wakes hphase =>
    rw [Sound, hphase] at h
    exact At.step h rfl rfl rfl rfl
  | resume _ hresume => exact resume_sound h hresume
  | connection loginEpoch connected =>
    exact h.beside (hnoted.of_eq rfl rfl rfl) ⟨rfl, rfl, id, fun _ => id⟩
  | wake loginEpoch connected =>
    apply wake_sound
    exact h.beside (hnoted.of_eq rfl rfl rfl) ⟨rfl, rfl, id, fun _ => id⟩

theorem sound_reachable {s : State} (h : (machine call).Reachable s) : Sound call s := by
  refine h.invariant (Sound call) ?_ ?_
  · rintro _ ⟨epoch, connected, rfl⟩
    apply beginAttempt_sound
    · exact ⟨by simp [idle], by simp [idle]⟩
    · exact Nat.le_refl 0
    · exact Nat.zero_le _
    exact Nat.le_refl 0
  intro s action next _ hsound hstep
  exact (change_of_step hstep).sound hsound

def Phase.isOver : Phase → Bool
  | .resolved _ | .rejected _ _ => true
  | _ => false

/-- A step of the send itself: the end of a wait, or what runs after it. -/
def Action.isOwn : Action → Bool
  | .timeout | .answered _ | .reopenEnded _ | .pauseOver | .resume => true
  | _ => false

theorem beginAttempt_moves (attempt : Nat) (s : State) :
    (beginAttempt call attempt s).moves = s.moves := by
  rw [beginAttempt]
  split
  · split <;> rfl
  rfl

theorem catchError_moves (attempt : Nat) (err : SendError) (s : State) :
    (catchError call attempt err s).moves = s.moves ∧
      (catchError call attempt err s).issued = s.issued := by
  rw [catchError]
  dsimp only
  split
  · exact ⟨rfl, rfl⟩
  split
  · exact ⟨rfl, rfl⟩
  split
  · exact ⟨rfl, rfl⟩
  split <;> exact ⟨rfl, rfl⟩

theorem goes_on {s : State} (hphase : s.phase.isOver = false) : ∃ action next,
    action.isOwn = true ∧ step call s action = some next ∧ next.moves = s.moves + 1 := by
  cases hat : s.phase with
  | sending attempt =>
    cases happ : call.app with
    | true => exact ⟨.timeout, _, rfl, by rw [step, happ]; rfl, by simp [settle, hat]⟩
    | false =>
      refine ⟨.answered (.error sendFailed), settle (.error sendFailed) s, rfl, ?_, ?_⟩
      · rw [step, happ]
        rfl
      simp [settle, hat]
  | settled attempt outcome =>
    cases outcome with
    | ok m => exact ⟨.resume, _, rfl, by simp [step, resume, hat]; rfl, rfl⟩
    | error err =>
      exact ⟨.resume, _, rfl, by simp [step, resume, hat]; rfl, (catchError_moves _ _ _).1⟩
  | reopening attempt =>
    exact ⟨.reopenEnded (.ok ()), _, rfl, by simp [step, hat]; rfl, rfl⟩
  | reopened attempt result =>
    cases result with
    | error recoverErr => exact ⟨.resume, _, rfl, by simp [step, resume, hat]; rfl, rfl⟩
    | ok done =>
      refine ⟨.resume, _, rfl, by simp [step, resume, hat]; rfl, ?_⟩
      split
      · exact beginAttempt_moves _ _
      rfl
  | pausing attempt wakes => exact ⟨.pauseOver, _, rfl, by simp [step, hat]; rfl, rfl⟩
  | paused attempt keepGoing =>
    refine ⟨.resume, _, rfl, by simp [step, resume, hat]; rfl, ?_⟩
    split
    · rfl
    exact beginAttempt_moves _ _
  | resolved m | rejected failure reported => rw [hat] at hphase; cases hphase

theorem beginAttempt_issued {attempt : Nat} {s : State} (hepoch : s.epoch ≠ s.loginEpoch) :
    (beginAttempt call attempt s).issued = s.issued := by
  rw [beginAttempt, if_neg (fun hboth => hepoch hboth.2)]
  rfl

theorem settle_issued (outcome : Except SendError Message) (s : State) :
    (settle outcome s).issued = s.issued := by
  rw [settle]
  split <;> rfl

theorem wake_issued (s : State) : (wake s).issued = s.issued := by
  rw [wake]
  split <;> rfl

theorem resume_issued {s next : State} (hepoch : s.epoch ≠ s.loginEpoch)
    (h : resume call { s with moves := s.moves + 1 } = some next) : next.issued = s.issued := by
  rw [resume] at h
  dsimp only at h
  split at h
  · cases h
    rfl
  · cases h
    exact (catchError_moves _ _ _).2
  · cases h
    rfl
  · cases h
    rw [if_pos hepoch]
    rfl
  · cases h
    split
    · rfl
    exact beginAttempt_issued hepoch
  cases h

theorem Change.issued {s next : State} (hchange : Change call s next)
    (hepoch : s.epoch ≠ s.loginEpoch) : next.issued = s.issued := by
  cases hchange with
  | none | accept attempt hissued | reopened attempt result hphase | paused attempt wakes hphase
  | connection loginEpoch connected => rfl
  | settle outcome hbacked => exact settle_issued outcome s
  | resume _ hresume => exact resume_issued hepoch hresume
  | wake loginEpoch connected => exact wake_issued _

/-- Every attempt carries the one id and the login of the start, there are no more
of them than configured and none after the login changed, a success rests on an
attempt that the server accepted or on an answer that was taken for a duplicate, and
the send ends, by a rejection if not by such a success. -/
theorem send_success_backed {s : State} (h : (machine call).Reachable s) :
    (∀ issue ∈ s.issued, issue.clientMsgID = call.message.clientMsgID ∧ issue.epoch = s.epoch) ∧
      s.issued.length ≤ call.attempts ∧
      (∀ action next, s.epoch ≠ s.loginEpoch → step call s action = some next →
        next.issued = s.issued) ∧ (∀ attempt ∈ s.accepted, attempt < s.issued.length) ∧
      (∀ m, s.phase = .resolved m →
        s.accepted ≠ [] ∨ ∃ err ∈ s.duplicates, isDuplicateSendError err = true) ∧
      s.moves ≤ 4 * call.attempts ∧ (s.phase.isOver = false → ∃ action next,
        action.isOwn = true ∧ step call s action = some next ∧ next.moves = s.moves + 1) := by
  have hsound := sound_reachable h
  have hnoted := Stands.noted hsound
  obtain ⟨hcount, hmoves⟩ := Stands.bounds hsound
  refine ⟨hnoted.issued, hcount, ?_, hnoted.accepted, ?_, hmoves, goes_on⟩
  · intro action next hepoch hstep
    exact (change_of_step hstep).issued hepoch
  intro m hphase
  rw [Sound, hphase] at hsound
  exact hsound.2

def textCall : Call where
  app := true
  message := { clientMsgID := ['m'], contentType := 101, status := some .sending }
  timeoutMs := none
  plugin := fun _ => true

def textStart : State := beginAttempt textCall 0 (idle 0 true)

theorem textStart_initial : (machine textCall).initial textStart := ⟨0, true, rfl⟩

/-- The first attempt is given up, and then accepted after all. -/
def lateSuccess : List Action :=
  [.timeout, .resume, .accept 0, .pauseOver, .resume,
    .sendMessageSuccess { textCall.message with status := some .succeed }, .resume]

theorem send_success_backed_late : ∃ s : State, s.accepted = [0] ∧ s.phase.isOver = true ∧
    s.issued.length ≤ textCall.attempts := by
  have hrun : ((machine textCall).execute textStart lateSuccess).any (fun s =>
      s.accepted = [0] && s.phase.isOver) = true := by
    decide +kernel
  obtain ⟨s, hs, hchecked⟩ := (any_eq_true _ _).mp hrun
  simp only [Bool.and_eq_true, decide_eq_true_eq] at hchecked
  exact ⟨s, hchecked.1, hchecked.2,
    (send_success_backed (Machine.reachable_of_execute textStart_initial hs)).2.1⟩

/-- The first attempt is given up while the SDK still sends it, so the second is
turned down as a repetition. -/
def repeatedSend : List Action :=
  [.timeout, .resume, .pauseOver, .resume,
    .callback { progress := false, errCode := some 10204, text := [], message := none }, .resume]

/-- The send succeeds although the server accepted nothing. -/
theorem repeated_send_resolves : ∃ s, (machine textCall).Reachable s ∧
    s.phase = .resolved { textCall.message with status := some .succeed } ∧ s.accepted = [] := by
  have hrun : ((machine textCall).execute textStart repeatedSend).any (fun s =>
      s.accepted = [] && (match s.phase with
        | .resolved m => decide (m = { textCall.message with status := some .succeed })
        | _ => false)) = true := by
    decide +kernel
  obtain ⟨s, hs, hchecked⟩ := (any_eq_true _ _).mp hrun
  simp only [Bool.and_eq_true, decide_eq_true_eq] at hchecked
  obtain ⟨hacc, hphase⟩ := hchecked
  refine ⟨s, Machine.reachable_of_execute textStart_initial hs, ?_, hacc⟩
  split at hphase
  case h_1 m hresolved => rw [hresolved, of_decide_eq_true hphase]
  case h_2 => cases hphase

end ImApp.SendMessage
