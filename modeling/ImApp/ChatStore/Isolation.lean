import ImApp.ChatStore.Operations

/-!
What one account's operations leave of themselves in the store after a sign-out.
Only a send and the lookup of its sequence number check, when they go on, that the
session is still the one they started in. Everything else that was started before
writes into the store of the next account when its answer comes late.
-/

namespace ImApp.ChatStore

open AsyncTasks (State Started Quiet isEnd ofSession started_after)
open JsonText (Text)
open StepSystem List Option App

variable {env : Env}

/-- The generation that a wait carries. -/
def Await.captured : Await → Option Nat
  | .sending generation _ _ => some generation
  | .reappearing generation _ _ _ => some generation
  | .reappeared generation _ _ _ => some generation
  | .resolving generation _ _ => some generation
  | _ => none

/-- The session is checked when the wait ends. While a conversation reappears, the
check comes only after its row was put in. -/
def Await.checked : Await → Bool
  | .sending _ _ _ => true
  | .reappeared _ _ _ _ => true
  | .resolving _ _ _ => true
  | _ => false

/-- An end of a wait that leaves the store alone and is the end of the operation. -/
def Await.quietEnd : Await → Answer → Bool
  | .loginForConversations reload, .failed _ => reload ≠ .refresh
  | .conversationList reload _, .failed _ => reload ≠ .refresh
  | .pinMessage _ _ incoming, .failed _ => !incoming
  | .checkAccess _, .failed unavailable => !unavailable
  | .pinConversation _ _, .done => true
  | .blacklist, .failed _ => true
  | .remarkIndex, .failed _ => true
  | .queryStatus, .failed _ => true
  | .loginToEnter _, .failed _ => true
  | .enterFind _, .failed _ => true
  | .enterOpen, .failed _ => true
  | .findConversation _, .failed _ => true
  | .history _ _, .failed _ => true
  | .clearHistory _, .failed _ => true
  | .recallFind _ _ _, .failed _ => true
  | .recallSeq _ _ _, .failed _ => true
  | .recallServer _ _ _, .failed _ => true
  | _, _ => false

/-- An operation that was started before the last sign-out goes on only from a wait
whose end checks the session, or to end quietly. -/
def Isolating (s : State (App env) Await) : AsyncTasks.Action Await Event Answer → Prop
  | .resume task answer => task.session = s.session ∨ task.wait.checked = true ∨
      task.wait.quietEnd answer = true
  | _ => True

instance (s : State (App env) Await) : ∀ action, Decidable (Isolating s action)
  | .start _ => inferInstanceAs (Decidable True)
  | .resume _ _ => inferInstanceAs (Decidable (_ ∨ _ ∨ _))
  | .endSession => inferInstanceAs (Decidable True)

/-- A piece keeps the session, and the waits that follow carry it, or what the wait
before them carried. -/
structure Carries (app : App env) (captured : Option Nat) (piece : Piece env) : Prop where
  generation : piece.1.sessionGeneration = app.sessionGeneration
  follows : ∀ wait ∈ piece.2, ∀ generation, wait.captured = some generation →
    generation = app.sessionGeneration ∨ captured = some generation

variable {app : App env} {captured : Option Nat}

theorem Carries.of_frame {piece : Piece env} (hframe : piece.1.frame = app.frame)
    (hfollows : ∀ wait ∈ piece.2, wait.captured = none) : Carries app captured piece := by
  refine ⟨generation_of_frame hframe, ?_⟩
  intro wait hwait generation hcapt
  rw [hfollows wait hwait] at hcapt
  cases hcapt

/-- Waits that carry no session. -/
def Uncaptured (waits : List Await) : Prop := ∀ wait ∈ waits, wait.captured = none

theorem uncaptured_nil : Uncaptured [] := by
  rintro _ ⟨⟩

theorem Uncaptured.cons {wait : Await} {waits : List Await} (h : wait.captured = none)
    (hrest : Uncaptured waits) : Uncaptured (wait :: waits) := by
  intro other hother
  rcases mem_cons.mp hother with rfl | hother
  · exact h
  exact hrest other hother

theorem Uncaptured.append {front back : List Await} (hfront : Uncaptured front)
    (hback : Uncaptured back) : Uncaptured (front ++ back) := by
  intro wait hwait
  rcases mem_append.mp hwait with hwait | hwait
  · exact hfront wait hwait
  exact hback wait hwait

theorem uncaptured_single {wait : Await} (h : wait.captured = none) : Uncaptured [wait] :=
  uncaptured_nil.cons h

theorem uncaptured_history (id : Text) (next : Option Request) :
    Uncaptured (next.toList.map (.history id)) := by
  intro wait hwait
  obtain ⟨_, _, rfl⟩ := List.mem_map.mp hwait
  rfl

theorem uncaptured_subscribeStep (wanted : List Text) : Uncaptured (app.subscribeStep wanted) := by
  simp only [App.subscribeStep]
  split <;> exact uncaptured_single rfl

theorem uncaptured_refreshOnlineStatus : Uncaptured app.refreshOnlineStatus := by
  simp only [App.refreshOnlineStatus]
  split
  · exact uncaptured_nil
  split
  · exact uncaptured_subscribeStep _
  exact uncaptured_single rfl

theorem uncaptured_loadActive : Uncaptured app.loadActive := by
  rw [App.loadActive]
  split
  · exact uncaptured_nil
  exact uncaptured_single rfl

theorem uncaptured_conversationsFailed (reload : Reload) :
    Uncaptured (app.conversationsFailed reload) := by
  cases reload with
  | refresh => exact uncaptured_loadActive
  | plain | resume => exact uncaptured_nil

theorem uncaptured_checkAccess (id : Text) : Uncaptured (app.checkAccess id) := by
  rw [App.checkAccess]
  split
  · exact uncaptured_single rfl
  exact uncaptured_nil

theorem uncaptured_ite {condition : Prop} [Decidable condition] {one other : List Await}
    (hone : Uncaptured one) (hother : Uncaptured other) :
    Uncaptured (if condition then one else other) := by
  split
  · exact hone
  exact hother

theorem uncaptured_showMessage (item : MessageItem) : Uncaptured (app.showMessage item).2 := by
  simp only [App.showMessage]
  split
  · exact uncaptured_nil
  exact uncaptured_ite (uncaptured_single rfl) uncaptured_nil

theorem uncaptured_appendMessage (now : Nat) (item : MessageItem) :
    Uncaptured (app.appendMessage now item).2 := by
  simp only [App.appendMessage]
  split
  · exact uncaptured_nil
  split
  · exact uncaptured_single rfl
  split
  · exact uncaptured_nil
  split
  · split
    · exact uncaptured_nil
    exact (uncaptured_ite uncaptured_nil (uncaptured_single rfl)).append
      (uncaptured_showMessage item)
  exact uncaptured_showMessage item

theorem uncaptured_ingestIncoming (now : Nat) (items : List MessageItem) :
    Uncaptured (app.ingestIncoming now items).2 := by
  induction items generalizing app with
  | nil => exact uncaptured_nil
  | cons item items ih => exact (uncaptured_appendMessage now item).append ih

theorem uncaptured_loaded (id : Text) (request : Request) (items : List MessageItem)
    (isEnd : Bool) (now : Nat) : Uncaptured (app.loaded id request items isEnd now).2 := by
  cases request with
  | latest existing target => exact uncaptured_single rfl
  | older list | locating list target pages | opened target => exact uncaptured_history id _

section Pieces

variable {piece : Piece env} {answer : Answer} (id : Text)

theorem carries_stay {waits : List Await} (h : Uncaptured waits) :
    Carries app captured (app, waits) := .of_frame rfl h

variable {reload : Reload}

theorem carries_conversationsLogin
    (h : app.conversationsLogin reload answer = some piece) : Carries app captured piece := by
  cases answer with
  | done =>
    cases h
    exact .of_frame rfl ((uncaptured_single rfl).cons rfl)
  | failed unavailable =>
    cases h
    exact carries_stay (uncaptured_conversationsFailed reload)
  | _ => cases h

theorem carries_conversationsListed {retried : Bool}
    (h : app.conversationsListed reload retried answer = some piece) :
    Carries app captured piece := by
  cases answer with
  | conversations list =>
    cases h
    exact carries_stay (uncaptured_single rfl)
  | relogin =>
    cases retried with
    | false =>
      cases h
      exact carries_stay ((uncaptured_single rfl).cons rfl)
    | true => cases h
  | failed unavailable =>
    cases h
    exact carries_stay (uncaptured_conversationsFailed reload)
  | _ => cases h

theorem carries_reconciled {list : List ConversationItem}
    (h : app.reconciled reload list answer = some piece) : Carries app captured piece := by
  cases answer with
  | ids members =>
    cases h
    refine .of_frame (by simp) (uncaptured_refreshOnlineStatus.append (Uncaptured.cons rfl ?_))
    exact uncaptured_ite uncaptured_nil uncaptured_loadActive
  | _ => cases h

variable {next : App env}

theorem carries_end (hframe : next.frame = app.frame) :
    Carries app captured (next, []) := .of_frame hframe uncaptured_nil

theorem carries_blacklistFetched (h : app.blacklistFetched answer = some piece) :
    Carries app captured piece := by
  cases answer with
  | ids keys =>
    cases h
    exact carries_end (frame_setBlacklist ..)
  | failed unavailable =>
    cases h
    exact carries_end rfl
  | _ => cases h

theorem carries_remarksIndexed (h : app.remarksIndexed answer = some piece) :
    Carries app captured piece := by
  cases answer with
  | done | failed unavailable =>
    cases h
    exact carries_end rfl
  | _ => cases h

theorem carries_statusSubscribed {ids : List Text}
    (h : app.statusSubscribed ids answer = some piece) : Carries app captured piece := by
  cases answer with
  | statuses states | failed unavailable =>
    cases h
    exact .of_frame rfl (uncaptured_single rfl)
  | _ => cases h

theorem carries_statusQueried (h : app.statusQueried answer = some piece) :
    Carries app captured piece := by
  cases answer with
  | statuses states | failed unavailable =>
    cases h
    exact carries_end rfl
  | _ => cases h

theorem carries_enterLogin (h : app.enterLogin id answer = some piece) :
    Carries app captured piece := by
  cases answer with
  | done =>
    simp only [App.enterLogin] at h
    split at h
    · cases h
      exact .of_frame (frame_unhideConversation ..) (uncaptured_checkAccess id)
    cases h
    exact .of_frame rfl (uncaptured_single rfl)
  | failed unavailable =>
    cases h
    exact carries_end rfl
  | _ => cases h

theorem carries_enterFound (h : app.enterFound id answer = some piece) :
    Carries app captured piece := by
  cases answer with
  | conversations list =>
    simp only [App.enterFound] at h
    split at h
    · cases h
      exact carries_stay (uncaptured_single rfl)
    cases h
    exact .of_frame (by simp) (uncaptured_checkAccess id)
  | failed unavailable =>
    cases h
    exact carries_end rfl
  | _ => cases h

theorem carries_enterOpened (h : app.enterOpened answer = some piece) :
    Carries app captured piece := by
  cases answer with
  | conversations found =>
    cases h
    exact carries_end (by simp)
  | failed unavailable =>
    cases h
    exact carries_end rfl
  | _ => cases h

theorem carries_accessChecked (h : app.accessChecked id answer = some piece) :
    Carries app captured piece := by
  cases answer with
  | done =>
    cases h
    exact carries_end (frame_allowGroupConversation ..)
  | failed unavailable =>
    cases h
    exact carries_end (by cases unavailable <;> rfl)
  | _ => cases h

theorem carries_conversationFound (h : app.conversationFound id answer = some piece) :
    Carries app captured piece := by
  cases answer with
  | conversations list =>
    cases h
    exact carries_end (frame_upsertConversations ..)
  | failed unavailable =>
    cases h
    exact carries_end rfl
  | _ => cases h

theorem carries_historyAnswered {request : Request}
    (h : app.historyAnswered id request answer = some piece) : Carries app captured piece := by
  cases answer with
  | page items isEnd now =>
    cases h
    exact .of_frame (frame_loaded ..) (uncaptured_loaded id request items isEnd now)
  | failed unavailable =>
    cases h
    exact carries_end rfl
  | _ => cases h

theorem carries_historyCleared (h : app.historyCleared id answer = some piece) :
    Carries app captured piece := by
  cases answer with
  | done | failed unavailable =>
    cases h
    exact carries_end rfl
  | _ => cases h

theorem carries_messagePinned {pinned : Option PinnedMessage} {incoming : Bool}
    (h : app.messagePinned id pinned incoming answer = some piece) :
    Carries app captured piece := by
  cases answer with
  | done =>
    cases h
    exact carries_end rfl
  | failed unavailable =>
    cases h
    exact carries_end (by cases incoming <;> rfl)
  | _ => cases h

theorem carries_conversationPinned {pinned : Bool}
    (h : app.conversationPinned id pinned answer = some piece) : Carries app captured piece := by
  cases answer with
  | done | failed unavailable =>
    cases h
    exact carries_end rfl
  | _ => cases h

/-- The waits that follow carry the session of the store, or what was carried. -/
theorem carries_of_follows {waits : List Await} (hframe : next.frame = app.frame)
    (hfollows : ∀ wait ∈ waits, ∃ generation, wait.captured = some generation ∧
      (generation = app.sessionGeneration ∨ captured = some generation)) :
    Carries app captured (next, waits) := by
  refine ⟨generation_of_frame hframe, ?_⟩
  intro wait hwait generation hcapt
  obtain ⟨carried, hcarried, hor⟩ := hfollows wait hwait
  rw [hcapt] at hcarried
  rw [some.inj hcarried]
  exact hor

variable {send : Send}

theorem carries_imagePreviewed
    (h : app.imagePreviewed id send answer = some piece) : Carries app captured piece := by
  cases answer with
  | preview content =>
    cases h
    apply carries_of_follows (frame_showPreview ..)
    intro wait hwait
    split at hwait
    · refine ⟨_, by rw [mem_singleton.mp hwait]; rfl, .inl ?_⟩
      exact generation_of_frame (frame_showPreview ..)
    cases hwait
  | _ => cases h

theorem follows_sent (generation : Nat) (send : Send) (item : MessageItem) :
    ∀ wait ∈ (app.sent generation id send item).2, wait.captured = some generation := by
  simp only [App.sent]
  split
  · rintro _ ⟨⟩
  split
  · rintro _ ⟨⟩
  split
  · split <;>
    · intro wait hwait
      rw [mem_singleton.mp hwait]
      rfl
  intro wait hwait
  rw [mem_singleton.mp hwait]
  rfl

theorem follows_reappeared (generation : Nat) (send : Send) (delivered : ChatMessage) :
    ∀ wait ∈ (app.reappeared generation id send delivered).2, wait.captured = some generation := by
  simp only [App.reappeared]
  split
  · rintro _ ⟨⟩
  intro wait hwait
  split at hwait
  · rw [mem_singleton.mp hwait]
    rfl
  cases hwait

variable {generation : Nat}

theorem carries_sendAnswered (h : app.sendAnswered generation id send answer = some piece) :
    Carries app (some generation) piece := by
  cases answer with
  | message item =>
    simp only [App.sendAnswered] at h
    split at h
    · cases h
      exact carries_end rfl
    cases h
    exact carries_of_follows (frame_sent ..)
      (fun wait hwait => ⟨generation, follows_sent id _ _ _ wait hwait, .inr rfl⟩)
  | failed unavailable =>
    simp only [App.sendAnswered] at h
    split at h
    · cases h
      exact carries_end rfl
    cases h
    exact carries_end (frame_sendFailed ..)
  | _ => cases h

variable {delivered : ChatMessage}

theorem carries_conversationReappeared
    (h : app.conversationReappeared generation id send delivered answer = some piece) :
    Carries app (some generation) piece := by
  have hfollows : ∀ wait ∈ [Await.reappeared generation id send delivered],
      ∃ carried, wait.captured = some carried ∧
        (carried = app.sessionGeneration ∨ some generation = some carried) := by
    intro wait hwait
    rw [mem_singleton.mp hwait]
    exact ⟨generation, rfl, .inr rfl⟩
  cases answer with
  | conversations list =>
    cases h
    exact carries_of_follows (frame_upsertConversations ..) hfollows
  | failed unavailable =>
    cases h
    exact carries_of_follows rfl hfollows
  | _ => cases h

theorem carries_sendReappeared
    (h : app.sendReappeared generation id send delivered answer = some piece) :
    Carries app (some generation) piece := by
  cases answer with
  | done =>
    simp only [App.sendReappeared] at h
    split at h
    · cases h
      exact carries_end rfl
    cases h
    exact carries_of_follows (frame_reappeared ..)
      (fun wait hwait => ⟨generation, follows_reappeared id _ _ _ wait hwait, .inr rfl⟩)
  | _ => cases h

theorem carries_seqResolved (h : app.seqResolved generation id delivered answer = some piece) :
    Carries app captured piece := by
  cases answer with
  | seq seq message =>
    simp only [App.seqResolved] at h
    split at h
    · cases h
      exact carries_end rfl
    cases h
    exact carries_end (frame_resolved ..)
  | failed unavailable =>
    cases h
    exact carries_end rfl
  | _ => cases h

variable {messageId tip : Text}

theorem carries_recallFound
    (h : app.recallFound id messageId tip answer = some piece) : Carries app captured piece := by
  cases answer with
  | conversations list =>
    simp only [App.recallFound] at h
    split at h
    · cases h
      exact carries_end rfl
    cases h
    exact .of_frame (frame_upsertConversations ..) (uncaptured_single rfl)
  | failed unavailable =>
    cases h
    exact carries_end rfl
  | _ => cases h

theorem carries_recallResolved (h : app.recallResolved id messageId tip answer = some piece) :
    Carries app captured piece := by
  cases answer with
  | seq seq message =>
    cases h
    exact .of_frame (frame_rememberAll ..)
      (uncaptured_ite uncaptured_nil (uncaptured_single rfl))
  | failed unavailable =>
    cases h
    exact carries_end rfl
  | _ => cases h

theorem carries_recalled
    (h : app.recalled id messageId tip answer = some piece) : Carries app captured piece := by
  cases answer with
  | done | failed unavailable =>
    cases h
    exact carries_end rfl
  | _ => cases h

variable {await : Await}

theorem carries_resume (h : app.resume await answer = some piece) :
    Carries app await.captured piece := by
  cases await with
  | loginForConversations reload => exact carries_conversationsLogin h
  | conversationList reload retried => exact carries_conversationsListed h
  | reconcile reload list => exact carries_reconciled h
  | blacklist => exact carries_blacklistFetched h
  | remarkIndex => exact carries_remarksIndexed h
  | unsubscribeStatus gone wanted =>
    rw [settled_eq h]
    exact .of_frame rfl (uncaptured_subscribeStep wanted)
  | subscribeStatus ids => exact carries_statusSubscribed h
  | queryStatus => exact carries_statusQueried h
  | loginToEnter id => exact carries_enterLogin id h
  | enterFind id => exact carries_enterFound id h
  | enterOpen => exact carries_enterOpened h
  | checkAccess id => exact carries_accessChecked id h
  | findConversation id => exact carries_conversationFound id h
  | history id request => exact carries_historyAnswered id h
  | markRead id target =>
    rw [settled_eq h]
    exact .of_frame (frame_markedRead ..) (uncaptured_history id _)
  | clearHistory id => exact carries_historyCleared id h
  | removeLocal id messageId =>
    rw [settled_eq h]
    exact carries_end (frame_removeLocal ..)
  | pinMessage id pinned incoming => exact carries_messagePinned id h
  | pinConversation id pinned => exact carries_conversationPinned id h
  | imagePreview id send => exact carries_imagePreviewed id h
  | sending generation id send => exact carries_sendAnswered id h
  | reappearing generation id send delivered => exact carries_conversationReappeared id h
  | reappeared generation id send delivered => exact carries_sendReappeared id h
  | resolving generation id delivered => exact carries_seqResolved id h
  | recallFind id messageId tip => exact carries_recallFound id h
  | recallSeq id messageId tip => exact carries_recallResolved id h
  | recallServer id messageId tip => exact carries_recalled id h

theorem generation_retain {action : ChatClient.Action}
    (h : app.retain action = some next) : next.sessionGeneration = app.sessionGeneration := by
  cases action with
  | restart => cases h
  | _ =>
    simp only [App.retain, map_eq_some_iff] at h
    obtain ⟨world, _, rfl⟩ := h
    split <;> rfl

theorem carries_whenSubscribed {next : Piece env} (h : app.whenSubscribed next = some piece)
    (hnext : Carries app captured next) : Carries app captured piece := by
  rw [App.whenSubscribed] at h
  split at h
  · rw [← some.inj h]
    exact hnext
  cases h

theorem carries_start {event : Event} (h : app.start event = some piece) :
    Carries app none piece := by
  cases event with
  | loadMoreMessages id =>
    simp only [App.start] at h
    split at h
    · cases h
      exact carries_end rfl
    cases h
    exact carries_stay (uncaptured_single rfl)
  | locateMessage id target =>
    simp only [App.start] at h
    split at h
    · cases h
      exact carries_end rfl
    split at h
    · cases h
      exact carries_stay (uncaptured_single rfl)
    cases h
    exact carries_stay (uncaptured_history id _)
  | togglePin id =>
    obtain ⟨conv, _, rfl⟩ := map_eq_some_iff.mp h
    exact .of_frame rfl (uncaptured_single rfl)
  | send id type content createdAt =>
    obtain ⟨conv, _, rfl⟩ := map_eq_some_iff.mp h
    refine carries_of_follows rfl ?_
    intro wait hwait
    rw [mem_singleton.mp hwait]
    exact ⟨_, rfl, .inl rfl⟩
  | prepareOutgoingImage id content createdAt =>
    obtain ⟨conv, _, rfl⟩ := map_eq_some_iff.mp h
    exact .of_frame rfl uncaptured_nil
  | recallMessage id messageId tip =>
    cases h
    exact carries_stay (uncaptured_ite (uncaptured_single rfl) (uncaptured_single rfl))
  | refreshOnlineStatus =>
    cases h
    exact carries_stay uncaptured_refreshOnlineStatus
  | receive items now =>
    exact carries_whenSubscribed h
      (.of_frame (frame_ingestIncoming ..) (uncaptured_ingestIncoming now items))
  | conversationsChanged items =>
    exact carries_whenSubscribed h (carries_end (frame_upsertConversations ..))
  | revoked id clientMsgId tip | readReceipts msgIds | userStatus state =>
    exact carries_whenSubscribed h (carries_end rfl)
  | retention action =>
    obtain ⟨next, hnext, rfl⟩ := map_eq_some_iff.mp h
    exact ⟨generation_retain hnext, by rintro _ ⟨⟩⟩
  | setUser userId hidden exited blocked | hideConversation id
  | removeExitedGroupConversation id | setActiveConversation id | subscribeRealtime
  | unsubscribeRealtime =>
    cases h
    exact carries_end rfl
  | _ =>
    cases h
    exact carries_stay (uncaptured_single rfl)

theorem resume_checked (hchecked : await.checked = true)
    (hcapt : await.captured = some generation) (hother : generation ≠ app.sessionGeneration)
    (h : app.resume await answer = some piece) : piece = (app, []) := by
  cases await with
  | sending carried id send =>
    cases hcapt
    cases answer with
    | message item | failed unavailable =>
      simp only [App.resume, App.sendAnswered, if_pos hother] at h
      exact (some.inj h).symm
    | _ => cases h
  | reappeared carried id send delivered =>
    cases hcapt
    cases answer with
    | done =>
      simp only [App.resume, App.sendReappeared, if_pos hother] at h
      exact (some.inj h).symm
    | _ => cases h
  | resolving carried id delivered =>
    cases hcapt
    cases answer with
    | seq seq message =>
      simp only [App.resume, App.seqResolved, if_pos hother] at h
      exact (some.inj h).symm
    | failed unavailable => exact (some.inj h).symm
    | _ => cases h
  | _ => cases hchecked

theorem conversationsFailed_quiet (h : decide (reload ≠ .refresh) = true) :
    app.conversationsFailed reload = [] := by
  cases reload with
  | refresh => cases h
  | plain | resume => rfl

theorem resume_quietEnd (hquiet : await.quietEnd answer = true)
    (h : app.resume await answer = some piece) : piece = (app, []) := by
  cases await <;> cases answer <;> first | cases hquiet | skip
  case loginForConversations.failed reload _ =>
    rw [← some.inj h, conversationsFailed_quiet hquiet]
  case conversationList.failed reload retried _ =>
    rw [← some.inj h, conversationsFailed_quiet hquiet]
  case pinMessage.failed id pinned incoming _ =>
    cases incoming with
    | true => cases hquiet
    | false => exact (some.inj h).symm
  case checkAccess.failed id unavailable =>
    cases unavailable with
    | true => cases hquiet
    | false => exact (some.inj h).symm
  all_goals exact (some.inj h).symm

end Pieces

/-- A wait that carries a session carries that of its operation. The session of the
store counts sign-outs, as that of the tasks does. -/
def Carried (s : State (App env) Await) : Prop :=
  ∀ task ∈ s.tasks, ∀ generation, task.wait.captured = some generation →
    generation + s.session = task.session + s.shared.sessionGeneration

theorem carried_after {s : State (App env) Await} {session : Nat} {piece : Piece env}
    (hs : Carried s) (hgen : piece.1.sessionGeneration = s.shared.sessionGeneration)
    (hfollows : ∀ wait ∈ piece.2, ∀ generation, wait.captured = some generation →
      generation + s.session = session + s.shared.sessionGeneration) :
    Carried (s.after session piece) := by
  intro task htask generation hcapt
  have hnow : (s.after session piece).shared.sessionGeneration = s.shared.sessionGeneration :=
    hgen
  rw [hnow]
  rcases mem_append.mp htask with htask | htask
  · exact hs task htask generation hcapt
  obtain ⟨wait, hwait, rfl⟩ := List.mem_map.mp htask
  exact hfollows wait hwait generation hcapt

theorem captured_of_checked {await : Await} (h : await.checked = true) :
    ∃ generation, await.captured = some generation := by
  cases await with
  | sending generation id send | reappeared generation id send delivered
  | resolving generation id delivered => exact ⟨generation, rfl⟩
  | _ => cases h

theorem late_resume {s : State (App env) Await} {task : AsyncTasks.Task Await} {answer : Answer}
    {piece : Piece env} (hs : Carried s) (htask : task ∈ s.tasks) (hlate : task.session ≠ s.session)
    (hallow : Isolating s (.resume task answer))
    (h : s.shared.resume task.wait answer = some piece) : piece = (s.shared, []) := by
  rcases hallow with hsess | hchecked | hquiet
  · exact absurd hsess hlate
  · obtain ⟨generation, hcapt⟩ := captured_of_checked hchecked
    have hcarried := hs task htask generation hcapt
    refine resume_checked hchecked hcapt ?_ h
    omega
  exact resume_quietEnd hquiet h

theorem carried_step {s t : State (App env) Await}
    {action : AsyncTasks.Action Await Event Answer} (hs : Carried s)
    (hallow : Isolating s action) (hstep : (storeMachine env).step s action = some t) :
    Carried t := by
  cases action with
  | start event =>
    obtain ⟨piece, hpiece, rfl⟩ := map_eq_some_iff.mp hstep
    have hcarries := carries_start hpiece
    refine carried_after hs hcarries.generation ?_
    intro wait hwait generation hcapt
    rcases hcarries.follows wait hwait generation hcapt with rfl | hnone
    · exact Nat.add_comm ..
    cases hnone
  | resume task answer =>
    obtain ⟨hmem, piece, hpiece, rfl⟩ := AsyncTasks.resume_some hstep
    have hcarries := carries_resume hpiece
    have hrest : Carried { s with tasks := s.tasks.erase task } :=
      fun other hother => hs other (mem_of_mem_erase hother)
    refine carried_after hrest hcarries.generation ?_
    intro wait hwait generation hcapt
    by_cases hsess : task.session = s.session
    · rcases hcarries.follows wait hwait generation hcapt with rfl | hbefore
      · rw [hsess]
        exact Nat.add_comm ..
      exact hs task hmem generation hbefore
    rw [late_resume hs hmem hsess hallow hpiece] at hwait
    cases hwait
  | endSession =>
    cases hstep
    intro task htask generation hcapt
    have hcarried := hs task htask generation hcapt
    have hnext : (s.shared.reset).sessionGeneration = s.shared.sessionGeneration + 1 := rfl
    simp only [program, hnext]
    omega

theorem quiet_of_isolating {s t : State (App env) Await}
    {action : AsyncTasks.Action Await Event Answer} (hs : Carried s)
    (hallow : Isolating s action) (hstep : (storeMachine env).step s action = some t) :
    Quiet (program env) s action := by
  cases action with
  | start event | endSession => trivial
  | resume task answer =>
    by_cases hsess : task.session = s.session
    · exact .inl hsess
    right
    obtain ⟨hmem, piece, hpiece, _⟩ := AsyncTasks.resume_some hstep
    rw [← late_resume hs hmem hsess hallow hpiece]
    exact hpiece

/-- What is shown after a sign-out is what the operations started since show by
themselves, from an empty store, in every run in which nothing that was started
before goes on but to check its session or to end. -/
theorem account_isolated {start s t : State (App env) Await}
    {before after : List (AsyncTasks.Action Await Event Answer)}
    (hstart : (storeMachine env).initial start)
    (hbefore : (storeMachine env).Follows Isolating start (before ++ [.endSession]) s)
    (hafter : (storeMachine env).Follows Isolating s after t)
    (hsame : ∀ action ∈ after, isEnd action = false) : s.shared.shown = .empty ∧
      (storeMachine env).execute ⟨s.shared, s.session, []⟩
        (after.filter (ofSession s.session)) = some t.own := by
  have hempty : ∀ task ∈ start.tasks, False := by
    intro task htask
    rw [hstart.2] at htask
    cases htask
  obtain ⟨middle, hfirst, hallow, last, hend, rfl⟩ := Machine.follows_append.mp hbefore
  have hstep : ∀ (s : State (App env) Await) action t, Isolating s action →
      (Carried s ∧ Started s) → (storeMachine env).step s action = some t →
        Carried t ∧ Started t := fun _ _ _ hallow hs hstep =>
    ⟨carried_step hs.1 hallow hstep, AsyncTasks.started_step hs.2 hstep⟩
  have hmiddle := hfirst.preserves (fun s => Carried s ∧ Started s) hstep
    ⟨fun task htask => (hempty task htask).elim, fun task htask => (hempty task htask).elim⟩
  have hsigned := hstep _ _ _ hallow hmiddle hend
  have hown := AsyncTasks.own_endSession hmiddle.2 hend
  have hquiet := hafter.weaken (fun s => Carried s ∧ Started s) hstep
    (fun _ _ _ hallow hs hstep => quiet_of_isolating hs.1 hallow hstep) hsigned
  have hreplay := AsyncTasks.replay_own hsame hquiet
  cases hend
  refine ⟨rfl, ?_⟩
  rw [hown] at hreplay
  exact hreplay

def sampleEnv : Env := ⟨fun _ => true, id, fun _ _ => [], id, fun primary _ => primary⟩

/-- A store that was just opened. -/
def opened : State (App sampleEnv) Await :=
  ⟨⟨.empty, [], 0, false, ['u'], [], [], [], [], 0, ⟨.fresh, fun _ => none, [], []⟩⟩, 0, []⟩

theorem opened_initial : (storeMachine sampleEnv).initial opened := ⟨rfl, rfl⟩

def sampleRow (id : Char) : ConversationItem :=
  ⟨[id], true, [], 0, none, 0, 0, false, none, []⟩

def groupMessage (name : Char) : MessageItem :=
  ⟨[name], ['g'], ['p'], [], .text, [name], 0, false, 0, .sent, none, false, false⟩

/-- A message is being sent when the user signs out. -/
def sendingAtReset : List (AsyncTasks.Action Await Event Answer) :=
  [.start .subscribeRealtime, .start (.conversationsChanged [sampleRow 'g']),
    .start (.send ['g'] .text ['x'] 0)]

/-- It is sent, and the next account opens the same group. -/
def nextAccount : List (AsyncTasks.Action Await Event Answer) :=
  [.resume ⟨0, .sending 0 ['g'] ⟨1, .text, ['x'], 0, .sending⟩⟩ (.message (groupMessage 'a')),
    .start (.loadMessages ['g']),
    .resume ⟨1, .history ['g'] (.latest [] none)⟩ (.page [groupMessage 'b'] true 0)]

theorem account_isolated_sending : ∃ s t : State (App sampleEnv) Await,
    (t.shared.messages ['g']).ids = [.client ['b']] ∧ s.shared.shown = .empty ∧
      (storeMachine sampleEnv).execute ⟨s.shared, s.session, []⟩
        (nextAccount.filter (ofSession s.session)) = some t.own := by
  have hrun : ((storeMachine sampleEnv).executeBy Isolating opened
      (sendingAtReset ++ [.endSession])).any (fun s =>
        ((storeMachine sampleEnv).executeBy Isolating s nextAccount).any (fun t =>
          (t.shared.messages ['g']).ids = [.client ['b']])) = true := by
    decide +kernel
  obtain ⟨s, hs, hnext⟩ := (any_eq_true _ _).mp hrun
  obtain ⟨t, ht, hids⟩ := (any_eq_true _ _).mp hnext
  exact ⟨s, t, of_decide_eq_true hids, account_isolated opened_initial
    (Machine.follows_of_executeBy hs) (Machine.follows_of_executeBy ht) (by decide)⟩

/-- The messages of a group are being loaded when the user signs out. -/
def loadingAtReset : List (AsyncTasks.Action Await Event Answer) :=
  [.start (.loadMessages ['g'])]

def lateHistory : List (AsyncTasks.Action Await Event Answer) :=
  [.resume ⟨0, .history ['g'] (.latest [] none)⟩ (.page [groupMessage 'a'] true 0)]

/-- The next account, which did nothing, is shown the messages. -/
theorem late_history_shown : ∃ s t : State (App sampleEnv) Await,
    (storeMachine sampleEnv).Follows Machine.unrestricted opened
        (loadingAtReset ++ [.endSession]) s ∧
      (storeMachine sampleEnv).Follows Machine.unrestricted s lateHistory t ∧
      (∀ action ∈ lateHistory, isEnd action = false) ∧
      lateHistory.filter (ofSession s.session) = [] ∧
      (t.shared.messages ['g']).ids = [.client ['a']] ∧
      (storeMachine sampleEnv).execute ⟨s.shared, s.session, []⟩
        (lateHistory.filter (ofSession s.session)) ≠ some t.own := by
  have hrun : ((storeMachine sampleEnv).execute opened
      (loadingAtReset ++ [.endSession])).any (fun s =>
        s.session = 1 && (s.shared.messages ['g']).ids = [] &&
          ((storeMachine sampleEnv).execute s lateHistory).any (fun t =>
            (t.shared.messages ['g']).ids = [.client ['a']])) = true := by
    decide +kernel
  obtain ⟨s, hs, hchecked⟩ := (any_eq_true _ _).mp hrun
  simp only [Bool.and_eq_true, decide_eq_true_eq] at hchecked
  obtain ⟨⟨hsess, hnone⟩, hnext⟩ := hchecked
  obtain ⟨t, ht, hids⟩ := (any_eq_true _ _).mp hnext
  have hids := of_decide_eq_true hids
  have hown : lateHistory.filter (ofSession s.session) = [] := by
    rw [hsess]
    rfl
  refine ⟨s, t, Machine.follows_of_execute hs, Machine.follows_of_execute ht, by decide, hown,
    hids, ?_⟩
  rw [hown]
  intro hreplay
  have hown : (⟨s.shared, s.session, []⟩ : State (App sampleEnv) Await) = t.own :=
    some.inj hreplay
  have hshared := congrArg State.shared hown
  change s.shared = t.shared at hshared
  rw [← hshared, hnone] at hids
  cases hids

end ImApp.ChatStore
